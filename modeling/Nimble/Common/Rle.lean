import Mathlib

/-! # Runs of a value sequence

`rle::computeRuns` cuts a sequence into its maximal runs of equal values, as a vector of run
lengths and a vector of run values. Its header is not among the repository's files, so it is
modelled from the spec (bool scenario: `[T,T,T,F,F,T]` has run lengths `[3,2,1]`). `expand` is
what a pair of run lengths and run values stands for, and every decoder result below is stated
against it.
-/

namespace Nimble.Rle

variable {α : Type}

/-- `L[i]` copies of `W[i]`, for every run `i` of the run lengths `L` and run values `W`. -/
def expand : List ℕ → List α → List α
  | l :: ls, w :: ws => List.replicate l w ++ expand ls ws
  | _, _ => []

@[simp] theorem expand_nil_left (W : List α) : expand [] W = [] := rfl
@[simp] theorem expand_nil_right (L : List ℕ) : expand L ([] : List α) = [] := by
  cases L <;> rfl
@[simp] theorem expand_cons (l : ℕ) (ls : List ℕ) (w : α) (ws : List α) :
    expand (l :: ls) (w :: ws) = List.replicate l w ++ expand ls ws := rfl

theorem length_expand {L : List ℕ} {W : List α} (h : L.length = W.length) :
    (expand L W).length = L.sum := by
  induction L generalizing W with
  | nil => rfl
  | cons l ls ih =>
    cases W with
    | nil => cases h
    | cons w ws => simp [ih (Nat.succ.inj h)]

theorem expand_drop {L : List ℕ} {W : List α} {j : ℕ} (hj : j < L.length)
    (hW : j < W.length) :
    expand (L.drop j) (W.drop j) =
      List.replicate L[j] W[j] ++ expand (L.drop (j + 1)) (W.drop (j + 1)) := by
  rw [List.drop_eq_getElem_cons hj, List.drop_eq_getElem_cons hW, expand_cons]

/-- Modelled from the spec: `rle::computeRuns`, the maximal runs of equal values. -/
def computeRuns [DecidableEq α] : List α → List ℕ × List α
  | [] => ([], [])
  | x :: xs =>
    match computeRuns xs with
    | (l :: ls, w :: ws) => if x = w then ((l + 1) :: ls, w :: ws) else (1 :: l :: ls, x :: w :: ws)
    | _ => ([1], [x])

variable [DecidableEq α]

theorem computeRuns_cons (x : α) (xs : List α) :
    (xs = [] ∧ computeRuns (x :: xs) = ([1], [x])) ∨
    ∃ l ls w ws, computeRuns xs = (l :: ls, w :: ws) ∧
      computeRuns (x :: xs) =
        if x = w then ((l + 1) :: ls, w :: ws) else (1 :: l :: ls, x :: w :: ws) := by
  cases xs with
  | nil => exact .inl ⟨rfl, rfl⟩
  | cons y ys =>
    right
    rcases computeRuns_cons y ys with ⟨rfl, h⟩ | ⟨l, ls, w, ws, -, h⟩
    · exact ⟨1, [], y, [], h, by rw [computeRuns, h]⟩
    · split_ifs at h <;> exact ⟨_, _, _, _, h, by rw [computeRuns, h]⟩

theorem computeRuns_length_eq (V : List α) :
    (computeRuns V).1.length = (computeRuns V).2.length := by
  induction V with
  | nil => rfl
  | cons x xs ih =>
    rcases computeRuns_cons x xs with ⟨-, h⟩ | ⟨l, ls, w, ws, hr, h⟩
    · rw [h]; rfl
    · rw [hr] at ih; rw [h]; split_ifs <;> simpa using ih

theorem expand_computeRuns (V : List α) : expand (computeRuns V).1 (computeRuns V).2 = V := by
  induction V with
  | nil => rfl
  | cons x xs ih =>
    rcases computeRuns_cons x xs with ⟨rfl, h⟩ | ⟨l, ls, w, ws, hr, h⟩
    · rw [h]; rfl
    · rw [hr] at ih; rw [h]
      split_ifs with hx
      · simpa [hx, List.replicate_succ] using ih
      · simpa using ih

theorem head_computeRuns (V : List α) : (computeRuns V).2.head? = V.head? := by
  cases V with
  | nil => rfl
  | cons x xs =>
    rcases computeRuns_cons x xs with ⟨-, h⟩ | ⟨l, ls, w, ws, hr, h⟩
    · rw [h]; rfl
    · rw [h]; split_ifs with hx
      · have := head_computeRuns xs; rw [hr] at this
        cases xs with
        | nil => simp [computeRuns] at hr
        | cons y ys => simp_all
      · rfl

theorem computeRuns_chain (V : List α) : (computeRuns V).2.Chain' (· ≠ ·) := by
  induction V with
  | nil => exact List.chain'_nil
  | cons x xs ih =>
    rcases computeRuns_cons x xs with ⟨-, h⟩ | ⟨l, ls, w, ws, hr, h⟩
    · rw [h]; exact List.chain'_singleton x
    · rw [hr] at ih; rw [h]; split_ifs with hx
      · exact ih
      · exact ih.cons hx

theorem computeRuns_le (V : List α) :
    (∀ l ∈ (computeRuns V).1, l ≤ V.length) ∧ (computeRuns V).1.length ≤ V.length := by
  induction V with
  | nil => simp [computeRuns]
  | cons x xs ih =>
    rcases computeRuns_cons x xs with ⟨-, h⟩ | ⟨l, ls, w, ws, hr, h⟩
    · rw [h]; simp
    · rw [hr] at ih; rw [h]
      obtain ⟨hle, hlen⟩ := ih
      split_ifs
      · simp only [List.mem_cons, List.length_cons] at hle hlen ⊢
        refine ⟨?_, by omega⟩
        rintro a (rfl | ha)
        · have := hle l (.inl rfl); omega
        · have := hle a (.inr ha); omega
      · simp only [List.mem_cons, List.length_cons] at hle hlen ⊢
        refine ⟨?_, by omega⟩
        rintro a (rfl | rfl | ha)
        · omega
        · have := hle a (.inl rfl); omega
        · have := hle a (.inr ha); omega

/-- The `i`-th of a sequence of bools that alternates from `b`. -/
def alternate (b : Bool) (i : ℕ) : Bool := if i % 2 = 0 then b else !b

@[simp] theorem alternate_zero (b : Bool) : alternate b 0 = b := rfl
@[simp] theorem alternate_not (b : Bool) (i : ℕ) : alternate (!b) i = !alternate b i := by
  unfold alternate; split_ifs <;> rfl
@[simp] theorem alternate_succ (b : Bool) (i : ℕ) : alternate b (i + 1) = alternate (!b) i := by
  unfold alternate; split_ifs <;> simp <;> omega

theorem getElem_of_chain_ne {b : Bool} {ws : List Bool} (h : (b :: ws).Chain' (· ≠ ·))
    (i : ℕ) (hi : i < (b :: ws).length) : (b :: ws)[i] = alternate b i := by
  induction ws generalizing b i with
  | nil => cases i with
    | zero => rfl
    | succ i => simp at hi
  | cons w ws ih =>
    cases i with
    | zero => rfl
    | succ i =>
      obtain ⟨hbw, hw⟩ := List.chain'_cons.mp h
      have hw' : w = !b := by cases b <;> cases w <;> simp_all
      simp only [List.getElem_cons_succ, alternate_succ, ← hw']
      exact ih hw i (by simpa using hi)

theorem map_alternate_of_chain_ne {b : Bool} {ws : List Bool} (h : (b :: ws).Chain' (· ≠ ·)) :
    (List.range (b :: ws).length).map (alternate b) = b :: ws :=
  List.ext_getElem (by simp) fun i _ hi => by simp [getElem_of_chain_ne h i hi]

end Nimble.Rle
