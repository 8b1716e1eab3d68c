import Nimble.Encodings.RleEncoding

/-! # RLE decoding reads the run expansion

The abstract reader of a sequence `E` is a position: `materialize k` returns the `k` values
after it and moves it by `k`, `skip k` moves it, and `reset` sets it to zero. `AtRun` relates a
state of `RLEEncodingBase` to that position. One `materialize` loop keeps it, whatever the nested
streams return past their end, and by induction over the calls every sequence of calls that
stays within `E` writes what the abstract reader returns.
-/

namespace Nimble.Rle

variable {σ α : Type}

/-- What a sequence of calls reads from `E`, the position starting at `p`. -/
def readCalls (E : List α) : List Call → ℕ → List (List α)
  | [], _ => []
  | .materialize k :: cs, p => (E.drop p).take k :: readCalls E cs (p + k)
  | .skip k :: cs, p => readCalls E cs (p + k)
  | .reset :: cs, _ => readCalls E cs 0

/-- The calls never move the position past `n`. -/
def Within (n : ℕ) : List Call → ℕ → Prop
  | [], _ => True
  | .materialize k :: cs, p => p + k ≤ n ∧ Within n cs (p + k)
  | .skip k :: cs, p => p + k ≤ n ∧ Within n cs (p + k)
  | .reset :: cs, _ => Within n cs 0

instance Within.instDecidable (n : ℕ) : (cs : List Call) → (p : ℕ) → Decidable (Within n cs p)
  | [], _ => isTrue trivial
  | .materialize k :: cs, p =>
    have := Within.instDecidable n cs (p + k); inferInstanceAs (Decidable (_ ∧ _))
  | .skip k :: cs, p =>
    have := Within.instDecidable n cs (p + k); inferInstanceAs (Decidable (_ ∧ _))
  | .reset :: cs, _ => Within.instDecidable n cs 0

section Refinement

variable (d : RunValues σ α) (r : σ) (rl : ℕ → UInt32) (L : List ℕ) (W : List α)

def AtRun (s : RLEEncodingBase σ α) (p j : ℕ) : Prop :=
  s.materializedRunLengths = ⟨rl, j + 1⟩ ∧ s.derived = d.iterate r (j + 1) ∧
    ((∃ hj : j < W.length, s.currentValue = W[j] ∧
        (expand L W).drop p =
          List.replicate s.copiesRemaining W[j] ++ expand (L.drop (j + 1)) (W.drop (j + 1))) ∨
      (W.length ≤ j ∧ (expand L W).length ≤ p))

variable {d r rl L W}
variable (hrl : ∀ i (h : i < L.length), (rl i).toNat = L[i])
  (hW : ∀ i (h : i < W.length), d.valueAt r i = W[i]) (hLW : L.length = W.length)
include hrl hW hLW

theorem atRun_loadRun {i p : ℕ}
    (hdrop : (expand L W).drop p = expand (L.drop i) (W.drop i)) :
    AtRun d r rl L W (loadRun d ⟨rl, i⟩ (d.iterate r i)) p i := by
  refine ⟨rfl, rfl, ?_⟩
  by_cases hi : i < W.length
  · have hiL : i < L.length := hLW ▸ hi
    refine .inl ⟨hi, hW i hi, ?_⟩
    simp only [loadRun, BufferedEncoding.nextValue_fst, hrl i hiL, hdrop, expand_drop hiL hi]
  · have hnil : W.drop i = [] := List.drop_eq_nil_of_le (by omega)
    rw [hnil, expand_nil_right, List.drop_eq_nil_iff] at hdrop
    exact .inr ⟨by omega, hdrop⟩

theorem atRun_reset (position : ℕ) {v : σ}
    (hv : d.resetValues v = r) : AtRun d r rl L W (reset d ⟨rl, position⟩ v) 0 0 := by
  have h := atRun_loadRun hrl hW hLW
    (by simp : (expand L W).drop 0 = expand (L.drop 0) (W.drop 0))
  rwa [reset, hv]

omit hrl hW hLW in
theorem AtRun.inRun {s : RLEEncodingBase σ α} {p j : ℕ} (hs : AtRun d r rl L W s p j)
    (hp : p < (expand L W).length) : ∃ hj : j < W.length, s.currentValue = W[j] ∧
      (expand L W).drop p =
        List.replicate s.copiesRemaining W[j] ++ expand (L.drop (j + 1)) (W.drop (j + 1)) := by
  rcases hs.2.2 with h | ⟨-, h⟩
  · exact h
  · omega

theorem materializeLoop_spec (fuel k p j : ℕ) (s : RLEEncodingBase σ α)
    (hs : AtRun d r rl L W s p j) (hfuel : L.length ≤ j + fuel)
    (hk : p + k ≤ (expand L W).length) :
    ∃ s' j', materializeLoop d k s fuel = some (((expand L W).drop p).take k, s') ∧
      AtRun d r rl L W s' (p + k) j' := by
  rcases Nat.eq_zero_or_pos k with rfl | hk0
  · exact ⟨s, j, by simp, hs⟩
  obtain ⟨hj, hv, hdrop⟩ := hs.inRun (by omega)
  obtain ⟨hrs, hds, -⟩ := hs
  by_cases hlt : k < s.copiesRemaining
  · refine ⟨{ s with copiesRemaining := s.copiesRemaining - k }, j, ?_, hrs, hds,
      .inl ⟨hj, hv, ?_⟩⟩
    · rw [materializeLoop_of_lt d (by omega) hlt, hdrop, hv]
      simp [List.take_append_eq_append_take, hlt.le, Nat.sub_eq_zero_of_le]
    · rw [← List.drop_drop, hdrop]
      simp [List.drop_append_eq_append_drop, hlt.le, Nat.sub_eq_zero_of_le]
  · have hle : s.copiesRemaining ≤ k := Nat.not_lt.mp hlt
    obtain ⟨fuel, rfl⟩ : ∃ f, fuel = f + 1 := ⟨fuel - 1, by omega⟩
    have hR : (expand L W).drop (p + s.copiesRemaining) =
        expand (L.drop (j + 1)) (W.drop (j + 1)) := by
      rw [← List.drop_drop, hdrop]; simp
    obtain ⟨s', j', hloop, hs'⟩ := materializeLoop_spec fuel (k - s.copiesRemaining) _ (j + 1) _
      (atRun_loadRun hrl hW hLW hR) (by omega) (by omega)
    refine ⟨s', j', ?_, by
      rwa [show p + s.copiesRemaining + (k - s.copiesRemaining) = p + k by omega] at hs'⟩
    rw [materializeLoop_of_le d (by omega) hle, hrs, hds, hloop, hR, hdrop, hv]
    simp [List.take_append_eq_append_take, hle]
termination_by fuel

theorem runCalls_spec (hr : d.resetValues r = r) {fuel : ℕ} (hfuel : L.length ≤ fuel) :
    ∀ (cs : List Call) (s : RLEEncodingBase σ α) (p j : ℕ), AtRun d r rl L W s p j →
      Within (expand L W).length cs p →
      runCalls d fuel cs s = some (readCalls (expand L W) cs p) := by
  intro cs
  induction cs with
  | nil => intros; rfl
  | cons c cs ih =>
    intro s p j hs hw
    cases c with
    | materialize k =>
      obtain ⟨s', j', hloop, hs'⟩ :=
        materializeLoop_spec hrl hW hLW fuel k p j s hs (by omega) hw.1
      simp [runCalls, materialize, hloop, readCalls, ih s' (p + k) j' hs' hw.2]
    | skip k =>
      obtain ⟨s', j', hloop, hs'⟩ :=
        materializeLoop_spec hrl hW hLW fuel k p j s hs (by omega) hw.1
      simp [runCalls, skip, hloop, readCalls, ih s' (p + k) j' hs' hw.2]
    | reset =>
      have hv : d.resetValues s.derived = r := by rw [hs.2.1, d.resetValues_iterate, hr]
      have h0 := atRun_reset hrl hW hLW (j + 1) hv
      rw [← hs.1] at h0
      exact ih _ 0 0 h0 hw

end Refinement

theorem runCalls_ofDecoded {L : List UInt32} {W : List α} {runLengths : ℕ → UInt32}
    {values : ℕ → α} {calls : List Call} {fuel : ℕ} (hLW : L.length = W.length)
    (hrl : ∀ i (h : i < L.length), runLengths i = L[i])
    (hvals : ∀ i (h : i < W.length), values i = W[i])
    (hcalls : Within (L.map UInt32.toNat).sum calls 0) (hfuel : L.length ≤ fuel) :
    runCalls valuesRunValues fuel calls (RLEEncoding.ofDecoded runLengths values) =
      some (readCalls (expand (L.map UInt32.toNat) W) calls 0) := by
  have hLW' : (L.map UInt32.toNat).length = W.length := by simpa using hLW
  have hrl' : ∀ i (h : i < (L.map UInt32.toNat).length),
      (runLengths i).toNat = (L.map UInt32.toNat)[i] := by
    intro i h; simp [hrl i (by simpa using h)]
  have hW : ∀ i (h : i < W.length), valuesRunValues.valueAt ⟨values, 0⟩ i = W[i] := by
    intro i h; simp [hvals i h]
  refine runCalls_spec hrl' hW hLW' rfl (by simpa using hfuel) calls _ 0 0
    (atRun_reset hrl' hW hLW' 0 rfl) ?_
  rwa [length_expand hLW']

theorem runCalls_ofDecodedBool {L : List UInt32} {initialValue : Bool}
    {runLengths : ℕ → UInt32} {calls : List Call} {fuel : ℕ}
    (hrl : ∀ i (h : i < L.length), runLengths i = L[i])
    (hcalls : Within (L.map UInt32.toNat).sum calls 0) (hfuel : L.length ≤ fuel) :
    runCalls boolRunValues fuel calls (RLEEncoding.ofDecodedBool runLengths initialValue) =
      some (readCalls (expand (L.map UInt32.toNat)
        ((List.range L.length).map (alternate initialValue))) calls 0) := by
  have hLW : (L.map UInt32.toNat).length =
      ((List.range L.length).map (alternate initialValue)).length := by simp
  have hrl' : ∀ i (h : i < (L.map UInt32.toNat).length),
      (runLengths i).toNat = (L.map UInt32.toNat)[i] := by
    intro i h; simp [hrl i (by simpa using h)]
  have hW : ∀ i (h : i < ((List.range L.length).map (alternate initialValue)).length),
      boolRunValues.valueAt (initialValue, initialValue) i =
        ((List.range L.length).map (alternate initialValue))[i] := by
    intro i h; simp [boolRunValues_valueAt]
  refine runCalls_spec hrl' hW hLW rfl (by simpa using hfuel) calls _ 0 0
    (atRun_reset hrl' hW hLW 0 rfl) ?_
  rwa [length_expand hLW]

/-- An `RLEEncoding` whose nested encodings decode to run lengths `L` and run values `W` (for
`bool`, the values alternate from the stored first value), read past their end in any way:
every sequence of `materialize`, `skip` and `reset` calls that never moves past the `L.sum` rows
of the data terminates, and each `materialize` writes the next values of `expand L W`. -/
theorem rle_decoder_reads_run_expansion :
    (∀ {α : Type} (L : List UInt32) (W : List α) (runLengths : ℕ → UInt32) (values : ℕ → α)
        (calls : List Call) (fuel : ℕ),
      L.length = W.length → (∀ i (h : i < L.length), runLengths i = L[i]) →
      (∀ i (h : i < W.length), values i = W[i]) →
      Within (L.map UInt32.toNat).sum calls 0 → L.length ≤ fuel →
      runCalls valuesRunValues fuel calls (RLEEncoding.ofDecoded runLengths values) =
        some (readCalls (expand (L.map UInt32.toNat) W) calls 0)) ∧
    (∀ (L : List UInt32) (initialValue : Bool) (runLengths : ℕ → UInt32) (calls : List Call)
        (fuel : ℕ),
      (∀ i (h : i < L.length), runLengths i = L[i]) →
      Within (L.map UInt32.toNat).sum calls 0 → L.length ≤ fuel →
      runCalls boolRunValues fuel calls (RLEEncoding.ofDecodedBool runLengths initialValue) =
        some (readCalls (expand (L.map UInt32.toNat)
          ((List.range L.length).map (alternate initialValue))) calls 0)) :=
  ⟨fun _ _ _ _ _ _ hLW hrl hvals hcalls hfuel => runCalls_ofDecoded hLW hrl hvals hcalls hfuel,
    fun _ _ _ _ _ hrl hcalls hfuel => runCalls_ofDecodedBool hrl hcalls hfuel⟩

theorem rle_decoder_reads_run_expansion_example :
    Within 6 [.skip 4, .materialize 2, .reset, .materialize 6] 0 ∧
    runCalls valuesRunValues 4 [.skip 4, .materialize 2, .reset, .materialize 6]
        (RLEEncoding.ofDecoded (fun i => [3, 2, 0, 1].getD i 7) (fun i => [10, 20, 30, 40].getD i 99)) =
      some [[20, 40], [10, 10, 10, 20, 20, 40]] ∧
    runCalls boolRunValues 4 [.skip 4, .materialize 2, .reset, .materialize 6]
        (RLEEncoding.ofDecodedBool (fun i => [3, 2, 0, 1].getD i 7) true) =
      some [[false, false], [true, true, true, false, false, false]] :=
  ⟨by decide,
    rle_decoder_reads_run_expansion.1 [3, 2, 0, 1] [10, 20, 30, 40] _ _ _ 4 rfl (by decide)
      (by decide) (by decide) (by decide),
    rle_decoder_reads_run_expansion.2 [3, 2, 0, 1] true _ _ 4 (by decide) (by decide)
      (by decide)⟩

end Nimble.Rle
