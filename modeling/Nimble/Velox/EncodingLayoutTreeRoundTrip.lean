import Nimble.Velox.EncodingLayoutTreeRead
import Nimble.Velox.EncodingLayoutTreeWrite

/-! # Reading back what `serialize` wrote

When every name and every layout fits its 2-byte length field (`FitsFormat`) and
`EncodingLayout::create` reads back what `EncodingLayout::serialize` wrote, `createInternal` on the
bytes of a tree, followed by anything, returns the tree and the count of its bytes
(`createInternal_serializedBytes`); so a successful `serialize` round-trips through `create`
(`serialize_round_trip`). Neither length field is checked by `serialize`: a name of `2 ^ 16` bytes
is written with the length `0`, and read back as the empty name.
-/

namespace Nimble.EncodingLayoutTree

open Encoding

variable {Layout : Type}

theorem drop_add_of_drop {tree xs ys : List UInt8} {n m : ℕ} (h : tree.drop n = xs ++ ys)
    (hm : m = n + xs.length) : tree.drop m = ys := by
  rw [hm, ← List.drop_drop, h, List.drop_left]

theorem readAt_of_drop {tree bytes rest : List UInt8} {pos : ℕ}
    (h : tree.drop pos = bytes ++ rest) {width : ℕ} (hw0 : 0 < width)
    (hw : width ≤ bytes.length) :
    readAt tree pos width = .ok (readLE (bytes.take width)) := by
  have hlen : tree.length = pos + bytes.length + rest.length := by
    have := congrArg List.length h; simp at this; omega
  exact readAt_eq_ok.mpr ⟨by omega, by rw [h, List.take_append_of_le_length hw]⟩

/-- Every name and every layout of the tree fits its 2-byte length field. -/
def FitsFormat (codec : LayoutCodec Layout) : EncodingLayoutTree Layout → Prop
  | mk _ encodingLayouts name children _ _ =>
    name.length < 2 ^ 16 ∧ (∀ e ∈ encodingLayouts, (codec.bytes e.2).length < 2 ^ 16) ∧
      childrenFit children
where
  childrenFit : List (EncodingLayoutTree Layout) → Prop
    | [] => True
    | child :: children => FitsFormat codec child ∧ childrenFit children

theorem length_le_childrenBytes (codec : LayoutCodec Layout) :
    ∀ children : List (EncodingLayoutTree Layout),
      children.length ≤ (serializedBytes.childrenBytes codec children).length
  | [] => le_rfl
  | mk .. :: children => by
    have := length_le_childrenBytes codec children
    simp [serializedBytes.childrenBytes, serializedBytes]; omega

/-- `EncodingLayout::create` reads back, whole, what `EncodingLayout::serialize` writes. -/
def LayoutCodec.ReadsBack (codec : LayoutCodec Layout) : Prop :=
  ∀ layout, codec.create (codec.bytes layout) = .ok (layout, (codec.bytes layout).length)

theorem readLayouts_layoutBytes (codec : LayoutCodec Layout) (hinv : codec.ReadsBack) :
    ∀ (ls : List (StreamIdentifier × Layout)) (m : LayoutMap Layout) (tree post : List UInt8)
      (pos : ℕ), tree.drop pos = layoutBytes codec ls ++ post →
      (∀ e ∈ ls, (codec.bytes e.2).length < 2 ^ 16) →
      (m.1.map Prod.fst ++ ls.map Prod.fst).Nodup →
      ∃ m', readLayouts codec tree ls.length m pos =
        .ok (m', pos + (layoutBytes codec ls).length) ∧ m'.1 = m.1 ++ ls
  | [], m, tree, post, pos, _, _, _ => ⟨m, by simp [readLayouts, layoutBytes], by simp⟩
  | (id, l) :: rest, m, tree, post, pos, hdrop, hfit, hnd => by
    have hb := hfit (id, l) (List.mem_cons_self _ _)
    have hlb : (layoutBytes codec ((id, l) :: rest)).length =
        3 + (codec.bytes l).length + (layoutBytes codec rest).length := by
      simp [layoutBytes]; omega
    have hlen : tree.length = pos + (layoutBytes codec ((id, l) :: rest)).length + post.length := by
      have := congrArg List.length hdrop; simp at this; omega
    have d0 : tree.drop pos = [id] ++
        (writeLE 2 (codec.bytes l).length ++ codec.bytes l ++ layoutBytes codec rest ++ post) := by
      rw [hdrop]; simp [layoutBytes]
    have d1 : tree.drop (pos + 1) = writeLE 2 (codec.bytes l).length ++
        (codec.bytes l ++ layoutBytes codec rest ++ post) := by
      rw [drop_add_of_drop d0 (by simp)]; simp
    have d3 : tree.drop (pos + 3) = codec.bytes l ++ (layoutBytes codec rest ++ post) := by
      rw [show pos + 3 = pos + 1 + 2 by omega, ← List.drop_drop, d1]; simp
    have dnext : tree.drop (pos + 3 + (codec.bytes l).length) = layoutBytes codec rest ++ post := by
      rw [← List.drop_drop, d3]; simp
    have hid : id ∉ m.1.map Prod.fst := fun h =>
      List.disjoint_of_nodup_append hnd h (List.mem_cons_self _ _)
    obtain ⟨m', hm', hm'1⟩ := readLayouts_layoutBytes codec hinv rest (m.insert id l) tree post
      (pos + 3 + (codec.bytes l).length) dnext (fun e he => hfit e (List.mem_cons_of_mem _ he))
      (by rw [LayoutMap.insert_of_not_mem hid]; simpa using hnd)
    refine ⟨m', ?_, by rw [hm'1, LayoutMap.insert_of_not_mem hid]; simp⟩
    rw [List.length_cons, readLayouts, bind_of_eq_ok (alphaCheck_eq_ok.mpr (by omega)),
      bind_of_eq_ok (readAt_of_drop d0 (by omega) (by simp)),
      bind_of_eq_ok (readAt_of_drop d1 (by omega) (by simp))]
    have eid : UInt8.ofNat (readLE ([id].take 1)) = id := by simp
    rw [readLE_take_writeLE (by simpa using hb), eid, d3, List.take_left,
      bind_of_eq_ok (alphaCheck_eq_ok.mpr (by omega)), hinv l,
      bind_of_eq_ok (show (Except.ok (l, (codec.bytes l).length) : Except String _).mapError
        Failure.check = .ok (l, (codec.bytes l).length) from rfl),
      bind_of_eq_ok (alphaCheck_eq_ok.mpr rfl)]
    dsimp only
    rw [hm']
    congr 2
    omega

mutual

theorem createInternal_serializedBytes (codec : LayoutCodec Layout) (hinv : codec.ReadsBack) :
    ∀ (tree : EncodingLayoutTree Layout) (fuel : ℕ) (post : List UInt8),
      FitsFormat codec tree → (serializedBytes codec tree).length < fuel →
      (serializedBytes codec tree).length < 2 ^ 32 →
      createInternal codec fuel (serializedBytes codec tree ++ post) =
        .ok (tree, (serializedBytes codec tree).length)
  | _, 0, _, _, h, _ => absurd h (Nat.not_lt_zero _)
  | mk k ls name children h1 h2, fuel + 1, post, ⟨hname, hls, hchildren⟩, hfuel, hsmall => by
    have hlen := length_serializedBytes codec k ls name children h1 h2
    have hcs := length_le_childrenBytes codec children
    set tree := serializedBytes codec (mk k ls name children h1 h2) ++ post
    have htree : tree.length = 8 + name.length + (layoutBytes codec ls).length +
        (serializedBytes.childrenBytes codec children).length + post.length := by
      simp [tree, hlen]
    have d0 : tree.drop 0 = [k] ++ (writeLE 2 name.length ++ (name ++ (writeLE 1 ls.length ++
        (layoutBytes codec ls ++ (writeLE 4 children.length ++
          (serializedBytes.childrenBytes codec children ++ post)))))) := by
      simp [tree, serializedBytes]
    have d1 := drop_add_of_drop d0 (show 1 = 0 + [k].length by simp)
    have d3 := drop_add_of_drop d1 (show 3 = 1 + (writeLE 2 name.length).length by simp)
    have d3n := drop_add_of_drop d3 (rfl : 3 + name.length = 3 + name.length)
    have d4 := drop_add_of_drop d3n
      (show 4 + name.length = 3 + name.length + (writeLE 1 ls.length).length by simp; omega)
    have dlb := drop_add_of_drop d4 (rfl : 4 + name.length + (layoutBytes codec ls).length = _)
    have dcb := drop_add_of_drop dlb
      (show (4 + name.length + (layoutBytes codec ls).length + 4) % 2 ^ 32 =
        4 + name.length + (layoutBytes codec ls).length + (writeLE 4 children.length).length by
          rw [Nat.mod_eq_of_lt (by omega)]; simp)
    obtain ⟨m, hm, hm1⟩ :=
      readLayouts_layoutBytes codec hinv ls ⟨[], List.nodup_nil⟩ tree _ _ d4 hls
        (by simpa using h1)
    unfold createInternal
    rw [bind_of_eq_ok (alphaCheck_eq_ok.mpr (by unfold kMinBufferSize; omega)),
      bind_of_eq_ok (readAt_of_drop d0 (by omega) (by simp)),
      bind_of_eq_ok (readAt_of_drop d1 (by omega) (by simp)), readLE_take_writeLE (by omega),
      bind_of_eq_ok (alphaCheck_eq_ok.mpr (by unfold kMinBufferSize; omega)),
      bind_of_eq_ok (readAt_of_drop d3n (by omega) (by simp)), readLE_take_writeLE (by omega), hm,
      ok_bind]
    dsimp only
    rw [bind_of_eq_ok (readAt_of_drop dlb (by omega) (by simp)), readLE_take_writeLE (by omega),
      readChildren_childrenBytes codec hinv children [] fuel tree post _ dcb hchildren (by omega)
        (by rw [Nat.mod_eq_of_lt (by omega)]; omega), ok_bind, d3, List.take_left]
    obtain ⟨m, hm'⟩ := m
    simp only [List.nil_append] at hm1
    have hmake : make (UInt8.ofNat (readLE ([k].take 1))) ⟨m, hm'⟩ name ([] ++ children) =
        .ok (mk k ls name children h1 h2) := by
      subst hm1; simp [make, h2]
    rw [bind_of_eq_ok hmake, Nat.mod_eq_of_lt (by omega), hlen]
    congr 2
    omega

theorem readChildren_childrenBytes (codec : LayoutCodec Layout) (hinv : codec.ReadsBack) :
    ∀ (children acc : List (EncodingLayoutTree Layout)) (fuel : ℕ) (tree post : List UInt8)
      (offset : ℕ), tree.drop offset = serializedBytes.childrenBytes codec children ++ post →
      FitsFormat.childrenFit codec children →
      (serializedBytes.childrenBytes codec children).length < fuel →
      offset + (serializedBytes.childrenBytes codec children).length < 2 ^ 32 →
      readChildren (createInternal codec fuel) tree children.length acc offset =
        .ok (acc ++ children, offset + (serializedBytes.childrenBytes codec children).length)
  | [], acc, _, _, _, offset, _, _, _, _ => by simp [readChildren, serializedBytes.childrenBytes]
  | child :: children, acc, fuel, tree, post, offset, hdrop, ⟨hfit, hfits⟩, hfuel, hsmall => by
    have hlen := length_childrenBytes_cons codec child children
    have hoff : offset ≤ tree.length := by
      have := congrArg List.length hdrop
      have : 0 < (serializedBytes codec child).length := by cases child; simp [serializedBytes]
      simp [hlen] at *; omega
    have hview : tree.drop offset = serializedBytes codec child ++
        (serializedBytes.childrenBytes codec children ++ post) := by
      rw [hdrop]; simp [serializedBytes.childrenBytes]
    have hnext : tree.drop (offset + (serializedBytes codec child).length) =
        serializedBytes.childrenBytes codec children ++ post := by
      rw [← List.drop_drop, hview, List.drop_left]
    rw [List.length_cons, readChildren, if_neg (by omega), hview,
      bind_of_eq_ok (createInternal_serializedBytes codec hinv child fuel _ hfit (by omega)
        (by omega))]
    dsimp only
    rw [Nat.mod_eq_of_lt (by omega),
      readChildren_childrenBytes codec hinv children _ fuel tree post _ hnext hfits (by omega)
        (by omega)]
    simp [hlen, Nat.add_assoc]

end

theorem take_drop_place (output : List UInt8) {base : ℕ} (bytes : List UInt8)
    (h : base ≤ output.length) :
    ((place output base bytes).drop base).take bytes.length = bytes := by
  have : (output.take base).length = base := by simp; omega
  rw [place, List.append_assoc, List.drop_left' this, List.take_left]

/-- Every buffer under 4 GiB on which `serialize` succeeds holds, in the `m` bytes it reports,
a tree that `create` reads back whole and in `m` bytes, whatever bytes follow. -/
theorem serialize_round_trip (codec : LayoutCodec Layout)
    (hinv : ∀ layout, codec.create (codec.bytes layout) = .ok (layout, (codec.bytes layout).length))
    (tree : EncodingLayoutTree Layout) (hfit : FitsFormat codec tree) (output : List UInt8)
    (base : ℕ) (hsmall : output.length < 2 ^ 32) (output' : List UInt8) (m : ℕ)
    (h : serialize codec tree output base = .ok (output', m)) (post : List UInt8) :
    createInternal codec (((output'.drop base).take m ++ post).length + 1)
      ((output'.drop base).take m ++ post) = .ok (tree, m) := by
  have hroom := room_of_serialize codec tree output base _ _ h hsmall
  rw [serialize_eq codec tree output base hroom hsmall] at h
  cases h
  rw [take_drop_place output _ (by omega)]
  exact createInternal_serializedBytes codec hinv tree _ post hfit (by simp; omega) (by omega)

theorem serialize_round_trip_example :
    (∀ layout, LayoutCodec.ofBytes.create (LayoutCodec.ofBytes.bytes layout) =
      .ok (layout, (LayoutCodec.ofBytes.bytes layout).length)) ∧
    FitsFormat LayoutCodec.ofBytes
      (mk 1 [(3, [7, 7])] [65] [mk 0 [] [] [] List.nodup_nil (by decide)] (by decide) (by decide)) ∧
    (List.replicate 24 0 : List UInt8).length < 2 ^ 32 ∧
    serialize LayoutCodec.ofBytes
        (mk 1 [(3, [7, 7])] [65] [mk 0 [] [] [] List.nodup_nil (by decide)] (by decide) (by decide))
        (List.replicate 24 0) 2 =
      .ok ([0, 0, 1, 1, 0, 65, 1, 3, 2, 0, 7, 7, 1, 0, 0, 0, 0, 0, 0, 0, 0, 0, 0, 0], 22) ∧
    createInternal LayoutCodec.ofBytes 25
        [1, 1, 0, 65, 1, 3, 2, 0, 7, 7, 1, 0, 0, 0, 0, 0, 0, 0, 0, 0, 0, 0, 9, 9] =
      .ok (mk 1 [(3, [7, 7])] [65] [mk 0 [] [] [] List.nodup_nil (by decide)] (by decide)
        (by decide), 22) := by
  have hser : serialize LayoutCodec.ofBytes
      (mk 1 [(3, [7, 7])] [65] [mk 0 [] [] [] List.nodup_nil (by decide)] (by decide) (by decide))
      (List.replicate 24 0) 2 =
      .ok ([0, 0, 1, 1, 0, 65, 1, 3, 2, 0, 7, 7, 1, 0, 0, 0, 0, 0, 0, 0, 0, 0, 0, 0], 22) := by
    rw [serialize_eq _ _ _ _ (by decide) (by decide), Except.ok.injEq]
    decide
  have hfit : FitsFormat LayoutCodec.ofBytes
      (mk 1 [(3, [7, 7])] [65] [mk 0 [] [] [] List.nodup_nil (by decide)] (by decide) (by decide)) := by
    simp [FitsFormat, FitsFormat.childrenFit, LayoutCodec.ofBytes]
  exact ⟨fun _ => rfl, hfit, by decide, hser,
    serialize_round_trip LayoutCodec.ofBytes (fun _ => rfl) _ hfit (List.replicate 24 0) 2
      (by decide) _ _ hser [9, 9]⟩

/-- `serialize` writes a name's length as a `uint16_t` with no check: a name of `2 ^ 16` bytes
is written with the length `0`, so every node read back from the bytes written has the empty
name. -/
theorem serialize_truncates_name_length (codec : LayoutCodec Layout) (schemaKind : UInt8)
    (name : List UInt8) (hname : name.length = 2 ^ 16) (output : List UInt8)
    (hroom : name.length + 8 ≤ output.length) (hsmall : output.length < 2 ^ 32) (fuel : ℕ)
    (post : List UInt8) :
    ∃ output' m, serialize codec (mk schemaKind [] name [] (by simp) (by simp)) output 0 =
        .ok (output', m) ∧ m = name.length + 8 ∧
      ∀ node n, createInternal codec fuel (output'.take m ++ post) = .ok (node, n) →
        node.name = [] := by
  have hlen : (serializedBytes codec (mk schemaKind [] name [] (by simp) (by simp))).length =
      name.length + 8 := by
    simp [serializedBytes, layoutBytes, serializedBytes.childrenBytes]; omega
  refine ⟨_, _, serialize_eq codec _ output 0 (by omega) hsmall, hlen, fun node n h => ?_⟩
  rw [name_of_createInternal h]
  have hbytes := take_drop_place output
    (serializedBytes codec (mk schemaKind [] name [] (by simp) (by simp))) (Nat.zero_le _)
  rw [List.drop_zero, hlen] at hbytes
  have hzero : readLE (((serializedBytes codec
      (mk schemaKind [] name [] (by simp) (by simp))).drop 1).take 2) = 0 := by
    simp only [serializedBytes, List.drop_succ_cons, List.drop_zero, List.append_assoc]
    rw [List.take_left' (by simp), readLE_writeLE, hname, show 2 ^ 16 % 256 ^ 2 = 0 by decide]
  rw [hlen, hbytes, List.drop_append_of_le_length (by omega),
    List.take_append_of_le_length (by simp; omega), hzero]
  rfl

theorem serialize_truncates_name_length_example :
    (List.replicate (2 ^ 16) 0 : List UInt8).length = 2 ^ 16 ∧
      (List.replicate (2 ^ 16) 0 : List UInt8).length + 8 ≤
        (List.replicate (2 ^ 16 + 8) 0 : List UInt8).length ∧
      (List.replicate (2 ^ 16 + 8) 0 : List UInt8).length < 2 ^ 32 ∧
      ∃ output' m, serialize LayoutCodec.ofBytes
          (mk 0 [] (List.replicate (2 ^ 16) 0) [] List.nodup_nil (by decide))
          (List.replicate (2 ^ 16 + 8) 0) 0 = .ok (output', m) ∧
        m = (List.replicate (2 ^ 16) 0 : List UInt8).length + 8 ∧
        ∀ node n, createInternal LayoutCodec.ofBytes 1 (output'.take m ++ []) = .ok (node, n) →
          node.name = [] :=
  ⟨List.length_replicate _ _,
    by rw [List.length_replicate, List.length_replicate],
    by rw [List.length_replicate]; decide,
    serialize_truncates_name_length LayoutCodec.ofBytes 0 (List.replicate (2 ^ 16) 0)
      (List.length_replicate _ _) (List.replicate (2 ^ 16 + 8) 0)
      (by rw [List.length_replicate, List.length_replicate])
      (by rw [List.length_replicate]; decide) 1 []⟩

end Nimble.EncodingLayoutTree
