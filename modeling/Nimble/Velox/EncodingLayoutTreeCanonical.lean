import Nimble.Velox.EncodingLayoutTreeRead
import Nimble.Velox.EncodingLayoutTreeWrite

/-! # What `createInternal` accepts

Read backwards, the parser's checks say what it accepts: a view whose front is the serialization
of the tree returned, with one exception. The layout map keeps the first layout of a stream
identifier and drops any later one, and a node that repeats an identifier is read into a tree
that serializes shorter than the bytes it came from. The bytes consumed are the serialization
and the dropped entries (`Excess`), and they are the serialization exactly when nothing was
dropped (`create_canonical`).
-/

namespace Nimble.EncodingLayoutTree

open Encoding

variable {Layout : Type}

/-- `EncodingLayout::create` takes a layout from the front of a view, and `serialize` writes the
bytes it took. -/
def LayoutCodec.WritesBack (codec : LayoutCodec Layout) : Prop :=
  ∀ view layout k, codec.create view = .ok (layout, k) → codec.bytes layout = view.take k

theorem drop_of_readAt {tree : List UInt8} {pos width n : ℕ} (h : readAt tree pos width = .ok n) :
    tree.drop pos = writeLE width n ++ tree.drop (pos + width) := by
  obtain ⟨hle, rfl⟩ := readAt_eq_ok.mp h
  have hfield := writeLE_readLE ((tree.drop pos).take width)
  rw [List.length_take_of_le (by simp; omega)] at hfield
  rw [hfield, ← List.drop_drop, List.take_append_drop]

theorem layoutBytes_sublist (codec : LayoutCodec Layout)
    {kept entries : List (StreamIdentifier × Layout)} (h : kept.Sublist entries) :
    (layoutBytes codec kept).length ≤ (layoutBytes codec entries).length ∧
      ((layoutBytes codec kept).length = (layoutBytes codec entries).length →
        kept = entries) := by
  induction h with
  | slnil => exact ⟨le_rfl, fun _ => rfl⟩
  | cons e _ ih =>
    obtain ⟨streamIdentifier, layout⟩ := e
    rw [length_layoutBytes_cons]
    exact ⟨by omega, fun h => absurd h (by omega)⟩
  | cons₂ e _ ih =>
    obtain ⟨streamIdentifier, layout⟩ := e
    rw [length_layoutBytes_cons, length_layoutBytes_cons]
    exact ⟨by omega, fun h => by rw [ih.2 (by omega)]⟩

theorem length_layoutBytes_append (codec : LayoutCodec Layout) :
    ∀ entries rest : List (StreamIdentifier × Layout),
      (layoutBytes codec (entries ++ rest)).length =
        (layoutBytes codec entries).length + (layoutBytes codec rest).length
  | [], _ => by simp [layoutBytes]
  | (streamIdentifier, layout) :: entries, rest => by
    rw [List.cons_append, length_layoutBytes_cons, length_layoutBytes_cons,
      length_layoutBytes_append codec entries rest]
    omega

theorem LayoutMap.insert_eq_append (m : LayoutMap Layout) (streamIdentifier : StreamIdentifier)
    (layout : Layout) : ∃ kept dropped, (m.insert streamIdentifier layout).1 = m.1 ++ kept ∧
      kept ++ dropped = [(streamIdentifier, layout)] ∧ ∀ e ∈ dropped, e.1 ∈ m.1.map Prod.fst := by
  by_cases h : streamIdentifier ∈ m.1.map Prod.fst
  · exact ⟨[], _, by simp [LayoutMap.insert, h], rfl, by simpa using h⟩
  · exact ⟨_, [], LayoutMap.insert_of_not_mem h, rfl, by simp⟩

theorem readLayouts_entries (codec : LayoutCodec Layout) (hwrite : codec.WritesBack)
    (tree : List UInt8) :
    ∀ count encodingLayouts pos encodingLayouts' pos',
      readLayouts codec tree count encodingLayouts pos = .ok (encodingLayouts', pos') →
      ∃ entries kept dropped, entries.length = count ∧ kept.Sublist entries ∧
        encodingLayouts'.1 = encodingLayouts.1 ++ kept ∧
        pos' = pos + (layoutBytes codec entries).length ∧
        tree.drop pos = layoutBytes codec entries ++ tree.drop pos' ∧
        (layoutBytes codec entries).length =
          (layoutBytes codec kept).length + (layoutBytes codec dropped).length ∧
        ∀ e ∈ dropped, e.1 ∈ encodingLayouts'.1.map Prod.fst
  | 0, _, pos, _, _, h => by
    simp only [readLayouts, Except.ok.injEq, Prod.mk.injEq] at h
    obtain ⟨rfl, rfl⟩ := h
    exact ⟨[], [], [], rfl, .slnil, by simp, by simp [layoutBytes], by simp [layoutBytes],
      rfl, by simp⟩
  | count + 1, encodingLayouts, pos, encodingLayouts', pos', h => by
    obtain ⟨streamIdentifier, k, layout, -, hid, hlength, hroom, hcreate, hrest⟩ :=
      readLayouts_succ_eq_ok h
    have hbytes : codec.bytes layout = (tree.drop (pos + 3)).take k := by
      rw [hwrite _ _ _ hcreate, List.take_take, min_self]
    have hlen : (codec.bytes layout).length = k := by rw [hbytes]; simp; omega
    obtain ⟨entries, kept', dropped', hcount, hsub, hmap, hpos, hdrop, hsplit', hdropped'⟩ :=
      readLayouts_entries codec hwrite tree count _ _ _ _ hrest
    obtain ⟨kept, dropped, hinsert, hsplit, hdropped⟩ :=
      LayoutMap.insert_eq_append encodingLayouts (UInt8.ofNat streamIdentifier) layout
    have hentry : (layoutBytes codec kept).length + (layoutBytes codec dropped).length =
        3 + (codec.bytes layout).length := by
      rw [← length_layoutBytes_append, hsplit, length_layoutBytes_cons]
      rfl
    have hview : tree.drop (pos + 3) = codec.bytes layout ++ tree.drop (pos + 3 + k) := by
      rw [hbytes, ← List.drop_drop k (pos + 3), List.take_append_drop]
    have hmap' : encodingLayouts'.1 = encodingLayouts.1 ++ (kept ++ kept') := by
      rw [hmap, hinsert, List.append_assoc]
    refine ⟨(UInt8.ofNat streamIdentifier, layout) :: entries, kept ++ kept', dropped ++ dropped',
      by simp [hcount], (hsplit ▸ List.sublist_append_left kept dropped).append hsub, hmap', ?_,
      ?_, ?_, ?_⟩
    · rw [hpos, length_layoutBytes_cons]; omega
    · rw [drop_of_readAt hid, drop_of_readAt hlength, show pos + 1 + 2 = pos + 3 from rfl, hview,
        hdrop, ← hlen]
      simp [layoutBytes, writeLE]
    · rw [length_layoutBytes_cons, length_layoutBytes_append, length_layoutBytes_append]; omega
    · intro e he
      rcases List.mem_append.mp he with he | he
      · rw [hmap', List.map_append]
        exact List.mem_append_left _ (hdropped e he)
      · exact hdropped' e he

mutual
/-- `Excess codec tree k`: `createInternal` took `k` bytes for `tree` beyond its serialization,
the bytes of whole layout entries that a node's map dropped as it already held their identifier. -/
inductive Excess (codec : LayoutCodec Layout) : EncodingLayoutTree Layout → ℕ → Prop
  | node {schemaKind : UInt8} {encodingLayouts : List (StreamIdentifier × Layout)}
      {name : List UInt8} {children : List (EncodingLayoutTree Layout)}
      {distinctIdentifiers : (encodingLayouts.map Prod.fst).Nodup}
      {fewLayouts : encodingLayouts.length < 255} {k : ℕ}
      (dropped : List (StreamIdentifier × Layout)) :
      (∀ e ∈ dropped, e.1 ∈ encodingLayouts.map Prod.fst) → ExcessChildren codec children k →
      Excess codec (mk schemaKind encodingLayouts name children distinctIdentifiers fewLayouts)
        ((layoutBytes codec dropped).length + k)
inductive ExcessChildren (codec : LayoutCodec Layout) :
    List (EncodingLayoutTree Layout) → ℕ → Prop
  | nil : ExcessChildren codec [] 0
  | cons {child : EncodingLayoutTree Layout} {children : List (EncodingLayoutTree Layout)}
      {k k' : ℕ} :
      Excess codec child k → ExcessChildren codec children k' →
      ExcessChildren codec (child :: children) (k + k')
end

theorem readChildren_children (codec : LayoutCodec Layout)
    (createChild : List UInt8 → Except Failure (EncodingLayoutTree Layout × ℕ))
    (tree : List UInt8) (hsmall : tree.length < 2 ^ 32)
    (hchild : ∀ offset child n, offset ≤ tree.length →
      createChild (tree.drop offset) = .ok (child, n) →
      n ≤ tree.length - offset ∧
        (∃ k, Excess codec child k ∧ n = (serializedBytes codec child).length + k) ∧
        ((serializedBytes codec child).length = n →
          (tree.drop offset).take n = serializedBytes codec child)) :
    ∀ count children offset children' offset', offset ≤ tree.length →
      readChildren createChild tree count children offset = .ok (children', offset') →
      ∃ new, children' = children ++ new ∧ new.length = count ∧ offset ≤ offset' ∧
        offset' ≤ tree.length ∧
        (∃ k, ExcessChildren codec new k ∧
          offset' - offset = (serializedBytes.childrenBytes codec new).length + k) ∧
        ((serializedBytes.childrenBytes codec new).length = offset' - offset →
          tree.drop offset = serializedBytes.childrenBytes codec new ++ tree.drop offset')
  | 0, children, offset, _, _, hle, h => by
    simp only [readChildren, Except.ok.injEq, Prod.mk.injEq] at h
    obtain ⟨rfl, rfl⟩ := h
    exact ⟨[], by simp, rfl, le_rfl, hle, ⟨0, .nil, by simp [serializedBytes.childrenBytes]⟩,
      fun _ => by simp [serializedBytes.childrenBytes]⟩
  | count + 1, children, offset, children', offset', hle, h => by
    simp only [readChildren, if_neg (show ¬ tree.length < offset by omega)] at h
    obtain ⟨⟨child, n⟩, hc, h⟩ := bind_eq_ok.mp h
    obtain ⟨hn, ⟨k, hexcess, hk⟩, htake⟩ := hchild offset child n hle hc
    rw [Nat.mod_eq_of_lt (by omega)] at h
    obtain ⟨new, rfl, hcount, h1, h2, ⟨k', hexcess', hk'⟩, hrest⟩ :=
      readChildren_children codec createChild tree hsmall hchild count _ _ _ _ (by omega) h
    have hlen := length_childrenBytes_cons codec child new
    refine ⟨child :: new, by simp, by simp [hcount], by omega, h2,
      ⟨k + k', .cons hexcess hexcess', by omega⟩, fun heq => ?_⟩
    rw [serializedBytes.childrenBytes, List.append_assoc, ← hrest (by omega),
      ← htake (by omega), ← List.drop_drop n offset, List.take_append_drop]

theorem createInternal_canonical (codec : LayoutCodec Layout) (hwrite : codec.WritesBack) :
    ∀ fuel (bytes : List UInt8) node n, bytes.length < 2 ^ 32 →
      createInternal codec fuel bytes = .ok (node, n) →
      n ≤ bytes.length ∧
        (∃ k, Excess codec node k ∧ n = (serializedBytes codec node).length + k) ∧
        ((serializedBytes codec node).length = n → bytes.take n = serializedBytes codec node)
  | 0, _, _, _, _, h => by cases h
  | fuel + 1, bytes, node, n, hsmall, h => by
    obtain ⟨schemaKind, nameLength, count, encodingLayouts, pos, childrenCount, children, hkind,
      hnameLength, hroom, hcount, hlayouts, hchildrenCount, hchildren, hmake⟩ :=
      createInternal_eq_ok h
    obtain ⟨entries, kept, dropped, hcount', hsub, hmap, hpos, hlayoutBytes, hsplit, hdropped⟩ :=
      readLayouts_entries codec hwrite bytes _ _ _ _ _ hlayouts
    have hchildrenField := drop_of_readAt hchildrenCount
    have hpos4 : pos + 4 ≤ bytes.length := (readAt_eq_ok.mp hchildrenCount).1
    rw [Nat.mod_eq_of_lt (by omega)] at hchildren
    obtain ⟨new, rfl, hnew, h1, h2, ⟨k, hexcess, hk⟩, hrest⟩ :=
      readChildren_children codec (createInternal codec fuel) bytes hsmall
        (fun offset child k _ hc => by
          simpa using createInternal_canonical codec hwrite fuel (bytes.drop offset) child k
            (by simp; omega) hc) _ _ _ _ _ hpos4 hchildren
    obtain ⟨_, _, rfl⟩ := make_eq_ok hmake
    have hname : ((bytes.drop 3).take nameLength).length = nameLength := by
      rw [List.length_take, List.length_drop]; unfold kMinBufferSize at hroom; omega
    simp only [List.nil_append] at hmap ⊢
    subst hmap
    rw [length_serializedBytes, hname]
    refine ⟨h2, ⟨_, .node dropped hdropped hexcess, by omega⟩, fun heq => ?_⟩
    obtain rfl := (layoutBytes_sublist codec hsub).2 (by omega)
    have e0 := drop_of_readAt hkind
    have e1 := drop_of_readAt hnameLength
    have e3 := drop_of_readAt hcount
    have e2 : bytes.drop 3 = (bytes.drop 3).take nameLength ++ bytes.drop (3 + nameLength) := by
      rw [← List.drop_drop nameLength 3, List.take_append_drop]
    rw [List.drop_zero, Nat.zero_add] at e0
    rw [show 3 + nameLength + 1 = 4 + nameLength by omega] at e3
    refine (congrArg (List.take n) ?_).trans
      (@List.take_left' _ _ (bytes.drop n) _ (by rw [length_serializedBytes, hname]; exact heq))
    rw [serializedBytes]
    simp only [List.cons_append, List.append_assoc, hname, hcount', hnew]
    rw [← hrest (by omega), ← hchildrenField, ← hlayoutBytes, ← e3, ← e2, ← e1]
    exact e0

end Nimble.EncodingLayoutTree
