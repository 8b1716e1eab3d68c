import Nimble.Velox.EncodingLayoutTree

/-! # What `EncodingLayoutTree::serialize` writes

`place output pos bytes` is the buffer after `bytes` are written from `pos`. On a span that holds
all of a tree's bytes, `serialize` writes exactly `serializedBytes`, the format of the layout
comment of `createInternal` (`serialize_eq`). Its only size check, though, is for the name and a
few bytes more: a span that a layout fills to the end passes it, and the children count is then
written past the buffer.
-/

namespace Nimble.EncodingLayoutTree

open Encoding

variable {Layout : Type}

def place (output : List UInt8) (pos : ℕ) (bytes : List UInt8) : List UInt8 :=
  output.take pos ++ bytes ++ output.drop (pos + bytes.length)

theorem writeAt_eq {output : List UInt8} {pos : ℕ} {bytes : List UInt8}
    (h : pos + bytes.length ≤ output.length) :
    writeAt output pos bytes = .ok (place output pos bytes) :=
  if_pos h

theorem length_place {output : List UInt8} {pos : ℕ} {bytes : List UInt8}
    (h : pos + bytes.length ≤ output.length) :
    (place output pos bytes).length = output.length := by
  simp [place]; omega

theorem place_nil (output : List UInt8) (pos : ℕ) : place output pos [] = output := by
  simp [place]

theorem place_place_append {output : List UInt8} {pos : ℕ} {xs ys : List UInt8}
    (h : pos + xs.length + ys.length ≤ output.length) :
    place (place output pos xs) (pos + xs.length) ys = place output pos (xs ++ ys) := by
  have hA : (output.take pos ++ xs).length = pos + xs.length := by simp; omega
  unfold place
  rw [List.take_left' hA, List.drop_append_eq_append_drop, List.drop_eq_nil_of_le (by omega), hA,
    List.nil_append, Nat.add_sub_cancel_left, List.drop_drop, List.length_append, Nat.add_assoc]
  simp only [List.append_assoc]

theorem getElem?_place {output : List UInt8} {pos : ℕ} {bytes : List UInt8}
    (h : pos + bytes.length ≤ output.length) (i : ℕ) :
    (place output pos bytes)[i]? =
      if i < pos then output[i]?
      else if i < pos + bytes.length then bytes[i - pos]? else output[i]? := by
  have ht : (output.take pos).length = pos := by simp; omega
  unfold place
  split_ifs with h1 h2
  · rw [List.append_assoc, List.getElem?_append_left (by omega), List.getElem?_take_of_lt h1]
  · rw [List.append_assoc, List.getElem?_append_right (by omega), ht,
      List.getElem?_append_left (by omega)]
  · rw [List.append_assoc, List.getElem?_append_right (by omega), ht,
      List.getElem?_append_right (by omega), List.getElem?_drop]
    congr 1; omega

theorem place_place_comm {output : List UInt8} {p q : ℕ} {xs ys : List UInt8}
    (hpq : p + xs.length ≤ q) (h : q + ys.length ≤ output.length) :
    place (place output q ys) p xs = place (place output p xs) q ys := by
  have hq := length_place h
  have hp := length_place (show p + xs.length ≤ output.length by omega)
  apply List.ext_getElem?
  intro i
  rw [getElem?_place (by omega), getElem?_place h, getElem?_place (by omega),
    getElem?_place (by omega)]
  by_cases h1 : i < p
  · simp only [if_pos h1, if_pos (show i < q by omega)]
  by_cases h2 : i < p + xs.length
  · simp only [if_neg h1, if_pos h2, if_pos (show i < q by omega)]
  by_cases h3 : i < q
  · simp only [if_neg h1, if_neg h2, if_pos h3]
  · simp only [if_neg h1, if_neg h2, if_neg h3]

/-- The bytes of a node's layouts, as the loop of `serialize` lays them down. -/
def layoutBytes (codec : LayoutCodec Layout) : List (StreamIdentifier × Layout) → List UInt8
  | [] => []
  | (streamIdentifier, layout) :: rest =>
    streamIdentifier :: (writeLE 2 (codec.bytes layout).length ++ codec.bytes layout ++
      layoutBytes codec rest)

theorem length_layoutBytes_cons (codec : LayoutCodec Layout) (streamIdentifier : StreamIdentifier)
    (layout : Layout) (rest : List (StreamIdentifier × Layout)) :
    (layoutBytes codec ((streamIdentifier, layout) :: rest)).length =
      3 + (codec.bytes layout).length + (layoutBytes codec rest).length := by
  simp [layoutBytes]; omega

theorem serializeLayouts_eq (codec : LayoutCodec Layout) :
    ∀ (ls : List (StreamIdentifier × Layout)) (output : List UInt8) (pos : ℕ),
      pos + (layoutBytes codec ls).length ≤ output.length → output.length < 2 ^ 32 →
      serializeLayouts codec ls output pos =
        .ok (place output pos (layoutBytes codec ls), pos + (layoutBytes codec ls).length)
  | [], output, pos, _, _ => by simp [serializeLayouts, layoutBytes, place_nil]
  | (id, l) :: rest, output, pos, hfit, hsmall => by
    have hlen := length_layoutBytes_cons codec id l rest
    have hw : (writeLE 2 (codec.bytes l).length).length = 2 := length_writeLE 2 _
    have h1 : pos + [id].length ≤ output.length := by simp; omega
    have ho1 := length_place h1
    have h2 : pos + 3 + (codec.bytes l).length ≤ (place output pos [id]).length := by omega
    have h3 : pos + 1 + (writeLE 2 (codec.bytes l).length).length ≤
        (place (place output pos [id]) (pos + 3) (codec.bytes l)).length := by
      rw [length_place h2]; omega
    have hser : (codec.serialize l ((place output pos [id]).length - (pos + 3))).mapError
        Failure.check = .ok (codec.bytes l) := by
      rw [LayoutCodec.serialize, if_pos (by omega)]; rfl
    rw [serializeLayouts, bind_of_eq_ok (writeAt_eq h1), if_neg (by omega), bind_of_eq_ok hser,
      bind_of_eq_ok (writeAt_eq h2), Nat.mod_eq_of_lt (show (codec.bytes l).length < 2 ^ 32 by
        omega), bind_of_eq_ok (writeAt_eq h3)]
    have hentry : place (place (place output pos [id]) (pos + 3) (codec.bytes l)) (pos + 1)
        (writeLE 2 (codec.bytes l).length) =
        place output pos (id :: (writeLE 2 (codec.bytes l).length ++ codec.bytes l)) := by
      rw [place_place_comm (by omega) h2, show pos + 1 = pos + [id].length from rfl,
        place_place_append (by simp; omega),
        show pos + 3 = pos + ([id] ++ writeLE 2 (codec.bytes l).length).length by simp [hw],
        place_place_append (by simp; omega)]
      rfl
    have hE : pos + 3 + (codec.bytes l).length =
        pos + (id :: (writeLE 2 (codec.bytes l).length ++ codec.bytes l)).length := by
      simp [hw]; omega
    rw [hentry, hE, serializeLayouts_eq codec rest _ _
      (by rw [length_place (by simp [hw]; omega)]; simp [hw]; omega)
      (by rw [length_place (by simp [hw]; omega)]; exact hsmall),
      place_place_append (by simp [hw]; omega)]
    simp [layoutBytes]; omega

theorem writeAt_place_append {output : List UInt8} {base pos : ℕ} {pre xs : List UInt8}
    (h : base + pre.length + xs.length ≤ output.length) (hpos : pos = base + pre.length) :
    writeAt (place output base pre) pos xs = .ok (place output base (pre ++ xs)) := by
  subst hpos
  rw [writeAt_eq (by rw [length_place (by omega)]; exact h), place_place_append h]

/-- The bytes of a tree in the captured format, the layout comment of `createInternal`. -/
def serializedBytes (codec : LayoutCodec Layout) : EncodingLayoutTree Layout → List UInt8
  | mk schemaKind encodingLayouts name children _ _ =>
    schemaKind :: (writeLE 2 name.length ++ name ++ writeLE 1 encodingLayouts.length ++
      layoutBytes codec encodingLayouts ++ writeLE 4 children.length ++ childrenBytes children)
where
  childrenBytes : List (EncodingLayoutTree Layout) → List UInt8
    | [] => []
    | child :: children => serializedBytes codec child ++ childrenBytes children

theorem length_serializedBytes (codec : LayoutCodec Layout) (schemaKind : UInt8)
    (encodingLayouts : List (StreamIdentifier × Layout)) (name : List UInt8)
    (children : List (EncodingLayoutTree Layout)) (h₁ h₂) :
    (serializedBytes codec (mk schemaKind encodingLayouts name children h₁ h₂)).length =
      8 + name.length + (layoutBytes codec encodingLayouts).length +
        (serializedBytes.childrenBytes codec children).length := by
  simp [serializedBytes]; omega

theorem length_childrenBytes_cons (codec : LayoutCodec Layout) (child : EncodingLayoutTree Layout)
    (children : List (EncodingLayoutTree Layout)) :
    (serializedBytes.childrenBytes codec (child :: children)).length =
      (serializedBytes codec child).length +
        (serializedBytes.childrenBytes codec children).length := by
  simp [serializedBytes.childrenBytes]

mutual

theorem serialize_eq (codec : LayoutCodec Layout) :
    ∀ (tree : EncodingLayoutTree Layout) (output : List UInt8) (base : ℕ),
      base + (serializedBytes codec tree).length ≤ output.length → output.length < 2 ^ 32 →
      serialize codec tree output base =
        .ok (place output base (serializedBytes codec tree), (serializedBytes codec tree).length)
  | mk k ls name children h1 h2, output, base, hfit, hsmall => by
    have hlen := length_serializedBytes codec k ls name children h1 h2
    have e1 : writeAt output base [k] = .ok (place output base [k]) := writeAt_eq (by simp; omega)
    have e2 := @writeAt_place_append output base (base + 1) [k] (writeLE 2 name.length)
      (by simp; omega) rfl
    have e3 : (if name.isEmpty then pure (place output base ([k] ++ writeLE 2 name.length))
        else writeAt (place output base ([k] ++ writeLE 2 name.length)) (base + 3) name) =
        (.ok (place output base ([k] ++ writeLE 2 name.length ++ name)) : Except Failure _) := by
      cases name with
      | nil => simp [pure, Except.pure]
      | cons c cs => exact writeAt_place_append (by simp at hlen ⊢; omega) (by simp)
    have e4 := @writeAt_place_append output base (base + 3 + name.length)
      ([k] ++ writeLE 2 name.length ++ name) (writeLE 1 ls.length) (by simp; omega) (by simp; omega)
    have e5 : serializeLayouts codec ls
        (place output base ([k] ++ writeLE 2 name.length ++ name ++ writeLE 1 ls.length))
        (base + 4 + name.length) =
        .ok (place output base ([k] ++ writeLE 2 name.length ++ name ++ writeLE 1 ls.length ++
          layoutBytes codec ls), base + 4 + name.length + (layoutBytes codec ls).length) := by
      rw [serializeLayouts_eq codec ls _ _ (by rw [length_place (by simp; omega)]; omega)
        (by rw [length_place (by simp; omega)]; exact hsmall),
        show base + 4 + name.length = base + ([k] ++ writeLE 2 name.length ++ name ++
          writeLE 1 ls.length).length by simp; omega, place_place_append (by simp; omega)]
    have e6 := @writeAt_place_append output base
      (base + 4 + name.length + (layoutBytes codec ls).length)
      ([k] ++ writeLE 2 name.length ++ name ++ writeLE 1 ls.length ++ layoutBytes codec ls)
      (writeLE 4 children.length) (by simp; omega) (by simp; omega)
    have e7 : serialize.serializeChildren codec children
        (place output base ([k] ++ writeLE 2 name.length ++ name ++ writeLE 1 ls.length ++
          layoutBytes codec ls ++ writeLE 4 children.length))
        (base + 4 + name.length + (layoutBytes codec ls).length + 4) =
        .ok (place output base (serializedBytes codec (mk k ls name children h1 h2)),
          base + (serializedBytes codec (mk k ls name children h1 h2)).length) := by
      rw [serializeChildren_eq codec children _ _ (by rw [length_place (by simp; omega)]; omega)
        (by rw [length_place (by simp; omega)]; exact hsmall),
        show base + 4 + name.length + (layoutBytes codec ls).length + 4 = base + ([k] ++
          writeLE 2 name.length ++ name ++ writeLE 1 ls.length ++ layoutBytes codec ls ++
          writeLE 4 children.length).length by simp; omega, place_place_append (by simp; omega)]
      simp [serializedBytes]; omega
    have e0 : alphaCheck (kMinBufferSize + name.length ≤ output.length - base)
        "Captured encoding buffer too small." = .ok () := if_pos (by unfold kMinBufferSize; omega)
    unfold serialize
    rw [bind_of_eq_ok e0, bind_of_eq_ok e1, bind_of_eq_ok e2, bind_of_eq_ok e3, bind_of_eq_ok e4,
      bind_of_eq_ok e5]
    dsimp only
    rw [bind_of_eq_ok e6, bind_of_eq_ok e7]
    dsimp only
    rw [Nat.add_sub_cancel_left, Nat.mod_eq_of_lt (by omega)]
    rfl

theorem serializeChildren_eq (codec : LayoutCodec Layout) :
    ∀ (children : List (EncodingLayoutTree Layout)) (output : List UInt8) (pos : ℕ),
      pos + (serializedBytes.childrenBytes codec children).length ≤ output.length →
      output.length < 2 ^ 32 →
      serialize.serializeChildren codec children output pos =
        .ok (place output pos (serializedBytes.childrenBytes codec children),
          pos + (serializedBytes.childrenBytes codec children).length)
  | [], output, pos, _, _ => by
    simp [serialize.serializeChildren, serializedBytes.childrenBytes, place_nil]
  | child :: children, output, pos, hfit, hsmall => by
    have hlen := length_childrenBytes_cons codec child children
    unfold serialize.serializeChildren
    rw [bind_of_eq_ok (serialize_eq codec child output pos (by omega) hsmall)]
    dsimp only
    rw [serializeChildren_eq codec children _ _ (by rw [length_place (by omega)]; omega)
      (by rw [length_place (by omega)]; exact hsmall), place_place_append (by omega)]
    simp [serializedBytes.childrenBytes, Nat.add_assoc]

end

theorem writeAt_eq_ok {output output' : List UInt8} {pos : ℕ} {bytes : List UInt8} :
    writeAt output pos bytes = .ok output' ↔
      pos + bytes.length ≤ output.length ∧ output' = place output pos bytes := by
  unfold writeAt; split_ifs <;> simp_all [place, eq_comm]

theorem LayoutCodec.serialize_eq_ok {codec : LayoutCodec Layout} {layout : Layout} {size : ℕ}
    {bytes : List UInt8} :
    (codec.serialize layout size).mapError Failure.check = .ok bytes ↔
      (codec.bytes layout).length ≤ size ∧ bytes = codec.bytes layout := by
  unfold LayoutCodec.serialize; split_ifs <;> simp_all [Except.mapError, eq_comm]

theorem room_of_serializeLayouts (codec : LayoutCodec Layout) :
    ∀ (ls : List (StreamIdentifier × Layout)) (output : List UInt8) (pos : ℕ) output' pos',
      serializeLayouts codec ls output pos = .ok (output', pos') → output.length < 2 ^ 32 →
      pos ≤ output.length → pos + (layoutBytes codec ls).length ≤ output.length
  | [], _, _, _, _, _, _, hpos => by simpa [layoutBytes] using hpos
  | (id, l) :: rest, output, pos, output', pos', h, hsmall, _ => by
    unfold serializeLayouts at h
    obtain ⟨o1, h1, h⟩ := bind_eq_ok.mp h
    obtain ⟨hb1, rfl⟩ := writeAt_eq_ok.mp h1
    have hl1 := length_place hb1
    split at h
    · cases h
    obtain ⟨bytes, h2, h⟩ := bind_eq_ok.mp h
    obtain ⟨hb2, rfl⟩ := LayoutCodec.serialize_eq_ok.mp h2
    obtain ⟨o3, h3, h⟩ := bind_eq_ok.mp h
    obtain ⟨hb3, rfl⟩ := writeAt_eq_ok.mp h3
    obtain ⟨o4, h4, h⟩ := bind_eq_ok.mp h
    obtain ⟨hb4, rfl⟩ := writeAt_eq_ok.mp h4
    have hl4 : (place (place (place output pos [id]) (pos + 3) (codec.bytes l)) (pos + 1)
        (writeLE 2 ((codec.bytes l).length % 2 ^ 32))).length = output.length := by
      rw [length_place hb4, length_place hb3, hl1]
    rw [Nat.mod_eq_of_lt (show (codec.bytes l).length < 2 ^ 32 by omega)] at h hl4
    have := room_of_serializeLayouts codec rest _ _ _ _ h (by omega) (by omega)
    simp only [layoutBytes, List.length_cons, List.length_append, length_writeLE]
    omega

mutual

theorem room_of_serialize (codec : LayoutCodec Layout) :
    ∀ (tree : EncodingLayoutTree Layout) (output : List UInt8) (base : ℕ) output' m,
      serialize codec tree output base = .ok (output', m) → output.length < 2 ^ 32 →
      base + (serializedBytes codec tree).length ≤ output.length
  | mk k ls name children h1 h2, output, base, output', m, h, hsmall => by
    unfold serialize at h
    obtain ⟨_, h0, h⟩ := bind_eq_ok.mp h
    have h0 := alphaCheck_eq_ok.mp h0
    unfold kMinBufferSize at h0
    obtain ⟨o1, e1, h⟩ := bind_eq_ok.mp h
    obtain ⟨b1, rfl⟩ := writeAt_eq_ok.mp e1
    obtain ⟨o2, e2, h⟩ := bind_eq_ok.mp h
    obtain ⟨b2, rfl⟩ := writeAt_eq_ok.mp e2
    have l2 : (place (place output base [k]) (base + 1) (writeLE 2 name.length)).length =
        output.length := by rw [length_place b2, length_place b1]
    obtain ⟨o3, e3, h⟩ := bind_eq_ok.mp h
    have l3 : o3.length = output.length := by
      split at e3
      · cases e3; exact l2
      · obtain ⟨b3, rfl⟩ := writeAt_eq_ok.mp e3
        rw [length_place b3, l2]
    obtain ⟨o4, e4, h⟩ := bind_eq_ok.mp h
    obtain ⟨b4, rfl⟩ := writeAt_eq_ok.mp e4
    have l4 := (length_place b4).trans l3
    obtain ⟨⟨o5, p5⟩, e5, h⟩ := bind_eq_ok.mp h
    have r5 := room_of_serializeLayouts codec ls _ _ _ _ e5 (by omega) (by omega)
    rw [serializeLayouts_eq codec ls _ _ r5 (by omega)] at e5
    cases e5
    have l5 := (length_place r5).trans l4
    obtain ⟨o6, e6, h⟩ := bind_eq_ok.mp h
    obtain ⟨b6, rfl⟩ := writeAt_eq_ok.mp e6
    have l6 := (length_place b6).trans l5
    rw [l5, length_writeLE] at b6
    obtain ⟨⟨o7, p7⟩, e7, -⟩ := bind_eq_ok.mp h
    have r7 := room_of_serializeChildren codec children _ _ _ _ e7 (by omega) (by omega)
    rw [l6] at r7
    simp only [serializedBytes, List.length_cons, List.length_append, length_writeLE]
    omega

theorem room_of_serializeChildren (codec : LayoutCodec Layout) :
    ∀ (children : List (EncodingLayoutTree Layout)) (output : List UInt8) (pos : ℕ)
      output' pos', serialize.serializeChildren codec children output pos = .ok (output', pos') →
      output.length < 2 ^ 32 → pos ≤ output.length →
      pos + (serializedBytes.childrenBytes codec children).length ≤ output.length
  | [], _, _, _, _, _, _, hpos => by simpa [serializedBytes.childrenBytes] using hpos
  | child :: children, output, pos, output', pos', h, hsmall, hpos => by
    unfold serialize.serializeChildren at h
    obtain ⟨⟨o1, w⟩, e1, h⟩ := bind_eq_ok.mp h
    have r1 := room_of_serialize codec child output pos _ _ e1 hsmall
    rw [serialize_eq codec child output pos r1 hsmall] at e1
    cases e1
    have := room_of_serializeChildren codec children _ _ _ _ h
      (by rw [length_place r1]; exact hsmall) (by rw [length_place r1]; omega)
    rw [length_place r1] at this
    simp only [serializedBytes.childrenBytes, List.length_append]
    omega

end

/-- On a buffer under 4 GiB, `serialize` succeeds exactly when its span holds all of the tree's
bytes, and it then writes them there and nothing else, and returns their count. -/
theorem serialize_eq_ok_iff (codec : LayoutCodec Layout) (tree : EncodingLayoutTree Layout)
    (output : List UInt8) (base : ℕ) (hsmall : output.length < 2 ^ 32) (output' : List UInt8)
    (m : ℕ) :
    serialize codec tree output base = .ok (output', m) ↔
      base + (serializedBytes codec tree).length ≤ output.length ∧
        output' = place output base (serializedBytes codec tree) ∧
        m = (serializedBytes codec tree).length := by
  constructor
  · intro h
    have hroom := room_of_serialize codec tree output base _ _ h hsmall
    rw [serialize_eq codec tree output base hroom hsmall] at h
    cases h
    exact ⟨hroom, rfl, rfl⟩
  · rintro ⟨hroom, rfl, rfl⟩
    exact serialize_eq codec tree output base hroom hsmall

theorem serialize_eq_ok_iff_example :
    (List.replicate 12 0 : List UInt8).length < 2 ^ 32 ∧
      (serialize LayoutCodec.ofBytes (mk 0 [(7, [42])] [] [] (by decide) (by decide))
          (List.replicate 12 0) 0 = .ok ([0, 0, 0, 1, 7, 1, 0, 42, 0, 0, 0, 0], 12) ↔
        0 + (serializedBytes LayoutCodec.ofBytes
          (mk 0 [(7, [42])] [] [] (by decide) (by decide))).length ≤ 12 ∧
        [0, 0, 0, 1, 7, 1, 0, 42, 0, 0, 0, 0] = place (List.replicate 12 0) 0
          (serializedBytes LayoutCodec.ofBytes (mk 0 [(7, [42])] [] [] (by decide) (by decide))) ∧
        12 = (serializedBytes LayoutCodec.ofBytes
          (mk 0 [(7, [42])] [] [] (by decide) (by decide))).length) :=
  ⟨by decide, serialize_eq_ok_iff LayoutCodec.ofBytes _ (List.replicate 12 0) 0 (by decide) _ _⟩

/-- A layout that fills the span to its end passes every check of `serialize`, and the four
bytes of the children count that follow are written from the end of the buffer on. -/
theorem serialize_writes_past_span (codec : LayoutCodec Layout) (schemaKind : UInt8)
    (streamIdentifier : StreamIdentifier) (layout : Layout) (output : List UInt8)
    (hbytes : 0 < (codec.bytes layout).length)
    (hout : output.length = 7 + (codec.bytes layout).length) (hsmall : output.length < 2 ^ 32) :
    serialize codec (mk schemaKind [(streamIdentifier, layout)] [] [] (by simp) (by simp))
      output 0 = .error (.outOfBounds output.length) := by
  have hlb : (layoutBytes codec [(streamIdentifier, layout)]).length =
      3 + (codec.bytes layout).length := by
    simp [layoutBytes]; omega
  have e0 : alphaCheck (kMinBufferSize ≤ output.length) "Captured encoding buffer too small." =
      .ok () := alphaCheck_eq_ok.mpr (by simp [kMinBufferSize]; omega)
  have e1 : writeAt output 0 [schemaKind] = .ok (place output 0 [schemaKind]) :=
    writeAt_eq (by simp; omega)
  have e2 := @writeAt_place_append output 0 1 [schemaKind] (writeLE 2 0) (by simp; omega) rfl
  have e3 := @writeAt_place_append output 0 3 ([schemaKind] ++ writeLE 2 0) (writeLE 1 1)
    (by simp; omega) rfl
  have e4 := serializeLayouts_eq codec [(streamIdentifier, layout)]
    (place output 0 ([schemaKind] ++ writeLE 2 0 ++ writeLE 1 1)) 4
    (by rw [length_place (by simp; omega)]; omega) (by rw [length_place (by simp; omega)]; omega)
  have e5 : writeAt (place (place output 0 ([schemaKind] ++ writeLE 2 0 ++ writeLE 1 1)) 4
      (layoutBytes codec [(streamIdentifier, layout)]))
      (4 + (layoutBytes codec [(streamIdentifier, layout)]).length) (writeLE 4 0) =
      .error (.outOfBounds output.length) := by
    rw [writeAt_of_lt (by rw [length_place (by rw [length_place (by simp; omega)]; omega),
      length_place (by simp; omega)]; simp; omega),
      length_place (by rw [length_place (by simp; omega)]; omega), length_place (by simp; omega)]
    congr 2; omega
  unfold serialize
  simp only [List.length_nil, List.length_singleton, List.isEmpty_nil, ite_true, Nat.add_zero,
    Nat.zero_add, Nat.sub_zero]
  rw [bind_of_eq_ok e0, bind_of_eq_ok e1, bind_of_eq_ok e2, pure_bind, bind_of_eq_ok e3,
    bind_of_eq_ok e4]
  exact bind_of_eq_error e5 _

theorem serialize_writes_past_span_example :
    0 < (LayoutCodec.ofBytes.bytes [42]).length ∧
      (List.replicate 8 0 : List UInt8).length = 7 + (LayoutCodec.ofBytes.bytes [42]).length ∧
      (List.replicate 8 0 : List UInt8).length < 2 ^ 32 ∧
      serialize LayoutCodec.ofBytes (mk 0 [(1, [42])] [] [] (by simp) (by simp))
        (List.replicate 8 0) 0 = .error (.outOfBounds 8) :=
  ⟨by decide, by decide, by decide,
    serialize_writes_past_span LayoutCodec.ofBytes 0 1 [42] (List.replicate 8 0) (by decide)
      (by decide) (by decide)⟩

end Nimble.EncodingLayoutTree