import Nimble.Velox.EncodingLayoutTree

/-! # What `createInternal` reads

The parser checks the name and each layout against the bytes left, and each child is read from
the view's suffix, so on views under 4 GiB the recursion ends within the fuel `create` gives and
every node it returns took no more than its view (`createInternal_total`). The four bytes of
the children count, though, are read with no check: after a layout that ends the buffer they
lie past it.
-/

namespace Nimble.EncodingLayoutTree

open Encoding

variable {Layout : Type}

theorem bind_ne_error {ε α β : Type} {x : Except ε α} {f : α → Except ε β} {e : ε}
    (hx : x ≠ .error e) (hf : ∀ a, x = .ok a → f a ≠ .error e) : x >>= f ≠ .error e := by
  cases x with
  | error e' => exact fun h => hx (by simpa [bind, Except.bind] using h)
  | ok a => exact hf a rfl

theorem bind_total {α β : Type} {x : Except Failure α} {f : α → Except Failure (β × ℕ)}
    {bound : ℕ} (hx : x ≠ .error .outOfFuel)
    (hf : ∀ a, x = .ok a →
      f a ≠ .error .outOfFuel ∧ ∀ b n, f a = .ok (b, n) → n ≤ bound) :
    x >>= f ≠ .error .outOfFuel ∧ ∀ b n, x >>= f = .ok (b, n) → n ≤ bound := by
  cases x with
  | error e =>
    exact ⟨fun h => hx (by simpa [bind, Except.bind] using h), fun _ _ h => nomatch h⟩
  | ok a => exact hf a rfl

theorem alphaCheck_ne_outOfFuel {condition : Prop} [Decidable condition] (message : String) :
    alphaCheck condition message ≠ .error .outOfFuel := by
  unfold alphaCheck; split_ifs <;> simp

theorem readAt_ne_outOfFuel (tree : List UInt8) (pos width : ℕ) :
    readAt tree pos width ≠ .error .outOfFuel := by
  unfold readAt; split_ifs <;> simp

theorem readLayouts_ne_outOfFuel (codec : LayoutCodec Layout) (tree : List UInt8) :
    ∀ count encodingLayouts pos,
      readLayouts codec tree count encodingLayouts pos ≠ .error .outOfFuel
  | 0, _, _ => by simp [readLayouts]
  | count + 1, encodingLayouts, pos => by
    unfold readLayouts
    refine bind_ne_error (alphaCheck_ne_outOfFuel _) fun _ _ => ?_
    refine bind_ne_error (readAt_ne_outOfFuel _ _ _) fun _ _ => ?_
    refine bind_ne_error (readAt_ne_outOfFuel _ _ _) fun _ _ => ?_
    refine bind_ne_error (alphaCheck_ne_outOfFuel _) fun _ _ => ?_
    refine bind_ne_error ?_ fun _ _ => ?_
    · cases codec.create _ <;> simp [Except.mapError]
    refine bind_ne_error (alphaCheck_ne_outOfFuel _) fun _ _ => ?_
    exact readLayouts_ne_outOfFuel codec tree count _ _

theorem mapError_eq_ok {ε ε' α : Type} {x : Except ε α} {f : ε → ε'} {a : α} :
    x.mapError f = .ok a ↔ x = .ok a := by
  cases x <;> simp [Except.mapError]

theorem readLayouts_succ_eq_ok {codec : LayoutCodec Layout} {tree : List UInt8} {count : ℕ}
    {encodingLayouts : LayoutMap Layout} {pos : ℕ} {r : LayoutMap Layout × ℕ}
    (h : readLayouts codec tree (count + 1) encodingLayouts pos = .ok r) :
    ∃ streamIdentifier encodingLength layout,
      3 ≤ tree.length - pos ∧ readAt tree pos 1 = .ok streamIdentifier ∧
      readAt tree (pos + 1) 2 = .ok encodingLength ∧
      encodingLength ≤ tree.length - (pos + 3) ∧
      codec.create ((tree.drop (pos + 3)).take encodingLength) = .ok (layout, encodingLength) ∧
      readLayouts codec tree count (encodingLayouts.insert (UInt8.ofNat streamIdentifier) layout)
        (pos + 3 + encodingLength) = .ok r := by
  unfold readLayouts at h
  obtain ⟨_, h1, h⟩ := bind_eq_ok.mp h
  obtain ⟨streamIdentifier, hid, h⟩ := bind_eq_ok.mp h
  obtain ⟨encodingLength, hlength, h⟩ := bind_eq_ok.mp h
  obtain ⟨_, h2, h⟩ := bind_eq_ok.mp h
  obtain ⟨⟨layout, k⟩, hlayout, h⟩ := bind_eq_ok.mp h
  obtain ⟨_, hk, hrest⟩ := bind_eq_ok.mp h
  obtain rfl : k = encodingLength := alphaCheck_eq_ok.mp hk
  exact ⟨streamIdentifier, k, layout, alphaCheck_eq_ok.mp h1, hid, hlength,
    alphaCheck_eq_ok.mp h2, mapError_eq_ok.mp hlayout, hrest⟩

theorem readLayouts_pos (codec : LayoutCodec Layout) (tree : List UInt8) :
    ∀ count encodingLayouts pos encodingLayouts' pos',
      readLayouts codec tree count encodingLayouts pos = .ok (encodingLayouts', pos') →
      pos ≤ tree.length → pos ≤ pos' ∧ pos' ≤ tree.length
  | 0, _, _, _, _, h, hpos => by
    simp only [readLayouts, Except.ok.injEq, Prod.mk.injEq] at h
    omega
  | count + 1, encodingLayouts, pos, encodingLayouts', pos', h, hpos => by
    obtain ⟨_, _, _, h1, -, -, h2, -, h⟩ := readLayouts_succ_eq_ok h
    have := readLayouts_pos codec tree count _ _ _ _ h (by omega)
    omega

theorem readChildren_total
    (createChild : List UInt8 → Except Failure (EncodingLayoutTree Layout × ℕ))
    (tree : List UInt8) (hsmall : tree.length < 2 ^ 32)
    (hchild : ∀ offset, 0 < offset → offset ≤ tree.length →
      createChild (tree.drop offset) ≠ .error .outOfFuel ∧
        ∀ child n, createChild (tree.drop offset) = .ok (child, n) →
          n ≤ tree.length - offset) :
    ∀ count children offset, 0 < offset → offset ≤ tree.length →
      readChildren createChild tree count children offset ≠ .error .outOfFuel ∧
        ∀ children' offset', readChildren createChild tree count children offset =
          .ok (children', offset') → offset' ≤ tree.length
  | 0, _, offset, _, hle => by
    refine ⟨by simp [readChildren], fun _ _ h => ?_⟩
    simp only [readChildren, Except.ok.injEq, Prod.mk.injEq] at h
    omega
  | count + 1, children, offset, hpos, hle => by
    have hstep : ∀ child n, createChild (tree.drop offset) = .ok (child, n) →
        (offset + n) % 2 ^ 32 = offset + n ∧ 0 < offset + n ∧ offset + n ≤ tree.length := by
      intro child n h
      have := (hchild offset hpos hle).2 child n h
      exact ⟨Nat.mod_eq_of_lt (by omega), by omega, by omega⟩
    simp only [readChildren, if_neg (show ¬ tree.length < offset by omega)]
    refine ⟨bind_ne_error (hchild offset hpos hle).1 fun ⟨child, n⟩ h => ?_,
      fun _ _ h => ?_⟩
    · obtain ⟨hmod, h1, h2⟩ := hstep child n h
      rw [hmod]
      exact (readChildren_total createChild tree hsmall hchild count _ _ h1 h2).1
    · obtain ⟨⟨child, n⟩, hc, h⟩ := bind_eq_ok.mp h
      obtain ⟨hmod, h1, h2⟩ := hstep child n hc
      rw [hmod] at h
      exact (readChildren_total createChild tree hsmall hchild count _ _ h1 h2).2 _ _ h

theorem make_ne_outOfFuel (schemaKind : UInt8) (encodingLayouts : LayoutMap Layout)
    (name : List UInt8) (children : List (EncodingLayoutTree Layout)) :
    make schemaKind encodingLayouts name children ≠ .error .outOfFuel := by
  unfold make; split <;> simp

/-- On a view under 4 GiB, fuel beyond its length never runs out, and a node read from it took
no more than the view. -/
theorem createInternal_total (codec : LayoutCodec Layout) :
    ∀ fuel (tree : List UInt8), tree.length < fuel → tree.length < 2 ^ 32 →
      createInternal codec fuel tree ≠ .error .outOfFuel ∧
        ∀ node n, createInternal codec fuel tree = .ok (node, n) → n ≤ tree.length
  | 0, _, h, _ => absurd h (Nat.not_lt_zero _)
  | fuel + 1, tree, hfuel, hsmall => by
    have hchildren := readChildren_total (createInternal codec fuel) tree hsmall
      fun offset h1 h2 => by
        simpa using createInternal_total codec fuel (tree.drop offset) (by simp; omega)
          (by simp; omega)
    unfold createInternal
    refine bind_total (alphaCheck_ne_outOfFuel _) fun _ _ => ?_
    refine bind_total (readAt_ne_outOfFuel _ _ _) fun _ _ => ?_
    refine bind_total (readAt_ne_outOfFuel _ _ _) fun nameLength _ => ?_
    refine bind_total (alphaCheck_ne_outOfFuel _) fun _ hname => ?_
    refine bind_total (readAt_ne_outOfFuel _ _ _) fun _ _ => ?_
    refine bind_total (readLayouts_ne_outOfFuel _ _ _ _ _) fun ⟨encodingLayouts, pos⟩ hl => ?_
    refine bind_total (readAt_ne_outOfFuel _ _ _) fun childrenCount hcount => ?_
    have hname := alphaCheck_eq_ok.mp hname
    have hpos := readLayouts_pos codec tree _ _ _ _ _ hl (by unfold kMinBufferSize at hname; omega)
    have hcount := (readAt_eq_ok.mp hcount).1
    rw [Nat.mod_eq_of_lt (show pos + 4 < 2 ^ 32 by omega)]
    have hloop := hchildren childrenCount [] (pos + 4) (by omega) hcount
    refine bind_total hloop.1 fun ⟨children, offset⟩ hc => ?_
    refine bind_total (make_ne_outOfFuel _ _ _ _) fun _ _ => ⟨by simp [pure, Except.pure], ?_⟩
    rintro _ _ ⟨⟩
    exact hloop.2 _ _ hc

theorem createInternal_total_example :
    [2, 0, 0, 1, 7, 1, 0, 42].length < 9 ∧ [2, 0, 0, 1, 7, 1, 0, 42].length < 2 ^ 32 ∧
      createInternal LayoutCodec.ofBytes 9 [2, 0, 0, 1, 7, 1, 0, 42] ≠ .error .outOfFuel ∧
      ∀ node n, createInternal LayoutCodec.ofBytes 9 [2, 0, 0, 1, 7, 1, 0, 42] = .ok (node, n) →
        n ≤ [2, 0, 0, 1, 7, 1, 0, 42].length :=
  ⟨by decide, by decide, createInternal_total LayoutCodec.ofBytes 9 _ (by decide) (by decide)⟩

theorem make_eq_ok {schemaKind : UInt8} {encodingLayouts : LayoutMap Layout} {name : List UInt8}
    {children : List (EncodingLayoutTree Layout)} {node : EncodingLayoutTree Layout}
    (h : make schemaKind encodingLayouts name children = .ok node) :
    ∃ h₁ h₂, node = mk schemaKind encodingLayouts.1 name children h₁ h₂ := by
  unfold make at h
  split at h
  · cases h; exact ⟨_, _, rfl⟩
  · cases h

theorem createInternal_eq_ok {codec : LayoutCodec Layout} {fuel : ℕ} {tree : List UInt8}
    {node : EncodingLayoutTree Layout} {n : ℕ}
    (h : createInternal codec (fuel + 1) tree = .ok (node, n)) :
    ∃ schemaKind nameLength encodingLayoutCount encodingLayouts pos childrenCount children,
      readAt tree 0 1 = .ok schemaKind ∧ readAt tree 1 2 = .ok nameLength ∧
      nameLength + kMinBufferSize ≤ tree.length ∧
      readAt tree (3 + nameLength) 1 = .ok encodingLayoutCount ∧
      readLayouts codec tree encodingLayoutCount ⟨[], List.nodup_nil⟩ (4 + nameLength) =
        .ok (encodingLayouts, pos) ∧
      readAt tree pos 4 = .ok childrenCount ∧
      readChildren (createInternal codec fuel) tree childrenCount [] ((pos + 4) % 2 ^ 32) =
        .ok (children, n) ∧
      make (UInt8.ofNat schemaKind) encodingLayouts ((tree.drop 3).take nameLength) children =
        .ok node := by
  unfold createInternal at h
  obtain ⟨_, -, h⟩ := bind_eq_ok.mp h
  obtain ⟨schemaKind, hkind, h⟩ := bind_eq_ok.mp h
  obtain ⟨nameLength, hname, h⟩ := bind_eq_ok.mp h
  obtain ⟨_, hroom, h⟩ := bind_eq_ok.mp h
  obtain ⟨count, hcount, h⟩ := bind_eq_ok.mp h
  obtain ⟨⟨encodingLayouts, pos⟩, hlayouts, h⟩ := bind_eq_ok.mp h
  obtain ⟨childrenCount, hchildrenCount, h⟩ := bind_eq_ok.mp h
  obtain ⟨⟨children, offset⟩, hchildren, h⟩ := bind_eq_ok.mp h
  obtain ⟨node', hmake, h⟩ := bind_eq_ok.mp h
  cases h
  exact ⟨_, _, _, _, _, _, _, hkind, hname, alphaCheck_eq_ok.mp hroom, hcount, hlayouts,
    hchildrenCount, hchildren, hmake⟩

theorem create_eq_ok {codec : LayoutCodec Layout} {tree : List UInt8}
    {node : EncodingLayoutTree Layout} :
    create codec tree = .ok node ↔
      ∃ n, createInternal codec (tree.length + 1) tree = .ok (node, n) := by
  unfold create
  cases createInternal codec (tree.length + 1) tree with
  | error e => simp [Except.map]
  | ok result => simp [Except.map, Prod.ext_iff, eq_comm]

theorem name_of_createInternal {codec : LayoutCodec Layout} {fuel : ℕ} {tree : List UInt8}
    {node : EncodingLayoutTree Layout} {n : ℕ}
    (h : createInternal codec fuel tree = .ok (node, n)) :
    node.name = (tree.drop 3).take (readLE ((tree.drop 1).take 2)) := by
  cases fuel with
  | zero => cases h
  | succ fuel =>
    obtain ⟨_, _, _, _, _, _, _, -, hname, -, -, -, -, -, hmake⟩ := createInternal_eq_ok h
    obtain ⟨_, _, rfl⟩ := make_eq_ok hmake
    rw [(readAt_eq_ok.mp hname).2]
    rfl

/-- A node with an empty name and one layout whose bytes end the buffer passes every check of
`createInternal`, which then reads the four bytes of the children count from the end of the
buffer on. -/
theorem createInternal_reads_past_end (codec : LayoutCodec Layout) (fuel : ℕ)
    (schemaKind streamIdentifier : UInt8) (bytes : List UInt8) (layout : Layout)
    (hcreate : codec.create bytes = .ok (layout, bytes.length)) (hbytes : 0 < bytes.length)
    (hsmall : bytes.length < 2 ^ 16) :
    createInternal codec (fuel + 1)
        ([schemaKind, 0, 0, 1, streamIdentifier] ++ writeLE 2 bytes.length ++ bytes) =
      .error (.outOfBounds
        ([schemaKind, 0, 0, 1, streamIdentifier] ++ writeLE 2 bytes.length ++ bytes).length) := by
  set tree := [schemaKind, 0, 0, 1, streamIdentifier] ++ writeLE 2 bytes.length ++ bytes
  have hlen : tree.length = 7 + bytes.length := by simp [tree]; omega
  have hname : readAt tree 1 2 = .ok 0 := readAt_eq_ok.mpr ⟨by omega, by simp [tree, readLE]⟩
  have hcount : readAt tree 3 1 = .ok 1 := readAt_eq_ok.mpr ⟨by omega, by simp [tree, readLE]⟩
  have hencoding : readAt tree 5 2 = .ok bytes.length := readAt_eq_ok.mpr
    ⟨by omega, by simp [tree, List.take_append_eq_append_take]; omega⟩
  have hview : (tree.drop 7).take bytes.length = bytes := by simp [tree]
  have hlayouts : readLayouts codec tree 1 ⟨[], List.nodup_nil⟩ 4 =
      .ok (LayoutMap.insert ⟨[], List.nodup_nil⟩
        (UInt8.ofNat (readLE ((tree.drop 4).take 1))) layout, 7 + bytes.length) := by
    unfold readLayouts
    rw [bind_of_eq_ok (alphaCheck_eq_ok.mpr (by omega)),
      bind_of_eq_ok (readAt_eq_ok.mpr ⟨by omega, rfl⟩), bind_of_eq_ok hencoding,
      bind_of_eq_ok (alphaCheck_eq_ok.mpr (by omega)), hview, hcreate,
      bind_of_eq_ok (show (Except.ok (layout, bytes.length) : Except String _).mapError
        Failure.check = .ok (layout, bytes.length) from rfl),
      bind_of_eq_ok (alphaCheck_eq_ok.mpr rfl)]
    rfl
  unfold createInternal
  rw [bind_of_eq_ok (alphaCheck_eq_ok.mpr (by simp [kMinBufferSize]; omega)),
    bind_of_eq_ok (readAt_eq_ok.mpr ⟨by omega, rfl⟩), bind_of_eq_ok hname,
    bind_of_eq_ok (alphaCheck_eq_ok.mpr (by simp [kMinBufferSize]; omega)), bind_of_eq_ok hcount,
    bind_of_eq_ok hlayouts]
  dsimp only
  rw [bind_of_eq_error (readAt_of_lt (by omega))]
  congr 2; omega

theorem createInternal_reads_past_end_example :
    LayoutCodec.ofBytes.create [42] = .ok ([42], [42].length) ∧ 0 < [42].length ∧
      [42].length < 2 ^ 16 ∧
      createInternal LayoutCodec.ofBytes 1 [2, 0, 0, 1, 7, 1, 0, 42] = .error (.outOfBounds 8) :=
  ⟨rfl, by decide, by decide,
    createInternal_reads_past_end LayoutCodec.ofBytes 0 2 7 [42] [42] rfl (by decide) (by decide)⟩

end Nimble.EncodingLayoutTree
