import Nimble.Common.EncodingPrimitives

/-! # Encoding layout trees: the captured byte format

`EncodingLayoutTree` records, for each node of a schema, the encoding layout captured for each of
its streams. `serialize` writes a node as its schema kind (1 byte), its name (a 2-byte length,
then the bytes), its layouts (a 1-byte count, then per layout a 1-byte stream identifier, a
2-byte length and the layout's own bytes) and its children (a 4-byte count, then each child).
`createInternal` reads a node back, with size checks before the name and before each layout.

The output of `serialize` is a whole buffer, and the span it writes is the buffer's suffix from
`base`, as `std::span::subspan` hands it to the children. Every access goes through `readAt` or
`writeAt`, which stop the run at the first index outside the buffer: a run that ends in
`outOfBounds` is one in which the C++ code touches memory outside its input or output.
-/

namespace Nimble

open Encoding

/-- `EncodingLayoutTree::StreamIdentifier`. -/
abbrev StreamIdentifier := UInt8

/-- `EncodingLayoutTree`: the byte of a schema `Kind`, the `unordered_map` from stream
identifiers to layouts in its iteration order, the name and the children. The map's distinct
keys and the constructor's check `encodingLayouts_.size() < 255` are fields. -/
inductive EncodingLayoutTree (Layout : Type) where
  | mk (schemaKind : UInt8) (encodingLayouts : List (StreamIdentifier × Layout))
      (name : List UInt8) (children : List (EncodingLayoutTree Layout))
      (distinctIdentifiers : (encodingLayouts.map Prod.fst).Nodup)
      (fewLayouts : encodingLayouts.length < 255)

namespace EncodingLayoutTree

variable {Layout : Type}

/-- `EncodingLayoutTree::schemaKind`. -/
def schemaKind : EncodingLayoutTree Layout → UInt8
  | mk schemaKind .. => schemaKind

/-- The layout map, in iteration order. -/
def encodingLayouts : EncodingLayoutTree Layout → List (StreamIdentifier × Layout)
  | mk _ encodingLayouts .. => encodingLayouts

/-- `EncodingLayoutTree::name`. -/
def name : EncodingLayoutTree Layout → List UInt8
  | mk _ _ name .. => name

/-- The children, `EncodingLayoutTree::child(0)` onwards. -/
def children : EncodingLayoutTree Layout → List (EncodingLayoutTree Layout)
  | mk _ _ _ children .. => children

/-- `EncodingLayoutTree::encodingLayout`: the layout of a stream, or none (`nullptr`). -/
def encodingLayout (tree : EncodingLayoutTree Layout) (identifier : StreamIdentifier) :
    Option Layout :=
  tree.encodingLayouts.lookup identifier

/-- `EncodingLayoutTree::encodingLayoutIdentifiers`: the map's keys in its iteration order. -/
def encodingLayoutIdentifiers (tree : EncodingLayoutTree Layout) : List StreamIdentifier :=
  tree.encodingLayouts.map Prod.fst

/-- How a run of `createInternal` or `serialize` stops short of a result. -/
inductive Failure
  | check (message : String)
  | substrOutOfRange (offset : ℕ)
  | outOfBounds (index : ℕ)
  | outOfFuel
  deriving DecidableEq, Repr

/-- What the tree needs of `EncodingLayout`, whose code is not in this source tree: the bytes
its `serialize` writes for a layout, the message of the size check it fails on a smaller span,
and its `create`, which reads a layout from a view and reports the bytes it consumed. -/
structure LayoutCodec (Layout : Type) where
  bytes : Layout → List UInt8
  tooSmall : String
  create : List UInt8 → Except String (Layout × ℕ)

/-- A stand-in codec whose layouts are their own bytes: `create` takes the whole view. -/
def LayoutCodec.ofBytes : LayoutCodec (List UInt8) where
  bytes := id
  tooSmall := "Encoding layout buffer too small."
  create view := .ok (view, view.length)

/-- `EncodingLayout::serialize` into a span of `size` bytes. -/
def LayoutCodec.serialize (codec : LayoutCodec Layout) (layout : Layout) (size : ℕ) :
    Except String (List UInt8) :=
  if (codec.bytes layout).length ≤ size then .ok (codec.bytes layout) else .error codec.tooSmall

/-- `ALPHA_CHECK`. -/
def alphaCheck (condition : Prop) [Decidable condition] (message : String) :
    Except Failure Unit :=
  if condition then .ok () else .error (.check message)

/-- `encoding::read` of a `width`-byte little-endian value at `pos`. -/
def readAt (tree : List UInt8) (pos width : ℕ) : Except Failure ℕ :=
  if pos + width ≤ tree.length then .ok (readLE ((tree.drop pos).take width))
  else .error (.outOfBounds (max pos tree.length))

/-- `encoding::write` or `writeBytes` of `bytes` at `pos` of the buffer. -/
def writeAt (output : List UInt8) (pos : ℕ) (bytes : List UInt8) : Except Failure (List UInt8) :=
  if pos + bytes.length ≤ output.length then
    .ok (output.take pos ++ bytes ++ output.drop (pos + bytes.length))
  else .error (.outOfBounds (max pos output.length))

/-- `kMinBufferSize`. -/
def kMinBufferSize : ℕ := 8

theorem bind_of_eq_ok {ε α β : Type} {x : Except ε α} {a : α} (h : x = .ok a)
    (f : α → Except ε β) : x >>= f = f a := by
  rw [h]; rfl

theorem ok_bind {ε α β : Type} (a : α) (f : α → Except ε β) :
    (Except.ok a : Except ε α) >>= f = f a := rfl

theorem bind_eq_ok {ε α β : Type} {x : Except ε α} {f : α → Except ε β} {b : β} :
    x >>= f = .ok b ↔ ∃ a, x = .ok a ∧ f a = .ok b := by
  cases x <;> simp [bind, Except.bind]

theorem bind_of_eq_error {ε α β : Type} {x : Except ε α} {e : ε} (h : x = .error e)
    (f : α → Except ε β) : x >>= f = .error e := by
  rw [h]; rfl

theorem alphaCheck_eq_ok {condition : Prop} [Decidable condition] {message : String} :
    alphaCheck condition message = .ok () ↔ condition := by
  unfold alphaCheck; split_ifs <;> simp_all

theorem readAt_eq_ok {tree : List UInt8} {pos width n : ℕ} :
    readAt tree pos width = .ok n ↔
      pos + width ≤ tree.length ∧ n = readLE ((tree.drop pos).take width) := by
  unfold readAt; split_ifs <;> simp_all [eq_comm]

theorem readAt_of_lt {tree : List UInt8} {pos width : ℕ} (h : tree.length < pos + width) :
    readAt tree pos width = .error (.outOfBounds (max pos tree.length)) :=
  if_neg (by omega)

theorem writeAt_of_lt {output : List UInt8} {pos : ℕ} {bytes : List UInt8}
    (h : output.length < pos + bytes.length) :
    writeAt output pos bytes = .error (.outOfBounds (max pos output.length)) :=
  if_neg (by omega)

/-- An `unordered_map<StreamIdentifier, EncodingLayout>`, in iteration order. -/
def LayoutMap (Layout : Type) := {m : List (StreamIdentifier × Layout) // (m.map Prod.fst).Nodup}

/-- `unordered_map::insert`: an identifier already present keeps its layout. -/
def LayoutMap.insert (m : LayoutMap Layout) (streamIdentifier : StreamIdentifier)
    (layout : Layout) : LayoutMap Layout :=
  if h : streamIdentifier ∈ m.1.map Prod.fst then m
  else ⟨m.1 ++ [(streamIdentifier, layout)], by
    simpa [List.nodup_append, h] using m.2⟩

theorem LayoutMap.insert_of_not_mem {m : LayoutMap Layout} {streamIdentifier : StreamIdentifier}
    {layout : Layout} (h : streamIdentifier ∉ m.1.map Prod.fst) :
    (m.insert streamIdentifier layout).1 = m.1 ++ [(streamIdentifier, layout)] := by
  simp [LayoutMap.insert, h]

/-- The `EncodingLayoutTree` constructor, with its check. -/
def make (schemaKind : UInt8) (encodingLayouts : LayoutMap Layout) (name : List UInt8)
    (children : List (EncodingLayoutTree Layout)) : Except Failure (EncodingLayoutTree Layout) :=
  if h : encodingLayouts.1.length < 255 then
    .ok (mk schemaKind encodingLayouts.1 name children encodingLayouts.2 h)
  else .error (.check "Too many encoding layout streams.")

/-- The loop of `createInternal` over a node's `encodingLayoutCount` layouts, from `pos`. -/
def readLayouts (codec : LayoutCodec Layout) (tree : List UInt8) :
    ℕ → LayoutMap Layout → ℕ → Except Failure (LayoutMap Layout × ℕ)
  | 0, encodingLayouts, pos => .ok (encodingLayouts, pos)
  | count + 1, encodingLayouts, pos => do
    alphaCheck (3 ≤ tree.length - pos) "Invalid captured encoding tree. Buffer too small."
    let streamIdentifier ← readAt tree pos 1
    let encodingLength ← readAt tree (pos + 1) 2
    alphaCheck (encodingLength ≤ tree.length - (pos + 3))
      "Invalid captured encoding tree. Buffer too small."
    let layout ← (codec.create ((tree.drop (pos + 3)).take encodingLength)).mapError .check
    alphaCheck (layout.2 = encodingLength)
      "Invalid captured encoding tree. Encoding size mismatch."
    readLayouts codec tree count
      (encodingLayouts.insert (UInt8.ofNat streamIdentifier) layout.1) (pos + 3 + layout.2)

/-- The loop of `createInternal` over the `childrenCount` children, each read from the view's
suffix at `offset`, a `uint32_t`. -/
def readChildren (createChild : List UInt8 → Except Failure (EncodingLayoutTree Layout × ℕ))
    (tree : List UInt8) : ℕ → List (EncodingLayoutTree Layout) → ℕ →
      Except Failure (List (EncodingLayoutTree Layout) × ℕ)
  | 0, children, offset => .ok (children, offset)
  | count + 1, children, offset =>
    if tree.length < offset then .error (.substrOutOfRange offset)
    else do
      let child ← createChild (tree.drop offset)
      readChildren createChild tree count (children ++ [child.1]) ((offset + child.2) % 2 ^ 32)

/-- `createInternal`: a node read from the front of `tree`, and the bytes it took. -/
def createInternal (codec : LayoutCodec Layout) :
    ℕ → List UInt8 → Except Failure (EncodingLayoutTree Layout × ℕ)
  | 0, _ => .error .outOfFuel
  | fuel + 1, tree => do
    alphaCheck (kMinBufferSize ≤ tree.length) "Invalid captured encoding tree. Buffer too small."
    let schemaKind ← readAt tree 0 1
    let nameLength ← readAt tree 1 2
    alphaCheck (nameLength + kMinBufferSize ≤ tree.length)
      "Invalid captured encoding tree. Buffer too small."
    let name := (tree.drop 3).take nameLength
    let encodingLayoutCount ← readAt tree (3 + nameLength) 1
    let (encodingLayouts, pos) ←
      readLayouts codec tree encodingLayoutCount ⟨[], List.nodup_nil⟩ (4 + nameLength)
    let childrenCount ← readAt tree pos 4
    let (children, offset) ←
      readChildren (createInternal codec fuel) tree childrenCount [] ((pos + 4) % 2 ^ 32)
    let node ← make (UInt8.ofNat schemaKind) encodingLayouts name children
    pure (node, offset)

/-- `EncodingLayoutTree::create`. -/
def create (codec : LayoutCodec Layout) (tree : List UInt8) :
    Except Failure (EncodingLayoutTree Layout) :=
  (createInternal codec (tree.length + 1) tree).map Prod.fst

/-- The loop of `serialize` over a node's layouts, from `pos`: identifier, length, then the
layout's own bytes, written by `EncodingLayout::serialize` into the span after the length. -/
def serializeLayouts (codec : LayoutCodec Layout) :
    List (StreamIdentifier × Layout) → List UInt8 → ℕ → Except Failure (List UInt8 × ℕ)
  | [], output, pos => .ok (output, pos)
  | (streamIdentifier, layout) :: rest, output, pos => do
    let output ← writeAt output pos [streamIdentifier]
    if output.length < pos + 3 then .error (.outOfBounds (pos + 3))
    else do
      let bytes ← (codec.serialize layout (output.length - (pos + 3))).mapError .check
      let output ← writeAt output (pos + 3) bytes
      let encodingSize := bytes.length % 2 ^ 32
      let output ← writeAt output (pos + 1) (writeLE 2 encodingSize)
      serializeLayouts codec rest output (pos + 3 + encodingSize)

/-- `EncodingLayoutTree::serialize` into the span of `output` from `base`: the buffer after its
writes, and the `uint32_t` byte count it returns. -/
def serialize (codec : LayoutCodec Layout) :
    EncodingLayoutTree Layout → List UInt8 → ℕ → Except Failure (List UInt8 × ℕ)
  | mk schemaKind encodingLayouts name children _ _, output, base => do
    alphaCheck (kMinBufferSize + name.length ≤ output.length - base)
      "Captured encoding buffer too small."
    let output ← writeAt output base [schemaKind]
    let output ← writeAt output (base + 1) (writeLE 2 name.length)
    let output ← (if name.isEmpty then pure output else writeAt output (base + 3) name)
    let output ← writeAt output (base + 3 + name.length) (writeLE 1 encodingLayouts.length)
    let (output, pos) ← serializeLayouts codec encodingLayouts output (base + 4 + name.length)
    let output ← writeAt output pos (writeLE 4 children.length)
    let (output, pos) ← serializeChildren children output (pos + 4)
    pure (output, (pos - base) % 2 ^ 32)
where
  serializeChildren : List (EncodingLayoutTree Layout) → List UInt8 → ℕ →
      Except Failure (List UInt8 × ℕ)
    | [], output, pos => .ok (output, pos)
    | child :: children, output, pos => do
      let (output, written) ← serialize codec child output pos
      serializeChildren children output (pos + written)

end EncodingLayoutTree

end Nimble
