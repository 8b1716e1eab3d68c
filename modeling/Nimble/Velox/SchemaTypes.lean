import Mathlib

/-! # Schema trees and their streams

The logical type tree (`TypeBuilder` while writing, `Type` when reading) in the six kinds the
planner and the trainer switch over, each node holding the stream descriptors it owns. Names are
the `std::string`s of row fields and flat-map features. `appendAllNestedStreams` is the schema
preorder of all stream offsets below a node.
-/

namespace Nimble

/-- `ScalarKind`. -/
inductive ScalarKind
  | int8 | uint8 | int16 | uint16 | int32 | uint32 | int64 | uint64
  | float | double | bool | string | binary | undefined
  deriving DecidableEq, Repr

/-- `Kind`, an `enum class Kind : uint8_t`. -/
inductive Kind
  | scalar | row | array | arrayWithOffsets | map | flatMap
  deriving DecidableEq, Repr

/-- The value of a `Kind` enumerator, as it is stored in a byte. -/
def Kind.toUInt8 (k : Kind) : UInt8 := UInt8.ofNat k.toCtorIdx

theorem Kind.toUInt8_injective : Function.Injective Kind.toUInt8 := by
  intro a b h; cases a <;> cases b <;> first | rfl | exact absurd h (by decide)

/-- `StreamDescriptor`: the offset of a stream and the scalar kind of its values. -/
structure StreamDescriptor where
  offset : ℕ
  scalarKind : ScalarKind
  deriving DecidableEq, Repr

/-- A schema node, with the descriptors it owns and its named children. -/
inductive Schema
  | scalar (scalarDescriptor : StreamDescriptor)
  | row (nullsDescriptor : StreamDescriptor) (children : List (String × Schema))
  | array (lengthsDescriptor : StreamDescriptor) (elements : Schema)
  | arrayWithOffsets (offsetsDescriptor lengthsDescriptor : StreamDescriptor) (elements : Schema)
  | map (lengthsDescriptor : StreamDescriptor) (keys values : Schema)
  | flatMap (nullsDescriptor : StreamDescriptor)
      (children : List (String × StreamDescriptor × Schema))
  deriving Repr

/-- `Type::kind`. -/
def Schema.kind : Schema → Kind
  | .scalar .. => .scalar
  | .row .. => .row
  | .array .. => .array
  | .arrayWithOffsets .. => .arrayWithOffsets
  | .map .. => .map
  | .flatMap .. => .flatMap

/-- `appendAllNestedStreams`: the offsets of every stream at and below a node, in schema
preorder (a flat map's in-map stream comes before its feature's subtree). -/
def appendAllNestedStreams : Schema → List ℕ
  | .scalar d => [d.offset]
  | .row nulls children => nulls.offset :: rowChildren children
  | .array lengths elements => lengths.offset :: appendAllNestedStreams elements
  | .arrayWithOffsets offsets lengths elements =>
    offsets.offset :: lengths.offset :: appendAllNestedStreams elements
  | .map lengths keys values =>
    lengths.offset :: (appendAllNestedStreams keys ++ appendAllNestedStreams values)
  | .flatMap nulls children => nulls.offset :: flatMapChildren children
where
  rowChildren : List (String × Schema) → List ℕ
    | [] => []
    | (_, child) :: children => appendAllNestedStreams child ++ rowChildren children
  flatMapChildren : List (String × StreamDescriptor × Schema) → List ℕ
    | [] => []
    | (_, inMap, child) :: children =>
      inMap.offset :: (appendAllNestedStreams child ++ flatMapChildren children)

theorem subset_rowChildren {children : List (String × Schema)} {c : String × Schema}
    (h : c ∈ children) :
    appendAllNestedStreams c.2 ⊆ appendAllNestedStreams.rowChildren children := by
  induction children with
  | nil => cases h
  | cons d ds ih =>
    rcases List.mem_cons.mp h with rfl | h
    · exact List.subset_append_left _ _
    · exact List.Subset.trans (ih h) (List.subset_append_right _ _)

theorem subset_flatMapChildren {children : List (String × StreamDescriptor × Schema)}
    {c : String × StreamDescriptor × Schema} (h : c ∈ children) :
    c.2.1.offset :: appendAllNestedStreams c.2.2 ⊆
      appendAllNestedStreams.flatMapChildren children := by
  induction children with
  | nil => cases h
  | cons d ds ih =>
    rcases List.mem_cons.mp h with rfl | h
    · exact List.cons_subset_cons _ (List.subset_append_left _ _)
    · exact List.Subset.trans (ih h)
        (List.Subset.trans (List.subset_append_right _ _) (List.subset_cons_self _ _))

end Nimble
