import Nimble.Common.EncodingPrimitives

/-! # The encoding layout label of the dump tool

`getEncodingLayoutLabel` prints an encoding layout tree on one line: each node as its encoding
and compression types, its children in brackets, each named after the stream it encodes for its
parent. `traverseEncodingLayout` visits the tree in preorder and the visitor keeps the level of
the last node it printed; it opens a bracket when the level goes up and closes one when it goes
down, however many levels it goes down by.
-/

namespace Nimble.NimbleDump

open Encoding

/-- An `EncodingLayout` as the dump tool reads it: its encoding type, its compression type and
its children, each of which may be absent. -/
inductive EncodingLayout (Compression : Type) where
  | mk (encodingType : EncodingType) (compressionType : Compression)
      (children : List (Option (EncodingLayout Compression)))

variable {Compression : Type}

/-- `EncodingLayout::encodingType`. -/
def EncodingLayout.encodingType : EncodingLayout Compression → EncodingType
  | mk encodingType .. => encodingType

/-- One call of the visitor of `traverseEncodingLayout`: an absent child, or a node with its
parent, level and child index (a `uint8_t`). -/
inductive Visit (Compression : Type) where
  | absent (level childIndex : ℕ)
  | present (node parentNode : EncodingLayout Compression) (level childIndex : ℕ)

mutual

/-- `traverseEncodingLayout` from a present node: the visitor calls, in order. -/
def traverseEncodingLayout (node parentNode : EncodingLayout Compression) (level childIndex : ℕ) :
    List (Visit Compression) :=
  match node with
  | .mk _ _ children =>
    .present node parentNode level childIndex :: traverseChildren node children (level + 1) 0

/-- The loop of `traverseEncodingLayout` over the children of `parentNode`, from child `i`. -/
def traverseChildren (parentNode : EncodingLayout Compression) :
    List (Option (EncodingLayout Compression)) → ℕ → ℕ → List (Visit Compression)
  | [], _, _ => []
  | none :: children, level, i =>
    .absent level (i % 256) :: traverseChildren parentNode children level (i + 1)
  | some child :: children, level, i =>
    traverseEncodingLayout child parentNode level (i % 256) ++
      traverseChildren parentNode children level (i + 1)

end

/-- The `identifierNames` table of `getEncodingLayoutLabel`. -/
def identifierNames : EncodingType → Option (List String)
  | .dictionary => some ["Alphabet", "Indices"]
  | .mainlyConstant => some ["IsCommon", "OtherValues"]
  | .nullable => some ["Data", "Nulls"]
  | .rle => some ["RunLengths", "RunValues"]
  | .sparseBool => some ["Indices"]
  | .trivial => some ["Lengths"]
  | _ => none

/-- `getIdentifierName`. -/
def getIdentifierName (encodingType : EncodingType) (identifier : ℕ) : String :=
  match identifierNames encodingType with
  | some names => names.getD identifier "Unknown"
  | none => "Unknown"

section Label

variable (typeName : EncodingType → String) (compressionName : Compression → String)

/-- A node as the label prints it: `toString` of its two types. -/
def nodeText : EncodingLayout Compression → String
  | .mk encodingType compressionType _ =>
    typeName encodingType ++ "\x7b" ++ compressionName compressionType ++ "\x7d"

/-- The visitor of `getEncodingLayoutLabel`, on the label so far and `currentLevel`. -/
def labelVisit (state : String × ℕ) : Visit Compression → String × ℕ
  | .absent .. => (state.1 ++ "N/A", state.2)
  | .present node parentNode level identifier =>
    let label :=
      if level > state.2 then
        state.1 ++ "[" ++ getIdentifierName parentNode.encodingType identifier ++ ":"
      else if level < state.2 then state.1 ++ "]"
      else state.1
    let label :=
      if identifier > 0 then
        label ++ "," ++ getIdentifierName parentNode.encodingType identifier ++ ":"
      else label
    (label ++ nodeText typeName compressionName node, level)

/-- `getEncodingLayoutLabel`. -/
def getEncodingLayoutLabel (root : Option (EncodingLayout Compression)) : String :=
  let visits := match root with
    | some root => traverseEncodingLayout root root 0 0
    | none => [.absent 0 0]
  let state := visits.foldl (labelVisit typeName compressionName) ("", 0)
  state.1 ++ String.join (List.replicate state.2 "]")

/-- What the visitor prints before a node at `level`, child `identifier` of a node of type
`parentType`, when the last node printed was at `currentLevel`. -/
def opening (parentType : EncodingType) (currentLevel level identifier : ℕ) : String :=
  (if level > currentLevel then "[" ++ getIdentifierName parentType identifier ++ ":"
    else if level < currentLevel then "]" else "") ++
  (if identifier > 0 then "," ++ getIdentifierName parentType identifier ++ ":" else "")

theorem labelVisit_present (state : String × ℕ) (node parentNode : EncodingLayout Compression)
    (level identifier : ℕ) :
    labelVisit typeName compressionName state (.present node parentNode level identifier) =
      (state.1 ++ opening parentNode.encodingType state.2 level identifier ++
        nodeText typeName compressionName node, level) := by
  simp only [labelVisit, opening]
  split_ifs <;> simp only [String.append_assoc, String.append_empty, String.empty_append]

def closing (levels : ℕ) : String := String.join (List.replicate levels "]")

theorem closing_eq (levels : ℕ) :
    closing levels = ⟨List.replicate levels (Char.ofNat 93)⟩ := by
  simp only [closing, String.join_eq, List.map_replicate]
  congr
  induction levels with
  | zero => rfl
  | succ levels ih => rw [List.replicate_succ, List.flatten_cons, ih]; rfl

@[simp] theorem closing_zero : closing 0 = "" := rfl

theorem closing_succ (levels : ℕ) : closing (levels + 1) = closing levels ++ "]" := by
  simp only [closing_eq, List.replicate_succ']
  rfl

theorem opening_add (parentType : EncodingType) (base depth level identifier : ℕ) :
    opening parentType (base + depth) (base + level) identifier =
      opening parentType depth level identifier := by
  simp only [opening, gt_iff_lt, Nat.add_lt_add_iff_left]

mutual

def body : EncodingLayout Compression → String × ℕ
  | .mk encodingType compressionType children =>
    let rest := bodyChildren encodingType children 0 0
    (nodeText typeName compressionName (.mk encodingType compressionType children) ++ rest.1,
      rest.2)

def bodyChildren (parentType : EncodingType) :
    List (Option (EncodingLayout Compression)) → ℕ → ℕ → String × ℕ
  | [], depth, _ => ("", depth)
  | none :: children, depth, i =>
    let rest := bodyChildren parentType children depth (i + 1)
    ("N/A" ++ rest.1, rest.2)
  | some child :: children, depth, i =>
    let rest := bodyChildren parentType children (1 + (body child).2) (i + 1)
    (opening parentType depth 1 (i % 256) ++ (body child).1 ++ rest.1, rest.2)

end

mutual

theorem foldl_traverseEncodingLayout :
    ∀ (node parentNode : EncodingLayout Compression) (level identifier : ℕ) (label : String)
      (currentLevel : ℕ),
      (traverseEncodingLayout node parentNode level identifier).foldl
          (labelVisit typeName compressionName) (label, currentLevel) =
        (label ++ opening parentNode.encodingType currentLevel level identifier ++
            (body typeName compressionName node).1,
          level + (body typeName compressionName node).2)
  | .mk encodingType compressionType children, parentNode, level, identifier, label,
      currentLevel => by
    have hchildren := foldl_traverseChildren (.mk encodingType compressionType children) children
      level 0 0 (label ++ opening parentNode.encodingType currentLevel level identifier ++
        nodeText typeName compressionName (.mk encodingType compressionType children))
    rw [Nat.add_zero] at hchildren
    rw [traverseEncodingLayout, List.foldl_cons, labelVisit_present]
    dsimp only
    rw [hchildren]
    simp only [body, String.append_assoc, EncodingLayout.encodingType]

theorem foldl_traverseChildren :
    ∀ (parentNode : EncodingLayout Compression)
      (children : List (Option (EncodingLayout Compression))) (level depth i : ℕ)
      (label : String),
      (traverseChildren parentNode children (level + 1) i).foldl
          (labelVisit typeName compressionName) (label, level + depth) =
        (label ++
            (bodyChildren typeName compressionName parentNode.encodingType children depth i).1,
          level +
            (bodyChildren typeName compressionName parentNode.encodingType children depth i).2)
  | _, [], _, _, _, _ => by simp [traverseChildren, bodyChildren]
  | parentNode, none :: children, level, depth, i, label => by
    rw [traverseChildren, List.foldl_cons]
    simp only [labelVisit]
    rw [foldl_traverseChildren parentNode children]
    simp only [bodyChildren, String.append_assoc]
  | parentNode, some child :: children, level, depth, i, label => by
    rw [traverseChildren, List.foldl_append, foldl_traverseEncodingLayout, opening_add,
      show level + 1 + (body typeName compressionName child).2 =
        level + (1 + (body typeName compressionName child).2) by omega,
      foldl_traverseChildren parentNode children]
    simp only [bodyChildren, String.append_assoc]

end

theorem getEncodingLayoutLabel_some (root : EncodingLayout Compression) :
    getEncodingLayoutLabel typeName compressionName (some root) =
      (body typeName compressionName root).1 ++ closing (body typeName compressionName root).2 := by
  simp only [getEncodingLayoutLabel, foldl_traverseEncodingLayout]
  simp [opening, closing]

mutual

/-- Modelled from the spec: the label a layout tree should get, each node followed by its
children in one pair of brackets, each child after its stream's name. The spec renders present
children only; an absent one is written here as the `N/A` the label prints for it. -/
def render : EncodingLayout Compression → String
  | .mk encodingType compressionType [] =>
    nodeText typeName compressionName (.mk encodingType compressionType [])
  | .mk encodingType compressionType (child :: children) =>
    nodeText typeName compressionName (.mk encodingType compressionType (child :: children)) ++
      "[" ++ getIdentifierName encodingType 0 ++ ":" ++ renderChild child ++
      renderSiblings encodingType children 1 ++ "]"

def renderChild : Option (EncodingLayout Compression) → String
  | none => "N/A"
  | some child => render child

def renderSiblings (parentType : EncodingType) :
    List (Option (EncodingLayout Compression)) → ℕ → String
  | [], _ => ""
  | child :: children, i =>
    "," ++ getIdentifierName parentType i ++ ":" ++ renderChild child ++
      renderSiblings parentType children (i + 1)

end

/-- On the tree `R[C0[D0[E0]], C1]`, whose first child ends two levels further down than the
second starts, the label is its rendering with one `]` left out. -/
theorem getEncodingLayoutLabel_drops_bracket (c : Compression) :
    let t : EncodingLayout Compression := .mk .nullable c
      [some (.mk .nullable c [some (.mk .nullable c [some (.mk .nullable c [])])]),
        some (.mk .nullable c [])]
    getEncodingLayoutLabel typeName compressionName (some t) ≠ render typeName compressionName t ∧
      ∃ pre post, getEncodingLayoutLabel typeName compressionName (some t) = pre ++ post ∧
        render typeName compressionName t = pre ++ "]" ++ post := by
  intro t
  let node := typeName .nullable ++ "\x7b" ++ compressionName c ++ "\x7d"
  let opens := "[" ++ getIdentifierName .nullable 0 ++ ":"
  let pre := node ++ (opens ++ (node ++ (opens ++ (node ++ (opens ++ node)))))
  let post := "]" ++ ("," ++ getIdentifierName .nullable 1 ++ ":" ++ node ++ "]")
  have hlabel : getEncodingLayoutLabel typeName compressionName (some t) = pre ++ post := by
    rw [getEncodingLayoutLabel_some]
    simp only [t, pre, post, node, opens, body, bodyChildren, opening, nodeText, closing,
      String.join, List.replicate, List.foldl, String.append_assoc, String.append_empty,
      String.empty_append, Nat.reduceAdd, Nat.reduceMod, gt_iff_lt, Nat.lt_irrefl, Nat.zero_lt_one, ite_true,
      ite_false, Nat.reduceLT]
  have hrender : render typeName compressionName t = pre ++ "]" ++ post := by
    simp only [t, pre, post, node, opens, render, renderChild, renderSiblings, nodeText,
      String.append_assoc, String.append_empty]
  refine ⟨fun h => ?_, pre, post, hlabel, hrender⟩
  have hlength := congrArg String.length (hlabel.symm.trans (h.trans hrender))
  have hbracket : "]".length = 1 := rfl
  simp only [String.length_append, hbracket] at hlength
  omega

mutual

def descent : EncodingLayout Compression → ℕ
  | .mk _ _ children => descentChildren children 0

def descentChildren : List (Option (EncodingLayout Compression)) → ℕ → ℕ
  | [], depth => depth
  | none :: children, depth => descentChildren children depth
  | some child :: children, _ => descentChildren children (1 + descent child)

end

mutual

theorem body_snd :
    ∀ node : EncodingLayout Compression, (body typeName compressionName node).2 = descent node
  | .mk encodingType _ children => bodyChildren_snd encodingType children 0 0

theorem bodyChildren_snd :
    ∀ (parentType : EncodingType) (children : List (Option (EncodingLayout Compression)))
      (depth i : ℕ),
      (bodyChildren typeName compressionName parentType children depth i).2 =
        descentChildren children depth
  | _, [], _, _ => rfl
  | parentType, none :: children, depth, i => bodyChildren_snd parentType children depth (i + 1)
  | parentType, some child :: children, _, i => by
    rw [bodyChildren, descentChildren, ← body_snd child]
    exact bodyChildren_snd parentType children _ (i + 1)

end

mutual

/-- Every child is present, no node has more than 256 children (the child index is a
`uint8_t`), and every child but the last ends at most one level below itself. -/
def shallowReturns : EncodingLayout Compression → Bool
  | .mk _ _ children => decide (children.length ≤ 256) && shallowReturnsChildren children

def shallowReturnsChildren : List (Option (EncodingLayout Compression)) → Bool
  | [] => true
  | none :: _ => false
  | some child :: children =>
    shallowReturns child && (children.isEmpty || decide (descent child ≤ 1)) &&
      shallowReturnsChildren children

end

theorem opening_first (parentType : EncodingType) :
    opening parentType 0 1 0 = "[" ++ getIdentifierName parentType 0 ++ ":" := by
  simp [opening]

theorem opening_sibling (parentType : EncodingType) {depth i : ℕ} (hi : 0 < i)
    (hdepth : 1 ≤ depth) (hdepth' : depth ≤ 2) :
    opening parentType depth 1 i =
      closing (depth - 1) ++ ("," ++ getIdentifierName parentType i ++ ":") := by
  obtain rfl | rfl : depth = 1 ∨ depth = 2 := by omega
  all_goals simp [opening, hi, closing_succ]

mutual

theorem render_eq_body :
    ∀ node : EncodingLayout Compression, shallowReturns node = true →
      render typeName compressionName node =
        (body typeName compressionName node).1 ++ closing (descent node)
  | .mk encodingType compressionType [], _ => by
    simp [render, body, bodyChildren, descent, descentChildren]
  | .mk _ _ (none :: _), h => by simp [shallowReturns, shallowReturnsChildren] at h
  | .mk encodingType compressionType (some child :: children), h => by
    simp only [shallowReturns, shallowReturnsChildren, Bool.and_eq_true, decide_eq_true_eq,
      Bool.or_eq_true, List.isEmpty_iff] at h
    obtain ⟨hlength, ⟨hchild, hlast⟩, hchildren⟩ := h
    have hsiblings := renderSiblings_eq_bodyChildren encodingType children (1 + descent child) 1
      Nat.one_pos (by simp at hlength; omega) (by omega)
      (fun hne => by have := hlast.resolve_left hne; omega) hchildren
    rw [Nat.add_sub_cancel_left] at hsiblings
    simp only [render, renderChild, body, bodyChildren, descent, descentChildren, Nat.zero_mod,
      opening_first, render_eq_body child hchild, body_snd, String.append_assoc, hsiblings]

theorem renderSiblings_eq_bodyChildren :
    ∀ (parentType : EncodingType) (children : List (Option (EncodingLayout Compression)))
      (depth i : ℕ), 0 < i → i + children.length ≤ 256 → 1 ≤ depth →
      (children ≠ [] → depth ≤ 2) → shallowReturnsChildren children = true →
      closing (depth - 1) ++
          (renderSiblings typeName compressionName parentType children i ++ "]") =
        (bodyChildren typeName compressionName parentType children depth i).1 ++
          closing (descentChildren children depth)
  | _, [], depth, _, _, _, hdepth, _, _ => by
    obtain ⟨levels, rfl⟩ : ∃ levels, depth = levels + 1 := ⟨depth - 1, by omega⟩
    simp [renderSiblings, bodyChildren, descentChildren, closing_succ]
  | _, none :: _, _, _, _, _, _, _, h => by simp [shallowReturnsChildren] at h
  | parentType, some child :: children, depth, i, hi, hlength, hdepth, hdepth', h => by
    simp only [shallowReturnsChildren, Bool.and_eq_true, Bool.or_eq_true, List.isEmpty_iff,
      decide_eq_true_eq] at h
    obtain ⟨⟨hchild, hlast⟩, hchildren⟩ := h
    have hsiblings := renderSiblings_eq_bodyChildren parentType children (1 + descent child)
      (i + 1) (by omega) (by simp at hlength; omega) (by omega)
      (fun hne => by have := hlast.resolve_left hne; omega) hchildren
    rw [Nat.add_sub_cancel_left] at hsiblings
    simp only [renderSiblings, renderChild, bodyChildren, descentChildren,
      Nat.mod_eq_of_lt (show i < 256 by simp at hlength; omega),
      opening_sibling parentType hi hdepth (hdepth' (List.cons_ne_nil _ _)),
      render_eq_body child hchild, body_snd, String.append_assoc, hsiblings]

end

/-- The label of a tree of `shallowReturns` is its recursive rendering. -/
theorem getEncodingLayoutLabel_eq_render (root : EncodingLayout Compression)
    (h : shallowReturns root = true) :
    getEncodingLayoutLabel typeName compressionName (some root) =
      render typeName compressionName root := by
  rw [getEncodingLayoutLabel_some, render_eq_body typeName compressionName root h, body_snd]

mutual

/-- Every child is present and no node has more than 256 children: the trees on which
`getEncodingLayoutLabel` prints the nodes and names the rendering does. -/
def allPresent : EncodingLayout Compression → Bool
  | .mk _ _ children => decide (children.length ≤ 256) && allPresentChildren children

def allPresentChildren : List (Option (EncodingLayout Compression)) → Bool
  | [] => true
  | none :: _ => false
  | some child :: children => allPresent child && allPresentChildren children

end

mutual

/-- The brackets `getEncodingLayoutLabel` leaves out: a later sibling prints one `]` where the
subtree before it, ending `depth` levels below their parent, left `depth - 1` open. -/
def droppedBrackets : EncodingLayout Compression → ℕ
  | .mk _ _ children => droppedChildren children 0

def droppedChildren : List (Option (EncodingLayout Compression)) → ℕ → ℕ
  | [], _ => 0
  | none :: children, depth => droppedChildren children depth
  | some child :: children, depth =>
    (depth - 2) + droppedBrackets child + droppedChildren children (1 + descent child)

end

theorem length_opening_sibling (parentType : EncodingType) {depth i : ℕ} (hi : 0 < i)
    (hdepth : 1 ≤ depth) :
    (opening parentType depth 1 i).length + 1 =
      min depth 2 + ("," ++ getIdentifierName parentType i ++ ":").length := by
  have hbracket : "]".length = 1 := rfl
  rw [opening, if_neg (by omega), if_pos hi]
  split_ifs <;> simp only [String.length_append, hbracket, String.length_empty] <;> omega

mutual

theorem length_render :
    ∀ node : EncodingLayout Compression, allPresent node = true →
      (render typeName compressionName node).length =
        (body typeName compressionName node).1.length + descent node + droppedBrackets node
  | .mk encodingType compressionType [], _ => by
    simp [render, body, bodyChildren, descent, descentChildren, droppedBrackets, droppedChildren]
  | .mk _ _ (none :: _), h => by simp [allPresent, allPresentChildren] at h
  | .mk encodingType compressionType (some child :: children), h => by
    simp only [allPresent, allPresentChildren, Bool.and_eq_true, decide_eq_true_eq] at h
    obtain ⟨hlength, hchild, hchildren⟩ := h
    have hsiblings := length_renderSiblings encodingType children (1 + descent child) 1
      Nat.one_pos (by simp at hlength; omega) (by omega) hchildren
    have := length_render child hchild
    have hbracket : "]".length = 1 := rfl
    simp only [render, renderChild, body, bodyChildren, descent, descentChildren,
      droppedBrackets, droppedChildren, Nat.zero_mod, Nat.zero_add, opening_first, body_snd,
      String.length_append] at hsiblings ⊢
    omega

theorem length_renderSiblings :
    ∀ (parentType : EncodingType) (children : List (Option (EncodingLayout Compression)))
      (depth i : ℕ), 0 < i → i + children.length ≤ 256 → 1 ≤ depth →
      allPresentChildren children = true →
      (depth - 1) + (renderSiblings typeName compressionName parentType children i).length + 1 =
        (bodyChildren typeName compressionName parentType children depth i).1.length +
          descentChildren children depth + droppedChildren children depth
  | _, [], depth, _, _, _, hdepth, _ => by
    simp [renderSiblings, bodyChildren, descentChildren, droppedChildren]; omega
  | _, none :: _, _, _, _, _, _, h => by simp [allPresentChildren] at h
  | parentType, some child :: children, depth, i, hi, hlength, hdepth, h => by
    simp only [allPresentChildren, Bool.and_eq_true] at h
    obtain ⟨hchild, hchildren⟩ := h
    have hsiblings := length_renderSiblings parentType children (1 + descent child) (i + 1)
      (by omega) (by simp at hlength; omega) (by omega) hchildren
    have := length_render child hchild
    have hopening := length_opening_sibling parentType hi hdepth
    simp only [renderSiblings, renderChild, bodyChildren, descentChildren, droppedChildren,
      Nat.mod_eq_of_lt (show i < 256 by simp at hlength; omega), body_snd,
      String.length_append] at hsiblings hopening ⊢
    omega

end

mutual

theorem shallowReturns_of_droppedBrackets :
    ∀ node : EncodingLayout Compression, allPresent node = true → droppedBrackets node = 0 →
      shallowReturns node = true
  | .mk _ _ children, h, hdropped => by
    simp only [allPresent, Bool.and_eq_true, decide_eq_true_eq] at h
    simp only [shallowReturns, Bool.and_eq_true, decide_eq_true_eq]
    exact ⟨h.1, shallowReturnsChildren_of_droppedChildren children 0 h.2 hdropped⟩

theorem shallowReturnsChildren_of_droppedChildren :
    ∀ (children : List (Option (EncodingLayout Compression))) (depth : ℕ),
      allPresentChildren children = true → droppedChildren children depth = 0 →
      shallowReturnsChildren children = true
  | [], _, _, _ => rfl
  | none :: _, _, h, _ => by simp [allPresentChildren] at h
  | some child :: children, depth, h, hdropped => by
    simp only [allPresentChildren, Bool.and_eq_true] at h
    simp only [droppedChildren, Nat.add_eq_zero] at hdropped
    obtain ⟨⟨-, hchild⟩, hchildren⟩ := hdropped
    have hlast : children.isEmpty = true ∨ descent child ≤ 1 := by
      match children, h.2, hchildren with
      | [], _, _ => exact .inl rfl
      | none :: _, h', _ => simp [allPresentChildren] at h'
      | some _ :: _, _, h' => simp only [droppedChildren] at h'; omega
    simp only [shallowReturnsChildren, Bool.and_eq_true, Bool.or_eq_true, decide_eq_true_eq]
    exact ⟨⟨shallowReturns_of_droppedBrackets child h.1 hchild, hlast⟩,
      shallowReturnsChildren_of_droppedChildren children _ h.2 hchildren⟩

end

end Label

theorem getEncodingLayoutLabel_eq_render_example :
    let leaf : EncodingLayout Unit := .mk .trivial () []
    let t : EncodingLayout Unit := .mk .nullable ()
      [some (.mk .rle () [some leaf]), some (.mk .dictionary () [some (.mk .rle () [some leaf])])]
    shallowReturns t = true ∧
      getEncodingLayoutLabel (fun _ => "T") (fun _ => "C") (some t) =
        render (fun _ => "T") (fun _ => "C") t :=
  ⟨by decide, getEncodingLayoutLabel_eq_render _ _ _ (by decide)⟩

end Nimble.NimbleDump
