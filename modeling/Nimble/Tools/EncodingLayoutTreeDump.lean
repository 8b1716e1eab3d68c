import Nimble.Tools.EncodingLayoutLabel
import Nimble.Velox.EncodingLayoutTreeCanonical

/-! # The layout tree table of the dump tool

`emitLayout` reads an encoding layout tree from a file and writes one row per node: its id, its
parent's id, its schema kind, its name and the labels of its layouts. The ids come from
`traverseEncodingLayoutTree`, which visits the tree in preorder and numbers the nodes with one
`uint32_t` counter, passed by reference and incremented before each child. On a tree of at most
`2 ^ 32` nodes the ids are the nodes' preorder positions, and each visit's parent id is the id
of a visit of its parent (`traverseEncodingLayoutTree_numbers_preorder`). Every tree that
`create` reads from a buffer under 4 GiB is such a tree, so every column of the table
`emitLayout` writes is fixed by the tree: the rows follow the nodes in preorder, numbered
`0, 1, …`, each naming its parent's row (`emitLayout_rows`), and the rows naming a row as their
parent are those of its node's children (`emitLayout_children`).
-/

namespace Nimble.NimbleDump

open Encoding

variable {Layout : Type}

/-- The arguments of one call of the visitor of `traverseEncodingLayoutTree`. -/
structure TreeVisit (Layout : Type) where
  node : EncodingLayoutTree Layout
  parentNode : EncodingLayoutTree Layout
  nodeId : ℕ
  parentId : ℕ
  level : ℕ
  childIndex : ℕ

mutual

/-- `traverseEncodingLayoutTree`: the visitor calls in order, and the value it leaves in the
counter `nodeId` that its caller passed by reference. -/
def traverseEncodingLayoutTree (node parentNode : EncodingLayoutTree Layout)
    (nodeId parentId level childIndex : ℕ) : List (TreeVisit Layout) × ℕ :=
  match node with
  | .mk _ _ _ children _ _ =>
    let loop := traverseTreeChildren node nodeId (level + 1) children 0 nodeId
    (⟨node, parentNode, nodeId, parentId, level, childIndex⟩ :: loop.1, loop.2)

/-- The loop of `traverseEncodingLayoutTree` over the children of `parentNode` from child `i`
(a `uint8_t` in the call), each visited after `++nodeId`. -/
def traverseTreeChildren (parentNode : EncodingLayoutTree Layout) (parentId level : ℕ) :
    List (EncodingLayoutTree Layout) → ℕ → ℕ → List (TreeVisit Layout) × ℕ
  | [], _, nodeId => ([], nodeId)
  | child :: children, i, nodeId =>
    let first := traverseEncodingLayoutTree child parentNode ((nodeId + 1) % 2 ^ 32) parentId
      level (i % 256)
    let rest := traverseTreeChildren parentNode parentId level children (i + 1) first.2
    (first.1 ++ rest.1, rest.2)

end

theorem traverseEncodingLayoutTree_mk (schemaKind : UInt8)
    (encodingLayouts : List (StreamIdentifier × Layout)) (name : List UInt8)
    (children : List (EncodingLayoutTree Layout)) (h₁ h₂)
    (parentNode : EncodingLayoutTree Layout) (nodeId parentId level childIndex : ℕ) :
    traverseEncodingLayoutTree (.mk schemaKind encodingLayouts name children h₁ h₂) parentNode
        nodeId parentId level childIndex =
      let node := EncodingLayoutTree.mk schemaKind encodingLayouts name children h₁ h₂
      let loop := traverseTreeChildren node nodeId (level + 1) children 0 nodeId
      (⟨node, parentNode, nodeId, parentId, level, childIndex⟩ :: loop.1, loop.2) := by
  rw [traverseEncodingLayoutTree]

/-- A row of the table `emitLayout` writes: its `Node Id`, `Parent Id`, `Node Type`,
`Node Name` and `Encoding Layout` columns. -/
structure LayoutRow where
  nodeId : ℕ
  parentId : ℕ
  nodeType : String
  nodeName : List UInt8
  encodingLayout : String

section Emit

variable {Compression : Type} (kindName : UInt8 → String) (typeName : EncodingType → String)
  (compressionName : Compression → String)

/-- The `Encoding Layout` column of a node: its stream identifiers in increasing order, each
with the label of its layout, separated by `|`. -/
def encodingLayoutColumn (node : EncodingLayoutTree (EncodingLayout Compression)) : String :=
  let identifiers := node.encodingLayoutIdentifiers.insertionSort (· ≤ ·)
  identifiers.foldl (fun encodingLayout identifier =>
      (if encodingLayout.isEmpty then encodingLayout else encodingLayout ++ "|") ++
        toString identifier.toNat ++ ":" ++
          getEncodingLayoutLabel typeName compressionName (node.encodingLayout identifier)) ""

/-- The row the visitor of `emitLayout` writes for one visit. -/
def layoutRow (visit : TreeVisit (EncodingLayout Compression)) : LayoutRow where
  nodeId := visit.nodeId
  parentId := visit.parentId
  nodeType := kindName visit.node.schemaKind
  nodeName := visit.node.name
  encodingLayout := encodingLayoutColumn typeName compressionName visit.node

/-- `NimbleDumpLib::emitLayout` once it has read, and if asked decompressed, the file: the rows
it writes for the tree `EncodingLayoutTree::create` reads from `buffer`. -/
def emitLayout (codec : EncodingLayoutTree.LayoutCodec (EncodingLayout Compression))
    (buffer : List UInt8) : Except EncodingLayoutTree.Failure (List LayoutRow) :=
  (EncodingLayoutTree.create codec buffer).map fun layout =>
    (traverseEncodingLayoutTree layout layout 0 0 0 0).1.map
      (layoutRow kindName typeName compressionName)

end Emit

mutual

/-- The nodes of a tree in preorder. -/
def preorder : EncodingLayoutTree Layout → List (EncodingLayoutTree Layout)
  | node@(.mk _ _ _ children _ _) => node :: preorderChildren children

def preorderChildren : List (EncodingLayoutTree Layout) → List (EncodingLayoutTree Layout)
  | [] => []
  | child :: children => preorder child ++ preorderChildren children

end

@[simp] theorem length_preorder_mk (schemaKind : UInt8)
    (encodingLayouts : List (StreamIdentifier × Layout)) (name : List UInt8)
    (children : List (EncodingLayoutTree Layout)) (h₁ h₂) :
    (preorder (.mk schemaKind encodingLayouts name children h₁ h₂)).length =
      (preorderChildren children).length + 1 := by
  rw [preorder, List.length_cons]

@[simp] theorem length_preorderChildren_cons (child : EncodingLayoutTree Layout)
    (children : List (EncodingLayoutTree Layout)) :
    (preorderChildren (child :: children)).length =
      (preorder child).length + (preorderChildren children).length := by
  rw [preorderChildren, List.length_append]

theorem length_preorder_pos (node : EncodingLayoutTree Layout) : 0 < (preorder node).length := by
  cases node
  rw [length_preorder_mk]
  omega

mutual

/-- The Parent Id `traverseEncodingLayoutTree` gives each node of a tree numbered in preorder from
`nodeId`: `parentId` for its root, and for every other node the preorder position of its parent. -/
def preorderParents (parentId nodeId : ℕ) : EncodingLayoutTree Layout → List ℕ
  | .mk _ _ _ children _ _ => parentId :: preorderParentsChildren nodeId (nodeId + 1) children

def preorderParentsChildren (parentId start : ℕ) : List (EncodingLayoutTree Layout) → List ℕ
  | [] => []
  | child :: children => preorderParents parentId start child ++
      preorderParentsChildren parentId (start + (preorder child).length) children

end

/-- The visitor of `traverseEncodingLayoutTree` was called for `v`'s parent: `visits` has a visit
of `v.parentNode`, one level up, whose id is `v.parentId` and is smaller than `v.nodeId`. -/
def Linked (visits : List (TreeVisit Layout)) (v : TreeVisit Layout) : Prop :=
  ∃ u ∈ visits, u.nodeId = v.parentId ∧ u.nodeId < v.nodeId ∧ u.node = v.parentNode ∧
    u.level + 1 = v.level

/-- `v.node` is a child of `v.parentNode`, at a position whose low byte is `v.childIndex`. -/
def ChildOf (v : TreeVisit Layout) : Prop :=
  ∃ i, v.parentNode.children[i]? = some v.node ∧ v.childIndex = i % 256

theorem Linked.mono {visits visits' : List (TreeVisit Layout)} {v : TreeVisit Layout}
    (h : Linked visits v) (hsub : visits ⊆ visits') : Linked visits' v := by
  obtain ⟨u, hu, rest⟩ := h
  exact ⟨u, hsub hu, rest⟩

mutual

theorem traverseEncodingLayoutTree_spec : ∀ (node parentNode : EncodingLayoutTree Layout)
    (nodeId parentId level childIndex : ℕ), nodeId + (preorder node).length ≤ 2 ^ 32 →
    let r := traverseEncodingLayoutTree node parentNode nodeId parentId level childIndex
    r.2 + 1 = nodeId + (preorder node).length ∧ r.1.map TreeVisit.node = preorder node ∧
      r.1.map TreeVisit.nodeId = List.range' nodeId (preorder node).length ∧
      r.1.head? = some ⟨node, parentNode, nodeId, parentId, level, childIndex⟩ ∧
      ∀ v ∈ r.1.tail, Linked r.1 v ∧ ChildOf v
  | .mk schemaKind encodingLayouts name children h₁ h₂, parentNode, nodeId, parentId, level,
      childIndex, h => by
    have hpre : preorder (.mk schemaKind encodingLayouts name children h₁ h₂) =
        .mk schemaKind encodingLayouts name children h₁ h₂ :: preorderChildren children := by
      rw [preorder]
    rw [hpre, List.length_cons] at h ⊢
    obtain ⟨hc2, hcnode, hcid, hcv⟩ := traverseTreeChildren_spec
      (.mk schemaKind encodingLayouts name children h₁ h₂) nodeId (level + 1) children 0 nodeId
      (by omega)
    simp only [traverseEncodingLayoutTree_mk]
    refine ⟨by omega, by simp [hcnode], by simp [hcid, List.range'_succ], rfl, fun v hv => ?_⟩
    rw [List.tail_cons] at hv
    rcases hcv v hv with ⟨hl, hco⟩ | ⟨h1, h2, h3, j, hj, hidx⟩
    · exact ⟨hl.mono (List.subset_cons_self _ _), hco⟩
    · have hid := List.mem_map_of_mem TreeVisit.nodeId hv
      rw [hcid, List.mem_range'_1] at hid
      refine ⟨⟨_, List.mem_cons_self _ _, h1.symm, by dsimp only; omega, h2.symm, h3.symm⟩, j,
        by rw [h2]; exact hj, by rw [hidx, Nat.zero_add]⟩

theorem traverseTreeChildren_spec : ∀ (parentNode : EncodingLayoutTree Layout)
    (parentId level : ℕ) (children : List (EncodingLayoutTree Layout)) (i nodeId : ℕ),
    nodeId + (preorderChildren children).length < 2 ^ 32 →
    let r := traverseTreeChildren parentNode parentId level children i nodeId
    r.2 = nodeId + (preorderChildren children).length ∧
      r.1.map TreeVisit.node = preorderChildren children ∧
      r.1.map TreeVisit.nodeId = List.range' (nodeId + 1) (preorderChildren children).length ∧
      ∀ v ∈ r.1, (Linked r.1 v ∧ ChildOf v) ∨
        (v.parentId = parentId ∧ v.parentNode = parentNode ∧ v.level = level ∧
          ∃ j, children[j]? = some v.node ∧ v.childIndex = (i + j) % 256)
  | _, _, _, [], _, _, _ => by simp [traverseTreeChildren, preorderChildren]
  | parentNode, parentId, level, child :: children, i, nodeId, h => by
    have hpos := length_preorder_pos child
    rw [length_preorderChildren_cons] at h ⊢
    have hmod : (nodeId + 1) % 2 ^ 32 = nodeId + 1 := Nat.mod_eq_of_lt (by omega)
    obtain ⟨hc2, hcnode, hcid, hchead, hctail⟩ :=
      traverseEncodingLayoutTree_spec child parentNode (nodeId + 1) parentId level (i % 256)
        (by omega)
    obtain ⟨hr2, hrnode, hrid, hrv⟩ := traverseTreeChildren_spec parentNode parentId level
      children (i + 1)
      (traverseEncodingLayoutTree child parentNode (nodeId + 1) parentId level (i % 256)).2
      (by omega)
    have hfirst : (traverseEncodingLayoutTree child parentNode (nodeId + 1) parentId level
        (i % 256)).2 = nodeId + (preorder child).length := by omega
    simp only [traverseTreeChildren, hmod]
    refine ⟨by omega, by simp [hcnode, hrnode, preorderChildren], ?_, fun v hv => ?_⟩
    · rw [List.map_append, hcid, hrid, hfirst, show nodeId + (preorder child).length + 1 =
        nodeId + 1 + (preorder child).length by omega, List.range'_append_1,
        Nat.add_comm (preorderChildren children).length]
    rcases List.mem_append.mp hv with hv | hv
    · rw [List.eq_cons_of_mem_head? hchead] at hv
      rcases List.mem_cons.mp hv with rfl | hv
      · exact .inr ⟨rfl, rfl, rfl, 0, List.getElem?_cons_zero, rfl⟩
      · exact .inl ⟨(hctail v hv).1.mono (List.subset_append_left _ _), (hctail v hv).2⟩
    · rcases hrv v hv with ⟨hl, hco⟩ | ⟨h1, h2, h3, j, hj, hidx⟩
      · exact .inl ⟨hl.mono (List.subset_append_right _ _), hco⟩
      · exact .inr ⟨h1, h2, h3, j + 1, List.getElem?_cons_succ.trans hj,
          by rw [hidx]; congr 1; omega⟩

end

mutual

theorem traverseEncodingLayoutTree_parents : ∀ (node parentNode : EncodingLayoutTree Layout)
    (nodeId parentId level childIndex : ℕ), nodeId + (preorder node).length ≤ 2 ^ 32 →
    (traverseEncodingLayoutTree node parentNode nodeId parentId level childIndex).1.map
      TreeVisit.parentId = preorderParents parentId nodeId node
  | .mk schemaKind encodingLayouts name children h₁ h₂, parentNode, nodeId, parentId, level,
      childIndex, h => by
    rw [length_preorder_mk] at h
    simp only [traverseEncodingLayoutTree_mk, List.map_cons, preorderParents]
    rw [traverseTreeChildren_parents _ nodeId (level + 1) children 0 nodeId (by omega)]

theorem traverseTreeChildren_parents : ∀ (parentNode : EncodingLayoutTree Layout)
    (parentId level : ℕ) (children : List (EncodingLayoutTree Layout)) (i nodeId : ℕ),
    nodeId + (preorderChildren children).length < 2 ^ 32 →
    (traverseTreeChildren parentNode parentId level children i nodeId).1.map TreeVisit.parentId =
      preorderParentsChildren parentId (nodeId + 1) children
  | _, _, _, [], _, _, _ => rfl
  | parentNode, parentId, level, child :: children, i, nodeId, h => by
    have hpos := length_preorder_pos child
    rw [length_preorderChildren_cons] at h
    have hmod : (nodeId + 1) % 2 ^ 32 = nodeId + 1 := Nat.mod_eq_of_lt (by omega)
    obtain ⟨hc2, -⟩ :=
      traverseEncodingLayoutTree_spec child parentNode (nodeId + 1) parentId level (i % 256)
        (by omega)
    simp only [traverseTreeChildren, hmod, List.map_append, preorderParentsChildren]
    rw [traverseEncodingLayoutTree_parents child parentNode (nodeId + 1) parentId level (i % 256)
        (by omega),
      traverseTreeChildren_parents parentNode parentId level children (i + 1)
        (traverseEncodingLayoutTree child parentNode (nodeId + 1) parentId level (i % 256)).2
        (by omega), hc2]

end

/-- `emitLayout`'s traversal, from a counter at `0` with the root as its own parent, numbers a tree
of at most `2 ^ 32` nodes in preorder: the visit of the node at preorder position `k` has the id
`k`, and every visit after the root's names as its parent id the id of a visit of its parent,
one level up and earlier. -/
theorem traverseEncodingLayoutTree_numbers_preorder (tree : EncodingLayoutTree Layout)
    (h : (preorder tree).length ≤ 2 ^ 32) :
    let visits := (traverseEncodingLayoutTree tree tree 0 0 0 0).1
    visits.map TreeVisit.nodeId = List.range (preorder tree).length ∧
      visits.map TreeVisit.node = preorder tree ∧
      visits.head? = some ⟨tree, tree, 0, 0, 0, 0⟩ ∧
      ∀ v ∈ visits.tail, Linked visits v ∧ ChildOf v := by
  obtain ⟨-, hnode, hid, hhead, hlinks⟩ :=
    traverseEncodingLayoutTree_spec tree tree 0 0 0 0 (by omega)
  exact ⟨by rw [hid, List.range_eq_range'], hnode, hhead, hlinks⟩

theorem traverseEncodingLayoutTree_numbers_preorder_example :
    (preorder (.mk 1 [] [] [.mk 2 [] [] [] List.nodup_nil (by decide)] List.nodup_nil
      (by decide) : EncodingLayoutTree (List UInt8))).length ≤ 2 ^ 32 ∧
    let tree : EncodingLayoutTree (List UInt8) :=
      .mk 1 [] [] [.mk 2 [] [] [] List.nodup_nil (by decide)] List.nodup_nil (by decide)
    let visits := (traverseEncodingLayoutTree tree tree 0 0 0 0).1
    visits.map TreeVisit.nodeId = List.range (preorder tree).length ∧
      visits.map TreeVisit.node = preorder tree ∧
      visits.head? = some ⟨tree, tree, 0, 0, 0, 0⟩ ∧
      ∀ v ∈ visits.tail, Linked visits v ∧ ChildOf v :=
  ⟨by decide, traverseEncodingLayoutTree_numbers_preorder _ (by decide)⟩

def childVisits (visits : List (TreeVisit Layout)) (nodeId : ℕ) : List (TreeVisit Layout) :=
  visits.filter fun v => v.parentId = nodeId ∧ nodeId < v.nodeId

/-- The ids `traverseEncodingLayoutTree` gives `children`, the first at `start`: their preorder
positions, each subtree taking as many ids as it has nodes. -/
def childPositions : ℕ → List (EncodingLayoutTree Layout) → List ℕ
  | _, [] => []
  | start, child :: children => start :: childPositions (start + (preorder child).length) children

theorem childVisits_append (visits visits' : List (TreeVisit Layout)) (nodeId : ℕ) :
    childVisits (visits ++ visits') nodeId = childVisits visits nodeId ++ childVisits visits' nodeId :=
  List.filter_append _ _

theorem childVisits_eq_nil {visits : List (TreeVisit Layout)} {nodeId : ℕ}
    (h : ∀ v ∈ visits, v.parentId ≠ nodeId ∨ v.nodeId ≤ nodeId) : childVisits visits nodeId = [] :=
  List.filter_eq_nil_iff.mpr fun v hv => by
    have := h v hv
    simp only [decide_eq_true_eq]
    omega

theorem nodeId_mem_range' {visits : List (TreeVisit Layout)} {start count : ℕ}
    (h : visits.map TreeVisit.nodeId = List.range' start count) {v : TreeVisit Layout}
    (hv : v ∈ visits) : start ≤ v.nodeId ∧ v.nodeId < start + count :=
  List.mem_range'_1.mp (h ▸ List.mem_map_of_mem _ hv)

mutual

theorem traverseEncodingLayoutTree_childVisits : ∀ (node parentNode : EncodingLayoutTree Layout)
    (nodeId parentId level childIndex : ℕ), nodeId + (preorder node).length ≤ 2 ^ 32 →
    let visits := (traverseEncodingLayoutTree node parentNode nodeId parentId level childIndex).1
    (∀ v ∈ visits.tail, nodeId ≤ v.parentId ∧ v.parentId < v.nodeId) ∧
      ∀ u ∈ visits, (childVisits visits u.nodeId).map TreeVisit.nodeId =
        childPositions (u.nodeId + 1) u.node.children
  | .mk schemaKind encodingLayouts name children h₁ h₂, parentNode, nodeId, parentId, level,
      childIndex, h => by
    rw [length_preorder_mk] at h
    obtain ⟨-, -, hcid, -⟩ := traverseTreeChildren_spec
      (.mk schemaKind encodingLayouts name children h₁ h₂) nodeId (level + 1) children 0 nodeId
      (by omega)
    obtain ⟨hcparent, hcdirect, hcchild⟩ := traverseTreeChildren_childVisits
      (.mk schemaKind encodingLayouts name children h₁ h₂) nodeId (level + 1) children 0 nodeId
      le_rfl (by omega)
    simp only [traverseEncodingLayoutTree_mk, List.tail_cons]
    refine ⟨fun v hv => ?_, fun u hu => ?_⟩
    · have := nodeId_mem_range' hcid hv
      rcases hcparent v hv with h' | h' <;> omega
    rcases List.mem_cons.mp hu with rfl | hu
    · rw [childVisits, List.filter_cons_of_neg (by simp), ← childVisits]
      exact hcdirect
    · have := nodeId_mem_range' hcid hu
      rw [childVisits, List.filter_cons_of_neg (by simp; omega), ← childVisits]
      exact hcchild u hu

theorem traverseTreeChildren_childVisits : ∀ (parentNode : EncodingLayoutTree Layout)
    (parentId level : ℕ) (children : List (EncodingLayoutTree Layout)) (i nodeId : ℕ),
    parentId ≤ nodeId → nodeId + (preorderChildren children).length < 2 ^ 32 →
    let visits := (traverseTreeChildren parentNode parentId level children i nodeId).1
    (∀ v ∈ visits, v.parentId = parentId ∨ (nodeId + 1 ≤ v.parentId ∧ v.parentId < v.nodeId)) ∧
      (childVisits visits parentId).map TreeVisit.nodeId = childPositions (nodeId + 1) children ∧
      ∀ u ∈ visits, (childVisits visits u.nodeId).map TreeVisit.nodeId =
        childPositions (u.nodeId + 1) u.node.children
  | _, _, _, [], _, _, _, _ => by simp [traverseTreeChildren, childVisits, childPositions]
  | parentNode, parentId, level, child :: children, i, nodeId, hle, h => by
    have hpos := length_preorder_pos child
    rw [length_preorderChildren_cons] at h
    have hmod : (nodeId + 1) % 2 ^ 32 = nodeId + 1 := Nat.mod_eq_of_lt (by omega)
    obtain ⟨hc2, -, hcid, hchead, -⟩ :=
      traverseEncodingLayoutTree_spec child parentNode (nodeId + 1) parentId level (i % 256)
        (by omega)
    obtain ⟨hcparent, hcchild⟩ := traverseEncodingLayoutTree_childVisits child parentNode
      (nodeId + 1) parentId level (i % 256) (by omega)
    have hfirst : (traverseEncodingLayoutTree child parentNode (nodeId + 1) parentId level
        (i % 256)).2 = nodeId + (preorder child).length := by omega
    obtain ⟨-, -, hrid, -⟩ := traverseTreeChildren_spec parentNode parentId level children (i + 1)
      (traverseEncodingLayoutTree child parentNode (nodeId + 1) parentId level (i % 256)).2
      (by omega)
    obtain ⟨hrparent, hrdirect, hrchild⟩ := traverseTreeChildren_childVisits parentNode parentId
      level children (i + 1)
      (traverseEncodingLayoutTree child parentNode (nodeId + 1) parentId level (i % 256)).2
      (by omega) (by omega)
    have hcons := List.eq_cons_of_mem_head? hchead
    simp only [traverseTreeChildren, hmod, childVisits_append]
    set first := traverseEncodingLayoutTree child parentNode (nodeId + 1) parentId level (i % 256)
    set rest := (traverseTreeChildren parentNode parentId level children (i + 1) first.2).1
    refine ⟨fun v hv => ?_, ?_, fun u hu => ?_⟩
    · rcases List.mem_append.mp hv with hv | hv
      · rw [hcons] at hv
        rcases List.mem_cons.mp hv with rfl | hv
        · exact .inl rfl
        · exact .inr (hcparent v hv)
      · rcases hrparent v hv with h' | h'
        · exact .inl h'
        · exact .inr ⟨by omega, h'.2⟩
    · rw [hcons, childVisits, List.filter_cons_of_pos (by simp; omega), ← childVisits,
        childVisits_eq_nil fun v hv => .inl (by have := (hcparent v hv).1; omega)]
      simp only [List.map_cons, List.nil_append, List.singleton_append, hrdirect, hc2,
        childPositions]
    rcases List.mem_append.mp hu with hu | hu
    · have hid := nodeId_mem_range' hcid hu
      have hnil : childVisits rest u.nodeId = [] := childVisits_eq_nil fun v hv => by
        have := nodeId_mem_range' hrid hv
        rcases hrparent v hv with h' | h' <;> omega
      rw [hnil, List.append_nil]
      exact hcchild u hu
    · have hid := nodeId_mem_range' hrid hu
      have hnil : childVisits first.1 u.nodeId = [] := childVisits_eq_nil fun v hv => by
        have := nodeId_mem_range' hcid hv
        rw [hcons] at hv
        rcases List.mem_cons.mp hv with rfl | hv
        · exact .inl (by dsimp only; omega)
        · exact .inl (by have := (hcparent v hv).2; omega)
      rw [hnil, List.nil_append]
      exact hrchild u hu

end

mutual

theorem length_preorder_le (codec : EncodingLayoutTree.LayoutCodec Layout) :
    ∀ tree : EncodingLayoutTree Layout,
      8 * (preorder tree).length ≤ (EncodingLayoutTree.serializedBytes codec tree).length
  | .mk schemaKind encodingLayouts name children h₁ h₂ => by
    have := length_preorderChildren_le codec children
    rw [preorder, EncodingLayoutTree.length_serializedBytes, List.length_cons]
    omega

theorem length_preorderChildren_le (codec : EncodingLayoutTree.LayoutCodec Layout) :
    ∀ children : List (EncodingLayoutTree Layout), 8 * (preorderChildren children).length ≤
      (EncodingLayoutTree.serializedBytes.childrenBytes codec children).length
  | [] => by simp [preorderChildren]
  | child :: children => by
    have := length_preorder_le codec child
    have := length_preorderChildren_le codec children
    simp only [preorderChildren, EncodingLayoutTree.serializedBytes.childrenBytes,
      List.length_append]
    omega

end

theorem length_preorder_of_create {codec : EncodingLayoutTree.LayoutCodec Layout}
    (hwrite : codec.WritesBack) {buffer : List UInt8} (hsmall : buffer.length < 2 ^ 32)
    {tree : EncodingLayoutTree Layout} (h : EncodingLayoutTree.create codec buffer = .ok tree) :
    8 * (preorder tree).length < 2 ^ 32 := by
  obtain ⟨n, hn⟩ := EncodingLayoutTree.create_eq_ok.mp h
  obtain ⟨hle, ⟨k, -, hk⟩, -⟩ :=
    EncodingLayoutTree.createInternal_canonical codec hwrite _ buffer tree n hsmall hn
  have := length_preorder_le codec tree
  omega

section Emit

variable {Compression : Type} (kindName : UInt8 → String) (typeName : EncodingType → String)
  (compressionName : Compression → String)

theorem emitLayout_eq_ok (codec : EncodingLayoutTree.LayoutCodec (EncodingLayout Compression))
    (hwrite : codec.WritesBack) {buffer : List UInt8} (hsmall : buffer.length < 2 ^ 32)
    {rows : List LayoutRow}
    (h : emitLayout kindName typeName compressionName codec buffer = .ok rows) :
    ∃ tree, EncodingLayoutTree.create codec buffer = .ok tree ∧
      8 * (preorder tree).length < 2 ^ 32 ∧
      rows = (traverseEncodingLayoutTree tree tree 0 0 0 0).1.map
        (layoutRow kindName typeName compressionName) := by
  unfold emitLayout at h
  cases hc : EncodingLayoutTree.create codec buffer with
  | error e => rw [hc] at h; cases h
  | ok tree =>
    rw [hc] at h
    cases h
    exact ⟨tree, rfl, length_preorder_of_create hwrite hsmall hc, rfl⟩

theorem map_nodeId_traverseEncodingLayoutTree (tree : EncodingLayoutTree Layout)
    (h : (preorder tree).length ≤ 2 ^ 32) :
    ((traverseEncodingLayoutTree tree tree 0 0 0 0).1.map TreeVisit.nodeId) =
      List.range (traverseEncodingLayoutTree tree tree 0 0 0 0).1.length := by
  obtain ⟨-, -, hid, -⟩ := traverseEncodingLayoutTree_spec tree tree 0 0 0 0 (by omega)
  have hlen := congrArg List.length hid
  rw [List.length_map, List.length_range'] at hlen
  rw [hlen, List.range_eq_range', hid]

theorem map_eq_mapIdx_of_positions {β γ δ : Type} {l : List β} {position : β → ℕ}
    (h : l.map position = List.range l.length) (node : β → γ) (g : ℕ → γ → δ) :
    l.map (fun u => g (position u) (node u)) = (l.map node).mapIdx g := by
  refine List.ext_getElem (by simp) fun i h₁ _ => ?_
  rw [List.length_map] at h₁
  have hi := List.getElem_of_eq h (by rw [List.length_map]; exact h₁)
  rw [List.getElem_map, List.getElem_range] at hi
  simp [hi]

/-- Every table `emitLayout` writes for a buffer under 4 GiB has a row per node of the tree
`create` reads, in preorder: each row's `Node Type`, `Node Name` and `Encoding Layout` are its
node's, the rows' ids are `0, 1, …`, and every row after the first names as its parent the
preorder position of its node's parent, an earlier row. -/
theorem emitLayout_rows (codec : EncodingLayoutTree.LayoutCodec (EncodingLayout Compression))
    (hwrite : codec.WritesBack) (buffer : List UInt8) (hsmall : buffer.length < 2 ^ 32)
    (rows : List LayoutRow)
    (h : emitLayout kindName typeName compressionName codec buffer = .ok rows) :
    ∃ tree, EncodingLayoutTree.create codec buffer = .ok tree ∧
      rows.map (fun row => (row.nodeType, row.nodeName, row.encodingLayout)) =
        (preorder tree).map (fun node => (kindName node.schemaKind, node.name,
          encodingLayoutColumn typeName compressionName node)) ∧
      rows.map LayoutRow.nodeId = List.range rows.length ∧
      rows.map LayoutRow.parentId = preorderParents 0 0 tree ∧
      ∀ row ∈ rows.tail, ∃ parent ∈ rows, parent.nodeId = row.parentId ∧
        parent.nodeId < row.nodeId := by
  obtain ⟨tree, hc, hsize, rfl⟩ := emitLayout_eq_ok kindName typeName compressionName codec hwrite
    hsmall h
  obtain ⟨-, hnode, -, -, hlinks⟩ := traverseEncodingLayoutTree_spec tree tree 0 0 0 0 (by omega)
  refine ⟨tree, hc, ?_, ?_, ?_, fun row hrow => ?_⟩
  · rw [← hnode, List.map_map, List.map_map]
    rfl
  · rw [List.map_map, List.length_map]
    exact map_nodeId_traverseEncodingLayoutTree tree (by omega)
  · rw [List.map_map]
    exact traverseEncodingLayoutTree_parents tree tree 0 0 0 0 (by omega)
  · rw [← List.map_tail] at hrow
    obtain ⟨v, hv, rfl⟩ := List.mem_map.mp hrow
    obtain ⟨u, hu, hparent, hlt, -⟩ := (hlinks v hv).1
    exact ⟨layoutRow kindName typeName compressionName u, List.mem_map_of_mem _ hu, hparent, hlt⟩

theorem emitLayout_rows_example :
    let codec : EncodingLayoutTree.LayoutCodec (EncodingLayout Unit) :=
      ⟨fun _ => [], "", fun _ => .error ""⟩
    let buffer : List UInt8 := [1, 0, 0, 0, 1, 0, 0, 0, 2, 0, 0, 0, 0, 0, 0, 0]
    let rows : List LayoutRow := [⟨0, 0, "", [], ""⟩, ⟨1, 0, "", [], ""⟩]
    codec.WritesBack ∧ buffer.length < 2 ^ 32 ∧
      emitLayout (fun _ => "") (fun _ => "") (fun _ => "") codec buffer = .ok rows ∧
      ∃ tree, EncodingLayoutTree.create codec buffer = .ok tree ∧
        rows.map (fun row => (row.nodeType, row.nodeName, row.encodingLayout)) =
          (preorder tree).map (fun node => ((fun _ => "") node.schemaKind, node.name,
            encodingLayoutColumn (fun _ => "") (fun _ => "") node)) ∧
        rows.map LayoutRow.nodeId = List.range rows.length ∧
        rows.map LayoutRow.parentId = preorderParents 0 0 tree ∧
        ∀ row ∈ rows.tail, ∃ parent ∈ rows, parent.nodeId = row.parentId ∧
          parent.nodeId < row.nodeId :=
  have hwrite : EncodingLayoutTree.LayoutCodec.WritesBack
      (⟨fun _ => [], "", fun _ => .error ""⟩ :
        EncodingLayoutTree.LayoutCodec (EncodingLayout Unit)) :=
    fun _ _ _ h => by cases h
  have hrows : emitLayout (fun _ => "") (fun _ => "") (fun _ => "")
      (⟨fun _ => [], "", fun _ => .error ""⟩ :
        EncodingLayoutTree.LayoutCodec (EncodingLayout Unit))
      [1, 0, 0, 0, 1, 0, 0, 0, 2, 0, 0, 0, 0, 0, 0, 0] =
        .ok [⟨0, 0, "", [], ""⟩, ⟨1, 0, "", [], ""⟩] := rfl
  ⟨hwrite, by decide, hrows, emitLayout_rows _ _ _ _ hwrite _ (by decide) _ hrows⟩

/-- The table `emitLayout` writes determines the tree's shape: the rows' ids are their preorder
positions, and for every row, the rows after it that name it as their parent are, in order, the
rows at the preorder positions of its node's children. -/
theorem emitLayout_children (codec : EncodingLayoutTree.LayoutCodec (EncodingLayout Compression))
    (hwrite : codec.WritesBack) (buffer : List UInt8) (hsmall : buffer.length < 2 ^ 32)
    (rows : List LayoutRow)
    (h : emitLayout kindName typeName compressionName codec buffer = .ok rows) :
    ∃ tree, EncodingLayoutTree.create codec buffer = .ok tree ∧
      rows.map LayoutRow.nodeId = List.range rows.length ∧
      rows.map (fun row => (rows.filter fun r => r.parentId = row.nodeId ∧
          row.nodeId < r.nodeId).map LayoutRow.nodeId) =
        (preorder tree).mapIdx fun k node => childPositions (k + 1) node.children := by
  obtain ⟨tree, hc, hsize, rfl⟩ := emitLayout_eq_ok kindName typeName compressionName codec hwrite
    hsmall h
  obtain ⟨-, hnode, -⟩ := traverseEncodingLayoutTree_spec tree tree 0 0 0 0 (by omega)
  obtain ⟨-, hchildren⟩ := traverseEncodingLayoutTree_childVisits tree tree 0 0 0 0 (by omega)
  have hid := map_nodeId_traverseEncodingLayoutTree tree (by omega)
  refine ⟨tree, hc, by rw [List.map_map, List.length_map]; exact hid, ?_⟩
  rw [← hnode, ← map_eq_mapIdx_of_positions hid, List.map_map]
  refine List.map_congr_left fun u hu => ?_
  rw [Function.comp_apply, ← hchildren u hu, List.filter_map, List.map_map]
  rfl

theorem emitLayout_children_example :
    let codec : EncodingLayoutTree.LayoutCodec (EncodingLayout Unit) :=
      ⟨fun _ => [], "", fun _ => .error ""⟩
    let buffer : List UInt8 :=
      [1, 0, 0, 0, 2, 0, 0, 0, 2, 1, 0, 97, 0, 1, 0, 0, 0, 3, 0, 0, 0, 0, 0, 0, 0,
        2, 1, 0, 98, 0, 0, 0, 0, 0]
    let rows : List LayoutRow :=
      [⟨0, 0, "", [], ""⟩, ⟨1, 0, "", [97], ""⟩, ⟨2, 1, "", [], ""⟩, ⟨3, 0, "", [98], ""⟩]
    codec.WritesBack ∧ buffer.length < 2 ^ 32 ∧
      emitLayout (fun _ => "") (fun _ => "") (fun _ => "") codec buffer = .ok rows ∧
      ∃ tree, EncodingLayoutTree.create codec buffer = .ok tree ∧
        rows.map LayoutRow.nodeId = List.range rows.length ∧
        rows.map (fun row => (rows.filter fun r => r.parentId = row.nodeId ∧
            row.nodeId < r.nodeId).map LayoutRow.nodeId) =
          (preorder tree).mapIdx fun k node => childPositions (k + 1) node.children :=
  have hwrite : EncodingLayoutTree.LayoutCodec.WritesBack
      (⟨fun _ => [], "", fun _ => .error ""⟩ :
        EncodingLayoutTree.LayoutCodec (EncodingLayout Unit)) :=
    fun _ _ _ h => by cases h
  have hrows : emitLayout (fun _ => "") (fun _ => "") (fun _ => "")
      (⟨fun _ => [], "", fun _ => .error ""⟩ :
        EncodingLayoutTree.LayoutCodec (EncodingLayout Unit))
      [1, 0, 0, 0, 2, 0, 0, 0, 2, 1, 0, 97, 0, 1, 0, 0, 0, 3, 0, 0, 0, 0, 0, 0, 0,
        2, 1, 0, 98, 0, 0, 0, 0, 0] =
        .ok [⟨0, 0, "", [], ""⟩, ⟨1, 0, "", [97], ""⟩, ⟨2, 1, "", [], ""⟩,
          ⟨3, 0, "", [98], ""⟩] := rfl
  ⟨hwrite, by decide, hrows, emitLayout_children _ _ _ _ hwrite _ (by decide) _ hrows⟩

end Emit

end Nimble.NimbleDump
