import Nimble.Velox.SchemaTypes
import Nimble.Velox.EncodingLayoutTree

/-! # The tree of the encoding layout trainer

`createTrainingTree` walks a schema and, for every stream a node owns, calls `train` with the
stream's descriptor and a callback that inserts the trained layout into the node's `State` under
the stream's identifier. The callbacks may run later, on other threads and in any order, each
under its node's mutex; once they have all run, `toEncodingLayoutTree` reads every node's state
into an `EncodingLayoutTree`.

The states live on a heap from pointers to layout maps: `createTrainingTree` allocates them in
preorder, and a callback updates the state its capture points to. A run of the callbacks is any
permutation of the calls made, each callback one atomic step. Construction reads no state, so a
callback that runs while the tree is still being built leaves the same heap.
-/

namespace Nimble.EncodingLayoutTrainer

open EncodingLayoutTree

variable {Layout : Type}

/-- Modelled from the spec: `EncodingLayoutTree::StreamIdentifiers`, whose header is not among
the repository's files: the identifier each kind gives each of its streams. The two streams of an
array with offsets have different identifiers. -/
structure StreamIdentifiers where
  scalarStream : StreamIdentifier
  arrayLengthsStream : StreamIdentifier
  mapLengthsStream : StreamIdentifier
  rowNullsStream : StreamIdentifier
  flatMapNullsStream : StreamIdentifier
  arrayWithOffsetsOffsetsStream : StreamIdentifier
  arrayWithOffsetsLengthsStream : StreamIdentifier
  offsets_ne_lengths : arrayWithOffsetsOffsetsStream ≠ arrayWithOffsetsLengthsStream

/-- A `TrainingNode<State>`: its name, the kind of its state's type (all the state's `type` is
read for), the pointer to its state, and its children. -/
inductive TrainingNode where
  | mk (name : String) (kind : Kind) (state : ℕ) (children : List TrainingNode)

/-- One call of `train`: the descriptor, and the state and stream identifier its callback inserts
the layout under. -/
structure TrainCall where
  state : ℕ
  descriptor : StreamDescriptor
  streamIdentifier : StreamIdentifier
  deriving DecidableEq, Repr

/-- `createTrainingTree` from the first free pointer `next`: the node, the calls of `train` it
makes in order, and the next free pointer. -/
def createTrainingTree (ids : StreamIdentifiers) :
    Schema → String → ℕ → TrainingNode × List TrainCall × ℕ
  | .scalar scalarDescriptor, name, next =>
    (.mk name .scalar next [], [⟨next, scalarDescriptor, ids.scalarStream⟩], next + 1)
  | .array lengths elements, name, next =>
    let child := createTrainingTree ids elements "" (next + 1)
    (.mk name .array next [child.1], ⟨next, lengths, ids.arrayLengthsStream⟩ :: child.2.1,
      child.2.2)
  | .map lengths keys values, name, next =>
    let keysChild := createTrainingTree ids keys "" (next + 1)
    let valuesChild := createTrainingTree ids values "" keysChild.2.2
    (.mk name .map next [keysChild.1, valuesChild.1],
      ⟨next, lengths, ids.mapLengthsStream⟩ :: (keysChild.2.1 ++ valuesChild.2.1),
      valuesChild.2.2)
  | .row nulls children, name, next =>
    let rest := rowChildren children (next + 1)
    (.mk name .row next rest.1, ⟨next, nulls, ids.rowNullsStream⟩ :: rest.2.1, rest.2.2)
  | .flatMap nulls children, name, next =>
    let rest := flatMapChildren children (next + 1)
    (.mk name .flatMap next rest.1, ⟨next, nulls, ids.flatMapNullsStream⟩ :: rest.2.1,
      rest.2.2)
  | .arrayWithOffsets offsets lengths elements, name, next =>
    let child := createTrainingTree ids elements "" (next + 1)
    (.mk name .arrayWithOffsets next [child.1],
      ⟨next, offsets, ids.arrayWithOffsetsOffsetsStream⟩ ::
        ⟨next, lengths, ids.arrayWithOffsetsLengthsStream⟩ :: child.2.1, child.2.2)
where
  rowChildren : List (String × Schema) → ℕ → List TrainingNode × List TrainCall × ℕ
    | [], next => ([], [], next)
    | (_, child) :: children, next =>
      let first := createTrainingTree ids child "" next
      let rest := rowChildren children first.2.2
      (first.1 :: rest.1, first.2.1 ++ rest.2.1, rest.2.2)
  flatMapChildren : List (String × StreamDescriptor × Schema) → ℕ →
      List TrainingNode × List TrainCall × ℕ
    | [], next => ([], [], next)
    | (name, _, child) :: children, next =>
      let first := createTrainingTree ids child name next
      let rest := flatMapChildren children first.2.2
      (first.1 :: rest.1, first.2.1 ++ rest.2.1, rest.2.2)

def emptyHeap : ℕ → LayoutMap Layout := fun _ => ⟨[], List.nodup_nil⟩

/-- A callback of `call`, run with `layout`: under the state's mutex,
`encodingLayouts.insert({identifier, layout})`. -/
def runCallback (heap : ℕ → LayoutMap Layout) (call : TrainCall) (layout : Layout) :
    ℕ → LayoutMap Layout :=
  Function.update heap call.state ((heap call.state).insert call.streamIdentifier layout)

/-- The callbacks run in `order`, each with the layout `train` delivers for its descriptor. -/
def completeCallbacks (train : StreamDescriptor → Layout) (heap : ℕ → LayoutMap Layout)
    (order : List TrainCall) : ℕ → LayoutMap Layout :=
  order.foldl (fun heap call => runCallback heap call (train call.descriptor)) heap

/-- `toEncodingLayoutTree`: every node's kind, layout map and name, through the
`EncodingLayoutTree` constructor and its check. -/
def toEncodingLayoutTree (heap : ℕ → LayoutMap Layout) :
    TrainingNode → Except Failure (EncodingLayoutTree Layout)
  | .mk name kind state children => do
    let children ← toEncodingLayoutTrees children
    make kind.toUInt8 (heap state) name.toUTF8.toList children
where
  toEncodingLayoutTrees : List TrainingNode → Except Failure (List (EncodingLayoutTree Layout))
    | [] => .ok []
    | child :: children => do
      let first ← toEncodingLayoutTree heap child
      let rest ← toEncodingLayoutTrees children
      pure (first :: rest)

/-- Modelled from the spec: the streams a schema node owns, each with the identifier its layout
is kept under. -/
def kindStreams (ids : StreamIdentifiers) : Schema → List (StreamIdentifier × StreamDescriptor)
  | .scalar scalarDescriptor => [(ids.scalarStream, scalarDescriptor)]
  | .array lengths _ => [(ids.arrayLengthsStream, lengths)]
  | .map lengths _ _ => [(ids.mapLengthsStream, lengths)]
  | .row nulls _ => [(ids.rowNullsStream, nulls)]
  | .flatMap nulls _ => [(ids.flatMapNullsStream, nulls)]
  | .arrayWithOffsets offsets lengths _ =>
    [(ids.arrayWithOffsetsOffsetsStream, offsets), (ids.arrayWithOffsetsLengthsStream, lengths)]

theorem nodup_kindStreams (ids : StreamIdentifiers) (schema : Schema) :
    ((kindStreams ids schema).map Prod.fst).Nodup := by
  cases schema <;> simp [kindStreams, ids.offsets_ne_lengths]

theorem length_kindStreams_le (ids : StreamIdentifiers) (schema : Schema) :
    (kindStreams ids schema).length ≤ 2 := by
  cases schema <;> simp [kindStreams]

/-- Modelled from the spec: a schema node's children with the names their trees carry: the
elements of an array, the keys and then the values of a map, the fields of a row and the
features of a flat map in order; only a flat map's children are named, by their keys. -/
def trainingChildren : Schema → List (String × Schema)
  | .scalar _ => []
  | .array _ elements => [("", elements)]
  | .map _ keys values => [("", keys), ("", values)]
  | .row _ children => children.map fun child => ("", child.2)
  | .flatMap _ children => children.map fun child => (child.1, child.2.2)
  | .arrayWithOffsets _ _ elements => [("", elements)]

theorem sizeOf_lt_of_mem_trainingChildren {schema : Schema} {child : String × Schema}
    (h : child ∈ trainingChildren schema) : sizeOf child.2 < sizeOf schema := by
  cases schema with
  | row nulls children =>
    obtain ⟨⟨_, c⟩, hc, rfl⟩ := List.mem_map.mp h
    have := List.sizeOf_lt_of_mem hc
    simp only [Schema.row.sizeOf_spec, Prod.mk.sizeOf_spec] at this ⊢
    omega
  | flatMap nulls children =>
    obtain ⟨⟨_, _, c⟩, hc, rfl⟩ := List.mem_map.mp h
    have := List.sizeOf_lt_of_mem hc
    simp only [Schema.flatMap.sizeOf_spec, Prod.mk.sizeOf_spec] at this ⊢
    omega
  | _ => simp [trainingChildren] at h <;> rcases h with rfl | rfl <;> simp <;> omega

/-- Modelled from the spec: the tree that mirrors `schema`, each node with the schema node's
kind, the layouts `train` gives the node's streams, its name, and a child per schema child. -/
def mirror (ids : StreamIdentifiers) (train : StreamDescriptor → Layout) (schema : Schema)
    (name : String) : EncodingLayoutTree Layout :=
  .mk schema.kind.toUInt8 ((kindStreams ids schema).map fun s => (s.1, train s.2))
    name.toUTF8.toList
    ((trainingChildren schema).attach.map fun child => mirror ids train child.1.2 child.1.1)
    (by simpa [Function.comp_def] using nodup_kindStreams ids schema)
    (by simpa using Nat.lt_of_le_of_lt (length_kindStreams_le ids schema) (by decide))
termination_by sizeOf schema
decreasing_by exact sizeOf_lt_of_mem_trainingChildren child.2

mutual

/-- Two trees that differ at most in the iteration order of their layout maps. -/
def SameUpToLayoutOrder : EncodingLayoutTree Layout → EncodingLayoutTree Layout → Prop
  | .mk schemaKind encodingLayouts name children _ _,
    .mk schemaKind' encodingLayouts' name' children' _ _ =>
    schemaKind = schemaKind' ∧ encodingLayouts.Perm encodingLayouts' ∧ name = name' ∧
      SameChildren children children'

def SameChildren : List (EncodingLayoutTree Layout) → List (EncodingLayoutTree Layout) → Prop
  | [], [] => True
  | tree :: trees, tree' :: trees' => SameUpToLayoutOrder tree tree' ∧ SameChildren trees trees'
  | _, _ => False

end

theorem mirror_eq (ids : StreamIdentifiers) (train : StreamDescriptor → Layout) (schema : Schema)
    (name : String) :
    mirror ids train schema name =
      .mk schema.kind.toUInt8 ((kindStreams ids schema).map fun s => (s.1, train s.2))
        name.toUTF8.toList
        ((trainingChildren schema).map fun child => mirror ids train child.2 child.1)
        (by simpa [Function.comp_def] using nodup_kindStreams ids schema)
        (by simpa using Nat.lt_of_le_of_lt (length_kindStreams_le ids schema) (by decide)) := by
  rw [mirror]
  congr 1
  exact List.attach_map_val _ (fun child : String × Schema => mirror ids train child.2 child.1)

theorem trainingChildren_induction {P : Schema → Prop}
    (step : ∀ schema, (∀ child ∈ trainingChildren schema, P child.2) → P schema)
    (schema : Schema) : P schema :=
  step schema fun child _ => trainingChildren_induction step child.2
termination_by sizeOf schema
decreasing_by exact sizeOf_lt_of_mem_trainingChildren ‹_›

/-- The calls a node at pointer `next` makes for its own streams. -/
def ownCalls (ids : StreamIdentifiers) (schema : Schema) (next : ℕ) : List TrainCall :=
  (kindStreams ids schema).map fun s => ⟨next, s.2, s.1⟩

/-- The trees of `children` created one after the other from pointer `next`, as the loops of
`createTrainingTree` create them. -/
def createChildren (ids : StreamIdentifiers) :
    List (String × Schema) → ℕ → List TrainingNode × List TrainCall × ℕ
  | [], next => ([], [], next)
  | (name, child) :: children, next =>
    let first := createTrainingTree ids child name next
    let rest := createChildren ids children first.2.2
    (first.1 :: rest.1, first.2.1 ++ rest.2.1, rest.2.2)

theorem rowChildren_eq (ids : StreamIdentifiers) (children : List (String × Schema)) (next : ℕ) :
    createTrainingTree.rowChildren ids children next =
      createChildren ids (children.map fun child => ("", child.2)) next := by
  induction children generalizing next with
  | nil => rfl
  | cons child children ih => simp [createTrainingTree.rowChildren, createChildren, ih]

theorem flatMapChildren_eq (ids : StreamIdentifiers)
    (children : List (String × StreamDescriptor × Schema)) (next : ℕ) :
    createTrainingTree.flatMapChildren ids children next =
      createChildren ids (children.map fun child => (child.1, child.2.2)) next := by
  induction children generalizing next with
  | nil => rfl
  | cons child children ih => simp [createTrainingTree.flatMapChildren, createChildren, ih]

theorem createTrainingTree_eq (ids : StreamIdentifiers) (schema : Schema) (name : String)
    (next : ℕ) :
    createTrainingTree ids schema name next =
      (.mk name schema.kind next (createChildren ids (trainingChildren schema) (next + 1)).1,
        ownCalls ids schema next ++ (createChildren ids (trainingChildren schema) (next + 1)).2.1,
        (createChildren ids (trainingChildren schema) (next + 1)).2.2) := by
  cases schema <;>
    simp [createTrainingTree, createChildren, trainingChildren, ownCalls, kindStreams,
      rowChildren_eq, flatMapChildren_eq, Schema.kind]

def callsAt (calls : List TrainCall) (p : ℕ) : List TrainCall :=
  calls.filter fun call => call.state = p

/-- What the callbacks of `calls` insert, with the layouts `train` delivers. -/
def layoutsOf (train : StreamDescriptor → Layout) (calls : List TrainCall) :
    List (StreamIdentifier × Layout) :=
  calls.map fun call => (call.streamIdentifier, train call.descriptor)

theorem callsAt_append_left {first rest : List TrainCall} {p : ℕ}
    (h : ∀ call ∈ rest, call.state ≠ p) : callsAt (first ++ rest) p = callsAt first p := by
  have hrest : callsAt rest p = [] := List.filter_eq_nil_iff.mpr fun call hcall => by
    simpa using h call hcall
  rw [callsAt, List.filter_append, ← callsAt, ← callsAt, hrest, List.append_nil]

theorem callsAt_append_right {first rest : List TrainCall} {p : ℕ}
    (h : ∀ call ∈ first, call.state ≠ p) : callsAt (first ++ rest) p = callsAt rest p := by
  have hfirst : callsAt first p = [] := List.filter_eq_nil_iff.mpr fun call hcall => by
    simpa using h call hcall
  rw [callsAt, List.filter_append, ← callsAt, ← callsAt, hfirst, List.nil_append]

theorem callsAt_ownCalls (ids : StreamIdentifiers) (schema : Schema) (next : ℕ) :
    callsAt (ownCalls ids schema next) next = ownCalls ids schema next := by
  simp [callsAt, ownCalls, List.filter_map, Function.comp_def]

/-- The calls of trees created from `first` up to `next` go to states allocated in between. -/
def Allocates (first : ℕ) (calls : List TrainCall) (next : ℕ) : Prop :=
  first ≤ next ∧ ∀ call ∈ calls, first ≤ call.state ∧ call.state < next

theorem createChildren_allocates (ids : StreamIdentifiers) {children : List (String × Schema)}
    (hchildren : ∀ child ∈ children, ∀ name next,
      next < (createTrainingTree ids child.2 name next).2.2 ∧
        Allocates next (createTrainingTree ids child.2 name next).2.1
          (createTrainingTree ids child.2 name next).2.2) (next : ℕ) :
    Allocates next (createChildren ids children next).2.1
      (createChildren ids children next).2.2 := by
  induction children generalizing next with
  | nil => simp [createChildren, Allocates]
  | cons child children ih =>
    obtain ⟨hlt, -, hfirst⟩ := hchildren child (List.mem_cons_self _ _) child.1 next
    obtain ⟨hle, hrest⟩ := ih (fun c hc => hchildren c (List.mem_cons_of_mem _ hc))
      (createTrainingTree ids child.2 child.1 next).2.2
    refine ⟨by simp only [createChildren]; omega, fun call hcall => ?_⟩
    simp only [createChildren, List.mem_append] at hcall
    rcases hcall with hcall | hcall
    · have := hfirst call hcall; simp only [createChildren]; omega
    · have := hrest call hcall; simp only [createChildren]; omega

theorem createTrainingTree_allocates (ids : StreamIdentifiers) (schema : Schema) :
    ∀ name next, next < (createTrainingTree ids schema name next).2.2 ∧
      Allocates next (createTrainingTree ids schema name next).2.1
        (createTrainingTree ids schema name next).2.2 := by
  induction schema using trainingChildren_induction with
  | step schema ih =>
    intro name next
    obtain ⟨hle, hchildren⟩ := createChildren_allocates ids ih (next + 1)
    rw [createTrainingTree_eq]
    dsimp only
    refine ⟨by omega, by omega, fun call hcall => ?_⟩
    rcases List.mem_append.mp hcall with hcall | hcall
    · obtain ⟨s, -, rfl⟩ := List.mem_map.mp hcall
      exact ⟨le_rfl, show next < _ by omega⟩
    · have := hchildren call hcall; omega

theorem createChildren_allocates_of_next (ids : StreamIdentifiers)
    (children : List (String × Schema)) (next : ℕ) :
    Allocates next (createChildren ids children next).2.1 (createChildren ids children next).2.2 :=
  createChildren_allocates ids (fun child _ => createTrainingTree_allocates ids child.2) next

theorem nodup_callsAt_createChildren (ids : StreamIdentifiers) {children : List (String × Schema)}
    (hchildren : ∀ child ∈ children, ∀ name next p,
      ((callsAt (createTrainingTree ids child.2 name next).2.1 p).map (·.streamIdentifier)).Nodup)
    (next p : ℕ) :
    ((callsAt (createChildren ids children next).2.1 p).map (·.streamIdentifier)).Nodup := by
  induction children generalizing next with
  | nil => simp [createChildren, callsAt]
  | cons child children ih =>
    have hfirst := createTrainingTree_allocates ids child.2 child.1 next
    have hrest := createChildren_allocates_of_next ids children
      (createTrainingTree ids child.2 child.1 next).2.2
    simp only [createChildren]
    by_cases hp : p < (createTrainingTree ids child.2 child.1 next).2.2
    · rw [callsAt_append_left fun call hcall => by have := hrest.2 call hcall; omega]
      exact hchildren child (List.mem_cons_self _ _) _ _ _
    · rw [callsAt_append_right fun call hcall => by have := hfirst.2.2 call hcall; omega]
      exact ih (fun c hc => hchildren c (List.mem_cons_of_mem _ hc)) _

theorem nodup_callsAt_createTrainingTree (ids : StreamIdentifiers) (schema : Schema) :
    ∀ name next p,
      ((callsAt (createTrainingTree ids schema name next).2.1 p).map
        (·.streamIdentifier)).Nodup := by
  induction schema using trainingChildren_induction with
  | step schema ih =>
    intro name next p
    have hchildren := createChildren_allocates_of_next ids (trainingChildren schema) (next + 1)
    rw [createTrainingTree_eq]
    dsimp only
    by_cases hp : p = next
    · subst hp
      rw [callsAt_append_left fun call hcall => by have := hchildren.2 call hcall; omega,
        callsAt_ownCalls]
      simpa [ownCalls, Function.comp_def] using nodup_kindStreams ids schema
    · rw [callsAt_append_right fun call hcall => by
        obtain ⟨s, -, rfl⟩ := List.mem_map.mp hcall; exact Ne.symm hp]
      exact nodup_callsAt_createChildren ids ih _ _

@[simp] theorem layoutsOf_ownCalls (ids : StreamIdentifiers) (train : StreamDescriptor → Layout)
    (schema : Schema) (next : ℕ) :
    layoutsOf train (ownCalls ids schema next) =
      (kindStreams ids schema).map fun s => (s.1, train s.2) := by
  simp [layoutsOf, ownCalls, Function.comp_def]

section Readback

variable (ids : StreamIdentifiers) (train : StreamDescriptor → Layout)

/-- The states hold what the calls to them insert, in some order, between `first` and `next`. -/
def HoldsLayouts (heap : ℕ → LayoutMap Layout) (calls : List TrainCall) (first next : ℕ) :
    Prop :=
  ∀ p, first ≤ p → p < next → (heap p).1.Perm (layoutsOf train (callsAt calls p))

theorem toEncodingLayoutTrees_createChildren {children : List (String × Schema)}
    (hchildren : ∀ child ∈ children, ∀ name next (heap : ℕ → LayoutMap Layout),
      HoldsLayouts train heap (createTrainingTree ids child.2 name next).2.1 next
        (createTrainingTree ids child.2 name next).2.2 →
      ∃ tree, toEncodingLayoutTree heap (createTrainingTree ids child.2 name next).1 =
          .ok tree ∧ SameUpToLayoutOrder tree (mirror ids train child.2 name))
    (next : ℕ) (heap : ℕ → LayoutMap Layout)
    (hheap : HoldsLayouts train heap (createChildren ids children next).2.1 next
      (createChildren ids children next).2.2) :
    ∃ trees, toEncodingLayoutTree.toEncodingLayoutTrees heap
        (createChildren ids children next).1 = .ok trees ∧
      SameChildren trees (children.map fun child => mirror ids train child.2 child.1) := by
  induction children generalizing next with
  | nil => exact ⟨[], rfl, trivial⟩
  | cons child children ih =>
    have hfirst := createTrainingTree_allocates ids child.2 child.1 next
    have hrest := createChildren_allocates_of_next ids children
      (createTrainingTree ids child.2 child.1 next).2.2
    simp only [createChildren] at hheap ⊢
    obtain ⟨tree, htree, hsame⟩ := hchildren child (List.mem_cons_self _ _) child.1 next heap
      fun p hp hp' => by
        have := hheap p hp (by have := hrest.1; omega)
        rwa [callsAt_append_left fun call hcall => by have := hrest.2 call hcall; omega] at this
    obtain ⟨trees, htrees, hsames⟩ := ih (fun c hc => hchildren c (List.mem_cons_of_mem _ hc))
      _ fun p hp hp' => by
        have := hheap p (by omega) hp'
        rwa [callsAt_append_right fun call hcall => by have := hfirst.2.2 call hcall; omega] at this
    exact ⟨tree :: trees, by rw [toEncodingLayoutTree.toEncodingLayoutTrees, htree, htrees]; rfl,
      hsame, hsames⟩

theorem toEncodingLayoutTree_createTrainingTree (schema : Schema) :
    ∀ name next (heap : ℕ → LayoutMap Layout),
      HoldsLayouts train heap (createTrainingTree ids schema name next).2.1 next
        (createTrainingTree ids schema name next).2.2 →
      ∃ tree, toEncodingLayoutTree heap (createTrainingTree ids schema name next).1 = .ok tree ∧
        SameUpToLayoutOrder tree (mirror ids train schema name) := by
  induction schema using trainingChildren_induction with
  | step schema ih =>
    intro name next heap hheap
    have hchildren := createChildren_allocates_of_next ids (trainingChildren schema) (next + 1)
    rw [createTrainingTree_eq] at hheap ⊢
    dsimp only at hheap ⊢
    have hown : (heap next).1.Perm ((kindStreams ids schema).map fun s => (s.1, train s.2)) := by
      have := hheap next le_rfl (by have := hchildren.1; omega)
      rwa [callsAt_append_left fun call hcall => by have := hchildren.2 call hcall; omega,
        callsAt_ownCalls, layoutsOf_ownCalls] at this
    obtain ⟨trees, htrees, hsame⟩ :=
      toEncodingLayoutTrees_createChildren ids train ih (next + 1) heap fun p hp hp' => by
        have := hheap p (by omega) hp'
        rwa [callsAt_append_right fun call hcall => by
          obtain ⟨s, -, rfl⟩ := List.mem_map.mp hcall; simp only; omega] at this
    have hlength : (heap next).1.length < 255 := by
      have := length_kindStreams_le ids schema
      rw [hown.length_eq, List.length_map]
      omega
    refine ⟨.mk schema.kind.toUInt8 (heap next).1 name.toUTF8.toList trees (heap next).2 hlength,
      by rw [toEncodingLayoutTree, htrees]; exact dif_pos hlength, ?_⟩
    rw [mirror_eq, SameUpToLayoutOrder]
    exact ⟨rfl, hown, rfl, hsame⟩

end Readback

theorem completeCallbacks_apply (train : StreamDescriptor → Layout)
    (heap : ℕ → LayoutMap Layout) (order : List TrainCall) (p : ℕ) :
    completeCallbacks train heap order p =
      (callsAt order p).foldl (fun layouts call =>
        layouts.insert call.streamIdentifier (train call.descriptor)) (heap p) := by
  induction order generalizing heap with
  | nil => rfl
  | cons call order ih =>
    rw [completeCallbacks, List.foldl_cons, ← completeCallbacks, ih, runCallback]
    by_cases hp : call.state = p
    · subst hp
      simp [callsAt]
    · simp [callsAt, hp, Function.update_noteq (Ne.symm hp)]

theorem foldl_insert_eq (train : StreamDescriptor → Layout) (calls : List TrainCall)
    (layouts : LayoutMap Layout)
    (hnodup : (layouts.1.map Prod.fst ++ calls.map (·.streamIdentifier)).Nodup) :
    (calls.foldl (fun layouts call =>
      layouts.insert call.streamIdentifier (train call.descriptor)) layouts).1 =
      layouts.1 ++ layoutsOf train calls := by
  induction calls generalizing layouts with
  | nil => simp [layoutsOf]
  | cons call calls ih =>
    have hfresh : call.streamIdentifier ∉ layouts.1.map Prod.fst :=
      fun h => (List.nodup_append.mp hnodup).2.2 h (List.mem_cons_self _ _)
    rw [List.foldl_cons, ih _ (by simpa [LayoutMap.insert_of_not_mem hfresh] using hnodup),
      LayoutMap.insert_of_not_mem hfresh]
    simp [layoutsOf]

/-- The trained tree mirrors the schema, whatever order the callbacks run in. -/
theorem toEncodingLayoutTree_mirrors_schema (ids : StreamIdentifiers)
    (train : StreamDescriptor → Layout) (schema : Schema) (order : List TrainCall)
    (horder : order.Perm (createTrainingTree ids schema "" 0).2.1) :
    ∃ tree, toEncodingLayoutTree (completeCallbacks train emptyHeap order)
        (createTrainingTree ids schema "" 0).1 = .ok tree ∧
      SameUpToLayoutOrder tree (mirror ids train schema "") := by
  refine toEncodingLayoutTree_createTrainingTree ids train schema "" 0 _ fun p _ _ => ?_
  have hperm : (callsAt order p).Perm (callsAt (createTrainingTree ids schema "" 0).2.1 p) :=
    horder.filter _
  have hnodup := (hperm.map (·.streamIdentifier)).nodup_iff.mpr
    (nodup_callsAt_createTrainingTree ids schema "" 0 p)
  rw [completeCallbacks_apply, foldl_insert_eq train _ _ (by simpa [emptyHeap] using hnodup)]
  simpa [emptyHeap, layoutsOf] using hperm.map _

theorem toEncodingLayoutTree_mirrors_schema_example :
    let ids : StreamIdentifiers := ⟨0, 0, 0, 0, 0, 0, 1, by decide⟩
    let schema : Schema := .row ⟨0, .bool⟩
      [("a", .arrayWithOffsets ⟨1, .uint32⟩ ⟨2, .uint32⟩ (.scalar ⟨3, .int64⟩)),
        ("m", .flatMap ⟨4, .bool⟩ [("k", ⟨5, .bool⟩, .scalar ⟨6, .double⟩)])]
    let order := (createTrainingTree ids schema "" 0).2.1.reverse
    order.Perm (createTrainingTree ids schema "" 0).2.1 ∧
      ∃ tree, toEncodingLayoutTree (completeCallbacks (·.offset) emptyHeap order)
          (createTrainingTree ids schema "" 0).1 = .ok tree ∧
        SameUpToLayoutOrder tree (mirror ids (·.offset) schema "") :=
  ⟨by decide, toEncodingLayoutTree_mirrors_schema _ _ _ _ (by decide)⟩

end Nimble.EncodingLayoutTrainer
