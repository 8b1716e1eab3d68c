import Nimble.Velox.SchemaTypes

/-! # Flat-map layout planner

`FlatMapLayoutPlanner::getLayout` lists offsets in three parts (the root's nulls stream, the
configured flat-map features, then the whole schema in preorder) and moves each input stream to
the layout the first time its offset comes up, through an `unordered_map` from offsets to
streams that forgets a stream once it is placed. The map is filled with `std::inserter`, so a
second stream of an offset is never in it; streams that are never placed, or were never in the
map, make the final size assertion fail.
-/

namespace Nimble.FlatMapLayoutPlanner

/-- `Stream`: its offset, and its content, which the planner moves without reading it. -/
structure Stream where
  offset : ℕ
  content : List UInt8
  deriving DecidableEq, Repr

def orderedFeatureOffsets (children : List (String × StreamDescriptor × Schema)) :
    List Int → List ℕ
  | [] => []
  | feature :: features =>
    match children.find? (·.1 = toString feature) with
    | some (_, inMap, child) =>
      inMap.offset :: (appendAllNestedStreams child ++ orderedFeatureOffsets children features)
    | none => orderedFeatureOffsets children features

/-- The loop over `flatMapFeatureOrder_` that fills `orderedFlatMapOffsets`, with its two
checks on each configured column. -/
def orderFlatMaps (columns : List (String × Schema)) :
    List (ℕ × List Int) → Except String (List ℕ)
  | [] => .ok []
  | (ordinal, features) :: rest =>
    if h : ordinal < columns.length then
      match columns[ordinal] with
      | (_, .flatMap nulls children) =>
        (orderFlatMaps columns rest).map fun offsets =>
          nulls.offset :: orderedFeatureOffsets children features ++ offsets
      | (name, _) => .error s!"Column \x27{name}\x27 for feature ordering is not a flat map."
    else
      let count := columns.length
      .error s!"Column ordinal {ordinal} for feature ordering is out of range. Top-level row has {count} columns."

/-- Filling `offsetsToStreams` through `std::inserter`: an offset already in the map keeps its
stream. -/
def insertStream (offsetsToStreams : List Stream) (stream : Stream) : List Stream :=
  if offsetsToStreams.any (·.offset = stream.offset) then offsetsToStreams
  else offsetsToStreams ++ [stream]

/-- `tryAppendStream`: if the map still holds a stream of `offset`, move it to the layout. -/
def tryAppendStream (state : List Stream × List Stream) (offset : ℕ) :
    List Stream × List Stream :=
  match state.1.find? (·.offset = offset) with
  | some stream => (state.1.filter (·.offset ≠ offset), state.2 ++ [stream])
  | none => state

/-- `FlatMapLayoutPlanner::getLayout`, for the schema `root` the type resolver returns. -/
def getLayout (root : Schema) (flatMapFeatureOrder : List (ℕ × List Int))
    (streams : List Stream) : Except String (List Stream) :=
  match root with
  | .row nulls columns => do
    let orderedFlatMapOffsets ← orderFlatMaps columns flatMapFeatureOrder
    let orderedAllOffsets := appendAllNestedStreams root
    let offsetsToStreams := streams.foldl insertStream []
    let layout := ((nulls.offset :: (orderedFlatMapOffsets ++ orderedAllOffsets)).foldl
      tryAppendStream (offsetsToStreams, [])).2
    let inputSize := streams.length
    let outputSize := layout.length
    if inputSize = outputSize then pure layout
    else throw s!"Stream count mismatch. Input size: {inputSize}, output size: {outputSize}."
  | _ => throw "Flat map layout planner requires row as the schema root."

/-- The elements of a list, each at its first position. -/
def firstOccurrences : List ℕ → List ℕ
  | [] => []
  | x :: xs => x :: (firstOccurrences xs).filter (· ≠ x)

@[simp] theorem mem_firstOccurrences {x : ℕ} {l : List ℕ} :
    x ∈ firstOccurrences l ↔ x ∈ l := by
  induction l with
  | nil => simp [firstOccurrences]
  | cons y ys ih => by_cases h : x = y <;> simp [firstOccurrences, ih, h]

theorem nodup_firstOccurrences (l : List ℕ) : (firstOccurrences l).Nodup := by
  induction l with
  | nil => exact List.nodup_nil
  | cons y ys ih => exact List.nodup_cons.mpr ⟨by simp, ih.filter _⟩

theorem firstOccurrences_filter (p : ℕ → Bool) (l : List ℕ) :
    firstOccurrences (l.filter p) = (firstOccurrences l).filter p := by
  induction l with
  | nil => rfl
  | cons y ys ih =>
    by_cases hy : p y
    · simp [firstOccurrences, List.filter_cons, hy, ih, List.filter_filter, Bool.and_comm]
    · simp only [List.filter_cons, hy, Bool.false_eq_true, ite_false, firstOccurrences, ih,
        List.filter_filter]
      congr 1; funext x; by_cases hx : x = y <;> simp_all

/-- Every configured ordinal is a column of the root row, and that column is a flat map. -/
def ValidFeatureOrder (columns : List (String × Schema))
    (flatMapFeatureOrder : List (ℕ × List Int)) : Prop :=
  ∀ c ∈ flatMapFeatureOrder, ∃ h : c.1 < columns.length, columns[c.1].2.kind = .flatMap

def featureOffsets (children : List (String × StreamDescriptor × Schema)) (feature : Int) :
    List ℕ :=
  match children.find? (·.1 = toString feature) with
  | some (_, inMap, child) => inMap.offset :: appendAllNestedStreams child
  | none => []

/-- The offsets the configuration places first: for each entry, the flat map's nulls stream and
then its features' streams in configuration order. -/
def configuredOffsets (columns : List (String × Schema))
    (flatMapFeatureOrder : List (ℕ × List Int)) : List ℕ :=
  flatMapFeatureOrder.flatMap fun (ordinal, features) =>
    match columns[ordinal]? with
    | some (_, .flatMap nulls children) =>
      nulls.offset :: features.flatMap (featureOffsets children)
    | _ => []

theorem orderedFeatureOffsets_eq (children : List (String × StreamDescriptor × Schema)) :
    ∀ features, orderedFeatureOffsets children features =
      features.flatMap (featureOffsets children)
  | [] => rfl
  | f :: fs => by
    simp only [orderedFeatureOffsets, List.flatMap_cons, featureOffsets,
      orderedFeatureOffsets_eq children fs]
    split <;> (rename_i heq; simp [heq])

theorem orderFlatMaps_of_valid {columns : List (String × Schema)} :
    ∀ {config}, ValidFeatureOrder columns config →
      orderFlatMaps columns config = .ok (configuredOffsets columns config)
  | [], _ => rfl
  | (ordinal, features) :: rest, hv => by
    obtain ⟨h, hkind⟩ := hv _ (List.mem_cons_self _ _)
    dsimp only at h hkind
    have ih := orderFlatMaps_of_valid fun c hc => hv c (List.mem_cons_of_mem _ hc)
    simp only [configuredOffsets] at ih ⊢
    simp only [orderFlatMaps, dif_pos h, List.flatMap_cons, List.getElem?_eq_getElem h, ih]
    generalize columns[ordinal] = column at hkind ⊢
    obtain ⟨name, _ | _ | _ | _ | _ | ⟨nulls, children⟩⟩ := column <;> cases hkind
    simp only [Except.map, orderedFeatureOffsets_eq, List.cons_append]

theorem valid_of_orderFlatMaps {columns : List (String × Schema)} :
    ∀ {config r}, orderFlatMaps columns config = .ok r → ValidFeatureOrder columns config
  | [], _, _ => fun _ h => nomatch h
  | (ordinal, features) :: rest, r, hr => by
    unfold orderFlatMaps at hr
    split at hr
    next h =>
      generalize hc : columns[ordinal] = column at hr
      obtain ⟨name, _ | _ | _ | _ | _ | ⟨nulls, children⟩⟩ := column
      all_goals first | cases hr | skip
      cases hrest : orderFlatMaps columns rest with
      | error e => simp [hrest, Except.map] at hr
      | ok r' =>
        intro c hc'
        rcases List.mem_cons.mp hc' with rfl | hc'
        · exact ⟨h, by simp [hc, Schema.kind]⟩
        · exact valid_of_orderFlatMaps hrest c hc'
    next => cases hr

theorem featureOffsets_subset (children : List (String × StreamDescriptor × Schema))
    (feature : Int) :
    featureOffsets children feature ⊆ appendAllNestedStreams.flatMapChildren children := by
  unfold featureOffsets
  split
  next c inMap child heq => exact subset_flatMapChildren (List.mem_of_find?_eq_some heq)
  next => exact List.nil_subset _

theorem configuredOffsets_subset (columns : List (String × Schema))
    (config : List (ℕ × List Int)) :
    configuredOffsets columns config ⊆ appendAllNestedStreams.rowChildren columns := by
  intro x hx
  obtain ⟨⟨ordinal, features⟩, -, hx⟩ := List.mem_flatMap.mp hx
  dsimp only at hx
  split at hx
  next name nulls children heq =>
    apply subset_rowChildren (List.getElem?_mem heq)
    refine List.cons_subset_cons _ (fun y hy => ?_) hx
    obtain ⟨f, -, hf⟩ := List.mem_flatMap.mp hy
    exact featureOffsets_subset children f hf
  next => cases hx

theorem offsets_foldl_insertStream (l : List Stream) : ∀ acc : List Stream,
    (l.foldl insertStream acc).map (·.offset) =
      acc.map (·.offset) ++
        (firstOccurrences (l.map (·.offset))).filter (· ∉ acc.map (·.offset)) := by
  induction l with
  | nil => simp [firstOccurrences]
  | cons s l ih =>
    intro acc
    rw [List.foldl_cons, ih, insertStream]
    by_cases h : s.offset ∈ acc.map (·.offset)
    · have hany : acc.any (·.offset = s.offset) := by simpa using h
      rw [if_pos hany, List.map_cons, firstOccurrences,
        List.filter_cons_of_neg (by simpa using h), List.filter_filter]
      congr 1
      exact List.filter_congr fun x _ => by by_cases hx : x = s.offset <;> simp [hx, h]
    · have hany : ¬ acc.any (·.offset = s.offset) := by simpa using h
      rw [if_neg hany, List.map_cons, firstOccurrences,
        List.filter_cons_of_pos (by simpa using h), List.filter_filter, List.map_append,
        List.append_assoc, List.map_singleton, List.singleton_append]
      congr 2
      exact List.filter_congr fun x _ => by simp [Bool.and_comm]

theorem foldl_insertStream_subset (l : List Stream) :
    ∀ acc, l.foldl insertStream acc ⊆ acc ++ l := by
  induction l with
  | nil => simp
  | cons s l ih =>
    intro acc
    refine List.Subset.trans (ih _) (List.append_subset.mpr ⟨?_, ?_⟩)
    · intro x hx
      unfold insertStream at hx
      split at hx
      · exact List.mem_append_left _ hx
      · rcases List.mem_append.mp hx with hx | hx
        · exact List.mem_append_left _ hx
        · exact List.mem_append_right _ (by simp_all)
    · exact List.subset_append_of_subset_right _ (List.subset_cons_self _ _)

theorem find?_filter_offset_ne {M : List Stream} {o x : ℕ} (hx : x ≠ o) :
    (M.filter (·.offset ≠ o)).find? (·.offset = x) = M.find? (·.offset = x) := by
  rw [List.find?_filter]; congr 1; funext s; by_cases hs : s.offset = x <;> simp [hs, hx]

theorem mem_offsets_filter_ne {M : List Stream} {o x : ℕ} :
    x ∈ (M.filter (·.offset ≠ o)).map (·.offset) ↔ x ∈ M.map (·.offset) ∧ x ≠ o := by
  simp only [List.mem_map, List.mem_filter, decide_eq_true_eq]
  constructor
  · rintro ⟨s, ⟨hs, hso⟩, rfl⟩; exact ⟨⟨s, hs, rfl⟩, hso⟩
  · rintro ⟨⟨s, hs, rfl⟩, hso⟩; exact ⟨s, ⟨hs, hso⟩, rfl⟩

theorem foldl_tryAppendStream (os : List ℕ) {M : List Stream}
    (hM : (M.map (·.offset)).Nodup) (acc : List Stream) :
    os.foldl tryAppendStream (M, acc) =
      (M.filter (·.offset ∉ os),
        acc ++ (firstOccurrences (os.filter (· ∈ M.map (·.offset)))).filterMap
          fun o => M.find? (·.offset = o)) := by
  induction os generalizing M acc with
  | nil => simp [firstOccurrences]
  | cons o os ih =>
    rw [List.foldl_cons]
    cases hfind : M.find? (·.offset = o) with
    | none =>
      have ho : ∀ s ∈ M, s.offset ≠ o := by simpa [List.find?_eq_none] using hfind
      have hkeep : M.filter (·.offset ∉ o :: os) = M.filter (·.offset ∉ os) :=
        List.filter_congr fun s hs => by simp [ho s hs]
      rw [tryAppendStream, hfind, ih hM, hkeep, List.filter_cons_of_neg (by simpa using ho)]
    | some st =>
      have hst : st ∈ M ∧ st.offset = o :=
        ⟨List.mem_of_find?_eq_some hfind, by simpa using List.find?_some hfind⟩
      have hM' : ((M.filter (·.offset ≠ o)).map (·.offset)).Nodup :=
        hM.sublist ((List.filter_sublist M).map _)
      have hrest : (os.filter (· ∈ M.map (·.offset))).filter (· ≠ o) =
          os.filter (· ∈ (M.filter (·.offset ≠ o)).map (·.offset)) := by
        rw [List.filter_filter]
        exact List.filter_congr fun x _ => by
          simp only [mem_offsets_filter_ne]; simp [Bool.and_comm]
      rw [tryAppendStream, hfind, ih hM', List.filter_filter,
        List.filter_cons_of_pos (by simpa using ⟨st, hst.1, hst.2⟩), firstOccurrences,
        ← firstOccurrences_filter, hrest]
      refine Prod.ext (List.filter_congr fun s _ => by simp [Bool.and_comm]) ?_
      simp only [List.filterMap_cons, hfind, List.append_assoc, List.singleton_append]
      refine congrArg (acc ++ st :: ·) (List.filterMap_congr fun x hx => find?_filter_offset_ne ?_)
      exact (mem_offsets_filter_ne.mp
        (of_decide_eq_true (List.mem_filter.mp (mem_firstOccurrences.mp hx)).2)).2

theorem map_offset_filterMap_find? {M : List Stream} :
    ∀ {os : List ℕ}, (∀ o ∈ os, o ∈ M.map (·.offset)) →
      (os.filterMap fun o => M.find? (·.offset = o)).map (·.offset) = os
  | [], _ => rfl
  | o :: os, h => by
    obtain ⟨s, hs⟩ : ∃ s, M.find? (·.offset = o) = some s :=
      Option.isSome_iff_exists.mp
        (List.find?_isSome.mpr (by simpa using h o (List.mem_cons_self _ _)))
    rw [List.filterMap_cons, hs, List.map_cons,
      map_offset_filterMap_find? fun o' h' => h o' (List.mem_cons_of_mem _ h')]
    simpa using List.find?_some hs

/-- The layout `getLayout` builds on a row root once the configured offsets are known. -/
def plannedLayout (nulls : StreamDescriptor) (columns : List (String × Schema))
    (configured : List ℕ) (streams : List Stream) : List Stream :=
  ((nulls.offset :: (configured ++ appendAllNestedStreams (.row nulls columns))).foldl
    tryAppendStream (streams.foldl insertStream [], [])).2

theorem getLayout_eq_ok {nulls : StreamDescriptor} {columns : List (String × Schema)}
    {config : List (ℕ × List Int)} {streams layout : List Stream} :
    getLayout (.row nulls columns) config streams = .ok layout ↔
      ValidFeatureOrder columns config ∧
        layout = plannedLayout nulls columns (configuredOffsets columns config) streams ∧
        streams.length = layout.length := by
  by_cases hv : ValidFeatureOrder columns config
  · simp only [getLayout, orderFlatMaps_of_valid hv, plannedLayout, hv, true_and, bind,
      Except.bind]
    split_ifs with h
    · simp only [pure, Except.pure, Except.ok.injEq, eq_comm, iff_self_and]
      rintro rfl; exact h
    · simp only [false_iff, not_and]; rintro rfl; exact h
  · cases horder : orderFlatMaps columns config with
    | error e => simp [getLayout, horder, hv, bind, Except.bind]
    | ok r => exact absurd (valid_of_orderFlatMaps horder) hv

section Plan

variable {nulls : StreamDescriptor} {columns : List (String × Schema)} {configured : List ℕ}
  {streams : List Stream}

theorem offsets_foldl_insertStream_nil (streams : List Stream) :
    (streams.foldl insertStream []).map (·.offset) =
      firstOccurrences (streams.map (·.offset)) := by
  simpa using offsets_foldl_insertStream streams []

theorem plannedLayout_eq :
    plannedLayout nulls columns configured streams =
      (firstOccurrences ((nulls.offset ::
          (configured ++ appendAllNestedStreams (.row nulls columns))).filter
        (· ∈ (streams.foldl insertStream []).map (·.offset)))).filterMap
        fun o => (streams.foldl insertStream []).find? (·.offset = o) := by
  have hnd := offsets_foldl_insertStream_nil streams ▸ nodup_firstOccurrences _
  rw [plannedLayout, foldl_tryAppendStream _ hnd, List.nil_append]

theorem map_offset_plannedLayout :
    (plannedLayout nulls columns configured streams).map (·.offset) =
      firstOccurrences ((nulls.offset ::
          (configured ++ appendAllNestedStreams (.row nulls columns))).filter
        (· ∈ streams.map (·.offset))) := by
  rw [plannedLayout_eq, map_offset_filterMap_find? fun o ho => of_decide_eq_true
    (List.mem_filter.mp (mem_firstOccurrences.mp ho)).2, offsets_foldl_insertStream_nil]
  simp only [mem_firstOccurrences]

theorem plannedLayout_subset : plannedLayout nulls columns configured streams ⊆ streams := by
  intro s hs
  rw [plannedLayout_eq] at hs
  obtain ⟨o, -, ho⟩ := List.mem_filterMap.mp hs
  simpa using foldl_insertStream_subset streams [] (List.mem_of_find?_eq_some ho)

end Plan

theorem getLayout_ordered_permutation (nulls : StreamDescriptor) (columns : List (String × Schema))
    (flatMapFeatureOrder : List (ℕ × List Int)) (streams : List Stream) :
    ((∃ layout, getLayout (.row nulls columns) flatMapFeatureOrder streams = .ok layout) ↔
      ValidFeatureOrder columns flatMapFeatureOrder ∧ (streams.map (·.offset)).Nodup ∧
        ∀ s ∈ streams, s.offset ∈ appendAllNestedStreams (.row nulls columns)) ∧
    ∀ layout, getLayout (.row nulls columns) flatMapFeatureOrder streams = .ok layout →
      layout.Perm streams ∧
      layout.map (·.offset) =
        firstOccurrences ((nulls.offset :: (configuredOffsets columns flatMapFeatureOrder ++
          appendAllNestedStreams (.row nulls columns))).filter (· ∈ streams.map (·.offset))) := by
  set L := plannedLayout nulls columns (configuredOffsets columns flatMapFeatureOrder) streams
  have hoffs :=
    @map_offset_plannedLayout nulls columns (configuredOffsets columns flatMapFeatureOrder) streams
  have hLnd : L.Nodup := List.Nodup.of_map _ (hoffs ▸ nodup_firstOccurrences _)
  have hsub : L ⊆ streams := plannedLayout_subset
  have hperm : streams.length ≤ L.length → L.Perm streams := fun h =>
    (List.subperm_of_subset hLnd hsub).perm_of_length_le h
  have hP : ∀ x, x ∈ nulls.offset :: (configuredOffsets columns flatMapFeatureOrder ++
      appendAllNestedStreams (.row nulls columns)) →
        x ∈ appendAllNestedStreams (.row nulls columns) := by
    intro x hx
    rcases List.mem_cons.mp hx with rfl | hx
    · exact List.mem_cons_self _ _
    rcases List.mem_append.mp hx with hx | hx
    · exact List.mem_cons_of_mem _ (configuredOffsets_subset columns flatMapFeatureOrder hx)
    · exact hx
  refine ⟨⟨?_, ?_⟩, ?_⟩
  · rintro ⟨layout, hl⟩
    obtain ⟨hv, rfl, hlen⟩ := getLayout_eq_ok.mp hl
    have hp := hperm hlen.le
    refine ⟨hv, (hp.map (·.offset)).nodup_iff.mp (hoffs ▸ nodup_firstOccurrences _),
      fun s hs => ?_⟩
    have : s.offset ∈ L.map (·.offset) := List.mem_map_of_mem _ (hp.mem_iff.mpr hs)
    rw [hoffs, mem_firstOccurrences, List.mem_filter] at this
    exact hP _ this.1
  · rintro ⟨hv, hnd, hall⟩
    refine ⟨L, getLayout_eq_ok.mpr ⟨hv, rfl, ?_⟩⟩
    have hsup : streams ⊆ L := fun s hs => by
      have : s.offset ∈ L.map (·.offset) := by
        rw [hoffs, mem_firstOccurrences, List.mem_filter]
        exact ⟨List.mem_cons_of_mem _ (List.mem_append_right _ (hall s hs)),
          decide_eq_true (List.mem_map_of_mem _ hs)⟩
      obtain ⟨s', hs', hoff⟩ := List.mem_map.mp this
      rwa [List.inj_on_of_nodup_map hnd (hsub hs') hs hoff] at hs'
    exact le_antisymm (List.subperm_of_subset (List.Nodup.of_map _ hnd) hsup).length_le
      (List.subperm_of_subset hLnd hsub).length_le
  · intro layout hl
    obtain ⟨-, rfl, hlen⟩ := getLayout_eq_ok.mp hl
    exact ⟨hperm hlen.le, hoffs⟩

example : (getLayout (.row ⟨0, .int32⟩ [("a", .scalar ⟨1, .int32⟩),
      ("fm", .flatMap ⟨2, .int32⟩ [("1", ⟨3, .int32⟩, .scalar ⟨4, .int32⟩),
        ("2", ⟨5, .int32⟩, .array ⟨6, .int32⟩ (.scalar ⟨7, .int32⟩))])])
      [(1, [2, 9, 1])] ((List.range 8).map fun o => ⟨o, []⟩)).toOption.map
        (·.map (·.offset)) =
    some [0, 2, 5, 6, 7, 3, 4, 1] := by decide

end Nimble.FlatMapLayoutPlanner
