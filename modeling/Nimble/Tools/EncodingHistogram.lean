import Nimble.Tools.TabletDump
import Nimble.Velox.EncodingLayoutTree

/-! # The encoding histogram of the dump tool

`emitHistogram` visits every encoding of every chunk of every stream of the stripes it reads, and
counts the encodings and their bytes in an `unordered_map` keyed by encoding type, data type and
compression. Each visit is parsed first: its compression property must name one of the three
compression types (`compressionMap.at` throws otherwise), and its encoded size must convert to a
`uint32_t`. The rows are then sorted by `HistogramRowCompare`, encoding type first and the
larger storage second.

On a tablet whose visits all parse, the table has one row per key that occurs, the row's counts
are the number of visits with that key and the sum of their sizes, and the rows are in the
comparator's order (`emitHistogram_groups`); otherwise the first visit that does not parse
decides the failure.
-/

namespace Nimble.NimbleDump

open Encoding

/-- Modelled from the spec: the compression kinds. -/
inductive CompressionType
  | uncompressed | zstd | metaInternal
  deriving DecidableEq, Repr

def compressionTypes : List CompressionType := [.uncompressed, .zstd, .metaInternal]

/-- The two properties of an encoding that `emitHistogram` reads. -/
inductive EncodingPropertyType
  | compression | encodedSize
  deriving DecidableEq, Repr

/-- The arguments of one call of the visitor of `traverseEncodings` that `emitHistogram` reads:
the encoding's type, its data type and its properties (`traverseEncodings` is not in this
repository's files). -/
structure EncodingVisit where
  encodingType : EncodingType
  dataType : UInt8
  properties : List (EncodingPropertyType × String)

/-- `GroupingKey`. -/
structure GroupingKey where
  encodingType : EncodingType
  dataType : UInt8
  compressionType : Option CompressionType
  deriving DecidableEq, Repr

/-- `EncodingHistogramValue`. -/
structure EncodingHistogramValue where
  count : ℕ
  bytes : ℕ
  deriving DecidableEq, Repr

/-- Why `emitHistogram` throws: `compressionMap.at` of a name it lacks, or `folly::to<uint32_t>`
of an encoded size that does not convert. -/
inductive HistogramFailure
  | unknownCompression (value : String)
  | invalidEncodedSize (value : String)
  deriving DecidableEq, Repr

section Histogram

variable (compressionName : CompressionType → String) (toUInt32 : String → Option ℕ)

/-- The key and the size the visitor of `emitHistogram` takes from one visit. `compressionName`
is `toString` of a compression type, and `toUInt32` is `folly::to<uint32_t>`. -/
def parseVisit (visit : EncodingVisit) : Except HistogramFailure (GroupingKey × ℕ) := do
  let compressionType ← match visit.properties.lookup .compression with
    | none => pure none
    | some value =>
      match compressionTypes.find? (compressionName · = value) with
      | some compressionType => pure (some compressionType)
      | none => throw (.unknownCompression value)
  let bytes ← match visit.properties.lookup .encodedSize with
    | none => pure 0
    | some value =>
      match toUInt32 value with
      | some bytes => pure bytes
      | none => throw (.invalidEncodedSize value)
  pure (⟨visit.encodingType, visit.dataType, compressionType⟩, bytes)

/-- `auto& value = encodingHistogram[key]; ++value.count; value.bytes += bytes;`: the entry of
`key`, made empty first when there is none. The entries stay in the order they were made; the
order of the `unordered_map` is unspecified, and the rows are sorted before they are written. -/
def addToHistogram (key : GroupingKey) (bytes : ℕ) :
    List (GroupingKey × EncodingHistogramValue) → List (GroupingKey × EncodingHistogramValue)
  | [] => [(key, ⟨1, bytes⟩)]
  | (k, value) :: rest =>
    if k = key then (k, ⟨value.count + 1, value.bytes + bytes⟩) :: rest
    else (k, value) :: addToHistogram key bytes rest

/-- `HistogramRowCompare`: the encoding type first, as the positions of the enumeration; then the
larger storage. -/
def histogramRowCompare (lhs rhs : GroupingKey × EncodingHistogramValue) : Bool :=
  if lhs.1.encodingType.toCtorIdx ≠ rhs.1.encodingType.toCtorIdx then
    lhs.1.encodingType.toCtorIdx < rhs.1.encodingType.toCtorIdx
  else lhs.2.bytes > rhs.2.bytes

/-- The visitor of `emitHistogram` on one visit. -/
def histogramVisit (histogram : List (GroupingKey × EncodingHistogramValue))
    (visit : EncodingVisit) : Except HistogramFailure (List (GroupingKey × EncodingHistogramValue)) :=
  (parseVisit compressionName toUInt32 visit).map fun (key, bytes) =>
    addToHistogram key bytes histogram

/-- A row may stand before another when the comparator does not put the other first. -/
def RowLe (lhs rhs : GroupingKey × EncodingHistogramValue) : Prop :=
  histogramRowCompare rhs lhs = false

instance : DecidableRel RowLe := fun _ _ => inferInstanceAs (Decidable (_ = _))

/-- The visits `emitHistogram` makes, in order: every encoding of every chunk of every stream
that is not empty, stripe by stripe. `encodingsOf` is what `traverseEncodings` reports for a
chunk. -/
def histogramVisits (encodingsOf : List UInt8 → List EncodingVisit)
    (stripes : List TabletStripe) : List EncodingVisit :=
  stripes.flatMap fun stripe => stripe.streams.flatMap fun stream =>
    (stream.chunks.getD []).flatMap encodingsOf

/-- `NimbleDumpLib::emitHistogram`: the rows it writes, in order, or why it throws. -/
def emitHistogram (encodingsOf : List UInt8 → List EncodingVisit) (tablet : Tablet)
    (stripeId : Option ℕ) (fuel : ℕ) :
    Option (Except HistogramFailure (List (GroupingKey × EncodingHistogramValue))) :=
  let (stripes, finished) := traverseTablet tablet.stripeCount stripeId fuel
  if finished then
    (stripes.mapM fun stripeIndex => tablet.stripes[stripeIndex]?).map fun stripes =>
      ((histogramVisits encodingsOf stripes).foldlM (histogramVisit compressionName toUInt32)
        []).map (List.insertionSort RowLe)
  else none

end Histogram

theorem rowLe_iff {lhs rhs : GroupingKey × EncodingHistogramValue} :
    RowLe lhs rhs ↔ lhs.1.encodingType.toCtorIdx < rhs.1.encodingType.toCtorIdx ∨
      (lhs.1.encodingType.toCtorIdx = rhs.1.encodingType.toCtorIdx ∧
        rhs.2.bytes ≤ lhs.2.bytes) := by
  unfold RowLe histogramRowCompare
  split_ifs <;> simp <;> omega

theorem rowLe_total (lhs rhs : GroupingKey × EncodingHistogramValue) :
    RowLe lhs rhs ∨ RowLe rhs lhs := by
  simp only [rowLe_iff]
  omega

theorem rowLe_trans {a b c : GroupingKey × EncodingHistogramValue} (hab : RowLe a b)
    (hbc : RowLe b c) : RowLe a c := by
  rw [rowLe_iff] at *
  omega

instance : IsTotal (GroupingKey × EncodingHistogramValue) RowLe := ⟨rowLe_total⟩

instance : IsTrans (GroupingKey × EncodingHistogramValue) RowLe := ⟨fun _ _ _ => rowLe_trans⟩

def Counts (done : List (GroupingKey × ℕ))
    (histogram : List (GroupingKey × EncodingHistogramValue)) : Prop :=
  (histogram.map Prod.fst).Nodup ∧
    (∀ key, key ∈ histogram.map Prod.fst ↔ key ∈ done.map Prod.fst) ∧
    ∀ entry ∈ histogram, entry.2 = ⟨(done.filter (·.1 = entry.1)).length,
      ((done.filter (·.1 = entry.1)).map Prod.snd).sum⟩

theorem addToHistogram_of_mem {key : GroupingKey} {bytes : ℕ} :
    ∀ {histogram : List (GroupingKey × EncodingHistogramValue)},
      (histogram.map Prod.fst).Nodup → key ∈ histogram.map Prod.fst →
      addToHistogram key bytes histogram = histogram.map fun entry =>
        if entry.1 = key then (entry.1, ⟨entry.2.count + 1, entry.2.bytes + bytes⟩) else entry
  | [], _, hkey => by simp at hkey
  | (k, value) :: rest, hnodup, hkey => by
    rw [List.map_cons, List.nodup_cons] at hnodup
    rw [addToHistogram, List.map_cons]
    by_cases hk : k = key
    · subst hk
      have hrest : ∀ entry ∈ rest, (if entry.1 = k then
          (entry.1, (⟨entry.2.count + 1, entry.2.bytes + bytes⟩ : EncodingHistogramValue))
          else entry) = entry := fun entry hentry =>
        if_neg fun (h : entry.1 = k) => hnodup.1 (by
          show k ∈ rest.map Prod.fst
          rw [← h]
          exact List.mem_map_of_mem _ hentry)
      rw [if_pos rfl, if_pos rfl, List.map_congr_left hrest, List.map_id']
    · rw [if_neg hk, if_neg hk,
        addToHistogram_of_mem hnodup.2 (by simpa [Ne.symm hk] using hkey)]

theorem addToHistogram_of_not_mem {key : GroupingKey} {bytes : ℕ} :
    ∀ {histogram : List (GroupingKey × EncodingHistogramValue)},
      key ∉ histogram.map Prod.fst →
      addToHistogram key bytes histogram = histogram ++ [(key, ⟨1, bytes⟩)]
  | [], _ => rfl
  | (k, value) :: rest, hkey => by
    rw [List.map_cons, List.mem_cons, not_or] at hkey
    rw [addToHistogram, if_neg (Ne.symm hkey.1), addToHistogram_of_not_mem hkey.2,
      List.cons_append]

theorem filter_snoc_key (done : List (GroupingKey × ℕ)) (key k : GroupingKey) (bytes : ℕ) :
    (done ++ [(key, bytes)]).filter (·.1 = k) =
      done.filter (·.1 = k) ++ if key = k then [(key, bytes)] else [] := by
  rw [List.filter_append]
  by_cases h : key = k <;> simp [h]

theorem counts_addToHistogram_of_mem {done : List (GroupingKey × ℕ)}
    {histogram : List (GroupingKey × EncodingHistogramValue)} {key : GroupingKey} (bytes : ℕ)
    (h : Counts done histogram) (hkey : key ∈ histogram.map Prod.fst) :
    Counts (done ++ [(key, bytes)]) (addToHistogram key bytes histogram) := by
  obtain ⟨hnodup, hkeys, hentries⟩ := h
  rw [addToHistogram_of_mem hnodup hkey]
  have hfst : ((histogram.map fun entry =>
      if entry.1 = key then (entry.1, (⟨entry.2.count + 1, entry.2.bytes + bytes⟩ :
        EncodingHistogramValue)) else entry).map Prod.fst) = histogram.map Prod.fst := by
    rw [List.map_map]
    exact List.map_congr_left fun entry _ => by by_cases h : entry.1 = key <;> simp [h]
  refine ⟨hfst ▸ hnodup, fun k => ?_, fun entry hentry => ?_⟩
  · rw [hfst, hkeys, List.map_append, List.mem_append]
    by_cases h : k = key <;> simp [h, (hkeys key).mp hkey]
  · obtain ⟨old, hold, rfl⟩ := List.mem_map.mp hentry
    have hfilter := filter_snoc_key done key old.1 bytes
    by_cases h : old.1 = key
    · rw [if_pos h]
      dsimp only
      rw [hfilter, if_pos h.symm, hentries old hold]
      simp
    · rw [if_neg h, hfilter, if_neg (Ne.symm h), List.append_nil]
      exact hentries old hold

theorem counts_addToHistogram_of_not_mem {done : List (GroupingKey × ℕ)}
    {histogram : List (GroupingKey × EncodingHistogramValue)} {key : GroupingKey} (bytes : ℕ)
    (h : Counts done histogram) (hkey : key ∉ histogram.map Prod.fst) :
    Counts (done ++ [(key, bytes)]) (addToHistogram key bytes histogram) := by
  obtain ⟨hnodup, hkeys, hentries⟩ := h
  rw [addToHistogram_of_not_mem hkey]
  have hnew : done.filter (·.1 = key) = [] :=
    List.filter_eq_nil_iff.mpr fun entry hentry h => hkey ((hkeys key).mpr
      (by simp only [decide_eq_true_eq] at h; exact h ▸ List.mem_map_of_mem Prod.fst hentry))
  refine ⟨?_, fun k => ?_, fun entry hentry => ?_⟩
  · rw [List.map_append, List.nodup_append]
    exact ⟨hnodup, List.nodup_singleton _, fun a ha hb => hkey (by
      simp only [List.map_cons, List.map_nil, List.mem_singleton] at hb
      exact hb ▸ ha)⟩
  · rw [List.map_append, List.mem_append, hkeys]
    simp
  · rcases List.mem_append.mp hentry with hentry | hentry
    · rw [hentries entry hentry, filter_snoc_key, if_neg fun (h : key = entry.1) =>
        hkey (h ▸ List.mem_map_of_mem _ hentry)]
      simp
    · rw [List.mem_singleton.mp hentry]
      dsimp only
      rw [filter_snoc_key, hnew, if_pos rfl]
      simp

theorem counts_addToHistogram {done : List (GroupingKey × ℕ)}
    {histogram : List (GroupingKey × EncodingHistogramValue)} (key : GroupingKey) (bytes : ℕ)
    (h : Counts done histogram) :
    Counts (done ++ [(key, bytes)]) (addToHistogram key bytes histogram) := by
  by_cases hkey : key ∈ histogram.map Prod.fst
  · exact counts_addToHistogram_of_mem bytes h hkey
  · exact counts_addToHistogram_of_not_mem bytes h hkey

section Histogram

variable (compressionName : CompressionType → String) (toUInt32 : String → Option ℕ)

theorem foldlM_histogramVisit_ok :
    ∀ (visits : List EncodingVisit) (done parsed : List (GroupingKey × ℕ))
      (histogram : List (GroupingKey × EncodingHistogramValue)), Counts done histogram →
      visits.mapM (parseVisit compressionName toUInt32) = .ok parsed →
      ∃ histogram', visits.foldlM (histogramVisit compressionName toUInt32) histogram =
        .ok histogram' ∧ Counts (done ++ parsed) histogram'
  | [], done, parsed, histogram, hcounts, hparsed => by
    cases hparsed
    exact ⟨histogram, rfl, by rwa [List.reverse_nil, List.append_nil]⟩
  | visit :: visits, done, parsed, histogram, hcounts, hparsed => by
    rw [List.mapM_cons] at hparsed
    obtain ⟨⟨key, bytes⟩, hvisit, hparsed⟩ := EncodingLayoutTree.bind_eq_ok.mp hparsed
    obtain ⟨rest, hrest, hparsed⟩ := EncodingLayoutTree.bind_eq_ok.mp hparsed
    cases hparsed
    obtain ⟨histogram', hfold, hcounts'⟩ := foldlM_histogramVisit_ok visits _ rest _
      (counts_addToHistogram key bytes hcounts) hrest
    refine ⟨histogram', ?_, by rwa [List.append_assoc, List.singleton_append] at hcounts'⟩
    rw [List.foldlM_cons, histogramVisit, hvisit]
    exact hfold

theorem foldlM_histogramVisit_error :
    ∀ (visits : List EncodingVisit) (failure : HistogramFailure)
      (histogram : List (GroupingKey × EncodingHistogramValue)),
      visits.mapM (parseVisit compressionName toUInt32) = .error failure →
      visits.foldlM (histogramVisit compressionName toUInt32) histogram = .error failure
  | [], _, _, hparsed => by cases hparsed
  | visit :: visits, failure, histogram, hparsed => by
    rw [List.mapM_cons] at hparsed
    rw [List.foldlM_cons, histogramVisit]
    cases hvisit : parseVisit compressionName toUInt32 visit with
    | error e =>
      rw [hvisit] at hparsed
      cases hparsed
      rfl
    | ok parsedVisit =>
      rw [hvisit, EncodingLayoutTree.ok_bind] at hparsed
      cases hrest : visits.mapM (parseVisit compressionName toUInt32) with
      | error e =>
        rw [hrest] at hparsed
        cases hparsed
        exact foldlM_histogramVisit_error visits _ _ hrest
      | ok rest =>
        rw [hrest] at hparsed
        cases hparsed

theorem mapM_getElem?_range (stripes : List TabletStripe) :
    (List.range stripes.length).mapM (fun i => stripes[i]?) = some stripes := by
  have hlookup : (fun i => stripes[i]?) =
      fun i => stripes[i]?.bind ((fun _ stripe => some stripe : ℕ → TabletStripe → _) i) :=
    funext fun i => (Option.bind_some _).symm
  rw [hlookup, mapM_range_stripes stripes _ (fun _ stripe => stripe) fun _ _ => rfl]
  simp

/-- `emitHistogram` over a whole tablet. If a visit does not parse, the first such visit's failure
is what it throws. Otherwise its rows are in the comparator's order (encoding type first, larger
storage first within a type), there is one row per key that occurs, and a row's `Instance Count`
and `Storage Bytes` are the number of visits with its key and the sum of their encoded sizes. -/
theorem emitHistogram_groups (encodingsOf : List UInt8 → List EncodingVisit) (tablet : Tablet)
    (fuel : ℕ) (hcount : 0 < tablet.stripeCount) (hsmall : tablet.stripeCount < 2 ^ 32)
    (hfuel : tablet.stripeCount ≤ fuel) :
    (∀ failure, (histogramVisits encodingsOf tablet.stripes).mapM
        (parseVisit compressionName toUInt32) = .error failure →
      emitHistogram compressionName toUInt32 encodingsOf tablet none fuel =
        some (.error failure)) ∧
    ∀ parsed, (histogramVisits encodingsOf tablet.stripes).mapM
        (parseVisit compressionName toUInt32) = .ok parsed →
      ∃ rows, emitHistogram compressionName toUInt32 encodingsOf tablet none fuel =
          some (.ok rows) ∧
        rows.Sorted RowLe ∧ (rows.map Prod.fst).Nodup ∧
        (∀ key, key ∈ rows.map Prod.fst ↔ key ∈ parsed.map Prod.fst) ∧
        ∀ row ∈ rows, row.2 = ⟨(parsed.filter (·.1 = row.1)).length,
          ((parsed.filter (·.1 = row.1)).map Prod.snd).sum⟩ := by
  have hrun : emitHistogram compressionName toUInt32 encodingsOf tablet none fuel =
      some (((histogramVisits encodingsOf tablet.stripes).foldlM
        (histogramVisit compressionName toUInt32) []).map (List.insertionSort RowLe)) := by
    rw [emitHistogram, traverseTablet_none hcount hsmall hfuel]
    dsimp only
    rw [if_pos rfl, Tablet.stripeCount, mapM_getElem?_range, Option.map_some']
  refine ⟨fun failure hparsed => ?_, fun parsed hparsed => ?_⟩
  · rw [hrun, foldlM_histogramVisit_error compressionName toUInt32 _ failure [] hparsed]
    rfl
  · obtain ⟨histogram, hfold, hnodup, hkeys, hentries⟩ :=
      foldlM_histogramVisit_ok compressionName toUInt32 _ [] parsed []
        ⟨List.nodup_nil, by simp, by simp⟩ hparsed
    have hperm := List.perm_insertionSort RowLe histogram
    refine ⟨_, by rw [hrun, hfold]; rfl, List.sorted_insertionSort _ _,
      (hperm.map Prod.fst).nodup_iff.mpr hnodup, fun key => ?_, fun row hrow => ?_⟩
    · rw [(hperm.map Prod.fst).mem_iff, hkeys, List.nil_append]
    · rw [hentries row (hperm.mem_iff.mp hrow), List.nil_append]

theorem emitHistogram_groups_example :
    let tablet : Tablet := ⟨[⟨[⟨0, 0, some [[]]⟩]⟩]⟩
    let encodingsOf : List UInt8 → List EncodingVisit := fun _ =>
      [⟨.rle, 5, [(.encodedSize, "7")]⟩, ⟨.trivial, 5, []⟩, ⟨.rle, 5, [(.encodedSize, "2")]⟩]
    let toUInt32 : String → Option ℕ := fun value => value.toNat?
    0 < tablet.stripeCount ∧ tablet.stripeCount < 2 ^ 32 ∧ tablet.stripeCount ≤ 1 ∧
    (∀ failure, (histogramVisits encodingsOf tablet.stripes).mapM
        (parseVisit (fun _ => "") toUInt32) = .error failure →
      emitHistogram (fun _ => "") toUInt32 encodingsOf tablet none 1 = some (.error failure)) ∧
    ∀ parsed, (histogramVisits encodingsOf tablet.stripes).mapM
        (parseVisit (fun _ => "") toUInt32) = .ok parsed →
      ∃ rows, emitHistogram (fun _ => "") toUInt32 encodingsOf tablet none 1 = some (.ok rows) ∧
        rows.Sorted RowLe ∧ (rows.map Prod.fst).Nodup ∧
        (∀ key, key ∈ rows.map Prod.fst ↔ key ∈ parsed.map Prod.fst) ∧
        ∀ row ∈ rows, row.2 = ⟨(parsed.filter (·.1 = row.1)).length,
          ((parsed.filter (·.1 = row.1)).map Prod.snd).sum⟩ :=
  ⟨by decide, by decide, le_rfl,
    emitHistogram_groups (fun _ => "") (fun value => value.toNat?) _ _ 1 (by decide) (by decide)
      le_rfl⟩

end Histogram

end Nimble.NimbleDump
