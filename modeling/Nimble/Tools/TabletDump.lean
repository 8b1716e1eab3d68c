import Nimble.Encodings.RleRoundTrip

/-! # The stripe and stream dumps of the dump tool

`NimbleDumpLib` walks a tablet with `traverseTablet`, a `uint32_t` loop from the chosen stripe,
or stripe `0`, up to and including the chosen stripe, or `stripeCount() - 1`. On a tablet with
stripes it visits each once, in file order (`traverseTablet_visits`); on a tablet without any,
`stripeCount() - 1` wraps to `2 ^ 32 - 1`, a bound `i <= endStripe` never passes, and the loop
visits stripes `0, 1, …` that the tablet does not have, without end
(`traverseTablet_never_ends`). The same happens for the stripe id `2 ^ 32 - 1`.

Over the stripes it visits, `emitStreams` counts each stream's items from the row counts of its
chunks' prefixes (`emitStreams_item_counts`), and `emitContent` decodes every chunk of one stream and prints its rows in
batches of `kBufferSize`: for chunks that `RLEEncodingBase::encode` wrote, exactly the values it
was given (`emitContent_prints_rle_values`). When no stripe has the stream, the bound its message
names starts from `maxStreamCount`, which the source never initialises
(`emitContent_message_bound`). The two views agree: the `Item Count` of a stream is, modulo
`2 ^ 32`, the number of rows the content view prints for it (`emitStreams_item_count_eq_content`).
-/

namespace Nimble.NimbleDump

open Encoding Rle

/-- Modelled from the spec: a stream of a stripe as the tablet API shows it, its offset and size
in the file, and the contents of its chunks, or none when `load` returns no handle (the stream is
empty in the stripe). -/
structure TabletStream where
  offset : ℕ
  size : ℕ
  chunks : Option (List (List UInt8))

/-- Modelled from the spec: a stripe, its streams in stream-identifier order. -/
structure TabletStripe where
  streams : List TabletStream

instance : Inhabited TabletStripe := ⟨⟨[]⟩⟩

/-- Modelled from the spec: a tablet, its stripes in file order. -/
structure Tablet where
  stripes : List TabletStripe

/-- `TabletReader::stripeCount`. -/
def Tablet.stripeCount (tablet : Tablet) : ℕ := tablet.stripes.length

def stripeLoop (endStripe i fuel : ℕ) : List ℕ × Bool :=
  if i ≤ endStripe then
    match fuel with
    | 0 => ([], false)
    | fuel + 1 =>
      let rest := stripeLoop endStripe ((i + 1) % 2 ^ 32) fuel
      (i :: rest.1, rest.2)
  else ([], true)

/-- `traverseTablet`'s stripes: `stripeIndex` alone, or from `0` to `stripeCount - 1` computed in
`uint32_t`. The callers pass a `std::optional<uint32_t>` through the `std::optional<int32_t>`
parameter, and the loop converts it back: `stripeIndex` is that `uint32_t`. -/
def traverseTablet (stripeCount : ℕ) (stripeIndex : Option ℕ) (fuel : ℕ) : List ℕ × Bool :=
  let startStripe := stripeIndex.getD 0
  let endStripe := match stripeIndex with
    | some stripeIndex => stripeIndex
    | none => (stripeCount + 2 ^ 32 - 1) % 2 ^ 32
  stripeLoop endStripe startStripe fuel

theorem stripeLoop_of_not_le {endStripe i : ℕ} (fuel : ℕ) (h : ¬i ≤ endStripe) :
    stripeLoop endStripe i fuel = ([], true) := by
  rw [stripeLoop.eq_def, if_neg h]

theorem stripeLoop_succ_of_le {endStripe i : ℕ} (fuel : ℕ) (h : i ≤ endStripe) :
    stripeLoop endStripe i (fuel + 1) =
      (i :: (stripeLoop endStripe ((i + 1) % 2 ^ 32) fuel).1,
        (stripeLoop endStripe ((i + 1) % 2 ^ 32) fuel).2) := by
  rw [stripeLoop, if_pos h]

theorem stripeLoop_ends {endStripe : ℕ} (hend : endStripe + 1 < 2 ^ 32) :
    ∀ (fuel i : ℕ), i ≤ endStripe + 1 → endStripe + 1 - i ≤ fuel →
      stripeLoop endStripe i fuel = (List.range' i (endStripe + 1 - i), true) := by
  intro fuel
  induction fuel with
  | zero =>
    intro i _ hfuel
    rw [stripeLoop_of_not_le 0 (by omega), show endStripe + 1 - i = 0 by omega]
    rfl
  | succ fuel ih =>
    intro i hi hfuel
    by_cases h : i ≤ endStripe
    · rw [stripeLoop_succ_of_le fuel h, Nat.mod_eq_of_lt (by omega),
        ih (i + 1) (by omega) (by omega), show endStripe + 1 - i = endStripe + 1 - (i + 1) + 1 by
          omega, List.range'_succ]
    · rw [stripeLoop_of_not_le _ h, show endStripe + 1 - i = 0 by omega]
      rfl

theorem traverseTablet_none {stripeCount fuel : ℕ} (hcount : 0 < stripeCount)
    (hsmall : stripeCount < 2 ^ 32) (hfuel : stripeCount ≤ fuel) :
    traverseTablet stripeCount none fuel = (List.range stripeCount, true) := by
  rw [traverseTablet, Option.getD_none, stripeLoop_ends (by omega) fuel 0 (by omega) (by omega),
    List.range_eq_range']
  congr 3
  omega

theorem traverseTablet_some {stripeCount stripeIndex : ℕ} (fuel : ℕ)
    (hindex : stripeIndex + 1 < 2 ^ 32) :
    traverseTablet stripeCount (some stripeIndex) (fuel + 1) = ([stripeIndex], true) := by
  rw [traverseTablet, Option.getD_some, stripeLoop_ends hindex (fuel + 1) stripeIndex (by omega)
    (by omega), show stripeIndex + 1 - stripeIndex = 1 by omega]
  rfl

/-- `traverseTablet` visits every stripe of a tablet that has some, once and in file order, and
ends; given a stripe id below `2 ^ 32 - 1`, it visits that stripe alone, whether or not the
tablet has it. -/
theorem traverseTablet_visits (stripeCount stripeIndex fuel : ℕ) (hcount : 0 < stripeCount)
    (hsmall : stripeCount < 2 ^ 32) (hfuel : stripeCount ≤ fuel)
    (hindex : stripeIndex + 1 < 2 ^ 32) :
    traverseTablet stripeCount none fuel = (List.range stripeCount, true) ∧
      traverseTablet stripeCount (some stripeIndex) (fuel + 1) = ([stripeIndex], true) :=
  ⟨traverseTablet_none hcount hsmall hfuel, traverseTablet_some fuel hindex⟩

theorem traverseTablet_visits_example :
    0 < 3 ∧ 3 < 2 ^ 32 ∧ 3 ≤ 3 ∧ 7 + 1 < 2 ^ 32 ∧
      traverseTablet 3 none 3 = (List.range 3, true) ∧
      traverseTablet 3 (some 7) (3 + 1) = ([7], true) :=
  ⟨by decide, by decide, le_rfl, by decide, traverseTablet_visits 3 7 3 (by decide) (by decide)
    le_rfl (by decide)⟩

/-- `*reinterpret_cast<const uint32_t*>(chunk.data() + 2)`: the row count of the chunk's prefix,
as `Encoding` reads it; a chunk shorter than a prefix is read past its end (none). -/
def chunkItemCount (chunk : List UInt8) : Option ℕ :=
  if kPrefixSize ≤ chunk.length then some (rowCount chunk) else none

/-- The `while (stream.hasNext())` loop of `emitStreams`: the `uint32_t` sum of the item counts
of the chunks. -/
def itemCountLoop : ℕ → List (List UInt8) → Option ℕ
  | itemCount, [] => some itemCount
  | itemCount, chunk :: chunks => do
    let n ← chunkItemCount chunk
    itemCountLoop ((itemCount + n) % 2 ^ 32) chunks

/-- A row of the table `emitStreams` writes, without its label columns (`StreamLabels` and
`getStreamInputLabel` are not in this repository's files). -/
structure StreamRow where
  stripeId : ℕ
  streamId : ℕ
  streamOffset : ℕ
  streamSize : ℕ
  itemCount : ℕ
  deriving DecidableEq, Repr

/-- The stream visitor of `emitStreams` over the streams `traverseTablet` loads from one stripe,
from stream `streamId` on: a row for each stream that is not empty. -/
def streamRows (stripeId : ℕ) : ℕ → List TabletStream → Option (List StreamRow)
  | _, [] => some []
  | streamId, stream :: streams => do
    let rest ← streamRows stripeId (streamId + 1) streams
    match stream.chunks with
    | none => pure rest
    | some chunks => do
      let itemCount ← itemCountLoop 0 chunks
      pure (⟨stripeId, streamId, stream.offset, stream.size, itemCount⟩ :: rest)

/-- `NimbleDumpLib::emitStreams`: the rows of the stripes `traverseTablet` visits, in order. A
stripe the tablet does not have fails (the reader's check is not in this repository's files). -/
def emitStreams (tablet : Tablet) (stripeId : Option ℕ) (fuel : ℕ) : Option (List StreamRow) :=
  let (stripes, finished) := traverseTablet tablet.stripeCount stripeId fuel
  if finished then
    (stripes.mapM fun stripeIndex =>
      tablet.stripes[stripeIndex]?.bind fun stripe => streamRows stripeIndex 0 stripe.streams).map
        List.flatten
  else none

/-- A chunk that begins with an encoding prefix. -/
def Prefixed (chunk : List UInt8) : Prop :=
  ∃ encodingType dataType rowCount rest,
    chunk = serializePrefix encodingType dataType rowCount ++ rest

theorem chunkItemCount_of_prefixed {chunk : List UInt8} (h : Prefixed chunk) :
    chunkItemCount chunk = some (rowCount chunk) := by
  obtain ⟨encodingType, dataType, n, rest, rfl⟩ := h
  rw [chunkItemCount, if_pos (by simp)]

theorem itemCountLoop_of_prefixed :
    ∀ (chunks : List (List UInt8)) (itemCount : ℕ), itemCount < 2 ^ 32 →
      (∀ chunk ∈ chunks, Prefixed chunk) →
      itemCountLoop itemCount chunks = some ((itemCount + (chunks.map rowCount).sum) % 2 ^ 32)
  | [], itemCount, hsmall, _ => by
    rw [itemCountLoop, List.map_nil, List.sum_nil, Nat.add_zero, Nat.mod_eq_of_lt hsmall]
  | chunk :: chunks, itemCount, _, h => by
    rw [itemCountLoop, chunkItemCount_of_prefixed (h chunk (List.mem_cons_self _ _)),
      Option.bind_eq_bind, Option.some_bind, itemCountLoop_of_prefixed chunks _
        (Nat.mod_lt _ (by norm_num)) fun c hc => h c (List.mem_cons_of_mem _ hc), List.map_cons,
      List.sum_cons]
    congr 1
    omega

/-- The rows `emitStreams` writes for one stripe, read off its streams: every stream that is not
empty, with its position, offset and size, and the `uint32_t` sum of its chunks' row counts. -/
def expectedStreamRows (stripeId : ℕ) (stripe : TabletStripe) : List StreamRow :=
  stripe.streams.enum.filterMap fun (streamId, stream) =>
    stream.chunks.map fun chunks =>
      ⟨stripeId, streamId, stream.offset, stream.size, (chunks.map rowCount).sum % 2 ^ 32⟩

theorem streamRows_of_prefixed (stripeId : ℕ) :
    ∀ (streams : List TabletStream) (streamId : ℕ),
      (∀ stream ∈ streams, ∀ chunks, stream.chunks = some chunks → ∀ chunk ∈ chunks,
        Prefixed chunk) →
      streamRows stripeId streamId streams =
        some ((streams.enumFrom streamId).filterMap fun (streamId, stream) =>
          stream.chunks.map fun chunks =>
            ⟨stripeId, streamId, stream.offset, stream.size, (chunks.map rowCount).sum % 2 ^ 32⟩)
  | [], _, _ => rfl
  | stream :: streams, streamId, h => by
    rw [streamRows, streamRows_of_prefixed stripeId streams (streamId + 1)
      fun s hs => h s (List.mem_cons_of_mem _ hs), Option.bind_eq_bind, Option.some_bind,
      List.enumFrom_cons, List.filterMap_cons]
    dsimp only
    cases hc : stream.chunks with
    | none => rfl
    | some chunks =>
      dsimp only
      rw [itemCountLoop_of_prefixed chunks 0 (by norm_num)
        (h stream (List.mem_cons_self _ _) chunks hc), Nat.zero_add]
      rfl

theorem mapM_eq_some_map {α β : Type} {f : α → Option β} {g : α → β} :
    ∀ l : List α, (∀ a ∈ l, f a = some (g a)) → l.mapM f = some (l.map g)
  | [], _ => rfl
  | a :: l, h => by
    rw [List.mapM_cons, h a (List.mem_cons_self _ _),
      mapM_eq_some_map l fun b hb => h b (List.mem_cons_of_mem _ hb)]
    rfl

theorem mapM_range_stripes {β : Type} [Inhabited β] (stripes : List TabletStripe)
    (visit : ℕ → TabletStripe → Option β) (result : ℕ → TabletStripe → β)
    (h : ∀ i (hi : i < stripes.length), visit i stripes[i] = some (result i stripes[i])) :
    (List.range stripes.length).mapM (fun i => stripes[i]?.bind (visit i)) =
      some (stripes.enum.map fun (i, stripe) => result i stripe) := by
  have hvisit : ∀ i ∈ List.range stripes.length, stripes[i]?.bind (visit i) =
      some ((stripes[i]?.map (result i)).getD default) := fun i hi => by
    rw [List.getElem?_eq_getElem (List.mem_range.mp hi), Option.some_bind, Option.map_some',
      Option.getD_some, h i (List.mem_range.mp hi)]
  rw [mapM_eq_some_map _ hvisit]
  refine congrArg some (List.ext_getElem (by simp) fun i h₁ h₂ => ?_)
  simp only [List.getElem_map, List.getElem_range, List.getElem_enum]
  rw [List.getElem?_eq_getElem (by simpa using h₁), Option.map_some', Option.getD_some]

theorem emitStreams_none {tablet : Tablet} {fuel : ℕ} (hcount : 0 < tablet.stripeCount)
    (hsmall : tablet.stripeCount < 2 ^ 32) (hfuel : tablet.stripeCount ≤ fuel) :
    emitStreams tablet none fuel =
      ((List.range tablet.stripes.length).mapM fun stripeIndex =>
        tablet.stripes[stripeIndex]?.bind fun stripe =>
          streamRows stripeIndex 0 stripe.streams).map List.flatten := by
  rw [emitStreams, traverseTablet_none hcount hsmall hfuel]
  rfl

/-- `emitStreams` over a whole tablet whose chunks begin with encoding prefixes: a row for every
stream that is not empty, stripe by stripe and stream by stream, whose `Item Count` is the
`uint32_t` sum of the row counts of the stream's chunks. -/
theorem emitStreams_item_counts (tablet : Tablet) (fuel : ℕ) (hcount : 0 < tablet.stripeCount)
    (hsmall : tablet.stripeCount < 2 ^ 32) (hfuel : tablet.stripeCount ≤ fuel)
    (hprefixed : ∀ stripe ∈ tablet.stripes, ∀ stream ∈ stripe.streams, ∀ chunks,
      stream.chunks = some chunks → ∀ chunk ∈ chunks, Prefixed chunk) :
    emitStreams tablet none fuel =
      some (tablet.stripes.enum.flatMap fun (stripeId, stripe) =>
        expectedStreamRows stripeId stripe) := by
  rw [emitStreams_none hcount hsmall hfuel, mapM_range_stripes tablet.stripes _
    (fun stripeId stripe => expectedStreamRows stripeId stripe)
    fun i hi => streamRows_of_prefixed i _ 0 (hprefixed _ (List.getElem_mem hi))]
  rfl

theorem emitStreams_item_counts_example :
    let tablet : Tablet :=
      ⟨[⟨[⟨0, 9, some [serializePrefix .trivial 5 3 ++ [7, 8, 9]]⟩, ⟨9, 0, none⟩]⟩]⟩
    0 < tablet.stripeCount ∧ tablet.stripeCount < 2 ^ 32 ∧ tablet.stripeCount ≤ 1 ∧
      (∀ stripe ∈ tablet.stripes, ∀ stream ∈ stripe.streams, ∀ chunks,
        stream.chunks = some chunks → ∀ chunk ∈ chunks, Prefixed chunk) ∧
      emitStreams tablet none 1 =
        some (tablet.stripes.enum.flatMap fun (stripeId, stripe) =>
          expectedStreamRows stripeId stripe) :=
  have hprefixed : ∀ stripe ∈ [(⟨[⟨0, 9, some [serializePrefix .trivial 5 3 ++ [7, 8, 9]]⟩,
      ⟨9, 0, none⟩]⟩ : TabletStripe)], ∀ stream ∈ stripe.streams, ∀ chunks,
        stream.chunks = some chunks → ∀ chunk ∈ chunks, Prefixed chunk := by
    intro stripe hstripe stream hstream chunks hchunks chunk hchunk
    rw [List.mem_singleton] at hstripe
    subst hstripe
    rcases List.mem_cons.mp hstream with rfl | hstream
    · cases hchunks
      rw [List.mem_singleton.mp hchunk]
      exact ⟨_, _, _, _, rfl⟩
    · rw [List.mem_singleton.mp hstream] at hchunks
      cases hchunks
  ⟨by decide, by decide, le_rfl, hprefixed,
    emitStreams_item_counts _ 1 (by decide) (by decide) le_rfl hprefixed⟩

/-- `kBufferSize`, the most rows `emitContent` prints per call of `printScalarType`. -/
def kBufferSize : ℕ := 1000

/-- The `while (totalRows > 0)` loop of `emitContent` over one decoded chunk, for at most `fuel`
batches: the row counts it passes to `printScalarType`, one `materialize` call each. -/
def printBatches (totalRows fuel : ℕ) : Option (List ℕ) :=
  if 0 < totalRows then
    match fuel with
    | 0 => none
    | fuel + 1 =>
      let currentReadSize := min kBufferSize totalRows
      (printBatches (totalRows - currentReadSize) fuel).map (currentReadSize :: ·)
  else some []

theorem printBatches_of_not_pos {totalRows : ℕ} (fuel : ℕ) (h : ¬0 < totalRows) :
    printBatches totalRows fuel = some [] := by
  rw [printBatches.eq_def, if_neg h]

theorem printBatches_succ_of_pos {totalRows : ℕ} (fuel : ℕ) (h : 0 < totalRows) :
    printBatches totalRows (fuel + 1) =
      (printBatches (totalRows - min kBufferSize totalRows) fuel).map
        (min kBufferSize totalRows :: ·) := by
  rw [printBatches, if_pos h]

theorem printBatches_spec :
    ∀ (fuel totalRows : ℕ), totalRows ≤ kBufferSize * fuel →
      ∃ batches, printBatches totalRows fuel = some batches ∧ batches.sum = totalRows ∧
        ∀ b ∈ batches, 0 < b ∧ b ≤ kBufferSize := by
  intro fuel
  induction fuel with
  | zero =>
    intro totalRows h
    exact ⟨[], printBatches_of_not_pos 0 (by omega), by simp; omega, by simp⟩
  | succ fuel ih =>
    intro totalRows h
    by_cases hpos : 0 < totalRows
    · obtain ⟨batches, hb, hsum, hbounds⟩ :=
        ih (totalRows - min kBufferSize totalRows) (by rw [Nat.mul_succ] at h; omega)
      refine ⟨_, by rw [printBatches_succ_of_pos fuel hpos, hb]; rfl, ?_, ?_⟩
      · rw [List.sum_cons, hsum]; omega
      · intro b hb'
        rcases List.mem_cons.mp hb' with rfl | hb'
        · unfold kBufferSize; omega
        · exact hbounds b hb'
    · exact ⟨[], printBatches_of_not_pos _ hpos, by simp; omega, by simp⟩

theorem readCalls_batches {α : Type} (E : List α) :
    ∀ (batches : List ℕ) (p : ℕ), p + batches.sum ≤ E.length →
      Within E.length (batches.map Call.materialize) p ∧
        (readCalls E (batches.map Call.materialize) p).flatten = (E.drop p).take batches.sum
  | [], _, _ => ⟨trivial, by simp [readCalls]⟩
  | b :: batches, p, h => by
    rw [List.sum_cons] at h
    obtain ⟨hwithin, hread⟩ := readCalls_batches E batches (p + b) (by omega)
    refine ⟨⟨by omega, hwithin⟩, ?_⟩
    rw [List.map_cons, readCalls, List.flatten_cons, hread, List.sum_cons, List.take_add,
      List.drop_drop]

section Content

variable {α : Type}

/-- The rows `emitContent` prints for one chunk: `EncodingFactory::decode` gives an encoding whose
`rowCount()` is its prefix's, and `read chunk calls` is what its `materialize` calls write. -/
def printChunk (read : List UInt8 → List Call → Option (List (List α))) (chunk : List UInt8)
    (fuel : ℕ) : Option (List α) := do
  let batches ← printBatches (rowCount chunk) fuel
  let values ← read chunk (batches.map Call.materialize)
  pure values.flatten

/-- What the stripe visitor of `emitContent` keeps from stripe to stripe. -/
structure ContentState (α : Type) where
  maxStreamCount : ℕ
  found : Bool
  printed : List α

/-- The stripe visitor of `emitContent`, on the stripe `getStripeIdentifier` names: it raises
`maxStreamCount`, and if the stripe has the stream, sets `found` and prints the stream's chunks
when `load` returns it. -/
def contentStripe (read : List UInt8 → List Call → Option (List (List α))) (streamId fuel : ℕ)
    (state : ContentState α) (stripe : TabletStripe) : Option (ContentState α) :=
  let maxStreamCount := max state.maxStreamCount stripe.streams.length
  if stripe.streams.length ≤ streamId then some { state with maxStreamCount }
  else
    match (stripe.streams[streamId]?).bind TabletStream.chunks with
    | none => some ⟨maxStreamCount, true, state.printed⟩
    | some chunks =>
      (chunks.mapM fun chunk => printChunk read chunk fuel).map fun printed =>
        ⟨maxStreamCount, true, state.printed ++ printed.flatten⟩

/-- The text of the `folly::ProgramExit` (exit code `-1`) that `emitContent` and `emitBinary`
throw for a stream identifier out of bound. -/
def outOfBoundMessage (streamId bound : ℕ) : String :=
  "Stream identifier " ++ toString streamId ++ " is out of bound. Must be between 0 and " ++
    toString bound ++ "\n"

/-- `NimbleDumpLib::emitContent`: the rows it prints, or the message of the `ProgramExit` it
throws when no stripe it visits has the stream. `maxStreamCount` is the value the uninitialised
`uint32_t maxStreamCount` holds when the function starts. -/
def emitContent (read : List UInt8 → List Call → Option (List (List α))) (tablet : Tablet)
    (streamId : ℕ) (stripeId : Option ℕ) (maxStreamCount fuel : ℕ) :
    Option (Except String (List α)) :=
  let (stripes, finished) := traverseTablet tablet.stripeCount stripeId fuel
  if finished then
    (stripes.foldlM (fun state stripeIndex =>
        tablet.stripes[stripeIndex]?.bind (contentStripe read streamId fuel state))
      ⟨maxStreamCount, false, []⟩).map fun state =>
        if state.found then .ok state.printed
        else .error (outOfBoundMessage streamId state.maxStreamCount)
  else none

def ReadsAs (read : List UInt8 → List Call → Option (List (List α))) (chunk : List UInt8)
    (V : List α) : Prop :=
  rowCount chunk = V.length ∧
    ∀ calls, Within V.length calls 0 → read chunk calls = some (readCalls V calls 0)

/-- The values the chunks of stream `streamId` hold in a stripe, none when it lacks the stream
or the stream is empty. -/
def stripeValues (values : List UInt8 → List α) (streamId : ℕ) (stripe : TabletStripe) :
    List α :=
  match (stripe.streams[streamId]?).bind TabletStream.chunks with
  | none => []
  | some chunks => chunks.flatMap values

/-- Every chunk of stream `streamId` of a stripe decodes as its `values`, in at most
`kBufferSize * fuel` rows. -/
def StreamReadsAs (read : List UInt8 → List Call → Option (List (List α)))
    (values : List UInt8 → List α) (streamId fuel : ℕ) (stripe : TabletStripe) : Prop :=
  ∀ chunks, (stripe.streams[streamId]?).bind TabletStream.chunks = some chunks →
    ∀ chunk ∈ chunks, ReadsAs read chunk (values chunk) ∧
      (values chunk).length ≤ kBufferSize * fuel

theorem printChunk_of_readsAs {read : List UInt8 → List Call → Option (List (List α))}
    {chunk : List UInt8} {V : List α} {fuel : ℕ} (h : ReadsAs read chunk V)
    (hfuel : V.length ≤ kBufferSize * fuel) : printChunk read chunk fuel = some V := by
  obtain ⟨hrow, hread⟩ := h
  obtain ⟨batches, hb, hsum, -⟩ :=
    printBatches_spec fuel (rowCount chunk) (by rw [hrow]; exact hfuel)
  obtain ⟨hwithin, hflat⟩ := readCalls_batches V batches 0 (by omega)
  rw [printChunk, hb, Option.bind_eq_bind, Option.some_bind, hread _ hwithin,
    Option.bind_eq_bind, Option.some_bind, hflat, List.drop_zero, hsum, hrow, List.take_length]
  rfl

theorem contentStripe_of_readsAs {read : List UInt8 → List Call → Option (List (List α))}
    {values : List UInt8 → List α} {streamId fuel : ℕ} {stripe : TabletStripe}
    (h : StreamReadsAs read values streamId fuel stripe) (state : ContentState α) :
    contentStripe read streamId fuel state stripe =
      some ⟨max state.maxStreamCount stripe.streams.length,
        state.found || decide (streamId < stripe.streams.length),
        state.printed ++ stripeValues values streamId stripe⟩ := by
  unfold contentStripe stripeValues
  by_cases hlen : stripe.streams.length ≤ streamId
  · rw [if_pos hlen, List.getElem?_eq_none hlen]
    simp [hlen]
  · rw [if_neg hlen]
    cases hc : (stripe.streams[streamId]?).bind TabletStream.chunks with
    | none => simp [not_le.mp hlen]
    | some chunks =>
      dsimp only
      rw [mapM_eq_some_map chunks fun chunk hchunk =>
        printChunk_of_readsAs (h chunks hc chunk hchunk).1 (h chunks hc chunk hchunk).2]
      simp [not_le.mp hlen, List.flatMap]

theorem foldlM_contentStripe {read : List UInt8 → List Call → Option (List (List α))}
    {values : List UInt8 → List α} {streamId fuel : ℕ} :
    ∀ (stripes : List TabletStripe) (state : ContentState α),
      (∀ stripe ∈ stripes, StreamReadsAs read values streamId fuel stripe) →
      stripes.foldlM (contentStripe read streamId fuel) state =
        some ⟨stripes.foldl (fun bound stripe => max bound stripe.streams.length)
            state.maxStreamCount,
          state.found || stripes.any (fun stripe => streamId < stripe.streams.length),
          state.printed ++ stripes.flatMap (stripeValues values streamId)⟩
  | [], state, _ => by simp
  | stripe :: stripes, state, h => by
    rw [List.foldlM_cons, contentStripe_of_readsAs (h stripe (List.mem_cons_self _ _)),
      Option.bind_eq_bind, Option.some_bind,
      foldlM_contentStripe stripes _ fun s hs => h s (List.mem_cons_of_mem _ hs)]
    simp [Bool.or_assoc]

end Content

theorem foldlM_range'_stripes {β : Type} (stripes : List TabletStripe)
    (visit : β → TabletStripe → Option β) :
    ∀ (n k : ℕ) (state : β), k + n = stripes.length →
      (List.range' k n).foldlM (fun state i => stripes[i]?.bind (visit state)) state =
        (stripes.drop k).foldlM visit state
  | 0, k, state, h => by rw [List.drop_eq_nil_of_le (by omega)]; rfl
  | n + 1, k, state, h => by
    rw [List.range'_succ, List.foldlM_cons, List.getElem?_eq_getElem (by omega), Option.some_bind,
      List.drop_eq_getElem_cons (by omega), List.foldlM_cons]
    congr 1
    funext state
    exact foldlM_range'_stripes stripes visit n (k + 1) state (by omega)

theorem foldl_max_streams (stripes : List TabletStripe) :
    ∀ start : ℕ, stripes.foldl (fun bound stripe => max bound stripe.streams.length) start =
      max start ((stripes.map fun stripe => stripe.streams.length).foldr max 0) := by
  induction stripes with
  | nil => intro start; simp
  | cons stripe stripes ih =>
    intro start
    rw [List.foldl_cons, ih, List.map_cons, List.foldr_cons, Nat.max_assoc]

section Content

variable {α : Type}

theorem emitContent_of_readsAs (read : List UInt8 → List Call → Option (List (List α)))
    (values : List UInt8 → List α) (tablet : Tablet) (streamId maxStreamCount fuel : ℕ)
    (hcount : 0 < tablet.stripeCount) (hsmall : tablet.stripeCount < 2 ^ 32)
    (hfuel : tablet.stripeCount ≤ fuel)
    (hreads : ∀ stripe ∈ tablet.stripes, StreamReadsAs read values streamId fuel stripe) :
    emitContent read tablet streamId none maxStreamCount fuel =
      some (if tablet.stripes.any fun stripe => streamId < stripe.streams.length then
          .ok (tablet.stripes.flatMap (stripeValues values streamId))
        else .error (outOfBoundMessage streamId
          (max maxStreamCount ((tablet.stripes.map fun stripe => stripe.streams.length).foldr
            max 0)))) := by
  rw [emitContent, traverseTablet_none hcount hsmall hfuel]
  dsimp only
  rw [if_pos rfl, List.range_eq_range', foldlM_range'_stripes _ _ _ 0 _ (by simp [Tablet.stripeCount]),
    List.drop_zero, foldlM_contentStripe _ _ hreads, Option.map_some', foldl_max_streams]
  simp

/-- `EncodingFactory::decode` of an RLE chunk of a type other than `bool`, read by `materialize`
calls: the calls run on `RLEEncoding<T>::RLEEncoding` of the chunk. -/
def rleRead (runLengthsEncoding : NestedEncoding UInt32) (valuesEncoding : NestedEncoding α)
    (fuel : ℕ) (chunk : List UInt8) (calls : List Call) : Option (List (List α)) :=
  runCalls valuesRunValues fuel calls (RLEEncoding.create runLengthsEncoding valuesEncoding chunk)

theorem readsAs_rleRead [DecidableEq α] {dataType : UInt8}
    {runLengthsEncoding : NestedEncoding UInt32} {valuesEncoding : NestedEncoding α} {V : List α}
    {fuel : ℕ} (hV : V.length < 2 ^ 32)
    (hsize : kPrefixSize + 4 +
      (runLengthsEncoding.encodeNested ((computeRuns V).1.map UInt32.ofNat)).length +
      (valuesEncoding.encodeNested (computeRuns V).2).length < 2 ^ 32)
    (hfuel : V.length ≤ fuel) :
    ReadsAs (rleRead runLengthsEncoding valuesEncoding fuel)
      (encode dataType runLengthsEncoding valuesEncoding.encodeNested V) V :=
  ⟨(runCalls_create_encode dataType runLengthsEncoding valuesEncoding V [] fuel hV hsize trivial
      hfuel).1,
    fun calls hcalls => (runCalls_create_encode dataType runLengthsEncoding valuesEncoding V calls
      fuel hV hsize hcalls hfuel).2⟩

/-- The content dump reads back what the writer's RLE encoder wrote: on a tablet where every
chunk of the stream is a payload `RLEEncodingBase::encode` made from some values, `emitContent`
over all stripes prints exactly those values, chunk by chunk and stripe by stripe, as long as
some stripe has the stream. -/
theorem emitContent_prints_rle_values [DecidableEq α] (dataType : UInt8)
    (runLengthsEncoding : NestedEncoding UInt32) (valuesEncoding : NestedEncoding α)
    (values : List UInt8 → List α) (tablet : Tablet) (streamId maxStreamCount fuel : ℕ)
    (hcount : 0 < tablet.stripeCount) (hsmall : tablet.stripeCount < 2 ^ 32)
    (hfuel : tablet.stripeCount ≤ fuel)
    (hrle : ∀ stripe ∈ tablet.stripes, ∀ chunks,
      (stripe.streams[streamId]?).bind TabletStream.chunks = some chunks → ∀ chunk ∈ chunks,
        chunk = encode dataType runLengthsEncoding valuesEncoding.encodeNested (values chunk) ∧
        (values chunk).length ≤ fuel ∧ (values chunk).length < 2 ^ 32 ∧
        kPrefixSize + 4 +
          (runLengthsEncoding.encodeNested
            ((computeRuns (values chunk)).1.map UInt32.ofNat)).length +
          (valuesEncoding.encodeNested (computeRuns (values chunk)).2).length < 2 ^ 32)
    (hfound : ∃ stripe ∈ tablet.stripes, streamId < stripe.streams.length) :
    emitContent (rleRead runLengthsEncoding valuesEncoding fuel) tablet streamId none
        maxStreamCount fuel =
      some (.ok (tablet.stripes.flatMap (stripeValues values streamId))) := by
  have hreads : ∀ stripe ∈ tablet.stripes,
      StreamReadsAs (rleRead runLengthsEncoding valuesEncoding fuel) values streamId fuel
        stripe := fun stripe hstripe chunks hchunks chunk hchunk => by
    obtain ⟨hencode, hfuel', hV, hsize⟩ := hrle stripe hstripe chunks hchunks chunk hchunk
    refine ⟨?_, by unfold kBufferSize; omega⟩
    nth_rewrite 1 [hencode]
    exact readsAs_rleRead hV hsize hfuel'
  rw [emitContent_of_readsAs _ _ tablet streamId maxStreamCount fuel hcount hsmall hfuel hreads,
    if_pos (List.any_eq_true.mpr (by simpa using hfound))]

theorem emitContent_prints_rle_values_example :
    let tablet : Tablet :=
      ⟨[⟨[⟨0, 0, some [encode 5 trivialUInt32 trivialUInt32.encodeNested [3, 3, 7]]⟩]⟩]⟩
    0 < tablet.stripeCount ∧ tablet.stripeCount < 2 ^ 32 ∧ tablet.stripeCount ≤ 3 ∧
      (∃ stripe ∈ tablet.stripes, 0 < stripe.streams.length) ∧
      emitContent (rleRead trivialUInt32 trivialUInt32 3) tablet 0 none 0 3 =
        some (.ok (tablet.stripes.flatMap (stripeValues (fun _ => [3, 3, 7]) 0))) :=
  have hrle : ∀ stripe ∈ [(⟨[⟨0, 0, some [encode 5 trivialUInt32 trivialUInt32.encodeNested
      [3, 3, 7]]⟩]⟩ : TabletStripe)], ∀ chunks,
      (stripe.streams[0]?).bind TabletStream.chunks = some chunks → ∀ chunk ∈ chunks,
        chunk = encode 5 trivialUInt32 trivialUInt32.encodeNested
          ((fun _ => [3, 3, 7]) chunk : List UInt32) ∧
        ((fun _ => [3, 3, 7]) chunk : List UInt32).length ≤ 3 ∧
        ((fun _ => [3, 3, 7]) chunk : List UInt32).length < 2 ^ 32 ∧
        kPrefixSize + 4 + (trivialUInt32.encodeNested
            ((computeRuns ((fun _ => [3, 3, 7]) chunk : List UInt32)).1.map UInt32.ofNat)).length +
          (trivialUInt32.encodeNested
            (computeRuns ((fun _ => [3, 3, 7]) chunk : List UInt32)).2).length < 2 ^ 32 := by
    intro stripe hstripe chunks hchunks chunk hchunk
    rw [List.mem_singleton] at hstripe
    subst hstripe
    cases hchunks
    rw [List.mem_singleton.mp hchunk]
    exact ⟨rfl, by decide, by decide, by decide⟩
  ⟨by decide, by decide, by decide, ⟨_, List.mem_singleton_self _, by decide⟩,
    emitContent_prints_rle_values 5 trivialUInt32 trivialUInt32 (fun _ => [3, 3, 7]) _ 0 0 3
      (by decide) (by decide) (by decide) hrle ⟨_, List.mem_singleton_self _, by decide⟩⟩

/-- When no stripe has the stream, `emitContent` throws, and the bound its message names is the
larger of the largest stream count and the value `maxStreamCount` started from: the source never
initialises it, so the message can name any number from the largest stream count up. -/
theorem emitContent_message_bound (read : List UInt8 → List Call → Option (List (List α)))
    (tablet : Tablet) (streamId maxStreamCount fuel : ℕ) (hcount : 0 < tablet.stripeCount)
    (hsmall : tablet.stripeCount < 2 ^ 32) (hfuel : tablet.stripeCount ≤ fuel)
    (hnone : ∀ stripe ∈ tablet.stripes, stripe.streams.length ≤ streamId) :
    emitContent read tablet streamId none maxStreamCount fuel =
      some (.error (outOfBoundMessage streamId
        (max maxStreamCount
          ((tablet.stripes.map fun stripe => stripe.streams.length).foldr max 0)))) := by
  have hreads : ∀ stripe ∈ tablet.stripes, StreamReadsAs read (fun _ => []) streamId fuel stripe :=
    fun stripe hstripe chunks hchunks => by
      rw [List.getElem?_eq_none (hnone stripe hstripe)] at hchunks
      cases hchunks
  rw [emitContent_of_readsAs read _ tablet streamId maxStreamCount fuel hcount hsmall hfuel hreads,
    if_neg]
  simpa using fun stripe hstripe => hnone stripe hstripe

theorem emitContent_message_bound_example :
    let tablet : Tablet := ⟨[⟨[⟨0, 0, none⟩, ⟨0, 0, none⟩]⟩]⟩
    0 < tablet.stripeCount ∧ tablet.stripeCount < 2 ^ 32 ∧ tablet.stripeCount ≤ 1 ∧
      (∀ stripe ∈ tablet.stripes, stripe.streams.length ≤ 5) ∧
      emitContent (fun _ _ => (none : Option (List (List UInt32)))) tablet 5 none 9 1 =
        some (.error (outOfBoundMessage 5
          (max 9 ((tablet.stripes.map fun stripe => stripe.streams.length).foldr max 0)))) :=
  ⟨by decide, by decide, le_rfl, by decide,
    emitContent_message_bound _ _ 5 9 1 (by decide) (by decide) le_rfl (by decide)⟩

end Content

section Content

variable {α : Type}

theorem emitContent_some_of_readsAs (read : List UInt8 → List Call → Option (List (List α)))
    (values : List UInt8 → List α) (tablet : Tablet) (streamId stripeId maxStreamCount fuel : ℕ)
    {stripe : TabletStripe} (hstripe : tablet.stripes[stripeId]? = some stripe)
    (hsmall : tablet.stripeCount < 2 ^ 32)
    (hreads : StreamReadsAs read values streamId (fuel + 1) stripe)
    (hstream : streamId < stripe.streams.length) :
    emitContent read tablet streamId (some stripeId) maxStreamCount (fuel + 1) =
      some (.ok (stripeValues values streamId stripe)) := by
  obtain ⟨hid, -⟩ := List.getElem?_eq_some_iff.mp hstripe
  rw [emitContent, traverseTablet_some fuel (by unfold Tablet.stripeCount at hsmall; omega)]
  dsimp only
  rw [if_pos rfl, List.foldlM_cons, hstripe, Option.some_bind, contentStripe_of_readsAs hreads]
  simp [hstream]

theorem sum_rowCount_of_readsAs {read : List UInt8 → List Call → Option (List (List α))}
    {values : List UInt8 → List α} {chunks : List (List UInt8)}
    (h : ∀ chunk ∈ chunks, ReadsAs read chunk (values chunk)) :
    (chunks.map rowCount).sum = (chunks.flatMap values).length := by
  rw [List.length_flatMap]
  congr 1
  exact List.map_congr_left fun chunk hchunk => (h chunk hchunk).1

/-- The two dumps agree: on a tablet whose chunks begin with encoding prefixes and decode as their
`values`, every row `emitStreams` writes has as `Item Count` the number of rows, modulo `2 ^ 32`,
that `emitContent` prints for the row's stream and stripe. -/
theorem emitStreams_item_count_eq_content
    (read : List UInt8 → List Call → Option (List (List α))) (values : List UInt8 → List α)
    (tablet : Tablet) (maxStreamCount fuel : ℕ) (hcount : 0 < tablet.stripeCount)
    (hsmall : tablet.stripeCount < 2 ^ 32) (hfuel : tablet.stripeCount ≤ fuel)
    (hprefixed : ∀ stripe ∈ tablet.stripes, ∀ stream ∈ stripe.streams, ∀ chunks,
      stream.chunks = some chunks → ∀ chunk ∈ chunks, Prefixed chunk)
    (hreads : ∀ stripe ∈ tablet.stripes, ∀ streamId,
      StreamReadsAs read values streamId fuel stripe) :
    ∃ rows, emitStreams tablet none fuel = some rows ∧
      ∀ row ∈ rows, ∃ printed,
        emitContent read tablet row.streamId (some row.stripeId) maxStreamCount fuel =
          some (.ok printed) ∧ row.itemCount = printed.length % 2 ^ 32 := by
  refine ⟨tablet.stripes.enum.flatMap fun (stripeId, stripe) => expectedStreamRows stripeId stripe,
    ?_, fun row hrow => ?_⟩
  · rw [emitStreams_none hcount hsmall hfuel, mapM_range_stripes tablet.stripes _
      (fun stripeId stripe => expectedStreamRows stripeId stripe)
      fun i hi => streamRows_of_prefixed i _ 0 (hprefixed _ (List.getElem_mem hi))]
    rfl
  obtain ⟨⟨stripeId, stripe⟩, hstripe, hrow⟩ := List.mem_flatMap.mp hrow
  obtain ⟨⟨streamId, stream⟩, hstream, hrow⟩ := List.mem_filterMap.mp hrow
  obtain ⟨chunks, hchunks, rfl⟩ := Option.map_eq_some'.mp hrow
  rw [List.mk_mem_enum_iff_getElem?] at hstripe hstream
  have hreads' := hreads stripe (List.getElem?_mem hstripe) streamId
  have hbind : (stripe.streams[streamId]?).bind TabletStream.chunks = some chunks := by
    rw [hstream, Option.some_bind, hchunks]
  obtain ⟨fuel, rfl⟩ : ∃ fuel', fuel = fuel' + 1 := ⟨fuel - 1, by omega⟩
  refine ⟨_, emitContent_some_of_readsAs read values tablet streamId stripeId maxStreamCount fuel
    hstripe hsmall hreads' (List.getElem?_eq_some_iff.mp hstream).1, ?_⟩
  rw [stripeValues, hbind, ← sum_rowCount_of_readsAs fun chunk hchunk =>
    (hreads' chunks hbind chunk hchunk).1]

theorem emitStreams_item_count_eq_content_example :
    let tablet : Tablet :=
      ⟨[⟨[⟨0, 0, some [encode 5 trivialUInt32 trivialUInt32.encodeNested [3, 3, 7]]⟩]⟩]⟩
    let values : List UInt8 → List UInt32 := fun _ => [3, 3, 7]
    0 < tablet.stripeCount ∧ tablet.stripeCount < 2 ^ 32 ∧ tablet.stripeCount ≤ 1 ∧
      (∀ stripe ∈ tablet.stripes, ∀ stream ∈ stripe.streams, ∀ chunks,
        stream.chunks = some chunks → ∀ chunk ∈ chunks, Prefixed chunk) ∧
      (∀ stripe ∈ tablet.stripes, ∀ streamId,
        StreamReadsAs (rleRead trivialUInt32 trivialUInt32 3) values streamId 1 stripe) ∧
      ∃ rows, emitStreams tablet none 1 = some rows ∧
        ∀ row ∈ rows, ∃ printed,
          emitContent (rleRead trivialUInt32 trivialUInt32 3) tablet row.streamId
              (some row.stripeId) 0 1 = some (.ok printed) ∧
            row.itemCount = printed.length % 2 ^ 32 :=
  have hprefixed : ∀ stripe ∈ [(⟨[⟨0, 0, some [encode 5 trivialUInt32
      trivialUInt32.encodeNested [3, 3, 7]]⟩]⟩ : TabletStripe)], ∀ stream ∈ stripe.streams,
      ∀ chunks, stream.chunks = some chunks → ∀ chunk ∈ chunks, Prefixed chunk := by
    intro stripe hstripe stream hstream chunks hchunks chunk hchunk
    rw [List.mem_singleton] at hstripe
    subst hstripe
    rw [List.mem_singleton.mp hstream] at hchunks
    cases hchunks
    rw [List.mem_singleton.mp hchunk]
    exact ⟨.rle, 5, 3, (encode 5 trivialUInt32 trivialUInt32.encodeNested [3, 3, 7]).drop 6,
      by decide⟩
  have hreads : ∀ stripe ∈ [(⟨[⟨0, 0, some [encode 5 trivialUInt32
      trivialUInt32.encodeNested [3, 3, 7]]⟩]⟩ : TabletStripe)], ∀ streamId,
      StreamReadsAs (rleRead trivialUInt32 trivialUInt32 3) (fun _ => [3, 3, 7]) streamId 1
        stripe := by
    intro stripe hstripe streamId chunks hchunks chunk hchunk
    rw [List.mem_singleton] at hstripe
    subst hstripe
    cases streamId with
    | zero =>
      cases hchunks
      rw [List.mem_singleton.mp hchunk]
      exact ⟨readsAs_rleRead (by decide) (by decide) (by decide), by decide⟩
    | succ streamId => cases hchunks
  ⟨by decide, by decide, le_rfl, hprefixed, hreads,
    emitStreams_item_count_eq_content _ _ _ 0 1 (by decide) (by decide) le_rfl hprefixed hreads⟩

end Content

end Nimble.NimbleDump
