import Nimble.Tools.TabletDump

/-! # The data the encoding layout trainer trains on

`EncodingLayoutTrainer::train` loads every stream of every stripe of its file, and the task of a
stream descriptor collects, in file order, the stream at the descriptor's offset from each stripe
that has it. `trainEncoding` decodes every chunk of those streams in full, concatenates the rows,
and hands them to the encoding selection policy. The rows it trains on are the ones the dump
tool's content view prints for the same stream (`trainEncoding_matches_emitContent`).
-/

namespace Nimble.EncodingLayoutTrainer

open Encoding Rle NimbleDump

variable {α Layout : Type}

/-- The streams the task of a descriptor at `offset` hands to `trainEncoding`: from each stripe,
the stream at `offset` when `stripeStream.size() > offset` and its loader is not null. -/
def trainingStreams (tablet : Tablet) (offset : ℕ) : List (List (List UInt8)) :=
  tablet.stripes.filterMap fun stripe => (stripe.streams[offset]?).bind TabletStream.chunks

/-- `trainEncoding<T>`: every chunk of every stream decoded by `EncodingFactory::decode` and
materialized in one call of `rowCount()` rows (`read`), the rows concatenated in order, and
`select` (`EncodingFactory::encode` with the policy, then `EncodingLayoutCapture::capture`) of the
result. -/
def trainEncoding (read : List UInt8 → List Call → Option (List (List α)))
    (select : List α → Layout) (streams : List (List (List UInt8))) : Option Layout := do
  let chunks ← streams.flatten.mapM fun chunk =>
    (read chunk [.materialize (rowCount chunk)]).map List.flatten
  pure (select chunks.flatten)

theorem read_materialize_of_readsAs {read : List UInt8 → List Call → Option (List (List α))}
    {chunk : List UInt8} {V : List α} (h : ReadsAs read chunk V) :
    (read chunk [.materialize (rowCount chunk)]).map List.flatten = some V := by
  obtain ⟨hrow, hread⟩ := h
  obtain ⟨hwithin, hflat⟩ := readCalls_batches V [V.length] 0 (by simp)
  rw [hrow, ← List.map_singleton, hread _ hwithin, Option.map_some', hflat, List.drop_zero,
    List.sum_singleton, List.take_length]

theorem flatten_map_trainingStreams (values : List UInt8 → List α) (offset : ℕ) :
    ∀ stripes : List TabletStripe,
      ((trainingStreams ⟨stripes⟩ offset).flatten.map values).flatten =
        stripes.flatMap (stripeValues values offset)
  | [] => rfl
  | stripe :: stripes => by
    have ih := flatten_map_trainingStreams values offset stripes
    unfold trainingStreams at ih ⊢
    rw [List.filterMap_cons, List.flatMap_cons, ← ih, stripeValues]
    cases (stripe.streams[offset]?).bind TabletStream.chunks with
    | none => rfl
    | some chunks => simp [List.flatMap]

/-- The trainer trains a descriptor's layout on what the dump prints for its stream: on a tablet
whose chunks of the stream each decode as their `values`, `emitContent` over all stripes prints
the values of the stream's chunks stripe by stripe, as long as some stripe has the stream, and
`trainEncoding` selects a layout for exactly those values. -/
theorem trainEncoding_matches_emitContent
    (read : List UInt8 → List Call → Option (List (List α))) (values : List UInt8 → List α)
    (select : List α → Layout) (tablet : Tablet) (offset maxStreamCount fuel : ℕ)
    (hcount : 0 < tablet.stripeCount) (hsmall : tablet.stripeCount < 2 ^ 32)
    (hfuel : tablet.stripeCount ≤ fuel)
    (hreads : ∀ stripe ∈ tablet.stripes, StreamReadsAs read values offset fuel stripe)
    (hfound : ∃ stripe ∈ tablet.stripes, offset < stripe.streams.length) :
    emitContent read tablet offset none maxStreamCount fuel =
        some (.ok (tablet.stripes.flatMap (stripeValues values offset))) ∧
      trainEncoding read select (trainingStreams tablet offset) =
        some (select (tablet.stripes.flatMap (stripeValues values offset))) := by
  refine ⟨?_, ?_⟩
  · rw [emitContent_of_readsAs read values tablet offset maxStreamCount fuel hcount hsmall hfuel
      hreads, if_pos (List.any_eq_true.mpr (by simpa using hfound))]
  · have hchunks : ∀ chunk ∈ (trainingStreams tablet offset).flatten,
        (read chunk [.materialize (rowCount chunk)]).map List.flatten = some (values chunk) := by
      intro chunk hchunk
      obtain ⟨chunks, hmem, hin⟩ := List.mem_flatten.mp hchunk
      obtain ⟨stripe, hstripe, hstream⟩ := List.mem_filterMap.mp hmem
      exact read_materialize_of_readsAs (hreads stripe hstripe chunks hstream chunk hin).1
    rw [trainEncoding, mapM_eq_some_map _ hchunks, Option.bind_eq_bind, Option.some_bind,
      ← flatten_map_trainingStreams values offset tablet.stripes]
    rfl

theorem trainEncoding_matches_emitContent_example :
    let tablet : Tablet :=
      ⟨[⟨[⟨0, 0, some [encode 5 trivialUInt32 trivialUInt32.encodeNested [3, 3, 7]]⟩]⟩]⟩
    let values : List UInt8 → List UInt32 := fun _ => [3, 3, 7]
    0 < tablet.stripeCount ∧ tablet.stripeCount < 2 ^ 32 ∧ tablet.stripeCount ≤ 3 ∧
      (∀ stripe ∈ tablet.stripes,
        StreamReadsAs (rleRead trivialUInt32 trivialUInt32 3) values 0 3 stripe) ∧
      (∃ stripe ∈ tablet.stripes, 0 < stripe.streams.length) ∧
      emitContent (rleRead trivialUInt32 trivialUInt32 3) tablet 0 none 0 3 =
          some (.ok (tablet.stripes.flatMap (stripeValues values 0))) ∧
        trainEncoding (rleRead trivialUInt32 trivialUInt32 3) id (trainingStreams tablet 0) =
          some (id (tablet.stripes.flatMap (stripeValues values 0))) :=
  have hreads : ∀ stripe ∈ [(⟨[⟨0, 0, some [encode 5 trivialUInt32 trivialUInt32.encodeNested
      [3, 3, 7]]⟩]⟩ : TabletStripe)],
      StreamReadsAs (rleRead trivialUInt32 trivialUInt32 3) (fun _ => [3, 3, 7]) 0 3 stripe := by
    intro stripe hstripe chunks hchunks chunk hchunk
    rw [List.mem_singleton] at hstripe
    subst hstripe
    cases hchunks
    rw [List.mem_singleton.mp hchunk]
    exact ⟨readsAs_rleRead (by decide) (by decide) (by decide), by decide⟩
  ⟨by decide, by decide, by decide, hreads, ⟨_, List.mem_singleton_self _, by decide⟩,
    trainEncoding_matches_emitContent _ _ id _ 0 0 3 (by decide) (by decide) (by decide) hreads
      ⟨_, List.mem_singleton_self _, by decide⟩⟩

end Nimble.EncodingLayoutTrainer
