import Nimble.Encodings.RleDecoding

/-! # The RLE payload round trip

`encode` lays a payload out as the prefix, the run-length encoding behind its `u32` size, and the
run values; the constructors read the size back, cut the two views and decode them. With the
nested encodings lossless, the views are what `encode` wrote, the decoded runs are `computeRuns`
of the input, and the decoder of the previous module reads the input back under any calls.
The `u32` fields hold what they must as long as the input has fewer than `2 ^ 32` values and the
payload's `uint32_t` size does not wrap. At `2 ^ 32` equal values the row count and the one run
length both wrap to `0`, and a call that asks for a row never returns
(`rle_payload_round_trip_wraps`).
-/

namespace Nimble.Rle

open Nimble.Encoding

variable {α : Type}

theorem payload_views {pre rlb rvb : List UInt8} (hpre : pre.length = kPrefixSize)
    (hrlb : rlb.length < 2 ^ 32) :
    runLengthsView (pre ++ writeString rlb ++ rvb) = rlb ∧
      getValuesStart (pre ++ writeString rlb ++ rvb) = kPrefixSize + 4 + rlb.length ∧
      (pre ++ writeString rlb ++ rvb).drop (kPrefixSize + 4 + rlb.length) = rvb := by
  have hbody : (pre ++ writeString rlb ++ rvb).drop kPrefixSize =
      writeLE 4 rlb.length ++ (rlb ++ rvb) := by
    simp only [writeString, List.append_assoc, List.drop_left' hpre]
  have hsize : runLengthsSize (pre ++ writeString rlb ++ rvb) = rlb.length := by
    rw [runLengthsSize, hbody, List.take_left' (length_writeLE 4 _), readLE_writeLE,
      Nat.mod_eq_of_lt (by omega)]
  have hrest : (pre ++ writeString rlb ++ rvb).drop (kPrefixSize + 4) = rlb ++ rvb := by
    rw [← List.drop_drop, hbody, List.drop_left' (length_writeLE 4 _)]
  refine ⟨?_, by rw [getValuesStart, hsize], ?_⟩
  · rw [runLengthsView, hsize, hrest, List.take_left' rfl]
  · rw [← List.drop_drop, hrest, List.drop_left' rfl]

variable [DecidableEq α]

theorem map_toNat_runLengths {V : List α} (hV : V.length < 2 ^ 32) :
    ((computeRuns V).1.map UInt32.ofNat).map UInt32.toNat = (computeRuns V).1 := by
  conv_rhs => rw [← List.map_id (computeRuns V).1]
  rw [List.map_map]
  exact List.map_congr_left fun l hl =>
    UInt32.toNat_ofNat_of_lt (lt_of_le_of_lt ((computeRuns_le V).1 l hl) hV)

theorem encode_eq (dataType : UInt8) (runLengthsEncoding : NestedEncoding UInt32)
    (getSerializedRunValues : List α → List UInt8) (V : List α)
    (hsize : kPrefixSize + 4 +
      (runLengthsEncoding.encodeNested ((computeRuns V).1.map UInt32.ofNat)).length +
      (getSerializedRunValues (computeRuns V).2).length < 2 ^ 32) :
    encode dataType runLengthsEncoding getSerializedRunValues V =
      serializePrefix .rle dataType V.length ++
        writeString (runLengthsEncoding.encodeNested ((computeRuns V).1.map UInt32.ofNat)) ++
        getSerializedRunValues (computeRuns V).2 := by
  rw [encode, Nat.mod_eq_of_lt hsize]
  exact List.take_of_length_le (by simp [kPrefixSize]; omega)

theorem sum_runLengths (V : List α) (hV : V.length < 2 ^ 32) :
    (((computeRuns V).1.map UInt32.ofNat).map UInt32.toNat).sum = V.length := by
  rw [map_toNat_runLengths hV, ← length_expand (computeRuns_length_eq V), expand_computeRuns]

theorem runCalls_create_encode (dataType : UInt8) (runLengthsEncoding : NestedEncoding UInt32)
    (valuesEncoding : NestedEncoding α) (V : List α) (calls : List Call) (fuel : ℕ)
    (hV : V.length < 2 ^ 32)
    (hsize : kPrefixSize + 4 +
      (runLengthsEncoding.encodeNested ((computeRuns V).1.map UInt32.ofNat)).length +
      (valuesEncoding.encodeNested (computeRuns V).2).length < 2 ^ 32)
    (hcalls : Within V.length calls 0) (hfuel : V.length ≤ fuel) :
    rowCount (encode dataType runLengthsEncoding valuesEncoding.encodeNested V) = V.length ∧
    runCalls valuesRunValues fuel calls (RLEEncoding.create runLengthsEncoding valuesEncoding
        (encode dataType runLengthsEncoding valuesEncoding.encodeNested V)) =
      some (readCalls V calls 0) := by
  rw [encode_eq dataType runLengthsEncoding _ V hsize]
  obtain ⟨hview, hstart, hvals⟩ := @payload_views _
    (runLengthsEncoding.encodeNested ((computeRuns V).1.map UInt32.ofNat))
    (valuesEncoding.encodeNested (computeRuns V).2)
    (length_serializePrefix .rle dataType V.length) (by omega)
  refine ⟨by rw [List.append_assoc, rowCount_serializePrefix, Nat.mod_eq_of_lt hV], ?_⟩
  rw [RLEEncoding.create, hview, hstart, hvals]
  have hLW : ((computeRuns V).1.map UInt32.ofNat).length = (computeRuns V).2.length := by
    simpa using computeRuns_length_eq V
  rw [runCalls_ofDecoded hLW (fun i h => runLengthsEncoding.decode_encodeNested _ i h)
      (fun i h => valuesEncoding.decode_encodeNested _ i h) (by rwa [sum_runLengths V hV])
      (by simpa using (computeRuns_le V).2.trans hfuel),
    map_toNat_runLengths hV, expand_computeRuns]

theorem runCalls_createBool_encode (dataType : UInt8) (runLengthsEncoding : NestedEncoding UInt32)
    (V : List Bool) (calls : List Call) (fuel : ℕ) (hV0 : V ≠ []) (hV : V.length < 2 ^ 32)
    (hsize : kPrefixSize + 4 +
      (runLengthsEncoding.encodeNested ((computeRuns V).1.map UInt32.ofNat)).length + 1 < 2 ^ 32)
    (hcalls : Within V.length calls 0) (hfuel : V.length ≤ fuel) :
    rowCount (encode dataType runLengthsEncoding getSerializedRunValuesBool V) = V.length ∧
    ∃ e, RLEEncoding.createBool runLengthsEncoding
        (encode dataType runLengthsEncoding getSerializedRunValuesBool V) = .ok e ∧
      runCalls boolRunValues fuel calls e = some (readCalls V calls 0) := by
  rw [encode_eq dataType runLengthsEncoding _ V (by simpa [getSerializedRunValuesBool] using hsize)]
  obtain ⟨hview, hstart, hvals⟩ := @payload_views _
    (runLengthsEncoding.encodeNested ((computeRuns V).1.map UInt32.ofNat))
    (getSerializedRunValuesBool (computeRuns V).2)
    (length_serializePrefix .rle dataType V.length) (by omega)
  refine ⟨by rw [List.append_assoc, rowCount_serializePrefix, Nat.mod_eq_of_lt hV], ?_⟩
  obtain ⟨b, ws, hws⟩ : ∃ b ws, (computeRuns V).2 = b :: ws :=
    List.exists_cons_of_ne_nil fun h => by
      simpa [h] using (head_computeRuns V).trans (List.head?_eq_head hV0)
  have hfirst : ((serializePrefix .rle dataType V.length ++ writeString
      (runLengthsEncoding.encodeNested ((computeRuns V).1.map UInt32.ofNat)) ++
      getSerializedRunValuesBool (computeRuns V).2).getD (kPrefixSize + 4 +
        (runLengthsEncoding.encodeNested ((computeRuns V).1.map UInt32.ofNat)).length) 0 != 0) =
        b := by
    rw [List.getD_eq_getElem?_getD, ← Nat.add_zero (kPrefixSize + 4 + _), ← List.getElem?_drop,
      hvals, hws]
    cases b <;> rfl
  refine ⟨_, by rw [RLEEncoding.createBool, hstart, hview, hfirst,
    if_pos (by simp [getSerializedRunValuesBool]; omega)], ?_⟩
  have hLW : ((computeRuns V).1.map UInt32.ofNat).length = (b :: ws).length := by
    simpa [hws] using computeRuns_length_eq V
  have halt := map_alternate_of_chain_ne (hws ▸ computeRuns_chain V)
  rw [runCalls_ofDecodedBool (fun i h => runLengthsEncoding.decode_encodeNested _ i h)
      (by rwa [sum_runLengths V hV]) (by simpa using (computeRuns_le V).2.trans hfuel),
    map_toNat_runLengths hV, hLW, halt, ← hws, expand_computeRuns]

/-- Modelled from the spec: the body of a `Trivial` encoding of `uint32` values, each packed
little-endian in four bytes, as a nested encoding. -/
def trivialUInt32 : NestedEncoding UInt32 where
  encodeNested xs := xs.flatMap fun x => writeLE 4 x.toNat
  decode bytes i := UInt32.ofNat (readLE ((bytes.drop (4 * i)).take 4))
  decode_encodeNested xs i h := by
    have hdrop : ∀ (ys : List UInt32) j, (ys.flatMap fun x => writeLE 4 x.toNat).drop (4 * j) =
        (ys.drop j).flatMap fun x => writeLE 4 x.toNat := by
      intro ys
      induction ys with
      | nil => simp
      | cons y ys ih =>
        rintro (_ | j)
        · rfl
        · rw [List.flatMap_cons, Nat.mul_succ, Nat.add_comm, ← List.drop_drop,
            List.drop_left' (length_writeLE 4 _), ih]; rfl
    simp only [hdrop, List.drop_eq_getElem_cons h, List.flatMap_cons,
      List.take_left' (length_writeLE 4 _), readLE_writeLE]
    have hx : xs[i].toNat < 256 ^ 4 := xs[i].toNat_lt_size
    rw [Nat.mod_eq_of_lt hx]
    exact UInt32.toNat.inj (UInt32.toNat_ofNat_of_lt hx)

/-- The RLE round trip. For every value type and every sequence `V` (for `bool`, nonempty) of
fewer than `2 ^ 32` values whose payload size fits its `uint32_t`, the decoder constructed over
`encode V` reports `V.length` rows, and under every sequence of `materialize`, `skip` and `reset`
calls that stays within them each `materialize` writes the next values of `V`. -/
theorem rle_payload_round_trip :
    (∀ {α : Type} [DecidableEq α] (dataType : UInt8) (runLengthsEncoding : NestedEncoding UInt32)
        (valuesEncoding : NestedEncoding α) (V : List α) (calls : List Call) (fuel : ℕ),
      V.length < 2 ^ 32 →
      kPrefixSize + 4 +
        (runLengthsEncoding.encodeNested ((computeRuns V).1.map UInt32.ofNat)).length +
        (valuesEncoding.encodeNested (computeRuns V).2).length < 2 ^ 32 →
      Within V.length calls 0 → V.length ≤ fuel →
      rowCount (encode dataType runLengthsEncoding valuesEncoding.encodeNested V) = V.length ∧
      runCalls valuesRunValues fuel calls (RLEEncoding.create runLengthsEncoding valuesEncoding
          (encode dataType runLengthsEncoding valuesEncoding.encodeNested V)) =
        some (readCalls V calls 0)) ∧
    (∀ (dataType : UInt8) (runLengthsEncoding : NestedEncoding UInt32) (V : List Bool)
        (calls : List Call) (fuel : ℕ),
      V ≠ [] → V.length < 2 ^ 32 →
      kPrefixSize + 4 +
        (runLengthsEncoding.encodeNested ((computeRuns V).1.map UInt32.ofNat)).length + 1 <
          2 ^ 32 →
      Within V.length calls 0 → V.length ≤ fuel →
      rowCount (encode dataType runLengthsEncoding getSerializedRunValuesBool V) = V.length ∧
      ∃ e, RLEEncoding.createBool runLengthsEncoding
          (encode dataType runLengthsEncoding getSerializedRunValuesBool V) = .ok e ∧
        runCalls boolRunValues fuel calls e = some (readCalls V calls 0)) :=
  ⟨fun dataType rle ve V calls fuel hV hsize hcalls hfuel =>
      runCalls_create_encode dataType rle ve V calls fuel hV hsize hcalls hfuel,
    fun dataType rle V calls fuel hV0 hV hsize hcalls hfuel =>
      runCalls_createBool_encode dataType rle V calls fuel hV0 hV hsize hcalls hfuel⟩

theorem rle_payload_round_trip_example :
    Within 6 [.materialize 2, .skip 2, .materialize 2, .reset, .materialize 6] 0 ∧
    runCalls valuesRunValues 6 [.materialize 2, .skip 2, .materialize 2, .reset, .materialize 6]
        (RLEEncoding.create trivialUInt32 trivialUInt32
          (encode 6 trivialUInt32 trivialUInt32.encodeNested [3, 3, 3, 7, 7, 3])) =
      some [[3, 3], [7, 3], [3, 3, 3, 7, 7, 3]] ∧
    ∃ e, RLEEncoding.createBool trivialUInt32
        (encode 11 trivialUInt32 getSerializedRunValuesBool [true, true, true, false, false, true]) =
        .ok e ∧ runCalls boolRunValues 6 [.skip 4, .materialize 2] e = some [[false, true]] := by
  refine ⟨by decide, ?_, ?_⟩
  · exact (rle_payload_round_trip.1 6 trivialUInt32 trivialUInt32 [3, 3, 3, 7, 7, 3] _ 6
      (by decide) (by decide) (by decide) (by decide)).2
  · exact (rle_payload_round_trip.2 11 trivialUInt32 [true, true, true, false, false, true]
      [.skip 4, .materialize 2] 6 (by decide) (by decide) (by decide) (by decide)
      (by decide)).2

theorem computeRuns_replicate (v : α) {n : ℕ} (hn : 0 < n) :
    computeRuns (List.replicate n v) = ([n], [v]) := by
  induction n with
  | zero => omega
  | succ n ih =>
    rcases Nat.eq_zero_or_pos n with rfl | hpos
    · rfl
    · show computeRuns (v :: List.replicate n v) = _
      rw [computeRuns, ih hpos]
      simp

/-- The round trip fails at `2 ^ 32` equal values: `V.length` wraps to `0` in both `uint32_t` fields
that hold it, the prefix's row count and the single run length. The call `materialize(1)` stays
within `V`, yet it finds only empty runs, and with no amount of fuel does it return. -/
theorem rle_payload_round_trip_wraps :
    Within (List.replicate (2 ^ 32) (7 : UInt32)).length [.materialize 1] 0 ∧
      rowCount (encode 5 trivialUInt32 trivialUInt32.encodeNested
        (List.replicate (2 ^ 32) (7 : UInt32))) = 0 ∧
      ∀ fuel, runCalls valuesRunValues fuel [.materialize 1]
        (RLEEncoding.create trivialUInt32 trivialUInt32
          (encode 5 trivialUInt32 trivialUInt32.encodeNested
            (List.replicate (2 ^ 32) (7 : UInt32)))) = none := by
  have hV : (List.replicate (2 ^ 32) (7 : UInt32)).length = 2 ^ 32 := List.length_replicate _ _
  have hruns : computeRuns (List.replicate (2 ^ 32) (7 : UInt32)) = ([2 ^ 32], [7]) :=
    computeRuns_replicate 7 (by norm_num)
  have hdata : encode 5 trivialUInt32 trivialUInt32.encodeNested
      (List.replicate (2 ^ 32) (7 : UInt32)) =
        serializePrefix .rle 5 (2 ^ 32) ++
          writeString (trivialUInt32.encodeNested [UInt32.ofNat (2 ^ 32)]) ++
          trivialUInt32.encodeNested [7] := by
    rw [encode_eq 5 trivialUInt32 _ _ (by rw [hruns]; decide), hruns, hV]
    rfl
  have hview : runLengthsView (serializePrefix .rle 5 (2 ^ 32) ++
      writeString (trivialUInt32.encodeNested [UInt32.ofNat (2 ^ 32)]) ++
      trivialUInt32.encodeNested [7]) = [0, 0, 0, 0] := by decide
  have hempty : ∀ j, (trivialUInt32.decode [0, 0, 0, 0] j).toNat = 0 := by
    rintro (_ | j)
    · rfl
    · show (UInt32.ofNat (readLE ((List.drop (4 * (j + 1)) [0, 0, 0, 0]).take 4))).toNat = 0
      rw [List.drop_eq_nil_of_le (by simp)]
      rfl
  refine ⟨by rw [hV]; exact ⟨by norm_num, trivial⟩, by rw [hdata]; decide, fun fuel => ?_⟩
  rw [hdata, runCalls, materialize, RLEEncoding.create, hview,
    materializeLoop_of_empty_runs valuesRunValues one_ne_zero fuel _ (hempty 0)
      fun j _ => hempty j]
  rfl

end Nimble.Rle
