import Nimble.Common.Rle
import Nimble.Common.EncodingPrimitives

/-! # RLE encoding

`RLEEncodingBase` decodes by keeping the run it is in (`copiesRemaining_`, `currentValue_`)
and, when the run is used up, reading the next run length from the nested run-length encoding
and the next run value through the CRTP's `nextValue`. Both nested streams are read through a
`detail::BufferedEncoding`, modelled as the values the nested encoding decodes to and a read
position. The loops read the next run as soon as a run is used up, so at the end of the data they
read one run past the last; what a nested stream returns there is left open.

`materialize` and `skip` share one loop; `fuel` bounds the number of runs one call may move past,
and a call that runs out of it returns `none`.
-/

namespace Nimble.Rle

open Nimble.Encoding

/-- `detail::BufferedEncoding`: the values of the nested encoding and the position to read. -/
structure BufferedEncoding (β : Type) where
  decoded : ℕ → β
  position : ℕ

namespace BufferedEncoding

variable {β : Type}

def nextValue (b : BufferedEncoding β) : β × BufferedEncoding β :=
  (b.decoded b.position, { b with position := b.position + 1 })

def reset (b : BufferedEncoding β) : BufferedEncoding β := { b with position := 0 }

@[simp] theorem nextValue_fst (b : BufferedEncoding β) : b.nextValue.1 = b.decoded b.position :=
  rfl
@[simp] theorem nextValue_snd (d : ℕ → β) (p : ℕ) :
    (BufferedEncoding.mk d p).nextValue.2 = ⟨d, p + 1⟩ := rfl
@[simp] theorem reset_mk (d : ℕ → β) (p : ℕ) :
    (BufferedEncoding.mk d p).reset = ⟨d, 0⟩ := rfl

end BufferedEncoding

/-- What `RLEEncodingBase` reaches through the CRTP: the derived class's `nextValue` and
`resetValues` over its own state `σ`. A reset forgets every read. -/
structure RunValues (σ α : Type) where
  nextValue : σ → α × σ
  resetValues : σ → σ
  resetValues_nextValue : ∀ s, resetValues (nextValue s).2 = resetValues s
  resetValues_resetValues : ∀ s, resetValues (resetValues s) = resetValues s

variable {σ α : Type}

def RunValues.iterate (d : RunValues σ α) (s : σ) : ℕ → σ
  | 0 => s
  | i + 1 => (d.nextValue (d.iterate s i)).2

def RunValues.valueAt (d : RunValues σ α) (s : σ) (i : ℕ) : α := (d.nextValue (d.iterate s i)).1

theorem RunValues.resetValues_iterate (d : RunValues σ α) (s : σ) (i : ℕ) :
    d.resetValues (d.iterate s i) = d.resetValues s := by
  induction i with
  | zero => rfl
  | succ i ih => rw [iterate, d.resetValues_nextValue, ih]

/-- `RLEEncoding<T>` for numeric and string `T`: the run values are a nested encoding too. -/
def valuesRunValues : RunValues (BufferedEncoding α) α where
  nextValue := BufferedEncoding.nextValue
  resetValues := BufferedEncoding.reset
  resetValues_nextValue _ := rfl
  resetValues_resetValues _ := rfl

/-- `RLEEncoding<bool>`, whose state is its members `initialValue_` and `value_`: `nextValue`
flips `value_` and returns its old value, and `resetValues` restores `initialValue_`. -/
def boolRunValues : RunValues (Bool × Bool) Bool where
  nextValue s := (s.2, (s.1, !s.2))
  resetValues s := (s.1, s.1)
  resetValues_nextValue _ := rfl
  resetValues_resetValues _ := rfl

@[simp] theorem valuesRunValues_iterate (b : BufferedEncoding α) (i : ℕ) :
    valuesRunValues.iterate b i = ⟨b.decoded, b.position + i⟩ := by
  induction i with
  | zero => rfl
  | succ i ih =>
    rw [RunValues.iterate, ih]
    rfl

@[simp] theorem valuesRunValues_valueAt (b : BufferedEncoding α) (i : ℕ) :
    valuesRunValues.valueAt b i = b.decoded (b.position + i) := by
  rw [RunValues.valueAt, valuesRunValues_iterate]; rfl

theorem boolRunValues_iterate (initialValue b : Bool) (i : ℕ) :
    boolRunValues.iterate (initialValue, b) i = (initialValue, alternate b i) := by
  induction i with
  | zero => rfl
  | succ i ih =>
    rw [RunValues.iterate, ih, alternate_succ, alternate_not]
    rfl

theorem boolRunValues_valueAt (initialValue b : Bool) (i : ℕ) :
    boolRunValues.valueAt (initialValue, b) i = alternate b i := by
  rw [RunValues.valueAt, boolRunValues_iterate]; rfl

/-- The state of `RLEEncodingBase`. -/
structure RLEEncodingBase (σ α : Type) where
  copiesRemaining : ℕ
  currentValue : α
  materializedRunLengths : BufferedEncoding UInt32
  derived : σ

variable (d : RunValues σ α)

/-- `copiesRemaining_ = materializedRunLengths_.nextValue(); currentValue_ = nextValue();`,
the two statements that load the next run. -/
def loadRun (runLengths : BufferedEncoding UInt32) (derived : σ) : RLEEncodingBase σ α :=
  ⟨(runLengths.nextValue.1).toNat, (d.nextValue derived).1, runLengths.nextValue.2,
    (d.nextValue derived).2⟩

/-- `RLEEncodingBase::reset`: rewind both nested streams and load the first run. -/
def reset (runLengths : BufferedEncoding UInt32) (derived : σ) : RLEEncodingBase σ α :=
  loadRun d runLengths.reset (d.resetValues derived)

/-- The loop of `RLEEncodingBase::materialize`: the values written, and the state after. -/
def materializeLoop : ℕ → RLEEncodingBase σ α → ℕ → Option (List α × RLEEncodingBase σ α)
  | rowsLeft, s, fuel =>
    if rowsLeft = 0 then some ([], s)
    else if rowsLeft < s.copiesRemaining then
      some (List.replicate rowsLeft s.currentValue,
        { s with copiesRemaining := s.copiesRemaining - rowsLeft })
    else match fuel with
      | 0 => none
      | fuel + 1 =>
        (materializeLoop (rowsLeft - s.copiesRemaining)
            (loadRun d s.materializedRunLengths s.derived) fuel).map
          fun r => (List.replicate s.copiesRemaining s.currentValue ++ r.1, r.2)

@[simp] theorem materializeLoop_zero (s : RLEEncodingBase σ α) (fuel : ℕ) :
    materializeLoop d 0 s fuel = some ([], s) := by
  rw [materializeLoop.eq_def]; simp

theorem materializeLoop_of_lt {k : ℕ} {s : RLEEncodingBase σ α} {fuel : ℕ} (h0 : k ≠ 0)
    (h : k < s.copiesRemaining) :
    materializeLoop d k s fuel = some (List.replicate k s.currentValue,
      { s with copiesRemaining := s.copiesRemaining - k }) := by
  rw [materializeLoop.eq_def]; simp [h0, h]

theorem materializeLoop_of_le {k : ℕ} {s : RLEEncodingBase σ α} {fuel : ℕ} (h0 : k ≠ 0)
    (h : s.copiesRemaining ≤ k) :
    materializeLoop d k s (fuel + 1) =
      (materializeLoop d (k - s.copiesRemaining) (loadRun d s.materializedRunLengths s.derived)
        fuel).map fun r => (List.replicate s.copiesRemaining s.currentValue ++ r.1, r.2) := by
  rw [materializeLoop.eq_def]; simp [h0, Nat.not_lt.mpr h]

theorem materializeLoop_of_empty_runs {k : ℕ} (hk : k ≠ 0) :
    ∀ (fuel : ℕ) (s : RLEEncodingBase σ α), s.copiesRemaining = 0 →
      (∀ j, s.materializedRunLengths.position ≤ j →
        (s.materializedRunLengths.decoded j).toNat = 0) →
      materializeLoop d k s fuel = none
  | 0, s, hc, _ => by
    rw [materializeLoop.eq_def]
    simp [hk, hc]
  | fuel + 1, s, hc, hruns => by
    have hnext : materializeLoop d k (loadRun d s.materializedRunLengths s.derived) fuel = none :=
      materializeLoop_of_empty_runs hk fuel _ (hruns _ le_rfl)
        fun j hj => hruns j (Nat.le_of_succ_le hj)
    rw [materializeLoop_of_le d hk (by omega), hc, Nat.sub_zero, hnext]
    rfl

/-- `RLEEncodingBase::materialize`. -/
def materialize (rowCount : ℕ) (s : RLEEncodingBase σ α) (fuel : ℕ) :
    Option (List α × RLEEncodingBase σ α) :=
  materializeLoop d rowCount s fuel

/-- `RLEEncodingBase::skip` runs the loop of `materialize` without writing. -/
def skip (rowCount : ℕ) (s : RLEEncodingBase σ α) (fuel : ℕ) : Option (RLEEncodingBase σ α) :=
  (materializeLoop d rowCount s fuel).map Prod.snd

/-- A call on a decoder. -/
inductive Call
  | materialize (rowCount : ℕ)
  | skip (rowCount : ℕ)
  | reset

/-- A sequence of calls on the decoder, each given `fuel`: what every `materialize` wrote. -/
def runCalls (fuel : ℕ) : List Call → RLEEncodingBase σ α → Option (List (List α))
  | [], _ => some []
  | .materialize k :: cs, s => do
    let (out, s) ← materialize d k s fuel
    let outs ← runCalls fuel cs s
    pure (out :: outs)
  | .skip k :: cs, s => do runCalls fuel cs (← skip d k s fuel)
  | .reset :: cs, s => runCalls fuel cs (reset d s.materializedRunLengths s.derived)

/-- `RLEEncoding<T>::RLEEncoding` once both nested encodings are decoded: its `reset()`. -/
def RLEEncoding.ofDecoded (runLengths : ℕ → UInt32) (values : ℕ → α) :
    RLEEncodingBase (BufferedEncoding α) α :=
  reset valuesRunValues ⟨runLengths, 0⟩ ⟨values, 0⟩

/-- `RLEEncoding<bool>::RLEEncoding` once the run lengths are decoded: `initialValue_` is the
stored first value, and `value_` is set by the constructor's `reset()`. -/
def RLEEncoding.ofDecodedBool (runLengths : ℕ → UInt32) (initialValue : Bool) :
    RLEEncodingBase (Bool × Bool) Bool :=
  reset boolRunValues ⟨runLengths, 0⟩ (initialValue, initialValue)

/-- A nested encoding as the RLE code uses one: `EncodingSelection::encodeNested`, and
`EncodingFactory::decode` read through a `BufferedEncoding`. Its code is outside this
repository's files; the RLE round trip assumes it lossless, which is this field. -/
structure NestedEncoding (β : Type) where
  encodeNested : List β → List UInt8
  decode : List UInt8 → ℕ → β
  decode_encodeNested : ∀ xs i (h : i < xs.length), decode (encodeNested xs) i = xs[i]

/-- `RLEEncodingBase::encode`: the prefix, the serialized run lengths behind their `u32` size,
then the run values as the derived class serializes them. `encodingSize` is a `uint32_t`, and
the returned view has that many bytes. -/
def encode [DecidableEq α] (dataType : UInt8) (runLengthsEncoding : NestedEncoding UInt32)
    (getSerializedRunValues : List α → List UInt8) (values : List α) : List UInt8 :=
  let runs := computeRuns values
  let serializedRunLengths := runLengthsEncoding.encodeNested (runs.1.map UInt32.ofNat)
  let serializedRunValues := getSerializedRunValues runs.2
  let encodingSize :=
    kPrefixSize + 4 + serializedRunLengths.length + serializedRunValues.length
  (serializePrefix .rle dataType values.length ++ writeString serializedRunLengths ++
    serializedRunValues).take (encodingSize % 2 ^ 32)

/-- `RLEEncoding<bool>::getSerializedRunValues`: the first run value, as one byte. -/
def getSerializedRunValuesBool (runValues : List Bool) : List UInt8 :=
  [if runValues.headD false then 1 else 0]

def runLengthsSize (data : List UInt8) : ℕ := readLE ((data.drop kPrefixSize).take 4)

/-- `RLEEncodingBase::getValuesStart`, as an offset into the payload. -/
def getValuesStart (data : List UInt8) : ℕ := kPrefixSize + 4 + runLengthsSize data

def runLengthsView (data : List UInt8) : List UInt8 :=
  (data.drop (kPrefixSize + 4)).take (runLengthsSize data)

/-- `RLEEncoding<T>::RLEEncoding(memoryPool, data)`. -/
def RLEEncoding.create (runLengthsEncoding : NestedEncoding UInt32)
    (valuesEncoding : NestedEncoding α) (data : List UInt8) :
    RLEEncodingBase (BufferedEncoding α) α :=
  RLEEncoding.ofDecoded (runLengthsEncoding.decode (runLengthsView data))
    (valuesEncoding.decode (data.drop (getValuesStart data)))

/-- `RLEEncoding<bool>::RLEEncoding(memoryPool, data)`: the byte at the values' start is the
first value, and it must be the payload's last byte. -/
def RLEEncoding.createBool (runLengthsEncoding : NestedEncoding UInt32) (data : List UInt8) :
    Except String (RLEEncodingBase (Bool × Bool) Bool) :=
  let initialValue := data.getD (getValuesStart data) 0 != 0
  if getValuesStart data + 1 = data.length then
    .ok (RLEEncoding.ofDecodedBool (runLengthsEncoding.decode (runLengthsView data)) initialValue)
  else .error "Unexpected run length encoding end"

end Nimble.Rle
