import Mathlib

/-! # Little-endian fixed-width writes and reads

`encoding::write<T>`, `encoding::read<T>` and `encoding::writeString` live in
`common/EncodingPrimitives.h`, which is not among the repository's files; they are modelled
from the spec: multi-byte integers are little-endian and strings carry a `u32` length prefix.
A write of `w` bytes keeps its value modulo `2 ^ (8 * w)`, as the C++ cast to `uint8_t`,
`uint16_t` or `uint32_t` does, and that truncation is where several of the format's limits
come from.
-/

namespace Nimble.Encoding

/-- Modelled from the spec: the `w` little-endian bytes of `n`, modulo `256 ^ w`. -/
def writeLE : ℕ → ℕ → List UInt8
  | 0, _ => []
  | w + 1, n => UInt8.ofNat n :: writeLE w (n / 256)

/-- Modelled from the spec: the little-endian value of a byte string. -/
def readLE : List UInt8 → ℕ
  | [] => 0
  | b :: bs => b.toNat + 256 * readLE bs

@[simp] theorem length_writeLE (w n : ℕ) : (writeLE w n).length = w := by
  induction w generalizing n <;> simp [writeLE, *]

@[simp] theorem readLE_writeLE (w n : ℕ) : readLE (writeLE w n) = n % 256 ^ w := by
  induction w generalizing n with
  | zero => simp [writeLE, readLE, Nat.mod_one]
  | succ w ih =>
    simp only [writeLE, readLE, ih, Nat.pow_succ', Nat.mod_mul]
    rfl

theorem readLE_lt (bs : List UInt8) : readLE bs < 256 ^ bs.length := by
  induction bs with
  | nil => simp [readLE]
  | cons b bs ih =>
    have hb : b.toNat < 256 := b.toNat_lt_size
    simp only [readLE, List.length_cons, Nat.pow_succ']
    omega

theorem writeLE_readLE : ∀ bs : List UInt8, writeLE bs.length (readLE bs) = bs
  | [] => rfl
  | b :: bs => by
    have hb : b.toNat < 256 := b.toNat_lt_size
    rw [List.length_cons, writeLE, readLE,
      show (b.toNat + 256 * readLE bs) / 256 = readLE bs by omega, writeLE_readLE bs]
    exact congrArg (· :: bs)
      (UInt8.toNat.inj (show (b.toNat + 256 * readLE bs) % 256 = b.toNat by omega))

theorem readLE_take_writeLE {w n : ℕ} (h : n < 256 ^ w) : readLE ((writeLE w n).take w) = n := by
  rw [List.take_of_length_le (by simp), readLE_writeLE, Nat.mod_eq_of_lt h]

@[simp] theorem readLE_singleton (b : UInt8) : readLE [b] = b.toNat := by simp [readLE]

@[simp] theorem ofNat_toNat_byte (b : UInt8) : UInt8.ofNat b.toNat = b :=
  UInt8.toNat.inj (UInt8.toNat_ofNat_of_lt b.toNat_lt_size)

/-- `encoding::writeString`: a `u32` length, then the bytes. -/
def writeString (s : List UInt8) : List UInt8 := writeLE 4 s.length ++ s

@[simp] theorem length_writeString (s : List UInt8) :
    (writeString s).length = 4 + s.length := by simp [writeString]

/-- Modelled from the spec: the encodings a payload's first byte names. -/
inductive EncodingType
  | trivial | rle | dictionary | fixedBitWidth | mainlyConstant | sparseBool | nullable | constant
  deriving DecidableEq, Repr

/-- The byte an `EncodingType` is stored as, its position in the enumeration. -/
def EncodingType.toUInt8 (t : EncodingType) : UInt8 := UInt8.ofNat t.toCtorIdx

/-- `Encoding::kPrefixSize`. -/
def kPrefixSize : ℕ := 6

/-- Modelled from the spec: `Encoding::serializePrefix`, the prefix every payload begins with:
encoding kind (1 byte), data type (1 byte), row count (4 bytes). -/
def serializePrefix (encodingType : EncodingType) (dataType : UInt8) (rowCount : ℕ) :
    List UInt8 :=
  [encodingType.toUInt8, dataType] ++ writeLE 4 rowCount

@[simp] theorem length_serializePrefix (t : EncodingType) (dataType : UInt8) (rowCount : ℕ) :
    (serializePrefix t dataType rowCount).length = kPrefixSize := rfl

/-- `Encoding::rowCount`, as the `Encoding` constructor reads it from the prefix. -/
def rowCount (data : List UInt8) : ℕ := readLE ((data.drop 2).take 4)

theorem rowCount_serializePrefix (t : EncodingType) (dataType : UInt8) (n : ℕ)
    (rest : List UInt8) : rowCount (serializePrefix t dataType n ++ rest) = n % 2 ^ 32 := by
  simp [rowCount, serializePrefix]

end Nimble.Encoding
