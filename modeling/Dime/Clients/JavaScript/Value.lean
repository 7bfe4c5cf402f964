import Dime.Foundation.BigEndian
import Dime.Foundation.Binary
import Dime.Clients.Python.Value

/-!
# JavaScript values

The JavaScript values that a variable can have, with typed arrays as views of a
buffer. What throws an exception returns `none`.
-/

namespace Dime.JavaScript

open Python (Endian)

/-! ## Typed arrays -/

/-- The types of elements that a `DataView` reads and writes. -/
inductive ElementType where
  | int8
  | int16
  | int32
  | bigInt64
  | uint8
  | uint16
  | uint32
  | bigUint64
  | float32
  | float64
  deriving DecidableEq, Repr

def ElementType.itemsize : ElementType → Nat
  | int8 | uint8 => 1
  | int16 | uint16 => 2
  | int32 | uint32 | float32 => 4
  | bigInt64 | bigUint64 | float64 => 8

/-- The constructors of typed arrays. -/
inductive ArrayType where
  | of (type : ElementType)
  | uint8Clamped
  deriving DecidableEq, Repr

def ArrayType.element : ArrayType → ElementType
  | of type => type
  | uint8Clamped => .uint8

def ArrayType.itemsize (type : ArrayType) : Nat := type.element.itemsize

structure TypedArray where
  type : ArrayType
  buffer : Bytes
  byteOffset : Nat
  length : Nat
  within : byteOffset + type.itemsize * length ≤ buffer.length
  aligned : type.itemsize ∣ byteOffset

/-- The order of the elements of an array: `F`, or anything else. -/
inductive Order where
  | F
  | C
  deriving DecidableEq, Repr

structure NDArray where
  order : Order
  shape : List Nat
  array : TypedArray
  complex : Bool

/-! ## Values -/

/-- A string, in the code units of UTF-16. -/
abbrev Units := List UInt16

/-- The code units of a character. -/
def encodeChar (c : Char) : Units :=
  if c.toNat < 0x10000 then [UInt16.ofNat c.toNat]
  else [UInt16.ofNat (0xD800 + (c.toNat - 0x10000) / 0x400),
    UInt16.ofNat (0xDC00 + (c.toNat - 0x10000) % 0x400)]

def units (s : String) : Units := s.toList.flatMap encodeChar

/-- A value. Numbers are the bit patterns of doubles, and an object lists its own
properties in the order of their enumeration. -/
inductive Value where
  | undefined
  | null
  | boolean (b : Bool)
  | number (bits : UInt64)
  | bigint (n : Int)
  | string (s : Units)
  | complex (real imag : Value)
  | ndarray (x : NDArray)
  | array (xs : List Value)
  | object (entries : List (Units × Value))
  | other

/-! ## Numbers -/

/-- The double that is closest to an integer. -/
def ofInt (n : Int) : UInt64 := UInt64.ofNat (Binary.ofInt n)

def datum (bits : UInt64) : Binary.Datum := Binary.double.datum bits.toNat

/-- `ToNumber`, short of strings and objects. -/
def toNumber : Value → Option UInt64
  | .undefined => some 0x7FF8000000000000
  | .null => some 0
  | .boolean b => some (ofInt b.toInt)
  | .number bits => some bits
  | _ => none

/-- `ToBigInt`, short of strings and objects. -/
def toBigInt : Value → Option Int
  | .boolean b => some b.toInt
  | .bigint n => some n
  | _ => none

/-- A real or a complex number. -/
inductive Quantity where
  | real (d : Binary.Datum)
  | complex (real imag : Binary.Datum)
  deriving DecidableEq

/-- The number that a value without parts is. -/
def Value.datum? : Value → Option Binary.Datum
  | .number bits => some (datum bits)
  | .bigint n => some (.ofInt n)
  | _ => none

/-- The number that a value is. -/
def Value.quantity? : Value → Option Quantity
  | .complex real imag =>
    real.datum?.bind fun re => imag.datum?.map fun im => .complex re im
  | value => value.datum?.map .real

/-- `Number.MAX_SAFE_INTEGER`. -/
def maxSafeInteger : Int := 2 ^ 53 - 1

/-- The number in two's complement that a few bytes stand for. -/
def signed (item : Bytes) : Int := (BigEndian.decode item : Int).bmod (256 ^ item.length)

theorem datum_ofInt {n : Int} (h : n.natAbs < 2 ^ 53) : datum (ofInt n) = Binary.Datum.ofInt n := by
  have hbits : (ofInt n).toNat = Binary.ofInt n := by
    rw [ofInt, UInt64.toNat_ofNat', Nat.mod_eq_of_lt (Binary.ofInt_lt n)]
  rw [datum, hbits, Binary.datum_ofInt h]

theorem toNat_widen (bits : Nat) : (UInt64.ofNat (Binary.widen bits)).toNat = Binary.widen bits := by
  rw [UInt64.toNat_ofNat', Nat.mod_eq_of_lt (Binary.widen_lt bits)]

theorem datum_widen (bits : Nat) :
    datum (UInt64.ofNat (Binary.widen bits)) = Binary.single.datum bits := by
  rw [datum, toNat_widen, Binary.datum_widen]

theorem signed_emod (item : Bytes) :
    (signed item % (256 ^ item.length : Nat)).toNat = BigEndian.decode item := by
  have hlt := BigEndian.decode_lt item
  rw [signed, Int.bmod_emod, Int.emod_eq_of_lt (Int.natCast_nonneg _) (Int.ofNat_lt.mpr hlt),
    Int.toNat_natCast]

theorem natAbs_signed_le (item : Bytes) : (signed item).natAbs ≤ 256 ^ item.length := by
  have hpos : 0 < 256 ^ item.length := Nat.pow_pos (by decide)
  have hlow := Int.le_bmod (x := BigEndian.decode item) hpos
  have hhigh := Int.bmod_lt (x := BigEndian.decode item) hpos
  unfold signed
  omega

namespace ElementType

/-- The element that stands in a few bytes, most significant byte first. -/
def read (type : ElementType) (item : Bytes) : Value :=
  match type with
  | int8 | int16 | int32 => .number (ofInt (signed item))
  | uint8 | uint16 | uint32 => .number (ofInt (BigEndian.decode item))
  | bigInt64 => .bigint (signed item)
  | bigUint64 => .bigint (BigEndian.decode item)
  | float32 => .number (UInt64.ofNat (Binary.widen (BigEndian.decode item)))
  | float64 => .number (UInt64.ofNat (BigEndian.decode item))

/-- The bytes that stand for a value, most significant byte first. -/
def write (type : ElementType) (value : Value) : Option Bytes :=
  match type with
  | int8 | int16 | int32 | uint8 | uint16 | uint32 => do
    let bits ← toNumber value
    some (BigEndian.encode type.itemsize ((datum bits).truncate % 256 ^ type.itemsize).toNat)
  | bigInt64 | bigUint64 => do
    let n ← toBigInt value
    some (BigEndian.encode 8 (n % 2 ^ 64).toNat)
  | float32 => do
    let bits ← toNumber value
    some (BigEndian.encode 4 (Binary.narrow bits.toNat))
  | float64 => do
    let bits ← toNumber value
    some (BigEndian.encode 8 bits.toNat)

theorem length_write {type : ElementType} {value : Value} {item : Bytes}
    (h : type.write value = some item) : item.length = type.itemsize := by
  have hbits : ∀ {k : Nat} {f : UInt64 → Nat},
      ((toNumber value).bind fun bits => some (BigEndian.encode k (f bits))) = some item →
        item.length = k := by
    intro k f h
    obtain ⟨bits, _, hitem⟩ := Option.bind_eq_some_iff.mp h
    rw [← Option.some.inj hitem, BigEndian.length_encode]
  have hbig : ((toBigInt value).bind fun n => some (BigEndian.encode 8 (n % 2 ^ 64).toNat)) =
      some item → item.length = 8 := by
    intro h
    obtain ⟨n, _, hitem⟩ := Option.bind_eq_some_iff.mp h
    rw [← Option.some.inj hitem, BigEndian.length_encode]
  cases type with
  | bigInt64 => exact hbig h
  | bigUint64 => exact hbig h
  | _ => exact hbits h

/-- An element that has been read is written with the same bytes. Only the NaNs among
the singles can change. -/
theorem write_read {type : ElementType} {item : Bytes} (hlen : item.length = type.itemsize)
    (hnan : type = float32 → Binary.single.datum (BigEndian.decode item) ≠ .nan) :
    type.write (type.read item) = some item := by
  have hlt : BigEndian.decode item < 256 ^ type.itemsize := hlen ▸ BigEndian.decode_lt item
  have hback : BigEndian.encode type.itemsize (BigEndian.decode item) = item :=
    hlen ▸ BigEndian.encode_decode item
  have hint : ∀ n : Int, n.natAbs < 2 ^ 53 →
      (n % (256 ^ type.itemsize : Nat)).toNat = BigEndian.decode item →
      some (BigEndian.encode type.itemsize
        ((datum (ofInt n)).truncate % 256 ^ type.itemsize).toNat) = some item := by
    intro n hn hmod
    rw [datum_ofInt hn, Binary.Datum.truncate_ofInt]
    have hcast : (256 : Int) ^ type.itemsize = (256 ^ type.itemsize : Nat) := by push_cast; rfl
    rw [hcast, hmod, hback]
  have hunsigned : ((BigEndian.decode item : Int) % (256 ^ type.itemsize : Nat)).toNat =
      BigEndian.decode item := by
    rw [Int.emod_eq_of_lt (Int.natCast_nonneg _) (Int.ofNat_lt.mpr hlt), Int.toNat_natCast]
  have hsigned : (signed item % (256 ^ type.itemsize : Nat)).toNat = BigEndian.decode item :=
    hlen ▸ signed_emod item
  have hsmall : (signed item).natAbs ≤ 256 ^ type.itemsize := hlen ▸ natAbs_signed_le item
  cases type with
  | int8 => exact hint _ (Nat.lt_of_le_of_lt hsmall (by decide)) hsigned
  | int16 => exact hint _ (Nat.lt_of_le_of_lt hsmall (by decide)) hsigned
  | int32 => exact hint _ (Nat.lt_of_le_of_lt hsmall (by decide)) hsigned
  | uint8 => exact hint _ (Nat.lt_trans hlt (by decide)) hunsigned
  | uint16 => exact hint _ (Nat.lt_trans hlt (by decide)) hunsigned
  | uint32 => exact hint _ (Nat.lt_trans hlt (by decide)) hunsigned
  | bigInt64 => exact congrArg some ((congrArg _ hsigned).trans hback)
  | bigUint64 => exact congrArg some ((congrArg _ hunsigned).trans hback)
  | float32 =>
      have hbits := toNat_widen (BigEndian.decode item)
      have hnarrow := Binary.narrow_widen hlt fun he => by
        by_contra hf
        exact hnan rfl (Binary.datum_single_nan he hf)
      exact congrArg some ((congrArg _ ((congrArg _ hbits).trans hnarrow)).trans hback)
  | float64 =>
      have hbits : (UInt64.ofNat (BigEndian.decode item)).toNat = BigEndian.decode item := by
        rw [UInt64.toNat_ofNat']
        exact Nat.mod_eq_of_lt hlt
      exact congrArg some ((congrArg _ hbits).trans hback)

/-- An element that has been read, written and read again is the same value. -/
theorem exists_write_read {type : ElementType} {item : Bytes} (hlen : item.length = type.itemsize) :
    ∃ item', type.write (type.read item) = some item' ∧ type.read item' = type.read item := by
  by_cases hnan : type = .float32 ∧ Binary.single.datum (BigEndian.decode item) = .nan
  · -- a NaN is made quiet when it is read, and stays so
    obtain ⟨rfl, _⟩ := hnan
    have hlt : BigEndian.decode item < 2 ^ 32 :=
      Nat.lt_of_lt_of_eq (hlen ▸ BigEndian.decode_lt item) (by decide)
    have hnarrow : Binary.narrow (Binary.widen (BigEndian.decode item)) < 256 ^ 4 :=
      Nat.lt_of_lt_of_eq (Binary.narrow_lt _) (by decide)
    refine ⟨BigEndian.encode 4 (Binary.narrow (Binary.widen (BigEndian.decode item))), ?_, ?_⟩
    · exact congrArg (fun bits => some (BigEndian.encode 4 (Binary.narrow bits))) (toNat_widen _)
    · simp only [read, BigEndian.decode_encode_of_lt hnarrow, Binary.widen_narrow_widen hlt]
  · exact ⟨item, write_read hlen fun hsingle hval => hnan ⟨hsingle, hval⟩, rfl⟩

end ElementType

/-! ## Elements -/

/-- The bytes of an item in memory, most significant byte first, and back. -/
def ordered (host : Endian) (item : Bytes) : Bytes := if host = .big then item else item.reverse

namespace TypedArray

/-- The bytes of an item. -/
def item (a : TypedArray) (i : Nat) : Bytes :=
  (a.buffer.drop (a.byteOffset + a.type.itemsize * i)).take a.type.itemsize

/-- `a[i]`. -/
def get (host : Endian) (a : TypedArray) (i : Nat) : Value :=
  if i < a.length then a.type.element.read (ordered host (a.item i)) else .undefined

theorem length_item (a : TypedArray) {i : Nat} (h : i < a.length) :
    (a.item i).length = a.type.itemsize := by
  have hlast : a.type.itemsize * i + a.type.itemsize ≤ a.type.itemsize * a.length := by
    rw [← Nat.mul_succ]
    exact Nat.mul_le_mul_left _ h
  have hwithin := a.within
  rw [item, List.length_take, List.length_drop]
  omega

end TypedArray

theorem mapM_mem {α β : Type} {f : α → Option β} {l : List α} {l' : List β}
    (h : l.mapM f = some l') {b : β} (hb : b ∈ l') : ∃ a ∈ l, f a = some b := by
  induction l generalizing l' with
  | nil =>
      cases h
      cases hb
  | cons a l ih =>
      rw [List.mapM_cons] at h
      obtain ⟨b', hb', h⟩ := Option.bind_eq_some_iff.mp h
      obtain ⟨rest, hrest, h⟩ := Option.bind_eq_some_iff.mp h
      cases h
      cases hb with
      | head => exact ⟨a, List.mem_cons_self, hb'⟩
      | tail _ hb =>
          obtain ⟨c, hc, hcb⟩ := ih hrest hb
          exact ⟨c, List.mem_cons_of_mem a hc, hcb⟩

/-- A new array of the items in a list. -/
def TypedArray.ofItems (host : Endian) (type : ElementType) (items : List Bytes)
    (h : ∀ item ∈ items, item.length = type.itemsize) : TypedArray where
  type := .of type
  buffer := items.flatMap (ordered host)
  byteOffset := 0
  length := items.length
  within := by
    rw [Strided.length_flatMap_const (n := type.itemsize), Nat.zero_add]
    · rfl
    · intro item hitem
      unfold ordered
      split
      · exact h item hitem
      · rw [List.length_reverse, h item hitem]
  aligned := Nat.dvd_zero _

/-- `new constructor(n)`, filled with `n` values. -/
def TypedArray.ofValues (host : Endian) (type : ElementType) (values : List Value) :
    Option TypedArray :=
  match h : values.mapM type.write with
  | none => none
  | some items => some (.ofItems host type items fun item hitem => by
      obtain ⟨value, _, hvalue⟩ := mapM_mem h hitem
      exact ElementType.length_write hvalue)

theorem length_ordered (host : Endian) (item : Bytes) : (ordered host item).length = item.length := by
  unfold ordered
  split
  · rfl
  · exact List.length_reverse

theorem ordered_ordered (host : Endian) (item : Bytes) : ordered host (ordered host item) = item := by
  unfold ordered
  split
  · rfl
  · exact List.reverse_reverse item

namespace TypedArray

theorem get_ofItems (host : Endian) (type : ElementType) {items : List Bytes}
    (h : ∀ item ∈ items, item.length = type.itemsize) {i : Nat} {item : Bytes}
    (hi : items[i]? = some item) : (ofItems host type items h).get host i = type.read item := by
  have hlt : i < items.length := (List.getElem?_eq_some_iff.mp hi).1
  have hblock := Strided.block_flatMap (f := ordered host)
    (fun item hitem => (length_ordered host item).trans (h item hitem)) hi
  have hitem : (ofItems host type items h).item i = ordered host item := by
    rw [← hblock, TypedArray.item]
    exact congrArg (fun place => ((items.flatMap (ordered host)).drop place).take type.itemsize)
      (Nat.zero_add _)
  rw [TypedArray.get, hitem, ordered_ordered]
  exact if_pos hlt

/-- A new array keeps what it is filled with, as far as its type has it. -/
theorem ofValues_eq (host : Endian) {type : ElementType} {values : List Value} {items : List Bytes}
    (h : values.mapM type.write = some items) :
    ∃ a, ofValues host type values = some a ∧ a.type = .of type ∧ a.length = items.length ∧
      ∀ i item, items[i]? = some item → a.get host i = type.read item := by
  unfold ofValues
  split
  next hnone => cases hnone.symm.trans h
  next items' hitems =>
    obtain rfl : items' = items := Option.some.inj (hitems.symm.trans h)
    exact ⟨_, rfl, rfl, rfl, fun i item hi => get_ofItems host type _ hi⟩

end TypedArray

namespace NDArray

/-- One round of the loop in `_makeIndex`, for an axis and the index along it. -/
def indexStep (strict : Bool) (realIndex : Nat) (axis : Nat × Nat) : Option Nat :=
  if strict ∧ axis.2 ≥ axis.1 then none else some (realIndex * axis.1 + axis.2)

/-- `_makeIndex`. -/
def makeIndex (x : NDArray) (index : List Nat) (strict : Bool) : Option Nat := do
  guard (index.length = x.shape.length)
  let axes := x.shape.zip index
  let realIndex ← (if x.order = .F then axes.reverse else axes).foldlM (indexStep strict) 0
  some (if x.complex then realIndex * 2 else realIndex)

/-- `get`. -/
def get (host : Endian) (x : NDArray) (index : List Nat) : Option Value := do
  let i ← x.makeIndex index true
  if x.complex then some (.complex (x.array.get host i) (x.array.get host (i + 1)))
  else some (x.array.get host i)

theorem indexStep_eq {n i : Nat} (h : i < n) (strict : Bool) (realIndex : Nat) :
    indexStep strict realIndex (n, i) = some (realIndex * n + i) :=
  if_neg fun hout => Nat.not_le.mpr h hout.2

/-- The loop from the last axis to the first finds the column-major place. -/
theorem foldlM_indexStep {shape idx : List Nat} (h : Strided.InShape shape idx) (strict : Bool) :
    (shape.zip idx).reverse.foldlM (indexStep strict) 0 = some (Strided.ravel shape idx) := by
  induction h with
  | nil => rfl
  | @cons i n idx shape hi _ ih =>
      rw [List.zip_cons_cons, List.reverse_cons, List.foldlM_append, ih, Strided.ravel_cons,
        Nat.add_comm, Nat.mul_comm n, Option.bind_eq_bind, Option.bind_some, List.foldlM_cons,
        indexStep_eq hi]
      rfl

/-- The index of an element is its column-major place, by twos for complex numbers. -/
theorem makeIndex_eq {x : NDArray} (horder : x.order = .F) {idx : List Nat}
    (h : Strided.InShape x.shape idx) (strict : Bool) :
    x.makeIndex idx strict = some ((if x.complex then 2 else 1) * Strided.ravel x.shape idx) := by
  have hlength : idx.length = x.shape.length := h.length_eq
  simp only [makeIndex, hlength, guard_true, if_pos horder, foldlM_indexStep h, Option.pure_def,
    Option.bind_eq_bind, Option.bind_some]
  cases x.complex with
  | true => exact congrArg some (Nat.mul_comm _ _)
  | false => exact congrArg some (Nat.one_mul _).symm

end NDArray

end Dime.JavaScript
