import Mathlib.Algebra.Order.Ring.Rat
import Dime.Foundation.Strided
import Dime.Server.Ringbuffer

/-!
# Python values

The Python values that a variable can have, with NumPy arrays as views of a
block of memory.
-/

namespace Dime.Python

open Strided

/-- `sys.byteorder`. -/
inductive Endian where
  | little
  | big
  deriving DecidableEq, Repr

/-! ## Arrays -/

/-- `dtype.kind`, as far as it is looked at. -/
inductive Kind where
  | i
  | u
  | f
  | c
  | other
  deriving DecidableEq, Repr

/-- `dtype.byteorder`: `<`, `>`, `=` and `|`. -/
inductive ByteOrder where
  | little
  | big
  | native
  | irrelevant
  deriving DecidableEq, Repr

structure Dtype where
  kind : Kind
  itemsize : Nat
  byteorder : ByteOrder
  deriving DecidableEq, Repr

namespace Dtype

/-- The bytes of one item the other way around; the two parts of a complex
number one by one. -/
def swapped (dtype : Dtype) (item : Bytes) : Bytes :=
  match dtype.kind with
  | .c => (item.take (dtype.itemsize / 2)).reverse ++ (item.drop (dtype.itemsize / 2)).reverse
  | _ => item.reverse

/-- Whether the items have their most significant byte first. -/
def isBig (host : Endian) (dtype : Dtype) : Bool :=
  dtype.byteorder = .big || (dtype.byteorder = .native && host = .big)

@[simp] theorem length_swapped (dtype : Dtype) (item : Bytes) :
    (dtype.swapped item).length = item.length := by
  unfold swapped
  split
  · rw [List.length_append, List.length_reverse, List.length_reverse, ← List.length_append,
      List.take_append_drop]
  · exact List.length_reverse

/-- Complex numbers have two parts of the same size. -/
def Halved (dtype : Dtype) : Prop := dtype.kind = .c → 2 ∣ dtype.itemsize

instance (dtype : Dtype) : Decidable dtype.Halved :=
  inferInstanceAs (Decidable (dtype.kind = .c → 2 ∣ dtype.itemsize))

theorem swapped_swapped {dtype : Dtype} (h : dtype.Halved) {item : Bytes}
    (hitem : item.length = dtype.itemsize) : dtype.swapped (dtype.swapped item) = item := by
  cases hkind : dtype.kind with
  | c =>
      obtain ⟨half, hhalf⟩ := h hkind
      have hdiv : dtype.itemsize / 2 = half := by omega
      have htake : (item.take half).reverse.length = half := by
        rw [List.length_reverse, List.length_take]
        omega
      have hdrop : (item.drop half).length = half := by
        rw [List.length_drop]
        omega
      simp only [swapped, hkind, hdiv]
      -- the parts have the same size, so they are cut at the same place again
      rw [List.take_left' htake, List.drop_left' htake, List.reverse_reverse,
        List.reverse_reverse, List.take_append_drop]
  | _ => simp [swapped, hkind]

end Dtype

/-- The largest rank of an array, `NPY_MAXDIMS`. -/
def maxdims : Nat := 64

/-- An array: a view of a block of memory. -/
structure Ndarray where
  dtype : Dtype
  shape : List Nat
  buf : Bytes
  offset : Nat
  strides : List Int
  rank : strides.length = shape.length
  within : ∀ idx, InShape shape idx → 0 ≤ offset + displacement strides idx ∧
    offset + displacement strides idx + dtype.itemsize ≤ buf.length
  ndim_le : shape.length ≤ maxdims
  nbytes_lt : shape.prod * dtype.itemsize < 2 ^ 63

namespace Ndarray

/-- The bytes of the item of an index vector. -/
def item (x : Ndarray) (idx : List Nat) : Bytes :=
  (x.buf.drop (x.offset + displacement x.strides idx).toNat).take x.dtype.itemsize

/-- The item of an index vector, most significant byte first. -/
def element (host : Endian) (x : Ndarray) (idx : List Nat) : Bytes :=
  if x.dtype.isBig host then x.item idx else x.dtype.swapped (x.item idx)

/-- An array that lies in column-major order in memory. -/
def fortran (dtype : Dtype) (shape : List Nat) (buf : Bytes) (offset : Nat)
    (hbuf : offset + dtype.itemsize * shape.prod ≤ buf.length) (hdim : shape.length ≤ maxdims)
    (hsize : shape.prod * dtype.itemsize < 2 ^ 63) : Ndarray where
  dtype := dtype
  shape := shape
  buf := buf
  offset := offset
  strides := columnStrides dtype.itemsize shape
  rank := length_columnStrides _ _
  within := by
    intro idx hidx
    have hlast : dtype.itemsize * ravel shape idx + dtype.itemsize ≤
        dtype.itemsize * shape.prod := by
      rw [← Nat.mul_succ]
      exact Nat.mul_le_mul_left _ (ravel_lt hidx)
    rw [displacement_columnStrides _ hidx]
    constructor
    · exact Int.add_nonneg (Int.natCast_nonneg _) (Int.natCast_nonneg _)
    · exact_mod_cast le_trans (Nat.add_assoc offset _ _ ▸ Nat.add_le_add_left hlast offset) hbuf
  ndim_le := hdim
  nbytes_lt := hsize

/-- `x.tobytes(order = "F")`. -/
def tobytes (x : Ndarray) : Bytes := (columnMajor x.shape).flatMap x.item

theorem length_item (x : Ndarray) {idx : List Nat} (h : InShape x.shape idx) :
    (x.item idx).length = x.dtype.itemsize := by
  obtain ⟨hlow, hhigh⟩ := x.within idx h
  rw [item, List.length_take, List.length_drop]
  omega

theorem length_items (x : Ndarray) {f : Bytes → Bytes} (hf : ∀ item, (f item).length = item.length) :
    ((columnMajor x.shape).flatMap fun idx => f (x.item idx)).length =
      x.dtype.itemsize * x.shape.prod := by
  rw [length_flatMap_const, length_columnMajor]
  intro idx hidx
  rw [hf]
  exact x.length_item (mem_columnMajor.mp hidx)

/-- `x.byteswap()`. NumPy chooses the layout of a copy, and nothing here looks
at it. -/
def byteswap (x : Ndarray) : Ndarray :=
  fortran x.dtype x.shape ((columnMajor x.shape).flatMap fun idx => x.dtype.swapped (x.item idx)) 0
    (le_of_eq (by rw [x.length_items x.dtype.length_swapped, Nat.zero_add]))
    x.ndim_le x.nbytes_lt

/-- `numpy.frombuffer(s, dtype, count, offset).reshape(shape, order = "F")`. A
negative count takes all that is there. -/
def frombuffer (s : Bytes) (dtype : Dtype) (count : Int) (offset : Nat) (shape : List Nat) :
    Option Ndarray := do
  guard (offset ≤ s.length)
  let n ← if count < 0 then
      if (s.length - offset) % dtype.itemsize = 0 then
        some ((s.length - offset) / dtype.itemsize) else none
    else if dtype.itemsize * count.toNat ≤ s.length - offset then some count.toNat else none
  if h : n = shape.prod ∧ offset + dtype.itemsize * shape.prod ≤ s.length ∧
      shape.length ≤ maxdims ∧ shape.prod * dtype.itemsize < 2 ^ 63 then
    some (fortran dtype shape s offset h.2.1 h.2.2.1 h.2.2.2)
  else none

@[simp] theorem dtype_fortran {dtype : Dtype} {shape : List Nat} {buf : Bytes} {offset : Nat}
    {hbuf hdim hsize} : (fortran dtype shape buf offset hbuf hdim hsize).dtype = dtype := rfl

@[simp] theorem shape_fortran {dtype : Dtype} {shape : List Nat} {buf : Bytes} {offset : Nat}
    {hbuf hdim hsize} : (fortran dtype shape buf offset hbuf hdim hsize).shape = shape := rfl

@[simp] theorem dtype_byteswap (x : Ndarray) : x.byteswap.dtype = x.dtype := rfl

@[simp] theorem shape_byteswap (x : Ndarray) : x.byteswap.shape = x.shape := rfl

/-- The items of an array in column-major order. -/
theorem item_fortran {dtype : Dtype} {shape : List Nat} {buf : Bytes} {offset : Nat}
    {hbuf hdim hsize} {idx : List Nat} (h : InShape shape idx) :
    (fortran dtype shape buf offset hbuf hdim hsize).item idx =
      (buf.drop (offset + dtype.itemsize * ravel shape idx)).take dtype.itemsize := by
  have hplace : (offset + displacement (columnStrides dtype.itemsize shape) idx).toNat =
      offset + dtype.itemsize * ravel shape idx := by
    rw [displacement_columnStrides _ h]
    omega
  exact congrArg (fun place => (buf.drop place).take dtype.itemsize) hplace

theorem item_byteswap (x : Ndarray) {idx : List Nat} (h : InShape x.shape idx) :
    x.byteswap.item idx = x.dtype.swapped (x.item idx) := by
  rw [byteswap, item_fortran h, Nat.zero_add]
  apply block_flatMap
  · intro idx hidx
    rw [Dtype.length_swapped]
    exact x.length_item (mem_columnMajor.mp hidx)
  · exact columnMajor_ravel h

/-- The array without an axis of length one, if it has two axes. -/
def squeezed (x : Ndarray) : List Nat × (List Nat → List Nat) :=
  match x.shape with
  | [1, n] => ([n], fun idx => 0 :: idx)
  | [m, 1] => ([m], fun idx => idx ++ [0])
  | shape => (shape, id)

/-- `y` has the elements of `x`, whatever the layout and the byte order of the
two, and its shape, less an axis of length one of two. -/
structure Same (host : Endian) (x y : Ndarray) : Prop where
  kind : y.dtype.kind = x.dtype.kind
  itemsize : y.dtype.itemsize = x.dtype.itemsize
  shape : y.shape = x.squeezed.1
  element : ∀ idx, InShape y.shape idx → y.element host idx = x.element host (x.squeezed.2 idx)

end Ndarray

/-! ## Values -/

/-- A character of a `str`; surrogates are among them. -/
abbrev CodePoint := Fin 0x110000

/-- A value. Floating-point numbers are bit patterns, and a `dict` lists its items in the
order of their insertion. -/
inductive Value where
  | none
  | bool (b : Bool)
  | int (n : Int)
  | float (bits : UInt64)
  | complex (real imag : UInt64)
  | str (chars : List CodePoint)
  | bytes (b : Bytes)
  | list (xs : List Value)
  | tuple (xs : List Value)
  | dict (items : List (Value × Value))
  | ndarray (x : Ndarray)
  | other

/-- A real part or an imaginary part. -/
inductive Part where
  | finite (q : ℚ)
  | infinite (negative : Bool)
  | nan

namespace Part

/-- The number that a bit pattern of 64 bits stands for. -/
def ofBits (bits : UInt64) : Part :=
  let negative : Bool := 2 ^ 63 ≤ bits.toNat
  let exponent : Nat := bits.toNat / 2 ^ 52 % 2 ^ 11
  let fraction : Nat := bits.toNat % 2 ^ 52
  if exponent = 2 ^ 11 - 1 then
    if fraction = 0 then .infinite negative else .nan
  else
    let magnitude : ℚ :=
      if exponent = 0 then (fraction : ℚ) / 2 ^ 1074
      else (2 ^ 52 + (fraction : ℚ)) * 2 ^ exponent / 2 ^ 1075
    .finite (if negative then -magnitude else magnitude)

/-- `==`. A NaN equals nothing. -/
def eq : Part → Part → Bool
  | finite p, finite q => p = q
  | infinite a, infinite b => a = b
  | _, _ => false

end Part

namespace Value

/-- The real and the imaginary part of a number. -/
def parts : Value → Option (Part × Part)
  | bool b => some (.finite (if b then 1 else 0), .finite 0)
  | int n => some (.finite n, .finite 0)
  | float bits => some (.ofBits bits, .finite 0)
  | complex real imag => some (.ofBits real, .ofBits imag)
  | _ => Option.none

/-- Whether a `dict` takes two values for the same key: numbers by their value. -/
def keyEq (x y : Value) : Bool :=
  match x.parts, y.parts with
  | some (re, im), some (re', im') => re.eq re' && im.eq im'
  | Option.none, Option.none =>
    match x, y with
    | none, none => true
    | str s, str t => s = t
    | _, _ => false
  | _, _ => false

/-- Whether a decoded value can be a key. -/
def hashable : Value → Bool
  | list _ | dict _ | ndarray _ => false
  | _ => true

/-- `items[key] = val`: a key that is there keeps its place. -/
def setitem (items : List (Value × Value)) (key val : Value) : Option (List (Value × Value)) :=
  if key.hashable then
    if items.any (fun item => item.1.keyEq key) then
      some (items.map fun item => if item.1.keyEq key then (item.1, val) else item)
    else some (items ++ [(key, val)])
  else Option.none

@[simp] theorem keyEq_str (s t : List CodePoint) : (str s).keyEq (str t) = decide (s = t) := rfl

/-- A new string goes to the end. -/
theorem setitem_str {items : List (Value × Value)} {s : List CodePoint} (val : Value)
    (hitems : ∀ item ∈ items, ∃ t, item.1 = str t ∧ t ≠ s) :
    setitem items (str s) val = some (items ++ [(str s, val)]) := by
  have hnew : items.any (fun item => item.1.keyEq (str s)) = false := by
    rw [List.any_eq_false]
    intro item hitem
    obtain ⟨t, ht, hne⟩ := hitems item hitem
    simp [ht, hne]
  simp [setitem, hashable, hnew]

end Value

end Dime.Python
