import Mathlib.Data.Int.Notation
import Dime.Foundation.BigEndian
import Dime.Clients.Python.Value

/-!
# Python dimeb

The encoder and the decoder of `dimeb.py`. What raises an exception returns
`none`.
-/

namespace Dime.Python

open Strided

/-! ## `struct` -/

/-- `"!B"`. -/
def packB (n : Nat) : Option Bytes := if n < 2 ^ 8 then some (BigEndian.encode 1 n) else none

/-- `"!I"`. -/
def packI (n : Nat) : Option Bytes := if n < 2 ^ 32 then some (BigEndian.encode 4 n) else none

/-- `"!q"`. -/
def packq (n : Int) : Option Bytes :=
  if -2 ^ 63 ≤ n ∧ n < 2 ^ 63 then some (BigEndian.encode 8 (n % 2 ^ 64).toNat) else none

/-- `"!d"`. -/
def packd (bits : UInt64) : Bytes := BigEndian.encode 8 bits.toNat

/-- An unsigned number of `k` bytes. -/
def unpackUnsigned (k : Nat) (s : Bytes) : Option Nat :=
  if s.length = k then some (BigEndian.decode s) else none

/-- A signed number of `k` bytes. -/
def unpackSigned (k : Nat) (s : Bytes) : Option Int :=
  (unpackUnsigned k s).map fun (n : Nat) => (n : Int).bmod (2 ^ (8 * k))

/-- `"!d"`. -/
def unpackd (s : Bytes) : Option UInt64 := (unpackUnsigned 8 s).map UInt64.ofNat

/-- The bits of a double that has the value of a single. -/
def widen (bits : Nat) : UInt64 :=
  let negative := bits / 2 ^ 31 % 2
  let exponent := bits / 2 ^ 23 % 2 ^ 8
  let fraction := bits % 2 ^ 23
  let magnitude :=
    if exponent = 255 then
      -- a NaN stays one, and becomes quiet
      2047 * 2 ^ 52 + (if fraction = 0 then 0 else (fraction * 2 ^ 29 ||| 2 ^ 51))
    else if exponent = 0 then
      if fraction = 0 then 0
      else (fraction.log2 + 874) * 2 ^ 52 + (fraction - 2 ^ fraction.log2) * 2 ^ (52 - fraction.log2)
    else (exponent + 896) * 2 ^ 52 + fraction * 2 ^ 29
  UInt64.ofNat (negative * 2 ^ 63 + magnitude)

/-- `"!f"`. -/
def unpackf (s : Bytes) : Option UInt64 := (unpackUnsigned 4 s).map widen

/-- The numbers of four bytes each that `s` consists of. -/
def unpackIs : Nat → Bytes → Option (List Nat)
  | 0, s => if s = [] then some [] else none
  | rank + 1, s => do
    let n ← unpackUnsigned 4 (s.take 4)
    let shape ← unpackIs rank (s.drop 4)
    some (n :: shape)

/-! ## Strings -/

/-- The character of a code point; a surrogate has none. -/
def char? (c : CodePoint) : Option Char :=
  if h : c.val.isValidChar then some (Char.ofNatAux c h) else none

def codePoint (c : Char) : CodePoint :=
  ⟨c.toNat, by
    have hvalid : c.toNat.isValidChar := c.valid
    obtain hlow | hhigh := hvalid
    · exact lt_trans hlow (by decide)
    · exact hhigh.2⟩

/-- `x.encode("utf-8")`. -/
def utf8Encode (x : List CodePoint) : Option Bytes :=
  (x.mapM char?).map fun chars => chars.flatMap String.utf8EncodeChar

/-- `s.decode("utf-8")`. -/
def utf8Decode (s : Bytes) : Option (List CodePoint) :=
  s.toByteArray.utf8Decode?.map fun chars => chars.toList.map codePoint

/-! ## Types -/

/-- The scalar types. -/
inductive Scalar where
  | i8
  | i16
  | i32
  | i64
  | u8
  | u16
  | u32
  | u64
  | single
  | double
  | complexSingle
  | complexDouble
  deriving DecidableEq, Repr

namespace Scalar

/-- `TYPE_I8` to `TYPE_COMPLEX_DOUBLE`. -/
def code : Scalar → UInt8
  | i8 => 0x03
  | i16 => 0x04
  | i32 => 0x05
  | i64 => 0x06
  | u8 => 0x07
  | u16 => 0x08
  | u32 => 0x09
  | u64 => 0x0A
  | single => 0x0B
  | double => 0x0C
  | complexSingle => 0x0D
  | complexDouble => 0x0E

def kind : Scalar → Kind
  | i8 | i16 | i32 | i64 => .i
  | u8 | u16 | u32 | u64 => .u
  | single | double => .f
  | complexSingle | complexDouble => .c

def itemsize : Scalar → Nat
  | i8 | u8 => 1
  | i16 | u16 => 2
  | i32 | u32 | single => 4
  | i64 | u64 | double | complexSingle => 8
  | complexDouble => 16

/-- `numpy.dtype(numpy.int8)` and the like. -/
def dtype (s : Scalar) : Dtype :=
  { kind := s.kind
    itemsize := s.itemsize
    byteorder := if s.itemsize = 1 then .irrelevant else .native }

/-- The table in `dumps`. -/
def ofDtype (dtype : Dtype) : Option Scalar :=
  match dtype.kind, dtype.itemsize with
  | .i, 1 => some i8
  | .i, 2 => some i16
  | .i, 4 => some i32
  | .i, 8 => some i64
  | .u, 1 => some u8
  | .u, 2 => some u16
  | .u, 4 => some u32
  | .u, 8 => some u64
  | .f, 4 => some single
  | .f, 8 => some double
  | .c, 8 => some complexSingle
  | .c, 16 => some complexDouble
  | _, _ => none

theorem ofDtype_eq_some {dtype : Dtype} {s : Scalar} (h : ofDtype dtype = some s) :
    dtype.kind = s.kind ∧ dtype.itemsize = s.itemsize := by
  unfold ofDtype at h
  split at h <;> cases h <;> exact ⟨‹_›, ‹_›⟩

end Scalar

/-- What the first byte of an encoding tells. -/
inductive Tag where
  | null
  | true
  | false
  | scalar (s : Scalar)
  | mat (s : Scalar)
  | string
  | array
  | assocarray
  deriving DecidableEq, Repr

namespace Tag

/-- The `TYPE_` constants. -/
def code : Tag → UInt8
  | null => 0x00
  | true => 0x01
  | false => 0x02
  | scalar s => s.code
  | mat s => 0x10 ||| s.code
  | string => 0x20
  | array => 0x21
  | assocarray => 0x22

/-- The keys of the table in `_loads`. -/
def ofCode (code : UInt8) : Option Tag :=
  match code with
  | 0x00 => some null
  | 0x01 => some true
  | 0x02 => some false
  | 0x03 => some (scalar .i8)
  | 0x04 => some (scalar .i16)
  | 0x05 => some (scalar .i32)
  | 0x06 => some (scalar .i64)
  | 0x07 => some (scalar .u8)
  | 0x08 => some (scalar .u16)
  | 0x09 => some (scalar .u32)
  | 0x0A => some (scalar .u64)
  | 0x0B => some (scalar .single)
  | 0x0C => some (scalar .double)
  | 0x0D => some (scalar .complexSingle)
  | 0x0E => some (scalar .complexDouble)
  | 0x13 => some (mat .i8)
  | 0x14 => some (mat .i16)
  | 0x15 => some (mat .i32)
  | 0x16 => some (mat .i64)
  | 0x17 => some (mat .u8)
  | 0x18 => some (mat .u16)
  | 0x19 => some (mat .u32)
  | 0x1A => some (mat .u64)
  | 0x1B => some (mat .single)
  | 0x1C => some (mat .double)
  | 0x1D => some (mat .complexSingle)
  | 0x1E => some (mat .complexDouble)
  | 0x20 => some string
  | 0x21 => some array
  | 0x22 => some assocarray
  | _ => none

@[simp] theorem ofCode_code (tag : Tag) : ofCode tag.code = some tag := by
  cases tag with
  | scalar s => cases s <;> decide
  | mat s => cases s <;> decide
  | _ => decide

end Tag

/-! ## `dumps` -/

namespace Dimeb

/-- The branch of `dumps` for arrays. -/
def dumpsNdarray (host : Endian) (x : Ndarray) : Option Bytes := do
  let x := if x.dtype.byteorder = .big ∨ (x.dtype.byteorder = .native ∧ host = .big) then x
    else x.byteswap
  let type ← Scalar.ofDtype x.dtype
  let ndim ← packB x.shape.length
  let shapedata ← x.shape.mapM packI
  some ((Tag.mat type).code :: (ndim ++ shapedata.flatten) ++ x.tobytes)

/-- The branch of `dumps` for strings. -/
def dumpsStr (x : List CodePoint) : Option Bytes := do
  let x ← utf8Encode x
  let siz ← packI x.length
  some (Tag.string.code :: (siz ++ x))

mutual

def dumps (host : Endian) : Value → Option Bytes
  | .none => some [Tag.null.code]
  | .bool true => some [Tag.true.code]
  | .bool false => some [Tag.false.code]
  | .int x => do
    let x ← packq x
    some ((Tag.scalar .i64).code :: x)
  | .float x => some ((Tag.scalar .double).code :: packd x)
  | .complex real imag => some ((Tag.scalar .complexDouble).code :: (packd real ++ packd imag))
  | .ndarray x => dumpsNdarray host x
  | .str x => dumpsStr x
  | .bytes x => do
    -- a sequence of integers
    let elements ← x.mapM fun elem => packq elem.toNat
    let siz ← packI x.length
    some (Tag.array.code :: (siz ++ elements.flatMap ((Tag.scalar .i64).code :: ·)))
  | .list x | .tuple x => do
    let elements ← dumpsElements host x
    let siz ← packI x.length
    some (Tag.array.code :: (siz ++ elements))
  | .dict x => do
    let keyvalpairs ← dumpsKeyvalpairs host x
    let siz ← packI x.length
    some (Tag.assocarray.code :: (siz ++ keyvalpairs))
  | .other => none

/-- The loop over the elements of a sequence. -/
def dumpsElements (host : Endian) : List Value → Option Bytes
  | [] => some []
  | elem :: x => do
    let element ← dumps host elem
    let elements ← dumpsElements host x
    some (element ++ elements)

/-- The loop over the items of a mapping. -/
def dumpsKeyvalpairs (host : Endian) : List (Value × Value) → Option Bytes
  | [] => some []
  | (key, val) :: x => do
    let key ← dumps host key
    let val ← dumps host val
    let keyvalpairs ← dumpsKeyvalpairs host x
    some (key ++ val ++ keyvalpairs)

end

/-! ## `loads` -/

/-- `s[i:j]`. -/
def slice (s : Bytes) (i j : Nat) : Bytes := (s.drop i).take (j - i)

/-- `loads_i8` to `loads_complex_double`. -/
def loadsScalar (s : Bytes) : Scalar → Option (Value × Nat)
  | .i8 => (unpackSigned 1 (slice s 1 2)).map fun x => (.int x, 2)
  | .i16 => (unpackSigned 2 (slice s 1 3)).map fun x => (.int x, 3)
  | .i32 => (unpackSigned 4 (slice s 1 5)).map fun x => (.int x, 5)
  | .i64 => (unpackSigned 8 (slice s 1 9)).map fun x => (.int x, 9)
  | .u8 => (unpackUnsigned 1 (slice s 1 2)).map fun (x : Nat) => (.int x, 2)
  | .u16 => (unpackUnsigned 2 (slice s 1 3)).map fun (x : Nat) => (.int x, 3)
  | .u32 => (unpackUnsigned 4 (slice s 1 5)).map fun (x : Nat) => (.int x, 5)
  | .u64 => (unpackUnsigned 8 (slice s 1 9)).map fun (x : Nat) => (.int x, 9)
  | .single => (unpackf (slice s 1 5)).map fun x => (.float x, 5)
  | .double => (unpackd (slice s 1 9)).map fun x => (.float x, 9)
  | .complexSingle => do
    let real ← unpackf (slice s 1 5)
    let imag ← unpackf (slice s 5 9)
    some (.complex real imag, 9)
  | .complexDouble => do
    let real ← unpackd (slice s 1 9)
    let imag ← unpackd (slice s 9 17)
    some (.complex real imag, 17)

/-- The shape that an array comes back with. -/
def squeezeShape : List Nat → List Nat
  | [1, n] => [n]
  | [m, 1] => [m]
  | shape => shape

/-- `loads_mat`. -/
def loadsMat (host : Endian) (s : Bytes) (dtype : Dtype) : Option (Value × Nat) := do
  let rank ← s[1]?
  let offset := 4 * rank.toNat + 2
  let shape ← unpackIs rank.toNat (slice s 2 offset)
  -- the product of no numbers is the float 1.0, which `frombuffer` refuses
  guard (shape ≠ [])
  let count := (shape.prod : Int).bmod (2 ^ 64)
  let arr ← Ndarray.frombuffer s dtype count offset (squeezeShape shape)
  let arr := if host = .big then arr else arr.byteswap
  some (.ndarray arr, (count * dtype.itemsize + offset).toNat)

/-- `loads_string`. -/
def loadsString (s : Bytes) : Option (Value × Nat) := do
  let siz ← unpackUnsigned 4 (slice s 1 5)
  let x ← utf8Decode (slice s 5 (siz + 5))
  some (.str x, siz + 5)

/-- Less is left after a part of the bytes, or the loop has fewer rounds to go. -/
theorem drop_lex (s : Bytes) (i : Nat) {k m : Nat} (h : k < m) :
    Prod.Lex (· < ·) (· < ·) ((s.drop i).length, k) (s.length, m) := by
  rw [List.length_drop]
  cases Nat.lt_or_eq_of_le (Nat.sub_le s.length i) with
  | inl hlt => exact Prod.Lex.left _ _ hlt
  | inr heq =>
      rw [heq]
      exact Prod.Lex.right _ h

mutual

/-- `_loads`: the value at the front and its length. -/
def loadsPrefix (host : Endian) : Bytes → Option (Value × Nat)
  | [] => none
  | tag :: s =>
    match Tag.ofCode tag with
    | none => none
    | some .null => some (.none, 1)
    | some .true => some (.bool true, 1)
    | some .false => some (.bool false, 1)
    | some (.scalar type) => loadsScalar (tag :: s) type
    | some (.mat type) => loadsMat host (tag :: s) type.dtype
    | some .string => loadsString (tag :: s)
    | some .array => do
      let siz ← unpackUnsigned 4 (slice (tag :: s) 1 5)
      let (ret, i) ← loadsElements host siz ((tag :: s).drop 5)
      some (.list ret, 5 + i)
    | some .assocarray => do
      let siz ← unpackUnsigned 4 (slice (tag :: s) 1 5)
      let (ret, i) ← loadsKeyvalpairs host siz ((tag :: s).drop 5) []
      some (.dict ret, 5 + i)
termination_by s => (s.length, 0)
decreasing_by
  all_goals exact Prod.Lex.left _ _ (by rw [List.length_drop, List.length_cons]; omega)

/-- The loop of `loads_array`, on what is left of the bytes. -/
def loadsElements (host : Endian) : Nat → Bytes → Option (List Value × Nat)
  | 0, _ => some ([], 0)
  | siz + 1, s => do
    let (element, element_siz) ← loadsPrefix host s
    let (ret, i) ← loadsElements host siz (s.drop element_siz)
    some (element :: ret, element_siz + i)
termination_by siz s => (s.length, siz + 1)
decreasing_by
  · exact Prod.Lex.right _ (Nat.succ_pos _)
  · exact drop_lex s _ (Nat.lt_succ_self _)

/-- The loop of `loads_assocarray`, on what is left of the bytes. -/
def loadsKeyvalpairs (host : Endian) :
    Nat → Bytes → List (Value × Value) → Option (List (Value × Value) × Nat)
  | 0, _, ret => some (ret, 0)
  | siz + 1, s, ret => do
    let (key, key_siz) ← loadsPrefix host s
    let (val, val_siz) ← loadsPrefix host (s.drop key_siz)
    let ret ← Value.setitem ret key val
    let (ret, i) ← loadsKeyvalpairs host siz (s.drop (key_siz + val_siz)) ret
    some (ret, key_siz + val_siz + i)
termination_by siz s => (s.length, siz + 1)
decreasing_by
  · exact Prod.Lex.right _ (Nat.succ_pos _)
  · exact drop_lex s _ (Nat.succ_pos _)
  · exact drop_lex s _ (Nat.lt_succ_self _)

end

def loads (host : Endian) (x : Bytes) : Option Value := (loadsPrefix host x).map Prod.fst

end Dimeb

end Dime.Python
