import Mathlib.Data.List.DropRight
import Mathlib.Data.List.FinRange
import Dime.Foundation.Association
import Dime.Foundation.BigEndian
import Dime.Foundation.Binary
import Dime.Server.Ringbuffer

/-!
# MATLAB values

The MATLAB values that a variable can have. Numbers are bit patterns of the size of
their class, and arrays list their elements in column-major order.
-/

namespace Dime.Matlab

open Binary (Datum)

/-! ## Sizes -/

/-- What `size` returns: two dimensions or more. A dimension at the end that is one is
left out, unless it is among the first two. -/
structure Size where
  dims : List Nat
  two_le : 2 ≤ dims.length
  trimmed : (dims.drop 2).getLast? ≠ some 1
  deriving DecidableEq

namespace Size

/-- `numel`. -/
def numel (size : Size) : Nat := size.dims.prod

/-- `length`. -/
def length (size : Size) : Nat := if size.numel = 0 then 0 else size.dims.foldl max 0

/-- The size of a matrix. -/
def matrix (m n : Nat) : Size := ⟨[m, n], le_rfl, by simp⟩

/-- The size of a row. -/
def row (n : Nat) : Size := matrix 1 n

@[simp] theorem dims_row (n : Nat) : (row n).dims = [1, n] := rfl

@[simp] theorem numel_matrix (m n : Nat) : (matrix m n).numel = m * n := by
  simp [numel, matrix]

@[simp] theorem numel_row (n : Nat) : (row n).numel = n := by
  rw [row, numel_matrix, Nat.one_mul]

/-- The size that `reshape` takes from a vector. -/
def ofDims (dims : List Nat) : Option Size :=
  if h : 2 ≤ dims.length then
    some {
      dims := dims.take 2 ++ (dims.drop 2).rdropWhile (· = 1)
      two_le := by
        rw [List.length_append, List.length_take, Nat.min_eq_left h]
        exact Nat.le_add_right 2 _
      trimmed := by
        have hlength : (dims.take 2).length = 2 := by rw [List.length_take, Nat.min_eq_left h]
        rw [List.drop_left' hlength]
        intro hlast
        have hne : (dims.drop 2).rdropWhile (· = 1) ≠ [] := by
          intro hnil
          rw [hnil] at hlast
          cases hlast
        have hone := List.rdropWhile_last_not (fun n => decide (n = 1)) (dims.drop 2) hne
        rw [List.getLast?_eq_some_getLast hne] at hlast
        simp [Option.some.inj hlast] at hone }
  else none

end Size

/-- An array, with its elements in column-major order. -/
structure Grid (α : Type) where
  size : Size
  data : List α
  length_data : data.length = size.numel

/-- A row. -/
def Grid.row {α : Type} (data : List α) : Grid α := ⟨Size.row data.length, data, by simp⟩

def Grid.scalar {α : Type} (a : α) : Grid α := Grid.row [a]

/-- `[]`. -/
def Grid.empty {α : Type} : Grid α := ⟨Size.matrix 0 0, [], rfl⟩

/-- `reshape`, of the elements of an array. -/
def Grid.reshape {α : Type} (data : List α) (dims : List Nat) : Option (Grid α) := do
  let size ← Size.ofDims dims
  if h : data.length = size.numel then some ⟨size, data, h⟩ else none

/-! ## Numbers -/

/-- The numeric classes. -/
inductive NumClass where
  | int8
  | int16
  | int32
  | int64
  | uint8
  | uint16
  | uint32
  | uint64
  | single
  | double
  deriving DecidableEq, Repr

namespace NumClass

def itemsize : NumClass → Nat
  | int8 | uint8 => 1
  | int16 | uint16 => 2
  | int32 | uint32 | single => 4
  | int64 | uint64 | double => 8

/-- A bit pattern. -/
abbrev Word (cls : NumClass) : Type := Fin (256 ^ cls.itemsize)

/-- The integer of a bit pattern. -/
def integer? (cls : NumClass) (bits : Nat) : Option Int :=
  match cls with
  | int8 | int16 | int32 | int64 => some ((bits : Int).bmod (256 ^ cls.itemsize))
  | uint8 | uint16 | uint32 | uint64 => some bits
  | single | double => none

/-- The number that a bit pattern stands for. -/
def datum (cls : NumClass) (bits : Nat) : Datum :=
  match cls with
  | single => Binary.single.datum bits
  | double => Binary.double.datum bits
  | cls => Datum.ofInt ((cls.integer? bits).getD 0)

/-- `double(x)`. -/
def toDouble (cls : NumClass) (bits : Nat) : Nat :=
  match cls with
  | single => Binary.widen bits
  | double => bits
  | cls => Binary.ofInt ((cls.integer? bits).getD 0)

end NumClass

/-- A numeric array. A complex one has an imaginary part, which can be zero. -/
structure Numeric where
  cls : NumClass
  re : Grid cls.Word
  im : Option (List cls.Word)
  length_im : ∀ im', im = some im' → im'.length = re.data.length

namespace Numeric

def size (x : Numeric) : Size := x.re.size

/-- A real array. -/
def real {cls : NumClass} (re : Grid cls.Word) : Numeric := ⟨cls, re, none, by simp⟩

/-- The real and the imaginary parts. -/
def parts (x : Numeric) : List (Datum × Datum) :=
  match x.im with
  | none => x.re.data.map fun re => (x.cls.datum re, Datum.ofInt 0)
  | some im => (x.re.data.zip im).map fun element => (x.cls.datum element.1, x.cls.datum element.2)

end Numeric

/-! ## Field names -/

def isLetter (c : UInt16) : Bool := (0x41 ≤ c && c ≤ 0x5A) || (0x61 ≤ c && c ≤ 0x7A)

def isDigit (c : UInt16) : Bool := 0x30 ≤ c && c ≤ 0x39

/-- Whether a text can be the name of a field. -/
def isFieldName (chars : List UInt16) : Bool :=
  match chars with
  | [] => false
  | c :: rest =>
    isLetter c && rest.all (fun c => isLetter c || isDigit c || c == 0x5F) && chars.length ≤ 63

structure FieldName where
  chars : List UInt16
  valid : isFieldName chars = true
  deriving DecidableEq

/-! ## Keys of a `containers.Map` -/

/-- A key of a map. -/
inductive Key where
  | char (chars : List UInt16)
  | number (cls : NumClass) (bits : Nat)
  deriving DecidableEq, Repr

/-- `KeyType`. -/
inductive KeyType where
  | char
  | number (cls : NumClass)
  deriving DecidableEq, Repr

/-! ## Values -/

/-- A value. A structure is a scalar one. -/
inductive Value where
  | logical (x : Grid Bool)
  | numeric (x : Numeric)
  | char (x : Grid UInt16)
  | cell (size : Size) (elements : Fin size.numel → Value)
  | struct (names : { names : List FieldName // names.Nodup }) (vals : Fin names.1.length → Value)
  | map (keyType : KeyType) (keys : List Key) (vals : Fin keys.length → Value)

namespace Value

/-- A cell array that has grown from `{}` element by element. -/
def row (xs : List Value) : Value :=
  if xs = [] then cell (Size.matrix 0 0) fun i => absurd i.isLt (by simp)
  else cell (Size.row xs.length) fun i => xs.get (i.cast (Size.numel_row xs.length))

/-- The size and the elements of an array of numbers, which characters and truth values
count as. -/
def parts? : Value → Option (Size × List (Datum × Datum))
  | logical x => some (x.size, x.data.map fun b => (Datum.ofInt (if b then 1 else 0), Datum.ofInt 0))
  | numeric x => some (x.size, x.parts)
  | char x => some (x.size, x.data.map fun c => (Datum.ofInt c.toNat, Datum.ofInt 0))
  | _ => none

/-- A NaN equals nothing. -/
def isNumber (part : Datum × Datum) : Bool := part.1 ≠ .nan && part.2 ≠ .nan

/-- `isequal`, up to maps: the classes of numbers and the order of fields do not count. -/
def isequal : Value → Value → Bool
  | cell size elements, cell size' elements' =>
    size = size' && (List.finRange size.numel).all fun i =>
      (List.finRange size'.numel).any fun j => i.val = j.val && isequal (elements i) (elements' j)
  | struct names vals, struct names' vals' =>
    names.1.length = names'.1.length && (List.finRange names.1.length).all fun i =>
      (List.finRange names'.1.length).any fun j =>
        names.1.get i = names'.1.get j && isequal (vals i) (vals' j)
  | x, y =>
    match x.parts?, y.parts? with
    | some (size, parts), some (size', parts') =>
      size = size' && parts = parts' && parts.all isNumber
    | _, _ => false

end Value

end Dime.Matlab
