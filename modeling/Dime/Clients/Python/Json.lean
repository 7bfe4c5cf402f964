import Dime.Foundation.Base64
import Dime.Foundation.Binary
import Dime.Clients.Python.Dimeb

/-!
# Python JSON

The encoder and the decoder of `json.py`. A JSON text is taken as a tree; what
raises an exception returns `none`.
-/

namespace Dime.Python

open Strided

/-- A JSON text. Strings consist of the code units of their escape sequences. -/
inductive Document where
  | null
  | boolean (b : Bool)
  | integer (n : Int)
  | float (bits : UInt64)
  | string (s : List UInt16)
  | array (xs : List Document)
  | object (members : List (List UInt16 × Document))

namespace JsonCodec

/-! ## Text -/

/-- The escape sequences of a character. -/
def escape (c : CodePoint) : List UInt16 :=
  if c.val < 0x10000 then [UInt16.ofNat c.val]
  else [UInt16.ofNat (0xD800 + (c.val - 0x10000) / 0x400),
    UInt16.ofNat (0xDC00 + (c.val - 0x10000) % 0x400)]

def isHigh (n : Nat) : Bool := 0xD800 ≤ n ∧ n < 0xDC00

def isLow (n : Nat) : Bool := 0xDC00 ≤ n ∧ n < 0xE000

/-- The character of two halves. -/
def join (high low : UInt16) : CodePoint :=
  ⟨(0x10000 + (high.toNat - 0xD800) % 0x400 * 0x400 + (low.toNat - 0xDC00) % 0x400), by omega⟩

/-- The character of a unit that stands for itself. -/
def single (unit : UInt16) : CodePoint := ⟨unit.toNat, Nat.lt_trans unit.toNat_lt (by decide)⟩

/-- The characters of escape sequences. Two halves that follow each other are one. -/
def unescape : List UInt16 → List CodePoint
  | [] => []
  | [unit] => [single unit]
  | high :: low :: s =>
    if isHigh high.toNat ∧ isLow low.toNat then join high low :: unescape s
    else single high :: unescape (low :: s)

def text (chars : List CodePoint) : List UInt16 := chars.flatMap escape

/-- A string literal. -/
def literal (s : String) : List CodePoint := s.toList.map codePoint

/-- What is read for a float that has been written; `NaN` stands for all NaNs. -/
def textual (bits : UInt64) : UInt64 :=
  if Binary.double.datum bits.toNat = .nan then 0x7FF8000000000000 else bits

/-! ## Arrays -/

end JsonCodec

namespace Scalar

def all : List Scalar :=
  [i8, i16, i32, i64, u8, u16, u32, u64, single, double, complexSingle, complexDouble]

/-- `str(dtype)`. -/
def name : Scalar → String
  | i8 => "int8"
  | i16 => "int16"
  | i32 => "int32"
  | i64 => "int64"
  | u8 => "uint8"
  | u16 => "uint16"
  | u32 => "uint32"
  | u64 => "uint64"
  | single => "float32"
  | double => "float64"
  | complexSingle => "complex64"
  | complexDouble => "complex128"

/-- `numpy.dtype(name)`, for these names. -/
def ofName? (name : List CodePoint) : Option Scalar :=
  all.find? fun type => JsonCodec.literal type.name = name

theorem ofName?_name (type : Scalar) : ofName? (JsonCodec.literal type.name) = some type := by
  cases type <;> decide

end Scalar

/-- Whether the items are in the byte order of the host. Items of one byte have none. -/
def Dtype.isNative (host : Endian) (dtype : Dtype) : Bool :=
  match dtype.byteorder with
  | .native => true
  | .little => host = .little
  | .big => host = .big
  | .irrelevant => dtype.itemsize = 1

namespace Ndarray

theorem length_columnItems (x : Ndarray) :
    ((columnMajor x.shape).flatMap x.item).length = x.dtype.itemsize * x.shape.prod :=
  x.length_items (f := id) fun _ => rfl

/-- `numpy.asfortranarray(x)`. Where `x` has no axes, the copy gets one, which no byte
shows. -/
def asfortranarray (x : Ndarray) : Ndarray :=
  fortran x.dtype x.shape ((columnMajor x.shape).flatMap x.item) 0
    (le_of_eq (by rw [x.length_columnItems, Nat.zero_add])) x.ndim_le x.nbytes_lt

/-- `x.tobytes()`, whose order is `C` whatever the layout of `x`. -/
def tobytesC (x : Ndarray) : Bytes := (rowMajor x.shape).flatMap x.item

theorem item_asfortranarray (x : Ndarray) {idx : List Nat} (h : InShape x.shape idx) :
    x.asfortranarray.item idx = x.item idx := by
  rw [asfortranarray, item_fortran h, Nat.zero_add]
  exact block_flatMap (fun _ hidx => x.length_item (mem_columnMajor.mp hidx)) (columnMajor_ravel h)

end Ndarray

namespace JsonCodec

/-! ## `dumps` -/

/-- The dtypes that `default` lets through: a foreign byte order shows in the name. -/
def dtype? (host : Endian) (dtype : Dtype) : Option Scalar :=
  if dtype.isNative host then Scalar.ofDtype dtype else none

/-- What `default` returns for a complex number. -/
def defaultComplex (real imag : UInt64) : Document :=
  .object [(text (literal "__dime_type"), .string (text (literal "complex"))),
    (text (literal "real"), .float (textual real)), (text (literal "imag"), .float (textual imag))]

/-- What `default` returns for an array with these bytes. -/
def matrixDocument (dtype : Scalar) (shape : List Nat) (data : Bytes) : Document :=
  .object [(text (literal "__dime_type"), .string (text (literal "matrix"))),
    (text (literal "dtype"), .string (text (literal dtype.name))),
    (text (literal "shape"), .array (shape.map fun (n : Nat) => .integer n)),
    (text (literal "data"), .string ((Base64.encode data).map fun c => UInt16.ofNat c.toNat))]

/-- The branch of `default` for arrays. -/
def defaultNdarray (host : Endian) (x : Ndarray) : Option Document :=
  (dtype? host x.dtype).map fun dtype => matrixDocument dtype x.shape x.asfortranarray.tobytesC

/-- What `json.dumps` makes of the keys that are no strings. -/
abbrev KeyText := Value → Option (List CodePoint)

def keyText (toText : KeyText) : Value → Option (List CodePoint)
  | .str chars => some chars
  | key => toText key

mutual

def dumps (host : Endian) (toText : KeyText) : Value → Option Document
  | .none => some .null
  | .bool b => some (.boolean b)
  | .int n => some (.integer n)
  | .float bits => some (.float (textual bits))
  | .complex real imag => some (defaultComplex real imag)
  | .str chars => some (.string (text chars))
  | .list xs | .tuple xs => do
    let xs ← dumpsElements host toText xs
    some (.array xs)
  | .dict items => do
    let members ← dumpsItems host toText items
    some (.object members)
  | .ndarray x => defaultNdarray host x
  | .bytes _ | .other => none

def dumpsElements (host : Endian) (toText : KeyText) : List Value → Option (List Document)
  | [] => some []
  | x :: xs => do
    let x ← dumps host toText x
    let xs ← dumpsElements host toText xs
    some (x :: xs)

def dumpsItems (host : Endian) (toText : KeyText) :
    List (Value × Value) → Option (List (List UInt16 × Document))
  | [] => some []
  | (key, val) :: items => do
    let key ← keyText toText key
    let val ← dumps host toText val
    let members ← dumpsItems host toText items
    some ((text key, val) :: members)

end

/-! ## `loads` -/

/-- `dct[name]`. -/
def get? (dct : List (Value × Value)) (name : String) : Option Value :=
  (dct.find? fun item => item.1.keyEq (.str (literal name))).map Prod.snd

/-- A real number as a float. Strings and complex numbers do not come from `dumps`. -/
def toFloat : Value → Option UInt64
  | .float bits => some bits
  | .int n =>
    let bits := UInt64.ofNat (Binary.ofInt n)
    if Binary.double.exponentOf bits.toNat = 2047 then none else some bits
  | .bool b => some (UInt64.ofNat (Binary.ofInt b.toInt))
  | _ => none

/-- `complex(real, imag)`. -/
def complex (real imag : Value) : Option Value := do
  let real ← toFloat real
  let imag ← toFloat imag
  some (.complex real imag)

/-- `base64.b64decode(data.encode("ascii"))`. -/
def b64decode (data : List CodePoint) : Option Bytes :=
  if data.all fun c => c.val < 0x80 then Base64.decode (data.map fun c => UInt8.ofNat c.val) else none

/-- An axis of a shape. -/
def toSize : Value → Option Nat
  | .int n => if 0 ≤ n then some n.toNat else none
  | _ => none

/-- `numpy.frombuffer(b64decode(data), dtype).reshape(shape, order = "F")`. -/
def matrix (data dtype shape : Value) : Option Value :=
  match data, dtype, shape with
  | .str data, .str dtype, .list shape => do
    let data ← b64decode data
    let type ← Scalar.ofName? dtype
    let shape ← shape.mapM toSize
    let x ← Ndarray.frombuffer data type.dtype (-1) 0 shape
    some (.ndarray x)
  | _, _, _ => none

/-- `dime_JSON_dechook`. -/
def dechook (dct : List (Value × Value)) : Option Value :=
  match get? dct "__dime_type" with
  | none => some (.dict dct)
  | some type =>
    if type.keyEq (.str (literal "complex")) then do
      complex (← get? dct "real") (← get? dct "imag")
    else if type.keyEq (.str (literal "matrix")) then do
      matrix (← get? dct "data") (← get? dct "dtype") (← get? dct "shape")
    else some (.dict dct)

mutual

def loads : Document → Option Value
  | .null => some .none
  | .boolean b => some (.bool b)
  | .integer n => some (.int n)
  | .float bits => some (.float bits)
  | .string s => some (.str (unescape s))
  | .array xs => do
    let xs ← loadsElements xs
    some (.list xs)
  | .object members => do
    let dct ← loadsMembers members []
    dechook dct

def loadsElements : List Document → Option (List Value)
  | [] => some []
  | x :: xs => do
    let x ← loads x
    let xs ← loadsElements xs
    some (x :: xs)

def loadsMembers : List (List UInt16 × Document) → List (Value × Value) →
    Option (List (Value × Value))
  | [], dct => some dct
  | (key, val) :: members, dct => do
    let val ← loads val
    let dct ← Value.setitem dct (.str (unescape key)) val
    loadsMembers members dct

end

end JsonCodec

end Dime.Python
