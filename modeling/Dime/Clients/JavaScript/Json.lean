import Dime.Clients.JavaScript.Dimeb

/-!
# JavaScript JSON

`jsondumps` and `jsonloads` of `dime.js`. A JSON text is taken as a tree; what
throws an exception returns `none`.
-/

namespace Dime.JavaScript

open Python (Endian)

/-- A JSON text. The members of an object come in the order of their enumeration. -/
inductive Document where
  | null
  | boolean (b : Bool)
  | number (bits : UInt64)
  | string (s : Units)
  | array (xs : List Document)
  | object (members : List (Units × Document))

/-- `base64-arraybuffer`. -/
structure Base64ArrayBuffer where
  encode : Bytes → Units
  decode : Units → Bytes
  decode_encode : ∀ bytes, decode (encode bytes) = bytes

/-! ## Types -/

/-- `dtype_tab[constructor.name]`. -/
def ArrayType.dtype : ArrayType → Value
  | .of .int8 => .string (units "int8")
  | .of .int16 => .string (units "int16")
  | .of .int32 => .string (units "int32")
  | .of .bigInt64 => .string (units "int64")
  | .of .uint8 => .string (units "uint8")
  | .of .uint16 => .string (units "uint16")
  | .of .uint32 => .string (units "uint32")
  | .of .bigUint64 => .string (units "uint64")
  | .of .float32 => .string (units "float32")
  | .of .float64 => .string (units "float64")
  | .uint8Clamped => .undefined

/-- The table in `jsonloads`. -/
def dtypeTab : List (String × ElementType) :=
  [("int8", .int8), ("int16", .int16), ("int32", .int32), ("int64", .bigInt64), ("uint8", .uint8),
    ("uint16", .uint16), ("uint32", .uint32), ("uint64", .bigUint64), ("float32", .float32),
    ("float64", .float64), ("complex64", .float32), ("complex128", .float64)]

/-- `dtype_tab[dtype]`. -/
def constructor? (dtype : Units) : Option ElementType :=
  (dtypeTab.find? fun entry => units entry.1 = dtype).map Prod.snd

/-! ## `jsondumps` -/

/-- `isFinite`. -/
def isFinite (bits : UInt64) : Bool :=
  match datum bits with
  | .finite _ => true
  | _ => false

/-- What is read for a number that has been written: zero has no sign. -/
def textual (bits : UInt64) : UInt64 := if datum bits = .finite 0 then 0 else bits

/-- The property of an object, if it has it. -/
def lookup (entries : List (Units × Value)) (name : String) : Option Value :=
  (entries.find? fun entry => entry.1 = units name).map Prod.snd

/-- `obj.real` and `obj.imag`. -/
def property (obj : Value) (name : String) : Option Value :=
  match obj with
  | .undefined | .null | .other => none
  | .complex real imag =>
    some (if name = "real" then real else if name = "imag" then imag else .undefined)
  | .object entries => some ((lookup entries name).getD .undefined)
  | _ => some .undefined

/-- What the function in `jsondumps` returns for a value, if it is another object. The
`complex` that it asks for is no property of a typed array, so it is `undefined`. -/
def replacer (codec : Base64ArrayBuffer) (obj : Value) : Value → Option (Option (List (String × Value)))
  | .complex _ _ => do
    let real ← property obj "real"
    let imag ← property obj "imag"
    some (some [("__dime_type", .string (units "complex")), ("real", real), ("imag", imag)])
  | .ndarray x =>
    some (some [("__dime_type", .string (units "matrix")), ("dtype", x.array.type.dtype),
      ("shape", .array (x.shape.map fun (n : Nat) => .number (ofInt n))),
      ("data", .string (codec.encode x.array.buffer))])
  | _ => some none

/-- The members that have a text. -/
def present (members : List (Units × Option Document)) : List (Units × Document) :=
  members.filterMap fun member => member.2.map fun doc => (member.1, doc)

/-- What `JSON.stringify` makes of a value within `obj`; `some none` is `undefined`. The
stack has room for a number of calls. -/
def serialize (codec : Base64ArrayBuffer) (obj : Value) : Nat → Value → Option (Option Document)
  | 0, _ => none
  | depth + 1, value => do
    match ← replacer codec obj value with
    | some entries =>
      let members ← entries.mapM fun entry =>
        (serialize codec obj depth entry.2).map fun doc => (units entry.1, doc)
      some (some (.object (present members)))
    | none =>
      match value with
      | .undefined => some none
      | .null => some (some .null)
      | .boolean b => some (some (.boolean b))
      | .number bits => some (some (if isFinite bits then .number (textual bits) else .null))
      | .string s => some (some (.string s))
      | .array xs =>
        let docs ← xs.mapM (serialize codec obj depth)
        some (some (.array (docs.map fun doc => doc.getD .null)))
      | .object entries =>
        let members ← entries.mapM fun entry =>
          (serialize codec obj depth entry.2).map fun doc => (entry.1, doc)
        some (some (.object (present members)))
      | _ => none

/-- `jsondumps`. There is no text for `undefined`. -/
def jsondumps (codec : Base64ArrayBuffer) (depth : Nat) (obj : Value) : Option (Option Document) :=
  serialize codec obj depth obj

/-! ## `jsonloads` -/

theorem TypedArray.within_ofBuffer (type : ElementType) (buffer : Bytes)
    (h : type.itemsize ∣ buffer.length) :
    0 + (ArrayType.of type).itemsize * (buffer.length / type.itemsize) ≤ buffer.length := by
  rw [Nat.zero_add]
  exact Nat.le_of_eq (Nat.mul_div_cancel' h)

theorem TypedArray.aligned_ofBuffer (type : ElementType) : (ArrayType.of type).itemsize ∣ 0 :=
  Nat.dvd_zero _

/-- `new constructor(buffer)`. -/
def TypedArray.ofBuffer (type : ElementType) (buffer : Bytes) : Option TypedArray :=
  if h : type.itemsize ∣ buffer.length then
    some {
      type := .of type
      buffer := buffer
      byteOffset := 0
      length := buffer.length / type.itemsize
      within := within_ofBuffer type buffer h
      aligned := aligned_ofBuffer type }
  else none

/-- A shape that consists of sizes. -/
def sizes? : Value → Option (List Nat)
  | .array xs => xs.mapM fun x =>
    match x with
    | .number bits =>
      (datum bits).integer?.bind fun n => if 0 ≤ n then some n.toNat else none
    | _ => none
  | _ => none

/-- 64-bit integers that are all safe become numbers. -/
def narrowed (host : Endian) (dtype : Units) (array : TypedArray) : Option TypedArray :=
  if (dtype = units "int64" ∨ dtype = units "uint64") ∧ array.everySafe host then
    TypedArray.ofValues host .float64 (array.numbers host)
  else some array

/-- The array that the function in `jsonloads` makes of an object. -/
def reviveMatrix (codec : Base64ArrayBuffer) (host : Endian) (entries : List (Units × Value)) :
    Option Value :=
  match lookup entries "dtype", lookup entries "data" with
  | some (.string dtype), some (.string data) => do
    let type ← constructor? dtype
    let array ← TypedArray.ofBuffer type (codec.decode data)
    let array ← narrowed host dtype array
    match (lookup entries "shape").bind sizes? with
    | some shape => some (.ndarray ⟨.F, shape, array, (units "complex").isPrefixOf dtype⟩)
    | none => some .other
  | _, _ => none

/-- Whether a value is that string. -/
def isString (value : Value) (s : String) : Bool :=
  match value with
  | .string t => t = units s
  | _ => false

/-- The function in `jsonloads`, for an object. -/
def reviver (codec : Base64ArrayBuffer) (host : Endian) (entries : List (Units × Value)) :
    Option Value :=
  match lookup entries "__dime_type" with
  | none => some (.object entries)
  | some type =>
    if isString type "complex" then
      some (.complex ((lookup entries "real").getD .undefined) ((lookup entries "imag").getD .undefined))
    else if isString type "matrix" then reviveMatrix codec host entries
    else some (.object entries)

mutual

/-- `jsonloads` of a text. -/
def revive (codec : Base64ArrayBuffer) (host : Endian) : Document → Option Value
  | .null => some .null
  | .boolean b => some (.boolean b)
  | .number bits => some (.number bits)
  | .string s => some (.string s)
  | .array xs => do
    let xs ← reviveElements codec host xs
    some (.array xs)
  | .object members => do
    let entries ← reviveMembers codec host members
    reviver codec host entries

def reviveElements (codec : Base64ArrayBuffer) (host : Endian) : List Document → Option (List Value)
  | [] => some []
  | x :: xs => do
    let x ← revive codec host x
    let xs ← reviveElements codec host xs
    some (x :: xs)

def reviveMembers (codec : Base64ArrayBuffer) (host : Endian) :
    List (Units × Document) → Option (List (Units × Value))
  | [] => some []
  | (key, val) :: members => do
    let val ← revive codec host val
    let entries ← reviveMembers codec host members
    some ((key, val) :: entries)

end

/-- `jsonloads`. An empty text is none. -/
def jsonloads (codec : Base64ArrayBuffer) (host : Endian) (text : Option Document) : Option Value :=
  text.bind (revive codec host)

end Dime.JavaScript
