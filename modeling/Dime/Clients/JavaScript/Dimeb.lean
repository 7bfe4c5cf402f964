import Dime.Clients.JavaScript.Value
import Dime.Clients.Python.Dimeb

/-!
# JavaScript dimeb

The encoder and the decoder of `dime.js`. What throws an exception returns
`none`.
-/

namespace Dime.JavaScript

open Python (Endian Scalar Tag)

/-! ## Text -/

def replacement : Char := Char.ofNat 0xFFFD

/-- The characters of a string. A surrogate without its other half is replaced. -/
def characters : Units → List Char
  | [] => []
  | high :: s =>
    if 0xD800 ≤ high.toNat ∧ high.toNat < 0xDC00 then
      match s with
      | [] => [replacement]
      | low :: s =>
        if 0xDC00 ≤ low.toNat ∧ low.toNat < 0xE000 then
          Char.ofNat (0x10000 + (high.toNat - 0xD800) * 0x400 + (low.toNat - 0xDC00)) :: characters s
        else replacement :: characters (low :: s)
    else if 0xDC00 ≤ high.toNat ∧ high.toNat < 0xE000 then replacement :: characters s
    else Char.ofNat high.toNat :: characters s

/-- `new TextEncoder().encode(s)`. -/
def encodeText (s : Units) : Bytes := (characters s).flatMap String.utf8EncodeChar

/-- A character of which some bytes have come: how many have not, the bits that
are known, and the bounds of the next byte. -/
structure Pending where
  needed : Nat
  point : Nat
  lower : Nat
  upper : Nat

/-- The first byte of a character. -/
def firstByte (byte : Nat) : List Char × Option Pending :=
  if byte < 0x80 then ([Char.ofNat byte], none)
  else if 0xC2 ≤ byte ∧ byte ≤ 0xDF then ([], some ⟨1, byte % 0x20, 0x80, 0xBF⟩)
  else if 0xE0 ≤ byte ∧ byte ≤ 0xEF then
    ([], some ⟨2, byte % 0x10, if byte = 0xE0 then 0xA0 else 0x80, if byte = 0xED then 0x9F else 0xBF⟩)
  else if 0xF0 ≤ byte ∧ byte ≤ 0xF4 then
    ([], some ⟨3, byte % 8, if byte = 0xF0 then 0x90 else 0x80, if byte = 0xF4 then 0x8F else 0xBF⟩)
  else ([replacement], none)

/-- The next byte. One that does not belong to the character begins another. -/
def nextByte (pending : Option Pending) (byte : Nat) : List Char × Option Pending :=
  match pending with
  | none => firstByte byte
  | some p =>
    if p.lower ≤ byte ∧ byte ≤ p.upper then
      if p.needed = 1 then ([Char.ofNat (p.point * 0x40 + byte % 0x40)], none)
      else ([], some ⟨p.needed - 1, p.point * 0x40 + byte % 0x40, 0x80, 0xBF⟩)
    else (replacement :: (firstByte byte).1, (firstByte byte).2)

def decodeBytes : Option Pending → Bytes → List Char
  | none, [] => []
  | some _, [] => [replacement]
  | pending, byte :: s =>
    (nextByte pending byte.toNat).1 ++ decodeBytes (nextByte pending byte.toNat).2 s

/-- `new TextDecoder().decode(s)`, which leaves out a byte order mark. -/
def decodeText (s : Bytes) : Units :=
  match decodeBytes none s with
  | [] => []
  | c :: chars => if c.toNat = 0xFEFF then chars.flatMap encodeChar else (c :: chars).flatMap encodeChar

/-! ## Types -/

/-- `TYPE_I8` to `TYPE_COMPLEX_DOUBLE`. -/
def scalarCode : Scalar → UInt8
  | .i8 => 0x03
  | .i16 => 0x04
  | .i32 => 0x05
  | .i64 => 0x06
  | .u8 => 0x07
  | .u16 => 0x08
  | .u32 => 0x09
  | .u64 => 0x0A
  | .single => 0x0B
  | .double => 0x0C
  | .complexSingle => 0x0D
  | .complexDouble => 0x0E

/-- The `TYPE_` constants. -/
def code : Tag → UInt8
  | .null => 0x00
  | .true => 0x01
  | .false => 0x02
  | .scalar s => scalarCode s
  | .mat s => 0x10 ||| scalarCode s
  | .string => 0x20
  | .array => 0x21
  | .assocarray => 0x22

/-- The cases in `__loads`. -/
def tag? (byte : UInt8) : Option Tag :=
  match byte with
  | 0x00 => some .null
  | 0x01 => some .true
  | 0x02 => some .false
  | 0x03 => some (.scalar .i8)
  | 0x04 => some (.scalar .i16)
  | 0x05 => some (.scalar .i32)
  | 0x06 => some (.scalar .i64)
  | 0x07 => some (.scalar .u8)
  | 0x08 => some (.scalar .u16)
  | 0x09 => some (.scalar .u32)
  | 0x0A => some (.scalar .u64)
  | 0x0B => some (.scalar .single)
  | 0x0C => some (.scalar .double)
  | 0x0D => some (.scalar .complexSingle)
  | 0x0E => some (.scalar .complexDouble)
  | 0x13 => some (.mat .i8)
  | 0x14 => some (.mat .i16)
  | 0x15 => some (.mat .i32)
  | 0x16 => some (.mat .i64)
  | 0x17 => some (.mat .u8)
  | 0x18 => some (.mat .u16)
  | 0x19 => some (.mat .u32)
  | 0x1A => some (.mat .u64)
  | 0x1B => some (.mat .single)
  | 0x1C => some (.mat .double)
  | 0x1D => some (.mat .complexSingle)
  | 0x1E => some (.mat .complexDouble)
  | 0x20 => some .string
  | 0x21 => some .array
  | 0x22 => some .assocarray
  | _ => none

theorem code_eq (tag : Tag) : code tag = tag.code := by
  cases tag with
  | scalar s => cases s <;> rfl
  | mat s => cases s <;> rfl
  | _ => rfl

theorem tag?_eq (byte : UInt8) : tag? byte = Tag.ofCode byte := rfl

@[simp] theorem tag?_code (tag : Tag) : tag? (code tag) = some tag := by
  rw [code_eq, tag?_eq, Tag.ofCode_code]

/-! ## `dimebdumps` -/

/-- The type of a matrix and the accessor for its elements. -/
def NDArray.dtype? (x : NDArray) : Option (Scalar × ElementType) :=
  match x.array.type with
  | .of .float32 => some (if x.complex then .complexSingle else .single, .float32)
  | .of .float64 => some (if x.complex then .complexDouble else .double, .float64)
  | type =>
    -- the parts of complex numbers become doubles
    if x.complex then some (.complexDouble, .float64)
    else
      match type with
      | .of .int8 => some (.i8, .int8)
      | .of .int16 => some (.i16, .int16)
      | .of .int32 => some (.i32, .int32)
      | .of .bigInt64 => some (.i64, .bigInt64)
      | .of .uint8 => some (.u8, .uint8)
      | .of .uint16 => some (.u16, .uint16)
      | .of .uint32 => some (.u32, .uint32)
      | .of .bigUint64 => some (.u64, .bigUint64)
      | _ => none

/-- The branch of `dimebdumps` for arrays. -/
def dumpsNDArray (host : Endian) (x : NDArray) : Option Bytes := do
  guard (x.order = .F)
  let (dtype, method) ← x.dtype?
  let elements ← (List.range x.array.length).mapM fun i => method.write (x.array.get host i)
  some ([code (.mat dtype), UInt8.ofNat x.shape.length] ++
    (x.shape.map (BigEndian.encode 4)).flatten ++ elements.flatten)

/-- The branch of `dimebdumps` for strings. -/
def dumpsString (s : Units) : Bytes :=
  code .string :: (BigEndian.encode 4 (encodeText s).length ++ encodeText s)

mutual

def dimebdumps (host : Endian) : Value → Option Bytes
  | .null => some [code .null]
  | .boolean b => some [if b then code .true else code .false]
  | .number bits =>
    match (datum bits).integer? with
    | some n => some (code (.scalar .i64) :: BigEndian.encode 8 (n % 2 ^ 64).toNat)
    | none => some (code (.scalar .double) :: BigEndian.encode 8 bits.toNat)
  | .complex real imag => do
    let real ← ElementType.float64.write real
    let imag ← ElementType.float64.write imag
    some (code (.scalar .complexDouble) :: (real ++ imag))
  | .ndarray x => dumpsNDArray host x
  | .string s => some (dumpsString s)
  | .array xs => do
    let elemsbytes ← dumpsElements host xs
    some (code .array :: (BigEndian.encode 4 xs.length ++ elemsbytes))
  | .object entries => do
    let elemsbytes ← dumpsEntries host entries
    some (code .assocarray :: (BigEndian.encode 4 entries.length ++ elemsbytes))
  -- `Object.entries` of a big integer is empty
  | .bigint _ => some (code .assocarray :: BigEndian.encode 4 0)
  | .undefined | .other => none

/-- The elements of an array one after the other. -/
def dumpsElements (host : Endian) : List Value → Option Bytes
  | [] => some []
  | elem :: xs => do
    let elembytes ← dimebdumps host elem
    let elemsbytes ← dumpsElements host xs
    some (elembytes ++ elemsbytes)

/-- The keys and the values of an object by turns. -/
def dumpsEntries (host : Endian) : List (Units × Value) → Option Bytes
  | [] => some []
  | (key, val) :: entries => do
    let valbytes ← dimebdumps host val
    let elemsbytes ← dumpsEntries host entries
    some (dumpsString key ++ valbytes ++ elemsbytes)

end

/-! ## `dimebloads` -/

/-- `new DataView(bytes)`, with an accessor. -/
def getView (type : ElementType) (bytes : Bytes) (byteOffset : Nat) : Option Value :=
  if byteOffset + type.itemsize ≤ bytes.length then
    some (type.read ((bytes.drop byteOffset).take type.itemsize))
  else none

/-- `getUint8` and `getUint32`. -/
def getUint (k : Nat) (bytes : Bytes) (byteOffset : Nat) : Option Nat :=
  if byteOffset + k ≤ bytes.length then some (BigEndian.decode ((bytes.drop byteOffset).take k))
  else none

def isSafe (n : Int) : Bool := -maxSafeInteger ≤ n ∧ n ≤ maxSafeInteger

/-- The test for which an array of big integers becomes one of numbers. -/
def TypedArray.everySafe (host : Endian) (a : TypedArray) : Bool :=
  (List.range a.length).all fun i =>
    match a.get host i with
    | .bigint n => isSafe n
    | _ => false

/-- `Array.from(obj.array).map(Number)`. -/
def TypedArray.numbers (host : Endian) (a : TypedArray) : List Value :=
  (List.range a.length).map fun i =>
    match a.get host i with
    | .bigint n => .number (ofInt n)
    | value => value

/-- `__loadsmat`. -/
def loadsmat (host : Endian) (bytes : Bytes) (type : ElementType) (complex : Bool) :
    Option (NDArray × Nat) := do
  let rank ← getUint 1 bytes 1
  let shape ← (List.range rank).mapM fun i => getUint 4 bytes (2 + i * 4)
  -- a product of no numbers is an error
  guard (shape ≠ [])
  let shape := if shape.length = 1 then 1 :: shape else shape
  let nelems := shape.prod * if complex then 2 else 1
  let values ← (List.range nelems).mapM fun i =>
    getView type bytes (2 + 4 * rank + i * type.itemsize)
  let array ← TypedArray.ofValues host type values
  some (⟨.F, shape, array, complex⟩, 2 + 4 * rank + nelems * type.itemsize)

/-- What `__loads` makes of an array of big integers. -/
def NDArray.toFloat64 (host : Endian) (x : NDArray) : Option NDArray := do
  let array ← TypedArray.ofValues host .float64 (x.array.numbers host)
  some { x with array := array }

/-- The cases of `__loads` for matrices. -/
def loadsMatrix (host : Endian) (bytes : Bytes) : Scalar → Option (NDArray × Nat)
  | .i8 => loadsmat host bytes .int8 false
  | .i16 => loadsmat host bytes .int16 false
  | .i32 => loadsmat host bytes .int32 false
  | .i64 => do
    let (obj, nread) ← loadsmat host bytes .bigInt64 false
    if obj.array.everySafe host then
      let obj ← obj.toFloat64 host
      some (obj, nread)
    else some (obj, nread)
  | .u8 => loadsmat host bytes .uint8 false
  | .u16 => loadsmat host bytes .uint16 false
  | .u32 => loadsmat host bytes .uint32 false
  | .u64 => do
    let (obj, nread) ← loadsmat host bytes .bigUint64 false
    -- `Float64Array.from` is no constructor, so `new` throws
    if obj.array.everySafe host then none else some (obj, nread)
  | .single => loadsmat host bytes .float32 false
  | .double => loadsmat host bytes .float64 false
  | .complexSingle => loadsmat host bytes .float32 true
  | .complexDouble => loadsmat host bytes .float64 true

/-- A big integer that a number can stand for becomes a number. -/
def toSafe : Value → Value
  | .bigint n => if isSafe n then .number (ofInt n) else .bigint n
  | value => value

/-- The cases of `__loads` for scalars. -/
def loadsScalar (bytes : Bytes) : Scalar → Option (Value × Nat)
  | .i8 => (getView .int8 bytes 1).map (·, 2)
  | .i16 => (getView .int16 bytes 1).map (·, 3)
  | .i32 => (getView .int32 bytes 1).map (·, 5)
  | .i64 => (getView .bigInt64 bytes 1).map fun obj => (toSafe obj, 9)
  | .u8 => (getView .uint8 bytes 1).map (·, 2)
  | .u16 => (getView .uint16 bytes 1).map (·, 3)
  | .u32 => (getView .uint32 bytes 1).map (·, 5)
  | .u64 => (getView .bigUint64 bytes 1).map fun obj => (toSafe obj, 9)
  | .single => (getView .float32 bytes 1).map (·, 5)
  | .double => (getView .float64 bytes 1).map (·, 9)
  | .complexSingle => do
    let realpart ← getView .float32 bytes 1
    let imagpart ← getView .float32 bytes 5
    some (.complex realpart imagpart, 9)
  | .complexDouble => do
    let realpart ← getView .float64 bytes 1
    let imagpart ← getView .float64 bytes 9
    some (.complex realpart imagpart, 17)

/-- The index that a key stands for. -/
def arrayIndex? (key : Units) : Option Nat :=
  let n := key.foldl (fun n digit => 10 * n + (digit.toNat - 48)) 0
  if key ≠ [] ∧ (key.all fun digit => 48 ≤ digit.toNat ∧ digit.toNat ≤ 57) ∧
      (key.head? = some 48 → key.length = 1) ∧ n < 2 ^ 32 - 1 then some n
  else none

/-- A new property comes after the others, an index after the smaller ones. -/
def insertProperty (entries : List (Units × Value)) (key : Units) (val : Value) :
    List (Units × Value) :=
  match arrayIndex? key with
  | none => entries ++ [(key, val)]
  | some n =>
    let before := fun entry : Units × Value =>
      match arrayIndex? entry.1 with
      | some m => decide (m < n)
      | none => false
    entries.takeWhile before ++ (key, val) :: entries.dropWhile before

/-- `obj[key] = val`. The property `__proto__` is not the object's own. -/
def setProperty (entries : List (Units × Value)) (key : Units) (val : Value) : List (Units × Value) :=
  if key = units "__proto__" then entries
  else if entries.any (fun entry => entry.1 = key) then
    entries.map fun entry => if entry.1 = key then (key, val) else entry
  else insertProperty entries key val

/-- What `ToPropertyKey` makes of the values that are no strings. -/
abbrev PropertyKey := Value → Option Units

def propertyKey (toKey : PropertyKey) : Value → Option Units
  | .string s => some s
  | value => toKey value

mutual

/-- `__loads`: the value at the front and its length. -/
def loads (host : Endian) (toKey : PropertyKey) : Bytes → Option (Value × Nat)
  | [] => none
  | byte :: rest =>
    match tag? byte with
    | none => none
    | some .null => some (.null, 1)
    | some .true => some (.boolean true, 1)
    | some .false => some (.boolean false, 1)
    | some (.scalar type) => loadsScalar (byte :: rest) type
    | some (.mat type) => do
      let (obj, nread) ← loadsMatrix host (byte :: rest) type
      some (.ndarray obj, nread)
    | some .string => do
      let len ← getUint 4 (byte :: rest) 1
      some (.string (decodeText (((byte :: rest).drop 5).take len)), len + 5)
    | some .array => do
      let len ← getUint 4 (byte :: rest) 1
      let (obj, nread) ← loadsElements host toKey len ((byte :: rest).drop 5)
      some (.array obj, 5 + nread)
    | some .assocarray => do
      let len ← getUint 4 (byte :: rest) 1
      let (obj, nread) ← loadsEntries host toKey len ((byte :: rest).drop 5) []
      some (.object obj, 5 + nread)
termination_by bytes => (bytes.length, 0)
decreasing_by
  all_goals exact Prod.Lex.left _ _ (by rw [List.length_drop, List.length_cons]; omega)

/-- The loop over the elements of an array, on what is left of the bytes. -/
def loadsElements (host : Endian) (toKey : PropertyKey) :
    Nat → Bytes → Option (List Value × Nat)
  | 0, _ => some ([], 0)
  | len + 1, bytes => do
    let (elem, elem_siz) ← loads host toKey bytes
    let (obj, nread) ← loadsElements host toKey len (bytes.drop elem_siz)
    some (elem :: obj, elem_siz + nread)
termination_by len bytes => (bytes.length, len + 1)
decreasing_by
  · exact Prod.Lex.right _ (Nat.succ_pos _)
  · exact Python.Dimeb.drop_lex bytes _ (Nat.lt_succ_self _)

/-- The loop over the entries of an object, on what is left of the bytes. -/
def loadsEntries (host : Endian) (toKey : PropertyKey) :
    Nat → Bytes → List (Units × Value) → Option (List (Units × Value) × Nat)
  | 0, _, obj => some (obj, 0)
  | len + 1, bytes, obj => do
    let (key, key_siz) ← loads host toKey bytes
    let (val, val_siz) ← loads host toKey (bytes.drop key_siz)
    let key ← propertyKey toKey key
    let (obj, nread) ← loadsEntries host toKey len (bytes.drop (key_siz + val_siz))
      (setProperty obj key val)
    some (obj, key_siz + val_siz + nread)
termination_by len bytes => (bytes.length, len + 1)
decreasing_by
  · exact Prod.Lex.right _ (Nat.succ_pos _)
  · exact Python.Dimeb.drop_lex bytes _ (Nat.succ_pos _)
  · exact Python.Dimeb.drop_lex bytes _ (Nat.lt_succ_self _)

end

def dimebloads (host : Endian) (toKey : PropertyKey) (bytes : Bytes) : Option Value :=
  (loads host toKey bytes).map Prod.fst

end Dime.JavaScript
