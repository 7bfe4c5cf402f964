import Dime.Clients.Matlab.Value
import Dime.Clients.Python.Dimeb

/-!
# Matlab dimeb

The functions `dimebdumps` and `dimebloads`. What is an error returns `none`.
-/

namespace Dime.Matlab

open Binary (Datum)
open Python (Endian Scalar Tag)

/-! ## Bytes and numbers -/

/-- The bytes of a number in memory; `computer` tells the order. -/
def inMemory (computer : Endian) (s : Bytes) : Bytes := if computer = .little then s.reverse else s

variable {cls : NumClass}

/-- `typecast(x, 'uint8')` of a number. -/
def toBytes (computer : Endian) (x : cls.Word) : Bytes :=
  inMemory computer (BigEndian.encode cls.itemsize x)

/-- `swapbytes(x)`. -/
def swapbytes (x : cls.Word) : cls.Word :=
  Fin.ofNat _ (BigEndian.decode (BigEndian.encode cls.itemsize x).reverse)

/-- `if ENDIANNESS == 'L', x = swapbytes(x); end`. -/
def swap (computer : Endian) (x : cls.Word) : cls.Word :=
  if computer = .little then swapbytes x else x

/-- The parts of `k` bytes. -/
def chunks (k : Nat) : Nat → Bytes → List Bytes
  | 0, _ => []
  | n + 1, s => s.take k :: chunks k n (s.drop k)

/-- `typecast(s, cls)`. -/
def typecast (computer : Endian) (cls : NumClass) (s : Bytes) : Option (List cls.Word) :=
  if cls.itemsize ∣ s.length then
    some ((chunks cls.itemsize (s.length / cls.itemsize) s).map fun item =>
      Fin.ofNat _ (BigEndian.decode (inMemory computer item)))
  else none

/-- `uint8(n)`, which saturates, as every sum and product of an `uint8` and a `double`. -/
def uint8 (n : Nat) : Nat := min n 255

/-- `uint32(n)`. -/
def uint32 (n : Nat) : NumClass.uint32.Word := Fin.ofNat _ (min n (2 ^ 32 - 1))

/-- `s(i:j)`. -/
def range (s : Bytes) (i j : Nat) : Option Bytes :=
  if j < i then some [] else if j ≤ s.length then some ((s.drop (i - 1)).take (j + 1 - i)) else none

/-! ## Types -/

/-- `TYPE_I8` to `TYPE_DOUBLE`. -/
def NumClass.type : NumClass → Scalar
  | int8 => .i8
  | int16 => .i16
  | int32 => .i32
  | int64 => .i64
  | uint8 => .u8
  | uint16 => .u16
  | uint32 => .u32
  | uint64 => .u64
  | single => .single
  | double => .double

/-- `TYPE_COMPLEX_SINGLE` and `TYPE_COMPLEX_DOUBLE`. -/
def NumClass.complexType : NumClass → Scalar
  | single => .complexSingle
  | _ => .complexDouble

/-! ## `dimebdumps` -/

namespace Dimeb

/-- The bytes of `uint32(n)`. -/
def sizeBytes (computer : Endian) (n : Nat) : Bytes := toBytes computer (swap computer (uint32 n))

/-- The bytes of a part of a complex number, for which integers become doubles. -/
def partBytes (computer : Endian) : (cls : NumClass) → cls.Word → Bytes
  | .single, x => toBytes computer (swap computer x)
  | cls, x => toBytes computer (swap computer (Fin.ofNat _ (cls.toDouble x) : NumClass.double.Word))

/-- The rank and the shape of an array. -/
def shapeBytes (computer : Endian) (size : Size) : Bytes :=
  UInt8.ofNat (uint8 size.dims.length) :: size.dims.flatMap (sizeBytes computer)

def dumpsNumeric (computer : Endian) (x : Numeric) : Bytes :=
  if x.size.numel = 0 then [Tag.null.code]
  else
    match x.im with
    | none =>
      let data := x.re.data.flatMap fun re => toBytes computer (swap computer re)
      if x.size.dims = [1, 1] then (Tag.scalar x.cls.type).code :: data
      else (Tag.mat x.cls.type).code :: (shapeBytes computer x.size ++ data)
    | some im =>
      let data := (x.re.data.zip im).flatMap fun element =>
        partBytes computer x.cls element.1 ++ partBytes computer x.cls element.2
      if x.size.dims = [1, 1] then (Tag.scalar x.cls.complexType).code :: data
      else (Tag.mat x.cls.complexType).code :: (shapeBytes computer x.size ++ data)

/-- Only a row of characters can be put behind its size. -/
def dumpsChar (computer : Endian) (x : Grid UInt16) : Option Bytes :=
  if x.size.numel = 0 then some [Tag.null.code]
  else if x.size.dims = [1, x.data.length] then
    some (Tag.string.code :: (sizeBytes computer x.size.length ++
      x.data.map fun c => UInt8.ofNat (uint8 c.toNat)))
  else none

/-- There is no type for an array of truth values. -/
def dumpsLogical (x : Grid Bool) : Option Bytes :=
  if x.size.numel = 0 then some [Tag.null.code]
  else if x.size.dims = [1, 1] then
    x.data.head?.map fun b => [if b then Tag.true.code else Tag.false.code]
  else none

def dumpsKey (computer : Endian) : Key → Option Bytes
  | .char chars => dumpsChar computer (Grid.row chars)
  | .number cls bits => some (dumpsNumeric computer (.real (Grid.scalar (Fin.ofNat _ bits : cls.Word))))

def dumps (computer : Endian) : Value → Option Bytes
  | .logical x => dumpsLogical x
  | .numeric x => some (dumpsNumeric computer x)
  | .char x => dumpsChar computer x
  | .cell size elements => do
    let parts ← (List.ofFn fun i => dumps computer (elements i)).mapM id
    some (Tag.array.code :: (sizeBytes computer size.length ++ parts.flatten))
  | .struct names vals => do
    let parts ← (List.ofFn fun i => do
      let key ← dumpsChar computer (Grid.row (names.1.get i).chars)
      let val ← dumps computer (vals i)
      some (key ++ val)).mapM id
    some (Tag.assocarray.code :: (sizeBytes computer names.1.length ++ parts.flatten))
  | .map _ keys vals =>
    if keys = [] then some [Tag.null.code]
    else do
      let parts ← (List.ofFn fun i => do
        let key ← dumpsKey computer (keys.get i)
        let val ← dumps computer (vals i)
        some (key ++ val)).mapM id
      some (Tag.assocarray.code :: (sizeBytes computer keys.length ++ parts.flatten))

end Dimeb

/-! ## `containers.Map` -/

/-- A real number rounded to an integer class: halves away from zero, and saturated. -/
def NumClass.ofDatum (cls : NumClass) (d : Datum) : Nat :=
  let low : Int := match cls with
    | int8 | int16 | int32 | int64 => -256 ^ cls.itemsize / 2
    | _ => 0
  let high : Int := match cls with
    | int8 | int16 | int32 | int64 => 256 ^ cls.itemsize / 2 - 1
    | _ => 256 ^ cls.itemsize - 1
  let n : Int := match d with
    | .finite scaled => scaled.sign * ((2 * scaled.natAbs + 2 ^ 1074) / 2 ^ 1075 : Nat)
    | .infinite negative => if negative then low else high
    | .nan => 0
  ((max low (min n high)) % 256 ^ cls.itemsize).toNat

/-- An integer as a `single`. -/
def singleOfInt (n : Int) : Nat :=
  if n = 0 then 0
  else
    let k := n.natAbs.log2
    let magnitude := (k + 126) * 2 ^ 23 + Binary.round (n.natAbs * 2 ^ (23 - k)) (k - 23)
    Binary.single.pack (n < 0) 0 (min magnitude (255 * 2 ^ 23))

/-- A number of one class as one of another. -/
def NumClass.convert (source target : NumClass) (bits : Nat) : Nat :=
  if source = target then bits
  else
    match target with
    | double => source.toDouble bits
    | single =>
      match source.integer? bits with
      | some n => singleOfInt n
      | none => Binary.narrow bits
    | target => target.ofDatum (source.datum bits)

/-- Whether a number comes before another one. -/
def below : Datum → Datum → Bool
  | .finite x, .finite y => x < y
  | .infinite negative, .finite _ => negative
  | .finite _, .infinite negative => !negative
  | .infinite x, .infinite y => x && !y
  | _, .nan => true
  | .nan, _ => false

/-- The order of the keys of a map. -/
def Key.below : Key → Key → Bool
  | .char s, .char t => s.map UInt16.toNat < t.map UInt16.toNat
  | .number cls x, .number cls' y => Matlab.below (cls.datum x) (cls'.datum y)
  | _, _ => false

/-- The key type for the class of a value. -/
def KeyType.ofClass? : Value → Option KeyType
  | .char _ => some .char
  | .numeric x => some (.number x.cls)
  | _ => none

/-- A value as a key. -/
def Key.ofValue? : KeyType → Value → Option Key
  | .char, .char x =>
    if x.size.dims = [1, x.data.length] ∨ x.data = [] then some (.char x.data) else none
  | .number cls, .numeric x =>
    match x.im, x.re.data with
    | none, [re] => some (.number cls (x.cls.convert cls re))
    | _, _ => none
  | .number cls, .logical x =>
    match x.data with
    | [b] => some (.number cls (NumClass.uint8.convert cls (if b then 1 else 0)))
    | _ => none
  | _, _ => none

/-- `obj(key) = val` for a map, whose keys are in order. -/
def mapAssign (key : Key) (val : Value) : List (Key × Value) → List (Key × Value)
  | [] => [(key, val)]
  | entry :: entries =>
    if entry.1.below key then entry :: mapAssign key val entries
    else if key.below entry.1 then (key, val) :: entry :: entries
    else (entry.1, val) :: entries

/-! ## `dimebloads` -/

namespace Dimeb

/-- `TYPE_I8` to `TYPE_DOUBLE`. -/
def loadsReal (computer : Endian) (bytes : Bytes) (cls : NumClass) : Option (Value × Nat) := do
  let obj ← typecast computer cls (← range bytes 2 (cls.itemsize + 1))
  let obj := obj.map (swap computer)
  some (.numeric (.real (Grid.row obj)), cls.itemsize + 1)

/-- `complex(re, im)`, of the size of the parts. -/
def complex (re im : List cls.Word) (dims : List Nat) : Option Value := do
  let re ← Grid.reshape re dims
  if h : im.length = re.data.length then
    some (.numeric ⟨cls, re, some im, fun _ heq => Option.some.inj heq ▸ h⟩)
  else none

/-- `TYPE_COMPLEX_SINGLE` and `TYPE_COMPLEX_DOUBLE`. -/
def loadsComplex (computer : Endian) (bytes : Bytes) (cls : NumClass) : Option (Value × Nat) := do
  let realimag ← typecast computer cls (← range bytes 2 (2 * cls.itemsize + 1))
  let realimag := realimag.map (swap computer)
  let obj ← complex (realimag.take 1) (realimag.drop 1) [1, 1]
  some (obj, 2 * cls.itemsize + 1)

/-- The shape of an array, and where its data begin. -/
def loadsShape (computer : Endian) (bytes : Bytes) : Option (List Nat × Nat) := do
  let rank ← bytes[1]?
  let stop := uint8 (uint8 (4 * rank.toNat) + 2)
  let shape ← typecast computer .uint32 (← range bytes 3 stop)
  some (shape.map fun n => (swap computer n).val, stop)

/-- `loads_mat`. -/
def loadsMat (computer : Endian) (bytes : Bytes) (cls : NumClass) : Option (Value × Nat) := do
  let (shape, stop) ← loadsShape computer bytes
  let shape := if shape.length = 1 then shape ++ [1] else shape
  let nread := uint8 (stop + shape.prod * cls.itemsize)
  let obj ← typecast computer cls (← range bytes (uint8 (stop + 1)) nread)
  let obj := obj.map (swap computer)
  let obj ← Grid.reshape obj shape
  some (.numeric (.real obj), nread)

/-- The elements at odd and at even places. -/
def deinterleave {α : Type} : List α → List α × List α
  | [] => ([], [])
  | [x] => ([x], [])
  | x :: y :: rest => (x :: (deinterleave rest).1, y :: (deinterleave rest).2)

/-- `TYPE_MAT_COMPLEX_SINGLE` and `TYPE_MAT_COMPLEX_DOUBLE`. A vector has a shape of one
number, which `reshape` does not take. -/
def loadsMatComplex (computer : Endian) (bytes : Bytes) (cls : NumClass) : Option (Value × Nat) := do
  let (shape, stop) ← loadsShape computer bytes
  let nread := uint8 (stop + shape.prod * (2 * cls.itemsize))
  let realimag ← typecast computer cls (← range bytes (uint8 (stop + 1)) nread)
  let parts := deinterleave realimag
  let obj ← complex (parts.1.map (swap computer)) (parts.2.map (swap computer)) shape
  some (obj, nread)

/-- The size in a header. -/
def loadsSize (computer : Endian) (bytes : Bytes) : Option Nat := do
  let siz ← typecast computer .uint32 (← range bytes 2 5)
  siz.head?.map fun n => (swap computer n).val

/-- `TYPE_STRING`. The end is a saturated `uint32`. -/
def loadsString (computer : Endian) (bytes : Bytes) : Option (Value × Nat) := do
  let siz ← loadsSize computer bytes
  let nread := min (5 + siz) (2 ^ 32 - 1)
  let chars ← range bytes 6 nread
  some (.char (Grid.row (chars.map fun byte => UInt16.ofNat byte.toNat)), nread)

/-- The loop variable `obj` of `TYPE_ASSOCARRAY`. -/
inductive Assoc where
  | struct (fields : { fields : List (FieldName × Value) // (fields.map Prod.fst).Nodup })
  | map (keyType : KeyType) (entries : List (Key × Value))

namespace Assoc

/-- The name of a field that a value can be. -/
def fieldName? : Value → Option FieldName
  | .char x =>
    if x.size.dims = [1, x.data.length] then
      if h : isFieldName x.data = true then some ⟨x.data, h⟩ else none
    else none
  | _ => none

/-- `containers.Map` with the fields of a structure, or without keys for the class of `key`. -/
def toMap (fields : List (FieldName × Value)) (key : Value) : Option (KeyType × List (Key × Value)) :=
  if fields = [] then (KeyType.ofClass? key).map fun keyType => (keyType, [])
  else
    some (.char, fields.foldl (fun entries field => mapAssign (.char field.1.chars) field.2 entries) [])

/-- `obj.(key) = val` or `obj(key) = val`. -/
def assign (key val : Value) : Assoc → Option Assoc
  | struct fields =>
    match fieldName? key with
    | some name => some (struct ⟨Association.insert name val fields.1, Association.nodup_insert fields.2⟩)
    | none => do
      let (keyType, entries) ← toMap fields.1 key
      let key ← Key.ofValue? keyType key
      some (map keyType (mapAssign key val entries))
  | map keyType entries => do
    let key ← Key.ofValue? keyType key
    some (map keyType (mapAssign key val entries))

def toValue : Assoc → Value
  | struct fields => .struct ⟨fields.1.map Prod.fst, fields.2⟩ fun i =>
      (fields.1.get (i.cast (List.length_map Prod.fst))).2
  | map keyType entries => .map keyType (entries.map Prod.fst) fun i =>
      (entries.get (i.cast (List.length_map Prod.fst))).2

end Assoc

mutual

/-- `loads`: the value at the front and the number of bytes read. -/
def loadsPrefix (computer : Endian) : Bytes → Option (Value × Nat)
  | [] => none
  | tag :: s =>
    match Tag.ofCode tag with
    | none => none
    | some .null => some (.numeric (.real (Grid.empty : Grid NumClass.double.Word)), 1)
    | some .true => some (.logical (Grid.scalar true), 1)
    | some .false => some (.logical (Grid.scalar false), 1)
    | some (.scalar .i8) => loadsReal computer (tag :: s) .int8
    | some (.scalar .i16) => loadsReal computer (tag :: s) .int16
    | some (.scalar .i32) => loadsReal computer (tag :: s) .int32
    | some (.scalar .i64) => loadsReal computer (tag :: s) .int64
    | some (.scalar .u8) => loadsReal computer (tag :: s) .uint8
    | some (.scalar .u16) => loadsReal computer (tag :: s) .uint16
    | some (.scalar .u32) => loadsReal computer (tag :: s) .uint32
    | some (.scalar .u64) => loadsReal computer (tag :: s) .uint64
    | some (.scalar .single) => loadsReal computer (tag :: s) .single
    | some (.scalar .double) => loadsReal computer (tag :: s) .double
    | some (.scalar .complexSingle) => loadsComplex computer (tag :: s) .single
    | some (.scalar .complexDouble) => loadsComplex computer (tag :: s) .double
    | some (.mat .i8) => loadsMat computer (tag :: s) .int8
    | some (.mat .i16) => loadsMat computer (tag :: s) .int16
    | some (.mat .i32) => loadsMat computer (tag :: s) .int32
    | some (.mat .i64) => loadsMat computer (tag :: s) .int64
    | some (.mat .u8) => loadsMat computer (tag :: s) .uint8
    | some (.mat .u16) => loadsMat computer (tag :: s) .uint16
    | some (.mat .u32) => loadsMat computer (tag :: s) .uint32
    | some (.mat .u64) => loadsMat computer (tag :: s) .uint64
    | some (.mat .single) => loadsMat computer (tag :: s) .single
    | some (.mat .double) => loadsMat computer (tag :: s) .double
    | some (.mat .complexSingle) => loadsMatComplex computer (tag :: s) .single
    | some (.mat .complexDouble) => loadsMatComplex computer (tag :: s) .double
    | some .string => loadsString computer (tag :: s)
    | some .array => do
      let siz ← loadsSize computer (tag :: s)
      let (elements, nread) ← loadsElements computer siz ((tag :: s).drop 5)
      some (.row elements, 5 + nread)
    | some .assocarray => do
      let siz ← loadsSize computer (tag :: s)
      let (obj, nread) ← loadsPairs computer siz ((tag :: s).drop 5) (.struct ⟨[], List.nodup_nil⟩)
      some (obj.toValue, 5 + nread)
termination_by s => (s.length, 0)
decreasing_by
  all_goals exact Prod.Lex.left _ _ (by rw [List.length_drop, List.length_cons]; omega)

/-- The loop of `TYPE_ARRAY`, on what is left of the bytes. -/
def loadsElements (computer : Endian) : Nat → Bytes → Option (List Value × Nat)
  | 0, _ => some ([], 0)
  | siz + 1, s => do
    let (elem, elem_siz) ← loadsPrefix computer s
    let (elements, nread) ← loadsElements computer siz (s.drop elem_siz)
    some (elem :: elements, elem_siz + nread)
termination_by siz s => (s.length, siz + 1)
decreasing_by
  · exact Prod.Lex.right _ (Nat.succ_pos _)
  · exact Python.Dimeb.drop_lex s _ (Nat.lt_succ_self _)

/-- The loop of `TYPE_ASSOCARRAY`, on what is left of the bytes. -/
def loadsPairs (computer : Endian) : Nat → Bytes → Assoc → Option (Assoc × Nat)
  | 0, _, obj => some (obj, 0)
  | siz + 1, s, obj => do
    let (key, key_siz) ← loadsPrefix computer s
    let (val, val_siz) ← loadsPrefix computer (s.drop key_siz)
    let obj ← obj.assign key val
    let (obj, nread) ← loadsPairs computer siz (s.drop (key_siz + val_siz)) obj
    some (obj, key_siz + val_siz + nread)
termination_by siz s => (s.length, siz + 1)
decreasing_by
  · exact Prod.Lex.right _ (Nat.succ_pos _)
  · exact Python.Dimeb.drop_lex s _ (Nat.succ_pos _)
  · exact Python.Dimeb.drop_lex s _ (Nat.lt_succ_self _)

end

end Dimeb

def dimebdumps (computer : Endian) (obj : Value) : Option Bytes := Dimeb.dumps computer obj

def dimebloads (computer : Endian) (bytes : Bytes) : Option Value :=
  (Dimeb.loadsPrefix computer bytes).map Prod.fst

end Dime.Matlab
