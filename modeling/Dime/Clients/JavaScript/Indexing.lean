import Dime.Clients.JavaScript.Json

/-!
# Indices of JavaScript arrays

`_makeIndex`, `get`, `set`, `column` and `row` of `NDArray` in `dime.js`: each index
vector has a place of its own, where values are stored, and columns and rows are
slices.
-/

namespace Dime.JavaScript

open Python (Endian)

/-! ## Storing elements -/

/-- `ToUint8Clamp`. -/
def toUint8Clamp : Binary.Datum → Nat
  | .finite scaled => Binary.round (min scaled.toNat (255 * 2 ^ 1074)) 1074
  | .infinite negative => if negative then 0 else 255
  | .nan => 0

/-- The bytes that an array keeps for a value, most significant byte first. -/
def ArrayType.write : ArrayType → Value → Option Bytes
  | .of type, value => type.write value
  | .uint8Clamped, value => do
    let bits ← toNumber value
    some (BigEndian.encode 1 (toUint8Clamp (datum bits)))

theorem ArrayType.length_write {type : ArrayType} {value : Value} {item : Bytes}
    (h : type.write value = some item) : item.length = type.itemsize := by
  cases type with
  | of type => exact ElementType.length_write h
  | uint8Clamped =>
      obtain ⟨bits, _, hitem⟩ := Option.bind_eq_some_iff.mp h
      rw [← Option.some.inj hitem, BigEndian.length_encode]
      rfl

namespace TypedArray

variable {a : TypedArray} {i : Nat}

theorem item_within (a : TypedArray) (hi : i < a.length) :
    a.byteOffset + a.type.itemsize * i + a.type.itemsize ≤ a.buffer.length := by
  have hlast : a.type.itemsize * (i + 1) ≤ a.type.itemsize * a.length := Nat.mul_le_mul_left _ hi
  have hwithin := a.within
  rw [Nat.mul_succ] at hlast
  omega

/-- The array with other bytes for an element. -/
def store (host : Endian) (a : TypedArray) (i : Nat) (item : Bytes) (hi : i < a.length)
    (hitem : item.length = a.type.itemsize) : TypedArray :=
  { a with
    buffer := Strided.overwrite a.buffer (a.byteOffset + a.type.itemsize * i) (ordered host item)
    within := by
      have hin := a.item_within hi
      have hlen : (ordered host item).length = a.type.itemsize :=
        (length_ordered host item).trans hitem
      rw [Strided.length_overwrite (by rwa [hlen])]
      exact a.within }

/-- `a[i] = value`. The value is converted before the index is looked at. -/
def set (host : Endian) (a : TypedArray) (i : Nat) (value : Value) : Option TypedArray :=
  match h : a.type.write value with
  | none => none
  | some item =>
    some (if hi : i < a.length then a.store host i item hi (ArrayType.length_write h) else a)

theorem range_within (a : TypedArray) (start stop : Nat) :
    a.byteOffset + a.type.itemsize * min start a.length +
      a.type.itemsize * (min stop a.length - min start a.length) ≤ a.buffer.length := by
  have hlast : a.type.itemsize * min start a.length +
      a.type.itemsize * (min stop a.length - min start a.length) ≤ a.type.itemsize * a.length := by
    rw [← Nat.mul_add]
    apply Nat.mul_le_mul_left
    omega
  have hwithin := a.within
  omega

/-- `array.slice(start, end)`: a copy of the elements. -/
def slice (a : TypedArray) (start stop : Nat) : TypedArray where
  type := a.type
  buffer := (a.buffer.drop (a.byteOffset + a.type.itemsize * min start a.length)).take
    (a.type.itemsize * (min stop a.length - min start a.length))
  byteOffset := 0
  length := min stop a.length - min start a.length
  within := by
    have hrange := a.range_within start stop
    rw [List.length_take, List.length_drop]
    omega
  aligned := Nat.dvd_zero _

/-- `new Float64Array(length)`. -/
def zeros (length : Nat) : TypedArray where
  type := .of .float64
  buffer := List.replicate (8 * length) 0
  byteOffset := 0
  length
  within := by
    rw [List.length_replicate, Nat.zero_add]
    rfl
  aligned := Nat.dvd_zero _

end TypedArray

/-- A value that an element of that type can have. -/
def ArrayType.Has (type : ArrayType) (value : Value) : Prop :=
  ∃ item : Bytes, item.length = type.itemsize ∧ type.element.read item = value

theorem toUint8Clamp_ofInt {n : Nat} (h : n ≤ 255) : toUint8Clamp (.ofInt n) = n := by
  have hscaled : ((n : Int) * 2 ^ 1074).toNat = n * 2 ^ 1074 := by
    have hcast : (n : Int) * 2 ^ 1074 = (n * 2 ^ 1074 : Nat) := by
      rw [Int.natCast_mul, Int.natCast_pow]
      rfl
    rw [hcast, Int.toNat_natCast]
  have hmin : min (n * 2 ^ 1074) (255 * 2 ^ 1074) = n * 2 ^ 1074 :=
    Nat.min_eq_left (Nat.mul_le_mul_right _ h)
  rw [Binary.Datum.ofInt, toUint8Clamp, hscaled, hmin, Binary.round_mul]

/-- What an element can have is kept as it is. -/
theorem ArrayType.write_of_has {type : ArrayType} {value : Value} (h : type.Has value) :
    ∃ item, type.write value = some item ∧ type.element.read item = value := by
  obtain ⟨item, hlen, rfl⟩ := h
  cases type with
  | uint8Clamped =>
      have hbyte : BigEndian.decode item ≤ 255 := by
        have hlt := BigEndian.decode_lt item
        rw [hlen] at hlt
        exact Nat.le_of_lt_succ hlt
      have hsmall : (BigEndian.decode item : Int).natAbs < 2 ^ 53 := by
        rw [Int.natAbs_natCast]
        omega
      refine ⟨item, ?_, rfl⟩
      have hclamp : toUint8Clamp (datum (ofInt (BigEndian.decode item))) = BigEndian.decode item := by
        rw [datum_ofInt hsmall, toUint8Clamp_ofInt hbyte]
      refine congrArg some ((congrArg (BigEndian.encode 1) hclamp).trans ?_)
      have hback := BigEndian.encode_decode item
      rwa [hlen] at hback
  | of type => exact ElementType.exists_write_read hlen

namespace TypedArray

variable {a : TypedArray} {i : Nat} {item : Bytes}

/-- Different elements stand apart. -/
theorem elements_apart (size : Nat) {i j : Nat} (hne : j ≠ i) (base : Nat) :
    base + size * j + size ≤ base + size * i ∨ base + size * i + size ≤ base + size * j := by
  rcases Nat.lt_or_gt_of_ne hne with hlt | hgt
  · left
    have hle : size * (j + 1) ≤ size * i := Nat.mul_le_mul_left _ hlt
    rw [Nat.mul_succ] at hle
    omega
  · right
    have hle : size * (i + 1) ≤ size * j := Nat.mul_le_mul_left _ hgt
    rw [Nat.mul_succ] at hle
    omega

theorem item_store (host : Endian) (hi : i < a.length) (hitem : item.length = a.type.itemsize) :
    (a.store host i item hi hitem).item i = ordered host item := by
  have hlen : (ordered host item).length = a.type.itemsize := (length_ordered host item).trans hitem
  have hin : a.byteOffset + a.type.itemsize * i + (ordered host item).length ≤ a.buffer.length := by
    rw [hlen]
    exact a.item_within hi
  have hhere := Strided.overwrite_here hin
  rw [hlen] at hhere
  exact hhere

theorem item_store_of_ne (host : Endian) (hi : i < a.length)
    (hitem : item.length = a.type.itemsize) {j : Nat} (hne : j ≠ i) :
    (a.store host i item hi hitem).item j = a.item j := by
  have hlen : (ordered host item).length = a.type.itemsize := (length_ordered host item).trans hitem
  have hin : a.byteOffset + a.type.itemsize * i + (ordered host item).length ≤ a.buffer.length := by
    rw [hlen]
    exact a.item_within hi
  apply Strided.overwrite_apart hin
  rw [hlen]
  exact elements_apart a.type.itemsize hne a.byteOffset

theorem set_eq (host : Endian) {value : Value} (h : a.type.write value = some item)
    (hi : i < a.length) :
    a.set host i value = some (a.store host i item hi (ArrayType.length_write h)) := by
  unfold set
  split
  next hnone => cases hnone.symm.trans h
  next item' hitem' =>
    obtain rfl : item' = item := Option.some.inj (hitem'.symm.trans h)
    exact congrArg some (dif_pos hi)

/-- An element keeps a value that it can have, and the others keep theirs. -/
theorem exists_set (host : Endian) {value : Value} (hvalue : a.type.Has value) (hi : i < a.length) :
    ∃ a', a.set host i value = some a' ∧ a'.type = a.type ∧ a'.length = a.length ∧
      a'.get host i = value ∧ ∀ j, j ≠ i → a'.get host j = a.get host j := by
  obtain ⟨item, hwrite, hread⟩ := ArrayType.write_of_has hvalue
  refine ⟨_, set_eq host hwrite hi, rfl, rfl, ?_, ?_⟩
  · refine (if_pos hi).trans ?_
    rw [item_store, ordered_ordered]
    exact hread
  · intro j hne
    unfold TypedArray.get
    rw [item_store_of_ne host hi _ hne]
    rfl

theorem item_slice {start stop : Nat} (hstop : stop ≤ a.length) (hi : start + i < stop) :
    (a.slice start stop).item i = a.item (start + i) := by
  have hstart : min start a.length = start := Nat.min_eq_left (by omega)
  have hlast : a.type.itemsize * i + a.type.itemsize ≤ a.type.itemsize * (stop - start) := by
    rw [← Nat.mul_succ]
    apply Nat.mul_le_mul_left
    omega
  simp only [item, slice, hstart, Nat.min_eq_left hstop, Nat.zero_add]
  rw [List.drop_take, List.take_take, Nat.min_eq_left (by omega), List.drop_drop, Nat.mul_add,
    Nat.add_assoc]

/-- The elements of a slice. -/
theorem get_slice (host : Endian) {start stop : Nat} (hstop : stop ≤ a.length)
    (hi : start + i < stop) : (a.slice start stop).get host i = a.get host (start + i) := by
  have hlen : i < (a.slice start stop).length := by
    simp only [slice]
    omega
  unfold TypedArray.get
  rw [if_pos hlen, if_pos (by omega), item_slice hstop hi]
  rfl

theorem length_slice {start stop : Nat} (hstart : start ≤ stop) (hstop : stop ≤ a.length) :
    (a.slice start stop).length = stop - start := by
  simp only [slice]
  omega

end TypedArray

namespace NDArray

variable {x : NDArray} {idx : List Nat}

/-- The constructor, if it is given no array. -/
def create (order : Order) (shape : List Nat) (complex : Bool) : NDArray :=
  let total := shape.foldl (· * ·) 1
  { order, shape, array := .zeros (if complex then total * 2 else total), complex }

/-- `set`. -/
def set (host : Endian) (x : NDArray) (value : Value) (index : List Nat) : Option NDArray := do
  let i ← x.makeIndex index true
  if x.complex then
    let real ← property value "real"
    let array ← x.array.set host i real
    let imag ← property value "imag"
    let array ← array.set host (i + 1) imag
    some { x with array }
  else
    let array ← x.array.set host i value
    some { x with array }

/-- The elements from an index up to another one, in an array with that order. -/
def line (x : NDArray) (order : Order) (first next : List Nat) : Option TypedArray :=
  if x.complex then none
  else if x.shape.length = 1 then some x.array
  else if x.order ≠ order then none
  else do
    let start ← x.makeIndex first false
    let stop ← x.makeIndex next false
    some (x.array.slice start stop)

/-- `column`. -/
def column (x : NDArray) (n : Nat) : Option TypedArray := x.line .F [0, n] [0, n + 1]

/-- `row`. -/
def row (x : NDArray) (n : Nat) : Option TypedArray := x.line .C [n, 0] [n + 1, 0]

/-! ## Places -/

/-- How many elements of the array a number has. -/
def width (x : NDArray) : Nat := if x.complex then 2 else 1

/-- The place of an index vector in the order of the array. -/
def place (x : NDArray) (idx : List Nat) : Nat :=
  match x.order with
  | .F => Strided.ravel x.shape idx
  | .C => Strided.ravel x.shape.reverse idx.reverse

theorem place_bijOn (x : NDArray) :
    Set.BijOn x.place {idx | Strided.InShape x.shape idx} (Set.Iio x.shape.prod) := by
  cases horder : x.order with
  | F =>
      have hplace : x.place = Strided.ravel x.shape := by
        funext idx
        rw [place, horder]
      rw [hplace]
      exact Strided.ravel_bijOn x.shape
  | C =>
      have hplace : x.place = fun idx => Strided.ravel x.shape.reverse idx.reverse := by
        funext idx
        rw [place, horder]
      rw [hplace]
      exact Strided.ravel_reverse_bijOn x.shape

/-- One order is the other one backwards. -/
theorem makeIndex_reverse (x : NDArray) (idx : List Nat) (strict : Bool) :
    makeIndex { x with order := .F } idx strict =
      makeIndex { x with order := .C, shape := x.shape.reverse } idx.reverse strict := by
  by_cases hlen : idx.length = x.shape.length
  · have hzip : x.shape.reverse.zip idx.reverse = (x.shape.zip idx).reverse :=
      (List.reverse_zipWith hlen.symm).symm
    simp only [makeIndex, List.length_reverse, hlen, guard_true, hzip, if_pos, reduceCtorEq,
      if_false]
  · simp only [makeIndex, List.length_reverse, hlen, guard_false]
    rfl

/-- The same elements, with the indices the other way round. -/
def backwards (x : NDArray) : NDArray := { x with order := .F, shape := x.shape.reverse }

theorem makeIndex_backwards (horder : x.order = .C) (idx : List Nat) (strict : Bool) :
    x.backwards.makeIndex idx.reverse strict = x.makeIndex idx strict := by
  obtain ⟨order, shape, array, complex⟩ := x
  subst horder
  have hback := makeIndex_reverse ⟨.F, shape.reverse, array, complex⟩ idx.reverse strict
  rw [List.reverse_reverse, List.reverse_reverse] at hback
  exact hback

/-- The index of an element is its place, by twos for complex numbers. -/
theorem makeIndex_eq_place (h : Strided.InShape x.shape idx) (strict : Bool) :
    x.makeIndex idx strict = some (x.width * x.place idx) := by
  cases horder : x.order with
  | F => rw [makeIndex_eq horder h, place, horder, width]
  | C =>
      have hin : Strided.InShape x.backwards.shape idx.reverse := Strided.inShape_reverse.mpr h
      rw [← makeIndex_backwards horder, makeIndex_eq rfl hin, place, horder]
      rfl

/-! ## Elements -/

/-- The array has room for all elements. -/
def Holds (x : NDArray) : Prop := x.width * x.shape.prod ≤ x.array.length

/-- A number that an element can be. -/
def Has (x : NDArray) (value : Value) : Prop :=
  if x.complex then ∃ real imag, value = .complex real imag ∧
    x.array.type.Has real ∧ x.array.type.Has imag
  else x.array.type.Has value

/-- A new array has room for its elements. -/
theorem holds_create (order : Order) (shape : List Nat) (complex : Bool) :
    (create order shape complex).Holds := by
  have htotal : shape.foldl (· * ·) 1 = shape.prod := List.prod_eq_foldl.symm
  cases complex with
  | false => exact (Nat.one_mul _).le.trans htotal.ge
  | true => exact ((Nat.mul_comm _ _).trans (congrArg (· * 2) htotal.symm)).le

theorem place_lt (h : Strided.InShape x.shape idx) : x.place idx < x.shape.prod :=
  x.place_bijOn.mapsTo h

theorem place_ne {idx' : List Nat} (h : Strided.InShape x.shape idx)
    (h' : Strided.InShape x.shape idx') (hne : idx' ≠ idx) : x.place idx' ≠ x.place idx :=
  fun heq => hne (x.place_bijOn.injOn h' h heq)

theorem makeIndex_real (hcomplex : x.complex = false) (h : Strided.InShape x.shape idx)
    (strict : Bool) : x.makeIndex idx strict = some (x.place idx) := by
  rw [makeIndex_eq_place h, width, hcomplex]
  exact congrArg some (Nat.one_mul _)

theorem makeIndex_complex (hcomplex : x.complex = true) (h : Strided.InShape x.shape idx)
    (strict : Bool) : x.makeIndex idx strict = some (2 * x.place idx) := by
  rw [makeIndex_eq_place h, width, hcomplex]
  rfl

theorem get_real (host : Endian) (hcomplex : x.complex = false) (h : Strided.InShape x.shape idx) :
    x.get host idx = some (x.array.get host (x.place idx)) := by
  rw [get, makeIndex_real hcomplex h, hcomplex]
  rfl

theorem get_complex (host : Endian) (hcomplex : x.complex = true)
    (h : Strided.InShape x.shape idx) :
    x.get host idx = some (.complex (x.array.get host (2 * x.place idx))
      (x.array.get host (2 * x.place idx + 1))) := by
  rw [get, makeIndex_complex hcomplex h, hcomplex]
  rfl

theorem exists_set_real (host : Endian) {value : Value} (hcomplex : x.complex = false)
    (hholds : x.Holds) (hvalue : x.array.type.Has value) (h : Strided.InShape x.shape idx) :
    ∃ x', x.set host value idx = some x' ∧ x'.get host idx = some value ∧
      ∀ idx', Strided.InShape x.shape idx' → idx' ≠ idx → x'.get host idx' = x.get host idx' := by
  have hroom : x.place idx < x.array.length := by
    have hlt := place_lt h
    rw [Holds, width, hcomplex, if_neg Bool.false_ne_true, Nat.one_mul] at hholds
    omega
  obtain ⟨array, hset, -, -, hself, hother⟩ := x.array.exists_set host hvalue hroom
  have hget : ∀ idx', Strided.InShape x.shape idx' →
      NDArray.get host { x with array } idx' = some (array.get host (x.place idx')) :=
    fun idx' h' => get_real (x := { x with array }) host hcomplex h'
  refine ⟨{ x with array }, ?_, ?_, ?_⟩
  · rw [set, makeIndex_real hcomplex h, hcomplex]
    exact congrArg (Option.bind · fun array => some { x with array, complex := false }) hset
  · rw [hget idx h, hself]
  · intro idx' h' hne
    rw [hget idx' h', get_real host hcomplex h', hother _ (place_ne h h' hne)]

theorem exists_set_complex (host : Endian) {real imag : Value} (hcomplex : x.complex = true)
    (hholds : x.Holds) (hreal : x.array.type.Has real) (himag : x.array.type.Has imag)
    (h : Strided.InShape x.shape idx) :
    ∃ x', x.set host (.complex real imag) idx = some x' ∧
      x'.get host idx = some (.complex real imag) ∧
      ∀ idx', Strided.InShape x.shape idx' → idx' ≠ idx → x'.get host idx' = x.get host idx' := by
  have hroom : 2 * x.place idx + 1 < x.array.length := by
    have hlt := place_lt h
    rw [Holds, width, hcomplex, if_pos rfl] at hholds
    omega
  obtain ⟨first, hset, htype, hlength, hself, hother⟩ :=
    x.array.exists_set host hreal (Nat.lt_of_succ_lt hroom)
  obtain ⟨array, hset', -, -, hself', hother'⟩ :=
    first.exists_set host (htype.symm ▸ himag) (hlength.symm ▸ hroom)
  have hget : ∀ idx', Strided.InShape x.shape idx' →
      NDArray.get host { x with array } idx' = some (.complex (array.get host (2 * x.place idx'))
        (array.get host (2 * x.place idx' + 1))) :=
    fun idx' h' => get_complex (x := { x with array }) host hcomplex h'
  refine ⟨{ x with array }, ?_, ?_, ?_⟩
  · have hproperties : property (.complex real imag) "real" = some real ∧
        property (.complex real imag) "imag" = some imag := ⟨rfl, rfl⟩
    simp only [set, makeIndex_complex hcomplex h, hcomplex, hproperties, hset, hset', if_true,
      Option.bind_eq_bind, Option.bind_some]
  · rw [hget idx h, hself', hother' _ (by omega), hself]
  · intro idx' h' hne
    have hplace := place_ne h h' hne
    have hkept : ∀ j, j ≠ 2 * x.place idx → j ≠ 2 * x.place idx + 1 →
        array.get host j = x.array.get host j :=
      fun j hj hj' => (hother' j hj').trans (hother j hj)
    rw [hget idx' h', get_complex host hcomplex h', hkept _ (by omega) (by omega),
      hkept _ (by omega) (by omega)]

/-- What is stored at an index is found there, and nothing else has changed. -/
theorem exists_set (host : Endian) {value : Value} (hholds : x.Holds) (hvalue : x.Has value)
    (h : Strided.InShape x.shape idx) :
    ∃ x', x.set host value idx = some x' ∧ x'.get host idx = some value ∧
      ∀ idx', Strided.InShape x.shape idx' → idx' ≠ idx → x'.get host idx' = x.get host idx' := by
  unfold Has at hvalue
  split at hvalue
  next hcomplex =>
    obtain ⟨real, imag, rfl, hreal, himag⟩ := hvalue
    exact exists_set_complex host hcomplex hholds hreal himag h
  next hcomplex => exact exists_set_real host (Bool.eq_false_of_not_eq_true hcomplex) hholds hvalue h

/-! ## Columns and rows -/

theorem exists_line (host : Endian) {order : Order} {first next : List Nat} {p size : Nat}
    (hcomplex : x.complex = false) (hrank : x.shape.length ≠ 1) (horder : x.order = order)
    (hfirst : x.makeIndex first false = some (size * p))
    (hnext : x.makeIndex next false = some (size * (p + 1)))
    (hroom : size * (p + 1) ≤ x.array.length) :
    ∃ a, x.line order first next = some a ∧ a.length = size ∧
      ∀ i, i < size → a.get host i = x.array.get host (size * p + i) := by
  rw [Nat.mul_succ] at hnext hroom
  refine ⟨x.array.slice (size * p) (size * p + size), ?_, ?_, ?_⟩
  · rw [line, hcomplex, if_neg Bool.false_ne_true, if_neg hrank, if_neg (not_not_intro horder),
      hfirst, hnext]
    rfl
  · rw [TypedArray.length_slice (Nat.le_add_right _ _) hroom, Nat.add_sub_cancel_left]
  · intro i hi
    exact TypedArray.get_slice host hroom (Nat.add_lt_add_left hi _)

/-- The index may be one past the last column. -/
theorem makeIndex_column {rows columns : Nat} (hcomplex : x.complex = false)
    (horder : x.order = .F) (hshape : x.shape = [rows, columns]) (n : Nat) :
    x.makeIndex [0, n] false = some (rows * n) := by
  simp [makeIndex, indexStep, hshape, hcomplex, horder, Nat.mul_comm]

theorem exists_column (host : Endian) {rows columns n : Nat} (hcomplex : x.complex = false)
    (horder : x.order = .F) (hshape : x.shape = [rows, columns]) (hholds : x.Holds)
    (hn : n < columns) :
    ∃ a, x.column n = some a ∧ a.length = rows ∧
      ∀ i, i < rows → some (a.get host i) = x.get host [i, n] := by
  have hroom : rows * (n + 1) ≤ x.array.length := by
    refine Nat.le_trans ?_ hholds
    rw [width, hcomplex, hshape, if_neg Bool.false_ne_true, Nat.one_mul, List.prod_cons,
      List.prod_singleton]
    exact Nat.mul_le_mul_left _ hn
  obtain ⟨a, hline, hlen, hget⟩ := exists_line host hcomplex (by simp [hshape]) horder
    (makeIndex_column hcomplex horder hshape n)
    (makeIndex_column hcomplex horder hshape (n + 1)) hroom
  refine ⟨a, hline, hlen, ?_⟩
  intro i hi
  have hin : Strided.InShape x.shape [i, n] := by
    rw [hshape]
    exact .cons hi (.cons hn .nil)
  have hplace : x.place [i, n] = rows * n + i := by
    rw [place, horder, hshape]
    simp [Strided.ravel, Nat.add_comm]
  rw [get_real host hcomplex hin, hplace, hget i hi]

/-- The rows of an array are the columns of the array backwards. -/
theorem row_eq_column (horder : x.order = .C) (n : Nat) : x.row n = x.backwards.column n := by
  have hlen : x.backwards.shape.length = x.shape.length := List.length_reverse
  have hstart := makeIndex_backwards horder [n, 0] false
  have hstop := makeIndex_backwards horder [n + 1, 0] false
  simp only [List.reverse_cons, List.reverse_nil, List.nil_append, List.singleton_append]
    at hstart hstop
  rw [row, column, line, line, hlen, hstart, hstop, horder]
  rfl

theorem get_backwards (host : Endian) (horder : x.order = .C) (idx : List Nat) :
    x.backwards.get host idx.reverse = x.get host idx := by
  rw [get, get, makeIndex_backwards horder]
  rfl

theorem exists_row (host : Endian) {rows columns n : Nat} (hcomplex : x.complex = false)
    (horder : x.order = .C) (hshape : x.shape = [rows, columns]) (hholds : x.Holds)
    (hn : n < rows) :
    ∃ a, x.row n = some a ∧ a.length = columns ∧
      ∀ j, j < columns → some (a.get host j) = x.get host [n, j] := by
  have hback : x.backwards.shape = [columns, rows] := by
    rw [backwards, hshape]
    rfl
  have hroom : x.backwards.Holds := by
    have hprod : x.shape.reverse.prod = x.shape.prod := (List.reverse_perm _).prod_eq
    exact (congrArg (x.width * ·) hprod).le.trans hholds
  obtain ⟨a, hcolumn, hlen, hget⟩ :=
    exists_column (x := x.backwards) host hcomplex rfl hback hroom hn
  refine ⟨a, (row_eq_column horder n).trans hcolumn, hlen, ?_⟩
  intro j hj
  rw [hget j hj, ← get_backwards host horder]
  rfl

/-! ## Doubles -/

/-- One round of the loop in `_makeIndex`, in doubles. -/
def indexStepDouble (strict : Bool) (realIndex : Binary.Datum) (axis : Nat × Nat) :
    Option Binary.Datum :=
  if strict ∧ axis.2 ≥ axis.1 then none
  else some ((realIndex.mul (.ofInt axis.1)).add (.ofInt axis.2))

/-- `_makeIndex`, in doubles. -/
def makeIndexDouble (x : NDArray) (index : List Nat) (strict : Bool) : Option Binary.Datum := do
  guard (index.length = x.shape.length)
  let axes := x.shape.zip index
  let realIndex ←
    (if x.order = .F then axes.reverse else axes).foldlM (indexStepDouble strict) (.ofInt 0)
  some (if x.complex then realIndex.mul (.ofInt 2) else realIndex)

theorem datum_small {n : Nat} (h : n < 2 ^ 53) :
    Binary.double.datum (Binary.ofInt n) = .ofInt n :=
  Binary.datum_ofInt (by rwa [Int.natAbs_natCast])

theorem mul_small {m n : Nat} (h : m * n < 2 ^ 53) :
    (Binary.Datum.ofInt m).mul (.ofInt n) = .ofInt (m * n : Nat) := by
  rw [Binary.Datum.mul_ofInt, ← Int.natCast_mul, datum_small h]

theorem indexStepDouble_eq {strict : Bool} {realIndex next : Nat} {axis : Nat × Nat}
    (h : indexStep strict realIndex axis = some next) (hnext : next < 2 ^ 53) :
    indexStepDouble strict (.ofInt realIndex) axis = some (.ofInt next) := by
  unfold indexStep at h
  unfold indexStepDouble
  split at h
  next => cases h
  next hin =>
    obtain rfl := Option.some.inj h
    rw [if_neg hin, mul_small (Nat.lt_of_le_of_lt (Nat.le_add_right _ _) hnext),
      Binary.Datum.add_ofInt, ← Int.natCast_add, datum_small hnext]

/-- The index only grows from round to round, so none of them is rounded if the last
one is not. -/
theorem foldlM_indexStepDouble {strict : Bool} {axes : List (Nat × Nat)}
    (hpos : ∀ axis ∈ axes, 0 < axis.1) {realIndex last : Nat}
    (h : axes.foldlM (indexStep strict) realIndex = some last) (hlast : last < 2 ^ 53) :
    realIndex ≤ last ∧
      axes.foldlM (indexStepDouble strict) (.ofInt realIndex) = some (.ofInt last) := by
  induction axes generalizing realIndex with
  | nil =>
      obtain rfl := Option.some.inj h
      exact ⟨le_refl _, rfl⟩
  | cons axis axes ih =>
      rw [List.foldlM_cons] at h
      obtain ⟨next, hstep, hrest⟩ := Option.bind_eq_some_iff.mp h
      obtain ⟨hle, hdouble⟩ := ih (fun a ha => hpos a (List.mem_cons_of_mem axis ha)) hrest
      have hgrow : realIndex ≤ next := by
        unfold indexStep at hstep
        split at hstep
        next => cases hstep
        next =>
          obtain rfl := Option.some.inj hstep
          exact (Nat.le_mul_of_pos_right _ (hpos axis List.mem_cons_self)).trans
            (Nat.le_add_right _ _)
      refine ⟨hgrow.trans hle, ?_⟩
      rw [List.foldlM_cons, indexStepDouble_eq hstep (Nat.lt_of_le_of_lt hle hlast)]
      exact hdouble

/-- Doubles have room for all indices that a typed array has. -/
theorem makeIndexDouble_eq {strict : Bool} {i : Nat} (hpos : ∀ n ∈ x.shape, 0 < n)
    (h : x.makeIndex idx strict = some i) (hi : i < 2 ^ 53) :
    x.makeIndexDouble idx strict = some (.ofInt i) := by
  have haxes : ∀ axis ∈ x.shape.zip idx, 0 < axis.1 :=
    fun axis haxis => hpos axis.1 (List.of_mem_zip haxis).1
  rw [makeIndex] at h
  obtain ⟨_, hguard, h⟩ := Option.bind_eq_some_iff.mp h
  obtain ⟨realIndex, hfold, h⟩ := Option.bind_eq_some_iff.mp h
  have hscaled : (if x.complex then realIndex * 2 else realIndex) = i := Option.some.inj h
  have hreal : realIndex < 2 ^ 53 := by
    split at hscaled <;> omega
  have hdouble := (foldlM_indexStepDouble (fun axis haxis => by
    split at haxis
    · exact haxes axis (List.mem_reverse.mp haxis)
    · exact haxes axis haxis) hfold hreal).2
  rw [makeIndexDouble, hguard, Option.bind_eq_bind, Option.bind_some]
  refine (congrArg (Option.bind · _) hdouble).trans (congrArg some ?_)
  split at hscaled
  next hcomplex =>
    have hdoubled := mul_small (m := realIndex) (n := 2) (by omega)
    rw [if_pos hcomplex, ← hscaled, ← hdoubled]
    rfl
  next hcomplex => rw [if_neg hcomplex, hscaled]

/-! ## Indices -/

end NDArray

end Dime.JavaScript
