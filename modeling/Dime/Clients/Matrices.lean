import Dime.Clients.Encoders
import Dime.Clients.JavaScript.Numbers

/-!
# Arrays from Python to JavaScript

What `dimebloads` makes of an array that `dumps` has written, element by element.
-/

namespace Dime

open Python (Endian Scalar Tag)
open JavaScript (NDArray ElementType Quantity TypedArray)
open Strided

/-! ## Numbers -/

/-- The number that an element stands for, most significant byte first. -/
def quantity (type : Scalar) (item : Bytes) : Quantity :=
  match type with
  | .i8 | .i16 | .i32 | .i64 =>
    .real (.ofInt ((BigEndian.decode item : Int).bmod (256 ^ type.itemsize)))
  | .u8 | .u16 | .u32 | .u64 => .real (.ofInt (BigEndian.decode item))
  | .single => .real (Binary.single.datum (BigEndian.decode item))
  | .double => .real (Binary.double.datum (BigEndian.decode item))
  | .complexSingle =>
    .complex (Binary.single.datum (BigEndian.decode (item.take 4)))
      (Binary.single.datum (BigEndian.decode (item.drop 4)))
  | .complexDouble =>
    .complex (Binary.double.datum (BigEndian.decode (item.take 8)))
      (Binary.double.datum (BigEndian.decode (item.drop 8)))

namespace JavaScript

/-! ## Reading -/

/-- An item of a part of the bytes. -/
def itemAt (type : ElementType) (body : Bytes) (i : Nat) : Bytes :=
  (body.drop (type.itemsize * i)).take type.itemsize

theorem length_itemAt {type : ElementType} {body : Bytes} {n i : Nat}
    (hbody : body.length = type.itemsize * n) (hi : i < n) :
    (itemAt type body i).length = type.itemsize := by
  have hlast : type.itemsize * i + type.itemsize ≤ type.itemsize * n := by
    rw [← Nat.mul_succ]
    exact Nat.mul_le_mul_left _ hi
  rw [itemAt, List.length_take, List.length_drop]
  omega

/-- A part of bytes that lie after others. -/
theorem getUint_append {k i : Nat} {front s rest : Bytes} (hfront : front.length = i)
    (hs : s.length = k) : getUint k (front ++ (s ++ rest)) i = some (BigEndian.decode s) := by
  have hwithin : i + k ≤ (front ++ (s ++ rest)).length := by
    rw [List.length_append, List.length_append]
    omega
  rw [getUint, if_pos hwithin, List.drop_left' hfront, List.take_left' hs]

/-- The rank in the header of a matrix. -/
theorem getUint_rank {shape : List Nat} (hsmall : shape.length < 256) (tag : UInt8) (rest : Bytes) :
    getUint 1 (tag :: UInt8.ofNat shape.length :: rest) 1 = some shape.length := by
  have hget : getUint 1 ([tag] ++ ([UInt8.ofNat shape.length] ++ rest)) 1 =
      some (BigEndian.decode [UInt8.ofNat shape.length]) := getUint_append rfl rfl
  have hdecode : BigEndian.decode [UInt8.ofNat shape.length] = shape.length := by
    have hbyte := UInt8.toNat_ofNat' (n := shape.length)
    simp only [BigEndian.decode, List.foldl_cons, List.foldl_nil, Nat.zero_mul, Nat.zero_add, hbyte]
    exact Nat.mod_eq_of_lt hsmall
  rwa [hdecode] at hget

/-- The shape in the header of a matrix. -/
theorem getUint_matHeader (type : Scalar) {shape : List Nat} (hshape : ∀ n ∈ shape, n < 2 ^ 32)
    (body : Bytes) :
    ((List.range shape.length).mapM fun i =>
      getUint 4 (Python.matHeader type shape ++ body) (2 + i * 4)) = some shape := by
  rw [Python.mapM_eq_some_iff, List.forall₂_iff_get]
  refine ⟨List.length_range, ?_⟩
  intro i hi hi'
  have hn : shape[i] < 2 ^ 32 := hshape _ (List.getElem_mem hi')
  have hsplit : (shape.map (BigEndian.encode 4)).flatten =
      ((shape.take i).map (BigEndian.encode 4)).flatten ++
        (BigEndian.encode 4 shape[i] ++ ((shape.drop (i + 1)).map (BigEndian.encode 4)).flatten) := by
    conv_lhs => rw [← List.take_append_drop i shape, List.drop_eq_getElem_cons hi']
    rw [List.map_append, List.flatten_append, List.map_cons, List.flatten_cons]
  have hfront : ([(Tag.mat type).code, UInt8.ofNat shape.length] ++
      ((shape.take i).map (BigEndian.encode 4)).flatten).length = 2 + i * 4 := by
    rw [List.length_append, Python.length_shapedata, List.length_take]
    simp only [List.length_cons, List.length_nil]
    omega
  have hbytes : Python.matHeader type shape ++ body =
      ([(Tag.mat type).code, UInt8.ofNat shape.length] ++
        ((shape.take i).map (BigEndian.encode 4)).flatten) ++ (BigEndian.encode 4 shape[i] ++
          (((shape.drop (i + 1)).map (BigEndian.encode 4)).flatten ++ body)) := by
    rw [Python.matHeader, hsplit]
    simp only [List.append_assoc]
  simp only [List.get_eq_getElem, List.getElem_range]
  rw [hbytes, getUint_append hfront (BigEndian.length_encode 4 _),
    BigEndian.decode_encode_of_lt (Nat.lt_of_lt_of_eq hn (by decide))]

/-- An item after the header. -/
theorem getView_append {type : ElementType} {header body : Bytes} {n i : Nat}
    (hbody : body.length = type.itemsize * n) (hi : i < n) (rest : Bytes) :
    getView type (header ++ (body ++ rest)) (header.length + i * type.itemsize) =
      some (type.read (itemAt type body i)) := by
  have hlast : i * type.itemsize + type.itemsize ≤ type.itemsize * n := by
    rw [← Nat.succ_mul, Nat.mul_comm]
    exact Nat.mul_le_mul_left _ hi
  have hwithin : header.length + i * type.itemsize + type.itemsize ≤
      (header ++ (body ++ rest)).length := by
    rw [List.length_append, List.length_append]
    omega
  rw [getView, if_pos hwithin, ← List.drop_drop, List.drop_left,
    List.drop_append_of_le_length (by omega), List.take_append_of_le_length
      (by rw [List.length_drop]; omega), itemAt, Nat.mul_comm]

end JavaScript

/-- The shape that an array comes back with, and the index of an element in it. -/
def asRow : List Nat → List Nat
  | [n] => [1, n]
  | shape => shape

def asRowIndex : List Nat → List Nat
  | [j] => [0, j]
  | idx => idx

theorem asRow_eq (shape : List Nat) :
    (if shape.length = 1 then 1 :: shape else shape) = asRow shape := by
  match shape with
  | [] => rfl
  | [n] => rfl
  | _ :: _ :: _ => rfl

theorem prod_asRow (shape : List Nat) : (asRow shape).prod = shape.prod := by
  unfold asRow
  split <;> simp

/-- A row has its elements where the vector has them. -/
theorem ravel_asRow {shape idx : List Nat} (h : InShape shape idx) :
    InShape (asRow shape) (asRowIndex idx) ∧
      ravel (asRow shape) (asRowIndex idx) = ravel shape idx := by
  cases h with
  | nil => exact ⟨.nil, rfl⟩
  | @cons i n idx shape hi hrest =>
      cases hrest with
      | nil =>
          refine ⟨.cons Nat.zero_lt_one (.cons hi .nil), ?_⟩
          simp [asRow, asRowIndex, ravel]
      | cons hj hrest => exact ⟨.cons hi (.cons hj hrest), rfl⟩

namespace JavaScript

/-- `__loadsmat` reads an array from behind its header, item by item, and nothing behind it. -/
theorem loadsmat_append (host : Endian) (type : Scalar) {shape : List Nat} (hrank : shape ≠ [])
    (hsmall : shape.length < 256) (hshape : ∀ n ∈ shape, n < 2 ^ 32) {body : Bytes}
    (hbody : body.length = (elementType type).itemsize * (parts type * shape.prod)) (rest : Bytes) :
    loadsmat host (Python.matHeader type shape ++ (body ++ rest)) (elementType type)
        (decide (type.kind = .c)) =
      (TypedArray.ofValues host (elementType type) ((List.range (parts type * shape.prod)).map fun i =>
        (elementType type).read (itemAt (elementType type) body i))).map fun a =>
          (⟨.F, asRow shape, a, decide (type.kind = .c)⟩,
            (Python.matHeader type shape ++ body).length) := by
  set n := parts type * shape.prod with hn
  have hlen : (Python.matHeader type shape).length = 2 + 4 * shape.length := by
    rw [Python.length_matHeader, Nat.add_comm]
  have hrank' : getUint 1 (Python.matHeader type shape ++ (body ++ rest)) 1 = some shape.length :=
    getUint_rank hsmall _ _
  have hnelems : (asRow shape).prod * (if decide (type.kind = .c) = true then 2 else 1) = n := by
    rw [prod_asRow, hn, parts, Nat.mul_comm]
    simp
  have hvalues : (List.range n).mapM (fun i => getView (elementType type)
      (Python.matHeader type shape ++ (body ++ rest))
      (2 + 4 * shape.length + i * (elementType type).itemsize)) =
      some ((List.range n).map fun i => (elementType type).read (itemAt (elementType type) body i)) := by
    rw [Python.mapM_eq_some_iff, List.forall₂_map_right_iff, List.forall₂_same]
    intro i hi
    rw [← hlen]
    exact getView_append hbody (List.mem_range.mp hi) rest
  have hnread : (Python.matHeader type shape ++ body).length =
      2 + 4 * shape.length + n * (elementType type).itemsize := by
    rw [List.length_append, hlen, hbody, Nat.mul_comm n]
  simp only [loadsmat, hrank', getUint_matHeader type hshape, ne_eq, hrank, not_false_eq_true,
    guard_true, asRow_eq, hnelems, hvalues, Option.pure_def, Option.bind_eq_bind, Option.bind_some,
    hnread]
  cases TypedArray.ofValues host (elementType type) ((List.range n).map fun i =>
    (elementType type).read (itemAt (elementType type) body i)) with
  | none => rfl
  | some a => rfl

/-- A new array keeps values that are read from items. -/
theorem ofValues_read (host : Endian) {type : ElementType} {n : Nat} {item : Nat → Bytes}
    (hitem : ∀ i, i < n → (item i).length = type.itemsize) :
    ∃ a, TypedArray.ofValues host type ((List.range n).map fun i => type.read (item i)) = some a ∧
      a.type = .of type ∧ a.length = n ∧ ∀ i, i < n → a.get host i = type.read (item i) := by
  have hwrite : ∀ i, ∃ item', i < n →
      type.write (type.read (item i)) = some item' ∧ type.read item' = type.read (item i) := by
    intro i
    by_cases hi : i < n
    · obtain ⟨item', hitem'⟩ := ElementType.exists_write_read (hitem i hi)
      exact ⟨item', fun _ => hitem'⟩
    · exact ⟨[], fun h => absurd h hi⟩
  choose written hwritten using hwrite
  have hmapM : ((List.range n).map fun i => type.read (item i)).mapM type.write =
      some ((List.range n).map written) := by
    rw [Python.mapM_eq_some_iff, List.forall₂_map_right_iff, List.forall₂_map_left_iff,
      List.forall₂_same]
    exact fun i hi => (hwritten i (List.mem_range.mp hi)).1
  obtain ⟨a, ha, htype, hlength, hget⟩ := TypedArray.ofValues_eq host hmapM
  refine ⟨a, ha, htype, by rw [hlength, List.length_map, List.length_range], ?_⟩
  intro i hi
  refine (hget i (written i) ?_).trans (hwritten i hi).2
  rw [List.getElem?_map, List.getElem?_range hi]
  rfl

/-- The array that `__loadsmat` reads has the items behind the header. -/
theorem loadsmat_matHeader (host : Endian) (type : Scalar) {shape : List Nat} (hrank : shape ≠ [])
    (hdim : shape.length ≤ Python.maxdims) (hshape : ∀ n ∈ shape, n < 2 ^ 32) {body : Bytes}
    (hbody : body.length = (elementType type).itemsize * (parts type * shape.prod)) :
    ∃ a nread, loadsmat host (Python.matHeader type shape ++ body) (elementType type)
        (decide (type.kind = .c)) =
        some (⟨.F, asRow shape, a, decide (type.kind = .c)⟩, nread) ∧
      a.length = parts type * shape.prod ∧
      ∀ i, i < a.length →
        a.get host i = (elementType type).read (itemAt (elementType type) body i) := by
  have hsmall : shape.length < 256 := Nat.lt_of_le_of_lt hdim (by decide)
  have hloads := loadsmat_append host type hrank hsmall hshape hbody []
  obtain ⟨a, ha, _, hlength, hget⟩ := ofValues_read host fun i hi => length_itemAt hbody hi
  rw [List.append_nil, ha] at hloads
  exact ⟨a, _, hloads, hlength, fun i hi => hget i (hlength ▸ hi)⟩

end JavaScript

/-! ## Elements -/

theorem read_datum {type : Scalar} (hreal : type.kind ≠ .c) {item : Bytes}
    (hlen : item.length = type.itemsize) :
    ((elementType type).read item).datum?.map Quantity.real = some (quantity type item) := by
  have hlt : BigEndian.decode item < 256 ^ type.itemsize := hlen ▸ BigEndian.decode_lt item
  have hsigned : JavaScript.signed item = (BigEndian.decode item : Int).bmod (256 ^ type.itemsize) := by
    rw [JavaScript.signed, hlen]
  have hsmall : (JavaScript.signed item).natAbs ≤ 256 ^ type.itemsize :=
    hlen ▸ JavaScript.natAbs_signed_le item
  have hint : ∀ n : Int, n.natAbs < 2 ^ 53 →
      (JavaScript.Value.number (JavaScript.ofInt n)).datum?.map Quantity.real =
        some (.real (.ofInt n)) := by
    intro n hn
    rw [JavaScript.Value.datum?, JavaScript.datum_ofInt hn]
    rfl
  have hbits : ∀ n, n < 2 ^ 64 → (UInt64.ofNat n).toNat = n := fun n hn => by
    rw [UInt64.toNat_ofNat', Nat.mod_eq_of_lt hn]
  cases type with
  | i8 => exact (hint _ (Nat.lt_of_le_of_lt hsmall (by decide))).trans (by rw [hsigned]; rfl)
  | i16 => exact (hint _ (Nat.lt_of_le_of_lt hsmall (by decide))).trans (by rw [hsigned]; rfl)
  | i32 => exact (hint _ (Nat.lt_of_le_of_lt hsmall (by decide))).trans (by rw [hsigned]; rfl)
  | i64 => exact congrArg (fun n => some (Quantity.real (.ofInt n))) hsigned
  | u8 => exact hint _ (Nat.lt_trans hlt (by decide))
  | u16 => exact hint _ (Nat.lt_trans hlt (by decide))
  | u32 => exact hint _ (Nat.lt_trans hlt (by decide))
  | u64 => rfl
  | single =>
      have hdatum : JavaScript.datum (UInt64.ofNat (Binary.widen (BigEndian.decode item))) =
          Binary.single.datum (BigEndian.decode item) := by
        exact JavaScript.datum_widen _
      exact congrArg (fun d => some (Quantity.real d)) hdatum
  | double =>
      have hdatum : JavaScript.datum (UInt64.ofNat (BigEndian.decode item)) =
          Binary.double.datum (BigEndian.decode item) := by
        rw [JavaScript.datum, hbits _ (Nat.lt_of_lt_of_eq hlt (by decide))]
      exact congrArg (fun d => some (Quantity.real d)) hdatum
  | complexSingle => exact absurd rfl hreal
  | complexDouble => exact absurd rfl hreal

/-- The parts of a complex element are read one by one. -/
theorem read_parts {type : Scalar} (hcomplex : type.kind = .c) {item : Bytes}
    (hlen : item.length = type.itemsize) :
    ∃ re im, ((elementType type).read (item.take (elementType type).itemsize)).datum? = some re ∧
      ((elementType type).read (item.drop (elementType type).itemsize)).datum? = some im ∧
      quantity type item = .complex re im := by
  have hbits : ∀ n, n < 2 ^ 64 → (UInt64.ofNat n).toNat = n := fun n hn => by
    rw [UInt64.toNat_ofNat', Nat.mod_eq_of_lt hn]
  cases type with
  | complexSingle =>
      refine ⟨_, _, rfl, rfl, ?_⟩
      simp only [JavaScript.datum_widen]
      rfl
  | complexDouble =>
      have hhalf : ∀ half : Bytes, half.length = 8 → BigEndian.decode half < 2 ^ 64 :=
        fun half hhalf => Nat.lt_of_lt_of_eq (hhalf ▸ BigEndian.decode_lt half) (by decide)
      have hlen' : item.length = 16 := hlen
      have hreal := hhalf (item.take 8) (by rw [List.length_take, hlen']; rfl)
      have himag := hhalf (item.drop 8) (by rw [List.length_drop, hlen'])
      refine ⟨_, _, rfl, rfl, ?_⟩
      simp only [JavaScript.datum, elementType, ElementType.itemsize, hbits _ hreal, hbits _ himag]
      rfl
  | _ => cases hcomplex

section

variable {host host' : Endian} {type : Scalar} {x : Python.Ndarray} {y : NDArray}

/-- The items that an element consists of. -/
theorem itemAt_elements (hdtype : Scalar.ofDtype x.dtype = some type) {idx : List Nat}
    (h : InShape x.shape idx) {p : Nat} (hp : p < parts type) :
    JavaScript.itemAt (elementType type) (x.elements host) (parts type * ravel x.shape idx + p) =
      ((x.element host idx).drop ((elementType type).itemsize * p)).take
        (elementType type).itemsize := by
  have hitemsize : x.dtype.itemsize = (elementType type).itemsize * parts type := by
    rw [(Scalar.ofDtype_eq_some hdtype).2, ← parts_mul_itemsize, Nat.mul_comm]
  have hlast : (elementType type).itemsize * p + (elementType type).itemsize ≤ x.dtype.itemsize := by
    rw [hitemsize, ← Nat.mul_succ]
    exact Nat.mul_le_mul_left _ hp
  have hplace : (elementType type).itemsize * (parts type * ravel x.shape idx + p) =
      x.dtype.itemsize * ravel x.shape idx + (elementType type).itemsize * p := by
    rw [hitemsize]
    ring
  rw [JavaScript.itemAt, hplace, ← List.drop_drop, ← x.element_elements host h, List.drop_take,
    List.take_take, Nat.min_eq_left (by omega)]

/-- Whatever type the array has, `get` finds the elements if its items are the same
numbers. -/
theorem quantity_get (hdtype : Scalar.ofDtype x.dtype = some type) (horder : y.order = .F)
    (hshape : y.shape = asRow x.shape) (hcomplex : y.complex = decide (type.kind = .c))
    (hitems : ∀ i, i < parts type * x.shape.prod → (y.array.get host' i).datum? =
      ((elementType type).read
        (JavaScript.itemAt (elementType type) (x.elements host) i)).datum?)
    {idx : List Nat} (h : InShape x.shape idx) :
    ∃ v, y.get host' (asRowIndex idx) = some v ∧
      v.quantity? = some (quantity type (x.element host idx)) := by
  obtain ⟨hin, hravel⟩ := ravel_asRow h
  have hfactor : (if y.complex then 2 else 1) = parts type := by
    rw [hcomplex, parts]
    simp
  have hindex : y.makeIndex (asRowIndex idx) true = some (parts type * ravel x.shape idx) := by
    rw [NDArray.makeIndex_eq horder (hshape ▸ hin), hfactor, hshape, hravel]
  have hlen : (x.element host idx).length = type.itemsize := by
    rw [x.length_element host h, (Scalar.ofDtype_eq_some hdtype).2]
  have hpart : ∀ p, p < parts type →
      (y.array.get host' (parts type * ravel x.shape idx + p)).datum? =
        ((elementType type).read (((x.element host idx).drop ((elementType type).itemsize * p)).take
          (elementType type).itemsize)).datum? := by
    intro p hp
    rw [hitems _ _, itemAt_elements hdtype h hp]
    calc parts type * ravel x.shape idx + p
        < parts type * ravel x.shape idx + parts type := Nat.add_lt_add_left hp _
      _ = parts type * (ravel x.shape idx + 1) := (Nat.mul_succ _ _).symm
      _ ≤ parts type * x.shape.prod := Nat.mul_le_mul_left _ (ravel_lt h)
  have hsize := parts_mul_itemsize type
  by_cases hc : type.kind = .c
  · have hparts : parts type = 2 := if_pos hc
    rw [hparts] at hsize
    obtain ⟨re, im, hre, him, hquantity⟩ := read_parts hc hlen
    have hfirst := hpart 0 (by omega)
    have hsecond := hpart 1 (by omega)
    rw [Nat.mul_zero, List.drop_zero, Nat.add_zero, hre] at hfirst
    rw [Nat.mul_one, List.take_of_length_le (by rw [List.length_drop]; omega), him] at hsecond
    refine ⟨.complex (y.array.get host' (parts type * ravel x.shape idx))
      (y.array.get host' (parts type * ravel x.shape idx + 1)), ?_, ?_⟩
    · rw [NDArray.get, hindex, Option.bind_eq_bind, Option.bind_some,
        if_pos (by rw [hcomplex]; exact decide_eq_true hc)]
    · rw [JavaScript.Value.quantity?, hfirst, hsecond, hquantity]
      rfl
  · have hparts : parts type = 1 := if_neg hc
    rw [hparts] at hsize
    have hfirst := hpart 0 (by omega)
    rw [Nat.mul_zero, List.drop_zero, Nat.add_zero,
      List.take_of_length_le (by omega)] at hfirst
    have hread := read_datum hc hlen
    refine ⟨y.array.get host' (parts type * ravel x.shape idx), ?_, ?_⟩
    · rw [NDArray.get, hindex, Option.bind_eq_bind, Option.bind_some,
        if_neg (by rw [hcomplex]; simpa using hc)]
    · rw [← hfirst] at hread
      generalize y.array.get host' (parts type * ravel x.shape idx) = v at hread
      cases v with
      | complex real imag => cases hread
      | _ => exact hread

/-! ## Big integers -/

namespace JavaScript

theorem everySafe_iff (host : Endian) (a : TypedArray) :
    a.everySafe host = true ↔
      ∀ i, i < a.length → ∃ n, a.get host i = .bigint n ∧ isSafe n = true := by
  simp only [TypedArray.everySafe, List.all_eq_true, List.mem_range]
  constructor
  · intro h i hi
    have hsafe := h i hi
    cases hget : a.get host i with
    | bigint n =>
        rw [hget] at hsafe
        exact ⟨n, rfl, hsafe⟩
    | _ =>
        rw [hget] at hsafe
        cases hsafe
  · intro h i hi
    obtain ⟨n, hget, hsafe⟩ := h i hi
    rw [hget]
    exact hsafe

/-- Safe integers keep their values as doubles. -/
theorem toFloat64_eq {host : Endian} {y : NDArray} (h : y.array.everySafe host = true) :
    ∃ a, y.toFloat64 host = some { y with array := a } ∧
      ∀ i, i < y.array.length → (a.get host i).datum? = (y.array.get host i).datum? := by
  have hsafe : ∀ i, ∃ n, i < y.array.length → y.array.get host i = .bigint n ∧ isSafe n = true := by
    intro i
    by_cases hi : i < y.array.length
    · obtain ⟨n, hn⟩ := (everySafe_iff host y.array).mp h i hi
      exact ⟨n, fun _ => hn⟩
    · exact ⟨0, fun hlt => absurd hlt hi⟩
  choose n hn using hsafe
  have hwrite : (y.array.numbers host).mapM ElementType.float64.write =
      some ((List.range y.array.length).map fun i => BigEndian.encode 8 (ofInt (n i)).toNat) := by
    rw [Python.mapM_eq_some_iff, TypedArray.numbers, List.forall₂_map_right_iff,
      List.forall₂_map_left_iff, List.forall₂_same]
    intro i hi
    rw [(hn i (List.mem_range.mp hi)).1]
    rfl
  obtain ⟨a, ha, _, _, hget⟩ := TypedArray.ofValues_eq host hwrite
  refine ⟨a, ?_, ?_⟩
  · rw [NDArray.toFloat64, ha]
    rfl
  · intro i hi
    have hlt : (ofInt (n i)).toNat < 256 ^ 8 := Nat.lt_of_lt_of_eq (UInt64.toNat_lt _) (by decide)
    have hitem := hget i (BigEndian.encode 8 (ofInt (n i)).toNat) (by
      rw [List.getElem?_map, List.getElem?_range hi]
      rfl)
    rw [hitem, (hn i hi).1, ElementType.read, BigEndian.decode_encode_of_lt hlt, UInt64.ofNat_toNat,
      Value.datum?, datum_ofInt (natAbs_lt_of_isSafe (hn i hi).2)]
    rfl

theorem loadsMatrix_eq (host : Endian) (bytes : Bytes) {type : Scalar} (hi64 : type ≠ .i64)
    (hu64 : type ≠ .u64) :
    loadsMatrix host bytes type = loadsmat host bytes (elementType type) (decide (type.kind = .c)) := by
  cases type with
  | i64 => exact absurd rfl hi64
  | u64 => exact absurd rfl hu64
  | _ => rfl

/-- What is read of a matrix depends on what `__loadsmat` makes of it alone. -/
theorem loadsMatrix_congr {host : Endian} {bytes bytes' : Bytes} {type : Scalar}
    (h : loadsmat host bytes (elementType type) (decide (type.kind = .c)) =
      loadsmat host bytes' (elementType type) (decide (type.kind = .c))) :
    loadsMatrix host bytes type = loadsMatrix host bytes' type := by
  cases type with
  | i64 =>
      have h' : loadsmat host bytes .bigInt64 false = loadsmat host bytes' .bigInt64 false := h
      rw [loadsMatrix, loadsMatrix, h']
  | u64 =>
      have h' : loadsmat host bytes .bigUint64 false = loadsmat host bytes' .bigUint64 false := h
      rw [loadsMatrix, loadsMatrix, h']
  | _ => exact h

/-- The elements are read with their values, whatever array they are in. -/
theorem loadsMatrix_eq_some {host : Endian} {bytes : Bytes} {type : Scalar} {obj : NDArray}
    {nread : Nat}
    (h : loadsmat host bytes (elementType type) (decide (type.kind = .c)) = some (obj, nread))
    (hlarge : type = .u64 → ¬ obj.array.everySafe host = true) :
    ∃ a, loadsMatrix host bytes type = some ({ obj with array := a }, nread) ∧
      ∀ i, i < obj.array.length → (a.get host i).datum? = (obj.array.get host i).datum? := by
  cases type with
  | i64 =>
      have h' : loadsmat host bytes .bigInt64 false = some (obj, nread) := h
      rw [loadsMatrix, h', Option.bind_eq_bind, Option.bind_some]
      by_cases hsafe : obj.array.everySafe host = true
      · obtain ⟨a, ha, hsame⟩ := toFloat64_eq hsafe
        refine ⟨a, ?_, hsame⟩
        dsimp only
        rw [if_pos hsafe, ha]
        rfl
      · exact ⟨obj.array, if_neg hsafe, fun _ _ => rfl⟩
  | u64 =>
      have h' : loadsmat host bytes .bigUint64 false = some (obj, nread) := h
      rw [loadsMatrix, h', Option.bind_eq_bind, Option.bind_some]
      exact ⟨obj.array, if_neg (hlarge rfl), fun _ _ => rfl⟩
  | _ => exact ⟨obj.array, h, fun _ _ => rfl⟩

/-- For safe 64-bit unsigned integers the constructor throws. -/
theorem loadsMatrix_u64 {host : Endian} {bytes : Bytes} {obj : NDArray} {nread : Nat}
    (h : loadsmat host bytes .bigUint64 false = some (obj, nread))
    (hsafe : obj.array.everySafe host = true) : loadsMatrix host bytes .u64 = none := by
  rw [loadsMatrix, h, Option.bind_eq_bind, Option.bind_some]
  exact if_pos hsafe

theorem loads_mat (host : Endian) (toKey : PropertyKey) (type : Scalar) (shape : List Nat) (s : Bytes) :
    loads host toKey (Python.matHeader type shape ++ s) =
      (loadsMatrix host (Python.matHeader type shape ++ s) type).map fun r =>
        (.ndarray r.1, r.2) := by
  rw [Python.matHeader, List.cons_append, List.cons_append, ← code_eq, loads, tag?_code]
  generalize code (Tag.mat type) :: _ = bytes
  dsimp only
  cases loadsMatrix host bytes type <;> rfl

theorem dimebloads_matHeader (host : Endian) (toKey : PropertyKey) (type : Scalar) (shape : List Nat)
    (body : Bytes) :
    dimebloads host toKey (Python.matHeader type shape ++ body) =
      (loadsMatrix host (Python.matHeader type shape ++ body) type).map fun r => .ndarray r.1 := by
  rw [dimebloads, loads_mat, Option.map_map]
  rfl

end JavaScript

/-! ## The way to JavaScript -/

/-- JavaScript receives the array with its shape, and `get` finds its elements. -/
def Intact (host host' : Endian) (toKey : JavaScript.PropertyKey) (type : Scalar)
    (x : Python.Ndarray) : Prop :=
  ∃ data y, Python.Dimeb.dumps host (.ndarray x) = some data ∧
    JavaScript.dimebloads host' toKey data = some (.ndarray y) ∧ y.shape = asRow x.shape ∧
    ∀ idx, InShape x.shape idx → ∃ v, y.get host' (asRowIndex idx) = some v ∧
      v.quantity? = some (quantity type (x.element host idx))

/-- The items of an array are its elements, if these have no parts. -/
theorem exists_element_iff (hdtype : Scalar.ofDtype x.dtype = some type) (hreal : parts type = 1)
    (P : Bytes → Prop) :
    (∃ i, i < x.shape.prod ∧ P (JavaScript.itemAt (elementType type) (x.elements host) i)) ↔
      ∃ idx, InShape x.shape idx ∧ P (x.element host idx) := by
  have hitem : ∀ idx, InShape x.shape idx →
      JavaScript.itemAt (elementType type) (x.elements host) (ravel x.shape idx) =
        x.element host idx := by
    intro idx h
    have hpart : JavaScript.itemAt (elementType type) (x.elements host)
        (parts type * ravel x.shape idx + 0) = _ := itemAt_elements hdtype h (by omega)
    have hsize : (x.element host idx).length = (elementType type).itemsize := by
      rw [x.length_element host h, (Scalar.ofDtype_eq_some hdtype).2, ← parts_mul_itemsize, hreal,
        Nat.one_mul]
    rwa [hreal, Nat.one_mul, Nat.add_zero, Nat.mul_zero, List.drop_zero,
      List.take_of_length_le (Nat.le_of_eq hsize)] at hpart
  constructor
  · intro h
    obtain ⟨i, hi, hP⟩ := h
    have hmem : i ∈ (columnMajor x.shape).map (ravel x.shape) := by
      rw [map_ravel_columnMajor]
      exact List.mem_range.mpr hi
    obtain ⟨idx, hidx, rfl⟩ := List.mem_map.mp hmem
    have hin : InShape x.shape idx := mem_columnMajor.mp hidx
    exact ⟨idx, hin, hitem idx hin ▸ hP⟩
  · intro h
    obtain ⟨idx, hin, hP⟩ := h
    exact ⟨ravel x.shape idx, ravel_lt hin, (hitem idx hin).symm ▸ hP⟩

/-- The elements are as long as the items that they consist of. -/
theorem length_elements (hdtype : Scalar.ofDtype x.dtype = some type) :
    (x.elements host).length = (elementType type).itemsize * (parts type * x.shape.prod) := by
  rw [x.length_elements, (Scalar.ofDtype_eq_some hdtype).2, ← parts_mul_itemsize]
  ring

/-- What is written for an array whose sizes can be written, and what `__loadsmat` makes
of it. -/
theorem loads_dumps_ndarray (host' : Endian) (toKey : JavaScript.PropertyKey)
    (hdtype : Scalar.ofDtype x.dtype = some type) (hrank : x.shape ≠ [])
    (hdims : ∀ n ∈ x.shape, n < 2 ^ 32) :
    ∃ data a nread, Python.Dimeb.dumps host (.ndarray x) = some data ∧
      JavaScript.dimebloads host' toKey data =
        (JavaScript.loadsMatrix host' data type).map (fun r => .ndarray r.1) ∧
      JavaScript.loadsmat host' data (elementType type) (decide (type.kind = .c)) =
        some (⟨.F, asRow x.shape, a, decide (type.kind = .c)⟩, nread) ∧
      a.length = parts type * x.shape.prod ∧
      ∀ i, i < a.length → a.get host' i = (elementType type).read
        (JavaScript.itemAt (elementType type) (x.elements host) i) := by
  obtain ⟨a, nread, hloads, hlength, hget⟩ :=
    JavaScript.loadsmat_matHeader host' type hrank x.ndim_le hdims (length_elements hdtype)
  exact ⟨_, a, nread, by rw [Python.Dimeb.dumps, Python.dumpsNdarray_eq host hdtype hdims],
    JavaScript.dimebloads_matHeader host' toKey type x.shape _, hloads, hlength, hget⟩

/-- All elements are safe, unless one of them is too large. -/
theorem everySafe_elements_iff {a : TypedArray}
    (hdtype : Scalar.ofDtype x.dtype = some .u64) (hlength : a.length = x.shape.prod)
    (hexact : ∀ i, i < a.length → a.get host' i = .bigint (BigEndian.decode
      (JavaScript.itemAt (elementType .u64) (x.elements host) i) : Int)) :
    a.everySafe host' = true ↔
      ¬ ∃ idx, InShape x.shape idx ∧ 2 ^ 53 ≤ BigEndian.decode (x.element host idx) := by
  have hsafe : ∀ n : Nat, JavaScript.isSafe n = true ↔ ¬ 2 ^ 53 ≤ n := by
    intro n
    have hrange : JavaScript.isSafe n = true ↔ -(2 ^ 53 - 1) ≤ (n : Int) ∧ (n : Int) ≤ 2 ^ 53 - 1 :=
      decide_eq_true_iff
    rw [hrange]
    omega
  rw [JavaScript.everySafe_iff,
    ← exists_element_iff hdtype rfl (fun item => 2 ^ 53 ≤ BigEndian.decode item), not_exists]
  apply forall_congr'
  intro i
  rw [not_and, ← hlength]
  apply forall_congr'
  intro hi
  rw [← hsafe, hexact i hi]
  constructor
  · intro h
    obtain ⟨n, hn, hsafe⟩ := h
    cases hn
    exact hsafe
  · exact fun h => ⟨_, rfl, h⟩

end

/-- An array reaches JavaScript intact exactly if its sizes can be written and it is not
an array of 64-bit unsigned integers that are all safe. -/
theorem intact_iff (host host' : Endian) (toKey : JavaScript.PropertyKey) {type : Scalar}
    {x : Python.Ndarray} (hdtype : Scalar.ofDtype x.dtype = some type) (hrank : x.shape ≠ []) :
    Intact host host' toKey type x ↔
      (∀ n ∈ x.shape, n < 2 ^ 32) ∧
        (type = .u64 → ∃ idx, InShape x.shape idx ∧ 2 ^ 53 ≤ BigEndian.decode (x.element host idx)) := by
  constructor
  · intro h
    obtain ⟨data, y, hdumps, hloads, _⟩ := h
    have hdims := Python.dims_of_dumps hdumps
    refine ⟨hdims, ?_⟩
    rintro rfl
    obtain ⟨data', a, nread, hdumps', hloads', hmat, hlength, hget⟩ :=
      loads_dumps_ndarray host' toKey hdtype hrank hdims
    obtain rfl : data' = data := Option.some.inj (hdumps'.symm.trans hdumps)
    by_contra hunsafe
    -- all elements are safe, and the constructor throws
    have hsafe : a.everySafe host' = true :=
      (everySafe_elements_iff hdtype (hlength.trans (Nat.one_mul _)) hget).mpr hunsafe
    have hmat' : JavaScript.loadsmat host' data' .bigUint64 false =
        some (⟨.F, asRow x.shape, a, false⟩, nread) := hmat
    have hnone := JavaScript.loadsMatrix_u64 hmat' hsafe
    rw [hloads', hnone] at hloads
    cases hloads
  · intro h
    obtain ⟨hdims, hunsafe⟩ := h
    obtain ⟨data, a, nread, hdumps, hloads, hmat, hlength, hget⟩ :=
      loads_dumps_ndarray host' toKey hdtype hrank hdims
    have hlarge : type = .u64 → ¬ a.everySafe host' = true := by
      rintro rfl
      rw [everySafe_elements_iff hdtype (hlength.trans (Nat.one_mul _)) hget, not_not]
      exact hunsafe rfl
    obtain ⟨b, hmatrix, hsame⟩ := JavaScript.loadsMatrix_eq_some hmat hlarge
    refine ⟨data, ⟨.F, asRow x.shape, b, decide (type.kind = .c)⟩, hdumps,
      by rw [hloads, hmatrix]; rfl, rfl, ?_⟩
    intro idx hidx
    apply quantity_get hdtype rfl rfl rfl _ hidx
    intro i hi
    rw [← hlength] at hi
    rw [hsame i hi, hget i hi]

theorem intact_row : Intact .little .little (fun _ => none) .i16 Python.Value.row :=
  (intact_iff .little .little (fun _ => none) rfl (by decide)).mpr ⟨by decide, fun h => by cases h⟩

/-- A vector with the 64-bit unsigned integer one. -/
def smallVector : Python.Ndarray :=
  .fortran ⟨.u, 8, .native⟩ [1] [1, 0, 0, 0, 0, 0, 0, 0] 0 (by decide) (by decide) (by decide)

/-- JavaScript throws an exception for an array of small 64-bit unsigned integers. -/
theorem not_intact_smallVector : Scalar.ofDtype smallVector.dtype = some .u64 ∧
    smallVector.shape ≠ [] ∧
    ∀ toKey, ¬ Intact .little .little toKey .u64 smallVector := by
  refine ⟨rfl, by decide, ?_⟩
  intro toKey h
  obtain ⟨data, y, hdumps, hloads, _⟩ := h
  have hdata : Python.Dimeb.dumps .little (.ndarray smallVector) =
      some (Python.matHeader .u64 [1] ++ [0, 0, 0, 0, 0, 0, 0, 1]) := by
    rw [Python.Dimeb.dumps]
    decide +kernel
  have hnone : (JavaScript.loadsMatrix .little
      (Python.matHeader .u64 [1] ++ [0, 0, 0, 0, 0, 0, 0, 1]) .u64).isNone := by
    decide +kernel
  obtain rfl := Option.some.inj (hdata.symm.trans hdumps)
  rw [JavaScript.dimebloads_matHeader, Option.isNone_iff_eq_none.mp hnone] at hloads
  cases hloads

end Dime
