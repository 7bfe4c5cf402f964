import Dime.Clients.JavaScript.Dimeb
import Dime.Clients.Python.DimebRoundTrip

/-!
# The encoders of Python and JavaScript

When a Python value and a JavaScript value are the same, and when the two
encoders write the same bytes for them.
-/

namespace Dime

open Python (Endian Scalar Tag)
open JavaScript (NDArray ElementType Units)
open Strided

/-! ## Text -/

namespace JavaScript

theorem toNat_encodeUnit {n : Nat} (h : n < 0x10000) : (UInt16.ofNat n).toNat = n := by
  rw [UInt16.toNat_ofNat', Nat.mod_eq_of_lt h]

theorem characters_unit {unit : UInt16} (h : unit.toNat < 0xD800 ∨ 0xDFFF < unit.toNat) (s : Units) :
    characters (unit :: s) = Char.ofNat unit.toNat :: characters s := by
  have hhigh : ¬ (0xD800 ≤ unit.toNat ∧ unit.toNat < 0xDC00) := by omega
  have hlow : ¬ (0xDC00 ≤ unit.toNat ∧ unit.toNat < 0xE000) := by omega
  cases s with
  | nil => simp [characters, hhigh, hlow]
  | cons next s => rw [characters, if_neg hhigh, if_neg hlow]

theorem characters_encodeChar (c : Char) (s : Units) :
    characters (encodeChar c ++ s) = c :: characters s := by
  have hvalid : c.toNat < 0xD800 ∨ 0xDFFF < c.toNat ∧ c.toNat < 0x110000 := c.valid
  unfold encodeChar
  split
  next hsmall =>
    have hunit := toNat_encodeUnit hsmall
    rw [List.singleton_append, characters_unit (by omega), hunit, Char.ofNat_toNat]
  next hlarge =>
    have hhigh : 0xD800 + (c.toNat - 0x10000) / 0x400 < 0x10000 := by omega
    have hlow : 0xDC00 + (c.toNat - 0x10000) % 0x400 < 0x10000 := by omega
    have hpoint : 0x10000 + (0xD800 + (c.toNat - 0x10000) / 0x400 - 0xD800) * 0x400 +
        (0xDC00 + (c.toNat - 0x10000) % 0x400 - 0xDC00) = c.toNat := by
      omega
    rw [List.cons_append, List.singleton_append, characters, toNat_encodeUnit hhigh,
      if_pos (by omega)]
    simp only [toNat_encodeUnit hlow]
    rw [if_pos (by omega), hpoint, Char.ofNat_toNat]

/-- A well-formed string has the characters that it was made of. -/
theorem characters_encode (chars : List Char) : characters (chars.flatMap encodeChar) = chars := by
  induction chars with
  | nil => rfl
  | cons c chars ih => rw [List.flatMap_cons, characters_encodeChar, ih]

end JavaScript

/-! ## Arrays -/

/-- The accessor for the elements of a type, or for the parts of a complex one. -/
def elementType : Scalar → ElementType
  | .i8 => .int8
  | .i16 => .int16
  | .i32 => .int32
  | .i64 => .bigInt64
  | .u8 => .uint8
  | .u16 => .uint16
  | .u32 => .uint32
  | .u64 => .bigUint64
  | .single | .complexSingle => .float32
  | .double | .complexDouble => .float64

/-- How many items of an array stand for an element. -/
def parts (type : Scalar) : Nat := if type.kind = .c then 2 else 1

theorem parts_mul_itemsize (type : Scalar) : parts type * (elementType type).itemsize = type.itemsize := by
  cases type <;> rfl

/-- `y` is an array with the type, the shape and the elements of `x`, none of which is a
NaN. -/
structure SameArray (host host' : Endian) (type : Scalar) (x : Python.Ndarray) (y : NDArray) :
    Prop where
  dtype : Scalar.ofDtype x.dtype = some type
  order : y.order = .F
  shape : y.shape = x.shape
  array : y.array.type = .of (elementType type)
  complex : y.complex = decide (type.kind = .c)
  length : y.array.length = parts type * x.shape.prod
  elements : ∀ idx, InShape x.shape idx → ∃ i, y.makeIndex idx true = some i ∧
    x.element host idx =
      (List.range (parts type)).flatMap fun k => JavaScript.ordered host' (y.array.item (i + k))
  numbers : ∀ i bits, y.array.get host' i = .number bits → JavaScript.datum bits ≠ .nan

namespace SameArray

variable {host host' : Endian} {type : Scalar} {x : Python.Ndarray} {y : NDArray}

theorem dtype? (h : SameArray host host' type x y) : y.dtype? = some (type, elementType type) := by
  rw [NDArray.dtype?, h.array, h.complex]
  cases type <;> rfl

/-- The elements in column-major order are the items from first to last. -/
theorem elements_eq (h : SameArray host host' type x y) :
    x.elements host =
      (List.range y.array.length).flatMap fun i => JavaScript.ordered host' (y.array.item i) := by
  have hfactor : (if y.complex then 2 else 1) = parts type := by
    rw [h.complex, parts]
    cases type <;> rfl
  rw [h.length, ← flatMap_ravel, Python.Ndarray.elements]
  apply Python.Ndarray.flatMap_congr
  intro idx hidx
  have hin : InShape x.shape idx := mem_columnMajor.mp hidx
  obtain ⟨i, hi, helement⟩ := h.elements idx hin
  rw [NDArray.makeIndex_eq h.order (h.shape ▸ hin), hfactor, h.shape] at hi
  rw [helement, ← Option.some.inj hi]

/-- Each item is written as it stands. -/
theorem write_get (h : SameArray host host' type x y) {i : Nat} (hi : i < y.array.length) :
    (elementType type).write (y.array.get host' i) =
      some (JavaScript.ordered host' (y.array.item i)) := by
  have helement : y.array.type.element = elementType type := by rw [h.array]; rfl
  have hget : y.array.get host' i =
      (elementType type).read (JavaScript.ordered host' (y.array.item i)) := by
    rw [JavaScript.TypedArray.get, if_pos hi, helement]
  have hlen : (JavaScript.ordered host' (y.array.item i)).length = (elementType type).itemsize := by
    rw [JavaScript.length_ordered, y.array.length_item hi, JavaScript.ArrayType.itemsize, helement]
  rw [hget]
  apply ElementType.write_read hlen
  intro hfloat hnan
  rw [hfloat] at hget
  apply h.numbers i _ hget
  rw [JavaScript.datum_widen, hnan]

theorem dumpsNDArray_eq (h : SameArray host host' type x y) :
    JavaScript.dumpsNDArray host' y = some (Python.matHeader type x.shape ++ x.elements host) := by
  have helements : (List.range y.array.length).mapM
      (fun i => (elementType type).write (y.array.get host' i)) =
      some ((List.range y.array.length).map fun i => JavaScript.ordered host' (y.array.item i)) := by
    rw [Python.mapM_eq_some_iff, List.forall₂_map_right_iff, List.forall₂_same]
    exact fun i hi => h.write_get (List.mem_range.mp hi)
  rw [h.elements_eq, List.flatMap_def]
  simp only [JavaScript.dumpsNDArray, h.order, guard_true, h.dtype?, helements, Option.pure_def,
    Option.bind_eq_bind, Option.bind_some, h.shape, Python.matHeader, JavaScript.code_eq]

end SameArray

/-! ## Values -/

/-- A Python value and a JavaScript value that are the same. -/
inductive SameValue (host host' : Endian) : Python.Value → JavaScript.Value → Prop where
  | null : SameValue host host' .none .null
  | boolean (b : Bool) : SameValue host host' (.bool b) (.boolean b)
  | integer {n : Int} {bits : UInt64} (safe : -(2 ^ 53 - 1) ≤ n ∧ n ≤ 2 ^ 53 - 1)
      (number : JavaScript.datum bits = Binary.Datum.ofInt n) :
      SameValue host host' (.int n) (.number bits)
  | number {bits : UInt64} (fractional : (JavaScript.datum bits).integer? = none)
      (number : JavaScript.datum bits ≠ .nan) : SameValue host host' (.float bits) (.number bits)
  | complex (real imag : UInt64) :
      SameValue host host' (.complex real imag) (.complex (.number real) (.number imag))
  | string (chars : List Char) :
      SameValue host host' (.str (chars.map Python.codePoint))
        (.string (chars.flatMap JavaScript.encodeChar))
  | array {xs : List Python.Value} {ys : List JavaScript.Value} (length : xs.length = ys.length)
      (elements : ∀ pair ∈ xs.zip ys, SameValue host host' pair.1 pair.2) :
      SameValue host host' (.list xs) (.array ys)
  | object {items : List (Python.Value × Python.Value)}
      {entries : List (Units × JavaScript.Value)} (length : items.length = entries.length)
      (keys : ∀ pair ∈ items.zip entries, ∃ chars : List Char,
        pair.1.1 = .str (chars.map Python.codePoint) ∧
          pair.2.1 = chars.flatMap JavaScript.encodeChar)
      (distinct : (entries.map Prod.fst).Nodup)
      (names : ∀ entry ∈ entries, JavaScript.arrayIndex? entry.1 = none)
      (values : ∀ pair ∈ items.zip entries, SameValue host host' pair.1.2 pair.2.2) :
      SameValue host host' (.dict items) (.object entries)
  | ndarray {type : Scalar} {x : Python.Ndarray} {y : NDArray} (rank : 1 ≤ x.shape.length)
      (same : SameArray host host' type x y) : SameValue host host' (.ndarray x) (.ndarray y)

/-- The sizes in a value can be written with 32 bits. -/
inductive Sized : Python.Value → Prop where
  | none : Sized .none
  | bool (b : Bool) : Sized (.bool b)
  | int (n : Int) : Sized (.int n)
  | float (bits : UInt64) : Sized (.float bits)
  | complex (real imag : UInt64) : Sized (.complex real imag)
  | str {chars : List Python.CodePoint}
      (size : ∀ s, Python.utf8Encode chars = some s → s.length < 2 ^ 32) : Sized (.str chars)
  | list {xs : List Python.Value} (size : xs.length < 2 ^ 32) (elements : ∀ x ∈ xs, Sized x) :
      Sized (.list xs)
  | dict {items : List (Python.Value × Python.Value)} (size : items.length < 2 ^ 32)
      (keys : ∀ item ∈ items, Sized item.1) (values : ∀ item ∈ items, Sized item.2) :
      Sized (.dict items)
  | ndarray {x : Python.Ndarray} (dims : ∀ n ∈ x.shape, n < 2 ^ 32) : Sized (.ndarray x)

/-- The two encoders write the same bytes. -/
def WriteSame (host host' : Endian) (x : Python.Value) (y : JavaScript.Value) : Prop :=
  ∃ data, Python.Dimeb.dumps host x = some data ∧ JavaScript.dimebdumps host' y = some data

theorem dumpsStr_eq {chars : List Char}
    (hsize : ∀ s, Python.utf8Encode (chars.map Python.codePoint) = some s → s.length < 2 ^ 32) :
    Python.Dimeb.dumpsStr (chars.map Python.codePoint) =
      some (JavaScript.dumpsString (chars.flatMap JavaScript.encodeChar)) := by
  have hutf8 := Python.utf8Encode_codePoint chars
  have htext : JavaScript.encodeText (chars.flatMap JavaScript.encodeChar) =
      chars.flatMap String.utf8EncodeChar := by
    rw [JavaScript.encodeText, JavaScript.characters_encode]
  rw [JavaScript.dumpsString, htext]
  simp only [Python.Dimeb.dumpsStr, hutf8, Python.packI_of_lt (hsize _ hutf8), Option.bind_eq_bind,
    Option.bind_some]
  rfl

section

variable {host host' : Endian}

theorem dumpsElements_eq {xs : List Python.Value} {ys : List JavaScript.Value}
    (hlength : xs.length = ys.length)
    (h : ∀ pair ∈ xs.zip ys, WriteSame host host' pair.1 pair.2) :
    ∃ data, Python.Dimeb.dumpsElements host xs = some data ∧
      JavaScript.dumpsElements host' ys = some data := by
  induction xs generalizing ys with
  | nil =>
      obtain rfl := List.length_eq_zero_iff.mp hlength.symm
      exact ⟨[], rfl, rfl⟩
  | cons x xs ih =>
      cases ys with
      | nil => cases hlength
      | cons y ys =>
          rw [List.zip_cons_cons, List.forall_mem_cons] at h
          obtain ⟨first, hx, hy⟩ := h.1
          obtain ⟨others, hxs, hys⟩ := ih (Nat.succ.inj hlength) h.2
          refine ⟨first ++ others, ?_, ?_⟩
          · rw [Python.Dimeb.dumpsElements, hx, hxs]
            rfl
          · rw [JavaScript.dumpsElements, hy, hys]
            rfl

theorem dumpsKeyvalpairs_eq {items : List (Python.Value × Python.Value)}
    {entries : List (Units × JavaScript.Value)} (hlength : items.length = entries.length)
    (hkeys : ∀ pair ∈ items.zip entries,
      Python.Dimeb.dumps host pair.1.1 = some (JavaScript.dumpsString pair.2.1))
    (hvalues : ∀ pair ∈ items.zip entries, WriteSame host host' pair.1.2 pair.2.2) :
    ∃ data, Python.Dimeb.dumpsKeyvalpairs host items = some data ∧
      JavaScript.dumpsEntries host' entries = some data := by
  induction items generalizing entries with
  | nil =>
      obtain rfl := List.length_eq_zero_iff.mp hlength.symm
      exact ⟨[], rfl, rfl⟩
  | cons item items ih =>
      cases entries with
      | nil => cases hlength
      | cons entry entries =>
          obtain ⟨key, val⟩ := item
          obtain ⟨name, value⟩ := entry
          rw [List.zip_cons_cons, List.forall_mem_cons] at hkeys hvalues
          have hkey : Python.Dimeb.dumps host key = some (JavaScript.dumpsString name) := hkeys.1
          obtain ⟨first, hval, hvalue⟩ := hvalues.1
          obtain ⟨others, hitems, hentries⟩ := ih (Nat.succ.inj hlength) hkeys.2 hvalues.2
          refine ⟨JavaScript.dumpsString name ++ first ++ others, ?_, ?_⟩
          · rw [Python.Dimeb.dumpsKeyvalpairs, hkey, hval, hitems]
            rfl
          · rw [JavaScript.dumpsEntries, hvalue, hentries]
            rfl

theorem writeSame_integer {n : Int} {bits : UInt64} (hsafe : -(2 ^ 53 - 1) ≤ n ∧ n ≤ 2 ^ 53 - 1)
    (hnumber : JavaScript.datum bits = Binary.Datum.ofInt n) :
    WriteSame host host' (.int n) (.number bits) := by
  have hinteger : (JavaScript.datum bits).integer? = some n := by
    rw [hnumber, Binary.Datum.integer?_ofInt]
  have hpack : Python.packq n = some (BigEndian.encode 8 (n % 2 ^ 64).toNat) :=
    if_pos (by omega)
  refine ⟨(Tag.scalar .i64).code :: BigEndian.encode 8 (n % 2 ^ 64).toNat, ?_, ?_⟩
  · rw [Python.Dimeb.dumps, hpack]
    rfl
  · simp only [JavaScript.dimebdumps, hinteger, JavaScript.code_eq]

theorem writeSame_number {bits : UInt64} (hfractional : (JavaScript.datum bits).integer? = none) :
    WriteSame host host' (.float bits) (.number bits) := by
  refine ⟨_, by rw [Python.Dimeb.dumps], ?_⟩
  simp only [JavaScript.dimebdumps, hfractional, JavaScript.code_eq]
  rfl

theorem writeSame_array {xs : List Python.Value} {ys : List JavaScript.Value}
    (hlength : xs.length = ys.length)
    (h : ∀ pair ∈ xs.zip ys, WriteSame host host' pair.1 pair.2) (hsize : xs.length < 2 ^ 32) :
    WriteSame host host' (.list xs) (.array ys) := by
  obtain ⟨data, hxs, hys⟩ := dumpsElements_eq hlength h
  refine ⟨Tag.array.code :: (BigEndian.encode 4 xs.length ++ data), ?_, ?_⟩
  · rw [Python.Dimeb.dumps, hxs, Python.packI_of_lt hsize]
    rfl
  · rw [JavaScript.dimebdumps, hys, hlength, JavaScript.code_eq]
    rfl

theorem writeSame_object {items : List (Python.Value × Python.Value)}
    {entries : List (Units × JavaScript.Value)} (hlength : items.length = entries.length)
    (hkeys : ∀ pair ∈ items.zip entries,
      Python.Dimeb.dumps host pair.1.1 = some (JavaScript.dumpsString pair.2.1))
    (hvalues : ∀ pair ∈ items.zip entries, WriteSame host host' pair.1.2 pair.2.2)
    (hsize : items.length < 2 ^ 32) : WriteSame host host' (.dict items) (.object entries) := by
  obtain ⟨data, hitems, hentries⟩ := dumpsKeyvalpairs_eq hlength hkeys hvalues
  refine ⟨Tag.assocarray.code :: (BigEndian.encode 4 items.length ++ data), ?_, ?_⟩
  · rw [Python.Dimeb.dumps, hitems, Python.packI_of_lt hsize]
    rfl
  · rw [JavaScript.dimebdumps, hentries, hlength, JavaScript.code_eq]
    rfl

end

/-- For the same value of sizes below 2^32 the two encoders write the same bytes. -/
theorem dimebdumps_eq_dumps {host host' : Endian} {x : Python.Value} {y : JavaScript.Value}
    (h : SameValue host host' x y) (hsized : Sized x) :
    ∃ data, Python.Dimeb.dumps host x = some data ∧ JavaScript.dimebdumps host' y = some data := by
  change WriteSame host host' x y
  induction h with
  | null => exact ⟨_, by rw [Python.Dimeb.dumps], by rw [JavaScript.dimebdumps]; rfl⟩
  | boolean b =>
      cases b with
      | false => exact ⟨_, by rw [Python.Dimeb.dumps], by rw [JavaScript.dimebdumps]; rfl⟩
      | true => exact ⟨_, by rw [Python.Dimeb.dumps], by rw [JavaScript.dimebdumps]; rfl⟩
  | integer safe number => exact writeSame_integer safe number
  | number fractional _ => exact writeSame_number fractional
  | complex real imag =>
      exact ⟨_, by rw [Python.Dimeb.dumps], by rw [JavaScript.dimebdumps]; rfl⟩
  | string chars =>
      cases hsized with
      | str size =>
          exact ⟨_, by rw [Python.Dimeb.dumps, dumpsStr_eq size], by rw [JavaScript.dimebdumps]⟩
  | array length _ ih =>
      cases hsized with
      | list size elements =>
          apply writeSame_array length _ size
          intro pair hpair
          exact ih pair hpair (elements _ (List.of_mem_zip hpair).1)
  | object length keys _ _ _ ih =>
      cases hsized with
      | dict size hkeys hvalues =>
          apply writeSame_object length _ _ size
          · intro pair hpair
            obtain ⟨chars, hkey, hname⟩ := keys pair hpair
            have hkeySized := hkeys _ (List.of_mem_zip hpair).1
            rw [hkey] at hkeySized
            cases hkeySized with
            | str size => rw [hkey, hname, Python.Dimeb.dumps, dumpsStr_eq size]
          · intro pair hpair
            exact ih pair hpair (hvalues _ (List.of_mem_zip hpair).1)
  | ndarray _ same =>
      cases hsized with
      | ndarray dims =>
          exact ⟨_, by rw [Python.Dimeb.dumps, Python.dumpsNdarray_eq host same.dtype dims],
            by rw [JavaScript.dimebdumps, same.dumpsNDArray_eq]⟩

/-- The row of two 16-bit integers in JavaScript. -/
def rowNDArray : NDArray :=
  ⟨.F, [1, 2], ⟨.of .int16, [1, 0, 2, 0], 0, 2, by decide, by decide⟩, false⟩

theorem sameArray_row : SameArray .little .little .i16 Python.Value.row rowNDArray where
  dtype := rfl
  order := rfl
  shape := rfl
  array := rfl
  complex := rfl
  length := rfl
  elements := by
    intro idx hidx
    have hmem : idx ∈ columnMajor [1, 2] := mem_columnMajor.mpr hidx
    obtain ⟨j, hj, rfl⟩ : ∃ j, j < 2 ∧ idx = [0, j] := by simpa [columnMajor, eq_comm] using hmem
    obtain rfl | rfl : j = 0 ∨ j = 1 := by omega
    · exact ⟨0, rfl, rfl⟩
    · exact ⟨1, rfl, rfl⟩
  numbers := by
    intro i bits hbits hnan
    unfold JavaScript.TypedArray.get at hbits
    split at hbits
    next hi =>
      have hcases : i = 0 ∨ i = 1 := by
        change i < 2 at hi
        omega
      obtain rfl | rfl := hcases
      · cases hbits
        revert hnan
        decide +kernel
      · cases hbits
        revert hnan
        decide +kernel
    next => cases hbits

theorem dimebdumps_eq_dumps_row : ∃ data,
    Python.Dimeb.dumps .little (.dict [(.str [97], .list [.int 3, .ndarray Python.Value.row])]) =
      some data ∧
    JavaScript.dimebdumps .little
      (.object [([97], .array [.number 0x4008000000000000, .ndarray rowNDArray])]) = some data := by
  have hthree : JavaScript.datum 0x4008000000000000 = Binary.Datum.ofInt 3 := by decide +kernel
  have hlist : SameValue .little .little (.list [.int 3, .ndarray Python.Value.row])
      (.array [.number 0x4008000000000000, .ndarray rowNDArray]) := by
    refine .array rfl ?_
    simp only [List.zip_cons_cons, List.zip_nil_left, List.forall_mem_cons]
    exact ⟨.integer (by decide) hthree, .ndarray (by decide) sameArray_row, by simp⟩
  have hsized : Sized (.list [.int 3, .ndarray Python.Value.row]) := by
    refine .list (by decide) ?_
    simp only [List.forall_mem_cons]
    exact ⟨.int 3, .ndarray (by decide), by simp⟩
  have hsize : ∀ s, Python.utf8Encode [97] = some s → s.length < 2 ^ 32 := by
    intro s hs
    cases hs
    decide
  refine dimebdumps_eq_dumps (.object rfl ?_ (by simp) ?_ ?_) (.dict (by decide) ?_ ?_)
  · simp only [List.zip_cons_cons, List.zip_nil_left, List.forall_mem_cons]
    exact ⟨⟨['a'], rfl, rfl⟩, by simp⟩
  · simp only [List.forall_mem_cons]
    exact ⟨by decide +kernel, by simp⟩
  · simp only [List.zip_cons_cons, List.zip_nil_left, List.forall_mem_cons]
    exact ⟨hlist, by simp⟩
  · simp only [List.forall_mem_cons]
    exact ⟨.str hsize, by simp⟩
  · simp only [List.forall_mem_cons]
    exact ⟨hsized, by simp⟩

/-- An array without elements, one of whose sizes does not fit into 32 bits. -/
def flat : Python.Ndarray :=
  .fortran ⟨.i, 1, .irrelevant⟩ [2 ^ 32, 0] [] 0 (by decide) (by decide) (by decide)

def flatNDArray : NDArray := ⟨.F, [2 ^ 32, 0], ⟨.of .int8, [], 0, 0, by decide, by decide⟩, false⟩

/-- For such an array Python raises an exception and JavaScript writes something. -/
theorem dimebdumps_ne_dumps : ∃ x y, SameValue .little .little x y ∧
    Python.Dimeb.dumps .little x = none ∧ JavaScript.dimebdumps .little y ≠ none := by
  refine ⟨.ndarray flat, .ndarray flatNDArray, @SameValue.ndarray _ _ .i8 flat flatNDArray (by decide) ?_, ?_, ?_⟩
  · refine ⟨rfl, rfl, rfl, rfl, rfl, rfl, ?_, ?_⟩
    · intro idx hidx
      have hmem : idx ∈ columnMajor [2 ^ 32, 0] := mem_columnMajor.mpr hidx
      exact absurd hmem List.not_mem_nil
    · intro i bits hbits
      have hempty : flatNDArray.array.get .little i = .undefined := if_neg (Nat.not_lt_zero i)
      rw [hempty] at hbits
      cases hbits
  · rw [Python.Dimeb.dumps]
    decide +kernel
  · decide +kernel

end Dime
