import Mathlib.Data.List.Nodup
import Dime.Clients.Python.DimebRoundTrip
import Dime.Clients.Python.Json

/-!
# Round trip of Python JSON

What `loads` makes of the text that `dumps` writes, and for which values this is
the value that was written.
-/

namespace Dime.Python

open Strided

namespace JsonCodec

/-! ## Text -/

/-- No character is the first half of a pair with the next one. -/
def Whole (chars : List CodePoint) : Prop :=
  chars.IsChain fun c d => ¬ (isHigh c.val = true ∧ isLow d.val = true)

instance (chars : List CodePoint) : Decidable (Whole chars) :=
  inferInstanceAs (Decidable (chars.IsChain _))

theorem isHigh_iff (n : Nat) : isHigh n = true ↔ 0xD800 ≤ n ∧ n < 0xDC00 := decide_eq_true_iff

theorem isLow_iff (n : Nat) : isLow n = true ↔ 0xDC00 ≤ n ∧ n < 0xE000 := decide_eq_true_iff

theorem toNat_unit {n : Nat} (h : n < 0x10000) : (UInt16.ofNat n).toNat = n := by
  rw [UInt16.toNat_ofNat', Nat.mod_eq_of_lt h]

theorem not_isHigh_join (high low : UInt16) : ¬ isHigh (join high low).val = true := by
  rw [isHigh_iff]
  simp only [join]
  omega

theorem not_isLow_join (high low : UInt16) : ¬ isLow (join high low).val = true := by
  rw [isLow_iff]
  simp only [join]
  omega

/-- The first character of a text is a half only if the text begins with it. -/
theorem isLow_unescape {unit : UInt16} {s : List UInt16} {c : CodePoint} {chars : List CodePoint}
    (h : unescape (unit :: s) = c :: chars) (hlow : isLow c.val = true) :
    isLow unit.toNat = true := by
  cases s with
  | nil =>
      rw [unescape] at h
      obtain ⟨rfl, _⟩ := List.cons.inj h
      exact hlow
  | cons low s =>
      rw [unescape] at h
      split at h
      · obtain ⟨rfl, _⟩ := List.cons.inj h
        exact absurd hlow (not_isLow_join unit low)
      · obtain ⟨rfl, _⟩ := List.cons.inj h
        exact hlow

/-- What is read has no halves side by side. -/
theorem whole_unescape (s : List UInt16) : Whole (unescape s) := by
  unfold Whole
  fun_induction unescape s with
  | case1 => exact .nil
  | case2 unit => exact .singleton _
  | case3 high low s hpair ih =>
      cases hrest : unescape s with
      | nil => exact .singleton _
      | cons d chars =>
          rw [hrest] at ih
          exact .cons_cons (fun h => not_isHigh_join high low h.1) ih
  | case4 high low s hpair ih =>
      cases hrest : unescape (low :: s) with
      | nil => exact .singleton _
      | cons d chars =>
          rw [hrest] at ih
          exact .cons_cons (fun h => hpair ⟨h.1, isLow_unescape hrest h.2⟩) ih

/-- A unit stands for itself, unless the next one is its other half. -/
theorem unescape_cons {unit : UInt16} {s : List UInt16}
    (h : ∀ low, s.head? = some low → ¬ (isHigh unit.toNat = true ∧ isLow low.toNat = true)) :
    unescape (unit :: s) = single unit :: unescape s := by
  cases s with
  | nil => rfl
  | cons low s => exact if_neg (h low rfl)

theorem unescape_text_of_whole {chars : List CodePoint} (h : Whole chars) :
    unescape (text chars) = chars := by
  induction chars with
  | nil => rfl
  | cons c chars ih =>
      have hrest : Whole chars := List.IsChain.of_cons h
      have hlt : c.val < 0x110000 := c.isLt
      rw [text, List.flatMap_cons, ← text, escape]
      split
      next hsmall =>
        have hsingle : single (UInt16.ofNat c.val) = c := Fin.ext (toNat_unit hsmall)
        rw [List.singleton_append, unescape_cons, hsingle, ih hrest]
        intro low hlow hpair
        cases chars with
        | nil => cases hlow
        | cons d chars =>
            rw [text, List.flatMap_cons, ← text, escape] at hlow
            rw [toNat_unit hsmall] at hpair
            split at hlow
            next hd =>
              obtain rfl := Option.some.inj hlow
              rw [toNat_unit hd] at hpair
              exact (List.isChain_cons_cons.mp h).1 hpair
            next hd =>
              obtain rfl := Option.some.inj hlow
              have hlow' := (isLow_iff _).mp hpair.2
              rw [toNat_unit (by omega)] at hlow'
              omega
      next hlarge =>
        have hhigh : (UInt16.ofNat (0xD800 + (c.val - 0x10000) / 0x400)).toNat =
            0xD800 + (c.val - 0x10000) / 0x400 := toNat_unit (by omega)
        have hlow : (UInt16.ofNat (0xDC00 + (c.val - 0x10000) % 0x400)).toNat =
            0xDC00 + (c.val - 0x10000) % 0x400 := toNat_unit (by omega)
        have hpair : isHigh (UInt16.ofNat (0xD800 + (c.val - 0x10000) / 0x400)).toNat = true ∧
            isLow (UInt16.ofNat (0xDC00 + (c.val - 0x10000) % 0x400)).toNat = true := by
          rw [isHigh_iff, isLow_iff, hhigh, hlow]
          omega
        have hjoin : join (UInt16.ofNat (0xD800 + (c.val - 0x10000) / 0x400))
            (UInt16.ofNat (0xDC00 + (c.val - 0x10000) % 0x400)) = c := by
          apply Fin.ext
          simp only [join, hhigh, hlow]
          omega
        rw [List.cons_append, List.singleton_append, unescape, if_pos hpair, hjoin, ih hrest]

/-- A string comes back exactly if no two of its characters become one. -/
theorem unescape_text_iff (chars : List CodePoint) : unescape (text chars) = chars ↔ Whole chars :=
  ⟨fun h => h ▸ whole_unescape _, unescape_text_of_whole⟩

theorem unescape_of_lt {s : List UInt16} (h : ∀ unit ∈ s, unit.toNat < 0xD800) :
    unescape s = s.map single := by
  induction s with
  | nil => rfl
  | cons unit s ih =>
      rw [List.forall_mem_cons] at h
      rw [unescape_cons, ih h.2, List.map_cons]
      intro low _ hpair
      have hhigh := (isHigh_iff _).mp hpair.1
      omega

/-! ## Arrays -/

/-- The text of an encoding is decoded to the same bytes. -/
theorem b64decode_encode (bytes : Bytes) :
    b64decode (unescape ((Base64.encode bytes).map fun c => UInt16.ofNat c.toNat)) = some bytes := by
  have hunit : ∀ c ∈ Base64.encode bytes, (UInt16.ofNat c.toNat).toNat = c.toNat ∧ c.toNat < 0x80 := by
    intro c hc
    have hlt := Base64.lt_of_mem_encode hc
    exact ⟨toNat_unit (by omega), hlt⟩
  have hchars : unescape ((Base64.encode bytes).map fun c => UInt16.ofNat c.toNat) =
      (Base64.encode bytes).map fun c => single (UInt16.ofNat c.toNat) := by
    rw [unescape_of_lt, List.map_map]
    · rfl
    · intro unit hunit'
      obtain ⟨c, hc, rfl⟩ := List.mem_map.mp hunit'
      have := hunit c hc
      omega
  have hascii : ((Base64.encode bytes).map fun c => single (UInt16.ofNat c.toNat)).all
      (fun c => c.val < 0x80) = true := by
    rw [List.all_map, List.all_eq_true]
    intro c hc
    exact decide_eq_true (lt_of_eq_of_lt (hunit c hc).1 (hunit c hc).2)
  have hback : ((Base64.encode bytes).map fun c => single (UInt16.ofNat c.toNat)).map
      (fun c => UInt8.ofNat c.val) = Base64.encode bytes := by
    rw [List.map_map]
    refine (List.map_congr_left ?_).trans (List.map_id _)
    intro c hc
    have hval : (single (UInt16.ofNat c.toNat)).val = c.toNat := (hunit c hc).1
    simp only [Function.comp_apply, hval, UInt8.ofNat_toNat, id]
  rw [hchars, b64decode, if_pos hascii, hback, Base64.decode_encode]

theorem swapped_of_itemsize_one {dtype : Dtype} (h : dtype.itemsize = 1) {item : Bytes}
    (hitem : item.length = dtype.itemsize) : dtype.swapped item = item := by
  obtain ⟨byte, rfl⟩ := List.length_eq_one_iff.mp (hitem.trans h)
  unfold Dtype.swapped
  split
  · rw [h]
    rfl
  · rfl

/-- In the byte order of the host an element is its item, or the item the other way around. -/
theorem element_native {host : Endian} {x : Ndarray} (h : x.dtype.isNative host = true)
    {idx : List Nat} (hidx : InShape x.shape idx) :
    x.element host idx = if host = .big then x.item idx else x.dtype.swapped (x.item idx) := by
  have hlen := x.length_item hidx
  unfold Ndarray.element Dtype.isBig
  unfold Dtype.isNative at h
  cases hbyteorder : x.dtype.byteorder with
  | native => simp
  | little =>
      obtain rfl : host = .little := by simpa [hbyteorder] using h
      simp
  | big =>
      obtain rfl : host = .big := by simpa [hbyteorder] using h
      simp
  | irrelevant =>
      have hone : x.dtype.itemsize = 1 := by simpa [hbyteorder] using h
      simp [swapped_of_itemsize_one hone hlen]

theorem isNative_dtype (host : Endian) (type : Scalar) : type.dtype.isNative host = true := by
  cases type <;> rfl

theorem dtype?_eq_some {host : Endian} {dtype : Dtype} {type : Scalar}
    (h : dtype? host dtype = some type) :
    dtype.isNative host = true ∧ Scalar.ofDtype dtype = some type := by
  unfold dtype? at h
  split at h
  · exact ⟨‹_›, h⟩
  · cases h

theorem frombuffer_all {data : Bytes} {dtype : Dtype} {shape : List Nat}
    (hdata : data.length = dtype.itemsize * shape.prod) (hitemsize : 0 < dtype.itemsize)
    (hdim : shape.length ≤ maxdims) (hsize : shape.prod * dtype.itemsize < 2 ^ 63) :
    ∃ hbuf, Ndarray.frombuffer data dtype (-1) 0 shape =
      some (.fortran dtype shape data 0 hbuf hdim hsize) := by
  have hbuf : 0 + dtype.itemsize * shape.prod ≤ data.length := by omega
  refine ⟨hbuf, ?_⟩
  have hmod : (data.length - 0) % dtype.itemsize = 0 := by
    rw [Nat.sub_zero, hdata, Nat.mul_mod_right]
  have hdiv : (data.length - 0) / dtype.itemsize = shape.prod := by
    rw [Nat.sub_zero, hdata, Nat.mul_div_cancel_left _ hitemsize]
  unfold Ndarray.frombuffer
  simp only [Nat.zero_le, guard_true, Option.pure_def, Option.bind_eq_bind, Option.bind_some,
    show (-1 : Int) < 0 by decide, if_true, hmod, hdiv]
  exact dif_pos ⟨trivial, hbuf, hdim, hsize⟩

theorem loadsElements_shape (shape : List Nat) :
    loadsElements (shape.map fun (n : Nat) => .integer n) = some (shape.map fun (n : Nat) => .int n) := by
  induction shape with
  | nil => rfl
  | cons n shape ih =>
      rw [List.map_cons, loadsElements, loads, ih]
      rfl

theorem mapM_toSize (shape : List Nat) :
    (shape.map fun (n : Nat) => Value.int n).mapM toSize = some shape := by
  rw [mapM_eq_some_iff, List.forall₂_map_left_iff, List.forall₂_same]
  intro n _
  rw [toSize, if_pos (Int.natCast_nonneg n), Int.toNat_natCast]

/-! ## Dicts -/

/-- The items of a dict whose keys differ. -/
theorem loadsMembers_of_nodup (entries : List (List CodePoint × Document × Value))
    (hkeys : ∀ entry ∈ entries, Whole entry.1)
    (hnodup : (entries.map fun entry => entry.1).Nodup)
    (hvalues : ∀ entry ∈ entries, loads entry.2.1 = some entry.2.2) (dct : List (Value × Value))
    (hdct : ∀ item ∈ dct, ∃ t, item.1 = .str t ∧ t ∉ entries.map fun entry => entry.1) :
    loadsMembers (entries.map fun entry => (text entry.1, entry.2.1)) dct =
      some (dct ++ entries.map fun entry => (.str entry.1, entry.2.2)) := by
  induction entries generalizing dct with
  | nil => simp [loadsMembers]
  | cons entry entries ih =>
      obtain ⟨key, doc, val⟩ := entry
      rw [List.forall_mem_cons] at hkeys hvalues
      rw [List.map_cons, List.nodup_cons] at hnodup
      have hkey : unescape (text key) = key := unescape_text_of_whole hkeys.1
      have hset : Value.setitem dct (.str key) val = some (dct ++ [(.str key, val)]) := by
        apply Value.setitem_str
        intro item hitem
        obtain ⟨t, ht, hnew⟩ := hdct item hitem
        refine ⟨t, ht, ?_⟩
        rintro rfl
        exact hnew List.mem_cons_self
      simp only [List.map_cons, loadsMembers, hvalues.1, hkey, hset, Option.bind_eq_bind,
        Option.bind_some]
      rw [ih hkeys.2 hnodup.2 hvalues.2, List.append_assoc]
      · rfl
      · intro item hitem
        obtain hold | hnew := List.mem_append.mp hitem
        · obtain ⟨t, ht, hnew⟩ := hdct item hold
          exact ⟨t, ht, fun hmem => hnew (List.mem_cons_of_mem _ hmem)⟩
        · obtain rfl := List.mem_singleton.mp hnew
          exact ⟨key, rfl, hnodup.1⟩

/-- What `default` returns for a complex number is read as one. -/
theorem loads_defaultComplex (real imag : UInt64) :
    loads (defaultComplex real imag) = some (.complex (textual real) (textual imag)) := by
  have hmembers := loadsMembers_of_nodup
    [(literal "__dime_type", .string (text (literal "complex")), .str (literal "complex")),
      (literal "real", .float (textual real), .float (textual real)),
      (literal "imag", .float (textual imag), .float (textual imag))]
    (by
      simp only [List.forall_mem_cons]
      exact ⟨by decide, by decide, by decide, by simp⟩)
    (by
      simp only [List.map_cons, List.map_nil]
      decide)
    (by
      simp only [List.forall_mem_cons, loads, unescape_text_of_whole (show Whole (literal "complex")
        by decide)]
      simp)
    [] (by simp)
  rw [defaultComplex, loads]
  simp only [List.map_cons, List.map_nil] at hmembers
  rw [hmembers]
  rfl

/-- What `default` returns for an array is read as an array, whose items are those of `x`
in row-major order, taken as if the order were column-major. -/
theorem loads_defaultNdarray {host : Endian} {x : Ndarray} {type : Scalar}
    (htype : dtype? host x.dtype = some type) :
    ∃ doc y, defaultNdarray host x = some doc ∧ loads doc = some (.ndarray y) ∧
      y.dtype = type.dtype ∧ y.shape = x.shape ∧ ∀ idx, InShape x.shape idx → ∃ idx',
        (rowMajor x.shape)[ravel x.shape idx]? = some idx' ∧
          y.element host idx = x.element host idx' := by
  obtain ⟨hnative, hscalar⟩ := dtype?_eq_some htype
  obtain ⟨hkind, hitemsize⟩ := Scalar.ofDtype_eq_some hscalar
  have hitem : ∀ idx ∈ rowMajor x.shape, (x.asfortranarray.item idx).length = type.dtype.itemsize := by
    intro idx hidx
    have hin : InShape x.shape idx := mem_rowMajor.mp hidx
    rw [x.item_asfortranarray hin, x.length_item hin, hitemsize]
    rfl
  have hdata : x.asfortranarray.tobytesC.length = type.dtype.itemsize * x.shape.prod := by
    rw [← length_rowMajor]
    exact length_flatMap_const hitem
  have hpos : 0 < type.dtype.itemsize := by cases type <;> decide
  have hsize : x.shape.prod * type.dtype.itemsize < 2 ^ 63 := by
    have hbytes := x.nbytes_lt
    rw [hitemsize] at hbytes
    exact hbytes
  obtain ⟨hbuf, hbuffer⟩ := frombuffer_all hdata hpos x.ndim_le hsize
  have hmembers := loadsMembers_of_nodup
    [(literal "__dime_type", .string (text (literal "matrix")), .str (literal "matrix")),
      (literal "dtype", .string (text (literal type.name)), .str (literal type.name)),
      (literal "shape", .array (x.shape.map fun (n : Nat) => .integer n), .list (x.shape.map fun (n : Nat) => .int n)),
      (literal "data", .string ((Base64.encode x.asfortranarray.tobytesC).map fun c =>
        UInt16.ofNat c.toNat), .str (unescape ((Base64.encode x.asfortranarray.tobytesC).map fun c =>
        UInt16.ofNat c.toNat)))]
    (by
      simp only [List.forall_mem_cons]
      exact ⟨by decide, by decide, by decide, by decide, by simp⟩)
    (by
      simp only [List.map_cons, List.map_nil]
      decide)
    (by
      have hname : Whole (literal type.name) := by cases type <;> decide
      simp only [List.forall_mem_cons, loads, loadsElements_shape, unescape_text_of_whole hname,
        unescape_text_of_whole (show Whole (literal "matrix") by decide)]
      simp)
    [] (by simp)
  simp only [List.map_cons, List.map_nil, List.nil_append] at hmembers
  have hmatrix : matrix (.str (unescape ((Base64.encode x.asfortranarray.tobytesC).map fun c =>
      UInt16.ofNat c.toNat))) (.str (literal type.name)) (.list (x.shape.map fun (n : Nat) => .int n)) =
      some (.ndarray (.fortran type.dtype x.shape x.asfortranarray.tobytesC 0 hbuf x.ndim_le hsize)) := by
    simp only [matrix, b64decode_encode, Scalar.ofName?_name, mapM_toSize, hbuffer,
      Option.bind_eq_bind, Option.bind_some]
  refine ⟨matrixDocument type x.shape x.asfortranarray.tobytesC,
    .fortran type.dtype x.shape x.asfortranarray.tobytesC 0 hbuf x.ndim_le hsize, ?_, ?_, rfl, rfl, ?_⟩
  · rw [defaultNdarray, htype]
    rfl
  · rw [matrixDocument, loads, hmembers]
    exact hmatrix
  · intro idx hidx
    have hlt : ravel x.shape idx < (rowMajor x.shape).length := by
      rw [length_rowMajor]
      exact ravel_lt hidx
    refine ⟨(rowMajor x.shape)[ravel x.shape idx], List.getElem?_eq_getElem hlt, ?_⟩
    have hin : InShape x.shape (rowMajor x.shape)[ravel x.shape idx] :=
      mem_rowMajor.mp (List.getElem_mem hlt)
    have hswapped : ∀ item, type.dtype.swapped item = x.dtype.swapped item := by
      intro item
      unfold Dtype.swapped
      rw [hkind, hitemsize]
      rfl
    have hleft := element_native (x := .fortran type.dtype x.shape x.asfortranarray.tobytesC 0 hbuf
      x.ndim_le hsize) (isNative_dtype host type) hidx
    have hblock : (x.asfortranarray.tobytesC.drop (type.dtype.itemsize * ravel x.shape idx)).take
        type.dtype.itemsize = x.asfortranarray.item (rowMajor x.shape)[ravel x.shape idx] :=
      block_flatMap hitem (List.getElem?_eq_getElem hlt)
    rw [hleft, element_native hnative hin, Ndarray.item_fortran hidx, Nat.zero_add, hblock,
      x.item_asfortranarray hin, Ndarray.dtype_fortran, hswapped]

/-! ## Values -/

/-- The same float; all NaNs count as one. -/
def SameFloat (bits bits' : UInt64) : Prop :=
  bits' = bits ∨
    Binary.double.datum bits.toNat = .nan ∧ Binary.double.datum bits'.toNat = .nan

/-- An array of the same numbers, index by index. -/
structure SameNdarray (host : Endian) (x y : Ndarray) : Prop where
  kind : y.dtype.kind = x.dtype.kind
  itemsize : y.dtype.itemsize = x.dtype.itemsize
  shape : y.shape = x.shape
  element : ∀ idx, InShape x.shape idx → y.element host idx = x.element host idx

/-- `x == y`, with arrays compared index by index. -/
inductive Equal (host : Endian) : Value → Value → Prop where
  | none : Equal host .none .none
  | bool (b : Bool) : Equal host (.bool b) (.bool b)
  | int (n : Int) : Equal host (.int n) (.int n)
  | float {bits bits' : UInt64} (same : SameFloat bits bits') : Equal host (.float bits) (.float bits')
  | complex {real imag real' imag' : UInt64} (re : SameFloat real real') (im : SameFloat imag imag') :
      Equal host (.complex real imag) (.complex real' imag')
  | str (chars : List CodePoint) : Equal host (.str chars) (.str chars)
  | list {xs ys : List Value} (length : xs.length = ys.length)
      (elements : ∀ pair ∈ xs.zip ys, Equal host pair.1 pair.2) : Equal host (.list xs) (.list ys)
  | dict {items items' : List (Value × Value)} (keys : items'.map Prod.fst = items.map Prod.fst)
      (values : ∀ pair ∈ items.zip items', Equal host pair.1.2 pair.2.2) :
      Equal host (.dict items) (.dict items')
  | ndarray {x y : Ndarray} (same : SameNdarray host x y) : Equal host (.ndarray x) (.ndarray y)

/-- The values that are built from JSON types, complex numbers and arrays of the types of
dimeb, in lists and in dicts without the key `__dime_type`. -/
inductive Jsonable (host : Endian) : Value → Prop where
  | none : Jsonable host .none
  | bool (b : Bool) : Jsonable host (.bool b)
  | int (n : Int) : Jsonable host (.int n)
  | float (bits : UInt64) : Jsonable host (.float bits)
  | complex (real imag : UInt64) : Jsonable host (.complex real imag)
  | str (chars : List CodePoint) : Jsonable host (.str chars)
  | list {xs : List Value} (elements : ∀ x ∈ xs, Jsonable host x) : Jsonable host (.list xs)
  | dict {items : List (Value × Value)}
      (keys : ∀ item ∈ items, ∃ chars, item.1 = .str chars ∧ chars ≠ literal "__dime_type")
      (distinct : (items.map Prod.fst).Nodup) (values : ∀ item ∈ items, Jsonable host item.2) :
      Jsonable host (.dict items)
  | ndarray {x : Ndarray} (dtype : dtype? host x.dtype ≠ Option.none) : Jsonable host (.ndarray x)

/-- The row-major list of the elements is the column-major one. -/
def OrderFree (host : Endian) (x : Ndarray) : Prop :=
  (rowMajor x.shape).map (x.element host) = (columnMajor x.shape).map (x.element host)

/-- The values whose strings are whole and whose arrays do not depend on the order. -/
inductive Survives (host : Endian) : Value → Prop where
  | none : Survives host .none
  | bool (b : Bool) : Survives host (.bool b)
  | int (n : Int) : Survives host (.int n)
  | float (bits : UInt64) : Survives host (.float bits)
  | complex (real imag : UInt64) : Survives host (.complex real imag)
  | str {chars : List CodePoint} (whole : Whole chars) : Survives host (.str chars)
  | list {xs : List Value} (elements : ∀ x ∈ xs, Survives host x) : Survives host (.list xs)
  | dict {items : List (Value × Value)}
      (keys : ∀ item ∈ items, ∀ chars, item.1 = .str chars → Whole chars)
      (values : ∀ item ∈ items, Survives host item.2) : Survives host (.dict items)
  | ndarray {x : Ndarray} (order : OrderFree host x) : Survives host (.ndarray x)

/-- What `dumps` writes for a value is read as the same value. -/
def Returns (host : Endian) (toText : KeyText) (x : Value) : Prop :=
  ∃ doc y, dumps host toText x = some doc ∧ loads doc = some y ∧ Equal host x y

theorem sameFloat_textual (bits : UInt64) : SameFloat bits (textual bits) := by
  unfold textual
  split
  next hnan => exact .inr ⟨hnan, by decide +kernel⟩
  next => exact .inl rfl

section

variable {host : Endian} {toText : KeyText}

theorem returns_ndarray_iff {x : Ndarray} (hdtype : dtype? host x.dtype ≠ none) :
    Returns host toText (.ndarray x) ↔ OrderFree host x := by
  obtain ⟨type, htype⟩ := Option.ne_none_iff_exists'.mp hdtype
  obtain ⟨hkind, hitemsize⟩ := Scalar.ofDtype_eq_some (dtype?_eq_some htype).2
  obtain ⟨doc, y, hdoc, hy, hydtype, hyshape, helement⟩ := loads_defaultNdarray htype
  rw [OrderFree, map_rowMajor_eq_iff]
  constructor
  · intro h
    obtain ⟨doc', y', hdoc', hy', hequal⟩ := h
    rw [dumps, hdoc] at hdoc'
    obtain rfl := Option.some.inj hdoc'
    obtain rfl := Option.some.inj (hy.symm.trans hy')
    cases hequal with
    | ndarray same =>
        intro idx idx' hidx hrow
        obtain ⟨idx'', hrow', heq⟩ := helement idx hidx
        obtain rfl := Option.some.inj (hrow.symm.trans hrow')
        exact heq.symm.trans (same.element idx hidx)
  · intro h
    refine ⟨doc, .ndarray y, by rw [dumps, hdoc], hy, .ndarray ⟨?_, ?_, hyshape, ?_⟩⟩
    · rw [hydtype, hkind]
      rfl
    · rw [hydtype, hitemsize]
      rfl
    · intro idx hidx
      obtain ⟨idx', hrow, heq⟩ := helement idx hidx
      exact heq.trans (h idx idx' hidx hrow)

/-- A list comes back exactly if its elements do. -/
theorem returns_list_iff (xs : List Value) :
    Returns host toText (.list xs) ↔ ∀ x ∈ xs, Returns host toText x := by
  have helements : (∃ docs ys, dumpsElements host toText xs = some docs ∧
      loadsElements docs = some ys ∧ xs.length = ys.length ∧
        ∀ pair ∈ xs.zip ys, Equal host pair.1 pair.2) ↔ ∀ x ∈ xs, Returns host toText x := by
    induction xs with
    | nil => exact ⟨fun _ => by simp, fun _ => ⟨[], [], rfl, rfl, rfl, by simp⟩⟩
    | cons x xs ih =>
        rw [List.forall_mem_cons, ← ih]
        constructor
        · intro h
          obtain ⟨docs, ys, hdocs, hys, hlength, hall⟩ := h
          rw [dumpsElements] at hdocs
          obtain ⟨doc, hdoc, hdocs⟩ := Option.bind_eq_some_iff.mp hdocs
          obtain ⟨docs, hdocs', hdocs⟩ := Option.bind_eq_some_iff.mp hdocs
          cases hdocs
          rw [loadsElements] at hys
          obtain ⟨y, hy, hys⟩ := Option.bind_eq_some_iff.mp hys
          obtain ⟨ys, hys', hys⟩ := Option.bind_eq_some_iff.mp hys
          cases hys
          rw [List.zip_cons_cons, List.forall_mem_cons] at hall
          exact ⟨⟨doc, y, hdoc, hy, hall.1⟩, docs, ys, hdocs', hys', Nat.succ.inj hlength, hall.2⟩
        · intro h
          obtain ⟨⟨doc, y, hdoc, hy, hequal⟩, docs, ys, hdocs, hys, hlength, hall⟩ := h
          refine ⟨doc :: docs, y :: ys, ?_, ?_, congrArg Nat.succ hlength, ?_⟩
          · rw [dumpsElements, hdoc, hdocs]
            rfl
          · rw [loadsElements, hy, hys]
            rfl
          · rw [List.zip_cons_cons, List.forall_mem_cons]
            exact ⟨hequal, hall⟩
  rw [← helements]
  constructor
  · intro h
    obtain ⟨doc, y, hdoc, hy, hequal⟩ := h
    rw [dumps] at hdoc
    obtain ⟨docs, hdocs, hdoc⟩ := Option.bind_eq_some_iff.mp hdoc
    cases hdoc
    rw [loads] at hy
    obtain ⟨ys, hys, hy⟩ := Option.bind_eq_some_iff.mp hy
    cases hy
    cases hequal with
    | list length elements => exact ⟨docs, ys, hdocs, hys, length, elements⟩
  · intro h
    obtain ⟨docs, ys, hdocs, hys, hlength, hall⟩ := h
    refine ⟨.array docs, .list ys, ?_, ?_, .list hlength hall⟩
    · rw [dumps, hdocs]
      rfl
    · rw [loads, hys]
      rfl

/-! ## Items of a dict -/

theorem forall_mem_zip_map {α β : Type} {f : α → β} {P : α × β → Prop} (l : List α) :
    (∀ pair ∈ l.zip (l.map f), P pair) ↔ ∀ a ∈ l, P (a, f a) := by
  induction l with
  | nil => simp
  | cons a l ih => rw [List.map_cons, List.zip_cons_cons, List.forall_mem_cons, List.forall_mem_cons, ih]

/-- The characters of a key. -/
def chars : Value → List CodePoint
  | .str chars => chars
  | _ => []

/-- A key without halves side by side. -/
def WholeKey (item : Value × Value) : Prop := ∃ t, item.1 = .str t ∧ Whole t

theorem wholeKey_setitem {dct dct' : List (Value × Value)} {t : List CodePoint} {val : Value}
    (h : Value.setitem dct (.str t) val = some dct') (ht : Whole t)
    (hdct : ∀ item ∈ dct, WholeKey item) : ∀ item ∈ dct', WholeKey item := by
  unfold Value.setitem at h
  simp only [Value.hashable, if_true] at h
  split at h
  · obtain rfl := Option.some.inj h
    intro item hitem
    obtain ⟨old, hold, rfl⟩ := List.mem_map.mp hitem
    split
    · exact hdct old hold
    · exact hdct old hold
  · obtain rfl := Option.some.inj h
    intro item hitem
    obtain hold | hnew := List.mem_append.mp hitem
    · exact hdct item hold
    · obtain rfl := List.mem_singleton.mp hnew
      exact ⟨t, rfl, ht⟩

/-- The keys that are read are whole. -/
theorem wholeKey_loadsMembers {members : List (List UInt16 × Document)}
    {dct dct' : List (Value × Value)} (h : loadsMembers members dct = some dct')
    (hdct : ∀ item ∈ dct, WholeKey item) : ∀ item ∈ dct', WholeKey item := by
  induction members generalizing dct with
  | nil =>
      rw [loadsMembers] at h
      obtain rfl := Option.some.inj h
      exact hdct
  | cons member members ih =>
      rw [loadsMembers] at h
      obtain ⟨val, _, h⟩ := Option.bind_eq_some_iff.mp h
      obtain ⟨dct'', hset, h⟩ := Option.bind_eq_some_iff.mp h
      exact ih h (wholeKey_setitem hset (whole_unescape _) hdct)

theorem loads_of_loadsMembers {items : List (Value × Value)} {members : List (List UInt16 × Document)}
    {dct dct' : List (Value × Value)} (hmembers : dumpsItems host toText items = some members)
    (h : loadsMembers members dct = some dct') :
    ∀ item ∈ items, ∃ doc v, dumps host toText item.2 = some doc ∧ loads doc = some v := by
  induction items generalizing members dct with
  | nil => exact fun item hitem => absurd hitem List.not_mem_nil
  | cons item items ih =>
      rw [dumpsItems] at hmembers
      obtain ⟨key, _, hmembers⟩ := Option.bind_eq_some_iff.mp hmembers
      obtain ⟨doc, hdoc, hmembers⟩ := Option.bind_eq_some_iff.mp hmembers
      obtain ⟨members, hrest, hmembers⟩ := Option.bind_eq_some_iff.mp hmembers
      cases hmembers
      rw [loadsMembers] at h
      obtain ⟨v, hv, h⟩ := Option.bind_eq_some_iff.mp h
      obtain ⟨dct'', _, h⟩ := Option.bind_eq_some_iff.mp h
      rw [List.forall_mem_cons]
      exact ⟨⟨doc, v, hdoc, hv⟩, ih hrest h⟩

theorem dumpsItems_eq {items : List (Value × Value)} {doc : Value × Value → Document}
    (hkeys : ∀ item ∈ items, ∃ t, item.1 = .str t)
    (hdoc : ∀ item ∈ items, dumps host toText item.2 = some (doc item)) :
    dumpsItems host toText items = some (items.map fun item => (text (chars item.1), doc item)) := by
  induction items with
  | nil => rfl
  | cons item items ih =>
      rw [List.forall_mem_cons] at hkeys hdoc
      obtain ⟨key, val⟩ := item
      obtain ⟨t, ht⟩ := hkeys.1
      obtain rfl : key = .str t := ht
      rw [dumpsItems, hdoc.1, ih hkeys.2 hdoc.2]
      rfl

/-- A dict whose keys are whole is read with the same keys. -/
theorem loads_dumpsItems {items : List (Value × Value)}
    (hkeys : ∀ item ∈ items, ∃ t, item.1 = .str t ∧ t ≠ literal "__dime_type" ∧ Whole t)
    (hdistinct : (items.map Prod.fst).Nodup) {doc : Value × Value → Document}
    {v : Value × Value → Value}
    (hvalues : ∀ item ∈ items, dumps host toText item.2 = some (doc item) ∧
      loads (doc item) = some (v item)) :
    ∃ members, dumpsItems host toText items = some members ∧
      loads (.object members) = some (.dict (items.map fun item => (item.1, v item))) := by
  refine ⟨_, dumpsItems_eq (fun item hitem => ?_) fun item hitem => (hvalues item hitem).1, ?_⟩
  · obtain ⟨t, ht, _⟩ := hkeys item hitem
    exact ⟨t, ht⟩
  have hchars : ∀ item ∈ items, item.1 = .str (chars item.1) := by
    intro item hitem
    obtain ⟨t, ht, _⟩ := hkeys item hitem
    rw [ht]
    rfl
  have hmembers := loadsMembers_of_nodup
    (items.map fun item => (chars item.1, doc item, v item))
    (by
      intro entry hentry
      obtain ⟨item, hitem, rfl⟩ := List.mem_map.mp hentry
      obtain ⟨t, ht, _, hwhole⟩ := hkeys item hitem
      rw [ht]
      exact hwhole)
    (by
      have hmap : (items.map fun item => (chars item.1, doc item, v item)).map
          (fun entry => entry.1) = (items.map Prod.fst).map chars := by
        simp
      rw [hmap]
      apply List.Nodup.map_on _ hdistinct
      intro key hkey key' hkey' heq
      obtain ⟨item, hitem, rfl⟩ := List.mem_map.mp hkey
      obtain ⟨item', hitem', rfl⟩ := List.mem_map.mp hkey'
      rw [hchars item hitem, hchars item' hitem', heq])
    (by
      intro entry hentry
      obtain ⟨item, hitem, rfl⟩ := List.mem_map.mp hentry
      exact (hvalues item hitem).2)
    [] (fun item hitem => absurd hitem List.not_mem_nil)
  have hitems : (items.map fun item => (chars item.1, doc item, v item)).map
      (fun entry => (Value.str entry.1, entry.2.2)) = items.map fun item => (item.1, v item) := by
    rw [List.map_map]
    apply List.map_congr_left
    intro item hitem
    rw [hchars item hitem]
    rfl
  rw [List.map_map, List.nil_append, hitems] at hmembers
  have hplain : get? (items.map fun item => (item.1, v item)) "__dime_type" = none := by
    rw [get?, Option.map_eq_none_iff, List.find?_eq_none]
    intro entry hentry
    obtain ⟨item, hitem, rfl⟩ := List.mem_map.mp hentry
    obtain ⟨t, ht, hne, _⟩ := hkeys item hitem
    rw [ht, Value.keyEq_str]
    simpa using hne
  have hloads : loadsMembers (items.map fun item => (text (chars item.1), doc item)) [] =
      some (items.map fun item => (item.1, v item)) := hmembers
  rw [loads, hloads, Option.bind_eq_bind, Option.bind_some, dechook, hplain]

/-- A dict that stays one is left as it is. -/
theorem eq_of_dechook {dct dct' : List (Value × Value)} (h : dechook dct = some (.dict dct')) :
    dct' = dct := by
  have hcomplex : ∀ real imag, complex real imag ≠ some (.dict dct') := by
    intro real imag h
    obtain ⟨_, _, h⟩ := Option.bind_eq_some_iff.mp h
    obtain ⟨_, _, h⟩ := Option.bind_eq_some_iff.mp h
    cases h
  have hmatrix : ∀ data dtype shape, matrix data dtype shape ≠ some (.dict dct') := by
    intro data dtype shape h
    unfold matrix at h
    split at h
    · obtain ⟨_, _, h⟩ := Option.bind_eq_some_iff.mp h
      obtain ⟨_, _, h⟩ := Option.bind_eq_some_iff.mp h
      obtain ⟨_, _, h⟩ := Option.bind_eq_some_iff.mp h
      obtain ⟨_, _, h⟩ := Option.bind_eq_some_iff.mp h
      cases h
    · cases h
  unfold dechook at h
  split at h
  · cases h
    rfl
  · split at h
    · obtain ⟨real, _, h⟩ := Option.bind_eq_some_iff.mp h
      obtain ⟨imag, _, h⟩ := Option.bind_eq_some_iff.mp h
      exact absurd h (hcomplex real imag)
    · split at h
      · obtain ⟨data, _, h⟩ := Option.bind_eq_some_iff.mp h
        obtain ⟨dtype, _, h⟩ := Option.bind_eq_some_iff.mp h
        obtain ⟨shape, _, h⟩ := Option.bind_eq_some_iff.mp h
        exact absurd h (hmatrix data dtype shape)
      · cases h
        rfl

theorem returns_dict_iff {items : List (Value × Value)}
    (hkeys : ∀ item ∈ items, ∃ t, item.1 = .str t ∧ t ≠ literal "__dime_type")
    (hdistinct : (items.map Prod.fst).Nodup) :
    Returns host toText (.dict items) ↔
      (∀ item ∈ items, ∀ t, item.1 = .str t → Whole t) ∧
        ∀ item ∈ items, Returns host toText item.2 := by
  have hall : (∀ item ∈ items, ∀ t, item.1 = .str t → Whole t) →
      ∀ item ∈ items, ∃ t, item.1 = .str t ∧ t ≠ literal "__dime_type" ∧ Whole t := by
    intro hwhole item hitem
    obtain ⟨t, ht, hne⟩ := hkeys item hitem
    exact ⟨t, ht, hne, hwhole item hitem t ht⟩
  constructor
  · intro h
    obtain ⟨doc, y, hdoc, hy, hequal⟩ := h
    rw [dumps] at hdoc
    obtain ⟨members, hmembers, hdoc⟩ := Option.bind_eq_some_iff.mp hdoc
    cases hdoc
    have hy' := hy
    rw [loads] at hy'
    obtain ⟨dct, hdct, hhook⟩ := Option.bind_eq_some_iff.mp hy'
    have hvalues := loads_of_loadsMembers hmembers hdct
    have hwholeDct := wholeKey_loadsMembers hdct fun item hitem => absurd hitem List.not_mem_nil
    cases hequal with
    | @dict _ items' keys values =>
        have hitems' : items' = dct := eq_of_dechook hhook
        have hwhole : ∀ item ∈ items, ∀ t, item.1 = .str t → Whole t := by
          intro item hitem t ht
          have hmem : item.1 ∈ items'.map Prod.fst := keys ▸ List.mem_map_of_mem hitem
          obtain ⟨item', hitem', hfst⟩ := List.mem_map.mp hmem
          obtain ⟨t', ht', hwhole⟩ := hwholeDct item' (hitems' ▸ hitem')
          rw [hfst, ht] at ht'
          cases ht'
          exact hwhole
        refine ⟨hwhole, ?_⟩
        have hfun : ∀ item : Value × Value, ∃ doc v, item ∈ items →
            dumps host toText item.2 = some doc ∧ loads doc = some v := by
          intro item
          by_cases hitem : item ∈ items
          · obtain ⟨doc, v, hdoc⟩ := hvalues item hitem
            exact ⟨doc, v, fun _ => hdoc⟩
          · exact ⟨.null, .none, fun h => absurd h hitem⟩
        choose doc v hdoc using hfun
        obtain ⟨members', hmembers', hloads⟩ := loads_dumpsItems (hall hwhole) hdistinct hdoc
        obtain rfl := Option.some.inj (hmembers.symm.trans hmembers')
        have hsame := Option.some.inj (hloads.symm.trans hy)
        cases hsame
        rw [forall_mem_zip_map] at values
        intro item hitem
        exact ⟨doc item, v item, (hdoc item hitem).1, (hdoc item hitem).2, values item hitem⟩
  · intro h
    obtain ⟨hwhole, hreturns⟩ := h
    have hfun : ∀ item : Value × Value, ∃ doc v, item ∈ items →
        dumps host toText item.2 = some doc ∧ loads doc = some v ∧ Equal host item.2 v := by
      intro item
      by_cases hitem : item ∈ items
      · obtain ⟨doc, v, hdoc⟩ := hreturns item hitem
        exact ⟨doc, v, fun _ => hdoc⟩
      · exact ⟨.null, .none, fun h => absurd h hitem⟩
    choose doc v hdoc using hfun
    obtain ⟨members, hmembers, hloads⟩ := loads_dumpsItems (hall hwhole) hdistinct
      fun item hitem => ⟨(hdoc item hitem).1, (hdoc item hitem).2.1⟩
    refine ⟨.object members, _, ?_, hloads, .dict ?_ ?_⟩
    · rw [dumps, hmembers]
      rfl
    · rw [List.map_map]
      rfl
    · rw [forall_mem_zip_map]
      exact fun item hitem => (hdoc item hitem).2.2

end

/-- A value comes back exactly if its strings are whole and its arrays do not depend on the
order. -/
theorem loads_dumps_iff (host : Endian) (toText : KeyText) {x : Value} (hx : Jsonable host x) :
    (∃ doc y, dumps host toText x = some doc ∧ loads doc = some y ∧ Equal host x y) ↔
      Survives host x := by
  change Returns host toText x ↔ Survives host x
  induction hx with
  | none => exact ⟨fun _ => .none, fun _ => ⟨.null, .none, by rw [dumps], by rw [loads], .none⟩⟩
  | bool b =>
      exact ⟨fun _ => .bool b, fun _ => ⟨.boolean b, .bool b, by rw [dumps], by rw [loads], .bool b⟩⟩
  | int n =>
      exact ⟨fun _ => .int n, fun _ => ⟨.integer n, .int n, by rw [dumps], by rw [loads], .int n⟩⟩
  | float bits =>
      exact ⟨fun _ => .float bits, fun _ => ⟨.float (textual bits), .float (textual bits),
        by rw [dumps], by rw [loads], .float (sameFloat_textual bits)⟩⟩
  | complex real imag =>
      exact ⟨fun _ => .complex real imag, fun _ => ⟨defaultComplex real imag, _, by rw [dumps],
        loads_defaultComplex real imag, .complex (sameFloat_textual real) (sameFloat_textual imag)⟩⟩
  | str chars =>
      constructor
      · intro h
        obtain ⟨doc, y, hdoc, hy, hequal⟩ := h
        rw [dumps] at hdoc
        cases hdoc
        rw [loads] at hy
        have hstr : unescape (text chars) = chars := by
          cases hequal with
          | str => exact Value.str.inj (Option.some.inj hy)
        exact .str ((unescape_text_iff chars).mp hstr)
      · intro h
        cases h with
        | str whole =>
            refine ⟨.string (text chars), .str chars, by rw [dumps], ?_, .str chars⟩
            rw [loads, unescape_text_of_whole whole]
  | list _ ih =>
      rw [returns_list_iff]
      constructor
      · exact fun h => .list fun x hx => (ih x hx).mp (h x hx)
      · intro h
        cases h with
        | list elements => exact fun x hx => (ih x hx).mpr (elements x hx)
  | dict keys distinct _ ih =>
      rw [returns_dict_iff keys distinct]
      constructor
      · exact fun h => .dict h.1 fun item hitem => (ih item hitem).mp (h.2 item hitem)
      · intro h
        cases h with
        | dict whole values =>
            exact ⟨whole, fun item hitem => (ih item hitem).mpr (values item hitem)⟩
  | ndarray dtype =>
      rw [returns_ndarray_iff dtype]
      constructor
      · exact .ndarray
      · intro h
        cases h with
        | ndarray order => exact order

theorem loads_dumps_dict_row : ∃ doc y,
    dumps .little (fun _ => none) (.dict [(.str [97], .list [.float 0, .ndarray Value.row])]) = some doc ∧
      loads doc = some y ∧
      Equal .little (.dict [(.str [97], .list [.float 0, .ndarray Value.row])]) y := by
  refine (loads_dumps_iff .little (fun _ => none) (.dict ?_ (by simp) ?_)).mpr (.dict ?_ ?_)
  · simp only [List.forall_mem_cons]
    exact ⟨⟨[97], rfl, by decide⟩, by simp⟩
  · simp only [List.forall_mem_cons]
    refine ⟨.list ?_, by simp⟩
    simp only [List.forall_mem_cons]
    exact ⟨.float 0, .ndarray (by decide), by simp⟩
  · simp only [List.forall_mem_cons]
    refine ⟨?_, by simp⟩
    intro t ht
    cases ht
    decide
  · simp only [List.forall_mem_cons]
    refine ⟨.list ?_, by simp⟩
    simp only [List.forall_mem_cons]
    exact ⟨.float 0, .ndarray (by unfold OrderFree; decide), by simp⟩

/-- The rows 1, 2 and 3, 4. -/
def square : Ndarray :=
  .fortran ⟨.i, 1, .irrelevant⟩ [2, 2] [1, 3, 2, 4] 0 (by decide) (by decide) (by decide)

/-- It comes back with its rows and columns exchanged. -/
theorem not_loads_dumps_square : Jsonable .little (.ndarray square) ∧ ∀ toText,
    ¬ ∃ doc y, dumps .little toText (.ndarray square) = some doc ∧ loads doc = some y ∧
      Equal .little (.ndarray square) y := by
  refine ⟨.ndarray (by decide), ?_⟩
  intro toText h
  have horder : OrderFree .little square := (returns_ndarray_iff (by decide)).mp h
  revert horder
  unfold OrderFree
  decide

end JsonCodec

end Dime.Python
