import Mathlib.Algebra.BigOperators.Group.List.Lemmas
import Dime.Clients.Matlab.DimebArrays

/-!
# Arrays that Matlab reads back

What `dimebloads` makes of the numeric arrays that `dimebdumps` writes.
-/

namespace Dime.Matlab

open Python (Endian Scalar Tag matHeader)

variable {cls : NumClass} (computer : Endian)

/-! ## Bytes of an array -/

theorem sizeBytes_eq {n : Nat} (h : n < 2 ^ 32) : Dimeb.sizeBytes computer n = BigEndian.encode 4 n := by
  have hval : (uint32 n).val = n := by
    have hmin : min n (2 ^ 32 - 1) = n := Nat.min_eq_left (by omega)
    rw [uint32, hmin, Fin.val_ofNat]
    exact Nat.mod_eq_of_lt (Nat.lt_of_lt_of_eq h (by decide))
  rw [Dimeb.sizeBytes, toBytes_swap, NumClass.encode, hval]
  rfl

theorem length_sizeBytes (n : Nat) : (Dimeb.sizeBytes computer n).length = 4 := by
  rw [Dimeb.sizeBytes, toBytes_swap, length_encode]
  rfl

theorem length_shapeBytes (size : Size) :
    (Dimeb.shapeBytes computer size).length = 4 * size.dims.length + 1 := by
  rw [Dimeb.shapeBytes, List.length_cons,
    Strided.length_flatMap_const fun n _ => length_sizeBytes computer n]

theorem shapeBytes_eq (type : Scalar) {size : Size} (hrank : size.dims.length ≤ 255)
    (hdims : ∀ n ∈ size.dims, n < 2 ^ 32) (body : Bytes) :
    (Tag.mat type).code :: (Dimeb.shapeBytes computer size ++ body) =
      matHeader type size.dims ++ body := by
  have hsizes : size.dims.flatMap (Dimeb.sizeBytes computer) =
      (size.dims.map (BigEndian.encode 4)).flatten := by
    rw [List.flatMap_def]
    exact congrArg List.flatten (List.map_congr_left fun n hn => sizeBytes_eq computer (hdims n hn))
  rw [Dimeb.shapeBytes, uint8_of_le hrank, hsizes]
  rfl

/-- The parts of a complex number of a floating-point class are written as they are. -/
theorem partBytes_eq (hcls : cls = .single ∨ cls = .double) (x : cls.Word) :
    Dimeb.partBytes computer cls x = cls.encode x := by
  obtain rfl | rfl := hcls
  · exact toBytes_swap computer x
  · have hsame : (Fin.ofNat _ (NumClass.double.toDouble x) : NumClass.double.Word) = x :=
      Fin.ofNat_val_eq_self x
    have hbytes : Dimeb.partBytes computer .double x = toBytes computer (swap computer
        (Fin.ofNat _ (NumClass.double.toDouble x) : NumClass.double.Word)) := rfl
    rw [hbytes, hsame]
    exact toBytes_swap computer x

theorem flatMap_partBytes (hcls : cls = .single ∨ cls = .double) (re im : List cls.Word) :
    (re.zip im).flatMap (fun element =>
      Dimeb.partBytes computer cls element.1 ++ Dimeb.partBytes computer cls element.2) =
      (interleave re im).flatMap cls.encode := by
  rw [interleave, List.flatMap_assoc]
  simp only [partBytes_eq computer hcls, List.flatMap_cons, List.flatMap_nil, List.append_nil]

/-! ## Dispatch -/

theorem loadsPrefix_scalar (cls : NumClass) (s : Bytes) :
    Dimeb.loadsPrefix computer ((Tag.scalar cls.type).code :: s) =
      Dimeb.loadsReal computer ((Tag.scalar cls.type).code :: s) cls := by
  rw [Dimeb.loadsPrefix, Tag.ofCode_code]
  cases cls <;> rfl

theorem loadsPrefix_mat (cls : NumClass) (s : Bytes) :
    Dimeb.loadsPrefix computer ((Tag.mat cls.type).code :: s) =
      Dimeb.loadsMat computer ((Tag.mat cls.type).code :: s) cls := by
  rw [Dimeb.loadsPrefix, Tag.ofCode_code]
  cases cls <;> rfl

theorem loadsPrefix_complex (hcls : cls = .single ∨ cls = .double) (s : Bytes) :
    Dimeb.loadsPrefix computer ((Tag.scalar cls.complexType).code :: s) =
        Dimeb.loadsComplex computer ((Tag.scalar cls.complexType).code :: s) cls ∧
      Dimeb.loadsPrefix computer ((Tag.mat cls.complexType).code :: s) =
        Dimeb.loadsMatComplex computer ((Tag.mat cls.complexType).code :: s) cls := by
  rw [Dimeb.loadsPrefix, Dimeb.loadsPrefix, Tag.ofCode_code, Tag.ofCode_code]
  obtain rfl | rfl := hcls <;> exact ⟨rfl, rfl⟩

/-- The number of bytes that is reported for an array is an `uint8`. -/
theorem loadsMat_nread {s : Bytes} {obj : Value} {n : Nat}
    (h : Dimeb.loadsMat computer s cls = some (obj, n)) : n ≤ 255 := by
  obtain ⟨⟨shape, stop⟩, _, h⟩ := Option.bind_eq_some_iff.mp h
  obtain ⟨t, _, h⟩ := Option.bind_eq_some_iff.mp h
  obtain ⟨words, _, h⟩ := Option.bind_eq_some_iff.mp h
  obtain ⟨x, _, h⟩ := Option.bind_eq_some_iff.mp h
  cases h
  exact Nat.min_le_right _ _

theorem loadsMatComplex_nread {s : Bytes} {obj : Value} {n : Nat}
    (h : Dimeb.loadsMatComplex computer s cls = some (obj, n)) : n ≤ 255 := by
  obtain ⟨⟨shape, stop⟩, _, h⟩ := Option.bind_eq_some_iff.mp h
  obtain ⟨t, _, h⟩ := Option.bind_eq_some_iff.mp h
  obtain ⟨words, _, h⟩ := Option.bind_eq_some_iff.mp h
  obtain ⟨x, _, h⟩ := Option.bind_eq_some_iff.mp h
  cases h
  exact Nat.min_le_right _ _

/-- A short array has few dimensions, and small ones. -/
theorem Size.bounds_of_arrayLength {size : Size} (hne : size.numel ≠ 0) {itemsize : Nat}
    (hpos : 0 < itemsize) (h : arrayLength size.dims.length itemsize size.numel ≤ 255) :
    size.dims.length ≤ 255 ∧ ∀ n ∈ size.dims, n < 2 ^ 32 := by
  unfold arrayLength at h
  have hcount : size.numel ≤ size.numel * itemsize := Nat.le_mul_of_pos_right _ hpos
  refine ⟨by omega, fun n hn => ?_⟩
  have hle : n ≤ size.numel := Nat.le_of_dvd (Nat.pos_of_ne_zero hne) (List.dvd_prod hn)
  omega

/-! ## Arrays that come back -/

namespace Numeric

/-- The bit patterns of the real and the imaginary parts. -/
def elements (x : Numeric) : List (Nat × Nat) :=
  match x.im with
  | none => x.re.data.map fun re => (re.val, 0)
  | some im => (x.re.data.zip im).map fun element => (element.1.val, element.2.val)

/-- An array of the same size, class and elements. -/
def Same (x y : Numeric) : Prop := y.size = x.size ∧ y.cls = x.cls ∧ y.elements = x.elements

/-- What is written for an array is decoded as the same array, and as many bytes are
reported as have been written. -/
def Returns (x : Numeric) : Prop :=
  ∃ data y, dimebdumps computer (.numeric x) = some data ∧
    Dimeb.loadsPrefix computer data = some (.numeric y, data.length) ∧ x.Same y

/-- The number of bytes of an element. -/
def elementSize (x : Numeric) : Nat := if x.im = none then x.cls.itemsize else 2 * x.cls.itemsize

/-- An empty array is `[]`. What is no scalar is encoded in 255 bytes. -/
def Short (x : Numeric) : Prop :=
  if x.size.numel = 0 then x.cls = .double ∧ x.size = Size.matrix 0 0
  else x.size.dims = [1, 1] ∨ arrayLength x.size.dims.length x.elementSize x.size.numel ≤ 255

theorem Same.refl (x : Numeric) : x.Same x := ⟨rfl, rfl, rfl⟩

variable {computer} {x : Numeric}


/-! ### Empty arrays -/

theorem returns_empty_iff (h : x.size.numel = 0) :
    x.Returns computer ↔ x.cls = .double ∧ x.size = Size.matrix 0 0 := by
  have hdumps : dimebdumps computer (.numeric x) = some [Tag.null.code] := by
    rw [dimebdumps, Dimeb.dumps, Dimeb.dumpsNumeric, if_pos h]
  have hloads : Dimeb.loadsPrefix computer [Tag.null.code] =
      some (.numeric (.real (Grid.empty : Grid NumClass.double.Word)), 1) := by
    rw [Dimeb.loadsPrefix, Tag.ofCode_code]
  constructor
  · intro hreturns
    obtain ⟨data, y, hdata, hy, hsize, hcls, _⟩ := hreturns
    cases hdumps.symm.trans hdata
    cases hloads.symm.trans hy
    exact ⟨hcls.symm, hsize.symm⟩
  · intro hdouble
    refine ⟨_, _, hdumps, hloads, hdouble.2.symm, hdouble.1.symm, ?_⟩
    have hnil : x.re.data = [] := List.eq_nil_of_length_eq_zero (x.re.length_data.trans h)
    unfold elements
    cases x.im with
    | none => simp [hnil, Grid.empty, real]
    | some im => simp [hnil, Grid.empty, real]

end Numeric

/-! ### Real arrays -/

section

variable {computer} {re : Grid cls.Word}

theorem dimebdumps_real (hne : re.size.numel ≠ 0) :
    dimebdumps computer (.numeric (.real re)) =
      some (if re.size.dims = [1, 1] then (Tag.scalar cls.type).code :: re.data.flatMap cls.encode
        else (Tag.mat cls.type).code ::
          (Dimeb.shapeBytes computer re.size ++ re.data.flatMap cls.encode)) := by
  have hempty : ¬ (Numeric.real re).size.numel = 0 := hne
  rw [dimebdumps, Dimeb.dumps, Dimeb.dumpsNumeric, if_neg hempty]
  simp only [Numeric.real, toBytes_swap]
  rfl

theorem length_real (hne : re.size.numel ≠ 0) (hdims : re.size.dims ≠ [1, 1]) {data : Bytes}
    (h : dimebdumps computer (.numeric (.real re)) = some data) :
    data.length = arrayLength re.size.dims.length cls.itemsize re.size.numel := by
  rw [dimebdumps_real hne, if_neg hdims] at h
  cases h
  rw [List.length_cons, List.length_append, length_shapeBytes, length_flatMap_encode, re.length_data,
    arrayLength]
  ring

/-- The only element of a scalar. -/
theorem Grid.eq_scalar {α : Type} {x : Grid α} (h : x.size.dims = [1, 1]) : ∃ a, x = Grid.scalar a := by
  obtain ⟨⟨dims, two_le, trimmed⟩, data, length_data⟩ := x
  subst h
  obtain ⟨a, rfl⟩ := List.length_eq_one_iff.mp length_data
  exact ⟨a, rfl⟩

theorem returns_real_iff (hne : re.size.numel ≠ 0) :
    (Numeric.real re).Returns computer ↔ re.size.dims = [1, 1] ∨
      arrayLength re.size.dims.length cls.itemsize re.size.numel ≤ 255 := by
  have hdumps : dimebdumps computer (.numeric (.real re)) = _ := dimebdumps_real hne
  by_cases hdims : re.size.dims = [1, 1]
  · refine iff_of_true ?_ (.inl hdims)
    obtain ⟨a, rfl⟩ := Grid.eq_scalar hdims
    rw [if_pos hdims] at hdumps
    refine ⟨_, _, hdumps, ?_, Numeric.Same.refl _⟩
    have hdata : (Grid.scalar a).data.flatMap cls.encode = cls.encode a ++ [] := rfl
    rw [hdata, loadsPrefix_scalar, loadsReal_encode, List.append_nil, List.length_cons, length_encode]
  · rw [or_iff_right hdims]
    constructor
    · intro hreturns
      obtain ⟨data, y, hdata, hloads, _⟩ := hreturns
      rw [← length_real hne hdims hdata]
      rw [if_neg hdims] at hdumps
      cases hdumps.symm.trans hdata
      rw [loadsPrefix_mat] at hloads
      exact loadsMat_nread computer hloads
    · intro hfits
      have hbounds : re.size.dims.length ≤ 255 ∧ ∀ n ∈ re.size.dims, n < 2 ^ 32 :=
        Size.bounds_of_arrayLength hne (itemsize_pos cls) hfits
      obtain ⟨hrank, hsmall⟩ := hbounds
      refine ⟨_, .real re, hdumps, ?_, Numeric.Same.refl _⟩
      have hlength := length_real hne hdims hdumps
      rw [hlength, if_neg hdims, loadsPrefix_mat, shapeBytes_eq computer _ hrank hsmall]
      have hloads : Dimeb.loadsMat computer
          (matHeader cls.type re.size.dims ++ (re.data.flatMap cls.encode ++ [])) cls = _ :=
        loadsMat_fits computer hsmall re.data re.length_data (Nat.pos_of_ne_zero hne) hfits []
      have hunsqueeze : unsqueeze re.size.dims = re.size.dims := by
        have := re.size.two_le
        exact if_neg (by omega)
      rw [List.append_nil, hunsqueeze, Grid.reshape_dims] at hloads
      exact hloads

end

/-! ### Complex arrays -/

section

variable {computer} {x : Numeric} {im : List x.cls.Word}

theorem dimebdumps_complex (hcls : x.cls = .single ∨ x.cls = .double) (him : x.im = some im)
    (hne : x.size.numel ≠ 0) :
    dimebdumps computer (.numeric x) =
      some (if x.size.dims = [1, 1] then
          (Tag.scalar x.cls.complexType).code :: (interleave x.re.data im).flatMap x.cls.encode
        else (Tag.mat x.cls.complexType).code ::
          (Dimeb.shapeBytes computer x.size ++ (interleave x.re.data im).flatMap x.cls.encode)) := by
  rw [dimebdumps, Dimeb.dumps, Dimeb.dumpsNumeric, if_neg hne, him]
  simp only [flatMap_partBytes computer hcls]

theorem length_complex (hcls : x.cls = .single ∨ x.cls = .double) (him : x.im = some im)
    (hne : x.size.numel ≠ 0) (hdims : x.size.dims ≠ [1, 1]) {data : Bytes}
    (h : dimebdumps computer (.numeric x) = some data) :
    data.length = arrayLength x.size.dims.length (2 * x.cls.itemsize) x.size.numel := by
  have hcount : x.re.data.length = x.size.numel := x.re.length_data
  rw [dimebdumps_complex hcls him hne, if_neg hdims] at h
  cases h
  rw [List.length_cons, List.length_append, length_shapeBytes, length_flatMap_encode,
    length_interleave (x.length_im im him), hcount, arrayLength]
  ring

/-- An array is put together from its parts. -/
theorem complex_dims {re : Grid cls.Word} {im' : Option (List cls.Word)} {im : List cls.Word}
    (length_im : ∀ im, im' = some im → im.length = re.data.length) (him : im' = some im) :
    Dimeb.complex re.data im re.size.dims = some (.numeric ⟨cls, re, im', length_im⟩) := by
  have hlength := length_im im him
  subst him
  unfold Dimeb.complex
  rw [Grid.reshape_dims, Option.bind_eq_bind, Option.bind_some, dif_pos hlength]

theorem returns_complex_iff (hcls : x.cls = .single ∨ x.cls = .double) (him : x.im = some im)
    (hne : x.size.numel ≠ 0) :
    x.Returns computer ↔ x.size.dims = [1, 1] ∨
      arrayLength x.size.dims.length (2 * x.cls.itemsize) x.size.numel ≤ 255 := by
  have hdumps : dimebdumps computer (.numeric x) = _ := dimebdumps_complex hcls him hne
  have hcount : x.re.data.length = x.size.numel := x.re.length_data
  have hlengthIm := x.length_im im him
  by_cases hdims : x.size.dims = [1, 1]
  · refine iff_of_true ?_ (.inl hdims)
    rw [if_pos hdims] at hdumps
    have hone : x.size.numel = 1 := by rw [Size.numel, hdims]; rfl
    obtain ⟨re, hre⟩ := List.length_eq_one_iff.mp (hcount.trans hone)
    obtain ⟨im', rfl⟩ := List.length_eq_one_iff.mp (hlengthIm.trans (hcount.trans hone))
    have hdata : (interleave x.re.data [im']).flatMap x.cls.encode =
        x.cls.encode re ++ (x.cls.encode im' ++ []) := by
      rw [hre]
      simp [interleave]
    refine ⟨_, .complexScalar re im', hdumps, ?_, ?_⟩
    · rw [hdata, (loadsPrefix_complex computer hcls _).1, loadsComplex_encode, List.length_cons,
        List.length_append, List.append_nil, length_encode, length_encode, Nat.two_mul]
    · have hsize : x.size = Size.row 1 := by
        cases hx : x.size
        rw [hx] at hdims
        subst hdims
        rfl
      refine ⟨hsize.symm, rfl, ?_⟩
      unfold Numeric.elements
      rw [him, hre]
      rfl
  · rw [or_iff_right hdims]
    constructor
    · intro hreturns
      obtain ⟨data, y, hdata, hloads, _⟩ := hreturns
      rw [← length_complex hcls him hne hdims hdata]
      rw [if_neg hdims] at hdumps
      cases hdumps.symm.trans hdata
      rw [(loadsPrefix_complex computer hcls _).2] at hloads
      exact loadsMatComplex_nread computer hloads
    · intro hfits
      obtain ⟨hrank, hsmall⟩ := Size.bounds_of_arrayLength hne
        (Nat.mul_pos Nat.two_pos (itemsize_pos x.cls)) hfits
      refine ⟨_, x, hdumps, ?_, Numeric.Same.refl _⟩
      have hlength := length_complex hcls him hne hdims hdumps
      rw [hlength, if_neg hdims, (loadsPrefix_complex computer hcls _).2,
        shapeBytes_eq computer _ hrank hsmall]
      have hloads : Dimeb.loadsMatComplex computer (matHeader x.cls.complexType x.size.dims ++
          ((interleave x.re.data im).flatMap x.cls.encode ++ [])) x.cls = _ :=
        loadsMatComplex_fits computer hsmall hcount hlengthIm (Nat.pos_of_ne_zero hne) hfits []
      have hcomplex : Dimeb.complex x.re.data im x.size.dims = some (.numeric x) :=
        complex_dims x.length_im him
      rw [List.append_nil, hcomplex] at hloads
      exact hloads

end

/-- A numeric array that is real, or complex of a floating-point class, is read back with
its size, its class and its elements, and its encoding to the end, if it is a scalar, `[]`
or encoded in at most 255 bytes. -/
theorem array_returns_iff (computer : Endian) {x : Numeric}
    (hcls : x.im ≠ none → x.cls = .single ∨ x.cls = .double) : x.Returns computer ↔ x.Short := by
  unfold Numeric.Short Numeric.elementSize
  by_cases hempty : x.size.numel = 0
  · rw [if_pos hempty]
    exact Numeric.returns_empty_iff hempty
  · rw [if_neg hempty]
    cases him : x.im with
    | none =>
        obtain ⟨cls, re, im, length_im⟩ := x
        obtain rfl : im = none := him
        exact returns_real_iff hempty
    | some im =>
        rw [if_neg (Option.some_ne_none im)]
        exact returns_complex_iff (hcls (him ▸ Option.some_ne_none im)) him hempty

/-- A row of bytes. -/
def byteRow (n : Nat) : Numeric :=
  .real (Grid.row (List.replicate n (7 : NumClass.uint8.Word)) : Grid NumClass.uint8.Word)

theorem array_returns_row : (byteRow 3).Returns .little :=
  (array_returns_iff .little fun him => absurd rfl him).mpr (by unfold Numeric.Short; decide)

/-- A row of 246 bytes does not come back. -/
theorem not_returns_row : (byteRow 246).size.numel ≠ 0 ∧ (byteRow 246).size.dims ≠ [1, 1] ∧
    (byteRow 246).im = none ∧ ∀ computer, ¬ (byteRow 246).Returns computer := by
  have hsize : (byteRow 246).size = Size.row 246 := by
    change Size.row (List.replicate 246 (7 : NumClass.uint8.Word)).length = _
    rw [List.length_replicate]
  have hne : (byteRow 246).size.numel ≠ 0 := by
    rw [hsize, Size.numel_row]
    decide
  refine ⟨hne, by rw [hsize]; decide, rfl, fun computer hreturns => ?_⟩
  have hshort := (returns_real_iff hne).mp hreturns
  have hre : (byteRow 246).re.size = Size.row 246 := hsize
  rw [hre, Size.numel_row] at hshort
  revert hshort
  decide

end Dime.Matlab
