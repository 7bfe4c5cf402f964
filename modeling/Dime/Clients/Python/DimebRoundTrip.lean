import Dime.Clients.Python.Dimeb

/-!
# Round trip of Python dimeb

What `dumps` writes, `_loads` reads back from the front of any longer string,
and it reports the number of bytes that were written.
-/

namespace Dime.Python

open Strided Dimeb

/-! ## Numbers -/

theorem packI_of_lt {n : Nat} (h : n < 2 ^ 32) : packI n = some (BigEndian.encode 4 n) := if_pos h

theorem packI_eq_some {n : Nat} {s : Bytes} (h : packI n = some s) :
    s = BigEndian.encode 4 n ∧ n < 2 ^ 32 := by
  unfold packI at h
  split at h
  · next hn => exact ⟨(Option.some.inj h).symm, hn⟩
  · cases h

theorem unpackUnsigned_encode {k n : Nat} (h : n < 256 ^ k) :
    unpackUnsigned k (BigEndian.encode k n) = some n := by
  rw [unpackUnsigned, if_pos (BigEndian.length_encode k n), BigEndian.decode_encode_of_lt h]

theorem unpackd_packd (bits : UInt64) : unpackd (packd bits) = some bits := by
  have hbits : bits.toNat < 256 ^ 8 := lt_of_lt_of_eq bits.toNat_lt (by decide)
  rw [unpackd, packd, unpackUnsigned_encode hbits, Option.map_some, UInt64.ofNat_toNat]

@[simp] theorem length_packd (bits : UInt64) : (packd bits).length = 8 :=
  BigEndian.length_encode 8 _

theorem unpackSigned_packq {n : Int} {s : Bytes} (h : packq n = some s) :
    unpackSigned 8 s = some n := by
  unfold packq at h
  split at h
  · next hn =>
      have hlow : 0 ≤ n % 2 ^ 64 := Int.emod_nonneg n (by decide)
      have hlt : (n % 2 ^ 64).toNat < 256 ^ 8 := by
        have : n % 2 ^ 64 < 2 ^ 64 := Int.emod_lt_of_pos n (by decide)
        omega
      cases h
      rw [unpackSigned, unpackUnsigned_encode hlt, Option.map_some, Int.toNat_of_nonneg hlow]
      -- two's complement
      have hmod : (n % 2 ^ 64).bmod (2 ^ (8 * 8)) = n.bmod (2 ^ (8 * 8)) := Int.emod_bmod n (2 ^ 64)
      rw [hmod, Int.bmod_eq_of_le (by omega) (by omega)]
  · cases h

theorem length_packq {n : Int} {s : Bytes} (h : packq n = some s) : s.length = 8 := by
  unfold packq at h
  split at h
  · cases h
    exact BigEndian.length_encode 8 _
  · cases h

/-! ## Slices -/

theorem slice_append (front : Bytes) {s : Bytes} {i j : Nat} (rest : Bytes)
    (hi : front.length = i) (hj : s.length = j - i) : slice (front ++ (s ++ rest)) i j = s := by
  rw [slice, List.drop_left' hi, List.take_left' hj]

theorem slice_cons {tag : UInt8} {s : Bytes} {j : Nat} (rest : Bytes) (hj : s.length = j - 1) :
    slice (tag :: (s ++ rest)) 1 j = s := slice_append [tag] rest rfl hj

theorem char?_codePoint (c : Char) : char? (codePoint c) = some c := by
  have hvalid : c.toNat.isValidChar := c.valid
  rw [char?]
  exact dif_pos hvalid

/-- The size in the header of a string, a list or a dict. -/
theorem unpack_siz (tag : UInt8) {n : Nat} (hn : n < 2 ^ 32) (body : Bytes) :
    unpackUnsigned 4 (slice (tag :: (BigEndian.encode 4 n ++ body)) 1 5) = some n ∧
    (tag :: (BigEndian.encode 4 n ++ body)).drop 5 = body := by
  constructor
  · rw [slice_cons body (BigEndian.length_encode 4 n)]
    exact unpackUnsigned_encode (lt_of_lt_of_eq hn (by decide))
  · exact List.drop_left' (BigEndian.length_encode 4 n)

/-! ## Strings -/

theorem codePoint_of_char? {c : CodePoint} {ch : Char} (h : char? c = some ch) :
    codePoint ch = c := by
  unfold char? at h
  by_cases hc : c.val.isValidChar
  · rw [dif_pos hc] at h
    cases h
    apply Fin.ext
    rfl
  · rw [dif_neg hc] at h
    cases h

theorem mapM_eq_some_iff {α β : Type} {f : α → Option β} {l : List α} {l' : List β} :
    l.mapM f = some l' ↔ List.Forall₂ (fun a b => f a = some b) l l' := by
  induction l generalizing l' with
  | nil => simp [eq_comm]
  | cons a l ih =>
      rw [List.mapM_cons]
      constructor
      · intro h
        cases ha : f a with
        | none => simp [ha] at h
        | some b =>
            cases hl : l.mapM f with
            | none => simp [ha, hl] at h
            | some l'' =>
                simp only [ha, hl, Option.bind_eq_bind, Option.bind_some, Option.pure_def,
                  Option.some.injEq] at h
                exact h ▸ .cons ha (ih.mp hl)
      · intro h
        cases h with
        | cons ha hl => simp [ha, ih.mpr hl]

theorem utf8Encode_codePoint (chars : List Char) :
    utf8Encode (chars.map codePoint) = some (chars.flatMap String.utf8EncodeChar) := by
  have hchars : (chars.map codePoint).mapM char? = some chars := by
    rw [mapM_eq_some_iff, List.forall₂_map_left_iff, List.forall₂_same]
    exact fun c _ => char?_codePoint c
  rw [utf8Encode, hchars, Option.map_some]

theorem utf8Decode_utf8Encode {x : List CodePoint} {s : Bytes} (h : utf8Encode x = some s) :
    utf8Decode s = some x := by
  unfold utf8Encode at h
  obtain ⟨chars, hchars, rfl⟩ := Option.map_eq_some_iff.mp h
  have hdecode : (chars.flatMap String.utf8EncodeChar).toByteArray.utf8Decode? =
      some chars.toArray := List.utf8Decode?_utf8Encode
  rw [utf8Decode, hdecode, Option.map_some]
  have hforall := mapM_eq_some_iff.mp hchars
  clear hchars hdecode h
  induction hforall with
  | nil => rfl
  | cons hc _ ih =>
      have hrest := Option.some.inj ih
      simp only [List.map_cons, codePoint_of_char? hc]
      exact congrArg (fun rest => some (_ :: rest)) hrest

/-! ## Arrays -/

theorem unpackIs_encode {shape : List Nat} (hshape : ∀ n ∈ shape, n < 2 ^ 32) :
    unpackIs shape.length (shape.map (BigEndian.encode 4)).flatten = some shape := by
  induction shape with
  | nil => rfl
  | cons n shape ih =>
      have hn : n < 256 ^ 4 := lt_of_lt_of_eq (hshape n List.mem_cons_self) (by decide)
      have hrest := ih fun m hm => hshape m (List.mem_cons_of_mem n hm)
      have hlen : (BigEndian.encode 4 n).length = 4 := BigEndian.length_encode 4 n
      rw [List.length_cons, List.map_cons, List.flatten_cons, unpackIs, List.take_left' hlen,
        List.drop_left' hlen, unpackUnsigned_encode hn, hrest]
      rfl

theorem mapM_packI {shape : List Nat} (hshape : ∀ n ∈ shape, n < 2 ^ 32) :
    shape.mapM packI = some (shape.map (BigEndian.encode 4)) := by
  rw [mapM_eq_some_iff, List.forall₂_map_right_iff, List.forall₂_same]
  exact fun n hn => packI_of_lt (hshape n hn)

/-- What stands before the items of an array. -/
def matHeader (type : Scalar) (shape : List Nat) : Bytes :=
  [(Tag.mat type).code, UInt8.ofNat shape.length] ++ (shape.map (BigEndian.encode 4)).flatten

theorem length_shapedata (shape : List Nat) :
    (shape.map (BigEndian.encode 4)).flatten.length = 4 * shape.length := by
  rw [← List.flatMap_def]
  exact length_flatMap_const fun n _ => BigEndian.length_encode 4 n

@[simp] theorem length_matHeader (type : Scalar) (shape : List Nat) :
    (matHeader type shape).length = 4 * shape.length + 2 := by
  rw [matHeader, List.length_append, length_shapedata, Nat.add_comm]
  rfl

/-- The rank and the shape in the header. -/
theorem read_matHeader (type : Scalar) {shape : List Nat} (hdim : shape.length ≤ maxdims)
    (hshape : ∀ n ∈ shape, n < 2 ^ 32) (body : Bytes) :
    ∃ rank, (matHeader type shape ++ body)[1]? = some rank ∧ rank.toNat = shape.length ∧
      unpackIs shape.length (slice (matHeader type shape ++ body) 2 (4 * shape.length + 2)) =
        some shape := by
  have hsmall : shape.length < 2 ^ 8 := lt_of_le_of_lt hdim (by decide)
  have hslice : slice (matHeader type shape ++ body) 2 (4 * shape.length + 2) =
      (shape.map (BigEndian.encode 4)).flatten := by
    rw [matHeader, List.append_assoc]
    exact slice_append _ body rfl (length_shapedata shape)
  refine ⟨UInt8.ofNat shape.length, rfl, ?_, ?_⟩
  · rw [UInt8.toNat_ofNat', Nat.mod_eq_of_lt hsmall]
  · rw [hslice]
    exact unpackIs_encode hshape

theorem prod_squeezeShape (shape : List Nat) : (squeezeShape shape).prod = shape.prod := by
  unfold squeezeShape
  split <;> simp

theorem length_squeezeShape_le (shape : List Nat) :
    (squeezeShape shape).length ≤ shape.length := by
  unfold squeezeShape
  split <;> simp

namespace Ndarray

theorem squeezed_fst (x : Ndarray) : x.squeezed.1 = squeezeShape x.shape := by
  unfold squeezed squeezeShape
  generalize x.shape = shape
  -- the two definitions match on the same shapes
  repeat' split
  all_goals simp_all

/-- Without the axis of length one the elements keep their places. -/
theorem ravel_squeezed (x : Ndarray) {idx : List Nat} (h : InShape (squeezeShape x.shape) idx) :
    InShape x.shape (x.squeezed.2 idx) ∧
      ravel x.shape (x.squeezed.2 idx) = ravel (squeezeShape x.shape) idx := by
  unfold squeezed
  split
  · next n hshape =>
      rw [hshape] at h ⊢
      exact ⟨.cons Nat.one_pos h, by simp [squeezeShape]⟩
  · next m _ hshape =>
      have hsqueeze : squeezeShape [m, 1] = [m] := by
        unfold squeezeShape
        split <;> simp_all
      rw [hshape, hsqueeze] at h ⊢
      cases h with
      | cons hi hnil =>
          cases hnil
          exact ⟨.cons hi (.cons Nat.one_pos .nil), by simp [ravel]⟩
  · next _ hrow hcolumn =>
      have hsqueeze : squeezeShape x.shape = x.shape := by
        unfold squeezeShape
        split
        · next n hshape => exact absurd hshape (hrow n)
        · next m _ hshape => exact absurd hshape (hcolumn m)
        · rfl
      rw [hsqueeze] at h ⊢
      exact ⟨h, rfl⟩

theorem length_element (host : Endian) (x : Ndarray) {idx : List Nat} (h : InShape x.shape idx) :
    (x.element host idx).length = x.dtype.itemsize := by
  unfold element
  split
  · exact x.length_item h
  · rw [Dtype.length_swapped, x.length_item h]

/-- The elements in column-major order. -/
def elements (host : Endian) (x : Ndarray) : Bytes :=
  (columnMajor x.shape).flatMap (x.element host)

theorem length_elements (host : Endian) (x : Ndarray) :
    (x.elements host).length = x.dtype.itemsize * x.shape.prod := by
  rw [elements, length_flatMap_const, length_columnMajor]
  exact fun idx hidx => x.length_element host (mem_columnMajor.mp hidx)

theorem element_elements (host : Endian) (x : Ndarray) {idx : List Nat} (h : InShape x.shape idx) :
    ((x.elements host).drop (x.dtype.itemsize * ravel x.shape idx)).take x.dtype.itemsize =
      x.element host idx :=
  block_flatMap (fun _ hidx => x.length_element host (mem_columnMajor.mp hidx))
    (columnMajor_ravel h)

theorem flatMap_congr {α β : Type} {f g : α → List β} {l : List α} (h : ∀ a ∈ l, f a = g a) :
    l.flatMap f = l.flatMap g := by
  rw [List.flatMap_def, List.flatMap_def, List.map_congr_left h]

end Ndarray

/-- An array is written with its elements most significant byte first. -/
theorem dumpsNdarray_eq (host : Endian) {x : Ndarray} {type : Scalar}
    (htype : Scalar.ofDtype x.dtype = some type) (hshape : ∀ n ∈ x.shape, n < 2 ^ 32) :
    dumpsNdarray host x = some (matHeader type x.shape ++ x.elements host) := by
  have hrank : packB x.shape.length = some (BigEndian.encode 1 x.shape.length) :=
    if_pos (lt_of_le_of_lt x.ndim_le (by decide))
  unfold dumpsNdarray
  by_cases hbig : x.dtype.byteorder = .big ∨ (x.dtype.byteorder = .native ∧ host = .big)
  · have hdtype : x.dtype.isBig host = true := by simpa [Dtype.isBig] using hbig
    have hbytes : x.tobytes = x.elements host := by
      apply Ndarray.flatMap_congr
      intro idx _
      rw [Ndarray.element, if_pos hdtype]
    rw [if_pos hbig]
    simp [htype, hrank, mapM_packI hshape, hbytes, matHeader, BigEndian.encode]
  · have hdtype : x.dtype.isBig host = false := by
      rw [← Bool.not_eq_true]
      simpa [Dtype.isBig] using hbig
    have hbytes : x.byteswap.tobytes = x.elements host := by
      apply Ndarray.flatMap_congr
      intro idx hidx
      rw [x.item_byteswap (mem_columnMajor.mp hidx), Ndarray.element, hdtype, if_neg (by decide)]
    rw [if_neg hbig]
    simp [htype, hrank, mapM_packI hshape, hbytes, matHeader, BigEndian.encode]

theorem lt_of_mapM_packI {shape : List Nat} {shapedata : List Bytes}
    (h : shape.mapM packI = some shapedata) : ∀ n ∈ shape, n < 2 ^ 32 := by
  have hall := mapM_eq_some_iff.mp h
  clear h
  induction hall with
  | nil => exact fun n hn => absurd hn List.not_mem_nil
  | cons hpack _ ih =>
      rw [List.forall_mem_cons]
      exact ⟨(packI_eq_some hpack).2, ih⟩

/-- What is written for an array tells its type, and its sizes have 32 bits. -/
theorem dumpsNdarray_eq_some {host : Endian} {x : Ndarray} {data : Bytes}
    (h : dumpsNdarray host x = some data) :
    ∃ type, Scalar.ofDtype x.dtype = some type ∧ (∀ n ∈ x.shape, n < 2 ^ 32) ∧
      data = matHeader type x.shape ++ x.elements host := by
  have hwritten := h
  unfold dumpsNdarray at h
  obtain ⟨type, htype, h⟩ := Option.bind_eq_some_iff.mp h
  obtain ⟨_, _, h⟩ := Option.bind_eq_some_iff.mp h
  obtain ⟨shapedata, hdata, _⟩ := Option.bind_eq_some_iff.mp h
  have hpacked : x.shape.mapM packI = some shapedata := by
    rw [← hdata]
    split <;> rfl
  have htype' : Scalar.ofDtype x.dtype = some type := by
    rw [← htype]
    split <;> rfl
  have hdims := lt_of_mapM_packI hpacked
  rw [dumpsNdarray_eq host htype' hdims] at hwritten
  exact ⟨type, htype', hdims, (Option.some.inj hwritten).symm⟩

theorem dims_of_dumps {host : Endian} {x : Ndarray} {data : Bytes}
    (h : dumps host (.ndarray x) = some data) : ∀ n ∈ x.shape, n < 2 ^ 32 := by
  rw [dumps] at h
  obtain ⟨_, _, hdims, _⟩ := dumpsNdarray_eq_some h
  exact hdims

/-- Items read most significant byte first are the elements of the array. -/
theorem element_read (host : Endian) (type : Scalar) (arr : Ndarray) (harr : arr.dtype = type.dtype)
    {idx : List Nat} (h : InShape arr.shape idx) :
    (if host = .big then arr else arr.byteswap).element host idx = arr.item idx := by
  have hlen : (arr.item idx).length = type.dtype.itemsize := harr ▸ arr.length_item h
  have hhalved : arr.dtype.Halved := by
    rw [harr]
    cases type <;> decide
  cases host with
  | little =>
      have hnot : arr.dtype.isBig .little = false := by
        rw [harr]
        cases type <;> rfl
      rw [if_neg (by decide), Ndarray.element, Ndarray.dtype_byteswap, hnot, if_neg (by decide),
        arr.item_byteswap h, Dtype.swapped_swapped hhalved (harr ▸ hlen)]
  | big =>
      rw [if_pos rfl, Ndarray.element, harr]
      split
      · rfl
      · next hnot =>
          -- only items of one byte have no byte order
          have hone : type.dtype.itemsize = 1 ∧ type.dtype.kind ≠ .c := by
            revert hnot
            cases type <;> decide
          obtain ⟨byte, hbyte⟩ := List.length_eq_one_iff.mp (hlen.trans hone.1)
          rw [hbyte, Dtype.swapped]
          split
          · next hc => exact absurd hc hone.2
          · rfl

theorem frombuffer_eq {s : Bytes} {dtype : Dtype} {offset : Nat} {shape : List Nat}
    (hbuf : offset + dtype.itemsize * shape.prod ≤ s.length) (hdim : shape.length ≤ maxdims)
    (hsize : shape.prod * dtype.itemsize < 2 ^ 63) :
    Ndarray.frombuffer s dtype shape.prod offset shape =
      some (.fortran dtype shape s offset hbuf hdim hsize) := by
  have hoffset : offset ≤ s.length := le_trans (Nat.le_add_right _ _) hbuf
  have hcount : ¬ (shape.prod : Int) < 0 := Int.not_lt.mpr (Int.natCast_nonneg _)
  have hthere : dtype.itemsize * (shape.prod : Int).toNat ≤ s.length - offset := by
    rw [Int.toNat_natCast]
    omega
  unfold Ndarray.frombuffer
  simp only [hoffset, hcount, hthere, guard_true, Option.pure_def, Option.bind_eq_bind,
    Option.bind_some, if_false, if_true]
  exact dif_pos ⟨Int.toNat_natCast _, hbuf, hdim, hsize⟩

/-- Reading the header of an array and the bytes after it. -/
theorem loadsMat_matHeader (host : Endian) (type : Scalar) {shape : List Nat} (hrank : shape ≠ [])
    (hdim : shape.length ≤ maxdims) (hshape : ∀ n ∈ shape, n < 2 ^ 32)
    (hsize : shape.prod * type.itemsize < 2 ^ 63) {body : Bytes}
    (hbody : type.itemsize * shape.prod ≤ body.length) :
    ∃ arr : Ndarray,
      loadsMat host (matHeader type shape ++ body) type.dtype =
        some (.ndarray (if host = .big then arr else arr.byteswap),
          4 * shape.length + 2 + type.itemsize * shape.prod) ∧
      arr.dtype = type.dtype ∧ arr.shape = squeezeShape shape ∧
      ∀ idx, InShape arr.shape idx → arr.item idx =
        (body.drop (type.itemsize * ravel arr.shape idx)).take type.itemsize := by
  obtain ⟨rank, hget, hrank', hunpack⟩ := read_matHeader type hdim hshape body
  have hpos : 1 ≤ type.itemsize := by cases type <;> decide
  have hprod : (squeezeShape shape).prod = shape.prod := prod_squeezeShape shape
  have hcount : (shape.prod : Int).bmod (2 ^ 64) = ((squeezeShape shape).prod : Nat) := by
    have hlt : shape.prod < 2 ^ 63 :=
      lt_of_le_of_lt (Nat.le_mul_of_pos_right _ hpos) hsize
    rw [hprod]
    exact Int.bmod_eq_of_le (by omega) (by omega)
  have hbuf : 4 * shape.length + 2 + type.dtype.itemsize * (squeezeShape shape).prod ≤
      (matHeader type shape ++ body).length := by
    rw [List.length_append, length_matHeader, hprod]
    exact Nat.add_le_add_left hbody _
  have hdim' : (squeezeShape shape).length ≤ maxdims := le_trans (length_squeezeShape_le shape) hdim
  have hsize' : (squeezeShape shape).prod * type.dtype.itemsize < 2 ^ 63 := hprod.symm ▸ hsize
  refine ⟨.fortran type.dtype _ _ _ hbuf hdim' hsize', ?_, rfl, rfl, ?_⟩
  · have htotal : ((((squeezeShape shape).prod : Nat) : Int) * type.dtype.itemsize +
        (4 * shape.length + 2 : Nat)).toNat =
        4 * shape.length + 2 + type.itemsize * shape.prod := by
      rw [hprod, Nat.mul_comm type.itemsize, Nat.add_comm (4 * shape.length + 2)]
      exact Int.toNat_natCast _
    simp only [loadsMat, hget, hrank', hunpack, hcount, frombuffer_eq hbuf hdim' hsize', htotal,
      Option.bind_eq_bind, Option.bind_some, hrank, guard_true, ne_eq, not_false_eq_true,
      Option.pure_def]
  · intro idx hidx
    rw [Ndarray.shape_fortran] at hidx ⊢
    rw [Ndarray.item_fortran hidx, ← List.drop_drop,
      List.drop_left' (length_matHeader type shape)]
    rfl

/-- An array comes back with its elements. -/
theorem loadsMat_dumpsNdarray (host : Endian) {x : Ndarray} {type : Scalar}
    (htype : Scalar.ofDtype x.dtype = some type) (hrank : x.shape ≠ [])
    (hshape : ∀ n ∈ x.shape, n < 2 ^ 32) (rest : Bytes) :
    ∃ y, loadsMat host (matHeader type x.shape ++ (x.elements host ++ rest)) type.dtype =
        some (.ndarray y, (matHeader type x.shape ++ x.elements host).length) ∧
      x.Same host y := by
  obtain ⟨hkind, hitemsize⟩ := Scalar.ofDtype_eq_some htype
  have hlen : (x.elements host).length = type.itemsize * x.shape.prod :=
    hitemsize ▸ x.length_elements host
  have hbody : type.itemsize * x.shape.prod ≤ (x.elements host ++ rest).length := by
    rw [List.length_append, hlen]
    exact Nat.le_add_right _ _
  obtain ⟨arr, hloads, hdtype, harr, hitem⟩ := loadsMat_matHeader host type hrank x.ndim_le hshape
    (hitemsize ▸ x.nbytes_lt) hbody
  refine ⟨if host = .big then arr else arr.byteswap, ?_, ?_⟩
  · rw [hloads, List.length_append, length_matHeader, hlen]
  · have hsame : ∀ y, y = arr ∨ y = arr.byteswap → y.dtype = type.dtype ∧
        y.shape = squeezeShape x.shape := by
      rintro y (rfl | rfl) <;> exact ⟨hdtype, harr⟩
    obtain ⟨hydtype, hyshape⟩ := hsame _ (ite_eq_or_eq (host = .big) arr arr.byteswap)
    refine ⟨?_, ?_, ?_, ?_⟩
    · rw [hydtype, hkind]
      rfl
    · rw [hydtype, hitemsize]
      rfl
    · rw [hyshape, x.squeezed_fst]
    · intro idx hidx
      rw [hyshape] at hidx
      obtain ⟨hin, hravel⟩ := x.ravel_squeezed hidx
      have hlast : type.itemsize * ravel x.shape (x.squeezed.2 idx) + type.itemsize ≤
          (x.elements host).length := by
        rw [hlen, ← Nat.mul_succ]
        exact Nat.mul_le_mul_left _ (ravel_lt hin)
      rw [element_read host type arr hdtype (harr ▸ hidx), hitem idx (harr ▸ hidx), harr, ← hravel,
        List.drop_append_of_le_length (le_trans (Nat.le_add_right _ _) hlast),
        List.take_append_of_le_length (by rw [List.length_drop]; omega), ← hitemsize]
      exact x.element_elements host hin

/-! ## Values -/

namespace Value

/-- `y` is what `x` comes back as: the same value, up to the layout, the byte
order and the axes of length one of the arrays in it. -/
inductive Same (host : Endian) : Value → Value → Prop where
  | none : Same host none none
  | bool (b : Bool) : Same host (bool b) (bool b)
  | int (n : Int) : Same host (int n) (int n)
  | float (bits : UInt64) : Same host (float bits) (float bits)
  | complex (real imag : UInt64) : Same host (complex real imag) (complex real imag)
  | str (chars : List CodePoint) : Same host (str chars) (str chars)
  | list {xs ys : List Value} (elements : List.Forall₂ (Same host) xs ys) :
      Same host (list xs) (list ys)
  | dict {items items' : List (Value × Value)}
      (keys : items'.map Prod.fst = items.map Prod.fst)
      (values : List.Forall₂ (Same host) (items.map Prod.snd) (items'.map Prod.snd)) :
      Same host (dict items) (dict items')
  | ndarray {x y : Ndarray} (elements : x.Same host y) : Same host (ndarray x) (ndarray y)

/-- The values that dimeb has types for. -/
inductive Typed : Value → Prop where
  | none : Typed none
  | bool (b : Bool) : Typed (bool b)
  | int {n : Int} (range : -2 ^ 63 ≤ n ∧ n < 2 ^ 63) : Typed (int n)
  | float (bits : UInt64) : Typed (float bits)
  | complex (real imag : UInt64) : Typed (complex real imag)
  | str (chars : List CodePoint) : Typed (str chars)
  | list {xs : List Value} (elements : ∀ x ∈ xs, Typed x) : Typed (list xs)
  | dict {items : List (Value × Value)} (keys : ∀ item ∈ items, ∃ chars, item.1 = str chars)
      (distinct : (items.map Prod.fst).Nodup) (values : ∀ item ∈ items, Typed item.2) :
      Typed (dict items)
  | ndarray {x : Ndarray} (dtype : Scalar.ofDtype x.dtype ≠ Option.none) (rank : 1 ≤ x.shape.length)
      (dims : ∀ n ∈ x.shape, n < 2 ^ 32) : Typed (ndarray x)

/-- A string that has an encoding of less than 4 GiB. -/
def StrFits (chars : List CodePoint) : Prop := ∃ s, utf8Encode chars = some s ∧ s.length < 2 ^ 32

/-- The sizes in a value can be written with 32 bits, and its strings have an
encoding. -/
inductive Fits : Value → Prop where
  | none : Fits none
  | bool (b : Bool) : Fits (bool b)
  | int (n : Int) : Fits (int n)
  | float (bits : UInt64) : Fits (float bits)
  | complex (real imag : UInt64) : Fits (complex real imag)
  | str {chars : List CodePoint} (chars_fit : StrFits chars) : Fits (str chars)
  | list {xs : List Value} (size : xs.length < 2 ^ 32) (elements : ∀ x ∈ xs, Fits x) :
      Fits (list xs)
  | dict {items : List (Value × Value)} (size : items.length < 2 ^ 32)
      (keys : ∀ item ∈ items, Fits item.1) (values : ∀ item ∈ items, Fits item.2) :
      Fits (dict items)
  | ndarray (x : Ndarray) : Fits (ndarray x)

/-- What is written for `x` comes back from the front of any bytes. -/
def Returns (host : Endian) (x : Value) : Prop :=
  ∀ data, dumps host x = some data → ∀ rest, ∃ y,
    loadsPrefix host (data ++ rest) = some (y, data.length) ∧ x.Same host y

theorem returns_int (host : Endian) (n : Int) : (int n).Returns host := by
  intro data hdata rest
  rw [dumps] at hdata
  obtain ⟨s, hs, hdata⟩ := Option.bind_eq_some_iff.mp hdata
  cases hdata
  have hlen : s.length = 8 := length_packq hs
  have hslice : slice ((Tag.scalar .i64).code :: (s ++ rest)) 1 9 = s := slice_cons rest hlen
  refine ⟨int n, ?_, .int n⟩
  rw [List.cons_append, loadsPrefix, Tag.ofCode_code]
  simp only [loadsScalar, hslice, unpackSigned_packq hs, Option.map_some, List.length_cons, hlen]

theorem returns_float (host : Endian) (bits : UInt64) : (float bits).Returns host := by
  intro data hdata rest
  rw [dumps] at hdata
  cases hdata
  have hslice : slice ((Tag.scalar .double).code :: (packd bits ++ rest)) 1 9 = packd bits :=
    slice_cons rest (length_packd bits)
  refine ⟨float bits, ?_, .float bits⟩
  rw [List.cons_append, loadsPrefix, Tag.ofCode_code]
  simp only [loadsScalar, hslice, unpackd_packd, Option.map_some, List.length_cons, length_packd]

theorem returns_complex (host : Endian) (real imag : UInt64) :
    (complex real imag).Returns host := by
  intro data hdata rest
  rw [dumps] at hdata
  cases hdata
  generalize htag : (Tag.scalar .complexDouble).code = tag
  have hreal : slice (tag :: (packd real ++ packd imag ++ rest)) 1 9 = packd real := by
    rw [List.append_assoc]
    exact slice_cons _ (length_packd real)
  have himag : slice (tag :: (packd real ++ packd imag ++ rest)) 9 17 = packd imag := by
    rw [List.append_assoc]
    exact slice_append (tag :: packd real) rest (by simp) (length_packd imag)
  refine ⟨complex real imag, ?_, .complex real imag⟩
  rw [List.cons_append, loadsPrefix, ← htag, Tag.ofCode_code, htag]
  simp only [loadsScalar, hreal, himag, unpackd_packd, Option.bind_eq_bind, Option.bind_some,
    List.length_cons, List.length_append, length_packd]

theorem dumpsStr_eq_some {chars : List CodePoint} {data : Bytes} (h : dumpsStr chars = some data) :
    ∃ s, utf8Encode chars = some s ∧ s.length < 2 ^ 32 ∧
      data = Tag.string.code :: (BigEndian.encode 4 s.length ++ s) := by
  unfold dumpsStr at h
  obtain ⟨s, hs, h⟩ := Option.bind_eq_some_iff.mp h
  obtain ⟨siz, hsiz, h⟩ := Option.bind_eq_some_iff.mp h
  obtain ⟨rfl, hlt⟩ := packI_eq_some hsiz
  cases h
  exact ⟨s, hs, hlt, rfl⟩

/-- A string comes back itself. -/
theorem loadsPrefix_str (host : Endian) {chars : List CodePoint} {data : Bytes}
    (h : dumpsStr chars = some data) (rest : Bytes) :
    loadsPrefix host (data ++ rest) = some (str chars, data.length) := by
  obtain ⟨s, hs, hlt, rfl⟩ := dumpsStr_eq_some h
  obtain ⟨hsiz, hbody⟩ := unpack_siz Tag.string.code hlt (s ++ rest)
  have hslice : slice (Tag.string.code :: (BigEndian.encode 4 s.length ++ (s ++ rest))) 5
      (s.length + 5) = s := by
    rw [slice, hbody]
    exact List.take_left' (Nat.add_sub_cancel _ _).symm
  rw [List.cons_append, List.append_assoc, loadsPrefix, Tag.ofCode_code]
  simp only [loadsString, hsiz, hslice, utf8Decode_utf8Encode hs, Option.bind_eq_bind,
    Option.bind_some, List.length_cons, List.length_append, BigEndian.length_encode]
  exact congrArg (fun siz => some (str chars, siz)) (by omega)

theorem returns_ndarray (host : Endian) {x : Ndarray} (hdtype : Scalar.ofDtype x.dtype ≠ Option.none)
    (hrank : 1 ≤ x.shape.length) (hdims : ∀ n ∈ x.shape, n < 2 ^ 32) :
    (ndarray x).Returns host := by
  intro data hdata rest
  obtain ⟨type, htype⟩ := Option.ne_none_iff_exists'.mp hdtype
  have hne : x.shape ≠ [] := List.ne_nil_of_length_pos hrank
  rw [dumps, dumpsNdarray_eq host htype hdims] at hdata
  cases hdata
  obtain ⟨y, hloads, hsame⟩ := loadsMat_dumpsNdarray host htype hne hdims rest
  refine ⟨ndarray y, ?_, .ndarray hsame⟩
  rw [← hloads, List.append_assoc, matHeader, List.cons_append, List.cons_append, loadsPrefix,
    Tag.ofCode_code]

/-- The loop over the elements of a list reads the list back. -/
theorem loadsElements_dumpsElements (host : Endian) {xs : List Value}
    (hxs : ∀ x ∈ xs, x.Returns host) {data : Bytes} (hdata : dumpsElements host xs = some data)
    (rest : Bytes) :
    ∃ ys, loadsElements host xs.length (data ++ rest) = some (ys, data.length) ∧
      List.Forall₂ (Same host) xs ys := by
  induction xs generalizing data with
  | nil =>
      rw [dumpsElements] at hdata
      cases hdata
      exact ⟨[], by rw [List.length_nil, loadsElements]; rfl, .nil⟩
  | cons x xs ih =>
      rw [dumpsElements] at hdata
      obtain ⟨first, hfirst, hdata⟩ := Option.bind_eq_some_iff.mp hdata
      obtain ⟨others, hothers, hdata⟩ := Option.bind_eq_some_iff.mp hdata
      cases hdata
      obtain ⟨y, hy, hsame⟩ := hxs x List.mem_cons_self first hfirst (others ++ rest)
      obtain ⟨ys, hys, hall⟩ := ih (fun z hz => hxs z (List.mem_cons_of_mem x hz)) hothers
      refine ⟨y :: ys, ?_, .cons hsame hall⟩
      have hdrop : (first ++ (others ++ rest)).drop first.length = others ++ rest := List.drop_left
      rw [List.length_cons, loadsElements, List.append_assoc, hy]
      simp only [Option.bind_eq_bind, Option.bind_some, hdrop, hys, List.length_append]

/-- The loop over the items of a dict adds them to those that are there. -/
theorem loadsKeyvalpairs_dumpsKeyvalpairs (host : Endian) {items : List (Value × Value)}
    (hkeys : ∀ item ∈ items, ∃ chars, item.1 = str chars)
    (hdistinct : (items.map Prod.fst).Nodup) (hvalues : ∀ item ∈ items, item.2.Returns host)
    {data : Bytes} (hdata : dumpsKeyvalpairs host items = some data) (rest : Bytes)
    (ret : List (Value × Value))
    (hret : ∀ item ∈ ret, ∃ chars, item.1 = str chars ∧ item.1 ∉ items.map Prod.fst) :
    ∃ items', loadsKeyvalpairs host items.length (data ++ rest) ret =
        some (ret ++ items', data.length) ∧
      items'.map Prod.fst = items.map Prod.fst ∧
      List.Forall₂ (Same host) (items.map Prod.snd) (items'.map Prod.snd) := by
  induction items generalizing data ret with
  | nil =>
      rw [dumpsKeyvalpairs] at hdata
      cases hdata
      refine ⟨[], ?_, rfl, .nil⟩
      rw [List.length_nil, loadsKeyvalpairs, List.append_nil]
      rfl
  | cons item items ih =>
      obtain ⟨key, val⟩ := item
      obtain ⟨chars, hchars⟩ := hkeys _ List.mem_cons_self
      obtain rfl : key = str chars := hchars
      rw [dumpsKeyvalpairs] at hdata
      obtain ⟨kdata, hkdata, hdata⟩ := Option.bind_eq_some_iff.mp hdata
      obtain ⟨vdata, hvdata, hdata⟩ := Option.bind_eq_some_iff.mp hdata
      obtain ⟨others, hothers, hdata⟩ := Option.bind_eq_some_iff.mp hdata
      cases hdata
      rw [dumps] at hkdata
      have hkey := loadsPrefix_str host hkdata (vdata ++ (others ++ rest))
      obtain ⟨y, hval, hsame⟩ := hvalues _ List.mem_cons_self vdata hvdata (others ++ rest)
      rw [List.map_cons, List.nodup_cons] at hdistinct
      -- the key is not there yet
      have hset : setitem ret (str chars) y = some (ret ++ [(str chars, y)]) := by
        apply setitem_str
        intro item hitem
        obtain ⟨t, ht, hnew⟩ := hret item hitem
        refine ⟨t, ht, ?_⟩
        rintro rfl
        exact hnew (ht ▸ List.mem_cons_self)
      obtain ⟨items', hitems', hfst, hsnd⟩ := ih
        (fun item hitem => hkeys item (List.mem_cons_of_mem _ hitem)) hdistinct.2
        (fun item hitem => hvalues item (List.mem_cons_of_mem _ hitem)) hothers
        (ret ++ [(str chars, y)]) (by
          intro item hitem
          obtain hold | hnew := List.mem_append.mp hitem
          · obtain ⟨t, ht, hne⟩ := hret item hold
            exact ⟨t, ht, fun hmem => hne (List.mem_cons_of_mem _ hmem)⟩
          · obtain rfl := List.mem_singleton.mp hnew
            exact ⟨chars, rfl, hdistinct.1⟩)
      refine ⟨(str chars, y) :: items', ?_, ?_, ?_⟩
      · have hfirst : (kdata ++ (vdata ++ (others ++ rest))).drop kdata.length =
            vdata ++ (others ++ rest) := List.drop_left
        have hboth : (kdata ++ (vdata ++ (others ++ rest))).drop (kdata.length + vdata.length) =
            others ++ rest := by
          rw [← List.drop_drop, hfirst]
          exact List.drop_left
        rw [List.length_cons, loadsKeyvalpairs, List.append_assoc, List.append_assoc, hkey]
        simp only [Option.bind_eq_bind, Option.bind_some, hfirst, hval, hset, hboth, hitems',
          List.length_append, List.append_assoc, List.singleton_append, Nat.add_assoc]
      · rw [List.map_cons, List.map_cons, hfst]
      · exact .cons hsame hsnd

theorem returns_of_typed (host : Endian) {x : Value} (hx : x.Typed) : x.Returns host := by
  induction hx with
  | none =>
      intro data hdata rest
      rw [dumps] at hdata
      cases hdata
      exact ⟨none, by rw [List.cons_append, loadsPrefix, Tag.ofCode_code]; rfl, .none⟩
  | bool b =>
      intro data hdata rest
      refine ⟨bool b, ?_, .bool b⟩
      cases b <;>
      · rw [dumps] at hdata
        cases hdata
        rw [List.cons_append, loadsPrefix, Tag.ofCode_code]
        rfl
  | int _ => exact returns_int host _
  | float bits => exact returns_float host bits
  | complex real imag => exact returns_complex host real imag
  | str chars =>
      intro data hdata rest
      rw [dumps] at hdata
      exact ⟨str chars, loadsPrefix_str host hdata rest, .str chars⟩
  | list _ ih =>
      intro data hdata rest
      rw [dumps] at hdata
      obtain ⟨elements, helements, hdata⟩ := Option.bind_eq_some_iff.mp hdata
      obtain ⟨siz, hsiz, hdata⟩ := Option.bind_eq_some_iff.mp hdata
      obtain ⟨rfl, hlt⟩ := packI_eq_some hsiz
      cases hdata
      obtain ⟨ys, hys, hall⟩ := loadsElements_dumpsElements host ih helements rest
      obtain ⟨hunpack, hbody⟩ := unpack_siz Tag.array.code hlt (elements ++ rest)
      refine ⟨list ys, ?_, .list hall⟩
      rw [List.cons_append, List.append_assoc, loadsPrefix, Tag.ofCode_code]
      simp only [hunpack, hbody, hys, Option.bind_eq_bind, Option.bind_some, List.length_cons,
        List.length_append, BigEndian.length_encode]
      exact congrArg (fun siz => some (list ys, siz)) (by omega)
  | dict keys distinct _ ih =>
      intro data hdata rest
      rw [dumps] at hdata
      obtain ⟨elements, helements, hdata⟩ := Option.bind_eq_some_iff.mp hdata
      obtain ⟨siz, hsiz, hdata⟩ := Option.bind_eq_some_iff.mp hdata
      obtain ⟨rfl, hlt⟩ := packI_eq_some hsiz
      cases hdata
      obtain ⟨items', hitems', hfst, hsnd⟩ := loadsKeyvalpairs_dumpsKeyvalpairs host keys distinct
        ih helements rest [] (fun _ hitem => absurd hitem List.not_mem_nil)
      obtain ⟨hunpack, hbody⟩ := unpack_siz Tag.assocarray.code hlt (elements ++ rest)
      refine ⟨dict items', ?_, .dict hfst hsnd⟩
      rw [List.cons_append, List.append_assoc, loadsPrefix, Tag.ofCode_code]
      simp only [hunpack, hbody, hitems', Option.bind_eq_bind, Option.bind_some, List.length_cons,
        List.length_append, BigEndian.length_encode, List.nil_append]
      exact congrArg (fun siz => some (dict items', siz)) (by omega)
  | ndarray dtype rank dims => exact returns_ndarray host dtype rank dims

/-! ## What can be written -/

theorem dumpsStr_ne_none {chars : List CodePoint} : dumpsStr chars ≠ Option.none ↔ StrFits chars := by
  rw [Option.ne_none_iff_exists']
  constructor
  · intro h
    obtain ⟨data, hdata⟩ := h
    obtain ⟨s, hs, hlt, _⟩ := dumpsStr_eq_some hdata
    exact ⟨s, hs, hlt⟩
  · intro h
    obtain ⟨s, hs, hlt⟩ := h
    refine ⟨Tag.string.code :: (BigEndian.encode 4 s.length ++ s), ?_⟩
    simp only [dumpsStr, hs, packI_of_lt hlt, Option.bind_eq_bind, Option.bind_some]

theorem dumpsElements_ne_none (host : Endian) (xs : List Value) :
    dumpsElements host xs ≠ Option.none ↔ ∀ x ∈ xs, dumps host x ≠ Option.none := by
  induction xs with
  | nil => simp [dumpsElements]
  | cons x xs ih =>
      rw [dumpsElements, List.forall_mem_cons, ← ih]
      cases dumps host x <;> cases dumpsElements host xs <;> simp

theorem dumpsKeyvalpairs_ne_none (host : Endian) (items : List (Value × Value)) :
    dumpsKeyvalpairs host items ≠ Option.none ↔
      ∀ item ∈ items, dumps host item.1 ≠ Option.none ∧ dumps host item.2 ≠ Option.none := by
  induction items with
  | nil => simp [dumpsKeyvalpairs]
  | cons item items ih =>
      obtain ⟨key, val⟩ := item
      rw [dumpsKeyvalpairs, List.forall_mem_cons, ← ih]
      cases dumps host key <;> cases dumps host val <;> cases dumpsKeyvalpairs host items <;> simp

theorem packI_ne_none {n : Nat} : packI n ≠ Option.none ↔ n < 2 ^ 32 := by
  unfold packI
  split <;> simp_all

/-- `dumps` raises no exception exactly on what fits. -/
theorem dumps_ne_none (host : Endian) {x : Value} (hx : x.Typed) :
    dumps host x ≠ Option.none ↔ x.Fits := by
  induction hx with
  | none => exact ⟨fun _ => .none, fun _ => by simp [dumps]⟩
  | bool b => exact ⟨fun _ => .bool b, fun _ => by cases b <;> simp [dumps]⟩
  | int range =>
      refine ⟨fun _ => .int _, fun _ => ?_⟩
      rw [dumps, packq, if_pos range]
      exact Option.some_ne_none _
  | float bits => exact ⟨fun _ => .float bits, fun _ => by simp [dumps]⟩
  | complex real imag => exact ⟨fun _ => .complex real imag, fun _ => by simp [dumps]⟩
  | str chars =>
      rw [dumps, dumpsStr_ne_none]
      constructor
      · exact .str
      · intro h
        cases h with
        | str hfits => exact hfits
  | @list xs _ ih =>
      have hdumps : dumps host (list xs) ≠ Option.none ↔
          dumpsElements host xs ≠ Option.none ∧ xs.length < 2 ^ 32 := by
        rw [dumps, ← packI_ne_none]
        cases dumpsElements host xs <;> cases packI xs.length <;> simp
      rw [hdumps, dumpsElements_ne_none]
      constructor
      · intro h
        exact .list h.2 fun x hx => (ih x hx).mp (h.1 x hx)
      · intro h
        cases h with
        | list hsize helements => exact ⟨fun x hx => (ih x hx).mpr (helements x hx), hsize⟩
  | @dict items keys _ _ ih =>
      have hdumps : dumps host (dict items) ≠ Option.none ↔
          dumpsKeyvalpairs host items ≠ Option.none ∧ items.length < 2 ^ 32 := by
        rw [dumps, ← packI_ne_none]
        cases dumpsKeyvalpairs host items <;> cases packI items.length <;> simp
      have hkey : ∀ item ∈ items, (dumps host item.1 ≠ Option.none ↔ item.1.Fits) := by
        intro item hitem
        obtain ⟨chars, hchars⟩ := keys item hitem
        rw [hchars, dumps, dumpsStr_ne_none]
        constructor
        · exact .str
        · intro h
          cases h with
          | str hfits => exact hfits
      rw [hdumps, dumpsKeyvalpairs_ne_none]
      constructor
      · intro h
        exact .dict h.2 (fun item hitem => (hkey item hitem).mp (h.1 item hitem).1)
          fun item hitem => (ih item hitem).mp (h.1 item hitem).2
      · intro h
        cases h with
        | dict hsize hkeys hvalues =>
            exact ⟨fun item hitem => ⟨(hkey item hitem).mpr (hkeys item hitem),
              (ih item hitem).mpr (hvalues item hitem)⟩, hsize⟩
  | @ndarray x dtype _ dims =>
      obtain ⟨type, htype⟩ := Option.ne_none_iff_exists'.mp dtype
      exact ⟨fun _ => .ndarray x, fun _ => by simp [dumps, dumpsNdarray_eq host htype dims]⟩

/-- What fits comes back, from the front of any bytes and with the number of
bytes that were written; on anything else `dumps` raises an exception. -/
theorem loads_dumps (host : Endian) {x : Value} (hx : x.Typed) :
    (x.Fits → ∃ data, dumps host x = some data ∧ ∀ rest, ∃ y,
      loadsPrefix host (data ++ rest) = some (y, data.length) ∧ x.Same host y) ∧
    (¬ x.Fits → dumps host x = Option.none) := by
  constructor
  · intro hfits
    obtain ⟨data, hdata⟩ := Option.ne_none_iff_exists'.mp ((dumps_ne_none host hx).mpr hfits)
    exact ⟨data, hdata, returns_of_typed host hx data hdata⟩
  · intro hfits
    by_contra hdata
    exact hfits ((dumps_ne_none host hx).mp hdata)

/-- A row of two 16-bit integers. -/
def row : Ndarray := .fortran ⟨.i, 2, .native⟩ [1, 2] [1, 0, 2, 0] 0 (by decide) (by decide) (by decide)

theorem loads_dumps_row : ∃ data,
    dumps .little (dict [(str [97], list [int (-1), none, ndarray row])]) = some data ∧
    ∀ rest, ∃ y, loadsPrefix .little (data ++ rest) = some (y, data.length) ∧
      (dict [(str [97], list [int (-1), none, ndarray row])]).Same .little y := by
  have htyped : (list [int (-1), none, ndarray row]).Typed := by
    refine .list ?_
    simp only [List.forall_mem_cons]
    exact ⟨.int (by decide), .none, .ndarray (by decide) (by decide) (by decide), by simp⟩
  have hstr : (str [97]).Fits := .str ⟨[97], rfl, by decide⟩
  have hlist : (list [int (-1), none, ndarray row]).Fits := by
    refine .list (by decide) ?_
    simp only [List.forall_mem_cons]
    exact ⟨.int (-1), .none, .ndarray row, by simp⟩
  refine (loads_dumps .little (.dict ?_ ?_ ?_)).1 (.dict (by decide) ?_ ?_)
  · simp
  · simp
  · simpa using htyped
  · simpa using hstr
  · simpa using hlist

/-- A lone surrogate has no encoding, and a list can be too long. -/
theorem dumps_raises :
    ((str [0xD800]).Typed ∧ dumps .little (str [0xD800]) = Option.none) ∧
    (list (List.replicate (2 ^ 32) none)).Typed ∧
      dumps .little (list (List.replicate (2 ^ 32) none)) = Option.none := by
  have hlist : (list (List.replicate (2 ^ 32) none)).Typed := by
    refine .list ?_
    intro x hx
    rw [List.eq_of_mem_replicate hx]
    exact .none
  refine ⟨⟨.str _, rfl⟩, hlist, ?_⟩
  by_contra hdata
  cases (dumps_ne_none .little hlist).mp hdata with
  | list hsize _ =>
      rw [List.length_replicate] at hsize
      exact lt_irrefl _ hsize

end Value

end Dime.Python
