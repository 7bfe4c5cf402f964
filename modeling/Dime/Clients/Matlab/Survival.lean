import Dime.Foundation.Delimited
import Dime.Clients.Matlab.DimebArrays

/-!
# Values that can come back

Which Matlab values survive dimeb by way of Python, and the sizes of the values that
`dimebloads` returns.
-/

namespace Dime.Matlab

open Delimited
open Python (Endian Scalar Tag)

/-! ## Values that survive -/

/-- A number of another class that is exactly a `double`. -/
def Exact (cls : NumClass) (bits : Nat) : Prop :=
  Binary.double.datum (cls.toDouble bits) = cls.datum bits

/-- The number of dimensions that Python keeps. -/
def sentRank : List Nat → Nat
  | [_, 1] => 1
  | dims => dims.length

/-- A numeric array comes back: it has no NaN, integers that are complex are exactly
doubles, and an integer on its own is less than `2 ^ 63`. What is no scalar is no row, and
no vector if it is complex, and is encoded in 255 bytes. -/
def Numeric.Survives (x : Numeric) : Prop :=
  if x.size.numel = 0 then x.size = Size.matrix 0 0
  else
    (∀ part ∈ x.parts, Value.isNumber part = true) ∧
      match x.im with
      | none =>
        if x.size.dims = [1, 1] then x.cls = .uint64 → ∀ bits ∈ x.re.data, bits.val < 2 ^ 63
        else (∀ n, x.size.dims ≠ [1, n]) ∧
          arrayLength (sentRank x.size.dims) x.cls.itemsize x.size.numel ≤ 255
      | some im =>
        (∀ bits ∈ x.re.data ++ im, Exact x.cls bits) ∧
          (x.size.dims = [1, 1] ∨
            (∀ n, x.size.dims ≠ [1, n]) ∧ (∀ n, x.size.dims ≠ [n, 1]) ∧
              arrayLength x.size.dims.length (2 * (if x.cls = .single then 4 else 8)) x.size.numel ≤ 255)

/-- A text comes back: it is a row of characters below 256, which are the bytes of a text
in UTF-8. -/
def charSurvives (x : Grid UInt16) : Prop :=
  if x.size.numel = 0 then x.size = Size.matrix 0 0
  else x.size.dims = [1, x.data.length] ∧ x.data.length + 5 < 2 ^ 32 ∧ (∀ c ∈ x.data, c.toNat ≤ 255) ∧
    (Python.utf8Decode (x.data.map fun c => UInt8.ofNat c.toNat)).isSome

/-- The sizes of the cell arrays that are decoded. -/
def cellFits (size : Size) : Prop :=
  size = Size.matrix 0 0 ∨ ∃ n, 0 < n ∧ n < 2 ^ 32 ∧ size = Size.row n

namespace Value

/-- The values of the type table: truth values, numeric arrays, character arrays, and cell
arrays and structures of such values. -/
def Covered : Value → Prop
  | logical x => x.size.dims = [1, 1]
  | numeric _ | char _ => True
  | cell _ elements => ∀ i, (elements i).Covered
  | struct _ vals => ∀ i, (vals i).Covered
  | map _ _ _ => False

/-- A value comes back. A cell array is `{}` or a row. -/
def Survives : Value → Prop
  | logical _ => True
  | numeric x => x.Survives
  | char x => charSurvives x
  | cell size elements => cellFits size ∧ ∀ i, (elements i).Survives
  | struct names vals => names.1.length < 2 ^ 32 ∧ ∀ i, (vals i).Survives
  | map _ _ _ => False

end Value

/-- What comes back from Python on a computer of that byte order. -/
def roundTrip (computer host : Endian) (obj : Value) : Option Value := do
  let bytes ← dimebdumps computer obj
  let x ← Python.Dimeb.loads host bytes
  let bytes ← Python.Dimeb.dumps host x
  dimebloads computer bytes

/-! ## Sizes -/

/-- The sizes of the arrays that are decoded. -/
def Size.Fits (size : Size) : Prop := size.dims.length ≤ 64 ∧ size.numel + 5 < 2 ^ 32

/-- The sizes in a value are as in values that are decoded. -/
def Value.Fits : Value → Prop
  | .logical x => x.size.Fits
  | .numeric x => x.size.Fits
  | .char x => x.size.Fits
  | .cell size elements => cellFits size ∧ ∀ i, (elements i).Fits
  | .struct names vals => names.1.length < 2 ^ 32 ∧ ∀ i, (vals i).Fits
  | .map _ _ _ => True

variable {computer : Endian}

theorem Size.fits_row {n : Nat} (h : n + 5 < 2 ^ 32) : (Size.row n).Fits :=
  ⟨(by decide : 2 ≤ 64), by rwa [Size.numel_row]⟩

theorem Size.fits_empty : (Size.matrix 0 0).Fits := ⟨by decide, by decide⟩

namespace Dimeb

theorem fits_loadsReal {cls : NumClass} {s : Bytes} {obj : Value} {n : Nat}
    (h : loadsReal computer s cls = some (obj, n)) : obj.Fits := by
  obtain ⟨t, ht, h⟩ := Option.bind_eq_some_iff.mp h
  obtain ⟨words, hwords, h⟩ := Option.bind_eq_some_iff.mp h
  cases h
  have hlength := (length_typecast hwords).trans (length_range (by decide) ht)
  have hone : words.length = 1 := by
    apply Nat.eq_of_mul_eq_mul_left (itemsize_pos cls)
    omega
  apply Size.fits_row
  rw [List.length_map, hone]
  decide

theorem fits_complex {cls : NumClass} {re im : List cls.Word} {dims : List Nat} {obj : Value}
    (h : complex re im dims = some obj) (hdims : dims.length ≤ 64) (hre : re.length + 5 < 2 ^ 32) :
    obj.Fits := by
  obtain ⟨x, hx, h⟩ := Option.bind_eq_some_iff.mp h
  obtain ⟨hdata, hlength, hsize⟩ := Grid.reshape_eq_some hx
  obtain ⟨_, hnumel, hrank⟩ := Size.ofDims_eq_some hsize
  split at h
  · cases h
    refine ⟨le_trans hrank hdims, ?_⟩
    change x.size.numel + 5 < 2 ^ 32
    rwa [hnumel, ← hlength]
  · cases h

theorem fits_loadsComplex {cls : NumClass} {s : Bytes} {obj : Value} {n : Nat}
    (h : loadsComplex computer s cls = some (obj, n)) : obj.Fits := by
  obtain ⟨t, _, h⟩ := Option.bind_eq_some_iff.mp h
  obtain ⟨words, _, h⟩ := Option.bind_eq_some_iff.mp h
  obtain ⟨obj, hobj, h⟩ := Option.bind_eq_some_iff.mp h
  cases h
  apply fits_complex hobj (by decide)
  rw [List.length_take]
  omega

theorem length_loadsShape {s : Bytes} {shape : List Nat} {stop : Nat}
    (h : loadsShape computer s = some (shape, stop)) : 4 * shape.length ≤ 253 := by
  obtain ⟨rank, _, h⟩ := Option.bind_eq_some_iff.mp h
  obtain ⟨t, ht, h⟩ := Option.bind_eq_some_iff.mp h
  obtain ⟨words, hwords, h⟩ := Option.bind_eq_some_iff.mp h
  cases h
  have hstop : uint8 (uint8 (4 * rank.toNat) + 2) ≤ 255 := Nat.min_le_right _ _
  have hlength : 4 * words.length = _ := (length_typecast hwords).trans (length_range (by decide) ht)
  rw [List.length_map, hlength]
  omega

/-- The data of an array are at most 255 bytes. -/
theorem length_data {cls : NumClass} {s t : Bytes} {i n : Nat} {words : List cls.Word}
    (ht : range s (uint8 (i + 1)) (uint8 n) = some t) (h : typecast computer cls t = some words) :
    words.length ≤ 255 := by
  have hpos : 0 < uint8 (i + 1) := Nat.lt_min.mpr ⟨Nat.succ_pos i, by decide⟩
  have hend : uint8 n ≤ 255 := Nat.min_le_right _ _
  have hlength := (length_typecast h).trans (length_range hpos ht)
  have hle : words.length ≤ cls.itemsize * words.length := Nat.le_mul_of_pos_left _ (itemsize_pos cls)
  omega

theorem fits_loadsMat {cls : NumClass} {s : Bytes} {obj : Value} {n : Nat}
    (h : loadsMat computer s cls = some (obj, n)) : obj.Fits := by
  obtain ⟨⟨shape, stop⟩, hshape, h⟩ := Option.bind_eq_some_iff.mp h
  obtain ⟨t, ht, h⟩ := Option.bind_eq_some_iff.mp h
  obtain ⟨words, hwords, h⟩ := Option.bind_eq_some_iff.mp h
  obtain ⟨x, hx, h⟩ := Option.bind_eq_some_iff.mp h
  cases h
  have hrank := length_loadsShape hshape
  have hcount := length_data ht hwords
  obtain ⟨hdata, hlength, hsize⟩ := Grid.reshape_eq_some hx
  obtain ⟨_, hnumel, hdims⟩ := Size.ofDims_eq_some hsize
  rw [List.length_map] at hlength
  have hunsqueeze : (unsqueeze shape).length ≤ shape.length + 1 := by
    unfold unsqueeze
    split <;> simp
  refine ⟨le_trans hdims (le_trans hunsqueeze (by omega)), ?_⟩
  change x.size.numel + 5 < 2 ^ 32
  rw [hnumel, ← hlength]
  omega

theorem fits_loadsMatComplex {cls : NumClass} {s : Bytes} {obj : Value} {n : Nat}
    (h : loadsMatComplex computer s cls = some (obj, n)) : obj.Fits := by
  obtain ⟨⟨shape, stop⟩, hshape, h⟩ := Option.bind_eq_some_iff.mp h
  obtain ⟨t, ht, h⟩ := Option.bind_eq_some_iff.mp h
  obtain ⟨words, hwords, h⟩ := Option.bind_eq_some_iff.mp h
  obtain ⟨obj, hobj, h⟩ := Option.bind_eq_some_iff.mp h
  cases h
  have hrank := length_loadsShape hshape
  have hcount := length_data ht hwords
  have htotal := length_deinterleave words
  apply fits_complex hobj (by omega)
  rw [List.length_map]
  omega

theorem loadsSize_lt {s : Bytes} {siz : Nat} (h : loadsSize computer s = some siz) : siz < 2 ^ 32 := by
  obtain ⟨t, _, h⟩ := Option.bind_eq_some_iff.mp h
  obtain ⟨words, _, h⟩ := Option.bind_eq_some_iff.mp h
  obtain ⟨word, _, rfl⟩ := Option.map_eq_some_iff.mp h
  exact lt_of_lt_of_eq (swap computer word).isLt (by decide)

theorem fits_loadsString {s : Bytes} {obj : Value} {n : Nat}
    (h : loadsString computer s = some (obj, n)) : obj.Fits := by
  obtain ⟨siz, _, h⟩ := Option.bind_eq_some_iff.mp h
  obtain ⟨chars, hchars, h⟩ := Option.bind_eq_some_iff.mp h
  cases h
  have hlength := length_range (by decide) hchars
  apply Size.fits_row
  rw [List.length_map, hlength]
  omega

/-! ## Containers -/

theorem loadsElements_eq (n : Nat) (s : Bytes) :
    loadsElements computer n s = many (loadsPrefix computer) n s := by
  induction n generalizing s with
  | zero => rw [loadsElements, many]
  | succ n ih =>
      rw [loadsElements, many]
      simp only [ih]

theorem loadsPairs_eq (n : Nat) (s : Bytes) (obj : Assoc) :
    loadsPairs computer n s obj = (many (pair (loadsPrefix computer)) n s).bind fun items =>
      (items.1.foldlM (fun obj item => Assoc.assign item.1 item.2 obj) obj).map (·, items.2) := by
  induction n generalizing s obj with
  | zero => rw [loadsPairs, many]; rfl
  | succ n ih =>
      rw [loadsPairs, many, pair]
      cases hkey : loadsPrefix computer s with
      | none => rfl
      | some key =>
          cases hval : loadsPrefix computer (s.drop key.2) with
          | none => simp [hval]
          | some val =>
              simp only [hval, ih, Option.bind_eq_bind, Option.bind_some]
              cases many (pair (loadsPrefix computer)) n (s.drop (key.2 + val.2)) with
              | none => simp
              | some items =>
                  simp only [Option.bind_some, List.foldlM_cons, Option.bind_eq_bind, Nat.add_assoc]
                  cases Assoc.assign key.1 val.1 obj with
                  | none => rfl
                  | some obj =>
                      simp only [Option.bind_some]
                      cases items.1.foldlM (fun obj item => Assoc.assign item.1 item.2 obj) obj with
                      | none => rfl
                      | some obj => rfl

theorem fits_row {xs : List Value} (hlength : xs.length < 2 ^ 32) (h : ∀ x ∈ xs, x.Fits) :
    (Value.row xs).Fits := by
  unfold Value.row
  split
  · refine ⟨.inl rfl, fun i => ?_⟩
    exact absurd i.isLt (by simp)
  · next hne =>
    exact ⟨.inr ⟨xs.length, List.length_pos_of_ne_nil hne, hlength, rfl⟩, fun i => h _ (List.get_mem _ _)⟩

/-- The sizes of what has been assigned so far, and at most so many fields. -/
def Assoc.Fits (n : Nat) : Assoc → Prop
  | .struct fields => fields.1.length ≤ n ∧ ∀ field ∈ fields.1, field.2.Fits
  | .map _ _ => True

theorem fits_assign {n : Nat} {key val : Value} {obj obj' : Assoc} (hobj : obj.Fits n) (hval : val.Fits)
    (h : obj.assign key val = some obj') : obj'.Fits (n + 1) := by
  cases obj with
  | struct fields =>
      cases hname : Assoc.fieldName? key with
      | some name =>
          simp only [Assoc.assign, hname] at h
          cases h
          refine ⟨le_trans Association.length_insert_le (Nat.add_le_add_right hobj.1 1), ?_⟩
          intro field hfield
          cases Association.mem_insert hfield with
          | inl hnew => exact hnew ▸ hval
          | inr hold => exact hobj.2 field hold
      | none =>
          simp only [Assoc.assign, hname] at h
          obtain ⟨⟨keyType, entries⟩, _, h⟩ := Option.bind_eq_some_iff.mp h
          obtain ⟨key', _, h⟩ := Option.bind_eq_some_iff.mp h
          cases h
          trivial
  | map keyType entries =>
      obtain ⟨key', _, h⟩ := Option.bind_eq_some_iff.mp h
      cases h
      trivial

theorem fits_foldlM {items : List (Value × Value)} {n : Nat} {obj obj' : Assoc} (hobj : obj.Fits n)
    (hitems : ∀ item ∈ items, item.2.Fits)
    (h : items.foldlM (fun obj item => Assoc.assign item.1 item.2 obj) obj = some obj') :
    obj'.Fits (n + items.length) := by
  induction items generalizing n obj with
  | nil =>
      cases h
      exact hobj
  | cons item items ih =>
      rw [List.foldlM_cons] at h
      obtain ⟨next, hnext, h⟩ := Option.bind_eq_some_iff.mp h
      have hstep := fits_assign hobj (hitems item List.mem_cons_self) hnext
      have hrest := ih hstep (fun item hitem => hitems item (List.mem_cons_of_mem _ hitem)) h
      rwa [List.length_cons, Nat.add_comm items.length, ← Nat.add_assoc]

theorem fits_toValue {n : Nat} {obj : Assoc} (h : obj.Fits n) (hn : n < 2 ^ 32) : obj.toValue.Fits := by
  cases obj with
  | struct fields =>
      refine ⟨?_, fun i => ?_⟩
      · change (fields.1.map Prod.fst).length < 2 ^ 32
        rw [List.length_map]
        exact lt_of_le_of_lt h.1 hn
      · exact h.2 _ (List.get_mem _ _)
  | map keyType entries => trivial

theorem fits_loadsPrefix {s : Bytes} {obj : Value} {n : Nat}
    (h : loadsPrefix computer s = some (obj, n)) : obj.Fits := by
  induction hlength : s.length using Nat.strong_induction_on generalizing s obj n with
  | _ k ih =>
      cases s with
      | nil =>
          rw [loadsPrefix] at h
          cases h
      | cons tag rest =>
          -- what is nested is decoded from fewer bytes
          have hdecode : ∀ i obj m, loadsPrefix computer (((tag :: rest).drop 5).drop i) = some (obj, m) →
              obj.Fits := by
            intro i obj m hload
            refine ih _ ?_ hload rfl
            rw [List.length_drop, List.length_drop, ← hlength, List.length_cons]
            omega
          cases htag : Tag.ofCode tag with
          | none =>
              rw [loadsPrefix, htag] at h
              cases h
          | some type =>
              rw [loadsPrefix, htag] at h
              cases type with
              | null =>
                  cases h
                  exact Size.fits_empty
              | true =>
                  cases h
                  exact Size.fits_row (by decide)
              | false =>
                  cases h
                  exact Size.fits_row (by decide)
              | scalar type =>
                  cases type with
                  | complexSingle => exact fits_loadsComplex h
                  | complexDouble => exact fits_loadsComplex h
                  | _ => exact fits_loadsReal h
              | mat type =>
                  cases type with
                  | complexSingle => exact fits_loadsMatComplex h
                  | complexDouble => exact fits_loadsMatComplex h
                  | _ => exact fits_loadsMat h
              | string => exact fits_loadsString h
              | array =>
                  obtain ⟨siz, hsiz, h⟩ := Option.bind_eq_some_iff.mp h
                  obtain ⟨⟨elements, nread⟩, helements, h⟩ := Option.bind_eq_some_iff.mp h
                  cases h
                  rw [loadsElements_eq] at helements
                  apply fits_row
                  · rw [length_many helements]
                    exact loadsSize_lt hsiz
                  · exact forall_many hdecode helements
              | assocarray =>
                  obtain ⟨siz, hsiz, h⟩ := Option.bind_eq_some_iff.mp h
                  obtain ⟨⟨obj, nread⟩, hobj, h⟩ := Option.bind_eq_some_iff.mp h
                  cases h
                  rw [loadsPairs_eq] at hobj
                  obtain ⟨⟨items, m⟩, hitems, hobj⟩ := Option.bind_eq_some_iff.mp hobj
                  obtain ⟨obj', hfold, hobj⟩ := Option.map_eq_some_iff.mp hobj
                  cases hobj
                  -- of the keys nothing is needed but their number
                  have hvals : ∀ item ∈ items, item.2.Fits := by
                    refine forall_many (P := fun item : Value × Value => item.2.Fits) ?_ hitems
                    intro i item m hitem
                    obtain ⟨⟨key, key_siz⟩, _, hitem⟩ := Option.bind_eq_some_iff.mp hitem
                    obtain ⟨⟨val, val_siz⟩, hval, hitem⟩ := Option.bind_eq_some_iff.mp hitem
                    cases hitem
                    rw [List.drop_drop] at hval
                    exact hdecode _ val val_siz hval
                  have hcount : items.length < 2 ^ 32 := by
                    rw [length_many hitems]
                    exact loadsSize_lt hsiz
                  have hstart : Assoc.Fits 0 (.struct ⟨[], List.nodup_nil⟩) :=
                    ⟨le_rfl, fun field hfield => by cases hfield⟩
                  have hfits := fits_foldlM hstart hvals hfold
                  rw [Nat.zero_add] at hfits
                  exact fits_toValue hfits hcount

end Dimeb

namespace Value

/-! ## `isequal` -/

theorem isequal_iff_parts {x y : Value} {size : Size} {parts : List (Binary.Datum × Binary.Datum)}
    (hx : x.parts? = some (size, parts)) :
    x.isequal y = true ↔ y.parts? = some (size, parts) ∧ ∀ part ∈ parts, isNumber part = true := by
  have hunfold : x.isequal y = (x.parts?.bind fun p => y.parts?.map fun q =>
      (p.1 = q.1 && p.2 = q.2 && p.2.all isNumber : Bool)).getD false := by
    cases x with
    | cell size elements => cases hx
    | struct names vals => cases hx
    | _ => cases y <;> rfl
  rw [hunfold, hx]
  cases hy : y.parts? with
  | none => simp
  | some result =>
      rw [Option.bind_some, Option.map_some, Option.getD_some]
      simp only [Bool.and_eq_true, decide_eq_true_eq, List.all_eq_true, Option.some.injEq]
      constructor
      · intro h
        obtain ⟨⟨rfl, rfl⟩, hnumber⟩ := h
        exact ⟨rfl, hnumber⟩
      · intro h
        obtain ⟨rfl, hnumber⟩ := h
        exact ⟨⟨rfl, rfl⟩, hnumber⟩

theorem isequal_cell_iff {size size' : Size} {elements : Fin size.numel → Value}
    {elements' : Fin size'.numel → Value} :
    (cell size elements).isequal (cell size' elements') = true ↔
      size = size' ∧ ∀ i, ∃ j, i.val = j.val ∧ (elements i).isequal (elements' j) = true := by
  rw [isequal]
  simp only [Bool.and_eq_true, decide_eq_true_eq, List.all_eq_true, List.any_eq_true,
    List.mem_finRange, true_and, forall_const]

theorem isequal_struct_iff {names names' : { names : List FieldName // names.Nodup }}
    {vals : Fin names.1.length → Value} {vals' : Fin names'.1.length → Value} :
    (struct names vals).isequal (struct names' vals') = true ↔
      names.1.length = names'.1.length ∧
        ∀ i, ∃ j, names.1.get i = names'.1.get j ∧ (vals i).isequal (vals' j) = true := by
  rw [isequal]
  simp only [Bool.and_eq_true, decide_eq_true_eq, List.all_eq_true, List.any_eq_true,
    List.mem_finRange, true_and, forall_const]

theorem isequal_cell {size : Size} {elements : Fin size.numel → Value} {y : Value}
    (h : (cell size elements).isequal y = true) : ∃ size' elements', y = cell size' elements' := by
  cases y with
  | cell size' elements' => exact ⟨size', elements', rfl⟩
  | _ => cases h

theorem isequal_struct {names : { names : List FieldName // names.Nodup }}
    {vals : Fin names.1.length → Value} {y : Value} (h : (struct names vals).isequal y = true) :
    ∃ names' vals', y = struct names' vals' := by
  cases y with
  | struct names' vals' => exact ⟨names', vals', rfl⟩
  | _ => cases h

theorem fits_of_parts {x : Value} {size : Size} {parts : List (Binary.Datum × Binary.Datum)}
    (hx : x.parts? = some (size, parts)) : x.Fits ↔ size.Fits := by
  cases x with
  | logical x =>
      cases hx
      exact Iff.rfl
  | numeric x =>
      cases hx
      exact Iff.rfl
  | char x =>
      cases hx
      exact Iff.rfl
  | _ => cases hx

/-- A value is as large as one that it equals. -/
theorem fits_of_isequal {x y : Value} (h : x.isequal y = true) (hy : y.Fits) : x.Fits := by
  have hparts : ∀ x y : Value, ∀ size parts, x.parts? = some (size, parts) → x.isequal y = true →
      y.Fits → x.Fits := by
    intro x y size parts hx h hy
    exact (fits_of_parts hx).mpr ((fits_of_parts ((isequal_iff_parts hx).mp h).1).mp hy)
  induction x generalizing y with
  | logical x => exact hparts _ y _ _ rfl h hy
  | numeric x => exact hparts _ y _ _ rfl h hy
  | char x => exact hparts _ y _ _ rfl h hy
  | cell size elements ih =>
      obtain ⟨size', elements', rfl⟩ := isequal_cell h
      obtain ⟨rfl, hall⟩ := isequal_cell_iff.mp h
      refine ⟨hy.1, fun i => ?_⟩
      obtain ⟨j, _, hij⟩ := hall i
      exact ih i hij (hy.2 j)
  | struct names vals ih =>
      obtain ⟨names', vals', rfl⟩ := isequal_struct h
      obtain ⟨hlength, hall⟩ := isequal_struct_iff.mp h
      refine ⟨lt_of_eq_of_lt hlength hy.1, fun i => ?_⟩
      obtain ⟨j, _, hij⟩ := hall i
      exact ih i hij (hy.2 j)
  | map keyType keys vals ih => trivial

end Value

theorem Size.fits_scalar {size : Size} (h : size.dims = [1, 1]) : size.Fits := by
  unfold Size.Fits Size.numel
  rw [h]
  decide

theorem length_le_sentRank (dims : List Nat) : dims.length ≤ sentRank dims + 1 := by
  unfold sentRank
  split
  · exact le_rfl
  · exact Nat.le_succ _

/-- An array of up to 255 bytes is small enough. -/
theorem Size.fits_of_arrayLength {size : Size} {rank itemsize : Nat} (hrank : size.dims.length ≤ rank + 1)
    (hitemsize : 0 < itemsize) (h : arrayLength rank itemsize size.numel ≤ 255) : size.Fits := by
  unfold arrayLength at h
  have hcount : size.numel ≤ size.numel * itemsize := Nat.le_mul_of_pos_right _ hitemsize
  exact ⟨by omega, by omega⟩

theorem Numeric.fits_of_survives {x : Numeric} (h : x.Survives) : x.size.Fits := by
  unfold Numeric.Survives at h
  split at h
  · exact h ▸ Size.fits_empty
  · obtain ⟨_, h⟩ := h
    split at h
    · split at h
      next hdims => exact Size.fits_scalar hdims
      next => exact Size.fits_of_arrayLength (length_le_sentRank _) (itemsize_pos _) h.2
    · obtain ⟨_, hdims | ⟨_, _, hlength⟩⟩ := h
      · exact Size.fits_scalar hdims
      · refine Size.fits_of_arrayLength (Nat.le_succ _) ?_ hlength
        split <;> decide

theorem fits_of_charSurvives {x : Grid UInt16} (h : charSurvives x) : x.size.Fits := by
  unfold charSurvives at h
  split at h
  · exact h ▸ Size.fits_empty
  · obtain ⟨hdims, hlength, _⟩ := h
    unfold Size.Fits
    rw [hdims, ← x.length_data]
    exact ⟨by simp, hlength⟩

/-- What comes back has sizes that can be decoded. -/
theorem Value.fits_of_survives {x : Value} (h : x.Survives) (hx : x.Covered) : x.Fits := by
  induction x with
  | logical x => exact Size.fits_scalar hx
  | numeric x => exact Numeric.fits_of_survives h
  | char x => exact fits_of_charSurvives h
  | cell size elements ih => exact ⟨h.1, fun i => ih i (h.2 i) (hx i)⟩
  | struct names vals ih => exact ⟨h.1, fun i => ih i (h.2 i) (hx i)⟩
  | map keyType keys vals ih => trivial

end Dime.Matlab
