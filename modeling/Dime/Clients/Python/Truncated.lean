import Dime.Foundation.Truncated
import Dime.Clients.Python.Decodable

/-!
# Truncated data in Python

What `loads` makes of the beginning of an encoding that `dumps` has written.
-/

namespace Dime.Python

open Delimited Strided Dimeb

section

variable {host : Endian}

theorem loadsPrefix_nil : loadsPrefix host [] = none := by
  rw [loadsPrefix]

/-! ## Numbers -/

theorem unpack_short {s : Bytes} (k i j : Nat) (hk : 0 < k) (hj : i + k = j)
    (hs : s.length < j) : unpackUnsigned k (slice s i j) = none := by
  apply if_neg
  rw [slice, List.length_take, List.length_drop]
  omega

theorem loadsScalar_short {type : Scalar} {s : Bytes} (hs : s.length < 1 + type.itemsize) :
    loadsScalar s type = none := by
  cases type with
  | i8 => simp only [loadsScalar, unpackSigned, unpack_short 1 1 2 (by decide) rfl hs,
      Option.map_none]
  | i16 => simp only [loadsScalar, unpackSigned, unpack_short 2 1 3 (by decide) rfl hs,
      Option.map_none]
  | i32 => simp only [loadsScalar, unpackSigned, unpack_short 4 1 5 (by decide) rfl hs,
      Option.map_none]
  | i64 => simp only [loadsScalar, unpackSigned, unpack_short 8 1 9 (by decide) rfl hs,
      Option.map_none]
  | u8 => simp only [loadsScalar, unpack_short 1 1 2 (by decide) rfl hs, Option.map_none]
  | u16 => simp only [loadsScalar, unpack_short 2 1 3 (by decide) rfl hs, Option.map_none]
  | u32 => simp only [loadsScalar, unpack_short 4 1 5 (by decide) rfl hs, Option.map_none]
  | u64 => simp only [loadsScalar, unpack_short 8 1 9 (by decide) rfl hs, Option.map_none]
  | single => simp only [loadsScalar, unpackf, unpack_short 4 1 5 (by decide) rfl hs,
      Option.map_none]
  | double => simp only [loadsScalar, unpackd, unpack_short 8 1 9 (by decide) rfl hs,
      Option.map_none]
  | complexSingle =>
      -- the imaginary part is the last
      have himag : unpackf (slice s 5 9) = none := by
        rw [unpackf, unpack_short 4 5 9 (by decide) rfl hs, Option.map_none]
      rw [loadsScalar, himag]
      cases unpackf (slice s 1 5) <;> rfl
  | complexDouble =>
      have himag : unpackd (slice s 9 17) = none := by
        rw [unpackd, unpack_short 8 9 17 (by decide) rfl hs, Option.map_none]
      rw [loadsScalar, himag]
      cases unpackd (slice s 1 9) <;> rfl

/-- A number is there with all of its bytes or not at all. -/
theorem cuts_scalar {C : Type} {f : Value → C} {c : Option C} {type : Scalar} {s : Bytes}
    (hs : s.length = type.itemsize) :
    Cuts (loadsPrefix host) f ((Tag.scalar type).code :: s) c fun _ => False := by
  apply Cuts.never
  intro p q hdata hne
  obtain ⟨rfl, _⟩ | ⟨r, rfl, rfl⟩ := List.cons_eq_append_iff.mp hdata
  · exact loadsPrefix_nil
  · rw [loadsPrefix, Tag.ofCode_code]
    apply loadsScalar_short
    have hpos := List.length_pos_of_ne_nil hne
    rw [List.length_append] at hs
    rw [List.length_cons]
    omega

theorem cuts_tag {C : Type} {f : Value → C} {c : Option C} (tag : UInt8) :
    Cuts (loadsPrefix host) f [tag] c fun _ => False := by
  apply Cuts.never
  intro p q hdata hne
  obtain ⟨rfl, _⟩ | ⟨r, rfl, hr⟩ := List.cons_eq_append_iff.mp hdata
  · exact loadsPrefix_nil
  · exact absurd (List.append_eq_nil_iff.mp hr.symm).2 hne

/-- The data are a tag, or a number behind one. -/
def Atomic (data : Bytes) : Prop :=
  (∃ tag, data = [tag]) ∨
    ∃ (type : Scalar) (s : Bytes), data = (Tag.scalar type).code :: s ∧ s.length = type.itemsize

theorem cuts_atomic {C : Type} {f : Value → C} {c : Option C} {data : Bytes} (h : Atomic data) :
    Cuts (loadsPrefix host) f data c fun _ => False := by
  obtain ⟨tag, rfl⟩ | ⟨type, s, rfl, hs⟩ := h
  · exact cuts_tag tag
  · exact cuts_scalar hs

theorem atomic_none {data : Bytes} (h : dumps host .none = some data) : Atomic data := by
  rw [dumps] at h
  cases h
  exact .inl ⟨_, rfl⟩

theorem atomic_bool {b : Bool} {data : Bytes} (h : dumps host (.bool b) = some data) :
    Atomic data := by
  cases b <;>
  · rw [dumps] at h
    cases h
    exact .inl ⟨_, rfl⟩

theorem atomic_int {n : Int} {data : Bytes} (h : dumps host (.int n) = some data) : Atomic data := by
  rw [dumps] at h
  obtain ⟨s, hs, h⟩ := Option.bind_eq_some_iff.mp h
  cases h
  exact .inr ⟨.i64, s, rfl, length_packq hs⟩

theorem atomic_float {bits : UInt64} {data : Bytes} (h : dumps host (.float bits) = some data) :
    Atomic data := by
  rw [dumps] at h
  cases h
  exact .inr ⟨.double, _, rfl, length_packd bits⟩

theorem atomic_complex {real imag : UInt64} {data : Bytes}
    (h : dumps host (.complex real imag) = some data) : Atomic data := by
  rw [dumps] at h
  cases h
  refine .inr ⟨.complexDouble, _, rfl, ?_⟩
  rw [List.length_append, length_packd, length_packd]
  rfl

/-! ## Sizes -/

/-- The size is there with all of its bytes or not at all. -/
theorem loadsPrefix_sizeHeader {tag : Tag} (htag : tag = .string ∨ tag = .array ∨ tag = .assocarray)
    {n : Nat} {p q : Bytes} (hheader : sizeHeader tag n = p ++ q) (hne : q ≠ []) :
    loadsPrefix host p = none := by
  obtain ⟨rfl, _⟩ | ⟨r, rfl, hr⟩ := List.cons_eq_append_iff.mp hheader
  · exact loadsPrefix_nil
  · have hlength : (tag.code :: r).length < 5 := by
      have hpos := List.length_pos_of_ne_nil hne
      have hsize := congrArg List.length hr
      rw [BigEndian.length_encode, List.length_append] at hsize
      rw [List.length_cons]
      omega
    have hsiz : unpackUnsigned 4 (slice (tag.code :: r) 1 5) = none :=
      unpack_short 4 1 5 (by decide) rfl hlength
    rw [loadsPrefix, Tag.ofCode_code]
    obtain rfl | rfl | rfl := htag
    · simp only [loadsString, hsiz, Option.bind_eq_bind, Option.bind_none]
    · simp only [hsiz, Option.bind_eq_bind, Option.bind_none]
    · simp only [hsiz, Option.bind_eq_bind, Option.bind_none]

/-- As much of a string is decoded as there is. -/
theorem loadsPrefix_sized_string {n : Nat} (hn : n < 2 ^ 32) (s : Bytes) :
    loadsPrefix host (sized .string n s) =
      (utf8Decode (s.take n)).map fun x => (.str x, 5 + n) := by
  obtain ⟨hsiz, hbody⟩ := unpack_siz Tag.string.code hn s
  have hslice : slice (Tag.string.code :: (BigEndian.encode 4 n ++ s)) 5 (n + 5) = s.take n := by
    rw [slice, hbody, Nat.add_sub_cancel]
  rw [sized, loadsPrefix, Tag.ofCode_code]
  simp only [loadsString, hsiz, hslice, Option.bind_eq_bind, Option.bind_some]
  cases utf8Decode (s.take n) with
  | none => rfl
  | some x => exact congrArg (fun siz => some (Value.str x, siz)) (Nat.add_comm n 5)

/-! ## Text -/

/-- The characters that have been encoded. -/
theorem exists_chars {x : List CodePoint} {s : Bytes} (h : utf8Encode x = some s) :
    ∃ chars : List Char, x = chars.map codePoint ∧ chars.flatMap String.utf8EncodeChar = s := by
  obtain ⟨chars, hchars, rfl⟩ := Option.map_eq_some_iff.mp h
  refine ⟨chars, ?_, rfl⟩
  rw [mapM_eq_some_iff] at hchars
  clear h
  induction hchars with
  | nil => rfl
  | cons hc _ ih => rw [List.map_cons, codePoint_of_char? hc, ← ih]

theorem utf8Encode_append {front back : List CodePoint} {s q : Bytes}
    (h : utf8Encode (front ++ back) = some s) (hq : utf8Encode back = some q) :
    ∃ t, utf8Encode front = some t ∧ s = t ++ q := by
  obtain ⟨chars, hchars, rfl⟩ := exists_chars h
  obtain ⟨frontChars, backChars, rfl, rfl, rfl⟩ := List.map_eq_append_iff.mp hchars.symm
  rw [utf8Encode_codePoint] at hq
  cases hq
  exact ⟨_, utf8Encode_codePoint frontChars, List.flatMap_append⟩

/-- A text of which a part is encoded in the first bytes goes on with what is encoded in
the others. -/
theorem utf8Encode_cut {chars front : List CodePoint} {s q : Bytes}
    (h : utf8Encode chars = some (s ++ q)) (hfront : utf8Encode front = some s) :
    ∃ back, chars = front ++ back ∧ utf8Encode back = some q := by
  obtain ⟨all, rfl, hall⟩ := exists_chars h
  obtain ⟨part, rfl, rfl⟩ := exists_chars hfront
  have hbytes : part.utf8Encode ++ q.toByteArray = all.utf8Encode := by
    rw [List.utf8Encode, List.utf8Encode, hall, List.toByteArray_append]
  obtain ⟨back, rfl⟩ := List.isPrefix_of_utf8Encode_append_eq_utf8Encode q.toByteArray hbytes
  rw [List.flatMap_append] at hall
  refine ⟨back.map codePoint, List.map_append, ?_⟩
  rw [utf8Encode_codePoint, List.append_cancel_left hall]

/-! ## Arrays -/

theorem length_unpackIs {k : Nat} {s : Bytes} {shape : List Nat} (h : unpackIs k s = some shape) :
    s.length = 4 * k := by
  induction k generalizing s shape with
  | zero =>
      rw [unpackIs] at h
      split at h
      next hs => rw [hs]; rfl
      next => cases h
  | succ k ih =>
      obtain ⟨n, hn, h⟩ := Option.bind_eq_some_iff.mp h
      obtain ⟨shape', hrest, _⟩ := Option.bind_eq_some_iff.mp h
      have hdrop := ih hrest
      have htake : (s.take 4).length = 4 := by
        by_contra hne
        rw [unpackUnsigned, if_neg hne] at hn
        cases hn
      rw [List.length_drop] at hdrop
      rw [List.length_take] at htake
      omega

/-- The shape is there with all of its bytes or not at all. -/
theorem loadsMat_header {type : Scalar} {shape : List Nat} (hdim : shape.length ≤ maxdims)
    {dtype : Dtype} {p q : Bytes} (hheader : matHeader type shape = p ++ q) (hne : q ≠ []) :
    loadsMat host p dtype = none := by
  have hlength : p.length < 4 * shape.length + 2 := by
    have hpos := List.length_pos_of_ne_nil hne
    rw [← length_matHeader type shape, hheader, List.length_append]
    omega
  rw [loadsMat]
  cases hrank : p[1]? with
  | none => rfl
  | some rank =>
      have hrank' : (matHeader type shape)[1]? = some rank := by
        rw [hheader, List.getElem?_append_left (List.getElem?_eq_some_iff.mp hrank).1, hrank]
      obtain rfl : UInt8.ofNat shape.length = rank := Option.some.inj hrank'
      have hsmall : (UInt8.ofNat shape.length).toNat = shape.length := by
        rw [UInt8.toNat_ofNat', Nat.mod_eq_of_lt (lt_of_le_of_lt hdim (by decide))]
      have hunpack : unpackIs shape.length (slice p 2 (4 * shape.length + 2)) = none := by
        rw [Option.eq_none_iff_forall_ne_some]
        intro shape' hsome
        have hslice := length_unpackIs hsome
        rw [slice, List.length_take, List.length_drop] at hslice
        have hwithin := (List.getElem?_eq_some_iff.mp hrank).1
        omega
      simp only [hsmall, hunpack, Option.bind_eq_bind, Option.bind_some, Option.bind_none]

/-- The elements are there with all of their bytes or none is read. -/
theorem loadsMat_elements {type : Scalar} {shape : List Nat} (hdim : shape.length ≤ maxdims)
    (hshape : ∀ n ∈ shape, n < 2 ^ 32) (hsize : shape.prod * type.itemsize < 2 ^ 63) {s : Bytes}
    (hs : s.length < type.itemsize * shape.prod) :
    loadsMat host (matHeader type shape ++ s) type.dtype = none := by
  obtain ⟨rank, hget, hrank, hunpack⟩ := read_matHeader type hdim hshape s
  have hpos : 1 ≤ type.itemsize := by cases type <;> decide
  have hlt : shape.prod < 2 ^ 63 := lt_of_le_of_lt (Nat.le_mul_of_pos_right _ hpos) hsize
  have hcount : (shape.prod : Int).bmod (2 ^ 64) = (shape.prod : Int) :=
    Int.bmod_eq_of_le (by omega) (by omega)
  have hbuf : Ndarray.frombuffer (matHeader type shape ++ s) type.dtype shape.prod
      (4 * shape.length + 2) (squeezeShape shape) = none := by
    have hoffset : 4 * shape.length + 2 ≤ (matHeader type shape ++ s).length := by
      rw [List.length_append, length_matHeader]
      exact Nat.le_add_right _ _
    have hmissing : ¬ type.dtype.itemsize * (shape.prod : Int).toNat ≤
        (matHeader type shape ++ s).length - (4 * shape.length + 2) := by
      rw [Int.toNat_natCast, List.length_append, length_matHeader, Nat.add_sub_cancel_left]
      exact Nat.not_le.mpr hs
    unfold Ndarray.frombuffer
    simp only [hoffset, hmissing, Int.not_lt.mpr (Int.natCast_nonneg _), guard_true, Option.pure_def,
      Option.bind_eq_bind, Option.bind_some, Option.bind_none, if_false]
  simp only [loadsMat, hget, hrank, hunpack, hcount, hbuf, Option.bind_eq_bind, Option.bind_some,
    Option.bind_none]
  cases guard (f := Option) (shape ≠ []) <;> rfl

theorem cuts_ndarray {C : Type} {f : Value → C} {c : Option C} {x : Ndarray} {data : Bytes}
    (h : dumps host (.ndarray x) = some data) :
    Cuts (loadsPrefix host) f data c fun _ => False := by
  rw [dumps] at h
  obtain ⟨type, htype, hdims, rfl⟩ := dumpsNdarray_eq_some h
  have hitemsize := (Scalar.ofDtype_eq_some htype).2
  apply Cuts.never
  intro p q hdata hne
  obtain ⟨r, rfl, helements⟩ | ⟨r, hr, hheader, _⟩ := cut_cases hdata
  · rw [Value.loadsPrefix_mat]
    apply loadsMat_elements x.ndim_le hdims (hitemsize ▸ x.nbytes_lt)
    have hpos := List.length_pos_of_ne_nil hne
    have hlength := x.length_elements host
    rw [helements, List.length_append, hitemsize] at hlength
    omega
  · obtain ⟨rfl, _⟩ | ⟨p', rfl, _⟩ := List.cons_eq_append_iff.mp hheader
    · exact loadsPrefix_nil
    · rw [loadsPrefix, Tag.ofCode_code]
      exact loadsMat_header x.ndim_le hheader hr

end

namespace Value

/-! ## What can be missing -/

/-- The value has this text at its very end. -/
inductive EndsIn : Value → List CodePoint → Prop where
  | str (chars : List CodePoint) : EndsIn (str chars) chars
  | list {xs : List Value} {x : Value} {chars : List CodePoint} (last : xs.getLast? = some x)
      (ends : EndsIn x chars) : EndsIn (list xs) chars
  | tuple {xs : List Value} {x : Value} {chars : List CodePoint} (last : xs.getLast? = some x)
      (ends : EndsIn x chars) : EndsIn (tuple xs) chars
  | dict {items : List (Value × Value)} {item : Value × Value} {chars : List CodePoint}
      (last : items.getLast? = some item) (ends : EndsIn item.2 chars) : EndsIn (dict items) chars

/-- The bytes are those of whole characters at the very end of the value. -/
def Shortens (x : Value) (q : Bytes) : Prop :=
  ∃ front back, x.EndsIn (front ++ back) ∧ utf8Encode back = some q

theorem shortens_str_iff {chars : List CodePoint} {q : Bytes} :
    (str chars).Shortens q ↔ ∃ front back, chars = front ++ back ∧ utf8Encode back = some q := by
  constructor
  · rintro ⟨front, back, hends, hq⟩
    cases hends
    exact ⟨front, back, rfl, hq⟩
  · rintro ⟨front, back, rfl, hq⟩
    exact ⟨front, back, .str _, hq⟩

theorem endsIn_list_iff {xs : List Value} {chars : List CodePoint} :
    (list xs).EndsIn chars ↔ ∃ x, xs.getLast? = some x ∧ x.EndsIn chars := by
  constructor
  · intro h
    cases h with
    | list last ends => exact ⟨_, last, ends⟩
  · rintro ⟨x, last, ends⟩
    exact .list last ends

theorem endsIn_tuple_iff {xs : List Value} {chars : List CodePoint} :
    (tuple xs).EndsIn chars ↔ (list xs).EndsIn chars := by
  rw [endsIn_list_iff]
  constructor
  · intro h
    cases h with
    | tuple last ends => exact ⟨_, last, ends⟩
  · rintro ⟨x, last, ends⟩
    exact .tuple last ends

theorem endsIn_dict_iff {items : List (Value × Value)} {chars : List CodePoint} :
    (dict items).EndsIn chars ↔ ∃ item, items.getLast? = some item ∧ item.2.EndsIn chars := by
  constructor
  · intro h
    cases h with
    | dict last ends => exact ⟨_, last, ends⟩
  · rintro ⟨item, last, ends⟩
    exact .dict last ends

theorem shortens_list_iff {xs : List Value} {q : Bytes} :
    (list xs).Shortens q ↔ ∃ x, xs.getLast? = some x ∧ x.Shortens q := by
  simp only [Shortens, endsIn_list_iff]
  constructor
  · rintro ⟨front, back, ⟨x, last, ends⟩, hq⟩
    exact ⟨x, last, front, back, ends, hq⟩
  · rintro ⟨x, last, front, back, ends, hq⟩
    exact ⟨front, back, ⟨x, last, ends⟩, hq⟩

theorem shortens_tuple_iff {xs : List Value} {q : Bytes} :
    (tuple xs).Shortens q ↔ (list xs).Shortens q := by
  simp only [Shortens, endsIn_tuple_iff]

theorem shortens_dict_iff {items : List (Value × Value)} {q : Bytes} :
    (dict items).Shortens q ↔ ∃ item, items.getLast? = some item ∧ item.2.Shortens q := by
  simp only [Shortens, endsIn_dict_iff]
  constructor
  · rintro ⟨front, back, ⟨item, last, ends⟩, hq⟩
    exact ⟨item, last, front, back, ends, hq⟩
  · rintro ⟨item, last, front, back, ends, hq⟩
    exact ⟨front, back, ⟨item, last, ends⟩, hq⟩

/-- A list of integers does not end in a text. -/
theorem not_endsIn_integers {b : Bytes} {chars : List CodePoint} :
    ¬ (list (integers b)).EndsIn chars := by
  rw [endsIn_list_iff]
  rintro ⟨x, last, ends⟩
  obtain ⟨byte, _, rfl⟩ := List.mem_map.mp (List.mem_of_getLast? last)
  cases ends

/-- An encoding without its end is decoded as if it was whole if only characters at the very
end are missing, and else an exception is raised. -/
abbrev Truncates (host : Endian) (x : Value) : Prop :=
  ∀ data, dumps host x = some data → Cuts (loadsPrefix host) hashable data x.decoded x.Shortens

variable (host : Endian)

theorem truncates_of_never {x : Value} (hends : ∀ chars, ¬ x.EndsIn chars)
    (h : ∀ data, dumps host x = some data →
      Cuts (loadsPrefix host) hashable data x.decoded fun _ => False) : x.Truncates host := by
  intro data hdata
  apply (h data hdata).congr
  intro q
  refine iff_of_false ?_ id
  rintro ⟨front, back, hends', _⟩
  exact hends _ hends'

theorem truncates_int (n : Int) : (int n).Truncates host :=
  truncates_of_never host (fun _ hends => by cases hends) fun _ hdata => cuts_atomic (atomic_int hdata)

theorem truncates_str (chars : List CodePoint) : (str chars).Truncates host := by
  intro data hdata
  rw [dumps] at hdata
  obtain ⟨s, hs, hlt, rfl⟩ := dumpsStr_eq_some hdata
  have hread : ∀ t, loadsPrefix host (sizeHeader .string s.length ++ t) =
      ((utf8Decode (t.take s.length)).map fun x => (x, s.length)).bind fun r =>
        (some (str r.1)).map fun x => (x, (sizeHeader .string s.length).length + r.2) := by
    intro t
    rw [length_sizeHeader, sizeHeader_append, loadsPrefix_sized_string hlt]
    cases utf8Decode (t.take s.length) <;> rfl
  have hcuts : Cuts (fun t : Bytes => (utf8Decode (t.take s.length)).map fun x => (x, s.length))
      (fun _ => true) s (some true) (str chars).Shortens := by
    refine ⟨fun q hq => ?_, fun p q hp hq => ?_, fun p q hp hne hq => ?_⟩
    · obtain ⟨front, back, rfl, hback⟩ := shortens_str_iff.mp hq
      obtain ⟨t, _, rfl⟩ := utf8Encode_append hs hback
      rw [List.length_append]
      exact Nat.le_add_left _ _
    · obtain ⟨front, back, rfl, hback⟩ := shortens_str_iff.mp hq
      obtain ⟨t, ht, rfl⟩ := utf8Encode_append hs hback
      obtain rfl := List.append_cancel_right hp
      rw [List.take_of_length_le (by rw [List.length_append]; exact Nat.le_add_right _ _),
        utf8Decode_utf8Encode ht]
      rfl
    · subst hp
      rw [List.take_of_length_le (by rw [List.length_append]; exact Nat.le_add_right _ _),
        Option.map_eq_none_iff, Option.eq_none_iff_forall_ne_some]
      intro front hfront
      obtain ⟨back, rfl, hback⟩ := utf8Encode_cut hs (utf8Encode_utf8Decode hfront)
      exact hq (shortens_str_iff.mpr ⟨front, back, rfl, hback⟩)
  rw [decoded_of_decodable (.str chars)]
  exact hcuts.framed (fun x => some (str x)) (fun _ => some true) hread (fun _ => rfl)
    fun p q => loadsPrefix_sizeHeader (.inl rfl)

/-! ### Containers -/

theorem truncates_list {xs : List Value} (hxs : ∀ x ∈ xs, x.Truncates host) :
    (list xs).Truncates host := by
  intro data hdata
  obtain ⟨parts, hparts, hlt, rfl⟩ := dumps_list_eq_some hdata
  have hall : List.Forall₂ (fun x part => Delimits (loadsPrefix host) hashable part x.decoded ∧
      Cuts (loadsPrefix host) hashable part x.decoded x.Shortens) xs parts := by
    clear hdata hlt
    induction hparts with
    | nil => exact .nil
    | cons hhead _ ih =>
        rw [List.forall_mem_cons] at hxs
        exact .cons ⟨reads host _ _ hhead, hxs.1 _ hhead⟩ (ih hxs.2)
  have hframed : Cuts (loadsPrefix host) hashable _ _ _ :=
    (Cuts.many loadsPrefix_nil hall).framed (fun ys => some (list ys)) (fun _ => some false)
      (loadsPrefix_framed_list hlt) (fun _ => rfl)
      fun p q => loadsPrefix_sizeHeader (.inr (.inl rfl))
  rw [decoded_list]
  exact hframed.congr fun q => shortens_list_iff

theorem truncates_dict {items : List (Value × Value)}
    (hitems : ∀ item ∈ items, item.1.Truncates host ∧ item.2.Truncates host) :
    (dict items).Truncates host := by
  intro data hdata
  obtain ⟨parts, hparts, hlt, rfl⟩ := dumps_dict_eq_some hdata
  have hall : List.Forall₂ (fun item part =>
      Delimits (pair (loadsPrefix host)) (Prod.map hashable hashable) part (decodedItem item) ∧
        Cuts (pair (loadsPrefix host)) (Prod.map hashable hashable) part (decodedItem item)
          item.2.Shortens) items parts := by
    clear hdata hlt
    induction hparts with
    | nil => exact .nil
    | cons hhead _ ih =>
        rw [List.forall_mem_cons] at hitems
        obtain ⟨key, val, hkey, hval, rfl⟩ := hhead
        have hread := reads host _ key hkey
        exact .cons ⟨hread.pair (reads host _ val hval),
          .pair hread (hitems.1.1 key hkey).exhausts (hitems.1.2 val hval) loadsPrefix_nil⟩ (ih hitems.2)
  have hframed : Cuts (loadsPrefix host) hashable _ _ _ :=
    (Cuts.many (pair_nil loadsPrefix_nil) hall).framed
      (fun ret => (ret.foldlM (fun ret item => setitem ret item.1 item.2) []).map dict) keyed
      (loadsPrefix_framed_dict hlt) keyed_setitem
      fun p q => loadsPrefix_sizeHeader (.inr (.inr rfl))
  rw [decoded_dict]
  exact hframed.congr fun q => shortens_dict_iff

/-- Every encoding that is cut short is refused, unless the cut is between two characters of
a text at its very end. -/
theorem truncates (x : Value) : x.Truncates host := by
  induction x using Value.nested with
  | none =>
      exact truncates_of_never host (fun _ hends => by cases hends) fun _ hdata =>
        cuts_atomic (atomic_none hdata)
  | bool b =>
      exact truncates_of_never host (fun _ hends => by cases hends) fun _ hdata =>
        cuts_atomic (atomic_bool hdata)
  | int n => exact truncates_int host n
  | float bits =>
      exact truncates_of_never host (fun _ hends => by cases hends) fun _ hdata =>
        cuts_atomic (atomic_float hdata)
  | complex real imag =>
      exact truncates_of_never host (fun _ hends => by cases hends) fun _ hdata =>
        cuts_atomic (atomic_complex hdata)
  | str chars => exact truncates_str host chars
  | bytes b =>
      -- a list that ends in an integer
      have hlist : (list (integers b)).Truncates host := by
        apply truncates_list
        intro x hx
        obtain ⟨byte, _, rfl⟩ := List.mem_map.mp hx
        exact truncates_int host _
      have hdecodable : (list (integers b)).Decodable := by
        apply Decodable.list
        intro x hx
        obtain ⟨byte, _, rfl⟩ := List.mem_map.mp hx
        exact .int _
      intro data hdata
      rw [dumps_bytes] at hdata
      have hcuts := hlist data hdata
      rw [decoded_of_decodable hdecodable] at hcuts
      rw [decoded_of_decodable (.bytes b)]
      apply hcuts.congr
      intro q
      refine iff_of_false ?_ ?_
      · rintro ⟨front, back, hends, _⟩
        cases hends
      · rintro ⟨front, back, hends, _⟩
        exact not_endsIn_integers hends
  | list xs ih => exact truncates_list host ih
  | tuple xs ih =>
      intro data hdata
      rw [dumps_tuple] at hdata
      rw [decoded_tuple]
      exact (truncates_list host ih data hdata).congr fun q => shortens_tuple_iff
  | dict items ih => exact truncates_dict host ih
  | ndarray x =>
      exact truncates_of_never host (fun _ hends => by cases hends) fun _ hdata => cuts_ndarray hdata
  | other =>
      intro data hdata
      rw [dumps] at hdata
      cases hdata

/-! ### Other machines -/

/-- Whether an array is read does not depend on the byte order of the machine. -/
theorem observe_loadsMat (host host' : Endian) (s : Bytes) (dtype : Dtype) :
    observe hashable (loadsMat host s dtype) = observe hashable (loadsMat host' s dtype) := by
  unfold loadsMat
  cases s[1]? with
  | none => rfl
  | some rank =>
      simp only [Option.bind_eq_bind, Option.bind_some]
      cases unpackIs rank.toNat (slice s 2 (4 * rank.toNat + 2)) with
      | none => rfl
      | some shape =>
          simp only [Option.bind_some]
          cases guard (f := Option) (shape ≠ []) with
          | none => rfl
          | some _ =>
              simp only [Option.bind_some]
              cases Ndarray.frombuffer s dtype ((shape.prod : Int).bmod (2 ^ 64)) (4 * rank.toNat + 2)
                (squeezeShape shape) <;> rfl

theorem observe_loadsPrefix (host host' : Endian) (s : Bytes) :
    observe hashable (loadsPrefix host s) = observe hashable (loadsPrefix host' s) := by
  induction hlength : s.length using Nat.strong_induction_on generalizing s with
  | _ n ih =>
      subst hlength
      cases s with
      | nil => rw [loadsPrefix_nil, loadsPrefix_nil]
      | cons tag s =>
          -- what is behind a size is shorter
          have hrest : ∀ t : Bytes, t.length ≤ ((tag :: s).drop 5).length →
              observe hashable (loadsPrefix host t) = observe hashable (loadsPrefix host' t) := by
            intro t ht
            rw [List.length_drop, List.length_cons] at ht
            exact ih t.length (by rw [List.length_cons]; omega) t rfl
          rw [loadsPrefix, loadsPrefix]
          cases Tag.ofCode tag with
          | none => rfl
          | some tag' =>
              cases tag' with
              | mat type => exact observe_loadsMat host host' _ _
              | array =>
                  dsimp only
                  cases unpackUnsigned 4 (slice (tag :: s) 1 5) with
                  | none => rfl
                  | some siz =>
                      simp only [Option.bind_eq_bind, Option.bind_some, loadsElements_eq]
                      obtain ⟨hnone, hnone'⟩ | ⟨ret, ret', i, hret, hret', _⟩ :=
                        observe_cases (many_congr hrest siz)
                      · rw [hnone, hnone']
                      · rw [hret, hret']
                        rfl
              | assocarray =>
                  dsimp only
                  cases unpackUnsigned 4 (slice (tag :: s) 1 5) with
                  | none => rfl
                  | some siz =>
                      simp only [Option.bind_eq_bind, Option.bind_some, loadsKeyvalpairs_eq]
                      have hpairs := many_congr (fun t ht => pair_congr fun u hu =>
                        hrest u (le_trans hu ht)) siz
                      obtain ⟨hnone, hnone'⟩ | ⟨ret, ret', i, hret, hret', hkeys⟩ :=
                        observe_cases hpairs
                      · rw [hnone, hnone']
                      · have hset := (foldlM_setitem_eq hkeys).trans (foldlM_setitem_eq rfl).symm
                        rw [hret, hret']
                        simp only [Option.bind_some]
                        cases hfold : ret.foldlM (fun ret item => setitem ret item.1 item.2) [] <;>
                        cases hfold' : ret'.foldlM (fun ret item => setitem ret item.1 item.2) [] <;>
                        simp_all [observe, hashable]
              | _ => rfl

/-- An encoding without its end is refused on every machine, or on none. -/
theorem loads_cut_eq_none_iff {host host' : Endian} {x : Value} {p q : Bytes}
    (hdata : dumps host x = some (p ++ q)) (hne : q ≠ []) :
    loads host' p = Option.none ↔ ¬ (x.Decodable ∧ x.Shortens q) := by
  have hcut := (truncates host x (p ++ q) hdata).eq_none_iff rfl hne
  rw [decoded_ne_none] at hcut
  rw [loads, Option.map_eq_none_iff, ← hcut]
  obtain ⟨hnone, hnone'⟩ | ⟨y, y', n, hy, hy', _⟩ :=
    observe_cases (observe_loadsPrefix host host' p)
  · exact iff_of_true hnone' hnone
  · rw [hy, hy']
    exact iff_of_false (Option.some_ne_none _) (Option.some_ne_none _)

end Value

end Dime.Python
