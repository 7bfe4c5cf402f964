import Dime.Clients.JavaScript.Truncated

/-!
# Truncated data from Python

What `dimebloads` makes of an encoding that Python has written and of the beginning of one,
and which beginnings are refused in both languages.
-/

namespace Dime

open Delimited Strided
open Python (Endian Scalar Tag sized sizeHeader)

namespace JavaScript

section

variable {host : Endian} {toKey : PropertyKey}

/-! ## Sizes -/

/-- The size is there with all of its bytes or not at all. -/
theorem loads_sizeHeader {tag : Tag} (htag : tag = .string ∨ tag = .array ∨ tag = .assocarray)
    {n : Nat} {p q : Bytes} (hheader : sizeHeader tag n = p ++ q) (hne : q ≠ []) :
    loads host toKey p = none := by
  obtain ⟨rfl, _⟩ | ⟨r, rfl, hr⟩ := List.cons_eq_append_iff.mp hheader
  · exact loads_nil
  · have hsize : getUint 4 (code tag :: r) 1 = none := by
      apply getUint_short
      have hpos := List.length_pos_of_ne_nil hne
      have hlength := congrArg List.length hr
      rw [BigEndian.length_encode, List.length_append] at hlength
      rw [List.length_cons]
      omega
    rw [← code_eq, loads, tag?_code]
    obtain rfl | rfl | rfl := htag
    · simp only [hsize, Option.bind_eq_bind, Option.bind_none]
    · simp only [hsize, Option.bind_eq_bind, Option.bind_none]
    · simp only [hsize, Option.bind_eq_bind, Option.bind_none]

variable {n : Nat} (hn : n < 2 ^ 32) (s : Bytes)

include hn

theorem loads_sized_string : loads host toKey (sized .string n s) =
    some (.string (decodeText (s.take n)), 5 + n) := by
  rw [sized, ← code_eq, loads, tag?_code]
  simp only [getUint_header _ hn, drop_header, Option.bind_eq_bind, Option.bind_some, Nat.add_comm n]

theorem loads_sized_array : loads host toKey (sized .array n s) =
    (many (loads host toKey) n s).bind fun r =>
      (some (Value.array r.1)).map fun v => (v, 5 + r.2) := by
  rw [sized, ← code_eq, loads_array hn]

theorem loads_sized_assocarray : loads host toKey (sized .assocarray n s) =
    (many (pair (loads host toKey)) n s).bind fun r =>
      ((r.1.foldlM (assign toKey) []).map Value.object).map fun v => (v, 5 + r.2) := by
  rw [sized, ← code_eq, loads_assocarray hn]

end

end JavaScript

namespace Python.Value

/-! ## Values from Python -/

/-- A value can be a key: a sequence is one only if all of its elements are. -/
inductive Hashable : Value → Prop where
  | none : Hashable none
  | bool (b : Bool) : Hashable (bool b)
  | int (n : Int) : Hashable (int n)
  | float (bits : UInt64) : Hashable (float bits)
  | complex (real imag : UInt64) : Hashable (complex real imag)
  | str (chars : List CodePoint) : Hashable (str chars)
  | bytes (b : Bytes) : Hashable (bytes b)
  | tuple {xs : List Value} (elements : ∀ x ∈ xs, Hashable x) : Hashable (tuple xs)
  | other : Hashable other

/-- The keys in a value are hashable, as those of every `dict` are. -/
inductive Keyed : Value → Prop where
  | none : Keyed none
  | bool (b : Bool) : Keyed (bool b)
  | int (n : Int) : Keyed (int n)
  | float (bits : UInt64) : Keyed (float bits)
  | complex (real imag : UInt64) : Keyed (complex real imag)
  | str (chars : List CodePoint) : Keyed (str chars)
  | bytes (b : Bytes) : Keyed (bytes b)
  | list {xs : List Value} (elements : ∀ x ∈ xs, Keyed x) : Keyed (list xs)
  | tuple {xs : List Value} (elements : ∀ x ∈ xs, Keyed x) : Keyed (tuple xs)
  | dict {items : List (Value × Value)} (keys : ∀ item ∈ items, Hashable item.1)
      (values : ∀ item ∈ items, Keyed item.2) : Keyed (dict items)
  | ndarray (x : Ndarray) : Keyed (ndarray x)
  | other : Keyed other

/-- JavaScript decodes the value: no array in it is without axes, or consists of 64-bit
unsigned integers that are all safe. -/
inductive Accepted (host : Endian) : Value → Prop where
  | none : Accepted host none
  | bool (b : Bool) : Accepted host (bool b)
  | int (n : Int) : Accepted host (int n)
  | float (bits : UInt64) : Accepted host (float bits)
  | complex (real imag : UInt64) : Accepted host (complex real imag)
  | str (chars : List CodePoint) : Accepted host (str chars)
  | bytes (b : Bytes) : Accepted host (bytes b)
  | list {xs : List Value} (elements : ∀ x ∈ xs, Accepted host x) : Accepted host (list xs)
  | tuple {xs : List Value} (elements : ∀ x ∈ xs, Accepted host x) : Accepted host (tuple xs)
  | dict {items : List (Value × Value)} (values : ∀ item ∈ items, Accepted host item.2) :
      Accepted host (dict items)
  | ndarray {x : Ndarray} (axes : x.shape ≠ [])
      (large : Scalar.ofDtype x.dtype = some .u64 →
        ∃ idx, InShape x.shape idx ∧ 2 ^ 53 ≤ BigEndian.decode (x.element host idx)) :
      Accepted host (ndarray x)

/-- The bytes are the end of a text at the very end of the value. -/
def Clips (x : Value) (q : Bytes) : Prop :=
  ∃ chars payload, x.EndsIn chars ∧ utf8Encode chars = some payload ∧ q.length ≤ payload.length

theorem clips_list_iff {xs : List Value} {q : Bytes} :
    (list xs).Clips q ↔ ∃ x, xs.getLast? = some x ∧ x.Clips q := by
  simp only [Clips, endsIn_list_iff]
  constructor
  · rintro ⟨chars, payload, ⟨x, last, ends⟩, hq⟩
    exact ⟨x, last, chars, payload, ends, hq⟩
  · rintro ⟨x, last, chars, payload, ends, hq⟩
    exact ⟨chars, payload, ⟨x, last, ends⟩, hq⟩

theorem clips_tuple_iff {xs : List Value} {q : Bytes} : (tuple xs).Clips q ↔ (list xs).Clips q := by
  simp only [Clips, endsIn_tuple_iff]

theorem clips_dict_iff {items : List (Value × Value)} {q : Bytes} :
    (dict items).Clips q ↔ ∃ item, items.getLast? = some item ∧ item.2.Clips q := by
  simp only [Clips, endsIn_dict_iff]
  constructor
  · rintro ⟨chars, payload, ⟨item, last, ends⟩, hq⟩
    exact ⟨item, last, chars, payload, ends, hq⟩
  · rintro ⟨item, last, chars, payload, ends, hq⟩
    exact ⟨chars, payload, ⟨item, last, ends⟩, hq⟩

theorem accepted_list_iff {host : Endian} {xs : List Value} :
    (list xs).Accepted host ↔ ∀ x ∈ xs, x.Accepted host := by
  constructor
  · intro h
    cases h with
    | list elements => exact elements
  · exact .list

theorem accepted_tuple_iff {host : Endian} {xs : List Value} :
    (tuple xs).Accepted host ↔ (list xs).Accepted host := by
  rw [accepted_list_iff]
  constructor
  · intro h
    cases h with
    | tuple elements => exact elements
  · exact .tuple

theorem accepted_ndarray_iff {host : Endian} {x : Ndarray} :
    (ndarray x).Accepted host ↔ x.shape ≠ [] ∧ (Scalar.ofDtype x.dtype = some .u64 →
      ∃ idx, InShape x.shape idx ∧ 2 ^ 53 ≤ BigEndian.decode (x.element host idx)) := by
  constructor
  · intro h
    cases h with
    | ndarray axes large => exact ⟨axes, large⟩
  · exact fun h => .ndarray h.1 h.2

theorem accepted_dict_iff {host : Endian} {items : List (Value × Value)} :
    (dict items).Accepted host ↔ ∀ item ∈ items, item.2.Accepted host := by
  constructor
  · intro h
    cases h with
    | dict values => exact values
  · exact .dict

end Python.Value

namespace JavaScript

open Python.Dimeb (dumps)

/-! ## Reading -/

open Classical in
/-- Whether JavaScript decodes a value from Python. -/
noncomputable def admitted (host : Endian) (x : Python.Value) : Option Unit :=
  if x.Accepted host then some () else none

theorem admitted_of_accepted {host : Endian} {x : Python.Value} (h : x.Accepted host) :
    admitted host x = some () := if_pos h

theorem admitted_of_not {host : Endian} {x : Python.Value} (h : ¬ x.Accepted host) :
    admitted host x = none := if_neg h

theorem admitted_ne_none {host : Endian} {x : Python.Value} :
    admitted host x ≠ none ↔ x.Accepted host := by
  by_cases h : x.Accepted host
  · rw [admitted_of_accepted h]
    exact iff_of_true (Option.some_ne_none _) h
  · rw [admitted_of_not h]
    exact iff_of_false (fun hne => hne rfl) h

/-- Nothing is looked at of a value that is read. -/
def ignore (_ : Value) : Unit := ()

/-- What is written for a value is read whole if it is accepted, whatever follows, and
without its end only if a text ends there. -/
abbrev Truncates (host host' : Endian) (toKey : PropertyKey) (x : Python.Value) : Prop :=
  ∀ data, dumps host x = some data →
    Delimits (loads host' toKey) ignore data (admitted host x) ∧
      Cuts (loads host' toKey) ignore data (admitted host x) x.Clips

section

variable {host host' : Endian} {toKey : PropertyKey}

/-! ### Values without parts -/

/-- A value that is converted to a property key without an exception. -/
inductive Simple : Value → Prop where
  | null : Simple .null
  | boolean (b : Bool) : Simple (.boolean b)
  | number (bits : UInt64) : Simple (.number bits)
  | bigint (n : Int) : Simple (.bigint n)
  | string (s : Units) : Simple (.string s)
  | complex (real imag : UInt64) : Simple (.complex (.number real) (.number imag))
  | array {xs : List Value} (elements : ∀ x ∈ xs, Simple x) : Simple (.array xs)

/-- What is written for a value is read as a simple one, whatever follows. -/
def ReadsSimple (host host' : Endian) (toKey : PropertyKey) (x : Python.Value) : Prop :=
  ∀ data, dumps host x = some data →
    ∃ v, Simple v ∧ ∀ rest, loads host' toKey (data ++ rest) = some (v, data.length)

theorem readsSimple_none : ReadsSimple host host' toKey .none := by
  intro data hdata
  rw [dumps] at hdata
  cases hdata
  refine ⟨.null, .null, fun rest => ?_⟩
  rw [List.singleton_append, ← code_eq, loads, tag?_code]
  rfl

theorem readsSimple_bool (b : Bool) : ReadsSimple host host' toKey (.bool b) := by
  intro data hdata
  refine ⟨.boolean b, .boolean b, fun rest => ?_⟩
  cases b <;>
  · rw [dumps] at hdata
    cases hdata
    rw [List.singleton_append, ← code_eq, loads, tag?_code]
    rfl

theorem readsSimple_int (n : Int) : ReadsSimple host host' toKey (.int n) := by
  intro data hdata
  rw [dumps] at hdata
  obtain ⟨s, hs, hdata⟩ := Option.bind_eq_some_iff.mp hdata
  cases hdata
  have hsimple : ∀ n, Simple (toSafe (.bigint n)) := by
    intro n
    unfold toSafe
    dsimp only
    split
    · exact .number _
    · exact .bigint n
  obtain ⟨_, hs⟩ := Option.ite_none_right_eq_some.mp hs
  cases hs
  refine ⟨_, hsimple (n.bmod (2 ^ 64)), fun rest => ?_⟩
  rw [List.cons_append, ← code_eq, loads_i64, List.length_cons, BigEndian.length_encode]

theorem readsSimple_float (bits : UInt64) : ReadsSimple host host' toKey (.float bits) := by
  intro data hdata
  rw [dumps] at hdata
  cases hdata
  refine ⟨_, .number bits, fun rest => ?_⟩
  rw [Python.packd, List.cons_append, ← code_eq, loads_double, List.length_cons,
    BigEndian.length_encode]

theorem readsSimple_complex (real imag : UInt64) :
    ReadsSimple host host' toKey (.complex real imag) := by
  intro data hdata
  rw [dumps] at hdata
  cases hdata
  refine ⟨_, .complex real imag, fun rest => ?_⟩
  rw [Python.packd, Python.packd, List.cons_append, List.append_assoc, ← code_eq, loads_complexDouble,
    List.length_cons, List.length_append, BigEndian.length_encode, BigEndian.length_encode]

theorem readsSimple_str (chars : List Python.CodePoint) :
    ReadsSimple host host' toKey (.str chars) := by
  intro data hdata
  rw [dumps] at hdata
  obtain ⟨s, _, hlt, rfl⟩ := Python.Value.dumpsStr_eq_some hdata
  refine ⟨_, .string (decodeText s), fun rest => ?_⟩
  have hread : loads host' toKey (sized .string s.length (s ++ rest)) = _ :=
    loads_sized_string hlt (s ++ rest)
  rw [List.take_left, sized] at hread
  rw [List.cons_append, List.append_assoc, hread, length_tagged]

theorem readsSimple_list {xs : List Python.Value} (hxs : ∀ x ∈ xs, ReadsSimple host host' toKey x) :
    ReadsSimple host host' toKey (.list xs) := by
  intro data hdata
  obtain ⟨parts, hparts, hlt, rfl⟩ := Python.dumps_list_eq_some hdata
  have hread : ∃ vs : List Value, (∀ v ∈ vs, Simple v) ∧
      List.Forall₂ (Delimits (loads host' toKey) id) parts (vs.map some) := by
    clear hdata hlt
    induction hparts with
    | nil => exact ⟨[], List.forall_mem_nil _, .nil⟩
    | @cons x part _ _ hhead _ ih =>
        rw [List.forall_mem_cons] at hxs
        obtain ⟨v, hv, hloads⟩ := hxs.1 part hhead
        obtain ⟨vs, hvs, hall⟩ := ih hxs.2
        exact ⟨v :: vs, List.forall_mem_cons.mpr ⟨hv, hvs⟩,
          .cons (Delimits.intro fun rest => ⟨v, hloads rest, rfl⟩) hall⟩
  obtain ⟨vs, hvs, hall⟩ := hread
  have hmany := many_flatten hall
  rw [mapM_map_some, List.map_id_fun, ← hparts.length_eq] at hmany
  refine ⟨.array vs, .array hvs, fun rest => ?_⟩
  obtain ⟨items, hitems, rfl⟩ := hmany.eq_some rest
  rw [Python.sized_append, loads_sized_array hlt, hitems, Python.length_sized]
  rfl

theorem readsSimple_of_hashable {x : Python.Value} (hx : x.Hashable) :
    ReadsSimple host host' toKey x := by
  induction hx with
  | none => exact readsSimple_none
  | bool b => exact readsSimple_bool b
  | int n => exact readsSimple_int n
  | float bits => exact readsSimple_float bits
  | complex real imag => exact readsSimple_complex real imag
  | str chars => exact readsSimple_str chars
  | bytes b =>
      intro data hdata
      rw [Python.dumps_bytes] at hdata
      apply readsSimple_list _ data hdata
      intro x hx
      obtain ⟨byte, _, rfl⟩ := List.mem_map.mp hx
      exact readsSimple_int _
  | tuple _ ih =>
      intro data hdata
      rw [Python.dumps_tuple] at hdata
      exact readsSimple_list ih data hdata
  | other =>
      intro data hdata
      rw [dumps] at hdata
      cases hdata

/-! ### Text -/

theorem truncates_str (chars : List Python.CodePoint) :
    Truncates host host' toKey (.str chars) := by
  intro data hdata
  obtain ⟨s, hs, hlt, rfl⟩ := Python.Value.dumpsStr_eq_some (by rwa [dumps] at hdata)
  have hclips : ∀ q, (Python.Value.str chars).Clips q ↔ q.length ≤ s.length := by
    intro q
    constructor
    · rintro ⟨_, payload, hends, hpayload, hq⟩
      cases hends
      cases hs.symm.trans hpayload
      exact hq
    · exact fun hq => ⟨chars, s, .str chars, hs, hq⟩
  have hread : ∀ t, loads host' toKey (sizeHeader .string s.length ++ t) =
      (some (t.take s.length, s.length)).bind fun r => (some (Value.string (decodeText r.1))).map
        fun v => (v, (sizeHeader .string s.length).length + r.2) := by
    intro t
    rw [Python.sizeHeader_append, loads_sized_string hlt, Python.length_sizeHeader]
    rfl
  rw [admitted_of_accepted (.str chars)]
  constructor
  · have hinner : Delimits (fun t : Bytes => some (t.take s.length, s.length)) (fun _ => ()) s
        (some ()) := fun rest => rfl
    exact hinner.framed (fun t => some (Value.string (decodeText t))) (fun _ => some ()) hread
      fun _ => rfl
  · -- any part of the text is decoded
    have hinner : Cuts (fun t : Bytes => some (t.take s.length, s.length)) (fun _ => ()) s
        (some ()) (Python.Value.str chars).Clips :=
      ⟨fun q hq => (hclips q).mp hq, fun p q _ _ => rfl, fun p q hp _ hq => by
        refine absurd ((hclips q).mpr ?_) hq
        rw [hp, List.length_append]
        exact Nat.le_add_left _ _⟩
    exact hinner.framed (fun t => some (Value.string (decodeText t))) (fun _ => some ()) hread
      (fun _ => rfl) fun p q => loads_sizeHeader (.inl rfl)

/-! ### Arrays -/

theorem cuts_ndarray {x : Python.Ndarray} {data : Bytes} {c : Option Unit}
    (h : dumps host (.ndarray x) = some data) :
    Cuts (loads host' toKey) ignore data c fun _ => False := by
  rw [dumps] at h
  obtain ⟨type, htype, hdims, rfl⟩ := Python.dumpsNdarray_eq_some h
  have hsmall : x.shape.length < 256 := Nat.lt_of_le_of_lt x.ndim_le (by decide)
  have hlength : (x.elements host).length = _ := length_elements htype
  apply Cuts.never
  intro p q hdata hne
  obtain ⟨r, rfl, helements⟩ | ⟨r, hr, hheader, _⟩ := cut_cases hdata
  · have hnone : loadsMatrix host' (Python.matHeader type x.shape ++ r) type = none := by
      apply loadsMatrix_eq_none
      apply loadsmat_elements host' hsmall hdims
      have hpos := List.length_pos_of_ne_nil hne
      rw [helements, List.length_append] at hlength
      omega
    rw [loads_mat, hnone]
    rfl
  · obtain ⟨rfl, _⟩ | ⟨p', rfl, _⟩ := List.cons_eq_append_iff.mp hheader
    · exact loads_nil
    · have hnone := loadsMatrix_eq_none (loadsmat_header host' hsmall hheader hr (elementType type)
        (decide (type.kind = .c)))
      rw [← code_eq] at hnone ⊢
      rw [loads, tag?_code]
      simp only [hnone, Option.bind_eq_bind, Option.bind_none]

/-- An array without axes has no product of its dimensions. -/
theorem loadsmat_scalar (type : Scalar) (s : Bytes) (element : ElementType) (complex : Bool) :
    loadsmat host (Python.matHeader type [] ++ s) element complex = none := by
  have hrank : getUint 1 (Python.matHeader type [] ++ s) 1 = some 0 :=
    @getUint_rank [] (by decide) _ _
  simp [loadsmat, hrank]

theorem delimits_ndarray {x : Python.Ndarray} {data : Bytes}
    (h : dumps host (.ndarray x) = some data) :
    Delimits (loads host' toKey) ignore data (admitted host (.ndarray x)) := by
  have hdata := h
  rw [dumps] at h
  obtain ⟨type, htype, hdims, rfl⟩ := Python.dumpsNdarray_eq_some h
  intro rest
  rw [List.append_assoc, loads_mat]
  by_cases haxes : x.shape = []
  · have hnone : loadsMatrix host' (Python.matHeader type x.shape ++ (x.elements host ++ rest)) type =
        none := by
      apply loadsMatrix_eq_none
      rw [haxes]
      exact loadsmat_scalar _ _ _ _
    rw [hnone, admitted_of_not fun h => (Python.Value.accepted_ndarray_iff.mp h).1 haxes]
    rfl
  · have hsmall : x.shape.length < 256 := Nat.lt_of_le_of_lt x.ndim_le (by decide)
    have hlength' : (x.elements host).length = _ := length_elements htype
    have hread := loadsmat_append host' type haxes hsmall hdims hlength'
    obtain ⟨_, a, nread, hdumps, _, hmat, hlength, hget⟩ :=
      loads_dumps_ndarray host' toKey htype haxes hdims
    cases hdata.symm.trans hdumps
    have hsame : loadsMatrix host' (Python.matHeader type x.shape ++ (x.elements host ++ rest)) type =
        loadsMatrix host' (Python.matHeader type x.shape ++ x.elements host) type := by
      apply loadsMatrix_congr
      rw [hread, ← hread [], List.append_nil]
    have hnread : nread = (Python.matHeader type x.shape ++ x.elements host).length := by
      have hwhole := hread []
      rw [List.append_nil, hmat] at hwhole
      obtain ⟨_, _, hobj⟩ := Option.map_eq_some_iff.mp hwhole.symm
      exact (congrArg Prod.snd hobj).symm
    subst hnread
    rw [hsame]
    have hsafe : type = .u64 → (a.everySafe host' = true ↔
        ¬ ∃ idx, InShape x.shape idx ∧ 2 ^ 53 ≤ BigEndian.decode (x.element host idx)) := by
      rintro rfl
      exact everySafe_elements_iff htype (hlength.trans (Nat.one_mul _)) hget
    by_cases haccepted : (Python.Value.ndarray x).Accepted host
    · obtain ⟨b, hobj, _⟩ := loadsMatrix_eq_some hmat fun hu64 => by
        rw [hsafe hu64, not_not]
        exact (Python.Value.accepted_ndarray_iff.mp haccepted).2 (hu64 ▸ htype)
      rw [hobj, admitted_of_accepted haccepted]
      rfl
    · -- all elements are safe, and the constructor throws
      rw [Python.Value.accepted_ndarray_iff, not_and, Classical.not_imp] at haccepted
      obtain ⟨hu64, hsmall⟩ := haccepted haxes
      obtain rfl : type = .u64 := Option.some.inj (htype.symm.trans hu64)
      have hnone := loadsMatrix_u64 hmat ((hsafe rfl).mpr hsmall)
      rw [hnone, admitted_of_not fun h =>
        hsmall ((Python.Value.accepted_ndarray_iff.mp h).2 hu64)]
      rfl

theorem truncates_ndarray (x : Python.Ndarray) : Truncates host host' toKey (.ndarray x) := by
  intro data hdata
  refine ⟨delimits_ndarray hdata, (cuts_ndarray hdata).congr fun q => iff_of_false ?_ id⟩
  rintro ⟨chars, _, hends, _⟩
  cases hends

/-! ### Containers -/

theorem admitted_list (xs : List Python.Value) :
    admitted host (.list xs) = ((xs.map (admitted host)).mapM id).bind fun _ => some () := by
  have hmany : (xs.map (admitted host)).mapM id = _ :=
    mapM_ite xs (Python.Value.Accepted host) fun _ => ()
  rw [hmany]
  by_cases hall : ∀ x ∈ xs, x.Accepted host
  · rw [if_pos hall, admitted_of_accepted (.list hall)]
    rfl
  · rw [if_neg hall, admitted_of_not fun h => hall (Python.Value.accepted_list_iff.mp h)]
    rfl

theorem admitted_tuple (xs : List Python.Value) :
    admitted host (.tuple xs) = admitted host (.list xs) := by
  by_cases h : (Python.Value.list xs).Accepted host
  · rw [admitted_of_accepted h, admitted_of_accepted (Python.Value.accepted_tuple_iff.mpr h)]
  · rw [admitted_of_not h, admitted_of_not fun ht => h (Python.Value.accepted_tuple_iff.mp ht)]

/-- Whether a value can be a property key. -/
def named (toKey : PropertyKey) (v : Value) : Bool := (propertyKey toKey v).isSome

/-- What is known of an item whose key is a simple value. -/
noncomputable def admittedItem (host : Endian) (item : Python.Value × Python.Value) :
    Option (Bool × Unit) :=
  (some true).bind fun key => (admitted host item.2).map fun val => (key, val)

/-- What is known of an object of which all entries are read. -/
def assigned (outcomes : List (Bool × Unit)) : Option Unit :=
  if (outcomes.all fun outcome => outcome.1) then some () else none

open Classical in
theorem admitted_dict (items : List (Python.Value × Python.Value)) :
    admitted host (.dict items) = ((items.map (admittedItem host)).mapM id).bind assigned := by
  have hitem : admittedItem host =
      fun item => if item.2.Accepted host then some (true, ()) else none := by
    funext item
    by_cases h : item.2.Accepted host
    · rw [admittedItem, admitted_of_accepted h, if_pos h]
      rfl
    · rw [admittedItem, admitted_of_not h, if_neg h]
      rfl
  rw [hitem, mapM_ite items (fun item => item.2.Accepted host) fun _ => (true, ())]
  by_cases hall : ∀ item ∈ items, item.2.Accepted host
  · rw [if_pos hall, admitted_of_accepted (.dict hall), Option.bind_some, assigned, if_pos]
    rw [List.all_map]
    exact List.all_eq_true.mpr fun _ _ => rfl
  · rw [if_neg hall, admitted_of_not fun h => hall (Python.Value.accepted_dict_iff.mp h)]
    rfl

/-- Entries are assigned as long as all keys can be property keys. -/
theorem foldlM_assign_isSome (items : List (Value × Value)) (obj : List (Units × Value)) :
    (items.foldlM (assign toKey) obj).isSome = items.all fun item => named toKey item.1 := by
  induction items generalizing obj with
  | nil => rfl
  | cons item items ih =>
      rw [List.foldlM_cons, List.all_cons, assign, named]
      cases propertyKey toKey item.1 with
      | none => rfl
      | some key =>
          rw [Option.map_some, Option.bind_eq_bind, Option.bind_some, ih]
          rfl

theorem truncates_list {xs : List Python.Value} (hxs : ∀ x ∈ xs, Truncates host host' toKey x) :
    Truncates host host' toKey (.list xs) := by
  intro data hdata
  obtain ⟨parts, hparts, hlt, rfl⟩ := Python.dumps_list_eq_some hdata
  have hall : List.Forall₂ (fun x part => Delimits (loads host' toKey) ignore part (admitted host x) ∧
      Cuts (loads host' toKey) ignore part (admitted host x) x.Clips) xs parts := by
    clear hdata hlt
    induction hparts with
    | nil => exact .nil
    | cons hhead _ ih =>
        rw [List.forall_mem_cons] at hxs
        exact .cons (hxs.1 _ hhead) (ih hxs.2)
  have hread : ∀ t, loads host' toKey (sizeHeader .array xs.length ++ t) =
      (many (loads host' toKey) xs.length t).bind fun r => (some (Value.array r.1)).map fun v =>
        (v, (sizeHeader .array xs.length).length + r.2) := by
    intro t
    rw [Python.sizeHeader_append, loads_sized_array hlt, Python.length_sizeHeader]
  rw [admitted_list]
  constructor
  · have hmany := many_flatten (forall₂_delimits hall)
    rw [← hparts.length_eq] at hmany
    exact hmany.framed (fun vs => some (Value.array vs)) (fun _ => some ()) hread fun _ => rfl
  · have hframed : Cuts (loads host' toKey) ignore _ _ _ :=
      (Cuts.many loads_nil hall).framed (fun vs => some (Value.array vs)) (fun _ => some ()) hread
        (fun _ => rfl) fun p q => loads_sizeHeader (.inr (.inl rfl))
    exact hframed.congr fun q => Python.Value.clips_list_iff

theorem named_of_simple (htoKey : ∀ v, Simple v → (toKey v).isSome) {v : Value} (hv : Simple v) :
    named toKey v = true := by
  cases hv with
  | string s => rfl
  | null => exact htoKey _ .null
  | boolean b => exact htoKey _ (.boolean b)
  | number bits => exact htoKey _ (.number bits)
  | bigint n => exact htoKey _ (.bigint n)
  | complex real imag => exact htoKey _ (.complex real imag)
  | array elements => exact htoKey _ (.array elements)

theorem truncates_dict (htoKey : ∀ v, Simple v → (toKey v).isSome)
    {items : List (Python.Value × Python.Value)} (hkeys : ∀ item ∈ items, item.1.Hashable)
    (hitems : ∀ item ∈ items, Truncates host host' toKey item.1 ∧ Truncates host host' toKey item.2) :
    Truncates host host' toKey (.dict items) := by
  intro data hdata
  obtain ⟨parts, hparts, hlt, rfl⟩ := Python.dumps_dict_eq_some hdata
  have hall : List.Forall₂ (fun item part =>
      Delimits (pair (loads host' toKey)) (Prod.map (named toKey) ignore) part
          (admittedItem host item) ∧
        Cuts (pair (loads host' toKey)) (Prod.map (named toKey) ignore) part (admittedItem host item)
          item.2.Clips) items parts := by
    clear hdata hlt
    induction hparts with
    | nil => exact .nil
    | @cons item _ _ _ hhead _ ih =>
        rw [List.forall_mem_cons] at hkeys hitems
        obtain ⟨key, val, hkey, hval, rfl⟩ := hhead
        have hsimple : ReadsSimple host host' toKey item.1 := readsSimple_of_hashable hkeys.1
        obtain ⟨v, hv, hloads⟩ := hsimple key hkey
        have hname : Delimits (loads host' toKey) (named toKey) key (some true) :=
          Delimits.intro fun rest => ⟨v, hloads rest, named_of_simple htoKey hv⟩
        have hexhausts := (hitems.1.1 key hkey).2.exhausts
        obtain ⟨hread, hcuts⟩ := hitems.1.2 val hval
        exact .cons ⟨hname.pair hread, .pair hname hexhausts hcuts loads_nil⟩ (ih hkeys.2 hitems.2)
  have hread : ∀ t, loads host' toKey (sizeHeader .assocarray items.length ++ t) =
      (many (pair (loads host' toKey)) items.length t).bind fun r =>
        ((r.1.foldlM (assign toKey) []).map Value.object).map fun v =>
          (v, (sizeHeader .assocarray items.length).length + r.2) := by
    intro t
    rw [Python.sizeHeader_append, loads_sized_assocarray hlt, Python.length_sizeHeader]
  have hassign : ∀ entries : List (Value × Value),
      ((entries.foldlM (assign toKey) []).map Value.object).map ignore =
        assigned (entries.map (Prod.map (named toKey) ignore)) := by
    intro entries
    have hsome : (entries.foldlM (assign toKey) []).isSome = _ := foldlM_assign_isSome entries []
    rw [assigned, List.all_map]
    have hall : entries.all ((fun outcome => outcome.1) ∘ Prod.map (named toKey) ignore) =
        (entries.foldlM (assign toKey) []).isSome := hsome.symm
    rw [hall]
    cases entries.foldlM (assign toKey) [] <;> rfl
  rw [admitted_dict]
  constructor
  · have hmany := many_flatten (forall₂_delimits hall)
    rw [← hparts.length_eq] at hmany
    exact hmany.framed (fun entries => (entries.foldlM (assign toKey) []).map Value.object) assigned
      hread hassign
  · have hframed : Cuts (loads host' toKey) ignore _ _ _ :=
      (Cuts.many (pair_nil loads_nil) hall).framed
        (fun entries => (entries.foldlM (assign toKey) []).map Value.object) assigned hread hassign
        fun p q => loads_sizeHeader (.inr (.inr rfl))
    exact hframed.congr fun q => Python.Value.clips_dict_iff

theorem keyed_of_hashable {x : Python.Value} (h : x.Hashable) : x.Keyed := by
  induction h with
  | none => exact .none
  | bool b => exact .bool b
  | int n => exact .int n
  | float bits => exact .float bits
  | complex real imag => exact .complex real imag
  | str chars => exact .str chars
  | bytes b => exact .bytes b
  | tuple _ ih => exact .tuple ih
  | other => exact .other

/-- A value without text at its end is refused wherever it is cut. -/
theorem truncates_of_simple {x : Python.Value} (haccepted : x.Accepted host)
    (hread : ReadsSimple host host' toKey x) (hends : ∀ chars, ¬ x.EndsIn chars)
    (hcuts : ∀ data, dumps host x = some data →
      Cuts (loads host' toKey) ignore data (admitted host x) fun _ => False) :
    Truncates host host' toKey x := by
  intro data hdata
  obtain ⟨v, _, hloads⟩ := hread data hdata
  constructor
  · rw [admitted_of_accepted haccepted]
    exact Delimits.intro fun rest => ⟨v, hloads rest, rfl⟩
  · apply (hcuts data hdata).congr
    intro q
    refine iff_of_false ?_ id
    rintro ⟨chars, _, hends', _⟩
    exact hends chars hends'

theorem truncates_int (n : Int) : Truncates host host' toKey (.int n) :=
  truncates_of_simple (.int n) (readsSimple_int n) (fun _ hends => by cases hends) fun _ hdata =>
    cuts_atomic (Python.atomic_int hdata)

/-- Every encoding that is cut short is refused, unless the cut is in a text at its very end. -/
theorem truncates (htoKey : ∀ v, Simple v → (toKey v).isSome) {x : Python.Value} (hx : x.Keyed) :
    Truncates host host' toKey x := by
  induction x using Python.Value.nested with
  | none =>
      exact truncates_of_simple .none readsSimple_none (fun _ hends => by cases hends) fun _ hdata =>
        cuts_atomic (Python.atomic_none hdata)
  | bool b =>
      exact truncates_of_simple (.bool b) (readsSimple_bool b) (fun _ hends => by cases hends)
        fun _ hdata => cuts_atomic (Python.atomic_bool hdata)
  | int n => exact truncates_int n
  | float bits =>
      exact truncates_of_simple (.float bits) (readsSimple_float bits) (fun _ hends => by cases hends)
        fun _ hdata => cuts_atomic (Python.atomic_float hdata)
  | complex real imag =>
      exact truncates_of_simple (.complex real imag) (readsSimple_complex real imag)
        (fun _ hends => by cases hends) fun _ hdata => cuts_atomic (Python.atomic_complex hdata)
  | str chars => exact truncates_str chars
  | bytes b =>
      -- a list that ends in an integer
      have hlist : Truncates host host' toKey (.list (Python.integers b)) := by
        apply truncates_list
        intro x hx
        obtain ⟨byte, _, rfl⟩ := List.mem_map.mp hx
        exact truncates_int _
      have haccepted : (Python.Value.list (Python.integers b)).Accepted host := by
        apply Python.Value.Accepted.list
        intro x hx
        obtain ⟨byte, _, rfl⟩ := List.mem_map.mp hx
        exact .int _
      intro data hdata
      rw [Python.dumps_bytes] at hdata
      have hboth := hlist data hdata
      rw [admitted_of_accepted haccepted] at hboth
      rw [admitted_of_accepted (.bytes b)]
      refine ⟨hboth.1, hboth.2.congr fun q => iff_of_false ?_ ?_⟩
      · rintro ⟨chars, _, hends, _⟩
        cases hends
      · rintro ⟨chars, _, hends, _⟩
        exact Python.Value.not_endsIn_integers hends
  | list xs ih =>
      cases hx with
      | list elements => exact truncates_list fun x hx => ih x hx (elements x hx)
  | tuple xs ih =>
      cases hx with
      | tuple elements =>
          intro data hdata
          rw [Python.dumps_tuple] at hdata
          obtain ⟨hread, hcuts⟩ :=
            truncates_list (fun x hx => ih x hx (elements x hx)) data hdata
          rw [admitted_tuple]
          exact ⟨hread, hcuts.congr fun q => Python.Value.clips_tuple_iff⟩
  | dict items ih =>
      cases hx with
      | dict keys values =>
          apply truncates_dict htoKey keys
          intro item hitem
          exact ⟨(ih item hitem).1 (keyed_of_hashable (keys item hitem)),
            (ih item hitem).2 (values item hitem)⟩
  | ndarray x => exact truncates_ndarray x
  | other =>
      intro data hdata
      rw [dumps] at hdata
      cases hdata

end

end JavaScript

/-! ## Beginnings that are refused -/

/-- A beginning of an encoding is refused by Python and by JavaScript exactly if what is
missing is not the end of a text at the very end of the value, or the whole value would be
refused as well. Python accepts whole characters only. -/
theorem refused_iff (host pythonHost javaScriptHost : Endian) {toKey : JavaScript.PropertyKey}
    (htoKey : ∀ v, JavaScript.Simple v → (toKey v).isSome) {x : Python.Value} (hx : x.Keyed)
    {p q : Bytes} (hdata : Python.Dimeb.dumps host x = some (p ++ q)) (hne : q ≠ []) :
    Python.Dimeb.loads pythonHost p = none ∧ JavaScript.dimebloads javaScriptHost toKey p = none ↔
      ¬ (x.Decodable ∧ x.Shortens q) ∧ ¬ (x.Accepted host ∧ x.Clips q) := by
  have htruncates : JavaScript.Truncates host javaScriptHost toKey x := JavaScript.truncates htoKey hx
  obtain ⟨_, hcut⟩ := htruncates (p ++ q) hdata
  rw [Python.Value.loads_cut_eq_none_iff hdata hne, JavaScript.dimebloads, Option.map_eq_none_iff,
    hcut.eq_none_iff rfl hne, JavaScript.admitted_ne_none]

/-- A dictionary with a complex number for a key. -/
def reading : Python.Value := .dict [(.complex 0 0, .str [97, 98])]

/-- Its encoding up to the middle of the key. -/
def cutReading : Bytes := [0x22, 0, 0, 0, 1, 0x0E, 0, 0, 0, 0]

theorem endsIn_reading {chars : List Python.CodePoint} (h : reading.EndsIn chars) :
    chars = [97, 98] := by
  cases h with
  | dict last ends =>
      cases last
      cases ends
      rfl

theorem refused_iff_reading : Python.Dimeb.loads .big cutReading = none ∧
    JavaScript.dimebloads .little (fun _ => some (JavaScript.units "[object Object]")) cutReading =
      none := by
  refine (refused_iff .little .big .little (x := reading) (q := List.replicate 12 0 ++
    [0x20, 0, 0, 0, 2, 97, 98]) (fun _ _ => rfl) ?_ (by decide +kernel) (by decide)).mpr ⟨?_, ?_⟩
  · exact .dict (List.forall_mem_singleton.mpr (.complex 0 0)) (List.forall_mem_singleton.mpr (.str _))
  · rintro ⟨_, front, back, hends, hq⟩
    have hchars : Python.utf8Encode (front ++ back) = some [97, 98] := by
      rw [endsIn_reading hends]
      rfl
    obtain ⟨t, _, hbytes⟩ := Python.utf8Encode_append hchars hq
    have hlength := congrArg List.length hbytes
    rw [List.length_append] at hlength
    simp at hlength
  · rintro ⟨_, chars, payload, hends, hpayload, hq⟩
    rw [endsIn_reading hends] at hpayload
    cases hpayload
    exact absurd hq (by decide)

/-- Without its last letter, a text is decoded as a shorter one in both languages. -/
theorem not_refused_text : Python.Dimeb.dumps .little (.str [97, 98]) =
      some ([0x20, 0, 0, 0, 2, 97] ++ [98]) ∧
    Python.Dimeb.loads .little [0x20, 0, 0, 0, 2, 97] = some (.str [97]) ∧
    ∀ host toKey, JavaScript.dimebloads host toKey [0x20, 0, 0, 0, 2, 97] = some (.string [97]) := by
  have hdata : ([0x20, 0, 0, 0, 2, 97] : Bytes) = sized .string 2 [97] := by decide
  have htext : Python.utf8Decode [97] = some [97] := Python.utf8Decode_utf8Encode rfl
  refine ⟨by decide +kernel, ?_, fun host toKey => ?_⟩
  · rw [Python.Dimeb.loads, hdata, Python.loadsPrefix_sized_string (by decide)]
    exact congrArg (fun x => (x.map fun x => (Python.Value.str x, 5 + 2)).map Prod.fst) htext
  · rw [JavaScript.dimebloads, hdata, JavaScript.loads_sized_string (by decide)]
    exact congrArg (fun s => some (JavaScript.Value.string s)) (by decide +kernel)

end Dime
