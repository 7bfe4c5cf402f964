import Dime.Clients.Matlab.ByPython

/-!
# Interoperation with Python

Cell arrays and structures by way of Python, and with them every value of the type table.
-/

namespace Dime.Matlab

open Delimited Dimeb
open Python (Endian Tag Relays sized CodePoint)

/-! ## Containers -/

/-- Containers of `n` values. The functions of both languages treat the values one by one. -/
structure Container (computer host : Endian) (n : Nat) where
  build : (Fin n → Value) → Value
  pack : (Fin n → Bytes) → Bytes
  dumps_none : ∀ {x : Fin n → Value} {i : Fin n}, dimebdumps computer (x i) = none →
    dimebdumps computer (build x) = none
  dumps_some : ∀ {x : Fin n → Value} {data : Fin n → Bytes},
    (∀ i, dimebdumps computer (x i) = some (data i)) → dimebdumps computer (build x) = some (pack data)
  raises : ∀ {data : Fin n → Bytes} {c : Fin n → Option (Option Bytes)} {i : Fin n},
    (∀ i, Relays host (data i) (c i)) → (c i).join = none → ∃ c, Relays host (pack data) c ∧ c.join = none
  relays : ∀ {data out : Fin n → Bytes}, (∀ i, Relays host (data i) (some (some (out i)))) →
    Relays host (pack data) (some (some (pack out)))
  loads_none : ∀ {out : Fin n → Bytes} {y : Fin n → Option Value} {i : Fin n},
    (∀ i, Delimits (loadsPrefix computer) id (out i) (y i)) → y i = none →
      Delimits (loadsPrefix computer) id (pack out) none
  loads_some : ∀ {out : Fin n → Bytes} {y : Fin n → Value},
    (∀ i, Delimits (loadsPrefix computer) id (out i) (some (y i))) →
      Delimits (loadsPrefix computer) id (pack out) (some (build y))
  isequal_iff : ∀ {x y : Fin n → Value}, (build x).isequal (build y) = true ↔
    ∀ i, (x i).isequal (y i) = true
  survives_iff : ∀ {x : Fin n → Value}, (build x).Survives ↔ ∀ i, (x i).Survives

section

variable {computer host : Endian}

/-- What becomes of a value that is encoded. -/
theorem Travels.sent {x : Value} {y : Option Value} {data : Bytes} (h : Travels computer host x y)
    (hdata : dimebdumps computer x = some data) :
    ∃ c, Relays host data c ∧ (c.join = none ∧ y = none ∨
      ∃ out, c = some (some out) ∧ Delimits (loadsPrefix computer) id out y) := by
  cases h with
  | unsent hdumps => cases hdumps.symm.trans hdata
  | @refused data' c hdumps hrelays hc =>
      cases hdumps.symm.trans hdata
      exact ⟨c, hrelays, .inl ⟨hc, rfl⟩⟩
  | @returned data' out y hdumps hrelays hloads =>
      cases hdumps.symm.trans hdata
      exact ⟨_, hrelays, .inr ⟨out, rfl, hloads⟩⟩

theorem Travels.eq_none {x : Value} {y : Option Value} (h : Travels computer host x y)
    (hdumps : dimebdumps computer x = none) : y = none := by
  cases h with
  | unsent _ => rfl
  | refused _ _ _ => rfl
  | returned hdumps' _ _ => cases hdumps.symm.trans hdumps'

/-- A container comes back if all that is in it does. -/
theorem Container.decided {n : Nat} (C : Container computer host n) {x : Fin n → Value}
    (h : ∀ i, Decided computer host (x i)) : Decided computer host (C.build x) := by
  choose y htravels hback using h
  have hlost : ∀ i, y i = none → ¬ (C.build x).Survives := by
    intro i hi hsurvives
    obtain ⟨back, heq, _⟩ := (hback i).mpr (C.survives_iff.mp hsurvives i)
    cases hi.symm.trans heq
  by_cases hunsent : ∃ i, dimebdumps computer (x i) = none
  · obtain ⟨i, hi⟩ := hunsent
    exact Decided.lost (.unsent (C.dumps_none hi)) (hlost i ((htravels i).eq_none hi))
  · have hsent : ∀ i, ∃ data, dimebdumps computer (x i) = some data := fun i =>
      Option.ne_none_iff_exists'.mp fun hi => hunsent ⟨i, hi⟩
    choose data hdata using hsent
    choose c hrelays hc using fun i => (htravels i).sent (hdata i)
    have hdumps := C.dumps_some hdata
    by_cases hrefused : ∃ i, (c i).join = none
    · obtain ⟨i, hi⟩ := hrefused
      obtain ⟨c', hrelays', hc'⟩ := C.raises hrelays hi
      have hnone : y i = none := by
        obtain ⟨_, hnone⟩ | ⟨out, hout, _⟩ := hc i
        · exact hnone
        · rw [hout] at hi
          cases hi
      exact Decided.lost (.refused hdumps hrelays' hc') (hlost i hnone)
    · have hreturned : ∀ i, ∃ out, c i = some (some out) ∧
          Delimits (loadsPrefix computer) id out (y i) := fun i =>
        (hc i).resolve_left fun hi => hrefused ⟨i, hi.1⟩
      choose out hout hloads using hreturned
      have hrelays' := C.relays fun i => hout i ▸ hrelays i
      by_cases hnone : ∃ i, y i = none
      · obtain ⟨i, hi⟩ := hnone
        exact Decided.lost (.returned hdumps hrelays' (C.loads_none hloads hi)) (hlost i hi)
      · have hsome : ∀ i, ∃ back, y i = some back := fun i =>
          Option.ne_none_iff_exists'.mp fun hi => hnone ⟨i, hi⟩
        choose back hy using hsome
        have hloads' := C.loads_some fun i => hy i ▸ hloads i
        apply Decided.back (.returned hdumps hrelays' hloads')
        rw [C.isequal_iff, C.survives_iff]
        refine forall_congr' fun i => ?_
        rw [← hback i, hy i]
        simp

/-! ## Cell arrays -/

theorem cellFits_length {size : Size} (h : cellFits size) : size.length = size.numel ∧ size.numel < 2 ^ 32 := by
  obtain rfl | ⟨n, _, hn, rfl⟩ := h
  · decide
  · rw [Size.length_eq_numel_iff, Size.numel_row]
    refine ⟨.inr ?_, hn⟩
    rw [Size.dims_row, List.filter_cons_of_neg (by decide)]
    exact List.length_filter_le _ _

theorem cell_congr {size size' : Size} (hsize : size = size') {elements : Fin size.numel → Value}
    {elements' : Fin size'.numel → Value}
    (h : ∀ i, elements i = elements' (i.cast (congrArg Size.numel hsize))) :
    Value.cell size elements = .cell size' elements' := by
  subst hsize
  exact congrArg (Value.cell size) (funext h)

/-- A cell array that grows from `{}` gets the size that it had. -/
theorem row_ofFn {size : Size} (h : cellFits size) (elements : Fin size.numel → Value) :
    Value.row (List.ofFn elements) = .cell size elements := by
  obtain rfl | ⟨n, hpos, _, rfl⟩ := h
  · refine (if_pos ?_).trans (cell_congr rfl fun i => absurd i.isLt (by simp))
    exact List.ofFn_eq_nil_iff.mpr (by decide)
  · have hlength : (List.ofFn elements).length = n := by rw [List.length_ofFn, Size.numel_row]
    have hne : List.ofFn elements ≠ [] := List.ne_nil_of_length_pos (hlength.symm ▸ hpos)
    refine (if_neg hne).trans (cell_congr (congrArg Size.row hlength) fun i => ?_)
    rw [List.get_ofFn]
    rfl

theorem isequal_cell_same {size : Size} {elements elements' : Fin size.numel → Value} :
    (Value.cell size elements).isequal (.cell size elements') = true ↔
      ∀ i, (elements i).isequal (elements' i) = true := by
  rw [Value.isequal_cell_iff]
  constructor
  · intro h i
    obtain ⟨j, hij, hequal⟩ := h.2 i
    obtain rfl : i = j := Fin.ext hij
    exact hequal
  · exact fun h => ⟨rfl, fun i => ⟨i, rfl, h i⟩⟩

theorem sized_eq (tag : Tag) {n : Nat} (hn : n < 2 ^ 32) (body : Bytes) :
    sized tag n body = tag.code :: (sizeBytes computer n ++ body) := by
  rw [sizeBytes_eq computer hn, sized]

/-- The elements behind the header of a cell array. -/
theorem delimits_elements {n : Nat} (hn : n < 2 ^ 32) {body : Bytes} {c : Option (List Value)}
    (h : Delimits (many (loadsPrefix computer) n) (List.map id) body c) :
    Delimits (loadsPrefix computer) id (sized .array n body) (c.bind fun items => some (.row items)) := by
  have hheader : sized .array n body = (Tag.array.code :: sizeBytes computer n) ++ body :=
    sized_eq .array hn body
  rw [hheader]
  refine Delimits.framed (fun items => some (.row items)) _ ?_ (fun items => ?_) h
  · intro s
    rw [List.cons_append, loadsPrefix_elements, written_of_lt hn, List.length_cons, length_sizeBytes]
    rfl
  · rw [List.map_id]
    rfl

variable (computer host) in
/-- `{}`, and the cell arrays that are rows. -/
def cellContainer {size : Size} (h : cellFits size) : Container computer host size.numel where
  build := .cell size
  pack data := sized .array size.numel (List.ofFn data).flatten
  dumps_none := by
    intro x i hi
    rw [dimebdumps, dumps, mapM_eq_none (List.mem_ofFn.mpr ⟨i, hi⟩)]
    rfl
  dumps_some := by
    intro x data hdata
    obtain ⟨hlength, hlt⟩ := cellFits_length h
    rw [(dumps_cell hdata).2, hlength, sizeBytes_eq computer hlt]
    rfl
  raises := by
    intro data c i hrelays hi
    exact Python.list_raises host (cellFits_length h).2 hrelays hi
  relays := by
    intro data out hrelays
    have hlist := Python.relays_list host (cellFits_length h).2 hrelays
    rwa [mapM_ofFn_some] at hlist
  loads_none := by
    intro out y i hloads hi
    exact delimits_elements (cellFits_length h).2 (many_ofFn_none hloads hi)
  loads_some := by
    intro out y hloads
    have hrow := delimits_elements (cellFits_length h).2 (many_ofFn_some hloads)
    rwa [Option.bind_some, row_ofFn h] at hrow
  isequal_iff := isequal_cell_same
  survives_iff := by
    intro x
    exact and_iff_right h

/-! ## Structures -/

theorem utf8EncodeChar_of_lt {n : Nat} (h : n < 128) :
    String.utf8EncodeChar (Char.ofNat n) = [UInt8.ofNat n] := by
  have hvalid : n.isValidChar := .inl (by omega)
  have hval : (Char.ofNat n).val.toNat = n := by
    rw [Char.ofNat, dif_pos hvalid]
    rfl
  unfold String.utf8EncodeChar
  simp only [hval]
  exact if_pos (by omega)

/-- The name of a field in Python. -/
def nameText (name : FieldName) : List CodePoint :=
  name.chars.map fun c => Python.codePoint (Char.ofNat c.toNat)

theorem utf8Encode_nameText (name : FieldName) :
    Python.utf8Encode (nameText name) = some (charBytes name.chars) := by
  have hname := toNat_lt_of_isFieldName name.valid
  have hsplit : nameText name = (name.chars.map fun c => Char.ofNat c.toNat).map Python.codePoint := by
    rw [List.map_map]
    rfl
  have hbytes : (name.chars.map fun c => Char.ofNat c.toNat).flatMap String.utf8EncodeChar =
      charBytes name.chars := by
    rw [List.flatMap_map, charBytes, List.map_eq_flatMap]
    refine List.flatMap_congr fun c hc => ?_
    have hlt := hname c hc
    rw [utf8EncodeChar_of_lt hlt, uint8_of_le (by omega)]
  rw [hsplit, Python.utf8Encode_codePoint, hbytes]

theorem nameText_injective : Function.Injective nameText := by
  intro name name' h
  have hbytes : charBytes name.chars = charBytes name'.chars := by
    have hencode := congrArg Python.utf8Encode h
    rw [utf8Encode_nameText, utf8Encode_nameText] at hencode
    exact Option.some.inj hencode
  have hchars : ∀ name : FieldName,
      (charBytes name.chars).map (fun byte => UInt16.ofNat byte.toNat) = name.chars := fun name =>
    charBytes_of_le fun c hc => le_of_lt (lt_trans (toNat_lt_of_isFieldName name.valid c hc) (by decide))
  have hsame : name.chars = name'.chars := by rw [← hchars name, hbytes, hchars name']
  cases name
  cases name'
  congr

theorem dumpsStr_nameText (name : FieldName) :
    Python.Dimeb.dumpsStr (nameText name) = some (nameBytes computer name) := by
  have hshort : name.chars.length < 2 ^ 32 :=
    lt_of_le_of_lt (length_le_of_isFieldName name.valid) (by decide)
  simp only [Python.Dimeb.dumpsStr, utf8Encode_nameText, length_charBytes, Python.packI_of_lt hshort,
    Option.bind_eq_bind, Option.bind_some]
  rw [nameBytes, sizeBytes_eq computer hshort]

/-- The names and the values behind the header of a structure. -/
theorem delimits_fields {n : Nat} (hn : n < 2 ^ 32) {body : Bytes} {c : Option (List (Value × Value))}
    (h : Delimits (many (pair (loadsPrefix computer)) n) (List.map (Prod.map id id)) body c) :
    Delimits (loadsPrefix computer) id (sized .assocarray n body) (c.bind fun items =>
      (items.foldlM (fun obj item => Assoc.assign item.1 item.2 obj)
        (.struct ⟨[], List.nodup_nil⟩)).map Assoc.toValue) := by
  have hheader : sized .assocarray n body = (Tag.assocarray.code :: sizeBytes computer n) ++ body :=
    sized_eq .assocarray hn body
  rw [hheader]
  refine Delimits.framed (fun items => (items.foldlM (fun obj item => Assoc.assign item.1 item.2 obj)
    (.struct ⟨[], List.nodup_nil⟩)).map Assoc.toValue) _ ?_ (fun items => ?_) h
  · intro s
    rw [List.cons_append, loadsPrefix_fields, written_of_lt hn, List.length_cons, length_sizeBytes]
    simp only [Option.map_map, Function.comp_def]
  · rw [Prod.map_id, List.map_id, Option.map_id]
    rfl

/-- Fields of other names are put at the end. -/
theorem foldlM_assign_new {fields front : List (FieldName × Value)} (hfront : (front.map Prod.fst).Nodup)
    (hall : ((front ++ fields).map Prod.fst).Nodup) :
    (fields.map fun field => (Value.char (Grid.row field.1.chars), field.2)).foldlM
      (fun obj item => Assoc.assign item.1 item.2 obj) (.struct ⟨front, hfront⟩) =
      some (.struct ⟨front ++ fields, hall⟩) := by
  induction fields generalizing front with
  | nil =>
      have hend : front ++ [] = front := List.append_nil front
      exact congrArg some (congrArg Assoc.struct (Subtype.ext hend.symm))
  | cons field fields ih =>
      have hsplit : front ++ field :: fields = (front ++ [field]) ++ fields := by simp
      have hnew : field.1 ∉ front.map Prod.fst := by
        rw [List.map_append, List.map_cons] at hall
        exact fun hmem => List.disjoint_of_nodup_append hall hmem List.mem_cons_self
      have hinsert : Association.insert field.1 field.2 front = front ++ [field] :=
        Association.insert_of_notMem hnew
      have hfront' : ((front ++ [field]).map Prod.fst).Nodup :=
        hinsert ▸ Association.nodup_insert hfront
      have hassign : Assoc.assign (.char (Grid.row field.1.chars)) field.2 (.struct ⟨front, hfront⟩) =
          some (.struct ⟨front ++ [field], hfront'⟩) := by
        rw [Assoc.assign, fieldName_row]
        exact congrArg some (congrArg Assoc.struct (Subtype.ext hinsert))
      rw [List.map_cons, List.foldlM_cons, hassign, Option.bind_eq_bind, Option.bind_some,
        ih hfront' (hsplit ▸ hall)]
      exact congrArg some (congrArg Assoc.struct (Subtype.ext hsplit.symm))

theorem struct_congr {names names' : { names : List FieldName // names.Nodup }}
    (hnames : names.1 = names'.1) {vals : Fin names.1.length → Value} {vals' : Fin names'.1.length → Value}
    (h : ∀ i, vals i = vals' (i.cast (congrArg List.length hnames))) :
    Value.struct names vals = .struct names' vals' := by
  obtain rfl : names = names' := Subtype.ext hnames
  exact congrArg (Value.struct names) (funext h)

section

variable {names : { names : List FieldName // names.Nodup }}

/-- The fields that are assigned one after the other. -/
theorem foldlM_assign_fields (vals : Fin names.1.length → Value) :
    ((List.ofFn fun i => (Value.char (Grid.row (names.1.get i).chars), vals i)).foldlM
      (fun obj item => Assoc.assign item.1 item.2 obj) (.struct ⟨[], List.nodup_nil⟩)).map Assoc.toValue =
      some (.struct names vals) := by
  have hkeys : (List.ofFn fun i => (names.1.get i, vals i)).map Prod.fst = names.1 := by
    rw [List.map_ofFn]
    exact List.ofFn_get names.1
  have hitems : (List.ofFn fun i => (Value.char (Grid.row (names.1.get i).chars), vals i)) =
      (List.ofFn fun i => (names.1.get i, vals i)).map fun field =>
        (Value.char (Grid.row field.1.chars), field.2) := by
    rw [List.map_ofFn]
    rfl
  have hnodup : (([] ++ List.ofFn fun i => (names.1.get i, vals i)).map Prod.fst).Nodup := by
    rw [List.nil_append, hkeys]
    exact names.2
  have hnil : (([] : List (FieldName × Value)).map Prod.fst).Nodup := List.nodup_nil
  rw [hitems, foldlM_assign_new hnil hnodup, Option.map_some]
  refine congrArg some (struct_congr hkeys fun i => ?_)
  exact congrArg Prod.snd (List.get_ofFn _ _)

theorem isequal_struct_same {vals vals' : Fin names.1.length → Value} :
    (Value.struct names vals).isequal (.struct names vals') = true ↔
      ∀ i, (vals i).isequal (vals' i) = true := by
  rw [Value.isequal_struct_iff]
  constructor
  · intro h i
    obtain ⟨j, hij, hequal⟩ := h.2 i
    obtain rfl : i = j := List.nodup_iff_injective_get.mp names.2 hij
    exact hequal
  · exact fun h => ⟨rfl, fun i => ⟨i, rfl, h i⟩⟩

variable (names) in
theorem nameText_get_injective : Function.Injective fun i : Fin names.1.length => nameText (names.1.get i) :=
  nameText_injective.comp (List.nodup_iff_injective_get.mp names.2)

variable (computer host) in
/-- Structures with fields of those names. -/
def structContainer (h : names.1.length < 2 ^ 32) : Container computer host names.1.length where
  build := .struct names
  pack data := sized .assocarray names.1.length
    (List.ofFn fun i => nameBytes computer (names.1.get i) ++ data i).flatten
  dumps_none := by
    intro x i hi
    rw [dimebdumps, dumps, mapM_eq_none (List.mem_ofFn.mpr ⟨i, ?_⟩)]
    · rfl
    · have hval : dumps computer (x i) = none := hi
      rw [hval]
      cases dumpsChar computer (Grid.row (names.1.get i).chars) with
      | none => rfl
      | some key => rfl
  dumps_some := by
    intro x data hdata
    rw [(dumps_struct hdata).2, sized_eq .assocarray h]
  raises := by
    intro data c i hrelays hi
    exact Python.dict_raises host h (nameText_get_injective names)
      (fun i => dumpsStr_nameText (names.1.get i)) hrelays hi
  relays := by
    intro data out hrelays
    have hkeys : ∀ i, Python.Dimeb.dumpsStr (nameText (names.1.get i)) =
        some (nameBytes computer (names.1.get i)) := fun i => dumpsStr_nameText _
    have hdict := Python.relays_dict host h (nameText_get_injective names) hkeys hrelays
    simp only [Option.map_some] at hdict
    rwa [mapM_ofFn_some] at hdict
  loads_none := by
    intro out y i hloads hi
    have hpair := fun i => (delimits_name computer (names.1.get i)).pair (hloads i)
    exact delimits_fields h (many_ofFn_none hpair (i := i) (by rw [hi]; rfl))
  loads_some := by
    intro out y hloads
    have hpair := fun i => (delimits_name computer (names.1.get i)).pair (hloads i)
    have hfields := delimits_fields h (many_ofFn_some hpair)
    rwa [Option.bind_some, foldlM_assign_fields] at hfields
  isequal_iff := isequal_struct_same
  survives_iff := by
    intro x
    exact and_iff_right h

end

/-! ## Values -/

/-- What comes back of a value of the type table. -/
theorem Value.decided {x : Value} (hx : x.Covered) (hfits : x.Fits) : Decided computer host x := by
  induction x with
  | logical x => exact decided_logical hx
  | numeric x => exact decided_numeric hfits
  | char x => exact decided_char hfits
  | cell size elements ih =>
      exact (cellContainer computer host hfits.1).decided fun i => ih i (hx i) (hfits.2 i)
  | struct names vals ih =>
      exact (structContainer computer host hfits.1).decided fun i => ih i (hx i) (hfits.2 i)
  | map keyType keys vals ih => exact hx.elim

theorem Decided.roundTrip_iff {x : Value} (h : Decided computer host x) :
    (∃ y, roundTrip computer host x = some y ∧ x.isequal y = true) ↔ x.Survives := by
  obtain ⟨y, htravels, hback⟩ := h
  rw [htravels.roundTrip_eq]
  exact hback

theorem fits_of_roundTrip {x y : Value} (h : roundTrip computer host x = some y)
    (hequal : x.isequal y = true) : x.Fits := by
  obtain ⟨data, _, h⟩ := Option.bind_eq_some_iff.mp h
  obtain ⟨z, _, h⟩ := Option.bind_eq_some_iff.mp h
  obtain ⟨out, _, h⟩ := Option.bind_eq_some_iff.mp h
  obtain ⟨read, hread, rfl⟩ := Option.map_eq_some_iff.mp h
  exact Value.fits_of_isequal hequal (fits_loadsPrefix hread)

end

/-- A value of the type table that goes to Python and back equals what comes back if it is
one of the values that survive, whatever the byte orders of the computers. -/
theorem isequal_roundTrip_iff (computer host : Endian) {x : Value} (hx : x.Covered) :
    (∃ y, roundTrip computer host x = some y ∧ x.isequal y = true) ↔ x.Survives := by
  by_cases hfits : x.Fits
  · exact (Value.decided hx hfits).roundTrip_iff
  · refine iff_of_false ?_ fun h => hfits (Value.fits_of_survives h hx)
    intro hback
    obtain ⟨y, hy, hequal⟩ := hback
    exact hfits (fits_of_roundTrip hy hequal)

theorem covered_row {xs : List Value} (h : ∀ x ∈ xs, x.Covered) : (Value.row xs).Covered := by
  unfold Value.row
  split
  · intro i
    exact absurd i.isLt (by simp)
  · intro i
    exact h _ (List.get_mem _ _)

theorem survives_row {xs : List Value} (hlength : xs.length < 2 ^ 32) (h : ∀ x ∈ xs, x.Survives) :
    (Value.row xs).Survives := by
  unfold Value.row
  split
  · refine ⟨.inl rfl, fun i => ?_⟩
    exact absurd i.isLt (by simp)
  next hne =>
    exact ⟨.inr ⟨xs.length, List.length_pos_of_ne_nil hne, hlength, rfl⟩, fun i => h _ (List.get_mem _ _)⟩

/-- `{int64(-1), ':)', false, []}`. -/
def sequence : List Value := [
  .numeric (.real (Grid.scalar (int64Word (-1)))),
  .char (Grid.row [0x3A, 0x29]),
  .logical (Grid.scalar false),
  .numeric (.real (Grid.empty : Grid NumClass.double.Word))]

theorem isequal_roundTrip_sequence :
    ∃ y, roundTrip .little .little (.row sequence) = some y ∧ (Value.row sequence).isequal y = true := by
  refine (isequal_roundTrip_iff .little .little (covered_row ?_)).mpr (survives_row (by decide) ?_)
  · simp only [sequence, List.forall_mem_cons, List.not_mem_nil]
    exact ⟨trivial, trivial, rfl, trivial, fun _ h => h.elim⟩
  · simp only [sequence, List.forall_mem_cons, List.not_mem_nil]
    refine ⟨survives_scalar.mpr ⟨?_, ?_⟩, ?_, trivial, ?_, fun _ h => h.elim⟩
    · exact ofInt_ne_nan _
    · intro heq
      cases heq
    · have hsmile : Python.utf8Encode [0x3A, 0x29] = some [0x3A, 0x29] := rfl
      have hbytes : (Grid.row [0x3A, 0x29] : Grid UInt16).data.map (fun c => UInt8.ofNat c.toNat) =
          [0x3A, 0x29] := rfl
      have hle : ∀ c ∈ (Grid.row [0x3A, 0x29] : Grid UInt16).data, c.toNat ≤ 255 := by
        intro c hc
        obtain rfl | rfl : c = 0x3A ∨ c = 0x29 := by simpa [Grid.row] using hc
        · decide
        · decide
      refine ⟨rfl, by decide, hle, ?_⟩
      rw [hbytes, Python.utf8Decode_utf8Encode hsmile]
      rfl
    · rfl

/-- `zeros(m, n)`. -/
def zeros (m n : Nat) : Grid NumClass.double.Word :=
  ⟨Size.matrix m n, List.replicate (m * n) (doubleWord 0), by simp⟩

/-- Of a matrix of ten rows and ten columns nothing comes back. -/
theorem not_isequal_roundTrip_zeros : (Value.numeric (.real (zeros 10 10))).Covered ∧ ∀ computer host,
    ¬ ∃ y, roundTrip computer host (.numeric (.real (zeros 10 10))) = some y ∧
      (Value.numeric (.real (zeros 10 10))).isequal y = true := by
  refine ⟨trivial, fun computer host => ?_⟩
  have hne : (zeros 10 10).size.numel ≠ 0 := by decide
  have hdims : (zeros 10 10).size.dims ≠ [1, 1] := by decide
  have hdecided : Decided computer host (.numeric (.real (zeros 10 10))) :=
    decided_mat hne hdims ⟨by decide, by decide⟩
  rw [hdecided.roundTrip_iff]
  intro h
  have hlength := (if_neg hdims ▸ ((survives_real hne).mp h).2).2
  revert hlength
  decide

end Dime.Matlab
