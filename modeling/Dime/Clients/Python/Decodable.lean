import Dime.Clients.Python.Relay

/-!
# What Python can decode

On which of the encodings that `dumps` writes `loads` raises an exception.
-/

namespace Dime.Python

open Delimited Strided Dimeb

/-- Induction on a value, with what holds of the values in it. -/
@[elab_as_elim]
theorem Value.nested {P : Value → Prop} (none : P .none) (bool : ∀ b, P (.bool b))
    (int : ∀ n, P (.int n)) (float : ∀ bits, P (.float bits))
    (complex : ∀ real imag, P (.complex real imag)) (str : ∀ chars, P (.str chars))
    (bytes : ∀ b, P (.bytes b)) (list : ∀ xs, (∀ x ∈ xs, P x) → P (.list xs))
    (tuple : ∀ xs, (∀ x ∈ xs, P x) → P (.tuple xs))
    (dict : ∀ items, (∀ item ∈ items, P item.1 ∧ P item.2) → P (.dict items))
    (ndarray : ∀ x, P (.ndarray x)) (other : P .other) (x : Value) : P x :=
  @Value.rec P (fun xs => ∀ x ∈ xs, P x) (fun items => ∀ item ∈ items, P item.1 ∧ P item.2)
    (fun item => P item.1 ∧ P item.2) none bool int float complex str bytes list tuple dict ndarray
    other (fun _ h => absurd h List.not_mem_nil)
    (fun _ _ hx hxs => List.forall_mem_cons.mpr ⟨hx, hxs⟩)
    (fun _ h => absurd h List.not_mem_nil)
    (fun _ _ hitem hitems => List.forall_mem_cons.mpr ⟨hitem, hitems⟩)
    (fun _ _ hkey hval => ⟨hkey, hval⟩) x

/-! ## Parts of an encoding -/

section

variable {host : Endian}

/-- The encodings of the elements, one after the other. -/
theorem dumpsElements_eq_some {xs : List Value} {data : Bytes}
    (h : dumpsElements host xs = some data) :
    ∃ parts, List.Forall₂ (fun x part => dumps host x = some part) xs parts ∧
      data = parts.flatten := by
  rw [dumpsElements_eq, mapM_map_id] at h
  obtain ⟨parts, hparts, rfl⟩ := Option.map_eq_some_iff.mp h
  exact ⟨parts, mapM_eq_some_iff.mp hparts, rfl⟩

/-- The encoding of a key and a value. -/
def DumpsItem (host : Endian) (item : Value × Value) (part : Bytes) : Prop :=
  ∃ key val, dumps host item.1 = some key ∧ dumps host item.2 = some val ∧ part = key ++ val

theorem dumpsKeyvalpairs_eq_some {items : List (Value × Value)} {data : Bytes}
    (h : dumpsKeyvalpairs host items = some data) :
    ∃ parts, List.Forall₂ (DumpsItem host) items parts ∧ data = parts.flatten := by
  rw [dumpsKeyvalpairs_eq, mapM_map_id] at h
  obtain ⟨parts, hparts, rfl⟩ := Option.map_eq_some_iff.mp h
  refine ⟨parts, (mapM_eq_some_iff.mp hparts).imp ?_, rfl⟩
  intro item part hpart
  obtain ⟨key, hkey, hpart⟩ := Option.bind_eq_some_iff.mp hpart
  obtain ⟨val, hval, hpart⟩ := Option.bind_eq_some_iff.mp hpart
  cases hpart
  exact ⟨key, val, hkey, hval, rfl⟩

theorem dumps_list_eq_some {xs : List Value} {data : Bytes} (h : dumps host (.list xs) = some data) :
    ∃ parts, List.Forall₂ (fun x part => dumps host x = some part) xs parts ∧
      xs.length < 2 ^ 32 ∧ data = sized .array xs.length parts.flatten := by
  rw [dumps] at h
  obtain ⟨elements, helements, h⟩ := Option.bind_eq_some_iff.mp h
  obtain ⟨siz, hsiz, h⟩ := Option.bind_eq_some_iff.mp h
  obtain ⟨rfl, hlt⟩ := packI_eq_some hsiz
  obtain ⟨parts, hparts, rfl⟩ := dumpsElements_eq_some helements
  cases h
  exact ⟨parts, hparts, hlt, rfl⟩

theorem dumps_dict_eq_some {items : List (Value × Value)} {data : Bytes}
    (h : dumps host (.dict items) = some data) :
    ∃ parts, List.Forall₂ (DumpsItem host) items parts ∧ items.length < 2 ^ 32 ∧
      data = sized .assocarray items.length parts.flatten := by
  rw [dumps] at h
  obtain ⟨keyvalpairs, hkeyvalpairs, h⟩ := Option.bind_eq_some_iff.mp h
  obtain ⟨siz, hsiz, h⟩ := Option.bind_eq_some_iff.mp h
  obtain ⟨rfl, hlt⟩ := packI_eq_some hsiz
  obtain ⟨parts, hparts, rfl⟩ := dumpsKeyvalpairs_eq_some hkeyvalpairs
  cases h
  exact ⟨parts, hparts, hlt, rfl⟩

/-- A tuple is written as a list, and bytes as a list of integers. -/
theorem dumps_tuple (xs : List Value) : dumps host (.tuple xs) = dumps host (.list xs) := by
  rw [dumps, dumps]

def integers (b : Bytes) : List Value := b.map fun byte => .int byte.toNat

theorem dumps_bytes (b : Bytes) : dumps host (.bytes b) = dumps host (.list (integers b)) := by
  have helements : dumpsElements host (integers b) =
      (b.mapM fun elem => packq elem.toNat).map fun parts =>
        parts.flatMap ((Tag.scalar .i64).code :: ·) := by
    induction b with
    | nil => rfl
    | cons byte b ih =>
        have hcons : integers (byte :: b) = .int byte.toNat :: integers b := rfl
        rw [hcons, dumpsElements, ih, dumps, List.mapM_cons]
        cases packq byte.toNat with
        | none => rfl
        | some s =>
            cases b.mapM fun elem => packq elem.toNat with
            | none => rfl
            | some parts => simp
  have hlength : (integers b).length = b.length := List.length_map _
  rw [dumps, dumps, helements, hlength]
  cases b.mapM fun elem => packq elem.toNat <;> rfl

/-! ## Reading -/

/-- What is read behind the size of a list. -/
theorem loadsPrefix_array {n : Nat} (hn : n < 2 ^ 32) (s : Bytes) :
    loadsPrefix host (sized .array n s) =
      (many (loadsPrefix host) n s).map fun r => (.list r.1, 5 + r.2) := by
  obtain ⟨hsiz, hbody⟩ := unpack_siz Tag.array.code hn s
  rw [sized, loadsPrefix, Tag.ofCode_code]
  simp only [hsiz, hbody, loadsElements_eq, Option.bind_eq_bind, Option.bind_some]
  cases many (loadsPrefix host) n s <;> rfl

theorem loadsPrefix_assocarray {n : Nat} (hn : n < 2 ^ 32) (s : Bytes) :
    loadsPrefix host (sized .assocarray n s) = (many (pair (loadsPrefix host)) n s).bind fun r =>
      (r.1.foldlM (fun ret item => Value.setitem ret item.1 item.2) []).map
        fun ret => (.dict ret, 5 + r.2) := by
  obtain ⟨hsiz, hbody⟩ := unpack_siz Tag.assocarray.code hn s
  rw [sized, loadsPrefix, Tag.ofCode_code]
  simp only [hsiz, hbody, loadsKeyvalpairs_eq, Option.bind_eq_bind, Option.bind_some]
  cases many (pair (loadsPrefix host)) n s with
  | none => rfl
  | some r =>
      cases hfold : r.1.foldlM (fun ret item => Value.setitem ret item.1 item.2) [] with
      | none => simp [hfold]
      | some ret => simp [hfold]

theorem sized_append (tag : Tag) (n : Nat) (s rest : Bytes) :
    sized tag n s ++ rest = sized tag n (s ++ rest) := by
  rw [sized, sized, List.cons_append, List.append_assoc]

/-- What stands before the contents of a string, a list or a dict. -/
def sizeHeader (tag : Tag) (n : Nat) : Bytes := tag.code :: BigEndian.encode 4 n

theorem sizeHeader_append (tag : Tag) (n : Nat) (s : Bytes) : sizeHeader tag n ++ s = sized tag n s := rfl

@[simp] theorem length_sizeHeader (tag : Tag) (n : Nat) : (sizeHeader tag n).length = 5 := by
  rw [sizeHeader, List.length_cons, BigEndian.length_encode]

theorem loadsPrefix_framed_list {n : Nat} (hn : n < 2 ^ 32) (s : Bytes) :
    loadsPrefix host (sizeHeader .array n ++ s) =
      (many (loadsPrefix host) n s).bind fun r => (some (Value.list r.1)).map fun x =>
        (x, (sizeHeader .array n).length + r.2) := by
  rw [length_sizeHeader, sizeHeader_append, loadsPrefix_array hn]
  cases many (loadsPrefix host) n s <;> rfl

theorem loadsPrefix_framed_dict {n : Nat} (hn : n < 2 ^ 32) (s : Bytes) :
    loadsPrefix host (sizeHeader .assocarray n ++ s) =
      (many (pair (loadsPrefix host)) n s).bind fun r =>
        ((r.1.foldlM (fun ret item => Value.setitem ret item.1 item.2) []).map Value.dict).map fun x =>
          (x, (sizeHeader .assocarray n).length + r.2) := by
  rw [length_sizeHeader, sizeHeader_append, loadsPrefix_assocarray hn]
  simp only [Option.map_map]
  rfl

/-- Values are set as long as all keys are hashable. -/
theorem foldlM_setitem_isSome (items ret : List (Value × Value)) :
    (items.foldlM (fun ret item => Value.setitem ret item.1 item.2) ret).isSome =
      items.all fun item => item.1.hashable := by
  induction items generalizing ret with
  | nil => rfl
  | cons item items ih =>
      rw [List.foldlM_cons, List.all_cons]
      cases hkey : item.1.hashable with
      | false =>
          have hnone : Value.setitem ret item.1 item.2 = none := by simp [Value.setitem, hkey]
          rw [hnone]
          rfl
      | true =>
          obtain ⟨ret', hret'⟩ : ∃ ret', Value.setitem ret item.1 item.2 = some ret' := by
            unfold Value.setitem
            rw [if_pos hkey]
            split
            · exact ⟨_, rfl⟩
            · exact ⟨_, rfl⟩
          rw [hret', Option.bind_eq_bind, Option.bind_some, ih ret', Bool.true_and]

end

namespace Value

/-! ## Values that are decoded -/

/-- Whether a value is decoded to one that can be a key. -/
def keyable : Value → Bool
  | none | bool _ | int _ | float _ | complex _ _ | str _ => true
  | _ => false

/-- A value can be decoded: no array in it is without axes, and no key in it is a
sequence, a mapping or an array. -/
inductive Decodable : Value → Prop where
  | none : Decodable none
  | bool (b : Bool) : Decodable (bool b)
  | int (n : Int) : Decodable (int n)
  | float (bits : UInt64) : Decodable (float bits)
  | complex (real imag : UInt64) : Decodable (complex real imag)
  | str (chars : List CodePoint) : Decodable (str chars)
  | bytes (b : Bytes) : Decodable (bytes b)
  | list {xs : List Value} (elements : ∀ x ∈ xs, Decodable x) : Decodable (list xs)
  | tuple {xs : List Value} (elements : ∀ x ∈ xs, Decodable x) : Decodable (tuple xs)
  | dict {items : List (Value × Value)} (keys : ∀ item ∈ items, item.1.keyable = true)
      (values : ∀ item ∈ items, Decodable item.2) : Decodable (dict items)
  | ndarray {x : Ndarray} (axes : x.shape ≠ []) : Decodable (ndarray x)

theorem decodable_of_keyable {x : Value} (h : x.keyable = true) : x.Decodable := by
  cases x with
  | none => exact .none
  | bool b => exact .bool b
  | int n => exact .int n
  | float bits => exact .float bits
  | complex real imag => exact .complex real imag
  | str chars => exact .str chars
  | _ => cases h

theorem decodable_list_iff {xs : List Value} : (list xs).Decodable ↔ ∀ x ∈ xs, x.Decodable := by
  constructor
  · intro h
    cases h with
    | list elements => exact elements
  · exact .list

theorem decodable_tuple_iff {xs : List Value} : (tuple xs).Decodable ↔ ∀ x ∈ xs, x.Decodable := by
  constructor
  · intro h
    cases h with
    | tuple elements => exact elements
  · exact .tuple

theorem decodable_dict_iff {items : List (Value × Value)} :
    (dict items).Decodable ↔ ∀ item ∈ items, item.1.keyable = true ∧ item.2.Decodable := by
  constructor
  · intro h item hitem
    cases h with
    | dict keys values => exact ⟨keys item hitem, values item hitem⟩
  · exact fun h => .dict (fun item hitem => (h item hitem).1) fun item hitem => (h item hitem).2

theorem decodable_ndarray_iff {x : Ndarray} : (ndarray x).Decodable ↔ x.shape ≠ [] := by
  constructor
  · intro h
    cases h with
    | ndarray axes => exact axes
  · exact .ndarray

open Classical in
/-- Whether what a value is decoded to can be a key, if it is decoded. -/
noncomputable def decoded (x : Value) : Option Bool :=
  if x.Decodable then some x.keyable else Option.none

theorem decoded_of_decodable {x : Value} (h : x.Decodable) : x.decoded = some x.keyable := if_pos h

theorem decoded_of_not {x : Value} (h : ¬ x.Decodable) : x.decoded = Option.none := if_neg h

theorem decoded_ne_none {x : Value} : x.decoded ≠ Option.none ↔ x.Decodable := by
  by_cases h : x.Decodable
  · rw [decoded_of_decodable h]
    exact iff_of_true (Option.some_ne_none _) h
  · rw [decoded_of_not h]
    exact iff_of_false (fun hne => hne rfl) h

/-- What is written for a value is decoded to one that is hashable or not, whatever
follows, or an exception is raised. -/
abbrev Reads (host : Endian) (x : Value) : Prop :=
  ∀ data, dumps host x = some data → Delimits (loadsPrefix host) hashable data x.decoded

variable (host : Endian)

/-- Typed values are read back. -/
theorem reads_of_returns {x : Value} (hx : x.Returns host) (hdecodable : x.Decodable)
    (hsame : ∀ y, x.Same host y → y.hashable = x.keyable) : x.Reads host := by
  intro data hdata
  rw [decoded_of_decodable hdecodable]
  apply Delimits.intro
  intro rest
  obtain ⟨y, hy, hxy⟩ := hx data hdata rest
  exact ⟨y, hy, hsame y hxy⟩

theorem reads_str (chars : List CodePoint) : (str chars).Reads host := by
  intro data hdata
  rw [decoded_of_decodable (.str chars)]
  rw [dumps] at hdata
  exact Delimits.intro fun rest => ⟨_, loadsPrefix_str host hdata rest, rfl⟩

/-- An array without axes has a count that is no integer. -/
theorem loadsMat_scalar (type : Scalar) (s : Bytes) (dtype : Dtype) :
    loadsMat host (matHeader type [] ++ s) dtype = Option.none := by
  have hget : (matHeader type [] ++ s)[1]? = some 0 := rfl
  simp [loadsMat, hget, slice, unpackIs]

theorem loadsPrefix_mat (type : Scalar) (shape : List Nat) (s : Bytes) :
    loadsPrefix host (matHeader type shape ++ s) =
      loadsMat host (matHeader type shape ++ s) type.dtype := by
  rw [matHeader, List.cons_append, List.cons_append, loadsPrefix, Tag.ofCode_code]

theorem reads_ndarray (x : Ndarray) : (ndarray x).Reads host := by
  intro data hdata
  by_cases haxes : x.shape = []
  · rw [decoded_of_not fun h => decodable_ndarray_iff.mp h haxes]
    intro rest
    rw [dumps] at hdata
    obtain ⟨type, _, _, rfl⟩ := dumpsNdarray_eq_some hdata
    rw [haxes, List.append_assoc, loadsPrefix_mat, loadsMat_scalar]
    rfl
  · have hdims := dims_of_dumps hdata
    have htype : Scalar.ofDtype x.dtype ≠ Option.none := by
      rw [dumps] at hdata
      obtain ⟨type, htype, _⟩ := dumpsNdarray_eq_some hdata
      rw [htype]
      exact Option.some_ne_none type
    refine reads_of_returns host (returns_ndarray host htype (List.length_pos_of_ne_nil haxes) hdims)
      (.ndarray haxes) ?_ data hdata
    intro y hy
    cases hy with
    | ndarray _ => rfl

/-! ### Containers -/

/-- The outcomes for a number of values, of which one is not decoded or all are. -/
theorem mapM_decoded (xs : List Value) :
    (¬ (∀ x ∈ xs, x.Decodable) → (xs.map decoded).mapM id = Option.none) ∧
      ((∀ x ∈ xs, x.Decodable) → (xs.map decoded).mapM id = some (xs.map keyable)) :=
  ⟨fun h => (mapM_ite xs Decodable keyable).trans (if_neg h),
    fun h => (mapM_ite xs Decodable keyable).trans (if_pos h)⟩

theorem forall₂_delimits {host : Endian} {xs : List Value} {parts : List Bytes}
    (hxs : ∀ x ∈ xs, x.Reads host) (h : List.Forall₂ (fun x part => dumps host x = some part) xs parts) :
    List.Forall₂ (Delimits (loadsPrefix host) hashable) parts (xs.map decoded) := by
  induction h with
  | nil => exact .nil
  | cons hhead _ ih =>
      rw [List.forall_mem_cons] at hxs
      exact .cons (hxs.1 _ hhead) (ih hxs.2)

theorem decoded_list (xs : List Value) :
    (list xs).decoded = ((xs.map decoded).mapM id).bind fun _ => some false := by
  by_cases hall : ∀ x ∈ xs, x.Decodable
  · rw [(mapM_decoded xs).2 hall, decoded_of_decodable (.list hall)]
    rfl
  · rw [(mapM_decoded xs).1 hall, decoded_of_not fun h => hall (decodable_list_iff.mp h)]
    rfl

theorem decoded_tuple (xs : List Value) : (tuple xs).decoded = (list xs).decoded := by
  by_cases hall : ∀ x ∈ xs, x.Decodable
  · rw [decoded_of_decodable (.list hall), decoded_of_decodable (.tuple hall)]
    rfl
  · rw [decoded_of_not fun h => hall (decodable_list_iff.mp h),
      decoded_of_not fun h => hall (decodable_tuple_iff.mp h)]

theorem reads_list {xs : List Value} (hxs : ∀ x ∈ xs, x.Reads host) : (list xs).Reads host := by
  intro data hdata
  obtain ⟨parts, hparts, hlt, rfl⟩ := dumps_list_eq_some hdata
  have hmany := many_flatten (forall₂_delimits hxs hparts)
  rw [← hparts.length_eq] at hmany
  rw [decoded_list]
  exact hmany.framed (fun ys => some (list ys)) (fun _ => some false) (loadsPrefix_framed_list hlt)
    fun _ => rfl

/-- What is known of a key and a value that are decoded. -/
noncomputable def decodedItem (item : Value × Value) : Option (Bool × Bool) :=
  item.1.decoded.bind fun key => item.2.decoded.map fun val => (key, val)

theorem forall₂_delimits_items {host : Endian} {items : List (Value × Value)} {parts : List Bytes}
    (hitems : ∀ item ∈ items, item.1.Reads host ∧ item.2.Reads host)
    (h : List.Forall₂ (DumpsItem host) items parts) :
    List.Forall₂ (Delimits (pair (loadsPrefix host)) (Prod.map hashable hashable)) parts
      (items.map decodedItem) := by
  induction h with
  | nil => exact .nil
  | cons hhead _ ih =>
      rw [List.forall_mem_cons] at hitems
      obtain ⟨key, val, hkey, hval, rfl⟩ := hhead
      exact .cons ((hitems.1.1 key hkey).pair (hitems.1.2 val hval)) (ih hitems.2)

/-- Items are set as long as the outcomes tell that their keys are hashable. -/
theorem foldlM_setitem_eq {items : List (Value × Value)} {outcomes : List (Bool × Bool)}
    (h : items.map (Prod.map hashable hashable) = outcomes) :
    (items.foldlM (fun ret item => setitem ret item.1 item.2) []).isSome =
      outcomes.all fun outcome => outcome.1 := by
  rw [foldlM_setitem_isSome, ← h, List.all_map]
  rfl

theorem mapM_decodedItem {items : List (Value × Value)} {outcomes : List (Bool × Bool)}
    (h : (items.map decodedItem).mapM id = some outcomes) :
    (outcomes.all fun outcome => outcome.1) = true ↔ (dict items).Decodable := by
  rw [decodable_dict_iff]
  rw [mapM_map_id, mapM_eq_some_iff] at h
  induction h with
  | nil => simp
  | @cons item outcome items outcomes hhead _ ih =>
      obtain ⟨key, hkey, hhead⟩ := Option.bind_eq_some_iff.mp hhead
      obtain ⟨val, hval, rfl⟩ := Option.map_eq_some_iff.mp hhead
      have hdecodable : item.1.Decodable := decoded_ne_none.mp (hkey ▸ Option.some_ne_none key)
      have hdecodable' : item.2.Decodable := decoded_ne_none.mp (hval ▸ Option.some_ne_none val)
      rw [decoded_of_decodable hdecodable] at hkey
      rw [List.all_cons, List.forall_mem_cons, Bool.and_eq_true, ih, Option.some.inj hkey]
      simp only [hdecodable', and_true]

theorem not_decodable_dict {items : List (Value × Value)}
    (h : (items.map decodedItem).mapM id = Option.none) : ¬ (dict items).Decodable := by
  intro hdecodable
  rw [decodable_dict_iff] at hdecodable
  have hmap : items.map decodedItem =
      (items.map fun item => (item.1.keyable, item.2.keyable)).map some := by
    rw [List.map_map]
    apply List.map_congr_left
    intro item hitem
    obtain ⟨hkey, hval⟩ := hdecodable item hitem
    rw [decodedItem, decoded_of_decodable (decodable_of_keyable hkey), decoded_of_decodable hval]
    rfl
  rw [hmap, mapM_map_some] at h
  cases h

/-- What is known of a dict of which all items are decoded. -/
def keyed (outcomes : List (Bool × Bool)) : Option Bool :=
  if (outcomes.all fun outcome => outcome.1) then some false else Option.none

theorem decoded_dict (items : List (Value × Value)) :
    (dict items).decoded = ((items.map decodedItem).mapM id).bind keyed := by
  cases houtcomes : (items.map decodedItem).mapM id with
  | none => rw [decoded_of_not (not_decodable_dict houtcomes), Option.bind_none]
  | some outcomes =>
      rw [Option.bind_some, keyed]
      by_cases hdecodable : (dict items).Decodable
      · rw [decoded_of_decodable hdecodable, if_pos ((mapM_decodedItem houtcomes).mpr hdecodable)]
        rfl
      · rw [decoded_of_not hdecodable,
          if_neg fun h => hdecodable ((mapM_decodedItem houtcomes).mp h)]

theorem keyed_setitem (ret : List (Value × Value)) :
    ((ret.foldlM (fun ret item => setitem ret item.1 item.2) []).map dict).map hashable =
      keyed (ret.map (Prod.map hashable hashable)) := by
  rw [keyed, ← @foldlM_setitem_eq ret _ rfl]
  cases ret.foldlM (fun ret item => setitem ret item.1 item.2) [] <;> rfl

theorem reads_dict {items : List (Value × Value)}
    (hitems : ∀ item ∈ items, item.1.Reads host ∧ item.2.Reads host) : (dict items).Reads host := by
  intro data hdata
  obtain ⟨parts, hparts, hlt, rfl⟩ := dumps_dict_eq_some hdata
  have hmany := many_flatten (forall₂_delimits_items hitems hparts)
  rw [← hparts.length_eq] at hmany
  rw [decoded_dict]
  exact hmany.framed (fun ret => (ret.foldlM (fun ret item => setitem ret item.1 item.2) []).map dict)
    keyed (loadsPrefix_framed_dict hlt) keyed_setitem

/-- Every encoding is read whole, or an exception is raised whatever follows it. -/
theorem reads (x : Value) : x.Reads host := by
  induction x using Value.nested with
  | none =>
      refine reads_of_returns host (returns_of_typed host .none) .none fun y hy => ?_
      cases hy
      rfl
  | bool b =>
      refine reads_of_returns host (returns_of_typed host (.bool b)) (.bool b) fun y hy => ?_
      cases hy
      rfl
  | int n =>
      refine reads_of_returns host (returns_int host n) (.int n) fun y hy => ?_
      cases hy
      rfl
  | float bits =>
      refine reads_of_returns host (returns_float host bits) (.float bits) fun y hy => ?_
      cases hy
      rfl
  | complex real imag =>
      refine reads_of_returns host (returns_complex host real imag) (.complex real imag)
        fun y hy => ?_
      cases hy
      rfl
  | str chars => exact reads_str host chars
  | bytes b =>
      -- the integers of a list
      have hintegers : ∀ x ∈ integers b, x.Reads host ∧ x.Decodable := by
        intro x hx
        obtain ⟨byte, _, rfl⟩ := List.mem_map.mp hx
        refine ⟨reads_of_returns host (returns_int host _) (.int _) fun y hy => ?_, .int _⟩
        cases hy
        rfl
      have hlist := reads_list host fun x hx => (hintegers x hx).1
      have hdecodable : (list (integers b)).Decodable := .list fun x hx => (hintegers x hx).2
      intro data hdata
      rw [dumps_bytes] at hdata
      rw [decoded_of_decodable (.bytes b)]
      have hreads := hlist data hdata
      rwa [decoded_of_decodable hdecodable] at hreads
  | list xs ih => exact reads_list host ih
  | tuple xs ih =>
      intro data hdata
      rw [dumps_tuple] at hdata
      rw [decoded_tuple]
      exact reads_list host ih data hdata
  | dict items ih => exact reads_dict host ih
  | ndarray x => exact reads_ndarray host x
  | other =>
      intro data hdata
      rw [dumps] at hdata
      cases hdata

theorem loads_of_decodable {x : Value} {data : Bytes} (h : dumps host x = some data)
    (hdecodable : x.Decodable) : ∃ y, loads host data = some y := by
  have hreads := reads host x data h
  rw [decoded_of_decodable hdecodable] at hreads
  obtain ⟨y, hy, _⟩ := hreads.eq_some []
  rw [List.append_nil] at hy
  exact ⟨y, by rw [loads, hy]; rfl⟩

theorem loads_of_not_decodable {x : Value} {data : Bytes} (h : dumps host x = some data)
    (hdecodable : ¬ x.Decodable) : loads host data = Option.none := by
  have hreads := reads host x data h
  rw [decoded_of_not hdecodable] at hreads
  have hnone := hreads.eq_none []
  rw [List.append_nil] at hnone
  rw [loads, hnone]
  rfl

/-- What `dumps` has written for a value is decoded exactly if the value has no array
without axes and no sequence, mapping or array for a key. -/
theorem decodes_iff (host : Endian) {x : Value} {data : Bytes} (h : dumps host x = some data) :
    (∃ y, loads host data = some y) ↔ x.Decodable := by
  constructor
  · intro hloads
    by_contra hdecodable
    obtain ⟨y, hy⟩ := hloads
    rw [loads_of_not_decodable host h hdecodable] at hy
    cases hy
  · exact loads_of_decodable host h

theorem decodes_list : ∃ y, loads .little [0x21, 0, 0, 0, 1, 0x00] = some y :=
  (decodes_iff .little (x := list [none]) (by decide +kernel)).mpr
    (.list (List.forall_mem_singleton.mpr .none))

/-- An array with one element and no axes. -/
def point : Ndarray := .fortran ⟨.i, 1, .irrelevant⟩ [] [5] 0 (by decide) (by decide) (by decide)

/-- An array without axes is written but not decoded, and so is a tuple that is a key. -/
theorem not_decodes : (∃ data, dumps .little (ndarray point) = some data ∧
      loads .little data = Option.none) ∧
    ∃ data, dumps .little (dict [(tuple [int 1, int 2], int 3)]) = some data ∧
      loads .little data = Option.none := by
  constructor
  · have hdumps : dumps .little (ndarray point) = some [0x13, 0, 5] := by decide +kernel
    refine ⟨_, hdumps, loads_of_not_decodable .little hdumps fun h => ?_⟩
    exact decodable_ndarray_iff.mp h rfl
  · have hdumps : dumps .little (dict [(tuple [int 1, int 2], int 3)]) ≠ Option.none := by
      decide +kernel
    obtain ⟨data, hdata⟩ := Option.ne_none_iff_exists'.mp hdumps
    refine ⟨data, hdata, loads_of_not_decodable .little hdata fun h => ?_⟩
    cases (decodable_dict_iff.mp h _ List.mem_cons_self).1

end Value

end Dime.Python
