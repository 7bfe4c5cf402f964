import Mathlib.Data.List.FinRange
import Dime.Foundation.Binary
import Dime.Foundation.Delimited
import Dime.Clients.Python.DimebRoundTrip

/-!
# Encodings by way of Python

What `dumps` makes of the value that `_loads` reads from the front of a string.
-/

namespace Dime.Python

open Delimited Strided Dimeb

variable (host : Endian)

/-- An encoding comes back from Python as another one. If `_loads` raises an exception,
`c` is `none`, and if `dumps` does, it is `some none`. -/
abbrev Relays (data : Bytes) (c : Option (Option Bytes)) : Prop :=
  Delimits (loadsPrefix host) (dumps host) data c

/-! ## Numbers -/

/-- Singles become doubles as they always do. -/
theorem toNat_widen (bits : Nat) : (widen bits).toNat = Binary.widen bits := by
  have hsign : bits / 2 ^ 31 % 2 = (Binary.single.signOf bits).toNat := by
    have hdiv : bits / 2 ^ 23 / 2 ^ 8 = bits / 2 ^ 31 := Nat.div_div_eq_div_mul bits _ _
    change _ = (decide (bits / 2 ^ 23 / 2 ^ 8 % 2 = 1)).toNat
    rw [hdiv]
    cases Nat.mod_two_eq_zero_or_one (bits / 2 ^ 31) with
    | inl heven => rw [heven]; rfl
    | inr hodd => rw [hodd]; rfl
  have hpack : ∀ exponent fraction : Nat,
      bits / 2 ^ 31 % 2 * 2 ^ 63 + (exponent * 2 ^ 52 + fraction) =
        Binary.double.pack (Binary.single.signOf bits) exponent fraction := by
    intro exponent fraction
    rw [hsign]
    change _ = fraction + 2 ^ 52 * (exponent + 2 ^ 11 * _)
    ring
  have hwiden : widen bits = UInt64.ofNat (Binary.widen bits) := by
    have hexponent : Binary.single.exponentOf bits = bits / 2 ^ 23 % 2 ^ 8 := rfl
    have hfraction : Binary.single.fractionOf bits = bits % 2 ^ 23 := rfl
    unfold widen Binary.widen
    simp only [hexponent, hfraction, ← hpack]
    split_ifs <;> rfl
  rw [hwiden, UInt64.toNat_ofNat', Nat.mod_eq_of_lt (Binary.widen_lt bits)]

/-- The real number in the bytes of an item. -/
def Scalar.number (type : Scalar) (item : Bytes) : Value :=
  match type.kind with
  | .i => .int ((BigEndian.decode item : Int).bmod (2 ^ (8 * type.itemsize)))
  | .u => .int (BigEndian.decode item)
  | _ => .float (if type = .single then widen (BigEndian.decode item)
      else UInt64.ofNat (BigEndian.decode item))

theorem loadsScalar_real {type : Scalar} (hreal : type.kind ≠ .c) (tag : UInt8) {item : Bytes}
    (hitem : item.length = type.itemsize) (rest : Bytes) :
    loadsScalar (tag :: (item ++ rest)) type = some (type.number item, type.itemsize + 1) := by
  have hslice : slice (tag :: (item ++ rest)) 1 (type.itemsize + 1) = item :=
    slice_cons rest (by rw [hitem, Nat.add_sub_cancel])
  have hunsigned : unpackUnsigned type.itemsize item = some (BigEndian.decode item) := if_pos hitem
  cases type with
  | complexSingle => exact absurd rfl hreal
  | complexDouble => exact absurd rfl hreal
  | _ =>
      simp only [Scalar.itemsize] at hslice hunsigned
      simp only [loadsScalar, hslice, unpackSigned, unpackf, unpackd, hunsigned, Option.map_some]
      rfl

/-- What Python makes of a real number. -/
theorem relays_real {type : Scalar} (hreal : type.kind ≠ .c) {item : Bytes}
    (hitem : item.length = type.itemsize) :
    Relays host ((Tag.scalar type).code :: item) (some (dumps host (type.number item))) := by
  apply Delimits.intro
  intro rest
  refine ⟨type.number item, ?_, rfl⟩
  rw [List.cons_append, loadsPrefix, Tag.ofCode_code, List.length_cons, hitem]
  exact loadsScalar_real hreal _ hitem rest

/-- What Python makes of a complex number. -/
theorem relays_complex {type : Scalar} {re im : Bytes} (read : Bytes → UInt64)
    (htype : type = .complexSingle ∧ (∀ item, read item = widen (BigEndian.decode item)) ∨
      type = .complexDouble ∧ ∀ item, read item = UInt64.ofNat (BigEndian.decode item))
    (hre : 2 * re.length = type.itemsize) (him : 2 * im.length = type.itemsize) :
    Relays host ((Tag.scalar type).code :: (re ++ im))
      (some (some ((Tag.scalar .complexDouble).code :: (packd (read re) ++ packd (read im))))) := by
  apply Delimits.intro
  intro rest
  refine ⟨.complex (read re) (read im), ?_, rfl⟩
  have hslice : ∀ tag, slice (tag :: (re ++ (im ++ rest))) 1 (re.length + 1) = re := fun tag =>
    slice_cons _ (Nat.add_sub_cancel _ _).symm
  have hslice' : ∀ tag, slice (tag :: (re ++ (im ++ rest))) (re.length + 1) (2 * re.length + 1) = im := by
    intro tag
    exact slice_append (tag :: re) rest rfl (by omega)
  rw [List.cons_append, List.append_assoc, loadsPrefix, Tag.ofCode_code, List.length_cons,
    List.length_append]
  obtain ⟨rfl, hread⟩ | ⟨rfl, hread⟩ := htype
  · have hlength : re.length = 4 := by
      simp only [Scalar.itemsize] at hre
      omega
    have hlength' : im.length = 4 := by
      simp only [Scalar.itemsize] at him
      omega
    simp only [hlength] at hslice hslice'
    simp only [loadsScalar, hslice, hslice', unpackf, unpackUnsigned, hlength, hlength', hread,
      if_true, Option.map_some, Option.bind_eq_bind, Option.bind_some]
  · have hlength : re.length = 8 := by
      simp only [Scalar.itemsize] at hre
      omega
    have hlength' : im.length = 8 := by
      simp only [Scalar.itemsize] at him
      omega
    simp only [hlength] at hslice hslice'
    simp only [loadsScalar, hslice, hslice', unpackd, unpackUnsigned, hlength, hlength', hread,
      if_true, Option.map_some, Option.bind_eq_bind, Option.bind_some]

/-! ## Arrays -/

/-- The slices of a string, one after the other. -/
theorem flatMap_slices (k : Nat) (s : Bytes) (n : Nat) :
    (List.range n).flatMap (fun i => (s.drop (k * i)).take k) = s.take (k * n) := by
  induction n with
  | zero => simp
  | succ n ih =>
      rw [List.range_succ, List.flatMap_append, ih, List.flatMap_singleton, Nat.mul_succ, List.take_add]

theorem mem_squeezeShape {shape : List Nat} {n : Nat} (h : n ∈ squeezeShape shape) : n ∈ shape := by
  unfold squeezeShape at h
  split at h
  · exact List.mem_cons_of_mem _ h
  · exact List.mem_cons.mpr (.inl (List.mem_singleton.mp h))
  · exact h

/-- Python keeps an array, up to an axis of length one. -/
theorem relays_mat (type : Scalar) {shape : List Nat} (hne : shape ≠ []) (hrank : shape.length ≤ maxdims)
    (hdims : ∀ n ∈ shape, n < 2 ^ 32) (hsize : shape.prod * type.itemsize < 2 ^ 63) {body : Bytes}
    (hbody : body.length = type.itemsize * shape.prod) :
    Relays host (matHeader type shape ++ body)
      (some (some (matHeader type (squeezeShape shape) ++ body))) := by
  apply Delimits.intro
  intro rest
  have hthere : type.itemsize * shape.prod ≤ (body ++ rest).length := by
    rw [List.length_append, hbody]
    exact Nat.le_add_right _ _
  obtain ⟨arr, hloads, hdtype, hshape, hitem⟩ := loadsMat_matHeader host type hne hrank hdims hsize hthere
  refine ⟨.ndarray (if host = .big then arr else arr.byteswap), ?_, ?_⟩
  · rw [List.append_assoc, List.length_append, length_matHeader, hbody, ← hloads, matHeader,
      List.cons_append, List.cons_append, loadsPrefix, Tag.ofCode_code]
  · have hsame : ∀ y, y = arr ∨ y = arr.byteswap → y.dtype = type.dtype ∧ y.shape = squeezeShape shape := by
      intro y hy
      cases hy with
      | inl hy => exact hy ▸ ⟨hdtype, hshape⟩
      | inr hy => exact hy ▸ ⟨hdtype, hshape⟩
    obtain ⟨hydtype, hyshape⟩ := hsame _ (ite_eq_or_eq (host = .big) arr arr.byteswap)
    have htype : Scalar.ofDtype (if host = .big then arr else arr.byteswap).dtype = some type := by
      rw [hydtype]
      cases type <;> rfl
    have hdims' : ∀ n ∈ (if host = .big then arr else arr.byteswap).shape, n < 2 ^ 32 := by
      rw [hyshape]
      exact fun n hn => hdims n (mem_squeezeShape hn)
    -- the items are the slices of the body
    have hitems : (if host = .big then arr else arr.byteswap).elements host = body := by
      calc (if host = .big then arr else arr.byteswap).elements host
          = (columnMajor (squeezeShape shape)).flatMap fun idx =>
              ((body ++ rest).drop (type.itemsize * ravel (squeezeShape shape) idx)).take type.itemsize := by
            rw [Ndarray.elements, hyshape]
            apply Ndarray.flatMap_congr
            intro idx hidx
            have hin : InShape arr.shape idx := hshape ▸ mem_columnMajor.mp hidx
            rw [element_read host type arr hdtype hin, hitem idx hin, hshape]
        _ = (List.range shape.prod).flatMap fun i =>
              ((body ++ rest).drop (type.itemsize * i)).take type.itemsize := by
            rw [← prod_squeezeShape, ← map_ravel_columnMajor, List.flatMap_map]
        _ = body := by
            rw [flatMap_slices, ← hbody]
            exact List.take_left
    rw [dumps, dumpsNdarray_eq host htype hdims', hyshape, hitems]

/-- A string, a list or a dict with its size. -/
def sized (tag : Tag) (n : Nat) (body : Bytes) : Bytes := tag.code :: (BigEndian.encode 4 n ++ body)

@[simp] theorem length_sized (tag : Tag) (n : Nat) (body : Bytes) :
    (sized tag n body).length = 5 + body.length := by
  rw [sized, List.length_cons, List.length_append, BigEndian.length_encode]
  omega

/-! ## Strings -/

/-- What can be decoded is encoded again as it was. -/
theorem utf8Encode_utf8Decode {s : Bytes} {x : List CodePoint} (h : utf8Decode s = some x) :
    utf8Encode x = some s := by
  obtain ⟨chars, hchars, rfl⟩ := Option.map_eq_some_iff.mp h
  have hbytes : (chars.toList.flatMap String.utf8EncodeChar).toByteArray = s.toByteArray := by
    have hsome : s.toByteArray.utf8Decode?.isSome := by rw [hchars]; rfl
    have hencode := ByteArray.utf8Encode_get_utf8Decode? (h := hsome)
    simp only [hchars, Option.get_some] at hencode
    exact hencode
  rw [utf8Encode_codePoint]
  have hdata := congrArg (fun b => b.data.toList) hbytes
  simpa using hdata

/-- What Python makes of a string. -/
theorem relays_string {s : Bytes} (hs : s.length < 2 ^ 32) :
    Relays host (sized .string s.length s)
      ((utf8Decode s).map fun _ => some (sized .string s.length s)) := by
  intro rest
  obtain ⟨hsiz, hbody⟩ := unpack_siz Tag.string.code hs (s ++ rest)
  have hslice : slice (Tag.string.code :: (BigEndian.encode 4 s.length ++ (s ++ rest))) 5
      (s.length + 5) = s := by
    rw [slice, hbody]
    exact List.take_left' (Nat.add_sub_cancel _ _).symm
  rw [length_sized, Nat.add_comm 5, sized, List.cons_append, List.append_assoc, loadsPrefix,
    Tag.ofCode_code]
  simp only [loadsString, hsiz, hslice, Option.bind_eq_bind, Option.bind_some]
  cases hx : utf8Decode s with
  | none => rfl
  | some x =>
      have hdumps : dumps host (.str x) = some (sized .string s.length s) := by
        simp only [dumps, dumpsStr, utf8Encode_utf8Decode hx, packI_of_lt hs, Option.bind_eq_bind,
          Option.bind_some]
        rfl
      simp [observe, hdumps, sized]

/-! ## Lists and dictionaries -/

theorem loadsElements_eq (n : Nat) (s : Bytes) :
    loadsElements host n s = many (loadsPrefix host) n s := by
  induction n generalizing s with
  | zero => rw [loadsElements, many]
  | succ n ih =>
      rw [loadsElements, many]
      simp only [ih]

theorem loadsKeyvalpairs_eq (n : Nat) (s : Bytes) (ret : List (Value × Value)) :
    loadsKeyvalpairs host n s ret = (many (pair (loadsPrefix host)) n s).bind fun items =>
      (items.1.foldlM (fun ret item => Value.setitem ret item.1 item.2) ret).map (·, items.2) := by
  induction n generalizing s ret with
  | zero => rw [loadsKeyvalpairs, many]; rfl
  | succ n ih =>
      rw [loadsKeyvalpairs, many, pair]
      cases hkey : loadsPrefix host s with
      | none => rfl
      | some key =>
          cases hval : loadsPrefix host (s.drop key.2) with
          | none => simp [hval]
          | some val =>
              simp only [hval, ih, Option.bind_eq_bind, Option.bind_some]
              cases many (pair (loadsPrefix host)) n (s.drop (key.2 + val.2)) with
              | none => simp
              | some items =>
                  simp only [Option.bind_some, List.foldlM_cons, Option.bind_eq_bind, Nat.add_assoc]
                  cases Value.setitem ret key.1 val.1 with
                  | none => rfl
                  | some ret =>
                      simp only [Option.bind_some]
                      cases items.1.foldlM (fun ret item => Value.setitem ret item.1 item.2) ret with
                      | none => rfl
                      | some ret => rfl

theorem dumpsElements_eq (xs : List Value) :
    dumpsElements host xs = ((xs.map (dumps host)).mapM id).map List.flatten := by
  induction xs with
  | nil => rfl
  | cons x xs ih =>
      rw [dumpsElements, ih, List.map_cons, List.mapM_cons]
      cases dumps host x with
      | none => rfl
      | some d =>
          cases (xs.map (dumps host)).mapM id with
          | none => rfl
          | some ds => rfl

theorem dumpsKeyvalpairs_eq (items : List (Value × Value)) :
    dumpsKeyvalpairs host items = ((items.map fun (item : Value × Value) => do
      let key ← dumps host item.1
      let val ← dumps host item.2
      some (key ++ val)).mapM id).map List.flatten := by
  induction items with
  | nil => rfl
  | cons item items ih =>
      rw [dumpsKeyvalpairs, ih, List.map_cons, List.mapM_cons]
      cases dumps host item.1 with
      | none => rfl
      | some d =>
          cases dumps host item.2 with
          | none => rfl
          | some d' =>
              cases ((items.map fun (item : Value × Value) => do
                let key ← dumps host item.1
                let val ← dumps host item.2
                some (key ++ val)).mapM id) with
              | none => rfl
              | some ds => rfl

section

variable {n : Nat} {data : Fin n → Bytes}

/-- The list that is read from its size and its elements. -/
theorem relays_list_of (hn : n < 2 ^ 32) {c : Option (List (Option Bytes))}
    (h : Delimits (many (loadsPrefix host) n) (List.map (dumps host)) (List.ofFn data).flatten c) :
    Relays host (sized .array n (List.ofFn data).flatten)
      (c.map fun outs => (outs.mapM id).map fun outs => sized .array n outs.flatten) := by
  intro rest
  obtain ⟨hsiz, hbody⟩ := unpack_siz Tag.array.code hn ((List.ofFn data).flatten ++ rest)
  rw [length_sized, sized, List.cons_append, List.append_assoc, loadsPrefix, Tag.ofCode_code]
  simp only [hsiz, hbody, loadsElements_eq, Option.bind_eq_bind, Option.bind_some]
  cases c with
  | none =>
      rw [h.eq_none]
      rfl
  | some outs =>
      obtain ⟨xs, hxs, rfl⟩ := h.eq_some rest
      have hlength : xs.length = n := length_many hxs
      have hdumps : dumps host (.list xs) =
          ((xs.map (dumps host)).mapM id).map fun outs => sized .array n outs.flatten := by
        rw [dumps, dumpsElements_eq, hlength, packI_of_lt hn]
        cases (xs.map (dumps host)).mapM id with
        | none => rfl
        | some outs => rfl
      rw [hxs]
      simp [observe, hdumps]

theorem relays_list (hn : n < 2 ^ 32) {out : Fin n → Option Bytes}
    (h : ∀ i, Relays host (data i) (some (out i))) :
    Relays host (sized .array n (List.ofFn data).flatten)
      (some (((List.ofFn out).mapM id).map fun outs => sized .array n outs.flatten)) :=
  relays_list_of host hn (many_ofFn_some h)

/-- A list with an element on which an exception is raised. -/
theorem list_raises (hn : n < 2 ^ 32) {c : Fin n → Option (Option Bytes)}
    (h : ∀ i, Relays host (data i) (c i)) {i : Fin n} (hi : (c i).join = none) :
    ∃ c, Relays host (sized .array n (List.ofFn data).flatten) c ∧ c.join = none := by
  by_cases hloads : ∃ j, c j = none
  · obtain ⟨j, hj⟩ := hloads
    exact ⟨_, relays_list_of host hn (many_ofFn_none h hj), rfl⟩
  · have hread : ∀ j, ∃ out, c j = some out := fun j =>
      Option.ne_none_iff_exists'.mp fun hj => hloads ⟨j, hj⟩
    choose out hout using hread
    refine ⟨_, relays_list host hn fun j => hout j ▸ h j, ?_⟩
    rw [hout i] at hi
    rw [mapM_eq_none (List.mem_ofFn.mpr ⟨i, hi⟩)]
    rfl

/-- Distinct strings are all put at the end. -/
theorem foldlM_setitem {items ret : List (Value × Value)}
    (hkeys : ∀ item ∈ items, ∃ chars, item.1 = .str chars) (hdistinct : (items.map Prod.fst).Nodup)
    (hret : ∀ item ∈ ret, ∃ chars, item.1 = .str chars ∧ item.1 ∉ items.map Prod.fst) :
    items.foldlM (fun ret item => Value.setitem ret item.1 item.2) ret = some (ret ++ items) := by
  induction items generalizing ret with
  | nil =>
      rw [List.append_nil]
      rfl
  | cons item items ih =>
      obtain ⟨chars, hchars⟩ := hkeys item List.mem_cons_self
      rw [List.map_cons, List.nodup_cons] at hdistinct
      have hset : Value.setitem ret item.1 item.2 = some (ret ++ [item]) := by
        have hold : ∀ old ∈ ret, ∃ t, old.1 = .str t ∧ t ≠ chars := by
          intro old hmem
          obtain ⟨t, ht, hnew⟩ := hret old hmem
          refine ⟨t, ht, fun heq => hnew ?_⟩
          rw [ht, heq, ← hchars]
          exact List.mem_cons_self
        have hitem : item = (.str chars, item.2) := Prod.ext hchars rfl
        rw [hitem]
        exact Value.setitem_str item.2 hold
      rw [List.foldlM_cons, hset, Option.bind_eq_bind, Option.bind_some,
        ih (fun item hitem => hkeys item (List.mem_cons_of_mem _ hitem)) hdistinct.2,
        List.append_assoc, List.singleton_append]
      intro old hold
      obtain hmem | hmem := List.mem_append.mp hold
      · obtain ⟨t, ht, hnew⟩ := hret old hmem
        exact ⟨t, ht, fun hin => hnew (List.mem_cons_of_mem _ hin)⟩
      · obtain rfl := List.mem_singleton.mp hmem
        exact ⟨chars, hchars, hdistinct.1⟩

section

variable {chars : Fin n → List CodePoint} {keys : Fin n → Bytes}

/-- The pairs of keys and values. -/
theorem delimits_pair (hkeys : ∀ i, dumpsStr (chars i) = some (keys i)) {i : Fin n}
    {c : Option (Option Bytes)} (h : Relays host (data i) c) :
    Delimits (pair (loadsPrefix host)) (Prod.map id (dumps host)) (keys i ++ data i)
      (c.map fun out => (.str (chars i), out)) := by
  have hkey : Delimits (loadsPrefix host) id (keys i) (some (.str (chars i))) :=
    Delimits.intro fun rest => ⟨_, Value.loadsPrefix_str host (hkeys i) rest, rfl⟩
  exact hkey.pair h

theorem relays_dict (hn : n < 2 ^ 32) (hdistinct : Function.Injective chars)
    (hkeys : ∀ i, dumpsStr (chars i) = some (keys i)) {out : Fin n → Option Bytes}
    (h : ∀ i, Relays host (data i) (some (out i))) :
    Relays host (sized .assocarray n (List.ofFn fun i => keys i ++ data i).flatten)
      (some (((List.ofFn fun i => (out i).map (keys i ++ ·)).mapM id).map fun outs =>
        sized .assocarray n outs.flatten)) := by
  have hpairs := fun i => delimits_pair host hkeys (h i)
  have hmany := many_ofFn_some hpairs
  apply Delimits.intro
  intro rest
  obtain ⟨hsiz, hbody⟩ := unpack_siz Tag.assocarray.code hn
    ((List.ofFn fun i => keys i ++ data i).flatten ++ rest)
  obtain ⟨items, hitems, hmap⟩ := hmany.eq_some rest
  have hlength : items.length = n := length_many hitems
  have hfst : items.map Prod.fst = List.ofFn fun i => Value.str (chars i) := by
    have hmap' := congrArg (List.map Prod.fst) hmap
    rwa [List.map_map, List.map_ofFn] at hmap'
  have hset : items.foldlM (fun ret item => Value.setitem ret item.1 item.2) [] = some items := by
    apply foldlM_setitem
    · intro item hitem
      have hmem : item.1 ∈ items.map Prod.fst := List.mem_map_of_mem hitem
      rw [hfst, List.mem_ofFn] at hmem
      obtain ⟨i, hi⟩ := hmem
      exact ⟨chars i, hi.symm⟩
    · rw [hfst, List.nodup_ofFn]
      intro i j hij
      exact hdistinct (Value.str.inj hij)
    · intro item hitem
      cases hitem
  refine ⟨.dict items, ?_, ?_⟩
  · rw [length_sized, sized, List.cons_append, List.append_assoc, loadsPrefix, Tag.ofCode_code]
    simp only [hsiz, hbody, loadsKeyvalpairs_eq, hitems, hset, Option.bind_eq_bind, Option.bind_some,
      Option.map_some]
  · have hparts : (items.map fun (item : Value × Value) => do
        let key ← dumps host item.1
        let val ← dumps host item.2
        some (key ++ val)) = List.ofFn fun i => (out i).map (keys i ++ ·) := by
      let wrote (item : Value × Option Bytes) : Option Bytes := do
        let key ← dumps host item.1
        let val ← item.2
        some (key ++ val)
      have hwrote : ∀ i, wrote (.str (chars i), out i) = (out i).map (keys i ++ ·) := by
        intro i
        have hkey : dumps host (.str (chars i)) = some (keys i) := by rw [dumps, hkeys i]
        simp only [wrote, hkey, Option.bind_eq_bind, Option.bind_some]
        cases out i with
        | none => rfl
        | some val => rfl
      calc items.map (fun item => wrote (Prod.map id (dumps host) item))
          = (items.map (Prod.map id (dumps host))).map wrote := by
            rw [List.map_map]
            rfl
        _ = List.ofFn fun i => (out i).map (keys i ++ ·) := by
            rw [hmap, List.map_ofFn]
            exact congrArg List.ofFn (funext hwrote)
    rw [dumps, dumpsKeyvalpairs_eq, hparts, hlength, packI_of_lt hn]
    cases (List.ofFn fun i => (out i).map (keys i ++ ·)).mapM id with
    | none => rfl
    | some outs => rfl

/-- A dictionary with a value on which an exception is raised. -/
theorem dict_raises (hn : n < 2 ^ 32) (hdistinct : Function.Injective chars)
    (hkeys : ∀ i, dumpsStr (chars i) = some (keys i)) {c : Fin n → Option (Option Bytes)}
    (h : ∀ i, Relays host (data i) (c i)) {i : Fin n} (hi : (c i).join = none) :
    ∃ c, Relays host (sized .assocarray n (List.ofFn fun i => keys i ++ data i).flatten) c ∧
      c.join = none := by
  by_cases hloads : ∃ j, c j = none
  · obtain ⟨j, hj⟩ := hloads
    refine ⟨none, fun rest => ?_, rfl⟩
    obtain ⟨hsiz, hbody⟩ := unpack_siz Tag.assocarray.code hn
      ((List.ofFn fun i => keys i ++ data i).flatten ++ rest)
    have hmany := many_ofFn_none (fun i => delimits_pair host hkeys (h i)) (i := j) (by rw [hj]; rfl)
    rw [sized, List.cons_append, List.append_assoc, loadsPrefix, Tag.ofCode_code]
    simp only [hsiz, hbody, loadsKeyvalpairs_eq, hmany.eq_none, Option.bind_eq_bind, Option.bind_some,
      Option.bind_none]
    rfl
  · have hread : ∀ j, ∃ out, c j = some out := fun j =>
      Option.ne_none_iff_exists'.mp fun hj => hloads ⟨j, hj⟩
    choose out hout using hread
    refine ⟨_, relays_dict host hn hdistinct hkeys fun j => hout j ▸ h j, ?_⟩
    rw [hout i] at hi
    have hnone : (out i).map (keys i ++ ·) = none := by
      rw [show out i = none from hi]
      rfl
    rw [mapM_eq_none (List.mem_ofFn.mpr ⟨i, hnone⟩)]
    rfl

end

end

end Dime.Python
