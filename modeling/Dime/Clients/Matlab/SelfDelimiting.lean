import Mathlib.Algebra.BigOperators.Ring.List
import Mathlib.Data.List.Fold
import Dime.Clients.Matlab.ArrayReturns
import Dime.Clients.Matlab.Survival

/-!
# Containers that tell their own length

Which Matlab containers are read to the end of their encoding, whatever follows it.
-/

namespace Dime.Matlab

open Delimited
open Python (Endian Scalar Tag)

/-! ## Counts -/

/-- An array that is empty, or that has one dimension at most which is not one. -/
def Size.IsVector (size : Size) : Prop :=
  size.numel = 0 ∨ (size.dims.filter (· ≠ 1)).length ≤ 1

theorem foldr_max_le_prod {dims : List Nat} (hpos : ∀ n ∈ dims, 0 < n) :
    1 ≤ dims.foldr max 1 ∧ dims.foldr max 1 ≤ dims.prod := by
  induction dims with
  | nil => simp
  | cons n dims ih =>
      obtain ⟨hn, hrest⟩ := List.forall_mem_cons.mp hpos
      obtain ⟨hone, hle⟩ := ih hrest
      rw [List.foldr_cons, List.prod_cons]
      refine ⟨le_trans hone (Nat.le_max_right n _), Nat.max_le.mpr ⟨?_, ?_⟩⟩
      · exact Nat.le_mul_of_pos_right n (by omega)
      · exact le_trans hle (Nat.le_mul_of_pos_left _ hn)

/-- The largest of some numbers is their product if there is one at most that counts. -/
theorem foldr_max_eq_prod_iff {dims : List Nat} (hpos : ∀ n ∈ dims, 0 < n) :
    dims.foldr max 1 = dims.prod ↔ (dims.filter (· ≠ 1)).length ≤ 1 := by
  induction dims with
  | nil => simp
  | cons n dims ih =>
      obtain ⟨hn, hrest⟩ := List.forall_mem_cons.mp hpos
      obtain ⟨hone, hle⟩ := foldr_max_le_prod hrest
      rw [List.foldr_cons, List.prod_cons]
      by_cases hn1 : n = 1
      · subst hn1
        rw [Nat.max_eq_right hone, Nat.one_mul, ih hrest, List.filter_cons_of_neg (by simp)]
      · rw [List.filter_cons_of_pos (by simpa using hn1), List.length_cons]
        have hnil : (dims.filter (· ≠ 1)).length + 1 ≤ 1 ↔ dims.prod = 1 := by
          rw [Nat.succ_le_succ_iff, Nat.le_zero, List.length_eq_zero_iff, List.filter_eq_nil_iff]
          constructor
          · exact fun hall => List.prod_eq_one fun m hm => by simpa using hall m hm
          · intro hprod m hm
            have hdvd : m ∣ 1 := hprod ▸ List.dvd_prod hm
            simpa using hdvd
        rw [hnil]
        constructor
        · intro hmax
          by_contra hprod
          have hdouble : n * 2 ≤ n * dims.prod := Nat.mul_le_mul_left n (by omega)
          have hdouble' : 2 * dims.prod ≤ n * dims.prod := Nat.mul_le_mul_right _ (by omega)
          omega
        · intro hprod
          rw [hprod] at hle ⊢
          omega

theorem foldr_max_one (dims : List Nat) : dims.foldr max 1 = max 1 (dims.foldr max 0) := by
  induction dims with
  | nil => rfl
  | cons n dims ih =>
      rw [List.foldr_cons, List.foldr_cons, ih]
      omega

theorem Size.length_eq_foldr {size : Size} (h : size.numel ≠ 0) :
    size.length = size.dims.foldr max 1 ∧ ∀ n ∈ size.dims, 0 < n := by
  have hpos : ∀ n ∈ size.dims, 0 < n := fun n hn =>
    Nat.pos_of_ne_zero fun hzero => h (List.prod_eq_zero_iff.mpr (hzero ▸ hn))
  refine ⟨?_, hpos⟩
  have hfold : size.length = size.dims.foldr max 0 := by
    rw [Size.length, if_neg h]
    exact List.foldl_eq_foldr
  rw [hfold, foldr_max_one]
  obtain ⟨dims, htwo, _⟩ := size
  cases dims with
  | nil => simp at htwo
  | cons n dims =>
      have hn := hpos n List.mem_cons_self
      change List.foldr max 0 (n :: dims) = max 1 (List.foldr max 0 (n :: dims))
      rw [List.foldr_cons]
      omega

theorem Size.length_le_numel (size : Size) : size.length ≤ size.numel := by
  by_cases h : size.numel = 0
  · rw [Size.length, if_pos h]
    exact Nat.zero_le _
  · obtain ⟨hlength, hpos⟩ := Size.length_eq_foldr h
    rw [hlength]
    exact (foldr_max_le_prod hpos).2

/-- `length` counts the elements of a vector, and of no other array. -/
theorem Size.length_eq_numel_iff (size : Size) : size.length = size.numel ↔ size.IsVector := by
  by_cases h : size.numel = 0
  · refine iff_of_true ?_ (.inl h)
    rw [Size.length, if_pos h, h]
  · obtain ⟨hlength, hpos⟩ := Size.length_eq_foldr h
    rw [Size.IsVector, or_iff_right h, hlength]
    exact foldr_max_eq_prod_iff hpos

/-! ## Containers and what is in them -/

namespace Value

/-- Truth values, numbers, texts and empty matrices, and cell arrays of any size and
structures of such values. -/
def Plain : Value → Prop
  | logical x => x.size.numel = 0 ∨ x.size.dims = [1, 1]
  | numeric x => x.size.numel = 0 ∨ x.size.dims = [1, 1]
  | char x => x.size.numel = 0 ∨ x.size.dims = [1, x.data.length]
  | cell _ elements => ∀ i, (elements i).Plain
  | struct _ vals => ∀ i, (vals i).Plain
  | map _ _ _ => False

/-- The values in a value, which is one of them. -/
inductive Part (x : Value) : Value → Prop
  | here : Part x x
  | element {size : Size} {elements : Fin size.numel → Value} (i : Fin size.numel) :
      Part x (elements i) → Part x (cell size elements)
  | field {names : { names : List FieldName // names.Nodup }} {vals : Fin names.1.length → Value}
      (i : Fin names.1.length) : Part x (vals i) → Part x (struct names vals)

/-- Every cell array is empty or a vector, and the number of elements, of fields and of
characters is small enough. -/
def Countable : Value → Prop
  | logical _ | numeric _ => True
  | char x => x.data.length + 5 < 2 ^ 32
  | cell size elements => size.IsVector ∧ size.numel < 2 ^ 32 ∧ ∀ i, (elements i).Countable
  | struct names vals => names.1.length < 2 ^ 32 ∧ ∀ i, (vals i).Countable
  | map _ _ _ => False

end Value

variable (computer : Endian)

/-- The encodings that follow the header of a container: of the elements, or of the names
and the values of the fields. -/
def encodings : Value → Option (List Bytes)
  | .cell _ elements => (List.ofFn fun i => Dimeb.dumps computer (elements i)).mapM id
  | .struct names vals => (List.ofFn fun i => do
      let key ← Dimeb.dumpsChar computer (Grid.row (names.1.get i).chars)
      let val ← Dimeb.dumps computer (vals i)
      some (key ++ val)).mapM id
  | _ => none

/-- The number in the header of a container is the number of the encodings that follow. -/
def CountAgrees (x : Value) : Prop :=
  ∀ parts, encodings computer x = some parts →
    ∃ head, dimebdumps computer x = some (head ++ parts.flatten) ∧ head.length = 5 ∧
      BigEndian.decode (head.drop 1) = parts.length

/-- Whatever follows the encoding, exactly the encoding is read. -/
def ReadsExactly (x : Value) : Prop :=
  ∃ data, dimebdumps computer x = some data ∧
    ∀ rest, ∃ y, Dimeb.loadsPrefix computer (data ++ rest) = some (y, data.length)

namespace Dimeb

/-! ## Headers -/

/-- The number that stands in a header. -/
def written (n : Nat) : Nat := min n (2 ^ 32 - 1)

theorem written_of_lt {n : Nat} (h : n < 2 ^ 32) : written n = n := Nat.min_eq_left (Nat.le_sub_one_of_lt h)

theorem sizeBytes_written (n : Nat) : sizeBytes computer n = BigEndian.encode 4 (written n) := by
  have hval : (uint32 n).val = written n := by
    have hlt : written n < 256 ^ NumClass.uint32.itemsize :=
      Nat.lt_of_le_of_lt (Nat.min_le_right n _) (by decide)
    rw [uint32, Fin.val_ofNat]
    exact Nat.mod_eq_of_lt hlt
  rw [sizeBytes, toBytes_swap, NumClass.encode, hval]
  rfl

theorem decode_sizeBytes (n : Nat) : BigEndian.decode (sizeBytes computer n) = written n := by
  rw [sizeBytes_written]
  apply BigEndian.decode_encode_of_lt
  exact Nat.lt_of_le_of_lt (Nat.min_le_right n _) (by decide)

theorem loadsSize_sizeBytes (tag : UInt8) (n : Nat) (body : Bytes) :
    loadsSize computer (tag :: (sizeBytes computer n ++ body)) = some (written n) := by
  have hval : (uint32 n).val = written n := by
    have hdecode := decode_sizeBytes computer n
    rw [sizeBytes, toBytes_swap, NumClass.encode, BigEndian.decode_encode_of_lt (uint32 n).isLt] at hdecode
    exact hdecode
  obtain ⟨read, htypecast, hread⟩ := typecast_flatMap_encode computer [uint32 n]
  have hbytes : [uint32 n].flatMap NumClass.uint32.encode = sizeBytes computer n := by
    rw [List.flatMap_singleton, sizeBytes, toBytes_swap]
  rw [hbytes] at htypecast
  have hrange : range (tag :: (sizeBytes computer n ++ body)) 2 5 = some (sizeBytes computer n) :=
    range_append [tag] body rfl (by rw [length_sizeBytes]; rfl)
  obtain ⟨word, rfl⟩ : ∃ word, read = [word] := by
    apply List.length_eq_one_iff.mp
    rw [← List.length_map (swap computer), hread, List.length_singleton]
  have hword : swap computer word = uint32 n := (List.cons.inj hread).1
  unfold loadsSize
  simp only [hrange, htypecast, hword, hval, Option.bind_eq_bind, Option.bind_some, List.head?_cons,
    Option.map_some]

theorem drop_header (tag : UInt8) (n : Nat) (body : Bytes) :
    (tag :: (sizeBytes computer n ++ body)).drop 5 = body := by
  rw [List.drop_succ_cons, List.drop_left' (length_sizeBytes computer n)]

/-! ## Texts -/

theorem loadsString_sizeBytes {bytes : Bytes} (h : bytes.length + 5 < 2 ^ 32) (tag : UInt8) (rest : Bytes) :
    loadsString computer (tag :: (sizeBytes computer bytes.length ++ (bytes ++ rest))) =
      some (.char (Grid.row (bytes.map fun byte => UInt16.ofNat byte.toNat)), bytes.length + 5) := by
  have hwritten : written bytes.length = bytes.length := written_of_lt (by omega)
  have hend : min (5 + bytes.length) (2 ^ 32 - 1) = bytes.length + 5 := by
    rw [Nat.min_eq_left (by omega), Nat.add_comm]
  have hsplit : tag :: (sizeBytes computer bytes.length ++ (bytes ++ rest)) =
      (tag :: sizeBytes computer bytes.length) ++ (bytes ++ rest) := rfl
  have hrange : range (tag :: (sizeBytes computer bytes.length ++ (bytes ++ rest))) 6
      (bytes.length + 5) = some bytes := by
    rw [hsplit]
    apply range_append
    · rw [List.length_cons, length_sizeBytes]
    · rw [List.length_cons, length_sizeBytes, Nat.add_comm]
  unfold loadsString
  simp only [loadsSize_sizeBytes, hwritten, hend, hrange, Option.bind_eq_bind, Option.bind_some]

/-- The bytes of a text. -/
def charBytes (chars : List UInt16) : Bytes := chars.map fun c => UInt8.ofNat (uint8 c.toNat)

theorem length_charBytes (chars : List UInt16) : (charBytes chars).length = chars.length :=
  List.length_map _

theorem dumpsChar_row {chars : List UInt16} (hne : chars ≠ []) :
    dumpsChar computer (Grid.row chars) =
      some (Tag.string.code :: (sizeBytes computer chars.length ++ charBytes chars)) := by
  have hpos : 0 < chars.length := List.length_pos_of_ne_nil hne
  have hnumel : (Grid.row chars).size.numel = chars.length := Size.numel_row chars.length
  have hlength : (Grid.row chars).size.length = chars.length := by
    rw [Size.length, hnumel, if_neg (by omega)]
    change max (max 0 1) chars.length = chars.length
    omega
  have hdims : (Grid.row chars).size.dims = [1, (Grid.row chars).data.length] := rfl
  unfold dumpsChar
  rw [hnumel, if_neg (by omega), if_pos hdims, hlength]
  rfl

/-- A text that is no longer than the end of it can be computed. -/
theorem delimits_row {chars : List UInt16} (h : chars.length + 5 < 2 ^ 32) :
    Delimits (loadsPrefix computer) id
      (Tag.string.code :: (sizeBytes computer chars.length ++ charBytes chars))
      (some (.char (Grid.row ((charBytes chars).map fun byte => UInt16.ofNat byte.toNat)))) := by
  apply Delimits.intro
  intro rest
  have hlength := length_charBytes chars
  rw [← hlength] at h
  refine ⟨_, ?_, rfl⟩
  rw [List.cons_append, List.append_assoc, loadsPrefix, Tag.ofCode_code, ← hlength]
  simp only [loadsString_sizeBytes computer h, List.length_cons, List.length_append, length_sizeBytes]
  rw [Nat.add_comm 4, Nat.add_assoc]

/-- Of a longer text more or less is read than has been written. -/
theorem length_of_loadsPrefix_row {chars : List UInt16} {rest : Bytes} {y : Value}
    (h : loadsPrefix computer
        (Tag.string.code :: (sizeBytes computer chars.length ++ charBytes chars) ++ rest) =
      some (y, (Tag.string.code :: (sizeBytes computer chars.length ++ charBytes chars)).length)) :
    chars.length + 5 < 2 ^ 32 := by
  rw [List.cons_append, List.append_assoc, loadsPrefix, Tag.ofCode_code] at h
  obtain ⟨siz, hsiz, h⟩ := Option.bind_eq_some_iff.mp h
  obtain ⟨text, _, h⟩ := Option.bind_eq_some_iff.mp h
  have hread := congrArg Prod.snd (Option.some.inj h)
  rw [List.length_cons, List.length_append, length_sizeBytes, length_charBytes] at hread
  change min (5 + siz) (2 ^ 32 - 1) = _ at hread
  omega

/-- The names of fields are ASCII. -/
theorem toNat_lt_of_isFieldName {chars : List UInt16} (h : isFieldName chars = true) :
    ∀ c ∈ chars, c.toNat < 128 := by
  cases chars with
  | nil => simp
  | cons c rest =>
      simp only [isFieldName, isLetter, isDigit, Bool.and_eq_true, Bool.or_eq_true, decide_eq_true_eq,
        List.all_eq_true, beq_iff_eq, UInt16.le_iff_toNat_le, UInt16.reduceToNat] at h
      obtain ⟨⟨hfirst, hrest⟩, _⟩ := h
      intro c' hc'
      cases List.mem_cons.mp hc' with
      | inl heq =>
          subst heq
          omega
      | inr hmem =>
          have hkind := hrest c' hmem
          obtain hcode | rfl := hkind
          · omega
          · decide

theorem length_le_of_isFieldName {chars : List UInt16} (h : isFieldName chars = true) : chars.length ≤ 63 := by
  unfold isFieldName at h
  split at h
  · cases h
  · rw [Bool.and_eq_true, decide_eq_true_eq] at h
    exact h.2

theorem charBytes_of_le {chars : List UInt16} (h : ∀ c ∈ chars, c.toNat ≤ 255) :
    (charBytes chars).map (fun byte => UInt16.ofNat byte.toNat) = chars := by
  rw [charBytes, List.map_map]
  conv_rhs => rw [← List.map_id chars]
  apply List.map_congr_left
  intro c hc
  have hle := h c hc
  rw [Function.comp_apply, uint8_of_le hle, UInt8.toNat_ofNat', Nat.mod_eq_of_lt (by omega),
    UInt16.ofNat_toNat]
  rfl

/-! ## Values without elements -/

theorem delimits_null :
    Delimits (loadsPrefix computer) id [Tag.null.code]
      (some (.numeric (.real (Grid.empty : Grid NumClass.double.Word)))) := by
  apply Delimits.intro
  intro rest
  refine ⟨_, ?_, rfl⟩
  rw [List.singleton_append, loadsPrefix, Tag.ofCode_code]
  rfl

theorem delimits_truth (b : Bool) :
    Delimits (loadsPrefix computer) id [if b then Tag.true.code else Tag.false.code]
      (some (.logical (Grid.scalar b))) := by
  apply Delimits.intro
  intro rest
  refine ⟨_, ?_, rfl⟩
  rw [List.singleton_append]
  cases b with
  | true => rw [if_pos rfl, loadsPrefix, Tag.ofCode_code]; rfl
  | false => rw [if_neg Bool.false_ne_true, loadsPrefix, Tag.ofCode_code]; rfl

theorem delimits_real {cls : NumClass} (a : cls.Word) :
    Delimits (loadsPrefix computer) id ((Tag.scalar cls.type).code :: cls.encode a)
      (some (.numeric (.real (Grid.scalar a)))) := by
  apply Delimits.intro
  intro rest
  refine ⟨_, ?_, rfl⟩
  rw [List.cons_append, loadsPrefix_scalar, loadsReal_encode, List.length_cons, length_encode]

theorem delimits_complex {cls : NumClass} (hcls : cls = .single ∨ cls = .double) (re im : cls.Word) :
    Delimits (loadsPrefix computer) id
      ((Tag.scalar cls.complexType).code :: (cls.encode re ++ cls.encode im))
      (some (.numeric (.complexScalar re im))) := by
  apply Delimits.intro
  intro rest
  refine ⟨_, ?_, rfl⟩
  rw [List.cons_append, List.append_assoc, (loadsPrefix_complex computer hcls _).1, loadsComplex_encode,
    List.length_cons, List.length_append, length_encode, length_encode, Nat.two_mul]

theorem toDouble_lt {cls : NumClass} (x : cls.Word) : cls.toDouble x < 2 ^ 64 := by
  cases cls with
  | single => exact Binary.widen_lt _
  | double => exact x.isLt
  | _ => exact Binary.ofInt_lt _

/-- The parts of a complex number are of a floating-point class. Those of integers are
doubles. -/
theorem exists_partBytes (cls : NumClass) : ∃ target : NumClass,
    (target = if cls = .single then .single else .double) ∧
      cls.complexType = target.complexType ∧ ∀ x : cls.Word, ∃ word : target.Word,
        partBytes computer cls x = target.encode word ∧ target.toDouble word = cls.toDouble x := by
  cases cls with
  | single => exact ⟨.single, rfl, rfl, fun x => ⟨x, toBytes_swap computer x, rfl⟩⟩
  | _ => exact ⟨.double, rfl, rfl, fun x =>
      ⟨_, toBytes_swap computer _, Nat.mod_eq_of_lt (toDouble_lt x)⟩⟩

theorem dumpsNumeric_real {cls : NumClass} (a : cls.Word) :
    dumpsNumeric computer (.real (Grid.scalar a)) = (Tag.scalar cls.type).code :: cls.encode a := by
  have hone : ¬ (Size.row 1).numel = 0 := by decide
  have hdims : (Size.row 1).dims = [1, 1] := rfl
  have hdata : (Grid.scalar a).data = [a] := rfl
  rw [dumpsNumeric]
  refine (if_neg hone).trans ((if_pos hdims).trans ?_)
  simp only [Numeric.real, hdata, List.flatMap_singleton, toBytes_swap]

theorem dumpsNumeric_complex {cls : NumClass} (a b : cls.Word) :
    dumpsNumeric computer (.complexScalar a b) =
      (Tag.scalar cls.complexType).code :: (partBytes computer cls a ++ partBytes computer cls b) := by
  have hone : ¬ (Size.row 1).numel = 0 := by decide
  have hdims : (Size.row 1).dims = [1, 1] := rfl
  have hdata : (Grid.scalar a).data.zip [b] = [(a, b)] := rfl
  rw [dumpsNumeric]
  refine (if_neg hone).trans ((if_pos hdims).trans ?_)
  simp only [Numeric.complexScalar, hdata, List.flatMap_singleton]

/-- A number is real, or complex. -/
theorem scalar_cases {x : Numeric} (h : x.size.dims = [1, 1]) :
    (∃ (cls : NumClass) (a : cls.Word), x = .real (Grid.scalar a)) ∨
      ∃ (cls : NumClass) (a b : cls.Word), x = .complexScalar a b := by
  obtain ⟨cls, re, im, length_im⟩ := x
  obtain ⟨a, rfl⟩ : ∃ a : cls.Word, re = Grid.scalar a := Grid.eq_scalar h
  cases im with
  | none => exact .inl ⟨cls, a, rfl⟩
  | some im =>
      obtain ⟨b, rfl⟩ := List.length_eq_one_iff.mp (length_im im rfl)
      exact .inr ⟨cls, a, b, rfl⟩

theorem delimits_numeric {x : Numeric} (h : x.size.numel = 0 ∨ x.size.dims = [1, 1]) :
    Delimits (loadsPrefix computer) (fun _ => ()) (dumpsNumeric computer x) (some ()) := by
  by_cases hempty : x.size.numel = 0
  · rw [dumpsNumeric, if_pos hempty]
    exact (delimits_null computer).map fun _ => ()
  · obtain ⟨cls, a, rfl⟩ | ⟨cls, a, b, rfl⟩ := scalar_cases (h.resolve_left hempty)
    · rw [dumpsNumeric_real]
      exact (delimits_real computer a).map fun _ => ()
    · obtain ⟨target, htarget, htype, hbytes⟩ := exists_partBytes computer cls
      obtain ⟨re, hre, _⟩ := hbytes a
      obtain ⟨im, him, _⟩ := hbytes b
      have hfloat : target = .single ∨ target = .double := htarget ▸ ite_eq_or_eq _ _ _
      rw [dumpsNumeric_complex, hre, him, htype]
      exact (delimits_complex computer hfloat re im).map fun _ => ()

theorem dumpsLogical_scalar (b : Bool) :
    dumpsLogical (Grid.scalar b) = some [if b then Tag.true.code else Tag.false.code] := by
  have hone : ¬ (Size.row 1).numel = 0 := by decide
  have hdims : (Size.row 1).dims = [1, 1] := rfl
  rw [dumpsLogical]
  refine (if_neg hone).trans ((if_pos hdims).trans ?_)
  rfl

theorem delimits_logical {x : Grid Bool} (h : x.size.numel = 0 ∨ x.size.dims = [1, 1]) :
    ∃ data, dumpsLogical x = some data ∧
      Delimits (loadsPrefix computer) (fun _ => ()) data (some ()) := by
  by_cases hempty : x.size.numel = 0
  · rw [dumpsLogical, if_pos hempty]
    exact ⟨_, rfl, (delimits_null computer).map fun _ => ()⟩
  · obtain ⟨b, rfl⟩ := Grid.eq_scalar (h.resolve_left hempty)
    exact ⟨_, dumpsLogical_scalar b, (delimits_truth computer b).map fun _ => ()⟩

/-- A text is empty, or a row of characters. -/
theorem char_cases {x : Grid UInt16} (h : x.size.numel = 0 ∨ x.size.dims = [1, x.data.length]) :
    dumpsChar computer x = some [Tag.null.code] ∧ x.data = [] ∨
      x.data ≠ [] ∧ dumpsChar computer x =
        some (Tag.string.code :: (sizeBytes computer x.data.length ++ charBytes x.data)) := by
  by_cases hempty : x.size.numel = 0
  · refine .inl ⟨by rw [dumpsChar, if_pos hempty], ?_⟩
    exact List.eq_nil_of_length_eq_zero (x.length_data.trans hempty)
  · have hdims := h.resolve_left hempty
    have hne : x.data ≠ [] := fun hnil => hempty (by rw [← x.length_data, hnil, List.length_nil])
    have hrow : x = Grid.row x.data := by
      obtain ⟨⟨dims, two_le, trimmed⟩, data, length_data⟩ := x
      obtain rfl : dims = [1, data.length] := hdims
      rfl
    refine .inr ⟨hne, ?_⟩
    rw [hrow]
    exact dumpsChar_row computer hne

/-! ## Containers -/

/-- The elements of a cell array are read one after the other. -/
theorem loadsPrefix_elements (n : Nat) (s : Bytes) :
    loadsPrefix computer (Tag.array.code :: (sizeBytes computer n ++ s)) =
      (many (loadsPrefix computer) (written n) s).bind fun items => some (.row items.1, 5 + items.2) := by
  rw [loadsPrefix, Tag.ofCode_code]
  simp only [loadsSize_sizeBytes, drop_header, loadsElements_eq, Option.bind_eq_bind, Option.bind_some]

/-- The names and the values of a structure are read one after the other. -/
theorem loadsPrefix_fields (n : Nat) (s : Bytes) :
    loadsPrefix computer (Tag.assocarray.code :: (sizeBytes computer n ++ s)) =
      (many (pair (loadsPrefix computer)) (written n) s).bind fun items =>
        (items.1.foldlM (fun obj item => Assoc.assign item.1 item.2 obj)
          (.struct ⟨[], List.nodup_nil⟩)).map fun obj => (obj.toValue, 5 + items.2) := by
  rw [loadsPrefix, Tag.ofCode_code]
  simp only [loadsSize_sizeBytes, drop_header, loadsPairs_eq, Option.bind_eq_bind, Option.bind_some]
  cases many (pair (loadsPrefix computer)) (written n) s with
  | none => rfl
  | some items =>
      rw [Option.bind_some, Option.bind_some]
      cases items.1.foldlM (fun obj item => Assoc.assign item.1 item.2 obj)
          (.struct ⟨[], List.nodup_nil⟩) with
      | none => rfl
      | some obj => rfl

/-- The encoding of the name of a field. -/
def nameBytes (name : FieldName) : Bytes :=
  Tag.string.code :: (sizeBytes computer name.chars.length ++ charBytes name.chars)

theorem dumpsChar_name (name : FieldName) :
    dumpsChar computer (Grid.row name.chars) = some (nameBytes computer name) := by
  apply dumpsChar_row
  intro hnil
  have hvalid := name.valid
  rw [hnil] at hvalid
  cases hvalid

theorem delimits_name (name : FieldName) :
    Delimits (loadsPrefix computer) id (nameBytes computer name) (some (.char (Grid.row name.chars))) := by
  have hlength := length_le_of_isFieldName name.valid
  have hlt : name.chars.length + 5 < 2 ^ 32 := by omega
  have hname := delimits_row computer hlt
  have hle : ∀ c ∈ name.chars, c.toNat ≤ 255 := fun c hc =>
    le_trans (le_of_lt (toNat_lt_of_isFieldName name.valid c hc)) (by decide)
  rwa [charBytes_of_le hle] at hname

section

variable {computer} {size : Size} {elements : Fin size.numel → Value} {part : Fin size.numel → Bytes}

theorem dumps_cell (h : ∀ i, dumps computer (elements i) = some (part i)) :
    encodings computer (.cell size elements) = some (List.ofFn part) ∧
      dimebdumps computer (.cell size elements) =
        some (Tag.array.code :: (sizeBytes computer size.length ++ (List.ofFn part).flatten)) := by
  have hparts : (List.ofFn fun i => dumps computer (elements i)).mapM id = some (List.ofFn part) := by
    rw [funext h, mapM_ofFn_some]
  refine ⟨hparts, ?_⟩
  rw [dimebdumps, dumps, hparts]
  rfl

/-- As many elements are read as the header says. -/
theorem loadsPrefix_array {n k : Nat} (hk : written n = k) {part : Fin k → Bytes}
    (h : ∀ i, Delimits (loadsPrefix computer) (fun _ => ()) (part i) (some ())) (rest : Bytes) :
    ∃ y, loadsPrefix computer (Tag.array.code ::
        (sizeBytes computer n ++ ((List.ofFn part).flatten ++ rest))) =
      some (y, 5 + (List.ofFn part).flatten.length) := by
  obtain ⟨values, hvalues, _⟩ := (many_ofFn_some h).eq_some rest
  refine ⟨.row values, ?_⟩
  rw [loadsPrefix_elements, hk, hvalues]
  rfl

theorem delimits_cell (hvector : size.IsVector) (hlt : size.numel < 2 ^ 32)
    (h : ∀ i, Delimits (loadsPrefix computer) (fun _ => ()) (part i) (some ())) :
    Delimits (loadsPrefix computer) (fun _ => ())
      (Tag.array.code :: (sizeBytes computer size.length ++ (List.ofFn part).flatten)) (some ()) := by
  have hwritten : written size.length = size.numel := by
    rw [(Size.length_eq_numel_iff size).mpr hvector]
    exact written_of_lt hlt
  apply Delimits.intro
  intro rest
  obtain ⟨y, hy⟩ := loadsPrefix_array hwritten h rest
  refine ⟨y, ?_, rfl⟩
  rw [List.cons_append, List.append_assoc, hy, List.length_cons, List.length_append, length_sizeBytes]
  rw [Nat.add_right_comm, Nat.add_comm 4]

end

/-- Fields can be assigned to a structure. -/
theorem foldlM_assign_struct {items : List (Value × Value)}
    (h : ∀ item ∈ items, (Assoc.fieldName? item.1).isSome)
    (fields : { fields : List (FieldName × Value) // (fields.map Prod.fst).Nodup }) :
    ∃ obj, items.foldlM (fun obj item => Assoc.assign item.1 item.2 obj) (.struct fields) = some obj := by
  induction items generalizing fields with
  | nil => exact ⟨_, rfl⟩
  | cons item items ih =>
      obtain ⟨hname, hrest⟩ := List.forall_mem_cons.mp h
      obtain ⟨name, hname⟩ := Option.isSome_iff_exists.mp hname
      obtain ⟨obj, hobj⟩ := ih hrest
        ⟨Association.insert name item.2 fields.1, Association.nodup_insert fields.2⟩
      refine ⟨obj, ?_⟩
      rw [List.foldlM_cons, Assoc.assign, hname]
      exact hobj

theorem fieldName_row (name : FieldName) :
    Assoc.fieldName? (.char (Grid.row name.chars)) = some name := by
  have hdims : (Grid.row name.chars).size.dims = [1, (Grid.row name.chars).data.length] := rfl
  have hvalid : isFieldName (Grid.row name.chars).data = true := name.valid
  rw [Assoc.fieldName?, if_pos hdims, dif_pos hvalid]
  rfl

section

variable {computer} {names : { names : List FieldName // names.Nodup }} {vals : Fin names.1.length → Value}
  {part : Fin names.1.length → Bytes}

theorem dumps_struct (h : ∀ i, dumps computer (vals i) = some (part i)) :
    encodings computer (.struct names vals) =
        some (List.ofFn fun i => nameBytes computer (names.1.get i) ++ part i) ∧
      dimebdumps computer (.struct names vals) =
        some (Tag.assocarray.code :: (sizeBytes computer names.1.length ++
          (List.ofFn fun i => nameBytes computer (names.1.get i) ++ part i).flatten)) := by
  have hparts : encodings computer (.struct names vals) =
      some (List.ofFn fun i => nameBytes computer (names.1.get i) ++ part i) := by
    rw [encodings]
    simp only [dumpsChar_name, h, Option.bind_eq_bind, Option.bind_some]
    exact mapM_ofFn_some _
  refine ⟨hparts, ?_⟩
  rw [encodings] at hparts
  rw [dimebdumps, dumps, hparts]
  rfl

theorem delimits_struct (hlt : names.1.length < 2 ^ 32)
    (h : ∀ i, Delimits (loadsPrefix computer) (fun _ => ()) (part i) (some ())) :
    Delimits (loadsPrefix computer) (fun _ => ())
      (Tag.assocarray.code :: (sizeBytes computer names.1.length ++
        (List.ofFn fun i => nameBytes computer (names.1.get i) ++ part i).flatten)) (some ()) := by
  have hwritten : written names.1.length = names.1.length := written_of_lt hlt
  have hpair : ∀ i, Delimits (pair (loadsPrefix computer)) (Prod.map id fun _ => ())
      (nameBytes computer (names.1.get i) ++ part i) (some (.char (Grid.row (names.1.get i).chars), ())) :=
    fun i => (delimits_name computer (names.1.get i)).pair (h i)
  apply Delimits.intro
  intro rest
  obtain ⟨items, hitems, hkeys⟩ := (many_ofFn_some hpair).eq_some rest
  have hnames : ∀ item ∈ items, (Assoc.fieldName? item.1).isSome := by
    intro item hitem
    have hmem := List.mem_map_of_mem (f := Prod.map id fun _ => ()) hitem
    rw [hkeys] at hmem
    obtain ⟨i, hi⟩ := List.mem_ofFn.mp hmem
    have hkey : Value.char (Grid.row (names.1.get i).chars) = item.1 := congrArg Prod.fst hi
    rw [← hkey, fieldName_row]
    rfl
  obtain ⟨obj, hobj⟩ := foldlM_assign_struct hnames ⟨[], List.nodup_nil⟩
  refine ⟨obj.toValue, ?_, rfl⟩
  rw [List.cons_append, List.append_assoc, loadsPrefix_fields, hwritten, hitems, Option.bind_some, hobj,
    List.length_cons, List.length_append, length_sizeBytes, Nat.add_right_comm, Nat.add_comm 4]
  rfl

end

end Dimeb

open Dimeb

variable {computer}

/-- The number in a header is that of the encodings. -/
theorem countAgrees_iff {x : Value} {tag : UInt8} {n : Nat} {parts : List Bytes}
    (hparts : encodings computer x = some parts)
    (hdumps : dimebdumps computer x = some (tag :: (sizeBytes computer n ++ parts.flatten))) :
    CountAgrees computer x ↔ written n = parts.length := by
  have hsplit : tag :: (sizeBytes computer n ++ parts.flatten) =
      (tag :: sizeBytes computer n) ++ parts.flatten := rfl
  have hdecode : BigEndian.decode ((tag :: sizeBytes computer n).drop 1) = written n :=
    decode_sizeBytes computer n
  rw [hsplit] at hdumps
  constructor
  · intro h
    obtain ⟨head, hhead, _, hcount⟩ := h parts hparts
    have hbytes := List.append_cancel_right (Option.some.inj (hdumps.symm.trans hhead))
    rw [← hdecode, hbytes, hcount]
  · intro h parts' hparts'
    cases hparts.symm.trans hparts'
    refine ⟨tag :: sizeBytes computer n, hdumps, ?_, hdecode.trans h⟩
    rw [List.length_cons, length_sizeBytes]

theorem countAgrees_of_none {x : Value} (h : encodings computer x = none) : CountAgrees computer x := by
  intro parts hparts
  cases h.symm.trans hparts

theorem written_length_iff (size : Size) :
    written size.length = size.numel ↔ size.IsVector ∧ size.numel < 2 ^ 32 := by
  have hle := size.length_le_numel
  rw [← Size.length_eq_numel_iff]
  unfold written
  omega

namespace Value

/-- Every value of these kinds is encoded. -/
theorem Plain.exists_dumps {x : Value} (h : x.Plain) : ∃ data, dimebdumps computer x = some data := by
  induction x with
  | logical x =>
      obtain ⟨data, hdata, _⟩ := delimits_logical computer h
      exact ⟨data, hdata⟩
  | numeric x => exact ⟨dumpsNumeric computer x, rfl⟩
  | char x =>
      obtain ⟨hdumps, _⟩ | ⟨_, hdumps⟩ := char_cases computer h
      · exact ⟨_, hdumps⟩
      · exact ⟨_, hdumps⟩
  | cell size elements ih =>
      choose part hpart using fun i => ih i (h i)
      exact ⟨_, (dumps_cell hpart).2⟩
  | struct names vals ih =>
      choose part hpart using fun i => ih i (h i)
      exact ⟨_, (dumps_struct hpart).2⟩
  | map keyType keys vals ih => exact h.elim

theorem Part.plain {x y : Value} (h : Part y x) (hx : x.Plain) : y.Plain := by
  induction h with
  | here => exact hx
  | element i _ ih => exact ih (hx i)
  | field i _ ih => exact ih (hx i)

theorem Part.countable {x y : Value} (h : Part y x) (hx : x.Countable) : y.Countable := by
  induction h with
  | here => exact hx
  | element i _ ih => exact ih (hx.2.2 i)
  | field i _ ih => exact ih (hx.2 i)

/-- What follows the encoding is left. -/
theorem Countable.delimits {x : Value} (h : x.Countable) (hx : x.Plain) :
    ∃ data, dimebdumps computer x = some data ∧
      Delimits (loadsPrefix computer) (fun _ => ()) data (some ()) := by
  induction x with
  | logical x => exact delimits_logical computer hx
  | numeric x => exact ⟨_, rfl, delimits_numeric computer hx⟩
  | char x =>
      obtain ⟨hdumps, _⟩ | ⟨_, hdumps⟩ := char_cases computer hx
      · exact ⟨_, hdumps, (delimits_null computer).map fun _ => ()⟩
      · exact ⟨_, hdumps, (delimits_row computer h).map fun _ => ()⟩
  | cell size elements ih =>
      choose part hpart hdelimits using fun i => ih i (h.2.2 i) (hx i)
      exact ⟨_, (dumps_cell hpart).2, delimits_cell h.1 h.2.1 hdelimits⟩
  | struct names vals ih =>
      choose part hpart hdelimits using fun i => ih i (h.2 i) (hx i)
      exact ⟨_, (dumps_struct hpart).2, delimits_struct h.1 hdelimits⟩
  | map keyType keys vals ih => exact hx.elim

theorem Countable.countAgrees {x : Value} (h : x.Countable) (hx : x.Plain) : CountAgrees computer x := by
  cases x with
  | cell size elements =>
      choose part hpart using fun i => Plain.exists_dumps (hx i)
      obtain ⟨hparts, hdumps⟩ := dumps_cell hpart
      rw [countAgrees_iff hparts hdumps, List.length_ofFn]
      exact (written_length_iff size).mpr ⟨h.1, h.2.1⟩
  | struct names vals =>
      choose part hpart using fun i => Plain.exists_dumps (hx i)
      obtain ⟨hparts, hdumps⟩ := dumps_struct hpart
      rw [countAgrees_iff hparts hdumps, List.length_ofFn]
      exact written_of_lt h.1
  | _ => exact countAgrees_of_none rfl

/-- A text of which exactly the encoding is read is short enough. -/
theorem countable_of_readsExactly {x : Grid UInt16} (hx : (char x).Plain)
    (h : ReadsExactly computer (char x)) : (char x).Countable := by
  obtain ⟨_, hnil⟩ | ⟨_, hdumps⟩ := char_cases computer hx
  · change x.data.length + 5 < 2 ^ 32
    rw [hnil]
    decide
  · obtain ⟨data, hdata, hreads⟩ := h
    cases hdumps.symm.trans hdata
    obtain ⟨y, hy⟩ := hreads []
    exact length_of_loadsPrefix_row computer hy

end Value

open Value

/-- In a value of these kinds and in every value in it, the number in the header is that
of the encodings that follow, and exactly the encoding is read whatever follows it, if
every cell array in it is empty or a vector and all of them are small enough. -/
theorem containers_delimited_iff (computer : Endian) {x : Value} (hx : x.Plain) :
    (∀ y, Part y x → CountAgrees computer y ∧ ReadsExactly computer y) ↔ x.Countable := by
  constructor
  · intro h
    induction x with
    | logical x => trivial
    | numeric x => trivial
    | char x => exact countable_of_readsExactly hx (h _ .here).2
    | cell size elements ih =>
        choose part hpart using fun i => Plain.exists_dumps (hx i)
        obtain ⟨hparts, hdumps⟩ := dumps_cell hpart
        have hcount := (countAgrees_iff hparts hdumps).mp (h _ .here).1
        rw [List.length_ofFn] at hcount
        obtain ⟨hvector, hlt⟩ := (written_length_iff size).mp hcount
        exact ⟨hvector, hlt, fun i => ih i (hx i) fun y hy => h y (.element i hy)⟩
    | struct names vals ih =>
        choose part hpart using fun i => Plain.exists_dumps (hx i)
        obtain ⟨hparts, hdumps⟩ := dumps_struct hpart
        have hcount := (countAgrees_iff hparts hdumps).mp (h _ .here).1
        rw [List.length_ofFn] at hcount
        refine ⟨?_, fun i => ih i (hx i) fun y hy => h y (.field i hy)⟩
        unfold written at hcount
        omega
    | map keyType keys vals ih => exact hx.elim
  · intro h y hy
    have hplain := hy.plain hx
    have hcountable := hy.countable h
    obtain ⟨data, hdata, hdelimits⟩ := hcountable.delimits hplain
    refine ⟨hcountable.countAgrees hplain, data, hdata, fun rest => ?_⟩
    obtain ⟨y, hread, _⟩ := hdelimits.eq_some rest
    exact ⟨y, hread⟩

/-- A cell array of truth values. -/
def cellOfTrue (size : Size) : Value := .cell size fun _ => .logical (Grid.scalar true)

theorem containers_delimited_row : CountAgrees .little (cellOfTrue (Size.row 3)) ∧
    ReadsExactly .little (cellOfTrue (Size.row 3)) :=
  (containers_delimited_iff .little (x := cellOfTrue (Size.row 3)) fun _ => .inr rfl).mpr
    ⟨.inr (by decide), by decide, fun _ => trivial⟩ _ .here

/-- The header of a cell array of two rows and two columns says that there are two
elements, of which two are read. -/
theorem not_delimited_matrix : (cellOfTrue (Size.matrix 2 2)).Plain ∧
    ∀ computer, ¬ CountAgrees computer (cellOfTrue (Size.matrix 2 2)) ∧
      ¬ ReadsExactly computer (cellOfTrue (Size.matrix 2 2)) := by
  refine ⟨fun _ => .inr rfl, fun computer => ?_⟩
  have htrue : ∀ i : Fin (Size.matrix 2 2).numel, dumps computer
      ((fun _ => .logical (Grid.scalar true) : Fin (Size.matrix 2 2).numel → Value) i) =
        some ((fun _ => [Tag.true.code] : Fin (Size.matrix 2 2).numel → Bytes) i) := fun _ => rfl
  obtain ⟨hparts, hdumps⟩ := dumps_cell htrue
  constructor
  · intro h
    have hcount := (countAgrees_iff hparts hdumps).mp h
    revert hcount
    decide
  · intro h
    obtain ⟨data, hdata, hreads⟩ := h
    cases hdumps.symm.trans hdata
    obtain ⟨y, hy⟩ := hreads []
    have htwo : written (Size.matrix 2 2).length = 2 := by decide
    have hpart : ∀ i : Fin 2, Delimits (loadsPrefix computer) (fun _ => ())
        ((fun _ => [Tag.true.code] : Fin 2 → Bytes) i) (some ()) := fun _ => (delimits_truth computer true).map fun _ => ()
    obtain ⟨z, hz⟩ := loadsPrefix_array htwo hpart [Tag.true.code, Tag.true.code]
    rw [List.append_nil] at hy
    have hread := congrArg Prod.snd (Option.some.inj (hz.symm.trans hy))
    rw [List.length_cons, List.length_append, length_sizeBytes] at hread
    have hbytes : 5 + 2 = 4 + 4 + 1 := hread
    exact absurd hbytes (by decide)

end Dime.Matlab
