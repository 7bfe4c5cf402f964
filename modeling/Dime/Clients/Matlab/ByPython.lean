import Dime.Clients.Matlab.SelfDelimiting
import Dime.Clients.Matlab.Survival
import Dime.Clients.Python.Relay

/-!
# Matlab values by way of Python

What becomes of a Matlab value that Python decodes and encodes again.
-/

namespace Dime.Matlab

open Binary (Datum)
open Delimited Dimeb
open Python (Endian Scalar Tag Relays matHeader)
open Python.Dimeb (squeezeShape)

variable (computer host : Endian)

/-- What comes back of a value from Python. It is `none` if the value is not encoded, if
Python raises an exception, or if what Python encodes cannot be decoded. -/
inductive Travels (x : Value) : Option Value → Prop
  | unsent : dimebdumps computer x = none → Travels x none
  | refused {data : Bytes} {c : Option (Option Bytes)} : dimebdumps computer x = some data →
      Relays host data c → c.join = none → Travels x none
  | returned {data out : Bytes} {y : Option Value} : dimebdumps computer x = some data →
      Relays host data (some (some out)) → Delimits (loadsPrefix computer) id out y → Travels x y

variable {computer host}

theorem Travels.roundTrip_eq {x : Value} {y : Option Value} (h : Travels computer host x y) :
    roundTrip computer host x = y := by
  unfold roundTrip
  cases h with
  | unsent hdumps =>
      rw [hdumps]
      rfl
  | @refused data c hdumps hrelays hc =>
      rw [hdumps, Option.bind_eq_bind, Option.bind_some, Python.Dimeb.loads]
      have halone := hrelays.alone
      cases hloads : Python.Dimeb.loadsPrefix host data with
      | none => rfl
      | some read =>
          rw [hloads] at halone
          obtain ⟨out, rfl, hout⟩ := Option.map_eq_some_iff.mp halone.symm
          have hnone : Python.Dimeb.dumps host read.1 = none :=
            (congrArg Prod.fst hout).symm.trans hc
          simp only [Option.map_some, Option.bind_eq_bind, Option.bind_some, hnone, Option.bind_none]
  | @returned data out y hdumps hrelays hloads =>
      obtain ⟨v, hv, hout⟩ := hrelays.eq_some []
      rw [List.append_nil] at hv
      rw [hdumps, Option.bind_eq_bind, Option.bind_some, Python.Dimeb.loads, hv]
      simp only [Option.map_some, Option.bind_eq_bind, Option.bind_some, hout, dimebloads]
      have halone := hloads.alone
      cases hback : loadsPrefix computer out with
      | none =>
          rw [hback] at halone
          exact (Option.map_eq_none_iff.mp halone.symm).symm
      | some read =>
          rw [hback] at halone
          obtain ⟨y, rfl, hy⟩ := Option.map_eq_some_iff.mp halone.symm
          exact congrArg some (congrArg Prod.fst hy).symm

variable (computer host) in
/-- What comes back equals the value if the value is one that survives. -/
def Decided (x : Value) : Prop :=
  ∃ y, Travels computer host x y ∧ ((∃ back, y = some back ∧ x.isequal back = true) ↔ x.Survives)

/-- A value that does not come back. -/
theorem Decided.lost {x : Value} (h : Travels computer host x none) (hx : ¬ x.Survives) :
    Decided computer host x := by
  refine ⟨none, h, iff_of_false ?_ hx⟩
  intro hback
  obtain ⟨_, hback, _⟩ := hback
  cases hback

/-- A value of which something comes back. -/
theorem Decided.back {x y : Value} (h : Travels computer host x (some y))
    (hx : x.isequal y = true ↔ x.Survives) : Decided computer host x := by
  refine ⟨some y, h, ?_⟩
  rw [← hx]
  constructor
  · intro hback
    obtain ⟨back, heq, hequal⟩ := hback
    cases heq
    exact hequal
  · exact fun hequal => ⟨y, rfl, hequal⟩

theorem isNumber_iff {part : Datum × Datum} :
    Value.isNumber part = true ↔ part.1 ≠ .nan ∧ part.2 ≠ .nan := by
  simp [Value.isNumber]

theorem ofInt_ne_nan (n : Int) : Datum.ofInt n ≠ .nan := by
  intro h
  cases h

/-! ## Nothing, and truth values -/

theorem relays_null : Relays host [Tag.null.code] (some (some [Tag.null.code])) := by
  apply Delimits.intro
  intro rest
  refine ⟨.none, ?_, rfl⟩
  rw [List.singleton_append, Python.Dimeb.loadsPrefix, Tag.ofCode_code]
  rfl

theorem relays_truth (b : Bool) :
    Relays host [if b then Tag.true.code else Tag.false.code]
      (some (some [if b then Tag.true.code else Tag.false.code])) := by
  apply Delimits.intro
  intro rest
  refine ⟨.bool b, ?_, by cases b <;> rfl⟩
  rw [List.singleton_append]
  cases b with
  | true => rw [if_pos rfl, Python.Dimeb.loadsPrefix, Tag.ofCode_code]; rfl
  | false => rw [if_neg Bool.false_ne_true, Python.Dimeb.loadsPrefix, Tag.ofCode_code]; rfl

/-- An empty array comes back as `[]`. -/
theorem decided_empty {x : Value} {size : Size} (hparts : x.parts? = some (size, []))
    (hdumps : dimebdumps computer x = some [Tag.null.code])
    (hsurvives : x.Survives ↔ size = Size.matrix 0 0) : Decided computer host x := by
  apply Decided.back (.returned hdumps relays_null (delimits_null computer))
  rw [hsurvives, Value.isequal_iff_parts hparts]
  have hempty : (Value.numeric (.real (Grid.empty : Grid NumClass.double.Word))).parts? =
      some (Size.matrix 0 0, []) := rfl
  rw [hempty]
  constructor
  · intro h
    exact (Prod.mk.inj (Option.some.inj h.1)).1.symm
  · intro h
    exact ⟨by rw [h], List.forall_mem_nil _⟩

theorem decided_logical {x : Grid Bool} (h : x.size.dims = [1, 1]) :
    Decided computer host (.logical x) := by
  obtain ⟨b, rfl⟩ := Grid.eq_scalar h
  have hdumps : dimebdumps computer (.logical (Grid.scalar b)) = _ := dumpsLogical_scalar b
  apply Decided.back (.returned hdumps (relays_truth b) (delimits_truth computer b))
  refine iff_of_true ((Value.isequal_iff_parts rfl).mpr ⟨rfl, ?_⟩) trivial
  intro part hpart
  rw [List.mem_singleton.mp hpart]
  exact isNumber_iff.mpr ⟨ofInt_ne_nan _, ofInt_ne_nan _⟩

/-! ## Numbers -/

/-- The condition for a real array. -/
theorem survives_real {cls : NumClass} {re : Grid cls.Word} (hne : re.size.numel ≠ 0) :
    (Numeric.real re).Survives ↔ (∀ part ∈ (Numeric.real re).parts, Value.isNumber part = true) ∧
      if re.size.dims = [1, 1] then cls = .uint64 → ∀ x ∈ re.data, x.val < 2 ^ 63
      else (∀ n, re.size.dims ≠ [1, n]) ∧
        arrayLength (sentRank re.size.dims) cls.itemsize re.size.numel ≤ 255 := by
  have hne' : ¬ (Numeric.real re).size.numel = 0 := hne
  rw [Numeric.Survives, if_neg hne']
  exact Iff.rfl

/-- The condition for a complex array. -/
theorem survives_complex {x : Numeric} {im : List x.cls.Word} (him : x.im = some im)
    (hne : x.size.numel ≠ 0) :
    x.Survives ↔ (∀ part ∈ x.parts, Value.isNumber part = true) ∧
      (∀ bits ∈ x.re.data ++ im, Exact x.cls bits) ∧
        (x.size.dims = [1, 1] ∨ (∀ n, x.size.dims ≠ [1, n]) ∧ (∀ n, x.size.dims ≠ [n, 1]) ∧
          arrayLength x.size.dims.length (2 * (if x.cls = .single then 4 else 8)) x.size.numel ≤ 255) := by
  rw [Numeric.Survives, if_neg hne, him]

section

variable {cls : NumClass}

theorem kind_type (cls : NumClass) : cls.type.kind ≠ .c := by
  cases cls <;> decide

theorem itemsize_type (cls : NumClass) : cls.type.itemsize = cls.itemsize := by
  cases cls <;> rfl

theorem widen_eq (bits : Nat) : Python.widen bits = UInt64.ofNat (Binary.widen bits) := by
  rw [← Python.toNat_widen, UInt64.ofNat_toNat]

/-- The number that Python reads. -/
theorem number_encode (a : cls.Word) :
    cls.type.number (cls.encode a) = match cls.integer? a with
      | some n => .int n
      | none => .float (UInt64.ofNat (cls.toDouble a)) := by
  have hdecode : BigEndian.decode (cls.encode a) = a := BigEndian.decode_encode_of_lt a.isLt
  unfold Scalar.number
  rw [hdecode]
  cases cls with
  | single => exact congrArg Python.Value.float (widen_eq a)
  | _ => rfl

/-- Only integers of the class `uint64` can be `2 ^ 63` or more. -/
theorem integer_bounds {a : cls.Word} {n : Int} (h : cls.integer? a = some n) :
    -2 ^ 63 ≤ n ∧ (n < 2 ^ 63 ↔ (cls = .uint64 → a.val < 2 ^ 63)) := by
  have hsize : 256 ^ cls.itemsize ≤ 2 ^ 64 := by cases cls <;> decide
  have hpos : 0 < 256 ^ cls.itemsize := Nat.pow_pos (by decide)
  have hlow := Int.le_bmod (x := a.val) hpos
  have hhigh := Int.bmod_lt (x := a.val) hpos
  have hlt := a.isLt
  cases cls with
  | int8 | int16 | int32 | int64 =>
      rw [← Option.some.inj h]
      exact ⟨by omega, iff_of_true (by omega) fun heq => absurd heq (by decide)⟩
  | uint8 | uint16 | uint32 =>
      cases h
      simp only [NumClass.itemsize] at hlt
      exact ⟨by omega, iff_of_true (by omega) fun heq => absurd heq (by decide)⟩
  | uint64 =>
      cases h
      refine ⟨by omega, ?_⟩
      constructor
      · intro hn _
        omega
      · intro hn
        have := hn rfl
        omega
  | single | double => cases h

theorem datum_integer {a : cls.Word} {n : Int} (h : cls.integer? a = some n) :
    cls.datum a = Datum.ofInt n := by
  cases cls with
  | single | double => cases h
  | _ =>
      exact congrArg (fun m => Datum.ofInt (Option.getD m 0)) h

theorem datum_toDouble {a : cls.Word} (h : cls.integer? a = none) :
    Binary.double.datum (cls.toDouble a) = cls.datum a := by
  cases cls with
  | single => exact Binary.datum_widen a
  | double => rfl
  | _ => cases h

end

/-- An integer as an `int64`. -/
def int64Word (n : Int) : NumClass.int64.Word := Fin.ofNat _ (n % 2 ^ 64).toNat

theorem val_int64Word (n : Int) : (int64Word n).val = (n % 2 ^ 64).toNat := by
  have hlt : (n % 2 ^ 64).toNat < 2 ^ 64 := by omega
  exact Nat.mod_eq_of_lt hlt

/-- What Python makes of an integer. -/
theorem dumps_int (n : Int) : Python.Dimeb.dumps host (.int n) =
    if -2 ^ 63 ≤ n ∧ n < 2 ^ 63 then
      some ((Tag.scalar .i64).code :: NumClass.int64.encode (int64Word n))
    else none := by
  rw [Python.Dimeb.dumps, Python.packq, NumClass.encode, val_int64Word]
  split <;> rfl

theorem datum_int64Word {n : Int} (h : -2 ^ 63 ≤ n ∧ n < 2 ^ 63) :
    NumClass.int64.datum (int64Word n) = Datum.ofInt n := by
  have hnonneg : ((n % 2 ^ 64).toNat : Int) = n % 2 ^ 64 := Int.toNat_of_nonneg (by omega)
  have hbmod : (n % 2 ^ 64).bmod (2 ^ 64) = n :=
    (Int.emod_bmod n (2 ^ 64)).trans (Int.bmod_eq_of_le (by omega) (by omega))
  apply datum_integer
  rw [val_int64Word, NumClass.integer?, hnonneg]
  exact congrArg some hbmod

/-- A bit pattern as a `double`. -/
def doubleWord (bits : Nat) : NumClass.double.Word := ⟨bits % 2 ^ 64, Nat.mod_lt _ (by decide)⟩

theorem val_doubleWord {cls : NumClass} (a : cls.Word) :
    (doubleWord (cls.toDouble a)).val = cls.toDouble a :=
  Nat.mod_eq_of_lt (toDouble_lt a)

theorem packd_ofNat (bits : Nat) :
    Python.packd (UInt64.ofNat bits) = NumClass.double.encode (doubleWord bits) := by
  rw [Python.packd, UInt64.toNat_ofNat', NumClass.encode, doubleWord]
  rfl

/-- Two numbers. -/
theorem isequal_number {x y : Value} {size : Size} {part part' : Datum × Datum}
    (hx : x.parts? = some (size, [part])) (hy : y.parts? = some (size, [part'])) :
    x.isequal y = true ↔ part' = part ∧ Value.isNumber part = true := by
  rw [Value.isequal_iff_parts hx, hy]
  simp

section

variable {cls : NumClass}

theorem parts_real (a : cls.Word) : (Value.numeric (.real (Grid.scalar a))).parts? =
    some (Size.row 1, [(cls.datum a, Datum.ofInt 0)]) := rfl

theorem survives_scalar {a : cls.Word} : (Value.numeric (.real (Grid.scalar a))).Survives ↔
    cls.datum a ≠ .nan ∧ (cls = .uint64 → a.val < 2 ^ 63) := by
  have hdims : (Grid.scalar a).size.dims = [1, 1] := rfl
  have hdata : ∀ x ∈ (Grid.scalar a).data, x = a := fun x hx => List.mem_singleton.mp hx
  have ha : a ∈ (Grid.scalar a).data := List.mem_singleton_self a
  have hne : (Grid.scalar a).size.numel ≠ 0 := Nat.one_ne_zero
  have hparts : (Numeric.real (Grid.scalar a)).parts = [(cls.datum a, Datum.ofInt 0)] := rfl
  have hnumber : cls.datum a ≠ .nan ∧ Datum.ofInt 0 ≠ .nan ↔ cls.datum a ≠ .nan :=
    and_iff_left (ofInt_ne_nan 0)
  rw [Value.Survives, survives_real hne, if_pos hdims, hparts, List.forall_mem_singleton, isNumber_iff,
    hnumber, and_congr_right_iff]
  intro _
  constructor
  · exact fun h hcls => h hcls a ha
  · exact fun h hcls x hx => hdata x hx ▸ h hcls

theorem decided_real (a : cls.Word) : Decided computer host (.numeric (.real (Grid.scalar a))) := by
  have hdumps : dimebdumps computer (.numeric (.real (Grid.scalar a))) = some _ :=
    congrArg some (dumpsNumeric_real computer a)
  have hlength : (cls.encode a).length = cls.type.itemsize := by
    rw [length_encode, itemsize_type]
  have hrelays := Python.relays_real host (kind_type cls) hlength
  rw [number_encode] at hrelays
  cases hinteger : cls.integer? a with
  | none =>
      have hfloat : cls ≠ .uint64 := by
        intro heq
        subst heq
        cases hinteger
      simp only [hinteger, Python.Dimeb.dumps, packd_ofNat] at hrelays
      apply Decided.back (.returned hdumps hrelays (@delimits_real computer .double _))
      have hdatum : NumClass.double.datum (doubleWord (cls.toDouble a)) = cls.datum a := by
        rw [val_doubleWord]
        exact datum_toDouble hinteger
      rw [isequal_number (parts_real a) (parts_real _), survives_scalar, hdatum, isNumber_iff]
      simp [hfloat, ofInt_ne_nan]
  | some n =>
      obtain ⟨hlow, hhigh⟩ := integer_bounds hinteger
      have hdatum := datum_integer hinteger
      simp only [hinteger, dumps_int] at hrelays
      by_cases hn : n < 2 ^ 63
      · rw [if_pos ⟨hlow, hn⟩] at hrelays
        apply Decided.back (.returned hdumps hrelays (@delimits_real computer .int64 _))
        rw [isequal_number (parts_real a) (parts_real _), survives_scalar, datum_int64Word ⟨hlow, hn⟩,
          hdatum, isNumber_iff]
        exact iff_of_true ⟨rfl, ofInt_ne_nan n, ofInt_ne_nan 0⟩ ⟨ofInt_ne_nan n, hhigh.mp hn⟩
      · rw [if_neg fun h => hn h.2] at hrelays
        apply Decided.lost (.refused hdumps hrelays rfl)
        rw [survives_scalar, ← hhigh]
        exact fun h => hn h.2

theorem parts_complex (a b : cls.Word) : (Value.numeric (.complexScalar a b)).parts? =
    some (Size.row 1, [(cls.datum a, cls.datum b)]) := rfl

theorem survives_complexScalar {a b : cls.Word} : (Value.numeric (.complexScalar a b)).Survives ↔
    (cls.datum a ≠ .nan ∧ cls.datum b ≠ .nan) ∧ Exact cls a ∧ Exact cls b := by
  have hdims : (Numeric.complexScalar a b).size.dims = [1, 1] := rfl
  have hparts : (Numeric.complexScalar a b).parts = [(cls.datum a, cls.datum b)] := rfl
  have hdata : ∀ P : cls.Word → Prop, (∀ x ∈ (Grid.scalar a).data ++ [b], P x) ↔ P a ∧ P b := by
    intro P
    change (∀ x ∈ [a, b], P x) ↔ _
    simp
  have hne : (Numeric.complexScalar a b).size.numel ≠ 0 := Nat.one_ne_zero
  rw [Value.Survives, survives_complex rfl hne, hparts, List.forall_mem_singleton, isNumber_iff]
  rw [and_congr_right_iff]
  intro _
  rw [and_iff_left (.inl hdims)]
  exact hdata _

variable (host) in
/-- Python has complex numbers of two doubles. -/
theorem relays_complexType {target : NumClass} (htarget : target = .single ∨ target = .double)
    (re im : target.Word) :
    Relays host ((Tag.scalar target.complexType).code :: (target.encode re ++ target.encode im))
      (some (some ((Tag.scalar .complexDouble).code ::
        (NumClass.double.encode (doubleWord (target.toDouble re)) ++
          NumClass.double.encode (doubleWord (target.toDouble im)))))) := by
  let read (item : Bytes) : UInt64 := UInt64.ofNat (target.toDouble (BigEndian.decode item))
  have hread : ∀ x : target.Word, Python.packd (read (target.encode x)) =
      NumClass.double.encode (doubleWord (target.toDouble x)) := by
    intro x
    have hdecode : BigEndian.decode (target.encode x) = x := BigEndian.decode_encode_of_lt x.isLt
    rw [← packd_ofNat, ← hdecode]
  have hlength : ∀ x : target.Word, 2 * (target.encode x).length = target.complexType.itemsize := by
    intro x
    rw [length_encode]
    obtain rfl | rfl := htarget <;> rfl
  rw [← hread, ← hread]
  apply Python.relays_complex host read ?_ (hlength re) (hlength im)
  obtain rfl | rfl := htarget
  · exact .inl ⟨rfl, fun item => (widen_eq _).symm⟩
  · exact .inr ⟨rfl, fun item => rfl⟩

theorem decided_complex (a b : cls.Word) :
    Decided computer host (.numeric (.complexScalar a b)) := by
  obtain ⟨target, htarget, htype, hbytes⟩ := exists_partBytes computer cls
  obtain ⟨re, hre, hrebits⟩ := hbytes a
  obtain ⟨im, him, himbits⟩ := hbytes b
  have hdumps : dimebdumps computer (.numeric (.complexScalar a b)) = some _ :=
    congrArg some (dumpsNumeric_complex computer a b)
  have hrelays := relays_complexType host (htarget ▸ ite_eq_or_eq _ _ _) re im
  rw [hre, him, htype] at hdumps
  apply Decided.back (.returned hdumps hrelays (@delimits_complex computer .double (.inr rfl) _ _))
  have hexact : ∀ x : cls.Word, NumClass.double.datum (doubleWord (cls.toDouble x)) = cls.datum x ↔
      Exact cls x := by
    intro x
    rw [val_doubleWord]
    exact Iff.rfl
  rw [isequal_number (parts_complex a b) (parts_complex _ _), survives_complexScalar, hrebits, himbits,
    Prod.mk.injEq, hexact, hexact, isNumber_iff, and_comm]

end

/-! ## Arrays -/

theorem Size.dims_lt {size : Size} (hne : size.numel ≠ 0) (h : size.Fits) : ∀ n ∈ size.dims, n < 2 ^ 32 := by
  intro n hn
  have hle : n ≤ size.numel := Nat.le_of_dvd (Nat.pos_of_ne_zero hne) (List.dvd_prod hn)
  have hlt := h.2
  omega

variable (host) in
/-- Python keeps an array that is small enough, up to a dimension that is one. -/
theorem relays_size (type : Scalar) {size : Size} (hne : size.numel ≠ 0) (h : size.Fits) {body : Bytes}
    (hbody : body.length = type.itemsize * size.numel) :
    Relays host (matHeader type size.dims ++ body)
      (some (some (matHeader type (squeezeShape size.dims) ++ body))) := by
  have hnil : size.dims ≠ [] := by
    intro hnil
    have htwo := size.two_le
    rw [hnil] at htwo
    cases htwo
  have hitemsize : type.itemsize ≤ 16 := by cases type <;> decide
  have hbytes : size.numel * type.itemsize ≤ size.numel * 16 := Nat.mul_le_mul_left _ hitemsize
  have hcount := h.2
  have htotal : size.dims.prod * type.itemsize < 2 ^ 63 := by
    change size.numel * type.itemsize < 2 ^ 63
    omega
  exact Python.relays_mat host type hnil h.1 (Size.dims_lt hne h) htotal hbody

theorem squeezeShape_row (n : Nat) : squeezeShape [1, n] = [n] := rfl

theorem squeezeShape_column {n : Nat} (hn : n ≠ 1) : squeezeShape [n, 1] = [n] := by
  unfold squeezeShape
  split
  next heq => exact absurd (List.cons.inj heq).1 hn
  next heq => rw [(List.cons.inj heq).1]
  next hcolumn => exact absurd rfl (hcolumn n)

/-- What is neither a row nor a column is kept as it is. -/
theorem squeezeShape_of_ne {dims : List Nat} (hrow : ∀ n, dims ≠ [1, n]) (hcolumn : ∀ n, dims ≠ [n, 1]) :
    squeezeShape dims = dims := by
  unfold squeezeShape
  split
  · exact absurd rfl (hrow _)
  · exact absurd rfl (hcolumn _)
  · rfl

/-- What is no row gets its dimensions back. -/
theorem unsqueeze_squeezeShape {size : Size} (hrow : ∀ n, size.dims ≠ [1, n]) :
    unsqueeze (squeezeShape size.dims) = size.dims ∧
      (squeezeShape size.dims).length = sentRank size.dims := by
  by_cases hcolumn : ∃ n, size.dims = [n, 1]
  · obtain ⟨n, hn⟩ := hcolumn
    have hn1 : n ≠ 1 := fun heq => hrow 1 (heq ▸ hn)
    rw [hn, squeezeShape_column hn1]
    exact ⟨rfl, rfl⟩
  · have hcolumn' : ∀ n, size.dims ≠ [n, 1] := fun n hn => hcolumn ⟨n, hn⟩
    rw [squeezeShape_of_ne hrow hcolumn']
    have htwo := size.two_le
    refine ⟨if_neg (by omega), ?_⟩
    unfold sentRank
    split
    next heq => exact absurd heq (hcolumn' _)
    next => rfl

section

variable {cls : NumClass}

variable (computer) in
/-- What Matlab makes of an array. -/
theorem delimits_mat {shape : List Nat} (hdims : ∀ n ∈ shape, n < 2 ^ 32) (hrank : shape.length ≤ 64)
    (words : List cls.Word) (hcount : words.length = shape.prod) (hpos : 0 < shape.prod) :
    Delimits (loadsPrefix computer) id (matHeader cls.type shape ++ words.flatMap cls.encode)
      (if arrayLength shape.length cls.itemsize shape.prod ≤ 255 then
        (Grid.reshape words (unsqueeze shape)).map fun x => .numeric (.real x)
      else none) := by
  intro rest
  have hload : ∀ body, loadsPrefix computer (matHeader cls.type shape ++ body) =
      loadsMat computer (matHeader cls.type shape ++ body) cls := fun body => loadsPrefix_mat computer cls _
  rw [List.append_assoc, hload, List.length_append, Python.length_matHeader, length_flatMap_encode, hcount]
  by_cases hfits : arrayLength shape.length cls.itemsize shape.prod ≤ 255
  · rw [if_pos hfits, loadsMat_fits computer hdims words hcount hpos hfits rest, arrayLength,
      Nat.mul_comm shape.prod]
    cases Grid.reshape words (unsqueeze shape) with
    | none => rfl
    | some x => rfl
  · rw [if_neg hfits, loadsMat_exceeds computer hdims hrank (Nat.lt_of_not_le hfits)]
    rfl

/-- A row comes back as a column. -/
theorem not_isequal_row {re x : Grid cls.Word} {n : Nat} (hn : n ≠ 1) (hre : re.size.dims = [1, n])
    (hx : Size.ofDims [n, 1] = some x.size) :
    ¬ (Value.numeric (.real re)).isequal (.numeric (.real x)) = true := by
  intro hequal
  obtain ⟨hparts, _⟩ := (Value.isequal_iff_parts rfl).mp hequal
  have hsize : x.size = re.size := (Prod.mk.inj (Option.some.inj hparts)).1
  have hcolumn : x.size.dims = [n, 1] := by
    have hmatrix : Size.ofDims [n, 1] = some (Size.matrix n 1) := Size.ofDims_dims (Size.matrix n 1)
    rw [← Option.some.inj (hmatrix.symm.trans hx)]
    rfl
  rw [hsize, hre] at hcolumn
  exact hn (List.cons.inj hcolumn).1.symm

theorem decided_mat {re : Grid cls.Word} (hne : re.size.numel ≠ 0) (hdims : re.size.dims ≠ [1, 1])
    (hfits : re.size.Fits) : Decided computer host (.numeric (.real re)) := by
  have hlt := Size.dims_lt hne hfits
  have hdumps : dimebdumps computer (.numeric (.real re)) =
      some (matHeader cls.type re.size.dims ++ re.data.flatMap cls.encode) := by
    rw [dimebdumps_real hne, if_neg hdims,
      shapeBytes_eq computer cls.type (le_trans hfits.1 (by decide)) hlt]
  have hbody : (re.data.flatMap cls.encode).length = cls.type.itemsize * re.size.numel := by
    rw [length_flatMap_encode, re.length_data, itemsize_type]
  have hrelays := relays_size host cls.type hne hfits hbody
  have hprod : (squeezeShape re.size.dims).prod = re.size.numel := Python.prod_squeezeShape _
  have hloads := @delimits_mat computer cls (squeezeShape re.size.dims)
    (fun n hn => hlt n (Python.mem_squeezeShape hn))
    (le_trans (Python.length_squeezeShape_le _) hfits.1) re.data (re.length_data.trans hprod.symm)
    (hprod ▸ Nat.pos_of_ne_zero hne)
  have htravels := Travels.returned hdumps hrelays hloads
  rw [hprod] at htravels
  have hsurvives : (Value.numeric (.real re)).Survives ↔ _ := survives_real hne
  rw [if_neg hdims] at hsurvives
  by_cases hrow : ∃ n, re.size.dims = [1, n]
  · obtain ⟨n, hn⟩ := hrow
    have hn1 : n ≠ 1 := fun heq => hdims (heq ▸ hn)
    have hnot : ¬ (Value.numeric (.real re)).Survives := fun h => (hsurvives.mp h).2.1 n hn
    refine ⟨_, htravels, iff_of_false ?_ hnot⟩
    intro hback
    obtain ⟨back, heq, hequal⟩ := hback
    split at heq
    · obtain ⟨x, hx, rfl⟩ := Option.map_eq_some_iff.mp heq
      rw [hn, squeezeShape_row] at hx
      exact not_isequal_row hn1 hn (Grid.reshape_eq_some hx).2.2 hequal
    · cases heq
  · have hrow' : ∀ n, re.size.dims ≠ [1, n] := fun n hn => hrow ⟨n, hn⟩
    obtain ⟨hunsqueeze, hrank⟩ := unsqueeze_squeezeShape hrow'
    rw [hunsqueeze, hrank, Grid.reshape_dims] at htravels
    by_cases hlength : arrayLength (sentRank re.size.dims) cls.itemsize re.size.numel ≤ 255
    · rw [if_pos hlength] at htravels
      apply Decided.back htravels
      rw [hsurvives, Value.isequal_iff_parts rfl]
      constructor
      · exact fun h => ⟨h.2, hrow', hlength⟩
      · exact fun h => ⟨rfl, h.1⟩
    · rw [if_neg hlength] at htravels
      exact Decided.lost htravels fun h => hlength (hsurvives.mp h).2.2

end

/-! ## Complex arrays -/

section

variable {target : NumClass}

variable (computer) in
/-- What Matlab makes of a complex array. -/
theorem delimits_matComplex (htarget : target = .single ∨ target = .double) {shape : List Nat}
    (hdims : ∀ n ∈ shape, n < 2 ^ 32) (hrank : shape.length ≤ 64) {re im : List target.Word}
    (hcount : re.length = shape.prod) (him : im.length = re.length) (hpos : 0 < shape.prod) :
    Delimits (loadsPrefix computer) id
      (matHeader target.complexType shape ++ (interleave re im).flatMap target.encode)
      (if arrayLength shape.length (2 * target.itemsize) shape.prod ≤ 255 then complex re im shape
      else none) := by
  intro rest
  have hload : ∀ body, loadsPrefix computer (matHeader target.complexType shape ++ body) =
      loadsMatComplex computer (matHeader target.complexType shape ++ body) target := fun body =>
    (loadsPrefix_complex computer htarget _).2
  rw [List.append_assoc, hload, List.length_append, Python.length_matHeader, length_flatMap_encode,
    length_interleave him, hcount]
  by_cases hfits : arrayLength shape.length (2 * target.itemsize) shape.prod ≤ 255
  · have hlength : target.itemsize * (2 * shape.prod) = shape.prod * (2 * target.itemsize) := by ring
    rw [if_pos hfits, loadsMatComplex_fits computer hdims hcount him hpos hfits rest, arrayLength, hlength]
    cases complex re im shape with
    | none => rfl
    | some obj => rfl
  · rw [if_neg hfits, loadsMatComplex_exceeds computer hdims hrank (Nat.lt_of_not_le hfits)]
    rfl

variable {cls : NumClass} {f : cls.Word → target.Word}

/-- The parts of the elements, in the class that is sent. -/
theorem flatMap_partBytes_map (hf : ∀ x, partBytes computer cls x = target.encode (f x))
    (re im : List cls.Word) :
    (re.zip im).flatMap (fun element => partBytes computer cls element.1 ++ partBytes computer cls element.2) =
      (interleave (re.map f) (im.map f)).flatMap target.encode := by
  rw [interleave, List.zip_map, List.flatMap_map, List.flatMap_assoc]
  simp only [hf, Prod.map, List.flatMap_cons, List.flatMap_nil, List.append_nil]

/-- Every part is an element of one list or the other. -/
theorem forall_mem_zip {α : Type} {P : α → Prop} {re im : List α} (h : im.length = re.length) :
    (∀ element ∈ re.zip im, P element.1 ∧ P element.2) ↔ ∀ x ∈ re ++ im, P x := by
  constructor
  · intro hall x hx
    cases List.mem_append.mp hx with
    | inl hre =>
        rw [← List.map_fst_zip (le_of_eq h.symm)] at hre
        obtain ⟨element, hmem, rfl⟩ := List.mem_map.mp hre
        exact (hall element hmem).1
    | inr him =>
        rw [← List.map_snd_zip (le_of_eq h)] at him
        obtain ⟨element, hmem, rfl⟩ := List.mem_map.mp him
        exact (hall element hmem).2
  · intro hall element hmem
    obtain ⟨hre, him⟩ := List.of_mem_zip hmem
    exact ⟨hall _ (List.mem_append_left _ hre), hall _ (List.mem_append_right _ him)⟩

end

/-- The parts that come back are those that were sent if these are exactly doubles. -/
theorem parts_map_iff {x : Numeric} {im : List x.cls.Word} (him : x.im = some im) {target : NumClass}
    {f : x.cls.Word → target.Word}
    (hf : ∀ a, target.datum (f a) = Binary.double.datum (x.cls.toDouble a)) :
    ((x.re.data.map f).zip (im.map f)).map (fun element => (target.datum element.1, target.datum element.2)) =
      x.parts ↔ ∀ bits ∈ x.re.data ++ im, Exact x.cls bits := by
  have hparts : x.parts =
      (x.re.data.zip im).map fun element => (x.cls.datum element.1, x.cls.datum element.2) := by
    rw [Numeric.parts, him]
  rw [hparts, List.zip_map, List.map_map, ← forall_mem_zip (x.length_im im him), List.map_inj_left]
  refine forall₂_congr fun element _ => ?_
  rw [Function.comp_apply, Prod.mk.injEq, Prod.map_fst, Prod.map_snd, hf, hf]
  exact Iff.rfl

/-- What comes back of a complex array, in the class that is sent. -/
theorem travels_matComplex {x : Numeric} {im : List x.cls.Word} (him : x.im = some im)
    (hne : x.size.numel ≠ 0) (hdims : x.size.dims ≠ [1, 1]) (hfits : x.size.Fits) :
    ∃ (target : NumClass) (f : x.cls.Word → target.Word),
      (target = if x.cls = .single then .single else .double) ∧
      (∀ a, target.datum (f a) = Binary.double.datum (x.cls.toDouble a)) ∧
      Travels computer host (.numeric x)
        (if arrayLength (squeezeShape x.size.dims).length (2 * target.itemsize) x.size.numel ≤ 255 then
          complex (x.re.data.map f) (im.map f) (squeezeShape x.size.dims)
        else none) := by
  have hlt := Size.dims_lt hne hfits
  have hcount : x.re.data.length = x.size.numel := x.re.length_data
  obtain ⟨target, htarget, htype, hbytes⟩ := exists_partBytes computer x.cls
  choose f hf hbits using hbytes
  have hfloat : target = .single ∨ target = .double := htarget ▸ ite_eq_or_eq _ _ _
  have hitemsize : target.complexType.itemsize = 2 * target.itemsize := by
    obtain rfl | rfl := hfloat <;> rfl
  have hdatum : ∀ a, target.datum (f a) = Binary.double.datum (x.cls.toDouble a) := by
    intro a
    rw [← hbits, datum_toDouble]
    obtain rfl | rfl := hfloat <;> rfl
  have hwords : (im.map f).length = (x.re.data.map f).length := by
    rw [List.length_map, List.length_map, x.length_im im him]
  have hdumps : dimebdumps computer (.numeric x) = some (matHeader target.complexType x.size.dims ++
      (interleave (x.re.data.map f) (im.map f)).flatMap target.encode) := by
    rw [dimebdumps, dumps, dumpsNumeric, if_neg hne, him]
    simp only [flatMap_partBytes_map hf, htype]
    rw [if_neg hdims, shapeBytes_eq computer target.complexType (le_trans hfits.1 (by decide)) hlt]
  have hbody : ((interleave (x.re.data.map f) (im.map f)).flatMap target.encode).length =
      target.complexType.itemsize * x.size.numel := by
    rw [length_flatMap_encode, length_interleave hwords, List.length_map, hcount, hitemsize]
    ring
  have hrelays := relays_size host target.complexType hne hfits hbody
  have hprod : (squeezeShape x.size.dims).prod = x.size.numel := Python.prod_squeezeShape _
  have hloads := delimits_matComplex computer hfloat
    (fun n hn => hlt n (Python.mem_squeezeShape hn)) (le_trans (Python.length_squeezeShape_le _) hfits.1)
    ((List.length_map f).trans (hcount.trans hprod.symm)) hwords (hprod ▸ Nat.pos_of_ne_zero hne)
  rw [hprod] at hloads
  exact ⟨target, f, htarget, hdatum, .returned hdumps hrelays hloads⟩

/-- The shape of a vector, one number, is refused. -/
theorem complex_squeezeShape {cls : NumClass} {dims : List Nat} (hdims : dims ≠ [1, 1])
    (hvector : (∃ n, dims = [1, n]) ∨ ∃ n, dims = [n, 1]) (re im : List cls.Word) :
    complex re im (squeezeShape dims) = none := by
  have hshort : (squeezeShape dims).length < 2 := by
    obtain ⟨n, rfl⟩ | ⟨n, rfl⟩ := hvector
    · exact Nat.one_lt_two
    · rw [squeezeShape_column fun heq => hdims (by rw [heq])]
      exact Nat.one_lt_two
  rw [Option.eq_none_iff_forall_ne_some]
  intro obj hobj
  have htwo := (complex_eq_some hobj).2.2
  omega

theorem decided_matComplex {x : Numeric} {im : List x.cls.Word} (him : x.im = some im)
    (hne : x.size.numel ≠ 0) (hdims : x.size.dims ≠ [1, 1]) (hfits : x.size.Fits) :
    Decided computer host (.numeric x) := by
  have hsurvives : (Value.numeric x).Survives ↔ _ := survives_complex him hne
  obtain ⟨target, f, htarget, hdatum, htravels⟩ := travels_matComplex him hne hdims hfits
  have hwords : (im.map f).length = (x.re.data.map f).length := by
    rw [List.length_map, List.length_map, x.length_im im him]
  by_cases hvector : (∃ n, x.size.dims = [1, n]) ∨ ∃ n, x.size.dims = [n, 1]
  · rw [complex_squeezeShape hdims hvector, ite_self] at htravels
    apply Decided.lost htravels
    intro h
    obtain ⟨_, _, hone | ⟨hrow, hcolumn, _⟩⟩ := hsurvives.mp h
    · exact hdims hone
    · obtain ⟨n, hn⟩ | ⟨n, hn⟩ := hvector
      · exact hrow n hn
      · exact hcolumn n hn
  · have hrow : ∀ n, x.size.dims ≠ [1, n] := fun n hn => hvector (.inl ⟨n, hn⟩)
    have hcolumn : ∀ n, x.size.dims ≠ [n, 1] := fun n hn => hvector (.inr ⟨n, hn⟩)
    have hsize : 2 * (if x.cls = .single then 4 else 8) = 2 * target.itemsize := by
      rw [htarget]
      split <;> rfl
    rw [hsize] at hsurvives
    rw [squeezeShape_of_ne hrow hcolumn] at htravels
    by_cases hlength : arrayLength x.size.dims.length (2 * target.itemsize) x.size.numel ≤ 255
    · let re : Grid target.Word := ⟨x.size, x.re.data.map f, (List.length_map f).trans x.re.length_data⟩
      let y : Numeric := ⟨target, re, some (im.map f), fun _ heq => Option.some.inj heq ▸ hwords⟩
      have hcomplex : complex (x.re.data.map f) (im.map f) x.size.dims = some (.numeric y) :=
        complex_dims y.length_im rfl
      rw [if_pos hlength, hcomplex] at htravels
      apply Decided.back htravels
      have hback : (Value.numeric y).parts? = some (x.size, ((x.re.data.map f).zip (im.map f)).map
          fun element => (target.datum element.1, target.datum element.2)) := rfl
      rw [hsurvives, ← parts_map_iff him hdatum, Value.isequal_iff_parts rfl, hback, Option.some.injEq,
        Prod.mk.injEq]
      constructor
      · exact fun h => ⟨h.2, h.1.2, .inr ⟨hrow, hcolumn, hlength⟩⟩
      · exact fun h => ⟨⟨rfl, h.2.1⟩, h.1⟩
    · rw [if_neg hlength] at htravels
      apply Decided.lost htravels
      intro h
      obtain ⟨_, _, hone | ⟨_, _, hshort⟩⟩ := hsurvives.mp h
      · exact hdims hone
      · exact hlength hshort

theorem decided_numeric {x : Numeric} (hfits : x.size.Fits) : Decided computer host (.numeric x) := by
  by_cases hempty : x.size.numel = 0
  · have hnil : x.re.data = [] := List.eq_nil_of_length_eq_zero (x.re.length_data.trans hempty)
    have hparts : x.parts = [] := by
      unfold Numeric.parts
      rw [hnil]
      cases x.im with
      | none => rfl
      | some im => rfl
    have hparts' : (Value.numeric x).parts? = some (x.size, []) := congrArg (fun parts => some (_, parts)) hparts
    apply decided_empty hparts'
    · rw [dimebdumps, dumps, dumpsNumeric, if_pos hempty]
    · rw [Value.Survives, Numeric.Survives, if_pos hempty]
  · by_cases hdims : x.size.dims = [1, 1]
    · obtain ⟨cls, a, rfl⟩ | ⟨cls, a, b, rfl⟩ := scalar_cases hdims
      · exact decided_real a
      · exact decided_complex a b
    · cases him : x.im with
      | none =>
          obtain ⟨cls, re, im, length_im⟩ := x
          obtain rfl : im = none := him
          exact decided_mat hempty hdims hfits
      | some im => exact decided_matComplex him hempty hdims hfits

/-! ## Texts -/

/-- A text is sent in single bytes. -/
theorem charBytes_eq_iff {chars : List UInt16} :
    (charBytes chars).map (fun byte => UInt16.ofNat byte.toNat) = chars ↔ ∀ c ∈ chars, c.toNat ≤ 255 := by
  constructor
  · intro h c hc
    rw [← h] at hc
    obtain ⟨byte, _, rfl⟩ := List.mem_map.mp hc
    have hbyte := byte.toNat_lt
    rw [UInt16.toNat_ofNat', Nat.mod_eq_of_lt (by omega)]
    omega
  · exact charBytes_of_le

theorem charBytes_eq {chars : List UInt16} (h : ∀ c ∈ chars, c.toNat ≤ 255) :
    charBytes chars = chars.map fun c => UInt8.ofNat c.toNat :=
  List.map_congr_left fun c hc => by rw [uint8_of_le (h c hc)]

theorem Grid.eq_row {α : Type} {x : Grid α} (h : x.size.dims = [1, x.data.length]) : x = Grid.row x.data := by
  obtain ⟨⟨dims, two_le, trimmed⟩, data, length_data⟩ := x
  obtain rfl : dims = [1, data.length] := h
  rfl

theorem isequal_char {chars chars' : List UInt16} :
    (Value.char (Grid.row chars)).isequal (.char (Grid.row chars')) = true ↔ chars' = chars := by
  have hparts : ∀ chars : List UInt16, (Value.char (Grid.row chars)).parts? =
      some (Size.row chars.length, chars.map fun c => (Datum.ofInt c.toNat, Datum.ofInt 0)) := fun _ => rfl
  have hinjective : Function.Injective fun c : UInt16 => (Datum.ofInt c.toNat, Datum.ofInt 0) := by
    intro c c' heq
    have hint := Binary.Datum.ofInt_inj (Prod.mk.inj heq).1
    exact UInt16.toNat_inj.mp (Int.ofNat.inj hint)
  rw [Value.isequal_iff_parts (hparts chars), hparts]
  constructor
  · intro h
    exact List.map_injective_iff.mpr hinjective (Prod.mk.inj (Option.some.inj h.1)).2
  · rintro rfl
    refine ⟨rfl, List.forall_mem_map.mpr fun c _ => ?_⟩
    exact isNumber_iff.mpr ⟨ofInt_ne_nan _, ofInt_ne_nan _⟩

theorem decided_char {x : Grid UInt16} (hfits : x.size.Fits) : Decided computer host (.char x) := by
  by_cases hempty : x.size.numel = 0
  · have hnil : x.data = [] := List.eq_nil_of_length_eq_zero (x.length_data.trans hempty)
    have hparts : (Value.char x).parts? = some (x.size, []) := by rw [Value.parts?, hnil, List.map_nil]
    apply decided_empty hparts
    · rw [dimebdumps, dumps, dumpsChar, if_pos hempty]
    · rw [Value.Survives, charSurvives, if_pos hempty]
  · have hsurvives : (Value.char x).Survives ↔ _ := Iff.of_eq (if_neg hempty)
    by_cases hdims : x.size.dims = [1, x.data.length]
    · have hlength : x.data.length + 5 < 2 ^ 32 := by
        rw [x.length_data]
        exact hfits.2
      have hne : x.data ≠ [] := fun hnil => hempty (by rw [← x.length_data, hnil, List.length_nil])
      have hrow : x = Grid.row x.data := Grid.eq_row hdims
      have hbytes : Python.sized .string (charBytes x.data).length (charBytes x.data) =
          Tag.string.code :: (sizeBytes computer x.data.length ++ charBytes x.data) := by
        rw [sizeBytes_eq computer (by omega), length_charBytes]
        rfl
      have hdumps : dimebdumps computer (.char x) =
          some (Python.sized .string (charBytes x.data).length (charBytes x.data)) := by
        rw [hbytes, ← dumpsChar_row computer hne, ← hrow]
        rfl
      have hshort : (charBytes x.data).length < 2 ^ 32 := by
        rw [length_charBytes]
        omega
      have hrelays := Python.relays_string host hshort
      cases hdecode : Python.utf8Decode (charBytes x.data) with
      | none =>
          rw [hdecode] at hrelays
          apply Decided.lost (.refused hdumps hrelays rfl)
          intro h
          obtain ⟨_, _, hle, hsome⟩ := hsurvives.mp h
          rw [← charBytes_eq hle, hdecode] at hsome
          cases hsome
      | some text =>
          rw [hdecode] at hrelays
          have hloads := delimits_row computer hlength
          rw [← hbytes] at hloads
          apply Decided.back (.returned hdumps hrelays hloads)
          have hequal : (Value.char (Grid.row x.data)).isequal (.char (Grid.row
              ((charBytes x.data).map fun byte => UInt16.ofNat byte.toNat))) = true ↔ _ := isequal_char
          rw [← hrow] at hequal
          rw [hequal, charBytes_eq_iff, hsurvives]
          constructor
          · exact fun hle => ⟨hdims, hlength, hle, by rw [← charBytes_eq hle, hdecode]; rfl⟩
          · exact fun h => h.2.2.1
    · apply Decided.lost (.unsent ?_) fun h => hdims (hsurvives.mp h).1
      rw [dimebdumps, dumps, dumpsChar, if_neg hempty, if_neg hdims]

end Dime.Matlab
