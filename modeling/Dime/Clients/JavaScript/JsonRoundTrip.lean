import Dime.Foundation.Base64
import Dime.Clients.JavaScript.Json
import Dime.Clients.Python.DimebRoundTrip

/-!
# Round trip of JavaScript JSON

What `jsonloads` makes of the text that `jsondumps` writes, and for which values
this is the value that was written.
-/

namespace Dime.JavaScript

open Python (Endian)
open Strided

/-! ## Values -/

/-- `y` has the shape, the flag and the elements of `x`. -/
structure SameNDArray (host : Endian) (x y : NDArray) : Prop where
  shape : y.shape = x.shape
  complex : y.complex = x.complex
  elements : ∀ idx, InShape x.shape idx → ∃ v w, x.get host idx = some v ∧
    y.get host idx = some w ∧ w.quantity? = v.quantity?

/-- A value with the same structure and the same numbers in it. -/
inductive SameJson (host : Endian) : Value → Value → Prop where
  | null : SameJson host .null .null
  | boolean (b : Bool) : SameJson host (.boolean b) (.boolean b)
  | number {bits bits' : UInt64} (same : datum bits' = datum bits) :
      SameJson host (.number bits) (.number bits')
  | string (s : Units) : SameJson host (.string s) (.string s)
  | complex {real imag real' imag' : UInt64} (re : datum real' = datum real)
      (im : datum imag' = datum imag) :
      SameJson host (.complex (.number real) (.number imag)) (.complex (.number real') (.number imag'))
  | ndarray {x y : NDArray} (same : SameNDArray host x y) : SameJson host (.ndarray x) (.ndarray y)
  | array {xs ys : List Value} (length : xs.length = ys.length)
      (elements : ∀ pair ∈ xs.zip ys, SameJson host pair.1 pair.2) :
      SameJson host (.array xs) (.array ys)
  | object {entries entries' : List (Units × Value)}
      (keys : entries'.map Prod.fst = entries.map Prod.fst)
      (values : ∀ pair ∈ entries.zip entries', SameJson host pair.1.2 pair.2.2) :
      SameJson host (.object entries) (.object entries')

/-- The values that are built from JSON types, complex numbers and arrays of numbers. -/
inductive Plain : Value → Prop where
  | null : Plain .null
  | boolean (b : Bool) : Plain (.boolean b)
  | number {bits : UInt64} (finite : isFinite bits = true) : Plain (.number bits)
  | string (s : Units) : Plain (.string s)
  | complex (real imag : UInt64) : Plain (.complex (.number real) (.number imag))
  | ndarray {x : NDArray} (signed : x.array.type ≠ .of .bigInt64)
      (unsigned : x.array.type ≠ .of .bigUint64) (dims : ∀ n ∈ x.shape, n < 2 ^ 53) :
      Plain (.ndarray x)
  | array {xs : List Value} (elements : ∀ x ∈ xs, Plain x) : Plain (.array xs)
  | object {entries : List (Units × Value)} (values : ∀ entry ∈ entries, Plain entry.2) :
      Plain (.object entries)

/-- A property that is a finite number, and that number. -/
def HasNumber (obj : Value) (name : String) (number : Binary.Datum) : Prop :=
  ∃ bits, property obj name = some (.number bits) ∧ isFinite bits = true ∧ datum bits = number

/-- An array whose elements stand in column-major order from the start of the buffer. -/
def WholeArray (host : Endian) (x : NDArray) : Prop :=
  ∃ type whole, x.array.type = .of type ∧ TypedArray.ofBuffer type x.array.buffer = some whole ∧
    x.complex = false ∧ ∀ idx, InShape x.shape idx → ∃ v, x.get host idx = some v ∧
      (whole.get host (ravel x.shape idx)).quantity? = v.quantity?

/-- The parts of `obj` that come back: the complex numbers are those of `obj` itself, the
arrays are whole, and no object passes for something else. -/
inductive Survives (host : Endian) (obj : Value) : Value → Prop where
  | null : Survives host obj .null
  | boolean (b : Bool) : Survives host obj (.boolean b)
  | number (bits : UInt64) : Survives host obj (.number bits)
  | string (s : Units) : Survives host obj (.string s)
  | complex {real imag : UInt64} (re : HasNumber obj "real" (datum real))
      (im : HasNumber obj "imag" (datum imag)) :
      Survives host obj (.complex (.number real) (.number imag))
  | ndarray {x : NDArray} (whole : WholeArray host x) : Survives host obj (.ndarray x)
  | array {xs : List Value} (elements : ∀ x ∈ xs, Survives host obj x) :
      Survives host obj (.array xs)
  | object {entries : List (Units × Value)}
      (type : ∀ type, lookup entries "__dime_type" = some type →
        isString type "complex" = false ∧ isString type "matrix" = false)
      (values : ∀ entry ∈ entries, Survives host obj entry.2) : Survives host obj (.object entries)

/-! ## Numbers -/

theorem datum_textual (bits : UInt64) : datum (textual bits) = datum bits := by
  unfold textual
  split
  next hzero =>
    rw [hzero]
    decide +kernel
  next => rfl

section

variable {codec : Base64ArrayBuffer} {obj : Value} {host : Endian}

/-! ## Texts -/

/-- The members of an object that stands for another. -/
def serializeEntries (codec : Base64ArrayBuffer) (obj : Value) (depth : Nat)
    (entries : List (String × Value)) : Option (List (Units × Option Document)) :=
  entries.mapM fun entry => (serialize codec obj depth entry.2).map fun doc => (units entry.1, doc)

theorem serialize_array (depth : Nat) (xs : List Value) :
    serialize codec obj (depth + 1) (.array xs) =
      (xs.mapM (serialize codec obj depth)).map fun docs =>
        some (.array (docs.map fun doc => doc.getD .null)) := by
  rw [serialize]
  cases xs.mapM (serialize codec obj depth) <;> rfl

theorem serialize_object (depth : Nat) (entries : List (Units × Value)) :
    serialize codec obj (depth + 1) (.object entries) =
      (entries.mapM fun entry =>
        (serialize codec obj depth entry.2).map fun doc => (entry.1, doc)).map fun members =>
          some (.object (present members)) := by
  rw [serialize]
  cases entries.mapM fun entry =>
    (serialize codec obj depth entry.2).map fun doc => (entry.1, doc) <;> rfl

/-- A value for which the function in `jsondumps` returns an object. -/
theorem serialize_replaced {v : Value} {entries : List (String × Value)}
    (h : replacer codec obj v = some (some entries)) (depth : Nat) :
    serialize codec obj (depth + 1) v =
      (serializeEntries codec obj depth entries).map fun members =>
        some (.object (present members)) := by
  unfold serialize serializeEntries
  rw [h, Option.bind_eq_bind, Option.bind_some]
  dsimp only
  cases entries.mapM fun entry =>
    (serialize codec obj depth entry.2).map fun doc => (units entry.1, doc) <;> rfl

theorem serialize_thrown {v : Value} (h : replacer codec obj v = none) (depth : Nat) :
    serialize codec obj (depth + 1) v = none := by
  unfold serialize
  rw [h]
  rfl

theorem replacer_complex {real imag : Value} {replaced : Option (List (String × Value))}
    (h : replacer codec obj (.complex real imag) = some replaced) :
    ∃ re im, property obj "real" = some re ∧ property obj "imag" = some im ∧
      replaced = some [("__dime_type", .string (units "complex")), ("real", re), ("imag", im)] := by
  obtain ⟨re, hre, h⟩ := Option.bind_eq_some_iff.mp h
  obtain ⟨im, him, h⟩ := Option.bind_eq_some_iff.mp h
  exact ⟨re, im, hre, him, (Option.some.inj h).symm⟩

theorem mapM_mono {α β : Type} {f g : α → Option β} {l : List α} {l' : List β}
    (h : l.mapM f = some l') (hfg : ∀ a b, f a = some b → g a = some b) : l.mapM g = some l' := by
  rw [Python.mapM_eq_some_iff] at h ⊢
  exact h.imp hfg

/-- More room on the stack changes nothing. -/
theorem serialize_mono {depth depth' : Nat} (hdepth : depth ≤ depth') {v : Value}
    {o : Option Document} (h : serialize codec obj depth v = some o) :
    serialize codec obj depth' v = some o := by
  induction depth generalizing depth' v o with
  | zero => cases h
  | succ depth ih =>
      cases depth' with
      | zero => cases hdepth
      | succ depth' =>
          have hle : depth ≤ depth' := Nat.le_of_succ_le_succ hdepth
          have hmap : ∀ {β : Type} (f : Option Document → β) (v : Value) (b : β),
              (serialize codec obj depth v).map f = some b →
                (serialize codec obj depth' v).map f = some b := by
            intro β f v b hb
            obtain ⟨o, ho, rfl⟩ := Option.map_eq_some_iff.mp hb
            rw [ih hle ho]
            rfl
          cases hreplacer : replacer codec obj v with
          | none =>
              rw [serialize_thrown hreplacer] at h
              cases h
          | some replaced =>
              cases replaced with
              | some entries =>
                  rw [serialize_replaced hreplacer] at h ⊢
                  obtain ⟨members, hmembers, rfl⟩ := Option.map_eq_some_iff.mp h
                  have hmore : serializeEntries codec obj depth' entries = some members :=
                    mapM_mono hmembers fun entry => hmap _ entry.2
                  rw [hmore]
                  rfl
              | none =>
                  cases v with
                  | array xs =>
                      rw [serialize_array] at h ⊢
                      obtain ⟨docs, hdocs, rfl⟩ := Option.map_eq_some_iff.mp h
                      rw [mapM_mono hdocs fun x b hb => ih hle hb]
                      rfl
                  | object entries =>
                      rw [serialize_object] at h ⊢
                      obtain ⟨members, hmembers, rfl⟩ := Option.map_eq_some_iff.mp h
                      rw [mapM_mono hmembers fun entry => hmap _ entry.2]
                      rfl
                  | complex real imag =>
                      obtain ⟨_, _, _, _, hnone⟩ := replacer_complex hreplacer
                      cases hnone
                  | ndarray x => cases hreplacer
                  | _ => exact h

theorem serialize_string {depth : Nat} {s : Units} {o : Option Document}
    (h : serialize codec obj depth (.string s) = some o) : o = some (.string s) := by
  cases depth with
  | zero => cases h
  | succ depth => exact (Option.some.inj h).symm

/-- Only a finite number is written as one. -/
theorem serialize_number {depth : Nat} {v : Value} {bits : UInt64}
    (h : serialize codec obj depth v = some (some (.number bits))) :
    ∃ bits', v = .number bits' ∧ isFinite bits' = true ∧ bits = textual bits' := by
  cases depth with
  | zero => cases h
  | succ depth =>
      cases hreplacer : replacer codec obj v with
      | none =>
          rw [serialize_thrown hreplacer] at h
          cases h
      | some replaced =>
          cases replaced with
          | some entries =>
              rw [serialize_replaced hreplacer] at h
              obtain ⟨members, _, hdoc⟩ := Option.map_eq_some_iff.mp h
              cases hdoc
          | none =>
              cases v with
              | number bits' =>
                  have hdoc : some (if isFinite bits' then Document.number (textual bits') else .null) =
                      some (.number bits) := Option.some.inj h
                  by_cases hfinite : isFinite bits' = true
                  · rw [if_pos hfinite] at hdoc
                    cases hdoc
                    exact ⟨bits', rfl, hfinite, rfl⟩
                  · rw [if_neg hfinite] at hdoc
                    cases hdoc
              | array xs =>
                  rw [serialize_array] at h
                  obtain ⟨docs, _, hdoc⟩ := Option.map_eq_some_iff.mp h
                  cases hdoc
              | object entries =>
                  rw [serialize_object] at h
                  obtain ⟨members, _, hdoc⟩ := Option.map_eq_some_iff.mp h
                  cases hdoc
              | complex real imag =>
                  obtain ⟨_, _, _, _, hnone⟩ := replacer_complex hreplacer
                  cases hnone
              | ndarray x => cases hreplacer
              | _ => cases h

/-! ## Complex numbers -/

theorem reviveMatrix_ne_number {entries : List (Units × Value)} {bits : UInt64} :
    reviveMatrix codec host entries ≠ some (.number bits) := by
  intro h
  unfold reviveMatrix at h
  split at h
  · obtain ⟨type, _, h⟩ := Option.bind_eq_some_iff.mp h
    obtain ⟨buffer, _, h⟩ := Option.bind_eq_some_iff.mp h
    obtain ⟨array, _, h⟩ := Option.bind_eq_some_iff.mp h
    split at h <;> cases h
  · cases h

/-- Only a number is read as one. -/
theorem revive_number {doc : Document} {bits : UInt64}
    (h : revive codec host doc = some (.number bits)) : doc = .number bits := by
  cases doc with
  | number bits' =>
      rw [revive] at h
      cases h
      rfl
  | array xs =>
      rw [revive] at h
      obtain ⟨_, _, h⟩ := Option.bind_eq_some_iff.mp h
      cases h
  | object members =>
      rw [revive] at h
      obtain ⟨entries, _, h⟩ := Option.bind_eq_some_iff.mp h
      unfold reviver at h
      split at h
      · cases h
      · split at h
        · cases h
        · split at h
          · exact absurd h reviveMatrix_ne_number
          · cases h
  | _ =>
      rw [revive] at h
      cases h

/-- The value of a member, which is `undefined` if it has no text. -/
def reviveMember (codec : Base64ArrayBuffer) (host : Endian) : Option Document → Option Value
  | none => some .undefined
  | some doc => revive codec host doc

/-- What is read for a complex number. -/
theorem revive_complex (re im : Option Document) :
    revive codec host (.object (present [(units "__dime_type", some (.string (units "complex"))),
      (units "real", re), (units "imag", im)])) =
      (reviveMember codec host re).bind fun real =>
        (reviveMember codec host im).map fun imag => .complex real imag := by
  have hreal : units "real" ≠ units "__dime_type" := by decide
  have himag : units "imag" ≠ units "__dime_type" := by decide
  have himag' : units "imag" ≠ units "real" := by decide
  cases re with
  | none =>
      cases im with
      | none => rfl
      | some im =>
          simp only [present, List.filterMap_cons, List.filterMap_nil, Option.map_some, Option.map_none,
            revive, reviveMembers, reviveMember]
          cases revive codec host im with
          | none => rfl
          | some imag => rfl
  | some re =>
      simp only [present, List.filterMap_cons, List.filterMap_nil, Option.map_some, revive,
        reviveMembers, reviveMember]
      cases revive codec host re with
      | none => rfl
      | some real =>
          cases im with
          | none => rfl
          | some im =>
              simp only [Option.map_some, reviveMembers]
              cases revive codec host im with
              | none => rfl
              | some imag => rfl

/-- What `jsondumps` writes for a part of `obj` is read as the same value. -/
def Returns (codec : Base64ArrayBuffer) (obj : Value) (host : Endian) (v : Value) : Prop :=
  ∃ depth doc y, serialize codec obj depth v = some (some doc) ∧ revive codec host doc = some y ∧
    SameJson host v y

theorem serializeEntries_complex {depth : Nat} {re im : Value} {members : List (Units × Option Document)}
    (h : serializeEntries codec obj depth [("__dime_type", .string (units "complex")), ("real", re),
      ("imag", im)] = some members) :
    ∃ o o', serialize codec obj depth re = some o ∧ serialize codec obj depth im = some o' ∧
      members = [(units "__dime_type", some (.string (units "complex"))), (units "real", o),
        (units "imag", o')] := by
  have hall := Python.mapM_eq_some_iff.mp h
  cases hall with
  | cons htype hall =>
      cases hall with
      | cons hre hall =>
          cases hall with
          | cons him hall =>
              cases hall
              obtain ⟨d, hd, rfl⟩ := Option.map_eq_some_iff.mp htype
              obtain ⟨o, ho, rfl⟩ := Option.map_eq_some_iff.mp hre
              obtain ⟨o', ho', rfl⟩ := Option.map_eq_some_iff.mp him
              exact ⟨o, o', ho, ho', by rw [serialize_string hd]⟩

theorem hasNumber_of_reviveMember {depth : Nat} {v : Value} {o : Option Document} {bits : UInt64}
    {name : String} (hproperty : property obj name = some v)
    (hserialize : serialize codec obj depth v = some o)
    (hrevive : reviveMember codec host o = some (.number bits)) :
    HasNumber obj name (datum bits) := by
  cases o with
  | none => cases hrevive
  | some doc =>
      have hdoc : doc = .number bits := revive_number hrevive
      subst hdoc
      obtain ⟨bits', rfl, hfinite, rfl⟩ := serialize_number hserialize
      exact ⟨bits', hproperty, hfinite, (datum_textual bits').symm⟩

/-- A complex number comes back as the parts of `obj`. -/
theorem returns_complex_iff (real imag : UInt64) :
    Returns codec obj host (.complex (.number real) (.number imag)) ↔
      HasNumber obj "real" (datum real) ∧ HasNumber obj "imag" (datum imag) := by
  constructor
  · intro h
    obtain ⟨depth, doc, y, hdoc, hy, hsame⟩ := h
    cases depth with
    | zero => cases hdoc
    | succ depth =>
        cases hreplacer : replacer codec obj (.complex (.number real) (.number imag)) with
        | none =>
            rw [serialize_thrown hreplacer] at hdoc
            cases hdoc
        | some replaced =>
            obtain ⟨re, im, hre, him, rfl⟩ := replacer_complex hreplacer
            rw [serialize_replaced hreplacer] at hdoc
            obtain ⟨members, hmembers, hdoc⟩ := Option.map_eq_some_iff.mp hdoc
            obtain ⟨o, o', ho, ho', rfl⟩ := serializeEntries_complex hmembers
            cases hdoc
            rw [revive_complex] at hy
            obtain ⟨v, hv, hy⟩ := Option.bind_eq_some_iff.mp hy
            obtain ⟨w, hw, rfl⟩ := Option.map_eq_some_iff.mp hy
            cases hsame with
            | complex hreal himag =>
                rw [← hreal, ← himag]
                exact ⟨hasNumber_of_reviveMember hre ho hv, hasNumber_of_reviveMember him ho' hw⟩
  · intro h
    obtain ⟨⟨re, hre, hrefinite, hredatum⟩, im, him, himfinite, himdatum⟩ := h
    have hreplacer : replacer codec obj (.complex (.number real) (.number imag)) =
        some (some [("__dime_type", .string (units "complex")), ("real", .number re),
          ("imag", .number im)]) := by
      simp only [replacer, hre, him, Option.bind_eq_bind, Option.bind_some]
    have hmembers : serializeEntries codec obj 1 [("__dime_type", .string (units "complex")),
        ("real", .number re), ("imag", .number im)] =
        some [(units "__dime_type", some (.string (units "complex"))),
          (units "real", some (.number (textual re))), (units "imag", some (.number (textual im)))] := by
      have hnumber : ∀ bits, isFinite bits = true →
          serialize codec obj 1 (.number bits) = some (some (.number (textual bits))) :=
        fun bits hbits => congrArg (fun doc => some (some doc)) (if_pos hbits)
      simp only [serializeEntries, List.mapM_cons, List.mapM_nil, hnumber re hrefinite,
        hnumber im himfinite]
      rfl
    refine ⟨2, _, .complex (.number (textual re)) (.number (textual im)), ?_,
      revive_complex (some (.number (textual re))) (some (.number (textual im))), .complex ?_ ?_⟩
    · rw [serialize_replaced hreplacer, hmembers]
      rfl
    · rw [datum_textual, hredatum]
    · rw [datum_textual, himdatum]

/-! ## Arrays -/

/-- The name of a constructor in a text. -/
def dtypeDocument (type : ArrayType) : Option Document :=
  match type.dtype with
  | .string s => some (.string s)
  | _ => none

/-- The members that stand for an array. -/
def matrixMembers (codec : Base64ArrayBuffer) (x : NDArray) : List (Units × Option Document) :=
  [(units "__dime_type", some (.string (units "matrix"))), (units "dtype", dtypeDocument x.array.type),
    (units "shape", some (.array (x.shape.map fun (n : Nat) => .number (textual (ofInt n))))),
    (units "data", some (.string (codec.encode x.array.buffer)))]

theorem isFinite_ofInt {n : Nat} (h : n < 2 ^ 53) : isFinite (ofInt n) = true := by
  unfold isFinite
  rw [datum_ofInt (by omega)]
  rfl

/-- The sizes of a shape have a text of their own. -/
theorem serialize_shape {shape : List Nat} (hdims : ∀ n ∈ shape, n < 2 ^ 53) (depth : Nat) :
    (shape.map fun (n : Nat) => Value.number (ofInt n)).mapM (serialize codec obj (depth + 1)) =
      some (shape.map fun (n : Nat) => some (.number (textual (ofInt n)))) := by
  rw [Python.mapM_eq_some_iff, List.forall₂_map_left_iff, List.forall₂_map_right_iff,
    List.forall₂_same]
  exact fun n hn => congrArg (fun doc => some (some doc)) (if_pos (isFinite_ofInt (hdims n hn)))

theorem serialize_ndarray {x : NDArray} (hdims : ∀ n ∈ x.shape, n < 2 ^ 53) (depth : Nat) :
    serialize codec obj (depth + 3) (.ndarray x) =
      some (some (.object (present (matrixMembers codec x)))) := by
  have hreplacer : replacer codec obj (.ndarray x) =
      some (some [("__dime_type", .string (units "matrix")), ("dtype", x.array.type.dtype),
        ("shape", .array (x.shape.map fun (n : Nat) => .number (ofInt n))),
        ("data", .string (codec.encode x.array.buffer))]) := rfl
  have hdtype : serialize codec obj (depth + 2) x.array.type.dtype =
      some (dtypeDocument x.array.type) := by
    rcases x.array.type with type | _
    · cases type <;> rfl
    · rfl
  have hshape : serialize codec obj (depth + 2)
      (.array (x.shape.map fun (n : Nat) => .number (ofInt n))) =
      some (some (.array (x.shape.map fun (n : Nat) => .number (textual (ofInt n))))) := by
    rw [serialize_array, serialize_shape hdims, Option.map_some, List.map_map]
    rfl
  have hmembers : serializeEntries codec obj (depth + 2) [("__dime_type", .string (units "matrix")),
      ("dtype", x.array.type.dtype), ("shape", .array (x.shape.map fun (n : Nat) => .number (ofInt n))),
      ("data", .string (codec.encode x.array.buffer))] = some (matrixMembers codec x) := by
    simp only [serializeEntries, List.mapM_cons, List.mapM_nil, hdtype, hshape]
    rfl
  rw [serialize_replaced hreplacer, hmembers]
  rfl

theorem reviveElements_shape (shape : List Nat) :
    reviveElements codec host (shape.map fun (n : Nat) => .number (textual (ofInt n))) =
      some (shape.map fun (n : Nat) => .number (textual (ofInt n))) := by
  induction shape with
  | nil => rfl
  | cons n shape ih =>
      rw [List.map_cons, reviveElements, revive, ih]
      rfl

theorem sizes?_shape {shape : List Nat} (hdims : ∀ n ∈ shape, n < 2 ^ 53) :
    sizes? (.array (shape.map fun (n : Nat) => .number (textual (ofInt n)))) = some shape := by
  rw [sizes?, Python.mapM_eq_some_iff, List.forall₂_map_left_iff, List.forall₂_same]
  intro n hn
  have hsmall : (n : Int).natAbs < 2 ^ 53 := hdims n hn
  have hinteger : (datum (textual (ofInt n))).integer? = some (n : Int) := by
    rw [datum_textual, datum_ofInt hsmall, Binary.Datum.integer?_ofInt]
  simp only [hinteger, Option.bind_some, if_pos (Int.natCast_nonneg n), Int.toNat_natCast]

/-- What is read for an array of a type that has a name. -/
theorem revive_matrix {x : NDArray} {type : ElementType} (htype : x.array.type = .of type)
    (hsigned : type ≠ .bigInt64) (hunsigned : type ≠ .bigUint64)
    (hdims : ∀ n ∈ x.shape, n < 2 ^ 53) :
    revive codec host (.object (present (matrixMembers codec x))) =
      (TypedArray.ofBuffer type x.array.buffer).map fun a => .ndarray ⟨.F, x.shape, a, false⟩ := by
  obtain ⟨name, hname, hconstructor, hplain, hcomplex⟩ : ∃ name,
      (ArrayType.of type).dtype = .string name ∧ constructor? name = some type ∧
      (name ≠ units "int64" ∧ name ≠ units "uint64") ∧
      (units "complex").isPrefixOf name = false := by
    cases type with
    | bigInt64 => exact absurd rfl hsigned
    | bigUint64 => exact absurd rfl hunsigned
    | _ => exact ⟨_, rfl, by decide, by decide, by decide⟩
  have hdtype : dtypeDocument x.array.type = some (.string name) := by
    rw [htype, dtypeDocument, hname]
  have hnarrowed : ∀ a, narrowed host name a = some a := by
    intro a
    apply if_neg
    rintro ⟨hint | huint, _⟩
    · exact hplain.1 hint
    · exact hplain.2 huint
  have hlookup : lookup [(units "__dime_type", .string (units "matrix")), (units "dtype", .string name),
      (units "shape", .array (x.shape.map fun (n : Nat) => .number (textual (ofInt n)))),
      (units "data", .string (codec.encode x.array.buffer))] "shape" =
      some (.array (x.shape.map fun (n : Nat) => .number (textual (ofInt n)))) := rfl
  have hmatrix : reviveMatrix codec host [(units "__dime_type", .string (units "matrix")),
      (units "dtype", .string name),
      (units "shape", .array (x.shape.map fun (n : Nat) => .number (textual (ofInt n)))),
      (units "data", .string (codec.encode x.array.buffer))] =
      (TypedArray.ofBuffer type x.array.buffer).map fun a => .ndarray ⟨.F, x.shape, a, false⟩ := by
    change ((constructor? name).bind fun type =>
      (TypedArray.ofBuffer type (codec.decode (codec.encode x.array.buffer))).bind fun a =>
        (narrowed host name a).bind _) = _
    rw [hconstructor, Option.bind_some, codec.decode_encode]
    cases TypedArray.ofBuffer type x.array.buffer with
    | none => rfl
    | some a =>
        simp only [Option.bind_some, hnarrowed, hlookup, sizes?_shape hdims, hcomplex]
        rfl
  simp only [matrixMembers, hdtype, present, List.filterMap_cons, List.filterMap_nil, Option.map_some,
    revive, reviveMembers, reviveElements_shape, Option.bind_eq_bind, Option.bind_some]
  exact hmatrix

theorem revive_clamped {x : NDArray} (htype : x.array.type = .uint8Clamped) :
    revive codec host (.object (present (matrixMembers codec x))) = none := by
  have hdtype : dtypeDocument x.array.type = none := by
    rw [htype]
    rfl
  simp only [matrixMembers, hdtype, present, List.filterMap_cons, List.filterMap_nil, Option.map_some,
    Option.map_none, revive, reviveMembers, reviveElements_shape, Option.bind_eq_bind,
    Option.bind_some]
  rfl

/-- `get` on an array that `jsonloads` makes. -/
theorem get_whole {shape idx : List Nat} {a : TypedArray} (h : InShape shape idx) :
    NDArray.get host ⟨.F, shape, a, false⟩ idx = some (a.get host (ravel shape idx)) := by
  have hindex := NDArray.makeIndex_eq (x := ⟨.F, shape, a, false⟩) rfl h true
  rw [NDArray.get, hindex, Option.bind_eq_bind, Option.bind_some,
    if_neg Bool.false_ne_true, if_neg Bool.false_ne_true, Nat.one_mul]

theorem returns_ndarray_iff {x : NDArray} (hsigned : x.array.type ≠ .of .bigInt64)
    (hunsigned : x.array.type ≠ .of .bigUint64) (hdims : ∀ n ∈ x.shape, n < 2 ^ 53) :
    Returns codec obj host (.ndarray x) ↔ WholeArray host x := by
  have hdoc : ∀ {depth doc}, serialize codec obj depth (.ndarray x) = some (some doc) →
      doc = .object (present (matrixMembers codec x)) := by
    intro depth doc h
    have hmore := serialize_mono (Nat.le_add_right depth 3) h
    rw [serialize_ndarray hdims] at hmore
    cases hmore
    rfl
  cases htype : x.array.type with
  | uint8Clamped =>
      constructor
      · intro h
        obtain ⟨depth, doc, y, hserialize, hy, _⟩ := h
        rw [hdoc hserialize, revive_clamped htype] at hy
        cases hy
      · intro h
        obtain ⟨type, _, hof, _⟩ := h
        cases hof.symm.trans htype
  | of type =>
      have hrevive : revive codec host (.object (present (matrixMembers codec x))) = _ :=
        revive_matrix htype (fun h => hsigned (h ▸ htype)) (fun h => hunsigned (h ▸ htype)) hdims
      constructor
      · intro h
        obtain ⟨depth, doc, y, hserialize, hy, hsame⟩ := h
        rw [hdoc hserialize, hrevive] at hy
        obtain ⟨whole, hwhole, rfl⟩ := Option.map_eq_some_iff.mp hy
        cases hsame with
        | ndarray same =>
            refine ⟨type, whole, htype, hwhole, same.complex.symm, ?_⟩
            intro idx hidx
            obtain ⟨v, w, hv, hw, hvw⟩ := same.elements idx hidx
            rw [get_whole hidx] at hw
            cases hw
            exact ⟨v, hv, hvw⟩
      · intro h
        obtain ⟨type', whole, hof, hwhole, hcomplex, helements⟩ := h
        cases hof.symm.trans htype
        refine ⟨3, _, .ndarray ⟨.F, x.shape, whole, false⟩, serialize_ndarray hdims 0, ?_, .ndarray ?_⟩
        · rw [hrevive, hwhole]
          rfl
        · refine ⟨rfl, hcomplex.symm, ?_⟩
          intro idx hidx
          obtain ⟨v, hv, hvw⟩ := helements idx hidx
          exact ⟨v, _, hv, get_whole hidx, hvw⟩

/-! ## Arrays and objects of values -/

/-- Values of the domain are never written as `undefined`. -/
theorem serialize_ne_undefined {v : Value} (hv : Plain v) (depth : Nat) :
    serialize codec obj depth v ≠ some none := by
  cases depth with
  | zero => exact fun h => by cases h
  | succ depth =>
      intro h
      cases hreplacer : replacer codec obj v with
      | none =>
          rw [serialize_thrown hreplacer] at h
          cases h
      | some replaced =>
          cases replaced with
          | some entries =>
              rw [serialize_replaced hreplacer] at h
              obtain ⟨_, _, h⟩ := Option.map_eq_some_iff.mp h
              cases h
          | none =>
              cases hv with
              | array _ =>
                  rw [serialize_array] at h
                  obtain ⟨_, _, h⟩ := Option.map_eq_some_iff.mp h
                  cases h
              | object _ =>
                  rw [serialize_object] at h
                  obtain ⟨_, _, h⟩ := Option.map_eq_some_iff.mp h
                  cases h
              | complex real imag =>
                  obtain ⟨_, _, _, _, hnone⟩ := replacer_complex hreplacer
                  cases hnone
              | ndarray _ _ _ => cases hreplacer
              | _ => cases h

theorem exists_doc {depth : Nat} {v : Value} (hv : Plain v) {o : Option Document}
    (h : serialize codec obj depth v = some o) : ∃ doc, o = some doc := by
  cases o with
  | none => exact absurd h (serialize_ne_undefined hv depth)
  | some doc => exact ⟨doc, rfl⟩

/-- An array comes back exactly if its elements do. -/
theorem returns_array_iff {xs : List Value} (hxs : ∀ x ∈ xs, Plain x) :
    Returns codec obj host (.array xs) ↔ ∀ x ∈ xs, Returns codec obj host x := by
  have helements : (∃ depth docs ys, xs.mapM (serialize codec obj depth) = some docs ∧
      reviveElements codec host (docs.map fun doc => doc.getD .null) = some ys ∧
        xs.length = ys.length ∧ ∀ pair ∈ xs.zip ys, SameJson host pair.1 pair.2) ↔
      ∀ x ∈ xs, Returns codec obj host x := by
    induction xs with
    | nil => exact ⟨fun _ => by simp, fun _ => ⟨0, [], [], rfl, rfl, rfl, by simp⟩⟩
    | cons x xs ih =>
        rw [List.forall_mem_cons] at hxs
        rw [List.forall_mem_cons, ← ih hxs.2]
        constructor
        · intro h
          obtain ⟨depth, docs, ys, hdocs, hys, hlength, hall⟩ := h
          rw [List.mapM_cons] at hdocs
          obtain ⟨o, ho, hdocs⟩ := Option.bind_eq_some_iff.mp hdocs
          obtain ⟨docs, hdocs', hdocs⟩ := Option.bind_eq_some_iff.mp hdocs
          cases hdocs
          obtain ⟨doc, rfl⟩ := exists_doc hxs.1 ho
          rw [List.map_cons, reviveElements] at hys
          obtain ⟨y, hy, hys⟩ := Option.bind_eq_some_iff.mp hys
          obtain ⟨ys, hys', hys⟩ := Option.bind_eq_some_iff.mp hys
          cases hys
          rw [List.zip_cons_cons, List.forall_mem_cons] at hall
          exact ⟨⟨depth, doc, y, ho, hy, hall.1⟩, depth, docs, ys, hdocs', hys', Nat.succ.inj hlength,
            hall.2⟩
        · intro h
          obtain ⟨⟨depth, doc, y, hdoc, hy, hsame⟩, depth', docs, ys, hdocs, hys, hlength, hall⟩ := h
          refine ⟨max depth depth', some doc :: docs, y :: ys, ?_, ?_, congrArg Nat.succ hlength, ?_⟩
          · rw [List.mapM_cons, serialize_mono (Nat.le_max_left depth depth') hdoc,
              mapM_mono hdocs fun _ _ h => serialize_mono (Nat.le_max_right depth depth') h]
            rfl
          · rw [List.map_cons, Option.getD_some, reviveElements, hy, hys]
            rfl
          · rw [List.zip_cons_cons, List.forall_mem_cons]
            exact ⟨hsame, hall⟩
  rw [← helements]
  constructor
  · intro h
    obtain ⟨depth, doc, y, hdoc, hy, hsame⟩ := h
    cases depth with
    | zero => cases hdoc
    | succ depth =>
        rw [serialize_array] at hdoc
        obtain ⟨docs, hdocs, hdoc⟩ := Option.map_eq_some_iff.mp hdoc
        cases hdoc
        rw [revive] at hy
        obtain ⟨ys, hys, hy⟩ := Option.bind_eq_some_iff.mp hy
        cases hy
        cases hsame with
        | array length elements => exact ⟨depth, docs, ys, hdocs, hys, length, elements⟩
  · intro h
    obtain ⟨depth, docs, ys, hdocs, hys, hlength, hall⟩ := h
    refine ⟨depth + 1, .array (docs.map fun doc => doc.getD .null), .array ys, ?_, ?_,
      .array hlength hall⟩
    · rw [serialize_array, hdocs]
      rfl
    · rw [revive, hys]
      rfl

/-- The members of an object come back exactly if their values do. -/
theorem members_iff {entries : List (Units × Value)} (hentries : ∀ entry ∈ entries, Plain entry.2) :
    (∃ depth members entries', (entries.mapM fun entry =>
        (serialize codec obj depth entry.2).map fun doc => (entry.1, doc)) = some members ∧
      reviveMembers codec host (present members) = some entries' ∧
      entries'.map Prod.fst = entries.map Prod.fst ∧
      ∀ pair ∈ entries.zip entries', SameJson host pair.1.2 pair.2.2) ↔
      ∀ entry ∈ entries, Returns codec obj host entry.2 := by
  induction entries with
  | nil => exact ⟨fun _ => by simp, fun _ => ⟨0, [], [], rfl, rfl, rfl, by simp⟩⟩
  | cons entry entries ih =>
      rw [List.forall_mem_cons] at hentries
      rw [List.forall_mem_cons, ← ih hentries.2]
      constructor
      · intro h
        obtain ⟨depth, members, entries', hmembers, hrevive, hkeys, hall⟩ := h
        rw [List.mapM_cons] at hmembers
        obtain ⟨member, hmember, hmembers⟩ := Option.bind_eq_some_iff.mp hmembers
        obtain ⟨members, hmembers', hmembers⟩ := Option.bind_eq_some_iff.mp hmembers
        cases hmembers
        obtain ⟨o, ho, rfl⟩ := Option.map_eq_some_iff.mp hmember
        obtain ⟨doc, rfl⟩ := exists_doc hentries.1 ho
        have hpresent : present ((entry.1, some doc) :: members) = (entry.1, doc) :: present members :=
          rfl
        rw [hpresent, reviveMembers] at hrevive
        obtain ⟨y, hy, hrevive⟩ := Option.bind_eq_some_iff.mp hrevive
        obtain ⟨entries', hentries', hrevive⟩ := Option.bind_eq_some_iff.mp hrevive
        cases hrevive
        rw [List.zip_cons_cons, List.forall_mem_cons] at hall
        exact ⟨⟨depth, doc, y, ho, hy, hall.1⟩, depth, members, entries', hmembers', hentries',
          (List.cons.inj hkeys).2, hall.2⟩
      · intro h
        obtain ⟨⟨depth, doc, y, hdoc, hy, hsame⟩, depth', members, entries', hmembers, hrevive, hkeys,
          hall⟩ := h
        refine ⟨max depth depth', (entry.1, some doc) :: members, (entry.1, y) :: entries', ?_, ?_, ?_, ?_⟩
        · have hmore : (entries.mapM fun entry => (serialize codec obj (max depth depth') entry.2).map
              fun doc => (entry.1, doc)) = some members := by
            apply mapM_mono hmembers
            intro entry member hmember
            obtain ⟨o, ho, rfl⟩ := Option.map_eq_some_iff.mp hmember
            rw [serialize_mono (Nat.le_max_right depth depth') ho]
            rfl
          rw [List.mapM_cons, serialize_mono (Nat.le_max_left depth depth') hdoc, hmore]
          rfl
        · have hpresent : present ((entry.1, some doc) :: members) =
              (entry.1, doc) :: present members := rfl
          rw [hpresent, reviveMembers, hy, hrevive]
          rfl
        · rw [List.map_cons, List.map_cons, hkeys]
        · rw [List.zip_cons_cons, List.forall_mem_cons]
          exact ⟨hsame, hall⟩

theorem isString_same {v w : Value} (h : SameJson host v w) (s : String) :
    isString w s = isString v s := by
  cases h <;> rfl

/-- A property has the same place in both objects. -/
theorem lookup_same {entries entries' : List (Units × Value)}
    (hkeys : entries'.map Prod.fst = entries.map Prod.fst)
    (hvalues : ∀ pair ∈ entries.zip entries', SameJson host pair.1.2 pair.2.2) (name : String) :
    (lookup entries name = none ∧ lookup entries' name = none) ∨
      ∃ v w, lookup entries name = some v ∧ lookup entries' name = some w ∧ SameJson host v w := by
  induction entries generalizing entries' with
  | nil =>
      obtain rfl := List.map_eq_nil_iff.mp hkeys
      exact .inl ⟨rfl, rfl⟩
  | cons entry entries ih =>
      cases entries' with
      | nil => cases hkeys
      | cons entry' entries' =>
          rw [List.map_cons, List.map_cons] at hkeys
          obtain ⟨hkey, hkeys⟩ := List.cons.inj hkeys
          rw [List.zip_cons_cons, List.forall_mem_cons] at hvalues
          unfold lookup
          by_cases hname : entry.1 = units name
          · rw [List.find?_cons_of_pos (by simpa using hname),
              List.find?_cons_of_pos (by simpa [hkey] using hname)]
            exact .inr ⟨entry.2, entry'.2, rfl, rfl, hvalues.1⟩
          · rw [List.find?_cons_of_neg (by simpa using hname),
              List.find?_cons_of_neg (by simpa [hkey] using hname)]
            exact ih hkeys hvalues.2

theorem reviveMatrix_ne_object {entries entries' : List (Units × Value)} :
    reviveMatrix codec host entries ≠ some (.object entries') := by
  intro h
  unfold reviveMatrix at h
  split at h
  · obtain ⟨type, _, h⟩ := Option.bind_eq_some_iff.mp h
    obtain ⟨buffer, _, h⟩ := Option.bind_eq_some_iff.mp h
    obtain ⟨array, _, h⟩ := Option.bind_eq_some_iff.mp h
    split at h <;> cases h
  · cases h

/-- An object stays one exactly if its type is none of the two that stand for others. -/
theorem reviver_object_iff {entries entries' : List (Units × Value)} :
    reviver codec host entries = some (.object entries') ↔
      entries' = entries ∧ ∀ type, lookup entries "__dime_type" = some type →
        isString type "complex" = false ∧ isString type "matrix" = false := by
  unfold reviver
  cases htype : lookup entries "__dime_type" with
  | none =>
      constructor
      · intro h
        cases h
        exact ⟨rfl, fun type h => by cases h⟩
      · intro h
        rw [h.1]
  | some type =>
      dsimp only
      constructor
      · intro h
        split at h
        · cases h
        next hcomplex =>
          split at h
          · exact absurd h reviveMatrix_ne_object
          next hmatrix =>
            cases h
            refine ⟨rfl, ?_⟩
            intro type' htype'
            cases htype'
            exact ⟨Bool.eq_false_iff.mpr hcomplex, Bool.eq_false_iff.mpr hmatrix⟩
      · intro h
        obtain ⟨rfl, hplain⟩ := h
        obtain ⟨hcomplex, hmatrix⟩ := hplain type rfl
        rw [hcomplex, hmatrix]
        rfl

theorem returns_object_iff {entries : List (Units × Value)}
    (hentries : ∀ entry ∈ entries, Plain entry.2) :
    Returns codec obj host (.object entries) ↔
      (∀ type, lookup entries "__dime_type" = some type →
        isString type "complex" = false ∧ isString type "matrix" = false) ∧
        ∀ entry ∈ entries, Returns codec obj host entry.2 := by
  have htype : ∀ {entries' : List (Units × Value)}, entries'.map Prod.fst = entries.map Prod.fst →
      (∀ pair ∈ entries.zip entries', SameJson host pair.1.2 pair.2.2) →
      ((∀ type, lookup entries' "__dime_type" = some type →
        isString type "complex" = false ∧ isString type "matrix" = false) ↔
        ∀ type, lookup entries "__dime_type" = some type →
          isString type "complex" = false ∧ isString type "matrix" = false) := by
    intro entries' hkeys hvalues
    obtain ⟨hnone, hnone'⟩ | ⟨v, w, hv, hw, hsame⟩ := lookup_same hkeys hvalues "__dime_type"
    · simp [hnone, hnone']
    · simp [hv, hw, isString_same hsame]
  rw [← members_iff hentries]
  constructor
  · intro h
    obtain ⟨depth, doc, y, hdoc, hy, hsame⟩ := h
    cases depth with
    | zero => cases hdoc
    | succ depth =>
        rw [serialize_object] at hdoc
        obtain ⟨members, hmembers, hdoc⟩ := Option.map_eq_some_iff.mp hdoc
        cases hdoc
        rw [revive] at hy
        obtain ⟨revived, hrevived, hy⟩ := Option.bind_eq_some_iff.mp hy
        cases hsame with
        | object keys values =>
            obtain ⟨rfl, hplain⟩ := reviver_object_iff.mp hy
            exact ⟨(htype keys values).mp hplain, depth, members, _, hmembers, hrevived, keys, values⟩
  · intro h
    obtain ⟨hplain, depth, members, entries', hmembers, hrevived, hkeys, hvalues⟩ := h
    refine ⟨depth + 1, .object (present members), .object entries', ?_, ?_, .object hkeys hvalues⟩
    · rw [serialize_object, hmembers]
      rfl
    · rw [revive, hrevived]
      exact reviver_object_iff.mpr ⟨rfl, (htype hkeys hvalues).mpr hplain⟩

end

/-- A value comes back exactly if its complex numbers are those of the value itself, its
arrays are whole, and no object in it passes for something else. -/
theorem jsonloads_jsondumps_iff (codec : Base64ArrayBuffer) (host : Endian) {v : Value}
    (hv : Plain v) :
    (∃ depth text y, jsondumps codec depth v = some text ∧ jsonloads codec host text = some y ∧
      SameJson host v y) ↔ Survives host v v := by
  have hreturns : (∃ depth text y, jsondumps codec depth v = some text ∧
      jsonloads codec host text = some y ∧ SameJson host v y) ↔ Returns codec v host v := by
    constructor
    · intro h
      obtain ⟨depth, text, y, htext, hy, hsame⟩ := h
      obtain ⟨doc, rfl⟩ := exists_doc hv htext
      exact ⟨depth, doc, y, htext, hy, hsame⟩
    · intro h
      obtain ⟨depth, doc, y, hdoc, hy, hsame⟩ := h
      exact ⟨depth, some doc, y, hdoc, hy, hsame⟩
  have hpart : ∀ obj part, Plain part → (Returns codec obj host part ↔ Survives host obj part) := by
    intro obj part hpart
    induction hpart with
    | null => exact ⟨fun _ => .null, fun _ => ⟨1, .null, .null, rfl, by rw [revive], .null⟩⟩
    | boolean b =>
        exact ⟨fun _ => .boolean b,
          fun _ => ⟨1, .boolean b, .boolean b, rfl, by rw [revive], .boolean b⟩⟩
    | @number bits finite =>
        exact ⟨fun _ => .number bits, fun _ => ⟨1, .number (textual bits), .number (textual bits),
          congrArg (fun doc => some (some doc)) (if_pos finite), by rw [revive],
          .number (datum_textual bits)⟩⟩
    | string s =>
        exact ⟨fun _ => .string s, fun _ => ⟨1, .string s, .string s, rfl, by rw [revive], .string s⟩⟩
    | complex real imag =>
        rw [returns_complex_iff]
        constructor
        · exact fun h => .complex h.1 h.2
        · intro h
          cases h with
          | complex re im => exact ⟨re, im⟩
    | ndarray signed unsigned dims =>
        rw [returns_ndarray_iff signed unsigned dims]
        constructor
        · exact .ndarray
        · intro h
          cases h with
          | ndarray whole => exact whole
    | array elements ih =>
        rw [returns_array_iff elements]
        constructor
        · exact fun h => .array fun x hx => (ih x hx).mp (h x hx)
        · intro h
          cases h with
          | array hall => exact fun x hx => (ih x hx).mpr (hall x hx)
    | object values ih =>
        rw [returns_object_iff values]
        constructor
        · exact fun h => .object h.1 fun entry hentry => (ih entry hentry).mp (h.2 entry hentry)
        · intro h
          cases h with
          | object type hall => exact ⟨type, fun entry hentry => (ih entry hentry).mpr (hall entry hentry)⟩
  rw [hreturns, hpart v v hv]

/-- The characters of base64 as code units. -/
def asciiBase64 : Base64ArrayBuffer where
  encode bytes := (Base64.encode bytes).map fun c => UInt16.ofNat c.toNat
  decode s := (Base64.decode (s.map fun u => UInt8.ofNat u.toNat)).getD []
  decode_encode bytes := by
    have hascii : ((Base64.encode bytes).map fun c => UInt16.ofNat c.toNat).map
        (fun u => UInt8.ofNat u.toNat) = Base64.encode bytes := by
      rw [List.map_map]
      refine (List.map_congr_left ?_).trans (List.map_id _)
      intro c hc
      have hlt := Base64.lt_of_mem_encode hc
      change UInt8.ofNat (UInt16.ofNat c.toNat).toNat = c
      rw [UInt16.toNat_ofNat', Nat.mod_eq_of_lt (by omega), UInt8.ofNat_toNat]
    rw [hascii, Base64.decode_encode]
    rfl

namespace Value

theorem within_row : 0 + (ArrayType.of .int16).itemsize * 2 ≤ ([1, 0, 2, 0] : Bytes).length := by
  decide

theorem aligned_row : (ArrayType.of .int16).itemsize ∣ 0 := by
  decide

/-- The numbers one and two in a row. -/
def row : Value :=
  .ndarray ⟨.F, [1, 2], ⟨.of .int16, [1, 0, 2, 0], 0, 2, within_row, aligned_row⟩, false⟩

/-- A complex number within an array. -/
def nested : Value := .array [.complex (.number (ofInt 1)) (.number (ofInt 2))]

end Value

theorem jsonloads_jsondumps_row :
    ∃ depth text y, jsondumps asciiBase64 depth (.array [Value.row]) = some text ∧
      jsonloads asciiBase64 .little text = some y ∧ SameJson .little (.array [Value.row]) y := by
  refine (jsonloads_jsondumps_iff asciiBase64 .little (.array ?_)).mpr (.array ?_)
  · rw [List.forall_mem_singleton]
    exact .ndarray (by decide) (by decide) (by decide)
  · rw [List.forall_mem_singleton]
    refine .ndarray ⟨.int16, ⟨.of .int16, [1, 0, 2, 0], 0, 2, Value.within_row, Value.aligned_row⟩, rfl,
      rfl, rfl, ?_⟩
    intro idx hidx
    have hall : ∀ idx ∈ rowMajor [1, 2], idx = [0, 0] ∨ idx = [0, 1] := by decide
    obtain rfl | rfl := hall idx (mem_rowMajor.mpr hidx)
    · exact ⟨_, rfl, rfl⟩
    · exact ⟨_, rfl, rfl⟩

/-- The array around a complex number has no real part. -/
theorem not_jsonloads_jsondumps_nested : Plain Value.nested ∧
    ¬ ∃ depth text y, jsondumps asciiBase64 depth Value.nested = some text ∧
      jsonloads asciiBase64 .little text = some y ∧ SameJson .little Value.nested y := by
  have hplain : ∀ x ∈ [Value.complex (.number (ofInt 1)) (.number (ofInt 2))], Plain x := by
    rw [List.forall_mem_singleton]
    exact .complex _ _
  refine ⟨.array hplain, ?_⟩
  intro h
  obtain ⟨depth, text, y, htext, hy, hsame⟩ := h
  obtain ⟨doc, rfl⟩ := exists_doc (.array hplain) htext
  have hreturns : Returns asciiBase64 Value.nested .little Value.nested :=
    ⟨depth, doc, y, htext, hy, hsame⟩
  have hpart := (returns_array_iff hplain).mp hreturns _ (List.mem_singleton_self _)
  obtain ⟨⟨bits, hproperty, _⟩, _⟩ := (returns_complex_iff _ _).mp hpart
  cases hproperty

end Dime.JavaScript
