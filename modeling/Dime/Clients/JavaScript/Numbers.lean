import Dime.Clients.JavaScript.Dimeb

/-!
# Numbers in JavaScript dimeb

What `dimebloads` makes of the scalars that `dimebdumps` writes, and of 64-bit integers
that are decoded, encoded and decoded again.
-/

namespace Dime.JavaScript

open Python (Endian Scalar Tag)

/-! ## Reading scalars -/

/-- The item behind other bytes. -/
theorem getView_behind {type : ElementType} (header : Bytes) {item : Bytes}
    (hlen : item.length = type.itemsize) (rest : Bytes) :
    getView type (header ++ (item ++ rest)) header.length = some (type.read item) := by
  have hwithin : header.length + type.itemsize ≤ (header ++ (item ++ rest)).length := by
    rw [List.length_append, List.length_append]
    omega
  rw [getView, if_pos hwithin, List.drop_left, List.take_left' hlen]

/-- The item behind the tag. -/
theorem getView_cons (tag : UInt8) {type : ElementType} {item : Bytes}
    (hlen : item.length = type.itemsize) (rest : Bytes) :
    getView type (tag :: (item ++ rest)) 1 = some (type.read item) :=
  getView_behind [tag] hlen rest

theorem loads_scalar (host : Endian) (toKey : PropertyKey) (type : Scalar) (rest : Bytes) :
    loads host toKey (code (.scalar type) :: rest) =
      loadsScalar (code (.scalar type) :: rest) type := by
  rw [loads, tag?_code]

/-- The lowest 64 bits of an integer, in two's complement. -/
theorem signed_encode (n : Int) : signed (BigEndian.encode 8 (n % 2 ^ 64).toNat) = n.bmod (2 ^ 64) := by
  have hlow : 0 ≤ n % 2 ^ 64 := Int.emod_nonneg n (by decide)
  have hlt : (n % 2 ^ 64).toNat < 256 ^ 8 := by
    have : n % 2 ^ 64 < 2 ^ 64 := Int.emod_lt_of_pos n (by decide)
    omega
  rw [signed, BigEndian.length_encode, BigEndian.decode_encode_of_lt hlt, Int.toNat_of_nonneg hlow]
  exact Int.emod_bmod n (2 ^ 64)

theorem loads_i64 (host : Endian) (toKey : PropertyKey) (n : Int) (rest : Bytes) :
    loads host toKey (code (.scalar .i64) :: (BigEndian.encode 8 (n % 2 ^ 64).toNat ++ rest)) =
      some (toSafe (.bigint (n.bmod (2 ^ 64))), 9) := by
  have hlen : (BigEndian.encode 8 (n % 2 ^ 64).toNat).length = ElementType.bigInt64.itemsize :=
    BigEndian.length_encode 8 _
  rw [loads_scalar, loadsScalar, getView_cons _ hlen, ElementType.read, signed_encode]
  rfl

theorem loads_u64 (host : Endian) (toKey : PropertyKey) {n : Nat} (hn : n < 2 ^ 64) (rest : Bytes) :
    loads host toKey (code (.scalar .u64) :: (BigEndian.encode 8 n ++ rest)) =
      some (toSafe (.bigint n), 9) := by
  have hlen : (BigEndian.encode 8 n).length = ElementType.bigUint64.itemsize :=
    BigEndian.length_encode 8 _
  rw [loads_scalar, loadsScalar, getView_cons _ hlen, ElementType.read,
    BigEndian.decode_encode_of_lt (Nat.lt_of_lt_of_eq hn (by decide))]
  rfl

/-- A double as it has been written. -/
theorem read_float64 (bits : UInt64) :
    ElementType.float64.read (BigEndian.encode 8 bits.toNat) = .number bits := by
  have hlt : bits.toNat < 256 ^ 8 := Nat.lt_of_lt_of_eq bits.toNat_lt (by decide)
  rw [ElementType.read, BigEndian.decode_encode_of_lt hlt, UInt64.ofNat_toNat]

theorem loads_double (host : Endian) (toKey : PropertyKey) (bits : UInt64) (rest : Bytes) :
    loads host toKey (code (.scalar .double) :: (BigEndian.encode 8 bits.toNat ++ rest)) =
      some (.number bits, 9) := by
  have hlen : (BigEndian.encode 8 bits.toNat).length = ElementType.float64.itemsize :=
    BigEndian.length_encode 8 _
  rw [loads_scalar, loadsScalar, getView_cons _ hlen, read_float64]
  rfl

theorem loads_complexDouble (host : Endian) (toKey : PropertyKey) (real imag : UInt64) (rest : Bytes) :
    loads host toKey (code (.scalar .complexDouble) ::
        (BigEndian.encode 8 real.toNat ++ (BigEndian.encode 8 imag.toNat ++ rest))) =
      some (.complex (.number real) (.number imag), 17) := by
  have hlen : ∀ bits : UInt64, (BigEndian.encode 8 bits.toNat).length = ElementType.float64.itemsize :=
    fun bits => BigEndian.length_encode 8 _
  have hreal := getView_cons (code (.scalar .complexDouble)) (hlen real)
    (BigEndian.encode 8 imag.toNat ++ rest)
  have himag := getView_behind (code (.scalar .complexDouble) :: BigEndian.encode 8 real.toNat)
    (hlen imag) rest
  rw [List.length_cons, BigEndian.length_encode, List.cons_append] at himag
  rw [loads_scalar, loadsScalar, hreal, himag, read_float64, read_float64]
  rfl

/-! ## Safe integers -/

theorem isSafe_iff {n : Int} : isSafe n = true ↔ -(2 ^ 53 - 1) ≤ n ∧ n ≤ 2 ^ 53 - 1 :=
  decide_eq_true_iff

theorem natAbs_lt_of_isSafe {n : Int} (h : isSafe n = true) : n.natAbs < 2 ^ 53 := by
  have hrange := isSafe_iff.mp h
  omega

theorem bmod_of_isSafe {n : Int} (h : isSafe n = true) : n.bmod (2 ^ 64) = n := by
  have hrange := isSafe_iff.mp h
  exact Int.bmod_eq_of_le (by omega) (by omega)

theorem toSafe_of_isSafe {n : Int} (h : isSafe n = true) :
    toSafe (.bigint n) = .number (ofInt n) := if_pos h

theorem toSafe_of_not_isSafe {n : Int} (h : ¬ isSafe n = true) :
    toSafe (.bigint n) = .bigint n := if_neg h

theorem datum_ofInt_of_isSafe {n : Int} (h : isSafe n = true) :
    datum (ofInt n) = Binary.Datum.ofInt n := datum_ofInt (natAbs_lt_of_isSafe h)

/-- What is written for a number that is an integer. -/
theorem dimebdumps_integer (host : Endian) {bits : UInt64} {n : Int}
    (h : (datum bits).integer? = some n) :
    dimebdumps host (.number bits) =
      some (code (.scalar .i64) :: BigEndian.encode 8 (n % 2 ^ 64).toNat) := by
  rw [dimebdumps, h]

theorem dimebdumps_fractional (host : Endian) {bits : UInt64} (h : (datum bits).integer? = none) :
    dimebdumps host (.number bits) =
      some (code (.scalar .double) :: BigEndian.encode 8 bits.toNat) := by
  rw [dimebdumps, h]

/-! ## Numbers that come back -/

/-- A number is decoded, with the value of the one that was encoded. -/
def KeepsNumber (host : Endian) (toKey : PropertyKey) (bits : UInt64) : Prop :=
  ∃ data bits', dimebdumps host (.number bits) = some data ∧
    dimebloads host toKey data = some (.number bits') ∧ datum bits' = datum bits

/-- The 64-bit integers, signed or unsigned. -/
def InRange (signed : Bool) (n : Int) : Prop :=
  if signed then -2 ^ 63 ≤ n ∧ n < 2 ^ 63 else 0 ≤ n ∧ n < 2 ^ 64

/-- The encoding of a 64-bit integer. -/
def integer64 (signed : Bool) (n : Int) : Bytes :=
  code (.scalar (if signed then .i64 else .u64)) :: BigEndian.encode 8 (n % 2 ^ 64).toNat

/-- What a 64-bit integer is decoded to is encoded, and decoded as the same integer. -/
def KeepsInteger (host : Endian) (toKey : PropertyKey) (signed : Bool) (n : Int) : Prop :=
  ∃ value data value', dimebloads host toKey (integer64 signed n) = some value ∧
    dimebdumps host value = some data ∧ dimebloads host toKey data = some value' ∧
    value'.datum? = some (.ofInt n)

section

variable (host : Endian) (toKey : PropertyKey)

theorem dimebloads_integer64 {signed : Bool} {n : Int} (h : InRange signed n) :
    dimebloads host toKey (integer64 signed n) = some (toSafe (.bigint n)) := by
  cases signed with
  | true =>
      have hrange : -2 ^ 63 ≤ n ∧ n < 2 ^ 63 := h
      have hloads := loads_i64 host toKey n []
      rw [List.append_nil, Int.bmod_eq_of_le (by omega) (by omega)] at hloads
      rw [dimebloads, integer64, if_pos rfl, hloads]
      rfl
  | false =>
      have hrange : 0 ≤ n ∧ n < 2 ^ 64 := h
      have hmod : n % 2 ^ 64 = n := Int.emod_eq_of_lt hrange.1 hrange.2
      have hloads := loads_u64 host toKey (n := n.toNat) (by omega) []
      rw [List.append_nil, Int.toNat_of_nonneg hrange.1] at hloads
      rw [dimebloads, integer64, hmod, if_neg (by decide), hloads]
      rfl

theorem dimebloads_i64 (n : Int) :
    dimebloads host toKey (code (.scalar .i64) :: BigEndian.encode 8 (n % 2 ^ 64).toNat) =
      some (toSafe (.bigint (n.bmod (2 ^ 64)))) := by
  have hloads := loads_i64 host toKey n []
  rw [List.append_nil] at hloads
  rw [dimebloads, hloads]
  rfl

theorem keepsNumber_integer {bits : UInt64} {n : Int} (h : (datum bits).integer? = some n) :
    KeepsNumber host toKey bits ↔ isSafe n = true := by
  constructor
  · intro hkeeps
    obtain ⟨data, bits', hdumps, hloads, hsame⟩ := hkeeps
    rw [dimebdumps_integer host h] at hdumps
    cases hdumps
    rw [dimebloads_i64] at hloads
    -- a number has been decoded, so what the 64 bits hold is safe
    by_cases hsafe : isSafe (n.bmod (2 ^ 64)) = true
    · rw [toSafe_of_isSafe hsafe] at hloads
      cases hloads
      rw [datum_ofInt_of_isSafe hsafe, Binary.Datum.eq_ofInt h] at hsame
      rwa [Binary.Datum.ofInt_inj hsame] at hsafe
    · rw [toSafe_of_not_isSafe hsafe] at hloads
      cases hloads
  · intro hsafe
    refine ⟨_, ofInt n, dimebdumps_integer host h, ?_, ?_⟩
    · rw [dimebloads_i64, bmod_of_isSafe hsafe, toSafe_of_isSafe hsafe]
    · rw [datum_ofInt_of_isSafe hsafe, Binary.Datum.eq_ofInt h]

theorem keepsNumber_fractional {bits : UInt64} (h : (datum bits).integer? = none) :
    KeepsNumber host toKey bits := by
  have hloads := loads_double host toKey bits []
  rw [List.append_nil] at hloads
  refine ⟨_, bits, dimebdumps_fractional host h, ?_, rfl⟩
  rw [dimebloads, hloads]
  rfl

theorem keepsNumber_iff (bits : UInt64) :
    KeepsNumber host toKey bits ↔ ∀ n, (datum bits).integer? = some n → isSafe n = true := by
  cases h : (datum bits).integer? with
  | none =>
      constructor
      · intro _ n hn
        cases hn
      · exact fun _ => keepsNumber_fractional host toKey h
  | some n =>
      rw [keepsNumber_integer host toKey h]
      constructor
      · intro hsafe m hm
        cases hm
        exact hsafe
      · exact fun hall => hall n rfl

/-- A big integer is written as an object without entries. -/
theorem dimebloads_bigint :
    dimebloads host toKey (code .assocarray :: BigEndian.encode 4 0) = some (.object []) := by
  rw [dimebloads, loads, tag?_code]
  have hlen : getUint 4 (code .assocarray :: BigEndian.encode 4 0) 1 = some 0 := rfl
  simp only [hlen, Option.bind_eq_bind, Option.bind_some, loadsEntries]
  rfl

theorem keepsInteger_iff {signed : Bool} {n : Int} (hrange : InRange signed n) :
    KeepsInteger host toKey signed n ↔ isSafe n = true := by
  have hfirst := dimebloads_integer64 host toKey hrange
  constructor
  · intro hkeeps
    obtain ⟨value, data, value', hvalue, hdumps, hloads, hsame⟩ := hkeeps
    rw [hfirst] at hvalue
    cases hvalue
    by_contra hunsafe
    rw [toSafe_of_not_isSafe hunsafe, dimebdumps] at hdumps
    cases hdumps
    rw [dimebloads_bigint] at hloads
    cases hloads
    cases hsame
  · intro hsafe
    have hinteger : (datum (ofInt n)).integer? = some n := by
      rw [datum_ofInt_of_isSafe hsafe, Binary.Datum.integer?_ofInt]
    obtain ⟨data, bits', hdumps, hloads, hsame⟩ :=
      (keepsNumber_integer host toKey hinteger).mpr hsafe
    rw [toSafe_of_isSafe hsafe] at hfirst
    refine ⟨_, data, _, hfirst, hdumps, hloads, ?_⟩
    rw [Value.datum?, hsame, datum_ofInt_of_isSafe hsafe]

end

/-- A number keeps its value if it is no integer or a safe one, and a received 64-bit
integer survives being encoded again if it is safe. -/
theorem keeps_numbers_iff (host : Endian) (toKey : PropertyKey) :
    (∀ bits, KeepsNumber host toKey bits ↔
      ∀ n, (datum bits).integer? = some n → isSafe n = true) ∧
    ∀ signed n, InRange signed n → (KeepsInteger host toKey signed n ↔ isSafe n = true) :=
  ⟨keepsNumber_iff host toKey, fun _ _ => keepsInteger_iff host toKey⟩

theorem keeps_numbers_small : KeepsInteger .little (fun _ => none) true (-3) ↔ isSafe (-3) = true :=
  (keeps_numbers_iff .little fun _ => none).2 true (-3) (by unfold InRange; decide)

/-- The number 2^63 comes back as the big integer -2^63, and the integer 2^53 as an object. -/
theorem not_keeps_large : ∃ bits, datum bits = .finite (2 ^ 63 * 2 ^ 1074) ∧
    InRange true (2 ^ 53) ∧ ∀ toKey,
      (∃ data, dimebdumps .little (.number bits) = some data ∧
        dimebloads .little toKey data = some (.bigint (-2 ^ 63))) ∧
      ¬ KeepsNumber .little toKey bits ∧ ¬ KeepsInteger .little toKey true (2 ^ 53) := by
  have hdatum : datum 0x43E0000000000000 = .finite (2 ^ 63 * 2 ^ 1074) := by decide +kernel
  have hinteger : (datum 0x43E0000000000000).integer? = some (2 ^ 63) := by
    rw [hdatum]
    exact Binary.Datum.integer?_ofInt (2 ^ 63)
  have hrange : InRange true (2 ^ 53) := by
    unfold InRange
    decide
  refine ⟨0x43E0000000000000, hdatum, hrange, fun toKey => ⟨?_, ?_, ?_⟩⟩
  · refine ⟨_, dimebdumps_integer .little hinteger, ?_⟩
    rw [dimebloads_i64]
    exact congrArg some (toSafe_of_not_isSafe (by decide))
  · rw [keepsNumber_integer .little toKey hinteger]
    decide
  · rw [keepsInteger_iff .little toKey hrange]
    decide

end Dime.JavaScript
