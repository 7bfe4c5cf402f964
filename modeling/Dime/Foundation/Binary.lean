import Mathlib.Data.Nat.Log
import Mathlib.Tactic.Ring

/-!
# Binary floating-point formats

Bit patterns as natural numbers, and the numbers that they stand for. All finite
numbers of the two formats are multiples of the least positive double, so they are
given as integers in that unit, and conversions are compared without fractions.
-/

namespace Binary

/-- A number in units of `2 ^ -1074`, or no number. -/
inductive Datum where
  | finite (scaled : Int)
  | infinite (negative : Bool)
  | nan
  deriving DecidableEq

/-- The number of an integer. -/
def Datum.ofInt (n : Int) : Datum := .finite (n * 2 ^ 1074)

theorem unit_ne_zero : (2 : Int) ^ 1074 ≠ 0 := pow_ne_zero 1074 (by decide)

theorem Datum.ofInt_inj {m n : Int} (h : Datum.ofInt m = Datum.ofInt n) : m = n := by
  have hscaled : m * 2 ^ 1074 = n * 2 ^ 1074 := Datum.finite.inj h
  exact Int.eq_of_mul_eq_mul_right unit_ne_zero hscaled

/-- The integer that a number is. -/
def Datum.integer? : Datum → Option Int
  | .finite scaled => if scaled % 2 ^ 1074 = 0 then some (scaled / 2 ^ 1074) else none
  | _ => none

/-- A number without its fraction; what is no number counts as zero. -/
def Datum.truncate : Datum → Int
  | .finite scaled => scaled.tdiv (2 ^ 1074)
  | _ => 0

theorem Datum.integer?_ofInt (n : Int) : (Datum.ofInt n).integer? = some n := by
  have hmod : n * 2 ^ 1074 % 2 ^ 1074 = 0 := Int.mul_emod_left n _
  have hdiv : n * 2 ^ 1074 / 2 ^ 1074 = n := Int.mul_ediv_cancel n unit_ne_zero
  exact (if_pos hmod).trans (congrArg some hdiv)

theorem Datum.truncate_ofInt (n : Int) : (Datum.ofInt n).truncate = n :=
  Int.mul_tdiv_cancel n unit_ne_zero

theorem Datum.eq_ofInt {d : Datum} {n : Int} (h : d.integer? = some n) : d = Datum.ofInt n := by
  cases d with
  | finite scaled =>
      have hif : (if scaled % 2 ^ 1074 = 0 then some (scaled / 2 ^ 1074) else none) = some n := h
      by_cases hmod : scaled % 2 ^ 1074 = 0
      · rw [if_pos hmod] at hif
        have hdiv : scaled / 2 ^ 1074 = n := Option.some.inj hif
        have hscaled : scaled = n * 2 ^ 1074 := by
          rw [← hdiv]
          exact (Int.ediv_mul_cancel (Int.dvd_of_emod_eq_zero hmod)).symm
        exact congrArg Datum.finite hscaled
      · rw [if_neg hmod] at hif
        cases hif
  | infinite negative => cases h
  | nan => cases h

/-- The sizes of the fraction and of the exponent, and the unit of the least exponent
as a multiple of that of doubles. -/
structure Format where
  fraction : Nat
  exponent : Nat
  unit : Nat

def single : Format := ⟨23, 8, 925⟩

def double : Format := ⟨52, 11, 0⟩

namespace Format

variable (fmt : Format) {negative : Bool} {exponent fraction : Nat}

/-- Sign, exponent and fraction side by side. -/
def pack (negative : Bool) (exponent fraction : Nat) : Nat :=
  fraction + 2 ^ fmt.fraction * (exponent + 2 ^ fmt.exponent * negative.toNat)

def signOf (bits : Nat) : Bool := bits / 2 ^ fmt.fraction / 2 ^ fmt.exponent % 2 = 1

def exponentOf (bits : Nat) : Nat := bits / 2 ^ fmt.fraction % 2 ^ fmt.exponent

def fractionOf (bits : Nat) : Nat := bits % 2 ^ fmt.fraction

/-- The fraction with the leading bit, which only the least exponent lacks. -/
def significand (exponent fraction : Nat) : Nat :=
  if exponent = 0 then fraction else 2 ^ fmt.fraction + fraction

/-- The number that a sign, an exponent and a fraction stand for. -/
def value (negative : Bool) (exponent fraction : Nat) : Datum :=
  if exponent = 2 ^ fmt.exponent - 1 then
    if fraction = 0 then .infinite negative else .nan
  else
    let scaled : Nat := fmt.significand exponent fraction * 2 ^ (exponent - 1 + fmt.unit)
    .finite (if negative then -scaled else scaled)

/-- The number that a bit pattern stands for. -/
def datum (bits : Nat) : Datum :=
  fmt.value (fmt.signOf bits) (fmt.exponentOf bits) (fmt.fractionOf bits)

theorem fractionOf_pack (h : fraction < 2 ^ fmt.fraction) :
    fmt.fractionOf (fmt.pack negative exponent fraction) = fraction := by
  rw [fractionOf, pack, Nat.add_mul_mod_self_left, Nat.mod_eq_of_lt h]

theorem pack_div (h : fraction < 2 ^ fmt.fraction) :
    fmt.pack negative exponent fraction / 2 ^ fmt.fraction =
      exponent + 2 ^ fmt.exponent * negative.toNat := by
  rw [pack, Nat.add_mul_div_left _ _ (Nat.two_pow_pos _), Nat.div_eq_of_lt h, Nat.zero_add]

theorem exponentOf_pack (hexponent : exponent < 2 ^ fmt.exponent)
    (hfraction : fraction < 2 ^ fmt.fraction) :
    fmt.exponentOf (fmt.pack negative exponent fraction) = exponent := by
  rw [exponentOf, pack_div fmt hfraction, Nat.add_mul_mod_self_left, Nat.mod_eq_of_lt hexponent]

theorem signOf_pack (hexponent : exponent < 2 ^ fmt.exponent)
    (hfraction : fraction < 2 ^ fmt.fraction) :
    fmt.signOf (fmt.pack negative exponent fraction) = negative := by
  rw [Format.signOf, pack_div fmt hfraction, Nat.add_mul_div_left _ _ (Nat.two_pow_pos _),
    Nat.div_eq_of_lt hexponent, Nat.zero_add]
  cases negative <;> rfl

theorem datum_pack (hexponent : exponent < 2 ^ fmt.exponent)
    (hfraction : fraction < 2 ^ fmt.fraction) :
    fmt.datum (fmt.pack negative exponent fraction) = fmt.value negative exponent fraction := by
  rw [datum, signOf_pack fmt hexponent hfraction, exponentOf_pack fmt hexponent hfraction,
    fractionOf_pack fmt hfraction]

/-- A pattern is its sign, its exponent and its fraction. -/
theorem pack_fields {bits : Nat} (h : bits < 2 ^ (fmt.fraction + fmt.exponent + 1)) :
    fmt.pack (fmt.signOf bits) (fmt.exponentOf bits) (fmt.fractionOf bits) = bits := by
  have hsign : bits / 2 ^ fmt.fraction / 2 ^ fmt.exponent < 2 := by
    rw [Nat.div_div_eq_div_mul, ← pow_add]
    exact Nat.div_lt_of_lt_mul (by rwa [← pow_succ])
  have hnegative : (fmt.signOf bits).toNat = bits / 2 ^ fmt.fraction / 2 ^ fmt.exponent := by
    unfold Format.signOf
    rcases Nat.lt_or_ge (bits / 2 ^ fmt.fraction / 2 ^ fmt.exponent) 1 with hlt | hge
    · rw [Nat.lt_one_iff.mp hlt]
      rfl
    · rw [show bits / 2 ^ fmt.fraction / 2 ^ fmt.exponent = 1 by omega]
      rfl
  rw [pack, hnegative, exponentOf, fractionOf, Nat.mod_add_div, Nat.mod_add_div]

theorem value_of_lt (h : exponent < 2 ^ fmt.exponent - 1) {scaled : Nat}
    (hscaled : fmt.significand exponent fraction * 2 ^ (exponent - 1 + fmt.unit) = scaled) :
    fmt.value negative exponent fraction = .finite (if negative then -scaled else scaled) := by
  rw [value, if_neg (Nat.ne_of_lt h), hscaled]

theorem value_zero (h : 0 < 2 ^ fmt.exponent - 1) : fmt.value negative 0 0 = .finite 0 := by
  have hscaled : fmt.significand 0 0 * 2 ^ (0 - 1 + fmt.unit) = 0 := Nat.zero_mul _
  rw [value_of_lt fmt h hscaled]
  simp

end Format

/-! ## Rounding -/

/-- `m / 2 ^ s` to the nearest integer, ties to even. -/
def round (m s : Nat) : Nat :=
  let q := m / 2 ^ s
  let r := m % 2 ^ s
  if 2 * r < 2 ^ s then q else if 2 ^ s < 2 * r then q + 1 else q + q % 2

@[simp] theorem round_mul (q s : Nat) : round (q * 2 ^ s) s = q := by
  have hpos : 0 < 2 ^ s := Nat.two_pow_pos s
  simp [round, Nat.mul_div_cancel q hpos, hpos]

theorem round_zero (s : Nat) : round 0 s = 0 := by
  have hzero := round_mul 0 s
  rwa [Nat.zero_mul] at hzero

/-! ## Conversions -/

/-- A single as a double. A NaN becomes quiet. -/
def widen (bits : Nat) : Nat :=
  let exponent := single.exponentOf bits
  let fraction := single.fractionOf bits
  if exponent = 255 then
    double.pack (single.signOf bits) 2047 (if fraction = 0 then 0 else fraction * 2 ^ 29 ||| 2 ^ 51)
  else if exponent = 0 then
    if fraction = 0 then double.pack (single.signOf bits) 0 0
    else double.pack (single.signOf bits) (fraction.log2 + 874)
      ((fraction - 2 ^ fraction.log2) * 2 ^ (52 - fraction.log2))
  else double.pack (single.signOf bits) (exponent + 896) (fraction * 2 ^ 29)

/-- A double rounded to a single. A NaN becomes quiet. -/
def narrow (bits : Nat) : Nat :=
  let exponent := double.exponentOf bits
  let fraction := double.fractionOf bits
  if exponent = 2047 then
    single.pack (double.signOf bits) 255 (if fraction = 0 then 0 else fraction / 2 ^ 29 ||| 2 ^ 22)
  else
    let significand := double.significand exponent fraction
    let magnitude := (exponent - 897) * 2 ^ 23 + round significand (29 + (897 - max exponent 1))
    single.pack (double.signOf bits) 0 (min magnitude (255 * 2 ^ 23))

/-- An integer rounded to a double. -/
def ofInt (n : Int) : Nat :=
  if n = 0 then 0
  else
    let k := n.natAbs.log2
    let magnitude := (k + 1022) * 2 ^ 52 + round (n.natAbs * 2 ^ (52 - k)) (k - 52)
    double.pack (n < 0) 0 (min magnitude (2047 * 2 ^ 52))

theorem double_pack_lt {negative : Bool} {exponent fraction : Nat}
    (h : fraction + 2 ^ 52 * exponent < 2 ^ 63) : double.pack negative exponent fraction < 2 ^ 64 := by
  have hsplit : double.pack negative exponent fraction =
      fraction + 2 ^ 52 * exponent + 2 ^ 63 * negative.toNat := by
    simp only [Format.pack, double]
    ring
  have hsign : negative.toNat ≤ 1 := Bool.toNat_le negative
  rw [hsplit]
  omega

theorem ofInt_lt (n : Int) : ofInt n < 2 ^ 64 := by
  unfold ofInt
  split
  · exact Nat.two_pow_pos 64
  · apply double_pack_lt
    have := Nat.min_le_right
      ((n.natAbs.log2 + 1022) * 2 ^ 52 + round (n.natAbs * 2 ^ (52 - n.natAbs.log2))
        (n.natAbs.log2 - 52)) (2047 * 2 ^ 52)
    omega

theorem log2_lt_of_lt {f k : Nat} (hf : f ≠ 0) (h : f < 2 ^ k) : f.log2 < k :=
  (Nat.log2_lt hf).mpr h

/-- The fraction of a number once its leading bit is left out. -/
theorem leading {f k : Nat} (hf : f ≠ 0) (hk : f.log2 ≤ k) :
    2 ^ k + (f - 2 ^ f.log2) * 2 ^ (k - f.log2) = f * 2 ^ (k - f.log2) ∧
      (f - 2 ^ f.log2) * 2 ^ (k - f.log2) < 2 ^ k := by
  have hpow : 2 ^ f.log2 * 2 ^ (k - f.log2) = 2 ^ k := by rw [← pow_add, Nat.add_sub_cancel' hk]
  have hlow : 2 ^ f.log2 ≤ f := Nat.log2_self_le hf
  have hhigh : f < 2 ^ (f.log2 + 1) := Nat.lt_log2_self
  constructor
  · rw [Nat.sub_mul, hpow, Nat.add_sub_cancel']
    rw [← hpow]
    exact Nat.mul_le_mul_right _ hlow
  · rw [← hpow]
    apply Nat.mul_lt_mul_of_pos_right _ (Nat.two_pow_pos _)
    rw [pow_succ] at hhigh
    omega

/-- The parts of a single are in their ranges. -/
theorem single_fields (bits : Nat) : single.exponentOf bits < 256 ∧ single.fractionOf bits < 2 ^ 23 :=
  ⟨Nat.mod_lt _ (by decide), Nat.mod_lt _ (by decide)⟩

theorem mul_two_pow_eq {a b s m n : Nat} (h : a = b * 2 ^ s) (hn : s + m = n) :
    a * 2 ^ m = b * 2 ^ n := by
  rw [h, Nat.mul_assoc, ← pow_add, hn]

theorem significand_double {exponent : Nat} (h : exponent ≠ 0) (fraction : Nat) :
    double.significand exponent fraction = 2 ^ 52 + fraction := if_neg h

theorem widen_fraction_lt {fraction : Nat} (h : fraction < 2 ^ 23) : fraction * 2 ^ 29 < 2 ^ 52 := by
  omega

theorem widen_lt (bits : Nat) : widen bits < 2 ^ 64 := by
  obtain ⟨hexponent, hfraction⟩ := single_fields bits
  rw [widen]
  generalize single.signOf bits = negative
  generalize single.exponentOf bits = e at hexponent
  generalize single.fractionOf bits = f at hfraction
  have hquiet : f * 2 ^ 29 ||| 2 ^ 51 < 2 ^ 52 :=
    Nat.or_lt_two_pow (widen_fraction_lt hfraction) (by decide)
  split
  · apply double_pack_lt
    split <;> omega
  · split
    · split
      · exact double_pack_lt (by decide)
      next hf =>
        have hlog : f.log2 < 23 := log2_lt_of_lt hf hfraction
        have hlt := (leading hf (Nat.le_of_lt (Nat.lt_trans hlog (by decide : 23 < 52)))).2
        apply double_pack_lt
        omega
    · apply double_pack_lt
      omega

/-- Widening keeps the number. -/
theorem datum_widen (bits : Nat) : double.datum (widen bits) = single.datum bits := by
  obtain ⟨hexponent, hfraction⟩ := single_fields bits
  have hsingle : single.datum bits =
      single.value (single.signOf bits) (single.exponentOf bits) (single.fractionOf bits) := rfl
  rw [hsingle, widen]
  generalize single.signOf bits = negative
  generalize single.exponentOf bits = e at hexponent
  generalize single.fractionOf bits = f at hfraction
  split
  next he =>
    -- infinities and NaNs
    subst he
    by_cases hf : f = 0
    · rw [if_pos hf, double.datum_pack (by decide) (by decide), hf]
      rfl
    · have hquiet : f * 2 ^ 29 ||| 2 ^ 51 < 2 ^ 52 :=
        Nat.or_lt_two_pow (widen_fraction_lt hfraction) (by decide)
      have hne : f * 2 ^ 29 ||| 2 ^ 51 ≠ 0 := fun h => absurd (Nat.or_eq_zero_iff.mp h).2 (by decide)
      rw [if_neg hf, double.datum_pack (by decide) hquiet]
      simp [Format.value, double, single, hf]
  next he =>
    split
    next hzero =>
      subst hzero
      split
      next hf =>
        rw [hf, double.datum_pack (by decide) (by decide), double.value_zero (by decide),
          single.value_zero (by decide)]
      next hf =>
        -- a number below the normal singles is a normal double
        have hlog : f.log2 < 23 := log2_lt_of_lt hf hfraction
        obtain ⟨hsum, hlt⟩ := leading hf (Nat.le_of_lt (Nat.lt_trans hlog (by decide : 23 < 52)))
        have hscaled : double.significand (f.log2 + 874) ((f - 2 ^ f.log2) * 2 ^ (52 - f.log2)) *
            2 ^ (f.log2 + 874 - 1 + double.unit) = f * 2 ^ (0 - 1 + single.unit) :=
          mul_two_pow_eq ((significand_double (Nat.succ_ne_zero _) _).trans hsum)
            (by simp only [double, single]; omega)
        rw [double.datum_pack (by simp only [double]; omega) hlt,
          double.value_of_lt (by simp only [double]; omega) hscaled, single.value_of_lt (by decide) rfl]
        rfl
    next hzero =>
      have hscaled : double.significand (e + 896) (f * 2 ^ 29) * 2 ^ (e + 896 - 1 + double.unit) =
          single.significand e f * 2 ^ (e - 1 + single.unit) := by
        refine mul_two_pow_eq (s := 29) ?_ (by simp only [double, single]; omega)
        rw [significand_double (Nat.succ_ne_zero _), Format.significand, if_neg hzero]
        simp only [single]
        omega
      rw [double.datum_pack (by simp only [double]; omega) (widen_fraction_lt hfraction),
        double.value_of_lt (by simp only [double]; omega) hscaled,
        single.value_of_lt (by simp only [single]; omega) rfl]

/-- An exponent may stand in the fraction. -/
theorem pack_carry (fmt : Format) (negative : Bool) (exponent fraction : Nat) :
    fmt.pack negative 0 (exponent * 2 ^ fmt.fraction + fraction) =
      fmt.pack negative exponent fraction := by
  simp only [Format.pack]
  ring

theorem narrow_pack {negative : Bool} {e f : Nat} (he : e < 2047) (hf : f < 2 ^ 52) :
    narrow (double.pack negative e f) = single.pack negative 0
      (min ((e - 897) * 2 ^ 23 + round (double.significand e f) (29 + (897 - max e 1)))
        (255 * 2 ^ 23)) := by
  have hexponent : e < 2 ^ double.exponent := Nat.lt_succ_of_lt he
  rw [narrow, double.exponentOf_pack hexponent hf, double.fractionOf_pack hf,
    double.signOf_pack hexponent hf, if_neg (Nat.ne_of_lt he)]

theorem narrow_pack_special {negative : Bool} {f : Nat} (hf : f < 2 ^ 52) :
    narrow (double.pack negative 2047 f) =
      single.pack negative 255 (if f = 0 then 0 else f / 2 ^ 29 ||| 2 ^ 22) := by
  rw [narrow, double.exponentOf_pack (by decide) hf, double.fractionOf_pack hf,
    double.signOf_pack (by decide) hf, if_pos rfl]

theorem single_special (negative : Bool) (fraction : Nat) :
    single.value negative 255 fraction = if fraction = 0 then .infinite negative else .nan :=
  if_pos rfl

theorem single_pack_lt {negative : Bool} {exponent fraction : Nat}
    (h : fraction + 2 ^ 23 * exponent < 2 ^ 31) : single.pack negative exponent fraction < 2 ^ 32 := by
  have hsplit : single.pack negative exponent fraction =
      fraction + 2 ^ 23 * exponent + 2 ^ 31 * negative.toNat := by
    simp only [Format.pack, single]
    ring
  have hsign : negative.toNat ≤ 1 := Bool.toNat_le negative
  rw [hsplit]
  omega

theorem narrow_lt (bits : Nat) : narrow bits < 2 ^ 32 := by
  have hfraction : double.fractionOf bits < 2 ^ 52 := Nat.mod_lt _ (by decide)
  rw [narrow]
  generalize double.signOf bits = negative
  generalize double.exponentOf bits = e
  generalize double.fractionOf bits = f at hfraction
  have hquiet : f / 2 ^ 29 ||| 2 ^ 22 < 2 ^ 23 := Nat.or_lt_two_pow (by omega) (by decide)
  split
  · apply single_pack_lt
    split <;> omega
  · apply single_pack_lt
    have hmin := Nat.min_le_right ((e - 897) * 2 ^ 23 +
      round (double.significand e f) (29 + (897 - max e 1))) (255 * 2 ^ 23)
    omega

/-- Apart from NaNs, a single that has been widened is narrowed to itself. -/
theorem narrow_widen {bits : Nat} (hbits : bits < 2 ^ 32)
    (hnan : single.exponentOf bits = 255 → single.fractionOf bits = 0) :
    narrow (widen bits) = bits := by
  obtain ⟨hexponent, hfraction⟩ := single_fields bits
  have hpack : single.pack (single.signOf bits) (single.exponentOf bits) (single.fractionOf bits) =
      bits := single.pack_fields hbits
  refine Eq.trans ?_ hpack
  rw [widen]
  generalize single.signOf bits = negative
  generalize single.exponentOf bits = e at hexponent hnan
  generalize single.fractionOf bits = f at hfraction hnan
  split
  next he =>
    rw [if_pos (hnan he), hnan he, narrow_pack_special (by decide), if_pos rfl, he]
  next he =>
    split
    next hzero =>
      split
      next hf =>
        have hsignificand : double.significand 0 0 = 0 := rfl
        rw [hf, hzero, narrow_pack (by decide) (by decide), hsignificand, round_zero, Nat.zero_sub,
          Nat.zero_mul, Nat.zero_add, Nat.zero_min]
      next hf =>
        have hlog : f.log2 < 23 := log2_lt_of_lt hf hfraction
        obtain ⟨hsum, hlt⟩ := leading hf (Nat.le_of_lt (Nat.lt_trans hlog (by decide : 23 < 52)))
        have hshift : 29 + (897 - max (f.log2 + 874) 1) = 52 - f.log2 := by omega
        have hexact : f.log2 + 874 - 897 = 0 := by omega
        rw [narrow_pack (by omega) hlt, significand_double (Nat.succ_ne_zero _), hsum, hshift,
          round_mul, hexact, Nat.zero_mul, Nat.zero_add, min_eq_left (by omega), hzero]
    next hzero =>
      have hsum : 2 ^ 52 + f * 2 ^ 29 = (2 ^ 23 + f) * 2 ^ 29 := by ring
      have hshift : 29 + (897 - max (e + 896) 1) = 29 := by omega
      have hmagnitude : (e + 896 - 897) * 2 ^ 23 + (2 ^ 23 + f) = e * 2 ^ 23 + f := by omega
      rw [narrow_pack (by omega) (widen_fraction_lt hfraction),
        significand_double (Nat.succ_ne_zero _), hsum, hshift, round_mul, hmagnitude,
        min_eq_left (by omega)]
      exact pack_carry single negative e f

theorem or_two_pow_ne_zero (m k : Nat) : m ||| 2 ^ k ≠ 0 := by
  intro h
  exact absurd (Nat.or_eq_zero_iff.mp h).2 (Nat.two_pow_pos k).ne'

/-- A NaN that has been widened is narrowed to itself, but quiet. -/
theorem narrow_widen_nan {bits : Nat} (he : single.exponentOf bits = 255)
    (hf : single.fractionOf bits ≠ 0) :
    narrow (widen bits) =
      single.pack (single.signOf bits) 255 (single.fractionOf bits ||| 2 ^ 22) := by
  have hquiet : single.fractionOf bits * 2 ^ 29 ||| 2 ^ 51 < 2 ^ 52 :=
    Nat.or_lt_two_pow (widen_fraction_lt (single_fields bits).2) (by decide)
  have hlow : (single.fractionOf bits * 2 ^ 29 ||| 2 ^ 51) / 2 ^ 29 ||| 2 ^ 22 =
      single.fractionOf bits ||| 2 ^ 22 := by
    rw [Nat.or_div_two_pow, Nat.mul_div_cancel _ (Nat.two_pow_pos 29), Nat.or_assoc]
    rfl
  rw [widen, if_pos he, if_neg hf, narrow_pack_special hquiet, if_neg (or_two_pow_ne_zero _ 51), hlow]

theorem quiet_lt (bits : Nat) : single.fractionOf bits ||| 2 ^ 22 < 2 ^ 23 :=
  Nat.or_lt_two_pow (single_fields bits).2 (by decide)

theorem datum_single_nan {bits : Nat} (he : single.exponentOf bits = 255)
    (hf : single.fractionOf bits ≠ 0) : single.datum bits = .nan := by
  rw [Format.datum, he, single_special, if_neg hf]

/-- A single that has been widened, narrowed and widened again is the same double. -/
theorem widen_narrow_widen {bits : Nat} (hbits : bits < 2 ^ 32) :
    widen (narrow (widen bits)) = widen bits := by
  by_cases hnan : single.exponentOf bits = 255 ∧ single.fractionOf bits ≠ 0
  · obtain ⟨he, hf⟩ := hnan
    have hquiet := quiet_lt bits
    have hback : (single.fractionOf bits ||| 2 ^ 22) * 2 ^ 29 ||| 2 ^ 51 =
        single.fractionOf bits * 2 ^ 29 ||| 2 ^ 51 := by
      rw [← Nat.shiftLeft_eq, Nat.shiftLeft_or_distrib, Nat.shiftLeft_eq, Nat.or_assoc]
      rfl
    have hwiden : widen bits = double.pack (single.signOf bits) 2047
        (single.fractionOf bits * 2 ^ 29 ||| 2 ^ 51) := by
      rw [widen, if_pos he, if_neg hf]
    rw [narrow_widen_nan he hf, widen, single.exponentOf_pack (by decide) hquiet, if_pos rfl,
      single.fractionOf_pack hquiet, single.signOf_pack (by decide) hquiet,
      if_neg (or_two_pow_ne_zero _ 22), hback, hwiden]
  · rw [narrow_widen hbits fun he => by
      by_contra hf
      exact hnan ⟨he, hf⟩]

theorem signed_natAbs (n : Int) (m : Nat) :
    (if decide (n < 0) = true then -((n.natAbs * m : Nat) : Int) else ((n.natAbs * m : Nat) : Int)) =
      n * m := by
  rw [Int.natCast_mul]
  by_cases hn : n < 0
  · rw [if_pos (decide_eq_true hn), ← Int.neg_mul, Int.ofNat_natAbs_of_nonpos (Int.le_of_lt hn),
      Int.neg_neg]
  · rw [if_neg (by simpa using hn), Int.natAbs_of_nonneg (Int.not_lt.mp hn)]

theorem ofInt_eq {n : Int} (hn : n ≠ 0) :
    ofInt n = double.pack (n < 0) 0 (min ((n.natAbs.log2 + 1022) * 2 ^ 52 +
      round (n.natAbs * 2 ^ (52 - n.natAbs.log2)) (n.natAbs.log2 - 52)) (2047 * 2 ^ 52)) :=
  if_neg hn

/-- Integers below `2 ^ 53` are doubles. -/
theorem datum_ofInt {n : Int} (h : n.natAbs < 2 ^ 53) : double.datum (ofInt n) = Datum.ofInt n := by
  by_cases hn : n = 0
  · have hbits : ofInt n = double.pack false 0 0 := if_pos hn
    have hzero : Datum.ofInt 0 = .finite 0 := congrArg Datum.finite (Int.zero_mul _)
    calc double.datum (ofInt n) = double.datum (double.pack false 0 0) := congrArg _ hbits
      _ = double.value false 0 0 := double.datum_pack (by decide) (by decide)
      _ = .finite 0 := double.value_zero (by decide)
      _ = Datum.ofInt 0 := hzero.symm
      _ = Datum.ofInt n := congrArg _ hn.symm
  · have ha : n.natAbs ≠ 0 := Int.natAbs_ne_zero.mpr hn
    have hlog : n.natAbs.log2 ≤ 52 := Nat.lt_succ_iff.mp (log2_lt_of_lt ha h)
    obtain ⟨hsum, hlt⟩ := leading ha hlog
    have hround : round (n.natAbs * 2 ^ (52 - n.natAbs.log2)) (n.natAbs.log2 - 52) =
        n.natAbs * 2 ^ (52 - n.natAbs.log2) := by
      have hexact := round_mul (n.natAbs * 2 ^ (52 - n.natAbs.log2)) 0
      rwa [pow_zero, Nat.mul_one, ← Nat.sub_eq_zero_of_le hlog] at hexact
    have hmagnitude : (n.natAbs.log2 + 1022) * 2 ^ 52 + n.natAbs * 2 ^ (52 - n.natAbs.log2) =
        (n.natAbs.log2 + 1023) * 2 ^ 52 +
          (n.natAbs - 2 ^ n.natAbs.log2) * 2 ^ (52 - n.natAbs.log2) := by
      rw [← hsum, ← Nat.add_assoc, ← Nat.succ_mul]
    have hbits : ofInt n = double.pack (n < 0) 0 ((n.natAbs.log2 + 1023) * 2 ^ 52 +
        (n.natAbs - 2 ^ n.natAbs.log2) * 2 ^ (52 - n.natAbs.log2)) := by
      rw [ofInt_eq hn, hround, hmagnitude, min_eq_left (by omega)]
    have hscaled : double.significand (n.natAbs.log2 + 1023)
        ((n.natAbs - 2 ^ n.natAbs.log2) * 2 ^ (52 - n.natAbs.log2)) *
          2 ^ (n.natAbs.log2 + 1023 - 1 + double.unit) = n.natAbs * 2 ^ 1074 :=
      mul_two_pow_eq ((significand_double (Nat.succ_ne_zero _) _).trans hsum)
        (by simp only [double]; omega)
    refine (congrArg double.datum (hbits.trans (pack_carry double _ _ _))).trans ?_
    refine (double.datum_pack (by simp only [double]; omega) hlt).trans ?_
    refine (double.value_of_lt (by simp only [double]; omega) hscaled).trans ?_
    exact congrArg Datum.finite (signed_natAbs n _)

/-! ## Arithmetic -/

/-- `n / 2 ^ t` units rounded to a double. -/
def ofScaled (n : Int) (t : Nat) : Nat :=
  let shift := max (n.natAbs.log2 - 52) t
  let magnitude := (shift - t) * 2 ^ 52 + round n.natAbs shift
  double.pack (n < 0) 0 (min magnitude (2047 * 2 ^ 52))

/-- The sum of two doubles. -/
def Datum.add : Datum → Datum → Datum
  | .finite a, .finite b => double.datum (ofScaled (a + b) 0)
  | .infinite p, .infinite q => if p = q then .infinite p else .nan
  | .infinite p, .finite _ => .infinite p
  | .finite _, .infinite q => .infinite q
  | _, _ => .nan

/-- The product of two doubles. -/
def Datum.mul : Datum → Datum → Datum
  | .finite a, .finite b => double.datum (ofScaled (a * b) 1074)
  | .infinite p, .infinite q => .infinite (p != q)
  | .infinite p, .finite a | .finite a, .infinite p =>
    if a = 0 then .nan else .infinite (p != decide (a < 0))
  | _, _ => .nan

def Datum.neg : Datum → Datum
  | .finite a => .finite (-a)
  | .infinite negative => .infinite !negative
  | .nan => .nan

/-- The difference of two doubles. -/
def Datum.sub (a b : Datum) : Datum := a.add b.neg

theorem round_shift (m s t : Nat) : round (m * 2 ^ t) (s + t) = round m s := by
  have hpos : 0 < 2 ^ t := Nat.two_pow_pos t
  have hlt : ∀ a b, a * 2 ^ t < b * 2 ^ t ↔ a < b := fun a b => Nat.mul_lt_mul_right hpos
  rw [round, round, pow_add, Nat.mul_div_mul_right _ _ hpos, Nat.mul_mod_mul_right,
    ← Nat.mul_assoc]
  simp only [hlt]

theorem log2_mul_two_pow {a : Nat} (ha : a ≠ 0) (t : Nat) : (a * 2 ^ t).log2 = a.log2 + t := by
  rw [Nat.log2_eq_iff (Nat.mul_ne_zero ha (Nat.two_pow_pos t).ne')]
  obtain ⟨hlow, hhigh⟩ := (Nat.log2_eq_iff ha).mp rfl
  constructor
  · rw [pow_add]
    exact Nat.mul_le_mul_right _ hlow
  · rw [Nat.add_right_comm, pow_add]
    exact Nat.mul_lt_mul_of_pos_right hhigh (Nat.two_pow_pos t)

/-- Rounding an integer in finer units gives its closest double. -/
theorem ofScaled_eq_ofInt (n : Int) (t : Nat) : ofScaled (n * 2 ^ (1074 + t)) t = ofInt n := by
  by_cases hn : n = 0
  · subst hn
    rw [Int.zero_mul, ofScaled, Int.natAbs_zero, round_zero, Nat.log2_zero, Nat.zero_sub,
      Nat.zero_max, Nat.sub_self]
    rfl
  · have ha : n.natAbs ≠ 0 := Int.natAbs_ne_zero.mpr hn
    have habs : (n * 2 ^ (1074 + t)).natAbs = n.natAbs * 2 ^ (1074 + t) := by
      rw [Int.natAbs_mul, Int.natAbs_pow]
      rfl
    have hsign : decide (n * 2 ^ (1074 + t) < 0) = decide (n < 0) := by
      have hpos : (0 : Int) < 2 ^ (1074 + t) := Int.pow_pos (by decide)
      rw [decide_eq_decide]
      exact ⟨fun h => by_contra fun hneg => absurd h
        (Int.not_lt.mpr (Int.mul_nonneg (Int.not_lt.mp hneg) hpos.le)),
        fun h => Int.mul_neg_of_neg_of_pos h hpos⟩
    have hshift : max (n.natAbs.log2 + (1074 + t) - 52) t = n.natAbs.log2 + 1022 + t := by omega
    have hround : round (n.natAbs * 2 ^ (1074 + t)) (n.natAbs.log2 + 1022 + t) =
        round (n.natAbs * 2 ^ (52 - n.natAbs.log2)) (n.natAbs.log2 - 52) := by
      have hpow : n.natAbs * 2 ^ (1074 + t) = n.natAbs * 2 ^ (52 - n.natAbs.log2) *
          2 ^ (1022 + t + min n.natAbs.log2 52) := by
        rw [Nat.mul_assoc, ← pow_add]
        congr 2
        omega
      have hsum : n.natAbs.log2 + 1022 + t =
          n.natAbs.log2 - 52 + (1022 + t + min n.natAbs.log2 52) := by omega
      rw [hpow, hsum, round_shift]
    rw [ofScaled, habs, hsign, log2_mul_two_pow ha, hshift, Nat.add_sub_cancel, hround,
      ofInt_eq hn]

/-- The sum of two integers is rounded as any integer. -/
theorem Datum.add_ofInt (m n : Int) : (ofInt m).add (ofInt n) = double.datum (Binary.ofInt (m + n)) := by
  have hscaled : m * 2 ^ 1074 + n * 2 ^ 1074 = (m + n) * 2 ^ (1074 + 0) := (Int.add_mul m n _).symm
  exact congrArg double.datum ((congrArg (ofScaled · 0) hscaled).trans (ofScaled_eq_ofInt _ 0))

theorem Datum.sub_ofInt (m n : Int) : (ofInt m).sub (ofInt n) = double.datum (Binary.ofInt (m - n)) := by
  have hneg : (ofInt n).neg = ofInt (-n) := congrArg finite (Int.neg_mul n _).symm
  rw [Datum.sub, hneg, add_ofInt, Int.sub_eq_add_neg]

/-- So is their product. -/
theorem Datum.mul_ofInt (m n : Int) : (ofInt m).mul (ofInt n) = double.datum (Binary.ofInt (m * n)) := by
  have hscaled : m * 2 ^ 1074 * (n * 2 ^ 1074) = m * n * 2 ^ (1074 + 1074) := by
    rw [pow_add]
    exact mul_mul_mul_comm m _ n _
  exact congrArg double.datum
    ((congrArg (ofScaled · 1074) hscaled).trans (ofScaled_eq_ofInt _ 1074))

end Binary
