import Mathlib.Data.List.Basic

/-!
# Base64

Three bytes as four characters of six bits each, in ASCII.
-/

namespace Base64

/-- The character of six bits. -/
def digit (n : Nat) : UInt8 :=
  if n < 26 then UInt8.ofNat (65 + n)
  else if n < 52 then UInt8.ofNat (97 + (n - 26))
  else if n < 62 then UInt8.ofNat (48 + (n - 52))
  else if n = 62 then 43
  else 47

/-- The six bits of a character. -/
def value? (c : UInt8) : Option Nat :=
  let n := c.toNat
  if 65 ≤ n ∧ n ≤ 90 then some (n - 65)
  else if 97 ≤ n ∧ n ≤ 122 then some (n - 97 + 26)
  else if 48 ≤ n ∧ n ≤ 57 then some (n - 48 + 52)
  else if n = 43 then some 62
  else if n = 47 then some 63
  else none

/-- The character that fills up the last four. -/
def pad : UInt8 := 61

def encode : List UInt8 → List UInt8
  | [] => []
  | [a] => [digit (a.toNat / 4), digit (a.toNat % 4 * 16), pad, pad]
  | [a, b] =>
    [digit (a.toNat / 4), digit (a.toNat % 4 * 16 + b.toNat / 16), digit (b.toNat % 16 * 4), pad]
  | a :: b :: c :: rest =>
    digit (a.toNat / 4) :: digit (a.toNat % 4 * 16 + b.toNat / 16) ::
      digit (b.toNat % 16 * 4 + c.toNat / 64) :: digit (c.toNat % 64) :: encode rest

/-- The bytes of four characters, which can be the last ones. -/
def decodeFour (a b c d : UInt8) (last : Bool) : Option (List UInt8) := do
  let m ← value? a
  let n ← value? b
  let first := UInt8.ofNat (m * 4 + n / 16)
  if last ∧ c = pad ∧ d = pad then some [first]
  else do
    let o ← value? c
    let second := UInt8.ofNat (n % 16 * 16 + o / 4)
    if last ∧ d = pad then some [first, second]
    else do
      let p ← value? d
      some [first, second, UInt8.ofNat (o % 4 * 64 + p)]

def decode : List UInt8 → Option (List UInt8)
  | [] => some []
  | a :: b :: c :: d :: rest => do
    let bytes ← decodeFour a b c d (rest = [])
    let others ← decode rest
    some (bytes ++ others)
  | _ => none

theorem length_encode (bytes : List UInt8) : (encode bytes).length = (bytes.length + 2) / 3 * 4 := by
  fun_induction encode bytes with
  | case1 => rfl
  | case2 => simp
  | case3 => simp
  | case4 a b c rest ih =>
      simp only [List.length_cons, ih]
      omega

theorem value?_digit {n : Nat} (h : n < 64) : value? (digit n) = some n := by
  have hall : ∀ n : Fin 64, value? (digit n) = some n.val := by decide
  exact hall ⟨n, h⟩

theorem digit_ne_pad {n : Nat} (h : n < 64) : digit n ≠ pad := by
  have hall : ∀ n : Fin 64, digit n ≠ pad := by decide
  exact hall ⟨n, h⟩

theorem digit_lt {n : Nat} (h : n < 64) : (digit n).toNat < 128 := by
  have hall : ∀ n : Fin 64, (digit n).toNat < 128 := by decide
  exact hall ⟨n, h⟩

/-- An encoding is ASCII. -/
theorem lt_of_mem_encode {bytes : List UInt8} {c : UInt8} (h : c ∈ encode bytes) : c.toNat < 128 := by
  have hlt : ∀ a : UInt8, a.toNat < 256 := fun a => a.toNat_lt
  have hpad : pad.toNat < 128 := by decide
  fun_induction encode bytes with
  | case1 => cases h
  | case2 a =>
      have ha := hlt a
      simp only [List.mem_cons, List.not_mem_nil, or_false] at h
      obtain rfl | rfl | rfl | rfl := h
      · exact digit_lt (by omega)
      · exact digit_lt (by omega)
      · exact hpad
      · exact hpad
  | case3 a b =>
      have ha := hlt a
      have hb := hlt b
      simp only [List.mem_cons, List.not_mem_nil, or_false] at h
      obtain rfl | rfl | rfl | rfl := h
      · exact digit_lt (by omega)
      · exact digit_lt (by omega)
      · exact digit_lt (by omega)
      · exact hpad
  | case4 a b d rest ih =>
      have ha := hlt a
      have hb := hlt b
      have hd := hlt d
      simp only [List.mem_cons] at h
      obtain rfl | rfl | rfl | rfl | h := h
      · exact digit_lt (by omega)
      · exact digit_lt (by omega)
      · exact digit_lt (by omega)
      · exact digit_lt (by omega)
      · exact ih h

theorem ofNat_eq {n : Nat} {a : UInt8} (h : n = a.toNat) : UInt8.ofNat n = a := by
  rw [h, UInt8.ofNat_toNat]

/-- What has been encoded is decoded to the same bytes. -/
theorem decode_encode (bytes : List UInt8) : decode (encode bytes) = some bytes := by
  have hlt : ∀ a : UInt8, a.toNat < 256 := fun a => a.toNat_lt
  fun_induction encode bytes with
  | case1 => rfl
  | case2 a =>
      have ha := hlt a
      have hfirst : UInt8.ofNat (a.toNat / 4 * 4 + a.toNat % 4) = a := ofNat_eq (by omega)
      simp [decode, decodeFour, -UInt8.ofNat_add, -UInt8.ofNat_mul, hfirst,
        value?_digit (show a.toNat / 4 < 64 by omega),
        value?_digit (show a.toNat % 4 * 16 < 64 by omega)]
  | case3 a b =>
      have ha := hlt a
      have hb := hlt b
      have hfirst : UInt8.ofNat (a.toNat / 4 * 4 + (a.toNat % 4 * 16 + b.toNat / 16) / 16) = a :=
        ofNat_eq (by omega)
      have hsecond : UInt8.ofNat (b.toNat / 16 % 16 * 16 + b.toNat % 16) = b := ofNat_eq (by omega)
      simp [decode, decodeFour, -UInt8.ofNat_add, -UInt8.ofNat_mul, hfirst, hsecond,
        value?_digit (show a.toNat / 4 < 64 by omega),
        value?_digit (show a.toNat % 4 * 16 + b.toNat / 16 < 64 by omega),
        value?_digit (show b.toNat % 16 * 4 < 64 by omega),
        digit_ne_pad (show b.toNat % 16 * 4 < 64 by omega)]
  | case4 a b c rest ih =>
      have ha := hlt a
      have hb := hlt b
      have hc := hlt c
      have hfirst : UInt8.ofNat (a.toNat / 4 * 4 + (a.toNat % 4 * 16 + b.toNat / 16) / 16) = a :=
        ofNat_eq (by omega)
      have hsecond : UInt8.ofNat (b.toNat / 16 % 16 * 16 +
          (b.toNat % 16 * 4 + c.toNat / 64) / 4) = b := ofNat_eq (by omega)
      have hthird : UInt8.ofNat (c.toNat / 64 % 4 * 64 + c.toNat % 64) = c := ofNat_eq (by omega)
      simp [decode, decodeFour, -UInt8.ofNat_add, -UInt8.ofNat_mul, hfirst, hsecond, hthird, ih,
        value?_digit (show a.toNat / 4 < 64 by omega),
        value?_digit (show a.toNat % 4 * 16 + b.toNat / 16 < 64 by omega),
        value?_digit (show b.toNat % 16 * 4 + c.toNat / 64 < 64 by omega),
        value?_digit (show c.toNat % 64 < 64 by omega),
        digit_ne_pad (show b.toNat % 16 * 4 + c.toNat / 64 < 64 by omega),
        digit_ne_pad (show c.toNat % 64 < 64 by omega)]

end Base64
