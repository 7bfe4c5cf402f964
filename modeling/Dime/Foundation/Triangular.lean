import Mathlib.Data.Fintype.EquivFin
import Mathlib.Data.Nat.ModEq
import Mathlib.Data.Nat.Prime.Basic
import Mathlib.Tactic.Ring
import Mathlib.Tactic.Linarith

/-!
# Triangular probing

The probe sequence of a hash table whose step grows by one each time: from the
home slot it visits the offsets `0, 1, 3, 6, …`. When the number of slots is a
power of two, the first probes, one per slot, visit every slot exactly once.
-/

namespace Triangular

/-- The triangular numbers. -/
def tri : Nat → Nat
  | 0 => 0
  | n + 1 => tri n + (n + 1)

/-- The slot of the `n`-th probe. -/
def slot (cap start n : Nat) : Nat := (start + tri n) % cap

theorem two_mul_tri (n : Nat) : 2 * tri n = n * (n + 1) := by
  induction n with
  | zero => rfl
  | succ n ih =>
      rw [tri, Nat.mul_add, ih]
      ring

@[simp] theorem slot_zero {cap start : Nat} (h : start < cap) : slot cap start 0 = start := by
  simp [slot, tri, Nat.mod_eq_of_lt h]

/-- Each probe is reached from the previous one by the next larger step. -/
theorem slot_succ (cap start n : Nat) :
    slot cap start (n + 1) = (slot cap start n + (n + 1)) % cap := by
  simp [slot, tri, Nat.add_assoc]

theorem slot_lt {cap : Nat} (hcap : 0 < cap) (start n : Nat) : slot cap start n < cap :=
  Nat.mod_lt _ hcap

/-- Twice the gap between two triangular numbers factors. -/
theorem tri_add (a d : Nat) : 2 * tri (a + d) = 2 * tri a + d * (2 * a + d + 1) := by
  rw [two_mul_tri, two_mul_tri]
  ring

/-- A power of two that divides a product of numbers of different parity
divides one of them. -/
theorem two_pow_dvd_of_dvd_mul {m x y : Nat} (h : 2 ^ m ∣ x * y) (hodd : (x + y) % 2 = 1) :
    2 ^ m ∣ x ∨ 2 ^ m ∣ y := by
  rcases Nat.even_or_odd x with heven | hx
  · left
    have hy : Odd y := by
      rw [Nat.odd_iff]
      have := Nat.even_iff.mp heven
      omega
    exact (Nat.Coprime.pow_left m (Nat.coprime_two_left.mpr hy)).dvd_of_dvd_mul_right h
  · right
    exact (Nat.Coprime.pow_left m (Nat.coprime_two_left.mpr hx)).dvd_of_dvd_mul_left h

theorem slot_add_ne {m start a d : Nat} (hd : 0 < d) (hlt : a + d < 2 ^ m) :
    slot (2 ^ m) start (a + d) ≠ slot (2 ^ m) start a := by
  intro heq
  have hmod : tri (a + d) ≡ tri a [MOD 2 ^ m] :=
    Nat.ModEq.add_left_cancel' start heq
  have hgap : 2 * tri (a + d) = 2 * tri a + d * (2 * a + d + 1) := tri_add a d
  have hle : tri a ≤ tri (a + d) := by omega
  have hdvd : 2 ^ (m + 1) ∣ d * (2 * a + d + 1) := by
    obtain ⟨c, hc⟩ := (Nat.modEq_iff_dvd' hle).mp hmod.symm
    refine ⟨c, ?_⟩
    have htwice : d * (2 * a + d + 1) = 2 * (tri (a + d) - tri a) := by omega
    rw [htwice, hc, Nat.pow_succ]
    ring
  have hpow : 2 ^ (m + 1) = 2 * 2 ^ m := by rw [Nat.pow_succ, Nat.mul_comm]
  rcases two_pow_dvd_of_dvd_mul hdvd (by omega) with h | h
  · have := Nat.le_of_dvd hd h
    omega
  · have := Nat.le_of_dvd (by omega) h
    omega

/-- The first `2 ^ m` probes meet pairwise different slots. -/
theorem slot_injOn {m start a b : Nat} (ha : a < 2 ^ m) (hb : b < 2 ^ m)
    (heq : slot (2 ^ m) start a = slot (2 ^ m) start b) : a = b := by
  rcases lt_trichotomy a b with hlt | rfl | hlt
  · obtain ⟨d, rfl⟩ := Nat.exists_eq_add_of_le hlt.le
    exact absurd heq.symm (slot_add_ne (by omega) hb)
  · rfl
  · obtain ⟨d, rfl⟩ := Nat.exists_eq_add_of_le hlt.le
    exact absurd heq (slot_add_ne (by omega) ha)

/-- The first `2 ^ m` probes meet every slot. -/
theorem exists_slot_eq {m : Nat} (start : Nat) {s : Nat} (hs : s < 2 ^ m) :
    ∃ n < 2 ^ m, slot (2 ^ m) start n = s := by
  let probe : Fin (2 ^ m) → Fin (2 ^ m) :=
    fun n => ⟨slot (2 ^ m) start n, slot_lt (by positivity) start n⟩
  have hinj : Function.Injective probe := by
    intro a b hab
    exact Fin.ext (slot_injOn a.2 b.2 (congrArg Fin.val hab))
  obtain ⟨n, hn⟩ := (Finite.injective_iff_surjective.mp hinj) ⟨s, hs⟩
  exact ⟨n, n.2, congrArg Fin.val hn⟩

/-- A probe loop that stops at slots of some kind stops within one round over
the table as soon as one such slot exists. -/
theorem exists_first {m : Nat} (start : Nat) {P : Nat → Prop} {s : Nat}
    (hs : s < 2 ^ m) (hP : P s) :
    ∃ n < 2 ^ m, P (slot (2 ^ m) start n) ∧ ∀ j < n, ¬ P (slot (2 ^ m) start j) := by
  classical
  obtain ⟨n, hn, rfl⟩ := exists_slot_eq start hs
  have hex : ∃ n, P (slot (2 ^ m) start n) := ⟨n, hP⟩
  exact ⟨Nat.find hex, lt_of_le_of_lt (Nat.find_min' hex hP) hn, Nat.find_spec hex,
    fun _ hj => Nat.find_min hex hj⟩

end Triangular
