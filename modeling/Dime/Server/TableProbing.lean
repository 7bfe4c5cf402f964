import Mathlib.Data.Set.Function
import Dime.Server.TableRefinement

/-!
# Probe loops

Whatever a loop over the slots of a table does, it looks at the same slots in the same order.
Wherever it starts, it looks at every slot once before it comes to one again, so it ends if one
of them is of the kind that it stops at.
-/

namespace Dime

universe u v w x

variable {K : Type u} {V : Type v}

namespace Table

variable {tbl : Table K V}

/-! ## The probe sequence -/

/-- The slots that a loop looks at: `i`, and then `i = (i + k) & (tbl->cap - 1)` for each `k`
from 1 on. -/
def probe (tbl : Table K V) (i : Nat) : Nat → Nat
  | 0 => i
  | n + 1 => tbl.mask (tbl.probe i n + (n + 1))

/-- A sum that has wrapped around as a `size_t` is in the same slot. -/
theorem mask_wrapped {m : Nat} (hcap : tbl.cap = 2 ^ m) (hm : m ≤ 64) (i : Nat) :
    tbl.mask (i % 2 ^ 64) = tbl.mask i := by
  rw [mask_eq hcap, mask_eq hcap, hcap]
  exact Nat.mod_mod_of_dvd i (Nat.pow_dvd_pow 2 hm)

theorem probe_eq_slot {m : Nat} (hcap : tbl.cap = 2 ^ m) {i : Nat} (hi : i < tbl.cap) (n : Nat) :
    tbl.probe i n = Triangular.slot tbl.cap i n := by
  induction n with
  | zero => exact (Triangular.slot_zero hi).symm
  | succ n ih => rw [probe, ih, mask_eq hcap, Triangular.slot_succ]

/-- From any slot on, the first probes are of all slots, each of them once. -/
theorem probe_bijOn {m : Nat} (hcap : tbl.cap = 2 ^ m) {i : Nat} (hi : i < tbl.cap) :
    Set.BijOn (tbl.probe i) (Set.Iio tbl.cap) (Set.Iio tbl.cap) := by
  refine ⟨fun n _ => ?_, fun a ha b hb heq => ?_, fun s hs => ?_⟩
  · rw [probe_eq_slot hcap hi]
    exact Triangular.slot_lt (cap_pos hcap) i n
  · rw [probe_eq_slot hcap hi, probe_eq_slot hcap hi, hcap] at heq
    rw [Set.mem_Iio, hcap] at ha hb
    exact Triangular.slot_injOn ha hb heq
  · rw [Set.mem_Iio, hcap] at hs
    obtain ⟨n, hn, heq⟩ := Triangular.exists_slot_eq i hs
    refine ⟨n, hcap ▸ hn, ?_⟩
    rw [probe_eq_slot hcap hi, hcap, heq]

/-! ## Loops -/

section

variable {σ : Type w} {β : Type x}

/-- A loop that looks at slot `i` in step `k`. It ends with a result, or goes on in another
state. -/
def probeLoop (tbl : Table K V) (body : σ → Nat → Nat → σ ⊕ β) : Nat → σ → Nat → Nat → Option β
  | 0, _, _, _ => none
  | fuel + 1, state, i, k =>
      match body state i k with
      | .inr result => some result
      | .inl state => tbl.probeLoop body fuel state (tbl.mask (i + k)) (k + 1)

theorem probeLoop_succ (body : σ → Nat → Nat → σ ⊕ β) (fuel : Nat) (state : σ) (i k : Nat) :
    tbl.probeLoop body (fuel + 1) state i k =
      match body state i k with
      | .inr result => some result
      | .inl state => tbl.probeLoop body fuel state (tbl.mask (i + k)) (k + 1) := rfl

/-- It is at the slots of the probe sequence, and ends if one ahead is of the right kind. -/
theorem probeLoop_ahead {body : σ → Nat → Nat → σ ⊕ β} {i s : Nat}
    (hstop : ∀ state k, ∃ result, body state s k = .inr result) (d fuel q : Nat) (state : σ)
    (hfuel : d < fuel) (hahead : tbl.probe i (q + d) = s) :
    ∃ result, tbl.probeLoop body fuel state (tbl.probe i q) (q + 1) = some result := by
  induction fuel generalizing d q state with
  | zero => omega
  | succ fuel ih =>
      rw [probeLoop_succ]
      cases hbody : body state (tbl.probe i q) (q + 1) with
      | inr result => exact ⟨result, rfl⟩
      | inl state' =>
          cases d with
          | zero =>
              obtain ⟨result, hresult⟩ := hstop state (q + 1)
              rw [← hahead, Nat.add_zero, hbody] at hresult
              cases hresult
          | succ d => exact ih d (q + 1) state' (by omega) (by rwa [Nat.add_assoc, Nat.add_comm 1])

/-- A loop ends within as many steps as there are slots if it stops at one of them in whatever
state it comes there. -/
theorem probeLoop_ends {m : Nat} (hcap : tbl.cap = 2 ^ m) {i : Nat} (hi : i < tbl.cap)
    {body : σ → Nat → Nat → σ ⊕ β} (state : σ)
    (hstop : ∃ s < tbl.cap, ∀ state k, ∃ result, body state s k = .inr result) :
    ∃ result, tbl.probeLoop body tbl.cap state i 1 = some result := by
  obtain ⟨s, hs, hstop⟩ := hstop
  obtain ⟨n, hn, heq⟩ := (probe_bijOn hcap hi).surjOn hs
  exact probeLoop_ahead hstop n tbl.cap 0 state hn (by rwa [Nat.zero_add])

end

/-! ## The loops of a table -/

/-- What the loop of `dime_table_insert` stops at. -/
def InsertStop (tbl : Table K V) (key : K) (s : Nat) : Prop :=
  ∀ entry, tbl.arr s = .occupied entry → tbl.cmpF key entry.key = 0

/-- What the loops of `dime_table_search`, `dime_table_search_r` and `dime_table_remove` stop
at. -/
def SearchStop (tbl : Table K V) (key : K) (s : Nat) : Prop :=
  tbl.arr s = .free ∨ ∃ entry, tbl.arr s = .occupied entry ∧ tbl.cmpF key entry.key = 0

theorem insertProbe_eq_probeLoop (tbl : Table K V) (key : K) (fuel i k : Nat) :
    tbl.insertProbe key fuel i k = tbl.probeLoop (fun (_ : Unit) i k =>
      match tbl.arr i with
      | .occupied entry => if tbl.cmpF key entry.key = 0 then .inr none else .inl ()
      | _ => .inr (some (i, k))) fuel () i k := by
  induction fuel generalizing i k with
  | zero => rfl
  | succ fuel ih =>
      rw [insertProbe, probeLoop_succ]
      cases tbl.arr i with
      | occupied entry =>
          dsimp only
          split
          · rfl
          · exact ih _ _
      | _ => rfl

theorem findProbe_eq_probeLoop (tbl : Table K V) (key : K) (fuel i k : Nat) :
    tbl.findProbe key fuel i k = tbl.probeLoop (fun (_ : Unit) i _ =>
      match tbl.arr i with
      | .free => .inr none
      | .occupied entry => if tbl.cmpF key entry.key = 0 then .inr (some (i, entry)) else .inl ()
      | .removed => .inl ()) fuel () i k := by
  induction fuel generalizing i k with
  | zero => rfl
  | succ fuel ih =>
      rw [findProbe, probeLoop_succ]
      cases tbl.arr i with
      | free => rfl
      | occupied entry =>
          dsimp only
          split
          · rfl
          · exact ih _ _
      | removed => exact ih _ _

theorem searchProbe_eq_probeLoop (tbl : Table K V) (key : K) (first fuel i k : Nat)
    (firstavail : Option Nat) :
    tbl.searchProbe key first fuel i k firstavail = tbl.probeLoop (fun firstavail i _ =>
      match tbl.arr i with
      | .free => .inr (none, tbl)
      | .occupied entry =>
          if tbl.cmpF key entry.key = 0 then
            .inr (some entry.val, match firstavail with
              | some avail =>
                  let moved := (tbl.setElem avail (.occupied entry)).setElem i .removed
                  if first = avail then { moved with ncollisions := predSize moved.ncollisions }
                  else moved
              | none => tbl)
          else .inl firstavail
      | .removed => .inl (firstavail.or (some i))) fuel firstavail i k := by
  induction fuel generalizing i k firstavail with
  | zero => rfl
  | succ fuel ih =>
      rw [searchProbe, probeLoop_succ]
      cases tbl.arr i with
      | free => rfl
      | occupied entry =>
          dsimp only
          split
          · cases firstavail <;> rfl
          · exact ih _ _ _
      | removed => exact ih _ _ _

/-- The loop of `dime_table_relocate` for the element `tmp`, if a slot holds no element. -/
theorem relocateProbe_of_vacant {m : Nat} (hcap : tbl.cap = 2 ^ m) (tmp : Entry K V)
    (hvacant : ∃ s < tbl.cap, ¬ tbl.Occ s) :
    ∃ tbl', relocateProbe (tbl.cap + relocateFuel tbl.cap) tbl tmp (tbl.mask tmp.hash) 1 = some tbl' := by
  obtain ⟨s, hs, hvacant⟩ := hvacant
  obtain ⟨d, hd, rfl⟩ := exists_slot_eq hcap tmp hs
  have hbound : 1 + tbl.entries.card * (tbl.cap + 2) ≤ relocateFuel tbl.cap := by
    have hle := Nat.mul_le_mul_right (tbl.cap + 2) tbl.card_entries_le
    have hsquare : relocateFuel tbl.cap = tbl.cap * (tbl.cap + 2) + 2 * (tbl.cap + 2) := by
      rw [relocateFuel, Nat.add_mul]
    omega
  rw [← slot_zero hcap]
  refine relocateProbe_ends (fun fuel mid i hmid hi hcard hfuel => ?_) d _ 0 tbl tmp hcap le_rfl
    (by rwa [Nat.zero_add]) (Nat.add_le_add_right hd _)
  apply relocate_terminates _ _ _ _ hmid hi hcard
  rw [hmid, ← hcap]
  exact hbound.trans hfuel

variable (tbl) in
/-- The loops of a table end within as many steps as there are slots, each if one of the slots is
of the kind that it stops at. The relocations within a relocation take steps of their own. -/
structure LoopsEnd : Prop where
  insert : ∀ key, (∃ s < tbl.cap, tbl.InsertStop key s) →
    ∃ result, tbl.insertProbe key tbl.cap (tbl.mask (tbl.hashF key)) 1 = some result
  search : ∀ key, (∃ s < tbl.cap, tbl.SearchStop key s) → ∃ result, tbl.search key = some result
  searchR : ∀ key, (∃ s < tbl.cap, tbl.SearchStop key s) → ∃ result, tbl.searchR key = some result
  remove : ∀ key, (∃ s < tbl.cap, tbl.SearchStop key s) → ∃ result, tbl.remove key = some result
  relocate : ∀ tmp : Entry K V, (∃ s < tbl.cap, ¬ tbl.Occ s) → ∃ tbl',
    relocateProbe (tbl.cap + relocateFuel tbl.cap) tbl tmp (tbl.mask tmp.hash) 1 = some tbl'

theorem loopsEnd {m : Nat} (hcap : tbl.cap = 2 ^ m) : tbl.LoopsEnd := by
  have hfind : ∀ key, (∃ s < tbl.cap, tbl.SearchStop key s) →
      ∃ result, tbl.findProbe key tbl.cap (tbl.mask (tbl.hashF key)) 1 = some result := by
    intro key hstop
    obtain ⟨s, hs, hstop⟩ := hstop
    rw [findProbe_eq_probeLoop]
    refine probeLoop_ends hcap (mask_lt hcap _) () ⟨s, hs, fun _ _ => ?_⟩
    obtain hfree | ⟨entry, hentry, hequal⟩ := hstop
    · exact ⟨none, by rw [hfree]⟩
    · exact ⟨some (s, entry), by rw [hentry]; exact if_pos hequal⟩
  constructor
  case insert =>
    intro key hstop
    obtain ⟨s, hs, hstop⟩ := hstop
    rw [insertProbe_eq_probeLoop]
    refine probeLoop_ends hcap (mask_lt hcap _) () ⟨s, hs, fun _ k => ?_⟩
    cases helem : tbl.arr s with
    | occupied entry => exact ⟨none, if_pos (hstop entry helem)⟩
    | _ => exact ⟨some (s, k), rfl⟩
  case search =>
    intro key hstop
    obtain ⟨s, hs, hstop⟩ := hstop
    rw [search, searchProbe_eq_probeLoop]
    refine probeLoop_ends hcap (mask_lt hcap _) none ⟨s, hs, fun firstavail _ => ?_⟩
    obtain hfree | ⟨entry, hentry, hequal⟩ := hstop
    · exact ⟨(none, tbl), by rw [hfree]⟩
    · rw [hentry]
      exact ⟨_, if_pos hequal⟩
  case searchR =>
    intro key hstop
    obtain ⟨result, hresult⟩ := hfind key hstop
    exact ⟨_, by rw [searchR, hresult]; rfl⟩
  case remove =>
    intro key hstop
    obtain ⟨result, hresult⟩ := hfind key hstop
    exact ⟨_, by rw [remove, hresult]; rfl⟩
  case relocate => exact fun tmp hvacant => relocateProbe_of_vacant hcap tmp hvacant

end Table

/-- From any slot on, the first probes of a table with a power of two slots are of all its slots,
each of them once. So every loop that goes through them in this order, whatever its state, ends
within as many steps as there are slots if it stops at one of them. -/
theorem probes_visit_every_slot {m : Nat} {tbl : Table K V} (hcap : tbl.cap = 2 ^ m) {i : Nat}
    (hi : i < tbl.cap) :
    Set.BijOn (tbl.probe i) (Set.Iio tbl.cap) (Set.Iio tbl.cap) ∧
      (∀ (σ : Type w) (β : Type x) (body : σ → Nat → Nat → σ ⊕ β) (state : σ),
        (∃ s < tbl.cap, ∀ state k, ∃ result, body state s k = .inr result) →
          ∃ result, tbl.probeLoop body tbl.cap state i 1 = some result) ∧ tbl.LoopsEnd :=
  ⟨Table.probe_bijOn hcap hi, fun _ _ _ state hstop => Table.probeLoop_ends hcap hi state hstop,
    Table.loopsEnd hcap⟩

theorem probes_visit_every_slot_scattered :
    Set.BijOn (Table.scattered.probe 3) (Set.Iio 4) (Set.Iio 4) ∧ Table.scattered.LoopsEnd := by
  obtain ⟨hprobe, _, hends⟩ := probes_visit_every_slot.{0, 0, 0, 0}
    (show Table.scattered.cap = 2 ^ 2 from rfl) (show 3 < Table.scattered.cap by decide)
  exact ⟨hprobe, hends⟩

end Dime
