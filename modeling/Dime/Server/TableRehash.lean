import Mathlib.Algebra.Order.Group.Multiset
import Mathlib.Data.Multiset.Count
import Mathlib.Algebra.BigOperators.Group.Finset.Piecewise
import Mathlib.Tactic.Abel
import Mathlib.Tactic.Ring
import Mathlib.Tactic.Linarith
import Mathlib.Tactic.NormNum
import Dime.Foundation.Triangular
import Dime.Server.Table

/-!
# Relocating elements

`dime_table_relocate` picks an element up and follows its probe sequence, and on
the way it relocates every slot it meets. The recursion ends because each level
holds one more element out of the table. A set of slots is settled when every
element in it is preceded, along its probe sequence, by slots of the set only;
relocations keep such a set and extend it by the slots they fill, so a pass over
all slots leaves every element where a search finds it.
-/

namespace Dime

universe u v w

variable {K : Type u} {V : Type v}

/-- The `n`-th slot that is probed for an element in a table of `cap` slots. -/
def Entry.slot (entry : Entry K V) (cap n : Nat) : Nat :=
  Triangular.slot cap (entry.hash % cap) n

def Elem.entries : Elem K V → Multiset (Entry K V)
  | .occupied entry => {entry}
  | _ => 0

namespace Table

variable {tbl tbl' tbl'' : Table K V}

def Occ (tbl : Table K V) (i : Nat) : Prop := ∃ entry, tbl.arr i = .occupied entry

/-- The elements stored in the table. -/
def entries (tbl : Table K V) : Multiset (Entry K V) :=
  ∑ i ∈ Finset.range tbl.cap, (tbl.arr i).entries

/-! ## Slots -/

theorem mask_eq {m : Nat} (hcap : tbl.cap = 2 ^ m) (i : Nat) : tbl.mask i = i % tbl.cap := by
  rw [mask, hcap, Nat.and_two_pow_sub_one_eq_mod]

theorem mask_slot {m : Nat} (hcap : tbl.cap = 2 ^ m) (entry : Entry K V) (q : Nat) :
    tbl.mask (entry.slot tbl.cap q + (q + 1)) = entry.slot tbl.cap (q + 1) := by
  rw [mask_eq hcap, Entry.slot, Entry.slot, Triangular.slot_succ]

theorem cap_pos {m : Nat} (hcap : tbl.cap = 2 ^ m) : 0 < tbl.cap := by
  rw [hcap]
  positivity

theorem slot_lt {m : Nat} (hcap : tbl.cap = 2 ^ m) (entry : Entry K V) (q : Nat) :
    entry.slot tbl.cap q < tbl.cap :=
  Triangular.slot_lt (cap_pos hcap) _ _

theorem slot_zero {m : Nat} (hcap : tbl.cap = 2 ^ m) (entry : Entry K V) :
    entry.slot tbl.cap 0 = tbl.mask entry.hash := by
  rw [mask_eq hcap]
  exact Triangular.slot_zero (Nat.mod_lt _ (cap_pos hcap))

theorem exists_slot_eq {m : Nat} (hcap : tbl.cap = 2 ^ m) (entry : Entry K V) {s : Nat}
    (hs : s < tbl.cap) : ∃ n < tbl.cap, entry.slot tbl.cap n = s := by
  rw [hcap] at hs
  obtain ⟨n, hn, heq⟩ := Triangular.exists_slot_eq (entry.hash % tbl.cap) hs
  refine ⟨n, hcap ▸ hn, ?_⟩
  rw [Entry.slot, ← heq, ← hcap]

@[simp] theorem setElem_arr (tbl : Table K V) (i : Nat) (elem : Elem K V) :
    (tbl.setElem i elem).arr = Function.update tbl.arr i elem := rfl

@[simp] theorem setElem_cap (tbl : Table K V) (i : Nat) (elem : Elem K V) :
    (tbl.setElem i elem).cap = tbl.cap := rfl

theorem occ_setElem_occupied (tbl : Table K V) (i : Nat) (entry : Entry K V) (s : Nat) :
    (tbl.setElem i (.occupied entry)).Occ s ↔ tbl.Occ s ∨ s = i := by
  rcases eq_or_ne s i with rfl | hne
  · simp [Occ]
  · simp [Occ, hne]

theorem occ_setElem_free (tbl : Table K V) (i s : Nat) :
    (tbl.setElem i .free).Occ s ↔ tbl.Occ s ∧ s ≠ i := by
  rcases eq_or_ne s i with rfl | hne
  · simp [Occ]
  · simp [Occ, hne]

theorem not_occ_iff (tbl : Table K V) (i : Nat) :
    ¬ tbl.Occ i ↔ tbl.arr i = .free ∨ tbl.arr i = .removed := by
  cases h : tbl.arr i <;> simp [Occ, h]

/-! ## Sums over the slots -/

/-- Writing a slot changes a sum over the slots by that slot's summand. -/
theorem sum_setElem {M : Type w} [AddCommMonoid M] (f : Nat → Elem K V → M) (tbl : Table K V)
    {i : Nat} (hi : i < tbl.cap) (elem : Elem K V) :
    ∑ j ∈ Finset.range tbl.cap, f j ((tbl.setElem i elem).arr j) + f i (tbl.arr i) =
      ∑ j ∈ Finset.range tbl.cap, f j (tbl.arr j) + f i elem := by
  have hmem : i ∈ Finset.range tbl.cap := Finset.mem_range.mpr hi
  have hupdate : ∀ j, f j ((tbl.setElem i elem).arr j) =
      Function.update (fun j => f j (tbl.arr j)) i (f i elem) j := by
    intro j
    rcases eq_or_ne j i with rfl | hne
    · simp
    · simp [hne]
  simp only [hupdate]
  rw [Finset.sum_update_of_mem hmem, Finset.sum_eq_add_sum_sdiff_singleton_of_mem hmem]
  abel

theorem entries_setElem {i : Nat} (hi : i < tbl.cap) (elem : Elem K V) :
    (tbl.setElem i elem).entries + (tbl.arr i).entries = tbl.entries + elem.entries :=
  sum_setElem (fun _ => Elem.entries) tbl hi elem

theorem entries_setElem_occupied {i : Nat} (hi : i < tbl.cap) (hfree : ¬ tbl.Occ i)
    (entry : Entry K V) :
    (tbl.setElem i (.occupied entry)).entries = entry ::ₘ tbl.entries := by
  have hsum := entries_setElem hi (.occupied entry)
  rcases (not_occ_iff tbl i).mp hfree with h | h <;>
  · rw [h] at hsum
    simpa [Elem.entries, Multiset.singleton_add, add_comm] using hsum

theorem entries_setElem_free {i : Nat} (hi : i < tbl.cap) {entry : Entry K V}
    (hocc : tbl.arr i = .occupied entry) {elem : Elem K V} (helem : elem.entries = 0) :
    entry ::ₘ (tbl.setElem i elem).entries = tbl.entries := by
  have hsum := entries_setElem hi elem
  rw [hocc, helem] at hsum
  simpa [Elem.entries, Multiset.singleton_add, add_comm] using hsum

theorem entries_setElem_of_not_occ {i : Nat} (hi : i < tbl.cap) (hfree : ¬ tbl.Occ i)
    {elem : Elem K V} (helem : elem.entries = 0) :
    (tbl.setElem i elem).entries = tbl.entries := by
  have hsum := entries_setElem hi elem
  rw [helem] at hsum
  rcases (not_occ_iff tbl i).mp hfree with h | h <;>
  · rw [h] at hsum
    simpa [Elem.entries] using hsum

theorem mem_entries {entry : Entry K V} :
    entry ∈ tbl.entries ↔ ∃ i < tbl.cap, tbl.arr i = .occupied entry := by
  rw [entries, Multiset.mem_sum]
  refine exists_congr fun i => ?_
  rw [Finset.mem_range]
  cases h : tbl.arr i <;> simp [Elem.entries, eq_comm]

/-! ## What a relocation changes -/

/-- Equal but for the array and the number of collisions. -/
structure SameHeader (tbl tbl' : Table K V) : Prop where
  len : tbl'.len = tbl.len
  cmpF : tbl'.cmpF = tbl.cmpF
  hashF : tbl'.hashF = tbl.hashF
  cap : tbl'.cap = tbl.cap
  nfree : tbl'.nfree = tbl.nfree

theorem SameHeader.refl (tbl : Table K V) : SameHeader tbl tbl := ⟨rfl, rfl, rfl, rfl, rfl⟩

theorem SameHeader.trans (h : SameHeader tbl tbl') (h' : SameHeader tbl' tbl'') :
    SameHeader tbl tbl'' :=
  ⟨h'.len.trans h.len, h'.cmpF.trans h.cmpF, h'.hashF.trans h.hashF, h'.cap.trans h.cap,
    h'.nfree.trans h.nfree⟩

theorem SameHeader.setElem (tbl : Table K V) (i : Nat) (elem : Elem K V) :
    SameHeader tbl (tbl.setElem i elem) := ⟨rfl, rfl, rfl, rfl, rfl⟩

/-- The effect of relocating slot `i0`: the elements stay, and if the slot was
occupied it is exchanged for some slot that was not. -/
structure Relocated (tbl : Table K V) (i0 : Nat) (tbl' : Table K V) : Prop where
  header : SameHeader tbl tbl'
  entries : tbl'.entries = tbl.entries
  not_removed : tbl'.arr i0 ≠ .removed
  removed : ∀ s, tbl'.arr s = .removed → tbl.arr s = .removed
  occ : ∃ t < tbl.cap, (t = i0 ∨ ¬ tbl.Occ t) ∧
    ∀ s, tbl'.Occ s ↔ (tbl.Occ s ∧ s ≠ i0) ∨ (tbl.Occ i0 ∧ s = t)

/-- The effect of placing an element that was held out of the table. -/
structure Placed (tbl : Table K V) (tmp : Entry K V) (tbl' : Table K V) : Prop where
  header : SameHeader tbl tbl'
  entries : tbl'.entries = tmp ::ₘ tbl.entries
  removed : ∀ s, tbl'.arr s = .removed → tbl.arr s = .removed
  occ : ∃ t < tbl.cap, ¬ tbl.Occ t ∧ ∀ s, tbl'.Occ s ↔ tbl.Occ s ∨ s = t

/-- A slot that is still occupied after its relocation leaves the occupied
slots as they were. -/
theorem Relocated.occ_iff_of_occ {i0 : Nat} (h : Relocated tbl i0 tbl')
    (hocc : tbl'.Occ i0) (s : Nat) : tbl'.Occ s ↔ tbl.Occ s := by
  obtain ⟨t, _, _, hiff⟩ := h.occ
  rcases (hiff i0).mp hocc with ⟨_, hne⟩ | ⟨hocc0, rfl⟩
  · exact absurd rfl hne
  · rw [hiff]
    rcases eq_or_ne s i0 with rfl | hne
    · simp [hocc0]
    · simp [hne]

/-- A slot that is not occupied after its relocation gave its place to another. -/
theorem Relocated.occ_iff_of_not_occ {i0 : Nat} (h : Relocated tbl i0 tbl')
    (hi0 : i0 < tbl.cap) (hocc : ¬ tbl'.Occ i0) :
    ∃ t < tbl.cap, ¬ tbl.Occ t ∧ ∀ s, (tbl'.Occ s ∨ s = i0) ↔ (tbl.Occ s ∨ s = t) := by
  obtain ⟨t, ht, hfree, hiff⟩ := h.occ
  by_cases hocc0 : tbl.Occ i0
  · have hne : t ≠ i0 := by
      rintro rfl
      exact hocc ((hiff t).mpr (.inr ⟨hocc0, rfl⟩))
    refine ⟨t, ht, hfree.resolve_left hne, fun s => ?_⟩
    rw [hiff]
    rcases eq_or_ne s i0 with rfl | hs
    · simp [hocc0]
    · simp [hs, hocc0]
  · refine ⟨i0, hi0, hocc0, fun s => ?_⟩
    rw [hiff]
    rcases eq_or_ne s i0 with rfl | hs
    · simp
    · simp [hs, hocc0]

theorem placed_setElem {i0 : Nat} {tmp : Entry K V} (h : Relocated tbl i0 tbl')
    (hi0 : i0 < tbl.cap) (hocc : ¬ tbl'.Occ i0) :
    Placed tbl tmp (tbl'.setElem i0 (.occupied tmp)) := by
  refine ⟨h.header.trans (.setElem _ _ _), ?_, ?_, ?_⟩
  · rw [entries_setElem_occupied (h.header.cap ▸ hi0) hocc, h.entries]
  · intro s hs
    rcases eq_or_ne s i0 with rfl | hne
    · simp at hs
    · exact h.removed s (by simpa [hne] using hs)
  · obtain ⟨t, ht, hfree, hiff⟩ := h.occ_iff_of_not_occ hi0 hocc
    exact ⟨t, ht, hfree, fun s => (occ_setElem_occupied ..).trans (hiff s)⟩

theorem Placed.count_collision {tmp : Entry K V} (h : Placed tbl tmp tbl') (n : Nat) :
    Placed tbl tmp { tbl' with ncollisions := n } :=
  ⟨⟨h.header.len, h.header.cmpF, h.header.hashF, h.header.cap, h.header.nfree⟩,
    h.entries, h.removed, h.occ⟩

/-- Placing an element after a relocation that left its slot occupied. -/
theorem Placed.of_relocated {i0 : Nat} {tmp : Entry K V} (h : Relocated tbl i0 tbl')
    (hocc : tbl'.Occ i0) (hplaced : Placed tbl' tmp tbl'') : Placed tbl tmp tbl'' := by
  refine ⟨h.header.trans hplaced.header, by rw [hplaced.entries, h.entries],
    fun s hs => h.removed s (hplaced.removed s hs), ?_⟩
  obtain ⟨t, ht, hfree, hiff⟩ := hplaced.occ
  refine ⟨t, h.header.cap ▸ ht, by rwa [← h.occ_iff_of_occ hocc], fun s => ?_⟩
  rw [hiff, h.occ_iff_of_occ hocc]

theorem relocated_free {i0 : Nat} (hi0 : i0 < tbl.cap) (hocc : ¬ tbl.Occ i0) :
    Relocated tbl i0 (tbl.setElem i0 .free) := by
  refine ⟨.setElem _ _ _, entries_setElem_of_not_occ hi0 hocc rfl, by simp, ?_, i0, hi0,
    .inl rfl, ?_⟩
  · intro s hs
    rcases eq_or_ne s i0 with rfl | hne
    · simp at hs
    · simpa [hne] using hs
  · intro s
    rw [occ_setElem_free]
    simp [hocc]

theorem relocated_home {i0 : Nat} (hi0 : i0 < tbl.cap) (hocc : tbl.Occ i0) :
    Relocated tbl i0 tbl := by
  obtain ⟨entry, hentry⟩ := hocc
  refine ⟨.refl _, rfl, by simp [hentry], fun _ hs => hs, i0, hi0, .inl rfl, fun s => ?_⟩
  rcases eq_or_ne s i0 with rfl | hne
  · simp
  · simp [hne]

theorem relocated_of_placed {i0 : Nat} {tmp : Entry K V} (hi0 : i0 < tbl.cap)
    (hocc : tbl.arr i0 = .occupied tmp) (h : Placed (tbl.setElem i0 .free) tmp tbl') :
    Relocated tbl i0 tbl' := by
  refine ⟨(SameHeader.setElem tbl i0 .free).trans h.header, ?_, ?_, ?_, ?_⟩
  · rw [h.entries, entries_setElem_free hi0 hocc rfl]
  · intro hremoved
    simpa using h.removed i0 hremoved
  · intro s hs
    have hs' := h.removed s hs
    rcases eq_or_ne s i0 with rfl | hne
    · simp at hs'
    · simpa [hne] using hs'
  · obtain ⟨t, ht, hfree, hiff⟩ := h.occ
    rw [occ_setElem_free] at hfree
    refine ⟨t, ht, ?_, fun s => ?_⟩
    · by_cases heq : t = i0
      · exact .inl heq
      · exact .inr fun hocc' => hfree ⟨hocc', heq⟩
    · rw [hiff, occ_setElem_free]
      have hocc0 : tbl.Occ i0 := ⟨tmp, hocc⟩
      simp [hocc0]

/-- A relocation that ends has the effect `Relocated`, and its probe loop the
effect `Placed`. -/
theorem relocate_effect {m : Nat} (fuel : Nat) :
    (∀ (tbl tbl' : Table K V) (i0 : Nat), tbl.cap = 2 ^ m → i0 < tbl.cap →
      relocate fuel tbl i0 = some tbl' → Relocated tbl i0 tbl') ∧
    (∀ (tbl tbl' : Table K V) (tmp : Entry K V) (i k : Nat), tbl.cap = 2 ^ m → i < tbl.cap →
      relocateProbe fuel tbl tmp i k = some tbl' → Placed tbl tmp tbl') := by
  induction fuel with
  | zero => exact ⟨fun _ _ _ _ _ h => by simp [relocate] at h,
      fun _ _ _ _ _ _ _ h => by simp [relocateProbe] at h⟩
  | succ fuel ih =>
      obtain ⟨ihRelocate, ihProbe⟩ := ih
      constructor
      · intro tbl tbl' i0 hcap hi0 hrun
        rw [relocate] at hrun
        split at hrun
        next tmp hocc =>
          dsimp only at hrun
          split at hrun
          next hhome =>
            cases hrun
            exact relocated_home hi0 ⟨tmp, hocc⟩
          next hhome =>
            refine relocated_of_placed hi0 hocc (ihProbe _ _ _ _ _ hcap ?_ hrun)
            rw [setElem_cap, mask_eq hcap]
            exact Nat.mod_lt _ (cap_pos hcap)
        next hother =>
          cases hrun
          exact relocated_free hi0 fun ⟨entry, hentry⟩ => hother entry hentry
      · intro tbl tbl' tmp i k hcap hi hrun
        rw [relocateProbe] at hrun
        split at hrun
        next => cases hrun
        next mid hmid =>
          have hrel := ihRelocate _ _ _ hcap hi hmid
          have hcap' : mid.cap = 2 ^ m := hrel.header.cap.trans hcap
          split at hrun
          next entry hocc =>
            refine .of_relocated hrel ⟨entry, hocc⟩ (ihProbe _ _ _ _ _ hcap' ?_ hrun)
            rw [mask_eq hcap']
            exact Nat.mod_lt _ (cap_pos hcap')
          next hother =>
            have hocc : ¬ mid.Occ i := fun ⟨entry, hentry⟩ => hother entry hentry
            have hplaced : Placed tbl tmp _ := placed_setElem hrel hi hocc
            dsimp only at hrun
            split at hrun <;> cases hrun
            · exact hplaced.count_collision _
            · exact hplaced

/-! ## Termination -/

theorem card_setElem_free {i0 : Nat} {tmp : Entry K V} (hi0 : i0 < tbl.cap)
    (hocc : tbl.arr i0 = .occupied tmp) :
    tbl.entries.card = (tbl.setElem i0 .free).entries.card + 1 := by
  rw [← entries_setElem_free hi0 hocc (show Elem.entries .free = 0 from rfl),
    Multiset.card_cons]

/-- While an element is held, the probe loop ends at the latest at a slot ahead that holds none,
if the relocations on its way end within `bound` rounds. -/
theorem relocateProbe_ends {m n bound : Nat}
    (hrelocate : ∀ (fuel : Nat) (mid : Table K V) (i : Nat), mid.cap = 2 ^ m → i < mid.cap →
      mid.entries.card ≤ n → bound ≤ fuel → ∃ mid', relocate fuel mid i = some mid')
    (d fuel q : Nat) (mid : Table K V) (tmp : Entry K V) (hcap : mid.cap = 2 ^ m)
    (hcard : mid.entries.card ≤ n) (hvacant : ¬ mid.Occ (tmp.slot mid.cap (q + d)))
    (hfuel : d + 1 + bound ≤ fuel) :
    ∃ tbl', relocateProbe fuel mid tmp (tmp.slot mid.cap q) (q + 1) = some tbl' := by
  induction d generalizing fuel q mid with
  | zero =>
      obtain ⟨fuel, rfl⟩ : ∃ f, fuel = f + 1 := ⟨fuel - 1, by omega⟩
      obtain ⟨next, hnext⟩ := hrelocate fuel mid _ hcap (slot_lt hcap tmp q) hcard (by omega)
      have hrel := (relocate_effect fuel).1 _ _ _ hcap (slot_lt hcap _ _) hnext
      rw [relocateProbe, hnext]
      dsimp only
      split
      next entry hocc =>
        exact absurd ((hrel.occ_iff_of_occ ⟨entry, hocc⟩ _).mp ⟨entry, hocc⟩) hvacant
      next => exact ⟨_, rfl⟩
  | succ d ih =>
      obtain ⟨fuel, rfl⟩ : ∃ f, fuel = f + 1 := ⟨fuel - 1, by omega⟩
      obtain ⟨next, hnext⟩ := hrelocate fuel mid _ hcap (slot_lt hcap tmp q) hcard (by omega)
      have hrel := (relocate_effect fuel).1 _ _ _ hcap (slot_lt hcap _ _) hnext
      have hcapNext : next.cap = mid.cap := hrel.header.cap
      rw [relocateProbe, hnext]
      dsimp only
      split
      next entry hocc =>
        rw [← hcapNext, mask_slot (hcapNext.trans hcap)]
        apply ih fuel (q + 1) next (hcapNext.trans hcap) (by rw [hrel.entries]; exact hcard) _
          (by omega)
        rw [hrel.occ_iff_of_occ ⟨entry, hocc⟩, hcapNext, Nat.add_assoc, Nat.add_comm 1]
        exact hvacant
      next => exact ⟨_, rfl⟩

/-- With `n` elements in the table, a relocation ends within the rounds of `n`
nested probe loops. -/
theorem relocate_terminates {m : Nat} (n fuel : Nat) (tbl : Table K V) (i0 : Nat)
    (hcap : tbl.cap = 2 ^ m) (hi0 : i0 < tbl.cap) (hcard : tbl.entries.card ≤ n)
    (hfuel : 1 + n * (tbl.cap + 2) ≤ fuel) : ∃ tbl', relocate fuel tbl i0 = some tbl' := by
  induction n generalizing fuel tbl i0 with
  | zero =>
      obtain ⟨fuel, rfl⟩ : ∃ f, fuel = f + 1 := ⟨fuel - 1, by omega⟩
      rw [relocate]
      split
      next tmp hocc =>
        have := card_setElem_free hi0 hocc
        omega
      next => exact ⟨_, rfl⟩
  | succ n ih =>
      have hmul : (n + 1) * (tbl.cap + 2) = n * (tbl.cap + 2) + (tbl.cap + 2) := by ring
      have hrelocate : ∀ (fuel : Nat) (mid : Table K V) (i : Nat), mid.cap = 2 ^ m → i < mid.cap →
          mid.entries.card ≤ n → 1 + n * (tbl.cap + 2) ≤ fuel → ∃ mid', relocate fuel mid i = some mid' :=
        fun fuel mid i hmid hi hcard hfuel =>
          ih fuel mid i hmid hi hcard (by rwa [hmid, ← hcap])
      obtain ⟨fuel, rfl⟩ : ∃ f, fuel = f + 1 := ⟨fuel - 1, by omega⟩
      rw [relocate]
      split
      next tmp hocc =>
        dsimp only
        split
        next => exact ⟨_, rfl⟩
        next =>
          have hcard' := card_setElem_free hi0 hocc
          -- the slot that is given up is free, and lies ahead
          obtain ⟨d, hd, hslot⟩ := exists_slot_eq hcap tmp hi0
          have hvacant : ¬ (tbl.setElem i0 .free).Occ (tmp.slot tbl.cap (0 + d)) := by
            rw [Nat.zero_add, hslot]
            simp [Occ]
          rw [← slot_zero hcap]
          exact relocateProbe_ends hrelocate d fuel 0 (tbl.setElem i0 .free) tmp hcap (by omega) hvacant
            (by omega)
      next => exact ⟨_, rfl⟩

/-! ## Settled slots -/

/-- Every element in a slot of `T` is preceded by slots of `T` on its probe
sequence. -/
def Settled (tbl : Table K V) (T : Set Nat) : Prop :=
  ∀ s ∈ T, ∀ entry, tbl.arr s = .occupied entry →
    ∃ n < tbl.cap, entry.slot tbl.cap n = s ∧ ∀ j < n, entry.slot tbl.cap j ∈ T

theorem Settled.setElem_occupied {T : Set Nat} (h : Settled tbl T) {tmp : Entry K V}
    {q : Nat} (hq : q < tbl.cap) (hchain : ∀ j < q, tmp.slot tbl.cap j ∈ T) :
    Settled (tbl.setElem (tmp.slot tbl.cap q) (.occupied tmp))
      (T ∪ {tmp.slot tbl.cap q}) := by
  intro s hs entry hentry
  rcases eq_or_ne s (tmp.slot tbl.cap q) with rfl | hne
  · obtain rfl : tmp = entry := by simpa using hentry
    exact ⟨q, hq, rfl, fun j hj => Set.mem_union_left _ (hchain j hj)⟩
  · have hmem : s ∈ T := hs.resolve_right hne
    obtain ⟨n, hn, heq, hbefore⟩ := h s hmem entry (by simpa [hne] using hentry)
    exact ⟨n, hn, heq, fun j hj => Set.mem_union_left _ (hbefore j hj)⟩

theorem Settled.setElem_free {T : Set Nat} (h : Settled tbl T) (i : Nat) :
    Settled (tbl.setElem i .free) T := by
  intro s hs entry hentry
  rcases eq_or_ne s i with rfl | hne
  · simp at hentry
  · exact h s hs entry (by simpa [hne] using hentry)

theorem Settled.count_collision {T : Set Nat} (h : Settled tbl T) (n : Nat) :
    Settled { tbl with ncollisions := n } T := h

/-- Relocating inside a settled set permutes its elements and touches nothing
else. The set may have holes: slots that are not occupied. -/
theorem settled_inside {m : Nat} (T : Set Nat) (fuel : Nat) :
    (∀ (tbl tbl' : Table K V) (i0 : Nat), tbl.cap = 2 ^ m → i0 < tbl.cap →
      Settled tbl T → i0 ∈ T → relocate fuel tbl i0 = some tbl' →
      Settled tbl' T ∧ ∀ s ∉ T, tbl'.arr s = tbl.arr s) ∧
    (∀ (tbl tbl' : Table K V) (tmp : Entry K V) (q d : Nat), tbl.cap = 2 ^ m →
      Settled tbl T → q + d < tbl.cap → (∀ j ≤ q + d, tmp.slot tbl.cap j ∈ T) →
      ¬ tbl.Occ (tmp.slot tbl.cap (q + d)) →
      relocateProbe fuel tbl tmp (tmp.slot tbl.cap q) (q + 1) = some tbl' →
      Settled tbl' T ∧ ∀ s ∉ T, tbl'.arr s = tbl.arr s) := by
  induction fuel with
  | zero => exact ⟨fun _ _ _ _ _ _ _ h => by simp [relocate] at h,
      fun _ _ _ _ _ _ _ _ _ _ h => by simp [relocateProbe] at h⟩
  | succ fuel ih =>
      obtain ⟨ihRelocate, ihProbe⟩ := ih
      constructor
      · intro tbl tbl' i0 hcap hi0 hsettled hmem hrun
        have hoff : ∀ s ∉ T, (tbl.setElem i0 .free).arr s = tbl.arr s := by
          intro s hs
          simp [show s ≠ i0 by rintro rfl; exact hs hmem]
        rw [relocate] at hrun
        split at hrun
        next tmp hocc =>
          dsimp only at hrun
          split at hrun
          next =>
            cases hrun
            exact ⟨hsettled, fun _ _ => rfl⟩
          next =>
            obtain ⟨d, hd, heq, hbefore⟩ := hsettled i0 hmem tmp hocc
            rw [← slot_zero hcap] at hrun
            have hchain : ∀ j ≤ 0 + d, tmp.slot tbl.cap j ∈ T := by
              intro j hj
              rcases Nat.lt_or_ge j d with hlt | hge
              · exact hbefore j hlt
              · rw [show j = d by omega, heq]
                exact hmem
            obtain ⟨hsettled', hoff'⟩ := ihProbe (tbl.setElem i0 .free) tbl' tmp 0 d hcap
              (hsettled.setElem_free i0) (by rw [setElem_cap]; omega) hchain
              (by rw [setElem_cap, Nat.zero_add, heq]; simp [Occ]) hrun
            exact ⟨hsettled', fun s hs => (hoff' s hs).trans (hoff s hs)⟩
        next =>
          cases hrun
          exact ⟨hsettled.setElem_free i0, hoff⟩
      · intro tbl tbl' tmp q d hcap hsettled hqd hchain hfree hrun
        have hmem : tmp.slot tbl.cap q ∈ T := hchain q (by omega)
        rw [relocateProbe] at hrun
        split at hrun
        next => cases hrun
        next mid hmid =>
          have hi := slot_lt hcap tmp q
          have hrel := (relocate_effect fuel).1 _ _ _ hcap hi hmid
          have hcapMid : mid.cap = tbl.cap := hrel.header.cap
          obtain ⟨hsettledMid, hoffMid⟩ := ihRelocate _ _ _ hcap hi hsettled hmem hmid
          rw [← hcapMid] at hchain hfree hqd
          split at hrun
          next entry hocc =>
            have hocc' : mid.Occ (tmp.slot tbl.cap q) := ⟨entry, hocc⟩
            rw [← hrel.occ_iff_of_occ hocc'] at hfree
            obtain ⟨d, rfl⟩ : ∃ c, d = c + 1 := by
              refine ⟨d - 1, ?_⟩
              by_contra hzero
              rw [show d = 0 by omega, Nat.add_zero, hcapMid] at hfree
              exact hfree hocc'
            rw [← hcapMid, mask_slot (hcapMid.trans hcap)] at hrun
            have harith : q + 1 + d = q + (d + 1) := by omega
            obtain ⟨hsettled', hoff'⟩ := ihProbe mid tbl' tmp (q + 1) d (hcapMid.trans hcap)
              hsettledMid (by omega) (harith ▸ hchain) (harith ▸ hfree) hrun
            exact ⟨hsettled', fun s hs => (hoff' s hs).trans (hoffMid s hs)⟩
          next hother =>
            have hplaced : Settled (mid.setElem (tmp.slot tbl.cap q) (.occupied tmp)) T ∧
                ∀ s ∉ T, (mid.setElem (tmp.slot tbl.cap q) (.occupied tmp)).arr s =
                  tbl.arr s := by
              constructor
              · have hset := hsettledMid.setElem_occupied (q := q) (by omega)
                  fun j hj => hchain j (by omega)
                rw [hcapMid, Set.union_eq_left.mpr (Set.singleton_subset_iff.mpr hmem)] at hset
                exact hset
              · intro s hs
                have hne : s ≠ tmp.slot tbl.cap q := by
                  rintro rfl
                  exact hs hmem
                simpa [hne] using hoffMid s hs
            dsimp only at hrun
            split at hrun <;> cases hrun <;> exact hplaced

/-- Without holes, a relocation inside a settled set leaves the same slots
occupied. -/
theorem settled_inside_occ {m fuel i0 : Nat} {T : Set Nat} (hcap : tbl.cap = 2 ^ m)
    (hi0 : i0 < tbl.cap) (hsettled : Settled tbl T) (hocc : ∀ s ∈ T, tbl.Occ s)
    (hmem : i0 ∈ T) (hrun : relocate fuel tbl i0 = some tbl') :
    Settled tbl' T ∧ ∀ s, tbl'.Occ s ↔ tbl.Occ s := by
  have hrel := (relocate_effect fuel).1 _ _ _ hcap hi0 hrun
  obtain ⟨hsettled', hoff⟩ := (settled_inside T fuel).1 _ _ _ hcap hi0 hsettled hmem hrun
  refine ⟨hsettled', hrel.occ_iff_of_occ ?_⟩
  by_contra hgone
  obtain ⟨t, _, hfree, hiff⟩ := hrel.occ_iff_of_not_occ hi0 hgone
  have hne : t ≠ i0 := by
    rintro rfl
    exact hfree (hocc _ hmem)
  obtain ⟨entry, hentry⟩ := ((hiff t).mpr (.inr rfl)).resolve_right hne
  have hout : t ∉ T := fun ht => hfree (hocc t ht)
  exact hfree ⟨entry, (hoff t hout).symm.trans hentry⟩

/-- A settled set of occupied slots has grown by slots that are filled. -/
structure Extends (tbl : Table K V) (T : Set Nat) (tbl' : Table K V) (T' : Set Nat) : Prop where
  subset : T ⊆ T'
  settled : Settled tbl' T'
  occupied : ∀ s ∈ T', tbl'.Occ s
  filled : ∀ s, tbl'.Occ s → tbl.Occ s ∨ s ∈ T'

theorem Extends.refl {T : Set Nat} (hsettled : Settled tbl T) (hocc : ∀ s ∈ T, tbl.Occ s) :
    Extends tbl T tbl T := ⟨subset_rfl, hsettled, hocc, fun _ hs => .inl hs⟩

theorem Extends.trans {mid tbl' : Table K V} {T T₁ T' : Set Nat} (h : Extends tbl T mid T₁)
    (h' : Extends mid T₁ tbl' T') : Extends tbl T tbl' T' where
  subset := h.subset.trans h'.subset
  settled := h'.settled
  occupied := h'.occupied
  filled s hs := by
    rcases h'.filled s hs with hmid | hmem
    · exact (h.filled s hmid).imp_right (h'.subset ·)
    · exact .inr hmem

/-- A slot outside the set is given up. -/
theorem Extends.setElem_free {T : Set Nat} (hsettled : Settled tbl T) (hocc : ∀ s ∈ T, tbl.Occ s)
    {i : Nat} (hi : i ∉ T) : Extends tbl T (tbl.setElem i .free) T where
  subset := subset_rfl
  settled := hsettled.setElem_free i
  occupied s hs := (occ_setElem_free ..).mpr ⟨hocc s hs, by rintro rfl; exact hi hs⟩
  filled s hs := .inl ((occ_setElem_free ..).mp hs).1

/-- An element is put behind settled slots of its probe sequence. -/
theorem Extends.setElem_occupied {mid : Table K V} {T T₁ : Set Nat} (h : Extends tbl T mid T₁)
    {tmp : Entry K V} {q : Nat} (hq : q < mid.cap) (hchain : ∀ j < q, tmp.slot mid.cap j ∈ T₁) :
    Extends tbl T (mid.setElem (tmp.slot mid.cap q) (.occupied tmp))
      (T₁ ∪ {tmp.slot mid.cap q}) where
  subset := h.subset.trans Set.subset_union_left
  settled := h.settled.setElem_occupied hq hchain
  occupied := by
    rintro s (hs | rfl)
    · exact (occ_setElem_occupied ..).mpr (.inl (h.occupied s hs))
    · exact (occ_setElem_occupied ..).mpr (.inr rfl)
  filled s hs := by
    rcases (occ_setElem_occupied ..).mp hs with hmid | rfl
    · exact (h.filled s hmid).imp_right (Set.mem_union_left _)
    · exact .inr (Set.mem_union_right _ rfl)

/-- Relocating extends a settled set whose slots are all occupied by the slots that are
filled. -/
theorem settled_extends {m : Nat} (fuel : Nat) :
    (∀ (tbl tbl' : Table K V) (T : Set Nat) (i0 : Nat), tbl.cap = 2 ^ m → i0 < tbl.cap →
      Settled tbl T → (∀ s ∈ T, tbl.Occ s) → relocate fuel tbl i0 = some tbl' →
      ∃ T', Extends tbl T tbl' T' ∧ (tbl'.Occ i0 → i0 ∈ T')) ∧
    (∀ (tbl tbl' : Table K V) (T : Set Nat) (tmp : Entry K V) (q d : Nat),
      tbl.cap = 2 ^ m → Settled tbl T → (∀ s ∈ T, tbl.Occ s) → q + d < tbl.cap →
      (∀ j < q, tmp.slot tbl.cap j ∈ T) → ¬ tbl.Occ (tmp.slot tbl.cap (q + d)) →
      relocateProbe fuel tbl tmp (tmp.slot tbl.cap q) (q + 1) = some tbl' →
      ∃ T', Extends tbl T tbl' T') := by
  induction fuel with
  | zero => exact ⟨fun _ _ _ _ _ _ _ _ h => by simp [relocate] at h,
      fun _ _ _ _ _ _ _ _ _ _ _ _ h => by simp [relocateProbe] at h⟩
  | succ fuel ih =>
      obtain ⟨ihRelocate, ihProbe⟩ := ih
      constructor
      · intro tbl tbl' T i0 hcap hi0 hsettled hocc hrun
        by_cases hmem : i0 ∈ T
        · obtain ⟨hsettled', hiff⟩ := settled_inside_occ hcap hi0 hsettled hocc hmem hrun
          exact ⟨T, ⟨subset_rfl, hsettled', fun s hs => (hiff s).mpr (hocc s hs),
            fun s hs => .inl ((hiff s).mp hs)⟩, fun _ => hmem⟩
        rw [relocate] at hrun
        split at hrun
        next tmp hocc0 =>
          dsimp only at hrun
          rw [← slot_zero hcap] at hrun
          split at hrun
          next hhome =>
            cases hrun
            have hset : Extends tbl T (tbl.setElem (tmp.slot tbl.cap 0) (.occupied tmp))
                (T ∪ {tmp.slot tbl.cap 0}) :=
              (Extends.refl hsettled hocc).setElem_occupied (cap_pos hcap) (by simp)
            have hsame : tbl.setElem i0 (.occupied tmp) = tbl := by
              rw [setElem, ← hocc0, Function.update_eq_self]
            rw [hhome, hsame] at hset
            exact ⟨_, hset, fun _ => Set.mem_union_right _ rfl⟩
          next hhome =>
            obtain ⟨d, hd, hslot⟩ := exists_slot_eq hcap tmp hi0
            have hgiven := Extends.setElem_free hsettled hocc hmem
            obtain ⟨T', hext⟩ := ihProbe (tbl.setElem i0 .free) tbl' T tmp 0 d hcap hgiven.settled
              hgiven.occupied (by rw [setElem_cap]; omega) (by simp)
              (by rw [setElem_cap, Nat.zero_add, hslot]; simp [Occ]) hrun
            refine ⟨T', hgiven.trans hext, fun hi0occ => ?_⟩
            exact (hext.filled i0 hi0occ).resolve_left (by simp [Occ])
        next hother =>
          cases hrun
          exact ⟨T, .setElem_free hsettled hocc hmem, by simp [Occ]⟩
      · intro tbl tbl' T tmp q d hcap hsettled hocc hqd hchain hfree hrun
        rw [relocateProbe] at hrun
        split at hrun
        next => cases hrun
        next mid hmid =>
          have hi := slot_lt hcap tmp q
          have hrel := (relocate_effect fuel).1 _ _ _ hcap hi hmid
          have hcapMid : mid.cap = tbl.cap := hrel.header.cap
          obtain ⟨T₁, hext, hself⟩ := ihRelocate _ _ _ _ hcap hi hsettled hocc hmid
          rw [← hcapMid] at hchain hfree hqd hself hrun
          have hchain₁ : ∀ j < q, tmp.slot mid.cap j ∈ T₁ := fun j hj => hext.subset (hchain j hj)
          split at hrun
          next entry hocc0 =>
            have hocc' : mid.Occ (tmp.slot mid.cap q) := ⟨entry, hocc0⟩
            rw [← hrel.occ_iff_of_occ (hcapMid ▸ hocc')] at hfree
            obtain ⟨d, rfl⟩ : ∃ c, d = c + 1 := by
              refine ⟨d - 1, ?_⟩
              by_contra hzero
              rw [show d = 0 by omega, Nat.add_zero] at hfree
              exact hfree hocc'
            rw [mask_slot (hcapMid.trans hcap)] at hrun
            have harith : q + 1 + d = q + (d + 1) := by omega
            have hchain' : ∀ j < q + 1, tmp.slot mid.cap j ∈ T₁ := by
              intro j hj
              rcases Nat.lt_succ_iff_lt_or_eq.mp hj with hlt | rfl
              · exact hchain₁ j hlt
              · exact hself hocc'
            obtain ⟨T', hext'⟩ := ihProbe mid tbl' T₁ tmp (q + 1) d (hcapMid.trans hcap)
              hext.settled hext.occupied (by omega) hchain' (harith ▸ hfree) hrun
            exact ⟨T', hext.trans hext'⟩
          next hother =>
            have hplaced := hext.setElem_occupied (by omega) hchain₁
            dsimp only at hrun
            split at hrun <;> cases hrun <;>
              exact ⟨_, hplaced.subset, hplaced.settled, hplaced.occupied, hplaced.filled⟩

/-! ## Passes over the table -/

/-- The outcome of a pass: the same elements, no removed slot among those it
went over, and a settled set of occupied slots. -/
structure Rehashed (tbl : Table K V) (slots : List Nat) (tbl' : Table K V)
    (T : Set Nat) : Prop where
  header : SameHeader tbl tbl'
  entries : tbl'.entries = tbl.entries
  removed : ∀ s, tbl'.arr s = .removed → tbl.arr s = .removed ∧ s ∉ slots
  settled : Settled tbl' T
  occupied : ∀ s ∈ T, tbl'.Occ s
  covered : ∀ s, tbl'.Occ s → s ∈ T ∨ tbl.Occ s ∧ s ∉ slots

/-- A pass ends, and settles every slot it goes over. -/
theorem relocateAll_spec {m : Nat} (slots : List Nat) (tbl : Table K V)
    (hcap : tbl.cap = 2 ^ m) (hslots : ∀ s ∈ slots, s < tbl.cap)
    (hcard : tbl.entries.card ≤ tbl.cap) (T : Set Nat) (hsettled : Settled tbl T)
    (hocc : ∀ s ∈ T, tbl.Occ s) :
    ∃ tbl' T', tbl.relocateAll slots = some tbl' ∧ T ⊆ T' ∧ Rehashed tbl slots tbl' T' := by
  induction slots generalizing tbl T with
  | nil =>
      exact ⟨tbl, T, rfl, subset_rfl, .refl _, rfl, fun s hs => ⟨hs, by simp⟩, hsettled, hocc,
        fun s hs => .inr ⟨hs, by simp⟩⟩
  | cons i rest ih =>
      have hi : i < tbl.cap := hslots i (by simp)
      have hfuel : 1 + tbl.cap * (tbl.cap + 2) ≤ relocateFuel tbl.cap := by
        unfold relocateFuel
        nlinarith
      obtain ⟨mid, hmid⟩ := relocate_terminates tbl.cap _ tbl i hcap hi hcard hfuel
      have hrel := (relocate_effect _).1 _ _ _ hcap hi hmid
      have hcapMid : mid.cap = tbl.cap := hrel.header.cap
      obtain ⟨T₁, hext, hself⟩ := (settled_extends _).1 _ _ _ _ hcap hi hsettled hocc hmid
      obtain ⟨tbl', T', hrun, hsub', hpass⟩ := ih mid (hcapMid.trans hcap)
        (fun s hs => hcapMid ▸ hslots s (List.mem_cons_of_mem _ hs))
        (by rw [hrel.entries, hcapMid]; exact hcard) T₁ hext.settled hext.occupied
      refine ⟨tbl', T', by rw [relocateAll, hmid]; exact hrun, hext.subset.trans hsub',
        hrel.header.trans hpass.header, by rw [hpass.entries, hrel.entries], ?_, hpass.settled,
        hpass.occupied, ?_⟩
      · intro s hs
        obtain ⟨hmidRemoved, hrest⟩ := hpass.removed s hs
        refine ⟨hrel.removed s hmidRemoved, ?_⟩
        rw [List.mem_cons, not_or]
        exact ⟨by rintro rfl; exact hrel.not_removed hmidRemoved, hrest⟩
      · intro s hs
        rcases hpass.covered s hs with h | ⟨hmidOcc, hrest⟩
        · exact .inl h
        · rcases hext.filled s hmidOcc with h | h
          · by_cases heq : s = i
            · subst s
              exact .inl (hsub' (hself hmidOcc))
            · exact .inr ⟨h, by simp [heq, hrest]⟩
          · exact .inl (hsub' h)

end Table

end Dime
