import Mathlib.Algebra.Order.BigOperators.Group.Finset
import Mathlib.Data.Set.Card
import Dime.Foundation.Refinement
import Dime.Server.TableRehash

/-!
# The hash table is a finite map

The invariant of a table whose growths succeed: stored hashes are those of the
keys, no key is stored twice, every element is reached from its home slot
without meeting a free one, and free slots remain. With it each operation ends
and acts on the bindings like the operation of the same name on a finite map.
-/

namespace Dime

universe u v

variable {K : Type u} {V : Type v}

def Elem.stored : Elem K V → Option (Entry K V)
  | .occupied entry => some entry
  | _ => none

/-- `1` for a free slot. -/
def Elem.freeWeight : Elem K V → Nat
  | .free => 1
  | _ => 0

namespace Table

variable {tbl tbl' : Table K V}

/-- The number of slots that are free and not just removed. -/
def freeCount (tbl : Table K V) : Nat :=
  ∑ i ∈ Finset.range tbl.cap, (tbl.arr i).freeWeight

/-- The `n`-th slot that is probed for `key`. -/
def keySlot (tbl : Table K V) (key : K) (n : Nat) : Nat :=
  Triangular.slot tbl.cap (tbl.hashF key % tbl.cap) n

/-- What a table keeps apart from the position of its elements. -/
structure Core (tbl : Table K V) : Prop where
  cap_pow : ∃ m, tbl.cap = 2 ^ m
  le_cap : 32 ≤ tbl.cap
  cmp : ∀ a b, tbl.cmpF a b = 0 ↔ a = b
  hash : ∀ entry ∈ tbl.entries, entry.hash = tbl.hashF entry.key
  nodup : (tbl.entries.map Entry.key).Nodup
  len : tbl.len = tbl.entries.card
  len_le : tbl.len * 2 ≤ tbl.cap + 2

/-- Every element is met before the first free slot of its probe sequence. -/
def Reach (tbl : Table K V) : Prop :=
  ∀ i < tbl.cap, ∀ entry, tbl.arr i = .occupied entry →
    ∃ n < tbl.cap, entry.slot tbl.cap n = i ∧ ∀ j < n, tbl.arr (entry.slot tbl.cap j) ≠ .free

/-- The invariant of a table. -/
structure WF (tbl : Table K V) : Prop extends Core tbl where
  reach : Reach tbl
  nfree_le : tbl.nfree ≤ tbl.freeCount
  le_nfree : tbl.cap ≤ tbl.nfree * 2 + 2

/-! ## Bindings -/

/-- The table holds `val` under `key`. -/
def Binds (tbl : Table K V) (key : K) (val : V) : Prop :=
  ∃ entry ∈ tbl.entries, entry.key = key ∧ entry.val = val

/-- The value under `key`, read off the stored elements. -/
def lookup (tbl : Table K V) (key : K) : Option V :=
  (((List.range tbl.cap).filterMap fun i => (tbl.arr i).stored).find?
    fun entry => tbl.cmpF key entry.key = 0).map Entry.val

theorem coe_filterMap_eq_entries (arr : Nat → Elem K V) (cap : Nat) :
    (((List.range cap).filterMap fun i => (arr i).stored : List (Entry K V)) :
      Multiset (Entry K V)) = ∑ i ∈ Finset.range cap, (arr i).entries := by
  induction cap with
  | zero => rfl
  | succ cap ih =>
      rw [List.range_succ, List.filterMap_append, ← Multiset.coe_add, ih,
        Finset.sum_range_succ]
      congr 1
      cases h : arr cap <;> simp [Elem.stored, Elem.entries, h]

theorem entry_unique (h : tbl.Core) {a b : Entry K V} (ha : a ∈ tbl.entries)
    (hb : b ∈ tbl.entries) (hkey : a.key = b.key) : a = b :=
  Multiset.inj_on_of_nodup_map h.nodup a ha b hb hkey

theorem lookup_eq_some_iff (h : tbl.Core) {key : K} {val : V} :
    tbl.lookup key = some val ↔ tbl.Binds key val := by
  have hmem : ∀ entry, entry ∈ ((List.range tbl.cap).filterMap fun i => (tbl.arr i).stored) ↔
      entry ∈ tbl.entries := by
    intro entry
    rw [entries, ← coe_filterMap_eq_entries, Multiset.mem_coe]
  simp only [lookup, Option.map_eq_some_iff]
  constructor
  · rintro ⟨entry, hfind, rfl⟩
    have hkey := List.find?_some hfind
    simp only [decide_eq_true_eq, h.cmp] at hkey
    exact ⟨entry, (hmem entry).mp (List.mem_of_find?_eq_some hfind), hkey.symm, rfl⟩
  · rintro ⟨entry, hentry, rfl, rfl⟩
    have hin := (hmem entry).mpr hentry
    have hsome : (((List.range tbl.cap).filterMap fun i => (tbl.arr i).stored).find?
        fun other => tbl.cmpF entry.key other.key = 0).isSome :=
      List.find?_isSome.mpr ⟨entry, hin, by simp [h.cmp]⟩
    obtain ⟨other, hother⟩ := Option.isSome_iff_exists.mp hsome
    have hkey := List.find?_some hother
    simp only [decide_eq_true_eq, h.cmp] at hkey
    refine ⟨other, hother, ?_⟩
    rw [entry_unique h ((hmem other).mp (List.mem_of_find?_eq_some hother)) hentry hkey.symm]

theorem lookup_eq_none_iff (h : tbl.Core) {key : K} :
    tbl.lookup key = none ↔ ∀ entry ∈ tbl.entries, entry.key ≠ key := by
  rw [Option.eq_none_iff_forall_ne_some]
  constructor
  · intro hnone entry hentry hkey
    exact hnone entry.val ((lookup_eq_some_iff h).mpr ⟨entry, hentry, hkey, rfl⟩)
  · intro hnone val hsome
    obtain ⟨entry, hentry, hkey, _⟩ := (lookup_eq_some_iff h).mp hsome
    exact hnone entry hentry hkey

/-- Equal elements give equal lookups. -/
theorem lookup_congr (h : tbl.Core) (h' : tbl'.Core) (hentries : tbl'.entries = tbl.entries)
    (key : K) : tbl'.lookup key = tbl.lookup key := by
  ext val
  rw [lookup_eq_some_iff h, lookup_eq_some_iff h', Binds, Binds, hentries]

/-! ## Rehashing keeps the invariant -/

theorem freeCount_setElem {i : Nat} (hi : i < tbl.cap) (elem : Elem K V) :
    (tbl.setElem i elem).freeCount + (tbl.arr i).freeWeight =
      tbl.freeCount + elem.freeWeight :=
  sum_setElem (fun _ => Elem.freeWeight) tbl hi elem

/-- Without removed slots, the slots that hold no element are free. -/
theorem freeCount_add_card (hremoved : ∀ s < tbl.cap, tbl.arr s ≠ .removed) :
    tbl.freeCount + tbl.entries.card = tbl.cap := by
  have hweight : ∀ s ∈ Finset.range tbl.cap,
      (tbl.arr s).freeWeight + (tbl.arr s).entries.card = 1 := by
    intro s hs
    have hne := hremoved s (Finset.mem_range.mp hs)
    cases h : tbl.arr s with
    | free => rfl
    | occupied entry => rfl
    | removed => exact absurd h hne
  rw [freeCount, entries, Multiset.card_sum, ← Finset.sum_add_distrib]
  exact (Finset.sum_congr rfl hweight).trans (by simp)

theorem Core.congr (h : tbl.Core) (hentries : tbl'.entries = tbl.entries)
    (hcap : tbl'.cap = tbl.cap) (hlen : tbl'.len = tbl.len) (hcmp : tbl'.cmpF = tbl.cmpF)
    (hhash : tbl'.hashF = tbl.hashF) : tbl'.Core := by
  refine ⟨hcap ▸ h.cap_pow, hcap ▸ h.le_cap, hcmp ▸ h.cmp, ?_, ?_, ?_, ?_⟩
  · rw [hentries, hhash]
    exact h.hash
  · rw [hentries]
    exact h.nodup
  · rw [hentries, hlen]
    exact h.len
  · rw [hlen, hcap]
    exact h.len_le

theorem Core.of_sameHeader (h : tbl.Core) (hheader : SameHeader tbl tbl')
    (hentries : tbl'.entries = tbl.entries) : tbl'.Core :=
  h.congr hentries hheader.cap hheader.len hheader.cmpF hheader.hashF

/-- No slot is marked removed. -/
def Unmarked (tbl : Table K V) : Prop := ∀ s < tbl.cap, tbl.arr s ≠ .removed

theorem card_entries_le (tbl : Table K V) : tbl.entries.card ≤ tbl.cap := by
  have hone : ∀ s ∈ Finset.range tbl.cap, (tbl.arr s).entries.card ≤ 1 := by
    intro s _
    cases tbl.arr s <;> simp [Elem.entries]
  rw [entries, Multiset.card_sum]
  exact (Finset.sum_le_sum hone).trans (by simp)

/-- A pass over slots that include every slot in use leaves a table in which
every element is reached and no slot is marked removed. -/
theorem pass_spec {m : Nat} (hcap : tbl.cap = 2 ^ m) {slots : List Nat}
    (hslots : ∀ s ∈ slots, s < tbl.cap)
    (hall : ∀ s < tbl.cap, s ∈ slots ∨ tbl.arr s = .free) :
    ∃ tbl', tbl.relocateAll slots = some tbl' ∧ SameHeader tbl tbl' ∧
      tbl'.entries = tbl.entries ∧ Reach tbl' ∧ Unmarked tbl' := by
  obtain ⟨tbl', T, hrun, _, hpass⟩ := relocateAll_spec slots tbl hcap hslots
    (card_entries_le tbl) ∅ (by simp [Settled]) (by simp)
  refine ⟨tbl', hrun, hpass.header, hpass.entries, ?_, ?_⟩
  · intro i hi entry hentry
    have hmem : i ∈ T := by
      rcases hpass.covered i ⟨entry, hentry⟩ with hT | ⟨⟨other, hother⟩, hout⟩
      · exact hT
      · rcases hall i (hpass.header.cap ▸ hi) with hin | hfree
        · exact absurd hin hout
        · rw [hfree] at hother
          cases hother
    obtain ⟨n, hn, heq, hbefore⟩ := hpass.settled i hmem entry hentry
    refine ⟨n, hn, heq, fun j hj hfree => ?_⟩
    obtain ⟨other, hother⟩ := hpass.occupied _ (hbefore j hj)
    rw [hfree] at hother
    cases hother
  · intro s hs hbad
    obtain ⟨hold, hout⟩ := hpass.removed s hbad
    rcases hall s (hpass.header.cap ▸ hs) with hin | hfree
    · exact hout hin
    · rw [hfree] at hold
      cases hold

theorem rehash_spec (h : tbl.Core) {slots : List Nat} (hslots : ∀ s ∈ slots, s < tbl.cap)
    (hall : ∀ s < tbl.cap, s ∈ slots ∨ tbl.arr s = .free) :
    ∃ tbl', tbl.relocateAll slots = some tbl' ∧ SameHeader tbl tbl' ∧ tbl'.Core ∧
      tbl'.entries = tbl.entries ∧ Reach tbl' ∧ Unmarked tbl' ∧
      tbl'.freeCount = tbl.cap - tbl.len := by
  obtain ⟨m, hcap⟩ := h.cap_pow
  obtain ⟨tbl', hrun, hheader, hentries, hreach, hunmarked⟩ := pass_spec hcap hslots hall
  have hcore := h.of_sameHeader hheader hentries
  have hcount := freeCount_add_card hunmarked
  rw [← hcore.len, hheader.len, hheader.cap] at hcount
  exact ⟨tbl', hrun, hheader, hcore, hentries, hreach, hunmarked, by omega⟩

theorem double_arr_upper {s : Nat} (hlow : tbl.cap ≤ s) (hhigh : s < tbl.cap * 2) :
    tbl.double.arr s = .free := if_pos ⟨hlow, hhigh⟩

theorem double_arr_lower {s : Nat} (hs : s < tbl.cap) : tbl.double.arr s = tbl.arr s :=
  if_neg (by omega)

theorem entries_double (h : ∃ m, tbl.cap = 2 ^ m) : tbl.double.entries = tbl.entries := by
  have hpos : 0 < tbl.cap := by
    obtain ⟨m, hm⟩ := h
    exact cap_pos hm
  have hsplit : tbl.double.cap = tbl.cap + tbl.cap := Nat.mul_two _
  rw [entries, hsplit, Finset.sum_range_add]
  have hupper : ∑ i ∈ Finset.range tbl.cap, (tbl.double.arr (tbl.cap + i)).entries = 0 := by
    refine Finset.sum_eq_zero fun i hi => ?_
    have hi := Finset.mem_range.mp hi
    rw [double_arr_upper (by omega) (by omega)]
    rfl
  rw [hupper, add_zero]
  exact Finset.sum_congr rfl fun i hi => by rw [double_arr_lower (Finset.mem_range.mp hi)]

theorem double_slots : ∀ s ∈ (List.range tbl.cap).reverse, s < tbl.double.cap := by
  intro s hs
  have := List.mem_range.mp (List.mem_reverse.mp hs)
  change s < tbl.cap * 2
  omega

/-- The slots that growing does not go over are new. -/
theorem double_covered : ∀ s < tbl.double.cap,
    s ∈ (List.range tbl.cap).reverse ∨ tbl.double.arr s = .free := by
  intro s hs
  rcases Nat.lt_or_ge s tbl.cap with hlt | hge
  · exact .inl (List.mem_reverse.mpr (List.mem_range.mpr hlt))
  · exact .inr (double_arr_upper hge hs)

/-- A table after a pass: the same elements, no slot marked removed, and every element met
before the first free slot that is probed for its key. -/
structure Rebuilt (tbl tbl' : Table K V) : Prop where
  entries : tbl'.entries = tbl.entries
  unmarked : Unmarked tbl'
  met : ∀ i < tbl'.cap, ∀ entry, tbl'.arr i = .occupied entry →
    ∃ n < tbl'.cap, tbl'.keySlot entry.key n = i ∧
      ∀ j < n, tbl'.arr (tbl'.keySlot entry.key j) ≠ .free

theorem Rebuilt.of_reach (hentries : tbl'.entries = tbl.entries) (hhashF : tbl'.hashF = tbl.hashF)
    (hhash : ∀ entry ∈ tbl.entries, entry.hash = tbl.hashF entry.key) (hreach : Reach tbl')
    (hunmarked : Unmarked tbl') : Rebuilt tbl tbl' := by
  refine ⟨hentries, hunmarked, fun i hi entry hocc => ?_⟩
  have hmem : entry ∈ tbl.entries := hentries ▸ mem_entries.mpr ⟨i, hi, hocc⟩
  have hslot : ∀ n, entry.slot tbl'.cap n = tbl'.keySlot entry.key n := by
    intro n
    rw [Entry.slot, hhash entry hmem, keySlot, hhashF]
  simpa only [hslot] using hreach i hi entry hocc

/-- Whatever the marks and the positions of the elements, the passes of growing and of the
rehash in place end and rebuild the table. -/
theorem passes_rebuild {m : Nat} (hcap : tbl.cap = 2 ^ m)
    (hhash : ∀ entry ∈ tbl.entries, entry.hash = tbl.hashF entry.key) :
    (∃ tbl', tbl.grow true = some (true, tbl') ∧ tbl'.cap = tbl.cap * 2 ∧ Rebuilt tbl tbl') ∧
    ∃ tbl', tbl.relocateAll (List.range tbl.cap) = some tbl' ∧ tbl'.cap = tbl.cap ∧
      Rebuilt tbl tbl' := by
  constructor
  · have hdouble : tbl.double.cap = 2 ^ (m + 1) := by
      change tbl.cap * 2 = _
      rw [hcap, Nat.pow_succ]
    obtain ⟨tbl', hrun, hheader, hentries, hreach, hunmarked⟩ :=
      pass_spec hdouble double_slots double_covered
    rw [entries_double ⟨m, hcap⟩] at hentries
    exact ⟨tbl', by rw [grow, if_pos rfl, hrun]; rfl, hheader.cap,
      .of_reach hentries hheader.hashF hhash hreach hunmarked⟩
  · obtain ⟨tbl', hrun, hheader, hentries, hreach, hunmarked⟩ := pass_spec hcap
      (fun s (hs : s ∈ List.range tbl.cap) => List.mem_range.mp hs)
      (fun s hs => .inl (List.mem_range.mpr hs))
    exact ⟨tbl', hrun, hheader.cap, .of_reach hentries hheader.hashF hhash hreach hunmarked⟩

/-- Two colliding keys, a slot marked removed and an element behind it. -/
def scattered : Table Nat Unit where
  len := 3
  cmpF a b := (b : Int) - a
  hashF key := key
  arr i := if i = 0 then .removed else if i = 1 then .occupied ⟨4, 4, ()⟩
    else if i = 2 then .occupied ⟨8, 8, ()⟩ else if i = 3 then .occupied ⟨1, 1, ()⟩ else .free
  cap := 4
  ncollisions := 2
  nfree := 0

theorem passes_rebuild_scattered :
    (∃ tbl', scattered.grow true = some (true, tbl') ∧ tbl'.cap = scattered.cap * 2 ∧
      Rebuilt scattered tbl') ∧
    ∃ tbl', scattered.relocateAll (List.range scattered.cap) = some tbl' ∧
      tbl'.cap = scattered.cap ∧ Rebuilt scattered tbl' := by
  refine passes_rebuild (show scattered.cap = 2 ^ 2 from rfl) fun entry hentry => ?_
  obtain ⟨i, _, hocc⟩ := mem_entries.mp hentry
  simp only [scattered] at hocc ⊢
  split_ifs at hocc <;> cases hocc <;> rfl

/-- Growing keeps the elements and doubles the capacity. -/
theorem grow_spec (h : tbl.Core) :
    ∃ tbl', tbl.grow true = some (true, tbl') ∧ tbl'.Core ∧ tbl'.entries = tbl.entries ∧
      Reach tbl' ∧ tbl'.cap = tbl.cap * 2 ∧ tbl'.len = tbl.len ∧ tbl'.hashF = tbl.hashF ∧
      tbl'.cmpF = tbl.cmpF ∧ tbl'.nfree = tbl'.cap - tbl'.len ∧
      tbl'.freeCount = tbl'.nfree ∧ Unmarked tbl' := by
  obtain ⟨m, hcap⟩ := h.cap_pow
  have hentries := entries_double h.cap_pow
  have h32 := h.le_cap
  have hlen := h.len_le
  have hdouble : tbl.double.Core := by
    refine ⟨⟨m + 1, ?_⟩, ?_, h.cmp, ?_, ?_, ?_, ?_⟩
    · change tbl.cap * 2 = _
      rw [hcap, Nat.pow_succ]
    · change 32 ≤ tbl.cap * 2
      omega
    · rw [hentries]
      exact h.hash
    · rw [hentries]
      exact h.nodup
    · rw [hentries]
      exact h.len
    · change tbl.len * 2 ≤ tbl.cap * 2 + 2
      omega
  obtain ⟨tbl', hrun, hheader, hcore, hsame, hreach, hunmarked, hfree⟩ :=
    rehash_spec hdouble double_slots double_covered
  refine ⟨tbl', by rw [grow, if_pos rfl, hrun]; rfl, hcore, hsame.trans hentries, hreach,
    hheader.cap, hheader.len, hheader.hashF, hheader.cmpF, ?_, ?_, hunmarked⟩
  · rw [hheader.nfree, hheader.cap, hheader.len]
    rfl
  · rw [hfree, hheader.nfree]
    rfl

theorem init_wf {cmpF : K → K → Int} {hashF : K → Nat} (hcmp : ∀ a b, cmpF a b = 0 ↔ a = b)
    (hinit : init true cmpF hashF = some tbl) : tbl.WF ∧ tbl.entries = 0 := by
  cases hinit
  have hentries : Table.entries (⟨0, cmpF, hashF, fun _ => .free, 32, 0, 32⟩ : Table K V) = 0 :=
    Finset.sum_eq_zero fun _ _ => rfl
  refine ⟨⟨⟨⟨5, rfl⟩, le_rfl, hcmp, ?_, ?_, ?_, by simp⟩, ?_, ?_, by simp⟩, hentries⟩
  · rw [hentries]
    simp
  · rw [hentries]
    simp
  · rw [hentries]
    simp
  · intro i _ entry hentry
    cases hentry
  · simp [freeCount, Elem.freeWeight]

/-! ## Probing for a key -/

theorem mask_lt {m : Nat} (hcap : tbl.cap = 2 ^ m) (i : Nat) : tbl.mask i < tbl.cap := by
  rw [mask_eq hcap]
  exact Nat.mod_lt _ (cap_pos hcap)

theorem probe_next {m : Nat} (hcap : tbl.cap = 2 ^ m) (key : K) (q : Nat) :
    tbl.mask (tbl.keySlot key q + (q + 1)) = tbl.keySlot key (q + 1) := by
  rw [mask_eq hcap, keySlot, keySlot, Triangular.slot_succ]

theorem probe_start {m : Nat} (hcap : tbl.cap = 2 ^ m) (key : K) :
    tbl.mask (tbl.hashF key) = tbl.keySlot key 0 := by
  rw [mask_eq hcap]
  exact (Triangular.slot_zero (Nat.mod_lt _ (cap_pos hcap))).symm

theorem mask_keySlot (h : tbl.Core) (key : K) (q : Nat) :
    tbl.mask (tbl.keySlot key q + (q + 1)) = tbl.keySlot key (q + 1) := by
  obtain ⟨m, hcap⟩ := h.cap_pow
  exact probe_next hcap key q

theorem keySlot_lt (h : tbl.Core) (key : K) (q : Nat) : tbl.keySlot key q < tbl.cap :=
  Triangular.slot_lt (by have := h.le_cap; omega) _ _

theorem keySlot_zero (h : tbl.Core) (key : K) :
    tbl.keySlot key 0 = tbl.mask (tbl.hashF key) := by
  obtain ⟨m, hcap⟩ := h.cap_pow
  exact (probe_start hcap key).symm

theorem keySlot_inj (h : tbl.Core) {key : K} {a b : Nat} (ha : a < tbl.cap) (hb : b < tbl.cap)
    (heq : tbl.keySlot key a = tbl.keySlot key b) : a = b := by
  obtain ⟨m, hcap⟩ := h.cap_pow
  rw [keySlot, keySlot, hcap] at heq
  exact Triangular.slot_injOn (hcap ▸ ha) (hcap ▸ hb) heq

/-- A search for `key` goes past slot `s`. -/
def Passes (tbl : Table K V) (key : K) (s : Nat) : Prop :=
  tbl.arr s ≠ .free ∧ ∀ entry, tbl.arr s = .occupied entry → entry.key ≠ key

/-- A key is stored in one slot only. -/
theorem slot_unique (h : tbl.Core) {i j : Nat} (hi : i < tbl.cap) (hj : j < tbl.cap)
    {a b : Entry K V} (ha : tbl.arr i = .occupied a) (hb : tbl.arr j = .occupied b)
    (hkey : a.key = b.key) : i = j := by
  by_contra hne
  have hsplit := entries_setElem_free hi ha (show Elem.entries .free = 0 from rfl)
  have hmem : b ∈ (tbl.setElem i .free).entries :=
    mem_entries.mpr ⟨j, hj, by simpa [Ne.symm hne] using hb⟩
  have hnodup := h.nodup
  rw [← hsplit, Multiset.map_cons, Multiset.nodup_cons, hkey] at hnodup
  exact hnodup.1 (Multiset.mem_map_of_mem Entry.key hmem)

/-- The slots before a stored element are passed by a search for its key. -/
theorem probe_found (h : tbl.WF) {entry : Entry K V} (hentry : entry ∈ tbl.entries) :
    ∃ n < tbl.cap, tbl.arr (tbl.keySlot entry.key n) = .occupied entry ∧
      ∀ j < n, tbl.Passes entry.key (tbl.keySlot entry.key j) := by
  obtain ⟨i, hi, hocc⟩ := mem_entries.mp hentry
  obtain ⟨n, hn, heq, hbefore⟩ := h.reach i hi entry hocc
  rw [Entry.slot, h.hash entry hentry] at heq
  refine ⟨n, hn, by rw [keySlot, heq, hocc], fun j hj => ⟨?_, ?_⟩⟩
  · have hne := hbefore j hj
    rwa [Entry.slot, h.hash entry hentry] at hne
  · intro other hother hkey
    have hsame := slot_unique h.toCore (keySlot_lt h.toCore _ _) hi hother hocc hkey
    rw [← heq] at hsame
    have := keySlot_inj h.toCore (by omega) hn hsame
    omega

theorem exists_free (h : tbl.WF) : ∃ s < tbl.cap, tbl.arr s = .free := by
  by_contra hnone
  have hzero : tbl.freeCount = 0 := by
    refine Finset.sum_eq_zero fun s hs => ?_
    have hne : tbl.arr s ≠ .free := fun hs' => hnone ⟨s, Finset.mem_range.mp hs, hs'⟩
    cases hs' : tbl.arr s with
    | free => exact absurd hs' hne
    | occupied entry => rfl
    | removed => rfl
  have := h.nfree_le
  have := h.le_nfree
  have := h.le_cap
  omega

/-- A search for an absent key passes every slot up to the first free one. -/
theorem probe_absent (h : tbl.WF) {key : K} (habsent : ∀ entry ∈ tbl.entries, entry.key ≠ key) :
    ∃ n < tbl.cap, tbl.arr (tbl.keySlot key n) = .free ∧
      ∀ j < n, tbl.Passes key (tbl.keySlot key j) := by
  obtain ⟨m, hcap⟩ := h.cap_pow
  obtain ⟨s, hs, hfree⟩ := exists_free h
  rw [hcap] at hs
  obtain ⟨n, hn, hstop, hbefore⟩ :=
    Triangular.exists_first (P := fun s => tbl.arr s = .free) (tbl.hashF key % tbl.cap) hs hfree
  rw [← hcap] at hn hstop hbefore
  exact ⟨n, hn, hstop, fun j hj => ⟨hbefore j hj, fun entry hentry =>
    habsent entry (mem_entries.mpr ⟨_, keySlot_lt h.toCore key j, hentry⟩)⟩⟩

/-- The loop of `search_r` and `remove` runs over the passed slots. -/
theorem findProbe_walk (h : tbl.Core) {key : K} (d fuel q : Nat) (hfuel : d < fuel)
    (hpass : ∀ j < d, tbl.Passes key (tbl.keySlot key (q + j))) :
    tbl.findProbe key fuel (tbl.keySlot key q) (q + 1) =
      tbl.findProbe key (fuel - d) (tbl.keySlot key (q + d)) (q + d + 1) := by
  induction d generalizing fuel q with
  | zero => rfl
  | succ d ih =>
      obtain ⟨fuel, rfl⟩ : ∃ f, fuel = f + 1 := ⟨fuel - 1, by omega⟩
      have hstep := ih fuel (q + 1) (by omega) fun j hj => by
        have := hpass (j + 1) (by omega)
        rwa [show q + 1 + j = q + (j + 1) by omega]
      rw [show q + 1 + d = q + (d + 1) by omega] at hstep
      obtain ⟨hnotfree, hother⟩ := hpass 0 (by omega)
      rw [Nat.add_zero] at hnotfree hother
      rw [findProbe, mask_keySlot h, hstep, Nat.add_sub_add_right]
      split
      next hfree => exact absurd hfree hnotfree
      next entry hocc =>
        rw [if_neg (by rw [h.cmp]; exact fun heq => hother entry hocc heq.symm)]
      next => rfl

/-- What the loop of `search_r` and `remove` finds. -/
theorem findProbe_spec (h : tbl.WF) (key : K) :
    (tbl.lookup key = none ∧
      tbl.findProbe key tbl.cap (tbl.mask (tbl.hashF key)) 1 = some none) ∨
    ∃ entry i, entry ∈ tbl.entries ∧ entry.key = key ∧ i < tbl.cap ∧
      tbl.arr i = .occupied entry ∧ tbl.lookup key = some entry.val ∧
      tbl.findProbe key tbl.cap (tbl.mask (tbl.hashF key)) 1 = some (some (i, entry)) := by
  rw [← keySlot_zero h.toCore]
  by_cases hpresent : ∃ entry ∈ tbl.entries, entry.key = key
  · right
    obtain ⟨entry, hentry, rfl⟩ := hpresent
    obtain ⟨n, hn, hocc, hpass⟩ := probe_found h hentry
    refine ⟨entry, _, hentry, rfl, keySlot_lt h.toCore _ _, hocc,
      (lookup_eq_some_iff h.toCore).mpr ⟨entry, hentry, rfl, rfl⟩, ?_⟩
    rw [findProbe_walk h.toCore n tbl.cap 0 hn (by simpa using hpass), Nat.zero_add]
    obtain ⟨rest, hrest⟩ : ∃ f, tbl.cap - n = f + 1 := ⟨tbl.cap - n - 1, by omega⟩
    rw [hrest, findProbe, hocc]
    dsimp only
    rw [if_pos ((h.cmp _ _).mpr rfl)]
  · left
    have habsent : ∀ entry ∈ tbl.entries, entry.key ≠ key :=
      fun entry hentry hkey => hpresent ⟨entry, hentry, hkey⟩
    obtain ⟨n, hn, hfree, hpass⟩ := probe_absent h habsent
    refine ⟨(lookup_eq_none_iff h.toCore).mpr habsent, ?_⟩
    rw [findProbe_walk h.toCore n tbl.cap 0 hn (by simpa using hpass), Nat.zero_add]
    obtain ⟨rest, hrest⟩ : ∃ f, tbl.cap - n = f + 1 := ⟨tbl.cap - n - 1, by omega⟩
    rw [hrest, findProbe, hfree]

/-- `search_r` returns the value bound to the key. -/
theorem searchR_spec (h : tbl.WF) (key : K) : tbl.searchR key = some (tbl.lookup key) := by
  rw [searchR]
  rcases findProbe_spec h key with ⟨hnone, hrun⟩ | ⟨entry, i, _, _, _, _, hsome, hrun⟩
  · rw [hrun, hnone]
    rfl
  · rw [hrun, hsome]
    rfl

/-! ## Removal -/

theorem reach_of_nonfree {i : Nat} {elem : Elem K V} (hreach : Reach tbl)
    (helem : elem ≠ .free) (hnew : ∀ entry, elem = .occupied entry →
      ∃ n < tbl.cap, entry.slot tbl.cap n = i ∧
        ∀ j < n, tbl.arr (entry.slot tbl.cap j) ≠ .free) :
    Reach (tbl.setElem i elem) := by
  have hkeep : ∀ s, tbl.arr s ≠ .free → (tbl.setElem i elem).arr s ≠ .free := by
    intro s hs
    rcases eq_or_ne s i with rfl | hne
    · simpa using helem
    · simpa [hne] using hs
  intro s hs entry hentry
  rcases eq_or_ne s i with rfl | hne
  · obtain ⟨n, hn, heq, hbefore⟩ := hnew entry (by simpa using hentry)
    exact ⟨n, hn, heq, fun j hj => hkeep _ (hbefore j hj)⟩
  · obtain ⟨n, hn, heq, hbefore⟩ := hreach s hs entry (by simpa [hne] using hentry)
    exact ⟨n, hn, heq, fun j hj => hkeep _ (hbefore j hj)⟩

/-- `remove` returns the bound value and deletes the binding. -/
theorem remove_spec (h : tbl.WF) (key : K) :
    ∃ tbl', tbl.remove key = some (tbl.lookup key, tbl') ∧ tbl'.WF ∧
      tbl'.lookup key = none ∧ ∀ other, other ≠ key → tbl'.lookup other = tbl.lookup other := by
  rw [remove]
  rcases findProbe_spec h key with ⟨hnone, hrun⟩ | ⟨entry, i, hentry, hkey, hi, hocc, hsome, hrun⟩
  · exact ⟨tbl, by rw [hrun, hnone]; rfl, h, hnone, fun _ _ => rfl⟩
  · subst hkey
    have hsplit := entries_setElem_free hi hocc (show Elem.entries .removed = 0 from rfl)
    let tbl' : Table K V := { tbl.setElem i .removed with len := predSize tbl.len }
    have hentries : entry ::ₘ tbl'.entries = tbl.entries := hsplit
    have hmem : ∀ other ∈ tbl'.entries, other ∈ tbl.entries := fun other hother =>
      hentries ▸ Multiset.mem_cons_of_mem hother
    have hlen : tbl'.len = tbl.len - 1 ∧ tbl.len ≠ 0 := by
      have hcard := h.len
      rw [← hentries, Multiset.card_cons] at hcard
      exact ⟨by change predSize tbl.len = _; rw [predSize, if_neg (by omega)], by omega⟩
    have hnodup := h.nodup
    rw [← hentries, Multiset.map_cons, Multiset.nodup_cons] at hnodup
    have hlenle := h.len_le
    have hcore : tbl'.Core := by
      refine ⟨h.cap_pow, h.le_cap, h.cmp, fun other hother => h.hash other (hmem other hother),
        hnodup.2, ?_, ?_⟩
      · have hcard := h.len
        rw [← hentries, Multiset.card_cons] at hcard
        rw [hlen.1]
        omega
      · change tbl'.len * 2 ≤ tbl.cap + 2
        omega
    have hfree : tbl'.freeCount = tbl.freeCount := by
      have hcount := freeCount_setElem hi .removed
      rw [hocc] at hcount
      exact hcount
    refine ⟨tbl', by rw [hrun, hsome]; rfl, ⟨hcore, ?_, ?_, h.le_nfree⟩, ?_, ?_⟩
    · exact reach_of_nonfree h.reach (by simp) (fun _ hbad => by cases hbad)
    · rw [hfree]
      exact h.nfree_le
    · rw [lookup_eq_none_iff hcore]
      intro other hother hkey
      exact hnodup.1 (hkey ▸ Multiset.mem_map_of_mem Entry.key hother)
    · intro other hne
      ext val
      rw [lookup_eq_some_iff h.toCore, lookup_eq_some_iff hcore, Binds, Binds, ← hentries]
      constructor
      · rintro ⟨found, hfound, hfkey, hval⟩
        exact ⟨found, Multiset.mem_cons_of_mem hfound, hfkey, hval⟩
      · rintro ⟨found, hfound, hfkey, hval⟩
        rcases Multiset.mem_cons.mp hfound with rfl | hfound
        · exact absurd hfkey.symm hne
        · exact ⟨found, hfound, hfkey, hval⟩

/-! ## Searching -/

/-- The loop of `search` runs over the passed slots and remembers a removed one. -/
theorem searchProbe_walk (h : tbl.Core) {key : K} (first d fuel q : Nat)
    (firstavail : Option Nat) (hfuel : d < fuel)
    (hpass : ∀ j < d, tbl.Passes key (tbl.keySlot key (q + j))) :
    ∃ avail, tbl.searchProbe key first fuel (tbl.keySlot key q) (q + 1) firstavail =
        tbl.searchProbe key first (fuel - d) (tbl.keySlot key (q + d)) (q + d + 1) avail ∧
      (avail = firstavail ∨ ∃ j < d, avail = some (tbl.keySlot key (q + j)) ∧
        tbl.arr (tbl.keySlot key (q + j)) = .removed) := by
  induction d generalizing fuel q firstavail with
  | zero => exact ⟨firstavail, rfl, .inl rfl⟩
  | succ d ih =>
      obtain ⟨fuel, rfl⟩ : ∃ f, fuel = f + 1 := ⟨fuel - 1, by omega⟩
      have hnext : ∀ j < d, tbl.Passes key (tbl.keySlot key (q + 1 + j)) := fun j hj => by
        have := hpass (j + 1) (by omega)
        rwa [show q + 1 + j = q + (j + 1) by omega]
      have hindex : q + 1 + d = q + (d + 1) := by omega
      obtain ⟨hnotfree, hother⟩ := hpass 0 (by omega)
      rw [Nat.add_zero] at hnotfree hother
      cases helem : tbl.arr (tbl.keySlot key q) with
      | free => exact absurd helem hnotfree
      | occupied entry =>
          obtain ⟨avail, hrun, havail⟩ := ih fuel (q + 1) firstavail (by omega) hnext
          refine ⟨avail, ?_, ?_⟩
          · rw [searchProbe, helem]
            dsimp only
            rw [if_neg (by rw [h.cmp]; exact fun heq => hother entry helem heq.symm),
              mask_keySlot h, hrun, hindex, Nat.add_sub_add_right]
          · rcases havail with rfl | ⟨j, hj, rfl, hremoved⟩
            · exact .inl rfl
            · exact .inr ⟨j + 1, by omega, by rw [show q + (j + 1) = q + 1 + j by omega],
                by rw [show q + (j + 1) = q + 1 + j by omega]; exact hremoved⟩
      | removed =>
          obtain ⟨avail, hrun, havail⟩ :=
            ih fuel (q + 1) (firstavail.or (some (tbl.keySlot key q))) (by omega) hnext
          refine ⟨avail, ?_, ?_⟩
          · rw [searchProbe, helem]
            dsimp only
            rw [mask_keySlot h, hrun, hindex, Nat.add_sub_add_right]
          · rcases havail with rfl | ⟨j, hj, rfl, hremoved⟩
            · cases firstavail with
              | none => exact .inr ⟨0, by omega, rfl, helem⟩
              | some a => exact .inl rfl
            · exact .inr ⟨j + 1, by omega, by rw [show q + (j + 1) = q + 1 + j by omega],
                by rw [show q + (j + 1) = q + 1 + j by omega]; exact hremoved⟩

/-- Moving an element to a removed slot keeps the elements and the free slots. -/
theorem move_sums {entry : Entry K V} {a i : Nat} (ha : a < tbl.cap) (hi : i < tbl.cap)
    (hremoved : tbl.arr a = .removed) (hocc : tbl.arr i = .occupied entry) :
    ((tbl.setElem a (.occupied entry)).setElem i .removed).entries = tbl.entries ∧
      ((tbl.setElem a (.occupied entry)).setElem i .removed).freeCount = tbl.freeCount := by
  have hne : i ≠ a := by
    rintro rfl
    rw [hremoved] at hocc
    cases hocc
  generalize hmid : tbl.setElem a (.occupied entry) = mid
  have hcap : i < mid.cap := by
    rw [← hmid]
    exact hi
  have hocc' : mid.arr i = .occupied entry := by
    rw [← hmid]
    simpa [hne] using hocc
  have hplace := entries_setElem ha (.occupied entry)
  have htake := entries_setElem hcap .removed
  have hcountPlace := freeCount_setElem ha (.occupied entry)
  have hcountTake := freeCount_setElem hcap .removed
  rw [hmid, hremoved] at hplace hcountPlace
  rw [hocc'] at htake hcountTake
  refine ⟨?_, hcountTake.trans hcountPlace⟩
  have hsum : (mid.setElem i .removed).entries + {entry} = tbl.entries + {entry} :=
    htake.trans hplace
  exact add_right_cancel hsum

/-- Moving an element to a removed slot earlier on its probe sequence keeps the
invariant and the elements. -/
theorem move_wf (h : tbl.WF) {entry : Entry K V} {a n : Nat} (han : a < n) (hn : n < tbl.cap)
    (hocc : tbl.arr (tbl.keySlot entry.key n) = .occupied entry)
    (hentry : entry ∈ tbl.entries)
    (hpass : ∀ j < n, tbl.Passes entry.key (tbl.keySlot entry.key j))
    (hremoved : tbl.arr (tbl.keySlot entry.key a) = .removed) :
    ((tbl.setElem (tbl.keySlot entry.key a) (.occupied entry)).setElem
        (tbl.keySlot entry.key n) .removed).WF ∧
      ((tbl.setElem (tbl.keySlot entry.key a) (.occupied entry)).setElem
        (tbl.keySlot entry.key n) .removed).entries = tbl.entries := by
  have ha := keySlot_lt h.toCore entry.key a
  have hi := keySlot_lt h.toCore entry.key n
  obtain ⟨hentries, hcount⟩ := move_sums ha hi hremoved hocc
  have hslot : ∀ j, entry.slot tbl.cap j = tbl.keySlot entry.key j := fun j => by
    rw [Entry.slot, h.hash entry hentry, keySlot]
  refine ⟨⟨h.toCore.congr hentries rfl rfl rfl rfl, ?_, ?_, h.le_nfree⟩,
    hentries⟩
  · refine reach_of_nonfree (reach_of_nonfree h.reach (by simp) ?_) (by simp)
      fun _ hbad => by cases hbad
    intro other hother
    cases hother
    exact ⟨a, by omega, hslot a, fun j hj => hslot j ▸ (hpass j (by omega)).1⟩
  · rw [hcount]
    exact h.nfree_le

theorem WF.count_collision (h : tbl.WF) (n : Nat) : WF { tbl with ncollisions := n } :=
  ⟨h.toCore.congr rfl rfl rfl rfl rfl, h.reach, h.nfree_le, h.le_nfree⟩

/-- A search returns what is bound to the key, from the first slot on its way that is marked
removed, to which it moves the element, or from where the element was. -/
theorem search_cases (h : tbl.WF) (key : K) :
    tbl.search key = some (tbl.lookup key, tbl) ∨
    ∃ entry ∈ tbl.entries, entry.key = key ∧ tbl.lookup key = some entry.val ∧ ∃ n < tbl.cap,
      ∃ a < n, tbl.arr (tbl.keySlot key n) = .occupied entry ∧
        (∀ j < n, tbl.Passes key (tbl.keySlot key j)) ∧
        tbl.arr (tbl.keySlot key a) = .removed ∧
        tbl.search key = some (some entry.val,
          if tbl.keySlot key 0 = tbl.keySlot key a then
            { (tbl.setElem (tbl.keySlot key a) (.occupied entry)).setElem
                (tbl.keySlot key n) .removed with ncollisions := predSize tbl.ncollisions }
          else (tbl.setElem (tbl.keySlot key a) (.occupied entry)).setElem
            (tbl.keySlot key n) .removed) := by
  rw [search, ← keySlot_zero h.toCore]
  by_cases hpresent : ∃ entry ∈ tbl.entries, entry.key = key
  · obtain ⟨entry, hentry, rfl⟩ := hpresent
    obtain ⟨n, hn, hocc, hpass⟩ := probe_found h hentry
    obtain ⟨avail, hrun, havail⟩ := searchProbe_walk h.toCore (tbl.keySlot entry.key 0) n
      tbl.cap 0 none hn (by simpa using hpass)
    have hlookup : tbl.lookup entry.key = some entry.val :=
      (lookup_eq_some_iff h.toCore).mpr ⟨entry, hentry, rfl, rfl⟩
    obtain ⟨rest, hrest⟩ : ∃ f, tbl.cap - n = f + 1 := ⟨tbl.cap - n - 1, by omega⟩
    simp only [Nat.zero_add] at hrun havail
    rw [hrun, hrest, searchProbe, hocc, hlookup]
    dsimp only
    rw [if_pos ((h.cmp _ _).mpr rfl)]
    rcases havail with rfl | ⟨a, ha, rfl, hremoved⟩
    · exact .inl rfl
    · exact .inr ⟨entry, hentry, rfl, rfl, n, hn, a, ha, hocc, hpass, hremoved, rfl⟩
  · left
    have habsent : ∀ entry ∈ tbl.entries, entry.key ≠ key :=
      fun entry hentry hkey => hpresent ⟨entry, hentry, hkey⟩
    obtain ⟨n, hn, hfree, hpass⟩ := probe_absent h habsent
    obtain ⟨avail, hrun, _⟩ := searchProbe_walk h.toCore (tbl.keySlot key 0) n
      tbl.cap 0 none hn (by simpa using hpass)
    obtain ⟨rest, hrest⟩ : ∃ f, tbl.cap - n = f + 1 := ⟨tbl.cap - n - 1, by omega⟩
    simp only [Nat.zero_add] at hrun
    rw [hrun, hrest, searchProbe, hfree, (lookup_eq_none_iff h.toCore).mpr habsent]

/-- `search` returns the value bound to the key, and the element it may move
changes no lookup. -/
theorem search_spec (h : tbl.WF) (key : K) :
    ∃ tbl', tbl.search key = some (tbl.lookup key, tbl') ∧ tbl'.WF ∧
      tbl'.entries = tbl.entries := by
  rcases search_cases h key with
    hrun | ⟨entry, hentry, rfl, hlookup, n, hn, a, ha, hocc, hpass, hremoved, hrun⟩
  · exact ⟨tbl, hrun, h, rfl⟩
  · obtain ⟨hwf, hentries⟩ := move_wf h ha hn hocc hentry hpass hremoved
    rw [hlookup]
    refine ⟨_, hrun, ?_⟩
    split
    · exact ⟨hwf.count_collision _, hentries⟩
    · exact ⟨hwf, hentries⟩

end Table

end Dime
