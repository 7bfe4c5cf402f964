import Dime.Server.TableMap

/-!
# The counters of the hash table

`ncollisions` is meant to count the elements that are off their home slots, and `nfree` the
slots that are free. A relocation adds one for every element it puts off home, also where it
has done so before, and takes none off for an element it picks up. What a pass counts too
much is what it picks up more than once.
-/

namespace Dime

universe u v

variable {K : Type u} {V : Type v}

/-- The element of a slot, if the slot is not the one that `home` gives its hash. -/
def Elem.stray (home : Nat → Nat) (i : Nat) : Elem K V → Multiset (Entry K V)
  | .occupied entry => if home entry.hash = i then 0 else {entry}
  | _ => 0

namespace Table

variable {tbl tbl' tbl'' : Table K V}

/-- The elements that are off their home slots. -/
def strays (tbl : Table K V) : Multiset (Entry K V) :=
  ∑ i ∈ Finset.range tbl.cap, (tbl.arr i).stray tbl.mask i

/-- Both counters are right. -/
def Exact (tbl : Table K V) : Prop :=
  tbl.nfree = tbl.freeCount ∧ tbl.ncollisions = tbl.strays.card

theorem mem_strays {entry : Entry K V} :
    entry ∈ tbl.strays ↔ ∃ i < tbl.cap, tbl.arr i = .occupied entry ∧ tbl.mask entry.hash ≠ i := by
  rw [strays, Multiset.mem_sum]
  refine exists_congr fun i => ?_
  rw [Finset.mem_range]
  refine and_congr_right fun _ => ?_
  cases h : tbl.arr i with
  | free => simp [Elem.stray]
  | removed => simp [Elem.stray]
  | occupied other =>
      rw [Elem.stray]
      split
      next hhome =>
        simp only [Multiset.notMem_zero, Elem.occupied.injEq, false_iff, not_and, not_not]
        rintro rfl
        exact hhome
      next hhome =>
        simp only [Multiset.mem_singleton, Elem.occupied.injEq]
        constructor
        · rintro rfl
          exact ⟨rfl, hhome⟩
        · rintro ⟨rfl, -⟩
          rfl

theorem strays_setElem {i : Nat} (hi : i < tbl.cap) (elem : Elem K V) :
    (tbl.setElem i elem).strays + (tbl.arr i).stray tbl.mask i =
      tbl.strays + elem.stray tbl.mask i :=
  sum_setElem (fun i => Elem.stray tbl.mask i) tbl hi elem

theorem stray_of_not_occ {i : Nat} (hocc : ¬ tbl.Occ i) (home : Nat → Nat) :
    (tbl.arr i).stray home i = 0 := by
  rcases (not_occ_iff tbl i).mp hocc with h | h <;> rw [h] <;> rfl

/-- The elements are all there are. -/
theorem strays_le_entries (tbl : Table K V) : tbl.strays ≤ tbl.entries := by
  refine Finset.sum_le_sum fun i _ => ?_
  cases tbl.arr i with
  | free => exact le_rfl
  | removed => exact le_rfl
  | occupied entry =>
      rw [Elem.stray]
      split
      · exact Multiset.zero_le _
      · exact le_rfl

/-! ## What a relocation picks up -/

mutual

/-- The elements that `relocate` picks up, in order, those of its nested calls included. -/
def picks : Nat → Table K V → Nat → List (Entry K V)
  | 0, _, _ => []
  | fuel + 1, tbl, i0 =>
      match tbl.arr i0 with
      | .occupied tmp =>
          -- an element at home is left where it is, so it is not picked up
          let i := tbl.mask tmp.hash
          if i = i0 then [] else tmp :: probePicks fuel (tbl.setElem i0 .free) tmp i 1
      | _ => []

/-- The elements that the probe loop of `relocate` picks up. -/
def probePicks : Nat → Table K V → Entry K V → Nat → Nat → List (Entry K V)
  | 0, _, _, _, _ => []
  | fuel + 1, tbl, tmp, i, k =>
      picks fuel tbl i ++
        match relocate fuel tbl i with
        | none => []
        | some tbl =>
            match tbl.arr i with
            | .occupied _ => probePicks fuel tbl tmp (tbl.mask (i + k)) (k + 1)
            | _ => []

end

/-- The elements that a pass over a list of slots picks up. -/
def picksAll (tbl : Table K V) : List Nat → List (Entry K V)
  | [] => []
  | i :: rest =>
      picks (relocateFuel tbl.cap) tbl i ++
        match relocate (relocateFuel tbl.cap) tbl i with
        | none => []
        | some tbl => tbl.picksAll rest

/-- What a relocation does to the elements off home and to their count, where `held` are the
elements out of the table that it places and `picked` those that it picks up. -/
structure Accounted (tbl : Table K V) (held : Set (Entry K V)) (tbl' : Table K V)
    (picked : List (Entry K V)) : Prop where
  count : tbl'.strays.card + picked.length + tbl.ncollisions = tbl.strays.card + tbl'.ncollisions
  stray : ∀ entry ∈ picked, entry ∈ tbl.strays
  subset : ∀ entry ∈ tbl'.strays, entry ∈ tbl.strays ∨ entry ∈ held
  stays : ∀ s entry, tbl.arr s = .occupied entry → entry ∉ picked → tbl'.arr s = .occupied entry

theorem Accounted.refl (tbl : Table K V) (held : Set (Entry K V)) : Accounted tbl held tbl [] :=
  ⟨by rw [List.length_nil, Nat.add_zero], by simp, fun _ h => .inl h, fun _ _ h _ => h⟩

theorem Accounted.trans {held : Set (Entry K V)} {picked picked' : List (Entry K V)}
    (h : Accounted tbl ∅ tbl' picked) (h' : Accounted tbl' held tbl'' picked') :
    Accounted tbl held tbl'' (picked ++ picked') := by
  -- the first half holds nothing, so it leaves no other elements off home
  have hsub : ∀ entry ∈ tbl'.strays, entry ∈ tbl.strays :=
    fun entry hentry => (h.subset entry hentry).resolve_right (Set.notMem_empty entry)
  refine ⟨?_, fun entry hentry => ?_, fun entry hentry => ?_, fun s entry hocc hnot => ?_⟩
  · have hcount := h.count
    have hcount' := h'.count
    rw [List.length_append]
    omega
  · rcases List.mem_append.mp hentry with hpicked | hpicked
    · exact h.stray entry hpicked
    · exact hsub entry (h'.stray entry hpicked)
  · exact (h'.subset entry hentry).imp_left (hsub entry)
  · rw [List.mem_append, not_or] at hnot
    exact h'.stays s entry (h.stays s entry hocc hnot.1) hnot.2

/-- Freeing a slot that holds no element. -/
theorem accounted_free {i0 : Nat} (hi0 : i0 < tbl.cap) (hocc : ¬ tbl.Occ i0)
    (held : Set (Entry K V)) : Accounted tbl held (tbl.setElem i0 .free) [] := by
  have hsame : (tbl.setElem i0 .free).strays = tbl.strays := by
    have hsum := strays_setElem hi0 .free
    rw [stray_of_not_occ hocc, add_zero] at hsum
    exact hsum.trans (add_zero _)
  refine ⟨?_, by simp, fun entry hentry => .inl (hsame ▸ hentry), fun s entry hs _ => ?_⟩
  · rw [hsame]
    rfl
  · have hne : s ≠ i0 := by
      rintro rfl
      exact hocc ⟨entry, hs⟩
    simpa [hne] using hs

/-- Picking an element up that is off home, and placing it again. -/
theorem Accounted.pick {i0 : Nat} {tmp : Entry K V} {picked : List (Entry K V)}
    (hi0 : i0 < tbl.cap) (hocc : tbl.arr i0 = .occupied tmp) (hstray : tbl.mask tmp.hash ≠ i0)
    (h : Accounted (tbl.setElem i0 .free) {tmp} tbl' picked) :
    Accounted tbl ∅ tbl' (tmp :: picked) := by
  have hsplit : tbl.strays = tmp ::ₘ (tbl.setElem i0 .free).strays := by
    have hsum := strays_setElem hi0 .free
    rw [hocc, Elem.stray, if_neg hstray] at hsum
    rw [← Multiset.singleton_add, add_comm, hsum]
    exact (add_zero _).symm
  refine ⟨?_, fun entry hentry => ?_, fun entry hentry => .inl ?_, fun s entry hs hnot => ?_⟩
  · have hcount := h.count
    rw [hsplit, Multiset.card_cons, List.length_cons]
    change _ + _ + tbl.ncollisions = _ at hcount
    omega
  · rw [hsplit, Multiset.mem_cons]
    exact (List.mem_cons.mp hentry).imp_right (h.stray entry)
  · rw [hsplit, Multiset.mem_cons]
    exact (h.subset entry hentry).symm
  · rw [List.mem_cons, not_or] at hnot
    have hne : s ≠ i0 := by
      rintro rfl
      rw [hocc] at hs
      cases hs
      exact hnot.1 rfl
    exact h.stays s entry (by simpa [hne] using hs) hnot.2

/-- Placing the element that is held counts it if the slot is not its home. -/
theorem accounted_place {m q : Nat} {tmp : Entry K V} (hcap : tbl.cap = 2 ^ m) (hq : q < tbl.cap)
    (hocc : ¬ tbl.Occ (tmp.slot tbl.cap q)) (n : Nat)
    (hn : n = tbl.ncollisions + if q = 0 then 0 else 1) :
    Accounted tbl {tmp} { tbl.setElem (tmp.slot tbl.cap q) (.occupied tmp) with ncollisions := n }
      [] := by
  have hslot := slot_lt hcap tmp q
  -- no later slot of the probe sequence is the first one again
  have hhome : tbl.mask tmp.hash = tmp.slot tbl.cap q ↔ q = 0 := by
    rw [← slot_zero hcap]
    constructor
    · intro heq
      rw [Entry.slot, Entry.slot, hcap] at heq
      exact (Triangular.slot_injOn (by positivity) (hcap ▸ hq) heq).symm
    · rintro rfl
      rfl
  have hsum : (tbl.setElem (tmp.slot tbl.cap q) (.occupied tmp)).strays =
      tbl.strays + if q = 0 then 0 else {tmp} := by
    have hset := strays_setElem hslot (.occupied tmp)
    rw [stray_of_not_occ hocc, add_zero, Elem.stray] at hset
    rw [hset]
    simp only [hhome]
  have hstrays : strays { tbl.setElem (tmp.slot tbl.cap q) (.occupied tmp) with ncollisions := n } =
      tbl.strays + if q = 0 then 0 else {tmp} := hsum
  refine ⟨?_, by simp, fun entry hentry => ?_, fun s entry hs _ => ?_⟩
  · rw [hstrays, hn]
    split
    · simp
    · simp
      omega
  · rw [hstrays, Multiset.mem_add] at hentry
    refine hentry.imp_right fun hmem => ?_
    split at hmem
    · simp at hmem
    · exact Multiset.mem_singleton.mp hmem
  · have hne : s ≠ tmp.slot tbl.cap q := by
      rintro rfl
      exact hocc ⟨entry, hs⟩
    change (tbl.setElem _ _).arr s = _
    simpa [hne] using hs

/-- A relocation and its probe loop are accounted for, the loop as long as a slot without an
element lies ahead. -/
theorem relocate_accounted {m : Nat} (fuel : Nat) :
    (∀ (tbl tbl' : Table K V) (i0 : Nat), tbl.cap = 2 ^ m → i0 < tbl.cap →
      relocate fuel tbl i0 = some tbl' → Accounted tbl ∅ tbl' (picks fuel tbl i0)) ∧
    (∀ (tbl tbl' : Table K V) (tmp : Entry K V) (q d : Nat), tbl.cap = 2 ^ m →
      q + d < tbl.cap → ¬ tbl.Occ (tmp.slot tbl.cap (q + d)) →
      relocateProbe fuel tbl tmp (tmp.slot tbl.cap q) (q + 1) = some tbl' →
      Accounted tbl {tmp} tbl' (probePicks fuel tbl tmp (tmp.slot tbl.cap q) (q + 1))) := by
  induction fuel with
  | zero => exact ⟨fun _ _ _ _ _ h => by simp [relocate] at h,
      fun _ _ _ _ _ _ _ _ h => by simp [relocateProbe] at h⟩
  | succ fuel ih =>
      obtain ⟨ihRelocate, ihProbe⟩ := ih
      constructor
      · intro tbl tbl' i0 hcap hi0 hrun
        cases hslot : tbl.arr i0 with
        | occupied tmp =>
            rw [relocate, hslot] at hrun
            rw [picks, hslot]
            dsimp only at hrun ⊢
            split at hrun
            next hhome =>
              cases hrun
              rw [if_pos hhome]
              exact .refl tbl ∅
            next hstray =>
              rw [if_neg hstray]
              apply Accounted.pick hi0 hslot hstray
              -- its probe sequence comes by the slot it is taken from, which is free by then
              obtain ⟨d, hd, heq⟩ := exists_slot_eq hcap tmp hi0
              rw [← slot_zero hcap] at hrun ⊢
              exact ihProbe (tbl.setElem i0 .free) tbl' tmp 0 d hcap (by rw [setElem_cap]; omega)
                (by rw [setElem_cap, Nat.zero_add, heq]; simp [Occ]) hrun
        | free =>
            rw [relocate, hslot] at hrun
            cases hrun
            rw [picks, hslot]
            exact accounted_free hi0 (by simp [Occ, hslot]) ∅
        | removed =>
            rw [relocate, hslot] at hrun
            cases hrun
            rw [picks, hslot]
            exact accounted_free hi0 (by simp [Occ, hslot]) ∅
      · intro tbl tbl' tmp q d hcap hqd hfree hrun
        rw [relocateProbe] at hrun
        split at hrun
        next => cases hrun
        next mid hmid =>
          have hi := slot_lt hcap tmp q
          have hrel := (relocate_effect fuel).1 _ _ _ hcap hi hmid
          have hcapMid : mid.cap = tbl.cap := hrel.header.cap
          have hpicks : probePicks (fuel + 1) tbl tmp (tmp.slot tbl.cap q) (q + 1) =
              picks fuel tbl (tmp.slot tbl.cap q) ++
                match mid.arr (tmp.slot tbl.cap q) with
                | .occupied _ =>
                    probePicks fuel mid tmp (mid.mask (tmp.slot tbl.cap q + (q + 1))) (q + 1 + 1)
                | _ => [] := by rw [probePicks, hmid]
          rw [hpicks]
          apply (ihRelocate _ _ _ hcap hi hmid).trans
          -- the loop stops at a slot that the nested call has left without an element
          have hplace : ¬ mid.Occ (tmp.slot tbl.cap q) →
              (if q + 1 > 1 then
                { mid.setElem (tmp.slot tbl.cap q) (.occupied tmp) with
                  ncollisions := mid.ncollisions + 1 }
              else mid.setElem (tmp.slot tbl.cap q) (.occupied tmp)) = tbl' →
              Accounted mid {tmp} tbl' [] := by
            rintro hocc rfl
            rw [← hcapMid] at hocc hqd ⊢
            split
            next hlater =>
              exact accounted_place (hcapMid.trans hcap) (by omega) hocc _
                (by rw [if_neg (by omega)])
            next hfirst =>
              exact accounted_place (hcapMid.trans hcap) (by omega) hocc _
                (by rw [if_pos (by omega)]; rfl)
          cases hslot : mid.arr (tmp.slot tbl.cap q) with
          | occupied entry =>
              rw [hslot] at hrun
              dsimp only at hrun ⊢
              have hocc : mid.Occ (tmp.slot tbl.cap q) := ⟨entry, hslot⟩
              rw [← hrel.occ_iff_of_occ hocc] at hfree
              obtain ⟨d, rfl⟩ : ∃ c, d = c + 1 := by
                cases d with
                | zero => exact absurd hocc hfree
                | succ c => exact ⟨c, rfl⟩
              have hnext := mask_slot (hcapMid.trans hcap) tmp q
              rw [hcapMid] at hnext
              rw [hnext] at hrun ⊢
              rw [← hcapMid] at hrun hfree hqd ⊢
              have harith : q + 1 + d = q + (d + 1) := by omega
              exact ihProbe mid tbl' tmp (q + 1) d (hcapMid.trans hcap) (by omega)
                (harith ▸ hfree) hrun
          | free =>
              rw [hslot] at hrun
              exact hplace (by simp [Occ, hslot]) (Option.some.inj hrun)
          | removed =>
              rw [hslot] at hrun
              exact hplace (by simp [Occ, hslot]) (Option.some.inj hrun)

/-- A pass is accounted for, and picks up every element off home in the slots it goes over. -/
theorem relocateAll_accounted {m : Nat} (slots : List Nat) (tbl : Table K V)
    (hcap : tbl.cap = 2 ^ m) (hslots : ∀ s ∈ slots, s < tbl.cap)
    (hrun : tbl.relocateAll slots = some tbl') :
    Accounted tbl ∅ tbl' (tbl.picksAll slots) ∧
      ∀ s ∈ slots, ∀ entry, tbl.arr s = .occupied entry → tbl.mask entry.hash ≠ s →
        entry ∈ tbl.picksAll slots := by
  induction slots generalizing tbl with
  | nil =>
      cases hrun
      exact ⟨.refl _ ∅, by simp⟩
  | cons i rest ih =>
      rw [relocateAll] at hrun
      rw [picksAll]
      cases hmid : relocate (relocateFuel tbl.cap) tbl i with
      | none =>
          rw [hmid] at hrun
          cases hrun
      | some mid =>
          rw [hmid] at hrun
          have hi : i < tbl.cap := hslots i List.mem_cons_self
          have hcapMid : mid.cap = tbl.cap := ((relocate_effect _).1 _ _ _ hcap hi hmid).header.cap
          have hfirst := (relocate_accounted _).1 _ _ _ hcap hi hmid
          obtain ⟨hrest, hall⟩ := ih mid (hcapMid.trans hcap)
            (fun s hs => hcapMid ▸ hslots s (List.mem_cons_of_mem i hs)) hrun
          refine ⟨hfirst.trans hrest, fun s hs entry hocc hstray => ?_⟩
          apply List.mem_append.mpr
          by_cases hpicked : entry ∈ picks (relocateFuel tbl.cap) tbl i
          · exact .inl hpicked
          · right
            rcases List.mem_cons.mp hs with rfl | hs
            · -- the relocation of its own slot picks the element up
              obtain ⟨fuel, hfuel⟩ : ∃ fuel, relocateFuel tbl.cap = fuel + 1 :=
                Nat.exists_eq_succ_of_ne_zero (Nat.mul_ne_zero (by omega) (by omega))
              rw [hfuel, picks, hocc] at hpicked
              dsimp only at hpicked
              rw [if_neg hstray] at hpicked
              exact absurd List.mem_cons_self hpicked
            · have hmask : mid.mask entry.hash = tbl.mask entry.hash := by
                rw [mask, mask, hcapMid]
              exact hall s hs entry (hfirst.stays s entry hocc hpicked) (hmask ▸ hstray)

/-- What a pass over every slot in use adds to the count: the elements off home after it, and
`excess` for what is picked up twice. -/
theorem pass_excess {m : Nat} {slots : List Nat} (hcap : tbl.cap = 2 ^ m)
    (hslots : ∀ s ∈ slots, s < tbl.cap)
    (hall : ∀ s < tbl.cap, s ∈ slots ∨ tbl.arr s = .free) (hnodup : tbl.entries.Nodup)
    (hrun : tbl.relocateAll slots = some tbl') :
    ∃ excess, tbl'.ncollisions = tbl.ncollisions + tbl'.strays.card + excess ∧
      (excess = 0 ↔ (tbl.picksAll slots).Nodup) ∧ (tbl.strays = 0 → excess = 0) := by
  obtain ⟨haccounted, hevery⟩ := relocateAll_accounted slots tbl hcap hslots hrun
  have hstrays : tbl.strays.Nodup := Multiset.nodup_of_le tbl.strays_le_entries hnodup
  -- every element off home is picked up, so the surplus is what is picked up once more
  have hle : tbl.strays ≤ (tbl.picksAll slots : Multiset (Entry K V)) := by
    rw [Multiset.le_iff_subset hstrays]
    intro entry hentry
    obtain ⟨s, hs, hocc, hstray⟩ := mem_strays.mp hentry
    rcases hall s hs with hin | hfree
    · exact Multiset.mem_coe.mpr (hevery s hin entry hocc hstray)
    · rw [hfree] at hocc
      cases hocc
  have hcard := Multiset.card_le_card hle
  rw [Multiset.coe_card] at hcard
  have hcount := haccounted.count
  refine ⟨(tbl.picksAll slots).length - tbl.strays.card, by omega, ⟨?_, ?_⟩, ?_⟩
  · intro hzero
    have heq := Multiset.eq_of_le_of_card_le hle (by rw [Multiset.coe_card]; omega)
    rwa [heq, Multiset.coe_nodup] at hstrays
  · intro honce
    have hge : (tbl.picksAll slots : Multiset (Entry K V)) ≤ tbl.strays :=
      (Multiset.le_iff_subset (Multiset.coe_nodup.mpr honce)).mpr haccounted.stray
    have hcard' := Multiset.card_le_card hge
    rw [Multiset.coe_card] at hcard'
    omega
  · intro hnone
    have hnil : tbl.picksAll slots = [] := List.eq_nil_iff_forall_not_mem.mpr fun entry hentry =>
      Multiset.notMem_zero entry (hnone ▸ haccounted.stray entry hentry)
    rw [hnil, List.length_nil, Nat.zero_sub]

/-! ## What the operations do to the counters -/

/-- The counters, where `ahead` slots are still to be counted as taken, `lost` have been counted
twice, and `excess` elements too many are counted off home. -/
structure Counted (tbl : Table K V) (ahead lost excess : Nat) : Prop where
  nfree : tbl.nfree + lost = tbl.freeCount + ahead
  ncollisions : tbl.ncollisions = tbl.strays.card + excess

theorem Counted.exact_iff {lost excess : Nat} (h : tbl.Counted 0 lost excess) :
    tbl.Exact ↔ lost = 0 ∧ excess = 0 := by
  have hnfree := h.nfree
  have hncollisions := h.ncollisions
  rw [Exact]
  omega

theorem Exact.counted (h : tbl.Exact) : tbl.Counted 0 0 0 := ⟨h.1, h.2⟩

theorem Core.nodup_entries (h : tbl.Core) : tbl.entries.Nodup := Multiset.Nodup.of_map _ h.nodup

/-- The pass of a growth picks up no element twice. -/
def Once (tbl : Table K V) : Prop := (tbl.double.picksAll (List.range tbl.cap).reverse).Nodup

/-- A growth counts anew, the elements off home by the times they are picked up. -/
theorem grow_counted (h : tbl.Core) : ∃ tbl' excess, tbl.grow true = some (true, tbl') ∧
    tbl'.Counted 0 0 excess ∧ (excess = 0 ↔ tbl.Once) ∧ Unmarked tbl' ∧
    tbl'.cap = tbl.cap * 2 ∧ tbl'.len = tbl.len ∧ tbl'.nfree = tbl'.cap - tbl'.len := by
  obtain ⟨tbl', hrun, -, -, -, hcap, hlen, -, -, hnfree, hfree, hunmarked⟩ := grow_spec h
  obtain ⟨m, hm⟩ := h.cap_pow
  have hpass : tbl.double.relocateAll (List.range tbl.cap).reverse = some tbl' := by
    rw [grow, if_pos rfl] at hrun
    obtain ⟨after, hafter, heq⟩ := Option.map_eq_some_iff.mp hrun
    cases heq
    exact hafter
  have hdouble : tbl.double.cap = 2 ^ (m + 1) := by
    change tbl.cap * 2 = _
    rw [hm, Nat.pow_succ]
  obtain ⟨excess, hcount, honce, -⟩ := pass_excess hdouble double_slots double_covered
    (entries_double h.cap_pow ▸ h.nodup_entries) hpass
  refine ⟨tbl', excess, hrun, ⟨hfree.symm, ?_⟩, honce, hunmarked, hcap, hlen, hnfree⟩
  rw [hcount, show tbl.double.ncollisions = 0 from rfl, Nat.zero_add]

/-- The growth by load, if there is one, counts right if its pass picks up no element twice. -/
theorem reserve_counted (h : tbl.WF) (hexact : tbl.Exact) :
    ∃ room excess, tbl.reserve true = some (true, room) ∧ room.Counted 0 0 excess ∧
      (excess = 0 ↔ (tbl.cap < tbl.len * 2 → tbl.Once)) ∧
      (tbl.cap < tbl.len * 2 → Unmarked room) := by
  rw [reserve_eq h]
  split
  next hload =>
    obtain ⟨room, excess, hrun, hcounted, honce, hunmarked, -⟩ := grow_counted h.toCore
    exact ⟨room, excess, hrun, hcounted, by simp [hload, honce], fun _ => hunmarked⟩
  next hload => exact ⟨tbl, 0, rfl, hexact.counted, by simp [hload], fun hbad => absurd hbad hload⟩

/-- The table with a new element in slot `i`, found at step `k`, and its collision counted. -/
def place (tbl : Table K V) (key : K) (val : V) (i k : Nat) : Table K V :=
  { tbl.setElem i (.occupied ⟨tbl.hashF key, key, val⟩) with
    len := tbl.len + 1
    ncollisions := if k > 1 then tbl.ncollisions + 1 else tbl.ncollisions }

theorem countCollision_place (tbl : Table K V) (key : K) (val : V) (i k : Nat) :
    countCollision true { tbl.setElem i (.occupied ⟨tbl.hashF key, key, val⟩) with
        len := tbl.len + 1 } k =
      if k > 1 ∧ (tbl.place key val i k).Overflows then
        ((tbl.place key val i k).grow true).map Prod.snd
      else some (tbl.place key val i k) := by
  rw [countCollision]
  by_cases hk : k > 1
  · have hplace : tbl.place key val i k =
        { tbl.setElem i (.occupied ⟨tbl.hashF key, key, val⟩) with
          len := tbl.len + 1
          ncollisions := tbl.ncollisions + 1 } := by rw [place, if_pos hk]
    rw [if_pos hk, hplace]
    simp only [hk, true_and]
    rfl
  · rw [if_neg hk, if_neg fun hboth => hk hboth.1, place, if_neg hk]
    rfl

/-- Placing an element at the end of its probe sequence counts it if it is off home. -/
theorem place_counted {excess : Nat} (h : tbl.WF) (hcounted : tbl.Counted 0 0 excess) {key : K}
    (val : V) {n : Nat} (hn : n < tbl.cap) (hstop : ¬ tbl.Occ (tbl.keySlot key n)) :
    (tbl.place key val (tbl.keySlot key n) (n + 1)).Counted
      (tbl.arr (tbl.keySlot key n)).freeWeight 0 excess := by
  have hi := keySlot_lt h.toCore key n
  have hcount : (tbl.place key val (tbl.keySlot key n) (n + 1)).freeCount + _ =
      tbl.freeCount + 0 := freeCount_setElem hi (.occupied ⟨tbl.hashF key, key, val⟩)
  have hhome : tbl.mask (tbl.hashF key) = tbl.keySlot key n ↔ n = 0 := by
    rw [← keySlot_zero h.toCore]
    constructor
    · intro heq
      exact (keySlot_inj h.toCore (by omega) hn heq).symm
    · rintro rfl
      rfl
  have hstrays : (tbl.place key val (tbl.keySlot key n) (n + 1)).strays =
      tbl.strays + if n = 0 then 0 else {⟨tbl.hashF key, key, val⟩} := by
    have hsum := strays_setElem hi (.occupied ⟨tbl.hashF key, key, val⟩)
    rw [stray_of_not_occ hstop, add_zero, Elem.stray] at hsum
    simp only [hhome] at hsum
    exact hsum
  have hnfree := hcounted.nfree
  have hncollisions := hcounted.ncollisions
  refine ⟨?_, ?_⟩
  · change tbl.nfree + 0 = _
    omega
  · rw [hstrays]
    change (if n + 1 > 1 then tbl.ncollisions + 1 else tbl.ncollisions) = _
    by_cases hzero : n = 0
    · simp [hzero, hncollisions]
    · rw [if_pos (by omega), if_neg hzero, Multiset.card_add, Multiset.card_singleton]
      omega

/-- A rehash in place counts what it picks up on top of what was counted. -/
theorem rehash_counted {excess : Nat} (h : tbl.Core)
    (hncollisions : tbl.ncollisions = tbl.strays.card + excess) :
    ∃ tbl' excess', relocateAll { tbl with nfree := tbl.cap - tbl.len } (List.range tbl.cap) =
        some tbl' ∧ tbl'.Counted 0 0 excess' ∧
      (excess' = 0 ↔ excess = 0 ∧ tbl.strays = 0) := by
  let reset : Table K V := { tbl with nfree := tbl.cap - tbl.len }
  have hreset : reset.Core := h.congr rfl rfl rfl rfl rfl
  have hslots : ∀ s ∈ List.range tbl.cap, s < reset.cap := fun s hs => List.mem_range.mp hs
  have hcover : ∀ s < reset.cap, s ∈ List.range tbl.cap ∨ reset.arr s = .free :=
    fun s hs => .inl (List.mem_range.mpr hs)
  obtain ⟨tbl', hrun, hheader, -, -, -, -, hfree⟩ := rehash_spec hreset hslots hcover
  obtain ⟨m, hcap⟩ := hreset.cap_pow
  -- unlike a growth, the rehash in place does not start from no collisions
  obtain ⟨twice, hcount, -, hnone⟩ := pass_excess hcap hslots hcover hreset.nodup_entries hrun
  have hstrays : reset.strays = tbl.strays := rfl
  have hsame : reset.ncollisions = tbl.ncollisions := rfl
  refine ⟨tbl', tbl.strays.card + excess + twice, hrun, ⟨?_, by omega⟩, ?_⟩
  · rw [hheader.nfree, hfree]
  · constructor
    · intro hzero
      exact ⟨by omega, Multiset.card_eq_zero.mp (by omega)⟩
    · rintro ⟨rfl, hzero⟩
      rw [hnone hzero, hzero, Multiset.card_zero]

/-- Counting the slot that was filled: a rehash in place counts right if nothing has been
miscounted and no element is off home. -/
theorem countFree_counted {excess lost : Nat} {prevuse : Elem K V} (h : tbl.Core)
    (hcounted : tbl.Counted prevuse.freeWeight lost excess)
    (hlost : lost = 0 ∨ tbl.cap < (tbl.nfree - 1) * 2) (hpos : 0 < tbl.nfree) :
    ∃ tbl' excess', tbl.countFree prevuse = some tbl' ∧ tbl'.Counted 0 lost excess' ∧
      (excess' = 0 ↔ excess = 0 ∧
        (prevuse = .free → (tbl.nfree - 1) * 2 < tbl.cap → tbl.strays = 0)) := by
  have hnfree := hcounted.nfree
  have hncollisions := hcounted.ncollisions
  cases prevuse with
  | free =>
      have hpred : predSize tbl.nfree = tbl.nfree - 1 := if_neg hpos.ne'
      rw [countFree]
      dsimp only
      rw [hpred]
      split
      next hfew =>
        -- right after a growth the free slots are too many for a rehash in place
        obtain rfl : lost = 0 := hlost.resolve_right (by omega)
        have hcore : Core { tbl with nfree := tbl.nfree - 1 } := h.congr rfl rfl rfl rfl rfl
        obtain ⟨tbl', excess', hrun, hcounted', hiff⟩ := rehash_counted hcore hncollisions
        refine ⟨tbl', excess', hrun, hcounted', hiff.trans ?_⟩
        exact and_congr_right fun _ => by simp [hfew]; rfl
      next hmany =>
        refine ⟨_, excess, rfl, ⟨?_, hncollisions⟩, by simp [hmany]⟩
        change tbl.nfree - 1 + lost = tbl.freeCount + 0
        change tbl.nfree + lost = tbl.freeCount + 1 at hnfree
        omega
  | occupied entry => exact ⟨tbl, excess, rfl, hcounted, by simp⟩
  | removed => exact ⟨tbl, excess, rfl, hcounted, by simp⟩

/-- What an insertion has to meet for the counters to stay right: a growth by load picks up no
element twice, a growth by collisions does not follow the taking of a free slot and picks up no
element twice, and a rehash in place finds every element at home. -/
def CarefulInsert (tbl : Table K V) (key : K) (val : V) : Prop :=
  ∀ room i k, tbl.reserve true = some (true, room) →
    room.insertProbe key room.cap (room.mask (room.hashF key)) 1 = some (some (i, k)) →
    (tbl.cap < tbl.len * 2 → tbl.Once) ∧
    if k > 1 ∧ (room.place key val i k).Overflows then
      room.arr i ≠ .free ∧ (room.place key val i k).Once
    else room.arr i = .free → (room.nfree - 1) * 2 < room.cap →
      (room.place key val i k).strays = 0

/-- The insertion of an absent key keeps the counters right exactly if it is careful. -/
theorem insert_exact_iff (h : tbl.WF) (hexact : tbl.Exact) {key : K}
    (habsent : tbl.lookup key = none) (val : V) :
    ∃ tbl', tbl.insert true true key val = some (0, tbl') ∧ tbl'.WF ∧
      (tbl'.Exact ↔ tbl.CarefulInsert key val) := by
  obtain ⟨room, hreserve, hwf, hentries, -, -, -, hload⟩ := reserve_spec h
  obtain ⟨room', excess, hreserve', hroom, honce, hunmarked⟩ := reserve_counted h hexact
  rw [hreserve] at hreserve'
  cases hreserve'
  have hnew : ∀ entry ∈ room.entries, entry.key ≠ key := by
    rw [hentries]
    exact (lookup_eq_none_iff h.toCore).mp habsent
  obtain ⟨n, hn, hstop, hocc, hprobe⟩ := insertProbe_spec hwf hnew
  obtain ⟨hplacing, -⟩ := place_counting hwf hload val hnew hn hstop hocc
  have hplaced := place_counted hwf hroom val hn hstop
  obtain ⟨after, hinsert, hwf', -⟩ := insert_spec h habsent val
  have hcareful : tbl.CarefulInsert key val ↔ excess = 0 ∧
      if n + 1 > 1 ∧ (room.place key val (room.keySlot key n) (n + 1)).Overflows then
        room.arr (room.keySlot key n) ≠ .free ∧
          (room.place key val (room.keySlot key n) (n + 1)).Once
      else room.arr (room.keySlot key n) = .free → (room.nfree - 1) * 2 < room.cap →
        (room.place key val (room.keySlot key n) (n + 1)).strays = 0 := by
    rw [honce]
    constructor
    · intro hall
      exact hall room _ _ hreserve hprobe
    · intro hall room' i k hreserve' hprobe'
      rw [hreserve] at hreserve'
      cases hreserve'
      rw [hprobe] at hprobe'
      cases hprobe'
      exact hall
  refine ⟨after, hinsert, hwf', ?_⟩
  rw [insert, hreserve] at hinsert
  dsimp only at hinsert
  rw [hprobe] at hinsert
  dsimp only at hinsert
  rw [countCollision_place] at hinsert
  have hcore : (room.place key val (room.keySlot key n) (n + 1)).Core :=
    hplacing.toCore.congr rfl rfl rfl rfl rfl
  have hslot := keySlot_lt hwf.toCore key n
  have h32 := hwf.le_cap
  have hleNfree := hwf.le_nfree
  rw [hcareful]
  split
  next hoverflow =>
    rw [if_pos hoverflow] at hinsert
    obtain ⟨grown, excess', hgrow, hgrown, honce', -, hcap, hlen, hnfree⟩ := grow_counted hcore
    have hcoreGrown : grown.Core := by
      obtain ⟨other, hother, hcore', -⟩ := grow_spec hcore
      rw [hgrow] at hother
      cases hother
      exact hcore'
    rw [hgrow] at hinsert
    dsimp only [Option.map_some] at hinsert
    change grown.cap = room.cap * 2 at hcap
    change grown.len = room.len + 1 at hlen
    -- a free slot is counted as taken although the growth has already left it out
    have hcounted : grown.Counted (room.arr (room.keySlot key n)).freeWeight
        (room.arr (room.keySlot key n)).freeWeight excess' :=
      ⟨congrArg (· + _) hgrown.nfree, hgrown.ncollisions⟩
    obtain ⟨after', excess'', hcount, hafter, hiff⟩ := countFree_counted hcoreGrown hcounted
      (.inr (by omega)) (by omega)
    rw [hcount] at hinsert
    cases hinsert
    rw [hafter.exact_iff, hiff, honce']
    cases helem : room.arr (room.keySlot key n) with
    | free => simp [Elem.freeWeight]
    | occupied entry => exact absurd ⟨entry, helem⟩ hstop
    | removed =>
        -- a growth by load leaves no slot marked removed, so there has been none
        have hnoload : ¬ tbl.cap < tbl.len * 2 :=
          fun hbad => hunmarked hbad _ hslot helem
        have hzero : excess = 0 := honce.mpr fun hbad => absurd hbad hnoload
        simp [Elem.freeWeight, hzero]
  next hfits =>
    rw [if_neg hfits] at hinsert
    dsimp only at hinsert
    have hnfree : (room.place key val (room.keySlot key n) (n + 1)).nfree = room.nfree := rfl
    obtain ⟨after', excess', hcount, hafter, hiff⟩ := countFree_counted hcore hplaced (.inl rfl)
      (by omega)
    rw [hcount] at hinsert
    cases hinsert
    rw [hafter.exact_iff, hiff]
    exact ⟨fun hboth => hboth.2, fun hboth => ⟨rfl, hboth⟩⟩

/-! ## Removing and searching -/

/-- What a removal has to meet: the element is at home. -/
def CarefulRemove (tbl : Table K V) (key : K) : Prop :=
  ∀ i entry, tbl.findProbe key tbl.cap (tbl.mask (tbl.hashF key)) 1 = some (some (i, entry)) →
    tbl.mask entry.hash = i

/-- A removal keeps the counters right exactly if it is careful: it takes no collision off. -/
theorem remove_exact_iff (h : tbl.WF) (hexact : tbl.Exact) (key : K) :
    ∃ val tbl', tbl.remove key = some (val, tbl') ∧ tbl'.WF ∧
      (tbl'.Exact ↔ tbl.CarefulRemove key) := by
  obtain ⟨after, hremove, hwf, -⟩ := remove_spec h key
  refine ⟨tbl.lookup key, after, hremove, hwf, ?_⟩
  rw [remove] at hremove
  rcases findProbe_spec h key with ⟨-, hrun⟩ | ⟨entry, i, -, -, hi, hocc, -, hrun⟩
  · rw [hrun] at hremove
    obtain ⟨-, rfl⟩ := Prod.mk.inj (Option.some.inj hremove)
    exact iff_of_true hexact fun i entry hfound => by simp [hrun] at hfound
  · rw [hrun] at hremove
    obtain ⟨-, rfl⟩ := Prod.mk.inj (Option.some.inj hremove)
    have hcareful : tbl.CarefulRemove key ↔ tbl.mask entry.hash = i := by
      constructor
      · intro hall
        exact hall i entry hrun
      · intro hhome j other hfound
        rw [hrun] at hfound
        cases hfound
        exact hhome
    have hcount := freeCount_setElem hi .removed
    have hsum := strays_setElem hi .removed
    rw [hocc] at hcount hsum
    have hfree : freeCount { tbl.setElem i .removed with len := predSize tbl.len } =
        tbl.freeCount := hcount
    have hstrays : strays { tbl.setElem i .removed with len := predSize tbl.len } +
        (if tbl.mask entry.hash = i then 0 else {entry}) = tbl.strays := hsum.trans (add_zero _)
    have hcard := congrArg Multiset.card hstrays
    obtain ⟨hnfree, hncollisions⟩ := hexact
    rw [Exact, hfree, hcareful]
    change tbl.nfree = _ ∧ tbl.ncollisions = _ ↔ _
    by_cases hhome : tbl.mask entry.hash = i
    · rw [if_pos hhome, add_zero] at hcard
      exact iff_of_true ⟨hnfree, by omega⟩ hhome
    · rw [if_neg hhome, Multiset.card_add, Multiset.card_singleton] at hcard
      exact iff_of_false (fun hboth => by omega) hhome

/-- A search keeps the counters right: it takes a collision off where it moves an element
home. -/
theorem search_exact (h : tbl.WF) (hexact : tbl.Exact) (key : K) :
    ∃ val tbl', tbl.search key = some (val, tbl') ∧ tbl'.WF ∧ tbl'.Exact := by
  obtain ⟨after, hsearch, hwf, -⟩ := search_spec h key
  refine ⟨tbl.lookup key, after, hsearch, hwf, ?_⟩
  rcases search_cases h key with
    hrun | ⟨entry, hentry, rfl, hlookup, n, hn, a, ha, hocc, -, hremoved, hrun⟩
  · rw [hsearch] at hrun
    obtain ⟨-, rfl⟩ := Prod.mk.inj (Option.some.inj hrun)
    exact hexact
  · rw [hsearch] at hrun
    obtain ⟨-, rfl⟩ := Prod.mk.inj (Option.some.inj hrun)
    have haslot := keySlot_lt h.toCore entry.key a
    have hnslot := keySlot_lt h.toCore entry.key n
    obtain ⟨-, hcount⟩ := move_sums haslot hnslot hremoved hocc
    have hhome : ∀ j < tbl.cap, tbl.mask entry.hash = tbl.keySlot entry.key j ↔ j = 0 := by
      intro j hj
      rw [h.hash entry hentry, ← keySlot_zero h.toCore]
      exact ⟨fun heq => (keySlot_inj h.toCore (by omega) hj heq).symm, by rintro rfl; rfl⟩
    have hne : tbl.keySlot entry.key n ≠ tbl.keySlot entry.key a := fun heq =>
      absurd (keySlot_inj h.toCore hn (by omega) heq) (by omega)
    -- the element arrives at the one slot and leaves the other, which is not its home
    have hplace := strays_setElem haslot (.occupied entry)
    have hnslot' : tbl.keySlot entry.key n <
        (tbl.setElem (tbl.keySlot entry.key a) (.occupied entry)).cap := hnslot
    have htake := strays_setElem hnslot' .removed
    have hmask : (tbl.setElem (tbl.keySlot entry.key a) (.occupied entry)).mask = tbl.mask := rfl
    rw [setElem_arr, Function.update_of_ne hne, hocc, hmask] at htake
    rw [hremoved] at hplace
    simp only [Elem.stray, hhome n hn, hhome a (by omega), add_zero] at htake hplace
    rw [if_neg (by omega), hplace] at htake
    have hcard := congrArg Multiset.card htake
    obtain ⟨hnfree, hncollisions⟩ := hexact
    have hhash : tbl.mask entry.hash = tbl.keySlot entry.key 0 := (hhome 0 (by omega)).mpr rfl
    rw [← hhash]
    rw [Multiset.card_add, Multiset.card_singleton] at hcard
    split
    next hfirst =>
      rw [if_pos ((hhome a (by omega)).mp hfirst), add_zero] at hcard
      refine ⟨hnfree.trans hcount.symm, ?_⟩
      change predSize tbl.ncollisions = Multiset.card (strays (setElem _ _ _))
      rw [predSize, if_neg (by omega)]
      omega
    next hlater =>
      rw [if_neg fun hzero => hlater ((hhome a (by omega)).mpr hzero), Multiset.card_add,
        Multiset.card_singleton] at hcard
      refine ⟨hnfree.trans hcount.symm, ?_⟩
      change tbl.ncollisions = _
      omega

/-! ## Sequences of operations -/

/-- Only keys that are not present are inserted. -/
def Fresh (tbl : Table K V) : Op K V → Prop
  | .insert key _ => tbl.lookup key = none
  | _ => True

/-- What an operation has to meet for the counters to stay right. -/
def Careful (tbl : Table K V) : Op K V → Prop
  | .insert key val => tbl.CarefulInsert key val
  | .remove key => tbl.CarefulRemove key
  | _ => True

/-- Every operation ends, and keeps the counters right exactly if it is careful. -/
theorem step_exact_iff (h : tbl.WF) (hexact : tbl.Exact) {op : Op K V} (hfresh : tbl.Fresh op) :
    ∃ answer tbl', tbl.step op = some (answer, tbl') ∧ tbl'.WF ∧
      (tbl'.Exact ↔ tbl.Careful op) := by
  cases op with
  | insert key val =>
      obtain ⟨after, hrun, hwf, hiff⟩ := insert_exact_iff h hexact hfresh val
      exact ⟨.status 0, after, by rw [step, hrun]; rfl, hwf, hiff⟩
  | search key =>
      obtain ⟨val, after, hrun, hwf, hafter⟩ := search_exact h hexact key
      exact ⟨.value val, after, by rw [step, hrun]; rfl, hwf, iff_of_true hafter trivial⟩
  | searchR key =>
      exact ⟨.value (tbl.lookup key), tbl, by rw [step, searchR_spec h]; rfl, h,
        iff_of_true hexact trivial⟩
  | remove key =>
      obtain ⟨val, after, hrun, hwf, hiff⟩ := remove_exact_iff h hexact key
      exact ⟨.value val, after, by rw [step, hrun]; rfl, hwf, hiff⟩
  | iterate => exact ⟨_, tbl, rfl, h, iff_of_true hexact trivial⟩
  | len => exact ⟨_, tbl, rfl, h, iff_of_true hexact trivial⟩

theorem init_exact {cmpF : K → K → Int} {hashF : K → Nat}
    (hinit : init true cmpF hashF = some tbl) : tbl.Exact := by
  cases hinit
  refine ⟨by simp [freeCount, Elem.freeWeight], ?_⟩
  have hnone : strays (⟨0, cmpF, hashF, fun _ => .free, 32, 0, 32⟩ : Table K V) = 0 :=
    Finset.sum_eq_zero fun _ _ => rfl
  rw [hnone]
  rfl

end Table

/-- The counters of a table are right in every state of a run that inserts only absent keys
exactly if every operation of the run is careful. -/
theorem table_counters_iff {cmpF : K → K → Int} (hcmp : ∀ a b, cmpF a b = 0 ↔ a = b)
    {hashF : K → Nat} {tbl : Table K V} (hinit : Table.init true cmpF hashF = some tbl)
    (ops : List (Table.Op K V)) (hops : Refinement.Guarded Table.step Table.Fresh tbl ops) :
    Refinement.Always Table.step Table.Exact tbl ops ↔
      Refinement.Guarded Table.step Table.Careful tbl ops := by
  refine Refinement.always_iff_guarded
    (fun tbl (hinv : tbl.WF ∧ tbl.Exact) => hinv.2) ?_ ?_ ops tbl
    ⟨(Table.init_wf hcmp hinit).1, Table.init_exact hinit⟩ hops
  · rintro tbl op answer tbl' ⟨hwf, hexact⟩ hfresh hcareful hstep
    obtain ⟨_, _, hstep', hwf', hiff⟩ := Table.step_exact_iff hwf hexact hfresh
    rw [hstep] at hstep'
    cases hstep'
    exact ⟨hwf', hiff.mpr hcareful⟩
  · rintro tbl op ⟨hwf, hexact⟩ hfresh hcareless
    obtain ⟨answer, tbl', hstep, -, hiff⟩ := Table.step_exact_iff hwf hexact hfresh
    exact ⟨answer, tbl', hstep, fun hafter => hcareless (hiff.mp hafter)⟩

theorem table_counters_iff_one_key :
    Refinement.Always Table.step Table.Exact
        ⟨0, fun a b : Nat => (b : Int) - a, id, fun _ => .free, 32, 0, 32⟩
        [.insert 1 10, .remove 1] ↔
      Refinement.Guarded Table.step Table.Careful
        ⟨0, fun a b : Nat => (b : Int) - a, id, fun _ => .free, 32, 0, 32⟩
        [.insert 1 10, .remove 1] :=
  table_counters_iff (fun a b => by omega) rfl _
    ⟨rfl, fun _ _ _ => ⟨trivial, fun _ _ _ => trivial⟩⟩

/-- Two keys that collide: the second insertion takes a free slot, grows the table, and then
counts the slot once more. -/
theorem table_counters_drift :
    ¬ Refinement.Always Table.step Table.Exact
        ⟨0, fun a b : Nat => (b : Int) - a, id, fun _ => .free, 32, 0, 32⟩
        [.insert 0 10, .insert 32 20] := by
  intro halways
  have hseen : (Refinement.run Table.step
      ⟨0, fun a b : Nat => (b : Int) - a, id, fun _ => .free, 32, 0, 32⟩
      [.insert 0 10, .insert 32 20]).map (fun run => (run.2.nfree, run.2.freeCount)) =
      some (61, 62) := by decide +kernel
  obtain ⟨⟨answers, tbl⟩, hrun, heq⟩ := Option.map_eq_some_iff.mp hseen
  obtain ⟨hnfree, hfree⟩ := Prod.mk.inj heq
  have hexact := (halways.final hrun).1
  dsimp only at hnfree hfree
  omega

end Dime
