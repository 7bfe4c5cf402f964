import Dime.Server.TableRefinement

/-!
# Every use of the hash table

Insertion and iteration, and then sequences of operations: whatever the hash
function, a table answers them as a finite map does.
-/

namespace Dime

universe u v

variable {K : Type u} {V : Type v}

namespace Table

variable {tbl tbl' : Table K V}

/-! ## Insertion -/

/-- The invariant while the counter of free slots is `w` ahead of the slots. -/
structure Counting (tbl : Table K V) (w : Nat) : Prop extends Core tbl where
  reach : Reach tbl
  nfree_le : tbl.nfree ≤ tbl.freeCount + w
  le_nfree : tbl.cap ≤ tbl.nfree * 2 + 2

/-- With growths that succeed, an insertion grows a table that is more than half full. -/
theorem reserve_eq (h : tbl.WF) :
    tbl.reserve true = if tbl.cap < tbl.len * 2 then tbl.grow true else some (true, tbl) := by
  have hle := h.len_le
  have h32 := h.le_cap
  obtain ⟨tbl', hrun, -⟩ := grow_spec h.toCore
  rw [reserve, if_neg (by omega), hrun]
  split <;> rfl

theorem reserve_spec (h : tbl.WF) :
    ∃ tbl', tbl.reserve true = some (true, tbl') ∧ tbl'.WF ∧ tbl'.entries = tbl.entries ∧
      tbl'.len = tbl.len ∧ tbl'.hashF = tbl.hashF ∧ tbl'.cmpF = tbl.cmpF ∧
      tbl'.len * 2 ≤ tbl'.cap := by
  have hle := h.len_le
  have h32 := h.le_cap
  rw [reserve_eq h]
  split
  next =>
    obtain ⟨tbl', hrun, hcore, hentries, hreach, hcap, hlen, hhash, hcmp, hnfree, hfree, _⟩ :=
      grow_spec h.toCore
    exact ⟨tbl', hrun, ⟨hcore, hreach, hfree.ge, by omega⟩, hentries, hlen, hhash, hcmp, by omega⟩
  next hload => exact ⟨tbl, rfl, h, rfl, rfl, rfl, rfl, by omega⟩

/-- The loop of `insert` runs over occupied slots with other keys. -/
theorem insertProbe_walk (h : tbl.Core) {key : K} (d fuel q : Nat) (hfuel : d < fuel)
    (hpass : ∀ j < d, ∃ entry, tbl.arr (tbl.keySlot key (q + j)) = .occupied entry ∧
      entry.key ≠ key) :
    tbl.insertProbe key fuel (tbl.keySlot key q) (q + 1) =
      tbl.insertProbe key (fuel - d) (tbl.keySlot key (q + d)) (q + d + 1) := by
  induction d generalizing fuel q with
  | zero => rfl
  | succ d ih =>
      obtain ⟨fuel, rfl⟩ : ∃ f, fuel = f + 1 := ⟨fuel - 1, by omega⟩
      have hstep := ih fuel (q + 1) (by omega) fun j hj => by
        have := hpass (j + 1) (by omega)
        rwa [show q + 1 + j = q + (j + 1) by omega]
      rw [show q + 1 + d = q + (d + 1) by omega] at hstep
      obtain ⟨entry, hocc, hother⟩ := hpass 0 (by omega)
      rw [Nat.add_zero] at hocc
      rw [insertProbe, hocc]
      dsimp only
      rw [if_neg (by rw [h.cmp]; exact fun heq => hother heq.symm), mask_keySlot h, hstep,
        Nat.add_sub_add_right]

/-- It stops at a slot that holds no element. -/
theorem insertProbe_stops (h : tbl.Core) {key : K} {n : Nat} (hn : n < tbl.cap)
    (hpass : ∀ j < n, ∃ entry, tbl.arr (tbl.keySlot key j) = .occupied entry ∧ entry.key ≠ key)
    (hstop : ¬ tbl.Occ (tbl.keySlot key n)) :
    tbl.insertProbe key tbl.cap (tbl.mask (tbl.hashF key)) 1 =
      some (some (tbl.keySlot key n, n + 1)) := by
  rw [← keySlot_zero h, insertProbe_walk h n tbl.cap 0 hn (by simpa using hpass), Nat.zero_add]
  obtain ⟨rest, hrest⟩ : ∃ f, tbl.cap - n = f + 1 := ⟨tbl.cap - n - 1, by omega⟩
  rw [hrest, insertProbe]
  rcases (not_occ_iff tbl _).mp hstop with hslot | hslot
  · rw [hslot]
  · rw [hslot]

/-- It gives up at an element with the key. -/
theorem insertProbe_meets (h : tbl.Core) {key : K} {n : Nat} (hn : n < tbl.cap)
    (hpass : ∀ j < n, ∃ entry, tbl.arr (tbl.keySlot key j) = .occupied entry ∧ entry.key ≠ key)
    {entry : Entry K V} (hocc : tbl.arr (tbl.keySlot key n) = .occupied entry)
    (hkey : entry.key = key) :
    tbl.insertProbe key tbl.cap (tbl.mask (tbl.hashF key)) 1 = some none := by
  rw [← keySlot_zero h, insertProbe_walk h n tbl.cap 0 hn (by simpa using hpass), Nat.zero_add]
  obtain ⟨rest, hrest⟩ : ∃ f, tbl.cap - n = f + 1 := ⟨tbl.cap - n - 1, by omega⟩
  rw [hrest, insertProbe, hocc]
  dsimp only
  rw [if_pos ((h.cmp _ _).mpr hkey.symm)]

/-- The loop of `insert` stops at the first slot of an absent key that holds no
element. -/
theorem insertProbe_spec (h : tbl.WF) {key : K}
    (habsent : ∀ entry ∈ tbl.entries, entry.key ≠ key) :
    ∃ n < tbl.cap, ¬ tbl.Occ (tbl.keySlot key n) ∧
      (∀ j < n, tbl.Occ (tbl.keySlot key j)) ∧
      tbl.insertProbe key tbl.cap (tbl.mask (tbl.hashF key)) 1 =
        some (some (tbl.keySlot key n, n + 1)) := by
  obtain ⟨m, hcap⟩ := h.cap_pow
  obtain ⟨s, hs, hfree⟩ := exists_free h
  rw [hcap] at hs
  obtain ⟨n, hn, hstop, hbefore⟩ := Triangular.exists_first (P := fun s => ¬ tbl.Occ s)
    (tbl.hashF key % tbl.cap) hs ((not_occ_iff tbl s).mpr (.inl hfree))
  rw [← hcap] at hn hstop hbefore
  have hocc : ∀ j < n, tbl.Occ (tbl.keySlot key j) := fun j hj => not_not.mp (hbefore j hj)
  refine ⟨n, hn, hstop, hocc, insertProbe_stops h.toCore hn (fun j hj => ?_) hstop⟩
  obtain ⟨entry, hentry⟩ := hocc j hj
  exact ⟨entry, hentry, habsent entry (mem_entries.mpr ⟨_, keySlot_lt h.toCore key j, hentry⟩)⟩

/-- Writing a new element at the end of its probe sequence. -/
theorem place_counting (h : tbl.WF) (hload : tbl.len * 2 ≤ tbl.cap) {key : K} (val : V)
    (habsent : ∀ entry ∈ tbl.entries, entry.key ≠ key) {n : Nat} (hn : n < tbl.cap)
    (hstop : ¬ tbl.Occ (tbl.keySlot key n)) (hocc : ∀ j < n, tbl.Occ (tbl.keySlot key j)) :
    Counting { tbl.setElem (tbl.keySlot key n) (.occupied ⟨tbl.hashF key, key, val⟩) with
        len := tbl.len + 1 } (tbl.arr (tbl.keySlot key n)).freeWeight ∧
      entries { tbl.setElem (tbl.keySlot key n) (.occupied ⟨tbl.hashF key, key, val⟩) with
        len := tbl.len + 1 } = ⟨tbl.hashF key, key, val⟩ ::ₘ tbl.entries := by
  have hi := keySlot_lt h.toCore key n
  have hcount := freeCount_setElem hi (.occupied ⟨tbl.hashF key, key, val⟩)
  have hentries := entries_setElem_occupied hi hstop ⟨tbl.hashF key, key, val⟩
  have hreach : Reach (tbl.setElem (tbl.keySlot key n) (.occupied ⟨tbl.hashF key, key, val⟩)) := by
    refine reach_of_nonfree h.reach (by simp) fun entry hentry => ?_
    cases hentry
    refine ⟨n, hn, rfl, fun j hj hfree => ?_⟩
    obtain ⟨entry, hentry⟩ := hocc j hj
    rw [keySlot] at hentry
    rw [Entry.slot, hentry] at hfree
    cases hfree
  generalize hplaced : tbl.setElem (tbl.keySlot key n) (.occupied ⟨tbl.hashF key, key, val⟩) = placed
    at hcount hentries hreach
  have hheader : placed.cap = tbl.cap ∧ placed.cmpF = tbl.cmpF ∧ placed.hashF = tbl.hashF ∧
      placed.nfree = tbl.nfree := by
    rw [← hplaced]
    exact ⟨rfl, rfl, rfl, rfl⟩
  obtain ⟨hcap, hcmp, hhash, hnfree⟩ := hheader
  have hall : entries { placed with len := tbl.len + 1 } =
      ⟨tbl.hashF key, key, val⟩ ::ₘ tbl.entries := hentries
  refine ⟨⟨⟨?_, ?_, ?_, ?_, ?_, ?_, ?_⟩, hreach, ?_, ?_⟩, hall⟩
  · exact hcap ▸ h.cap_pow
  · exact hcap ▸ h.le_cap
  · exact hcmp ▸ h.cmp
  · rw [hall]
    intro entry hentry
    rcases Multiset.mem_cons.mp hentry with rfl | hold
    · exact (congrFun hhash key).symm
    · exact (h.hash entry hold).trans (congrFun hhash entry.key).symm
  · rw [hall, Multiset.map_cons, Multiset.nodup_cons]
    refine ⟨fun hmem => ?_, h.nodup⟩
    obtain ⟨entry, hentry, hkey⟩ := Multiset.mem_map.mp hmem
    exact habsent entry hentry hkey
  · rw [hall, Multiset.card_cons, ← h.len]
  · change (tbl.len + 1) * 2 ≤ placed.cap + 2
    omega
  · change placed.nfree ≤ placed.freeCount + _
    have := h.nfree_le
    have hzero : (Elem.occupied ⟨tbl.hashF key, key, val⟩ : Elem K V).freeWeight = 0 := rfl
    omega
  · change placed.cap ≤ placed.nfree * 2 + 2
    have := h.le_nfree
    omega

theorem countCollision_spec {w : Nat} (h : tbl.Counting w) (k : Nat) :
    ∃ tbl', tbl.countCollision true k = some tbl' ∧ tbl'.Counting w ∧
      tbl'.entries = tbl.entries ∧ tbl'.hashF = tbl.hashF ∧ tbl'.cmpF = tbl.cmpF := by
  rw [countCollision]
  split
  next =>
    let counted : Table K V := { tbl with ncollisions := tbl.ncollisions + 1 }
    have hcounted : counted.Counting w :=
      ⟨h.toCore.congr rfl rfl rfl rfl rfl, h.reach, h.nfree_le, h.le_nfree⟩
    dsimp only
    split
    next =>
      obtain ⟨tbl', hrun, hcore, hentries, hreach, hcap, hlen, hhash, hcmp, hnfree, hfree, _⟩ :=
        grow_spec hcounted.toCore
      have hle : tbl'.len * 2 ≤ tbl'.cap + 2 := hcore.len_le
      exact ⟨tbl', by rw [hrun]; rfl, ⟨hcore, hreach, by omega, by omega⟩, hentries, hhash, hcmp⟩
    next => exact ⟨counted, rfl, hcounted, rfl, rfl, rfl⟩
  next => exact ⟨tbl, rfl, h, rfl, rfl, rfl⟩

theorem countFree_spec {prevuse : Elem K V} (h : tbl.Counting prevuse.freeWeight) :
    ∃ tbl', tbl.countFree prevuse = some tbl' ∧ tbl'.WF ∧
      tbl'.entries = tbl.entries ∧ tbl'.hashF = tbl.hashF ∧ tbl'.cmpF = tbl.cmpF := by
  have h32 := h.le_cap
  have hlenle := h.len_le
  have hnfree := h.le_nfree
  cases prevuse with
  | occupied entry => exact ⟨tbl, rfl, ⟨h.toCore, h.reach, h.nfree_le, h.le_nfree⟩, rfl, rfl, rfl⟩
  | removed => exact ⟨tbl, rfl, ⟨h.toCore, h.reach, h.nfree_le, h.le_nfree⟩, rfl, rfl, rfl⟩
  | free =>
      have hle : tbl.nfree ≤ tbl.freeCount + 1 := h.nfree_le
      have hpred : predSize tbl.nfree = tbl.nfree - 1 := if_neg (by omega)
      rw [countFree]
      dsimp only
      rw [hpred]
      split
      next =>
        let reset : Table K V := { tbl with nfree := tbl.cap - tbl.len }
        have hreset : reset.Core := h.toCore.congr rfl rfl rfl rfl rfl
        obtain ⟨tbl', hrun, hheader, hcore, hentries, hreach, _, hfree⟩ :=
          rehash_spec hreset
            (fun s (hs : s ∈ List.range tbl.cap) => List.mem_range.mp hs)
            (fun s hs => .inl (List.mem_range.mpr hs))
        have hfree' : tbl'.freeCount = tbl.cap - tbl.len := hfree
        have hnfree' : tbl'.nfree = tbl.cap - tbl.len := hheader.nfree
        have hcap' : tbl'.cap = tbl.cap := hheader.cap
        exact ⟨tbl', hrun, ⟨hcore, hreach, by omega, by omega⟩, hentries, hheader.hashF,
          hheader.cmpF⟩
      next hmany =>
        refine ⟨_, rfl, ⟨h.toCore.congr rfl rfl rfl rfl rfl, h.reach, ?_, ?_⟩,
          rfl, rfl, rfl⟩
        · change tbl.nfree - 1 ≤ tbl.freeCount
          omega
        · change tbl.cap ≤ (tbl.nfree - 1) * 2 + 2
          omega

/-- `insert` with an absent key adds the binding. -/
theorem insert_spec (h : tbl.WF) {key : K} (habsent : tbl.lookup key = none) (val : V) :
    ∃ tbl', tbl.insert true true key val = some (0, tbl') ∧ tbl'.WF ∧
      tbl'.entries = ⟨tbl.hashF key, key, val⟩ ::ₘ tbl.entries ∧
      tbl'.hashF = tbl.hashF ∧ tbl'.cmpF = tbl.cmpF := by
  obtain ⟨roomy, hreserve, hwf, hentries, -, hhash, hcmp, hload⟩ := reserve_spec h
  have hnew : ∀ entry ∈ roomy.entries, entry.key ≠ key := by
    rw [hentries]
    exact (lookup_eq_none_iff h.toCore).mp habsent
  obtain ⟨n, hn, hstop, hocc, hprobe⟩ := insertProbe_spec hwf hnew
  obtain ⟨hplaced, hplacedEntries⟩ := place_counting hwf hload val hnew hn hstop hocc
  obtain ⟨counted, hcount, hcounting, hcountEntries, hcountHash, hcountCmp⟩ :=
    countCollision_spec hplaced (n + 1)
  obtain ⟨tbl', hfree, hwf', hfreeEntries, hfreeHash, hfreeCmp⟩ := countFree_spec hcounting
  refine ⟨tbl', ?_, hwf', ?_, ?_, ?_⟩
  · rw [insert, hreserve]
    dsimp only
    rw [hprobe]
    dsimp only
    rw [hcount]
    dsimp only
    rw [hfree]
    rfl
  · rw [hfreeEntries, hcountEntries, hplacedEntries, hentries, hhash]
  · exact (hfreeHash.trans hcountHash).trans hhash
  · exact (hfreeCmp.trans hcountCmp).trans hcmp

/-- After an insertion the key is bound to the value and other keys are not
affected. -/
theorem lookup_of_cons (h : tbl.Core) (h' : tbl'.Core) {entry : Entry K V}
    (hentries : tbl'.entries = entry ::ₘ tbl.entries) :
    tbl'.lookup entry.key = some entry.val ∧
      ∀ other, other ≠ entry.key → tbl'.lookup other = tbl.lookup other := by
  refine ⟨(lookup_eq_some_iff h').mpr ⟨entry, ?_, rfl, rfl⟩, fun other hne => ?_⟩
  · rw [hentries]
    exact Multiset.mem_cons_self _ _
  · ext val
    rw [lookup_eq_some_iff h, lookup_eq_some_iff h', Binds, Binds, hentries]
    constructor
    · rintro ⟨found, hfound, hkey, hval⟩
      rcases Multiset.mem_cons.mp hfound with rfl | hfound
      · exact absurd hkey.symm hne
      · exact ⟨found, hfound, hkey, hval⟩
    · rintro ⟨found, hfound, hkey, hval⟩
      exact ⟨found, Multiset.mem_cons_of_mem hfound, hkey, hval⟩

/-! ## Iteration -/

/-- The elements in the slots from `next` on, in slot order. -/
def elementsFrom (tbl : Table K V) (next count : Nat) : List (Entry K V) :=
  (List.range' next count).filterMap fun i => (tbl.arr i).stored

theorem elementsFrom_succ (tbl : Table K V) (next count : Nat) :
    tbl.elementsFrom next (count + 1) =
      ((tbl.arr next).stored).toList ++ tbl.elementsFrom (next + 1) count := by
  rw [elementsFrom, List.range'_succ, List.filterMap_cons]
  cases (tbl.arr next).stored <;> rfl

theorem skip_spec (tbl : Table K V) (fuel i : Nat) :
    ∃ d ≤ fuel, tbl.skip fuel i = i + d ∧
      tbl.elementsFrom i fuel = tbl.elementsFrom (i + d) (fuel - d) ∧
      (d < fuel → tbl.Occ (i + d)) := by
  induction fuel generalizing i with
  | zero => exact ⟨0, le_rfl, rfl, rfl, fun h => by omega⟩
  | succ fuel ih =>
      obtain ⟨d, hd, hskip, hsame, hocc⟩ := ih (i + 1)
      have hmore : ∀ elem, tbl.arr i = elem → elem.stored = none →
          tbl.elementsFrom i (fuel + 1) = tbl.elementsFrom (i + (d + 1)) (fuel + 1 - (d + 1)) := by
        intro elem helem hnone
        rw [elementsFrom_succ, helem, hnone, hsame, show i + 1 + d = i + (d + 1) by omega,
          Nat.add_sub_add_right]
        rfl
      have hnext : i + 1 + d = i + (d + 1) := by omega
      cases helem : tbl.arr i with
      | occupied entry =>
          exact ⟨0, by omega, by rw [skip, helem]; rfl, rfl, fun _ => ⟨entry, helem⟩⟩
      | free =>
          exact ⟨d + 1, by omega, by rw [skip, helem]; exact hskip.trans hnext,
            hmore _ helem rfl, fun h => hnext ▸ hocc (by omega)⟩
      | removed =>
          exact ⟨d + 1, by omega, by rw [skip, helem]; exact hskip.trans hnext,
            hmore _ helem rfl, fun h => hnext ▸ hocc (by omega)⟩

theorem iterLoop_eq (tbl : Table K V) (fuel next : Nat) (hnext : next ≤ tbl.cap)
    (hfuel : tbl.cap - next < fuel) :
    tbl.iterLoop fuel next = tbl.elementsFrom next (tbl.cap - next) := by
  induction fuel generalizing next with
  | zero => omega
  | succ fuel ih =>
      obtain ⟨d, hd, hskip, hsame, hocc⟩ := skip_spec tbl (tbl.cap - next) next
      rw [iterLoop, iterNext, hskip, hsame]
      by_cases hend : d = tbl.cap - next
      · rw [if_pos (by omega), hend, Nat.sub_self]
        rfl
      · obtain ⟨entry, hentry⟩ := hocc (by omega)
        obtain ⟨rest, hrest⟩ : ∃ r, tbl.cap - next - d = r + 1 := ⟨tbl.cap - next - d - 1, by omega⟩
        rw [if_neg (by omega), hentry, hrest, elementsFrom_succ, hentry]
        dsimp only
        rw [ih (next + d + 1) (by omega) (by omega),
          show tbl.cap - (next + d + 1) = rest by omega]
        rfl

/-- An iteration yields the stored elements, each once. -/
theorem coe_iterate (tbl : Table K V) : (tbl.iterate : Multiset (Entry K V)) = tbl.entries := by
  rw [iterate, iterLoop_eq tbl _ _ (Nat.zero_le _) (by omega), elementsFrom, Nat.sub_zero,
    ← List.range_eq_range', coe_filterMap_eq_entries, entries]

theorem mem_iterate {entry : Entry K V} : entry ∈ tbl.iterate ↔ entry ∈ tbl.entries := by
  rw [← Multiset.mem_coe, coe_iterate]

theorem iterate_keys_nodup (h : tbl.Core) : (tbl.iterate.map Entry.key).Nodup := by
  rw [← Multiset.coe_nodup, ← Multiset.map_coe, coe_iterate]
  exact h.nodup

theorem mem_iterate_iff_lookup (h : tbl.Core) {key : K} {val : V} :
    (key, val) ∈ tbl.iterate.map (fun entry => (entry.key, entry.val)) ↔
      tbl.lookup key = some val := by
  rw [lookup_eq_some_iff h, List.mem_map]
  constructor
  · rintro ⟨entry, hentry, heq⟩
    cases heq
    exact ⟨entry, mem_iterate.mp hentry, rfl, rfl⟩
  · rintro ⟨entry, hentry, rfl, rfl⟩
    exact ⟨entry, mem_iterate.mpr hentry, rfl⟩

/-- An iteration sees the bound values. -/
theorem mem_iterate_val (h : tbl.Core) {val : V} :
    val ∈ tbl.iterate.map Entry.val ↔ ∃ key, tbl.lookup key = some val := by
  rw [List.mem_map]
  constructor
  · rintro ⟨entry, hentry, rfl⟩
    exact ⟨entry.key, (lookup_eq_some_iff h).mpr ⟨entry, mem_iterate.mp hentry, rfl, rfl⟩⟩
  · rintro ⟨key, hkey⟩
    obtain ⟨entry, hentry, _, rfl⟩ := (lookup_eq_some_iff h).mp hkey
    exact ⟨entry, mem_iterate.mpr hentry, rfl⟩

/-- Where no two keys share a value, an iteration sees no value twice. -/
theorem iterate_val_nodup (h : tbl.Core)
    (hinj : ∀ key key' val, tbl.lookup key = some val → tbl.lookup key' = some val → key = key') :
    (tbl.iterate.map Entry.val).Nodup := by
  have hkeys := iterate_keys_nodup h
  refine List.Nodup.map_on (fun a ha b hb hval => ?_) hkeys.of_map
  have hlookup : ∀ entry ∈ tbl.iterate, tbl.lookup entry.key = some entry.val := fun entry hentry =>
    (lookup_eq_some_iff h).mpr ⟨entry, mem_iterate.mp hentry, rfl, rfl⟩
  exact List.inj_on_of_nodup_map hkeys ha hb
    (hinj a.key b.key a.val (hlookup a ha) (hval ▸ hlookup b hb))

/-- `dime_table_len` counts the bound keys. -/
theorem len_eq_ncard (h : tbl.Core) : tbl.len = Set.ncard {key | tbl.lookup key ≠ none} := by
  classical
  have hset : {key | tbl.lookup key ≠ none} = ((tbl.iterate.map Entry.key).toFinset : Set K) := by
    ext key
    simp only [Set.mem_ofPred_eq, List.coe_toFinset, List.mem_map, mem_iterate,
      Ne, lookup_eq_none_iff h, not_forall, not_not]
    exact exists_congr fun entry => ⟨fun ⟨hentry, hkey⟩ => ⟨hentry, hkey⟩,
      fun ⟨hentry, hkey⟩ => ⟨hentry, hkey⟩⟩
  rw [hset, Set.ncard_coe_finset, List.toFinset_card_of_nodup (iterate_keys_nodup h),
    List.length_map, h.len, ← coe_iterate, Multiset.coe_card]

/-! ## Sequences of operations -/

/-- A use of a table. -/
inductive Op (K : Type u) (V : Type v) where
  | insert (key : K) (val : V)
  | search (key : K)
  | searchR (key : K)
  | remove (key : K)
  | iterate
  | len

/-- What a use of a table returns; a value `none` is `NULL`. -/
inductive Answer (K : Type u) (V : Type v) where
  | status (code : Int)
  | value (val : Option V)
  | bindings (seen : List (K × V))
  | count (n : Nat)

/-- One use, with growth allocations that succeed; `none` if a loop does not end. -/
def step (tbl : Table K V) : Op K V → Option (Answer K V × Table K V)
  | .insert key val => (tbl.insert true true key val).map fun (code, tbl) => (.status code, tbl)
  | .search key => (tbl.search key).map fun (val, tbl) => (.value val, tbl)
  | .searchR key => (tbl.searchR key).map fun val => (.value val, tbl)
  | .remove key => (tbl.remove key).map fun (val, tbl) => (.value val, tbl)
  | .iterate => some (.bindings (tbl.iterate.map fun entry => (entry.key, entry.val)), tbl)
  | .len => some (.count tbl.len, tbl)

section FiniteMap

variable [DecidableEq K]

/-- Callers insert only keys that are not present. -/
def Pre (m : K → Option V) : Op K V → Prop
  | .insert key _ => m key = none
  | _ => True

/-- The uses of a finite map. -/
inductive MapStep : (K → Option V) → Op K V → Answer K V → (K → Option V) → Prop
  | insert (m : K → Option V) (key : K) (val : V) :
      MapStep m (.insert key val) (.status 0) (Function.update m key (some val))
  | search (m : K → Option V) (key : K) : MapStep m (.search key) (.value (m key)) m
  | searchR (m : K → Option V) (key : K) : MapStep m (.searchR key) (.value (m key)) m
  | remove (m : K → Option V) (key : K) :
      MapStep m (.remove key) (.value (m key)) (Function.update m key none)
  | iterate (m : K → Option V) (seen : List (K × V)) (honce : (seen.map Prod.fst).Nodup)
      (hall : ∀ key val, (key, val) ∈ seen ↔ m key = some val) :
      MapStep m .iterate (.bindings seen) m
  | len (m : K → Option V) : MapStep m .len (.count (Set.ncard {key | m key ≠ none})) m

/-- The table stores the map. -/
def Represents (tbl : Table K V) (m : K → Option V) : Prop :=
  tbl.WF ∧ ∀ key, tbl.lookup key = m key

/-- Every use of a table ends and is answered as the map answers it. -/
theorem step_refines {m : K → Option V} (hrel : Represents tbl m) {op : Op K V}
    (hpre : Pre m op) :
    ∃ answer tbl' m', tbl.step op = some (answer, tbl') ∧ MapStep m op answer m' ∧
      Represents tbl' m' := by
  obtain ⟨h, hlookup⟩ := hrel
  cases op with
  | insert key val =>
      obtain ⟨tbl', hrun, hwf, hentries, -, -⟩ := insert_spec h ((hlookup key).trans hpre) val
      obtain ⟨hnew, hother⟩ := lookup_of_cons h.toCore hwf.toCore hentries
      refine ⟨_, tbl', _, by rw [step, hrun]; rfl, .insert m key val, hwf, fun other => ?_⟩
      rcases eq_or_ne other key with rfl | hne
      · rw [Function.update_self]
        exact hnew
      · rw [Function.update_of_ne hne, ← hlookup]
        exact hother other hne
  | search key =>
      obtain ⟨tbl', hrun, hwf, hentries⟩ := search_spec h key
      refine ⟨_, tbl', m, by rw [step, hrun, hlookup]; rfl, .search m key, hwf, fun other => ?_⟩
      rw [lookup_congr h.toCore hwf.toCore hentries, hlookup]
  | searchR key =>
      exact ⟨_, tbl, m, by rw [step, searchR_spec h, hlookup]; rfl, .searchR m key, h, hlookup⟩
  | remove key =>
      obtain ⟨tbl', hrun, hwf, hgone, hother⟩ := remove_spec h key
      refine ⟨_, tbl', _, by rw [step, hrun, hlookup]; rfl, .remove m key, hwf, fun other => ?_⟩
      rcases eq_or_ne other key with rfl | hne
      · rw [Function.update_self]
        exact hgone
      · rw [Function.update_of_ne hne, ← hlookup]
        exact hother other hne
  | iterate =>
      refine ⟨_, tbl, m, rfl, .iterate m _ ?_ fun key val => ?_, h, hlookup⟩
      · rw [List.map_map]
        exact iterate_keys_nodup h.toCore
      · rw [mem_iterate_iff_lookup h.toCore, hlookup]
  | len =>
      have hlen := len_eq_ncard h.toCore
      simp only [hlookup] at hlen
      exact ⟨_, tbl, m, by rw [step, hlen], .len m, h, hlookup⟩

end FiniteMap

end Table

/-- The hash table refines a finite map: from an initialised table, every
sequence of uses that inserts only absent keys ends, is answered as the map
answers it, and leaves a table in which every key has the map's value. -/
theorem table_refines_map [DecidableEq K] {cmpF : K → K → Int} {hashF : K → Nat}
    (hcmp : ∀ a b, cmpF a b = 0 ↔ a = b) {tbl : Table K V}
    (hinit : Table.init true cmpF hashF = some tbl) (ops : List (Table.Op K V))
    (hops : Refinement.Admissible Table.Pre Table.MapStep (fun _ => none) ops) :
    ∃ answers tbl' m', Refinement.run Table.step tbl ops = some (answers, tbl') ∧
      Refinement.Allowed Table.MapStep (fun _ => none) ops answers m' ∧
      (∀ key, tbl'.searchR key = some (m' key)) ∧
      tbl'.len = Set.ncard {key | m' key ≠ none} := by
  obtain ⟨hwf, hempty⟩ := Table.init_wf hcmp hinit
  have hrel : Table.Represents tbl fun _ => none := by
    refine ⟨hwf, fun key => (Table.lookup_eq_none_iff hwf.toCore).mpr fun entry hentry => ?_⟩
    rw [hempty] at hentry
    exact absurd hentry (Multiset.notMem_zero entry)
  obtain ⟨answers, tbl', m', hrun, hallowed, hwf', hlookup⟩ :=
    Refinement.run_refines (fun _ _ _ hrel hpre => Table.step_refines hrel hpre) ops tbl _ hrel hops
  refine ⟨answers, tbl', m', hrun, hallowed, fun key => ?_, ?_⟩
  · rw [Table.searchR_spec hwf', hlookup]
  · simpa only [hlookup] using Table.len_eq_ncard hwf'.toCore

/-- Colliding keys, one of them removed and searched again. -/
theorem table_refines_map_colliding :
    ∃ answers tbl' m',
      Refinement.run Table.step
        ⟨0, fun a b : Nat => (b : Int) - a, fun _ => 7, fun _ => .free, 32, 0, 32⟩
        [.insert 1 10, .insert 2 20, .remove 1, .search 2, .iterate] = some (answers, tbl') ∧
      Refinement.Allowed Table.MapStep (fun _ => none)
        [.insert 1 10, .insert 2 20, .remove 1, .search 2, .iterate] answers m' ∧
      (∀ key, tbl'.searchR key = some (m' key)) ∧
      tbl'.len = Set.ncard {key : Nat | m' key ≠ (none : Option Nat)} := by
  refine table_refines_map (fun a b => by omega) rfl _ ⟨rfl, fun _ _ h => ?_⟩
  cases h
  refine ⟨rfl, fun _ _ h => ?_⟩
  cases h
  exact ⟨trivial, fun _ _ _ => ⟨trivial, fun _ _ _ => ⟨trivial, fun _ _ _ => trivial⟩⟩⟩

end Dime
