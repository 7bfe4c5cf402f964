import Dime.Server.TableMap
import Dime.Server.TableProbing

/-!
# Tables that could not grow

An insertion goes on after a growth that has failed, until no slot is left. As long as one is,
the count of free slots and the rehash in place keep a slot free and every probe loop ends.
Once the last slot is taken, a search for an absent key goes round for ever.
-/

namespace Dime

universe u v

variable {K : Type u} {V : Type v}

namespace Table

variable {tbl tbl' : Table K V}

/-! ## Loops that end -/

/-- Where the loop of `insert` stops to place an element, it has found a slot without one. -/
theorem insertProbe_some {m : Nat} (hcap : tbl.cap = 2 ^ m) {key : K} {fuel i k j k' : Nat}
    (hi : i < tbl.cap) (hrun : tbl.insertProbe key fuel i k = some (some (j, k'))) :
    j < tbl.cap ∧ ¬ tbl.Occ j := by
  induction fuel generalizing i k with
  | zero => cases hrun
  | succ fuel ih =>
      rw [insertProbe] at hrun
      split at hrun
      next entry hocc =>
        split at hrun
        next => cases hrun
        next => exact ih (mask_lt hcap _) hrun
      next hother =>
        cases hrun
        refine ⟨hi, ?_⟩
        intro hocc
        obtain ⟨entry, hentry⟩ := hocc
        exact hother entry hentry

/-! ## Loops that do not -/

/-- Where every slot is occupied, the loop of `search_r` and `remove` does not end for a key
that is not stored, whatever the number of rounds. -/
theorem findProbe_never {m : Nat} (hcap : tbl.cap = 2 ^ m) {key : K}
    (hfull : ∀ s < tbl.cap, ∃ entry, tbl.arr s = .occupied entry ∧ tbl.cmpF key entry.key ≠ 0)
    (fuel i k : Nat) (hi : i < tbl.cap) : tbl.findProbe key fuel i k = none := by
  induction fuel generalizing i k with
  | zero => rfl
  | succ fuel ih =>
      obtain ⟨entry, hocc, hother⟩ := hfull i hi
      rw [findProbe, hocc]
      dsimp only
      rw [if_neg hother]
      exact ih _ _ (mask_lt hcap _)

/-! ## Counting slots -/

/-- A slot is not both free and occupied. -/
theorem freeCount_add_card_le (tbl : Table K V) : tbl.freeCount + tbl.entries.card ≤ tbl.cap := by
  have hone : ∀ s ∈ Finset.range tbl.cap,
      (tbl.arr s).freeWeight + (tbl.arr s).entries.card ≤ 1 := by
    intro s _
    cases tbl.arr s <;> simp [Elem.freeWeight, Elem.entries]
  rw [freeCount, entries, Multiset.card_sum, ← Finset.sum_add_distrib]
  exact (Finset.sum_le_sum hone).trans (by simp)

theorem exists_free_of_pos (hpos : 0 < tbl.freeCount) : ∃ s < tbl.cap, tbl.arr s = .free := by
  obtain ⟨s, hs, hweight⟩ := Finset.exists_ne_zero_of_sum_ne_zero hpos.ne'
  refine ⟨s, Finset.mem_range.mp hs, ?_⟩
  cases helem : tbl.arr s with
  | free => rfl
  | occupied entry => exact absurd (congrArg Elem.freeWeight helem) hweight
  | removed => exact absurd (congrArg Elem.freeWeight helem) hweight

/-- With as many elements as slots, every slot is occupied. -/
theorem occ_of_card_eq (hcard : tbl.entries.card = tbl.cap) {s : Nat} (hs : s < tbl.cap) :
    tbl.Occ s := by
  by_contra hnot
  have hfree := entries_setElem_of_not_occ hs hnot (show Elem.entries .free = 0 from rfl)
  have hle := (tbl.setElem s .free).freeCount_add_card_le
  have hcount := freeCount_setElem hs .free
  rw [hfree, hcard, setElem_cap] at hle
  have hweight : (tbl.arr s).freeWeight ≤ tbl.freeCount :=
    Finset.single_le_sum (f := fun i => (tbl.arr i).freeWeight) (fun _ _ => Nat.zero_le _)
      (Finset.mem_range.mpr hs)
  have hone : Elem.freeWeight (.free : Elem K V) = 1 := rfl
  omega

/-- The number of elements is right, and the count of free slots, less `w`, is right as well
or errs below the slots that are free, while it calls for no rehash. -/
structure Tallied (tbl : Table K V) (cmpF : K → K → Int) (w : Nat) : Prop where
  cmp : tbl.cmpF = cmpF
  cap_pow : ∃ m, tbl.cap = 2 ^ m
  le_cap : 32 ≤ tbl.cap
  len : tbl.len = tbl.entries.card
  nfree : tbl.nfree = tbl.freeCount + w ∨
    tbl.nfree ≤ tbl.freeCount + w ∧ tbl.cap ≤ tbl.nfree * 2

/-- The invariant: until the last slot is taken, a slot is free. -/
structure Sized (tbl : Table K V) (cmpF : K → K → Int) : Prop extends Tallied tbl cmpF 0 where
  free : tbl.len < tbl.cap → 0 < tbl.freeCount

variable {cmpF : K → K → Int}

/-- No insertion has taken the last slot. -/
def NotFull (tbl : Table K V) : Prop := tbl.len < tbl.cap

theorem Tallied.len_le {w : Nat} (h : tbl.Tallied cmpF w) : tbl.len ≤ tbl.cap :=
  h.len ▸ tbl.card_entries_le

theorem init_sized {hashF : K → Nat} (hinit : init true cmpF hashF = some tbl) :
    tbl.Sized cmpF := by
  cases hinit
  have hcount : freeCount (⟨0, cmpF, hashF, fun _ => .free, 32, 0, 32⟩ : Table K V) = 32 := by
    simp [freeCount, Elem.freeWeight]
  have hentries : Table.entries (⟨0, cmpF, hashF, fun _ => .free, 32, 0, 32⟩ : Table K V) = 0 :=
    Finset.sum_eq_zero fun _ _ => rfl
  refine ⟨⟨rfl, ⟨5, rfl⟩, le_rfl, ?_, .inl ?_⟩, fun _ => ?_⟩
  · rw [hentries]
    rfl
  · rw [hcount]
  · rw [hcount]
    decide

/-- Growing doubles the capacity and counts the free slots anew, or it fails. -/
theorem grow_tallied {w : Nat} (h : tbl.Tallied cmpF w) (realloc : Bool) :
    (realloc = false ∧ tbl.grow realloc = some (false, tbl)) ∨
      ∃ tbl', tbl.grow realloc = some (true, tbl') ∧ tbl'.Tallied cmpF 0 ∧
        tbl'.cap = tbl.cap * 2 ∧ tbl'.len = tbl.len ∧ tbl'.nfree = tbl.cap * 2 - tbl.len := by
  cases realloc with
  | false => exact .inl ⟨rfl, rfl⟩
  | true =>
      right
      obtain ⟨m, hcap⟩ := h.cap_pow
      have hle := h.len_le
      have h32 := h.le_cap
      have hdouble : tbl.double.cap = 2 ^ (m + 1) := by
        change tbl.cap * 2 = _
        rw [hcap, Nat.pow_succ]
      obtain ⟨tbl', hrun, hheader, hentries, -, hunmarked⟩ :=
        pass_spec hdouble double_slots double_covered
      rw [entries_double h.cap_pow] at hentries
      have hcap' : tbl'.cap = tbl.cap * 2 := hheader.cap
      have hlen' : tbl'.len = tbl.len := hheader.len
      have hnfree' : tbl'.nfree = tbl.cap * 2 - tbl.len := hheader.nfree
      -- the pass has left no slot marked removed: those without an element are free
      have hcount := freeCount_add_card hunmarked
      rw [hentries, ← h.len, hcap'] at hcount
      refine ⟨tbl', by rw [grow, if_pos rfl, hrun]; rfl,
        ⟨hheader.cmpF.trans h.cmp, ⟨m + 1, ?_⟩, ?_, ?_, .inl ?_⟩, hcap',
        hlen', hnfree'⟩
      · rw [hcap', hcap, Nat.pow_succ]
      · omega
      · rw [hlen', hentries, h.len]
      · omega

/-- The growth by load ends, and goes on with a free slot or reports a full table. -/
theorem reserve_sized (h : tbl.Sized cmpF) (realloc : Bool) :
    tbl.reserve realloc = some (false, tbl) ∨
      ∃ tbl', tbl.reserve realloc = some (true, tbl') ∧ tbl'.Sized cmpF ∧ tbl'.len < tbl'.cap := by
  have h32 := h.le_cap
  have hle := h.len_le
  have hgrown : ∀ tbl' : Table K V, tbl'.Tallied cmpF 0 → tbl'.cap = tbl.cap * 2 →
      tbl'.len = tbl.len → tbl'.nfree = tbl.cap * 2 - tbl.len →
      tbl'.Sized cmpF ∧ tbl'.len < tbl'.cap := by
    intro tbl' htallied hcap hlen hnfree
    have hcount := htallied.nfree
    exact ⟨⟨htallied, fun _ => by omega⟩, by omega⟩
  rw [reserve]
  rcases grow_tallied h.toTallied realloc with ⟨-, hrun⟩ | ⟨tbl', hrun, htallied, hcap, hlen, hnfree⟩
  · split
    next => exact .inl hrun
    next hroom =>
      refine .inr ⟨tbl, ?_, h, by omega⟩
      split
      · rw [hrun]
        rfl
      · rfl
  · obtain ⟨hsized, hlt⟩ := hgrown tbl' htallied hcap hlen hnfree
    right
    split
    next => exact ⟨tbl', hrun, hsized, hlt⟩
    next hroom =>
      split
      · exact ⟨tbl', by rw [hrun]; rfl, hsized, hlt⟩
      · exact ⟨tbl, rfl, h, by omega⟩

/-! ## What the operations keep -/

/-- Placing an element takes up a slot; its count of free slots comes later. -/
theorem place_tallied (h : tbl.Sized cmpF) (hlt : tbl.len < tbl.cap) {i : Nat} (hi : i < tbl.cap)
    (hocc : ¬ tbl.Occ i) (entry : Entry K V) :
    Tallied { tbl.setElem i (.occupied entry) with len := tbl.len + 1 } cmpF
        (tbl.arr i).freeWeight ∧
      0 < freeCount { tbl.setElem i (.occupied entry) with len := tbl.len + 1 } +
        (tbl.arr i).freeWeight := by
  have hentries : Table.entries { tbl.setElem i (.occupied entry) with len := tbl.len + 1 } =
      entry ::ₘ tbl.entries := entries_setElem_occupied hi hocc entry
  have hcount : freeCount { tbl.setElem i (.occupied entry) with len := tbl.len + 1 } +
      (tbl.arr i).freeWeight = tbl.freeCount := freeCount_setElem hi (.occupied entry)
  refine ⟨⟨h.cmp, h.cap_pow, h.le_cap, ?_, ?_⟩, ?_⟩
  · rw [hentries, Multiset.card_cons, ← h.len]
  · rw [hcount]
    exact h.nfree
  · rw [hcount]
    exact h.free hlt

/-- The growth by collisions ends and keeps the counts. -/
theorem countCollision_tallied {w : Nat} (h : tbl.Tallied cmpF w) (hpos : 0 < tbl.freeCount + w)
    (realloc : Bool) (k : Nat) :
    ∃ tbl', tbl.countCollision realloc k = some tbl' ∧ tbl'.Tallied cmpF w ∧
      0 < tbl'.freeCount + w := by
  rw [countCollision]
  split
  next =>
    dsimp only
    have hcounted : Tallied { tbl with ncollisions := tbl.ncollisions + 1 } cmpF w :=
      ⟨h.cmp, h.cap_pow, h.le_cap, h.len, h.nfree⟩
    split
    next =>
      rcases grow_tallied hcounted realloc with ⟨-, hrun⟩ | ⟨tbl', hrun, htallied, hcap, hlen, hnfree⟩
      · exact ⟨_, by rw [hrun]; rfl, hcounted, hpos⟩
      · have hcount := htallied.nfree
        have hle : tbl.len ≤ tbl.cap := h.len_le
        have h32 := h.le_cap
        dsimp only at hcap hlen hnfree
        refine ⟨tbl', by rw [hrun]; rfl,
          ⟨htallied.cmp, htallied.cap_pow, htallied.le_cap, htallied.len, .inr ⟨?_, ?_⟩⟩, ?_⟩ <;> omega
    next => exact ⟨_, rfl, hcounted, hpos⟩
  next => exact ⟨tbl, rfl, h, hpos⟩

/-- Counting the slot that was filled leaves a slot free, if need be by a rehash in place. -/
theorem countFree_sized {prevuse : Elem K V} (h : tbl.Tallied cmpF prevuse.freeWeight)
    (hpos : 0 < tbl.freeCount + prevuse.freeWeight) :
    ∃ tbl', tbl.countFree prevuse = some tbl' ∧ tbl'.Sized cmpF := by
  cases prevuse with
  | free =>
      have h32 := h.le_cap
      have hcount : tbl.nfree = tbl.freeCount + 1 ∨
          tbl.nfree ≤ tbl.freeCount + 1 ∧ tbl.cap ≤ tbl.nfree * 2 := h.nfree
      have hpred : predSize tbl.nfree = tbl.nfree - 1 := by
        rw [predSize, if_neg (by omega)]
      simp only [countFree, hpred]
      split
      next =>
        obtain ⟨m, hcap⟩ := h.cap_pow
        obtain ⟨tbl', hrun, hheader, hentries, -, hunmarked⟩ :=
          @pass_spec K V { tbl with nfree := tbl.cap - tbl.len } m hcap (List.range tbl.cap)
            (fun s hs => List.mem_range.mp hs) (fun s hs => .inl (List.mem_range.mpr hs))
        have hentries' : tbl'.entries = tbl.entries := hentries
        have hcap' : tbl'.cap = tbl.cap := hheader.cap
        have hlen' : tbl'.len = tbl.len := hheader.len
        have hnfree' : tbl'.nfree = tbl.cap - tbl.len := hheader.nfree
        have hfree := freeCount_add_card hunmarked
        rw [hentries', ← h.len, hcap'] at hfree
        refine ⟨tbl', hrun, ⟨hheader.cmpF.trans h.cmp, ⟨m, hcap' ▸ hcap⟩, hcap' ▸ h32, ?_, .inl ?_⟩, fun _ => ?_⟩
        · rw [hlen', hentries', h.len]
        · omega
        · omega
      next =>
        refine ⟨_, rfl, ⟨h.cmp, h.cap_pow, h.le_cap, h.len, ?_⟩, fun _ => ?_⟩
        · change tbl.nfree - 1 = tbl.freeCount + 0 ∨
            tbl.nfree - 1 ≤ tbl.freeCount + 0 ∧ tbl.cap ≤ (tbl.nfree - 1) * 2
          omega
        · change 0 < tbl.freeCount
          omega
  | occupied entry => exact ⟨tbl, rfl, h, fun _ => hpos⟩
  | removed => exact ⟨tbl, rfl, h, fun _ => hpos⟩

/-- An insertion ends, whichever of its growths fail. -/
theorem insert_sized (h : tbl.Sized cmpF) (reallocLoad reallocColl : Bool) (key : K) (val : V) :
    ∃ code tbl', tbl.insert reallocLoad reallocColl key val = some (code, tbl') ∧ tbl'.Sized cmpF := by
  rw [insert]
  rcases reserve_sized h reallocLoad with hrun | ⟨room, hrun, hsized, hlt⟩
  · rw [hrun]
    exact ⟨-1, tbl, rfl, h⟩
  · rw [hrun]
    dsimp only
    obtain ⟨m, hcap⟩ := hsized.cap_pow
    obtain ⟨s, hs, hfree⟩ := exists_free_of_pos (hsized.free hlt)
    -- the key is probed in every slot, so it comes by the free one
    have hstop : room.InsertStop key s := by
      intro entry hocc
      rw [hfree] at hocc
      cases hocc
    obtain ⟨result, hprobe⟩ := (loopsEnd hcap).insert key ⟨s, hs, hstop⟩
    rw [hprobe]
    cases result with
    | none => exact ⟨-1, room, rfl, hsized⟩
    | some place =>
      obtain ⟨i, k⟩ := place
      obtain ⟨hi, hocc⟩ := insertProbe_some hcap (mask_lt hcap _) hprobe
      dsimp only
      obtain ⟨hplaced, hpos⟩ := place_tallied hsized hlt hi hocc ⟨room.hashF key, key, val⟩
      obtain ⟨counted, hcounted, htallied, hpos'⟩ :=
        countCollision_tallied hplaced hpos reallocColl k
      obtain ⟨tbl', hlast, hsized'⟩ := countFree_sized htallied hpos'
      rw [hcounted]
      dsimp only
      exact ⟨0, tbl', by rw [hlast]; rfl, hsized'⟩

/-- Where the loop of `search_r` and `remove` has found an element. -/
theorem findProbe_some {m : Nat} (hcap : tbl.cap = 2 ^ m) {key : K} {fuel i k j : Nat}
    {entry : Entry K V} (hi : i < tbl.cap)
    (hrun : tbl.findProbe key fuel i k = some (some (j, entry))) :
    j < tbl.cap ∧ tbl.arr j = .occupied entry := by
  induction fuel generalizing i k with
  | zero => cases hrun
  | succ fuel ih =>
      rw [findProbe] at hrun
      split at hrun
      next => cases hrun
      next other hocc =>
        split at hrun
        next =>
          cases hrun
          exact ⟨hi, hocc⟩
        next => exact ih (mask_lt hcap _) hrun
      next => exact ih (mask_lt hcap _) hrun

/-- A removal takes an element off and marks its slot. -/
theorem remove_cases {m : Nat} (hcap : tbl.cap = 2 ^ m) {key : K} {val : Option V}
    (hrun : tbl.remove key = some (val, tbl')) :
    tbl' = tbl ∨ ∃ i entry, i < tbl.cap ∧ tbl.arr i = .occupied entry ∧
      tbl' = { tbl.setElem i .removed with len := predSize tbl.len } := by
  rw [remove, Option.map_eq_some_iff] at hrun
  obtain ⟨found, hfound, heq⟩ := hrun
  cases found with
  | none =>
      cases heq
      exact .inl rfl
  | some found =>
      obtain ⟨i, entry⟩ := found
      cases heq
      obtain ⟨hi, hocc⟩ := findProbe_some hcap (mask_lt hcap _) hfound
      exact .inr ⟨i, entry, hi, hocc, rfl⟩

/-- A search moves an element to a slot that is marked removed, or it changes nothing. -/
theorem searchProbe_cases {m : Nat} (hcap : tbl.cap = 2 ^ m) {key : K} {first fuel i k : Nat}
    {firstavail : Option Nat} {val : Option V} (hi : i < tbl.cap)
    (havail : ∀ a, firstavail = some a → a < tbl.cap ∧ tbl.arr a = .removed)
    (hrun : tbl.searchProbe key first fuel i k firstavail = some (val, tbl')) :
    tbl' = tbl ∨ ∃ a j entry n, a < tbl.cap ∧ j < tbl.cap ∧ tbl.arr a = .removed ∧
      tbl.arr j = .occupied entry ∧
      tbl' = { (tbl.setElem a (.occupied entry)).setElem j .removed with ncollisions := n } := by
  induction fuel generalizing i k firstavail with
  | zero => cases hrun
  | succ fuel ih =>
      rw [searchProbe] at hrun
      split at hrun
      next =>
        cases hrun
        exact .inl rfl
      next entry hocc =>
        split at hrun
        next =>
          split at hrun
          next a =>
            obtain ⟨ha, hremoved⟩ := havail a rfl
            right
            dsimp only at hrun
            split at hrun <;> cases hrun
            · exact ⟨a, i, entry, _, ha, hi, hremoved, hocc, rfl⟩
            · exact ⟨a, i, entry, tbl.ncollisions, ha, hi, hremoved, hocc, rfl⟩
          next =>
            cases hrun
            exact .inl rfl
        next => exact ih (mask_lt hcap _) havail hrun
      next hremoved =>
        refine ih (mask_lt hcap _) (fun a hor => ?_) hrun
        rcases Option.or_eq_some_iff.mp hor with hfirst | ⟨-, hnew⟩
        · exact havail a hfirst
        · cases hnew
          exact ⟨hi, hremoved⟩

theorem remove_sized (h : tbl.Sized cmpF) (hlt : tbl.len < tbl.cap) {key : K} {val : Option V}
    (hrun : tbl.remove key = some (val, tbl')) : tbl'.Sized cmpF := by
  obtain ⟨m, hcap⟩ := h.cap_pow
  rcases remove_cases hcap hrun with rfl | ⟨i, entry, hi, hocc, rfl⟩
  · exact h
  · have hcount := freeCount_setElem hi .removed
    have hsplit := entries_setElem_free hi hocc (show Elem.entries .removed = 0 from rfl)
    have hcard := h.len
    rw [hocc] at hcount
    rw [← hsplit, Multiset.card_cons] at hcard
    have hsame : (tbl.setElem i .removed).freeCount = tbl.freeCount := hcount
    refine ⟨⟨h.cmp, h.cap_pow, h.le_cap, ?_, ?_⟩, fun _ => ?_⟩
    · change predSize tbl.len = (tbl.setElem i .removed).entries.card
      rw [predSize, if_neg (by omega)]
      omega
    · change tbl.nfree = (tbl.setElem i .removed).freeCount + 0 ∨ _ ≤ (tbl.setElem i .removed).freeCount + 0 ∧ _
      rw [hsame]
      exact h.nfree
    · change 0 < (tbl.setElem i .removed).freeCount
      rw [hsame]
      exact h.free hlt

theorem search_sized (h : tbl.Sized cmpF) {key : K} {val : Option V}
    (hrun : tbl.search key = some (val, tbl')) : tbl'.Sized cmpF := by
  obtain ⟨m, hcap⟩ := h.cap_pow
  rcases searchProbe_cases hcap (mask_lt hcap _) (by simp) hrun with
    rfl | ⟨a, i, entry, n, ha, hi, hremoved, hocc, rfl⟩
  · exact h
  -- the element takes a removed slot and leaves one, so neither sum changes
  · obtain ⟨hentries, hcount⟩ := move_sums ha hi hremoved hocc
    refine ⟨⟨h.cmp, h.cap_pow, h.le_cap, h.len.trans (congrArg Multiset.card hentries.symm), ?_⟩,
      fun hlt => ?_⟩
    · exact hcount ▸ h.nfree
    · exact hcount ▸ h.free hlt

/-! ## Sequences of operations -/

/-- A use of a table whose growths may fail: `reallocLoad` and `reallocColl` say whether those
of an insertion succeed, should they be needed. -/
inductive Attempt (K : Type u) (V : Type v) where
  | insert (reallocLoad reallocColl : Bool) (key : K) (val : V)
  | search (key : K)
  | searchR (key : K)
  | remove (key : K)

/-- One use; `none` if a loop does not end. -/
def attempt (tbl : Table K V) : Attempt K V → Option (Answer K V × Table K V)
  | .insert reallocLoad reallocColl key val =>
      (tbl.insert reallocLoad reallocColl key val).map fun (code, tbl) => (.status code, tbl)
  | .search key => (tbl.search key).map fun (val, tbl) => (.value val, tbl)
  | .searchR key => (tbl.searchR key).map fun val => (.value val, tbl)
  | .remove key => (tbl.remove key).map fun (val, tbl) => (.value val, tbl)

/-- Every loop ends for every key: for some number of rounds in `search`, and in `search_r` and
`remove`, which share theirs; `insert` has more loops than one. -/
structure Ends (tbl : Table K V) : Prop where
  search : ∀ key, ∃ rounds, tbl.searchProbe key (tbl.mask (tbl.hashF key)) rounds
    (tbl.mask (tbl.hashF key)) 1 none ≠ none
  find : ∀ key, ∃ rounds, tbl.findProbe key rounds (tbl.mask (tbl.hashF key)) 1 ≠ none
  insert : ∀ reallocLoad reallocColl key val, tbl.insert reallocLoad reallocColl key val ≠ none

theorem attempt_sized (h : tbl.Sized cmpF) (hlt : tbl.len < tbl.cap) {op : Attempt K V}
    {answer : Answer K V} (hrun : tbl.attempt op = some (answer, tbl')) : tbl'.Sized cmpF := by
  cases op with
  | insert reallocLoad reallocColl key val =>
      obtain ⟨code, after, hinsert, hsized⟩ := insert_sized h reallocLoad reallocColl key val
      rw [attempt, hinsert] at hrun
      cases hrun
      exact hsized
  | search key =>
      obtain ⟨⟨val, after⟩, hsearch, heq⟩ := Option.map_eq_some_iff.mp hrun
      cases heq
      exact search_sized h hsearch
  | searchR key =>
      obtain ⟨val, -, heq⟩ := Option.map_eq_some_iff.mp hrun
      cases heq
      exact h
  | remove key =>
      obtain ⟨⟨val, after⟩, hremove, heq⟩ := Option.map_eq_some_iff.mp hrun
      cases heq
      exact remove_sized h hlt hremove

/-- With a free slot, every loop ends. -/
theorem ends_of_notFull (h : tbl.Sized cmpF) (hlt : tbl.NotFull) : tbl.Ends := by
  obtain ⟨m, hcap⟩ := h.cap_pow
  obtain ⟨s, hs, hfree⟩ := exists_free_of_pos (h.free hlt)
  have hstop : ∀ key, ∃ s < tbl.cap, tbl.SearchStop key s := fun key => ⟨s, hs, .inl hfree⟩
  refine ⟨fun key => ⟨tbl.cap, ?_⟩, fun key => ⟨tbl.cap, ?_⟩, ?_⟩
  · obtain ⟨result, hresult⟩ := (loopsEnd hcap).search key (hstop key)
    exact Option.ne_none_iff_exists'.mpr ⟨result, hresult⟩
  · obtain ⟨result, hresult⟩ := (loopsEnd hcap).searchR key (hstop key)
    obtain ⟨found, hfound, -⟩ := Option.map_eq_some_iff.mp hresult
    exact Option.ne_none_iff_exists'.mpr ⟨found, hfound⟩
  · intro reallocLoad reallocColl key val
    obtain ⟨code, after, hinsert, -⟩ := insert_sized h reallocLoad reallocColl key val
    rw [hinsert]
    simp

/-- Without one, the loops do not end for a key that is not stored. -/
theorem notFull_of_ends (h : tbl.Sized cmpF)
    (hkeys : ∀ stored : List K, ∃ key, ∀ other ∈ stored, cmpF key other ≠ 0)
    (hends : tbl.Ends) : tbl.NotFull := by
  obtain ⟨m, hcap⟩ := h.cap_pow
  by_contra hfull
  have hcard : tbl.entries.card = tbl.cap := by
    have hle := h.len_le
    rw [NotFull] at hfull
    rw [← h.len]
    omega
  -- every slot is occupied, so a key that is not stored is looked for without end
  obtain ⟨key, hother⟩ := hkeys (tbl.entries.map Entry.key).toList
  obtain ⟨rounds, hrun⟩ := hends.find key
  refine hrun (findProbe_never hcap (fun s hs => ?_) rounds _ 1 (mask_lt hcap _))
  obtain ⟨entry, hocc⟩ := occ_of_card_eq hcard hs
  have hmem : entry ∈ tbl.entries := mem_entries.mpr ⟨s, hs, hocc⟩
  exact ⟨entry, hocc, h.cmp ▸ hother entry.key
    (Multiset.mem_toList.mpr (Multiset.mem_map_of_mem Entry.key hmem))⟩

end Table

/-- The loops of a table end in every state of a run if no insertion of the run takes the last
slot of its table, and only then where there is always one more key. -/
theorem table_ends_iff (cmpF : K → K → Int) (hashF : K → Nat) (ops : List (Table.Attempt K V)) :
    ∃ start, Table.init true cmpF hashF = some start ∧
      (Refinement.Always Table.attempt Table.NotFull start ops →
        Refinement.Always Table.attempt Table.Ends start ops) ∧
      ((∀ stored : List K, ∃ key, ∀ other ∈ stored, cmpF key other ≠ 0) →
        Refinement.Always Table.attempt Table.Ends start ops →
          Refinement.Always Table.attempt Table.NotFull start ops) := by
  obtain ⟨start, hinit⟩ : ∃ start : Table K V, Table.init true cmpF hashF = some start :=
    ⟨_, rfl⟩
  have hsized := Table.init_sized hinit
  refine ⟨start, hinit, fun h => ?_, fun hkeys h => ?_⟩
  · exact h.imp (fun _ => Table.ends_of_notFull)
      (fun _ _ _ _ hsized hlt hrun => Table.attempt_sized hsized hlt hrun) hsized
  · exact h.imp (fun _ hsized => Table.notFull_of_ends hsized hkeys)
      (fun _ _ _ _ hsized hends hrun =>
        Table.attempt_sized hsized (Table.notFull_of_ends hsized hkeys hends) hrun) hsized

/-- Thirty-two insertions none of whose growths succeeds fill the first array, and a search for
another key goes round for ever. -/
theorem table_search_hangs :
    ¬ ∃ start, Table.init true (fun a b : Nat => (b : Int) - a) id = some start ∧
      Refinement.Always Table.attempt Table.Ends start
        ((List.range 32).map fun key => .insert false false key ()) := by
  rintro ⟨start, hinit, halways⟩
  cases hinit
  -- the run is computed once: the capacity stays, and no slot is without another key
  have hseen : (Refinement.run Table.attempt
      ⟨0, fun a b : Nat => (b : Int) - a, id, fun _ => .free, 32, 0, 32⟩
      ((List.range 32).map fun key => .insert false false key ())).map (fun run =>
        (run.2.cap, (List.range 32).all fun s => (run.2.arr s).stored.any fun entry =>
          run.2.cmpF 32 entry.key ≠ 0)) = some (32, true) := by decide +kernel
  obtain ⟨⟨answers, tbl⟩, hrun, heq⟩ := Option.map_eq_some_iff.mp hseen
  obtain ⟨hcap, hall⟩ := Prod.mk.inj heq
  dsimp only at hcap hall
  obtain ⟨rounds, hends⟩ := (halways.final hrun).find 32
  refine hends (Table.findProbe_never (m := 5) hcap (fun s hs => ?_) rounds _ 1
    (Table.mask_lt (m := 5) hcap _))
  have hslot := List.all_eq_true.mp hall s (List.mem_range.mpr (hcap ▸ hs))
  obtain ⟨entry, hstored, hother⟩ := (Option.any_eq_true _ _).mp hslot
  refine ⟨entry, ?_, by simpa using hother⟩
  cases helem : tbl.arr s with
  | free => simp [helem, Elem.stored] at hstored
  | occupied other =>
      rw [helem] at hstored
      cases hstored
      rfl
  | removed => simp [helem, Elem.stored] at hstored

end Dime
