import Dime.Server.TableMap

/-!
# Inserting keys that are present

The loop of `dime_table_insert` ends at the first slot that holds no element, also if that
slot is marked removed and the key is stored behind it. A present key is refused exactly if
no such slot comes before it, or if the table grows first, which clears the marks.
-/

namespace Dime

universe u v

variable {K : Type u} {V : Type v}

namespace Table

variable {tbl tbl' : Table K V} {key : K}

/-- No two occupied slots hold equal keys. -/
def Distinct (tbl : Table K V) : Prop :=
  ∀ i < tbl.cap, ∀ j < tbl.cap, ∀ a b, tbl.arr i = .occupied a → tbl.arr j = .occupied b →
    a.key = b.key → i = j

/-- `insert` ends, with `-1` and the same bindings if the key is present and with `0` if it
is not. -/
def Refuses (tbl : Table K V) (key : K) (val : V) : Prop :=
  ∃ code tbl', tbl.insert true true key val = some (code, tbl') ∧
    ((∃ old, tbl.Binds key old) →
      code = -1 ∧ ∀ other old, tbl'.Binds other old ↔ tbl.Binds other old) ∧
    ((∀ old, ¬ tbl.Binds key old) → code = 0)

/-- The table grows before it is probed, or no slot that is probed before the one with the
key is marked removed. -/
def Exposed (tbl : Table K V) (key : K) : Prop :=
  tbl.cap < tbl.len * 2 ∨
    ∀ n < tbl.cap, ∀ entry, tbl.arr (tbl.keySlot key n) = .occupied entry → entry.key = key →
      ∀ j < n, tbl.arr (tbl.keySlot key j) ≠ .removed

/-! ## One insertion -/

/-- The growth by load, if there is one, leaves no slot marked removed. -/
theorem reserve_cases (h : tbl.WF) :
    tbl.len * 2 ≤ tbl.cap ∧ tbl.reserve true = some (true, tbl) ∨
    tbl.cap < tbl.len * 2 ∧ ∃ tbl', tbl.reserve true = some (true, tbl') ∧ Unmarked tbl' := by
  obtain ⟨tbl', hrun, -, -, -, -, -, -, -, -, -, hunmarked⟩ := grow_spec h.toCore
  rw [reserve_eq h]
  split
  next hload => exact .inr ⟨hload, tbl', hrun, hunmarked⟩
  next hload => exact .inl ⟨by omega, rfl⟩

theorem binds_iff_of_entries (hentries : tbl'.entries = tbl.entries) (key : K) (val : V) :
    tbl'.Binds key val ↔ tbl.Binds key val := by
  rw [Binds, Binds, hentries]

theorem not_binds_iff : (∀ old, ¬ tbl.Binds key old) ↔ ∀ entry ∈ tbl.entries, entry.key ≠ key := by
  constructor
  · intro h entry hentry hkey
    exact h entry.val ⟨entry, hentry, hkey, rfl⟩
  · rintro h old ⟨entry, hentry, hkey, rfl⟩
    exact h entry hentry hkey

/-- The slots before a present key, if none is marked removed, hold other keys. -/
theorem insertProbe_exposed (h : tbl.WF) {entry : Entry K V} (hentry : entry ∈ tbl.entries)
    (hunmarked : ∀ n < tbl.cap, ∀ other, tbl.arr (tbl.keySlot entry.key n) = .occupied other →
      other.key = entry.key → ∀ j < n, tbl.arr (tbl.keySlot entry.key j) ≠ .removed) :
    tbl.insertProbe entry.key tbl.cap (tbl.mask (tbl.hashF entry.key)) 1 = some none := by
  obtain ⟨n, hn, hocc, hpass⟩ := probe_found h hentry
  refine insertProbe_meets h.toCore hn (fun j hj => ?_) hocc rfl
  obtain ⟨hnotfree, hother⟩ := hpass j hj
  cases helem : tbl.arr (tbl.keySlot entry.key j) with
  | free => exact absurd helem hnotfree
  | removed => exact absurd helem (hunmarked n hn entry hocc rfl j hj)
  | occupied other => exact ⟨other, rfl, hother other helem⟩

/-- With a slot marked removed before a present key, the probe stops on the way. -/
theorem insertProbe_hidden (h : tbl.WF) {entry : Entry K V} {n j : Nat} (hn : n < tbl.cap)
    (hocc : tbl.arr (tbl.keySlot entry.key n) = .occupied entry) (hj : j < n)
    (hremoved : tbl.arr (tbl.keySlot entry.key j) = .removed) :
    ∃ stop, tbl.insertProbe entry.key tbl.cap (tbl.mask (tbl.hashF entry.key)) 1 =
      some (some stop) := by
  classical
  have hexists : ∃ i, ¬ tbl.Occ (tbl.keySlot entry.key i) :=
    ⟨j, (not_occ_iff tbl _).mpr (.inr hremoved)⟩
  have hle : Nat.find hexists ≤ j := Nat.find_min' hexists ((not_occ_iff tbl _).mpr (.inr hremoved))
  refine ⟨_, insertProbe_stops h.toCore (by omega) (fun i hi => ?_) (Nat.find_spec hexists)⟩
  obtain ⟨other, hother⟩ := not_not.mp (Nat.find_min hexists hi)
  refine ⟨other, hother, fun hkey => ?_⟩
  -- the key is stored once, and further on
  have hsame := slot_unique h.toCore (keySlot_lt h.toCore _ _) (keySlot_lt h.toCore _ _) hother
    hocc hkey
  have := keySlot_inj h.toCore (by omega) hn hsame
  omega

/-- An insertion of a present key that is met. -/
theorem insert_met (h : tbl.WF) {old : V} (hbinds : tbl.Binds key old)
    (hexposed : tbl.Exposed key) (val : V) :
    ∃ tbl', tbl.insert true true key val = some (-1, tbl') ∧ tbl'.WF ∧
      tbl'.entries = tbl.entries := by
  obtain ⟨entry, hentry, rfl, -⟩ := hbinds
  obtain ⟨roomy, hreserve, hwf, hentries, -, hhash, -, -⟩ := reserve_spec h
  have hprobe : roomy.insertProbe entry.key roomy.cap (roomy.mask (roomy.hashF entry.key)) 1 =
      some none := by
    refine insertProbe_exposed hwf (hentries ▸ hentry) ?_
    rcases reserve_cases h with ⟨hload, hsame⟩ | ⟨-, grown, hgrown, hunmarked⟩
    · rw [hsame] at hreserve
      cases hreserve
      rcases hexposed with hgrows | hexposed
      · omega
      · exact hexposed
    · rw [hgrown] at hreserve
      cases hreserve
      exact fun _ _ _ _ _ j _ => hunmarked _ (keySlot_lt hwf.toCore _ j)
  refine ⟨roomy, ?_, hwf, hentries⟩
  rw [insert, hreserve]
  dsimp only
  rw [hprobe]

/-- An insertion of a present key that is not met does not return `-1`. -/
theorem insert_unmet (h : tbl.WF) (hhidden : ¬ tbl.Exposed key) {code : Int} {val : V}
    (hrun : tbl.insert true true key val = some (code, tbl')) :
    (∃ old, tbl.Binds key old) ∧ code = 0 := by
  rw [Exposed, not_or] at hhidden
  obtain ⟨hload, hhidden⟩ := hhidden
  push Not at hhidden
  obtain ⟨n, hn, entry, hocc, rfl, j, hj, hremoved⟩ := hhidden
  refine ⟨⟨entry.val, entry, mem_entries.mpr ⟨_, keySlot_lt h.toCore _ _, hocc⟩, rfl, rfl⟩, ?_⟩
  obtain ⟨⟨i, k⟩, hstop⟩ := insertProbe_hidden h hn hocc hj hremoved
  rcases reserve_cases h with ⟨-, hreserve⟩ | ⟨hgrows, -⟩
  · rw [insert, hreserve] at hrun
    dsimp only at hrun
    rw [hstop] at hrun
    dsimp only at hrun
    split at hrun
    next => cases hrun
    next counted _ =>
      obtain ⟨last, -, heq⟩ := Option.map_eq_some_iff.mp hrun
      exact (congrArg Prod.fst heq).symm
  · exact absurd hgrows hload

theorem refuses_iff (h : tbl.WF) (key : K) (val : V) : tbl.Refuses key val ↔ tbl.Exposed key := by
  constructor
  · rintro ⟨code, tbl', hrun, hpresent, -⟩
    by_contra hhidden
    obtain ⟨hbinds, hcode⟩ := insert_unmet h hhidden hrun
    have hrefused := (hpresent hbinds).1
    omega
  · intro hexposed
    by_cases hpresent : ∃ old, tbl.Binds key old
    · obtain ⟨old, hbinds⟩ := hpresent
      obtain ⟨tbl', hrun, -, hentries⟩ := insert_met h hbinds hexposed val
      exact ⟨-1, tbl', hrun, fun _ => ⟨rfl, binds_iff_of_entries hentries⟩,
        fun habsent => absurd hbinds (habsent old)⟩
    · have habsent := not_binds_iff.mp (not_exists.mp hpresent)
      obtain ⟨tbl', hrun, -⟩ := insert_spec h ((lookup_eq_none_iff h.toCore).mpr habsent) val
      exact ⟨0, tbl', hrun, fun hbinds => absurd hbinds hpresent, fun _ => rfl⟩

/-! ## Sequences of operations -/

/-- In every table that the operations lead to, no key is stored twice, and insertions refuse
the keys that are present. -/
def AlwaysRefuses : Table K V → List (Op K V) → Prop
  | tbl, [] => tbl.Distinct
  | tbl, op :: ops =>
      tbl.Distinct ∧ (∀ key val, op = .insert key val → tbl.Refuses key val) ∧
        ∃ answer tbl', tbl.step op = some (answer, tbl') ∧ AlwaysRefuses tbl' ops

/-- Every key that is inserted is exposed at that time. -/
def AlwaysExposed : Table K V → List (Op K V) → Prop
  | _, [] => True
  | tbl, op :: ops =>
      (∀ key val, op = .insert key val → tbl.Exposed key) ∧
        ∀ answer tbl', tbl.step op = some (answer, tbl') → AlwaysExposed tbl' ops

theorem WF.distinct (h : tbl.WF) : tbl.Distinct :=
  fun _ hi _ hj _ _ ha hb hkey => slot_unique h.toCore hi hj ha hb hkey

/-- An operation that inserts no hidden key keeps the invariant. -/
theorem step_wf (h : tbl.WF) {op : Op K V}
    (hexposed : ∀ key val, op = .insert key val → tbl.Exposed key) :
    ∃ answer tbl', tbl.step op = some (answer, tbl') ∧ tbl'.WF := by
  cases op with
  | insert key val =>
      by_cases hpresent : ∃ old, tbl.Binds key old
      · obtain ⟨old, hbinds⟩ := hpresent
        obtain ⟨tbl', hrun, hwf, -⟩ := insert_met h hbinds (hexposed key val rfl) val
        exact ⟨_, tbl', by rw [step, hrun]; rfl, hwf⟩
      · have habsent := not_binds_iff.mp (not_exists.mp hpresent)
        obtain ⟨tbl', hrun, hwf, -⟩ :=
          insert_spec h ((lookup_eq_none_iff h.toCore).mpr habsent) val
        exact ⟨_, tbl', by rw [step, hrun]; rfl, hwf⟩
  | search key =>
      obtain ⟨tbl', hrun, hwf, -⟩ := search_spec h key
      exact ⟨_, tbl', by rw [step, hrun]; rfl, hwf⟩
  | searchR key => exact ⟨_, tbl, by rw [step, searchR_spec h]; rfl, h⟩
  | remove key =>
      obtain ⟨tbl', hrun, hwf, -⟩ := remove_spec h key
      exact ⟨_, tbl', by rw [step, hrun]; rfl, hwf⟩
  | iterate => exact ⟨_, tbl, rfl, h⟩
  | len => exact ⟨_, tbl, rfl, h⟩

end Table

/-- From an initialised table, insertions refuse the keys that are present, and no key is ever
stored twice, exactly if no present key is inserted while it is hidden behind a removed slot. -/
theorem insert_refuses_iff {cmpF : K → K → Int} {hashF : K → Nat}
    (hcmp : ∀ a b, cmpF a b = 0 ↔ a = b) {tbl : Table K V}
    (hinit : Table.init true cmpF hashF = some tbl) (ops : List (Table.Op K V)) :
    tbl.AlwaysRefuses ops ↔ tbl.AlwaysExposed ops := by
  have hwf : tbl.WF := (Table.init_wf hcmp hinit).1
  clear hinit
  induction ops generalizing tbl with
  | nil => exact iff_of_true hwf.distinct trivial
  | cons op ops ih =>
      constructor
      · rintro ⟨-, hrefuses, answer, tbl', hstep, hrest⟩
        have hexposed : ∀ key val, op = .insert key val → tbl.Exposed key :=
          fun key val hop => (Table.refuses_iff hwf key val).mp (hrefuses key val hop)
        refine ⟨hexposed, fun answer' other hother => ?_⟩
        obtain ⟨_, next, hnext, hwf'⟩ := Table.step_wf hwf hexposed
        rw [hnext] at hstep hother
        cases hstep
        cases hother
        exact (ih hwf').mp hrest
      · rintro ⟨hexposed, hrest⟩
        obtain ⟨answer, tbl', hstep, hwf'⟩ := Table.step_wf hwf hexposed
        exact ⟨hwf.distinct, fun key val hop => (Table.refuses_iff hwf key val).mpr
          (hexposed key val hop), answer, tbl', hstep, (ih hwf').mpr (hrest answer tbl' hstep)⟩

/-- An empty table of numbers in which all keys collide. -/
def colliding : Table Nat Nat := ⟨0, fun a b => (b : Int) - a, fun _ => 7, fun _ => .free, 32, 0, 32⟩

/-- A key that is inserted again before a colliding one has been removed. -/
theorem insert_refuses_iff_colliding :
    colliding.AlwaysRefuses [.insert 1 10, .insert 2 20, .insert 2 30, .remove 1] ↔
      colliding.AlwaysExposed [.insert 1 10, .insert 2 20, .insert 2 30, .remove 1] :=
  insert_refuses_iff (fun a b => by omega) rfl _

/-- Once the colliding key has been removed, the other one is stored a second time. -/
theorem insert_stores_twice :
    ¬ colliding.AlwaysRefuses [.insert 1 10, .insert 2 20, .remove 1, .insert 2 30] := by
  rintro ⟨-, -, a₁, t₁, h₁, -, -, a₂, t₂, h₂, -, -, a₃, t₃, h₃, -, hrefuses, -⟩
  have hrun : Refinement.run Table.step colliding [.insert 1 10, .insert 2 20, .remove 1] =
      some ([a₁, a₂, a₃], t₃) := by
    simp [Refinement.run, h₁, h₂, h₃]
  have hstored : (Refinement.run Table.step colliding
      [.insert 1 10, .insert 2 20, .remove 1]).any (fun result =>
        result.2.cap == 64 &&
        (result.2.arr 8).stored.any (fun entry => entry.key == 2) &&
        (result.2.insert true true 2 30).any fun answer => answer.1 == 0) = true := by
    decide +kernel
  rw [hrun, Option.any_some, Bool.and_eq_true, Bool.and_eq_true] at hstored
  obtain ⟨⟨hcap, hkey⟩, hcode⟩ := hstored
  obtain ⟨code, tbl', hinsert, hpresent, -⟩ := hrefuses 2 30 rfl
  have hbinds : ∃ old, t₃.Binds 2 old := by
    cases hocc : t₃.arr 8 with
    | free => simp [hocc, Elem.stored] at hkey
    | removed => simp [hocc, Elem.stored] at hkey
    | occupied entry =>
        have hentry : entry ∈ t₃.entries :=
          Table.mem_entries.mpr ⟨8, by rw [eq_of_beq hcap]; decide, hocc⟩
        exact ⟨entry.val, entry, hentry, by simpa [hocc, Elem.stored] using hkey, rfl⟩
  rw [hinsert, (hpresent hbinds).1] at hcode
  simp at hcode

end Dime
