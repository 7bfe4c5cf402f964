import Dime.Server.TableTermination

/-!
# What a table holds

The effect of the operations on the elements of a table of which nothing is known but that
its capacity is a power of two: whatever its counters say, and whichever growths fail. A loop
that does not end is left out.
-/

namespace Dime

universe u v

namespace Table

variable {K : Type u} {V : Type v} {tbl tbl' : Table K V}

/-- The elements are the same, and can still be probed for. -/
structure SameContents (tbl tbl' : Table K V) : Prop where
  cap_pow : ∃ m, tbl'.cap = 2 ^ m
  cmpF : tbl'.cmpF = tbl.cmpF
  entries : tbl'.entries = tbl.entries

theorem SameContents.refl (h : ∃ m, tbl.cap = 2 ^ m) : SameContents tbl tbl := ⟨h, rfl, rfl⟩

theorem SameContents.trans {tbl'' : Table K V} (h : SameContents tbl tbl')
    (h' : SameContents tbl' tbl'') : SameContents tbl tbl'' :=
  ⟨h'.cap_pow, h'.cmpF.trans h.cmpF, h'.entries.trans h.entries⟩

theorem grow_contents (h : ∃ m, tbl.cap = 2 ^ m) {realloc ok : Bool}
    (hrun : tbl.grow realloc = some (ok, tbl')) : SameContents tbl tbl' := by
  cases realloc with
  | false =>
      cases hrun
      exact .refl h
  | true =>
      obtain ⟨m, hcap⟩ := h
      have hdouble : tbl.double.cap = 2 ^ (m + 1) := by
        change tbl.cap * 2 = _
        rw [hcap, Nat.pow_succ]
      obtain ⟨after, hpass, hheader, hentries, -⟩ := pass_spec hdouble double_slots double_covered
      rw [grow, if_pos rfl, hpass] at hrun
      cases hrun
      exact ⟨⟨m + 1, hheader.cap.trans hdouble⟩, hheader.cmpF, hentries.trans (entries_double ⟨m, hcap⟩)⟩

theorem reserve_contents (h : ∃ m, tbl.cap = 2 ^ m) {realloc ok : Bool}
    (hrun : tbl.reserve realloc = some (ok, tbl')) : SameContents tbl tbl' := by
  rw [reserve] at hrun
  split at hrun
  · exact grow_contents h hrun
  split at hrun
  · obtain ⟨grown, hgrow, heq⟩ := Option.map_eq_some_iff.mp hrun
    cases heq
    exact grow_contents h hgrow
  · cases hrun
    exact .refl h

theorem countCollision_contents (h : ∃ m, tbl.cap = 2 ^ m) {realloc : Bool} {k : Nat}
    (hrun : tbl.countCollision realloc k = some tbl') : SameContents tbl tbl' := by
  rw [countCollision] at hrun
  split at hrun
  · dsimp only at hrun
    split at hrun
    · obtain ⟨grown, hgrow, rfl⟩ := Option.map_eq_some_iff.mp hrun
      have hgrown : SameContents { tbl with ncollisions := tbl.ncollisions + 1 } grown.2 :=
        grow_contents h hgrow
      exact ⟨hgrown.cap_pow, hgrown.cmpF, hgrown.entries⟩
    · cases hrun
      exact ⟨h, rfl, rfl⟩
  · cases hrun
    exact .refl h

theorem countFree_contents (h : ∃ m, tbl.cap = 2 ^ m) {prevuse : Elem K V}
    (hrun : tbl.countFree prevuse = some tbl') : SameContents tbl tbl' := by
  cases prevuse with
  | free =>
      rw [countFree] at hrun
      dsimp only at hrun
      split at hrun
      · obtain ⟨m, hcap⟩ := h
        obtain ⟨after, hpass, hheader, hentries, -⟩ := pass_spec
          (show ({ tbl with nfree := tbl.cap - tbl.len } : Table K V).cap = 2 ^ m from hcap)
          (fun s (hs : s ∈ List.range tbl.cap) => List.mem_range.mp hs)
          (fun s hs => .inl (List.mem_range.mpr hs))
        rw [hpass] at hrun
        cases hrun
        exact ⟨⟨m, hheader.cap.trans hcap⟩, hheader.cmpF, hentries⟩
      · cases hrun
        exact ⟨h, rfl, rfl⟩
  | occupied _ =>
      cases hrun
      exact .refl h
  | removed =>
      cases hrun
      exact .refl h

/-- An insertion adds the element and returns zero, or returns `-1`. -/
theorem insert_contents (h : ∃ m, tbl.cap = 2 ^ m) {reallocLoad reallocColl : Bool} {key : K} {val : V}
    {code : Int} (hrun : tbl.insert reallocLoad reallocColl key val = some (code, tbl')) :
    (∃ m, tbl'.cap = 2 ^ m) ∧ tbl'.cmpF = tbl.cmpF ∧
      (code < 0 ∧ tbl'.entries = tbl.entries ∨
        code = 0 ∧ ∃ hash, tbl'.entries = ⟨hash, key, val⟩ ::ₘ tbl.entries) := by
  rw [insert] at hrun
  cases hreserve : tbl.reserve reallocLoad with
  | none =>
      rw [hreserve] at hrun
      cases hrun
  | some room =>
      obtain ⟨ok, room⟩ := room
      have hroom := reserve_contents h hreserve
      obtain ⟨m, hcap⟩ := hroom.cap_pow
      rw [hreserve] at hrun
      cases ok with
      | false =>
          cases hrun
          exact ⟨⟨m, hcap⟩, hroom.cmpF, .inl ⟨by decide, hroom.entries⟩⟩
      | true =>
          dsimp only at hrun
          split at hrun
          next => cases hrun
          next =>
            cases hrun
            exact ⟨⟨m, hcap⟩, hroom.cmpF, .inl ⟨by decide, hroom.entries⟩⟩
          next i k hprobe =>
            obtain ⟨hi, hocc⟩ := insertProbe_some hcap (mask_lt hcap _) hprobe
            have hplaced := entries_setElem_occupied hi hocc ⟨room.hashF key, key, val⟩
            split at hrun
            next => cases hrun
            next counted hcounted =>
              obtain ⟨final, hfinal, heq⟩ := Option.map_eq_some_iff.mp hrun
              cases heq
              have hcount : SameContents { room.setElem i (.occupied ⟨room.hashF key, key, val⟩) with
                  len := room.len + 1 } counted := countCollision_contents ⟨m, hcap⟩ hcounted
              have hall := hcount.trans (countFree_contents hcount.cap_pow hfinal)
              refine ⟨hall.cap_pow, hall.cmpF.trans hroom.cmpF, .inr ⟨rfl, room.hashF key, ?_⟩⟩
              exact hall.entries.trans (hplaced.trans (congrArg _ hroom.entries))

theorem searchProbe_value {m : Nat} (hcap : tbl.cap = 2 ^ m) {key : K} {first fuel i k : Nat}
    {firstavail : Option Nat} {val : V} (hi : i < tbl.cap)
    (hrun : tbl.searchProbe key first fuel i k firstavail = some (some val, tbl')) :
    ∃ entry ∈ tbl.entries, tbl.cmpF key entry.key = 0 ∧ entry.val = val := by
  induction fuel generalizing i k firstavail with
  | zero => cases hrun
  | succ fuel ih =>
      rw [searchProbe] at hrun
      split at hrun
      next => cases hrun
      next entry hocc =>
        split at hrun
        next hcmp =>
          refine ⟨entry, mem_entries.mpr ⟨i, hi, hocc⟩, hcmp, ?_⟩
          split at hrun <;> cases hrun <;> rfl
        next => exact ih (mask_lt hcap _) hrun
      next => exact ih (mask_lt hcap _) hrun

/-- A search finds the value of an element with the key. -/
theorem search_contents (h : ∃ m, tbl.cap = 2 ^ m) {key : K} {found : Option V}
    (hrun : tbl.search key = some (found, tbl')) : SameContents tbl tbl' ∧
      ∀ val, found = some val → ∃ entry ∈ tbl.entries, tbl.cmpF key entry.key = 0 ∧ entry.val = val := by
  obtain ⟨m, hcap⟩ := h
  refine ⟨?_, ?_⟩
  · rcases searchProbe_cases hcap (mask_lt hcap _) (by simp) hrun with
      rfl | ⟨a, i, entry, n, ha, hi, hremoved, hocc, rfl⟩
    · exact .refl ⟨m, hcap⟩
    · exact ⟨⟨m, hcap⟩, rfl, (move_sums ha hi hremoved hocc).1⟩
  · rintro val rfl
    exact searchProbe_value hcap (mask_lt hcap _) hrun

/-- A removal takes at most one element away. -/
theorem remove_contents (h : ∃ m, tbl.cap = 2 ^ m) {key : K} {found : Option V}
    (hrun : tbl.remove key = some (found, tbl')) :
    (∃ m, tbl'.cap = 2 ^ m) ∧ tbl'.entries ≤ tbl.entries := by
  obtain ⟨m, hcap⟩ := h
  rcases remove_cases hcap hrun with rfl | ⟨i, entry, hi, hocc, rfl⟩
  · exact ⟨⟨m, hcap⟩, le_rfl⟩
  · refine ⟨⟨m, hcap⟩, ?_⟩
    have hsplit := entries_setElem_free hi hocc (show Elem.entries .removed = 0 from rfl)
    change (tbl.setElem i .removed).entries ≤ tbl.entries
    rw [← hsplit]
    exact Multiset.le_cons_self _ _

end Table

end Dime
