import Dime.Foundation.Delimited

/-!
# Data that is cut short

What a decoder makes of the beginning of data that it reads whole. In data that are put
together of parts only the end of the last one can be missing without an error.
-/

namespace Delimited

variable {β A B C D X : Type}

/-- Of data without their end, either a value is read as if all of them were there, or
none is. The ends for which the former holds are those of `P`. -/
structure Cuts (decode : List β → Option (A × Nat)) (f : A → C) (data : List β) (c : Option C)
    (P : List β → Prop) : Prop where
  within : ∀ q, P q → q.length ≤ data.length
  reads : ∀ p q, data = p ++ q → P q → observe f (decode p) = c.map fun c => (c, data.length)
  fails : ∀ p q, data = p ++ q → q ≠ [] → ¬ P q → decode p = none

/-- What is read of data without their end reaches as far as that. -/
def Exhausts (decode : List β → Option (A × Nat)) (data : List β) : Prop :=
  ∀ p q, data = p ++ q → q ≠ [] → ∀ a n, decode p = some (a, n) → p.length ≤ n

/-- A value from one decoder and a value from another one behind it. -/
def both (first : List β → Option (A × Nat)) (second : List β → Option (B × Nat)) (s : List β) :
    Option ((A × B) × Nat) := do
  let (a, m) ← first s
  let (b, n) ← second (s.drop m)
  some ((a, b), m + n)

section

variable {decode : List β → Option (A × Nat)} {data : List β} {f : A → C} {c : Option C}
  {P : List β → Prop}

theorem Cuts.congr {P' : List β → Prop} (h : Cuts decode f data c P) (hP : ∀ q, P' q ↔ P q) :
    Cuts decode f data c P' where
  within q hq := h.within q ((hP q).mp hq)
  reads p q hdata hq := h.reads p q hdata ((hP q).mp hq)
  fails p q hdata hne hq := h.fails p q hdata hne fun hP' => hq ((hP q).mpr hP')

/-- No part of the data can be missing. -/
theorem Cuts.never (h : ∀ p q, data = p ++ q → q ≠ [] → decode p = none) :
    Cuts decode f data c fun _ => False where
  within _ hq := hq.elim
  reads _ _ _ hq := hq.elim
  fails p q hdata hne _ := h p q hdata hne

theorem Cuts.exhausts (h : Cuts decode f data c P) : Exhausts decode data := by
  intro p q hdata hne a n hdecode
  by_cases hq : P q
  · have hread := h.reads p q hdata hq
    rw [hdecode] at hread
    obtain ⟨_, _, hn⟩ := Option.map_eq_some_iff.mp hread.symm
    cases hn
    rw [hdata, List.length_append]
    exact Nat.le_add_right _ _
  · rw [h.fails p q hdata hne hq] at hdecode
    cases hdecode

/-- A value is read of the beginning exactly if the rest may be missing. -/
theorem Cuts.eq_none_iff (h : Cuts decode f data c P) {p q : List β} (hdata : data = p ++ q)
    (hne : q ≠ []) : decode p = none ↔ ¬ (c ≠ none ∧ P q) := by
  by_cases hq : P q
  · have hread := h.reads p q hdata hq
    rw [observe] at hread
    rw [← Option.map_eq_none_iff, hread, Option.map_eq_none_iff]
    simp only [hq, and_true, ne_eq, not_not]
  · exact iff_of_true (h.fails p q hdata hne hq) fun hboth => hq hboth.2

theorem Cuts.map {g : B → D} {decode' : List β → Option (B × Nat)} (φ : A → B) (ψ : C → D)
    (h : Cuts decode f data c P)
    (hdecode : ∀ s, decode' s = (decode s).map fun r => (φ r.1, r.2))
    (hobserve : ∀ a, g (φ a) = ψ (f a)) : Cuts decode' g data (c.map ψ) P where
  within := h.within
  reads p q hdata hq := by
    have hmap : observe g (decode' p) = (observe f (decode p)).map fun r => (ψ r.1, r.2) := by
      rw [hdecode]
      cases decode p with
      | none => rfl
      | some r => simp [observe, hobserve]
    rw [hmap, h.reads p q hdata hq]
    cases c <;> rfl
  fails p q hdata hne hq := by
    rw [hdecode, h.fails p q hdata hne hq]
    rfl

end

/-! ## One part behind another -/

section

variable {data data' p q : List β}

/-- The cut is behind the first part, or in it. -/
theorem cut_cases (h : data ++ data' = p ++ q) :
    (∃ r, p = data ++ r ∧ data' = r ++ q) ∨ ∃ r, r ≠ [] ∧ data = p ++ r ∧ q = r ++ data' := by
  obtain hbehind | ⟨r, hdata, hq⟩ := List.append_eq_append_iff.mp h
  · exact .inl hbehind
  · by_cases hr : r = []
    · subst hr
      rw [List.append_nil] at hdata
      exact .inl ⟨[], by rw [hdata, List.append_nil], hq.symm⟩
    · exact .inr ⟨r, hr, hdata, hq⟩

theorem cut_behind (h : data ++ data' = p ++ q) (hq : q.length ≤ data'.length) :
    ∃ r, p = data ++ r ∧ data' = r ++ q := by
  obtain hbehind | ⟨r, hr, _, rfl⟩ := cut_cases h
  · exact hbehind
  · have hpos := List.length_pos_of_ne_nil hr
    rw [List.length_append] at hq
    omega

variable {first : List β → Option (A × Nat)} {second : List β → Option (B × Nat)} {f : A → C}
  {g : B → D} {c : Option C} {d : Option D} {P : List β → Prop}

theorem both_eq_none {r : List β} (h : Delimits first f data c) (hsecond : second r = none) :
    both first second (data ++ r) = none := by
  unfold both
  cases c with
  | none =>
      rw [h.eq_none]
      rfl
  | some c =>
      obtain ⟨a, ha, _⟩ := h.eq_some r
      have hdrop : (data ++ r).drop data.length = r := List.drop_left
      rw [ha]
      simp only [Option.bind_eq_bind, Option.bind_some, hdrop, hsecond, Option.bind_none]

/-- Of two parts, one after the other, only the end of the second one can be missing. -/
theorem Cuts.both (hread : Delimits first f data c) (hfirst : Exhausts first data)
    (hsecond : Cuts second g data' d P) (hnil : second [] = none) :
    Cuts (both first second) (Prod.map f g) (data ++ data')
      (c.bind fun a => d.map fun b => (a, b)) P where
  within q hq := by
    rw [List.length_append]
    exact Nat.le_add_left_of_le (hsecond.within q hq)
  reads p q hdata hq := by
    obtain ⟨r, rfl, hdata'⟩ := cut_behind hdata (hsecond.within q hq)
    have hobserve := hsecond.reads r q hdata' hq
    unfold Delimited.both
    cases c with
    | none =>
        rw [hread.eq_none]
        rfl
    | some c =>
        obtain ⟨a, ha, rfl⟩ := hread.eq_some r
        have hdrop : (data ++ r).drop data.length = r := List.drop_left
        rw [ha]
        simp only [Option.bind_eq_bind, Option.bind_some, hdrop, List.length_append]
        cases hsome : second r with
        | none =>
            rw [hsome] at hobserve
            rw [Option.map_eq_none_iff.mp hobserve.symm]
            rfl
        | some b =>
            rw [hsome] at hobserve
            obtain ⟨_, rfl, hb⟩ := Option.map_eq_some_iff.mp hobserve.symm
            obtain ⟨rfl, hn⟩ := Prod.mk.inj hb
            simp [observe, hn]
  fails p q hdata hne hq := by
    obtain ⟨r, rfl, hdata'⟩ | ⟨r, hr, hdata', _⟩ := cut_cases hdata
    · exact both_eq_none hread (hsecond.fails r q hdata' hne hq)
    · unfold Delimited.both
      cases hsome : first p with
      | none => rfl
      | some a =>
          -- nothing is left for the second part
          have hdrop : p.drop a.2 = [] :=
            List.drop_eq_nil_of_le (hfirst p r hdata' hr a.1 a.2 hsome)
          simp only [Option.bind_eq_bind, Option.bind_some, hdrop, hnil, Option.bind_none]

end

section

variable {decode : List β → Option (A × Nat)} {f : A → C} {g : A → D} {data data' : List β}
  {c : Option C} {d : Option D} {P : List β → Prop}

theorem Cuts.pair (hread : Delimits decode f data c) (hfirst : Exhausts decode data)
    (hsecond : Cuts decode g data' d P) (hnil : decode [] = none) :
    Cuts (pair decode) (Prod.map f g) (data ++ data')
      (c.bind fun first => d.map fun second => (first, second)) P :=
  .both hread hfirst hsecond hnil

theorem pair_nil (hnil : decode [] = none) : Delimited.pair decode [] = none := by
  rw [Delimited.pair, hnil]
  rfl

theorem many_succ_nil (hnil : decode [] = none) (k : Nat) : many decode (k + 1) [] = none := by
  rw [many, hnil]
  rfl

theorem many_succ_eq (k : Nat) (s : List β) :
    many decode (k + 1) s =
      (both decode (many decode k) s).map fun r => (r.1.1 :: r.1.2, r.2) := by
  rw [many, both]
  cases hfirst : decode s with
  | none => rfl
  | some a => cases hrest : many decode k (s.drop a.2) <;> simp [hrest]

theorem mapM_cons_eq (c : Option C) (cs : List (Option C)) :
    (c :: cs).mapM id =
      (c.bind fun a => (cs.mapM id).map fun as => (a, as)).map fun r => r.1 :: r.2 := by
  rw [List.mapM_cons]
  cases c with
  | none => rfl
  | some c => cases cs.mapM id <;> rfl

theorem forall₂_delimits {xs : List X} {parts : List (List β)} {c : X → Option C}
    {P : X → List β → Prop}
    (h : List.Forall₂ (fun x part => Delimits decode f part (c x) ∧ Cuts decode f part (c x) (P x))
      xs parts) : List.Forall₂ (Delimits decode f) parts (xs.map c) := by
  rw [List.forall₂_map_right_iff]
  exact (h.imp fun _ _ hboth => hboth.1).flip

/-- Of values side by side, only the end of the last one can be missing. -/
theorem Cuts.many {xs : List X} {parts : List (List β)} {c : X → Option C}
    {P : X → List β → Prop} (hnil : decode [] = none)
    (h : List.Forall₂ (fun x part => Delimits decode f part (c x) ∧ Cuts decode f part (c x) (P x))
      xs parts) :
    Cuts (many decode xs.length) (List.map f) parts.flatten ((xs.map c).mapM id)
      fun q => ∃ x, xs.getLast? = some x ∧ P x q := by
  induction h with
  | nil =>
      refine ⟨?_, ?_, fun p q hdata hne _ => ?_⟩
      · rintro _ ⟨_, hlast, _⟩
        cases hlast
      · rintro _ _ _ ⟨_, hlast, _⟩
        cases hlast
      · exact absurd (List.append_eq_nil_iff.mp hdata.symm).2 hne
  | @cons x part xs parts hhead hrest ih =>
      obtain ⟨hread, hcut⟩ := hhead
      rw [List.map_cons, List.flatten_cons, List.length_cons]
      cases hrest with
      | nil =>
          have hone : ∀ s, Delimited.many decode 1 s = (decode s).map fun r => ([r.1], r.2) := by
            intro s
            rw [many_succ_eq, Delimited.both]
            cases decode s <;> rfl
          have hsingle : (c x :: ([] : List X).map c).mapM id = (c x).map fun a => [a] := by
            rw [mapM_cons_eq]
            cases c x <;> rfl
          have hmap : Cuts (Delimited.many decode 1) (List.map f) part ((c x).map fun a => [a]) (P x) :=
            hcut.map (fun a => [a]) (fun a => [a]) hone fun _ => rfl
          rw [hsingle, List.flatten_nil, List.append_nil]
          exact hmap.congr fun q => by simp
      | @cons y _ ys _ _ _ =>
          rw [List.length_cons] at ih ⊢
          rw [mapM_cons_eq]
          have hboth := Cuts.both hread hcut.exhausts ih (many_succ_nil hnil _)
          have hmap : Cuts (Delimited.many decode (ys.length + 1 + 1)) (List.map f) _ _ _ :=
            hboth.map (fun r => r.1 :: r.2) (fun r => r.1 :: r.2) (many_succ_eq _) fun _ => rfl
          exact hmap.congr fun q => by rw [List.getLast?_cons_cons]

end

/-! ## Data behind a header -/

section

variable {decode : List β → Option (B × Nat)} {inner : List β → Option (A × Nat)}
  {header body : List β} {f : A → C} {f' : B → D} {c : Option C} {P : List β → Prop}
  (finish : A → Option B) (g : C → Option D)

/-- The header has to be there. -/
theorem Cuts.framed
    (hdecode : ∀ s, decode (header ++ s) = (inner s).bind fun r =>
      (finish r.1).map fun b => (b, header.length + r.2))
    (hfinish : ∀ a, (finish a).map f' = g (f a))
    (hshort : ∀ p q, header = p ++ q → q ≠ [] → decode p = none) (h : Cuts inner f body c P) :
    Cuts decode f' (header ++ body) (c.bind g) P where
  within q hq := by
    rw [List.length_append]
    exact Nat.le_add_left_of_le (h.within q hq)
  reads p q hdata hq := by
    obtain ⟨r, rfl, hbody⟩ := cut_behind hdata (h.within q hq)
    rw [observe_framed finish g hdecode hfinish (h.reads r q hbody hq), List.length_append]
  fails p q hdata hne hq := by
    obtain ⟨r, rfl, hbody⟩ | ⟨r, hr, hheader, _⟩ := cut_cases hdata
    · rw [hdecode, h.fails r q hbody hne hq]
      rfl
    · exact hshort p r hheader hr

end

end Delimited
