import Mathlib.Data.List.Forall2
import Mathlib.Data.List.OfFn

/-!
# Values that tell their own length

A decoder reads a value from the front of a string and tells how much it has read.
Where that does not depend on what follows, values can be put side by side. Of the values
only what is observed of them has to be the same.
-/

namespace Delimited

variable {β A B C D : Type}

/-- What is observed of the value that is read, and the length of the data that it is read
from. -/
def observe (f : A → C) (result : Option (A × Nat)) : Option (C × Nat) :=
  result.map fun result => (f result.1, result.2)

/-- From the data, whatever follows, a value of which `c` is observed is read, and nothing
behind the data. -/
def Delimits (decode : List β → Option (A × Nat)) (f : A → C) (data : List β) (c : Option C) : Prop :=
  ∀ rest, observe f (decode (data ++ rest)) = c.map fun c => (c, data.length)

/-- Two values, one after the other. -/
def pair (decode : List β → Option (A × Nat)) (s : List β) : Option ((A × A) × Nat) := do
  let (first, m) ← decode s
  let (second, n) ← decode (s.drop m)
  some ((first, second), m + n)

/-- A number of values, one after the other. -/
def many (decode : List β → Option (A × Nat)) : Nat → List β → Option (List A × Nat)
  | 0, _ => some ([], 0)
  | k + 1, s => do
    let (a, m) ← decode s
    let (as, n) ← many decode k (s.drop m)
    some (a :: as, m + n)

variable {decode : List β → Option (A × Nat)} {data data' : List β} {f : A → C} {g : A → D}
  {c : Option C} {d : Option D}

theorem Delimits.eq_none (h : Delimits decode f data (none : Option C)) (rest : List β) :
    decode (data ++ rest) = none :=
  Option.map_eq_none_iff.mp (h rest)

theorem Delimits.eq_some {c : C} (h : Delimits decode f data (some c)) (rest : List β) :
    ∃ a, decode (data ++ rest) = some (a, data.length) ∧ f a = c := by
  obtain ⟨⟨a, n⟩, hdecode, hobserve⟩ := Option.map_eq_some_iff.mp (h rest)
  cases hobserve
  exact ⟨a, hdecode, rfl⟩

theorem Delimits.intro {c : C} (h : ∀ rest, ∃ a, decode (data ++ rest) = some (a, data.length) ∧ f a = c) :
    Delimits decode f data (some c) := by
  intro rest
  obtain ⟨a, hdecode, rfl⟩ := h rest
  rw [hdecode]
  rfl

/-- Less is observed of the value. -/
theorem Delimits.map {E : Type} (g : C → E) (h : Delimits decode f data c) :
    Delimits decode (g ∘ f) data (c.map g) := by
  cases c with
  | none =>
      intro rest
      rw [h.eq_none rest]
      rfl
  | some c =>
      apply Delimits.intro
      intro rest
      obtain ⟨a, ha, rfl⟩ := h.eq_some rest
      exact ⟨a, ha, rfl⟩

/-- The value on its own. -/
theorem Delimits.alone (h : Delimits decode f data c) :
    observe f (decode data) = c.map fun c => (c, data.length) := by
  have hnil := h []
  rwa [List.append_nil] at hnil

theorem Delimits.pair (hfirst : Delimits decode f data c) (hsecond : Delimits decode g data' d) :
    Delimits (pair decode) (Prod.map f g) (data ++ data')
      (c.bind fun first => d.map fun second => (first, second)) := by
  intro rest
  unfold Delimited.pair
  rw [List.append_assoc]
  cases c with
  | none =>
      rw [hfirst.eq_none]
      rfl
  | some c =>
      obtain ⟨a, ha, rfl⟩ := hfirst.eq_some (data' ++ rest)
      have hdrop : (data ++ (data' ++ rest)).drop data.length = data' ++ rest := List.drop_left
      rw [ha]
      simp only [Option.bind_eq_bind, Option.bind_some, hdrop]
      cases d with
      | none =>
          rw [hsecond.eq_none]
          rfl
      | some d =>
          obtain ⟨b, hb, rfl⟩ := hsecond.eq_some rest
          rw [hb]
          simp [observe]

/-- Values side by side are read one after the other. -/
theorem many_flatten {parts : List (List β)} {cs : List (Option C)}
    (h : List.Forall₂ (Delimits decode f) parts cs) :
    Delimits (many decode parts.length) (List.map f) parts.flatten (cs.mapM id) := by
  induction h with
  | nil =>
      intro rest
      rfl
  | @cons data c parts cs hhead _ ih =>
      intro rest
      rw [List.length_cons, many, List.flatten_cons, List.append_assoc]
      cases c with
      | none =>
          rw [hhead.eq_none]
          rfl
      | some c =>
          obtain ⟨a, ha, rfl⟩ := hhead.eq_some (parts.flatten ++ rest)
          have hdrop : (data ++ (parts.flatten ++ rest)).drop data.length = parts.flatten ++ rest :=
            List.drop_left
          rw [ha]
          simp only [Option.bind_eq_bind, Option.bind_some, hdrop, List.mapM_cons, id_eq]
          cases hcs : cs.mapM id with
          | none =>
              rw [hcs] at ih
              rw [ih.eq_none]
              rfl
          | some cs' =>
              rw [hcs] at ih
              obtain ⟨as, has, rfl⟩ := ih.eq_some rest
              rw [has]
              simp [observe]

theorem mapM_map_id (f : A → Option C) (l : List A) : (l.map f).mapM id = l.mapM f := by
  rw [List.mapM_map]
  rfl

theorem mapM_map_some (l : List A) : (l.map some).mapM id = some l := by
  rw [mapM_map_id]
  exact (List.mapM_pure (f := id)).trans (congrArg some (List.map_id l))

theorem mapM_ofFn_some {n : Nat} (f : Fin n → A) :
    (List.ofFn fun i => some (f i)).mapM id = some (List.ofFn f) := by
  have hmap : (List.ofFn fun i => some (f i)) = (List.ofFn f).map some := List.map_ofFn.symm
  rw [hmap, mapM_map_some]

theorem mapM_eq_none {l : List (Option A)} (h : none ∈ l) : l.mapM id = none := by
  induction l with
  | nil => cases h
  | cons a l ih =>
      rw [List.mapM_cons]
      cases a with
      | none => rfl
      | some a =>
          have hrest : none ∈ l := by
            cases h with
            | tail _ h => exact h
          rw [ih hrest]
          rfl

open Classical in
/-- All values are there if each of them is. -/
theorem mapM_ite (l : List A) (P : A → Prop) (g : A → C) :
    ((l.map fun a => if P a then some (g a) else none).mapM id : Option (List C)) =
      if ∀ a ∈ l, P a then some (l.map g) else none := by
  by_cases hall : ∀ a ∈ l, P a
  · have hmap : (l.map fun a => if P a then some (g a) else none) = (l.map g).map some := by
      rw [List.map_map]
      exact List.map_congr_left fun a ha => if_pos (hall a ha)
    rw [if_pos hall, hmap, mapM_map_some]
  · rw [if_neg hall]
    simp only [not_forall] at hall
    obtain ⟨a, ha, hnot⟩ := hall
    exact mapM_eq_none (List.mem_map.mpr ⟨a, ha, if_neg hnot⟩)

theorem many_ofFn {n : Nat} {data : Fin n → List β} {c : Fin n → Option C}
    (h : ∀ i, Delimits decode f (data i) (c i)) :
    Delimits (many decode n) (List.map f) (List.ofFn data).flatten ((List.ofFn c).mapM id) := by
  have hforall : List.Forall₂ (Delimits decode f) (List.ofFn data) (List.ofFn c) := by
    rw [List.forall₂_iff_get]
    refine ⟨by rw [List.length_ofFn, List.length_ofFn], fun i hi hi' => ?_⟩
    rw [List.get_ofFn, List.get_ofFn]
    exact h _
  have hmany := many_flatten hforall
  rwa [List.length_ofFn] at hmany

/-- All of the values are read. -/
theorem many_ofFn_some {n : Nat} {data : Fin n → List β} {c : Fin n → C}
    (h : ∀ i, Delimits decode f (data i) (some (c i))) :
    Delimits (many decode n) (List.map f) (List.ofFn data).flatten (some (List.ofFn c)) := by
  have hmany := many_ofFn h
  rwa [mapM_ofFn_some] at hmany

/-- One of the values cannot be read. -/
theorem many_ofFn_none {n : Nat} {data : Fin n → List β} {c : Fin n → Option C}
    (h : ∀ i, Delimits decode f (data i) (c i)) {i : Fin n} (hi : c i = none) :
    Delimits (many decode n) (List.map f) (List.ofFn data).flatten none := by
  have hmany := many_ofFn h
  rwa [mapM_eq_none (List.mem_ofFn.mpr ⟨i, hi⟩)] at hmany

/-! ## Data behind a header -/

section

variable {decode : List β → Option (B × Nat)} {inner : List β → Option (A × Nat)}
  {header body : List β} {f : A → C} {f' : B → D} {c : Option C}
  (finish : A → Option B) (g : C → Option D)

theorem observe_framed
    (hdecode : ∀ s, decode (header ++ s) = (inner s).bind fun r =>
      (finish r.1).map fun b => (b, header.length + r.2))
    (hfinish : ∀ a, (finish a).map f' = g (f a)) {s : List β} {n : Nat}
    (h : observe f (inner s) = c.map fun c => (c, n)) :
    observe f' (decode (header ++ s)) = (c.bind g).map fun d => (d, header.length + n) := by
  rw [hdecode]
  cases hs : inner s with
  | none =>
      rw [hs] at h
      rw [Option.map_eq_none_iff.mp h.symm]
      rfl
  | some r =>
      rw [hs] at h
      obtain ⟨_, rfl, hr⟩ := Option.map_eq_some_iff.mp h.symm
      cases hr
      rw [Option.bind_some, Option.bind_some, ← hfinish]
      cases finish r.1 <;> rfl

theorem Delimits.framed
    (hdecode : ∀ s, decode (header ++ s) = (inner s).bind fun r =>
      (finish r.1).map fun b => (b, header.length + r.2))
    (hfinish : ∀ a, (finish a).map f' = g (f a)) (h : Delimits inner f body c) :
    Delimits decode f' (header ++ body) (c.bind g) := by
  intro rest
  rw [List.append_assoc, observe_framed finish g hdecode hfinish (h rest), List.length_append]

end

/-! ## Decoders that cannot be told apart -/

section

variable {decode' : List β → Option (A × Nat)} {s : List β}

/-- The outcomes are observed to be the same. -/
theorem observe_cases (h : observe f (decode s) = observe f (decode' s)) :
    (decode s = none ∧ decode' s = none) ∨
      ∃ a a' n, decode s = some (a, n) ∧ decode' s = some (a', n) ∧ f a = f a' := by
  cases hdecode : decode s with
  | none =>
      rw [hdecode] at h
      exact .inl ⟨rfl, Option.map_eq_none_iff.mp h.symm⟩
  | some r =>
      rw [hdecode] at h
      obtain ⟨r', hdecode', hr⟩ := Option.map_eq_some_iff.mp h.symm
      obtain ⟨hf, hn⟩ := Prod.mk.inj hr
      exact .inr ⟨r.1, r'.1, r.2, rfl, by rw [hdecode', ← hn], hf.symm⟩

theorem pair_congr (h : ∀ t : List β, t.length ≤ s.length → observe f (decode t) = observe f (decode' t)) :
    observe (Prod.map f f) (pair decode s) = observe (Prod.map f f) (pair decode' s) := by
  unfold Delimited.pair
  obtain ⟨hnone, hnone'⟩ | ⟨a, a', m, ha, ha', hf⟩ := observe_cases (h s le_rfl)
  · rw [hnone, hnone']
    rfl
  · rw [ha, ha']
    simp only [Option.bind_eq_bind, Option.bind_some]
    have hlength : (s.drop m).length ≤ s.length := by
      rw [List.length_drop]
      exact Nat.sub_le _ _
    obtain ⟨hnone, hnone'⟩ | ⟨b, b', n, hb, hb', hg⟩ := observe_cases (h (s.drop m) hlength)
    · rw [hnone, hnone']
      rfl
    · rw [hb, hb']
      simp [observe, hf, hg]

theorem many_congr (h : ∀ t : List β, t.length ≤ s.length → observe f (decode t) = observe f (decode' t))
    (k : Nat) : observe (List.map f) (many decode k s) = observe (List.map f) (many decode' k s) := by
  induction k generalizing s with
  | zero => rfl
  | succ k ih =>
      rw [many, many]
      obtain ⟨hnone, hnone'⟩ | ⟨a, a', m, ha, ha', hf⟩ := observe_cases (h s le_rfl)
      · rw [hnone, hnone']
        rfl
      · rw [ha, ha']
        simp only [Option.bind_eq_bind, Option.bind_some]
        have hlength : (s.drop m).length ≤ s.length := by
          rw [List.length_drop]
          exact Nat.sub_le _ _
        have hrest := ih fun t ht => h t (le_trans ht hlength)
        obtain ⟨hnone, hnone'⟩ | ⟨as, as', n, has, has', hfs⟩ := observe_cases hrest
        · rw [hnone, hnone']
          rfl
        · rw [has, has']
          simp [observe, hf, hfs]

end

/-- So many values are read. -/
theorem length_many {k n : Nat} {s : List β} {as : List A} (h : many decode k s = some (as, n)) :
    as.length = k := by
  induction k generalizing s as n with
  | zero =>
      cases h
      rfl
  | succ k ih =>
      obtain ⟨⟨a, m⟩, _, h⟩ := Option.bind_eq_some_iff.mp h
      obtain ⟨⟨as', n'⟩, hrest, h⟩ := Option.bind_eq_some_iff.mp h
      cases h
      rw [List.length_cons, ih hrest]

/-- What holds of every value that is read from a part of the string holds of all of them. -/
theorem forall_many {P : A → Prop} {k n : Nat} {s : List β} {as : List A}
    (hdecode : ∀ i a m, decode (s.drop i) = some (a, m) → P a) (h : many decode k s = some (as, n)) :
    ∀ a ∈ as, P a := by
  induction k generalizing s as n with
  | zero =>
      cases h
      simp
  | succ k ih =>
      obtain ⟨⟨a, m⟩, hhead, h⟩ := Option.bind_eq_some_iff.mp h
      obtain ⟨⟨as', n'⟩, hrest, h⟩ := Option.bind_eq_some_iff.mp h
      cases h
      have hrest' : ∀ i a m', decode ((s.drop m).drop i) = some (a, m') → P a := by
        intro i a m' ha
        rw [List.drop_drop] at ha
        exact hdecode _ a m' ha
      exact List.forall_mem_cons.mpr ⟨hdecode 0 a m hhead, ih hrest' hrest⟩

end Delimited
