import Mathlib.Data.List.Basic

/-!
# Refinement of a specification, operation by operation

A component answers operations and may fail to end. It refines a specification
when, from related states, every operation the specification admits ends with an
answer the specification allows, in related states again. The run rule extends
this to every admissible sequence of operations.
-/

namespace Refinement

universe u₁ u₂ u₃ u₄

variable {State : Type u₁} {Spec : Type u₂} {Op : Type u₃} {Answer : Type u₄}

/-- The answers to a sequence of operations, in order; `none` as soon as one of
them does not end. -/
def run (step : State → Op → Option (Answer × State)) :
    State → List Op → Option (List Answer × State)
  | state, [] => some ([], state)
  | state, op :: rest =>
      match step state op with
      | none => none
      | some (answer, state) => (run step state rest).map fun (answers, state) =>
          (answer :: answers, state)

/-- Answers the specification allows to a sequence of operations. -/
inductive Allowed (spec : Spec → Op → Answer → Spec → Prop) :
    Spec → List Op → List Answer → Spec → Prop
  | nil (state : Spec) : Allowed spec state [] [] state
  | cons {state middle final : Spec} {op : Op} {answer : Answer} {ops : List Op}
      {answers : List Answer} (head : spec state op answer middle)
      (tail : Allowed spec middle ops answers final) :
      Allowed spec state (op :: ops) (answer :: answers) final

/-- Every operation of the sequence is admitted where it is issued. -/
def Admissible (pre : Spec → Op → Prop) (spec : Spec → Op → Answer → Spec → Prop) :
    Spec → List Op → Prop
  | _, [] => True
  | state, op :: rest =>
      pre state op ∧ ∀ answer middle, spec state op answer middle →
        Admissible pre spec middle rest

/-- The run rule. -/
theorem run_refines {step : State → Op → Option (Answer × State)}
    {pre : Spec → Op → Prop} {spec : Spec → Op → Answer → Spec → Prop}
    {Related : State → Spec → Prop}
    (hstep : ∀ state abs op, Related state abs → pre abs op →
      ∃ answer state' abs', step state op = some (answer, state') ∧
        spec abs op answer abs' ∧ Related state' abs')
    (ops : List Op) (state : State) (abs : Spec) (hrel : Related state abs)
    (hadm : Admissible pre spec abs ops) :
    ∃ answers state' abs', run step state ops = some (answers, state') ∧
      Allowed spec abs ops answers abs' ∧ Related state' abs' := by
  induction ops generalizing state abs with
  | nil => exact ⟨[], state, abs, rfl, .nil abs, hrel⟩
  | cons op rest ih =>
      obtain ⟨answer, middle, absMiddle, hrun, hspec, hrel'⟩ := hstep state abs op hrel hadm.1
      obtain ⟨answers, state', abs', hrest, hallowed, hrel''⟩ :=
        ih middle absMiddle hrel' (hadm.2 answer absMiddle hspec)
      exact ⟨answer :: answers, state', abs', by rw [run, hrun]; dsimp only; rw [hrest]; rfl,
        .cons hspec hallowed, hrel''⟩

/-- A sequence is admissible if each of its operations is admitted in every state. -/
theorem admissible_of_forall {pre : Spec → Op → Prop} {spec : Spec → Op → Answer → Spec → Prop}
    (ops : List Op) (hpre : ∀ op ∈ ops, ∀ state, pre state op) (state : Spec) :
    Admissible pre spec state ops := by
  induction ops generalizing state with
  | nil => trivial
  | cons op rest ih =>
      have hrest : ∀ op' ∈ rest, ∀ state, pre state op' :=
        fun op' hmem => hpre op' (List.mem_cons_of_mem op hmem)
      exact ⟨hpre op List.mem_cons_self state, fun _ middle _ => ih hrest middle⟩

/-! ## What holds along a run -/

variable (step : State → Op → Option (Answer × State))

/-- `P` holds of every state that the operations lead to, the first and the last included. -/
def Always (P : State → Prop) : State → List Op → Prop
  | state, [] => P state
  | state, op :: rest =>
      P state ∧ ∀ answer state', step state op = some (answer, state') → Always P state' rest

/-- Every operation meets `guard` in the state in which it is issued. -/
def Guarded (guard : State → Op → Prop) : State → List Op → Prop
  | _, [] => True
  | state, op :: rest =>
      guard state op ∧
        ∀ answer state', step state op = some (answer, state') → Guarded guard state' rest

/-- Every operation ends with an answer that the specification allows, from related states to
related states. -/
def Conforms (spec : Spec → Op → Answer → Spec → Prop) (Related : State → Spec → Prop) :
    State → Spec → List Op → Prop
  | state, abs, [] => Related state abs
  | state, abs, op :: rest =>
      Related state abs ∧ ∃ answer state' abs', step state op = some (answer, state') ∧
        spec abs op answer abs' ∧ Conforms spec Related state' abs' rest

variable {step}

/-- A property holds along a run on which another does, where that one keeps an invariant
under which it gives the property. -/
theorem Always.imp {P Q Inv : State → Prop} (hgives : ∀ state, Inv state → P state → Q state)
    (hkeep : ∀ state op answer state', Inv state → P state →
      step state op = some (answer, state') → Inv state')
    {ops : List Op} {state : State} (hinv : Inv state) (h : Always step P state ops) :
    Always step Q state ops := by
  induction ops generalizing state with
  | nil => exact hgives state hinv h
  | cons op rest ih =>
      obtain ⟨hP, hrest⟩ := h
      exact ⟨hgives state hinv hP, fun answer state' hstep =>
        ih (hkeep state op answer state' hinv hP hstep) (hrest answer state' hstep)⟩

/-- What holds along a run holds where it ends. -/
theorem Always.final {P : State → Prop} {ops : List Op} {state state' : State}
    {answers : List Answer} (h : Always step P state ops)
    (hrun : run step state ops = some (answers, state')) : P state' := by
  induction ops generalizing state answers with
  | nil =>
      cases hrun
      exact h
  | cons op rest ih =>
      rw [run] at hrun
      cases hstep : step state op with
      | none =>
          rw [hstep] at hrun
          cases hrun
      | some result =>
          rw [hstep] at hrun
          obtain ⟨⟨answers', final⟩, hrest, heq⟩ := Option.map_eq_some_iff.mp hrun
          cases heq
          exact ih (h.2 _ _ hstep) hrest

/-- Where every operation meets `pre`, a property holds along a run exactly if the run is
guarded, given that a guarded operation keeps an invariant which gives the property and an
unguarded one ends without it. -/
theorem always_iff_guarded {P Inv : State → Prop} {pre guard : State → Op → Prop}
    (hgives : ∀ state, Inv state → P state)
    (hkeep : ∀ state op answer state', Inv state → pre state op → guard state op →
      step state op = some (answer, state') → Inv state')
    (hbreak : ∀ state op, Inv state → pre state op → ¬ guard state op →
      ∃ answer state', step state op = some (answer, state') ∧ ¬ P state')
    (ops : List Op) (state : State) (hinv : Inv state) (hpre : Guarded step pre state ops) :
    Always step P state ops ↔ Guarded step guard state ops := by
  induction ops generalizing state with
  | nil => exact iff_of_true (hgives state hinv) trivial
  | cons op rest ih =>
      obtain ⟨hop, hpre'⟩ := hpre
      constructor
      · rintro ⟨-, hrest⟩
        have hguard : guard state op := by
          by_contra hbad
          obtain ⟨answer, state', hstep, hnot⟩ := hbreak state op hinv hop hbad
          have hafter := hrest answer state' hstep
          cases rest with
          | nil => exact hnot hafter
          | cons _ _ => exact hnot hafter.1
        exact ⟨hguard, fun answer state' hstep =>
          (ih state' (hkeep state op answer state' hinv hop hguard hstep)
            (hpre' answer state' hstep)).mp (hrest answer state' hstep)⟩
      · rintro ⟨hguard, hrest⟩
        exact ⟨hgives state hinv, fun answer state' hstep =>
          (ih state' (hkeep state op answer state' hinv hop hguard hstep)
            (hpre' answer state' hstep)).mpr (hrest answer state' hstep)⟩

/-- A run conforms to the specification exactly if it is guarded, where a guarded operation is
refined and an unguarded one does not end. -/
theorem conforms_iff_guarded {spec : Spec → Op → Answer → Spec → Prop}
    {Related : State → Spec → Prop} {Inv : State → Spec → Prop} {guard : State → Op → Prop}
    (hgives : ∀ state abs, Inv state abs → Related state abs)
    (hkeep : ∀ state abs op, Inv state abs → guard state op →
      ∃ answer state' abs', step state op = some (answer, state') ∧ spec abs op answer abs' ∧
        Inv state' abs')
    (hbreak : ∀ state abs op, Inv state abs → ¬ guard state op → step state op = none)
    (hdet : ∀ abs op answer abs' abs'', spec abs op answer abs' → spec abs op answer abs'' →
      abs' = abs'')
    (ops : List Op) (state : State) (abs : Spec) (hinv : Inv state abs) :
    Conforms step spec Related state abs ops ↔ Guarded step guard state ops := by
  induction ops generalizing state abs with
  | nil => exact iff_of_true (hgives state abs hinv) trivial
  | cons op rest ih =>
      constructor
      · rintro ⟨-, answer, state', abs', hstep, hspec, hrest⟩
        have hguard : guard state op := by
          by_contra hbad
          rw [hbreak state abs op hinv hbad] at hstep
          cases hstep
        obtain ⟨answer₁, state₁, abs₁, hstep₁, hspec₁, hinv₁⟩ := hkeep state abs op hinv hguard
        rw [hstep] at hstep₁
        cases hstep₁
        obtain rfl := hdet abs op answer abs' abs₁ hspec hspec₁
        refine ⟨hguard, fun answer₂ state₂ hstep₂ => ?_⟩
        rw [hstep] at hstep₂
        cases hstep₂
        exact (ih state' abs' hinv₁).mp hrest
      · rintro ⟨hguard, hrest⟩
        obtain ⟨answer, state', abs', hstep, hspec, hinv'⟩ := hkeep state abs op hinv hguard
        exact ⟨hgives state abs hinv, answer, state', abs', hstep, hspec,
          (ih state' abs' hinv').mpr (hrest answer state' hstep)⟩

end Refinement
