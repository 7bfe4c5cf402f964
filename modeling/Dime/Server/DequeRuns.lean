import Dime.Foundation.Refinement
import Dime.Server.Deque
import Dime.Server.Runtime

/-!
# Every use of a deque

The operations with each access checked against the capacity of the array, and sequences of
them. Pushes and left pops act on a list. A right pop does so unless `endIdx` has wrapped to
the first cell, and an iteration sees the elements unless no cell is free.
-/

namespace Dime

universe u v

namespace Deque

variable {α : Type u} {deck : Deque α}

/-! ## Checked accesses -/

/-- `arr[i]`. The index `-1` is the largest `size_t`, beyond every array. -/
def access (deck : Deque α) (i : Int) : Except Fault α :=
  if 0 ≤ i ∧ i < deck.cap then .ok (deck.arr i.toNat) else .error .outOfBounds

/-- `arr[i] = p`. -/
def assign (deck : Deque α) (i : Nat) (p : α) : Except Fault (Deque α) :=
  if i < deck.cap then .ok { deck with arr := Circular.store deck.arr i [p] }
  else .error .outOfBounds

namespace Checked

/-- The growth of both pushes. The `memmove` reads cells of the old array and writes cells
of the new one. -/
def grow (deck : Deque α) : Except Fault (Deque α) :=
  let ncap := (3 * deck.cap) / 2
  if deck.endIdx ≤ deck.beginIdx then
    let nbegin := deck.beginIdx + (ncap - deck.cap)
    if nbegin ≤ ncap ∧ deck.beginIdx + (ncap - nbegin) ≤ deck.cap then .ok deck.grow
    else .error .outOfBounds
  else .ok deck.grow

/-- Make room for one more element; `none` when the `realloc` fails. -/
def reserve (realloc : Bool) (deck : Deque α) : Except Fault (Option (Deque α)) :=
  if deck.len ≥ deck.cap then
    if realloc then (grow deck).map some else .ok none
  else .ok (some deck)

/-- `dime_deque_pushl`: what it returns and the deque after it. -/
def pushl (realloc : Bool) (deck : Deque α) (p : α) : Except Fault (Int × Deque α) := do
  match ← reserve realloc deck with
  | none => return (-1, deck)
  | some deck =>
      let beginIdx := (if deck.beginIdx = 0 then deck.cap else deck.beginIdx) - 1
      let deck ← { deck with beginIdx }.assign beginIdx p
      return (0, { deck with len := deck.len + 1 })

/-- `dime_deque_pushr`. -/
def pushr (realloc : Bool) (deck : Deque α) (p : α) : Except Fault (Int × Deque α) := do
  match ← reserve realloc deck with
  | none => return (-1, deck)
  | some deck =>
      let deck ← deck.assign deck.endIdx p
      let endIdx := deck.endIdx + 1
      return (0, { deck with
        endIdx := if endIdx = deck.cap then 0 else endIdx
        len := deck.len + 1 })

/-- `dime_deque_popl`; a value `none` is `NULL`. -/
def popl (deck : Deque α) : Except Fault (Option α × Deque α) :=
  if deck.len = 0 then .ok (none, deck)
  else do
    let p ← deck.access deck.beginIdx
    let beginIdx := deck.beginIdx + 1
    return (some p, { deck with
      beginIdx := if beginIdx = deck.cap then 0 else beginIdx
      len := deck.len - 1 })

/-- `dime_deque_popr`. Where `endIdx` is `0` it is `beginIdx` that the source sets to the
capacity, and the decrement of `endIdx` wraps. -/
def popr (deck : Deque α) : Except Fault (Option α × Deque α) :=
  if deck.len = 0 then .ok (none, deck)
  else do
    let beginIdx := if deck.endIdx = 0 then deck.cap else deck.beginIdx
    let endIdx : Int := deck.endIdx - 1
    let p ← deck.access endIdx
    return (some p, { deck with beginIdx, endIdx := endIdx.toNat, len := deck.len - 1 })

end Checked

/-- Where growing is called for, its move stays inside both arrays. -/
theorem checkedGrow_eq (h : deck.WF) (hfull : deck.Full) : Checked.grow deck = .ok deck.grow := by
  have hcap := h.two_le_cap
  have hbegin := h.begin_lt
  have hend : deck.endIdx = deck.beginIdx := by
    rw [h.end_eq, show deck.len = deck.cap from hfull, Nat.add_mod_right, Nat.mod_eq_of_lt hbegin]
  unfold Checked.grow
  dsimp only
  rw [if_pos hend.le, if_pos (by omega)]

theorem checkedReserve_eq (h : deck.WF) (realloc : Bool) :
    Checked.reserve realloc deck = .ok (deck.reserve realloc) := by
  unfold Checked.reserve reserve
  split
  next hge =>
    cases realloc with
    | false => rfl
    | true => rw [if_pos rfl, if_pos rfl, checkedGrow_eq h (Nat.le_antisymm h.len_le hge)]; rfl
  next => rfl

theorem assign_eq {i : Nat} (hi : i < deck.cap) (p : α) :
    deck.assign i p = .ok { deck with arr := Circular.store deck.arr i [p] } := if_pos hi

theorem access_eq {i : Nat} (hi : i < deck.cap) : deck.access i = .ok (deck.arr i) := by
  rw [access, if_pos (by omega), Int.toNat_natCast]

/-- A left push prepends its element, or it fails with the growth and changes nothing. -/
theorem checkedPushl_spec (h : deck.WF) (realloc : Bool) (p : α) :
    (Checked.pushl realloc deck p = .ok (-1, deck) ∧ realloc = false) ∨
    ∃ deck', Checked.pushl realloc deck p = .ok (0, deck') ∧ deck'.WF ∧
      deck'.toList = p :: deck.toList := by
  rw [Checked.pushl, checkedReserve_eq h]
  rcases reserve_spec h realloc with ⟨hnone, hfail, _⟩ | ⟨room, hroom, hwf, hlist, hlt⟩
  · rw [hnone]
    exact .inl ⟨rfl, hfail⟩
  · obtain ⟨hwf', hlist'⟩ := placeLeft_spec hwf hlt p
    have hbegin := hwf.begin_lt
    have hin : (if room.beginIdx = 0 then room.cap else room.beginIdx) - 1 < room.cap := by
      split <;> omega
    refine .inr ⟨room.placeLeft p, ?_, hwf', by rw [hlist', hlist]⟩
    rw [hroom]
    change (assign _ ((if room.beginIdx = 0 then room.cap else room.beginIdx) - 1) p >>= _) = _
    rw [assign, if_pos hin]
    rfl

/-- A right push appends its element, or it fails with the growth and changes nothing. -/
theorem checkedPushr_spec (h : deck.WF) (realloc : Bool) (p : α) :
    (Checked.pushr realloc deck p = .ok (-1, deck) ∧ realloc = false) ∨
    ∃ deck', Checked.pushr realloc deck p = .ok (0, deck') ∧ deck'.WF ∧
      deck'.toList = deck.toList ++ [p] := by
  rw [Checked.pushr, checkedReserve_eq h]
  rcases reserve_spec h realloc with ⟨hnone, hfail, _⟩ | ⟨room, hroom, hwf, hlist, hlt⟩
  · rw [hnone]
    exact .inl ⟨rfl, hfail⟩
  · obtain ⟨hwf', hlist'⟩ := placeRight_spec hwf hlt p
    refine .inr ⟨room.placeRight p, ?_, hwf', by rw [hlist', hlist]⟩
    rw [hroom]
    change (assign room _ p >>= _) = _
    rw [assign_eq hwf.end_lt]
    rfl

/-- A left pop removes the head. -/
theorem checkedPopl_spec (h : deck.WF) :
    (Checked.popl deck = .ok (none, deck) ∧ deck.toList = []) ∨
    ∃ p deck', Checked.popl deck = .ok (some p, deck') ∧ deck'.WF ∧
      deck.toList = p :: deck'.toList := by
  rcases popl_spec h with ⟨hnone, hnil⟩ | ⟨p, deck', hsome, hwf, hlist⟩
  · have hzero : deck.len = 0 := by rw [← length_toList, hnil]; rfl
    exact .inl ⟨if_pos hzero, hnil⟩
  · have hpos : deck.len ≠ 0 := by
      rw [← length_toList, hlist, List.length_cons]
      omega
    refine .inr ⟨p, deck', ?_, hwf, hlist⟩
    rw [popl, if_neg hpos] at hsome
    cases hsome
    rw [Checked.popl, if_neg hpos, access_eq h.begin_lt]
    rfl

/-- A right pop removes the last element, where `endIdx` does not have to wrap. -/
theorem checkedPopr_spec (h : deck.WF) (hend : deck.endIdx ≠ 0) :
    (Checked.popr deck = .ok (none, deck) ∧ deck.toList = []) ∨
    ∃ p deck', Checked.popr deck = .ok (some p, deck') ∧ deck'.WF ∧
      deck.toList = deck'.toList ++ [p] := by
  by_cases hzero : deck.len = 0
  · exact .inl ⟨if_pos hzero, List.length_eq_zero_iff.mp (by rw [length_toList, hzero])⟩
  · have hbegin := h.begin_lt
    have hle := h.len_le
    -- `endIdx` is not 0, so the last element is in the cell before it
    have hlast : (deck.beginIdx + (deck.len - 1)) % deck.cap = deck.endIdx - 1 := by
      have heq := h.end_eq
      rw [Circular.wrap deck.cap (by omega)] at heq ⊢
      split at heq <;> split <;> omega
    have hendlt := h.end_lt
    have hindex : ((deck.endIdx : Int) - 1) = ((deck.endIdx - 1 : Nat) : Int) := by omega
    refine .inr ⟨deck.arr (deck.endIdx - 1),
      { deck with endIdx := deck.endIdx - 1, len := deck.len - 1 }, ?_, ⟨h.two_le_cap, ?_, hbegin, ?_⟩, ?_⟩
    · rw [Checked.popr, if_neg hzero]
      dsimp only
      rw [hindex, access_eq (by omega), if_neg hend, Int.toNat_natCast]
      rfl
    · dsimp only
      omega
    · exact hlast.symm
    · change Circular.window deck.arr deck.cap deck.beginIdx deck.len = _
      rw [show deck.len = deck.len - 1 + 1 by omega, Circular.window_add, ← hlast]
      simp [toList, Circular.window]

/-- Where `endIdx` has wrapped, a right pop reads outside the array. -/
theorem checkedPopr_wrapped (hlen : deck.len ≠ 0) (hend : deck.endIdx = 0) :
    Checked.popr deck = .error .outOfBounds := by
  rw [Checked.popr, if_neg hlen, hend]
  rfl

/-! ## Sequences of operations -/

/-- A use of a deque; `realloc` says whether the growth of a push succeeds, should it be
needed. -/
inductive Op (α : Type u) where
  | pushl (realloc : Bool) (p : α)
  | pushr (realloc : Bool) (p : α)
  | popl
  | popr

/-- What a use returns; an element `none` is `NULL`. -/
inductive Answer (α : Type u) where
  | status (code : Int)
  | elem (p : Option α)

/-- One use, with its accesses checked. -/
def perform (deck : Deque α) : Op α → Except Fault (Answer α × Deque α)
  | .pushl realloc p => (Checked.pushl realloc deck p).map fun (code, deck) => (.status code, deck)
  | .pushr realloc p => (Checked.pushr realloc deck p).map fun (code, deck) => (.status code, deck)
  | .popl => (Checked.popl deck).map fun (p, deck) => (.elem p, deck)
  | .popr => (Checked.popr deck).map fun (p, deck) => (.elem p, deck)

/-- One use; `none` where an access is outside the array. -/
def step (deck : Deque α) (op : Op α) : Option (Answer α × Deque α) := (deck.perform op).toOption

/-- The uses of a list. Only a push whose growth fails may be refused. -/
inductive ListStep : List α → Op α → Answer α → List α → Prop
  | pushl (xs : List α) (realloc : Bool) (p : α) :
      ListStep xs (.pushl realloc p) (.status 0) (p :: xs)
  | pushlRefused (xs : List α) (p : α) : ListStep xs (.pushl false p) (.status (-1)) xs
  | pushr (xs : List α) (realloc : Bool) (p : α) :
      ListStep xs (.pushr realloc p) (.status 0) (xs ++ [p])
  | pushrRefused (xs : List α) (p : α) : ListStep xs (.pushr false p) (.status (-1)) xs
  | popl (p : α) (xs : List α) : ListStep (p :: xs) .popl (.elem (some p)) xs
  | poplEmpty : ListStep [] .popl (.elem none) []
  | popr (xs : List α) (p : α) : ListStep (xs ++ [p]) .popr (.elem (some p)) xs
  | poprEmpty : ListStep [] .popr (.elem none) []

/-- The deque stands for the list. -/
def Shows (deck : Deque α) (xs : List α) : Prop := deck.toList = xs ∧ deck.len = xs.length

/-- No right pop of a deque with elements whose `endIdx` has wrapped. -/
def Unwrapped (deck : Deque α) (op : Op α) : Prop :=
  op = .popr → deck.len ≠ 0 → deck.endIdx ≠ 0

/-- What each operation does: it acts on the list, or it is a right pop whose `endIdx` has
wrapped. -/
theorem step_cases (h : deck.WF) (op : Op α) :
    (∃ answer deck', deck.step op = some (answer, deck') ∧ deck'.WF ∧
      ListStep deck.toList op answer deck'.toList ∧ deck.Unwrapped op) ∨
    deck.step op = none ∧ ¬ deck.Unwrapped op := by
  cases op with
  | pushl realloc p =>
      left
      rcases checkedPushl_spec h realloc p with ⟨hrun, rfl⟩ | ⟨deck', hrun, hwf, hlist⟩
      · exact ⟨.status (-1), deck, by rw [step, perform, hrun]; rfl, h, .pushlRefused _ p, nofun⟩
      · exact ⟨.status 0, deck', by rw [step, perform, hrun]; rfl, hwf,
          hlist ▸ .pushl _ realloc p, nofun⟩
  | pushr realloc p =>
      left
      rcases checkedPushr_spec h realloc p with ⟨hrun, rfl⟩ | ⟨deck', hrun, hwf, hlist⟩
      · exact ⟨.status (-1), deck, by rw [step, perform, hrun]; rfl, h, .pushrRefused _ p, nofun⟩
      · exact ⟨.status 0, deck', by rw [step, perform, hrun]; rfl, hwf,
          hlist ▸ .pushr _ realloc p, nofun⟩
  | popl =>
      left
      rcases checkedPopl_spec h with ⟨hrun, hnil⟩ | ⟨p, deck', hrun, hwf, hlist⟩
      · exact ⟨.elem none, deck, by rw [step, perform, hrun]; rfl, h, hnil ▸ .poplEmpty, nofun⟩
      · exact ⟨.elem (some p), deck', by rw [step, perform, hrun]; rfl, hwf,
          hlist ▸ .popl p _, nofun⟩
  | popr =>
      -- only the right pop can go wrong
      by_cases hunwrapped : deck.Unwrapped .popr
      · left
        by_cases hzero : deck.len = 0
        · have hnil : deck.toList = [] :=
            List.length_eq_zero_iff.mp (by rw [length_toList, hzero])
          have hrun : Checked.popr deck = .ok (none, deck) := if_pos hzero
          exact ⟨.elem none, deck, by rw [step, perform, hrun]; rfl, h, hnil ▸ .poprEmpty,
            hunwrapped⟩
        · rcases checkedPopr_spec h (hunwrapped rfl hzero) with
            ⟨hrun, hnil⟩ | ⟨p, deck', hrun, hwf, hlist⟩
          · exact ⟨.elem none, deck, by rw [step, perform, hrun]; rfl, h, hnil ▸ .poprEmpty,
              hunwrapped⟩
          · exact ⟨.elem (some p), deck', by rw [step, perform, hrun]; rfl, hwf,
              hlist ▸ .popr _ p, hunwrapped⟩
      · right
        have hwrapped := hunwrapped
        rw [Unwrapped] at hwrapped
        push Not at hwrapped
        obtain ⟨-, hlen, hend⟩ := hwrapped
        exact ⟨by rw [step, perform, checkedPopr_wrapped hlen hend]; rfl, hunwrapped⟩

theorem ListStep.unique {xs ys zs : List α} {op : Op α} {answer : Answer α}
    (h : ListStep xs op answer ys) (h' : ListStep xs op answer zs) : ys = zs := by
  generalize hxs : xs = xs' at h'
  cases h with
  | popr ys p =>
      cases h' with
      | popr zs => exact (List.append_inj' hxs rfl).1
  | popl p ys =>
      cases h' with
      | popl => exact (List.cons.inj hxs).2
  | pushl => cases h'; rw [hxs]
  | pushlRefused => cases h'; exact hxs
  | pushr => cases h'; rw [hxs]
  | pushrRefused => cases h'; exact hxs
  | poplEmpty => cases h'; rfl
  | poprEmpty => cases h'; rfl

/-- From an initialised deque, pushes and left pops are answered as a list answers them and
keep the invariant. -/
theorem run_wf [Inhabited α] (ops : List (Op α)) (hops : .popr ∉ ops) :
    ∃ start answers deck, init true = some start ∧
      Refinement.run step start ops = some (answers, deck) ∧
      Refinement.Allowed ListStep [] ops answers deck.toList ∧ deck.WF := by
  obtain ⟨start, hinit⟩ : ∃ start : Deque α, init true = some start := ⟨_, rfl⟩
  have hadm : Refinement.Admissible (fun _ op => op ≠ Op.popr) ListStep [] ops :=
    Refinement.admissible_of_forall ops
      (fun op hmem _ (heq : op = .popr) => hops (heq ▸ hmem)) []
  obtain ⟨answers, deck, xs, hrun, hallowed, hwf, rfl⟩ :=
    @Refinement.run_refines _ _ _ _ step (fun _ op => op ≠ .popr) ListStep
      (fun deck xs => deck.WF ∧ deck.toList = xs) (by
        rintro deck _ op ⟨hwf, rfl⟩ hop
        rcases step_cases hwf op with ⟨answer, deck', hstep, hwf', hspec, -⟩ | ⟨-, hnot⟩
        · exact ⟨answer, deck', deck'.toList, hstep, hspec, hwf', rfl⟩
        · exact absurd (fun heq => absurd heq hop) hnot)
      ops start [] ⟨init_wf hinit, init_toList hinit⟩ hadm
  exact ⟨start, answers, deck, hinit, hrun, hallowed, hwf⟩

/-! ## Applying a function -/

variable {σ : Type v}

/-- The loop of `dime_deque_apply` from index `i` on, with `s` what `f` works on; `none` when
`fuel` rounds do not end it. -/
def applyLoop (deck : Deque α) (f : α → σ → Bool × σ) : Nat → Nat → σ → Option σ
  | 0, _, _ => none
  | fuel + 1, i, s =>
      if i = deck.endIdx then some s
      else
        let (go, s) := f (deck.arr i) s
        if go then
          let i := i + 1
          applyLoop deck f fuel (if i = deck.cap then 0 else i) s
        else some s

/-- `dime_deque_apply`. -/
def apply (deck : Deque α) (f : α → σ → Bool × σ) (s : σ) : Option σ :=
  deck.applyLoop f (deck.cap + 1) deck.beginIdx s

/-- Where the application stands after `k` elements. -/
theorem applyLoop_eq (h : deck.WF) (hnot : ¬ deck.Full) (visit : α → σ → σ) (k : Nat)
    (hk : k ≤ deck.len) (fuel : Nat) (hfuel : deck.len - k < fuel) (s : σ) :
    deck.applyLoop (fun p s => (true, visit p s)) fuel ((deck.beginIdx + k) % deck.cap) s =
      some ((deck.toList.drop k).foldl (fun s p => visit p s) s) := by
  have hcap := h.two_le_cap
  have hbegin := h.begin_lt
  have hlt : deck.len < deck.cap := lt_of_le_of_ne h.len_le hnot
  induction fuel generalizing k s with
  | zero => omega
  | succ fuel ih =>
      rcases Nat.eq_or_lt_of_le hk with rfl | hlt'
      · rw [applyLoop, if_pos h.end_eq.symm, List.drop_of_length_le (length_toList deck).le]
        rfl
      -- with a free cell the index comes to the end only after all elements
      · have hne : (deck.beginIdx + k) % deck.cap ≠ deck.endIdx := by
          rw [h.end_eq, Circular.wrap deck.cap (by omega), Circular.wrap deck.cap (by omega)]
          split <;> split <;> omega
        have hnext : (if (deck.beginIdx + k) % deck.cap + 1 = deck.cap then 0
            else (deck.beginIdx + k) % deck.cap + 1) = (deck.beginIdx + (k + 1)) % deck.cap := by
          rw [Circular.wrap deck.cap (by omega), Circular.wrap deck.cap (by omega)]
          split <;> split <;> split <;> omega
        rw [applyLoop, if_neg hne]
        dsimp only
        rw [if_pos rfl, hnext, ih (k + 1) hlt' (by omega),
          List.drop_eq_getElem_cons (i := k) (by simpa using hlt')]
        simp [toList]

/-- A function that always continues sees every element from head to tail, unless the deque
is full. -/
theorem apply_eq (h : deck.WF) (visit : α → σ → σ) (s : σ) :
    deck.apply (fun p s => (true, visit p s)) s =
      some (if deck.Full then s else deck.toList.foldl (fun s p => visit p s) s) := by
  have hbegin := h.begin_lt
  have hle := h.len_le
  split
  next hfull =>
    have hend : deck.beginIdx = deck.endIdx := by
      rw [h.end_eq, show deck.len = deck.cap from hfull, Nat.add_mod_right,
        Nat.mod_eq_of_lt hbegin]
    rw [apply, applyLoop, if_pos hend]
  next hnot =>
    have hall := applyLoop_eq h hnot visit 0 (Nat.zero_le _) (deck.cap + 1) (by omega) s
    rw [Nat.add_zero deck.beginIdx, Nat.mod_eq_of_lt hbegin] at hall
    exact hall

/-- An iteration sees every element once, from head to tail, and so does an application of a
function that always continues. -/
def VisitsAll (deck : Deque α) : Prop :=
  deck.iterate = some deck.toList ∧ ∀ {σ : Type v} (visit : α → σ → σ) (s : σ),
    deck.apply (fun p s => (true, visit p s)) s =
      some (deck.toList.foldl (fun s p => visit p s) s)

theorem visitsAll_iff (h : deck.WF) : VisitsAll.{u, v} deck ↔ ¬ deck.Full := by
  constructor
  · rintro ⟨hiterate, -⟩ hfull
    rw [iterate_eq h, if_pos hfull] at hiterate
    have hlen : deck.len = 0 := by
      rw [← length_toList, ← Option.some.inj hiterate]
      rfl
    have hcap : deck.len = deck.cap := hfull
    have := h.two_le_cap
    omega
  · intro hnot
    refine ⟨by rw [iterate_eq h, if_neg hnot], fun visit s => ?_⟩
    rw [apply_eq h, if_neg hnot]

end Deque

section

variable {α : Type u} [Inhabited α]

/-- Pushes and left pops refine a list: from an initialised deque, every sequence of them
stays inside the array and is answered as a list answers it, and leaves a deque that stands
for the list. -/
theorem deque_refines_list (ops : List (Deque.Op α)) (hops : .popr ∉ ops) :
    ∃ start answers deck xs, Deque.init true = some start ∧
      Refinement.run Deque.step start ops = some (answers, deck) ∧
      Refinement.Allowed Deque.ListStep [] ops answers xs ∧
      deck.toList = xs ∧ deck.len = xs.length := by
  obtain ⟨start, answers, deck, hinit, hrun, hallowed, -⟩ := Deque.run_wf ops hops
  exact ⟨start, answers, deck, deck.toList, hinit, hrun, hallowed, rfl,
    (Deque.length_toList deck).symm⟩

theorem deque_refines_list_pushes :
    .popr ∉ [.pushr false 1, .pushl true 2, (.popl : Deque.Op Nat)] ∧
      ∃ start answers deck xs, Deque.init true = some start ∧
        Refinement.run Deque.step start
          [.pushr false 1, .pushl true 2, (.popl : Deque.Op Nat)] = some (answers, deck) ∧
        Refinement.Allowed Deque.ListStep []
          [.pushr false 1, .pushl true 2, (.popl : Deque.Op Nat)] answers xs ∧
        deck.toList = xs ∧ deck.len = xs.length :=
  ⟨by simp, deque_refines_list _ (by simp)⟩

/-- Right pops mirror left pops exactly in the runs none of whose right pops meets a deque
with elements whose `endIdx` has wrapped to the first cell. -/
theorem popr_mirrors_popl_iff (ops : List (Deque.Op α)) :
    ∃ start, Deque.init true = some start ∧
      (Refinement.Conforms Deque.step Deque.ListStep Deque.Shows start [] ops ↔
        Refinement.Guarded Deque.step Deque.Unwrapped start ops) := by
  obtain ⟨start, hinit⟩ : ∃ start : Deque α, Deque.init true = some start := ⟨_, rfl⟩
  refine ⟨start, hinit, Refinement.conforms_iff_guarded
    (fun deck xs (hinv : deck.WF ∧ deck.toList = xs) => ?_) ?_ ?_ ?_ ops start []
    ⟨Deque.init_wf hinit, Deque.init_toList hinit⟩⟩
  · exact ⟨hinv.2, by rw [← hinv.2, Deque.length_toList]⟩
  · rintro deck _ op ⟨hwf, rfl⟩ hguard
    rcases Deque.step_cases hwf op with ⟨answer, deck', hstep, hwf', hspec, -⟩ | ⟨-, hnot⟩
    · exact ⟨answer, deck', deck'.toList, hstep, hspec, hwf', rfl⟩
    · exact absurd hguard hnot
  · rintro deck _ op ⟨hwf, rfl⟩ hnot
    rcases Deque.step_cases hwf op with ⟨_, _, _, _, _, hguard⟩ | ⟨hstep, -⟩
    · exact absurd hguard hnot
    · exact hstep
  · exact fun _ _ _ _ _ hspec hspec' => hspec.unique hspec'

/-- After a push on the left of an initialised deque, `endIdx` is `0`: the right pop that
follows reads outside the array. -/
theorem popr_after_pushl_faults :
    ¬ ∃ start, Deque.init true = some start ∧
      Refinement.Conforms Deque.step Deque.ListStep Deque.Shows start []
        [.pushl true 1, (.popr : Deque.Op Nat)] := by
  rintro ⟨start, hinit, -, answer, deck, xs, hpush, -, -, answer', deck', xs', hpop, -⟩
  cases hinit
  cases hpush
  cases hpop

/-- An iteration of a deque reached by pushes and left pops sees all of it exactly if a cell
of the array is free. -/
theorem deque_iteration_iff (ops : List (Deque.Op α)) (hops : .popr ∉ ops) :
    ∃ start answers deck, Deque.init true = some start ∧
      Refinement.run Deque.step start ops = some (answers, deck) ∧
      Refinement.Allowed Deque.ListStep [] ops answers deck.toList ∧
      (Deque.VisitsAll.{u, v} deck ↔ deck.len ≠ deck.cap) := by
  obtain ⟨start, answers, deck, hinit, hrun, hallowed, hwf⟩ := Deque.run_wf ops hops
  exact ⟨start, answers, deck, hinit, hrun, hallowed, Deque.visitsAll_iff hwf⟩

theorem deque_iteration_iff_push :
    .popr ∉ [(.pushr true 1 : Deque.Op Nat)] ∧
      ∃ start answers deck, Deque.init true = some start ∧
        Refinement.run Deque.step start [(.pushr true 1 : Deque.Op Nat)] = some (answers, deck) ∧
        Refinement.Allowed Deque.ListStep [] [(.pushr true 1 : Deque.Op Nat)] answers
          deck.toList ∧
        (Deque.VisitsAll.{0, 0} deck ↔ deck.len ≠ deck.cap) :=
  ⟨by simp, deque_iteration_iff _ (by simp)⟩

/-- Sixteen right pushes fill the first array, and an iteration then sees nothing. -/
theorem deque_iteration_misses_full :
    ¬ ∃ start answers deck, Deque.init true = some start ∧
      Refinement.run Deque.step start (List.replicate 16 (.pushr true 1 : Deque.Op Nat)) =
        some (answers, deck) ∧ Deque.VisitsAll.{0, 0} deck := by
  rintro ⟨start, answers, deck, hinit, hrun, hiterate, -⟩
  cases hinit
  have hseen : (Refinement.run Deque.step ⟨0, fun _ => default, 16, 0, 0⟩
      (List.replicate 16 (.pushr true 1 : Deque.Op Nat))).map
        (fun run => (run.2.iterate, run.2.toList)) =
      some (some [], List.replicate 16 1) := by decide +kernel
  rw [hrun, Option.map_some, Option.some_inj, Prod.mk.injEq] at hseen
  rw [hseen.1, hseen.2] at hiterate
  cases hiterate

end

end Dime
