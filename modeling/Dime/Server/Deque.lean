import Dime.Foundation.Circular

/-!
# Deques

Each client's message queue. Unlike a ring buffer a deque may fill its array
completely, and then `beginIdx` and `endIdx` are equal although it is not empty.
-/

namespace Dime

universe u

/-- `dime_deque_t`. -/
structure Deque (α : Type u) where
  len : Nat
  arr : Nat → α
  cap : Nat
  beginIdx : Nat
  endIdx : Nat

namespace Deque

variable {α : Type u}

/-- `dime_deque_init`. What `malloc` leaves in the array is never read. -/
def init [Inhabited α] (malloc : Bool) : Option (Deque α) :=
  if malloc then
    some { len := 0, cap := 16, arr := fun _ => default, beginIdx := 0, endIdx := 0 }
  else none

/-- The growth step shared by both pushes. -/
def grow (deck : Deque α) : Deque α :=
  let ncap := (3 * deck.cap) / 2
  if deck.endIdx ≤ deck.beginIdx then
    let nbegin := deck.beginIdx + (ncap - deck.cap)
    { deck with
      arr := Circular.move deck.arr nbegin deck.beginIdx (ncap - nbegin)
      beginIdx := nbegin
      cap := ncap }
  else { deck with cap := ncap }

/-- Make room for one more element; `none` when the `realloc` fails. -/
def reserve (realloc : Bool) (deck : Deque α) : Option (Deque α) :=
  if deck.len ≥ deck.cap then
    if realloc then some deck.grow else none
  else some deck

/-- The part of `dime_deque_pushl` after the growth. -/
def placeLeft (deck : Deque α) (p : α) : Deque α :=
  let beginIdx := (if deck.beginIdx = 0 then deck.cap else deck.beginIdx) - 1
  { deck with
    beginIdx := beginIdx
    arr := Circular.store deck.arr beginIdx [p]
    len := deck.len + 1 }

/-- The part of `dime_deque_pushr` after the growth. -/
def placeRight (deck : Deque α) (p : α) : Deque α :=
  let endIdx := deck.endIdx + 1
  { deck with
    arr := Circular.store deck.arr deck.endIdx [p]
    endIdx := if endIdx = deck.cap then 0 else endIdx
    len := deck.len + 1 }

/-- `dime_deque_pushl`; `none` is the return value `-1`, which leaves the deque
as it was. -/
def pushl (realloc : Bool) (deck : Deque α) (p : α) : Option (Deque α) :=
  (deck.reserve realloc).map (placeLeft · p)

/-- `dime_deque_pushr`; `none` is the return value `-1`. -/
def pushr (realloc : Bool) (deck : Deque α) (p : α) : Option (Deque α) :=
  (deck.reserve realloc).map (placeRight · p)

/-- `dime_deque_popl`; `none` is the return value `NULL`. -/
def popl (deck : Deque α) : Option (α × Deque α) :=
  if deck.len = 0 then none
  else
    let beginIdx := deck.beginIdx + 1
    some (deck.arr deck.beginIdx,
      { deck with
        beginIdx := if beginIdx = deck.cap then 0 else beginIdx
        len := deck.len - 1 })

/-- `dime_deque_iter_init`. The index is an integer: `-1` is the `size_t` that
its increment takes back to `0`. -/
def iterInit (deck : Deque α) : Int := deck.beginIdx - 1

/-- `dime_deque_iter_next`: the next element and index, or `none` at the end. -/
def iterNext (deck : Deque α) (i : Int) : Option (α × Int) :=
  let i := i + 1
  let i := if i = deck.cap then 0 else i
  if i = deck.endIdx then none else some (deck.arr i.toNat, i)

/-- The elements a `while (dime_deque_iter_next(&it))` loop sees from index `i`
on; `none` when `fuel` rounds do not end it. -/
def iterLoop (deck : Deque α) : Nat → Int → Option (List α)
  | 0, _ => none
  | fuel + 1, i =>
      match deck.iterNext i with
      | none => some []
      | some (p, i) => (deck.iterLoop fuel i).map (p :: ·)

/-- The elements visited by a whole iteration. -/
def iterate (deck : Deque α) : Option (List α) :=
  deck.iterLoop (deck.cap + 1) deck.iterInit

/-- The elements from head to tail. -/
def toList (deck : Deque α) : List α :=
  Circular.window deck.arr deck.cap deck.beginIdx deck.len

/-- The states the pushes and left pops keep. -/
structure WF (deck : Deque α) : Prop where
  two_le_cap : 2 ≤ deck.cap
  len_le : deck.len ≤ deck.cap
  begin_lt : deck.beginIdx < deck.cap
  end_eq : deck.endIdx = (deck.beginIdx + deck.len) % deck.cap

/-- No free cell is left. -/
def Full (deck : Deque α) : Prop := deck.len = deck.cap

instance (deck : Deque α) : Decidable deck.Full := inferInstanceAs (Decidable (_ = _))

variable {deck : Deque α}

@[simp] theorem length_toList (deck : Deque α) : deck.toList.length = deck.len := by
  simp [toList]

theorem WF.end_lt (h : deck.WF) : deck.endIdx < deck.cap := by
  rw [h.end_eq]
  exact Nat.mod_lt _ (by have := h.two_le_cap; omega)

theorem init_wf [Inhabited α] (hinit : init true = some deck) : deck.WF := by
  cases hinit
  constructor <;> simp

theorem init_toList [Inhabited α] (hinit : init true = some deck) : deck.toList = [] := by
  cases hinit
  rfl

theorem grow_spec (h : deck.WF) (hfull : deck.Full) :
    deck.grow.WF ∧ deck.grow.toList = deck.toList ∧ deck.grow.len < deck.grow.cap := by
  have hcap := h.two_le_cap
  have hbegin := h.begin_lt
  have hlen : deck.len = deck.cap := hfull
  have hend : deck.endIdx = deck.beginIdx := by
    rw [h.end_eq, hlen, Nat.add_mod_right, Nat.mod_eq_of_lt hbegin]
  obtain ⟨extra, hextra⟩ : ∃ extra, 3 * deck.cap / 2 = deck.cap + extra :=
    Nat.exists_eq_add_of_le (by omega)
  have hmove : deck.cap + extra - (deck.beginIdx + (deck.cap + extra - deck.cap)) =
      deck.cap - deck.beginIdx := by omega
  unfold grow
  dsimp only
  rw [hextra, if_pos (by omega), hmove, Nat.add_sub_cancel_left]
  have hend' : deck.endIdx = (deck.beginIdx + extra + deck.len) % (deck.cap + extra) := by
    rw [hend, Circular.wrap _ (by omega), if_neg (by omega)]
    omega
  have hlist : Circular.window (Circular.move deck.arr (deck.beginIdx + extra)
      deck.beginIdx (deck.cap - deck.beginIdx)) (deck.cap + extra)
      (deck.beginIdx + extra) deck.len = deck.toList :=
    Circular.window_move deck.arr hbegin (by omega)
  refine ⟨⟨?_, ?_, ?_, hend'⟩, hlist, ?_⟩
  all_goals dsimp only; omega

/-- Room is made unless the growth fails, and the contents stay. -/
theorem reserve_spec (h : deck.WF) (realloc : Bool) :
    (deck.reserve realloc = none ∧ realloc = false ∧ deck.Full) ∨
    ∃ room, deck.reserve realloc = some room ∧ room.WF ∧ room.toList = deck.toList ∧
      room.len < room.cap := by
  unfold reserve
  split
  next hge =>
    have hfull : deck.Full := Nat.le_antisymm h.len_le hge
    cases realloc with
    | false => exact .inl ⟨rfl, rfl, hfull⟩
    | true =>
        obtain ⟨hwf, hlist, hlt⟩ := grow_spec h hfull
        exact .inr ⟨deck.grow, rfl, hwf, hlist, hlt⟩
  next hlt => exact .inr ⟨deck, rfl, h, rfl, not_le.mp hlt⟩

theorem placeRight_spec (h : deck.WF) (hlt : deck.len < deck.cap) (p : α) :
    (deck.placeRight p).WF ∧ (deck.placeRight p).toList = deck.toList ++ [p] := by
  have hbegin := h.begin_lt
  have hend := h.end_eq
  have hendlt := h.end_lt
  refine ⟨⟨h.two_le_cap, hlt, hbegin, ?_⟩, ?_⟩
  · change (if deck.endIdx + 1 = deck.cap then 0 else deck.endIdx + 1) =
      (deck.beginIdx + (deck.len + 1)) % deck.cap
    rw [← Nat.add_assoc, ← Nat.mod_add_mod, ← hend, Circular.wrap deck.cap (by omega)]
    split <;> split <;> omega
  · have happend := Circular.window_wrapStore deck.arr [p] hbegin
      (show deck.len + 1 ≤ deck.cap from hlt)
    rw [← hend, Circular.wrapStore, if_neg (by simp; omega)] at happend
    exact happend

theorem placeLeft_spec (h : deck.WF) (hlt : deck.len < deck.cap) (p : α) :
    (deck.placeLeft p).WF ∧ (deck.placeLeft p).toList = p :: deck.toList := by
  have hcap := h.two_le_cap
  have hbegin := h.begin_lt
  have hend := h.end_eq
  obtain ⟨start, hstart⟩ :
      ∃ start, (if deck.beginIdx = 0 then deck.cap else deck.beginIdx) - 1 = start :=
    ⟨_, rfl⟩
  have hstartlt : start < deck.cap := by split at hstart <;> omega
  have hnext : (start + 1) % deck.cap = deck.beginIdx := by
    rw [Circular.wrap deck.cap (by omega)]
    split at hstart <;> split <;> omega
  unfold placeLeft
  dsimp only
  rw [hstart]
  refine ⟨⟨hcap, hlt, hstartlt, ?_⟩, ?_⟩
  · change deck.endIdx = (start + (deck.len + 1)) % deck.cap
    rw [hend, ← hnext, Nat.mod_add_mod]
    congr 1
    omega
  · change Circular.window (Circular.store deck.arr start [p]) deck.cap start (deck.len + 1) =
      p :: Circular.window deck.arr deck.cap deck.beginIdx deck.len
    rw [Circular.window_succ, ← Circular.window_mod _ _ (start + 1), hnext,
      Nat.mod_eq_of_lt hstartlt]
    congr 1
    · exact Circular.store_inside deck.arr start [p] 0 (by simp)
    · apply Circular.window_congr
      intro k hk
      apply Circular.store_outside
      rw [← hnext, Nat.mod_add_mod, Circular.wrap deck.cap (by omega)]
      simp only [List.length_singleton]
      split <;> omega

/-- A right push appends its element, or it fails with the growth. -/
theorem pushr_spec (h : deck.WF) (realloc : Bool) (p : α) :
    (deck.pushr realloc p = none ∧ realloc = false ∧ deck.Full) ∨
    ∃ deck', deck.pushr realloc p = some deck' ∧ deck'.WF ∧
      deck'.toList = deck.toList ++ [p] := by
  rcases reserve_spec h realloc with ⟨hnone, hfail⟩ | ⟨room, hroom, hwf, hlist, hlt⟩
  · exact .inl ⟨by rw [pushr, hnone]; rfl, hfail⟩
  · obtain ⟨hwf', hlist'⟩ := placeRight_spec hwf hlt p
    exact .inr ⟨room.placeRight p, by rw [pushr, hroom]; rfl, hwf', by rw [hlist', hlist]⟩

/-- A left push prepends its element, or it fails with the growth. -/
theorem pushl_spec (h : deck.WF) (realloc : Bool) (p : α) :
    (deck.pushl realloc p = none ∧ realloc = false ∧ deck.Full) ∨
    ∃ deck', deck.pushl realloc p = some deck' ∧ deck'.WF ∧
      deck'.toList = p :: deck.toList := by
  rcases reserve_spec h realloc with ⟨hnone, hfail⟩ | ⟨room, hroom, hwf, hlist, hlt⟩
  · exact .inl ⟨by rw [pushl, hnone]; rfl, hfail⟩
  · obtain ⟨hwf', hlist'⟩ := placeLeft_spec hwf hlt p
    exact .inr ⟨room.placeLeft p, by rw [pushl, hroom]; rfl, hwf', by rw [hlist', hlist]⟩

/-- A left pop removes the head. -/
theorem popl_spec (h : deck.WF) :
    (deck.popl = none ∧ deck.toList = []) ∨
    ∃ p deck', deck.popl = some (p, deck') ∧ deck'.WF ∧ deck.toList = p :: deck'.toList := by
  have hbegin := h.begin_lt
  have hend := h.end_eq
  have hle := h.len_le
  unfold popl
  split
  next hzero => exact .inl ⟨rfl, List.length_eq_zero_iff.mp (by rw [length_toList, hzero])⟩
  next hpos =>
    right
    obtain ⟨len, hlen⟩ := Nat.exists_eq_succ_of_ne_zero hpos
    have hnext : (if deck.beginIdx + 1 = deck.cap then 0 else deck.beginIdx + 1) =
        (deck.beginIdx + 1) % deck.cap := by
      rw [Circular.wrap deck.cap (by omega)]
      split <;> split <;> omega
    refine ⟨_, _, rfl, ⟨h.two_le_cap, ?_, ?_, ?_⟩, ?_⟩
    · dsimp only
      omega
    · dsimp only
      rw [hnext]
      exact Nat.mod_lt _ (by omega)
    · dsimp only
      rw [hnext, Nat.mod_add_mod, hend]
      congr 1
      omega
    · dsimp only [toList]
      rw [hnext, Circular.window_mod, hlen, Circular.window_succ, Nat.mod_eq_of_lt hbegin]
      rfl

/-! ## Iteration -/

/-- Where the iteration stands after `k` elements. -/
theorem iterLoop_eq (h : deck.WF) (hnot : ¬ deck.Full) (k : Nat) (hk : k ≤ deck.len)
    (fuel : Nat) (hfuel : deck.len - k < fuel) (i : Int)
    (hi : (if i + 1 = deck.cap then 0 else i + 1) = ((deck.beginIdx + k) % deck.cap : Nat)) :
    deck.iterLoop fuel i = some (deck.toList.drop k) := by
  have hcap := h.two_le_cap
  have hbegin := h.begin_lt
  have hend := h.end_eq
  have hlt : deck.len < deck.cap := lt_of_le_of_ne h.len_le hnot
  induction fuel generalizing k i with
  | zero => omega
  | succ fuel ih =>
      obtain ⟨pos, hpos⟩ : ∃ pos, (deck.beginIdx + k) % deck.cap = pos := ⟨_, rfl⟩
      rw [hpos] at hi
      have hnext : deck.iterNext i =
          if pos = deck.endIdx then none else some (deck.arr pos, (pos : Int)) := by
        simp only [iterNext, hi, Int.toNat_natCast, Int.natCast_inj]
      rcases Nat.eq_or_lt_of_le hk with heq | hlt'
      · subst k
        rw [iterLoop, hnext, if_pos (by rw [hend, hpos])]
        simp [← length_toList]
      · have hpos' := hpos
        rw [Circular.wrap deck.cap (by omega)] at hpos'
        have hne : pos ≠ deck.endIdx := by
          rw [hend, Circular.wrap deck.cap (by omega)]
          split at hpos' <;> split <;> omega
        have hstep := ih (k + 1) hlt' (by omega) pos (by
          rw [Circular.wrap deck.cap (by omega)]
          split at hpos' <;> split <;> split <;> omega)
        rw [iterLoop, hnext, if_neg hne]
        dsimp only
        rw [hstep, Option.map_some,
          List.drop_eq_getElem_cons (i := k) (by simpa using hlt')]
        simp [toList, hpos]

/-- Iterating visits every element from head to tail, unless the deque is full:
then `beginIdx = endIdx` ends the iteration before its first element. -/
theorem iterate_eq (h : deck.WF) :
    deck.iterate = some (if deck.Full then [] else deck.toList) := by
  have hcap := h.two_le_cap
  have hbegin := h.begin_lt
  have hle := h.len_le
  have hfirst : (if (deck.iterInit + 1 : Int) = deck.cap then 0 else deck.iterInit + 1) =
      ((deck.beginIdx + 0) % deck.cap : Nat) := by
    rw [Nat.add_zero, Nat.mod_eq_of_lt hbegin, iterInit]
    split <;> omega
  split
  next hfull =>
    have hend : deck.endIdx = deck.beginIdx := by
      rw [h.end_eq, show deck.len = deck.cap from hfull, Nat.add_mod_right,
        Nat.mod_eq_of_lt hbegin]
    have hnone : deck.iterNext deck.iterInit = none := by
      rw [Nat.add_zero, Nat.mod_eq_of_lt hbegin] at hfirst
      simp only [iterNext, hfirst, hend, ↓reduceIte]
    rw [iterate, iterLoop, hnone]
  next hnot =>
    exact iterLoop_eq h hnot 0 (Nat.zero_le _) _ (by omega) _ hfirst

end Deque

/-- A message queue: a deque together with its invariant. -/
abbrev Queue (α : Type u) := { deck : Deque α // deck.WF }

namespace Queue

variable {α : Type u}

def toList (queue : Queue α) : List α := queue.1.toList

def len (queue : Queue α) : Nat := queue.1.len

def Full (queue : Queue α) : Prop := queue.1.Full

instance (queue : Queue α) : Decidable queue.Full := inferInstanceAs (Decidable queue.1.Full)

/-- An initialised queue. -/
def empty [Inhabited α] : Queue α := ⟨⟨0, fun _ => default, 16, 0, 0⟩, Deque.init_wf rfl⟩

def init [Inhabited α] (malloc : Bool) : Option (Queue α) := if malloc then some empty else none

def pushr (realloc : Bool) (queue : Queue α) (p : α) : Option (Queue α) :=
  match h : queue.1.pushr realloc p with
  | none => none
  | some deck => some ⟨deck, by
      rcases Deque.pushr_spec queue.2 realloc p with ⟨hnone, _⟩ | ⟨_, hsome, hwf, _⟩
      · rw [hnone] at h
        cases h
      · rw [hsome] at h
        cases h
        exact hwf⟩

def pushl (realloc : Bool) (queue : Queue α) (p : α) : Option (Queue α) :=
  match h : queue.1.pushl realloc p with
  | none => none
  | some deck => some ⟨deck, by
      rcases Deque.pushl_spec queue.2 realloc p with ⟨hnone, _⟩ | ⟨_, hsome, hwf, _⟩
      · rw [hnone] at h
        cases h
      · rw [hsome] at h
        cases h
        exact hwf⟩

def popl (queue : Queue α) : Option (α × Queue α) :=
  match h : queue.1.popl with
  | none => none
  | some (p, deck) => some (p, ⟨deck, by
      rcases Deque.popl_spec queue.2 with ⟨hnone, _⟩ | ⟨_, _, hsome, hwf, _⟩
      · rw [hnone] at h
        cases h
      · rw [hsome] at h
        cases h
        exact hwf⟩)

def iterate (queue : Queue α) : Option (List α) := queue.1.iterate

@[simp] theorem empty_toList [Inhabited α] : (empty : Queue α).toList = [] := rfl

@[simp] theorem length_toList (queue : Queue α) : queue.toList.length = queue.len :=
  Deque.length_toList queue.1

theorem iterate_eq (queue : Queue α) :
    queue.iterate = some (if queue.Full then [] else queue.toList) :=
  Deque.iterate_eq queue.2

theorem pushr_eq_some {realloc : Bool} {queue queue' : Queue α} {p : α}
    (h : queue.pushr realloc p = some queue') : queue'.toList = queue.toList ++ [p] := by
  rw [pushr] at h
  split at h
  next => cases h
  next deck hdeck =>
    cases h
    rcases Deque.pushr_spec queue.2 realloc p with ⟨hnone, _⟩ | ⟨_, hsome, _, hlist⟩
    · rw [hdeck] at hnone
      cases hnone
    · rw [hdeck] at hsome
      cases hsome
      exact hlist

theorem len_of_pushr {realloc : Bool} {queue queue' : Queue α} {p : α}
    (h : queue.pushr realloc p = some queue') : queue'.len = queue.len + 1 := by
  rw [← length_toList, pushr_eq_some h, List.length_append, length_toList, List.length_singleton]

theorem pushl_eq_some {realloc : Bool} {queue queue' : Queue α} {p : α}
    (h : queue.pushl realloc p = some queue') : queue'.toList = p :: queue.toList := by
  rw [pushl] at h
  split at h
  next => cases h
  next deck hdeck =>
    cases h
    rcases Deque.pushl_spec queue.2 realloc p with ⟨hnone, _⟩ | ⟨_, hsome, _, hlist⟩
    · rw [hdeck] at hnone
      cases hnone
    · rw [hdeck] at hsome
      cases hsome
      exact hlist

/-- With the growth succeeding, a push on the right appends the element. -/
theorem pushr_true (queue : Queue α) (p : α) :
    ∃ queue', queue.pushr true p = some queue' ∧ queue'.toList = queue.toList ++ [p] := by
  rcases Deque.pushr_spec queue.2 true p with ⟨_, hfail⟩ | ⟨deck, hsome, hwf, hlist⟩
  · exact absurd hfail.1 (by decide)
  · refine ⟨⟨deck, hwf⟩, ?_, hlist⟩
    rw [pushr]
    split
    next hnone =>
      rw [hsome] at hnone
      cases hnone
    next deck' hsome' =>
      rw [hsome] at hsome'
      cases hsome'
      rfl

/-- A pop on the left takes the head off. -/
theorem popl_cases (queue : Queue α) :
    (queue.popl = none ∧ queue.toList = []) ∨
    ∃ p queue', queue.popl = some (p, queue') ∧ queue.toList = p :: queue'.toList := by
  rcases Deque.popl_spec queue.2 with ⟨hnone, hnil⟩ | ⟨p, deck, hsome, hwf, hlist⟩
  · left
    refine ⟨?_, hnil⟩
    rw [popl]
    split
    next => rfl
    next hsome =>
      rw [hnone] at hsome
      cases hsome
  · right
    refine ⟨p, ⟨deck, hwf⟩, ?_, hlist⟩
    rw [popl]
    split
    next hnone =>
      rw [hsome] at hnone
      cases hnone
    next p' deck' hsome' =>
      rw [hsome] at hsome'
      cases hsome'
      rfl

theorem toList_ne_nil_of_full {queue : Queue α} (hfull : queue.Full) : queue.toList ≠ [] := by
  intro hnil
  have hlen : queue.toList.length = queue.1.cap := (length_toList queue).trans hfull
  rw [hnil, List.length_nil] at hlen
  have := queue.2.two_le_cap
  omega

end Queue

end Dime
