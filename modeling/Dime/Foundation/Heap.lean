import Mathlib.Algebra.BigOperators.Group.Finset.Basic
import Mathlib.Logic.Function.Basic

/-!
# Heaps

Objects of one type under addresses that are never used twice. A sum over the
live objects counts references: it changes by the object that a step changes.
-/

universe u

/-- Objects by address, none of them at `next` or beyond. -/
@[ext] structure Heap (α : Type u) where
  cells : Nat → Option α
  next : Nat
  fresh : ∀ p, next ≤ p → cells p = none

namespace Heap

variable {α : Type u}

def empty : Heap α := ⟨fun _ => none, 0, fun _ _ => rfl⟩

/-- Place an object at the address `next`. -/
def alloc (h : Heap α) (a : α) : Heap α where
  cells := Function.update h.cells h.next (some a)
  next := h.next + 1
  fresh p hp := by
    rw [Function.update_of_ne (by omega)]
    exact h.fresh p (by omega)

/-- Change the object at an address, if there is one. -/
def modify (h : Heap α) (p : Nat) (f : α → α) : Heap α where
  cells q := if q = p then (h.cells p).map f else h.cells q
  next := h.next
  fresh q hq := by
    split
    next heq => rw [h.fresh p (heq ▸ hq), Option.map_none]
    next => exact h.fresh q hq

def write (h : Heap α) (p : Nat) (a : α) : Heap α := h.modify p fun _ => a

def free (h : Heap α) (p : Nat) : Heap α where
  cells := Function.update h.cells p none
  next := h.next
  fresh q hq := by
    rcases eq_or_ne q p with rfl | hne
    · exact Function.update_self ..
    · rw [Function.update_of_ne hne]
      exact h.fresh q hq

variable {h : Heap α} {p q : Nat} {a : α}

theorem lt_next (hp : h.cells p = some a) : p < h.next := by
  by_contra hle
  rw [h.fresh p (by omega)] at hp
  cases hp

@[simp] theorem cells_empty (p : Nat) : (empty : Heap α).cells p = none := rfl

@[simp] theorem next_alloc : (h.alloc a).next = h.next + 1 := rfl

@[simp] theorem cells_alloc_self : (h.alloc a).cells h.next = some a := Function.update_self ..

@[simp] theorem cells_alloc_of_ne (hne : q ≠ h.next) : (h.alloc a).cells q = h.cells q :=
  Function.update_of_ne hne ..

theorem cells_alloc_of_some {b : α} (hq : h.cells q = some b) :
    (h.alloc a).cells q = some b := by
  rw [cells_alloc_of_ne (lt_next hq).ne, hq]

/-- What is live after an allocation is the new object or was live before. -/
theorem cells_alloc_cases {b : α} (hq : (h.alloc a).cells q = some b) :
    (q = h.next ∧ b = a) ∨ h.cells q = some b := by
  rcases eq_or_ne q h.next with rfl | hne
  · rw [cells_alloc_self] at hq
    exact .inl ⟨rfl, (Option.some.inj hq).symm⟩
  · rw [cells_alloc_of_ne hne] at hq
    exact .inr hq

/-- What is live after an object has been freed is another one. -/
theorem cells_free_cases {b : α} (hq : (h.free p).cells q = some b) : q ≠ p ∧ h.cells q = some b := by
  rcases eq_or_ne q p with rfl | hne
  · exact absurd ((Function.update_self ..).symm.trans hq) (Option.some_ne_none b).symm
  · exact ⟨hne, (Function.update_of_ne hne ..).symm.trans hq⟩

@[simp] theorem next_modify (f : α → α) : (h.modify p f).next = h.next := rfl

@[simp] theorem cells_modify_self (f : α → α) : (h.modify p f).cells p = (h.cells p).map f :=
  if_pos rfl

@[simp] theorem cells_modify_of_ne (f : α → α) (hne : q ≠ p) :
    (h.modify p f).cells q = h.cells q := if_neg hne

@[simp] theorem next_write : (h.write p a).next = h.next := rfl

theorem cells_write_self {b : α} (hp : h.cells p = some b) :
    (h.write p a).cells p = some a := by
  rw [write, cells_modify_self, hp, Option.map_some]

@[simp] theorem cells_write_of_ne (hne : q ≠ p) : (h.write p a).cells q = h.cells q :=
  cells_modify_of_ne _ hne

@[simp] theorem next_free : (h.free p).next = h.next := rfl

@[simp] theorem cells_free_self : (h.free p).cells p = none := Function.update_self ..

@[simp] theorem cells_free_of_ne (hne : q ≠ p) : (h.free p).cells q = h.cells q :=
  Function.update_of_ne hne ..

/-- A second write hides the first. -/
theorem write_write (b : α) : (h.write p a).write p b = h.write p b := by
  have hcells : ((h.write p a).write p b).cells = (h.write p b).cells := by
    funext q
    rcases eq_or_ne q p with rfl | hne
    · simp only [write, cells_modify_self, Option.map_map, Function.comp_def]
    · rw [cells_write_of_ne hne, cells_write_of_ne hne, cells_write_of_ne hne]
  exact Heap.ext hcells rfl

/-- Writing what is there changes nothing. -/
theorem write_eq_self (hp : h.cells p = some a) : h.write p a = h := by
  refine Heap.ext (funext fun q => ?_) rfl
  rcases eq_or_ne q p with rfl | hne
  · rw [cells_write_self hp, hp]
  · exact cells_write_of_ne hne

/-- Writing changes no address from live to free or back. -/
theorem write_eq_none_iff : (h.write p a).cells q = none ↔ h.cells q = none := by
  rcases eq_or_ne q p with rfl | hne
  · rw [write, cells_modify_self, Option.map_eq_none_iff]
  · rw [cells_write_of_ne hne]

/-! ## Counting over the live objects -/

/-- The sum of `f` over the live objects. -/
def sum (h : Heap α) (f : α → Nat) : Nat :=
  ∑ p ∈ Finset.range h.next, (h.cells p).elim 0 f

@[simp] theorem sum_empty (f : α → Nat) : (empty : Heap α).sum f = 0 := rfl

theorem sum_congr {h' : Heap α} {f g : α → Nat} (hnext : h'.next = h.next)
    (hcells : ∀ p, (h'.cells p).elim 0 g = (h.cells p).elim 0 f) : h'.sum g = h.sum f := by
  rw [sum, sum, hnext]
  exact Finset.sum_congr rfl fun p _ => hcells p

theorem sum_alloc (f : α → Nat) : (h.alloc a).sum f = h.sum f + f a := by
  rw [sum, next_alloc, Finset.sum_range_succ, cells_alloc_self]
  congr 1
  refine Finset.sum_congr rfl fun p hp => ?_
  rw [cells_alloc_of_ne (Finset.mem_range.mp hp).ne]

theorem sum_add_of_update {h' : Heap α} {f : α → Nat} (hnext : h'.next = h.next)
    (hp : p < h.next) (hne : ∀ q ≠ p, h'.cells q = h.cells q) :
    h'.sum f + (h.cells p).elim 0 f = h.sum f + (h'.cells p).elim 0 f := by
  have hmem : p ∈ Finset.range h.next := Finset.mem_range.mpr hp
  rw [sum, sum, hnext, ← Finset.sum_erase_add _ _ hmem, ← Finset.sum_erase_add _ _ hmem]
  have hrest : ∑ q ∈ (Finset.range h.next).erase p, (h'.cells q).elim 0 f =
      ∑ q ∈ (Finset.range h.next).erase p, (h.cells q).elim 0 f :=
    Finset.sum_congr rfl fun q hq => by rw [hne q (Finset.ne_of_mem_erase hq)]
  rw [hrest]
  omega

theorem sum_write {b : α} (f : α → Nat) (hp : h.cells p = some b) :
    (h.write p a).sum f + f b = h.sum f + f a := by
  have hsum : (h.write p a).sum f + (h.cells p).elim 0 f =
      h.sum f + ((h.write p a).cells p).elim 0 f :=
    sum_add_of_update rfl (lt_next hp) fun q hq => cells_write_of_ne hq
  rwa [hp, cells_write_self hp] at hsum

theorem sum_free (f : α → Nat) (hp : h.cells p = some a) :
    (h.free p).sum f + f a = h.sum f := by
  have hsum : (h.free p).sum f + (h.cells p).elim 0 f =
      h.sum f + ((h.free p).cells p).elim 0 f :=
    sum_add_of_update rfl (lt_next hp) fun q hq => cells_free_of_ne hq
  rwa [hp, cells_free_self] at hsum

theorem le_sum (f : α → Nat) (hp : h.cells p = some a) : f a ≤ h.sum f := by
  have hsum := sum_free f hp
  omega

/-- Some live object accounts for a positive sum. -/
theorem exists_of_sum_pos {f : α → Nat} (hpos : 0 < h.sum f) :
    ∃ p a, h.cells p = some a ∧ 0 < f a := by
  obtain ⟨p, _, hp⟩ := Finset.exists_ne_zero_of_sum_ne_zero (Nat.pos_iff_ne_zero.mp hpos)
  cases hcell : h.cells p with
  | none => rw [hcell] at hp; exact absurd rfl hp
  | some a => exact ⟨p, a, hcell, Nat.pos_of_ne_zero (by rw [hcell] at hp; exact hp)⟩

/-- Nothing is counted where nothing is live. -/
theorem sum_eq_zero (hnone : ∀ p, h.cells p = none) (f : α → Nat) : h.sum f = 0 := by
  by_contra hpos
  obtain ⟨p, a, hp, _⟩ := exists_of_sum_pos (Nat.pos_of_ne_zero hpos)
  rw [hnone p] at hp
  cases hp

end Heap
