import Mathlib.Data.List.Perm.Basic
import Mathlib.Data.List.Nodup

/-!
# Growing arrays without order

Arrays that grow by half when they are full and lose an element by moving the
last one into its place. The structure carries the bound on the length, and an
element is added only through a capacity that has room for it.
-/

universe u

structure GrowArray (α : Type u) where
  items : List α
  cap : Nat
  len_le : items.length ≤ cap
  two_le : 2 ≤ cap

namespace GrowArray

variable {α : Type u}

/-- The elements without the `j`-th, whose place the last one takes. -/
def swapRemove (items : List α) (j : Nat) : List α :=
  match items.getLast? with
  | none => items
  | some last => (items.set j last).dropLast

theorem length_swapRemove (items : List α) (j : Nat) :
    (swapRemove items j).length = items.length - 1 := by
  rw [swapRemove]
  cases h : items.getLast? with
  | none => rw [List.getLast?_eq_none_iff.mp h]; rfl
  | some last => simp

/-- The removed element and the others are what was there. -/
theorem swapRemove_perm {items : List α} {j : Nat} {a : α} (hj : items[j]? = some a) :
    (a :: swapRemove items j).Perm items := by
  rcases List.eq_nil_or_concat items with rfl | ⟨front, last, rfl⟩
  · simp at hj
  · rw [List.concat_eq_append] at hj ⊢
    rw [swapRemove, List.getLast?_append_of_ne_nil _ (by simp), List.getLast?_singleton]
    dsimp only
    rcases Nat.lt_or_ge j front.length with hlt | hge
    · rw [List.getElem?_append_left hlt] at hj
      rw [List.set_append_left _ _ hlt, List.dropLast_concat]
      have hset : (last :: front).Perm (a :: front.set j last) := by
        have hsplit := List.take_append_drop j front
        have hdrop : front.drop j = a :: front.drop (j + 1) := by
          obtain ⟨hlt', rfl⟩ := List.getElem?_eq_some_iff.mp hj
          exact List.drop_eq_getElem_cons hlt'
        rw [List.set_eq_take_append_cons_drop, if_pos hlt]
        calc last :: front = last :: (front.take j ++ a :: front.drop (j + 1)) := by
              rw [← hdrop, hsplit]
          _ |>.Perm (last :: a :: (front.take j ++ front.drop (j + 1))) :=
              (List.perm_middle).cons last
          _ |>.Perm (a :: last :: (front.take j ++ front.drop (j + 1))) := List.Perm.swap _ _ _
          _ |>.Perm (a :: (front.take j ++ last :: front.drop (j + 1))) :=
              (List.perm_middle.symm).cons a
      exact hset.symm.trans (List.perm_append_singleton last front).symm
    · have hlen : (front ++ [last]).length = front.length + 1 := by simp
      have hlt := (List.getElem?_eq_some_iff.mp hj).1
      have heq : j = front.length := by omega
      subst heq
      rw [List.getElem?_append_right (Nat.le_refl _), Nat.sub_self] at hj
      obtain rfl : last = a := by simpa using hj
      rw [List.set_append_right _ _ (Nat.le_refl _), Nat.sub_self, List.set_cons_zero, List.dropLast_concat]
      exact (List.perm_append_singleton last front).symm

/-- An empty array of capacity four. -/
def empty : GrowArray α := ⟨[], 4, Nat.zero_le _, by decide⟩

/-- Make room for one more element; `none` when the `realloc` fails. -/
def reserve (realloc : Bool) (arr : GrowArray α) :
    Option { arr : GrowArray α // arr.items.length < arr.cap } :=
  if h : arr.items.length ≥ arr.cap then
    if realloc then
      some ⟨{ arr with
        cap := arr.cap * 3 / 2
        len_le := by have := arr.len_le; omega
        two_le := by have := arr.two_le; omega },
        by have := arr.len_le; have := arr.two_le; dsimp only; omega⟩
    else none
  else some ⟨arr, by omega⟩

/-- Add an element at the end of an array that has room for it. -/
def push (arr : { arr : GrowArray α // arr.items.length < arr.cap }) (a : α) : GrowArray α where
  items := arr.1.items ++ [a]
  cap := arr.1.cap
  len_le := by
    rw [List.length_append, List.length_singleton]
    exact arr.2
  two_le := arr.1.two_le

def removeAt (arr : GrowArray α) (j : Nat) : GrowArray α where
  items := swapRemove arr.items j
  cap := arr.cap
  len_le := by have := arr.len_le; rw [length_swapRemove]; omega
  two_le := arr.two_le

@[simp] theorem items_empty : (empty : GrowArray α).items = [] := rfl

@[simp] theorem items_push (arr : { arr : GrowArray α // arr.items.length < arr.cap }) (a : α) :
    (push arr a).items = arr.1.items ++ [a] := rfl

@[simp] theorem items_removeAt (arr : GrowArray α) (j : Nat) :
    (arr.removeAt j).items = swapRemove arr.items j := rfl

/-- Making room keeps the elements. -/
theorem reserve_eq_some {realloc : Bool} {arr : GrowArray α}
    {roomy : { arr : GrowArray α // arr.items.length < arr.cap }}
    (h : arr.reserve realloc = some roomy) : roomy.1.items = arr.items := by
  rw [reserve] at h
  split at h
  · split at h
    · cases h
      rfl
    · cases h
  · cases h
    rfl

/-- A `realloc` that succeeds makes room and keeps the elements. -/
theorem reserve_true (arr : GrowArray α) :
    ∃ roomy, arr.reserve true = some roomy ∧ roomy.1.items = arr.items := by
  rw [reserve]
  split
  next => exact ⟨_, rfl, rfl⟩
  next => exact ⟨_, rfl, rfl⟩

theorem mem_swapRemove_iff {items : List α} {j : Nat} {a b : α} (hnodup : items.Nodup)
    (hj : items[j]? = some a) : b ∈ swapRemove items j ↔ b ∈ items ∧ b ≠ a := by
  have hperm := swapRemove_perm hj
  have hnodup' := hperm.nodup_iff.mpr hnodup
  rw [← hperm.mem_iff, List.mem_cons]
  constructor
  · intro hb
    exact ⟨.inr hb, fun heq => (List.nodup_cons.mp hnodup').1 (heq ▸ hb)⟩
  · rintro ⟨heq | hb, hne⟩
    · exact absurd heq hne
    · exact hb

theorem nodup_swapRemove {items : List α} {j : Nat} {a : α} (hnodup : items.Nodup)
    (hj : items[j]? = some a) : (swapRemove items j).Nodup :=
  (List.nodup_cons.mp ((swapRemove_perm hj).nodup_iff.mpr hnodup)).2

end GrowArray
