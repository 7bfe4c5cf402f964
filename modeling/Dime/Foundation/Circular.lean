import Mathlib.Data.List.Basic
import Mathlib.Data.Nat.ModEq

/-!
# Circular windows over an array of cells

A queue kept in an array reads its contents through a window that starts at
some cell and wraps at the capacity. Block copies into the array and a move of
the upper part into a larger array are described by what they do to the window.
-/

namespace Circular

universe u

variable {α : Type u}

/-- The `len` cells from `start` on, wrapping at `cap`. -/
def window (cell : Nat → α) (cap start len : Nat) : List α :=
  (List.range len).map fun k => cell ((start + k) % cap)

/-- Copy the elements of `xs` to the cells from `off` on. -/
def store (cell : Nat → α) (off : Nat) (xs : List α) : Nat → α :=
  fun i => if h : off ≤ i ∧ i - off < xs.length then xs.get ⟨i - off, h.2⟩ else cell i

/-- Move `len` cells from `src` to `dst`. The two ranges may overlap. -/
def move (cell : Nat → α) (dst src len : Nat) : Nat → α :=
  fun i => if dst ≤ i ∧ i - dst < len then cell (src + (i - dst)) else cell i

/-- The `len` cells from `off` on, without wrapping. -/
def load (cell : Nat → α) (off len : Nat) : List α :=
  (List.range len).map fun k => cell (off + k)

@[simp] theorem length_load (cell : Nat → α) (off len : Nat) :
    (load cell off len).length = len := by
  simp [load]

@[simp] theorem length_window (cell : Nat → α) (cap start len : Nat) :
    (window cell cap start len).length = len := by
  simp [window]

@[simp] theorem getElem_window (cell : Nat → α) (cap start len k : Nat)
    (hk : k < (window cell cap start len).length) :
    (window cell cap start len)[k] = cell ((start + k) % cap) := by
  simp [window]

@[simp] theorem window_zero (cell : Nat → α) (cap start : Nat) :
    window cell cap start 0 = [] := rfl

theorem window_congr {cell cell' : Nat → α} {cap cap' start start' len : Nat}
    (h : ∀ k < len, cell' ((start' + k) % cap') = cell ((start + k) % cap)) :
    window cell' cap' start' len = window cell cap start len := by
  apply List.map_congr_left
  intro k hk
  exact h k (List.mem_range.mp hk)

theorem window_mod (cell : Nat → α) (cap start len : Nat) :
    window cell cap (start % cap) len = window cell cap start len :=
  window_congr fun k _ => by rw [Nat.mod_add_mod]

/-- A window splits at any point into two adjacent windows. -/
theorem window_add (cell : Nat → α) (cap start m n : Nat) :
    window cell cap start (m + n) =
      window cell cap start m ++ window cell cap (start + m) n := by
  simp only [window, List.range_add, List.map_append, List.map_map]
  congr 1
  apply List.map_congr_left
  intro k _
  simp [Nat.add_assoc]

theorem window_take (cell : Nat → α) (cap start : Nat) {m len : Nat} (hm : m ≤ len) :
    (window cell cap start len).take m = window cell cap start m := by
  obtain ⟨n, rfl⟩ := Nat.exists_eq_add_of_le hm
  rw [window_add, List.take_left' (length_window ..)]

theorem window_drop (cell : Nat → α) (cap start : Nat) {m len : Nat} (hm : m ≤ len) :
    (window cell cap start len).drop m = window cell cap (start + m) (len - m) := by
  obtain ⟨n, rfl⟩ := Nat.exists_eq_add_of_le hm
  rw [window_add, List.drop_left' (length_window ..), Nat.add_sub_cancel_left]

theorem window_succ (cell : Nat → α) (cap start len : Nat) :
    window cell cap start (len + 1) =
      cell (start % cap) :: window cell cap (start + 1) len := by
  rw [Nat.add_comm len 1, window_add]
  simp [window]

/-! ## Block copies -/

theorem store_inside (cell : Nat → α) (off : Nat) (xs : List α) (k : Nat)
    (hk : k < xs.length) : store cell off xs (off + k) = xs[k] := by
  have h : off ≤ off + k ∧ off + k - off < xs.length := by omega
  rw [store, dif_pos h, List.get_eq_getElem]
  simp only [Nat.add_sub_cancel_left]

theorem store_outside (cell : Nat → α) (off : Nat) (xs : List α) (i : Nat)
    (hi : i < off ∨ off + xs.length ≤ i) : store cell off xs i = cell i := by
  have h : ¬ (off ≤ i ∧ i - off < xs.length) := by omega
  simp only [store, dif_neg h]

theorem move_inside (cell : Nat → α) (dst src len k : Nat) (hk : k < len) :
    move cell dst src len (dst + k) = cell (src + k) := by
  have h : dst ≤ dst + k ∧ dst + k - dst < len := by omega
  rw [move, if_pos h, Nat.add_sub_cancel_left]

theorem move_outside (cell : Nat → α) (dst src len i : Nat)
    (hi : i < dst ∨ dst + len ≤ i) : move cell dst src len i = cell i := by
  have h : ¬ (dst ≤ i ∧ i - dst < len) := by omega
  simp only [move, if_neg h]

/-- Reducing an index that runs at most once past the capacity. -/
theorem wrap (cap : Nat) {i : Nat} (hi : i < 2 * cap) :
    i % cap = if i < cap then i else i - cap := by
  split
  next h => exact Nat.mod_eq_of_lt h
  next h =>
    rw [Nat.mod_eq_sub_mod (by omega), Nat.mod_eq_of_lt (by omega)]

/-- Reading a window in two straight pieces, cut at the capacity. -/
theorem load_append_load (cell : Nat → α) {cap start len : Nat}
    (hstart : start < cap) (hlen : len ≤ cap) (hcut : cap - start < len) :
    load cell start (cap - start) ++ load cell 0 (len - (cap - start)) =
      window cell cap start len := by
  obtain ⟨rest, rfl⟩ := Nat.exists_eq_add_of_lt hcut
  rw [Nat.add_assoc, window_add, Nat.add_sub_cancel_left]
  congr 1
  · apply List.map_congr_left
    intro k hk
    rw [Nat.mod_eq_of_lt (by have := List.mem_range.mp hk; omega)]
  · apply List.map_congr_left
    intro k hk
    have hk := List.mem_range.mp hk
    rw [wrap cap (by omega), if_neg (by omega)]
    congr 1
    omega

theorem load_eq_window (cell : Nat → α) {cap start len : Nat}
    (hfit : start + len ≤ cap) : load cell start len = window cell cap start len := by
  apply List.map_congr_left
  intro k hk
  rw [Nat.mod_eq_of_lt (by have := List.mem_range.mp hk; omega)]

/-- A copy of `xs` that is cut at the capacity and continued at cell `0`. -/
def wrapStore (cell : Nat → α) (cap off : Nat) (xs : List α) : Nat → α :=
  if cap - off < xs.length then
    store (store cell off (xs.take (cap - off))) 0 (xs.drop (cap - off))
  else store cell off xs

theorem wrapStore_inside (cell : Nat → α) {cap off : Nat} (xs : List α)
    (hoff : off < cap) (hlen : xs.length ≤ cap) (k : Nat) (hk : k < xs.length) :
    wrapStore cell cap off xs ((off + k) % cap) = xs[k] := by
  rw [wrap cap (by omega)]
  unfold wrapStore
  split
  next hcut =>
    split
    next hin =>
      rw [store_outside _ _ _ _ (by simp; omega), store_inside _ _ _ _ (by simp; omega)]
      simp
    next hin =>
      have hpos : off + k - cap = 0 + (k - (cap - off)) := by omega
      rw [hpos, store_inside _ _ _ _ (by simp; omega)]
      simp only [List.getElem_drop]
      congr 1
      omega
  next hfit =>
    rw [if_pos (by omega), store_inside _ _ _ _ hk]

theorem wrapStore_outside (cell : Nat → α) {cap off : Nat} (xs : List α)
    (hoff : off < cap) {i : Nat} (hi : i < cap)
    (hout : ∀ k < xs.length, (off + k) % cap ≠ i) :
    wrapStore cell cap off xs i = cell i := by
  unfold wrapStore
  split
  next hcut =>
    have hlow : i < off := by
      by_contra hge
      refine hout (i - off) (by omega) ?_
      rw [Nat.mod_eq_of_lt (by omega)]
      omega
    have hhigh : xs.length - (cap - off) ≤ i := by
      by_contra hlt
      refine hout (i + cap - off) (by omega) ?_
      rw [wrap cap (by omega), if_neg (by omega)]
      omega
    rw [store_outside _ _ _ _ (by simp; omega), store_outside _ _ _ _ (by simp; omega)]
  next hfit =>
    apply store_outside
    by_contra hin
    refine hout (i - off) (by omega) ?_
    rw [Nat.mod_eq_of_lt (by omega)]
    omega

/-- Copying `xs` right behind a window appends `xs` to it, as long as both fit. -/
theorem window_wrapStore (cell : Nat → α) {cap start len : Nat} (xs : List α)
    (hstart : start < cap) (hfit : len + xs.length ≤ cap) :
    window (wrapStore cell cap ((start + len) % cap) xs) cap start (len + xs.length) =
      window cell cap start len ++ xs := by
  have hend : (start + len) % cap < cap := Nat.mod_lt _ (by omega)
  rw [window_add]
  congr 1
  · apply window_congr
    intro k hk
    apply wrapStore_outside _ _ hend (Nat.mod_lt _ (by omega))
    intro j hj
    rw [Nat.mod_add_mod, wrap cap (i := start + k) (by omega)]
    rcases lt_or_ge (start + len + j) (2 * cap) with hlt | hge
    · rw [wrap cap hlt]
      split <;> split <;> omega
    · have hsub : start + len + j = (start + len + j - 2 * cap) + 2 * cap := by omega
      rw [hsub, Nat.add_mul_mod_self_right, Nat.mod_eq_of_lt (by omega)]
      split <;> omega
  · apply List.ext_getElem (by simp)
    intro k hk _
    simp only [getElem_window]
    have hkx : k < xs.length := by simpa using hk
    rw [← Nat.mod_add_mod (start + len)]
    exact wrapStore_inside cell xs hend (by omega) k hkx

/-- Enlarging the array by `extra` cells and moving everything from `start` on
up by as much keeps the window. -/
theorem window_move (cell : Nat → α) {cap start len extra : Nat}
    (hstart : start < cap) (hlen : len ≤ cap) :
    window (move cell (start + extra) start (cap - start)) (cap + extra) (start + extra) len =
      window cell cap start len := by
  apply window_congr
  intro k hk
  rw [wrap (cap + extra) (by omega), wrap cap (by omega)]
  split
  next h =>
    rw [if_pos (by omega), show start + extra + k = (start + extra) + k from rfl,
      move_inside _ _ _ _ _ (by omega)]
  next h =>
    rw [if_neg (by omega), move_outside _ _ _ _ _ (by omega)]
    congr 1
    omega

/-- Enlarging the array keeps a window that does not wrap. -/
theorem window_enlarge (cell : Nat → α) {cap cap' start len : Nat}
    (hcap : cap ≤ cap') (hfit : start + len ≤ cap) :
    window cell cap' start len = window cell cap start len := by
  apply window_congr
  intro k hk
  rw [Nat.mod_eq_of_lt (by omega), Nat.mod_eq_of_lt (by omega)]

end Circular
