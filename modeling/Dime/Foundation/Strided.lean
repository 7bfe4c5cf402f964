import Mathlib.Algebra.BigOperators.Group.List.Basic
import Mathlib.Data.List.Forall2
import Mathlib.Data.Set.Function
import Mathlib.Tactic.Ring

/-!
# Strided arrays

Index vectors of a shape, their column-major order, and where an array with
given strides keeps the item of an index vector.
-/

namespace Strided

universe u v

variable {α : Type u} {β : Type v}

/-- `idx` is an index vector of an array of that shape. -/
abbrev InShape (shape idx : List Nat) : Prop := List.Forall₂ (· < ·) idx shape

/-- The index vectors of a shape, the first index running fastest. -/
def columnMajor : List Nat → List (List Nat)
  | [] => [[]]
  | n :: shape => (columnMajor shape).flatMap fun idx => (List.range n).map (· :: idx)

/-- The index vectors of a shape, the last index running fastest. -/
def rowMajor : List Nat → List (List Nat)
  | [] => [[]]
  | n :: shape => (List.range n).flatMap fun i => (rowMajor shape).map (i :: ·)

/-- The place of an index vector in the column-major order. -/
def ravel : List Nat → List Nat → Nat
  | n :: shape, i :: idx => i + n * ravel shape idx
  | _, _ => 0

/-- How far from the first item the item of an index vector lies. -/
def displacement : List Int → List Nat → Int
  | stride :: strides, i :: idx => i * stride + displacement strides idx
  | _, _ => 0

/-- The strides of a contiguous column-major array of items of that size. -/
def columnStrides (size : Nat) : List Nat → List Int
  | [] => []
  | n :: shape => size :: columnStrides (size * n) shape

@[simp] theorem columnMajor_nil : columnMajor [] = [[]] := rfl

@[simp] theorem ravel_cons (n i : Nat) (shape idx : List Nat) :
    ravel (n :: shape) (i :: idx) = i + n * ravel shape idx := rfl

@[simp] theorem displacement_cons (stride : Int) (strides : List Int) (i : Nat) (idx : List Nat) :
    displacement (stride :: strides) (i :: idx) = i * stride + displacement strides idx := rfl

@[simp] theorem displacement_nil (idx : List Nat) : displacement [] idx = 0 := by
  cases idx <;> rfl

/-! ## Blocks of equal length -/

theorem length_flatMap_const {n : Nat} {f : α → List β} {l : List α}
    (hf : ∀ a ∈ l, (f a).length = n) : (l.flatMap f).length = n * l.length := by
  induction l with
  | nil => simp
  | cons a l ih =>
      rw [List.flatMap_cons, List.length_append, hf a List.mem_cons_self,
        ih fun b hb => hf b (List.mem_cons_of_mem a hb), List.length_cons, Nat.mul_succ]
      exact Nat.add_comm _ _

/-- The `j`-th of several blocks laid end to end. -/
theorem block_flatMap {n : Nat} {f : α → List β} {l : List α} (hf : ∀ a ∈ l, (f a).length = n)
    {j : Nat} {a : α} (ha : l[j]? = some a) : ((l.flatMap f).drop (n * j)).take n = f a := by
  induction l generalizing j with
  | nil => simp at ha
  | cons b l ih =>
      have hb : (f b).length = n := hf b List.mem_cons_self
      have hl : ∀ c ∈ l, (f c).length = n := fun c hc => hf c (List.mem_cons_of_mem b hc)
      rw [List.flatMap_cons]
      cases j with
      | zero =>
          have : b = a := by simpa using ha
          rw [Nat.mul_zero, List.drop_zero, List.take_left' hb, this]
      | succ j =>
          have hj : l[j]? = some a := by simpa using ha
          rw [Nat.mul_succ, Nat.add_comm, ← List.drop_drop, List.drop_left' hb]
          exact ih hl hj

/-! ## Column-major order -/

theorem length_columnMajor (shape : List Nat) : (columnMajor shape).length = shape.prod := by
  induction shape with
  | nil => rfl
  | cons n shape ih =>
      rw [columnMajor, length_flatMap_const (n := n) (by simp), ih, List.prod_cons]

theorem mem_columnMajor {shape idx : List Nat} : idx ∈ columnMajor shape ↔ InShape shape idx := by
  induction shape generalizing idx with
  | nil => simp
  | cons n shape ih =>
      rw [columnMajor, List.mem_flatMap]
      constructor
      · intro h
        obtain ⟨rest, hrest, hidx⟩ := h
        obtain ⟨i, hi, rfl⟩ := List.mem_map.mp hidx
        exact .cons (List.mem_range.mp hi) (ih.mp hrest)
      · intro h
        cases h with
        | cons hi hrest =>
            exact ⟨_, ih.mpr hrest, List.mem_map.mpr ⟨_, List.mem_range.mpr hi, rfl⟩⟩

theorem mem_rowMajor {shape idx : List Nat} : idx ∈ rowMajor shape ↔ InShape shape idx := by
  induction shape generalizing idx with
  | nil => simp [rowMajor]
  | cons n shape ih =>
      rw [rowMajor, List.mem_flatMap]
      constructor
      · intro h
        obtain ⟨i, hi, hidx⟩ := h
        obtain ⟨rest, hrest, rfl⟩ := List.mem_map.mp hidx
        exact .cons (List.mem_range.mp hi) (ih.mp hrest)
      · intro h
        cases h with
        | cons hi hrest =>
            exact ⟨_, List.mem_range.mpr hi, List.mem_map.mpr ⟨_, ih.mpr hrest, rfl⟩⟩

theorem length_rowMajor (shape : List Nat) : (rowMajor shape).length = shape.prod := by
  induction shape with
  | nil => rfl
  | cons n shape ih =>
      rw [rowMajor, length_flatMap_const (n := shape.prod) (by simp [ih]), List.length_range,
        List.prod_cons, Nat.mul_comm]

theorem ravel_lt {shape idx : List Nat} (h : InShape shape idx) :
    ravel shape idx < shape.prod := by
  induction h with
  | nil => exact Nat.one_pos
  | @cons i n idx shape hi _ ih =>
      calc i + n * ravel shape idx
          < n + n * ravel shape idx := Nat.add_lt_add_right hi _
        _ = n * (ravel shape idx + 1) := by ring
        _ ≤ n * shape.prod := Nat.mul_le_mul_left n ih
        _ = (n :: shape).prod := List.prod_cons.symm

/-- An index vector stands at its place in the order. -/
theorem columnMajor_ravel {shape idx : List Nat} (h : InShape shape idx) :
    (columnMajor shape)[ravel shape idx]? = some idx := by
  induction h with
  | nil => rfl
  | @cons i n idx shape hi _ ih =>
      have hblock := block_flatMap (n := n) (f := fun idx => (List.range n).map (· :: idx))
        (by simp) ih
      have hget := congrArg (·[i]?) hblock
      rw [List.getElem?_take_of_lt hi, List.getElem?_drop] at hget
      rw [columnMajor, ravel_cons, Nat.add_comm]
      refine hget.trans ?_
      simp [hi]

/-- Blocks of consecutive numbers. -/
theorem flatMap_range (p m : Nat) :
    ((List.range m).flatMap fun r => (List.range p).map fun k => p * r + k) = List.range (p * m) := by
  induction m with
  | zero => rfl
  | succ m ih =>
      rw [List.range_succ, List.flatMap_append, ih, Nat.mul_succ, List.range_add]
      simp

/-- The places of the index vectors in their order. -/
theorem map_ravel_columnMajor (shape : List Nat) :
    (columnMajor shape).map (ravel shape) = List.range shape.prod := by
  induction shape with
  | nil => rfl
  | cons n shape ih =>
      calc (columnMajor (n :: shape)).map (ravel (n :: shape))
          = (columnMajor shape).flatMap fun idx =>
              (List.range n).map fun i => n * ravel shape idx + i := by
            rw [columnMajor, List.map_flatMap]
            simp [Function.comp_def, Nat.add_comm]
        _ = ((columnMajor shape).map (ravel shape)).flatMap fun r =>
              (List.range n).map fun i => n * r + i := by rw [List.flatMap_map]
        _ = List.range (n :: shape).prod := by rw [ih, flatMap_range, List.prod_cons]

/-- The two orders list the same things exactly if each index vector has the same as the
one at its place in the other order. -/
theorem map_rowMajor_eq_iff (shape : List Nat) (f : List Nat → α) :
    (rowMajor shape).map f = (columnMajor shape).map f ↔
      ∀ idx idx', InShape shape idx → (rowMajor shape)[ravel shape idx]? = some idx' →
        f idx' = f idx := by
  constructor
  · intro h idx idx' hidx hrow
    have hplace := congrArg (·[ravel shape idx]?) h
    simp only [List.getElem?_map, hrow, columnMajor_ravel hidx, Option.map_some] at hplace
    exact Option.some.inj hplace
  · intro h
    apply List.ext_getElem
    · rw [List.length_map, List.length_map, length_rowMajor, length_columnMajor]
    · intro i hi hi'
      rw [List.length_map] at hi hi'
      rw [List.getElem_map, List.getElem_map]
      have hin : InShape shape (columnMajor shape)[i] := mem_columnMajor.mp (List.getElem_mem hi')
      have hravel : ravel shape (columnMajor shape)[i] = i := by
        have hplaced : i < ((columnMajor shape).map (ravel shape)).length := by rwa [List.length_map]
        have hplace : ((columnMajor shape).map (ravel shape))[i] = i := by
          simp only [map_ravel_columnMajor, List.getElem_range]
        rwa [List.getElem_map] at hplace
      apply h _ _ hin
      rw [hravel]
      exact List.getElem?_eq_getElem hi

/-- What depends on the places alone can be laid out place by place. -/
theorem flatMap_ravel (shape : List Nat) (p : Nat) (f : Nat → List β) :
    ((columnMajor shape).flatMap fun idx =>
      (List.range p).flatMap fun k => f (p * ravel shape idx + k)) =
      (List.range (p * shape.prod)).flatMap f := by
  rw [← flatMap_range, ← map_ravel_columnMajor, List.flatMap_assoc, List.flatMap_map]
  simp [List.flatMap_map]

/-- In a contiguous array the items stand in column-major order. -/
theorem displacement_columnStrides (size : Nat) {shape idx : List Nat} (h : InShape shape idx) :
    displacement (columnStrides size shape) idx = (size * ravel shape idx : Nat) := by
  induction h generalizing size with
  | nil => simp [columnStrides, ravel]
  | @cons i n idx shape _ _ ih =>
      rw [columnStrides, displacement_cons, ih (size * n), ravel_cons]
      push_cast
      ring

@[simp] theorem length_columnStrides (size : Nat) (shape : List Nat) :
    (columnStrides size shape).length = shape.length := by
  induction shape generalizing size with
  | nil => rfl
  | cons n shape ih => simp [columnStrides, ih]

/-! ## Bijections -/

/-- Each place of an array belongs to one index vector. -/
theorem ravel_bijOn (shape : List Nat) :
    Set.BijOn (ravel shape) {idx | InShape shape idx} (Set.Iio shape.prod) := by
  refine ⟨fun idx hidx => ravel_lt hidx, ?_, ?_⟩
  · intro idx hidx idx' hidx' heq
    have hplace := columnMajor_ravel hidx
    rw [heq, columnMajor_ravel hidx'] at hplace
    exact (Option.some.inj hplace).symm
  · intro k hk
    have hmem : k ∈ (columnMajor shape).map (ravel shape) := by
      rw [map_ravel_columnMajor]
      exact List.mem_range.mpr hk
    obtain ⟨idx, hidx, rfl⟩ := List.mem_map.mp hmem
    exact ⟨idx, mem_columnMajor.mp hidx, rfl⟩

theorem inShape_reverse {shape idx : List Nat} :
    InShape shape.reverse idx.reverse ↔ InShape shape idx := List.forall₂_reverse_iff

theorem reverse_bijOn (shape : List Nat) :
    Set.BijOn List.reverse {idx | InShape shape idx} {idx | InShape shape.reverse idx} := by
  refine ⟨fun idx hidx => inShape_reverse.mpr hidx, List.reverse_injective.injOn, ?_⟩
  intro idx hidx
  refine ⟨idx.reverse, ?_, List.reverse_reverse idx⟩
  apply inShape_reverse.mp
  rwa [List.reverse_reverse]

/-- The same holds if the last index runs fastest. -/
theorem ravel_reverse_bijOn (shape : List Nat) :
    Set.BijOn (fun idx => ravel shape.reverse idx.reverse) {idx | InShape shape idx}
      (Set.Iio shape.prod) := by
  have hprod : shape.reverse.prod = shape.prod := (List.reverse_perm shape).prod_eq
  have hbij := (ravel_bijOn shape.reverse).comp (reverse_bijOn shape)
  rwa [hprod] at hbij

/-! ## Overwriting -/

/-- A list with a block in place of the items from a position on. -/
def overwrite (l : List α) (pos : Nat) (block : List α) : List α :=
  l.take pos ++ block ++ l.drop (pos + block.length)

variable {l block : List α} {pos : Nat}

theorem length_overwrite (h : pos + block.length ≤ l.length) :
    (overwrite l pos block).length = l.length := by
  simp only [overwrite, List.length_append, List.length_take, List.length_drop]
  omega

theorem overwrite_here (h : pos + block.length ≤ l.length) :
    ((overwrite l pos block).drop pos).take block.length = block := by
  have hfront : (l.take pos).length = pos := List.length_take_of_le (by omega)
  rw [overwrite, List.append_assoc, List.drop_left' hfront]
  exact List.take_left' rfl

theorem overwrite_apart (h : pos + block.length ≤ l.length) {start n : Nat}
    (hapart : start + n ≤ pos ∨ pos + block.length ≤ start) :
    ((overwrite l pos block).drop start).take n = (l.drop start).take n := by
  apply List.ext_getElem?
  intro i
  rw [List.getElem?_take, List.getElem?_take]
  split
  next hi =>
    rw [List.getElem?_drop, List.getElem?_drop, overwrite]
    have hfront : (l.take pos).length = pos := List.length_take_of_le (by omega)
    rcases hapart with hbefore | hbehind
    · rw [List.append_assoc, List.getElem?_append_left (by omega), List.getElem?_take_of_lt (by omega)]
    · have hlen : (l.take pos ++ block).length = pos + block.length := by
        rw [List.length_append, hfront]
      rw [List.getElem?_append_right (by omega), hlen, List.getElem?_drop]
      congr 1
      omega
  next => rfl

end Strided
