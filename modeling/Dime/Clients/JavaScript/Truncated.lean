import Dime.Clients.JavaScript.DimebRoundTrip
import Dime.Clients.Python.Truncated

/-!
# Truncated data in JavaScript

What `__loads` makes of the beginning of a value, kind by kind.
-/

namespace Dime.JavaScript

open Delimited
open Python (Endian Scalar Tag)

section

variable {host : Endian} {toKey : PropertyKey}

theorem loads_nil : loads host toKey [] = none := by
  rw [loads]

/-! ## Numbers -/

theorem getView_short {type : ElementType} {bytes : Bytes} {i : Nat}
    (h : bytes.length < i + type.itemsize) : getView type bytes i = none :=
  if_neg (Nat.not_le.mpr h)

theorem getUint_short {k i : Nat} {bytes : Bytes} (h : bytes.length < i + k) :
    getUint k bytes i = none :=
  if_neg (Nat.not_le.mpr h)

theorem loadsScalar_short {type : Scalar} {bytes : Bytes} (h : bytes.length < 1 + type.itemsize) :
    loadsScalar bytes type = none := by
  cases type with
  | complexSingle =>
      -- the imaginary part is the last
      have himag : getView .float32 bytes 5 = none := getView_short h
      rw [loadsScalar, himag]
      cases getView .float32 bytes 1 <;> rfl
  | complexDouble =>
      have himag : getView .float64 bytes 9 = none := getView_short h
      rw [loadsScalar, himag]
      cases getView .float64 bytes 1 <;> rfl
  | _ =>
      rw [loadsScalar, getView_short h]
      rfl

/-- A number is there with all of its bytes or not at all. -/
theorem cuts_scalar {C : Type} {f : Value → C} {c : Option C} {type : Scalar} {s : Bytes}
    (hs : s.length = type.itemsize) :
    Cuts (loads host toKey) f ((Tag.scalar type).code :: s) c fun _ => False := by
  apply Cuts.never
  intro p q hdata hne
  obtain ⟨rfl, _⟩ | ⟨r, rfl, rfl⟩ := List.cons_eq_append_iff.mp hdata
  · exact loads_nil
  · rw [← code_eq, loads_scalar]
    apply loadsScalar_short
    have hpos := List.length_pos_of_ne_nil hne
    rw [List.length_append] at hs
    rw [List.length_cons]
    omega

theorem cuts_tag {C : Type} {f : Value → C} {c : Option C} (tag : UInt8) :
    Cuts (loads host toKey) f [tag] c fun _ => False := by
  apply Cuts.never
  intro p q hdata hne
  obtain ⟨rfl, _⟩ | ⟨r, rfl, hr⟩ := List.cons_eq_append_iff.mp hdata
  · exact loads_nil
  · exact absurd (List.append_eq_nil_iff.mp hr.symm).2 hne

theorem cuts_atomic {C : Type} {f : Value → C} {c : Option C} {data : Bytes}
    (h : Python.Atomic data) : Cuts (loads host toKey) f data c fun _ => False := by
  obtain ⟨tag, rfl⟩ | ⟨type, s, rfl, hs⟩ := h
  · exact cuts_tag tag
  · exact cuts_scalar hs

/-! ## Matrices -/

theorem mapM_range_eq_none {α : Type} {f : Nat → Option α} {n i : Nat} (hi : i < n) (h : f i = none) :
    (List.range n).mapM f = none := by
  rw [Option.eq_none_iff_forall_ne_some]
  intro l hl
  rw [Python.mapM_eq_some_iff, List.forall₂_iff_get] at hl
  have hget := hl.2 i (by rwa [List.length_range]) (by rwa [← hl.1, List.length_range])
  rw [List.get_eq_getElem, List.getElem_range, h] at hget
  cases hget

/-- The shape is there with all of its bytes or not at all. -/
theorem loadsmat_header (host : Endian) {type : Scalar} {shape : List Nat} (hsmall : shape.length < 256)
    {p q : Bytes} (hheader : Python.matHeader type shape = p ++ q) (hne : q ≠ [])
    (element : ElementType) (complex : Bool) : loadsmat host p element complex = none := by
  have hlength : p.length < 4 * shape.length + 2 := by
    have hpos := List.length_pos_of_ne_nil hne
    rw [← Python.length_matHeader type shape, hheader, List.length_append]
    omega
  by_cases hp : p.length < 2
  · have hrank : getUint 1 p 1 = none := getUint_short hp
    rw [loadsmat, hrank]
    rfl
  · obtain ⟨rest, rfl⟩ : ∃ rest, p = (Tag.mat type).code :: UInt8.ofNat shape.length :: rest := by
      rw [Python.matHeader, List.cons_append, List.cons_append, List.nil_append] at hheader
      obtain ⟨rfl, _⟩ | ⟨p', rfl, hp'⟩ := List.cons_eq_append_iff.mp hheader
      · exact absurd Nat.two_pos hp
      · obtain ⟨rfl, _⟩ | ⟨rest, rfl, _⟩ := List.cons_eq_append_iff.mp hp'
        · exact absurd Nat.one_lt_two hp
        · exact ⟨rest, rfl⟩
    -- the last dimension is not there
    have hpos : 0 < shape.length := by omega
    have hlast : getUint 4 ((Tag.mat type).code :: UInt8.ofNat shape.length :: rest)
        (2 + (shape.length - 1) * 4) = none := getUint_short (by omega)
    have hshape := mapM_range_eq_none (f := fun i =>
      getUint 4 ((Tag.mat type).code :: UInt8.ofNat shape.length :: rest) (2 + i * 4))
      (Nat.sub_lt hpos Nat.one_pos) hlast
    simp only [loadsmat, getUint_rank hsmall, hshape, Option.bind_eq_bind, Option.bind_some,
      Option.bind_none]

/-- The elements are there with all of their bytes or none is read. -/
theorem loadsmat_elements (host : Endian) {type : Scalar} {shape : List Nat}
    (hsmall : shape.length < 256) (hshape : ∀ n ∈ shape, n < 2 ^ 32) {s : Bytes}
    (hs : s.length < (elementType type).itemsize * (parts type * shape.prod)) :
    loadsmat host (Python.matHeader type shape ++ s) (elementType type) (decide (type.kind = .c)) =
      none := by
  have hrank : getUint 1 (Python.matHeader type shape ++ s) 1 = some shape.length :=
    getUint_rank hsmall _ _
  have hnelems : (asRow shape).prod * (if decide (type.kind = .c) = true then 2 else 1) =
      parts type * shape.prod := by
    rw [prod_asRow, parts, Nat.mul_comm]
    simp
  have hpos : 0 < parts type * shape.prod := Nat.pos_of_mul_pos_left (Nat.zero_lt_of_lt hs)
  have hlast : getView (elementType type) (Python.matHeader type shape ++ s)
      (2 + 4 * shape.length + (parts type * shape.prod - 1) * (elementType type).itemsize) = none := by
    apply getView_short
    have hmul : (parts type * shape.prod - 1) * (elementType type).itemsize +
        (elementType type).itemsize = (elementType type).itemsize * (parts type * shape.prod) := by
      rw [← Nat.succ_mul, Nat.succ_eq_add_one, Nat.sub_add_cancel hpos, Nat.mul_comm]
    rw [List.length_append, Python.length_matHeader]
    omega
  have hvalues := mapM_range_eq_none (f := fun i => getView (elementType type)
    (Python.matHeader type shape ++ s) (2 + 4 * shape.length + i * (elementType type).itemsize))
    (Nat.sub_lt hpos Nat.one_pos) hlast
  simp only [loadsmat, hrank, getUint_matHeader type hshape, asRow_eq, hnelems, hvalues,
    Option.bind_eq_bind, Option.bind_some, Option.bind_none]
  cases guard (f := Option) (shape ≠ []) <;> rfl

theorem loadsMatrix_eq_none {bytes : Bytes} {type : Scalar}
    (h : loadsmat host bytes (elementType type) (decide (type.kind = .c)) = none) :
    loadsMatrix host bytes type = none := by
  cases type with
  | i64 => exact Option.bind_eq_none_iff.mpr fun r hr => by cases h.symm.trans hr
  | u64 => exact Option.bind_eq_none_iff.mpr fun r hr => by cases h.symm.trans hr
  | _ => exact h

end

end Dime.JavaScript
