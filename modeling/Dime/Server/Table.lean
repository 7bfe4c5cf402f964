import Mathlib.Algebra.BigOperators.Group.Finset.Basic
import Mathlib.Logic.Function.Basic

/-!
# Hash tables

An open-addressing table with triangular probing and lazy deletion. Every probe
loop takes a number of rounds after which it is given up; a result `none` of an
operation means that a loop did not end within its rounds. Capacities are
natural numbers and the load thresholds are compared exactly.
-/

namespace Dime

universe u v

/-- The fields of `dime_table_elem_t` that are read only while it is occupied. -/
structure Entry (K : Type u) (V : Type v) where
  hash : Nat
  key : K
  val : V

/-- `dime_table_elem_t`, by its `use`. -/
inductive Elem (K : Type u) (V : Type v) where
  | free
  | occupied (entry : Entry K V)
  | removed

/-- `dime_table_t`. -/
structure Table (K : Type u) (V : Type v) where
  len : Nat
  cmpF : K → K → Int
  hashF : K → Nat
  arr : Nat → Elem K V
  cap : Nat
  ncollisions : Nat
  nfree : Nat

/-- `x--` on a `size_t`. -/
def predSize (n : Nat) : Nat := if n = 0 then 2 ^ 64 - 1 else n - 1

namespace Table

variable {K : Type u} {V : Type v}

/-- `hash & (tbl->cap - 1)`. -/
def mask (tbl : Table K V) (i : Nat) : Nat := i &&& (tbl.cap - 1)

def setElem (tbl : Table K V) (i : Nat) (elem : Elem K V) : Table K V :=
  { tbl with arr := Function.update tbl.arr i elem }

/-- `MAX_OVERFLOW_FACTOR` is `0.20225424859373685602`. -/
def Overflows (tbl : Table K V) : Prop :=
  tbl.ncollisions * 10 ^ 20 > 20225424859373685602 * tbl.len

instance (tbl : Table K V) : Decidable tbl.Overflows := inferInstanceAs (Decidable (_ > _))

/-- `dime_table_init`. -/
def init (malloc : Bool) (cmpF : K → K → Int) (hashF : K → Nat) : Option (Table K V) :=
  if malloc then
    some { cap := 32, arr := fun _ => .free, len := 0, cmpF, hashF, ncollisions := 0, nfree := 32 }
  else none

mutual

/-- `dime_table_relocate`: pick up the element of slot `i0` and place it again. -/
def relocate : Nat → Table K V → Nat → Option (Table K V)
  | 0, _, _ => none
  | fuel + 1, tbl, i0 =>
      match tbl.arr i0 with
      | .occupied tmp =>
          let i := tbl.mask tmp.hash
          -- it is at home
          if i = i0 then some tbl
          else relocateProbe fuel (tbl.setElem i0 .free) tmp i 1
      | _ => some (tbl.setElem i0 .free)

/-- The probe loop of `dime_table_relocate`. It relocates each slot on its way
before it looks at it. -/
def relocateProbe : Nat → Table K V → Entry K V → Nat → Nat → Option (Table K V)
  | 0, _, _, _, _ => none
  | fuel + 1, tbl, tmp, i, k =>
      match relocate fuel tbl i with
      | none => none
      | some tbl =>
          match tbl.arr i with
          | .occupied _ => relocateProbe fuel tbl tmp (tbl.mask (i + k)) (k + 1)
          | _ =>
              let tbl := tbl.setElem i (.occupied tmp)
              some (if k > 1 then { tbl with ncollisions := tbl.ncollisions + 1 } else tbl)

end

/-- Rounds enough for `relocate`, see `relocate_terminates`. -/
def relocateFuel (cap : Nat) : Nat := (cap + 2) * (cap + 2)

/-- Relocate the slots of a list, in its order. -/
def relocateAll (tbl : Table K V) : List Nat → Option (Table K V)
  | [] => some tbl
  | i :: rest =>
      match relocate (relocateFuel tbl.cap) tbl i with
      | none => none
      | some tbl => tbl.relocateAll rest

/-- The doubled array of `dime_table_grow`, before its elements are relocated. -/
def double (tbl : Table K V) : Table K V :=
  { tbl with
    cap := tbl.cap * 2
    ncollisions := 0
    nfree := tbl.cap * 2 - tbl.len
    arr := fun i => if tbl.cap ≤ i ∧ i < tbl.cap * 2 then .free else tbl.arr i }

/-- `dime_table_grow`, with the value it returns. -/
def grow (realloc : Bool) (tbl : Table K V) : Option (Bool × Table K V) :=
  if realloc then
    (tbl.double.relocateAll (List.range tbl.cap).reverse).map (true, ·)
  else some (false, tbl)

/-- The probe loop of `dime_table_insert`: where it stops and the step it has
reached, or `none` inside if it meets the key. -/
def insertProbe (tbl : Table K V) (key : K) : Nat → Nat → Nat → Option (Option (Nat × Nat))
  | 0, _, _ => none
  | fuel + 1, i, k =>
      match tbl.arr i with
      | .occupied entry =>
          if tbl.cmpF key entry.key = 0 then some none
          else tbl.insertProbe key fuel (tbl.mask (i + k)) (k + 1)
      | _ => some (some (i, k))

/-- The growth by load at the start of `dime_table_insert`; `false` makes it
return `-1`. -/
def reserve (realloc : Bool) (tbl : Table K V) : Option (Bool × Table K V) :=
  if tbl.len ≥ tbl.cap then tbl.grow realloc
  -- whether this growth succeeds is not looked at
  else if tbl.len * 2 > tbl.cap then (tbl.grow realloc).map fun (_, tbl) => (true, tbl)
  else some (true, tbl)

/-- The growth by collisions of `dime_table_insert`. -/
def countCollision (realloc : Bool) (tbl : Table K V) (k : Nat) : Option (Table K V) :=
  if k > 1 then
    let tbl := { tbl with ncollisions := tbl.ncollisions + 1 }
    -- nor here
    if tbl.Overflows then (tbl.grow realloc).map Prod.snd else some tbl
  else some tbl

/-- The rehash in place of `dime_table_insert`. -/
def countFree (tbl : Table K V) (prevuse : Elem K V) : Option (Table K V) :=
  match prevuse with
  | .free =>
      let tbl := { tbl with nfree := predSize tbl.nfree }
      if tbl.nfree * 2 < tbl.cap then
        -- unlike `dime_table_grow`, this goes on from the collisions counted so far
        { tbl with nfree := tbl.cap - tbl.len }.relocateAll (List.range tbl.cap)
      else some tbl
  | _ => some tbl

/-- `dime_table_insert`. `reallocLoad` and `reallocColl` say whether its two
growths succeed, should they be needed. -/
def insert (reallocLoad reallocColl : Bool) (tbl : Table K V) (key : K) (val : V) :
    Option (Int × Table K V) :=
  match tbl.reserve reallocLoad with
  | none => none
  | some (false, tbl) => some (-1, tbl)
  | some (true, tbl) =>
      let hash := tbl.hashF key
      match tbl.insertProbe key tbl.cap (tbl.mask hash) 1 with
      | none => none
      | some none => some (-1, tbl)
      | some (some (i, k)) =>
          let placed :=
            { tbl.setElem i (.occupied { hash, key, val }) with len := tbl.len + 1 }
          match placed.countCollision reallocColl k with
          | none => none
          | some counted => (counted.countFree (tbl.arr i)).map (0, ·)

/-- The probe loop of `dime_table_search`. `firstavail` is the first removed
slot on the way, to which a found element is moved. -/
def searchProbe (tbl : Table K V) (key : K) (first : Nat) :
    Nat → Nat → Nat → Option Nat → Option (Option V × Table K V)
  | 0, _, _, _ => none
  | fuel + 1, i, k, firstavail =>
      match tbl.arr i with
      | .free => some (none, tbl)
      | .occupied entry =>
          if tbl.cmpF key entry.key = 0 then
            match firstavail with
            | some avail =>
                let moved := (tbl.setElem avail (.occupied entry)).setElem i .removed
                some (some entry.val,
                  if first = avail then
                    { moved with ncollisions := predSize moved.ncollisions }
                  else moved)
            | none => some (some entry.val, tbl)
          else tbl.searchProbe key first fuel (tbl.mask (i + k)) (k + 1) firstavail
      | .removed =>
          tbl.searchProbe key first fuel (tbl.mask (i + k)) (k + 1)
            (firstavail.or (some i))

/-- `dime_table_search`; `none` inside is the return value `NULL`. -/
def search (tbl : Table K V) (key : K) : Option (Option V × Table K V) :=
  let i := tbl.mask (tbl.hashF key)
  tbl.searchProbe key i tbl.cap i 1 none

/-- The probe loop of `dime_table_search_r` and `dime_table_remove`: the slot
and the element that holds the key. -/
def findProbe (tbl : Table K V) (key : K) : Nat → Nat → Nat → Option (Option (Nat × Entry K V))
  | 0, _, _ => none
  | fuel + 1, i, k =>
      match tbl.arr i with
      | .free => some none
      | .occupied entry =>
          if tbl.cmpF key entry.key = 0 then some (some (i, entry))
          else tbl.findProbe key fuel (tbl.mask (i + k)) (k + 1)
      | .removed => tbl.findProbe key fuel (tbl.mask (i + k)) (k + 1)

/-- `dime_table_search_r`. -/
def searchR (tbl : Table K V) (key : K) : Option (Option V) :=
  (tbl.findProbe key tbl.cap (tbl.mask (tbl.hashF key)) 1).map
    (Option.map fun (_, entry) => entry.val)

/-- `dime_table_remove`. -/
def remove (tbl : Table K V) (key : K) : Option (Option V × Table K V) :=
  (tbl.findProbe key tbl.cap (tbl.mask (tbl.hashF key)) 1).map fun found =>
    match found with
    | none => (none, tbl)
    -- `ncollisions` stays, also for an element off its home slot
    | some (i, entry) => (some entry.val, { tbl.setElem i .removed with len := predSize tbl.len })

/-- The `do`-`while` of `dime_table_iter_next`, with at most `fuel` slots left. -/
def skip (tbl : Table K V) : Nat → Nat → Nat
  | 0, i => i
  | fuel + 1, i =>
      match tbl.arr i with
      | .occupied _ => i
      | _ => tbl.skip fuel (i + 1)

/-- `dime_table_iter_next`, for an iterator whose `it->i + 1` is `next`: the
element and the next such index, or `none` at the end. -/
def iterNext (tbl : Table K V) (next : Nat) : Option (Entry K V × Nat) :=
  let i := tbl.skip (tbl.cap - next) next
  if i = tbl.cap then none
  else
    match tbl.arr i with
    | .occupied entry => some (entry, i + 1)
    | _ => none

/-- The elements a `while (dime_table_iter_next(&it))` loop sees. -/
def iterLoop (tbl : Table K V) : Nat → Nat → List (Entry K V)
  | 0, _ => []
  | fuel + 1, next =>
      match tbl.iterNext next with
      | none => []
      | some (entry, next) => entry :: tbl.iterLoop fuel next

/-- A full iteration from `dime_table_iter_init` on; each step consumes a slot. -/
def iterate (tbl : Table K V) : List (Entry K V) := tbl.iterLoop (tbl.cap + 1) 0

end Table

end Dime
