import Dime.Clients.JavaScript.Indexing
import Dime.Clients.JavaScript.Numbers

/-!
# Ranges of JavaScript vectors

`extents`, `subarray` and `subindex` of `NDArray` in `dime.js`: consecutive elements as
a view of the array, and any elements one by one. They find the same elements, but the
view has a shape for one element less.
-/

namespace Dime.JavaScript

open Python (Endian)

/-! ## Numbers -/

/-- The double that a number is. -/
def Value.number? : Value → Option Binary.Datum
  | .number bits => some (datum bits)
  | _ => none

/-- `value + 1`, short of strings and objects. -/
def plusOne (value : Value) : Option Binary.Datum :=
  (toNumber value).map fun bits => (datum bits).add (.ofInt 1)

/-- `value === d`. -/
def strictlyEqual (value : Value) (d : Binary.Datum) : Bool := value.number? = some d ∧ d ≠ .nan

/-- The natural number that a double is. -/
def natural? (d : Binary.Datum) : Option Nat :=
  d.integer?.bind fun n => if 0 ≤ n then some n.toNat else none

/-- `d >= n`. -/
def atLeast (d : Binary.Datum) (n : Nat) : Bool :=
  match d with
  | .finite scaled => n * 2 ^ 1074 ≤ scaled
  | .infinite negative => !negative
  | .nan => false

/-! ## Views -/

namespace TypedArray

/-- The elements from one index up to another, in the same buffer. -/
def view (a : TypedArray) (start stop : Nat) : TypedArray where
  type := a.type
  buffer := a.buffer
  byteOffset := a.byteOffset + a.type.itemsize * min start a.length
  length := min stop a.length - min start a.length
  within := a.range_within start stop
  aligned := Nat.dvd_add a.aligned (Nat.dvd_mul_right _ _)

/-- The index that an argument of `subarray` stands for. -/
def relativeIndex (length : Nat) : Binary.Datum → Nat
  | .infinite negative => if negative then 0 else length
  | d => if d.truncate < 0 then (length + d.truncate).toNat else d.truncate.toNat

/-- `array.subarray(begin, end)`. -/
def subarray (a : TypedArray) (start stop : Binary.Datum) : TypedArray :=
  a.view (relativeIndex a.length start) (relativeIndex a.length stop)

end TypedArray

/-! ## Ranges -/

/-- The `begin` and the `end` of a range. -/
structure Extents where
  start : Value
  stop : Binary.Datum

namespace NDArray

/-- The test for vectors. -/
def isVector (x : NDArray) : Bool :=
  match x.shape with
  | [_] => true
  | [n, _] => n = 1
  | _ => false

/-- One round of the loop in `extents`. -/
def extentsStep (host : Endian) (array : TypedArray) (prev : Value) (i : Nat) : Option Value := do
  let next ← plusOne prev
  guard (strictlyEqual (array.get host i) next)
  some (array.get host i)

/-- `extents`. There is no element at an index of -1, nor one at 0 then. -/
def extents (host : Endian) (x : NDArray) : Option Extents := do
  guard (x.complex = false ∧ x.isVector)
  let _ ← (List.range' 1 (x.array.length - 1)).foldlM (extentsStep host x.array)
    (x.array.get host 0)
  let stop ← plusOne (x.array.get host (x.array.length - 1))
  some ⟨x.array.get host 0, stop⟩

/-- `subarray`, as long as the shape is one of natural numbers. -/
def subarray (x : NDArray) (range : Extents) : Option NDArray := do
  guard (x.complex = false)
  let bits ← toNumber range.start
  let start := datum bits
  let columns ← natural? ((range.stop.sub start).sub (.ofInt 1))
  some ⟨x.order, [1, columns], x.array.subarray start range.stop, false⟩

/-- `this.get(0, pos)` of a vector. What is no index of the array has no element. -/
def getAt (host : Endian) (x : NDArray) (pos : Value) : Option Value := do
  let d ← pos.number?
  match natural? d with
  | some n => x.get host [0, n]
  | none =>
    guard (x.shape.length = 2 ∧ ¬ atLeast d (x.shape.getLastD 0))
    some .undefined

/-- One round of the loop in `subindex`. -/
def subindexStep (host : Endian) (x idx : NDArray) (out : TypedArray) (i : Nat) :
    Option TypedArray := do
  let value ← x.getAt host (idx.array.get host i)
  out.set host i value

/-- `subindex`. -/
def subindex (host : Endian) (x idx : NDArray) : Option NDArray := do
  guard (x.complex = false ∧ x.isVector ∧ idx.isVector)
  let len := idx.shape.getLastD 0
  let out ← (List.range idx.array.length).foldlM (subindexStep host x idx) (.zeros len)
  some ⟨x.order, [1, len], out, false⟩

end NDArray

/-! ## What the numbers are -/

theorem number?_eq {value : Value} {d : Binary.Datum} (h : value.number? = some d) :
    ∃ bits, value = .number bits ∧ datum bits = d := by
  cases value with
  | number bits => exact ⟨bits, rfl, Option.some.inj h⟩
  | _ => cases h

theorem plusOne_eq {value : Value} {n : Nat} (h : value.number? = some (.ofInt n))
    (hn : n + 1 < 2 ^ 53) : plusOne value = some (.ofInt (n + 1 : Nat)) := by
  obtain ⟨bits, rfl, hbits⟩ := number?_eq h
  have hsum : (datum bits).add (.ofInt 1) = .ofInt (n + 1 : Nat) := by
    rw [hbits]
    exact (Binary.Datum.add_ofInt n 1).trans (NDArray.datum_small hn)
  exact congrArg some hsum

theorem strictlyEqual_ofInt {value : Value} {n : Int} (h : value.number? = some (.ofInt n)) :
    strictlyEqual value (.ofInt n) = true := by
  have hfinite : Binary.Datum.ofInt n ≠ .nan := nofun
  simp [strictlyEqual, h, hfinite]

theorem natural?_ofInt (n : Nat) : natural? (.ofInt n) = some n := by
  rw [natural?, Binary.Datum.integer?_ofInt, Option.bind_some, if_pos (Int.natCast_nonneg n),
    Int.toNat_natCast]

namespace TypedArray

variable {a : TypedArray}

theorem relativeIndex_ofInt (length n : Nat) : relativeIndex length (.ofInt n) = n := by
  have hindex : relativeIndex length (.ofInt n) =
      if (Binary.Datum.ofInt n).truncate < 0 then (length + (Binary.Datum.ofInt n).truncate).toNat
      else (Binary.Datum.ofInt n).truncate.toNat := rfl
  rw [hindex, Binary.Datum.truncate_ofInt, if_neg (Int.not_lt.mpr (Int.natCast_nonneg n)),
    Int.toNat_natCast]

theorem length_view {start stop : Nat} (hstart : start ≤ stop) (hstop : stop ≤ a.length) :
    (a.view start stop).length = stop - start := by
  simp only [view]
  omega

/-- The elements of a view. -/
theorem get_view (host : Endian) {start stop i : Nat} (hstop : stop ≤ a.length)
    (hi : start + i < stop) : (a.view start stop).get host i = a.get host (start + i) := by
  have hlen : i < (a.view start stop).length := by
    simp only [view]
    omega
  have hstart : min start a.length = start := Nat.min_eq_left (by omega)
  have hitem : (a.view start stop).item i = a.item (start + i) := by
    simp only [item, view, hstart, Nat.mul_add, Nat.add_assoc]
  unfold TypedArray.get
  rw [if_pos hlen, if_pos (by omega), hitem]
  rfl

end TypedArray

namespace NDArray

variable {x idx : NDArray} {m k start : Nat}

/-- A real vector of a number of elements. -/
structure IsRow (x : NDArray) (n : Nat) : Prop where
  complex : x.complex = false
  shape : x.shape = [1, n]
  length : x.array.length = n

theorem IsRow.isVector (h : x.IsRow m) : x.isVector = true := by
  rw [NDArray.isVector, h.shape]
  rfl

/-- In both orders an element of a vector stands at its index. -/
theorem IsRow.get (h : x.IsRow m) (host : Endian) {p : Nat} (hp : p < m) :
    x.get host [0, p] = some (x.array.get host p) := by
  have hin : Strided.InShape x.shape [0, p] := by
    rw [h.shape]
    exact .cons Nat.one_pos (.cons hp .nil)
  have hplace : x.place [0, p] = p := by
    unfold place
    split <;> simp [h.shape, Strided.ravel]
  rw [get_real host h.complex hin, hplace]

/-- The elements of an array are the integers from `start` on. -/
def HoldsRange (host : Endian) (idx : NDArray) (start k : Nat) : Prop :=
  ∀ j, j < k → (idx.array.get host j).number? = some (.ofInt (start + j : Nat))

/-! ## Extents and views -/

/-- Each element of a range follows the one before. -/
theorem foldlM_extentsStep {host : Endian} (hrange : HoldsRange host idx start k)
    (hsmall : start + k < 2 ^ 53) {n : Nat} (hn : n < k) :
    (List.range' 1 n).foldlM (extentsStep host idx.array) (idx.array.get host 0) =
      some (idx.array.get host n) := by
  induction n with
  | zero => rfl
  | succ n ih =>
      have hnext : (idx.array.get host (1 + n)).number? = some (.ofInt (start + n + 1 : Nat)) := by
        rw [Nat.add_comm 1 n]
        exact hrange (n + 1) hn
      have hplus := plusOne_eq (hrange n (Nat.lt_of_succ_lt hn)) (by omega)
      have hstep : extentsStep host idx.array (idx.array.get host n) (1 + n) =
          some (idx.array.get host (n + 1)) := by
        rw [extentsStep, hplus, Option.bind_eq_bind, Option.bind_some, strictlyEqual_ofInt hnext,
          Nat.add_comm 1 n]
        rfl
      rw [List.range'_1_concat, List.foldlM_append, ih (Nat.lt_of_succ_lt hn)]
      simp only [List.foldlM_cons, List.foldlM_nil, hstep, Option.bind_eq_bind, Option.bind_some,
        Option.pure_def]

theorem extents_eq {host : Endian} (h : idx.IsRow k) (hk : 0 < k)
    (hrange : HoldsRange host idx start k) (hsmall : start + k < 2 ^ 53) :
    idx.extents host = some ⟨idx.array.get host 0, .ofInt (start + k : Nat)⟩ := by
  have hlast := plusOne_eq (hrange (k - 1) (by omega)) (by omega)
  have hstop : start + (k - 1) + 1 = start + k := by omega
  rw [hstop] at hlast
  have hguard : idx.complex = false ∧ idx.isVector = true := ⟨h.complex, h.isVector⟩
  rw [extents, h.length, foldlM_extentsStep hrange hsmall (by omega), hlast]
  simp [hguard]

/-- The view has all elements of the range, and a shape for one less. -/
theorem subarray_eq (h : x.IsRow m) (hsmall : m < 2 ^ 53) (hk : 0 < k) (hin : start + k ≤ m)
    {first : Value} (hfirst : first.number? = some (.ofInt start)) :
    x.subarray ⟨first, .ofInt (start + k : Nat)⟩ =
      some ⟨x.order, [1, k - 1], x.array.view start (start + k), false⟩ := by
  obtain ⟨bits, rfl, hbits⟩ := number?_eq hfirst
  have hlength : (Binary.Datum.ofInt (start + k : Nat)).sub (.ofInt start) = .ofInt k := by
    have hdiff : ((start + k : Nat) : Int) - start = k := by omega
    rw [Binary.Datum.sub_ofInt, hdiff, datum_small (by omega)]
  have hcolumns : (Binary.Datum.ofInt k).sub (.ofInt 1) = .ofInt (k - 1 : Nat) := by
    have hdiff : (k : Int) - 1 = (k - 1 : Nat) := by omega
    rw [Binary.Datum.sub_ofInt, hdiff, datum_small (by omega)]
  simp only [subarray, toNumber, h.complex, guard_true, hbits, hlength, hcolumns, natural?_ofInt,
    TypedArray.subarray, TypedArray.relativeIndex_ofInt, Option.pure_def, Option.bind_eq_bind,
    Option.bind_some]

/-! ## Gathering -/

theorem getAt_eq (h : x.IsRow m) (host : Endian) {pos : Value} {p : Nat}
    (hpos : pos.number? = some (.ofInt p)) (hp : p < m) :
    x.getAt host pos = some (x.array.get host p) := by
  rw [getAt, hpos, Option.bind_eq_bind, Option.bind_some, natural?_ofInt]
  exact h.get host hp

/-- A number is a double. -/
theorem has_number (bits : UInt64) : (ArrayType.of .float64).Has (.number bits) :=
  ⟨BigEndian.encode 8 bits.toNat, BigEndian.length_encode 8 _, read_float64 bits⟩

/-- After some rounds as many elements have been gathered. -/
theorem foldlM_subindexStep {host : Endian} (h : x.IsRow m)
    (hnumbers : ∀ p, p < m → ∃ bits, x.array.get host p = .number bits)
    (hrange : HoldsRange host idx start k) (hin : start + k ≤ m) {n : Nat} (hn : n ≤ k) :
    ∃ out, (List.range n).foldlM (subindexStep host x idx) (.zeros k) = some out ∧
      out.type = .of .float64 ∧ out.length = k ∧
      ∀ j, j < n → out.get host j = x.array.get host (start + j) := by
  induction n with
  | zero => exact ⟨.zeros k, rfl, rfl, rfl, nofun⟩
  | succ n ih =>
      obtain ⟨out, hrun, htype, hlen, hgathered⟩ := ih (Nat.le_of_succ_le hn)
      obtain ⟨bits, hbits⟩ := hnumbers (start + n) (by omega)
      have hvalue : out.type.Has (x.array.get host (start + n)) := by
        rw [htype, hbits]
        exact has_number bits
      obtain ⟨out', hset, htype', hlen', hself, hother⟩ :=
        out.exists_set host hvalue (hlen.symm ▸ hn)
      refine ⟨out', ?_, htype'.trans htype, hlen'.trans hlen, ?_⟩
      · have hstep : subindexStep host x idx out n = some out' := by
          rw [subindexStep, getAt_eq h host (hrange n hn) (by omega)]
          exact hset
        rw [List.range_succ, List.foldlM_append, hrun]
        simp only [List.foldlM_cons, List.foldlM_nil, hstep, Option.bind_eq_bind,
          Option.bind_some, Option.pure_def]
      · intro j hj
        rcases Nat.lt_succ_iff_lt_or_eq.mp hj with hlt | rfl
        · rw [hother j (Nat.ne_of_lt hlt), hgathered j hlt]
        · exact hself

theorem exists_subindex {host : Endian} (h : x.IsRow m)
    (hnumbers : ∀ p, p < m → ∃ bits, x.array.get host p = .number bits) (hidx : idx.IsRow k)
    (hrange : HoldsRange host idx start k) (hin : start + k ≤ m) :
    ∃ gathered, x.subindex host idx = some gathered ∧ gathered.IsRow k ∧
      ∀ j, j < k → gathered.array.get host j = x.array.get host (start + j) := by
  obtain ⟨out, hrun, -, hlen, hgathered⟩ := foldlM_subindexStep h hnumbers hrange hin (le_refl k)
  refine ⟨⟨x.order, [1, k], out, false⟩, ?_, ⟨rfl, rfl, hlen⟩, hgathered⟩
  have hguard : x.complex = false ∧ x.isVector = true ∧ idx.isVector = true :=
    ⟨h.complex, h.isVector, hidx.isVector⟩
  have hcolumns : idx.shape.getLastD 0 = k := by
    rw [hidx.shape]
    rfl
  simp only [subindex, hguard, hidx.length, hcolumns, hrun, and_self, guard_true, Option.pure_def,
    Option.bind_eq_bind, Option.bind_some]

/-! ## Views and gathered elements -/

/-- A range as a view and gathered: one shape, the same elements at its indices, and as
many elements as it has indices. -/
def RangesAgree (host : Endian) (x idx : NDArray) : Prop :=
  ∃ range sub gathered, idx.extents host = some range ∧ x.subarray range = some sub ∧
    x.subindex host idx = some gathered ∧ sub.shape = gathered.shape ∧
    (∀ index, Strided.InShape sub.shape index → sub.get host index = gathered.get host index) ∧
    sub.array.length = sub.shape.prod ∧ gathered.array.length = gathered.shape.prod

/-- The view has the elements that are gathered, but its shape is too short by one. -/
theorem exists_ranges {host : Endian} (h : x.IsRow m) (hsmall : m < 2 ^ 53)
    (hnumbers : ∀ p, p < m → ∃ bits, x.array.get host p = .number bits) (hidx : idx.IsRow k)
    (hk : 0 < k) (hrange : HoldsRange host idx start k) (hin : start + k ≤ m) :
    ∃ range sub gathered, idx.extents host = some range ∧ x.subarray range = some sub ∧
      x.subindex host idx = some gathered ∧ gathered.IsRow k ∧ sub.shape = [1, k - 1] ∧
      sub.array.length = k ∧ ∀ j, j < k → sub.array.get host j = gathered.array.get host j := by
  obtain ⟨gathered, hsubindex, hrow, hgathered⟩ := exists_subindex h hnumbers hidx hrange hin
  have hlength := h.length
  refine ⟨_, _, gathered, extents_eq hidx hk hrange (by omega),
    subarray_eq h hsmall hk hin (hrange 0 hk), hsubindex, hrow, rfl, ?_, ?_⟩
  · rw [TypedArray.length_view (Nat.le_add_right _ _) (by omega), Nat.add_sub_cancel_left]
  · intro j hj
    rw [hgathered j hj]
    exact TypedArray.get_view host (by omega) (Nat.add_lt_add_left hj _)

theorem shape_subindex {host : Endian} {gathered : NDArray}
    (h : x.subindex host idx = some gathered) : gathered.shape = [1, idx.shape.getLastD 0] := by
  obtain ⟨_, _, h⟩ := Option.bind_eq_some_iff.mp h
  obtain ⟨out, _, h⟩ := Option.bind_eq_some_iff.mp h
  rw [← Option.some.inj h]

theorem not_rangesAgree {host : Endian} (h : x.IsRow m) (hsmall : m < 2 ^ 53) (hidx : idx.IsRow k)
    (hk : 0 < k) (hrange : HoldsRange host idx start k) (hin : start + k ≤ m) :
    ¬ RangesAgree host x idx := by
  intro hagree
  obtain ⟨range, sub, gathered, hextents, hsub, hsubindex, hshape, -⟩ := hagree
  obtain rfl := Option.some.inj ((extents_eq hidx hk hrange (by omega)).symm.trans hextents)
  obtain rfl := Option.some.inj ((subarray_eq h hsmall hk hin (hrange 0 hk)).symm.trans hsub)
  have hcolumns : [1, k - 1] = [1, k] := by
    rw [shape_subindex hsubindex, hidx.shape] at hshape
    exact hshape
  have : k - 1 = k := by simpa using hcolumns
  omega

/-- The elements of an array are all numbers, or all big integers. -/
theorem get_kinds (host : Endian) (a : TypedArray) :
    (∀ i, i < a.length → ∃ bits, a.get host i = .number bits) ∨
      (∀ i, i < a.length → ∃ n, a.get host i = .bigint n) := by
  have hread : ∀ i, i < a.length →
      a.get host i = a.type.element.read (ordered host (a.item i)) := fun i hi => if_pos hi
  cases htype : a.type.element with
  | bigInt64 | bigUint64 =>
      right
      intro i hi
      rw [hread i hi, htype]
      exact ⟨_, rfl⟩
  | _ =>
      left
      intro i hi
      rw [hread i hi, htype]
      exact ⟨_, rfl⟩

/-- Big integers have no extents. -/
theorem extents_bigint {host : Endian} {n : Int}
    (h : idx.array.get host (idx.array.length - 1) = .bigint n) : idx.extents host = none := by
  have hplus : plusOne (idx.array.get host (idx.array.length - 1)) = none := by
    rw [h]
    rfl
  rw [extents, hplus]
  simp

/-- No range of a vector is the same vector as a view and gathered: the end of the extents
is no part of the range, and the shape of the view leaves out one more element. -/
theorem ranges_never_agree (host : Endian) (x idx : NDArray) {m k start : Nat} (h : x.IsRow m)
    (hsmall : m < 2 ^ 53) (hidx : idx.IsRow k) (hk : 0 < k)
    (hrange : ∀ j, j < k → (idx.array.get host j).datum? = some (.ofInt (start + j : Nat)))
    (hin : start + k ≤ m) : ¬ RangesAgree host x idx := by
  have hlength := hidx.length
  rcases get_kinds host idx.array with hnumbers | hbigints
  · apply not_rangesAgree h hsmall hidx hk _ hin
    intro j hj
    obtain ⟨bits, hbits⟩ := hnumbers j (by omega)
    have hdatum := hrange j hj
    rw [hbits] at hdatum ⊢
    exact hdatum
  · intro hagree
    obtain ⟨range, _, _, hextents, -⟩ := hagree
    obtain ⟨n, hn⟩ := hbigints (idx.array.length - 1) (by omega)
    cases (extents_bigint hn).symm.trans hextents

theorem length_doubles (values : List UInt64) :
    ∀ item ∈ values.map fun bits => BigEndian.encode 8 bits.toNat,
      item.length = ElementType.float64.itemsize := by
  intro item hitem
  obtain ⟨bits, _, rfl⟩ := List.mem_map.mp hitem
  exact BigEndian.length_encode 8 _

/-- A vector of doubles. -/
def ofDoubles (host : Endian) (values : List UInt64) : NDArray where
  order := .F
  shape := [1, values.length]
  array := .ofItems host .float64 _ (length_doubles values)
  complex := false

theorem isRow_ofDoubles (host : Endian) (values : List UInt64) :
    (ofDoubles host values).IsRow values.length := ⟨rfl, rfl, List.length_map _⟩

/-- The vector of the integers from `start` on. -/
def consecutive (host : Endian) (start k : Nat) : NDArray :=
  ofDoubles host ((List.range' start k).map fun (n : Nat) => ofInt n)

theorem isRow_consecutive (host : Endian) (start k : Nat) : (consecutive host start k).IsRow k := by
  have hrow := isRow_ofDoubles host ((List.range' start k).map fun (n : Nat) => ofInt n)
  rwa [List.length_map, List.length_range'] at hrow

theorem holdsRange_consecutive (host : Endian) {start k : Nat} (h : start + k < 2 ^ 53) :
    HoldsRange host (consecutive host start k) start k := by
  intro j hj
  have hitem : (((List.range' start k).map fun (n : Nat) => ofInt n).map
      fun bits => BigEndian.encode 8 bits.toNat)[j]? =
        some (BigEndian.encode 8 (ofInt (start + j : Nat)).toNat) := by
    simp [hj]
  have hget : (consecutive host start k).array.get host j = .number (ofInt (start + j : Nat)) :=
    (TypedArray.get_ofItems host .float64 (length_doubles _) hitem).trans (read_float64 _)
  rw [hget]
  refine congrArg some (datum_ofInt ?_)
  rw [Int.natAbs_natCast]
  omega

theorem datum?_of_number? {value : Value} {d : Binary.Datum} (h : value.number? = some d) :
    value.datum? = some d := by
  obtain ⟨bits, rfl, hbits⟩ := number?_eq h
  exact congrArg some hbits

/-- The second and the third element of a vector. -/
theorem ranges_never_agree_second_third :
    ¬ RangesAgree .little (ofDoubles .little [ofInt 10, ofInt 20, ofInt 30])
      (consecutive .little 1 2) :=
  ranges_never_agree .little _ _ (isRow_ofDoubles .little _) (by decide)
    (isRow_consecutive .little 1 2) (by decide)
    (fun j hj => datum?_of_number? (holdsRange_consecutive .little (by decide) j hj)) (by decide)

theorem ranges_disagree :
    ¬ ∀ (host : Endian) (x idx : NDArray) (m k start : Nat), x.IsRow m → m < 2 ^ 53 →
      idx.IsRow k → 0 < k →
      (∀ j, j < k → (idx.array.get host j).datum? = some (.ofInt (start + j : Nat))) →
      start + k ≤ m → RangesAgree host x idx := by
  intro hclaim
  have hx := isRow_ofDoubles .little [ofInt 10, ofInt 20, ofInt 30]
  have hidx := isRow_consecutive .little 1 2
  have hrange := @holdsRange_consecutive .little 1 2 (by decide)
  exact not_rangesAgree hx (by decide) hidx (by decide) hrange (by decide)
    (hclaim .little _ _ 3 2 1 hx (by decide) hidx (by decide)
      (fun j hj => datum?_of_number? (hrange j hj)) (by decide))

end NDArray

end Dime.JavaScript
