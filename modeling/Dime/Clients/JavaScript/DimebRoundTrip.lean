import Dime.Foundation.Delimited
import Dime.Clients.Matrices

/-!
# Round trip of JavaScript dimeb

What `__loads` makes of the bytes that `dimebdumps` writes, with anything behind them.
-/

namespace Dime.JavaScript

open Delimited
open Python (Endian Scalar Tag)

/-! ## Text -/

section

variable {n : Nat} (hn : n < 256) (s : Bytes)

theorem decodeBytes_cons (pending : Option Pending) (hn : n < 256) (s : Bytes) :
    decodeBytes pending (UInt8.ofNat n :: s) =
      (nextByte pending n).1 ++ decodeBytes (nextByte pending n).2 s := by
  have hbyte : (UInt8.ofNat n).toNat = n := by
    rw [UInt8.toNat_ofNat', Nat.mod_eq_of_lt hn]
  rw [decodeBytes, hbyte]

include hn

theorem decodeBytes_first :
    decodeBytes none (UInt8.ofNat n :: s) = (firstByte n).1 ++ decodeBytes (firstByte n).2 s :=
  decodeBytes_cons none hn s

/-- A byte in the middle of a character. -/
theorem decodeBytes_more {needed point lower upper : Nat} (hlower : lower ≤ n) (hupper : n ≤ upper)
    (hneeded : needed ≠ 0) :
    decodeBytes (some ⟨needed + 1, point, lower, upper⟩) (UInt8.ofNat n :: s) =
      decodeBytes (some ⟨needed, point * 0x40 + n % 0x40, 0x80, 0xBF⟩) s := by
  have hnext : nextByte (some ⟨needed + 1, point, lower, upper⟩) n =
      ([], some ⟨needed, point * 0x40 + n % 0x40, 0x80, 0xBF⟩) :=
    (if_pos ⟨hlower, hupper⟩).trans (if_neg fun h => hneeded (Nat.succ.inj h))
  rw [decodeBytes_cons _ hn, hnext, List.nil_append]

/-- The last byte of a character. -/
theorem decodeBytes_last {point lower upper : Nat} (hlower : lower ≤ n) (hupper : n ≤ upper) :
    decodeBytes (some ⟨1, point, lower, upper⟩) (UInt8.ofNat n :: s) =
      Char.ofNat (point * 0x40 + n % 0x40) :: decodeBytes none s := by
  have hnext : nextByte (some ⟨1, point, lower, upper⟩) n =
      ([Char.ofNat (point * 0x40 + n % 0x40)], none) :=
    (if_pos ⟨hlower, hupper⟩).trans (if_pos rfl)
  rw [decodeBytes_cons _ hn, hnext, List.singleton_append]

end

/-- The bytes of a character are decoded as that character. -/
theorem decodeBytes_utf8EncodeChar (c : Char) (s : Bytes) :
    decodeBytes none (String.utf8EncodeChar c ++ s) = c :: decodeBytes none s := by
  have hvalid : c.val.toNat < 0xD800 ∨ 0xDFFF < c.val.toNat ∧ c.val.toNat < 0x110000 := c.valid
  have hpoint : ∀ n, n = c.val.toNat → Char.ofNat n :: decodeBytes none s = c :: decodeBytes none s := by
    intro n hn
    have hchar : Char.ofNat c.val.toNat = c := Char.ofNat_toNat c
    rw [hn, hchar]
  unfold String.utf8EncodeChar
  generalize c.val.toNat = v at hvalid hpoint
  dsimp only
  split
  next hone =>
    rw [List.singleton_append, decodeBytes_first (by omega), firstByte, if_pos (by omega)]
    exact hpoint v rfl
  next hone =>
    split
    next htwo =>
      rw [List.cons_append, List.singleton_append, decodeBytes_first (by omega), firstByte,
        if_neg (by omega), if_pos (by omega)]
      dsimp only
      rw [List.nil_append, decodeBytes_last (by omega) _ (by omega) (by omega)]
      exact hpoint _ (by omega)
    next htwo =>
      split
      next hthree =>
        rw [List.cons_append, List.cons_append, List.singleton_append, decodeBytes_first (by omega),
          firstByte, if_neg (by omega), if_neg (by omega), if_pos (by omega)]
        dsimp only
        rw [List.nil_append, decodeBytes_more (by omega) _ (by split <;> omega) (by split <;> omega)
          (by decide), decodeBytes_last (by omega) _ (by omega) (by omega)]
        exact hpoint _ (by omega)
      next hthree =>
        rw [List.cons_append, List.cons_append, List.cons_append, List.singleton_append,
          decodeBytes_first (by omega), firstByte, if_neg (by omega), if_neg (by omega),
          if_neg (by omega), if_pos (by omega)]
        dsimp only
        rw [List.nil_append, decodeBytes_more (by omega) _ (by split <;> omega) (by split <;> omega)
          (by decide), decodeBytes_more (by omega) _ (by omega) (by omega) (by decide),
          decodeBytes_last (by omega) _ (by omega) (by omega)]
        exact hpoint _ (by omega)

theorem decodeBytes_flatMap (chars : List Char) :
    decodeBytes none (chars.flatMap String.utf8EncodeChar) = chars := by
  induction chars with
  | nil => rfl
  | cons c chars ih => rw [List.flatMap_cons, decodeBytes_utf8EncodeChar, ih]

/-- A well-formed string without a byte order mark is decoded as it was. -/
theorem decodeText_encodeText {chars : List Char} (h : chars.head? ≠ some (Char.ofNat 0xFEFF)) :
    decodeText (encodeText (chars.flatMap encodeChar)) = chars.flatMap encodeChar := by
  rw [encodeText, characters_encode, decodeText, decodeBytes_flatMap]
  cases chars with
  | nil => rfl
  | cons c chars =>
      apply if_neg
      intro hmark
      apply h
      rw [List.head?_cons, ← hmark, Char.ofNat_toNat]

/-! ## Deep equality -/

def negativeZero : UInt64 := 0x8000000000000000

/-- The same number as `Object.is` has it: a NaN is the same as any other, and the zeros
are two. -/
def SameNumber (bits bits' : UInt64) : Prop :=
  datum bits' = datum bits ∧ (bits' = negativeZero ↔ bits = negativeZero)

/-- Two arrays of the same kind and shape with the same numbers in the same places. -/
structure EqualNDArray (host : Endian) (x y : NDArray) : Prop where
  order : y.order = x.order
  shape : y.shape = x.shape
  complex : y.complex = x.complex
  type : y.array.type = x.array.type
  length : y.array.length = x.array.length
  elements : ∀ i, i < x.array.length → ∃ bits bits', x.array.get host i = .number bits ∧
    y.array.get host i = .number bits' ∧ SameNumber bits bits'

/-- Deep equality, for which the order of the properties of an object does not count. -/
inductive DeepEqual (host : Endian) : Value → Value → Prop where
  | null : DeepEqual host .null .null
  | boolean (b : Bool) : DeepEqual host (.boolean b) (.boolean b)
  | number {bits bits' : UInt64} (same : SameNumber bits bits') :
      DeepEqual host (.number bits) (.number bits')
  | string (s : Units) : DeepEqual host (.string s) (.string s)
  | complex {real imag real' imag' : UInt64} (re : SameNumber real real')
      (im : SameNumber imag imag') : DeepEqual host (.complex (.number real) (.number imag))
        (.complex (.number real') (.number imag'))
  | ndarray {x y : NDArray} (same : EqualNDArray host x y) :
      DeepEqual host (.ndarray x) (.ndarray y)
  | array {xs ys : List Value} (length : xs.length = ys.length)
      (elements : ∀ pair ∈ xs.zip ys, DeepEqual host pair.1 pair.2) :
      DeepEqual host (.array xs) (.array ys)
  | object {entries entries' ordered : List (Units × Value)} (order : ordered.Perm entries')
      (keys : ordered.map Prod.fst = entries.map Prod.fst)
      (values : ∀ pair ∈ entries.zip ordered, DeepEqual host pair.1.2 pair.2.2) :
      DeepEqual host (.object entries) (.object entries')

/-! ## The values -/

/-- A text that does not start with a byte order mark. -/
def Unmarked (s : Units) : Prop :=
  ∃ chars : List Char, s = chars.flatMap encodeChar ∧ chars.head? ≠ some (Char.ofNat 0xFEFF)

/-- A matrix, or an array of a higher rank, of one of the types that are decoded as
numbers. Only floating-point numbers can be complex. -/
structure Numbers (x : NDArray) : Prop where
  order : x.order = .F
  rank : 2 ≤ x.shape.length
  type : ∃ type : Scalar, type ≠ .i64 ∧ type ≠ .u64 ∧ x.array.type = .of (elementType type) ∧
    x.complex = decide (type.kind = .c) ∧ x.array.length = parts type * x.shape.prod

/-- The values that are built from null, truth values, safe integers, other numbers that
are no integers, texts, complex numbers and arrays of numbers. -/
inductive Structured : Value → Prop where
  | null : Structured .null
  | boolean (b : Bool) : Structured (.boolean b)
  | integer {bits : UInt64} {n : Int} (integer : (datum bits).integer? = some n)
      (safe : isSafe n = true) (sign : bits ≠ negativeZero) : Structured (.number bits)
  | number {bits : UInt64} (fractional : (datum bits).integer? = none) : Structured (.number bits)
  | string {s : Units} (text : Unmarked s) : Structured (.string s)
  | complex (real imag : UInt64) : Structured (.complex (.number real) (.number imag))
  | ndarray {x : NDArray} (numbers : Numbers x) : Structured (.ndarray x)
  | array {xs : List Value} (elements : ∀ x ∈ xs, Structured x) : Structured (.array xs)
  | object {entries : List (Units × Value)} (distinct : (entries.map Prod.fst).Nodup)
      (names : ∀ entry ∈ entries, entry.1 ≠ units "__proto__")
      (values : ∀ entry ∈ entries, Structured entry.2) : Structured (.object entries)

/-- The sizes in a value fit into their fields, and the keys of the objects are texts
that do not start with a byte order mark. -/
inductive Encodable : Value → Prop where
  | null : Encodable .null
  | boolean (b : Bool) : Encodable (.boolean b)
  | number (bits : UInt64) : Encodable (.number bits)
  | string {s : Units} (size : (encodeText s).length < 2 ^ 32) : Encodable (.string s)
  | complex (real imag : UInt64) : Encodable (.complex (.number real) (.number imag))
  | ndarray {x : NDArray} (rank : x.shape.length < 256) (dims : ∀ n ∈ x.shape, n < 2 ^ 32) :
      Encodable (.ndarray x)
  | array {xs : List Value} (size : xs.length < 2 ^ 32) (elements : ∀ x ∈ xs, Encodable x) :
      Encodable (.array xs)
  | object {entries : List (Units × Value)} (size : entries.length < 2 ^ 32)
      (keys : ∀ entry ∈ entries, Unmarked entry.1 ∧ (encodeText entry.1).length < 2 ^ 32)
      (values : ∀ entry ∈ entries, Encodable entry.2) : Encodable (.object entries)

/-- What `dimebdumps` writes is read to its end, whatever follows, and the value that is
read is deeply equal to the one that was written. -/
def RoundTrips (host : Endian) (toKey : PropertyKey) (v : Value) : Prop :=
  ∃ data w, dimebdumps host v = some data ∧
    (∀ rest, loads host toKey (data ++ rest) = some (w, data.length)) ∧ DeepEqual host v w

/-! ## Numbers -/

theorem SameNumber.refl (bits : UInt64) : SameNumber bits bits := ⟨rfl, Iff.rfl⟩

theorem datum_negativeZero : datum negativeZero = Binary.Datum.ofInt 0 := by decide +kernel

/-- A safe integer that is not the negative zero is the number that stands for it. -/
theorem sameNumber_ofInt {bits : UInt64} {n : Int} (h : (datum bits).integer? = some n)
    (hsafe : isSafe n = true) (hsign : bits ≠ negativeZero) : SameNumber bits (ofInt n) := by
  have hdatum := datum_ofInt_of_isSafe hsafe
  refine ⟨hdatum.trans (Binary.Datum.eq_ofInt h).symm, iff_of_false ?_ hsign⟩
  intro hzero
  rw [hzero, datum_negativeZero] at hdatum
  rw [← Binary.Datum.ofInt_inj hdatum] at hzero
  revert hzero
  decide

section

variable (host : Endian) (toKey : PropertyKey)

theorem roundTrips_integer {bits : UInt64} {n : Int} (h : (datum bits).integer? = some n)
    (hsafe : isSafe n = true) (hsign : bits ≠ negativeZero) : RoundTrips host toKey (.number bits) := by
  refine ⟨_, .number (ofInt n), dimebdumps_integer host h, fun rest => ?_,
    .number (sameNumber_ofInt h hsafe hsign)⟩
  rw [List.cons_append, loads_i64, bmod_of_isSafe hsafe, toSafe_of_isSafe hsafe, List.length_cons,
    BigEndian.length_encode]

theorem roundTrips_fractional {bits : UInt64} (h : (datum bits).integer? = none) :
    RoundTrips host toKey (.number bits) := by
  refine ⟨_, .number bits, dimebdumps_fractional host h, fun rest => ?_, .number (.refl bits)⟩
  rw [List.cons_append, loads_double, List.length_cons, BigEndian.length_encode]

theorem roundTrips_complex (real imag : UInt64) :
    RoundTrips host toKey (.complex (.number real) (.number imag)) := by
  have hdumps : dimebdumps host (.complex (.number real) (.number imag)) =
      some (code (.scalar .complexDouble) ::
        (BigEndian.encode 8 real.toNat ++ BigEndian.encode 8 imag.toNat)) := by
    rw [dimebdumps]
    rfl
  refine ⟨_, .complex (.number real) (.number imag), hdumps, fun rest => ?_,
    .complex (.refl real) (.refl imag)⟩
  rw [List.cons_append, List.append_assoc, loads_complexDouble, List.length_cons, List.length_append,
    BigEndian.length_encode, BigEndian.length_encode]

/-- The size in a header. -/
theorem getUint_header (tag : UInt8) {n : Nat} (hn : n < 2 ^ 32) (body : Bytes) :
    getUint 4 (tag :: (BigEndian.encode 4 n ++ body)) 1 = some n := by
  have hfront : [tag].length = 1 := rfl
  have hget : getUint 4 ([tag] ++ (BigEndian.encode 4 n ++ body)) 1 = _ :=
    getUint_append hfront (BigEndian.length_encode 4 n)
  rwa [BigEndian.decode_encode_of_lt (Nat.lt_of_lt_of_eq hn (by decide))] at hget

theorem drop_header (tag : UInt8) (n : Nat) (body : Bytes) :
    (tag :: (BigEndian.encode 4 n ++ body)).drop 5 = body := by
  rw [List.drop_succ_cons, List.drop_left' (BigEndian.length_encode 4 n)]

theorem length_tagged (tag : UInt8) (n : Nat) (body : Bytes) :
    (tag :: (BigEndian.encode 4 n ++ body)).length = 5 + body.length := by
  rw [List.length_cons, List.length_append, BigEndian.length_encode]
  omega

theorem loads_string {s : Units} (hsize : (encodeText s).length < 2 ^ 32) (rest : Bytes) :
    loads host toKey (dumpsString s ++ rest) =
      some (.string (decodeText (encodeText s)), (dumpsString s).length) := by
  rw [dumpsString, length_tagged, List.cons_append, List.append_assoc, loads, tag?_code]
  simp only [getUint_header _ hsize, drop_header, List.take_left, Option.bind_eq_bind,
    Option.bind_some, Nat.add_comm]

theorem loads_dumpsString {s : Units} (htext : Unmarked s) (hsize : (encodeText s).length < 2 ^ 32)
    (rest : Bytes) :
    loads host toKey (dumpsString s ++ rest) = some (.string s, (dumpsString s).length) := by
  rw [loads_string host toKey hsize]
  obtain ⟨chars, rfl, hmark⟩ := htext
  rw [decodeText_encodeText hmark]

end

/-! ## Arrays of numbers -/

theorem read_number {type : ElementType} (hsigned : type ≠ .bigInt64)
    (hunsigned : type ≠ .bigUint64) (item : Bytes) : ∃ bits, type.read item = .number bits := by
  cases type with
  | bigInt64 => exact absurd rfl hsigned
  | bigUint64 => exact absurd rfl hunsigned
  | _ => exact ⟨_, rfl⟩

theorem dtype?_eq {x : NDArray} {type : Scalar} (htype : x.array.type = .of (elementType type))
    (hcomplex : x.complex = decide (type.kind = .c)) : x.dtype? = some (type, elementType type) := by
  rw [NDArray.dtype?, htype, hcomplex]
  cases type <;> rfl

/-- An item of the items one after the other. -/
theorem itemAt_flatten {type : ElementType} {n : Nat} {item : Nat → Bytes}
    (hitem : ∀ i, i < n → (item i).length = type.itemsize) {i : Nat} (hi : i < n) :
    itemAt type ((List.range n).map item).flatten i = item i := by
  have hlength : ∀ s ∈ (List.range n).map item, (id s).length = type.itemsize := by
    intro s hs
    obtain ⟨j, hj, rfl⟩ := List.mem_map.mp hs
    exact hitem j (List.mem_range.mp hj)
  have hget : ((List.range n).map item)[i]? = some (item i) := by
    rw [List.getElem?_map, List.getElem?_range hi]
    rfl
  have hblock := Strided.block_flatMap hlength hget
  rwa [List.flatMap_id] at hblock

theorem length_flatten_range {n k : Nat} {item : Nat → Bytes}
    (hitem : ∀ i, i < n → (item i).length = k) : ((List.range n).map item).flatten.length = k * n := by
  have hlength : ∀ i ∈ List.range n, (item i).length = k := fun i hi => hitem i (List.mem_range.mp hi)
  rw [← List.flatMap_def, Strided.length_flatMap_const hlength, List.length_range]

theorem loads_matHeader (host : Endian) (toKey : PropertyKey) {type : Scalar} (hi64 : type ≠ .i64)
    (hu64 : type ≠ .u64) (shape : List Nat) (body : Bytes) :
    loads host toKey (Python.matHeader type shape ++ body) =
      (loadsmat host (Python.matHeader type shape ++ body) (elementType type)
        (decide (type.kind = .c))).map fun r => (.ndarray r.1, r.2) := by
  rw [loads_mat, loadsMatrix_eq host _ hi64 hu64]

section

variable {host : Endian} {x : NDArray} {type : Scalar}

/-- What is written for the elements of an array is read as the same elements. -/
theorem exists_sent (host : Endian) (htype : x.array.type = .of (elementType type)) :
    ∃ sent : Nat → Bytes, ∀ i, i < x.array.length →
      (elementType type).write (x.array.get host i) = some (sent i) ∧
        (elementType type).read (sent i) = x.array.get host i := by
  have helement : x.array.type.element = elementType type := by rw [htype]; rfl
  have hsent : ∀ i, ∃ item', i < x.array.length →
      (elementType type).write (x.array.get host i) = some item' ∧
        (elementType type).read item' = x.array.get host i := by
    intro i
    by_cases hi : i < x.array.length
    · have hitem : (ordered host (x.array.item i)).length = (elementType type).itemsize := by
        rw [length_ordered, x.array.length_item hi, ArrayType.itemsize, helement]
      have hget : x.array.get host i = (elementType type).read (ordered host (x.array.item i)) := by
        rw [TypedArray.get, if_pos hi, helement]
      obtain ⟨item', hitem'⟩ := ElementType.exists_write_read hitem
      rw [← hget] at hitem'
      exact ⟨item', fun _ => hitem'⟩
    · exact ⟨[], fun h => absurd h hi⟩
  choose sent hsent using hsent
  exact ⟨sent, hsent⟩

theorem dimebdumps_ndarray (horder : x.order = .F) (htype : x.array.type = .of (elementType type))
    (hcomplex : x.complex = decide (type.kind = .c)) {sent : Nat → Bytes}
    (hsent : ∀ i, i < x.array.length →
      (elementType type).write (x.array.get host i) = some (sent i)) :
    dimebdumps host (.ndarray x) = some (Python.matHeader type x.shape ++
      ((List.range x.array.length).map sent).flatten) := by
  have helements : (List.range x.array.length).mapM
      (fun i => (elementType type).write (x.array.get host i)) =
        some ((List.range x.array.length).map sent) := by
    rw [Python.mapM_eq_some_iff, List.forall₂_map_right_iff, List.forall₂_same]
    exact fun i hi => hsent i (List.mem_range.mp hi)
  rw [dimebdumps]
  simp only [dumpsNDArray, horder, guard_true, dtype?_eq htype hcomplex, helements,
    Option.pure_def, Option.bind_eq_bind, Option.bind_some, Python.matHeader, code_eq]

theorem roundTrips_ndarray (host : Endian) (toKey : PropertyKey) (hx : Numbers x)
    (hrank : x.shape.length < 256) (hdims : ∀ n ∈ x.shape, n < 2 ^ 32) :
    RoundTrips host toKey (.ndarray x) := by
  obtain ⟨type, hi64, hu64, htype, hcomplex, hlength⟩ := hx.type
  have hsigned : elementType type ≠ .bigInt64 := by
    cases type <;> first | exact absurd rfl hi64 | decide
  have hunsigned : elementType type ≠ .bigUint64 := by
    cases type <;> first | exact absurd rfl hu64 | decide
  obtain ⟨sent, hsent⟩ := exists_sent host htype
  have hwrite : ∀ i, i < x.array.length →
      (elementType type).write (x.array.get host i) = some (sent i) := fun i hi => (hsent i hi).1
  have hlen : ∀ i, i < x.array.length → (sent i).length = (elementType type).itemsize :=
    fun i hi => ElementType.length_write (hwrite i hi)
  have hbody := length_flatten_range hlen
  obtain ⟨a, ha, hatype, halength, haget⟩ :=
    @ofValues_read host (elementType type) x.array.length
      (itemAt (elementType type) ((List.range x.array.length).map sent).flatten)
      fun i hi => length_itemAt hbody hi
  have hne : x.shape ≠ [] := List.ne_nil_of_length_pos (Nat.zero_lt_of_lt hx.rank)
  have hrow : asRow x.shape = x.shape := by
    have htwo := hx.rank
    rw [← asRow_eq, if_neg (by omega)]
  refine ⟨_, .ndarray ⟨.F, x.shape, a, decide (type.kind = .c)⟩,
    dimebdumps_ndarray hx.order htype hcomplex hwrite, fun rest => ?_, .ndarray ?_⟩
  · rw [hlength] at hbody ha ⊢
    rw [List.append_assoc, loads_matHeader host toKey hi64 hu64,
      loadsmat_append host type hne hrank hdims hbody rest, ha, hrow]
    rfl
  · refine ⟨hx.order.symm, rfl, hcomplex.symm, hatype.trans htype.symm, halength, ?_⟩
    intro i hi
    obtain ⟨_, hread⟩ := hsent i hi
    obtain ⟨bits, hbits⟩ := read_number hsigned hunsigned (sent i)
    have hback := haget i hi
    rw [itemAt_flatten hlen hi, hbits] at hback
    rw [hbits] at hread
    exact ⟨bits, bits, hread.symm, hback, .refl bits⟩

end

/-! ## Objects -/

theorem insertProperty_perm (entries : List (Units × Value)) (key : Units) (val : Value) :
    (insertProperty entries key val).Perm ((key, val) :: entries) := by
  unfold insertProperty
  split
  · exact List.perm_append_singleton _ _
  · refine List.perm_middle.trans (List.Perm.cons _ ?_)
    rw [List.takeWhile_append_dropWhile]

/-- A property that the object does not have is added to the others. -/
theorem setProperty_perm {entries : List (Units × Value)} {key : Units} (val : Value)
    (hname : key ≠ units "__proto__") (hnew : ∀ entry ∈ entries, entry.1 ≠ key) :
    (setProperty entries key val).Perm ((key, val) :: entries) := by
  have hany : ¬ entries.any (fun entry => entry.1 = key) = true := by
    rw [List.any_eq_true]
    rintro ⟨entry, hentry, hkey⟩
    exact hnew entry hentry (of_decide_eq_true hkey)
  rw [setProperty, if_neg hname, if_neg hany]
  exact insertProperty_perm entries key val

theorem foldl_setProperty_perm {fresh entries : List (Units × Value)}
    (hdistinct : (fresh.map Prod.fst).Nodup) (hnames : ∀ entry ∈ fresh, entry.1 ≠ units "__proto__")
    (hnew : ∀ entry ∈ fresh, ∀ old ∈ entries, old.1 ≠ entry.1) :
    (fresh.foldl (fun obj entry => setProperty obj entry.1 entry.2) entries).Perm (fresh ++ entries) := by
  induction fresh generalizing entries with
  | nil => rfl
  | cons entry fresh ih =>
      rw [List.map_cons, List.nodup_cons] at hdistinct
      obtain ⟨hname, hnames⟩ := List.forall_mem_cons.mp hnames
      obtain ⟨hfirst, hrest⟩ := List.forall_mem_cons.mp hnew
      have hset := setProperty_perm entry.2 hname hfirst
      rw [List.foldl_cons, List.cons_append]
      refine (ih hdistinct.2 hnames ?_).trans ((hset.append_left fresh).trans List.perm_middle)
      intro later hlater old hold
      cases List.mem_cons.mp (hset.mem_iff.mp hold) with
      | inl heq =>
          intro hkey
          apply hdistinct.1
          rw [heq] at hkey
          exact List.mem_map.mpr ⟨later, hlater, hkey.symm⟩
      | inr hmem => exact hrest later hlater old hmem

/-! ## Containers -/

section

variable {host : Endian} {toKey : PropertyKey}

theorem loadsElements_eq (n : Nat) (s : Bytes) :
    loadsElements host toKey n s = many (loads host toKey) n s := by
  induction n generalizing s with
  | zero => rw [loadsElements, many]
  | succ n ih =>
      rw [loadsElements, many]
      simp only [ih]

/-- A round of the loop over the entries of an object. -/
def assign (toKey : PropertyKey) (obj : List (Units × Value)) (item : Value × Value) :
    Option (List (Units × Value)) :=
  (propertyKey toKey item.1).map fun key => setProperty obj key item.2

theorem loadsEntries_eq (n : Nat) (s : Bytes) (obj : List (Units × Value)) :
    loadsEntries host toKey n s obj = (many (pair (loads host toKey)) n s).bind fun items =>
      (items.1.foldlM (assign toKey) obj).map (·, items.2) := by
  induction n generalizing s obj with
  | zero => rw [loadsEntries, many]; rfl
  | succ n ih =>
      rw [loadsEntries, many, pair]
      cases hkey : loads host toKey s with
      | none => rfl
      | some key =>
          cases hval : loads host toKey (s.drop key.2) with
          | none => simp [hval]
          | some val =>
              simp only [hval, ih, Option.bind_eq_bind, Option.bind_some]
              cases many (pair (loads host toKey)) n (s.drop (key.2 + val.2)) with
              | none => simp
              | some items =>
                  simp only [Option.bind_some, List.foldlM_cons, Option.bind_eq_bind, Nat.add_assoc,
                    assign]
                  cases propertyKey toKey key.1 with
                  | none => rfl
                  | some name =>
                      simp only [Option.map_some, Option.bind_some]
                      cases items.1.foldlM (assign toKey) (setProperty obj name val.1) with
                      | none => rfl
                      | some obj => rfl

theorem loads_array {n : Nat} (hn : n < 2 ^ 32) (s : Bytes) :
    loads host toKey (code .array :: (BigEndian.encode 4 n ++ s)) =
      (many (loads host toKey) n s).bind fun r =>
        (some (Value.array r.1)).map fun v => (v, 5 + r.2) := by
  rw [loads, tag?_code]
  simp only [getUint_header _ hn, drop_header, loadsElements_eq, Option.bind_eq_bind,
    Option.bind_some]
  rfl

theorem loads_assocarray {n : Nat} (hn : n < 2 ^ 32) (s : Bytes) :
    loads host toKey (code .assocarray :: (BigEndian.encode 4 n ++ s)) =
      (many (pair (loads host toKey)) n s).bind fun r =>
        ((r.1.foldlM (assign toKey) []).map Value.object).map fun v => (v, 5 + r.2) := by
  rw [loads, tag?_code]
  simp only [getUint_header _ hn, drop_header, loadsEntries_eq, Option.bind_eq_bind,
    Option.bind_some]
  cases many (pair (loads host toKey)) n s with
  | none => rfl
  | some r => cases hfold : r.1.foldlM (assign toKey) [] <;> simp [hfold]

/-- The elements of an array one after the other. -/
theorem dumpsElements_parts {xs : List Value} (h : ∀ x ∈ xs, RoundTrips host toKey x) :
    ∃ parts ys, dumpsElements host xs = some parts.flatten ∧
      List.Forall₂ (Delimits (loads host toKey) id) parts (ys.map some) ∧
      parts.length = xs.length ∧ xs.length = ys.length ∧
      ∀ pair ∈ xs.zip ys, DeepEqual host pair.1 pair.2 := by
  induction xs with
  | nil => exact ⟨[], [], rfl, .nil, rfl, rfl, by simp⟩
  | cons x xs ih =>
      obtain ⟨hfirst, hrest⟩ := List.forall_mem_cons.mp h
      obtain ⟨data, y, hdumps, hloads, hequal⟩ := hfirst
      obtain ⟨parts, ys, hparts, hread, hlength, hlength', hall⟩ := ih hrest
      have hdelimits : Delimits (loads host toKey) id data (some y) :=
        Delimits.intro fun rest => ⟨y, hloads rest, rfl⟩
      refine ⟨data :: parts, y :: ys, ?_, .cons hdelimits hread, congrArg (· + 1) hlength,
        congrArg (· + 1) hlength', ?_⟩
      · rw [dumpsElements, hdumps, hparts]
        rfl
      · rw [List.zip_cons_cons]
        exact List.forall_mem_cons.mpr ⟨hequal, hall⟩

/-- The keys and the values of an object one after the other. -/
theorem dumpsEntries_parts {entries : List (Units × Value)}
    (hkeys : ∀ entry ∈ entries, Unmarked entry.1 ∧ (encodeText entry.1).length < 2 ^ 32)
    (h : ∀ entry ∈ entries, RoundTrips host toKey entry.2) :
    ∃ parts ordered, dumpsEntries host entries = some parts.flatten ∧
      List.Forall₂ (Delimits (pair (loads host toKey)) id) parts
        ((ordered.map fun entry : Units × Value => (Value.string entry.1, entry.2)).map some) ∧
      parts.length = entries.length ∧ ordered.map Prod.fst = entries.map Prod.fst ∧
      ∀ pair ∈ entries.zip ordered, DeepEqual host pair.1.2 pair.2.2 := by
  induction entries with
  | nil => exact ⟨[], [], rfl, .nil, rfl, rfl, by simp⟩
  | cons entry entries ih =>
      obtain ⟨key, val⟩ := entry
      obtain ⟨⟨htext, hsize⟩, hkeys⟩ := List.forall_mem_cons.mp hkeys
      obtain ⟨hfirst, hrest⟩ := List.forall_mem_cons.mp h
      obtain ⟨data, w, hdumps, hloads, hequal⟩ := hfirst
      obtain ⟨parts, ordered, hparts, hread, hlength, hsame, hall⟩ := ih hkeys hrest
      have hkey : Delimits (loads host toKey) id (dumpsString key) (some (.string key)) :=
        Delimits.intro fun rest => ⟨_, loads_dumpsString host toKey htext hsize rest, rfl⟩
      have hval : Delimits (loads host toKey) id data (some w) :=
        Delimits.intro fun rest => ⟨w, hloads rest, rfl⟩
      have hboth := hkey.pair hval
      rw [Prod.map_id] at hboth
      refine ⟨(dumpsString key ++ data) :: parts, (key, w) :: ordered, ?_, .cons hboth hread,
        congrArg (· + 1) hlength, ?_, ?_⟩
      · rw [dumpsEntries, hdumps, hparts]
        rfl
      · rw [List.map_cons, List.map_cons, hsame]
      · rw [List.zip_cons_cons]
        exact List.forall_mem_cons.mpr ⟨hequal, hall⟩

theorem roundTrips_array {xs : List Value} (hsize : xs.length < 2 ^ 32)
    (h : ∀ x ∈ xs, RoundTrips host toKey x) : RoundTrips host toKey (.array xs) := by
  obtain ⟨parts, ys, hparts, hread, hlength, hlength', hall⟩ := dumpsElements_parts h
  have hmany := many_flatten hread
  rw [mapM_map_some, List.map_id_fun, hlength] at hmany
  refine ⟨code .array :: (BigEndian.encode 4 xs.length ++ parts.flatten), .array ys, ?_, fun rest => ?_,
    .array hlength' hall⟩
  · rw [dimebdumps, hparts]
    rfl
  · obtain ⟨items, hitems, rfl⟩ := hmany.eq_some rest
    rw [length_tagged, List.cons_append, List.append_assoc, loads_array hsize, hitems]
    rfl

theorem roundTrips_object {entries : List (Units × Value)}
    (hdistinct : (entries.map Prod.fst).Nodup)
    (hnames : ∀ entry ∈ entries, entry.1 ≠ units "__proto__") (hsize : entries.length < 2 ^ 32)
    (hkeys : ∀ entry ∈ entries, Unmarked entry.1 ∧ (encodeText entry.1).length < 2 ^ 32)
    (h : ∀ entry ∈ entries, RoundTrips host toKey entry.2) :
    RoundTrips host toKey (.object entries) := by
  obtain ⟨parts, ordered, hparts, hread, hlength, hsame, hall⟩ := dumpsEntries_parts hkeys h
  have hmany := many_flatten hread
  rw [mapM_map_some, List.map_id_fun, hlength] at hmany
  have hfold : ∀ obj, (ordered.map fun entry : Units × Value => (Value.string entry.1, entry.2)).foldlM
      (assign toKey) obj = some (ordered.foldl (fun obj entry => setProperty obj entry.1 entry.2) obj) := by
    intro obj
    rw [List.foldlM_map]
    exact List.foldlM_pure
  have hperm : (ordered.foldl (fun obj entry => setProperty obj entry.1 entry.2) []).Perm
      (ordered ++ []) := by
    apply foldl_setProperty_perm
    · rw [hsame]
      exact hdistinct
    · intro entry hentry
      have hkey : entry.1 ∈ entries.map Prod.fst := hsame ▸ List.mem_map_of_mem hentry
      obtain ⟨old, hold, heq⟩ := List.mem_map.mp hkey
      exact heq ▸ hnames old hold
    · intro entry _ old hold
      cases hold
  rw [List.append_nil] at hperm
  refine ⟨code .assocarray :: (BigEndian.encode 4 entries.length ++ parts.flatten), .object _, ?_,
    fun rest => ?_, .object hperm.symm hsame hall⟩
  · rw [dimebdumps, hparts]
    rfl
  · obtain ⟨items, hitems, hentries⟩ := hmany.eq_some rest
    rw [id_eq] at hentries
    rw [length_tagged, List.cons_append, List.append_assoc, loads_assocarray hsize, hitems,
      Option.bind_some, hentries, hfold]
    rfl

end

theorem roundTrips_null (host : Endian) (toKey : PropertyKey) : RoundTrips host toKey .null := by
  refine ⟨[code .null], .null, by rw [dimebdumps], fun rest => ?_, .null⟩
  rw [List.singleton_append, loads, tag?_code]
  rfl

theorem roundTrips_boolean (host : Endian) (toKey : PropertyKey) (b : Bool) :
    RoundTrips host toKey (.boolean b) := by
  refine ⟨[if b then code .true else code .false], .boolean b, by rw [dimebdumps], fun rest => ?_,
    .boolean b⟩
  rw [List.singleton_append]
  cases b with
  | true => rw [if_pos rfl, loads, tag?_code]; rfl
  | false => rw [if_neg Bool.false_ne_true, loads, tag?_code]; rfl

section

variable {host : Endian} {toKey : PropertyKey}

theorem getUint_lt {k n i : Nat} {bytes : Bytes} (h : getUint k bytes i = some n) : n < 256 ^ k := by
  unfold getUint at h
  split at h
  next hwithin =>
    cases h
    have hlength : ((bytes.drop i).take k).length = k := by
      rw [List.length_take, List.length_drop]
      omega
    have hlt := BigEndian.decode_lt ((bytes.drop i).take k)
    rwa [hlength] at hlt
  · cases h

/-- The rank and the dimensions of an array that is read fit into their fields. -/
theorem loadsmat_bounds {bytes : Bytes} {type : ElementType} {complex : Bool} {x : NDArray} {n : Nat}
    (h : loadsmat host bytes type complex = some (x, n)) :
    x.shape.length < 256 ∧ ∀ d ∈ x.shape, d < 2 ^ 32 := by
  obtain ⟨rank, hrank, h⟩ := Option.bind_eq_some_iff.mp h
  obtain ⟨shape, hshape, h⟩ := Option.bind_eq_some_iff.mp h
  obtain ⟨_, _, h⟩ := Option.bind_eq_some_iff.mp h
  obtain ⟨values, _, h⟩ := Option.bind_eq_some_iff.mp h
  obtain ⟨array, _, h⟩ := Option.bind_eq_some_iff.mp h
  cases h
  have hlength : shape.length = rank := by
    rw [Python.mapM_eq_some_iff] at hshape
    rw [← hshape.length_eq, List.length_range]
  have hrank' : rank < 256 := getUint_lt hrank
  have hdims : ∀ d ∈ shape, d < 2 ^ 32 := by
    intro d hd
    obtain ⟨i, _, hget⟩ := mapM_mem hshape hd
    exact Nat.lt_of_lt_of_eq (getUint_lt hget) (by decide)
  dsimp only
  split
  next hone =>
    refine ⟨by rw [List.length_cons, hone]; decide, List.forall_mem_cons.mpr ⟨by decide, hdims⟩⟩
  next => exact ⟨hlength ▸ hrank', hdims⟩

theorem loadsMatrix_bounds {bytes : Bytes} {type : Scalar} {x : NDArray} {n : Nat}
    (h : loadsMatrix host bytes type = some (x, n)) :
    x.shape.length < 256 ∧ ∀ d ∈ x.shape, d < 2 ^ 32 := by
  cases type with
  | i64 =>
      obtain ⟨⟨obj, nread⟩, hobj, h⟩ := Option.bind_eq_some_iff.mp h
      dsimp only at h
      split at h
      · obtain ⟨obj', hobj', h⟩ := Option.bind_eq_some_iff.mp h
        obtain ⟨array, _, hobj'⟩ := Option.bind_eq_some_iff.mp hobj'
        cases hobj'
        cases h
        have hbounds := loadsmat_bounds hobj
        exact hbounds
      · cases h
        exact loadsmat_bounds hobj
  | u64 =>
      obtain ⟨⟨obj, nread⟩, hobj, h⟩ := Option.bind_eq_some_iff.mp h
      dsimp only at h
      split at h
      · cases h
      · cases h
        exact loadsmat_bounds hobj
  | _ => exact loadsmat_bounds h

/-- Of an array whose rank or one of whose dimensions is too large, another shape is read. -/
theorem not_roundTrips_ndarray {x : NDArray}
    (h : ¬ (x.shape.length < 256 ∧ ∀ n ∈ x.shape, n < 2 ^ 32)) :
    ¬ RoundTrips host toKey (.ndarray x) := by
  rintro ⟨data, w, hdumps, hloads, hequal⟩
  cases hequal with
  | @ndarray _ y hsame =>
      rw [dimebdumps] at hdumps
      obtain ⟨_, _, hdumps⟩ := Option.bind_eq_some_iff.mp hdumps
      obtain ⟨⟨type, method⟩, _, hdumps⟩ := Option.bind_eq_some_iff.mp hdumps
      obtain ⟨elements, _, hdumps⟩ := Option.bind_eq_some_iff.mp hdumps
      cases hdumps
      have hread := hloads []
      rw [List.append_nil, List.append_assoc, List.cons_append, loads, tag?_code] at hread
      obtain ⟨⟨obj, nread⟩, hobj, hread⟩ := Option.bind_eq_some_iff.mp hread
      cases hread
      exact h (hsame.shape ▸ loadsMatrix_bounds hobj)

/-- Of a text that is too long, a part is read. -/
theorem not_roundTrips_string {s : Units} (h : 2 ^ 32 ≤ (encodeText s).length) :
    ¬ RoundTrips host toKey (.string s) := by
  rintro ⟨data, w, hdumps, hloads, _⟩
  rw [dimebdumps] at hdumps
  cases hdumps
  have hread := hloads []
  rw [dumpsString, length_tagged, List.append_nil, loads, tag?_code] at hread
  obtain ⟨len, hlen, hread⟩ := Option.bind_eq_some_iff.mp hread
  have hlt : len < 2 ^ 32 := Nat.lt_of_lt_of_eq (getUint_lt hlen) (by decide)
  have hnread : len + 5 = 5 + (encodeText s).length := congrArg Prod.snd (Option.some.inj hread)
  omega

/-- A key that is decoded as another one is not the key of the object that is read. -/
theorem not_roundTrips_key {key : Units} (hsize : (encodeText key).length < 2 ^ 32)
    (h : decodeText (encodeText key) ≠ key) : ¬ RoundTrips host toKey (.object [(key, .null)]) := by
  rintro ⟨data, w, hdumps, hloads, hequal⟩
  have hdata : data = code .assocarray ::
      (BigEndian.encode 4 1 ++ (dumpsString key ++ [code .null] ++ [])) := by
    rw [dimebdumps, dumpsEntries, dumpsEntries, dimebdumps] at hdumps
    exact (Option.some.inj hdumps).symm
  have hkey : Delimits (loads host toKey) id (dumpsString key)
      (some (.string (decodeText (encodeText key)))) :=
    Delimits.intro fun rest => ⟨_, loads_string host toKey hsize rest, rfl⟩
  have hval : Delimits (loads host toKey) id [code .null] (some .null) := by
    refine Delimits.intro fun rest => ⟨_, ?_, rfl⟩
    rw [List.singleton_append, loads, tag?_code]
    rfl
  obtain ⟨⟨name, val⟩, hitem, hname⟩ := (hkey.pair hval).eq_some []
  cases hname
  have hread := hloads []
  rw [hdata, List.append_nil, loads_assocarray (by decide)] at hread
  simp only [many, hitem, Option.bind_eq_bind, Option.bind_some] at hread
  have hfold : [(Value.string (decodeText (encodeText key)), Value.null)].foldlM (assign toKey) [] =
      some (setProperty [] (decodeText (encodeText key)) .null) := rfl
  rw [hfold, Option.map_some, Option.map_some] at hread
  obtain rfl := congrArg Prod.fst (Option.some.inj hread)
  cases hequal with
  | @object _ _ ordered hperm hkeys _ =>
      have hmem : key ∈ (setProperty [] (decodeText (encodeText key)) .null).map Prod.fst := by
        rw [← (hperm.map Prod.fst).mem_iff, hkeys]
        exact List.mem_singleton_self key
      by_cases hproto : decodeText (encodeText key) = units "__proto__"
      · rw [setProperty, if_pos hproto] at hmem
        cases hmem
      · have hset := setProperty_perm .null hproto (List.forall_mem_nil _)
        rw [(hset.map Prod.fst).mem_iff] at hmem
        exact h (List.mem_singleton.mp hmem).symm

end

/-- An object with one property. -/
def keyed (key : Units) : Value := .object [(key, .null)]

theorem structured_keyed {key : Units} (h : key ≠ units "__proto__") : Structured (keyed key) := by
  refine .object ?_ (List.forall_mem_singleton.mpr h) (List.forall_mem_singleton.mpr .null)
  simp

/-- A text of so many letters. -/
def letters (n : Nat) : Units := (List.replicate n 'a').flatMap encodeChar

theorem unmarked_letters (n : Nat) : Unmarked (letters n) := by
  refine ⟨List.replicate n 'a', rfl, ?_⟩
  cases n with
  | zero => simp
  | succ n =>
      rw [List.replicate_succ, List.head?_cons]
      decide

theorem length_encodeText_letters (n : Nat) : (encodeText (letters n)).length = n := by
  have hone : String.utf8EncodeChar 'a' = [97] := rfl
  rw [encodeText, letters, characters_encode, List.flatMap_replicate, hone]
  simp

theorem within_deep : 0 + (ArrayType.of .int8).itemsize * 1 ≤ ([7] : Bytes).length := by decide

theorem aligned_deep : (ArrayType.of .int8).itemsize ∣ 0 := by decide

/-- An array of one number, with so many dimensions. -/
def deep (rank : Nat) : NDArray :=
  ⟨.F, List.replicate rank 1, ⟨.of .int8, [7], 0, 1, within_deep, aligned_deep⟩, false⟩

theorem structured_deep {rank : Nat} (h : 2 ≤ rank) : Structured (.ndarray (deep rank)) := by
  refine .ndarray ⟨rfl, ?_, .i8, by decide, by decide, rfl, rfl, ?_⟩
  · rw [deep, List.length_replicate]
    exact h
  · rw [deep, List.prod_replicate, one_pow]
    rfl

end Dime.JavaScript
