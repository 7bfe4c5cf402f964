import Dime.Clients.Matlab.Dimeb
import Dime.Clients.Python.DimebRoundTrip

/-!
# Numbers and arrays in Matlab dimeb

Whatever the byte order of the computer is, numbers are written and read with the most
significant byte first. The end of an array is computed as an `uint8`, so that an array
is read if it is at most 255 bytes long.
-/

namespace Dime.Matlab

open Python (Endian Scalar Tag matHeader)

variable {cls : NumClass} (computer : Endian)

/-! ## Byte order -/

theorem itemsize_pos (cls : NumClass) : 0 < cls.itemsize := by
  cases cls <;> decide

/-- A number in big-endian order. -/
def NumClass.encode (cls : NumClass) (x : cls.Word) : Bytes := BigEndian.encode cls.itemsize x

@[simp] theorem length_encode (x : cls.Word) : (cls.encode x).length = cls.itemsize :=
  BigEndian.length_encode _ _

theorem ofNat_decode_encode (x : cls.Word) : Fin.ofNat _ (BigEndian.decode (cls.encode x)) = x := by
  apply Fin.ext
  rw [Fin.val_ofNat, NumClass.encode, BigEndian.decode_encode_of_lt x.isLt, Nat.mod_eq_of_lt x.isLt]

theorem encode_ofNat_decode {item : Bytes} (h : item.length = cls.itemsize) :
    cls.encode (Fin.ofNat _ (BigEndian.decode item)) = item := by
  have hlt : BigEndian.decode item < 256 ^ cls.itemsize := h ▸ BigEndian.decode_lt item
  rw [NumClass.encode, Fin.val_ofNat, Nat.mod_eq_of_lt hlt, ← h]
  exact BigEndian.encode_decode item

/-- Numbers are written with the most significant byte first. -/
theorem toBytes_swap (x : cls.Word) : toBytes computer (swap computer x) = cls.encode x := by
  cases computer with
  | little =>
      have hlength : (cls.encode x).reverse.length = cls.itemsize := by
        rw [List.length_reverse, length_encode]
      have hswap : swap .little x = Fin.ofNat _ (BigEndian.decode (cls.encode x).reverse) := rfl
      have hbytes : toBytes .little (swap .little x) = (cls.encode (swap .little x)).reverse := rfl
      rw [hbytes, hswap, encode_ofNat_decode hlength, List.reverse_reverse]
  | big => rfl

/-- Numbers are read with the most significant byte first. -/
theorem swap_inMemory {item : Bytes} (h : item.length = cls.itemsize) :
    swap computer (Fin.ofNat _ (BigEndian.decode (inMemory computer item)) : cls.Word) =
      Fin.ofNat _ (BigEndian.decode item) := by
  cases computer with
  | little =>
      have hlength : item.reverse.length = cls.itemsize := by rw [List.length_reverse, h]
      have hswap : swap .little (Fin.ofNat _ (BigEndian.decode item.reverse) : cls.Word) =
          Fin.ofNat _ (BigEndian.decode
            (cls.encode (Fin.ofNat _ (BigEndian.decode item.reverse))).reverse) := rfl
      rw [encode_ofNat_decode hlength, List.reverse_reverse] at hswap
      exact hswap
  | big => rfl

theorem length_flatMap_encode (xs : List cls.Word) :
    (xs.flatMap cls.encode).length = cls.itemsize * xs.length := by
  rw [Nat.mul_comm]
  induction xs with
  | nil => simp
  | cons x xs ih =>
      rw [List.flatMap_cons, List.length_append, ih, length_encode, List.length_cons, Nat.succ_mul,
        Nat.add_comm]

theorem chunks_flatMap_encode (xs : List cls.Word) :
    chunks cls.itemsize xs.length (xs.flatMap cls.encode) = xs.map cls.encode := by
  induction xs with
  | nil => rfl
  | cons x xs ih =>
      have hlength : (cls.encode x).length = cls.itemsize := length_encode x
      rw [List.length_cons, List.flatMap_cons, chunks, List.take_left' hlength,
        List.drop_left' hlength, ih]
      rfl

/-- `typecast` and `swapbytes` read numbers that have been written. -/
theorem typecast_flatMap_encode (xs : List cls.Word) :
    ∃ read, typecast computer cls (xs.flatMap cls.encode) = some read ∧ read.map (swap computer) = xs := by
  have hlength := length_flatMap_encode xs
  have hcount : (xs.flatMap cls.encode).length / cls.itemsize = xs.length := by
    rw [hlength, Nat.mul_div_cancel_left _ (itemsize_pos cls)]
  have hdvd : cls.itemsize ∣ (xs.flatMap cls.encode).length := ⟨xs.length, hlength⟩
  refine ⟨_, if_pos hdvd, ?_⟩
  rw [hcount, chunks_flatMap_encode, List.map_map, List.map_map]
  conv_rhs => rw [← List.map_id xs]
  apply List.map_congr_left
  intro x _
  have hswap := swap_inMemory computer (length_encode x)
  rw [ofNat_decode_encode] at hswap
  exact hswap

theorem length_typecast {computer : Endian} {s : Bytes} {xs : List cls.Word} (h : typecast computer cls s = some xs) :
    cls.itemsize * xs.length = s.length := by
  have hchunks : ∀ k n (s : Bytes), (chunks k n s).length = n := by
    intro k n
    induction n with
    | zero => exact fun _ => rfl
    | succ n ih => exact fun s => congrArg (· + 1) (ih (s.drop k))
  unfold typecast at h
  split at h
  next hdvd =>
    cases h
    rw [List.length_map, hchunks, Nat.mul_div_cancel' hdvd]
  · cases h

/-! ## Parts of the bytes -/

theorem range_append (front : Bytes) {s : Bytes} {i j : Nat} (rest : Bytes) (hi : i = front.length + 1)
    (hj : j = front.length + s.length) : range (front ++ (s ++ rest)) i j = some s := by
  subst hi hj
  unfold range
  by_cases hs : s = []
  · rw [hs, if_pos (by simp)]
  · have hpos : 0 < s.length := List.length_pos_of_ne_nil hs
    rw [if_neg (by omega), if_pos (by simp only [List.length_append]; omega), Nat.add_sub_cancel,
      List.drop_left, List.take_left' (by omega)]

theorem length_range {s t : Bytes} {i j : Nat} (hi : 0 < i) (h : range s i j = some t) :
    t.length = j + 1 - i := by
  unfold range at h
  split at h
  · cases h
    exact (Nat.sub_eq_zero_of_le (by omega)).symm
  · split at h
    · cases h
      rw [List.length_take, List.length_drop]
      omega
    · cases h

/-! ## Shapes -/

theorem prod_rdropWhile (dims : List Nat) : (dims.rdropWhile (· = 1)).prod = dims.prod := by
  induction dims using List.reverseRecOn with
  | nil => rfl
  | append_singleton dims n ih =>
      rw [List.rdropWhile_concat]
      split
      next hone =>
        rw [ih, List.prod_append, of_decide_eq_true hone]
        simp
      · rfl

namespace Size

theorem ofDims_eq_some {dims : List Nat} {size : Size} (h : ofDims dims = some size) :
    2 ≤ dims.length ∧ size.numel = dims.prod ∧ size.dims.length ≤ dims.length := by
  unfold ofDims at h
  split at h
  next hlength =>
    cases h
    refine ⟨hlength, ?_, ?_⟩
    · change (dims.take 2 ++ (dims.drop 2).rdropWhile (· = 1)).prod = dims.prod
      rw [List.prod_append, prod_rdropWhile, ← List.prod_append, List.take_append_drop]
    · have hle : ((dims.drop 2).rdropWhile (· = 1)).length ≤ (dims.drop 2).length :=
        (List.rdropWhile_prefix _ _).length_le
      rw [List.length_append, List.length_take, Nat.min_eq_left hlength]
      rw [List.length_drop] at hle
      omega
  · cases h

/-- `reshape` keeps what `size` returns. -/
theorem ofDims_dims (size : Size) : ofDims size.dims = some size := by
  have hkeep : (size.dims.drop 2).rdropWhile (· = 1) = size.dims.drop 2 := by
    rw [List.rdropWhile_eq_self_iff]
    intro hne hone
    exact size.trimmed ((List.getLast?_eq_some_getLast hne).trans (congrArg some (of_decide_eq_true hone)))
  unfold ofDims
  rw [dif_pos size.two_le]
  cases size
  simp only [hkeep, List.take_append_drop]

end Size

theorem Grid.reshape_eq_some {α : Type} {data : List α} {dims : List Nat} {x : Grid α}
    (h : Grid.reshape data dims = some x) :
    x.data = data ∧ data.length = dims.prod ∧ Size.ofDims dims = some x.size := by
  obtain ⟨size, hsize, h⟩ := Option.bind_eq_some_iff.mp h
  split at h
  next hlength =>
    cases h
    exact ⟨rfl, hlength.trans (Size.ofDims_eq_some hsize).2.1, hsize⟩
  · cases h

theorem Grid.reshape_dims {α : Type} (x : Grid α) : Grid.reshape x.data x.size.dims = some x := by
  unfold Grid.reshape
  rw [Size.ofDims_dims]
  exact dif_pos x.length_data

/-! ## Scalars -/

/-- A number in the array that it is. -/
theorem loadsReal_encode (tag : UInt8) (x : cls.Word) (rest : Bytes) :
    Dimeb.loadsReal computer (tag :: (cls.encode x ++ rest)) cls =
      some (.numeric (.real (Grid.scalar x)), cls.itemsize + 1) := by
  obtain ⟨read, htypecast, hread⟩ := typecast_flatMap_encode computer [x]
  have hrange : range (tag :: (cls.encode x ++ rest)) 2 (cls.itemsize + 1) = some (cls.encode x) :=
    range_append [tag] rest rfl (by rw [length_encode, List.length_singleton, Nat.add_comm])
  rw [List.flatMap_singleton] at htypecast
  unfold Dimeb.loadsReal
  simp only [hrange, htypecast, hread, Option.bind_eq_bind, Option.bind_some]
  rfl

/-- A complex number. -/
def Numeric.complexScalar {cls : NumClass} (re im : cls.Word) : Numeric :=
  ⟨cls, Grid.scalar re, some [im], by
    intro im' heq
    cases heq
    rfl⟩

theorem loadsComplex_encode (tag : UInt8) (re im : cls.Word) (rest : Bytes) :
    Dimeb.loadsComplex computer (tag :: (cls.encode re ++ (cls.encode im ++ rest))) cls =
      some (.numeric (.complexScalar re im), 2 * cls.itemsize + 1) := by
  obtain ⟨read, htypecast, hread⟩ := typecast_flatMap_encode computer [re, im]
  have hbytes : [re, im].flatMap cls.encode = cls.encode re ++ cls.encode im := by simp
  rw [hbytes] at htypecast
  have hrange : range (tag :: (cls.encode re ++ (cls.encode im ++ rest))) 2 (2 * cls.itemsize + 1) =
      some (cls.encode re ++ cls.encode im) := by
    rw [← List.append_assoc]
    refine range_append [tag] rest rfl ?_
    rw [List.length_append, length_encode, length_encode, List.length_singleton]
    omega
  unfold Dimeb.loadsComplex
  simp only [hrange, htypecast, hread, Option.bind_eq_bind, Option.bind_some]
  rfl

/-! ## Arrays -/

theorem uint8_of_le {n : Nat} (h : n ≤ 255) : uint8 n = n := Nat.min_eq_left h

theorem rank_matHeader (type : Scalar) {shape : List Nat} (hrank : shape.length ≤ 64) (body : Bytes) :
    ∃ rank, (matHeader type shape ++ body)[1]? = some rank ∧ rank.toNat = shape.length :=
  ⟨UInt8.ofNat shape.length, rfl, by rw [UInt8.toNat_ofNat', Nat.mod_eq_of_lt (by omega)]⟩

/-- The rank and the shape are read. -/
theorem loadsShape_matHeader (type : Scalar) {shape : List Nat} (hrank : shape.length ≤ 63)
    (hdims : ∀ n ∈ shape, n < 2 ^ 32) (body : Bytes) :
    Dimeb.loadsShape computer (matHeader type shape ++ body) = some (shape, 4 * shape.length + 2) := by
  obtain ⟨rank, hget, hlength⟩ := rank_matHeader type (Nat.le_succ_of_le hrank) body
  have hval : ∀ n ∈ shape, (Fin.ofNat _ n : NumClass.uint32.Word).val = n := fun n hn =>
    Nat.mod_eq_of_lt (lt_of_lt_of_eq (hdims n hn) (by decide))
  obtain ⟨read, htypecast, hread⟩ := typecast_flatMap_encode computer
    (shape.map fun n => (Fin.ofNat _ n : NumClass.uint32.Word))
  have hbytes : (shape.map fun n => (Fin.ofNat _ n : NumClass.uint32.Word)).flatMap
      NumClass.uint32.encode = (shape.map (BigEndian.encode 4)).flatten := by
    rw [List.flatMap_map, List.flatMap_def]
    refine congrArg List.flatten (List.map_congr_left fun n hn => ?_)
    exact congrArg (BigEndian.encode 4) (hval n hn)
  rw [hbytes] at htypecast
  have hstop : uint8 (uint8 (4 * shape.length) + 2) = 4 * shape.length + 2 := by
    have hrank' : uint8 (4 * shape.length) = 4 * shape.length := uint8_of_le (by omega)
    rw [hrank', uint8_of_le (by omega)]
  have hrange : range (matHeader type shape ++ body) 3 (4 * shape.length + 2) =
      some (shape.map (BigEndian.encode 4)).flatten := by
    rw [matHeader, List.append_assoc]
    refine range_append _ body rfl ?_
    rw [Python.length_shapedata, Nat.add_comm]
    rfl
  have hshape : read.map (fun n => (swap computer n).val) = shape := by
    have hsplit : read.map (fun n => (swap computer n).val) = (read.map (swap computer)).map Fin.val :=
      List.map_map.symm
    rw [hsplit, hread, List.map_map]
    exact (List.map_congr_left hval).trans (List.map_id shape)
  unfold Dimeb.loadsShape
  simp only [hget, hlength, hstop, hrange, htypecast, hshape, Option.bind_eq_bind, Option.bind_some]

/-- A header of rank 64 ends behind the 255th byte. -/
theorem loadsShape_none (type : Scalar) {shape : List Nat} (hrank : shape.length = 64) (body : Bytes) :
    Dimeb.loadsShape computer (matHeader type shape ++ body) = none := by
  obtain ⟨rank, hget, hlength⟩ := rank_matHeader type (le_of_eq hrank) body
  have hstop : uint8 (uint8 (4 * 64) + 2) = 255 := by decide
  unfold Dimeb.loadsShape
  simp only [hget, hlength, hrank, hstop, Option.bind_eq_bind, Option.bind_some]
  cases hrange : range (matHeader type shape ++ body) 3 255 with
  | none => rfl
  | some t =>
      have ht : t.length = 253 := length_range (by decide) hrange
      have hnone : typecast computer .uint32 t = none := by
        unfold typecast
        rw [if_neg]
        rw [ht]
        decide
      simp only [hnone, Option.bind_some, Option.bind_none]

/-- The length of an encoded array, from the size of its header and the number of its data. -/
def arrayLength (rank itemsize count : Nat) : Nat := 4 * rank + 2 + count * itemsize

/-- The shape that `loads_mat` gives an array. -/
def unsqueeze (shape : List Nat) : List Nat := if shape.length = 1 then shape ++ [1] else shape

theorem prod_unsqueeze (shape : List Nat) : (unsqueeze shape).prod = shape.prod := by
  unfold unsqueeze
  split
  · rw [List.prod_append]
    simp
  · rfl

section

variable {type : Scalar} {shape : List Nat}

/-- An array of up to 255 bytes is read. -/
theorem loadsMat_fits (hdims : ∀ n ∈ shape, n < 2 ^ 32) (words : List cls.Word)
    (hcount : words.length = shape.prod) (hpos : 0 < shape.prod)
    (hfits : arrayLength shape.length cls.itemsize shape.prod ≤ 255) (rest : Bytes) :
    Dimeb.loadsMat computer (matHeader type shape ++ (words.flatMap cls.encode ++ rest)) cls =
      (Grid.reshape words (unsqueeze shape)).map fun x =>
        (.numeric (.real x), arrayLength shape.length cls.itemsize shape.prod) := by
  unfold arrayLength at hfits ⊢
  have hbytes := Nat.mul_pos hpos (itemsize_pos cls)
  obtain ⟨read, htypecast, hread⟩ := typecast_flatMap_encode computer words
  have hprod := prod_unsqueeze shape
  unfold unsqueeze at hprod ⊢
  have hrange : range (matHeader type shape ++ (words.flatMap cls.encode ++ rest))
      (4 * shape.length + 2 + 1) (4 * shape.length + 2 + shape.prod * cls.itemsize) =
      some (words.flatMap cls.encode) := by
    apply range_append
    · rw [Python.length_matHeader]
    · rw [Python.length_matHeader, length_flatMap_encode, hcount, Nat.mul_comm cls.itemsize]
  have hstop : uint8 (4 * shape.length + 2 + 1) = 4 * shape.length + 2 + 1 := uint8_of_le (by omega)
  have hshape := loadsShape_matHeader computer type (by omega) hdims (words.flatMap cls.encode ++ rest)
  unfold Dimeb.loadsMat
  simp only [hshape, hprod, uint8_of_le hfits, hstop, hrange, htypecast, hread, Option.bind_eq_bind,
    Option.bind_some]
  cases Grid.reshape words (if shape.length = 1 then shape ++ [1] else shape) with
  | none => rfl
  | some x => rfl

/-- The header of an array that is longer is read, or nothing is. -/
theorem loadsShape_cases (hdims : ∀ n ∈ shape, n < 2 ^ 32) (hrank : shape.length ≤ 64) (body : Bytes) :
    Dimeb.loadsShape computer (matHeader type shape ++ body) = none ∨
      4 * shape.length + 2 ≤ 254 ∧
        Dimeb.loadsShape computer (matHeader type shape ++ body) = some (shape, 4 * shape.length + 2) := by
  by_cases hlast : shape.length = 64
  · exact .inl (loadsShape_none computer type hlast body)
  · exact .inr ⟨by omega, loadsShape_matHeader computer type (by omega) hdims body⟩

/-- Of a longer array too few bytes are taken. -/
theorem loadsMat_exceeds (hdims : ∀ n ∈ shape, n < 2 ^ 32) (hrank : shape.length ≤ 64)
    (hexceeds : 255 < arrayLength shape.length cls.itemsize shape.prod) (body : Bytes) :
    Dimeb.loadsMat computer (matHeader type shape ++ body) cls = none := by
  unfold arrayLength at hexceeds
  rw [Option.eq_none_iff_forall_ne_some]
  intro result hresult
  obtain ⟨⟨shape', stop⟩, hshape, hresult⟩ := Option.bind_eq_some_iff.mp hresult
  obtain hnone | ⟨hstop, hsome⟩ := @loadsShape_cases computer type shape hdims hrank body
  · rw [hnone] at hshape
    cases hshape
  · cases hsome.symm.trans hshape
    obtain ⟨t, ht, hresult⟩ := Option.bind_eq_some_iff.mp hresult
    obtain ⟨words, hwords, hresult⟩ := Option.bind_eq_some_iff.mp hresult
    obtain ⟨x, hx, hresult⟩ := Option.bind_eq_some_iff.mp hresult
    have hprod := prod_unsqueeze shape
    unfold unsqueeze at hprod
    have hend : uint8 (4 * shape.length + 2 + shape.prod * cls.itemsize) = 255 :=
      Nat.min_eq_right (Nat.le_of_lt hexceeds)
    have hbegin : uint8 (4 * shape.length + 2 + 1) = 4 * shape.length + 2 + 1 := uint8_of_le (by omega)
    rw [hprod, hend, hbegin] at ht
    have hlength := (length_typecast hwords).trans (length_range (Nat.succ_pos _) ht)
    have hcount := (Grid.reshape_eq_some hx).2.1
    rw [List.length_map, hprod] at hcount
    rw [hcount, Nat.mul_comm] at hlength
    omega

/-! ## Complex arrays -/

/-- The two parts of every element side by side. -/
def interleave {α : Type} (re im : List α) : List α := (re.zip im).flatMap fun element => [element.1, element.2]

theorem interleave_cons {α : Type} (x y : α) (re im : List α) :
    interleave (x :: re) (y :: im) = x :: y :: interleave re im := rfl

theorem deinterleave_interleave {α : Type} {re im : List α} (h : im.length = re.length) :
    Dimeb.deinterleave (interleave re im) = (re, im) := by
  induction re generalizing im with
  | nil => rw [List.eq_nil_of_length_eq_zero h]; rfl
  | cons x re ih =>
      cases im with
      | nil => cases h
      | cons y im =>
          rw [interleave_cons, Dimeb.deinterleave, ih (Nat.succ.inj h)]

theorem length_interleave {α : Type} {re im : List α} (h : im.length = re.length) :
    (interleave re im).length = 2 * re.length := by
  induction re generalizing im with
  | nil => rfl
  | cons x re ih =>
      cases im with
      | nil => cases h
      | cons y im =>
          rw [interleave_cons, List.length_cons, List.length_cons, ih (Nat.succ.inj h), List.length_cons]
          rfl

theorem deinterleave_map {α β : Type} (f : α → β) (l : List α) :
    Dimeb.deinterleave (l.map f) = ((Dimeb.deinterleave l).1.map f, (Dimeb.deinterleave l).2.map f) := by
  induction l using Dimeb.deinterleave.induct with
  | case1 => rfl
  | case2 x => rfl
  | case3 x y rest ih =>
      change (f x :: (Dimeb.deinterleave (rest.map f)).1, f y :: (Dimeb.deinterleave (rest.map f)).2) = _
      rw [ih]
      rfl

theorem length_deinterleave {α : Type} (l : List α) :
    (Dimeb.deinterleave l).1.length + (Dimeb.deinterleave l).2.length = l.length := by
  induction l using Dimeb.deinterleave.induct with
  | case1 => rfl
  | case2 x => rfl
  | case3 x y rest ih =>
      change ((Dimeb.deinterleave rest).1.length + 1) + ((Dimeb.deinterleave rest).2.length + 1) =
        rest.length + 2
      omega

theorem complex_eq_some {re im : List cls.Word} {dims : List Nat} {obj : Value}
    (h : Dimeb.complex re im dims = some obj) :
    re.length = dims.prod ∧ im.length = dims.prod ∧ 2 ≤ dims.length := by
  obtain ⟨x, hx, h⟩ := Option.bind_eq_some_iff.mp h
  obtain ⟨hdata, hlength, hsize⟩ := Grid.reshape_eq_some hx
  split at h
  next him =>
    rw [hdata] at him
    exact ⟨hlength, him.trans hlength, (Size.ofDims_eq_some hsize).1⟩
  · cases h

/-- A complex array of up to 255 bytes is read. -/
theorem loadsMatComplex_fits (hdims : ∀ n ∈ shape, n < 2 ^ 32) {re im : List cls.Word}
    (hcount : re.length = shape.prod) (him : im.length = re.length) (hpos : 0 < shape.prod)
    (hfits : arrayLength shape.length (2 * cls.itemsize) shape.prod ≤ 255) (rest : Bytes) :
    Dimeb.loadsMatComplex computer
        (matHeader type shape ++ ((interleave re im).flatMap cls.encode ++ rest)) cls =
      (Dimeb.complex re im shape).map fun obj =>
        (obj, arrayLength shape.length (2 * cls.itemsize) shape.prod) := by
  unfold arrayLength at hfits ⊢
  have hbytes := Nat.mul_pos hpos (Nat.mul_pos Nat.two_pos (itemsize_pos cls))
  obtain ⟨read, htypecast, hread⟩ := typecast_flatMap_encode computer (interleave re im)
  have hparts := deinterleave_map (swap computer) read
  rw [hread, deinterleave_interleave him] at hparts
  have hre : (Dimeb.deinterleave read).1.map (swap computer) = re := (congrArg Prod.fst hparts).symm
  have him' : (Dimeb.deinterleave read).2.map (swap computer) = im := (congrArg Prod.snd hparts).symm
  have hrange : range (matHeader type shape ++ ((interleave re im).flatMap cls.encode ++ rest))
      (4 * shape.length + 2 + 1) (4 * shape.length + 2 + shape.prod * (2 * cls.itemsize)) =
      some ((interleave re im).flatMap cls.encode) := by
    apply range_append
    · rw [Python.length_matHeader]
    · rw [Python.length_matHeader, length_flatMap_encode, length_interleave him, hcount]
      ring
  have hstop : uint8 (4 * shape.length + 2 + 1) = 4 * shape.length + 2 + 1 := uint8_of_le (by omega)
  have hshape := loadsShape_matHeader computer type (by omega) hdims
    ((interleave re im).flatMap cls.encode ++ rest)
  unfold Dimeb.loadsMatComplex
  simp only [hshape, uint8_of_le hfits, hstop, hrange, htypecast, hre, him', Option.bind_eq_bind,
    Option.bind_some]
  cases Dimeb.complex re im shape with
  | none => rfl
  | some obj => rfl

/-- Of a longer complex array too few bytes are taken. -/
theorem loadsMatComplex_exceeds (hdims : ∀ n ∈ shape, n < 2 ^ 32) (hrank : shape.length ≤ 64)
    (hexceeds : 255 < arrayLength shape.length (2 * cls.itemsize) shape.prod) (body : Bytes) :
    Dimeb.loadsMatComplex computer (matHeader type shape ++ body) cls = none := by
  unfold arrayLength at hexceeds
  rw [Option.eq_none_iff_forall_ne_some]
  intro result hresult
  obtain ⟨⟨shape', stop⟩, hshape, hresult⟩ := Option.bind_eq_some_iff.mp hresult
  obtain hnone | ⟨hstop, hsome⟩ := @loadsShape_cases computer type shape hdims hrank body
  · rw [hnone] at hshape
    cases hshape
  · cases hsome.symm.trans hshape
    obtain ⟨t, ht, hresult⟩ := Option.bind_eq_some_iff.mp hresult
    obtain ⟨words, hwords, hresult⟩ := Option.bind_eq_some_iff.mp hresult
    obtain ⟨obj, hobj, hresult⟩ := Option.bind_eq_some_iff.mp hresult
    have hend : uint8 (4 * shape.length + 2 + shape.prod * (2 * cls.itemsize)) = 255 :=
      Nat.min_eq_right (Nat.le_of_lt hexceeds)
    have hbegin : uint8 (4 * shape.length + 2 + 1) = 4 * shape.length + 2 + 1 := uint8_of_le (by omega)
    rw [hend, hbegin] at ht
    have hlength := (length_typecast hwords).trans (length_range (Nat.succ_pos _) ht)
    obtain ⟨hre, him, _⟩ := complex_eq_some hobj
    rw [List.length_map] at hre him
    have htotal := length_deinterleave words
    rw [hre, him] at htotal
    have hitems : cls.itemsize * words.length = shape.prod * (2 * cls.itemsize) := by
      rw [← htotal]
      ring
    omega

end

end Dime.Matlab
