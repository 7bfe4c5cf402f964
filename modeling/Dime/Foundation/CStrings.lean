import Mathlib.Data.List.Infix
import Mathlib.Data.List.TakeWhile
import Mathlib.Algebra.Notation.Defs

/-!
# Strings in buffers

Strings that end at the first zero, in buffers of a fixed size. An access outside of the
buffer and a null pointer are errors, so a program over these operations that returns has
kept to its buffers.
-/

namespace CStrings

/-- What the operations are not defined on. -/
inductive Misuse where
  | null
  | outside
  deriving DecidableEq, Repr

variable {α : Type} [DecidableEq α] [Zero α]

/-- The characters before the first zero. -/
def chars (s : List α) : List α := s.takeWhile fun c => c ≠ 0

/-- The string at an address. -/
def stringAt (buf : List α) : Option Nat → Except Misuse (List α)
  | none => .error .null
  | some p => if 0 ∈ buf.drop p then .ok (chars (buf.drop p)) else .error .outside

def store (buf : List α) (i : Nat) (c : α) : Except Misuse (List α) :=
  if i < buf.length then .ok (buf.set i c) else .error .outside

/-- Write characters from an address on. -/
def copy (buf : List α) (i : Nat) (s : List α) : Except Misuse (List α) :=
  if i + s.length ≤ buf.length then .ok (buf.take i ++ (s ++ buf.drop (i + s.length)))
  else .error .outside

/-- The first characters of a string, and zeros up to the full count. -/
def strncpy (buf : List α) (i : Nat) (s : List α) (n : Nat) : Except Misuse (List α) :=
  copy buf i (s.take n ++ List.replicate (n - s.length) 0)

/-- Append the first characters of a string to the one at an address, and a zero behind
them. -/
def strncat (buf : List α) (p : Nat) (s : List α) (n : Nat) : Except Misuse (List α) := do
  let t ← stringAt buf (some p)
  copy buf (p + t.length) (s.take n ++ [0])

/-- A new buffer; memory that nobody has written to can hold anything. -/
def malloc (fresh : Nat → α) (n : Nat) : List α := (List.range n).map fresh

/-- A buffer of another size with the same contents. -/
def realloc (fresh : Nat → α) (buf : List α) (n : Nat) : List α :=
  buf.take n ++ (malloc fresh n).drop buf.length

/-- The index at which a string first contains another. -/
def find (needle : List α) : List α → Option Nat
  | [] => if needle = [] then some 0 else none
  | c :: s => if needle <+: c :: s then some 0 else (find needle s).map (· + 1)

/-- The address at which the string at an address first contains another. -/
def strstr (buf : List α) (p : Option Nat) (needle : List α) : Except Misuse (Option Nat) := do
  let s ← stringAt buf p
  return (find needle s).map fun i => p.getD 0 + i

/-- A token that has been cut out of a buffer, and the address to go on from. -/
structure Token (α : Type) where
  line : Option Nat
  buf : List α
  saveptr : Nat

/-- The next token of the string at an address: the first run of characters that are no
delimiters. The delimiter behind it is overwritten. -/
def strtok (delims : List α) (buf : List α) (saveptr : Nat) : Except Misuse (Token α) := do
  let s ← stringAt buf (some saveptr)
  let start := (s.takeWhile (· ∈ delims)).length
  let rest := s.dropWhile (· ∈ delims)
  let n := (rest.takeWhile (· ∉ delims)).length
  if rest = [] then return ⟨none, buf, saveptr + start⟩
  else if rest.length = n then return ⟨some (saveptr + start), buf, saveptr + start + n⟩
  else
    let buf ← store buf (saveptr + start + n) 0
    return ⟨some (saveptr + start), buf, saveptr + start + n + 1⟩

/-! ## Strings -/

theorem zero_not_mem_chars (s : List α) : (0 : α) ∉ chars s := by
  intro h
  simpa using List.mem_takeWhile_imp h

theorem chars_prefix (s : List α) : chars s <+: s := List.takeWhile_prefix _

/-- What follows a zero does not count. -/
theorem chars_append_zero (s rest : List α) : chars (s ++ 0 :: rest) = chars s := by
  induction s with
  | nil => simp [chars]
  | cons c s ih =>
      rw [chars, chars, List.cons_append, List.takeWhile_cons, List.takeWhile_cons]
      rw [chars, chars] at ih
      rw [ih]

theorem length_chars_le {s : List α} {i : Nat} (h : s[i]? = some 0) : (chars s).length ≤ i := by
  obtain ⟨rest, hrest⟩ := chars_prefix s
  by_contra hlt
  have hget : (chars s)[i]? = some 0 := by
    rw [← h, ← List.getElem?_append_left (by omega), hrest]
  exact zero_not_mem_chars s (List.mem_of_getElem? hget)

/-- A zero ends the string. -/
theorem chars_take {s : List α} {n : Nat} (h : s[n]? = some 0) : chars (s.take n) = chars s := by
  obtain ⟨hlt, hzero⟩ := List.getElem?_eq_some_iff.mp h
  conv_rhs => rw [← List.take_append_drop n s, List.drop_eq_getElem_cons hlt, hzero]
  rw [chars_append_zero]

omit [Zero α] in
theorem find_isSome_iff {needle s : List α} : (find needle s).isSome ↔ needle <:+: s := by
  induction s with
  | nil =>
      rw [find, List.infix_nil]
      split <;> simp_all
  | cons c s ih =>
      rw [find, List.infix_cons_iff]
      split
      next h => simp [h]
      next h => simp [h, ih]

omit [Zero α] in
theorem find_le {needle s : List α} {i : Nat} (h : find needle s = some i) :
    i + needle.length ≤ s.length := by
  induction s generalizing i with
  | nil =>
      rw [find] at h
      split at h
      next hnil => obtain rfl := Option.some.inj h; simp [hnil]
      next => cases h
  | cons c s ih =>
      rw [find] at h
      split at h
      next hpart =>
        obtain rfl := Option.some.inj h
        rw [Nat.zero_add]
        exact hpart.length_le
      next =>
        obtain ⟨j, hj, rfl⟩ := Option.map_eq_some_iff.mp h
        have := ih hj
        rw [List.length_cons]
        omega

/-! ## Buffers with a zero -/

variable {buf : List α} {n p : Nat}

/-- At every address up to a zero there is a string, and it ends by there. -/
theorem stringAt_spec (hend : buf[n]? = some 0) (hp : p ≤ n) :
    stringAt buf (some p) = .ok (chars (buf.drop p)) ∧ p + (chars (buf.drop p)).length ≤ n := by
  have hdrop : (buf.drop p)[n - p]? = some 0 := by
    rw [List.getElem?_drop, Nat.add_sub_of_le hp, hend]
  have hle := length_chars_le hdrop
  rw [stringAt, if_pos (List.mem_of_getElem? hdrop)]
  exact ⟨rfl, by omega⟩

theorem strstr_spec (hend : buf[n]? = some 0) (hp : p ≤ n) (needle : List α) :
    ∃ found, strstr buf (some p) needle = .ok found ∧
      (found.isSome ↔ needle <:+: chars (buf.drop p)) ∧
      ∀ q, found = some q → p ≤ q ∧ q + needle.length ≤ n := by
  obtain ⟨hstring, hle⟩ := stringAt_spec hend hp
  refine ⟨(find needle (chars (buf.drop p))).map (p + ·), ?_, ?_, ?_⟩
  · rw [strstr, hstring]
    rfl
  · rw [Option.isSome_map, find_isSome_iff]
  · intro q hq
    obtain ⟨i, hi, rfl⟩ := Option.map_eq_some_iff.mp hq
    have := find_le hi
    omega

omit [DecidableEq α] [Zero α] in
theorem copy_spec {s : List α} (h : p + s.length ≤ buf.length) :
    ∃ buf', copy buf p s = .ok buf' ∧ buf'.length = buf.length ∧
      buf'.take (p + s.length) = buf.take p ++ s := by
  refine ⟨_, if_pos h, ?_, ?_⟩
  · simp only [List.length_append, List.length_take, List.length_drop]
    omega
  · rw [← List.append_assoc]
    apply List.take_left'
    rw [List.length_append, List.length_take]
    omega

omit [DecidableEq α] [Zero α] in
theorem copy_append (front : List α) {old s : List α} (h : s.length = old.length)
    (rest : List α) :
    copy (front ++ (old ++ rest)) front.length s = .ok (front ++ (s ++ rest)) := by
  rw [copy, if_pos (by simp only [List.length_append]; omega), List.take_left, h,
    ← List.append_assoc front old rest, List.drop_left' (List.length_append ..)]

omit [DecidableEq α] [Zero α] in
theorem copy_outside {s : List α} (h : buf.length < p + s.length) :
    copy buf p s = .error .outside := if_neg (Nat.not_le.mpr h)

theorem chars_eq_self {s : List α} (hs : (0 : α) ∉ s) : chars s = s := by
  rw [chars, List.takeWhile_eq_self_iff]
  intro c hc
  simpa using fun h : c = 0 => hs (h ▸ hc)

/-- A string with a zero behind it. -/
theorem stringAt_append {s : List α} (hs : (0 : α) ∉ s) (rest : List α) :
    stringAt (s ++ 0 :: rest) (some 0) = .ok s := by
  rw [stringAt, List.drop_zero, if_pos (by simp), chars_append_zero, chars_eq_self hs]

omit [DecidableEq α] in
theorem strncpy_append {s old : List α} (h : s.length ≤ old.length) (rest : List α) :
    strncpy (old ++ rest) 0 s old.length =
      .ok (s ++ (List.replicate (old.length - s.length) 0 ++ rest)) := by
  rw [strncpy, List.take_of_length_le h]
  have hlength : (s ++ List.replicate (old.length - s.length) 0).length = old.length := by
    rw [List.length_append, List.length_replicate]
    omega
  have hcopy := copy_append [] hlength rest
  rwa [List.nil_append, List.nil_append, List.append_assoc] at hcopy

/-- The zero comes behind what is appended. -/
theorem strncat_append {s t old : List α} {n : Nat} (hs : (0 : α) ∉ s)
    (h : old.length = (t.take n).length) (rest : List α) :
    strncat (s ++ 0 :: (old ++ rest)) 0 t n = .ok (s ++ (t.take n ++ 0 :: rest)) := by
  have hlength : (t.take n ++ [0]).length = (0 :: old).length := by
    rw [List.length_append, List.length_singleton, List.length_cons, h]
  have hcopy := copy_append s hlength rest
  rw [strncat, stringAt_append hs]
  simp only [bind, Except.bind, Nat.zero_add]
  rwa [List.cons_append, List.append_assoc, List.singleton_append] at hcopy

theorem strncat_outside {s t rest : List α} {n : Nat} (hs : (0 : α) ∉ s)
    (h : rest.length < (t.take n).length) :
    strncat (s ++ 0 :: rest) 0 t n = .error .outside := by
  rw [strncat, stringAt_append hs]
  simp only [bind, Except.bind, Nat.zero_add]
  apply copy_outside
  simp only [List.length_append, List.length_cons, List.length_nil]
  omega

omit [DecidableEq α] [Zero α] in
@[simp] theorem length_malloc (fresh : Nat → α) (n : Nat) : (malloc fresh n).length = n := by
  simp [malloc]

omit [DecidableEq α] [Zero α] in
theorem realloc_spec (fresh : Nat → α) {n : Nat} (h : buf.length ≤ n) :
    (realloc fresh buf n).length = n ∧ (realloc fresh buf n).take buf.length = buf := by
  rw [realloc, List.take_of_length_le h]
  refine ⟨?_, List.take_left' rfl⟩
  rw [List.length_append, List.length_drop, length_malloc]
  omega

omit [DecidableEq α] in
/-- A zero behind a text makes it a string. -/
theorem store_zero (h : p < buf.length) :
    ∃ buf', store buf p 0 = .ok buf' ∧ buf'.length = buf.length ∧ buf'.take p = buf.take p ∧
      buf'[p]? = some 0 := by
  refine ⟨buf.set p 0, if_pos h, List.length_set, List.take_set_of_le (Nat.le_refl p), ?_⟩
  rw [List.getElem?_set_self h]

omit [DecidableEq α] in
/-- Below the end of a buffer a zero can be stored, and the zeros stay. -/
theorem store_spec (hend : buf[n]? = some 0) (hp : p ≤ n) :
    ∃ buf', store buf p 0 = .ok buf' ∧ buf'.length = buf.length ∧ buf'[n]? = some 0 := by
  have hlt : n < buf.length := (List.getElem?_eq_some_iff.mp hend).1
  refine ⟨buf.set p 0, if_pos (by omega), List.length_set, ?_⟩
  rw [List.getElem?_set]
  split
  next heq => rw [if_pos (by omega)]
  next => exact hend

/-- What a token is like that has been cut out at an address up to a zero. -/
structure Token.Sound (delims buf : List α) (p n : Nat) (token : Token α) : Prop where
  length_eq : token.buf.length = buf.length
  ends : token.buf[n]? = some 0
  saveptr_ge : p ≤ token.saveptr
  saveptr_le : token.saveptr ≤ n
  line : ∀ q, token.line = some q → p ≤ q ∧ q < token.saveptr
  line_eq_none_iff : token.line = none ↔ ∀ c ∈ chars (buf.drop p), c ∈ delims

theorem strtok_spec (delims : List α) (hend : buf[n]? = some 0) (hp : p ≤ n) :
    ∃ token, strtok delims buf p = .ok token ∧ token.Sound delims buf p n := by
  obtain ⟨hstring, hle⟩ := stringAt_spec hend hp
  have hlt : n < buf.length := (List.getElem?_eq_some_iff.mp hend).1
  rw [strtok, hstring]
  generalize hs : chars (buf.drop p) = s at hle
  have hsplit := congrArg List.length (List.takeWhile_append_dropWhile (p := (· ∈ delims)) (l := s))
  have hnone : s.dropWhile (· ∈ delims) = [] ↔ ∀ c ∈ s, c ∈ delims := by
    rw [List.dropWhile_eq_nil_iff]
    simp
  have hword := (List.takeWhile_prefix (l := s.dropWhile (· ∈ delims)) (· ∉ delims)).length_le
  rw [List.length_append] at hsplit
  change ∃ token, (if s.dropWhile (· ∈ delims) = [] then _ else _) = _ ∧ _
  split
  next hrest =>
    refine ⟨_, rfl, rfl, hend, by simp, ?_, ?_, ?_⟩
    · dsimp only
      omega
    · intro q hq
      cases hq
    · rw [hs, ← hnone]
      exact iff_of_true rfl hrest
  next hrest =>
    -- the first character that is left is no delimiter, so the token is not empty
    have hpos : 0 < ((s.dropWhile (· ∈ delims)).takeWhile (· ∉ delims)).length := by
      cases hcons : s.dropWhile (· ∈ delims) with
      | nil => exact absurd hcons hrest
      | cons c rest =>
          have hc : c ∉ delims := by
            have := List.head?_dropWhile_not (· ∈ delims) s
            simpa [hcons] using this
          simp [hc]
    have hsound : ∀ (buf' : List α) saveptr', buf'.length = buf.length → buf'[n]? = some 0 →
        p + (s.takeWhile (· ∈ delims)).length < saveptr' → saveptr' ≤ n →
        Token.Sound delims buf p n ⟨some (p + (s.takeWhile (· ∈ delims)).length), buf', saveptr'⟩ := by
      intro buf' saveptr' hlength hend' hlt' hle'
      refine ⟨hlength, hend', by dsimp only; omega, hle', ?_, ?_⟩
      · rintro q ⟨⟩
        exact ⟨Nat.le_add_right _ _, hlt'⟩
      · rw [hs, ← hnone]
        exact iff_of_false (Option.some_ne_none _) hrest
    simp only [Except.bind, bind]
    split
    next => exact ⟨_, rfl, hsound _ _ rfl hend (by omega) (by omega)⟩
    next =>
      obtain ⟨buf', hstore, hlength, hend'⟩ := store_spec hend
        (p := p + (s.takeWhile (· ∈ delims)).length +
          ((s.dropWhile (· ∈ delims)).takeWhile (· ∉ delims)).length) (by omega)
      rw [hstore]
      exact ⟨_, rfl, hsound _ _ hlength hend' (by omega) (by omega)⟩

end CStrings
