import Dime.Foundation.CStrings

/-!
# The tokens of a string

What `strtok` and `strstr` find in a buffer, told by the strings in it: each call of `strtok`
cuts the next token out of the string at its address, and the strings in front of it stay.
-/

namespace CStrings

variable {α : Type} [DecidableEq α]

/-- The runs of characters that are no delimiters. -/
def tokens (delims s : List α) : List (List α) :=
  (s.splitOnP (· ∈ delims)).filter (· ≠ [])

section Tokens

variable {delims s : List α}

theorem tokens_append_cons (s t : List α) {d : α} (hd : d ∈ delims) :
    tokens delims (s ++ d :: t) = tokens delims s ++ tokens delims t := by
  rw [tokens, List.splitOnP_append_cons s t (by simpa using hd), List.filter_append, tokens, tokens]

@[simp] theorem tokens_nil (delims : List α) : tokens delims [] = [] := by
  simp [tokens]

theorem tokens_of_forall_mem (h : ∀ c ∈ s, c ∈ delims) : tokens delims s = [] := by
  induction s with
  | nil => exact tokens_nil delims
  | cons c s ih =>
      rw [← List.nil_append (c :: s), tokens_append_cons [] s (h c List.mem_cons_self), tokens_nil,
        List.nil_append]
      exact ih fun c hc => h c (List.mem_cons_of_mem _ hc)

theorem tokens_word (hne : s ≠ []) (h : ∀ c ∈ s, c ∉ delims) : tokens delims s = [s] := by
  rw [tokens, List.splitOnP_eq_singleton (by simpa using h)]
  simp [hne]

/-- Delimiters in front do not count. -/
theorem tokens_append {front : List α} (h : ∀ c ∈ front, c ∈ delims) (s : List α) :
    tokens delims (front ++ s) = tokens delims s := by
  induction front with
  | nil => rfl
  | cons c front ih =>
      rw [← List.nil_append (c :: front ++ s), List.cons_append,
        tokens_append_cons [] _ (h c List.mem_cons_self), tokens_nil, List.nil_append]
      exact ih fun c hc => h c (List.mem_cons_of_mem _ hc)

end Tokens

variable [Zero α] {buf buf' s t : List α} {p q : Nat}

/-! ## Strings by their text -/

/-- A string is what comes before a zero, with no zero in it. -/
theorem stringAt_eq_ok_iff :
    stringAt buf (some p) = .ok s ↔ (0 : α) ∉ s ∧ s ++ [0] <+: buf.drop p := by
  rw [stringAt]
  constructor
  · intro h
    split at h
    next hmem =>
      obtain rfl := Except.ok.inj h
      refine ⟨zero_not_mem_chars _, ?_⟩
      obtain ⟨front, rest, hsplit, hzero⟩ := List.eq_append_cons_of_mem hmem
      rw [hsplit, chars_append_zero, chars_eq_self hzero]
      exact ⟨rest, List.append_assoc _ _ _⟩
    next => cases h
  · rintro ⟨hs, rest, hrest⟩
    rw [← hrest, List.append_assoc, List.singleton_append, if_pos (by simp), chars_append_zero,
      chars_eq_self hs]

theorem stringAt_zero (h : stringAt buf (some p) = .ok s) : buf[p + s.length]? = some 0 := by
  obtain ⟨-, rest, hrest⟩ := stringAt_eq_ok_iff.mp h
  rw [← List.getElem?_drop, ← hrest]
  simp

theorem stringAt_lt (h : stringAt buf (some p) = .ok s) : p + s.length < buf.length :=
  (List.getElem?_eq_some_iff.mp (stringAt_zero h)).1

/-- A string depends on the buffer up to its zero. -/
theorem stringAt_of_take (h : stringAt buf (some p) = .ok s) {n : Nat}
    (htake : buf'.take n = buf.take n) (hn : p + s.length < n) :
    stringAt buf' (some p) = .ok s := by
  rw [stringAt_eq_ok_iff] at h ⊢
  refine ⟨h.1, ?_⟩
  have hle : (s ++ [0]).length ≤ n - p := by
    rw [List.length_append, List.length_singleton]
    omega
  have hfront := List.prefix_take_iff.mpr ⟨h.2, hle⟩
  rw [← List.drop_take, ← htake, List.drop_take] at hfront
  exact (List.prefix_take_iff.mp hfront).1

/-- The end of a string is a string. -/
theorem stringAt_drop (h : stringAt buf (some p) = .ok (s ++ t)) :
    stringAt buf (some (p + s.length)) = .ok t := by
  rw [stringAt_eq_ok_iff] at h ⊢
  obtain ⟨hzero, rest, hrest⟩ := h
  refine ⟨fun hmem => hzero (List.mem_append_right s hmem), rest, ?_⟩
  rw [← List.drop_drop, ← hrest, List.append_assoc s, List.append_assoc s, List.drop_left]

/-- A zero within a string cuts it off. -/
theorem stringAt_set (h : stringAt buf (some p) = .ok (s ++ t)) :
    stringAt (buf.set (p + s.length) 0) (some p) = .ok s := by
  have hlt := stringAt_lt h
  rw [List.length_append] at hlt
  rw [stringAt_eq_ok_iff] at h ⊢
  obtain ⟨hzero, hfront⟩ := h
  refine ⟨fun hmem => hzero (List.mem_append_left t hmem), ?_⟩
  have hset : (buf.set (p + s.length) 0).drop p = (buf.drop p).set s.length 0 := by
    rw [List.drop_set, if_neg (by omega), Nat.add_sub_cancel_left]
  have hs : s <+: buf.drop p := by
    rw [List.append_assoc] at hfront
    exact (List.prefix_append _ _).trans hfront
  obtain ⟨rest, hrest⟩ := hs
  rw [hset, ← hrest]
  cases rest with
  | nil =>
      have := congrArg List.length hrest
      rw [List.append_nil, List.length_drop] at this
      omega
  | cons c rest =>
      rw [List.set_append_right _ _ (Nat.le_refl _), Nat.sub_self, List.set_cons_zero]
      exact ⟨rest, by simp⟩

/-- What is written in front of a string does not change it. -/
theorem stringAt_set_of_lt {i : Nat} (hi : i < p) (c : α) :
    stringAt (buf.set i c) (some p) = stringAt buf (some p) := by
  rw [stringAt, stringAt, List.drop_set, if_pos hi]

/-- A string that is not empty does not start where another one ends. -/
theorem stringAt_apart (hs : stringAt buf (some p) = .ok s) (ht : stringAt buf (some q) = .ok t)
    (hne : t ≠ []) (hle : p + s.length ≤ q) : p + s.length < q := by
  apply Nat.lt_of_le_of_ne hle
  intro heq
  have hzero := stringAt_zero hs
  obtain ⟨c, rest, rfl⟩ := List.exists_cons_of_ne_nil hne
  obtain ⟨hmem, more, hmore⟩ := stringAt_eq_ok_iff.mp ht
  have hhead : buf[q]? = some c := by
    rw [← Nat.add_zero q, ← List.getElem?_drop, ← hmore]
    rfl
  rw [heq, hhead] at hzero
  exact hmem (Option.some.inj hzero ▸ List.mem_cons_self)

theorem strstr_eq (h : stringAt buf (some p) = .ok s) (needle : List α) :
    strstr buf (some p) needle = .ok ((find needle s).map (p + ·)) := by
  rw [strstr, h]
  rfl

/-! ## The next token -/

/-- What `strtok` has done to a string: its first token is a string at an address of its own,
the other ones are those of the string at the address to go on from, and the buffer is as it was
up to the end of the token. -/
structure Token.Cuts (delims buf : List α) (p : Nat) (s : List α) (token : Token α) (q : Nat)
    (word rest : List α) : Prop where
  line_eq : token.line = some q
  ne_nil : word ≠ []
  word_eq : stringAt token.buf (some q) = .ok word
  rest_eq : stringAt token.buf (some token.saveptr) = .ok rest
  tokens_eq : tokens delims s = word :: tokens delims rest
  length_lt : rest.length < s.length
  start_le : p ≤ q
  end_le : q + word.length ≤ token.saveptr
  kept : token.buf.take (q + word.length) = buf.take (q + word.length)

theorem strtok_none {delims : List α} (h : stringAt buf (some p) = .ok s)
    (hs : ∀ c ∈ s, c ∈ delims) :
    ∃ saveptr, strtok delims buf p = .ok ⟨none, buf, saveptr⟩ := by
  have hrest : s.dropWhile (· ∈ delims) = [] := by
    rw [List.dropWhile_eq_nil_iff]
    simpa using hs
  refine ⟨p + (s.takeWhile (· ∈ delims)).length, ?_⟩
  rw [strtok, h]
  simp only [bind, Except.bind, hrest, if_true]
  rfl

theorem strtok_some {delims : List α} (h : stringAt buf (some p) = .ok s)
    (hs : ¬ ∀ c ∈ s, c ∈ delims) :
    ∃ token q word rest, strtok delims buf p = .ok token ∧
      token.Cuts delims buf p s q word rest := by
  generalize hfront : s.takeWhile (· ∈ delims) = front
  generalize hback : s.dropWhile (· ∈ delims) = back
  generalize hword : back.takeWhile (· ∉ delims) = word
  generalize htail : back.dropWhile (· ∉ delims) = tail
  have hsplit : s = front ++ back := by rw [← hfront, ← hback, List.takeWhile_append_dropWhile]
  have hparts : back = word ++ tail := by rw [← hword, ← htail, List.takeWhile_append_dropWhile]
  have hdelims : ∀ c ∈ front, c ∈ delims := by
    rw [← hfront]
    intro c hc
    simpa using List.mem_takeWhile_imp hc
  have hchars : ∀ c ∈ word, c ∉ delims := by
    rw [← hword]
    intro c hc
    simpa using List.mem_takeWhile_imp hc
  have hbackne : back ≠ [] := by
    rintro rfl
    rw [List.append_nil] at hsplit
    exact hs (hsplit ▸ hdelims)
  have hwordne : word ≠ [] := by
    obtain ⟨c, rest, hcons⟩ := List.exists_cons_of_ne_nil hbackne
    have hc : c ∉ delims := by
      have := List.head?_dropWhile_not (· ∈ delims) s
      simpa [hback, hcons] using this
    rw [← hword, hcons, List.takeWhile_cons_of_pos (by simpa using hc)]
    exact List.cons_ne_nil _ _
  have hstring : stringAt buf (some (p + front.length)) = .ok (word ++ tail) := by
    rw [hsplit, hparts] at h
    exact stringAt_drop h
  have htokens : tokens delims s = tokens delims (word ++ tail) := by
    rw [hsplit, hparts, tokens_append hdelims]
  have hlength : s.length = front.length + (word.length + tail.length) := by
    rw [hsplit, hparts, List.length_append, List.length_append]
  have hpos := List.length_pos_of_ne_nil hwordne
  rw [strtok, h]
  simp only [bind, Except.bind, hfront, hback, hword, if_neg hbackne]
  cases tail with
  | nil =>
      rw [List.append_nil] at hparts hstring htokens
      rw [hparts, if_pos rfl]
      refine ⟨_, p + front.length, word, [], rfl, rfl, hwordne, hstring, ?_, ?_, ?_, ?_, ?_, rfl⟩
      · rw [← List.append_nil word] at hstring
        exact stringAt_drop hstring
      · rw [htokens, tokens_word hwordne hchars, tokens_nil]
      · rw [List.length_nil]
        omega
      · exact Nat.le_add_right _ _
      · exact Nat.le_refl _
  | cons d tail =>
      have hd : d ∈ delims := by
        have := List.head?_dropWhile_not (· ∉ delims) back
        rw [htail] at this
        simpa using this
      have hlt := stringAt_lt hstring
      rw [List.length_append, List.length_cons] at hlt
      rw [if_neg (by rw [hparts, List.length_append, List.length_cons]; omega), store,
        if_pos (by omega)]
      refine ⟨_, p + front.length, word, tail, rfl, rfl, hwordne, stringAt_set hstring, ?_, ?_, ?_, ?_,
        ?_, ?_⟩
      · rw [List.append_cons] at hstring
        have hrest := stringAt_drop hstring
        rw [List.length_append, List.length_singleton, ← Nat.add_assoc] at hrest
        rwa [stringAt_set_of_lt (Nat.lt_succ_self _)]
      · rw [htokens, tokens_append_cons word tail hd, tokens_word hwordne hchars,
          List.singleton_append]
      · rw [hlength, List.length_cons]
        omega
      · exact Nat.le_add_right _ _
      · exact Nat.le_succ _
      · exact List.take_set_of_le (Nat.le_refl _)

/-- The strings in front of a token stay, and end before it. -/
theorem Token.Cuts.string {delims word rest : List α} {token : Token α}
    (h : token.Cuts delims buf p s q word rest) {i : Nat} (ht : stringAt buf (some i) = .ok t)
    (hi : i + t.length ≤ p) :
    stringAt token.buf (some i) = .ok t ∧ i + t.length < q := by
  have hpos := List.length_pos_of_ne_nil h.ne_nil
  have hle := h.start_le
  have hstring := stringAt_of_take ht h.kept (by omega)
  exact ⟨hstring, stringAt_apart hstring h.word_eq h.ne_nil (by omega)⟩

end CStrings
