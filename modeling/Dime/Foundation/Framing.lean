import Mathlib.Data.List.Infix

/-!
# Streams of self-delimiting frames

A reader looks at the beginning of a buffer and either takes a frame off it,
asks for more, or refuses. For frames that it reads back and never mistakes when
they are cut short, draining any part of a stream yields the frames that have
arrived completely and leaves the beginning of the next one.
-/

namespace Framing

universe u v w

variable {β : Type u} {M : Type v} {V : Type w}

/-- What a reader makes of the bytes it sees: a value and the length of its
frame, a wait for more bytes, or a refusal. -/
inductive Next (V : Type w) where
  | item (value : V) (size : Nat)
  | more
  | bad

/-- The reader recognises the frame of `m`, whatever follows it, and waits while
only a part of it is there. -/
structure Reads (encode : M → List β) (value : M → V) (next : List β → Next V) (m : M) :
    Prop where
  pos : encode m ≠ []
  complete : ∀ rest, next (encode m ++ rest) = .item (value m) (encode m).length
  cut : ∀ front, front <+: encode m → front ≠ encode m → next front = .more

/-- The frames of a list of messages. -/
def stream (encode : M → List β) (ms : List M) : List β := (ms.map encode).flatten

variable {encode : M → List β} {value : M → V} {next : List β → Next V}

@[simp] theorem stream_nil : stream encode [] = [] := rfl

@[simp] theorem stream_cons (m : M) (ms : List M) :
    stream encode (m :: ms) = encode m ++ stream encode ms := rfl

@[simp] theorem stream_append (ms ms' : List M) :
    stream encode (ms ++ ms') = stream encode ms ++ stream encode ms' := by
  simp [stream]

/-- The part of a frame, possibly empty, that waits at the front of `ms`. -/
def Rest (encode : M → List β) (bytes : List β) (ms : List M) : Prop :=
  bytes = [] ∨ ∃ m rest, ms = m :: rest ∧ bytes <+: encode m ∧ bytes ≠ encode m

/-- The beginning of a stream either is cut inside its first frame or starts
with all of it. -/
theorem prefix_stream_cases {bytes : List β} {ms : List M}
    (h : bytes <+: stream encode ms) :
    Rest encode bytes ms ∨
      ∃ m rest tail, ms = m :: rest ∧ bytes = encode m ++ tail ∧ tail <+: stream encode rest := by
  cases ms with
  | nil => exact .inl (.inl (List.prefix_nil.mp h))
  | cons m rest =>
      rw [stream_cons] at h
      rcases le_total bytes.length (encode m).length with hle | hle
      · have hpart := List.prefix_of_prefix_length_le h (List.prefix_append _ _) hle
        rcases eq_or_ne bytes (encode m) with rfl | hne
        · exact .inr ⟨m, rest, [], rfl, (List.append_nil _).symm, List.nil_prefix⟩
        · exact .inl (.inr ⟨m, rest, rfl, hpart, hne⟩)
      · obtain ⟨tail, rfl⟩ := List.prefix_of_prefix_length_le (List.prefix_append _ _) h hle
        exact .inr ⟨m, rest, tail, rfl, rfl, (List.prefix_append_right_inj _).mp h⟩

/-- A reader waits on the rest of a drained buffer. -/
theorem next_rest (hnil : next [] = .more) {bytes : List β} {ms : List M}
    (hreads : ∀ m ∈ ms, Reads encode value next m) (h : Rest encode bytes ms) :
    next bytes = .more := by
  rcases h with rfl | ⟨m, rest, rfl, hpart, hne⟩
  · exact hnil
  · exact (hreads m List.mem_cons_self).cut bytes hpart hne

theorem Rest.prefix_stream {bytes : List β} {ms : List M} (h : Rest encode bytes ms) :
    bytes <+: stream encode ms := by
  obtain rfl | ⟨m, rest, rfl, hpart, _⟩ := h
  · exact List.nil_prefix
  · exact hpart.trans (List.prefix_append _ _)

/-- Nothing is left of a complete stream. -/
theorem rest_eq_nil {bytes : List β} {ms : List M} (h : Rest encode bytes ms)
    (hall : bytes = stream encode ms) : bytes = [] := by
  rcases h with rfl | ⟨m, rest, rfl, hpart, hne⟩
  · rfl
  · rw [stream_cons] at hall
    have hlen := hpart.length_le
    rw [hall, List.length_append] at hlen
    have hrest : stream encode rest = [] := List.length_eq_zero_iff.mp (by omega)
    rw [hrest, List.append_nil] at hall
    exact absurd hall hne

/-- The beginning of a stream has some frames completely, and a part of the next one. -/
theorem exists_split {bytes : List β} {ms : List M} (h : bytes <+: stream encode ms) :
    ∃ done todo rest, ms = done ++ todo ∧ bytes = stream encode done ++ rest ∧
      Rest encode rest todo := by
  induction ms generalizing bytes with
  | nil => exact ⟨[], [], bytes, rfl, rfl, .inl (List.prefix_nil.mp h)⟩
  | cons m ms ih =>
      obtain hrest | ⟨m', ms', tail, hcons, rfl, htail⟩ := prefix_stream_cases h
      · exact ⟨[], m :: ms, bytes, rfl, rfl, hrest⟩
      · cases hcons
        obtain ⟨done, todo, rest, rfl, rfl, hrest⟩ := ih htail
        exact ⟨m :: done, todo, rest, rfl, by rw [stream_cons, List.append_assoc], hrest⟩

/-! ## Draining any buffer -/

/-- A reader takes frames off the buffer that are there and not empty. -/
def Progresses (next : List β → Next V) : Prop :=
  ∀ bytes value size, next bytes = .item value size → 0 < size ∧ size ≤ bytes.length

/-- Read for as many rounds as there is fuel: the values, and what is left unless
the reader refuses it. -/
def drainFor (next : List β → Next V) : Nat → List β → List V × Option (List β)
  | 0, bytes => ([], some bytes)
  | fuel + 1, bytes =>
      match next bytes with
      | .more => ([], some bytes)
      | .bad => ([], none)
      | .item value size =>
          (value :: (drainFor next fuel (bytes.drop size)).1,
            (drainFor next fuel (bytes.drop size)).2)

/-- Read until the reader waits or refuses. -/
def drain (next : List β → Next V) (bytes : List β) : List V × Option (List β) :=
  drainFor next (bytes.length + 1) bytes

theorem drainFor_eq (hprogress : Progresses next) (fuel : Nat) (bytes : List β)
    (hfuel : bytes.length < fuel) : drainFor next fuel bytes = drain next bytes := by
  induction fuel using Nat.strong_induction_on generalizing bytes with
  | _ fuel ih =>
      cases fuel with
      | zero => omega
      | succ fuel =>
          rw [drain, drainFor, drainFor]
          cases hnext : next bytes with
          | more => rfl
          | bad => rfl
          | item value size =>
              obtain ⟨hpos, hsize⟩ := hprogress bytes value size hnext
              have hlength : (bytes.drop size).length = bytes.length - size := List.length_drop
              dsimp only
              rw [ih fuel (by omega) (bytes.drop size) (by omega),
                ih bytes.length (by omega) (bytes.drop size) (by omega)]

theorem drain_more {bytes : List β} (h : next bytes = .more) :
    drain next bytes = ([], some bytes) := by
  rw [drain, drainFor, h]

theorem drain_bad {bytes : List β} (h : next bytes = .bad) : drain next bytes = ([], none) := by
  rw [drain, drainFor, h]

theorem drain_item (hprogress : Progresses next) {bytes : List β} {value : V} {size : Nat}
    (h : next bytes = .item value size) :
    drain next bytes =
      (value :: (drain next (bytes.drop size)).1, (drain next (bytes.drop size)).2) := by
  obtain ⟨hpos, hsize⟩ := hprogress bytes value size h
  rw [drain, drainFor, h]
  dsimp only
  rw [drainFor_eq hprogress _ _ (by rw [List.length_drop]; omega)]

/-- Draining a part of a stream yields the frames that are there completely and
leaves the beginning of the next one. -/
theorem drain_stream (hprogress : Progresses next) (hnil : next [] = .more) {ms : List M}
    (hreads : ∀ m ∈ ms, Reads encode value next m) {bytes : List β}
    (h : bytes <+: stream encode ms) :
    ∃ done todo rest, ms = done ++ todo ∧ bytes = stream encode done ++ rest ∧
      Rest encode rest todo ∧ drain next bytes = (done.map value, some rest) := by
  induction ms generalizing bytes with
  | nil =>
      rw [stream_nil, List.prefix_nil] at h
      subst h
      exact ⟨[], [], [], rfl, rfl, .inl rfl, drain_more hnil⟩
  | cons m ms ih =>
      rcases prefix_stream_cases h with hrest | ⟨_, _, tail, hcons, rfl, htail⟩
      · exact ⟨[], m :: ms, bytes, rfl, rfl, hrest, drain_more (next_rest hnil hreads hrest)⟩
      · cases hcons
        obtain ⟨done, todo, rest, rfl, rfl, hrest, hdrain⟩ :=
          ih (fun m' hm' => hreads m' (List.mem_cons_of_mem _ hm')) htail
        have hitem := (hreads m List.mem_cons_self).complete (stream encode done ++ rest)
        refine ⟨m :: done, todo, rest, rfl, ?_, hrest, ?_⟩
        · rw [stream_cons, List.append_assoc]
        · rw [drain_item hprogress hitem, List.drop_left' rfl, hdrain]
          rfl

/-- A reader is done with a frame once it is there, whatever arrives behind it. -/
def Stable (next : List β → Next V) : Prop :=
  ∀ bytes value size, next bytes = .item value size →
    ∀ more, next (bytes ++ more) = .item value size

/-- Draining can be interrupted while more arrives. -/
theorem drain_append (hprogress : Progresses next) (hstable : Stable next) {bytes rest : List β}
    {values : List V} (h : drain next bytes = (values, some rest)) (more : List β) :
    drain next (bytes ++ more) =
      (values ++ (drain next (rest ++ more)).1, (drain next (rest ++ more)).2) := by
  induction hlength : bytes.length using Nat.strong_induction_on generalizing bytes values with
  | _ length ih =>
      cases hnext : next bytes with
      | more =>
          rw [drain_more hnext] at h
          cases h
          rfl
      | bad =>
          rw [drain_bad hnext] at h
          cases h
      | item value size =>
          obtain ⟨hpos, hsize⟩ := hprogress bytes value size hnext
          rw [drain_item hprogress hnext, Prod.mk.injEq] at h
          obtain ⟨rfl, hrest⟩ := h
          have hdrop : (bytes ++ more).drop size = bytes.drop size ++ more :=
            List.drop_append_of_le_length hsize
          rw [drain_item hprogress (hstable bytes value size hnext more), hdrop,
            ih (bytes.drop size).length (by rw [List.length_drop]; omega) (Prod.ext rfl hrest) rfl]
          rfl

end Framing
