import Dime.Server.Socket

/-!
# Pushing with failing growths

Each write of a push may need the outbuffer to grow, and each growth may fail. A write that
fails returns `-1`. Three of the four checks compare it with a `size_t` and do not see it,
and the fourth leaves the frame header in the outbuffer.
-/

namespace Dime

/-! ## Writes that fail -/

/-- The fill level and the capacity of a ring buffer. -/
structure Space where
  len : Nat
  cap : Nat
  deriving DecidableEq

namespace Space

/-- Writing `siz` bytes needs a growth. -/
def Short (space : Space) (siz : Nat) : Prop := siz ≠ 0 ∧ space.len + siz ≥ space.cap

instance (space : Space) (siz : Nat) : Decidable (space.Short siz) :=
  inferInstanceAs (Decidable (_ ∧ _))

/-- The space after a write of `siz` bytes that does not fail. -/
def after (space : Space) (siz : Nat) : Space :=
  { len := space.len + siz
    cap := if space.Short siz then 3 * (space.len + siz) / 2 else space.cap }

/-- A write of `siz` bytes fails, where `realloc` says whether a growth succeeds. -/
def fails (space : Space) (siz : Nat) (realloc : Bool) : Bool := space.Short siz && !realloc

/-- Which of consecutive writes fail: for each its size, and whether its growth succeeds
should it be needed. -/
def failures (space : Space) : List (Nat × Bool) → List Bool
  | [] => []
  | (siz, realloc) :: rest =>
      let failed := space.fails siz realloc
      failed :: (if failed then space else space.after siz).failures rest

@[simp] theorem fails_zero (space : Space) (realloc : Bool) : space.fails 0 realloc = false := by
  simp [fails, Short]

end Space

/-- What is left of a piece that is written. -/
def written (failed : Bool) (buf : Bytes) : Bytes := if failed then [] else buf

@[simp] theorem written_true (buf : Bytes) : written true buf = [] := rfl

@[simp] theorem written_false (buf : Bytes) : written false buf = buf := rfl

theorem length_written_le (failed : Bool) (buf : Bytes) :
    (written failed buf).length ≤ buf.length := by
  cases failed <;> simp

/-- A piece that is lost is shorter than it was, unless it is empty. -/
theorem eq_false_of_length_written {failed : Bool} {buf : Bytes} (hfailed : failed = true → buf ≠ [])
    (hlength : buf.length ≤ (written failed buf).length) : failed = false := by
  cases failed with
  | false => rfl
  | true => exact absurd (List.length_eq_zero_iff.mp (Nat.le_zero.mp hlength)) (hfailed rfl)

namespace Ringbuffer

variable {ring : Ringbuffer} {realloc : Bool} {buf : Bytes}

def space (ring : Ringbuffer) : Space := ⟨ring.len, ring.cap⟩

/-- A write whose growth fails returns `-1` and changes nothing. -/
theorem write_of_fails (hfails : ring.space.fails buf.length realloc = true) :
    ring.write realloc buf = (-1, ring) := by
  simp only [Space.fails, Bool.and_eq_true, decide_eq_true_eq, Bool.not_eq_true'] at hfails
  obtain ⟨⟨hsize, hfull⟩, rfl⟩ := hfails
  have hfull' : ring.len + buf.length ≥ ring.cap := hfull
  rw [write, if_neg hsize, if_pos hfull']
  rfl

/-- Every other write takes up its space. -/
theorem write_space (hfails : ring.space.fails buf.length realloc = false) :
    (ring.write realloc buf).2.space = ring.space.after buf.length := by
  unfold write
  split
  next hsize =>
    have hshort : ¬ ring.space.Short buf.length := fun hshort => hshort.1 hsize
    rw [Space.after, if_neg hshort, hsize]
    rfl
  next hsize =>
    split
    next hfull =>
      have hshort : ring.space.Short buf.length := ⟨hsize, hfull⟩
      have htrue : realloc = true := by simpa [Space.fails, hshort] using hfails
      rw [if_pos htrue, Space.after, if_pos hshort]
      simp only [grow]
      split <;> rfl
    next hroom =>
      have hshort : ¬ ring.space.Short buf.length := fun hshort => hroom hshort.2
      rw [Space.after, if_neg hshort]
      rfl

end Ringbuffer

namespace Ring

def space (ring : Ring) : Space := ring.1.space

theorem write_of_fails {ring : Ring} {realloc : Bool} {buf : Bytes}
    (hfails : ring.space.fails buf.length realloc = true) :
    ring.write realloc buf = (-1, ring) := by
  have hrun : ring.1.write realloc buf = (-1, ring.1) := Ringbuffer.write_of_fails hfails
  unfold write
  simp only [hrun]

/-- Every other write appends its bytes. -/
theorem write_of_not_fails {ring : Ring} {realloc : Bool} {buf : Bytes}
    (hfails : ring.space.fails buf.length realloc = false) :
    (ring.write realloc buf).1 = buf.length ∧
      (ring.write realloc buf).2.toList = ring.toList ++ buf ∧
      (ring.write realloc buf).2.space = ring.space.after buf.length := by
  have hspace : (ring.write realloc buf).2.space = ring.space.after buf.length :=
    Ringbuffer.write_space hfails
  rcases Ringbuffer.write_spec ring.2 realloc buf with ⟨hrun, -, hbuf⟩ | ⟨hret, -, hlist⟩
  · -- a refused write would have left the fill level as it was
    have hlen : (ring.write realloc buf).2.space = ring.space :=
      congrArg Ringbuffer.space (congrArg Prod.snd hrun)
    have hsame : ring.space.len = ring.space.len + buf.length :=
      congrArg Space.len (hlen.symm.trans hspace)
    exact absurd (List.length_eq_zero_iff.mp (by omega)) hbuf
  · exact ⟨hret, hlist, hspace⟩

/-- What a write does, whether it fails or not. -/
theorem write_eq (ring : Ring) (realloc : Bool) (buf : Bytes) :
    let failed := ring.space.fails buf.length realloc
    (ring.write realloc buf).1 = (if failed then -1 else (buf.length : Int)) ∧
      (ring.write realloc buf).2.toList = ring.toList ++ written failed buf ∧
      (ring.write realloc buf).2.space = if failed then ring.space else ring.space.after buf.length := by
  cases hfails : ring.space.fails buf.length realloc with
  | true =>
      rw [write_of_fails hfails]
      exact ⟨rfl, (List.append_nil _).symm, rfl⟩
  | false => exact write_of_not_fails hfails

end Ring

/-! ## A push -/

namespace Socket

/-- The frame header of a message, where WebSocket is enabled. -/
def framing (sock : Socket) (jsonstr : CString) (bindata : Bytes) : Bytes :=
  if sock.ws.isSome then wsHeader (12 + jsonstr.length + bindata.length) else []

/-- A complete message as it goes out. -/
def frame (sock : Socket) (jsonstr : CString) (bindata : Bytes) : Bytes :=
  sock.framing jsonstr bindata ++ header jsonstr.length bindata.length ++ jsonstr.1 ++ bindata

/-- A push appends the complete message and returns its positive length, or it returns a
negative value and leaves the contents of the outbuffer. -/
def AllOrNothing (realloc : Nat → Bool) (sock : Socket) (jsonstr : CString) (bindata : Bytes) :
    Prop :=
  let push := sock.pushStr realloc jsonstr bindata
  (0 < push.1 ∧ push.1 = (sock.frame jsonstr bindata).length ∧
      push.2.wbuf.toList = sock.wbuf.toList ++ sock.frame jsonstr bindata) ∨
    (push.1 < 0 ∧ push.2.wbuf.toList = sock.wbuf.toList)

/-- The four writes of a push: for each its size, and whether its growth succeeds should it
be needed. -/
def writes (realloc : Nat → Bool) (sock : Socket) (jsonstr : CString) (bindata : Bytes) :
    List (Nat × Bool) :=
  [((sock.framing jsonstr bindata).length, realloc 0), (12, realloc 1),
    (jsonstr.length, realloc 2), (bindata.length, realloc 3)]

/-- No write of a push fails, or the one of the DiME header fails with nothing in front of
it: there is no frame header, or its write has failed as well. -/
def FailsCleanly (realloc : Nat → Bool) (sock : Socket) (jsonstr : CString) (bindata : Bytes) :
    Prop :=
  let failures := sock.wbuf.space.failures (sock.writes realloc jsonstr bindata)
  true ∉ failures ∨ failures[1]? = some true ∧ (sock.ws.isNone ∨ failures[0]? = some true)

variable (realloc : Nat → Bool) (sock : Socket) (jsonstr : CString) (bindata : Bytes)

@[simp] theorem length_header (jsondataLen bindataLen : Nat) :
    (header jsondataLen bindataLen).length = 12 := by
  simp [header, magic]

theorem framing_eq_nil_iff : sock.framing jsonstr bindata = [] ↔ sock.ws.isNone := by
  unfold framing wsHeader
  cases sock.ws with
  | none => simp
  | some ws =>
      simp only [Option.isSome_some, if_true, Option.isNone_some, Bool.false_eq_true, iff_false]
      split <;> [simp; (split <;> simp)]

theorem length_frame : (sock.frame jsonstr bindata).length =
    12 + (sock.framing jsonstr bindata).length + jsonstr.length + bindata.length := by
  simp only [frame, List.length_append, length_header, CString.length]
  omega

/-- A negative result is the only one that a comparison with a `size_t` misses. -/
theorem not_ltSize_write (failed : Bool) (n : Nat) :
    ¬ LtSize (if failed then -1 else (n : Int)) n := by
  cases failed with
  | true => exact not_ltSize_neg_one n
  | false => exact not_ltSize_natCast n

/-- What a push leaves behind and returns, by which of its writes fail. -/
theorem pushStr_spec : ∃ f₀ f₁ f₂ f₃ : Bool,
    sock.wbuf.space.failures (sock.writes realloc jsonstr bindata) = [f₀, f₁, f₂, f₃] ∧
      (f₀ = true → sock.framing jsonstr bindata ≠ []) ∧ (f₂ = true → jsonstr.1 ≠ []) ∧
      (f₃ = true → bindata ≠ []) ∧
      (sock.pushStr realloc jsonstr bindata).1 =
        (if f₁ then -1 else ((sock.frame jsonstr bindata).length : Int)) ∧
      (sock.pushStr realloc jsonstr bindata).2.wbuf.toList =
        sock.wbuf.toList ++ written f₀ (sock.framing jsonstr bindata) ++
          if f₁ then [] else header jsonstr.length bindata.length ++ written f₂ jsonstr.1 ++
            written f₃ bindata := by
  obtain ⟨hret₀, hlist₀, hspace₀⟩ := sock.wbuf.write_eq (realloc 0) (sock.framing jsonstr bindata)
  generalize hrun₀ : sock.wbuf.write (realloc 0) (sock.framing jsonstr bindata) = run₀ at *
  obtain ⟨hret₁, hlist₁, hspace₁⟩ :=
    run₀.2.write_eq (realloc 1) (header jsonstr.length bindata.length)
  generalize hrun₁ : run₀.2.write (realloc 1) (header jsonstr.length bindata.length) = run₁ at *
  obtain ⟨hret₂, hlist₂, hspace₂⟩ := run₁.2.write_eq (realloc 2) jsonstr.1
  generalize hrun₂ : run₁.2.write (realloc 2) jsonstr.1 = run₂ at *
  obtain ⟨hret₃, hlist₃, -⟩ := run₂.2.write_eq (realloc 3) bindata
  generalize hrun₃ : run₂.2.write (realloc 3) bindata = run₃ at *
  rw [length_header] at hret₁ hlist₁ hspace₁
  -- of the four comparisons only the one with the constant 12 can see a failure
  have hpush : sock.pushStr realloc jsonstr bindata =
      if run₁.1 < 12 then (-1, { sock.started with wbuf := run₁.2, err := strerror })
      else (((12 + (sock.framing jsonstr bindata).length + jsonstr.length + bindata.length : Nat) :
        Int), { sock.started with wbuf := run₃.2 }) := by
    have hws : (if sock.started.ws.isSome then
        wsHeader (12 + jsonstr.length + bindata.length) else []) =
        sock.framing jsonstr bindata := by rw [started_ws]; rfl
    simp only [pushStr, hws, started_wbuf, hrun₀, hrun₁, hrun₂, hrun₃, hret₀, hret₂, hret₃]
    rw [if_neg (not_ltSize_write _ _)]
    split
    next => rfl
    next =>
      rw [CString.length, if_neg (not_ltSize_write _ _), if_neg (not_ltSize_write _ _)]
  have hfailures : sock.wbuf.space.failures (sock.writes realloc jsonstr bindata) =
      [sock.wbuf.space.fails (sock.framing jsonstr bindata).length (realloc 0),
        run₀.2.space.fails 12 (realloc 1), run₁.2.space.fails jsonstr.length (realloc 2),
        run₂.2.space.fails bindata.length (realloc 3)] := by
    simp only [writes, Space.failures, ← hspace₀, ← hspace₁]
    rw [← CString.length] at hspace₂
    rw [← hspace₂]
  have hnonempty : ∀ {space : Space} {realloc : Bool} {buf : Bytes},
      space.fails buf.length realloc = true → buf ≠ [] := by
    rintro space realloc _ hfails rfl
    rw [List.length_nil, Space.fails_zero] at hfails
    cases hfails
  refine ⟨_, _, _, _, hfailures, hnonempty, hnonempty, hnonempty, ?_, ?_⟩
  · rw [hpush, hret₁, length_frame]
    split <;> rfl
  · rw [hpush, hret₁]
    split
    next hfails =>
      rw [if_pos (by decide), hlist₁, hlist₀, hfails, written_true]
    next hfails =>
      rw [if_neg (by decide), hlist₃, hlist₂, hlist₁, hlist₀, Bool.eq_false_iff.mpr hfails]
      simp only [written_false, List.append_assoc]
      rfl

/-- A push is all or nothing exactly if none of its writes fails, or the one of the DiME
header fails with nothing in front of it. -/
theorem pushStr_allOrNothing_iff :
    sock.AllOrNothing realloc jsonstr bindata ↔ sock.FailsCleanly realloc jsonstr bindata := by
  obtain ⟨f₀, f₁, f₂, f₃, hfailures, h₀, h₂, h₃, hret, hlist⟩ :=
    sock.pushStr_spec realloc jsonstr bindata
  have hpos : (0 : Int) < (sock.frame jsonstr bindata).length := by
    rw [length_frame]
    omega
  unfold AllOrNothing FailsCleanly
  simp only [hfailures, hret, hlist]
  cases f₁ with
  | true =>
      -- the header's failure is seen, and what was written before it stays
      cases f₀ with
      | true => simp
      | false => simp [framing_eq_nil_iff]
  | false =>
      -- the result is positive, whichever of the other writes fail
      have hall : sock.wbuf.toList ++ written f₀ (sock.framing jsonstr bindata) ++
          (header jsonstr.length bindata.length ++ written f₂ jsonstr.1 ++ written f₃ bindata) =
            sock.wbuf.toList ++ sock.frame jsonstr bindata ↔
          f₀ = false ∧ f₂ = false ∧ f₃ = false := by
        constructor
        · intro heq
          have hlength := congrArg List.length heq
          simp only [List.length_append, length_frame, length_header, CString.length] at hlength
          have hle₀ := length_written_le f₀ (sock.framing jsonstr bindata)
          have hle₂ := length_written_le f₂ jsonstr.1
          have hle₃ := length_written_le f₃ bindata
          exact ⟨eq_false_of_length_written h₀ (by omega),
            eq_false_of_length_written h₂ (by omega), eq_false_of_length_written h₃ (by omega)⟩
        · rintro ⟨rfl, rfl, rfl⟩
          simp [frame]
      simp only [Bool.false_eq_true, if_false, hall, hpos, true_and, hpos.le.not_gt, false_and,
        or_false]
      simp

/-- Binary data that does not fit a fresh outbuffer, which cannot grow: the push announces a
whole message and leaves twelve bytes of it. -/
theorem pushStr_announces_lost_bindata :
    ¬ AllOrNothing (fun _ => false) ⟨0, Ring.empty, Ring.empty, none, "", none⟩
      ⟨[0x7B, 0x7D], by decide⟩ (List.replicate 1012 0) := by
  rintro (⟨-, -, hlist⟩ | ⟨hneg, -⟩)
  · have hlength := congrArg List.length hlist
    rw [Ring.length_toList] at hlength
    revert hlength
    decide +kernel
  · revert hneg
    decide +kernel

end Socket

end Dime
