import Dime.Foundation.Circular
import Dime.Foundation.Refinement

/-!
# Ring buffers

The byte queue in front of every socket. It grows to one and a half times the
bytes it has to hold and keeps at least one cell free, so equal `beginIdx` and
`endIdx` mean that it is empty.
-/

namespace Dime

abbrev Bytes := List UInt8

/-- `dime_ringbuffer_t`. Sizes are natural numbers: no buffer comes near the
size of the address space. -/
structure Ringbuffer where
  len : Nat
  arr : Nat → UInt8
  cap : Nat
  beginIdx : Nat
  endIdx : Nat

namespace Ringbuffer

/-- `dime_ringbuffer_init`. What `malloc` leaves in the array is never read. -/
def init (malloc : Bool) : Option Ringbuffer :=
  if malloc then
    some { cap := 1024, arr := fun _ => 0, len := 0, beginIdx := 0, endIdx := 0 }
  else none

/-- The growth step of `dime_ringbuffer_write`, taken when `siz` more bytes do
not leave a free cell. -/
def grow (ring : Ringbuffer) (siz : Nat) : Ringbuffer :=
  let ncap := (3 * (ring.len + siz)) / 2
  if ring.endIdx < ring.beginIdx then
    let nbegin := ring.beginIdx + (ncap - ring.cap)
    { ring with
      arr := Circular.move ring.arr nbegin ring.beginIdx (ncap - nbegin)
      beginIdx := nbegin
      cap := ncap }
  else { ring with cap := ncap }

/-- The copy of `dime_ringbuffer_write`, in two pieces where it has to wrap. -/
def append (ring : Ringbuffer) (buf : Bytes) : Ringbuffer :=
  let siz := buf.length
  let spaceleft := ring.cap - ring.endIdx
  let arr :=
    if spaceleft < siz then
      Circular.store (Circular.store ring.arr ring.endIdx (buf.take spaceleft))
        0 (buf.drop spaceleft)
    else Circular.store ring.arr ring.endIdx buf
  let endIdx := ring.endIdx + siz
  { ring with
    arr := arr
    len := ring.len + siz
    endIdx := if endIdx ≥ ring.cap then endIdx - ring.cap else endIdx }

/-- `dime_ringbuffer_write`: the `ssize_t` it returns and the buffer after it.
`realloc` says whether the growth succeeds, should one be needed. -/
def write (realloc : Bool) (ring : Ringbuffer) (buf : Bytes) : Int × Ringbuffer :=
  if buf.length = 0 then (0, ring)
  else if ring.len + buf.length ≥ ring.cap then
    if realloc then (buf.length, (ring.grow buf.length).append buf)
    else (-1, ring)
  else (buf.length, ring.append buf)

/-- `dime_ringbuffer_peek`: the bytes it copies out; it returns their number. -/
def peek (ring : Ringbuffer) (siz : Nat) : Bytes :=
  let siz := if siz > ring.len then ring.len else siz
  if siz = 0 then []
  else
    let spaceleft := ring.cap - ring.beginIdx
    if spaceleft < siz then
      Circular.load ring.arr ring.beginIdx spaceleft ++
        Circular.load ring.arr 0 (siz - spaceleft)
    else Circular.load ring.arr ring.beginIdx siz

/-- `dime_ringbuffer_discard`: the number of bytes dropped and the buffer after it. -/
def discard (ring : Ringbuffer) (siz : Nat) : Nat × Ringbuffer :=
  let siz := if siz > ring.len then ring.len else siz
  let beginIdx := ring.beginIdx + siz
  (siz, { ring with
    len := ring.len - siz
    beginIdx := if beginIdx ≥ ring.cap then beginIdx - ring.cap else beginIdx })

/-- `dime_ringbuffer_read`. -/
def read (ring : Ringbuffer) (siz : Nat) : Bytes × Ringbuffer :=
  let buf := ring.peek siz
  (buf, (ring.discard buf.length).2)

/-- The bytes in the buffer, oldest first. -/
def toList (ring : Ringbuffer) : Bytes :=
  Circular.window ring.arr ring.cap ring.beginIdx ring.len

/-- The states every operation keeps. -/
structure WF (ring : Ringbuffer) : Prop where
  two_le_cap : 2 ≤ ring.cap
  len_lt : ring.len < ring.cap
  begin_lt : ring.beginIdx < ring.cap
  end_eq : ring.endIdx = (ring.beginIdx + ring.len) % ring.cap

variable {ring : Ringbuffer}

theorem WF.end_lt (h : ring.WF) : ring.endIdx < ring.cap := by
  rw [h.end_eq]
  exact Nat.mod_lt _ (by have := h.two_le_cap; omega)

@[simp] theorem length_toList (ring : Ringbuffer) : ring.toList.length = ring.len := by
  simp [toList]

theorem init_wf (hinit : init true = some ring) : ring.WF := by
  cases hinit
  exact ⟨by decide, by decide, by decide, rfl⟩

theorem init_toList (hinit : init true = some ring) : ring.toList = [] := by
  cases hinit
  rfl

/-- The buffer wraps exactly when its end lies before its beginning. -/
theorem WF.end_lt_begin_iff (h : ring.WF) :
    ring.endIdx < ring.beginIdx ↔ ring.cap ≤ ring.beginIdx + ring.len := by
  have hlen := h.len_lt
  have hbegin := h.begin_lt
  rw [h.end_eq, Circular.wrap ring.cap (by omega)]
  split <;> omega

/-- Growing keeps the contents and makes room for `siz` bytes and a free cell. -/
theorem grow_spec (h : ring.WF) {siz : Nat} (hfull : ring.cap ≤ ring.len + siz) :
    (ring.grow siz).WF ∧ (ring.grow siz).toList = ring.toList ∧
      (ring.grow siz).len = ring.len ∧ ring.len + siz < (ring.grow siz).cap := by
  have hcap := h.two_le_cap
  have hlen := h.len_lt
  have hbegin := h.begin_lt
  have hend := h.end_eq
  obtain ⟨extra, hextra⟩ : ∃ extra, 3 * (ring.len + siz) / 2 = ring.cap + extra :=
    Nat.exists_eq_add_of_le (by omega)
  unfold grow
  dsimp only
  rw [hextra]
  split
  next hwrap =>
    rw [h.end_lt_begin_iff] at hwrap
    have hmove : ring.cap + extra - (ring.beginIdx + (ring.cap + extra - ring.cap)) =
        ring.cap - ring.beginIdx := by omega
    rw [hmove, Nat.add_sub_cancel_left]
    have hend' : ring.endIdx = (ring.beginIdx + extra + ring.len) % (ring.cap + extra) := by
      rw [hend, Circular.wrap ring.cap (by omega), Circular.wrap _ (by omega),
        if_neg (by omega), if_neg (by omega)]
      omega
    have hlist : Circular.window (Circular.move ring.arr (ring.beginIdx + extra)
        ring.beginIdx (ring.cap - ring.beginIdx)) (ring.cap + extra)
        (ring.beginIdx + extra) ring.len = ring.toList :=
      Circular.window_move ring.arr hbegin (by omega)
    refine ⟨⟨?_, ?_, ?_, hend'⟩, hlist, rfl, ?_⟩
    all_goals dsimp only; omega
  next hflat =>
    rw [h.end_lt_begin_iff] at hflat
    have hend' : ring.endIdx = (ring.beginIdx + ring.len) % (ring.cap + extra) := by
      rw [hend, Nat.mod_eq_of_lt (by omega), Nat.mod_eq_of_lt (by omega)]
    have hlist : Circular.window ring.arr (ring.cap + extra) ring.beginIdx ring.len =
        ring.toList :=
      Circular.window_enlarge ring.arr (by omega) (by omega)
    refine ⟨⟨?_, ?_, ?_, hend'⟩, hlist, rfl, ?_⟩
    all_goals dsimp only; omega

theorem append_arr (ring : Ringbuffer) (buf : Bytes) :
    (ring.append buf).arr = Circular.wrapStore ring.arr ring.cap ring.endIdx buf := rfl

theorem append_spec (h : ring.WF) {buf : Bytes} (hfit : ring.len + buf.length < ring.cap) :
    (ring.append buf).WF ∧ (ring.append buf).toList = ring.toList ++ buf := by
  have hbegin := h.begin_lt
  have hend := h.end_eq
  have hcap : (ring.append buf).cap = ring.cap := rfl
  refine ⟨⟨h.two_le_cap, hfit, hbegin, ?_⟩, ?_⟩
  · change (if ring.endIdx + buf.length ≥ ring.cap then _ else _) =
      (ring.beginIdx + (ring.len + buf.length)) % ring.cap
    have hlt := h.end_lt
    rw [← Nat.add_assoc, ← Nat.mod_add_mod, ← hend, Circular.wrap ring.cap (by omega)]
    split <;> split <;> omega
  · change Circular.window (ring.append buf).arr ring.cap ring.beginIdx
      (ring.len + buf.length) = _
    rw [append_arr, hend]
    exact Circular.window_wrapStore ring.arr buf hbegin (by omega)

/-- A write appends its bytes and returns their number, or it returns `-1` and
changes nothing. It fails only where the growth does. -/
theorem write_spec (h : ring.WF) (realloc : Bool) (buf : Bytes) :
    (ring.write realloc buf = (-1, ring) ∧ realloc = false ∧ buf ≠ []) ∨
    ((ring.write realloc buf).1 = buf.length ∧ (ring.write realloc buf).2.WF ∧
      (ring.write realloc buf).2.toList = ring.toList ++ buf) := by
  unfold write
  split
  next hzero =>
    right
    have hnil : buf = [] := List.length_eq_zero_iff.mp hzero
    subst hnil
    exact ⟨rfl, h, (List.append_nil _).symm⟩
  next hpos =>
    split
    next hfull =>
      cases realloc with
      | false => exact .inl ⟨rfl, rfl, by rintro rfl; exact hpos rfl⟩
      | true =>
          obtain ⟨hwf, hlist, hlen, hroom⟩ := grow_spec h hfull
          obtain ⟨hwf', hlist'⟩ := append_spec hwf (hlen ▸ hroom)
          exact .inr ⟨rfl, hwf', by rw [if_pos rfl, hlist', hlist]⟩
    next hroom =>
      obtain ⟨hwf, hlist⟩ := append_spec h (not_le.mp hroom)
      exact .inr ⟨rfl, hwf, hlist⟩

theorem write_wf (h : ring.WF) (realloc : Bool) (buf : Bytes) :
    (ring.write realloc buf).2.WF := by
  rcases write_spec h realloc buf with ⟨heq, _⟩ | ⟨_, hwf, _⟩
  · rw [heq]
    exact h
  · exact hwf

/-- Peeking yields the first bytes, at most `siz` of them. -/
theorem peek_eq (h : ring.WF) (siz : Nat) : ring.peek siz = ring.toList.take siz := by
  have hlen := h.len_lt
  have hbegin := h.begin_lt
  have hmin : (if siz > ring.len then ring.len else siz) = min siz ring.len := by
    split <;> omega
  have htake : ring.toList.take siz =
      Circular.window ring.arr ring.cap ring.beginIdx (min siz ring.len) := by
    rw [toList, ← Circular.window_take _ _ _ (Nat.min_le_right siz ring.len),
      List.take_eq_take_iff]
    simp
  simp only [peek, hmin, htake]
  split
  next hzero => rw [hzero, Circular.window_zero]
  next hpos =>
    split
    next hcut => exact Circular.load_append_load ring.arr hbegin (by omega) hcut
    next hfit => exact Circular.load_eq_window ring.arr (by omega)

theorem discard_wf (h : ring.WF) (siz : Nat) : (ring.discard siz).2.WF := by
  have hlen := h.len_lt
  have hbegin := h.begin_lt
  have hend := h.end_eq
  refine ⟨h.two_le_cap, ?_, ?_, ?_⟩
  · dsimp only [discard]
    omega
  · dsimp only [discard]
    split <;> split <;> omega
  · dsimp only [discard]
    rw [hend, Circular.wrap ring.cap (by omega), Circular.wrap ring.cap (by split <;> split <;> omega)]
    split <;> split <;> split <;> split <;> omega

theorem discard_fst (ring : Ringbuffer) (siz : Nat) :
    (ring.discard siz).1 = min siz ring.len := by
  dsimp only [discard]
  split <;> omega

/-- Discarding drops the first bytes, at most `siz` of them. -/
theorem discard_toList (h : ring.WF) (siz : Nat) :
    (ring.discard siz).2.toList = ring.toList.drop siz := by
  have hbegin := h.begin_lt
  have hlen := h.len_lt
  have hdrop : ring.toList.drop siz = Circular.window ring.arr ring.cap
      (ring.beginIdx + min siz ring.len) (ring.len - min siz ring.len) := by
    rw [← Circular.window_drop _ _ _ (Nat.min_le_right siz ring.len)]
    rcases le_total siz ring.len with hle | hle
    · rw [Nat.min_eq_left hle]
      rfl
    · rw [Nat.min_eq_right hle, List.drop_of_length_le (by simpa using hle),
        List.drop_of_length_le (by simp)]
  have hmin : (if siz > ring.len then ring.len else siz) = min siz ring.len := by
    split <;> omega
  rw [hdrop, ← Circular.window_mod]
  dsimp only [discard, toList]
  rw [hmin, Circular.wrap ring.cap (i := ring.beginIdx + min siz ring.len) (by omega)]
  congr 1
  split <;> split <;> omega

end Ringbuffer

/-- A ring buffer together with its invariant. -/
abbrev Ring := { ring : Ringbuffer // ring.WF }

namespace Ring

def toList (ring : Ring) : Bytes := ring.1.toList

def len (ring : Ring) : Nat := ring.1.len

/-- An initialised ring buffer. -/
def empty : Ring := ⟨⟨0, fun _ => 0, 1024, 0, 0⟩, Ringbuffer.init_wf rfl⟩

def init (malloc : Bool) : Option Ring := if malloc then some empty else none

def write (realloc : Bool) (ring : Ring) (buf : Bytes) : Int × Ring :=
  ((ring.1.write realloc buf).1,
    ⟨(ring.1.write realloc buf).2, Ringbuffer.write_wf ring.2 realloc buf⟩)

def peek (ring : Ring) (siz : Nat) : Bytes := ring.1.peek siz

def discard (ring : Ring) (siz : Nat) : Nat × Ring :=
  ((ring.1.discard siz).1, ⟨(ring.1.discard siz).2, Ringbuffer.discard_wf ring.2 siz⟩)

@[simp] theorem length_toList (ring : Ring) : ring.toList.length = ring.len :=
  Ringbuffer.length_toList ring.1

@[simp] theorem peek_eq (ring : Ring) (siz : Nat) : ring.peek siz = ring.toList.take siz :=
  Ringbuffer.peek_eq ring.2 siz

@[simp] theorem discard_fst (ring : Ring) (siz : Nat) :
    (ring.discard siz).1 = min siz ring.len := Ringbuffer.discard_fst ring.1 siz

@[simp] theorem discard_toList (ring : Ring) (siz : Nat) :
    (ring.discard siz).2.toList = ring.toList.drop siz :=
  Ringbuffer.discard_toList ring.2 siz

/-- With the allocation succeeding, a write appends its bytes. -/
@[simp] theorem write_true_fst (ring : Ring) (buf : Bytes) :
    (ring.write true buf).1 = buf.length := by
  rcases Ringbuffer.write_spec ring.2 true buf with ⟨_, hfail, _⟩ | ⟨hret, _⟩
  · cases hfail
  · exact hret

@[simp] theorem write_true_toList (ring : Ring) (buf : Bytes) :
    (ring.write true buf).2.toList = ring.toList ++ buf := by
  rcases Ringbuffer.write_spec ring.2 true buf with ⟨_, hfail, _⟩ | ⟨_, _, hlist⟩
  · cases hfail
  · exact hlist

@[simp] theorem empty_toList : empty.toList = [] := rfl

end Ring

/-! ## Sequences of operations -/

namespace Ringbuffer

/-- A use of a ring buffer; `realloc` says whether the growth of a write succeeds, should
it be needed. -/
inductive Op where
  | write (realloc : Bool) (buf : Bytes)
  | read (siz : Nat)
  | peek (siz : Nat)
  | discard (siz : Nat)

/-- What a use returns: an `ssize_t`, a `size_t` with the bytes that were copied out, or a
`size_t`. -/
inductive Answer where
  | wrote (ret : Int)
  | copied (ret : Nat) (buf : Bytes)
  | dropped (ret : Nat)

/-- One use. Every use ends. -/
def step (ring : Ringbuffer) : Op → Option (Answer × Ringbuffer)
  | .write realloc buf =>
      some (.wrote (ring.write realloc buf).1, (ring.write realloc buf).2)
  | .read siz =>
      -- `dime_ringbuffer_read` returns what its discard does
      some (.copied (ring.discard (ring.read siz).1.length).1 (ring.read siz).1, (ring.read siz).2)
  | .peek siz => some (.copied (ring.peek siz).length (ring.peek siz), ring)
  | .discard siz => some (.dropped (ring.discard siz).1, (ring.discard siz).2)

/-- The uses of a byte queue. Only a write whose growth fails may be refused. -/
inductive QueueStep : Bytes → Op → Answer → Bytes → Prop
  | write (queue : Bytes) (realloc : Bool) (buf : Bytes) :
      QueueStep queue (.write realloc buf) (.wrote buf.length) (queue ++ buf)
  | refused (queue : Bytes) (buf : Bytes) (hbuf : buf ≠ []) :
      QueueStep queue (.write false buf) (.wrote (-1)) queue
  | read (queue : Bytes) (siz : Nat) :
      QueueStep queue (.read siz) (.copied (min siz queue.length) (queue.take siz))
        (queue.drop siz)
  | peek (queue : Bytes) (siz : Nat) :
      QueueStep queue (.peek siz) (.copied (min siz queue.length) (queue.take siz)) queue
  | discard (queue : Bytes) (siz : Nat) :
      QueueStep queue (.discard siz) (.dropped (min siz queue.length)) (queue.drop siz)

/-- The buffer holds the queue, in a state that the operations keep. -/
def Holds (ring : Ringbuffer) (queue : Bytes) : Prop := ring.WF ∧ ring.toList = queue

variable {ring : Ringbuffer}

theorem length_peek (h : ring.WF) (siz : Nat) : (ring.peek siz).length = min siz ring.len := by
  rw [peek_eq h, List.length_take, length_toList]

theorem read_toList (h : ring.WF) (siz : Nat) :
    (ring.read siz).2.toList = ring.toList.drop siz := by
  have hrun : (ring.read siz).2 = (ring.discard (ring.peek siz).length).2 := rfl
  rw [hrun, discard_toList h, length_peek h]
  rcases le_total siz ring.len with hle | hle
  · rw [Nat.min_eq_left hle]
  · rw [Nat.min_eq_right hle, List.drop_of_length_le (by simp),
      List.drop_of_length_le (by simpa using hle)]

/-- Every use is answered as the queue answers it. -/
theorem step_refines {queue : Bytes} (h : ring.Holds queue) (op : Op) :
    ∃ answer ring' queue', ring.step op = some (answer, ring') ∧
      QueueStep queue op answer queue' ∧ ring'.Holds queue' := by
  obtain ⟨hwf, rfl⟩ := h
  cases op with
  | write realloc buf =>
      rcases write_spec hwf realloc buf with ⟨hrun, rfl, hbuf⟩ | ⟨hret, hwf', hlist⟩
      · refine ⟨.wrote (-1), ring, ring.toList, ?_, .refused _ buf hbuf, hwf, rfl⟩
        rw [step, hrun]
      · refine ⟨.wrote buf.length, (ring.write realloc buf).2, ring.toList ++ buf, ?_,
          .write _ realloc buf, hwf', hlist⟩
        rw [step, hret]
  | read siz =>
      have hcopied : (ring.read siz).1 = ring.toList.take siz := peek_eq hwf siz
      have hret : (ring.discard (ring.read siz).1.length).1 = min siz ring.toList.length := by
        rw [discard_fst, hcopied, List.length_take, length_toList, Nat.min_assoc, Nat.min_self]
      refine ⟨.copied (min siz ring.toList.length) (ring.toList.take siz), (ring.read siz).2,
        ring.toList.drop siz, ?_, .read _ siz, discard_wf hwf _, read_toList hwf siz⟩
      rw [step, hret, hcopied]
  | peek siz =>
      refine ⟨.copied (min siz ring.toList.length) (ring.toList.take siz), ring, ring.toList, ?_,
        .peek _ siz, hwf, rfl⟩
      rw [step, length_peek hwf, peek_eq hwf, length_toList]
  | discard siz =>
      refine ⟨.dropped (min siz ring.toList.length), (ring.discard siz).2,
        ring.toList.drop siz, ?_, .discard _ siz, discard_wf hwf siz, discard_toList hwf siz⟩
      rw [step, discard_fst, length_toList]

end Ringbuffer

/-- The ring buffer is a byte queue: from an initialised buffer, every sequence of uses is
answered as a byte list answers it, and leaves a buffer that holds the list, with a free
cell, in the window from `beginIdx` to `endIdx`. -/
theorem ringbuffer_refines_queue (ops : List Ringbuffer.Op) :
    ∃ start answers ring queue, Ringbuffer.init true = some start ∧
      Refinement.run Ringbuffer.step start ops = some (answers, ring) ∧
      Refinement.Allowed Ringbuffer.QueueStep [] ops answers queue ∧
      ring.toList = queue ∧ ring.len = queue.length ∧
      ring.len < ring.cap ∧ ring.beginIdx < ring.cap ∧ ring.endIdx < ring.cap ∧
      ring.endIdx = (ring.beginIdx + ring.len) % ring.cap := by
  obtain ⟨start, hinit⟩ : ∃ start, Ringbuffer.init true = some start := ⟨_, rfl⟩
  have hstart : start.Holds [] := ⟨Ringbuffer.init_wf hinit, Ringbuffer.init_toList hinit⟩
  obtain ⟨answers, ring, queue, hrun, hallowed, hwf, rfl⟩ :=
    @Refinement.run_refines _ _ _ _ Ringbuffer.step (fun _ _ => True) Ringbuffer.QueueStep
      Ringbuffer.Holds (fun _ _ op hholds _ => Ringbuffer.step_refines hholds op) ops start []
      hstart (Refinement.admissible_of_forall ops (fun _ _ _ => trivial) [])
  exact ⟨start, answers, ring, ring.toList, hinit, hrun, hallowed, rfl,
    (Ringbuffer.length_toList ring).symm, hwf.len_lt, hwf.begin_lt, hwf.end_lt, hwf.end_eq⟩

end Dime
