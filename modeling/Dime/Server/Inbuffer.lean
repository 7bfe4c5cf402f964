import Dime.Foundation.Framing
import Dime.Server.Socket

/-!
# What a socket reads

`dime_socket_pop` seen as a reader of the bytes in the inbuffer, and the one way
in which it reaches outside the buffer it allocates: a header whose lengths add
up to `2 ^ 32` or more.
-/

namespace Dime

/-- `jsondata_len` of the header at the front of a buffer. -/
def jsonLen (bytes : Bytes) : Nat := BigEndian.decode ((bytes.drop 4).take 4)

/-- `bindata_len` of the header at the front of a buffer. -/
def binLen (bytes : Bytes) : Nat := BigEndian.decode ((bytes.drop 8).take 4)

/-- The length a header announces, as an integer. -/
def frameLen (bytes : Bytes) : Nat := 12 + jsonLen bytes + binLen bytes

/-- A complete header with the right magic. -/
def HasHeader (bytes : Bytes) : Prop := 12 ≤ bytes.length ∧ bytes.take 4 = magic

def jsonText (bytes : Bytes) : Bytes := (bytes.drop 12).take (jsonLen bytes)

def binData (bytes : Bytes) : Bytes := (bytes.drop (12 + jsonLen bytes)).take (binLen bytes)

theorem jsonLen_lt (bytes : Bytes) : jsonLen bytes < 2 ^ 32 := by
  have hlt := BigEndian.decode_lt ((bytes.drop 4).take 4)
  have hle : ((bytes.drop 4).take 4).length ≤ 4 := List.length_take_le _ _
  have hpow := Nat.pow_le_pow_right (show 0 < 256 by decide) hle
  exact lt_of_lt_of_le hlt hpow

theorem binLen_lt (bytes : Bytes) : binLen bytes < 2 ^ 32 := by
  have hlt := BigEndian.decode_lt ((bytes.drop 8).take 4)
  have hle : ((bytes.drop 8).take 4).length ≤ 4 := List.length_take_le _ _
  have hpow := Nat.pow_le_pow_right (show 0 < 256 by decide) hle
  exact lt_of_lt_of_le hlt hpow

namespace Socket

variable {J : Type} (jansson : Jansson J)

/-- The parser has to look past the end of the buffer that `dime_socket_pop`
allocates: the announced length wraps, enough bytes for the wrapped length are
there, and they do not suffice to refuse the text. -/
def Overruns (bytes : Bytes) : Prop :=
  HasHeader bytes ∧ 2 ^ 32 ≤ frameLen bytes ∧ frameLen bytes % 2 ^ 32 ≤ bytes.length ∧
    jsonLen bytes ≠ 0 ∧
    jansson.rejects ((bytes.take (frameLen bytes % 2 ^ 32)).drop 12) = none

theorem peek_header (sock : Socket) (h : 12 ≤ sock.rbuf.toList.length) :
    (sock.rbuf.peek 12).length = 12 ∧ (sock.rbuf.peek 12).take 4 = sock.rbuf.toList.take 4 ∧
      BigEndian.decode (((sock.rbuf.peek 12).drop 4).take 4) = jsonLen sock.rbuf.toList ∧
      BigEndian.decode (((sock.rbuf.peek 12).drop 8).take 4) = binLen sock.rbuf.toList := by
  rw [Ring.peek_eq]
  refine ⟨by rw [List.length_take]; omega, List.take_take, ?_, ?_⟩
  · rw [jsonLen, List.drop_take, List.take_take]
    rfl
  · rw [binLen, List.drop_take, List.take_take]
    rfl

theorem popMessage_short (alloc : PopAlloc) (sock : Socket)
    (h : sock.rbuf.toList.length < 12) :
    sock.popMessage jansson alloc = .ok (0, none, sock) := by
  rw [popMessage, if_neg]
  rw [Ring.peek_eq, List.length_take]
  omega

theorem popMessage_magic (alloc : PopAlloc) (sock : Socket)
    (h : 12 ≤ sock.rbuf.toList.length) (hmagic : sock.rbuf.toList.take 4 ≠ magic) :
    sock.popMessage jansson alloc =
      .ok (-1, none, { sock with err := "Invalid DiME header" }) := by
  obtain ⟨hlen, hfront, _, _⟩ := peek_header sock h
  rw [popMessage, if_pos hlen, if_pos (by rw [hfront]; exact hmagic)]

/-- `dime_socket_pop` behind a complete header. -/
theorem popMessage_header (alloc : PopAlloc) (sock : Socket) (h : HasHeader sock.rbuf.toList) :
    sock.popMessage jansson alloc =
      if ¬ alloc.buf then .ok (-1, none, { sock with err := strerror })
      else if frameLen sock.rbuf.toList % 2 ^ 32 ≤ sock.rbuf.toList.length then
        match jansson.loadbFrom
          ((sock.rbuf.toList.take (frameLen sock.rbuf.toList % 2 ^ 32)).drop 12)
          (jsonLen sock.rbuf.toList) with
        | .error fault => .error fault
        | .ok (.error text) => .ok (-1, none, { sock with err := text })
        | .ok (.ok jsondata) =>
            if ¬ alloc.bindata then .ok (-1, none, { sock with err := strerror })
            else if frameLen sock.rbuf.toList % 2 ^ 32 < frameLen sock.rbuf.toList then
              .error .outOfBounds
            else
              .ok ((frameLen sock.rbuf.toList % 2 ^ 32 : Nat), some ⟨jsondata,
                ((sock.rbuf.toList.take (frameLen sock.rbuf.toList % 2 ^ 32)).drop
                  (12 + jsonLen sock.rbuf.toList)).take (binLen sock.rbuf.toList)⟩,
                { sock with
                  rbuf := (sock.rbuf.discard (frameLen sock.rbuf.toList % 2 ^ 32)).2 })
      else .ok (0, none, sock) := by
  obtain ⟨hlen, hfront, hjson, hbin⟩ := peek_header sock h.1
  rw [popMessage, if_pos hlen, if_neg (by rw [hfront]; exact not_not_intro h.2), hjson, hbin]
  have hframe : 12 + jsonLen sock.rbuf.toList + binLen sock.rbuf.toList =
      frameLen sock.rbuf.toList := rfl
  simp only [hframe, Ring.peek_eq, List.length_take, inf_eq_left] <;> rfl

/-- Behind a header that does not wrap, the parser sees the announced text. -/
theorem loadbFrom_fits {bytes : Bytes} (hfit : frameLen bytes < 2 ^ 32)
    (hlen : frameLen bytes ≤ bytes.length) :
    jansson.loadbFrom ((bytes.take (frameLen bytes % 2 ^ 32)).drop 12) (jsonLen bytes) =
      .ok (jansson.loadb (jsonText bytes)) := by
  have hsum : frameLen bytes = 12 + jsonLen bytes + binLen bytes := rfl
  have htext : (((bytes.take (frameLen bytes)).drop 12).take (jsonLen bytes)) =
      jsonText bytes := by
    rw [jsonText, List.drop_take, List.take_take, Nat.min_eq_left (by omega)]
  have hle : jsonLen bytes ≤ ((bytes.take (frameLen bytes)).drop 12).length := by
    rw [List.length_drop, List.length_take]
    omega
  rw [Nat.mod_eq_of_lt hfit, Jansson.loadbFrom, if_pos hle, htext]

theorem binData_fits {bytes : Bytes} (hfit : frameLen bytes < 2 ^ 32) :
    ((bytes.take (frameLen bytes % 2 ^ 32)).drop (12 + jsonLen bytes)).take (binLen bytes) =
      binData bytes := by
  have hsum : frameLen bytes = 12 + jsonLen bytes + binLen bytes := rfl
  rw [Nat.mod_eq_of_lt hfit, binData, List.drop_take, List.take_take, Nat.min_eq_left (by omega)]

/-- Behind a header that wraps, the parser is handed less than the announced text. -/
theorem loadbFrom_wraps {bytes : Bytes} (hwrap : 2 ^ 32 ≤ frameLen bytes) :
    jansson.loadbFrom ((bytes.take (frameLen bytes % 2 ^ 32)).drop 12) (jsonLen bytes) =
      if jsonLen bytes = 0 then .ok (jansson.loadb [])
      else
        match jansson.rejects ((bytes.take (frameLen bytes % 2 ^ 32)).drop 12) with
        | some err => .ok (.error err)
        | none => .error .outOfBounds := by
  have hsum : frameLen bytes = 12 + jsonLen bytes + binLen bytes := rfl
  have hjson := jsonLen_lt bytes
  have hbin := binLen_lt bytes
  have hlen : ((bytes.take (frameLen bytes % 2 ^ 32)).drop 12).length ≤
      frameLen bytes % 2 ^ 32 - 12 := by
    rw [List.length_drop, List.length_take]
    omega
  rw [Jansson.loadbFrom]
  by_cases hzero : jsonLen bytes = 0
  · rw [if_pos hzero, if_pos (by omega), hzero, List.take_zero]
  · exact (if_neg (by omega)).trans (if_neg hzero).symm

theorem popMessage_incomplete (alloc : PopAlloc) (sock : Socket) (h : HasHeader sock.rbuf.toList)
    (hbuf : alloc.buf = true)
    (hshort : sock.rbuf.toList.length < frameLen sock.rbuf.toList % 2 ^ 32) :
    sock.popMessage jansson alloc = .ok (0, none, sock) := by
  rw [popMessage_header jansson alloc sock h, if_neg (by simp [hbuf]), if_neg (by omega)]

/-- A complete message is taken off the inbuffer. -/
theorem popMessage_accept (alloc : PopAlloc) (sock : Socket) (h : HasHeader sock.rbuf.toList)
    (hbuf : alloc.buf = true) (hbin : alloc.bindata = true)
    (hfit : frameLen sock.rbuf.toList < 2 ^ 32)
    (hlen : frameLen sock.rbuf.toList ≤ sock.rbuf.toList.length) {jsondata : J}
    (hload : jansson.loadb (jsonText sock.rbuf.toList) = .ok jsondata) :
    sock.popMessage jansson alloc =
      .ok (frameLen sock.rbuf.toList, some ⟨jsondata, binData sock.rbuf.toList⟩,
        { sock with rbuf := (sock.rbuf.discard (frameLen sock.rbuf.toList)).2 }) := by
  have hmod := Nat.mod_eq_of_lt hfit
  rw [popMessage_header jansson alloc sock h, if_neg (by simp [hbuf]), if_pos (by omega),
    loadbFrom_fits jansson hfit hlen, hload]
  dsimp only
  rw [if_neg (by simp [hbin]), if_neg (by omega), binData_fits hfit, hmod]

/-- A complete message whose text is refused stays in the inbuffer. -/
theorem popMessage_refuse (alloc : PopAlloc) (sock : Socket) (h : HasHeader sock.rbuf.toList)
    (hbuf : alloc.buf = true) (hfit : frameLen sock.rbuf.toList < 2 ^ 32)
    (hlen : frameLen sock.rbuf.toList ≤ sock.rbuf.toList.length) {err : String}
    (hload : jansson.loadb (jsonText sock.rbuf.toList) = .error err) :
    sock.popMessage jansson alloc = .ok (-1, none, { sock with err }) := by
  have hmod := Nat.mod_eq_of_lt hfit
  rw [popMessage_header jansson alloc sock h, if_neg (by simp [hbuf]), if_pos (by omega),
    loadbFrom_fits jansson hfit hlen, hload]

/-- A header that wraps: nothing is taken off the inbuffer, and unless the text
is refused in time the parser leaves the buffer. -/
theorem popMessage_wrap (alloc : PopAlloc) (sock : Socket) (h : HasHeader sock.rbuf.toList)
    (hbuf : alloc.buf = true) (hwrap : 2 ^ 32 ≤ frameLen sock.rbuf.toList)
    (hlen : frameLen sock.rbuf.toList % 2 ^ 32 ≤ sock.rbuf.toList.length) :
    (Overruns jansson sock.rbuf.toList ∧
      sock.popMessage jansson alloc = .error .outOfBounds) ∨
    (¬ Overruns jansson sock.rbuf.toList ∧
      ∃ err, sock.popMessage jansson alloc = .ok (-1, none, { sock with err })) := by
  rw [popMessage_header jansson alloc sock h, if_neg (by simp [hbuf]), if_pos hlen,
    loadbFrom_wraps jansson hwrap]
  by_cases hzero : jsonLen sock.rbuf.toList = 0
  · obtain ⟨err, herr⟩ := jansson.loadb_nil
    rw [if_pos hzero, herr]
    exact .inr ⟨fun hover => hover.2.2.2.1 hzero, err, rfl⟩
  · rw [if_neg hzero]
    cases hrejects : jansson.rejects
        ((sock.rbuf.toList.take (frameLen sock.rbuf.toList % 2 ^ 32)).drop 12) with
    | none => exact .inl ⟨⟨h, hwrap, hlen, hzero, hrejects⟩, rfl⟩
    | some err =>
        refine .inr ⟨fun hover => ?_, err, rfl⟩
        rw [hover.2.2.2.2] at hrejects
        cases hrejects

/-- The reader that `dime_socket_pop` is of its inbuffer. -/
def readMessage (bytes : Bytes) : Framing.Next (Message J) :=
  if bytes.length < 12 then .more
  else if bytes.take 4 ≠ magic then .bad
  else if bytes.length < frameLen bytes % 2 ^ 32 then .more
  else if 2 ^ 32 ≤ frameLen bytes then .bad
  else
    match jansson.loadb (jsonText bytes) with
    | .error _ => .bad
    | .ok jsondata => .item ⟨jsondata, binData bytes⟩ (frameLen bytes)

/-- What `dime_socket_pop` does where the reader stops at `next`. -/
def PopsAs (sock : Socket) : Framing.Next (Message J) → Prop
  | .item message size => 0 < size ∧ size ≤ sock.rbuf.toList.length ∧
      sock.popMessage jansson .succeed =
        .ok (size, some message, { sock with rbuf := (sock.rbuf.discard size).2 })
  | .more => sock.popMessage jansson .succeed = .ok (0, none, sock)
  | .bad => (∃ err, sock.popMessage jansson .succeed = .ok (-1, none, { sock with err })) ∨
      sock.popMessage jansson .succeed = .error .outOfBounds

theorem popMessage_reads (sock : Socket) :
    PopsAs jansson sock (readMessage jansson sock.rbuf.toList) := by
  rw [readMessage]
  split
  next hshort => exact popMessage_short jansson .succeed sock hshort
  next hlong =>
    split
    next hmagic => exact .inl ⟨_, popMessage_magic jansson .succeed sock (by omega) hmagic⟩
    next hmagic =>
      have h : HasHeader sock.rbuf.toList := ⟨by omega, not_not.mp hmagic⟩
      split
      next hpart => exact popMessage_incomplete jansson .succeed sock h rfl hpart
      next hlen =>
        split
        next hwrap =>
          rcases popMessage_wrap jansson .succeed sock h rfl hwrap (by omega) with
            ⟨_, hrun⟩ | ⟨_, err, hrun⟩
          · exact .inr hrun
          · exact .inl ⟨err, hrun⟩
        next hfit =>
          rw [Nat.mod_eq_of_lt (by omega)] at hlen
          split
          next err hload =>
            exact .inl ⟨err, popMessage_refuse jansson .succeed sock h rfl (by omega) (by omega)
              hload⟩
          next jsondata hload =>
            refine ⟨by rw [frameLen]; omega, by omega, ?_⟩
            exact popMessage_accept jansson .succeed sock h rfl rfl (by omega) (by omega) hload

/-! ## Length safety -/

/-- What a pop may do with the lengths of a header: it takes exactly the
announced message off the inbuffer, or it leaves the inbuffer as it is. -/
def LengthSafe (alloc : PopAlloc) (sock : Socket) : Prop :=
  ∃ ret message sock', sock.pop jansson alloc = .ok (ret, message, sock') ∧
    ((∃ m, message = some m ∧ 0 < ret ∧ ret = frameLen sock.rbuf.toList ∧
        frameLen sock.rbuf.toList ≤ sock.rbuf.toList.length ∧
        jansson.loadb (jsonText sock.rbuf.toList) = .ok m.jsondata ∧
        m.bindata = binData sock.rbuf.toList ∧
        sock'.rbuf.toList = sock.rbuf.toList.drop (frameLen sock.rbuf.toList)) ∨
      (message = none ∧ ret ≤ 0 ∧ sock'.rbuf = sock.rbuf))

/-- Every way in which a pop on a connection without WebSocket ends. -/
theorem pop_cases (alloc : PopAlloc) (sock : Socket) (hws : sock.ws = none) :
    (alloc.buf = true ∧ Overruns jansson sock.rbuf.toList ∧
      sock.pop jansson alloc = .error .outOfBounds) ∨
    (¬ (alloc.buf = true ∧ Overruns jansson sock.rbuf.toList) ∧ LengthSafe jansson alloc sock) := by
  have hpop : sock.pop jansson alloc = sock.popMessage jansson alloc := by rw [pop, hws]
  have hkeep : ∀ ret err, ret ≤ 0 →
      sock.popMessage jansson alloc = .ok (ret, none, { sock with err }) →
      LengthSafe jansson alloc sock := fun ret err hret hrun =>
    ⟨ret, none, _, hpop.trans hrun, .inr ⟨rfl, hret, rfl⟩⟩
  by_cases h : HasHeader sock.rbuf.toList
  · by_cases hbuf : alloc.buf = true
    · rcases Nat.lt_or_ge sock.rbuf.toList.length (frameLen sock.rbuf.toList % 2 ^ 32) with
        hshort | hlen
      · exact .inr ⟨fun ⟨_, hover⟩ => absurd hover.2.2.1 (by omega),
          hkeep 0 sock.err le_rfl (popMessage_incomplete jansson alloc sock h hbuf hshort)⟩
      · rcases Nat.lt_or_ge (frameLen sock.rbuf.toList) (2 ^ 32) with hfit | hwrap
        · have hover : ¬ (alloc.buf = true ∧ Overruns jansson sock.rbuf.toList) :=
            fun ⟨_, hover⟩ => absurd hover.2.1 (by omega)
          refine .inr ⟨hover, ?_⟩
          rw [Nat.mod_eq_of_lt hfit] at hlen
          cases hload : jansson.loadb (jsonText sock.rbuf.toList) with
          | error err =>
              exact hkeep _ err (by decide)
                (popMessage_refuse jansson alloc sock h hbuf hfit hlen hload)
          | ok jsondata =>
              by_cases hbin : alloc.bindata = true
              · refine ⟨_, _, _, hpop.trans
                  (popMessage_accept jansson alloc sock h hbuf hbin hfit hlen hload),
                  .inl ⟨_, rfl, ?_, rfl, hlen, hload, rfl, by simp⟩⟩
                have : 0 < frameLen sock.rbuf.toList := by rw [frameLen]; omega
                omega
              · refine hkeep (-1) strerror (by decide) ?_
                rw [popMessage_header jansson alloc sock h, if_neg (by simp [hbuf]),
                  if_pos (by rw [Nat.mod_eq_of_lt hfit]; exact hlen),
                  loadbFrom_fits jansson hfit hlen, hload]
                dsimp only
                rw [if_pos hbin]
        · rcases popMessage_wrap jansson alloc sock h hbuf hwrap hlen with
            ⟨hover, hrun⟩ | ⟨hover, err, hrun⟩
          · exact .inl ⟨hbuf, hover, hpop.trans hrun⟩
          · exact .inr ⟨fun ⟨_, hbad⟩ => hover hbad, hkeep _ err (by decide) hrun⟩
    · refine .inr ⟨fun ⟨hbad, _⟩ => hbuf hbad, hkeep (-1) strerror (by decide) ?_⟩
      rw [popMessage_header jansson alloc sock h, if_pos hbuf]
  · refine .inr ⟨fun ⟨_, hover⟩ => h hover.1, ?_⟩
    rcases Nat.lt_or_ge sock.rbuf.toList.length 12 with hshort | hlen
    · exact hkeep 0 sock.err le_rfl (popMessage_short jansson alloc sock hshort)
    · exact hkeep (-1) _ (by decide)
        (popMessage_magic jansson alloc sock hlen fun hmagic => h ⟨hlen, hmagic⟩)

end Socket

/-- Exactly the headers whose lengths wrap, with enough bytes behind them and no
early refusal of the text, break the length safety of `dime_socket_pop`. -/
theorem pop_lengthSafe_iff {J : Type} (jansson : Jansson J) (alloc : Socket.PopAlloc)
    (sock : Socket) (hws : sock.ws = none) :
    Socket.LengthSafe jansson alloc sock ↔
      ¬ (alloc.buf = true ∧ Socket.Overruns jansson sock.rbuf.toList) := by
  rcases Socket.pop_cases jansson alloc sock hws with ⟨hbuf, hover, hrun⟩ | ⟨hsafe, hlength⟩
  · refine ⟨fun ⟨_, _, _, hok, _⟩ => ?_, fun hnot => absurd ⟨hbuf, hover⟩ hnot⟩
    rw [hrun] at hok
    cases hok
  · exact ⟨fun _ => hsafe, fun _ => hlength⟩

/-- A parser that accepts the text `{}` only. -/
def braces : Jansson Unit where
  loadb text := if text = [0x7B, 0x7D] then .ok () else .error "invalid token"
  dumps _ := ⟨[0x7B, 0x7D], by decide⟩
  unpackText _ _ := ""
  rejects _ := none
  loadb_nil := ⟨_, rfl⟩
  rejects_sound _ _ _ h := by cases h

/-- A connection on which `bytes` have arrived. -/
def Socket.holding (bytes : Bytes) : Socket :=
  { fd := 4, rbuf := (Ring.empty.write true bytes).2, wbuf := Ring.empty, ws := none, err := "" }

@[simp] theorem Socket.holding_toList (bytes : Bytes) :
    (Socket.holding bytes).rbuf.toList = bytes := by
  simp [Socket.holding]

/-- A complete message is popped as its header announces. -/
theorem pop_lengthSafe_complete :
    Socket.LengthSafe braces .succeed
      (Socket.holding (magic ++ [0, 0, 0, 2, 0, 0, 0, 1, 0x7B, 0x7D, 5])) ↔
    ¬ (Socket.PopAlloc.succeed.buf = true ∧ Socket.Overruns braces
      (Socket.holding (magic ++ [0, 0, 0, 2, 0, 0, 0, 1, 0x7B, 0x7D, 5])).rbuf.toList) :=
  pop_lengthSafe_iff braces .succeed _ rfl

/-- Thirteen bytes whose header announces `2 ^ 32 + 13`: the JSON text of
`2 ^ 32 - 1` bytes is read from an allocation of thirteen. -/
theorem pop_not_lengthSafe :
    ¬ Socket.LengthSafe braces .succeed
      (Socket.holding (magic ++ [0xFF, 0xFF, 0xFF, 0xFF, 0, 0, 0, 2, 0x7B])) := by
  rintro ⟨_, _, _, hok, _⟩
  have hover : Socket.Overruns braces
      (Socket.holding (magic ++ [0xFF, 0xFF, 0xFF, 0xFF, 0, 0, 0, 2, 0x7B])).rbuf.toList := by
    rw [Socket.holding_toList]
    exact ⟨⟨by decide, by decide⟩, by decide, by decide, by decide, rfl⟩
  rcases Socket.pop_cases braces .succeed (Socket.holding _) rfl with ⟨_, _, hrun⟩ | ⟨hnot, _⟩
  · rw [hrun] at hok
    cases hok
  · exact hnot ⟨rfl, hover⟩

end Dime
