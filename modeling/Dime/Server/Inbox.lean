import Dime.Server.Inbuffer

/-!
# The messages in an inbuffer

Everything that successive pops read from a socket, as a function of the bytes it
holds: the frames of a WebSocket connection first, then the messages.
-/

namespace Dime

/-- The reader that the frame loop of `dime_socket_pop` is of its inbuffer. -/
def readFrame (bytes : Bytes) : Framing.Next Bytes :=
  match Socket.frameHeader (bytes.take 14) with
  | none => .more
  | some (hdrLen, frameLen, mask) =>
      if (bytes.take 14).getD 1 0 &&& 0x80 = 0 then .bad
      else if (hdrLen + frameLen) % 2 ^ 64 ≤ bytes.length then
        if (hdrLen + frameLen) % 2 ^ 64 < hdrLen + frameLen then .bad
        else .item (Socket.unmask mask ((bytes.take (hdrLen + frameLen)).drop hdrLen))
          (hdrLen + frameLen)
      else .more

theorem frameHeader_pos {wsHdr : Bytes} {hdrLen frameLen : Nat} {mask : Bytes}
    (h : Socket.frameHeader wsHdr = some (hdrLen, frameLen, mask)) : 0 < hdrLen := by
  rw [Socket.frameHeader] at h
  split at h
  next =>
    cases h
    decide
  next =>
    split at h
    next =>
      cases h
      decide
    next =>
      split at h
      next =>
        cases h
        decide
      next => cases h

theorem readFrame_progresses : Framing.Progresses readFrame := by
  intro bytes value size h
  rw [readFrame] at h
  split at h
  next => cases h
  next hdrLen frameLen mask hheader =>
    have hpos := frameHeader_pos hheader
    split at h
    next => cases h
    next =>
      split at h
      next hle =>
        split at h
        next => cases h
        next hfit =>
          cases h
          have := Nat.mod_le (hdrLen + frameLen) (2 ^ 64)
          omega
      next => cases h

theorem frameHeader_append {wsHdr : Bytes} {hdrLen frameLen : Nat} {mask : Bytes}
    (h : Socket.frameHeader wsHdr = some (hdrLen, frameLen, mask)) (more : Bytes)
    (hshort : (wsHdr ++ more).length ≤ 14) :
    Socket.frameHeader (wsHdr ++ more) = some (hdrLen, frameLen, mask) := by
  have hfront : ∀ i n, i + n ≤ wsHdr.length →
      ((wsHdr ++ more).drop i).take n = (wsHdr.drop i).take n := by
    intro i n hle
    rw [List.drop_append_of_le_length (by omega), List.take_append_of_le_length]
    rw [List.length_drop]
    omega
  have hsecond : 2 ≤ wsHdr.length → (wsHdr ++ more).getD 1 0 = wsHdr.getD 1 0 := by
    intro hle
    rw [List.getD_eq_getElem?_getD, List.getD_eq_getElem?_getD, List.getElem?_append_left (by omega)]
  rw [List.length_append] at hshort
  rw [Socket.frameHeader] at h ⊢
  split at h
  next hsmall =>
    rw [hsecond (by omega), if_pos ⟨hsmall.1, by rw [List.length_append]; omega⟩,
      hfront 2 4 (by omega)]
    exact h
  next =>
    split at h
    next hmedium =>
      rw [hsecond (by omega), if_neg (by omega),
        if_pos ⟨hmedium.1, by rw [List.length_append]; omega⟩, hfront 2 2 (by omega),
        hfront 4 4 (by omega)]
      exact h
    next =>
      split at h
      next hlarge =>
        rw [hsecond (by omega), if_neg (by omega), if_neg (by omega),
          if_pos ⟨hlarge.1, by rw [List.length_append]; omega⟩, hfront 2 8 (by omega),
          hfront 10 4 (by omega)]
        exact h
      next => cases h

theorem readFrame_stable : Framing.Stable readFrame := by
  intro bytes value size h more
  rw [readFrame] at h
  split at h
  next => cases h
  next hdrLen frameLen mask hheader =>
    have hpos := frameHeader_pos hheader
    have htake : (bytes ++ more).take 14 = bytes.take 14 ++ more.take (14 - bytes.length) :=
      List.take_append
    have hheader' : Socket.frameHeader ((bytes ++ more).take 14) = some (hdrLen, frameLen, mask) := by
      rw [htake]
      exact frameHeader_append hheader _ (by rw [← htake]; exact List.length_take_le _ _)
    split at h
    next => cases h
    next hmask =>
      split at h
      next hle =>
        split at h
        next => cases h
        next hfit =>
          cases h
          have hmod : (hdrLen + frameLen) % 2 ^ 64 = hdrLen + frameLen := by
            have := Nat.mod_le (hdrLen + frameLen) (2 ^ 64)
            omega
          rw [hmod] at hle
          have hsecond : ((bytes ++ more).take 14).getD 1 0 = (bytes.take 14).getD 1 0 := by
            rw [htake, List.getD_eq_getElem?_getD, List.getD_eq_getElem?_getD,
              List.getElem?_append_left]
            by_contra hnone
            have hbyte : (bytes.take 14).getD 1 0 = 0 := by
              rw [List.getD_eq_getElem?_getD, List.getElem?_eq_none (by omega)]
              rfl
            exact hmask (by rw [hbyte]; rfl)
          rw [readFrame, hheader']
          dsimp only
          rw [hsecond, if_neg hmask, hmod,
            if_pos (by rw [List.length_append]; omega), if_neg (lt_irrefl _),
            List.take_append_of_le_length hle]
      next => cases h

namespace Socket

variable {J : Type} (jansson : Jansson J)

theorem readMessage_stable : Framing.Stable (readMessage jansson) := by
  intro bytes value size h more
  rw [readMessage] at h
  split at h
  next => cases h
  next hlong =>
    split at h
    next => cases h
    next hmagic =>
      split at h
      next => cases h
      next hlen =>
        split at h
        next => cases h
        next hfit =>
          -- the header and the announced bytes are there
          have hheader : jsonLen (bytes ++ more) = jsonLen bytes ∧
              binLen (bytes ++ more) = binLen bytes := by
            rw [jsonLen, jsonLen, binLen, binLen]
            constructor
            · rw [List.drop_append_of_le_length (by omega), List.take_append_of_le_length]
              rw [List.length_drop]
              omega
            · rw [List.drop_append_of_le_length (by omega), List.take_append_of_le_length]
              rw [List.length_drop]
              omega
          have hframe : frameLen (bytes ++ more) = frameLen bytes := by
            rw [frameLen, frameLen, hheader.1, hheader.2]
          have hthere : frameLen bytes ≤ bytes.length := by
            rw [Nat.mod_eq_of_lt (by omega)] at hlen
            omega
          have htext : jsonText (bytes ++ more) = jsonText bytes := by
            rw [frameLen] at hthere
            rw [jsonText, jsonText, hheader.1, List.drop_append_of_le_length (by omega),
              List.take_append_of_le_length]
            rw [List.length_drop]
            omega
          have hdata : binData (bytes ++ more) = binData bytes := by
            rw [frameLen] at hthere
            rw [binData, binData, hheader.1, hheader.2, List.drop_append_of_le_length (by omega),
              List.take_append_of_le_length]
            rw [List.length_drop]
            omega
          rw [readMessage, if_neg (by rw [List.length_append]; omega),
            List.take_append_of_le_length (by omega), if_neg hmagic, hframe,
            if_neg (by rw [List.length_append]; omega), if_neg hfit, htext, hdata]
          exact h

theorem readMessage_progresses : Framing.Progresses (readMessage jansson) := by
  intro bytes value size h
  rw [readMessage] at h
  split at h
  next => cases h
  next =>
    split at h
    next => cases h
    next =>
      split at h
      next => cases h
      next hlen =>
        split at h
        next => cases h
        next hfit =>
          split at h
          next => cases h
          next =>
            cases h
            have hpos : 0 < frameLen bytes := by
              rw [frameLen]
              omega
            rw [Nat.mod_eq_of_lt (by omega)] at hlen
            exact ⟨hpos, by omega⟩

/-- The bytes of the frame layer, on a WebSocket connection, and of the inbuffer. -/
abbrev Held := Option Bytes × Bytes

def held (sock : Socket) : Held := (sock.ws.map Ring.toList, sock.rbuf.toList)

/-- The bytes that a socket holds after a delivery of the kernel. -/
def arrived (sock : Socket) (chunk : Bytes) : Held :=
  match sock.ws with
  | none => (none, sock.rbuf.toList ++ chunk.take recvBufLen)
  | some ws => (some (ws.toList ++ chunk.take recvBufLen), sock.rbuf.toList)

/-- The bytes that the messages are read from, once the complete frames have been
unwrapped; `none` where one is refused. -/
def unframed : Held → Option Bytes
  | (none, bytes) => some bytes
  | (some frames, bytes) =>
      match Framing.drain readFrame frames with
      | (payloads, some _) => some (bytes ++ payloads.flatten)
      | (_, none) => none

/-- The well-formed messages in the bytes that a socket holds, up to the first
bytes that are refused, and the incomplete rest if none are. -/
def drained (held : Held) : List (Message J) × Option Bytes :=
  match unframed held with
  | some bytes => Framing.drain (readMessage jansson) bytes
  | none => ([], none)

/-- No byte is refused: complete frames, complete messages and an incomplete rest
are all there is. -/
def WellFormed (held : Held) : Prop := ∃ rest, (drained jansson held).2 = some rest

/-- A successful receive appends what the kernel delivers. -/
theorem recvpartial_held (sock : Socket) (chunk : Bytes) :
    ∃ sock' : Socket,
      sock.recvpartial true true (.ok chunk) = (((chunk.take recvBufLen).length : Int), sock') ∧
      sock'.held = sock.arrived chunk ∧ sock'.fd = sock.fd ∧
      sock'.ws.isSome = sock.ws.isSome := by
  have hfits : ∀ ring : Ring, ¬ (ring.write true (chunk.take recvBufLen)).1 < 0 := fun ring => by
    rw [Ring.write_true_fst]
    omega
  obtain ⟨fd, rbuf, wbuf, ws, err⟩ := sock
  rw [ recvpartial, if_pos rfl]
  cases ws with
  | none =>
      dsimp only
      rw [if_neg (hfits rbuf)]
      refine ⟨_, rfl, ?_, rfl, rfl⟩
      rw [held, Ring.write_true_toList]
      rfl
  | some ws =>
      dsimp only
      rw [if_neg (hfits ws)]
      refine ⟨_, rfl, ?_, rfl, rfl⟩
      rw [held, Option.map_some, Ring.write_true_toList]
      rfl

/-- No complete frame is left in the frame layer. -/
def Unwrapped (sock : Socket) : Prop :=
  ∀ ws, sock.ws = some ws → readFrame ws.toList = .more

theorem unwrapped_of_none {sock : Socket} (hws : sock.ws = none) : sock.Unwrapped := by
  intro ws hsome
  rw [hws] at hsome
  cases hsome

theorem Unwrapped.congr {sock sock' : Socket} (h : sock.Unwrapped)
    (hws : sock'.ws.map Ring.toList = sock.ws.map Ring.toList) : sock'.Unwrapped := by
  intro ws' hws'
  rw [hws', Option.map_some] at hws
  obtain ⟨ws, hsome, hsame⟩ := Option.map_eq_some_iff.mp hws.symm
  rw [← hsame]
  exact h ws hsome

/-- What one round of the frame loop does where the reader stops at `next`. -/
def FramesAs (fuel i : Nat) (sock : Socket) (ws : Ring) : Framing.Next Bytes → Prop
  | .more => popFrames .succeed (fuel + 1) i sock ws = .ok (true, { sock with ws := some ws })
  | .item payload size => popFrames .succeed (fuel + 1) i sock ws = popFrames .succeed fuel (i + 1)
      { sock with rbuf := (sock.rbuf.write true payload).2, ws := some ws } (ws.discard size).2
  | .bad => (∃ sock', popFrames .succeed (fuel + 1) i sock ws = .ok (false, sock')) ∨
      popFrames .succeed (fuel + 1) i sock ws = .error .outOfBounds

theorem popFrames_round (fuel i : Nat) (sock : Socket) (ws : Ring) :
    FramesAs fuel i sock ws (readFrame ws.toList) := by
  have hrun : popFrames .succeed (fuel + 1) i sock ws =
      popFrames .succeed (fuel + 1) i sock ws := rfl
  conv at hrun => rhs; rw [popFrames]
  simp only [Ring.peek_eq] at hrun
  rw [readFrame]
  split
  next hheader =>
    rw [hheader] at hrun
    exact hrun
  next hdrLen frameLen mask hheader =>
    rw [hheader] at hrun
    dsimp only at hrun
    by_cases hmask : (ws.toList.take 14).getD 1 0 &&& 0x80 = 0
    · rw [if_pos hmask] at hrun ⊢
      exact .inl ⟨_, hrun⟩
    · rw [if_neg hmask, if_neg (by simp [PopAlloc.succeed])] at hrun
      rw [if_neg hmask]
      by_cases hle : (hdrLen + frameLen) % 2 ^ 64 ≤ ws.toList.length
      · have hlength : (ws.toList.take ((hdrLen + frameLen) % 2 ^ 64)).length =
            (hdrLen + frameLen) % 2 ^ 64 := by
          rw [List.length_take]
          omega
        rw [if_pos hlength] at hrun
        rw [if_pos hle]
        by_cases hwrap : (hdrLen + frameLen) % 2 ^ 64 < hdrLen + frameLen
        · rw [if_pos hwrap] at hrun ⊢
          exact .inr hrun
        · have hmod : (hdrLen + frameLen) % 2 ^ 64 = hdrLen + frameLen := by
            have := Nat.mod_le (hdrLen + frameLen) (2 ^ 64)
            omega
          rw [if_neg hwrap, hmod] at hrun
          rw [if_neg hwrap]
          have hwrite : ¬ (sock.rbuf.write true
              (unmask mask ((ws.toList.take (hdrLen + frameLen)).drop hdrLen))).1 < 0 := by
            rw [Ring.write_true_fst]
            omega
          exact hrun.trans (if_neg hwrite)
      · have hlength : (ws.toList.take ((hdrLen + frameLen) % 2 ^ 64)).length ≠
            (hdrLen + frameLen) % 2 ^ 64 := by
          rw [List.length_take]
          omega
        rw [if_neg hlength] at hrun
        rw [if_neg hle]
        exact hrun

/-- The frame loop appends the payloads of the complete frames to the inbuffer,
unless one is refused. -/
theorem popFrames_spec (fuel i : Nat) (sock : Socket) (ws : Ring)
    (hfuel : ws.toList.length < fuel) :
    (∃ payloads rbuf ws', Framing.drain readFrame ws.toList = (payloads, some ws'.toList) ∧
      popFrames .succeed fuel i sock ws = .ok (true, { sock with rbuf, ws := some ws' }) ∧
      rbuf.toList = sock.rbuf.toList ++ payloads.flatten ∧ readFrame ws'.toList = .more) ∨
    ((Framing.drain readFrame ws.toList).2 = none ∧
      ((∃ sock', popFrames .succeed fuel i sock ws = .ok (false, sock')) ∨
        popFrames .succeed fuel i sock ws = .error .outOfBounds)) := by
  induction fuel generalizing i sock ws with
  | zero => omega
  | succ fuel ih =>
      have hround := popFrames_round fuel i sock ws
      cases hread : readFrame ws.toList with
      | more =>
          rw [hread] at hround
          exact .inl ⟨[], sock.rbuf, ws, Framing.drain_more hread, hround, by simp, hread⟩
      | bad =>
          rw [hread] at hround
          exact .inr ⟨by rw [Framing.drain_bad hread], hround⟩
      | item payload size =>
          rw [hread] at hround
          obtain ⟨hpos, hsize⟩ := readFrame_progresses _ _ _ hread
          have hdrain := Framing.drain_item readFrame_progresses hread
          have hdiscard : (ws.discard size).2.toList = ws.toList.drop size := ws.discard_toList size
          have hlength : (ws.discard size).2.toList.length < fuel := by
            rw [hdiscard, List.length_drop]
            omega
          rw [hround, hdrain, ← hdiscard]
          rcases ih (i + 1) { sock with rbuf := (sock.rbuf.write true payload).2, ws := some ws }
            (ws.discard size).2 hlength with
            ⟨payloads, rbuf, ws', hrest, hrun, hrbuf, hmore⟩ | ⟨hbad, hrun⟩
          · refine .inl ⟨payload :: payloads, rbuf, ws', by rw [hrest], hrun, ?_, hmore⟩
            rw [hrbuf, Ring.write_true_toList, List.flatten_cons, List.append_assoc]
          · exact .inr ⟨hbad, hrun⟩

/-- The complete frames have been taken off the frame layer, and their payloads are in the
inbuffer. -/
def Unframes : Held → Held → Prop
  | (none, bytes), held' => held' = (none, bytes)
  | (some frames, bytes), held' => ∃ payloads rest,
      Framing.drain readFrame frames = (payloads, some rest) ∧
        held' = (some rest, bytes ++ payloads.flatten)

/-- A pop takes the complete frames first, and then pops as if there were none left; or
it fails at a frame. -/
theorem pop_unframes (sock : Socket) :
    (∃ sock' : Socket, Unframes sock.held sock'.held ∧ sock'.Unwrapped ∧ sock'.fd = sock.fd ∧
      sock'.wbuf = sock.wbuf ∧ sock.pop jansson .succeed = sock'.popMessage jansson .succeed) ∨
    (unframed sock.held = none ∧ ((∃ sock', sock.pop jansson .succeed = .ok (-1, none, sock')) ∨
      sock.pop jansson .succeed = .error .outOfBounds)) := by
  rw [held]
  cases hws : sock.ws with
  | none =>
      refine .inl ⟨sock, ?_, unwrapped_of_none hws, rfl, rfl, by rw [pop, hws]⟩
      rw [held, hws]
      rfl
  | some ws =>
      rw [pop, Option.map_some, unframed, hws]
      dsimp only
      rcases popFrames_spec (ws.len + 1) 0 sock ws (by rw [Ring.length_toList]; omega) with
        ⟨payloads, rbuf, ws', hdrain, hrun, hrbuf, hmore⟩ | ⟨hbad, hrun⟩
      · refine .inl ⟨{ sock with rbuf, ws := some ws' }, ⟨payloads, ws'.toList, hdrain, ?_⟩,
          fun ws hsame => ?_, rfl, rfl, by rw [hrun]⟩
        · rw [held, hrbuf]
          rfl
        · cases hsame
          exact hmore
      · have hnone : Framing.drain readFrame ws.toList =
            ((Framing.drain readFrame ws.toList).1, none) := by rw [← hbad]
        refine .inr ⟨by rw [hnone], ?_⟩
        rcases hrun with ⟨sock', hrun⟩ | hrun
        · exact .inl ⟨sock', by rw [hrun]⟩
        · exact .inr (by rw [hrun])

theorem Unframes.isSome {held held' : Held} (h : Unframes held held') :
    held'.1.isSome = held.1.isSome := by
  obtain ⟨frames, bytes⟩ := held
  cases frames with
  | none => exact congrArg (·.1.isSome) h
  | some frames =>
      obtain ⟨payloads, rest, _, rfl⟩ := h
      rfl

theorem Unframes.unframed {held held' : Held} (h : Unframes held held') :
    unframed held = some held'.2 := by
  obtain ⟨frames, bytes⟩ := held
  cases frames with
  | none =>
      rw [h]
      rfl
  | some frames =>
      obtain ⟨payloads, rest, hdrain, rfl⟩ := h
      rw [Socket.unframed, hdrain]

/-- A pop unwraps the complete frames first, and then pops as if there were none
left; or it fails at a frame. -/
theorem pop_unwraps (sock : Socket) :
    (∃ (bytes : Bytes) (sock' : Socket), unframed sock.held = some bytes ∧ sock'.Unwrapped ∧
      sock'.rbuf.toList = bytes ∧ sock'.fd = sock.fd ∧ sock'.ws.isSome = sock.ws.isSome ∧
      sock.pop jansson .succeed = sock'.popMessage jansson .succeed) ∨
    (unframed sock.held = none ∧ ((∃ sock', sock.pop jansson .succeed = .ok (-1, none, sock')) ∨
      sock.pop jansson .succeed = .error .outOfBounds)) := by
  rcases sock.pop_unframes jansson with ⟨sock', hunframes, hunwrapped, hfd, _, hpop⟩ | hrefused
  · have hws : (sock'.ws.map Ring.toList).isSome = (sock.ws.map Ring.toList).isSome :=
      hunframes.isSome
    rw [Option.isSome_map, Option.isSome_map] at hws
    exact .inl ⟨_, sock', hunframes.unframed, hunwrapped, rfl, hfd, hws, hpop⟩
  · exact .inr hrefused

/-- Without complete frames a pop is one of the message. -/
theorem pop_unwrapped {sock : Socket} (h : sock.Unwrapped) :
    sock.pop jansson .succeed = sock.popMessage jansson .succeed := by
  rw [pop]
  cases hws : sock.ws with
  | none => rfl
  | some ws =>
      have hround := popFrames_round ws.len 0 sock ws
      rw [h ws hws] at hround
      have hsock : { sock with ws := some ws } = sock := by rw [← hws]
      dsimp only
      rw [hround]
      dsimp only
      rw [hsock]

end Socket

end Dime
