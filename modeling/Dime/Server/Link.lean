import Dime.Server.Inbox

/-!
# A stream between two sockets

One socket pushes messages, the kernel takes its outbuffer in pieces of any
size, and the other socket receives the bytes in pieces of any other size and
pops until nothing is complete. The messages come out as they were pushed.
-/

namespace Dime

variable {J : Type} {jansson : Jansson J}

/-- A message that may be sent: its text is accepted by the parser, with the value
`jsondata`, and its length fits in 32 bits. -/
structure Sendable (jansson : Jansson J) where
  jsonstr : CString
  bindata : Bytes
  jsondata : J
  accepted : jansson.loadb jsonstr.1 = .ok jsondata
  short : 12 + jsonstr.length + bindata.length < 2 ^ 32

namespace Sendable

/-- The bytes that `dime_socket_push_str` appends for a message. -/
def encode (m : Sendable jansson) : Bytes :=
  Socket.header m.jsonstr.length m.bindata.length ++ m.jsonstr.1 ++ m.bindata

/-- What `dime_socket_pop` makes of the message. -/
def value (m : Sendable jansson) : Socket.Message J := ⟨m.jsondata, m.bindata⟩

theorem length_encode (m : Sendable jansson) :
    m.encode.length = 12 + m.jsonstr.length + m.bindata.length := by
  simp only [encode, Socket.header, magic, CString.length, List.length_append,
    BigEndian.length_encode, List.length_cons, List.length_nil]

end Sendable

/-- The fields of a header at the front of a buffer. -/
theorem header_fields {j b : Nat} (hj : j < 2 ^ 32) (hb : b < 2 ^ 32) (rest : Bytes) :
    HasHeader (Socket.header j b ++ rest) ∧ jsonLen (Socket.header j b ++ rest) = j ∧
      binLen (Socket.header j b ++ rest) = b := by
  have hjlen : (BigEndian.encode 4 j).length = 4 := BigEndian.length_encode 4 j
  have hblen : (BigEndian.encode 4 b).length = 4 := BigEndian.length_encode 4 b
  have hfront : Socket.header j b ++ rest =
      magic ++ (BigEndian.encode 4 j ++ (BigEndian.encode 4 b ++ rest)) := by
    simp [Socket.header]
  have hmagic : magic.length = 4 := rfl
  rw [hfront]
  refine ⟨⟨?_, ?_⟩, ?_, ?_⟩
  · simp only [List.length_append]
    omega
  · exact List.take_left' hmagic
  · rw [jsonLen, List.drop_left' hmagic, List.take_left' hjlen]
    exact BigEndian.decode_encode_of_lt hj
  · rw [binLen, ← List.append_assoc, List.drop_left' (by simp [hmagic]), List.take_left' hblen]
    exact BigEndian.decode_encode_of_lt hb

/-- A complete message is buffered. -/
def Complete (bytes : Bytes) : Prop := HasHeader bytes ∧ frameLen bytes ≤ bytes.length

namespace Sendable

variable (m : Sendable jansson)

theorem encode_append (rest : Bytes) :
    m.encode ++ rest = Socket.header m.jsonstr.length m.bindata.length ++
      (m.jsonstr.1 ++ (m.bindata ++ rest)) := by simp [encode]

/-- The header of a message announces its length. -/
theorem header_prefix {bytes : Bytes}
    (h : Socket.header m.jsonstr.length m.bindata.length <+: bytes) :
    HasHeader bytes ∧ jsonLen bytes = m.jsonstr.length ∧ binLen bytes = m.bindata.length ∧
      frameLen bytes = m.encode.length := by
  have hshort := m.short
  obtain ⟨rest, rfl⟩ := h
  obtain ⟨hheader, hjson, hbin⟩ := header_fields
    (show m.jsonstr.length < 2 ^ 32 by omega) (show m.bindata.length < 2 ^ 32 by omega) rest
  exact ⟨hheader, hjson, hbin, by rw [frameLen, hjson, hbin, length_encode]⟩

theorem header_prefix_encode (rest : Bytes) :
    Socket.header m.jsonstr.length m.bindata.length <+: m.encode ++ rest := by
  rw [encode_append]
  exact List.prefix_append _ _

theorem complete_encode (rest : Bytes) : Complete (m.encode ++ rest) := by
  obtain ⟨hheader, _, _, hframe⟩ := m.header_prefix (m.header_prefix_encode rest)
  exact ⟨hheader, by rw [hframe, List.length_append]; omega⟩

/-- A message that is cut short behind its header still announces its length. -/
theorem header_prefix_cut {front : Bytes} (hfront : front <+: m.encode)
    (hlong : 12 ≤ front.length) :
    Socket.header m.jsonstr.length m.bindata.length <+: front := by
  have hheader : (Socket.header m.jsonstr.length m.bindata.length).length = 12 := by
    simp [Socket.header, magic]
  have hfull := m.header_prefix_encode []
  rw [List.append_nil] at hfull
  exact List.prefix_of_prefix_length_le hfull hfront (by omega)

theorem length_cut {front : Bytes} (hfront : front <+: m.encode) (hne : front ≠ m.encode) :
    front.length < m.encode.length :=
  lt_of_le_of_ne hfront.length_le fun heq => hne (hfront.eq_of_length heq)

theorem not_complete_cut {front : Bytes} (hfront : front <+: m.encode)
    (hne : front ≠ m.encode) : ¬ Complete front := by
  rintro ⟨hheader, hlen⟩
  obtain ⟨_, _, _, hframe⟩ := m.header_prefix (m.header_prefix_cut hfront hheader.1)
  have := m.length_cut hfront hne
  omega

end Sendable

theorem readMessage_nil (jansson : Jansson J) : Socket.readMessage jansson [] = .more := rfl

/-- `dime_socket_pop` reads the message that `dime_socket_push_str` wrote, and
waits for the rest of it as long as some is missing. -/
theorem reads_encode (m : Sendable jansson) :
    Framing.Reads Sendable.encode Sendable.value (Socket.readMessage jansson) m := by
  have hshort := m.short
  have hlen := m.length_encode
  have hheader : (Socket.header m.jsonstr.length m.bindata.length).length = 12 := by
    simp [Socket.header, magic]
  refine ⟨?_, fun rest => ?_, fun front hfront hne => ?_⟩
  · intro hnil
    rw [hnil, List.length_nil] at hlen
    omega
  · obtain ⟨⟨hlong, hmagic⟩, hjson, hbin, hframe⟩ :=
      m.header_prefix (m.header_prefix_encode rest)
    have htext : jsonText (m.encode ++ rest) = m.jsonstr.1 := by
      rw [jsonText, hjson, m.encode_append, List.drop_left' hheader]
      exact List.take_left' rfl
    have hdata : binData (m.encode ++ rest) = m.bindata := by
      have hfront : (Socket.header m.jsonstr.length m.bindata.length ++ m.jsonstr.1).length =
          12 + m.jsonstr.length := by rw [List.length_append, hheader, CString.length]
      rw [binData, hjson, hbin, m.encode_append, ← List.append_assoc, List.drop_left' hfront]
      exact List.take_left' rfl
    rw [Socket.readMessage, if_neg (by omega), if_neg (not_not_intro hmagic), hframe,
      if_neg (by rw [List.length_append, Nat.mod_eq_of_lt (by omega)]; omega),
      if_neg (by omega), htext, m.accepted, hdata]
    rfl
  · have hlt := m.length_cut hfront hne
    rcases Nat.lt_or_ge front.length 12 with hcut | hlong
    · rw [Socket.readMessage, if_pos hcut]
    · obtain ⟨⟨_, hmagic⟩, _, _, hframe⟩ := m.header_prefix (m.header_prefix_cut hfront hlong)
      rw [Socket.readMessage, if_neg (by omega), if_neg (not_not_intro hmagic), hframe,
        if_pos (by rw [Nat.mod_eq_of_lt (by omega)]; exact hlt)]

/-! ## Pushing and sending -/

namespace Socket

/-- Without WebSocket a push appends the message alone. -/
theorem pushStr_plain {sock : Socket} (hws : sock.ws = none) (jsonstr : CString)
    (bindata : Bytes) :
    ∃ ret wbuf, sock.pushStr (fun _ => true) jsonstr bindata = (ret, { sock.started with wbuf }) ∧
      wbuf.toList = sock.wbuf.toList ++
        (header jsonstr.length bindata.length ++ jsonstr.1 ++ bindata) := by
  obtain ⟨ret, wbuf, hrun, _, hwbuf⟩ := sock.pushStr_succeed jsonstr bindata
  rw [hws] at hwbuf
  exact ⟨ret, wbuf, hrun, hwbuf⟩

/-- A partial send moves a front part of the outbuffer into the network. -/
theorem sendpartial_ok (sock : Socket) (n : Nat) :
    ∃ ret sent wbuf, sock.sendpartial true (.ok n) = (ret, sent, { sock with wbuf }) ∧
      sent ++ wbuf.toList = sock.wbuf.toList := by
  refine ⟨_, _, _, rfl, ?_⟩
  have hsent : (sock.wbuf.peek sendBufLen).take n =
      sock.wbuf.toList.take (min n sendBufLen) := by
    rw [Ring.peek_eq, List.take_take]
  have hrest : (sock.wbuf.toList.drop (sock.wbuf.toList.take (min n sendBufLen)).length) =
      sock.wbuf.toList.drop (min n sendBufLen) := by
    rw [List.length_take]
    rcases le_total (min n sendBufLen) sock.wbuf.toList.length with hle | hle
    · rw [Nat.min_eq_left hle]
    · rw [Nat.min_eq_right hle, List.drop_of_length_le le_rfl, List.drop_of_length_le hle]
  rw [Ring.discard_toList, hsent, hrest, List.take_append_drop]

/-- A partial receive appends what the kernel delivers to the inbuffer. -/
theorem recvpartial_plain {sock : Socket} (hws : sock.ws = none) (chunk : Bytes) :
    ∃ ret rbuf, sock.recvpartial true true (.ok chunk) = (ret, { sock with rbuf }) ∧
      rbuf.toList = sock.rbuf.toList ++ chunk.take recvBufLen := by
  refine ⟨(chunk.take recvBufLen).length, (sock.rbuf.write true (chunk.take recvBufLen)).2, ?_,
    Ring.write_true_toList _ _⟩
  have hret : ¬ (sock.rbuf.write true (chunk.take recvBufLen)).1 < 0 := by
    rw [Ring.write_true_fst]
    omega
  rw [ recvpartial, if_pos rfl]
  dsimp only
  rw [hws]
  dsimp only
  rw [if_neg hret]

end Socket

/-! ## Popping until nothing is complete -/

/-- A call of `dime_socket_pop`: what the inbuffer held and what came back. -/
structure PopCall (J : Type) where
  buffered : Bytes
  ret : Int
  message : Option (Socket.Message J)

/-- `while (dime_socket_pop(...) > 0)`. -/
def popAll (jansson : Jansson J) : Nat → Socket → Except Fault (List (PopCall J) × Socket)
  | 0, _ => .error .diverges
  | fuel + 1, sock =>
      match sock.pop jansson .succeed with
      | .error fault => .error fault
      | .ok (ret, message, sock') =>
          let call := ⟨sock.rbuf.toList, ret, message⟩
          if ret > 0 then (popAll jansson fuel sock').map fun (calls, sock) => (call :: calls, sock)
          else .ok ([call], sock')

/-- The call returned a positive number if a complete message was buffered, and
`0` if none was. -/
def PopCall.Exact (call : PopCall J) : Prop :=
  0 ≤ call.ret ∧ (call.ret = 0 ↔ ¬ Complete call.buffered)

/-- On a part of a stream, the loop pops what is complete and leaves the rest. -/
theorem popAll_stream (todo : List (Sendable jansson)) (fuel : Nat) (sock : Socket)
    (hunwrapped : sock.Unwrapped)
    (hfront : sock.rbuf.toList <+: Framing.stream Sendable.encode todo)
    (hfuel : sock.rbuf.toList.length < fuel) :
    ∃ calls rbuf popped rest, popAll jansson fuel sock = .ok (calls, { sock with rbuf }) ∧
      todo = popped ++ rest ∧ calls.filterMap PopCall.message = popped.map Sendable.value ∧
      sock.rbuf.toList = Framing.stream Sendable.encode popped ++ rbuf.toList ∧
      Framing.Rest Sendable.encode rbuf.toList rest ∧ ∀ call ∈ calls, call.Exact := by
  induction fuel generalizing sock todo with
  | zero => omega
  | succ fuel ih =>
      have hpop := Socket.pop_unwrapped jansson hunwrapped
      have hreads := Socket.popMessage_reads jansson sock
      rcases Framing.prefix_stream_cases hfront with hrest | ⟨m, later, tail, rfl, hfront, htail⟩
      · have hmore := Framing.next_rest (readMessage_nil jansson)
          (fun m _ => reads_encode m) hrest
        rw [hmore] at hreads
        refine ⟨[⟨sock.rbuf.toList, 0, none⟩], sock.rbuf, [], todo, ?_, rfl, rfl, rfl, hrest, ?_⟩
        · rw [popAll, hpop, hreads]
          rfl
        · intro call hcall
          rw [List.mem_singleton.mp hcall]
          refine ⟨le_rfl, fun _ hcomplete => ?_, fun _ => rfl⟩
          -- a complete front would have been read as an item or refused
          rcases hrest with hnil | ⟨m, later, rfl, hcut, hne⟩
          · have h12 := hcomplete.1.1
            rw [hnil, List.length_nil] at h12
            omega
          · exact m.not_complete_cut hcut hne hcomplete
      · have hitem := (reads_encode m).complete tail
        rw [← hfront] at hitem
        rw [hitem] at hreads
        obtain ⟨hpos, hle, hrun⟩ := hreads
        have hdrop : (sock.rbuf.discard m.encode.length).2.toList = tail := by
          rw [Ring.discard_toList, hfront, List.drop_left' rfl]
        obtain ⟨calls, rbuf, popped, rest, hloop, hsplit, hvalues, hstream, hrest', hexact⟩ :=
          ih later { sock with rbuf := (sock.rbuf.discard m.encode.length).2 } hunwrapped
            (by rw [hdrop]; exact htail)
            (by rw [hdrop]; rw [hfront, List.length_append] at hfuel; omega)
        refine ⟨⟨sock.rbuf.toList, m.encode.length, some m.value⟩ :: calls, rbuf, m :: popped,
          rest, ?_, by rw [hsplit]; rfl, ?_, ?_, hrest', ?_⟩
        · rw [popAll, hpop, hrun]
          dsimp only
          rw [if_pos (by omega), hloop]
          rfl
        · rw [List.filterMap_cons, hvalues]
          rfl
        · rw [Framing.stream_cons, List.append_assoc, ← hstream, hdrop, hfront]
        · intro call hcall
          rcases List.mem_cons.mp hcall with rfl | hcall
          · refine ⟨by dsimp only; omega, fun hzero => ?_, fun hnot => ?_⟩
            · dsimp only at hzero
              omega
            · refine absurd ?_ hnot
              dsimp only
              rw [hfront]
              exact m.complete_encode tail
          · exact hexact call hcall

/-! ## Runs -/

/-- Two sockets and the bytes under way between them. `pushed` and `calls` record
what was pushed and what the pops returned, in order. -/
structure Link (jansson : Jansson J) where
  sender : Socket
  wire : Bytes
  receiver : Socket
  pushed : List (Sendable jansson)
  calls : List (PopCall J)

/-- A push, a send of at most `n` bytes, or the delivery of at most `n` bytes with
the pops that follow it. -/
inductive Link.Event (jansson : Jansson J) where
  | push (m : Sendable jansson)
  | send (n : Nat)
  | recv (n : Nat)

namespace Link

/-- Two fresh connections. -/
def init (jansson : Jansson J) (fd fd' : Nat) : Link jansson :=
  { sender := { fd, rbuf := .empty, wbuf := .empty, ws := none, err := "" }
    wire := []
    receiver := { fd := fd', rbuf := .empty, wbuf := .empty, ws := none, err := "" }
    pushed := []
    calls := [] }

def step (link : Link jansson) : Event jansson → Except Fault (Link jansson)
  | .push m =>
      let (_, sender) := link.sender.pushStr (fun _ => true) m.jsonstr m.bindata
      .ok { link with sender, pushed := link.pushed ++ [m] }
  | .send n =>
      let (_, sent, sender) := link.sender.sendpartial true (.ok n)
      .ok { link with sender, wire := link.wire ++ sent }
  | .recv n =>
      let chunk := (link.wire.take n).take recvBufLen
      let (_, receiver) := link.receiver.recvpartial true true (.ok chunk)
      match popAll jansson (receiver.rbuf.len + 1) receiver with
      | .error fault => .error fault
      | .ok (calls, receiver) =>
          .ok { link with
            receiver
            wire := link.wire.drop chunk.length
            calls := link.calls ++ calls }

def run (link : Link jansson) (events : List (Event jansson)) : Except Fault (Link jansson) :=
  events.foldlM step link

/-- The messages that the pops returned. -/
def popped (link : Link jansson) : List (Socket.Message J) := link.calls.filterMap PopCall.message

/-- What every run keeps: the pushed messages are those popped and those whose
bytes are still under way, and the inbuffer holds a part of the next one only. -/
structure Inv (link : Link jansson) : Prop where
  sender_ws : link.sender.ws = none
  receiver_ws : link.receiver.ws = none
  split : ∃ popped todo, link.pushed = popped ++ todo ∧
    link.popped = popped.map Sendable.value ∧
    link.receiver.rbuf.toList ++ link.wire ++ link.sender.wbuf.toList =
      Framing.stream Sendable.encode todo ∧
    Framing.Rest Sendable.encode link.receiver.rbuf.toList todo
  exact : ∀ call ∈ link.calls, call.Exact

theorem inv_init (jansson : Jansson J) (fd fd' : Nat) : Inv (init jansson fd fd') :=
  ⟨rfl, rfl, ⟨[], [], rfl, rfl, rfl, .inl rfl⟩, fun _ hcall => by cases hcall⟩

theorem inv_push {link : Link jansson} (h : link.Inv) (m : Sendable jansson) :
    ∃ link', link.step (.push m) = .ok link' ∧ link'.Inv ∧
      link'.pushed = link.pushed ++ [m] := by
  obtain ⟨popped, todo, hpushed, hpopped, hbytes, hrest⟩ := h.split
  obtain ⟨ret, wbuf, hrun, hwbuf⟩ := Socket.pushStr_plain h.sender_ws m.jsonstr m.bindata
  refine ⟨{ link with sender := { link.sender.started with wbuf }, pushed := link.pushed ++ [m] },
    by rw [step, hrun],
    ⟨(Socket.started_ws link.sender).trans h.sender_ws, h.receiver_ws, ?_, h.exact⟩, rfl⟩
  refine ⟨popped, todo ++ [m], by rw [hpushed, List.append_assoc], hpopped, ?_, ?_⟩
  · dsimp only
    rw [hwbuf, ← List.append_assoc, hbytes, Framing.stream_append, Framing.stream_cons,
      Framing.stream_nil, List.append_nil]
    rfl
  · rcases hrest with hnil | ⟨head, later, rfl, hcut, hne⟩
    · exact .inl hnil
    · exact .inr ⟨head, later ++ [m], rfl, hcut, hne⟩

theorem inv_send {link : Link jansson} (h : link.Inv) (n : Nat) :
    ∃ link', link.step (.send n) = .ok link' ∧ link'.Inv ∧ link'.pushed = link.pushed := by
  obtain ⟨popped, todo, hpushed, hpopped, hbytes, hrest⟩ := h.split
  obtain ⟨ret, sent, wbuf, hrun, hsent⟩ := Socket.sendpartial_ok link.sender n
  refine ⟨{ link with sender := { link.sender with wbuf }, wire := link.wire ++ sent },
    by rw [step, hrun], ⟨h.sender_ws, h.receiver_ws, ?_, h.exact⟩, rfl⟩
  refine ⟨popped, todo, hpushed, hpopped, ?_, hrest⟩
  dsimp only
  rw [← hbytes, ← hsent]
  simp only [List.append_assoc]

theorem inv_recv {link : Link jansson} (h : link.Inv) (n : Nat) :
    ∃ link', link.step (.recv n) = .ok link' ∧ link'.Inv ∧ link'.pushed = link.pushed := by
  obtain ⟨popped, todo, hpushed, hpopped, hbytes, hrest⟩ := h.split
  let chunk := (link.wire.take n).take recvBufLen
  have hchunk : chunk = link.wire.take (min recvBufLen n) := List.take_take
  have hwire : chunk ++ link.wire.drop chunk.length = link.wire := by
    have hfront : chunk <+: link.wire := hchunk ▸ List.take_prefix _ _
    obtain ⟨tail, htail⟩ := hfront
    rw [← htail, List.drop_left' rfl]
  obtain ⟨ret, rbuf, hrecv, hrbuf⟩ := Socket.recvpartial_plain h.receiver_ws chunk
  have htake : chunk.take recvBufLen = chunk := by rw [List.take_take, Nat.min_self]
  rw [htake] at hrbuf
  have hstream : rbuf.toList ++ (link.wire.drop chunk.length ++ link.sender.wbuf.toList) =
      Framing.stream Sendable.encode todo := by
    rw [hrbuf, ← hbytes, ← List.append_assoc, List.append_assoc _ chunk, hwire]
  obtain ⟨calls, rbuf', taken, rest, hloop, htodo, hvalues, hfront, hrest', hexact⟩ :=
    popAll_stream todo (rbuf.len + 1) { link.receiver with rbuf }
      (Socket.unwrapped_of_none h.receiver_ws) ⟨_, hstream⟩
      (by rw [Ring.length_toList]; exact Nat.lt_succ_self _)
  refine ⟨{ link with
    receiver := { link.receiver with rbuf := rbuf' }
    wire := link.wire.drop chunk.length
    calls := link.calls ++ calls }, ?_, ⟨h.sender_ws, h.receiver_ws, ?_, ?_⟩, rfl⟩
  · rw [step, hrecv]
    dsimp only
    rw [hloop]
  · refine ⟨popped ++ taken, rest, by rw [hpushed, htodo, List.append_assoc], ?_, ?_, hrest'⟩
    · rw [Link.popped, List.filterMap_append, hvalues, List.map_append, ← hpopped]
      rfl
    · dsimp only at hfront ⊢
      rw [hfront, htodo, Framing.stream_append, List.append_assoc] at hstream
      rw [List.append_assoc]
      exact List.append_cancel_left hstream
  · intro call hcall
    rcases List.mem_append.mp hcall with hold | hnew
    · exact h.exact call hold
    · exact hexact call hnew

theorem inv_step {link : Link jansson} (h : link.Inv) (event : Event jansson) :
    ∃ link', link.step event = .ok link' ∧ link'.Inv := by
  cases event with
  | push m =>
      obtain ⟨link', hrun, hinv, _⟩ := inv_push h m
      exact ⟨link', hrun, hinv⟩
  | send n =>
      obtain ⟨link', hrun, hinv, _⟩ := inv_send h n
      exact ⟨link', hrun, hinv⟩
  | recv n =>
      obtain ⟨link', hrun, hinv, _⟩ := inv_recv h n
      exact ⟨link', hrun, hinv⟩

theorem inv_run {link : Link jansson} (h : link.Inv) (events : List (Event jansson)) :
    ∃ link', link.run events = .ok link' ∧ link'.Inv := by
  induction events generalizing link with
  | nil => exact ⟨link, rfl, h⟩
  | cons event events ih =>
      obtain ⟨middle, hstep, hmiddle⟩ := inv_step h event
      obtain ⟨link', hrun, hinv⟩ := ih hmiddle
      exact ⟨link', by rw [run, List.foldlM_cons, hstep]; exact hrun, hinv⟩

end Link

end Dime
