import Dime.Foundation.BigEndian
import Dime.Server.Runtime

/-!
# Sockets

A connection with its in- and outbuffer. Messages go out and come in as a
twelve-byte header, JSON text and binary data, on WebSocket connections wrapped
in one binary frame each. TLS and compression are never switched on by the
server and are left out.
-/

namespace Dime

/-- The watchers of a socket, active or not. -/
structure Watchers where
  rwatcher : Bool
  wwatcher : Bool
  deriving DecidableEq, Repr

/-- `ev_io_start(sock->loop, &sock->wwatcher)`. -/
def Watchers.startWrite (watchers : Watchers) : Watchers := { watchers with wwatcher := true }

/-- `ev_io_stop(loop, &sock->wwatcher)`. -/
def Watchers.stopWrite (watchers : Watchers) : Watchers := { watchers with wwatcher := false }

/-- `dime_socket_t`. -/
structure Socket where
  fd : Nat
  rbuf : Ring
  wbuf : Ring
  /-- The inbuffer of the frame layer, where WebSocket is enabled. -/
  ws : Option Ring
  err : String
  /-- The watchers, once the socket belongs to a libev loop. -/
  ev : Option Watchers := none

/-- The magic and the two lengths of a `dime_header_t`. -/
def magic : Bytes := [0x44, 0x69, 0x4D, 0x45]

/-- `strerror(errno)` after a failed allocation. -/
def strerror : String := "Cannot allocate memory"

/-- `SENDBUFLEN`. -/
def sendBufLen : Nat := 200000000

/-- `RECVBUFLEN`. -/
def recvBufLen : Nat := 200000000

namespace Socket

/-- `dime_socket_init`. -/
def init (mallocR mallocW : Bool) (fd : Nat) : Option Socket :=
  match Ring.init mallocR with
  | none => none
  | some rbuf => (Ring.init mallocW).map fun wbuf => { fd, rbuf, wbuf, ws := none, err := "" }

/-! ## Sending -/

/-- The header of `dime_socket_push_str`; `htonl` keeps 32 bits of a length. -/
def header (jsondataLen bindataLen : Nat) : Bytes :=
  magic ++ BigEndian.encode 4 jsondataLen ++ BigEndian.encode 4 bindataLen

/-- The frame header of `dime_socket_push_str`. Its `assert` holds of every
length that fits in memory. -/
def wsHeader (payloadLen : Nat) : Bytes :=
  if payloadLen < 126 then [0x82, UInt8.ofNat payloadLen]
  else if payloadLen < 2 ^ 16 then 0x82 :: 126 :: BigEndian.encode 2 payloadLen
  else 0x82 :: 127 :: BigEndian.encode 8 payloadLen

/-- A push to an empty outbuffer starts the write watcher. -/
def started (sock : Socket) : Socket :=
  if sock.wbuf.len = 0 then { sock with ev := sock.ev.map Watchers.startWrite } else sock

/-- `dime_socket_push_str`. `realloc i` says whether the growth in its `i`-th
write succeeds, should it be needed. -/
def pushStr (realloc : Nat → Bool) (sock : Socket) (jsonstr : CString) (bindata : Bytes) :
    Int × Socket :=
  let sock := sock.started
  let hdr := header jsonstr.length bindata.length
  let wsHdr :=
    if sock.ws.isSome then wsHeader (12 + jsonstr.length + bindata.length) else []
  let (ret, wbuf) := sock.wbuf.write (realloc 0) wsHdr
  if LtSize ret wsHdr.length then (-1, { sock with wbuf, err := strerror })
  else
    let (ret, wbuf) := wbuf.write (realloc 1) hdr
    -- this comparison alone is signed and sees a failed write
    if ret < 12 then (-1, { sock with wbuf, err := strerror })
    else
      let (ret, wbuf) := wbuf.write (realloc 2) jsonstr.1
      if LtSize ret jsonstr.length then (-1, { sock with wbuf, err := strerror })
      else
        let (ret, wbuf) := wbuf.write (realloc 3) bindata
        if LtSize ret bindata.length then (-1, { sock with wbuf, err := strerror })
        else
          ((12 + wsHdr.length + jsonstr.length + bindata.length : Nat), { sock with wbuf })

@[simp] theorem started_wbuf (sock : Socket) : sock.started.wbuf = sock.wbuf := by
  unfold started
  split <;> rfl

@[simp] theorem started_ws (sock : Socket) : sock.started.ws = sock.ws := by
  unfold started
  split <;> rfl

@[simp] theorem started_rbuf (sock : Socket) : sock.started.rbuf = sock.rbuf := by
  unfold started
  split <;> rfl

theorem started_ev (sock : Socket) : sock.started.ev =
    if sock.wbuf.toList = [] then sock.ev.map Watchers.startWrite else sock.ev := by
  have hempty : sock.wbuf.toList = [] ↔ sock.wbuf.len = 0 := by
    rw [← Ring.length_toList, List.length_eq_zero_iff]
  rw [started, if_congr hempty rfl rfl]
  split <;> rfl

/-- With the allocations succeeding, a push appends the message to the outbuffer, on
a WebSocket connection behind a frame header. -/
theorem pushStr_succeed (sock : Socket) (jsonstr : CString) (bindata : Bytes) :
    ∃ ret wbuf, sock.pushStr (fun _ => true) jsonstr bindata = (ret, { sock.started with wbuf }) ∧
      ret = ((12 + (if sock.ws.isSome then wsHeader (12 + jsonstr.length + bindata.length)
        else []).length + jsonstr.length + bindata.length : Nat) : Int) ∧
      wbuf.toList = sock.wbuf.toList ++
        ((if sock.ws.isSome then wsHeader (12 + jsonstr.length + bindata.length) else []) ++
          (header jsonstr.length bindata.length ++ jsonstr.1 ++ bindata)) := by
  have hheader : (header jsonstr.length bindata.length).length = 12 := by simp [header, magic]
  generalize hws : (if sock.ws.isSome then wsHeader (12 + jsonstr.length + bindata.length)
    else []) = wsHdr
  refine ⟨((12 + wsHdr.length + jsonstr.length + bindata.length : Nat) : Int),
    ((((sock.wbuf.write true wsHdr).2.write true (header jsonstr.length bindata.length)).2.write
      true jsonstr.1).2.write true bindata).2, ?_, rfl, by simp⟩
  rw [CString.length] at hheader hws ⊢
  simp only [pushStr, started_ws, started_wbuf, hws, Ring.write_true_fst, CString.length, not_ltSize_natCast, if_false,
    hheader]
  rfl

/-- `dime_socket_push`; `dump` says whether `json_dumps` finds memory. -/
def push {J : Type} (jansson : Jansson J) (dump : Bool) (realloc : Nat → Bool) (sock : Socket)
    (jsondata : J) (bindata : Bytes) : Int × Socket :=
  if dump then sock.pushStr realloc (jansson.dumps jsondata) bindata
  else (-1, { sock with err := "Can't encode JSON data" })

/-- `dime_socket_sendpartial`, on a kernel that takes at most `accepted` bytes or
reports an error: what it returns, the bytes that leave, and the socket after. -/
def sendpartial (malloc : Bool) (accepted : Except String Nat) (sock : Socket) :
    Int × Bytes × Socket :=
  if malloc then
    let buf := sock.wbuf.peek sendBufLen
    match accepted with
    | .error err => (-1, [], { sock with err })
    | .ok n =>
        let sent := buf.take n
        (sent.length, sent, { sock with wbuf := (sock.wbuf.discard sent.length).2 })
  else (-1, [], sock)

/-! ## Receiving -/

/-- `dime_socket_recvpartial`, on a kernel that delivers `chunk` or reports an
error. -/
def recvpartial (malloc realloc : Bool) (chunk : Except String Bytes) (sock : Socket) :
    Int × Socket :=
  if malloc then
    match chunk with
    | .error err => (-1, { sock with err })
    | .ok chunk =>
        let buf := chunk.take recvBufLen
        match sock.ws with
        | some ws =>
            let (ret, ws) := ws.write realloc buf
            if ret < 0 then (-1, { sock with err := strerror })
            else (buf.length, { sock with ws := some ws })
        | none =>
            let (ret, rbuf) := sock.rbuf.write realloc buf
            if ret < 0 then (-1, { sock with err := strerror })
            else (buf.length, { sock with rbuf })
  else (-1, { sock with err := strerror })

/-- The allocations of `dime_socket_pop`, the ones for its `i`-th frame first. -/
structure PopAlloc where
  frame : Nat → Bool
  payload : Nat → Bool
  buf : Bool
  bindata : Bool

/-- No allocation fails. -/
def PopAlloc.succeed : PopAlloc := ⟨fun _ => true, fun _ => true, true, true⟩

/-- The header length, the payload length and the mask of a frame, once enough of
its header is there. -/
def frameHeader (wsHdr : Bytes) : Option (Nat × Nat × Bytes) :=
  let len := (wsHdr.getD 1 0 &&& 0x7F).toNat
  if len < 126 ∧ wsHdr.length ≥ 6 then some (6, len, (wsHdr.drop 2).take 4)
  else if len = 126 ∧ wsHdr.length ≥ 8 then
    some (8, BigEndian.decode ((wsHdr.drop 2).take 2), (wsHdr.drop 4).take 4)
  else if len = 127 ∧ wsHdr.length = 14 then
    some (14, BigEndian.decode ((wsHdr.drop 2).take 8), (wsHdr.drop 10).take 4)
  else none

def unmask (mask frame : Bytes) : Bytes :=
  frame.mapIdx fun i byte => byte ^^^ mask.getD (i % 4) 0

/-- The frame loop of `dime_socket_pop`; `false` makes it return `-1`. Every round
that does not end it discards a frame. -/
def popFrames (alloc : PopAlloc) : Nat → Nat → Socket → Ring → Except Fault (Bool × Socket)
  | 0, _, _, _ => .error .diverges
  | fuel + 1, i, sock, ws =>
      let sock := { sock with ws := some ws }
      let wsHdr := ws.peek 14
      match frameHeader wsHdr with
      | none => .ok (true, sock)
      | some (hdrLen, frameLen, mask) =>
          if wsHdr.getD 1 0 &&& 0x80 = 0 then .ok (false, sock)
          else if ¬ alloc.frame i then .ok (false, sock)
          else
            let msgsiz := (hdrLen + frameLen) % 2 ^ 64
            let msg := ws.peek msgsiz
            if msg.length = msgsiz then
              -- the unmasking loop runs over `frameLen` bytes of a buffer of `msgsiz`
              if msgsiz < hdrLen + frameLen then .error .outOfBounds
              else
                let frame := unmask mask (msg.drop hdrLen)
                let (ret, rbuf) := sock.rbuf.write (alloc.payload i) frame
                if ret < 0 then .ok (false, { sock with err := strerror })
                else popFrames alloc fuel (i + 1) { sock with rbuf } (ws.discard msgsiz).2
            else .ok (true, sock)

/-- What `dime_socket_pop` hands out. -/
structure Message (J : Type) where
  jsondata : J
  bindata : Bytes

variable {J : Type}

/-- The part of `dime_socket_pop` after its frame loop. The sum of the lengths is
taken modulo `2 ^ 32`, since its operands are an `int` and two `uint32_t`. -/
def popMessage (jansson : Jansson J) (alloc : PopAlloc) (sock : Socket) :
    Except Fault (Int × Option (Message J) × Socket) :=
  let hdr := sock.rbuf.peek 12
  if hdr.length = 12 then
    if hdr.take 4 ≠ magic then .ok (-1, none, { sock with err := "Invalid DiME header" })
    else
      let jsondataLen := BigEndian.decode ((hdr.drop 4).take 4)
      let bindataLen := BigEndian.decode ((hdr.drop 8).take 4)
      let msgsiz := (12 + jsondataLen + bindataLen) % 2 ^ 32
      if ¬ alloc.buf then .ok (-1, none, { sock with err := strerror })
      else
        let buf := sock.rbuf.peek msgsiz
        if buf.length = msgsiz then
          match jansson.loadbFrom (buf.drop 12) jsondataLen with
          | .error fault => .error fault
          | .ok (.error text) => .ok (-1, none, { sock with err := text })
          | .ok (.ok jsondata) =>
              if ¬ alloc.bindata then .ok (-1, none, { sock with err := strerror })
              -- the copy of the binary data reads up to this sum
              else if msgsiz < 12 + jsondataLen + bindataLen then .error .outOfBounds
              else
                .ok (msgsiz, some ⟨jsondata, (buf.drop (12 + jsondataLen)).take bindataLen⟩,
                  { sock with rbuf := (sock.rbuf.discard msgsiz).2 })
        else .ok (0, none, sock)
  else .ok (0, none, sock)

/-- `dime_socket_pop`. -/
def pop (jansson : Jansson J) (alloc : PopAlloc) (sock : Socket) :
    Except Fault (Int × Option (Message J) × Socket) :=
  match sock.ws with
  | none => sock.popMessage jansson alloc
  | some ws =>
      match popFrames alloc (ws.len + 1) 0 sock ws with
      | .error fault => .error fault
      | .ok (false, sock) => .ok (-1, none, sock)
      | .ok (true, sock) => sock.popMessage jansson alloc

end Socket

end Dime
