import Dime.Server.State

/-!
# The commands

The handlers of the server's commands. Each returns the `int` of its source and
the state it leaves, or the fault that the program runs into.
-/

namespace Dime

/-- `{"status":0}`. -/
def statusOkText : CString :=
  ⟨[0x7B, 0x22, 0x73, 0x74, 0x61, 0x74, 0x75, 0x73, 0x22, 0x3A, 0x30, 0x7D], by decide⟩

/-- `{"status":-1,"error":text}`. -/
def errorReply (text : String) : Json :=
  .object [("status", .integer (-1)), ("error", .string text)]

/-- `{"status":0,"n":n}`, with `n` cast to `json_int_t`. -/
def countReply (n : Nat) : Json :=
  .object [("status", .integer 0), ("n", .integer (Int64.ofNat n))]

/-- The message that makes clients switch to dimeb. -/
def reregisterMeta : Json :=
  .object [("status", .integer 1), ("meta", .bool true), ("command", .string "reregister"),
    ("serialization", .string "dimeb")]

def handshakeReply (serialization : String) (tls : Bool) : Json :=
  .object [("status", .integer 0), ("serialization", .string serialization), ("tls", .bool tls)]

def devicesReply (names : List String) : Json :=
  .object [("status", .integer 0), ("devices", .array (names.map Json.string))]

namespace Serialization

/-- The comparisons of `dime_client_handshake` with the names it knows. -/
def ofName (name : String) : Option Serialization :=
  if name = "matlab" then some .matlab
  else if name = "pickle" then some .pickle
  else if name = "dimeb" then some .dimeb
  else if name = "json" then some .json
  else none

/-- The name that a handshake is answered with; `requested` where the `switch`
has no case. -/
def name (requested : String) : Serialization → String
  | .noSerialization => requested
  | .matlab => "matlab"
  | .pickle => "pickle"
  | .dimeb => "dimeb"
  | .json => "json"

end Serialization

/-! ## Pushing to a client -/

namespace Client

/-- `dime_socket_push_str` on the socket of a client. -/
def pushStr (write : Nat → Bool) (clnt : Client) (out : Outgoing) (jsonstr : CString)
    (bindata : Bytes) : Int × Client :=
  let (ret, sock) := clnt.sock.pushStr write jsonstr bindata
  (ret, { clnt with sock, sent := if ret < 0 then clnt.sent else clnt.sent ++ [out] })

/-- `dime_socket_push` of a JSON object on the socket of a client. -/
def push (jansson : Jansson Json) (alloc : PushAlloc) (clnt : Client) (body : Json) :
    Int × Client :=
  let (ret, sock) := clnt.sock.push jansson alloc.dump alloc.write body []
  (ret, { clnt with sock, sent := if ret < 0 then clnt.sent else clnt.sent ++ [.json body] })

end Client

namespace Server

variable (jansson : Jansson Json)

def setClient (srv : Server) (c : ClientPtr) (clnt : Client) : Server :=
  { srv with clnts := srv.clnts.write c clnt }

def setGroup (srv : Server) (g : GroupPtr) (group : Group) : Server :=
  { srv with groups := srv.groups.write g group }

def pushStrTo (write : Nat → Bool) (srv : Server) (c : ClientPtr) (out : Outgoing)
    (jsonstr : CString) (bindata : Bytes) : Except Fault (Int × Server) := do
  let clnt ← deref srv.clnts c
  let (ret, clnt) := clnt.pushStr write out jsonstr bindata
  return (ret, srv.setClient c clnt)

def pushTo (alloc : PushAlloc) (srv : Server) (c : ClientPtr) (body : Json) :
    Except Fault (Int × Server) := do
  let clnt ← deref srv.clnts c
  let (ret, clnt) := clnt.push jansson alloc body
  return (ret, srv.setClient c clnt)

/-- The steps that every failure of a handler takes: note the error, reply to a
client with it if memory allows, and return `-1`. -/
def refuse (alloc : ReplyAlloc) (srv : Server) (c : ClientPtr) (text : String) :
    Except Fault (Int × Server) := do
  let srv := { srv with err := text }
  if alloc.pack then
    let (_, srv) ← srv.pushTo jansson alloc.push c (errorReply text)
    return (-1, srv)
  else return (-1, srv)

/-- The last step of the handlers that reply with `{"status":0}`. -/
def finish (alloc : Alloc) (srv : Server) (c : ClientPtr) : Except Fault (Int × Server) := do
  let (ret, srv) ← srv.pushStrTo (alloc.reply 0 1).push.write c .statusOk statusOkText []
  if ret < 0 then srv.refuse jansson (alloc.reply 0 2) c strerror
  else return (0, srv)

/-- The text of a failed `json_unpack_ex`. -/
def parsingError (jsondata : Json) (format : String) : String :=
  "JSON parsing error: " ++ jansson.unpackText jsondata format

/-! ## handshake -/

/-- Push the reregister message to every client of the list but `c`. -/
def reregister (alloc : Alloc) (c : ClientPtr) :
    Nat → List ClientPtr → Server → Except Fault (Bool × Server)
  | _, [], srv => return (true, srv)
  | i, other :: rest, srv => do
      if other ≠ c then
        let (ret, srv) ← srv.pushStrTo (alloc.reply (i + 1) 0).push.write other
          (.json reregisterMeta) (jansson.dumps reregisterMeta) []
        if ret < 0 then return (false, srv)
        else reregister alloc c (i + 1) rest srv
      else reregister alloc c (i + 1) rest srv

/-- Settle on a serialization; `false` makes the handler return `-1`. -/
def negotiate (alloc : Alloc) (srv : Server) (c : ClientPtr) (requested : Serialization) :
    Except Fault (Bool × Server) := do
  if srv.serialization = .noSerialization then
    return (true, { srv with serialization := requested })
  else if srv.serialization ≠ requested ∧ srv.serialization ≠ .dimeb ∧
      srv.serialization ≠ .json then
    -- the message and its text
    if ¬ alloc.malloc 0 0 then return (false, srv)
    else if ¬ alloc.malloc 0 1 then return (false, srv)
    else
      let (ok, srv) ← reregister jansson alloc c 0 (srv.fd2clnt.iterate.map Entry.val) srv
      if ok then return (true, { srv with serialization := .dimeb })
      else return (false, srv)
  else return (true, srv)

/-- `dime_client_handshake`. The server has no TLS context, so `tls` is false in
the reply and no TLS handshake follows. -/
def handshake (alloc : Alloc) (srv : Server) (c : ClientPtr) (jsondata : Json) :
    Except Fault (Int × Server) := do
  match jsondata.unpackString "serialization", jsondata.unpackBool "tls" with
  | some serialization, some _ =>
      match Serialization.ofName serialization with
      -- a name that it does not know is left without an answer
      | none => return (-1, srv)
      | some requested =>
          let (ok, srv) ← srv.negotiate jansson alloc c requested
          if ¬ ok then return (-1, srv)
          else if ¬ (alloc.reply 0 0).pack then return (-1, srv)
          else
            let (ret, srv) ← srv.pushTo jansson (alloc.reply 0 0).push c
              (handshakeReply (srv.serialization.name serialization) false)
            if ret < 0 then return (-1, srv) else return (0, srv)
  | _, _ => srv.refuse jansson (alloc.reply 0 0) c (parsingError jansson jsondata "{sssb}")

/-! ## join and leave -/

/-- The first group of the list with the given name, with its index. -/
def findNamed (groups : Heap Group) (name : String) :
    Nat → List GroupPtr → Except Fault (Option (Nat × GroupPtr × Group))
  | _, [] => return none
  | i, g :: rest => do
      let group ← deref groups g
      if name = group.name then return some (i, g, group)
      else findNamed groups name (i + 1) rest

/-- The loop of `json_array_foreach` in `join` and `leave`: handle each element
until one is refused. -/
def eachName (handle : Nat → Server → Json → Except Fault (Bool × Server)) :
    Nat → List Json → Server → Except Fault (Bool × Server)
  | _, [], srv => return (true, srv)
  | i, v :: rest, srv => do
      let (ok, srv) ← handle (i + 1) srv v
      if ok then eachName handle (i + 1) rest srv else return (false, srv)

/-- The group of a name, made where there is none; `none` if memory runs out. -/
def obtainGroup (alloc : Alloc) (i : Nat) (srv : Server) (name : String) :
    Except Fault (Option GroupPtr × Server) := do
  let (found, name2clnt) ← ended (srv.name2clnt.search name)
  let srv := { srv with name2clnt }
  match found with
  | some g => return (some g, srv)
  | none =>
      -- the group, its name and its array of clients
      if ¬ alloc.malloc i 0 then return (none, srv)
      else if ¬ alloc.malloc i 1 then return (none, srv)
      else if ¬ alloc.malloc i 2 then return (none, srv)
      else
        let g := srv.groups.next
        let (ret, name2clnt) ←
          ended (srv.name2clnt.insert (alloc.malloc i 3) (alloc.malloc i 4) name g)
        let srv := { srv with name2clnt }
        if ret < 0 then return (none, srv)
        else return (some g, { srv with groups := srv.groups.alloc { name, clnts := .empty } })

/-- Enter a client and a group into each other's arrays; `false` if memory runs out. -/
def enter (alloc : Alloc) (i : Nat) (srv : Server) (c : ClientPtr) (g : GroupPtr) :
    Except Fault (Bool × Server) := do
  let clnt ← deref srv.clnts c
  match clnt.groups.reserve (alloc.malloc i 5) with
  | none => return (false, srv)
  | some groups =>
      let group ← deref srv.groups g
      match group.clnts.reserve (alloc.malloc i 6) with
      -- the array of the client has grown by then
      | none => return (false, srv.setClient c { clnt with groups := groups.1 })
      | some clnts =>
          let srv := srv.setClient c { clnt with groups := GrowArray.push groups g }
          return (true, srv.setGroup g { group with clnts := GrowArray.push clnts c })

/-- One round of the loop of `dime_client_join`. -/
def joinName (alloc : Alloc) (c : ClientPtr) (i : Nat) (srv : Server) (v : Json) :
    Except Fault (Bool × Server) := do
  match v with
  | .string name =>
      let clnt ← deref srv.clnts c
      match ← findNamed srv.groups name 0 clnt.groups.items with
      | some _ =>
          let (_, srv) ← srv.refuse jansson (alloc.reply i 0) c
            ("Client is already in group: " ++ name)
          return (false, srv)
      | none =>
          let (found, srv) ← srv.obtainGroup alloc i name
          match found with
          | none =>
              let (_, srv) ← srv.refuse jansson (alloc.reply i 0) c strerror
              return (false, srv)
          | some g =>
              let (ok, srv) ← srv.enter alloc i c g
              if ok then return (true, srv)
              else
                let (_, srv) ← srv.refuse jansson (alloc.reply i 0) c strerror
                return (false, srv)
  | _ =>
      let (_, srv) ← srv.refuse jansson (alloc.reply i 0) c "JSON parsing error: expected string"
      return (false, srv)

/-- `dime_client_join`. -/
def join (alloc : Alloc) (srv : Server) (c : ClientPtr) (jsondata : Json) :
    Except Fault (Int × Server) := do
  match jsondata.get? "name" with
  | none => srv.refuse jansson (alloc.reply 0 0) c (parsingError jansson jsondata "{so}")
  | some arr =>
      let (ok, srv) ← eachName (joinName jansson alloc c) 0 arr.elements srv
      if ok then srv.finish jansson alloc c else return (-1, srv)

/-- One round of the loop of `dime_client_leave`. -/
def leaveName (alloc : Alloc) (c : ClientPtr) (i : Nat) (srv : Server) (v : Json) :
    Except Fault (Bool × Server) := do
  match v with
  | .string name =>
      let clnt ← deref srv.clnts c
      match ← findNamed srv.groups name 0 clnt.groups.items with
      | some (k, g, group) =>
          match group.clnts.items.findIdx? (· = c) with
          | some j =>
              let srv := srv.setGroup g { group with clnts := group.clnts.removeAt j }
              return (true, srv.setClient c { clnt with groups := clnt.groups.removeAt k })
          -- `assert(0)`
          | none => throw .assertFailed
      | none =>
          let (_, srv) ← srv.refuse jansson (alloc.reply i 0) c ("Client is not in group: " ++ name)
          return (false, srv)
  | _ =>
      let (_, srv) ← srv.refuse jansson (alloc.reply i 0) c "JSON parsing error: expected string"
      return (false, srv)

/-- `dime_client_leave`. -/
def leave (alloc : Alloc) (srv : Server) (c : ClientPtr) (jsondata : Json) :
    Except Fault (Int × Server) := do
  match jsondata.get? "name" with
  | none => srv.refuse jansson (alloc.reply 0 0) c (parsingError jansson jsondata "{so}")
  | some arr =>
      let (ok, srv) ← eachName (leaveName jansson alloc c) 0 arr.elements srv
      if ok then srv.finish jansson alloc c else return (-1, srv)

/-! ## send and broadcast -/

/-- Drop a reference to a message and free it with the last one. -/
def unref (srv : Server) (p : MsgPtr) : Except Fault Server := do
  let msg ← deref srv.msgs p
  let refs := predUInt msg.refs
  if refs = 0 then return { srv with msgs := srv.msgs.free p }
  else return { srv with msgs := srv.msgs.write p { msg with refs } }

/-- Tell a waiting client how many messages it has; `false` if memory runs out. -/
def notify (alloc : Alloc) (i : Nat) (srv : Server) (other : ClientPtr) :
    Except Fault (Bool × Server) := do
  let clnt ← deref srv.clnts other
  if clnt.waiting then
    if (alloc.reply i 0).pack then
      let (ret, srv) ←
        srv.pushTo jansson (alloc.reply i 0).push other (countReply clnt.queue.len)
      if ret < 0 then
        -- the error goes to the client that waits, not to the sender
        let (_, srv) ← srv.refuse jansson (alloc.reply i 1) other strerror
        return (false, srv)
      else
        let clnt ← deref srv.clnts other
        return (true, srv.setClient other { clnt with waiting := false })
    else
      let (_, srv) ← srv.refuse jansson (alloc.reply i 1) other strerror
      return (false, srv)
  else return (true, srv)

/-- One round of the loops of `dime_client_send` and `dime_client_broadcast`:
queue message `p` for client `other`. -/
def enqueue (alloc : Alloc) (c : ClientPtr) (p : MsgPtr) (i : Nat) (srv : Server)
    (other : ClientPtr) : Except Fault (Bool × Server) := do
  let clnt ← deref srv.clnts other
  match clnt.queue.pushr (alloc.malloc i 0) p with
  | none =>
      let msg ← deref srv.msgs p
      -- only a message that counts no recipient is freed
      let srv := if msg.refs = 0 then { srv with msgs := srv.msgs.free p } else srv
      let (_, srv) ← srv.refuse jansson (alloc.reply i 2) c strerror
      return (false, srv)
  | some queue =>
      -- queued now, and counted only after the notification
      let srv := srv.setClient other { clnt with queue }
      let (ok, srv) ← srv.notify jansson alloc i other
      if ok then
        let msg ← deref srv.msgs p
        return (true, { srv with msgs := srv.msgs.write p { msg with refs := msg.refs + 1 } })
      else return (false, srv)

/-- The loop of `dime_client_send` over the clients of a group. -/
def sendAll (alloc : Alloc) (c : ClientPtr) (p : MsgPtr) :
    Nat → List ClientPtr → Server → Except Fault (Bool × Server)
  | _, [], srv => return (true, srv)
  | i, other :: rest, srv => do
      let (ok, srv) ← srv.enqueue jansson alloc c p (i + 1) other
      if ok then sendAll alloc c p (i + 1) rest srv else return (false, srv)

/-- `dime_client_send`. -/
def send (alloc : Alloc) (srv : Server) (c : ClientPtr) (jsondata : Json) (bindata : Bytes) :
    Except Fault (Int × Server) := do
  match jsondata.unpackString "name" with
  | none => srv.refuse jansson (alloc.reply 0 0) c (parsingError jansson jsondata "{ss}")
  | some name =>
      let (found, name2clnt) ← ended (srv.name2clnt.search name)
      let srv := { srv with name2clnt }
      match found with
      | none => srv.refuse jansson (alloc.reply 0 0) c ("No such group exists: " ++ name)
      | some g =>
          let group ← deref srv.groups g
          if group.clnts.items.length = 0 then
            srv.refuse jansson (alloc.reply 0 0) c ("No such group exists: " ++ name)
          -- the message, and the text of its JSON
          else if ¬ alloc.malloc 0 0 then srv.refuse jansson (alloc.reply 0 0) c strerror
          else if ¬ alloc.malloc 0 1 then srv.refuse jansson (alloc.reply 0 0) c strerror
          else
            let p := srv.msgs.next
            let msg := { refs := 0, jsondata := jansson.dumps jsondata, bindata }
            let srv := { srv with msgs := srv.msgs.alloc msg }
            let (ok, srv) ← sendAll jansson alloc c p 0 group.clnts.items srv
            if ok then
              let msg ← deref srv.msgs p
              -- `assert(msg->refs > 0)`
              if msg.refs > 0 then srv.finish jansson alloc c else throw .assertFailed
            else return (-1, srv)

/-- The loop of `dime_client_broadcast` over the clients of the server. -/
def broadcastAll (alloc : Alloc) (c : ClientPtr) (p : MsgPtr) :
    Nat → List ClientPtr → Server → Except Fault (Bool × Server)
  | _, [], srv => return (true, srv)
  | i, other :: rest, srv => do
      let clnt ← deref srv.clnts c
      let peer ← deref srv.clnts other
      -- the sender is told apart by its descriptor
      if clnt.fd ≠ peer.fd then
        let (ok, srv) ← srv.enqueue jansson alloc c p (i + 1) other
        if ok then broadcastAll alloc c p (i + 1) rest srv else return (false, srv)
      else broadcastAll alloc c p (i + 1) rest srv

/-- `dime_client_broadcast`. -/
def broadcast (alloc : Alloc) (srv : Server) (c : ClientPtr) (jsondata : Json)
    (bindata : Bytes) : Except Fault (Int × Server) := do
  if ¬ alloc.malloc 0 0 then srv.refuse jansson (alloc.reply 0 0) c strerror
  else if ¬ alloc.malloc 0 1 then srv.refuse jansson (alloc.reply 0 0) c strerror
  else
    let p := srv.msgs.next
    let msg := { refs := 0, jsondata := jansson.dumps jsondata, bindata }
    let srv := { srv with msgs := srv.msgs.alloc msg }
    let (ok, srv) ←
      broadcastAll jansson alloc c p 0 (srv.fd2clnt.iterate.map Entry.val) srv
    if ok then
      let msg ← deref srv.msgs p
      let srv := if msg.refs = 0 then { srv with msgs := srv.msgs.free p } else srv
      srv.finish jansson alloc c
    else return (-1, srv)

/-! ## sync, wait and devices -/

/-- The loop of `dime_client_sync`, for at most so many messages. -/
def relay (alloc : Alloc) (c : ClientPtr) : Nat → Nat → Server → Except Fault (Bool × Server)
  | 0, _, srv => return (true, srv)
  | m + 1, i, srv => do
      let clnt ← deref srv.clnts c
      match clnt.queue.popl with
      | none => return (true, srv)
      | some (p, queue) =>
          let srv := srv.setClient c { clnt with queue }
          let msg ← deref srv.msgs p
          let (ret, srv) ← srv.pushStrTo (alloc.reply (i + 1) 0).push.write c
            (.relay p msg.jsondata msg.bindata) msg.jsondata msg.bindata
          if ret < 0 then
            let clnt ← deref srv.clnts c
            -- back to the front; the result of `dime_deque_pushl` is not looked at
            match clnt.queue.pushl (alloc.malloc (i + 1) 0) p with
            | none => return (false, srv)
            | some queue => return (false, srv.setClient c { clnt with queue })
          else
            let srv ← srv.unref p
            relay alloc c m (i + 1) srv

/-- `dime_client_sync`. -/
def sync (alloc : Alloc) (srv : Server) (c : ClientPtr) (jsondata : Json) :
    Except Fault (Int × Server) := do
  match jsondata.unpackInt "n" with
  -- a `sync` without a number is left without an answer
  | none => return (-1, srv)
  | some n =>
      let (ok, srv) ← relay alloc c (syncCount n) 0 srv
      if ok then srv.finish jansson alloc c else return (-1, srv)

/-- `dime_client_wait`. -/
def wait (alloc : Alloc) (srv : Server) (c : ClientPtr) : Except Fault (Int × Server) := do
  let clnt ← deref srv.clnts c
  if clnt.queue.len > 0 then
    if (alloc.reply 0 0).pack then
      let (ret, srv) ← srv.pushTo jansson (alloc.reply 0 0).push c (countReply clnt.queue.len)
      if ret < 0 then srv.refuse jansson (alloc.reply 0 1) c strerror
      else return (0, srv)
    else srv.refuse jansson (alloc.reply 0 1) c strerror
  else return (0, srv.setClient c { clnt with waiting := true })

/-- The loop of `dime_client_devices`: the names of the groups with clients, or
`none` if memory runs out. -/
def groupNames (alloc : Alloc) (groups : Heap Group) :
    Nat → List GroupPtr → Except Fault (Option (List String))
  | _, [] => return some []
  | i, g :: rest => do
      let group ← deref groups g
      if group.clnts.items.length > 0 then
        -- the string, and its place in the array
        if ¬ alloc.malloc (i + 1) 0 then return none
        else if ¬ alloc.malloc (i + 1) 1 then return none
        else
          let names ← groupNames alloc groups (i + 1) rest
          return names.map (group.name :: ·)
      else groupNames alloc groups (i + 1) rest

/-- `dime_client_devices`. -/
def devices (alloc : Alloc) (srv : Server) (c : ClientPtr) : Except Fault (Int × Server) := do
  if ¬ alloc.malloc 0 0 then srv.refuse jansson (alloc.reply 0 1) c strerror
  else
    match ← groupNames alloc srv.groups 0 (srv.name2clnt.iterate.map Entry.val) with
    | none => srv.refuse jansson (alloc.reply 0 1) c strerror
    | some names =>
        if (alloc.reply 0 0).pack then
          let (ret, srv) ← srv.pushTo jansson (alloc.reply 0 0).push c (devicesReply names)
          if ret < 0 then srv.refuse jansson (alloc.reply 0 1) c strerror
          else return (0, srv)
        else srv.refuse jansson (alloc.reply 0 1) c strerror

/-! ## Dispatch -/

/-- The dispatch of one message. A `command` that is missing or no string is the
empty command. -/
def dispatch (alloc : Alloc) (srv : Server) (c : ClientPtr) (jsondata : Json) (bindata : Bytes) :
    Except Fault (Int × Server) :=
  match (jsondata.unpackString "command").getD "" with
  | "handshake" => srv.handshake jansson alloc c jsondata
  | "join" => srv.join jansson alloc c jsondata
  | "leave" => srv.leave jansson alloc c jsondata
  | "send" => srv.send jansson alloc c jsondata bindata
  | "broadcast" => srv.broadcast jansson alloc c jsondata bindata
  | "sync" => srv.sync jansson alloc c jsondata
  | "wait" => srv.wait jansson alloc c
  | "devices" => srv.devices jansson alloc c
  | _ => srv.refuse jansson (alloc.reply 0 0) c "Unknown command"

/-! ## Connections -/

/-- `dime_client_init`, by its allocations; on a WebSocket connection
`dime_socket_init_ws` has added the inbuffer of the frame layer. -/
def clientInit (malloc : Nat → Bool) (fd : Nat) (ws : Bool) : Option Client :=
  if ¬ malloc 0 then none
  else if ¬ malloc 1 then none
  else
    match Socket.init (malloc 2) (malloc 3) fd, Queue.init (malloc 4) with
    | some sock, some queue =>
        some { fd
               waiting := false
               groups := .empty
               sock := { sock with ws := if ws then some .empty else none }
               queue
               sent := [] }
    | _, _ => none

/-- The accepting of a connection: `none` where the loop returns. Where the table
is full and cannot grow, the client is destroyed again. -/
def accept (malloc : Nat → Bool) (srv : Server) (fd : Nat) (ws : Bool) :
    Except Fault (Option Server) := do
  match clientInit malloc fd ws with
  | none => return none
  | some clnt =>
      let c := srv.clnts.next
      let (ret, fd2clnt) ← ended (srv.fd2clnt.insert (malloc 5) (malloc 6) fd c)
      let srv := { srv with fd2clnt }
      if ret < 0 then return some srv
      else return some { srv with clnts := srv.clnts.alloc clnt }

/-- The first loop of `dime_client_destroy`. -/
def leaveAll (c : ClientPtr) : List GroupPtr → Server → Except Fault Server
  | [], srv => return srv
  | g :: rest, srv => do
      let group ← deref srv.groups g
      match group.clnts.items.findIdx? (· = c) with
      | some j =>
          leaveAll c rest (srv.setGroup g { group with clnts := group.clnts.removeAt j })
      | none => leaveAll c rest srv

/-- The second loop of `dime_client_destroy`. -/
def unrefAll : List MsgPtr → Server → Except Fault Server
  | [], srv => return srv
  | p :: rest, srv => do
      let srv ← srv.unref p
      unrefAll rest srv

/-- `dime_client_destroy`, and the `free` that follows it. -/
def destroy (srv : Server) (c : ClientPtr) : Except Fault Server := do
  let clnt ← deref srv.clnts c
  let srv ← leaveAll c clnt.groups.items srv
  -- of a full queue the iteration sees nothing
  let msgs ← ended clnt.queue.iterate
  let srv ← unrefAll msgs srv
  return { srv with clnts := srv.clnts.free c }

/-- The closing of a connection. -/
def close (srv : Server) (c : ClientPtr) : Except Fault Server := do
  let clnt ← deref srv.clnts c
  let (_, fd2clnt) ← ended (srv.fd2clnt.remove clnt.fd)
  { srv with fd2clnt }.destroy c

end Server

end Dime
