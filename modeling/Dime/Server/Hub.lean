import Dime.Server.Handlers

/-!
# The hub

What the server is for, without its tables, arrays and counts: a message hub in
which clients are members of named groups and have queues of messages. Every
command is an operation on the hub, and the state of a server shows one.
-/

noncomputable section

open Classical

namespace Dime

/-- A message in a queue, with its identity. -/
structure Queued where
  msg : MsgPtr
  jsondata : CString
  bindata : Bytes

/-- A client of the hub. -/
structure Peer where
  fd : Nat
  waiting : Bool
  queue : List Queued
  sent : List Outgoing
  wbuf : Bytes
  rbuf : Bytes
  ws : Option Bytes
  ev : Option Watchers

/-- The clients, who is in which group, and the serialization in use. -/
@[ext] structure Hub where
  peers : ClientPtr → Option Peer
  member : ClientPtr → String → Prop
  serialization : Serialization
  nextClient : ClientPtr
  nextMsg : MsgPtr

variable (jansson : Jansson Json)

namespace Outgoing

def jsonstr : Outgoing → CString
  | .json body => jansson.dumps body
  | .statusOk => statusOkText
  | .relay _ jsondata _ => jsondata

def bindata : Outgoing → Bytes
  | .relay _ _ bindata => bindata
  | _ => []

/-- The bytes that appear in the outbuffer. -/
def frame (ws : Bool) (out : Outgoing) : Bytes :=
  (if ws then
    Socket.wsHeader (12 + (out.jsonstr jansson).length + out.bindata.length) else []) ++
  (Socket.header (out.jsonstr jansson).length out.bindata.length ++ (out.jsonstr jansson).1 ++
    out.bindata)

end Outgoing

/-- The message as it is relayed. -/
def Queued.out (m : Queued) : Outgoing := .relay m.msg m.jsondata m.bindata

namespace Peer

def push (peer : Peer) (out : Outgoing) : Peer :=
  { peer with
    sent := peer.sent ++ [out]
    wbuf := peer.wbuf ++ out.frame jansson peer.ws.isSome
    ev := if peer.wbuf = [] then peer.ev.map Watchers.startWrite else peer.ev }

/-- Queue a message, and tell a waiting client. -/
def enqueue (m : Queued) (peer : Peer) : Peer :=
  let queue := peer.queue ++ [m]
  if peer.waiting then
    { peer.push jansson (.json (countReply queue.length)) with queue, waiting := false }
  else { peer with queue }

/-- Ask to be told of messages. -/
def wait (peer : Peer) : Peer :=
  if peer.queue.length > 0 then peer.push jansson (.json (countReply peer.queue.length))
  else { peer with waiting := true }

/-- Relay the first `m` messages of the queue, or all there are. -/
def relay : Nat → Peer → Peer
  | 0, peer => peer
  | m + 1, peer =>
      match peer.queue with
      | [] => peer
      | q :: rest => relay m (push jansson { peer with queue := rest } q.out)

end Peer

namespace Hub

/-- Change the clients that satisfy `P`. -/
def update (P : ClientPtr → Prop) (f : Peer → Peer) (hub : Hub) : Hub :=
  { hub with peers := fun c => (hub.peers c).map fun peer => if P c then f peer else peer }

def push (hub : Hub) (c : ClientPtr) (out : Outgoing) : Hub :=
  hub.update (· = c) fun peer => peer.push jansson out

def refuse (hub : Hub) (c : ClientPtr) (text : String) : Hub :=
  hub.push jansson c (.json (errorReply text))

def finish (hub : Hub) (c : ClientPtr) : Hub := hub.push jansson c .statusOk

def negotiate (hub : Hub) (c : ClientPtr) (requested : Serialization) : Hub :=
  if hub.serialization = .noSerialization then { hub with serialization := requested }
  else if hub.serialization ≠ requested ∧ hub.serialization ≠ .dimeb ∧
      hub.serialization ≠ .json then
    { hub.update (· ≠ c) fun peer => peer.push jansson (.json reregisterMeta) with
      serialization := .dimeb }
  else hub

def handshake (hub : Hub) (c : ClientPtr) (jsondata : Json) : Hub :=
  match jsondata.unpackString "serialization", jsondata.unpackBool "tls" with
  | some serialization, some _ =>
      match Serialization.ofName serialization with
      | none => hub
      | some requested =>
          let hub := hub.negotiate jansson c requested
          hub.push jansson c
            (.json (handshakeReply (hub.serialization.name serialization) false))
  | _, _ => hub.refuse jansson c (Server.parsingError jansson jsondata "{sssb}")

def addMember (hub : Hub) (c : ClientPtr) (name : String) : Hub :=
  { hub with member := fun c' name' => hub.member c' name' ∨ (c' = c ∧ name' = name) }

def dropMember (hub : Hub) (c : ClientPtr) (name : String) : Hub :=
  { hub with member := fun c' name' => hub.member c' name' ∧ ¬ (c' = c ∧ name' = name) }

/-- Join one group; `false` for a refusal. -/
def joinName (c : ClientPtr) (v : Json) (hub : Hub) : Bool × Hub :=
  match v with
  | .string name =>
      if hub.member c name then
        (false, hub.refuse jansson c ("Client is already in group: " ++ name))
      else (true, hub.addMember c name)
  | _ => (false, hub.refuse jansson c "JSON parsing error: expected string")

/-- Leave one group; `false` for a refusal. -/
def leaveName (c : ClientPtr) (v : Json) (hub : Hub) : Bool × Hub :=
  match v with
  | .string name =>
      if hub.member c name then (true, hub.dropMember c name)
      else (false, hub.refuse jansson c ("Client is not in group: " ++ name))
  | _ => (false, hub.refuse jansson c "JSON parsing error: expected string")

/-- Handle the names of a list up to the first refusal. -/
def eachName (handle : Json → Hub → Bool × Hub) : List Json → Hub → Bool × Hub
  | [], hub => (true, hub)
  | v :: rest, hub =>
      if (handle v hub).1 then eachName handle rest (handle v hub).2
      else (false, (handle v hub).2)

/-- `join` and `leave`, by what they do with a name. -/
def withNames (handle : Json → Hub → Bool × Hub) (hub : Hub) (c : ClientPtr)
    (jsondata : Json) : Hub :=
  match jsondata.get? "name" with
  | none => hub.refuse jansson c (Server.parsingError jansson jsondata "{so}")
  | some arr =>
      if (eachName handle arr.elements hub).1 then
        (eachName handle arr.elements hub).2.finish jansson c
      else (eachName handle arr.elements hub).2

def join (hub : Hub) (c : ClientPtr) (jsondata : Json) : Hub :=
  hub.withNames jansson (joinName jansson c) c jsondata

def leave (hub : Hub) (c : ClientPtr) (jsondata : Json) : Hub :=
  hub.withNames jansson (leaveName jansson c) c jsondata

/-- The message that a `send` or a `broadcast` makes. -/
def newMessage (hub : Hub) (jsondata : Json) (bindata : Bytes) : Queued :=
  ⟨hub.nextMsg, jansson.dumps jsondata, bindata⟩

/-- Queue a new message for the clients that satisfy `P`. -/
def deliver (hub : Hub) (P : ClientPtr → Prop) (jsondata : Json) (bindata : Bytes) : Hub :=
  { hub.update P (Peer.enqueue jansson (hub.newMessage jansson jsondata bindata)) with
    nextMsg := hub.nextMsg + 1 }

def send (hub : Hub) (c : ClientPtr) (jsondata : Json) (bindata : Bytes) : Hub :=
  match jsondata.unpackString "name" with
  | none => hub.refuse jansson c (Server.parsingError jansson jsondata "{ss}")
  | some name =>
      if ∃ c', hub.member c' name then
        (hub.deliver jansson (fun c' => hub.member c' name) jsondata bindata).finish jansson c
      else hub.refuse jansson c ("No such group exists: " ++ name)

def broadcast (hub : Hub) (c : ClientPtr) (jsondata : Json) (bindata : Bytes) : Hub :=
  (hub.deliver jansson (fun c' => c' ≠ c) jsondata bindata).finish jansson c

def sync (hub : Hub) (c : ClientPtr) (jsondata : Json) : Hub :=
  match jsondata.unpackInt "n" with
  | none => hub
  | some n => (hub.update (· = c) (Peer.relay jansson (syncCount n))).finish jansson c

def wait (hub : Hub) (c : ClientPtr) : Hub := hub.update (· = c) (Peer.wait jansson)

/-- What the hub does with a command. Only the order of the names in the reply to
`devices` is left open. -/
def Handles (hub : Hub) (c : ClientPtr) (jsondata : Json) (bindata : Bytes) (hub' : Hub) :
    Prop :=
  match (jsondata.unpackString "command").getD "" with
  | "handshake" => hub' = hub.handshake jansson c jsondata
  | "join" => hub' = hub.join jansson c jsondata
  | "leave" => hub' = hub.leave jansson c jsondata
  | "send" => hub' = hub.send jansson c jsondata bindata
  | "broadcast" => hub' = hub.broadcast jansson c jsondata bindata
  | "sync" => hub' = hub.sync jansson c jsondata
  | "wait" => hub' = hub.wait jansson c
  | "devices" => ∃ names : List String, names.Nodup ∧
      (∀ name, name ∈ names ↔ ∃ c', hub.member c' name) ∧
      hub' = hub.push jansson c (.json (devicesReply names))
  | _ => hub' = hub.refuse jansson c "Unknown command"

/-- A new client on a connection, WebSocket or not. -/
def accept (hub : Hub) (fd : Nat) (ws : Bool) : Hub :=
  { hub with
    peers := Function.update hub.peers hub.nextClient (some
      { fd, waiting := false, queue := [], sent := [], wbuf := [], rbuf := [],
        ws := if ws then some [] else none, ev := none })
    nextClient := hub.nextClient + 1 }

def close (hub : Hub) (c : ClientPtr) : Hub :=
  { hub with
    peers := Function.update hub.peers c none
    member := fun c' name => hub.member c' name ∧ c' ≠ c }

end Hub

/-! ## What a server shows -/

/-- A queued message with its content. A message that is not there has none. -/
def Server.content (srv : Server) (p : MsgPtr) : Queued :=
  match srv.msgs.cells p with
  | some msg => ⟨p, msg.jsondata, msg.bindata⟩
  | none => ⟨p, statusOkText, []⟩

def Client.view (content : MsgPtr → Queued) (clnt : Client) : Peer :=
  { fd := clnt.fd
    waiting := clnt.waiting
    queue := clnt.queue.toList.map content
    sent := clnt.sent
    wbuf := clnt.sock.wbuf.toList
    rbuf := clnt.sock.rbuf.toList
    ws := clnt.sock.ws.map Ring.toList
    ev := clnt.sock.ev }

/-- The hub that a server implements. -/
def Server.view (srv : Server) : Hub :=
  { peers := fun c => (srv.clnts.cells c).map (Client.view srv.content)
    member := fun c name => ∃ g group, srv.groups.cells g = some group ∧ group.name = name ∧
      c ∈ group.clnts.items
    serialization := srv.serialization
    nextClient := srv.clnts.next
    nextMsg := srv.msgs.next }

namespace Hub

variable {hub : Hub} {c : ClientPtr}

@[simp] theorem update_member (P : ClientPtr → Prop) (f : Peer → Peer) :
    (hub.update P f).member = hub.member := rfl

@[simp] theorem update_serialization (P : ClientPtr → Prop) (f : Peer → Peer) :
    (hub.update P f).serialization = hub.serialization := rfl

@[simp] theorem push_member (out : Outgoing) :
    (hub.push jansson c out).member = hub.member := rfl

@[simp] theorem push_serialization (out : Outgoing) :
    (hub.push jansson c out).serialization = hub.serialization := rfl

theorem update_peers (P : ClientPtr → Prop) (f : Peer → Peer) (c : ClientPtr) :
    (hub.update P f).peers c = (hub.peers c).map fun peer => if P c then f peer else peer := rfl

theorem update_ext {P : ClientPtr → Prop} {f g : Peer → Peer}
    (hfg : ∀ c peer, hub.peers c = some peer → P c → f peer = g peer) :
    hub.update P f = hub.update P g := by
  refine Hub.ext (funext fun c => ?_) rfl rfl rfl rfl
  rw [update_peers, update_peers]
  cases hpeer : hub.peers c with
  | none => rfl
  | some peer =>
      rw [Option.map_some, Option.map_some]
      split
      next hP => rw [hfg c peer hpeer hP]
      next => rfl

theorem update_eq_self {P : ClientPtr → Prop} {f : Peer → Peer}
    (hf : ∀ c peer, hub.peers c = some peer → P c → f peer = peer) : hub.update P f = hub := by
  rw [update_ext hf]
  refine Hub.ext (funext fun c => ?_) rfl rfl rfl rfl
  rw [update_peers]
  cases hub.peers c with
  | none => rfl
  | some peer => rw [Option.map_some, ite_self]

/-- Changing no client changes nothing. -/
theorem update_false {P : ClientPtr → Prop} (f : Peer → Peer)
    (hP : ∀ c peer, hub.peers c = some peer → ¬ P c) : hub.update P f = hub :=
  update_eq_self fun c peer hpeer hin => absurd hin (hP c peer hpeer)

theorem update_congr {P Q : ClientPtr → Prop} (f : Peer → Peer)
    (hPQ : ∀ c peer, hub.peers c = some peer → (P c ↔ Q c)) :
    hub.update P f = hub.update Q f := by
  refine Hub.ext (funext fun c => ?_) rfl rfl rfl rfl
  rw [update_peers, update_peers]
  cases hpeer : hub.peers c with
  | none => rfl
  | some peer =>
      rw [Option.map_some, Option.map_some]
      by_cases hP : P c
      · rw [if_pos hP, if_pos ((hPQ c peer hpeer).mp hP)]
      · rw [if_neg hP, if_neg fun hQ => hP ((hPQ c peer hpeer).mpr hQ)]

/-- Changing clients in two steps, none of them twice. -/
theorem update_update {P Q : ClientPtr → Prop} (f : Peer → Peer) (hdisj : ∀ c, P c → ¬ Q c) :
    (hub.update P f).update Q f = hub.update (fun c => P c ∨ Q c) f := by
  refine Hub.ext (funext fun c => ?_) rfl rfl rfl rfl
  rw [update_peers, update_peers, update_peers, Option.map_map]
  refine congrFun (congrArg Option.map (funext fun peer => ?_)) _
  by_cases hP : P c
  · simp [hP, hdisj c hP]
  · simp [hP]

/-- Changing the same clients in two steps. -/
theorem update_comp (P : ClientPtr → Prop) (f g : Peer → Peer) :
    (hub.update P f).update P g = hub.update P (g ∘ f) := by
  refine Hub.ext (funext fun c => ?_) rfl rfl rfl rfl
  rw [update_peers, update_peers, update_peers, Option.map_map]
  refine congrFun (congrArg Option.map (funext fun peer => ?_)) _
  by_cases hP : P c
  · simp [hP]
  · simp [hP]

end Hub

end Dime

end
