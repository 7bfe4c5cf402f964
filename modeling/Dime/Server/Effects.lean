import Dime.Server.HubRun

/-!
# What an event does to a client

A command changes the queue, the waiting flag and the relayed messages of a client
in one of three ways, if at all: it queues a message, relays the client's own
messages, or is the client's own `wait`. Whatever else it pushes is neither
relayed nor the answer to a `wait`.
-/

noncomputable section

open Classical

namespace Dime

variable (jansson : Jansson Json)

namespace Outgoing

/-- The `status` of a message that the server itself makes. -/
def status : Outgoing → Option Int64
  | .json body => body.unpackInt "status"
  | .statusOk => some 0
  | .relay .. => none

/-- The `n` of an answer to a `wait`. -/
def count : Outgoing → Option Int64
  | .json body => body.unpackInt "n"
  | _ => none

def queued? : Outgoing → Option Queued
  | .relay p jsondata bindata => some ⟨p, jsondata, bindata⟩
  | _ => none

/-- Neither relayed nor an answer to a `wait`. -/
def Plain (out : Outgoing) : Prop := out.queued? = none ∧ out.count = none

/-- What ends a command. -/
def Reply (out : Outgoing) : Prop := out.Plain ∧ (out.status = some 0 ∨ out.status = some (-1))

theorem reply_error (text : String) : Reply (.json (errorReply text)) :=
  ⟨⟨rfl, rfl⟩, .inr rfl⟩

theorem reply_statusOk : Reply .statusOk := ⟨⟨rfl, rfl⟩, .inl rfl⟩

theorem reply_handshake (serialization : String) (tls : Bool) :
    Reply (.json (handshakeReply serialization tls)) := ⟨⟨rfl, rfl⟩, .inl rfl⟩

theorem reply_devices (names : List String) : Reply (.json (devicesReply names)) :=
  ⟨⟨rfl, rfl⟩, .inl rfl⟩

theorem plain_reregister : Plain (.json reregisterMeta) := ⟨rfl, rfl⟩

end Outgoing

namespace Peer

/-- Everything but the outbuffer and what watches it. -/
def erase (peer : Peer) : Peer := { peer with wbuf := [], ev := none }

def append (outs : List Outgoing) (peer : Peer) : Peer := { peer with sent := peer.sent ++ outs }

end Peer

namespace Hub

/-- The clients change by `f`, are then sent `outs`, and are the same otherwise, up
to their outbuffers. -/
structure Pushes (f : ClientPtr → Peer → Peer) (outs : ClientPtr → List Outgoing)
    (hub hub' : Hub) : Prop where
  peers : ∀ c, (hub'.peers c).map Peer.erase =
    (hub.peers c).map fun peer => ((f c peer).append (outs c)).erase
  nextClient : hub'.nextClient = hub.nextClient
  nextMsg : hub.nextMsg ≤ hub'.nextMsg

/-- Only client `c` is sent something. -/
def only (c : ClientPtr) (outs : List Outgoing) (c' : ClientPtr) : List Outgoing :=
  if c' = c then outs else []

def same (_ : ClientPtr) (peer : Peer) : Peer := peer

variable {f : ClientPtr → Peer → Peer} {outs outs' : ClientPtr → List Outgoing}
  {hub hub' hub'' : Hub} {c : ClientPtr}

@[simp] theorem only_self (outs : List Outgoing) : only c outs c = outs := if_pos rfl

theorem mem_only {outs : List Outgoing} {c' : ClientPtr} {out : Outgoing}
    (hmem : out ∈ only c outs c') : out ∈ outs := by
  rw [only] at hmem
  split at hmem
  next => exact hmem
  next => cases hmem

theorem Pushes.refl (hub : Hub) : Pushes same (fun _ => []) hub hub :=
  ⟨fun c => by
    congr 1
    funext peer
    rw [same, Peer.append, List.append_nil], rfl, le_rfl⟩

theorem Pushes.trans (h : Pushes f outs hub hub') (h' : Pushes same outs' hub' hub'') :
    Pushes f (fun c => outs c ++ outs' c) hub hub'' := by
  refine ⟨fun c => ?_, h'.nextClient.trans h.nextClient, h.nextMsg.trans h'.nextMsg⟩
  have hcommute : (fun peer => ((same c peer).append (outs' c)).erase) =
      (fun peer => peer.append (outs' c)) ∘ Peer.erase := rfl
  rw [h'.peers, hcommute, ← Option.map_map, h.peers, Option.map_map]
  congr 1
  funext peer
  simp only [Function.comp_apply, Peer.append, Peer.erase, List.append_assoc]

theorem Pushes.peer (h : Pushes f outs hub hub') {peer : Peer} (hpeer : hub.peers c = some peer) :
    ∃ peer', hub'.peers c = some peer' ∧ peer'.fd = (f c peer).fd ∧
      peer'.waiting = (f c peer).waiting ∧ peer'.queue = (f c peer).queue ∧
      peer'.sent = (f c peer).sent ++ outs c ∧ peer'.rbuf = (f c peer).rbuf ∧
      peer'.ws = (f c peer).ws := by
  have hpeers := h.peers c
  rw [hpeer, Option.map_some] at hpeers
  obtain ⟨peer', hpeer', heq⟩ := Option.map_eq_some_iff.mp hpeers
  exact ⟨peer', hpeer', (congrArg Peer.fd heq :), (congrArg Peer.waiting heq :),
    (congrArg Peer.queue heq :), (congrArg Peer.sent heq :), (congrArg Peer.rbuf heq :),
    (congrArg Peer.ws heq :)⟩

theorem Pushes.none (h : Pushes f outs hub hub') : hub'.peers c = none ↔ hub.peers c = none := by
  rw [← Option.map_eq_none_iff, h.peers, Option.map_eq_none_iff]

/-- What is done to clients one by one. -/
theorem update_pushes (hub : Hub) (P : ClientPtr → Prop) (f : Peer → Peer) :
    Pushes (fun c peer => if P c then f peer else peer) (fun _ => []) hub (hub.update P f) := by
  refine ⟨fun c => ?_, rfl, le_rfl⟩
  rw [update_peers, Option.map_map]
  congr 1
  funext peer
  rw [Function.comp_apply, Peer.append, List.append_nil]

theorem push_pushes (out : Outgoing) :
    Pushes same (only c [out]) hub (hub.push jansson c out) := by
  refine ⟨fun c' => ?_, rfl, le_rfl⟩
  rw [push, update_peers, Option.map_map]
  congr 1
  funext peer
  rw [Function.comp_apply, only]
  split
  next => rfl
  next => rw [same, Peer.append, List.append_nil]

theorem negotiate_pushes (requested : Serialization) : ∃ outs,
    Pushes same outs hub (hub.negotiate jansson c requested) ∧ outs c = [] ∧
      ∀ c' out, out ∈ outs c' → out.Plain := by
  rw [negotiate]
  split
  next =>
    exact ⟨fun _ => [], ⟨(Pushes.refl hub).peers, rfl, le_rfl⟩, rfl, fun _ _ hmem => by cases hmem⟩
  next =>
    split
    next =>
      refine ⟨fun c' => if c' ≠ c then [.json reregisterMeta] else [], ⟨fun c' => ?_, rfl, le_rfl⟩,
        if_neg (not_not_intro rfl), fun c' out hmem => ?_⟩
      · change ((hub.update (· ≠ c) _).peers c').map Peer.erase = _
        rw [update_peers, Option.map_map]
        congr 1
        funext peer
        rw [Function.comp_apply]
        split
        next => rfl
        next => rw [same, Peer.append, List.append_nil]
      · dsimp only at hmem
        split at hmem
        next =>
          rw [List.mem_singleton.mp hmem]
          exact Outgoing.plain_reregister
        next => cases hmem
    next => exact ⟨fun _ => [], Pushes.refl hub, rfl, fun _ _ hmem => by cases hmem⟩

/-- One reply to client `c`, plain messages to others. -/
theorem Pushes.reply (h : Pushes f outs hub hub') (hc : outs c = [])
    (hplain : ∀ c' out, out ∈ outs c' → out.Plain) {out : Outgoing} (hout : out.Reply) :
    ∃ outs', Pushes f outs' hub (hub'.push jansson c out) ∧
      (∃ out, outs' c = [out] ∧ out.Reply) ∧ ∀ c' out, out ∈ outs' c' → out.Plain := by
  refine ⟨_, h.trans (push_pushes jansson out), ⟨out, by rw [hc, only_self]; rfl, hout⟩,
    fun c' out' hmem => ?_⟩
  rcases List.mem_append.mp hmem with hmem | hmem
  · exact hplain c' out' hmem
  · rw [List.mem_singleton.mp (mem_only hmem)]
    exact hout.1

/-- A step that does something to the clients and then replies to one of them. -/
theorem Pushes.thenReply (h : Pushes f (fun _ => []) hub hub') {out : Outgoing}
    (hout : out.Reply) :
    ∃ outs', Pushes f outs' hub (hub'.push jansson c out) ∧
      (∃ out, outs' c = [out] ∧ out.Reply) ∧ ∀ c' out, out ∈ outs' c' → out.Plain :=
  h.reply jansson rfl (fun _ _ hmem => by cases hmem) hout

/-- A handshake for a serialization that the server does not know. -/
def UnknownSerialization (jsondata : Json) : Prop :=
  ∃ serialization tls, jsondata.unpackString "serialization" = some serialization ∧
    jsondata.unpackBool "tls" = some tls ∧ Serialization.ofName serialization = none

theorem handshake_pushes (hub : Hub) (jsondata : Json) :
    (UnknownSerialization jsondata ∧ hub.handshake jansson c jsondata = hub) ∨
    ¬ UnknownSerialization jsondata ∧ ∃ outs,
      Pushes same outs hub (hub.handshake jansson c jsondata) ∧
        (∃ out, outs c = [out] ∧ out.Reply) ∧ ∀ c' out, out ∈ outs c' → out.Plain := by
  rw [handshake, UnknownSerialization]
  have hrefuse := (Pushes.refl hub).thenReply jansson (c := c)
    (Outgoing.reply_error (Server.parsingError jansson jsondata "{sssb}"))
  cases hserialization : jsondata.unpackString "serialization" with
  | none =>
      refine .inr ⟨?_, hrefuse⟩
      rintro ⟨_, _, hbad, _⟩
      cases hbad
  | some serialization =>
      cases htls : jsondata.unpackBool "tls" with
      | none =>
          refine .inr ⟨?_, hrefuse⟩
          rintro ⟨_, _, _, hbad, _⟩
          cases hbad
      | some tls =>
          dsimp only
          cases hname : Serialization.ofName serialization with
          | none => exact .inl ⟨⟨serialization, tls, rfl, rfl, hname⟩, rfl⟩
          | some requested =>
              obtain ⟨outs, hpushes, hc, hplain⟩ := negotiate_pushes jansson (c := c) requested
              refine .inr ⟨?_, hpushes.reply jansson hc hplain (Outgoing.reply_handshake _ _)⟩
              rintro ⟨_, _, hsame, _, hnone⟩
              cases hsame
              rw [hname] at hnone
              cases hnone

/-- What a name of `join` or `leave` may do: nothing that is seen, or a refusal. -/
def Quietly (c : ClientPtr) (handle : Json → Hub → Bool × Hub) : Prop :=
  ∀ v hub, ((handle v hub).1 = true ∧ Pushes same (fun _ => []) hub (handle v hub).2) ∨
    ((handle v hub).1 = false ∧ ∃ text, (handle v hub).2 = hub.refuse jansson c text)

theorem joinName_quietly : Quietly jansson c (joinName jansson c) := by
  intro v hub
  cases v with
  | string name =>
      rw [joinName]
      split
      next => exact .inr ⟨rfl, _, rfl⟩
      next => exact .inl ⟨rfl, (Pushes.refl hub).peers, rfl, le_rfl⟩
  | _ => exact .inr ⟨rfl, _, rfl⟩

theorem leaveName_quietly : Quietly jansson c (leaveName jansson c) := by
  intro v hub
  cases v with
  | string name =>
      rw [leaveName]
      split
      next => exact .inl ⟨rfl, (Pushes.refl hub).peers, rfl, le_rfl⟩
      next => exact .inr ⟨rfl, _, rfl⟩
  | _ => exact .inr ⟨rfl, _, rfl⟩

theorem eachName_pushes {handle : Json → Hub → Bool × Hub} (hhandle : Quietly jansson c handle)
    (vs : List Json) (hub : Hub) :
    ((eachName handle vs hub).1 = true ∧
      Pushes same (fun _ => []) hub (eachName handle vs hub).2) ∨
    ((eachName handle vs hub).1 = false ∧ ∃ mid text, Pushes same (fun _ => []) hub mid ∧
      (eachName handle vs hub).2 = mid.refuse jansson c text) := by
  induction vs generalizing hub with
  | nil => exact .inl ⟨rfl, Pushes.refl hub⟩
  | cons v rest ih =>
      rw [eachName]
      rcases hhandle v hub with ⟨hok, hpushes⟩ | ⟨hok, text, hrefuse⟩
      · rw [if_pos hok]
        rcases ih (handle v hub).2 with ⟨hrest, hpushes'⟩ | ⟨hrest, mid, text, hmid, heq⟩
        · exact .inl ⟨hrest, hpushes.trans hpushes'⟩
        · exact .inr ⟨hrest, mid, text, hpushes.trans hmid, heq⟩
      · rw [if_neg (by rw [hok]; decide)]
        exact .inr ⟨rfl, hub, text, Pushes.refl hub, hrefuse⟩

theorem withNames_pushes {handle : Json → Hub → Bool × Hub} (hhandle : Quietly jansson c handle)
    (jsondata : Json) : ∃ outs,
      Pushes same outs hub (hub.withNames jansson handle c jsondata) ∧
        (∃ out, outs c = [out] ∧ out.Reply) ∧ ∀ c' out, out ∈ outs c' → out.Plain := by
  rw [withNames]
  cases jsondata.get? "name" with
  | none => exact (Pushes.refl hub).thenReply jansson (Outgoing.reply_error _)
  | some arr =>
      dsimp only
      rcases eachName_pushes jansson hhandle arr.elements hub with
        ⟨hok, hpushes⟩ | ⟨hok, mid, text, hmid, heq⟩
      · rw [if_pos hok]
        exact hpushes.thenReply jansson Outgoing.reply_statusOk
      · rw [if_neg (by rw [hok]; decide), heq]
        exact hmid.thenReply jansson (Outgoing.reply_error text)

theorem Pushes.congr {f' : ClientPtr → Peer → Peer} (h : Pushes f outs hub hub')
    (hf : ∀ c peer, hub.peers c = some peer → f c peer = f' c peer) : Pushes f' outs hub hub' := by
  refine ⟨fun c => ?_, h.nextClient, h.nextMsg⟩
  rw [h.peers]
  cases hpeer : hub.peers c with
  | none => rfl
  | some peer => rw [Option.map_some, Option.map_some, hf c peer hpeer]

theorem deliver_pushes (hub : Hub) (P : ClientPtr → Prop) (jsondata : Json) (bindata : Bytes) :
    Pushes (fun c peer => if P c then
        peer.enqueue jansson (hub.newMessage jansson jsondata bindata) else peer)
      (fun _ => []) hub (hub.deliver jansson P jsondata bindata) :=
  ⟨(update_pushes hub P _).peers, rfl, Nat.le_succ _⟩

/-! ## Commands -/

/-- The command of a message, empty where there is none. -/
abbrev command (jsondata : Json) : String := (jsondata.unpackString "command").getD ""

/-- The message that an event queues for a client. -/
def addressed (hub : Hub) (c : ClientPtr) : Action → List Queued
  | .command c' jsondata bindata =>
      match command jsondata with
      | "send" =>
          match jsondata.unpackString "name" with
          | some name =>
              if hub.member c name then [hub.newMessage jansson jsondata bindata] else []
          | none => []
      | "broadcast" =>
          if c ≠ c' ∧ (hub.peers c).isSome then [hub.newMessage jansson jsondata bindata] else []
      | _ => []
  | _ => []

/-- What a command does to the queue and the waiting flag of the client it is from. -/
def own (jsondata : Json) (peer : Peer) : Peer :=
  match command jsondata with
  | "sync" => (jsondata.unpackInt "n").elim peer fun n => peer.relay jansson (syncCount n)
  | "wait" => peer.wait jansson
  | _ => peer

/-- What a command from `c₀` does to client `c`, apart from plain messages. -/
def effect (hub : Hub) (c₀ : ClientPtr) (jsondata : Json) (bindata : Bytes) (c : ClientPtr)
    (peer : Peer) : Peer :=
  let peer := (hub.addressed jansson c (.command c₀ jsondata bindata)).foldl
    (fun peer m => peer.enqueue jansson m) peer
  if c = c₀ then own jansson jsondata peer else peer

/-- Requests that no handler replies to. -/
def Mute (jsondata : Json) : Prop :=
  (command jsondata = "handshake" ∧ UnknownSerialization jsondata) ∨
    (command jsondata = "sync" ∧ jsondata.unpackInt "n" = none)

/-- The plain messages of a command: one reply to the client it is from, unless the
request is mute or a `wait`. -/
structure Replies (c : ClientPtr) (jsondata : Json) (outs : ClientPtr → List Outgoing) : Prop where
  plain : ∀ c' out, out ∈ outs c' → out.Plain
  silent : Mute jsondata ∨ command jsondata = "wait" → outs c = []
  reply : ¬ Mute jsondata → command jsondata ≠ "wait" → ∃ out, outs c = [out] ∧ out.Reply

variable {jsondata : Json} {bindata : Bytes}

theorem addressed_eq_nil (hsend : command jsondata ≠ "send") (hbroadcast : command jsondata ≠ "broadcast")
    (c' : ClientPtr) : hub.addressed jansson c' (.command c jsondata bindata) = [] := by
  rw [addressed]
  split
  next h => exact absurd h hsend
  next h => exact absurd h hbroadcast
  next => rfl

theorem own_eq (hsync : command jsondata ≠ "sync") (hwait : command jsondata ≠ "wait")
    (peer : Peer) : own jansson jsondata peer = peer := by
  rw [own]
  split
  next h => exact absurd h hsync
  next h => exact absurd h hwait
  next => rfl

/-- A command that neither queues, relays nor waits. -/
theorem effect_same (hsend : command jsondata ≠ "send") (hbroadcast : command jsondata ≠ "broadcast")
    (hsync : command jsondata ≠ "sync") (hwait : command jsondata ≠ "wait") :
    hub.effect jansson c jsondata bindata = same := by
  funext c' peer
  rw [effect, addressed_eq_nil jansson hsend hbroadcast, List.foldl_nil,
    own_eq jansson hsync hwait, ite_self, same]

theorem Replies.of_reply (hmute : ¬ Mute jsondata) (hwait : command jsondata ≠ "wait")
    (hplain : ∀ c' out, out ∈ outs c' → out.Plain) (hc : ∃ out, outs c = [out] ∧ out.Reply) :
    Replies c jsondata outs :=
  ⟨hplain, fun hsilent => absurd hsilent (not_or_intro hmute hwait), fun _ _ => hc⟩

theorem Replies.of_silent (hsilent : Mute jsondata ∨ command jsondata = "wait") :
    Replies c jsondata fun _ => [] :=
  ⟨fun _ _ hmem => (by cases hmem), fun _ => rfl,
    fun hmute hwait => absurd hsilent (not_or_intro hmute hwait)⟩

theorem effect_send (hub : Hub) (hcommand : command jsondata = "send") (bindata : Bytes)
    (c' : ClientPtr) (peer : Peer) :
    hub.effect jansson c jsondata bindata c' peer =
      if (∃ name, jsondata.unpackString "name" = some name ∧ hub.member c' name) then
        peer.enqueue jansson (hub.newMessage jansson jsondata bindata) else peer := by
  have hown : ∀ peer, own jansson jsondata peer = peer :=
    own_eq jansson (by rw [hcommand]; decide) (by rw [hcommand]; decide)
  simp only [effect, addressed, hcommand, hown, ite_self]
  cases jsondata.unpackString "name" with
  | none => simp
  | some name =>
      by_cases hmember : hub.member c' name
      · simp [hmember]
      · simp [hmember]

theorem effect_broadcast (hcommand : command jsondata = "broadcast") (c' : ClientPtr)
    (peer : Peer) (hpeer : hub.peers c' = some peer) :
    hub.effect jansson c jsondata bindata c' peer = if c' ≠ c then
      peer.enqueue jansson (hub.newMessage jansson jsondata bindata) else peer := by
  have hown : ∀ peer, own jansson jsondata peer = peer :=
    own_eq jansson (by rw [hcommand]; decide) (by rw [hcommand]; decide)
  simp only [effect, addressed, hcommand, hown, ite_self, hpeer, Option.isSome_some, and_true]
  split <;> rfl

/-- `sync` and `wait` change the client they are from. -/
theorem effect_own (hsend : command jsondata ≠ "send") (hbroadcast : command jsondata ≠ "broadcast")
    (c' : ClientPtr) (peer : Peer) : hub.effect jansson c jsondata bindata c' peer =
      if c' = c then own jansson jsondata peer else peer := by
  rw [effect, addressed_eq_nil jansson hsend hbroadcast, List.foldl_nil]

theorem not_mute (hhandshake : command jsondata ≠ "handshake") (hsync : command jsondata ≠ "sync") :
    ¬ Mute jsondata := by
  rintro (⟨h, _⟩ | ⟨h, _⟩)
  · exact hhandshake h
  · exact hsync h

theorem command_ne {name other : String} (hcommand : command jsondata = name) (hne : name ≠ other) :
    command jsondata ≠ other := by
  rw [hcommand]
  exact hne

/-- A command other than `send`, `broadcast`, `sync` and `wait` that replies. -/
theorem pushes_of_reply {name : String} (hcommand : command jsondata = name) (hsend : name ≠ "send")
    (hbroadcast : name ≠ "broadcast") (hsync : name ≠ "sync") (hwait : name ≠ "wait")
    (hmute : ¬ Mute jsondata)
    (h : ∃ outs, Pushes same outs hub hub' ∧ (∃ out, outs c = [out] ∧ out.Reply) ∧
      ∀ c' out, out ∈ outs c' → out.Plain) :
    ∃ outs, Pushes (hub.effect jansson c jsondata bindata) outs hub hub' ∧ Replies c jsondata outs := by
  obtain ⟨outs, hpushes, hc, hall⟩ := h
  rw [effect_same jansson (command_ne hcommand hsend) (command_ne hcommand hbroadcast)
    (command_ne hcommand hsync) (command_ne hcommand hwait)]
  exact ⟨outs, hpushes, .of_reply hmute (command_ne hcommand hwait) hall hc⟩

theorem not_mute_of_command {name : String} (hcommand : command jsondata = name)
    (hhandshake : name ≠ "handshake") (hsync : name ≠ "sync") : ¬ Mute jsondata :=
  not_mute (command_ne hcommand hhandshake) (command_ne hcommand hsync)

theorem send_pushes (hub : Hub) (hcommand : command jsondata = "send") (bindata : Bytes) :
    ∃ outs, Pushes (hub.effect jansson c jsondata bindata) outs hub (hub.send jansson c jsondata bindata) ∧
      Replies c jsondata outs := by
  have hmute := not_mute_of_command hcommand (by decide) (by decide)
  have hwait : command jsondata ≠ "wait" := command_ne hcommand (by decide)
  have heffect := effect_send jansson (c := c) hub hcommand bindata
  rw [send]
  cases hname : jsondata.unpackString "name" with
  | none =>
      obtain ⟨outs, hpushes, hc, hall⟩ := (Pushes.refl hub).thenReply jansson (c := c)
        (Outgoing.reply_error (Server.parsingError jansson jsondata "{ss}"))
      refine ⟨outs, hpushes.congr fun c' peer _ => ?_, .of_reply hmute hwait hall hc⟩
      rw [heffect, if_neg, same]
      rintro ⟨_, hbad, _⟩
      rw [hname] at hbad
      cases hbad
  | some name =>
      dsimp only
      have hsome : ∀ c', (∃ name, jsondata.unpackString "name" = some name ∧
          hub.member c' name) ↔ hub.member c' name := fun c' => by
        rw [hname]
        refine ⟨?_, fun hm => ⟨name, rfl, hm⟩⟩
        rintro ⟨_, heq, hmember⟩
        cases heq
        exact hmember
      split
      next =>
        obtain ⟨outs, hpushes, hc, hall⟩ := (deliver_pushes jansson hub
          (fun c' => hub.member c' name) jsondata bindata).thenReply jansson (c := c)
          Outgoing.reply_statusOk
        refine ⟨outs, hpushes.congr fun c' peer _ => ?_, .of_reply hmute hwait hall hc⟩
        rw [heffect]
        simp only [hsome]
      next hnone =>
        obtain ⟨outs, hpushes, hc, hall⟩ := (Pushes.refl hub).thenReply jansson (c := c)
          (Outgoing.reply_error ("No such group exists: " ++ name))
        refine ⟨outs, hpushes.congr fun c' peer _ => ?_, .of_reply hmute hwait hall hc⟩
        rw [heffect, if_neg, same]
        rw [hsome]
        exact fun hmember => hnone ⟨c', hmember⟩

theorem broadcast_pushes (hub : Hub) (hcommand : command jsondata = "broadcast") (bindata : Bytes) :
    ∃ outs, Pushes (hub.effect jansson c jsondata bindata) outs hub
      (hub.broadcast jansson c jsondata bindata) ∧ Replies c jsondata outs := by
  obtain ⟨outs, hpushes, hc, hall⟩ := (deliver_pushes jansson hub (fun c' => c' ≠ c)
    jsondata bindata).thenReply jansson (c := c) Outgoing.reply_statusOk
  refine ⟨outs, hpushes.congr fun c' peer hpeer => ?_, .of_reply
    (not_mute_of_command hcommand (by decide) (by decide)) (command_ne hcommand (by decide)) hall hc⟩
  rw [effect_broadcast jansson hcommand c' peer hpeer]
  congr

theorem sync_pushes (hub : Hub) (hcommand : command jsondata = "sync") (bindata : Bytes) :
    ∃ outs, Pushes (hub.effect jansson c jsondata bindata) outs hub (hub.sync jansson c jsondata) ∧
      Replies c jsondata outs := by
  have heffect : ∀ c' peer, hub.effect jansson c jsondata bindata c' peer =
      if c' = c then own jansson jsondata peer else peer :=
    effect_own jansson (command_ne hcommand (by decide)) (command_ne hcommand (by decide))
  rw [sync]
  cases hn : jsondata.unpackInt "n" with
  | none =>
      refine ⟨_, (Pushes.refl hub).congr fun c' peer _ => ?_,
        .of_silent (.inl (.inr ⟨hcommand, hn⟩))⟩
      rw [heffect, own, hcommand, hn]
      exact (ite_self _).symm
  | some n =>
      obtain ⟨outs, hpushes, hc, hall⟩ := (update_pushes hub (· = c)
        (Peer.relay jansson (syncCount n))).thenReply jansson (c := c) Outgoing.reply_statusOk
      refine ⟨outs, hpushes.congr fun c' peer _ => ?_, .of_reply ?_
        (command_ne hcommand (by decide)) hall hc⟩
      · rw [heffect, own, hcommand, hn]
        congr
      · rintro (⟨hbad, _⟩ | ⟨_, hbad⟩)
        · exact command_ne hcommand (by decide) hbad
        · rw [hn] at hbad
          cases hbad

theorem wait_pushes (hub : Hub) (hcommand : command jsondata = "wait") (bindata : Bytes) :
    ∃ outs, Pushes (hub.effect jansson c jsondata bindata) outs hub (hub.wait jansson c) ∧
      Replies c jsondata outs := by
  have heffect : ∀ c' peer, hub.effect jansson c jsondata bindata c' peer =
      if c' = c then own jansson jsondata peer else peer :=
    effect_own jansson (command_ne hcommand (by decide)) (command_ne hcommand (by decide))
  refine ⟨_, (update_pushes hub (· = c) (Peer.wait jansson)).congr fun c' peer _ => ?_,
    .of_silent (.inr hcommand)⟩
  rw [heffect, own, hcommand]
  congr

/-- Every command is its effect on the clients, followed by plain messages. -/
theorem Handles.pushes (h : hub.Handles jansson c jsondata bindata hub') :
    ∃ outs, Pushes (hub.effect jansson c jsondata bindata) outs hub hub' ∧
      Replies c jsondata outs := by
  rw [Handles] at h
  split at h
  next hcommand =>
    subst h
    rcases handshake_pushes jansson (c := c) hub jsondata with
      ⟨hunknown, heq⟩ | ⟨hknown, hpushes⟩
    · rw [heq, effect_same jansson (command_ne hcommand (by decide)) (command_ne hcommand (by decide))
        (command_ne hcommand (by decide)) (command_ne hcommand (by decide))]
      exact ⟨_, Pushes.refl hub, .of_silent (.inl (.inl ⟨hcommand, hunknown⟩))⟩
    · refine pushes_of_reply jansson hcommand (by decide) (by decide) (by decide) (by decide) ?_ hpushes
      rintro (⟨_, hunknown⟩ | ⟨hsync, _⟩)
      · exact hknown hunknown
      · exact command_ne hcommand (by decide) hsync
  next hcommand =>
    subst h
    exact pushes_of_reply jansson hcommand (by decide) (by decide) (by decide) (by decide)
      (not_mute_of_command hcommand (by decide) (by decide))
      (withNames_pushes jansson (joinName_quietly jansson) jsondata)
  next hcommand =>
    subst h
    exact pushes_of_reply jansson hcommand (by decide) (by decide) (by decide) (by decide)
      (not_mute_of_command hcommand (by decide) (by decide))
      (withNames_pushes jansson (leaveName_quietly jansson) jsondata)
  next hcommand =>
    subst h
    exact send_pushes jansson hub hcommand bindata
  next hcommand =>
    subst h
    exact broadcast_pushes jansson hub hcommand bindata
  next hcommand =>
    subst h
    exact sync_pushes jansson hub hcommand bindata
  next hcommand =>
    subst h
    exact wait_pushes jansson hub hcommand bindata
  next hcommand =>
    obtain ⟨names, _, _, rfl⟩ := h
    exact pushes_of_reply jansson hcommand (by decide) (by decide) (by decide) (by decide)
      (not_mute_of_command hcommand (by decide) (by decide))
      ((Pushes.refl hub).thenReply jansson (Outgoing.reply_devices names))
  next hhandshake _ _ hsend hbroadcast hsync hwait _ =>
    subst h
    exact pushes_of_reply jansson rfl hsend hbroadcast hsync hwait (not_mute hhandshake hsync)
      ((Pushes.refl hub).thenReply jansson (Outgoing.reply_error "Unknown command"))

/-- A message that is queued gets an address of its own. -/
theorem Handles.nextMsg_lt (h : hub.Handles jansson c jsondata bindata hub') {c' : ClientPtr}
    (hne : hub.addressed jansson c' (.command c jsondata bindata) ≠ []) :
    hub.nextMsg < hub'.nextMsg := by
  rw [Handles] at h
  rw [addressed] at hne
  split at hne
  next hcommand =>
    rw [command] at hcommand
    rw [hcommand] at h
    rw [send] at h
    cases hname : jsondata.unpackString "name" with
    | none =>
        rw [hname] at hne
        exact absurd rfl hne
    | some name =>
        rw [hname] at h hne
        dsimp only at h hne
        have hmember : hub.member c' name := by
          by_contra hnot
          rw [if_neg hnot] at hne
          exact hne rfl
        rw [if_pos ⟨c', hmember⟩] at h
        rw [h]
        exact Nat.lt_succ_self _
  next hcommand =>
    rw [command] at hcommand
    rw [hcommand] at h
    rw [h]
    exact Nat.lt_succ_self _
  next => exact absurd rfl hne

/-! ## Events -/

/-- The event is a `wait` of the client. -/
def isWait (c : ClientPtr) : Action → Bool
  | .command c' jsondata _ => c' = c ∧ command jsondata = "wait"
  | _ => false

/-- The three ways in which an event changes what a client has been given. -/
inductive Given (hub : Hub) (action : Action) (c : ClientPtr) (peer : Peer) : Peer → Prop
  | queued (m : Queued) (addressed : hub.addressed jansson c action = [m])
      (noWait : isWait c action = false) : Given hub action c peer (peer.enqueue jansson m)
  | relayed (m : Nat) (addressed : hub.addressed jansson c action = [])
      (noWait : isWait c action = false) : Given hub action c peer (peer.relay jansson m)
  | asked (addressed : hub.addressed jansson c action = []) (wait : isWait c action = true) :
      Given hub action c peer (peer.wait jansson)

theorem isWait_iff {c₀ : ClientPtr} :
    isWait c (.command c₀ jsondata bindata) = true ↔ c₀ = c ∧ command jsondata = "wait" := by
  rw [isWait, decide_eq_true_iff]

theorem isWait_false {c₀ : ClientPtr} (hcommand : c₀ = c → command jsondata ≠ "wait") :
    isWait c (.command c₀ jsondata bindata) = false :=
  Bool.eq_false_iff.mpr fun hwait => hcommand (isWait_iff.mp hwait).1 (isWait_iff.mp hwait).2

theorem addressed_length (hub : Hub) (c : ClientPtr) (action : Action) :
    hub.addressed jansson c action = [] ∨ ∃ m, hub.addressed jansson c action = [m] := by
  cases action with
  | command c' jsondata bindata =>
      simp only [addressed]
      split
      next =>
        split
        next =>
          split
          next => exact .inr ⟨_, rfl⟩
          next => exact .inl rfl
        next => exact .inl rfl
      next =>
        split
        next => exact .inr ⟨_, rfl⟩
        next => exact .inl rfl
      next => exact .inl rfl
  | _ => exact .inl rfl

/-- Only `send` and `broadcast` queue a message. -/
theorem command_of_addressed {c₀ : ClientPtr}
    (hne : hub.addressed jansson c (.command c₀ jsondata bindata) ≠ []) :
    command jsondata = "send" ∨ command jsondata = "broadcast" := by
  rw [addressed] at hne
  split at hne
  next hcommand => exact .inl hcommand
  next hcommand => exact .inr hcommand
  next => exact absurd rfl hne

theorem effect_given (c₀ : ClientPtr) (peer : Peer) :
    Given jansson hub (.command c₀ jsondata bindata) c peer
      (hub.effect jansson c₀ jsondata bindata c peer) := by
  rcases addressed_length jansson hub c (.command c₀ jsondata bindata) with
    hnil | ⟨m, hm⟩
  · rw [effect, hnil, List.foldl_nil]
    by_cases hc : c = c₀
    · rw [if_pos hc, own]
      split
      next hsync =>
        have hno : isWait c (.command c₀ jsondata bindata) = false :=
          isWait_false fun _ => by rw [hsync]; decide
        cases jsondata.unpackInt "n" with
        | none => exact .relayed 0 hnil hno
        | some n => exact .relayed (syncCount n) hnil hno
      next hwait => exact .asked hnil (isWait_iff.mpr ⟨hc.symm, hwait⟩)
      next hwait => exact .relayed 0 hnil (isWait_false fun _ => hwait)
    · rw [if_neg hc]
      exact .relayed 0 hnil (isWait_false fun heq => absurd heq.symm hc)
  · have hne : hub.addressed jansson c (.command c₀ jsondata bindata) ≠ [] := by
      rw [hm]
      exact List.cons_ne_nil _ _
    have hcommand := command_of_addressed jansson hne
    have hwait : command jsondata ≠ "wait" := by
      rcases hcommand with h | h <;> rw [h] <;> decide
    have hsync : command jsondata ≠ "sync" := by
      rcases hcommand with h | h <;> rw [h] <;> decide
    rw [effect, hm, List.foldl_cons, List.foldl_nil, own_eq jansson hsync hwait, ite_self]
    exact .queued m hm (isWait_false fun _ => hwait)

/-- What an event leaves of a client: it was there before, and got what the event
gives and plain messages, or it is new. -/
theorem Acts.peer {action : Action} (h : hub.Acts jansson action hub') {peer' : Peer}
    (hpeer' : hub'.peers c = some peer') :
    (∃ peer given outs, hub.peers c = some peer ∧ Given jansson hub action c peer given ∧
      (∀ out ∈ outs, out.Plain) ∧ peer'.sent = given.sent ++ outs ∧
      peer'.queue = given.queue ∧ peer'.waiting = given.waiting) ∨
    (c = hub.nextClient ∧ peer'.sent = [] ∧ peer'.queue = [] ∧ peer'.waiting = false ∧
      hub.addressed jansson c action = [] ∧ isWait c action = false) := by
  cases action with
  | accept fd ws =>
      cases h
      rcases eq_or_ne c hub.nextClient with rfl | hne
      · have heq := (Function.update_self hub.nextClient _ hub.peers).symm.trans hpeer'
        cases heq
        exact .inr ⟨rfl, rfl, rfl, rfl, rfl, rfl⟩
      · have heq := (Function.update_of_ne hne _ hub.peers).symm.trans hpeer'
        exact .inl ⟨peer', peer', [], heq, .relayed 0 rfl rfl, nofun, (List.append_nil _).symm,
          rfl, rfl⟩
  | find fd =>
      cases h
      exact .inl ⟨peer', peer', [], hpeer', .relayed 0 rfl rfl, nofun, (List.append_nil _).symm,
        rfl, rfl⟩
  | command c₀ jsondata bindata =>
      obtain ⟨outs, hpushes, hreplies⟩ := Handles.pushes jansson h
      cases hpeer : hub.peers c with
      | none =>
          rw [hpushes.none.mpr hpeer] at hpeer'
          cases hpeer'
      | some peer =>
          obtain ⟨now, hnow, _, hwaiting, hqueue, hsent, _⟩ := hpushes.peer hpeer
          rw [hnow] at hpeer'
          cases hpeer'
          exact .inl ⟨peer, _, outs c, rfl, effect_given jansson c₀ peer, hreplies.plain c, hsent,
            hqueue, hwaiting⟩
  | transfer c₀ sock =>
      cases h
      rw [update_peers] at hpeer'
      obtain ⟨peer, hpeer, heq⟩ := Option.map_eq_some_iff.mp hpeer'
      have hsame : peer'.sent = peer.sent ∧ peer'.queue = peer.queue ∧
          peer'.waiting = peer.waiting := by
        split at heq <;> cases heq <;> exact ⟨rfl, rfl, rfl⟩
      exact .inl ⟨peer, peer, [], hpeer, .relayed 0 rfl rfl, nofun,
        hsame.1.trans (List.append_nil _).symm, hsame.2⟩
  | close c₀ =>
      cases h
      rcases eq_or_ne c c₀ with rfl | hne
      · have hnone := (Function.update_self c _ hub.peers).symm.trans hpeer'
        cases hnone
      · have heq := (Function.update_of_ne hne _ hub.peers).symm.trans hpeer'
        exact .inl ⟨peer', peer', [], heq, .relayed 0 rfl rfl, nofun, (List.append_nil _).symm,
          rfl, rfl⟩

theorem Acts.next_le {action : Action} (h : hub.Acts jansson action hub') :
    hub.nextClient ≤ hub'.nextClient ∧ hub.nextMsg ≤ hub'.nextMsg := by
  cases action with
  | accept fd ws =>
      cases h
      exact ⟨Nat.le_succ _, le_rfl⟩
  | command c₀ jsondata bindata =>
      obtain ⟨outs, hpushes, _⟩ := Handles.pushes jansson h
      exact ⟨hpushes.nextClient.ge, hpushes.nextMsg⟩
  | _ =>
      cases h
      exact ⟨le_rfl, le_rfl⟩

end Hub

namespace Peer

variable {peer : Peer} {m : Queued}

/-- The messages relayed to a client so far. -/
def relayed (peer : Peer) : List Queued := peer.sent.filterMap Outgoing.queued?

/-- The numbers with which the waits of a client have been answered so far. -/
def answers (peer : Peer) : List Int64 := peer.sent.filterMap Outgoing.count

@[simp] theorem queued?_out (m : Queued) : m.out.queued? = some m := rfl

@[simp] theorem relayed_push (out : Outgoing) :
    (peer.push jansson out).relayed = peer.relayed ++ out.queued?.toList := by
  rw [relayed, relayed, push, List.filterMap_append]
  cases h : out.queued? <;> simp [h]

@[simp] theorem answers_push (out : Outgoing) :
    (peer.push jansson out).answers = peer.answers ++ out.count.toList := by
  rw [answers, answers, push, List.filterMap_append]
  cases h : out.count <;> simp [h]

theorem filterMap_plain {β : Type} {f : Outgoing → Option β} {outs : List Outgoing}
    (hplain : ∀ out ∈ outs, f out = none) : outs.filterMap f = [] :=
  List.filterMap_eq_nil_iff.mpr hplain

/-- Relaying takes the front of the queue. -/
theorem relay_spec (m : Nat) (peer : Peer) :
    (peer.relay jansson m).relayed = peer.relayed ++ peer.queue.take m ∧
      (peer.relay jansson m).queue = peer.queue.drop m ∧
      (peer.relay jansson m).answers = peer.answers ∧
      (peer.relay jansson m).waiting = peer.waiting ∧
      (peer.relay jansson m).sent = peer.sent ++ (peer.queue.take m).map Queued.out := by
  induction m generalizing peer with
  | zero => simp [relay]
  | succ m ih =>
      cases hqueue : peer.queue with
      | nil => simp [relay, hqueue]
      | cons q rest =>
          rw [relay, hqueue]
          dsimp only
          obtain ⟨hrelayed, hrest, hanswers, hwaiting, hsent⟩ :=
            ih (push jansson { peer with queue := rest } q.out)
          have hfirst : (push jansson { peer with queue := rest } q.out).relayed =
              peer.relayed ++ [q] := by
            rw [relayed_push]
            rfl
          have hsame : (push jansson { peer with queue := rest } q.out).answers = peer.answers := by
            rw [answers_push]
            exact List.append_nil _
          refine ⟨?_, hrest, hanswers.trans hsame, hwaiting, ?_⟩
          · rw [hrelayed, hfirst, List.append_assoc]
            rfl
          · rw [hsent]
            simp [push]

theorem enqueue_spec (m : Queued) (peer : Peer) :
    (peer.enqueue jansson m).relayed = peer.relayed ∧
      (peer.enqueue jansson m).queue = peer.queue ++ [m] ∧
      (peer.enqueue jansson m).waiting = false ∧
      (peer.enqueue jansson m).sent = peer.sent ++
        if peer.waiting then [.json (countReply (peer.queue ++ [m]).length)] else [] := by
  rw [enqueue]
  cases hwaiting : peer.waiting with
  | true =>
      refine ⟨?_, rfl, rfl, rfl⟩
      exact (relayed_push jansson _).trans (List.append_nil _)
  | false => exact ⟨rfl, rfl, rfl, (List.append_nil _).symm⟩

/-- What has arrived from a client is not touched. -/
theorem relay_arrived (m : Nat) (peer : Peer) :
    (peer.relay jansson m).rbuf = peer.rbuf ∧ (peer.relay jansson m).ws = peer.ws := by
  induction m generalizing peer with
  | zero => exact ⟨rfl, rfl⟩
  | succ m ih =>
      rw [relay]
      split
      next => exact ⟨rfl, rfl⟩
      next => exact ih _

end Peer

theorem Hub.Given.arrived {hub : Hub} {action : Action} {c : ClientPtr} {peer given : Peer}
    (h : Hub.Given jansson hub action c peer given) :
    given.rbuf = peer.rbuf ∧ given.ws = peer.ws := by
  cases h with
  | queued m _ _ =>
      rw [Peer.enqueue]
      split <;> exact ⟨rfl, rfl⟩
  | relayed m _ _ => exact peer.relay_arrived jansson m
  | asked _ _ =>
      rw [Peer.wait]
      split <;> exact ⟨rfl, rfl⟩

end Dime

end
