import Dime.Server.Answers
import Dime.Server.Members

/-!
# Serializations

How a handshake changes the serialization of the server, and what a command pushes to
clients that it is not from: the message that makes them switch to dimeb, if the
serialization changes, and the answer to a `wait`.
-/

namespace Dime

deriving instance DecidableEq for Outgoing

/-- The serialization that a message asks for, if it is a handshake that is understood. -/
def requested (jsondata : Json) : Option Serialization :=
  if Hub.command jsondata = "handshake" then
    match jsondata.unpackString "serialization", jsondata.unpackBool "tls" with
    | some serialization, some _ => Serialization.ofName serialization
    | _, _ => none
  else none

namespace Serialization

/-- A request that makes the server give up its serialization. -/
def switches (current : Serialization) (jsondata : Json) : Bool :=
  match requested jsondata with
  | none => false
  | some requested =>
      current ≠ .noSerialization ∧ current ≠ requested ∧ current ≠ .dimeb ∧ current ≠ .json

/-- The serialization after a request. -/
def after (current : Serialization) (jsondata : Json) : Serialization :=
  match requested jsondata with
  | none => current
  | some requested =>
      if current = .noSerialization then requested
      else if current.switches jsondata then .dimeb
      else current

variable {current : Serialization} {jsondata : Json}

theorem after_of_switches (h : current.switches jsondata = true) :
    current.after jsondata = .dimeb := by
  unfold after
  cases hrequested : requested jsondata with
  | none => simp [switches, hrequested] at h
  | some requested =>
      have hset : current ≠ .noSerialization := by
        simp only [switches, hrequested, decide_eq_true_iff] at h
        exact h.1
      simp [hset, h]

theorem after_of_not_switches (h : current.switches jsondata = false)
    (hset : current ≠ .noSerialization) : current.after jsondata = current := by
  unfold after
  cases requested jsondata with
  | none => rfl
  | some requested => simp [hset, h]

theorem after_of_requested_eq_none (h : requested jsondata = none) :
    current.after jsondata = current := by
  rw [after, h]

theorem switches_of_requested_eq_none (h : requested jsondata = none) :
    current.switches jsondata = false := by
  rw [switches, h]

end Serialization

theorem requested_eq_none {jsondata : Json} (h : Hub.command jsondata ≠ "handshake") :
    requested jsondata = none :=
  if_neg h

namespace Outgoing

/-- Neither the message that makes clients switch nor another one with a positive status. -/
def Quiet (out : Outgoing) : Prop :=
  out.queued?.isSome = true ∨ out.status = some 0 ∨ out.status = some (-1)

theorem Reply.quiet {out : Outgoing} (h : out.Reply) : out.Quiet := .inr h.2

theorem quiet_count (n : Nat) : Quiet (.json (countReply n)) := .inr (.inl rfl)

theorem quiet_relay (m : Queued) : Quiet m.out := .inl rfl

theorem not_quiet_reregister : ¬ Quiet (.json reregisterMeta) := by
  intro h
  rcases h with h | h | h <;> revert h <;> decide

end Outgoing

/-- What an event pushes to a client: whatever is quiet to the one that it is from, and the
message that makes clients switch to the others; those may also be told of messages if they
wait for them. `waiting` and `waiting'` tell if the client waits before and after it. -/
inductive Tells (current : Serialization) (c : ClientPtr) (waiting waiting' : Bool) :
    Action → List Outgoing → Prop
  | own (jsondata : Json) (bindata : Bytes) {outs : List Outgoing}
      (quiet : ∀ out ∈ outs, out.Quiet) :
      Tells current c waiting waiting' (.command c jsondata bindata) outs
  | other (c₀ : ClientPtr) (jsondata : Json) (bindata : Bytes) {told : List Outgoing}
      (ne : c ≠ c₀) (quiet : ∀ out ∈ told, out.Quiet)
      (awake : waiting = false → told = [] ∧ waiting' = false) :
      Tells current c waiting waiting' (.command c₀ jsondata bindata)
        (told ++ if current.switches jsondata then [.json reregisterMeta] else [])
  | nothing {action : Action} (noCommand : ∀ c₀ jsondata bindata,
        action ≠ .command c₀ jsondata bindata) (same : waiting' = waiting) :
      Tells current c waiting waiting' action []

noncomputable section

open Classical

variable {jansson : Jansson Json}

namespace Hub

variable {hub hub' : Hub} {c c' : ClientPtr} {jsondata : Json} {bindata : Bytes}

/-! ## Other clients -/

theorem push_others (hne : c' ≠ c) (out : Outgoing) :
    (hub.push jansson c out).peers c' = hub.peers c' := by
  rw [push, update_peers]
  simp [hne]

theorem withNames_others {handle : Json → Hub → Bool × Hub} (hne : c' ≠ c)
    (hhandle : ∀ v hub, (handle v hub).2.peers c' = hub.peers c') (jsondata : Json) :
    (hub.withNames jansson handle c jsondata).peers c' = hub.peers c' := by
  have heach : ∀ vs hub, (eachName handle vs hub).2.peers c' = hub.peers c' := by
    intro vs
    induction vs with
    | nil => exact fun hub => rfl
    | cons v rest ih =>
        intro hub
        unfold eachName
        by_cases hok : (handle v hub).1 = true
        · rw [if_pos hok, ih, hhandle]
        · rw [if_neg hok, hhandle]
  unfold withNames
  cases jsondata.get? "name" with
  | none => exact push_others hne _
  | some arr =>
      by_cases hok : (eachName handle arr.elements hub).1 = true
      · simp only [if_pos hok, finish]
        rw [push_others hne, heach]
      · simp only [if_neg hok]
        exact heach _ _

theorem joinName_others (hne : c' ≠ c) (v : Json) (hub : Hub) :
    (joinName jansson c v hub).2.peers c' = hub.peers c' := by
  cases v with
  | string name =>
      unfold joinName
      by_cases hmember : hub.member c name
      · simp only [if_pos hmember, refuse]
        exact push_others hne _
      · simp only [if_neg hmember]
        rfl
  | _ => exact push_others hne _

theorem leaveName_others (hne : c' ≠ c) (v : Json) (hub : Hub) :
    (leaveName jansson c v hub).2.peers c' = hub.peers c' := by
  cases v with
  | string name =>
      unfold leaveName
      by_cases hmember : hub.member c name
      · simp only [if_pos hmember]
        rfl
      · simp only [if_neg hmember, refuse]
        exact push_others hne _
  | _ => exact push_others hne _

theorem handshake_of_none (jansson : Jansson Json) (hub : Hub) (c : ClientPtr)
    (hcommand : command jsondata = "handshake") (h : requested jsondata = none) : hub.handshake jansson c jsondata = hub ∨
      ∃ text, hub.handshake jansson c jsondata = hub.refuse jansson c text := by
  unfold handshake
  rw [requested, if_pos hcommand] at h
  cases hserialization : jsondata.unpackString "serialization" with
  | none => exact .inr ⟨_, rfl⟩
  | some serialization =>
      cases htls : jsondata.unpackBool "tls" with
      | none => exact .inr ⟨_, rfl⟩
      | some tls =>
          simp only [hserialization, htls] at h
          left
          simp only [h]

theorem handshake_of_some (jansson : Jansson Json) (hub : Hub) (c : ClientPtr)
    {r : Serialization} (h : requested jsondata = some r) :
    command jsondata = "handshake" ∧ ∃ name, jsondata.unpackString "serialization" = some name ∧
      Serialization.ofName name = some r ∧
      hub.handshake jansson c jsondata = (hub.negotiate jansson c r).push jansson c
        (.json (handshakeReply ((hub.negotiate jansson c r).serialization.name name) false)) := by
  unfold requested at h
  by_cases hcommand : command jsondata = "handshake"
  · rw [if_pos hcommand] at h
    refine ⟨hcommand, ?_⟩
    unfold handshake
    cases hserialization : jsondata.unpackString "serialization" with
    | none => simp [hserialization] at h
    | some serialization =>
        cases htls : jsondata.unpackBool "tls" with
        | none => simp [hserialization, htls] at h
        | some tls =>
            simp only [hserialization, htls] at h
            exact ⟨serialization, rfl, h, by simp only [h]⟩
  · rw [if_neg hcommand] at h
    cases h

/-- A handshake that is understood sets the serialization, and tells the other clients if it
changes. -/
theorem negotiate_eq (jansson : Jansson Json) (hub : Hub) (c : ClientPtr)
    {r : Serialization} (h : requested jsondata = some r) :
    (hub.negotiate jansson c r).serialization = hub.serialization.after jsondata ∧
    (hub.negotiate jansson c r).peers = fun c' => (hub.peers c').map fun peer =>
      if c' ≠ c ∧ hub.serialization.switches jsondata = true then
        peer.push jansson (.json reregisterMeta)
      else peer := by
  unfold negotiate Serialization.after Serialization.switches
  simp only [h]
  by_cases hset : hub.serialization = .noSerialization
  · simp [hset]
  · by_cases hswitch : hub.serialization ≠ r ∧ hub.serialization ≠ .dimeb ∧
        hub.serialization ≠ .json
    · simp only [hset, if_false, if_pos hswitch]
      constructor
      · simp [hset, hswitch]
      · funext c'
        simp [update, hset, hswitch]
    · simp [hset, hswitch]

theorem handshake_serialization (hcommand : command jsondata = "handshake") :
    (hub.handshake jansson c jsondata).serialization = hub.serialization.after jsondata := by
  cases hrequested : requested jsondata with
  | none =>
      rw [Serialization.after_of_requested_eq_none hrequested]
      rcases handshake_of_none jansson hub c hcommand hrequested with
        heq | ⟨text, heq⟩
      · rw [heq]
      · rw [heq]
        rfl
  | some r =>
      obtain ⟨_, name, _, _, heq⟩ := handshake_of_some jansson hub c hrequested
      rw [heq, push_serialization]
      exact (negotiate_eq jansson hub c hrequested).1

theorem handshake_others (hne : c' ≠ c) (hcommand : command jsondata = "handshake") :
    (hub.handshake jansson c jsondata).peers c' = (hub.peers c').map fun peer =>
      if hub.serialization.switches jsondata then peer.push jansson (.json reregisterMeta)
      else peer := by
  cases hrequested : requested jsondata with
  | none =>
      simp only [Serialization.switches_of_requested_eq_none hrequested, Bool.false_eq_true,
        if_false, Option.map_id']
      rcases handshake_of_none jansson hub c hcommand hrequested with
        heq | ⟨text, heq⟩
      · rw [heq]
      · rw [heq, refuse, push_others hne]
  | some r =>
      obtain ⟨_, name, _, _, heq⟩ := handshake_of_some jansson hub c hrequested
      rw [heq, push_others hne, (negotiate_eq jansson hub c hrequested).2]
      simp [hne]

theorem send_others (hne : c' ≠ c) (hcommand : command jsondata = "send") :
    (hub.send jansson c jsondata bindata).peers c' = (hub.peers c').map fun peer =>
      (hub.addressed jansson c' (.command c jsondata bindata)).foldl
        (fun peer m => peer.enqueue jansson m) peer := by
  simp only [addressed, hcommand]
  rw [send]
  cases jsondata.unpackString "name" with
  | none =>
      simp only [List.foldl_nil, Option.map_id', refuse]
      exact push_others hne _
  | some name =>
      by_cases hgroup : ∃ c', hub.member c' name
      · simp only [if_pos hgroup, finish]
        rw [push_others hne, deliver, update_peers]
        congr 1
        funext peer
        by_cases hmember : hub.member c' name
        · simp [hmember]
        · simp [hmember]
      · have hmember : ¬ hub.member c' name := fun hmem => hgroup ⟨c', hmem⟩
        simp only [if_neg hgroup, if_neg hmember, List.foldl_nil, Option.map_id', refuse]
        exact push_others hne _

theorem broadcast_others (hne : c' ≠ c) (hcommand : command jsondata = "broadcast") :
    (hub.broadcast jansson c jsondata bindata).peers c' = (hub.peers c').map fun peer =>
      (hub.addressed jansson c' (.command c jsondata bindata)).foldl
        (fun peer m => peer.enqueue jansson m) peer := by
  simp only [addressed, hcommand]
  rw [broadcast, finish, push_others hne, deliver, update_peers]
  cases hpeer : hub.peers c' with
  | none => rfl
  | some peer => simp [hne]

/-- What a command does to a client that it is not from. -/
theorem Handles.others (h : hub.Handles jansson c jsondata bindata hub') (hne : c' ≠ c) :
    hub'.peers c' = (hub.peers c').map fun peer =>
      let given := (hub.addressed jansson c' (.command c jsondata bindata)).foldl
        (fun peer m => peer.enqueue jansson m) peer
      if hub.serialization.switches jsondata then given.push jansson (.json reregisterMeta)
      else given := by
  -- a command that is no handshake
  have hqueues : command jsondata ≠ "handshake" →
      (hub'.peers c' = (hub.peers c').map fun peer =>
        (hub.addressed jansson c' (.command c jsondata bindata)).foldl
          (fun peer m => peer.enqueue jansson m) peer) →
      hub'.peers c' = (hub.peers c').map fun peer =>
        let given := (hub.addressed jansson c' (.command c jsondata bindata)).foldl
          (fun peer m => peer.enqueue jansson m) peer
        if hub.serialization.switches jsondata then given.push jansson (.json reregisterMeta)
        else given := by
    intro hhandshake hpeers
    rw [hpeers]
    simp [Serialization.switches_of_requested_eq_none (requested_eq_none hhandshake)]
  -- a command that queues nothing either
  have hsame : command jsondata ≠ "handshake" → command jsondata ≠ "send" →
      command jsondata ≠ "broadcast" → hub'.peers c' = hub.peers c' →
      hub'.peers c' = (hub.peers c').map fun peer =>
        let given := (hub.addressed jansson c' (.command c jsondata bindata)).foldl
          (fun peer m => peer.enqueue jansson m) peer
        if hub.serialization.switches jsondata then given.push jansson (.json reregisterMeta)
        else given := by
    intro hhandshake hsend hbroadcast hpeers
    apply hqueues hhandshake
    rw [hpeers, addressed_eq_nil jansson hsend hbroadcast]
    exact Option.map_id'.symm
  have hnone : ∀ {name}, command jsondata = name → name ≠ "handshake" → name ≠ "send" →
      name ≠ "broadcast" → hub'.peers c' = hub.peers c' → _ := fun hcommand hhandshake hsend hbroadcast =>
    hsame (command_ne hcommand hhandshake) (command_ne hcommand hsend) (command_ne hcommand hbroadcast)
  rw [Handles] at h
  split at h
  case h_1 hcommand =>
    rw [h, handshake_others hne hcommand,
      addressed_eq_nil jansson (command_ne hcommand (by decide)) (command_ne hcommand (by decide))]
    rfl
  case h_2 hcommand =>
    apply hnone hcommand (by decide) (by decide) (by decide)
    rw [h]
    exact withNames_others hne (joinName_others hne) jsondata
  case h_3 hcommand =>
    apply hnone hcommand (by decide) (by decide) (by decide)
    rw [h]
    exact withNames_others hne (leaveName_others hne) jsondata
  case h_4 hcommand =>
    apply hqueues (command_ne hcommand (by decide))
    rw [h]
    exact send_others hne hcommand
  case h_5 hcommand =>
    apply hqueues (command_ne hcommand (by decide))
    rw [h]
    exact broadcast_others hne hcommand
  case h_6 hcommand =>
    apply hnone hcommand (by decide) (by decide) (by decide)
    rw [h, sync]
    cases jsondata.unpackInt "n" with
    | none => rfl
    | some n =>
        simp only [finish]
        rw [push_others hne, update_peers]
        simp [hne]
  case h_7 hcommand =>
    apply hnone hcommand (by decide) (by decide) (by decide)
    rw [h, wait, update_peers]
    simp [hne]
  case h_8 hcommand =>
    apply hnone hcommand (by decide) (by decide) (by decide)
    obtain ⟨names, _, _, rfl⟩ := h
    exact push_others hne _
  case h_9 hhandshake _ _ hsend hbroadcast _ _ _ =>
    apply hsame hhandshake hsend hbroadcast
    rw [h]
    exact push_others hne _

/-! ## The serialization -/

theorem withNames_serialization {handle : Json → Hub → Bool × Hub}
    (hhandle : ∀ v hub, (handle v hub).2.serialization = hub.serialization) (jsondata : Json) :
    (hub.withNames jansson handle c jsondata).serialization = hub.serialization := by
  have heach : ∀ vs hub, (eachName handle vs hub).2.serialization = hub.serialization := by
    intro vs
    induction vs with
    | nil => exact fun hub => rfl
    | cons v rest ih =>
        intro hub
        unfold eachName
        by_cases hok : (handle v hub).1 = true
        · rw [if_pos hok, ih, hhandle]
        · rw [if_neg hok, hhandle]
  unfold withNames
  cases jsondata.get? "name" with
  | none => rfl
  | some arr =>
      by_cases hok : (eachName handle arr.elements hub).1 = true
      · simp only [if_pos hok]
        exact heach _ _
      · simp only [if_neg hok]
        exact heach _ _

theorem joinName_serialization (v : Json) (hub : Hub) :
    (joinName jansson c v hub).2.serialization = hub.serialization := by
  cases v with
  | string name =>
      unfold joinName
      by_cases hmember : hub.member c name
      · simp only [if_pos hmember]
        rfl
      · simp only [if_neg hmember]
        rfl
  | _ => rfl

theorem leaveName_serialization (v : Json) (hub : Hub) :
    (leaveName jansson c v hub).2.serialization = hub.serialization := by
  cases v with
  | string name =>
      unfold leaveName
      by_cases hmember : hub.member c name
      · simp only [if_pos hmember]
        rfl
      · simp only [if_neg hmember]
        rfl
  | _ => rfl

theorem send_serialization (bindata : Bytes) :
    (hub.send jansson c jsondata bindata).serialization = hub.serialization := by
  unfold send
  cases jsondata.unpackString "name" with
  | none => rfl
  | some name =>
      by_cases hgroup : ∃ c', hub.member c' name
      · simp only [if_pos hgroup]
        rfl
      · simp only [if_neg hgroup]
        rfl

theorem sync_serialization : (hub.sync jansson c jsondata).serialization = hub.serialization := by
  unfold sync
  cases jsondata.unpackInt "n" with
  | none => rfl
  | some n => rfl

theorem Handles.serialization (h : hub.Handles jansson c jsondata bindata hub') :
    hub'.serialization = hub.serialization.after jsondata := by
  have hsame : command jsondata ≠ "handshake" → hub'.serialization = hub.serialization →
      hub'.serialization = hub.serialization.after jsondata := by
    intro hhandshake hserialization
    rw [Serialization.after_of_requested_eq_none (requested_eq_none hhandshake), hserialization]
  rw [Handles] at h
  split at h
  case h_1 hcommand => rw [h, handshake_serialization hcommand]
  case h_2 hcommand =>
    apply hsame (command_ne hcommand (by decide))
    rw [h]
    exact withNames_serialization joinName_serialization jsondata
  case h_3 hcommand =>
    apply hsame (command_ne hcommand (by decide))
    rw [h]
    exact withNames_serialization leaveName_serialization jsondata
  case h_4 hcommand =>
    apply hsame (command_ne hcommand (by decide))
    rw [h]
    exact send_serialization bindata
  case h_5 hcommand =>
    apply hsame (command_ne hcommand (by decide))
    rw [h]
    rfl
  case h_6 hcommand =>
    apply hsame (command_ne hcommand (by decide))
    rw [h]
    exact sync_serialization
  case h_7 hcommand =>
    apply hsame (command_ne hcommand (by decide))
    rw [h]
    rfl
  case h_8 hcommand =>
    apply hsame (command_ne hcommand (by decide))
    obtain ⟨names, _, _, rfl⟩ := h
    rfl
  case h_9 hhandshake _ _ _ _ _ _ _ =>
    apply hsame hhandshake
    rw [h]
    rfl

/-! ## The client itself -/

theorem Given.quiet {action : Action} {peer given : Peer}
    (h : Given jansson hub action c peer given) :
    ∃ outs, given.sent = peer.sent ++ outs ∧ ∀ out ∈ outs, out.Quiet := by
  cases h with
  | queued m _ _ =>
      refine ⟨_, (peer.enqueue_spec jansson m).2.2.2, ?_⟩
      intro out hmem
      split at hmem
      next =>
        rw [List.mem_singleton.mp hmem]
        exact Outgoing.quiet_count _
      next => cases hmem
  | relayed m _ _ =>
      refine ⟨_, (peer.relay_spec jansson m).2.2.2.2, ?_⟩
      intro out hmem
      obtain ⟨q, _, rfl⟩ := List.mem_map.mp hmem
      exact Outgoing.quiet_relay q
  | asked _ _ =>
      unfold Peer.wait
      split
      next =>
        refine ⟨_, rfl, ?_⟩
        intro out hmem
        rw [List.mem_singleton.mp hmem]
        exact Outgoing.quiet_count _
      next => exact ⟨[], (List.append_nil _).symm, by simp⟩

/-- What a command pushes to the client that it is from is quiet. -/
theorem Handles.quiet (h : hub.Handles jansson c jsondata bindata hub') {peer : Peer}
    (hpeer : hub.peers c = some peer) : ∃ peer' outs, hub'.peers c = some peer' ∧
      peer'.sent = peer.sent ++ outs ∧ ∀ out ∈ outs, out.Quiet := by
  obtain ⟨outs, hpushes, hreplies⟩ := Handles.pushes jansson h
  obtain ⟨peer', hpeer', _, _, _, hsent, _⟩ := hpushes.peer hpeer
  have hplain : ∀ out ∈ outs c, out.Quiet := by
    intro out hmem
    by_cases hsilent : Mute jsondata ∨ command jsondata = "wait"
    · rw [hreplies.silent hsilent] at hmem
      cases hmem
    · obtain ⟨reply, houts, hreply⟩ := hreplies.reply (fun hmute => hsilent (.inl hmute))
        fun hwait => hsilent (.inr hwait)
      rw [houts] at hmem
      rw [List.mem_singleton.mp hmem]
      exact hreply.quiet
  -- what is given first: an answer to a `wait`, or relayed messages
  have hgives : Given jansson hub (.command c jsondata bindata) c peer
      (hub.effect jansson c jsondata bindata c peer) := effect_given jansson c peer
  obtain ⟨given, hgiven, hquiet⟩ := hgives.quiet
  refine ⟨peer', given ++ outs c, hpeer', by rw [hsent, hgiven, List.append_assoc], ?_⟩
  intro out hmem
  rcases List.mem_append.mp hmem with hmem | hmem
  · exact hquiet out hmem
  · exact hplain out hmem

/-- A client that does not wait for messages is answered by relayed messages, if it
synchronises, and a reply; or it waits for messages from then on. -/
theorem Handles.answers (h : hub.Handles jansson c jsondata bindata hub') (hmute : ¬ Mute jsondata)
    {peer : Peer} (hpeer : hub.peers c = some peer) (hwaiting : peer.waiting = false) :
    ∃ peer' outs, hub'.peers c = some peer' ∧ peer'.sent = peer.sent ++ outs ∧
      ((peer'.waiting = false ∧ ∃ relays out, outs = relays.map Queued.out ++ [out] ∧
          (command jsondata ≠ "sync" → relays = []) ∧
          (out.status = some 0 ∨ out.status = some (-1))) ∨
        (command jsondata = "wait" ∧ peer'.waiting = true ∧ outs = [])) := by
  obtain ⟨outs, hpushes, hreplies⟩ := Handles.pushes jansson h
  obtain ⟨peer', hpeer', _, hwaiting', _, hsent, _⟩ := hpushes.peer hpeer
  by_cases hwait : command jsondata = "wait"
  · have hsend : command jsondata ≠ "send" := command_ne hwait (by decide)
    have hbroadcast : command jsondata ≠ "broadcast" := command_ne hwait (by decide)
    have hgiven : hub.effect jansson c jsondata bindata c peer = peer.wait jansson := by
      rw [effect_own jansson hsend hbroadcast, if_pos rfl, own, hwait]
      rfl
    rw [hgiven] at hwaiting' hsent
    rw [hreplies.silent (.inr hwait), List.append_nil, Peer.wait] at hsent
    rw [Peer.wait] at hwaiting'
    by_cases hqueue : peer.queue.length > 0
    · rw [if_pos hqueue] at hwaiting' hsent
      exact ⟨peer', _, hpeer', hsent, .inl ⟨hwaiting'.trans hwaiting, [], _, rfl, fun _ => rfl,
        .inl rfl⟩⟩
    · rw [if_neg hqueue] at hwaiting' hsent
      exact ⟨peer', [], hpeer', hsent.trans (List.append_nil _).symm, .inr ⟨hwait, hwaiting', rfl⟩⟩
  · obtain ⟨out, houts, hreply⟩ := hreplies.reply hmute hwait
    -- what is given before the reply: relayed messages, in answer to a `sync`
    have hgiven : (hub.effect jansson c jsondata bindata c peer).waiting = false ∧
        ∃ relays : List Queued, (hub.effect jansson c jsondata bindata c peer).sent =
          peer.sent ++ relays.map Queued.out ∧ (command jsondata ≠ "sync" → relays = []) := by
      by_cases hsync : command jsondata = "sync"
      · have hsend : command jsondata ≠ "send" := command_ne hsync (by decide)
        have hbroadcast : command jsondata ≠ "broadcast" := command_ne hsync (by decide)
        rw [effect_own jansson hsend hbroadcast, if_pos rfl, own, hsync]
        cases hn : jsondata.unpackInt "n" with
        | none => exact absurd (.inr ⟨hsync, hn⟩) hmute
        | some n =>
            obtain ⟨_, _, _, hflag, hpushed⟩ := peer.relay_spec jansson (syncCount n)
            exact ⟨hflag.trans hwaiting, _, hpushed, fun hne => absurd rfl hne⟩
      · rcases addressed_length jansson hub c (.command c jsondata bindata) with hnil | ⟨m, hm⟩
        · rw [effect, hnil, List.foldl_nil, own_eq jansson hsync hwait, ite_self]
          exact ⟨hwaiting, [], (List.append_nil _).symm, fun _ => rfl⟩
        · rw [effect, hm, List.foldl_cons, List.foldl_nil, own_eq jansson hsync hwait, ite_self]
          obtain ⟨_, _, hawake, hsame⟩ := peer.enqueue_spec jansson m
          refine ⟨hawake, [], ?_, fun _ => rfl⟩
          rw [hsame, hwaiting]
          rfl
    obtain ⟨hawake, relays, hrelays, hnone⟩ := hgiven
    refine ⟨peer', relays.map Queued.out ++ [out], hpeer', ?_,
      .inl ⟨hwaiting'.trans hawake, relays, out, rfl, hnone, hreply.2⟩⟩
    rw [hsent, hrelays, houts, List.append_assoc]

/-- A handshake that is understood is answered with the serialization in use. -/
theorem Handles.handshakes (h : hub.Handles jansson c jsondata bindata hub')
    {r : Serialization} (hrequested : requested jsondata = some r) {peer : Peer}
    (hpeer : hub.peers c = some peer) : ∃ name peer',
      jsondata.unpackString "serialization" = some name ∧ Serialization.ofName name = some r ∧
      hub'.peers c = some peer' ∧ peer'.waiting = peer.waiting ∧ peer'.sent = peer.sent ++
        [.json (handshakeReply ((hub.serialization.after jsondata).name name) false)] := by
  obtain ⟨hcommand, name, hname, hofName, heq⟩ := handshake_of_some jansson hub c hrequested
  rw [Handles, show (jsondata.unpackString "command").getD "" = "handshake" from hcommand] at h
  rw [heq] at h
  obtain ⟨hserialization, hpeers⟩ := negotiate_eq jansson hub c hrequested
  refine ⟨name, peer.push jansson
    (.json (handshakeReply ((hub.serialization.after jsondata).name name) false)), hname, hofName,
    ?_, rfl, rfl⟩
  rw [h, hserialization]
  apply push_peer
  rw [hpeers]
  simp [hpeer]

/-! ## Events -/

/-- What a client is told that waits for messages, when one is queued. -/
def Wakes (waiting waiting' : Bool) (told : List Outgoing) : Prop :=
  (told = [] ∧ waiting' = waiting) ∨
    (waiting = true ∧ waiting' = false ∧ ∃ n, told = [.json (countReply n)])

theorem Wakes.quiet {waiting waiting' : Bool} {told : List Outgoing}
    (h : Wakes waiting waiting' told) : ∀ out ∈ told, out.Quiet := by
  intro out hmem
  rcases h with ⟨rfl, _⟩ | ⟨_, _, n, rfl⟩
  · cases hmem
  · rw [List.mem_singleton.mp hmem]
    exact Outgoing.quiet_count n

theorem Wakes.awake {waiting waiting' : Bool} {told : List Outgoing}
    (h : Wakes waiting waiting' told) (hwaiting : waiting = false) : told = [] ∧ waiting' = false := by
  rcases h with ⟨rfl, hsame⟩ | ⟨hbad, _⟩
  · exact ⟨rfl, hsame.trans hwaiting⟩
  · rw [hwaiting] at hbad
    cases hbad

/-- What a client is sent with the messages that are queued for it. -/
theorem addressed_wakes (hub : Hub) (c₀ : ClientPtr) (jsondata : Json) (bindata : Bytes)
    (peer : Peer) :
    let given := (hub.addressed jansson c (.command c₀ jsondata bindata)).foldl
      (fun peer m => peer.enqueue jansson m) peer
    ∃ told, given.sent = peer.sent ++ told ∧ Wakes peer.waiting given.waiting told := by
  rcases addressed_length jansson hub c (.command c₀ jsondata bindata) with hnil | ⟨m, hm⟩
  · rw [hnil]
    exact ⟨[], (List.append_nil _).symm, .inl ⟨rfl, rfl⟩⟩
  · rw [hm, List.foldl_cons, List.foldl_nil]
    obtain ⟨_, _, hawake, hsent⟩ := peer.enqueue_spec jansson m
    refine ⟨_, hsent, ?_⟩
    cases hwaiting : peer.waiting with
    | true => exact .inr ⟨rfl, hawake, _, rfl⟩
    | false => exact .inl ⟨rfl, hawake⟩

/-- What a command tells a client that it is not from. -/
theorem Handles.wakes {c₀ : ClientPtr} (h : hub.Handles jansson c₀ jsondata bindata hub')
    (hne : c ≠ c₀) {peer' : Peer} (hpeer' : hub'.peers c = some peer') :
    ∃ peer told, hub.peers c = some peer ∧
      peer'.sent = peer.sent ++
        (told ++ if hub.serialization.switches jsondata then [.json reregisterMeta] else []) ∧
      Wakes peer.waiting peer'.waiting told := by
  rw [Handles.others h hne] at hpeer'
  obtain ⟨peer, hpeer, rfl⟩ := Option.map_eq_some_iff.mp hpeer'
  obtain ⟨told, htold, hwakes⟩ := @addressed_wakes jansson c hub c₀ jsondata bindata peer
  refine ⟨peer, told, hpeer, ?_⟩
  by_cases hswitch : hub.serialization.switches jsondata = true
  · simp only [if_pos hswitch]
    rw [Peer.push, htold, List.append_assoc]
    exact ⟨rfl, hwakes⟩
  · simp only [if_neg hswitch]
    rw [htold, List.append_nil]
    exact ⟨rfl, hwakes⟩

/-- A command that is neither a `sync` nor a `wait` is answered by one reply, behind what its
client is told that waits for messages and sends itself one. -/
theorem Handles.replies (h : hub.Handles jansson c jsondata bindata hub') (hmute : ¬ Mute jsondata)
    (hsync : command jsondata ≠ "sync") (hwait : command jsondata ≠ "wait") {peer : Peer}
    (hpeer : hub.peers c = some peer) : ∃ peer' told out, hub'.peers c = some peer' ∧
      peer'.sent = peer.sent ++ (told ++ [out]) ∧ Wakes peer.waiting peer'.waiting told ∧
      out.Reply := by
  obtain ⟨outs, hpushes, hreplies⟩ := Handles.pushes jansson h
  obtain ⟨peer', hpeer', _, hwaiting, _, hsent, _⟩ := hpushes.peer hpeer
  obtain ⟨out, hout, hreply⟩ := hreplies.reply hmute hwait
  obtain ⟨told, htold, hwakes⟩ := @addressed_wakes jansson c hub c jsondata bindata peer
  rw [effect, own_eq jansson hsync hwait, ite_self] at hwaiting hsent
  rw [← hwaiting] at hwakes
  exact ⟨peer', told, out, hpeer', by rw [hsent, htold, hout, List.append_assoc], hwakes, hreply⟩

/-- Such a command queues messages, and takes none. -/
theorem Handles.queues {c₀ : ClientPtr} (h : hub.Handles jansson c₀ jsondata bindata hub')
    (hsync : command jsondata ≠ "sync") (hwait : command jsondata ≠ "wait") {peer : Peer}
    (hpeer : hub.peers c = some peer) : ∃ peer', hub'.peers c = some peer' ∧
      peer'.queue = peer.queue ++ hub.addressed jansson c (.command c₀ jsondata bindata) := by
  obtain ⟨outs, hpushes, _⟩ := Handles.pushes jansson h
  obtain ⟨peer', hpeer', _, _, hqueue, _⟩ := hpushes.peer hpeer
  rw [effect, own_eq jansson hsync hwait, ite_self] at hqueue
  refine ⟨peer', hpeer', hqueue.trans ?_⟩
  rcases addressed_length jansson hub c (.command c₀ jsondata bindata) with hnil | ⟨m, hm⟩
  · rw [hnil, List.foldl_nil, List.append_nil]
  · rw [hm, List.foldl_cons, List.foldl_nil]
    exact (peer.enqueue_spec jansson m).2.1

theorem Handles.tells {c₀ : ClientPtr} (h : hub.Handles jansson c₀ jsondata bindata hub') {peer' : Peer}
    (hpeer' : hub'.peers c = some peer') :
    ∃ peer outs, hub.peers c = some peer ∧ peer'.sent = peer.sent ++ outs ∧
      Tells hub.serialization c peer.waiting peer'.waiting (.command c₀ jsondata bindata) outs := by
  rcases eq_or_ne c c₀ with rfl | hne
  · cases hpeer : hub.peers c with
    | none =>
        obtain ⟨outs, hpushes, _⟩ := Handles.pushes jansson h
        rw [hpushes.none.mpr hpeer] at hpeer'
        cases hpeer'
    | some peer =>
        obtain ⟨now, outs, hnow, hsent, hquiet⟩ := Handles.quiet h hpeer
        rw [hnow] at hpeer'
        cases hpeer'
        exact ⟨peer, outs, rfl, hsent, .own jsondata bindata hquiet⟩
  · obtain ⟨peer, told, hpeer, hsent, hwakes⟩ := h.wakes hne hpeer'
    exact ⟨peer, _, hpeer, hsent, .other c₀ jsondata bindata hne hwakes.quiet hwakes.awake⟩

/-- What an event leaves of a client: it was there before, and was told something, or it is
new. -/
theorem Acts.tells {action : Action} (h : hub.Acts jansson action hub') {peer' : Peer}
    (hpeer' : hub'.peers c = some peer') :
    (∃ peer outs, hub.peers c = some peer ∧ peer'.sent = peer.sent ++ outs ∧
      Tells hub.serialization c peer.waiting peer'.waiting action outs) ∨
    c = hub.nextClient ∧ peer'.sent = [] ∧ peer'.waiting = false ∧
      ∃ fd ws, action = .accept fd ws := by
  have hnothing : (∀ c₀ jsondata bindata, action ≠ .command c₀ jsondata bindata) →
      (∃ peer, hub.peers c = some peer ∧ peer'.sent = peer.sent ∧
        peer'.waiting = peer.waiting) →
      ∃ peer outs, hub.peers c = some peer ∧ peer'.sent = peer.sent ++ outs ∧
        Tells hub.serialization c peer.waiting peer'.waiting action outs := by
    rintro hcommand ⟨peer, hpeer, hsent, hwaiting⟩
    exact ⟨peer, [], hpeer, by rw [hsent, List.append_nil], .nothing hcommand hwaiting⟩
  cases action with
  | accept fd ws =>
      cases h
      rcases eq_or_ne c hub.nextClient with rfl | hne
      · have heq := (Function.update_self hub.nextClient _ hub.peers).symm.trans hpeer'
        cases heq
        exact .inr ⟨rfl, rfl, rfl, fd, ws, rfl⟩
      · have heq := (Function.update_of_ne hne _ hub.peers).symm.trans hpeer'
        exact .inl (hnothing (fun _ _ _ => Action.noConfusion) ⟨peer', heq, rfl, rfl⟩)
  | find fd =>
      cases h
      exact .inl (hnothing (fun _ _ _ => Action.noConfusion) ⟨peer', hpeer', rfl, rfl⟩)
  | command c₀ jsondata bindata => exact .inl (Handles.tells h hpeer')
  | transfer c₀ sock =>
      cases h
      rw [update_peers] at hpeer'
      obtain ⟨peer, hpeer, heq⟩ := Option.map_eq_some_iff.mp hpeer'
      refine .inl (hnothing (fun _ _ _ => Action.noConfusion) ⟨peer, hpeer, ?_⟩)
      split at heq <;> cases heq <;> exact ⟨rfl, rfl⟩
  | close c₀ =>
      cases h
      rcases eq_or_ne c c₀ with rfl | hne
      · have hnone := (Function.update_self c _ hub.peers).symm.trans hpeer'
        cases hnone
      · have heq := (Function.update_of_ne hne _ hub.peers).symm.trans hpeer'
        exact .inl (hnothing (fun _ _ _ => Action.noConfusion) ⟨peer', heq, rfl, rfl⟩)

theorem Acts.serialization {action : Action} (h : hub.Acts jansson action hub') :
    hub'.serialization = match action with
      | .command _ jsondata _ => hub.serialization.after jsondata
      | _ => hub.serialization := by
  cases action with
  | command c₀ jsondata bindata => exact Handles.serialization h
  | accept fd ws =>
      cases h
      rfl
  | find fd =>
      cases h
      rfl
  | transfer c₀ sock =>
      cases h
      rfl
  | close c₀ =>
      cases h
      rfl

end Hub

end

namespace Server

variable {jansson : Jansson Json} {mid srv' : Server} {action : Action} {c : ClientPtr}
  {clnt' : Client}

theorem tells (h : mid.view.Acts jansson action srv'.view)
    (hc' : srv'.clnts.cells c = some clnt') :
    (∃ clnt outs, mid.clnts.cells c = some clnt ∧ clnt'.sent = clnt.sent ++ outs ∧
      Tells mid.serialization c clnt.waiting clnt'.waiting action outs) ∨
    c = mid.clnts.next ∧ clnt'.sent = [] ∧ clnt'.waiting = false ∧
      ∃ fd ws, action = .accept fd ws := by
  have hpeer' : srv'.view.peers c = some (clnt'.view srv'.content) := by
    rw [view_peers, hc', Option.map_some]
  rcases h.tells hpeer' with ⟨peer, outs, hpeer, hsent, htells⟩ | hnew
  · left
    obtain ⟨clnt, hc, rfl⟩ := Option.map_eq_some_iff.mp hpeer
    exact ⟨clnt, outs, hc, hsent, htells⟩
  · exact .inr hnew

/-- The serializations of the server in the states of a run. -/
def serializations (history : List (Server × Action)) (srv : Server) : List Serialization :=
  history.map (fun entry => entry.1.serialization) ++ [srv.serialization]

end Server

namespace Serialization

/-- What a serialization may become: it is set, it stays, or it changes to dimeb. -/
def Becomes (current later : Serialization) : Prop :=
  current = .noSerialization ∨ later = current ∨ (later = .dimeb ∧ current ≠ .json)

/-- How often a serialization that is set changes. -/
def changes : List Serialization → Nat
  | current :: later :: rest =>
      (if current ≠ .noSerialization ∧ current ≠ later then 1 else 0) + changes (later :: rest)
  | _ => 0

variable {current later last : Serialization}

theorem Becomes.trans (h : current.Becomes later) (h' : later.Becomes last) :
    current.Becomes last := by
  rcases h with hunset | rfl | ⟨rfl, hjson⟩
  · exact .inl hunset
  · exact h'
  · rcases h' with hbad | rfl | ⟨rfl, _⟩
    · cases hbad
    · exact .inr (.inr ⟨rfl, hjson⟩)
    · exact .inr (.inr ⟨rfl, hjson⟩)

theorem becomes_after (current : Serialization) (jsondata : Json) :
    current.Becomes (current.after jsondata) := by
  by_cases hset : current = .noSerialization
  · exact .inl hset
  · right
    by_cases hswitch : current.switches jsondata = true
    · right
      refine ⟨after_of_switches hswitch, ?_⟩
      rintro rfl
      cases hrequested : requested jsondata <;> simp [switches, hrequested] at hswitch
    · exact .inl (after_of_not_switches (Bool.eq_false_iff.mpr hswitch) hset)

/-- What has become dimeb stays so. -/
theorem changes_dimeb {states : List Serialization}
    (h : (.dimeb :: states).Pairwise Becomes) : changes (.dimeb :: states) = 0 := by
  induction states with
  | nil => rfl
  | cons later rest ih =>
      obtain ⟨hfirst, hrest⟩ := List.pairwise_cons.mp h
      have hlater : later = .dimeb := by
        rcases hfirst later List.mem_cons_self with hbad | heq | ⟨heq, _⟩
        · cases hbad
        · exact heq
        · exact heq
      subst hlater
      simp [changes, ih hrest]

theorem changes_le_one {states : List Serialization} (h : states.Pairwise Becomes) :
    changes states ≤ 1 := by
  induction states with
  | nil => exact Nat.zero_le _
  | cons current rest ih =>
      obtain ⟨hfirst, hrest⟩ := List.pairwise_cons.mp h
      cases rest with
      | nil => exact Nat.zero_le _
      | cons later rest =>
          by_cases hchange : current ≠ .noSerialization ∧ current ≠ later
          · have hlater : later = .dimeb := by
              rcases hfirst later List.mem_cons_self with hbad | heq | ⟨heq, _⟩
              · exact absurd hbad hchange.1
              · exact absurd heq.symm hchange.2
              · exact heq
            subst hlater
            rw [changes, if_pos hchange, changes_dimeb hrest]
          · rw [changes, if_neg hchange, Nat.zero_add]
            exact ih hrest

end Serialization

namespace Server

variable {jansson : Jansson Json} {history : List (Server × Action)} {srv : Server}

theorem Reaches.serializations (h : Reaches jansson history srv) :
    (serializations history srv).Pairwise Serialization.Becomes := by
  refine Reaches.induct (P := fun history srv =>
    (Server.serializations history srv).Pairwise Serialization.Becomes) jansson ?_ ?_ h
  · intro start _
    exact List.pairwise_singleton _ _
  · intro history mid action srv' _ ih _ _ hacts
    have hlast : Server.serializations (history ++ [(mid, action)]) srv' =
        Server.serializations history mid ++ [srv'.serialization] := by
      simp [Server.serializations]
    have hstep : mid.serialization.Becomes srv'.serialization := by
      have hserialization := hacts.serialization
      cases action with
      | command c jsondata bindata =>
          rw [show srv'.serialization = mid.serialization.after jsondata from hserialization]
          exact Serialization.becomes_after _ _
      | accept fd ws => exact .inr (.inl hserialization)
      | find fd => exact .inr (.inl hserialization)
      | transfer c sock => exact .inr (.inl hserialization)
      | close c => exact .inr (.inl hserialization)
    rw [hlast]
    refine List.pairwise_append.mpr ⟨ih, List.pairwise_singleton _ _, ?_⟩
    intro current hmem later hlater
    rw [List.mem_singleton.mp hlater]
    rcases List.mem_append.mp hmem with hold | hmid
    · exact ((List.pairwise_append.mp ih).2.2 current hold _ List.mem_cons_self).trans hstep
    · rw [List.mem_singleton.mp hmid]
      exact hstep

end Server

end Dime
