import Mathlib.Data.Finset.Filter
import Dime.Server.Delivery

/-!
# One membership relation

Which client is in which group, computed from the events of a run alone, and that
`join`, `leave`, `send` and `devices` all answer from it.
-/

noncomputable section

open Classical

namespace Dime

/-- Who has which name. -/
abbrev Members := Finset (ClientPtr × String)

namespace Members

/-- Add a name, unless the client has it already. -/
def join (c : ClientPtr) (name : String) (m : Members) : Except String Members :=
  if (c, name) ∈ m then .error ("Client is already in group: " ++ name)
  else .ok (insert (c, name) m)

/-- Remove a name, if the client has it. -/
def leave (c : ClientPtr) (name : String) (m : Members) : Except String Members :=
  if (c, name) ∈ m then .ok (m.erase (c, name))
  else .error ("Client is not in group: " ++ name)

/-- Handle names one by one up to the first refusal: its text, if there is one, and
who has which name then. -/
def each (handle : String → Members → Except String Members) :
    List Json → Members → Option String × Members
  | [], m => (none, m)
  | .string name :: rest, m =>
      match handle name m with
      | .ok m => each handle rest m
      | .error text => (some text, m)
  | _ :: _, m => (some "JSON parsing error: expected string", m)

/-- The elements of a `name` field. -/
def names (jsondata : Json) : List Json := (jsondata.get? "name").elim [] Json.elements

/-- What an event changes. -/
def after (m : Members) : Action → Members
  | .command c jsondata _ =>
      if jsondata.unpackString "command" = some "join" then (each (join c) (names jsondata) m).2
      else if jsondata.unpackString "command" = some "leave" then
        (each (leave c) (names jsondata) m).2
      else m
  | .close c => m.filter fun entry => entry.1 ≠ c
  | _ => m

/-- The relation after a run. -/
def ofHistory (history : List (Server × Action)) : Members :=
  (history.map Prod.snd).foldl after ∅

end Members

variable (jansson : Jansson Json)

namespace Hub

variable {hub hub' : Hub} {c : ClientPtr} {jsondata : Json}
  {bindata : Bytes} {m : Members} {op : Json → Hub → Bool × Hub}
  {handle : String → Members → Except String Members}

/-- A hub whose members are those of a relation. -/
def Agrees (hub : Hub) (m : Members) : Prop := ∀ c name, hub.member c name ↔ (c, name) ∈ m

theorem Agrees.congr (h : hub.Agrees m) (hmember : hub'.member = hub.member) : hub'.Agrees m := by
  intro c name
  rw [hmember]
  exact h c name

/-- What a name of `join` or `leave` does on the hub is what it does on the relation. -/
structure Follows (c : ClientPtr) (op : Json → Hub → Bool × Hub)
    (handle : String → Members → Except String Members) : Prop where
  accept : ∀ hub m name m', hub.Agrees m → handle name m = .ok m' →
    (op (.string name) hub).1 = true ∧ (op (.string name) hub).2.Agrees m' ∧
      (op (.string name) hub).2.peers = hub.peers
  refuse : ∀ hub m name text, hub.Agrees m → handle name m = .error text →
    op (.string name) hub = (false, hub.refuse jansson c text)
  other : ∀ hub v, (∀ name, v ≠ .string name) →
    op v hub = (false, hub.refuse jansson c "JSON parsing error: expected string")

theorem follows_join (c : ClientPtr) : Follows jansson c (joinName jansson c) (Members.join c) where
  accept hub m name m' h hok := by
    rw [Members.join] at hok
    split at hok
    next => cases hok
    next hnot =>
      cases hok
      rw [joinName, if_neg fun hmem => hnot ((h c name).mp hmem)]
      refine ⟨rfl, fun c' name' => ?_, rfl⟩
      rw [Finset.mem_insert, Prod.mk.injEq, ← h c' name']
      exact or_comm
  refuse hub m name text h herr := by
    rw [Members.join] at herr
    split at herr
    next hmem =>
      cases herr
      rw [joinName, if_pos ((h c name).mpr hmem)]
    next => cases herr
  other hub v hv := by
    cases v with
    | string name => exact absurd rfl (hv name)
    | _ => rfl

theorem follows_leave (c : ClientPtr) :
    Follows jansson c (leaveName jansson c) (Members.leave c) where
  accept hub m name m' h hok := by
    rw [Members.leave] at hok
    split at hok
    next hmem =>
      cases hok
      rw [leaveName, if_pos ((h c name).mpr hmem)]
      refine ⟨rfl, fun c' name' => ?_, rfl⟩
      rw [Finset.mem_erase, ne_eq, Prod.mk.injEq, ← h c' name']
      exact and_comm
    next => cases hok
  refuse hub m name text h herr := by
    rw [Members.leave] at herr
    split at herr
    next => cases herr
    next hnot =>
      cases herr
      rw [leaveName, if_neg fun hmem => hnot ((h c name).mp hmem)]
  other hub v hv := by
    cases v with
    | string name => exact absurd rfl (hv name)
    | _ => rfl

/-- A loop over names, which is over with the first refusal. -/
theorem eachName_follows (hfollows : Follows jansson c op handle) (items : List Json)
    (h : hub.Agrees m) : ∃ mid : Hub, mid.Agrees (Members.each handle items m).2 ∧
      mid.peers = hub.peers ∧ eachName op items hub =
        match (Members.each handle items m).1 with
        | none => (true, mid)
        | some text => (false, mid.refuse jansson c text) := by
  induction items generalizing hub m with
  | nil => exact ⟨hub, h, rfl, rfl⟩
  | cons v rest ih =>
      rw [eachName]
      by_cases hstring : ∃ name, v = .string name
      · obtain ⟨name, rfl⟩ := hstring
        rw [Members.each]
        cases hhandle : handle name m with
        | ok m' =>
            obtain ⟨htrue, hagrees, hpeers⟩ := hfollows.accept hub m name m' h hhandle
            obtain ⟨mid, hmid, hsame, hrun⟩ := ih hagrees
            refine ⟨mid, hmid, hsame.trans hpeers, ?_⟩
            rw [if_pos htrue, hrun]
        | error text =>
            rw [hfollows.refuse hub m name text h hhandle]
            exact ⟨hub, h, rfl, rfl⟩
      · have hother : ∀ name, v ≠ .string name := fun name heq => hstring ⟨name, heq⟩
        rw [hfollows.other hub v hother]
        refine ⟨hub, ?_, rfl, ?_⟩
        all_goals
          cases v with
          | string name => exact absurd rfl (hother name)
          | _ => first | exact h | rfl

/-- The reply to `join` and `leave`. -/
def namesReply : Option String → Outgoing
  | none => .statusOk
  | some text => .json (errorReply text)

/-- `join` and `leave` follow the relation and reply by its refusal. -/
theorem withNames_follows (hfollows : Follows jansson c op handle) (h : hub.Agrees m)
    {arr : Json} (hname : jsondata.get? "name" = some arr) :
    ∃ mid : Hub, mid.Agrees (Members.each handle (Members.names jsondata) m).2 ∧
      mid.peers = hub.peers ∧ hub.withNames jansson op c jsondata =
        mid.push jansson c (namesReply (Members.each handle (Members.names jsondata) m).1) := by
  obtain ⟨mid, hmid, hpeers, hrun⟩ := eachName_follows jansson hfollows arr.elements h
  have hnames : Members.names jsondata = arr.elements := by rw [Members.names, hname]; rfl
  rw [hnames]
  refine ⟨mid, hmid, hpeers, ?_⟩
  rw [withNames, hname]
  dsimp only
  rw [hrun]
  cases (Members.each handle arr.elements m).1 with
  | none => rfl
  | some text => rfl

theorem withNames_agrees (hfollows : Follows jansson c op handle) (h : hub.Agrees m) :
    (hub.withNames jansson op c jsondata).Agrees
      (Members.each handle (Members.names jsondata) m).2 := by
  cases hname : jsondata.get? "name" with
  | none =>
      rw [Members.names, hname, withNames, hname]
      exact h.congr rfl
  | some arr =>
      obtain ⟨mid, hmid, _, hrun⟩ := withNames_follows jansson hfollows h hname
      rw [hrun]
      exact hmid.congr rfl

theorem handshake_member (hub : Hub) (c : ClientPtr) (jsondata : Json) :
    (hub.handshake jansson c jsondata).member = hub.member := by
  have hnegotiate : ∀ requested, (hub.negotiate jansson c requested).member = hub.member := by
    intro requested
    rw [negotiate]
    split
    next => rfl
    next => split <;> rfl
  rw [handshake]
  split
  next =>
    split
    next => rfl
    next requested _ => exact hnegotiate requested
  next => rfl

theorem send_member (hub : Hub) (c : ClientPtr) (jsondata : Json) (bindata : Bytes) :
    (hub.send jansson c jsondata bindata).member = hub.member := by
  rw [send]
  split
  next => rfl
  next => split <;> rfl

theorem sync_member (hub : Hub) (c : ClientPtr) (jsondata : Json) :
    (hub.sync jansson c jsondata).member = hub.member := by
  rw [sync]
  split <;> rfl

theorem command_eq_some {name : String} (hne : name ≠ "")
    (h : (jsondata.unpackString "command").getD "" = name) :
    jsondata.unpackString "command" = some name := by
  cases hunpack : jsondata.unpackString "command" with
  | none =>
      rw [hunpack] at h
      exact absurd h.symm hne
  | some other =>
      rw [hunpack] at h
      rw [← h, Option.getD_some]

/-- Only `join` and `leave` change members. -/
theorem Handles.member_eq (h : hub.Handles jansson c jsondata bindata hub')
    (hjoin : jsondata.unpackString "command" ≠ some "join")
    (hleave : jsondata.unpackString "command" ≠ some "leave") : hub'.member = hub.member := by
  rw [Handles] at h
  split at h
  case h_1 =>
      rw [h]
      exact handshake_member jansson hub c jsondata
  case h_2 hcommand => exact absurd (command_eq_some (by decide) hcommand) hjoin
  case h_3 hcommand => exact absurd (command_eq_some (by decide) hcommand) hleave
  case h_4 =>
      rw [h]
      exact send_member jansson hub c jsondata bindata
  case h_6 =>
      rw [h]
      exact sync_member jansson hub c jsondata
  case h_8 =>
      obtain ⟨names, _, _, rfl⟩ := h
      rfl
  all_goals
    rw [h]
    rfl

/-- An event does with the members what it does with the relation. -/
theorem Acts.agrees {action : Action} (hacts : hub.Acts jansson action hub')
    (h : hub.Agrees m) : hub'.Agrees (m.after action) := by
  cases action with
  | accept fd ws =>
      cases hacts
      exact h.congr rfl
  | find fd =>
      cases hacts
      exact h
  | transfer c₀ sock =>
      cases hacts
      exact h.congr rfl
  | close c₀ =>
      cases hacts
      intro c name
      rw [Members.after, Finset.mem_filter, ← h c name]
      rfl
  | command c₀ jsondata bindata =>
      rw [Members.after]
      by_cases hjoin : jsondata.unpackString "command" = some "join"
      · rw [Acts, Handles, hjoin, Option.getD_some] at hacts
        rw [if_pos hjoin, hacts]
        exact withNames_agrees jansson (follows_join jansson c₀) h
      · by_cases hleave : jsondata.unpackString "command" = some "leave"
        · rw [Acts, Handles, hleave, Option.getD_some] at hacts
          rw [if_neg hjoin, if_pos hleave, hacts]
          exact withNames_agrees jansson (follows_leave jansson c₀) h
        · rw [if_neg hjoin, if_neg hleave]
          exact h.congr (Handles.member_eq jansson hacts hjoin hleave)

theorem push_peer (out : Outgoing) {peer : Peer} (hpeer : hub.peers c = some peer) :
    (hub.push jansson c out).peers c = some (peer.push jansson out) := by
  rw [push, update_peers, hpeer, Option.map_some, if_pos rfl]

/-- What `send` queues for a client. -/
theorem send_queue {c₁ : ClientPtr} {peer : Peer} (hpeer : hub.peers c₁ = some peer)
    {name : String} (hname : jsondata.unpackString "name" = some name) (c : ClientPtr)
    (bindata : Bytes) :
    ∃ peer', (hub.send jansson c jsondata bindata).peers c₁ = some peer' ∧
      peer'.queue = peer.queue ++
        if hub.member c₁ name then [hub.newMessage jansson jsondata bindata] else [] := by
  rw [send, hname]
  dsimp only
  by_cases hgroup : ∃ c', hub.member c' name
  · rw [if_pos hgroup, finish, push, update_peers]
    have hdelivered :
        (hub.deliver jansson (fun c' => hub.member c' name) jsondata bindata).peers c₁ =
        some (if hub.member c₁ name then
          peer.enqueue jansson (hub.newMessage jansson jsondata bindata) else peer) := by
      rw [deliver, update_peers, hpeer, Option.map_some]
    rw [hdelivered, Option.map_some]
    refine ⟨_, rfl, ?_⟩
    by_cases hmember : hub.member c₁ name
    · rw [if_pos hmember, if_pos hmember, ← (peer.enqueue_spec jansson _).2.1]
      split <;> rfl
    · rw [if_neg hmember, if_neg hmember, List.append_nil]
      split <;> rfl
  · rw [if_neg hgroup, refuse, push, update_peers, hpeer, Option.map_some]
    have hmember : ¬ hub.member c₁ name := fun hmem => hgroup ⟨c₁, hmem⟩
    rw [if_neg hmember, List.append_nil]
    exact ⟨_, rfl, by split <;> rfl⟩

/-- What `send` replies. -/
theorem send_reply {peer : Peer} (hpeer : hub.peers c = some peer) {name : String}
    (hname : jsondata.unpackString "name" = some name) (bindata : Bytes) :
    ∃ peer', (hub.send jansson c jsondata bindata).peers c = some peer' ∧
      peer'.sent.getLast? = some (if ∃ c', hub.member c' name then .statusOk
        else .json (errorReply ("No such group exists: " ++ name))) := by
  rw [send, hname]
  dsimp only
  by_cases hgroup : ∃ c', hub.member c' name
  · rw [if_pos hgroup, if_pos hgroup, finish, push, update_peers, deliver, update_peers, hpeer]
    refine ⟨_, rfl, ?_⟩
    dsimp only
    rw [if_pos rfl, Peer.push, List.getLast?_concat]
  · rw [if_neg hgroup, if_neg hgroup, refuse, push_peer jansson _ hpeer]
    exact ⟨_, rfl, by rw [Peer.push, List.getLast?_concat]⟩

end Hub

namespace Server

variable {srv : Server} {history : List (Server × Action)} {c : ClientPtr} {clnt : Client}
  {jsondata : Json} {bindata : Bytes} {name : String}

/-- After a run, the groups hold who has their names by the events of the run. -/
theorem Reaches.agrees (h : Reaches jansson history srv) :
    srv.view.Agrees (Members.ofHistory history) := by
  refine Reaches.induct jansson
    (P := fun history srv => srv.view.Agrees (Members.ofHistory history))
    (fun start hinit => ?_) (fun history mid action srv' _ hbefore _ _ hacts => ?_) h
  · cases hinit
    intro c name
    simp [Members.ofHistory, view]
  · rw [Members.ofHistory, List.map_append, List.foldl_append]
    exact hacts.agrees jansson hbefore

/-- The command of a connected client runs through, and does its part on the hub. -/
theorem Reaches.handles (h : Reaches jansson history srv) (hc : srv.clnts.cells c = some clnt)
    (jsondata : Json) (bindata : Bytes) : ∃ srv',
      srv.perform jansson (.command c jsondata bindata) = .ok srv' ∧
      srv.view.Handles jansson c jsondata bindata srv'.view := by
  obtain ⟨srv', hrun, _, hacts⟩ :=
    h.perform jansson (show srv.Enabled (.command c jsondata bindata) from
      h.inv.registry.mem_clients.mpr ⟨clnt, hc⟩)
  exact ⟨srv', hrun, hacts⟩

/-- `devices` lists exactly the names that some client has, each once. -/
def DevicesFrom (srv : Server) (m : Members) : Prop :=
  ∀ c clnt jsondata bindata, srv.clnts.cells c = some clnt →
    jsondata.unpackString "command" = some "devices" →
    ∃ srv' clnt' names, srv.perform jansson (.command c jsondata bindata) = .ok srv' ∧
      srv'.clnts.cells c = some clnt' ∧
      clnt'.sent = clnt.sent ++ [.json (devicesReply names)] ∧
      names.Nodup ∧ ∀ name, name ∈ names ↔ ∃ c', (c', name) ∈ m

/-- `send` is refused where no client has the name, and otherwise queues one message
for each client that has it. -/
def SendsFrom (srv : Server) (m : Members) : Prop :=
  ∀ c clnt jsondata bindata name, srv.clnts.cells c = some clnt →
    jsondata.unpackString "command" = some "send" → jsondata.unpackString "name" = some name →
    ∃ srv' clnt', srv.perform jansson (.command c jsondata bindata) = .ok srv' ∧
      srv'.clnts.cells c = some clnt' ∧
      clnt'.sent.getLast? = some (if ∃ c', (c', name) ∈ m then .statusOk
        else .json (errorReply ("No such group exists: " ++ name))) ∧
      ∀ c₁ clnt₁, srv.clnts.cells c₁ = some clnt₁ → ∃ clnt₁', srv'.clnts.cells c₁ = some clnt₁' ∧
        srv'.pending clnt₁' = srv.pending clnt₁ ++
          if (c₁, name) ∈ m then [srv.view.newMessage jansson jsondata bindata] else []

/-- `join` and `leave` are refused where the relation refuses one of their names, one
by one. -/
def NamesFrom (command : String) (handle : ClientPtr → String → Members → Except String Members)
    (srv : Server) (m : Members) : Prop :=
  ∀ c clnt jsondata bindata arr, srv.clnts.cells c = some clnt →
    jsondata.unpackString "command" = some command → jsondata.get? "name" = some arr →
    ∃ srv' clnt', srv.perform jansson (.command c jsondata bindata) = .ok srv' ∧
      srv'.clnts.cells c = some clnt' ∧
      clnt'.sent = clnt.sent ++ [Hub.namesReply (Members.each (handle c) arr.elements m).1]

theorem Reaches.devicesFrom (h : Reaches jansson history srv) :
    srv.DevicesFrom jansson (Members.ofHistory history) := by
  intro c clnt jsondata bindata hc hcommand
  obtain ⟨srv', hrun, hhandles⟩ := h.handles jansson hc jsondata bindata
  rw [Hub.Handles, hcommand, Option.getD_some] at hhandles
  obtain ⟨names, hnodup, hmem, hview⟩ := hhandles
  have hpeer : srv.view.peers c = some (clnt.view srv.content) := by
    rw [view_peers, hc, Option.map_some]
  have hpushed := Hub.push_peer jansson (.json (devicesReply names)) hpeer
  rw [← hview] at hpushed
  obtain ⟨clnt', hc', hsame⟩ := Option.map_eq_some_iff.mp hpushed
  refine ⟨srv', clnt', names, hrun, hc', congrArg Peer.sent hsame, hnodup, fun name => ?_⟩
  rw [hmem name]
  exact exists_congr fun c' => h.agrees jansson c' name

theorem Reaches.sendsFrom (h : Reaches jansson history srv) :
    srv.SendsFrom jansson (Members.ofHistory history) := by
  intro c clnt jsondata bindata name hc hcommand hname
  obtain ⟨srv', hrun, hhandles⟩ := h.handles jansson hc jsondata bindata
  rw [Hub.Handles, hcommand, Option.getD_some] at hhandles
  have hagrees := h.agrees jansson
  have hpeer : srv.view.peers c = some (clnt.view srv.content) := by
    rw [view_peers, hc, Option.map_some]
  obtain ⟨peer', hpeer', hlast⟩ := Hub.send_reply jansson hpeer hname bindata
  rw [← hhandles] at hpeer'
  obtain ⟨clnt', hc', hsame⟩ := Option.map_eq_some_iff.mp hpeer'
  refine ⟨srv', clnt', hrun, hc', ?_, fun c₁ clnt₁ hc₁ => ?_⟩
  · rw [← hsame] at hlast
    rw [show clnt'.sent.getLast? = _ from hlast]
    simp only [hagrees _ name]
  · have hpeer₁ : srv.view.peers c₁ = some (clnt₁.view srv.content) := by
      rw [view_peers, hc₁, Option.map_some]
    obtain ⟨peer₁, hqueued, hqueue⟩ := Hub.send_queue jansson hpeer₁ hname c bindata
    rw [← hhandles] at hqueued
    obtain ⟨clnt₁', hc₁', rfl⟩ := Option.map_eq_some_iff.mp hqueued
    refine ⟨clnt₁', hc₁', hqueue.trans ?_⟩
    simp only [hagrees c₁ name]
    rfl

theorem Reaches.namesFrom (h : Reaches jansson history srv) {command : String}
    {handle : ClientPtr → String → Members → Except String Members}
    {op : ClientPtr → Json → Hub → Bool × Hub}
    (hfollows : ∀ c, Hub.Follows jansson c (op c) (handle c))
    (hcommand : ∀ c jsondata bindata (hub hub' : Hub),
      jsondata.unpackString "command" = some command → hub.Handles jansson c jsondata bindata hub' →
      hub' = hub.withNames jansson (op c) c jsondata) :
    srv.NamesFrom jansson command handle (Members.ofHistory history) := by
  intro c clnt jsondata bindata arr hc hname harr
  obtain ⟨srv', hrun, hhandles⟩ := h.handles jansson hc jsondata bindata
  obtain ⟨mid, _, hpeers, hwith⟩ :=
    Hub.withNames_follows jansson (hfollows c) (h.agrees jansson) harr
  have hpeer : mid.peers c = some (clnt.view srv.content) := by
    rw [hpeers, view_peers, hc, Option.map_some]
  have hpushed := Hub.push_peer jansson (Hub.namesReply
    (Members.each (handle c) (Members.names jsondata) (Members.ofHistory history)).1) hpeer
  rw [← hwith, ← hcommand c jsondata bindata _ _ hname hhandles] at hpushed
  obtain ⟨clnt', hc', hsame⟩ := Option.map_eq_some_iff.mp hpushed
  refine ⟨srv', clnt', hrun, hc', (congrArg Peer.sent hsame).trans ?_⟩
  rw [Members.names, harr]
  rfl

end Server

open Server

/-- After every run `devices`, `send`, `join` and `leave` answer from the one relation
that the joins, leaves and disconnects of the run make. -/
theorem answers_from_members {history : List (Server × Action)} {srv : Server}
    (h : Reaches jansson history srv) :
    srv.DevicesFrom jansson (Members.ofHistory history) ∧
    srv.SendsFrom jansson (Members.ofHistory history) ∧
    srv.NamesFrom jansson "join" Members.join (Members.ofHistory history) ∧
    srv.NamesFrom jansson "leave" Members.leave (Members.ofHistory history) := by
  refine ⟨h.devicesFrom jansson, h.sendsFrom jansson, ?_, ?_⟩
  · apply h.namesFrom jansson (Hub.follows_join jansson)
    intro c jsondata bindata hub hub' hname hhandles
    rw [Hub.Handles, hname, Option.getD_some] at hhandles
    exact hhandles
  · apply h.namesFrom jansson (Hub.follows_leave jansson)
    intro c jsondata bindata hub hub' hname hhandles
    rw [Hub.Handles, hname, Option.getD_some] at hhandles
    exact hhandles

/-- A client with two names, after another has joined and left without a word. -/
theorem answers_from_members_reconnect : ∃ history srv, Reaches (compactJansson []) history srv ∧
    Members.ofHistory history = {(0, "a"), (0, "b")} ∧
    srv.DevicesFrom (compactJansson []) (Members.ofHistory history) := by
  have hscript : (script (compactJansson []) [.accept 3 false, .accept 4 false,
      .command 1 (namesRequest "join" ["a", "c"]) [], .command 0 (namesRequest "join" ["a"]) [],
      .command 0 (namesRequest "join" ["b", "a", "d"]) [], .close 1, .accept 4 false]).map
        (fun result => decide (Members.ofHistory result.1 = {(0, "a"), (0, "b")})) = some true := by
    decide +kernel
  obtain ⟨⟨history, srv⟩, hrun, hmembers⟩ := Option.map_eq_some_iff.mp hscript
  have h := script_reaches _ hrun
  exact ⟨history, srv, h, of_decide_eq_true hmembers, (answers_from_members _ h).1⟩

end Dime

end
