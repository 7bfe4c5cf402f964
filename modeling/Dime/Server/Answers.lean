import Dime.Server.Delivery

/-!
# Replies and wake-ups

When a request is answered by exactly one reply, and how the waits of a client are
answered over a whole run.
-/

noncomputable section

open Classical

namespace Dime

variable (jansson : Jansson Json)

/-- A request has been answered: by one message with a status of `0` or `-1` after
relayed messages, or, for a `wait` on an empty queue, by setting the waiting flag. -/
def Answered (jsondata : Json) (clnt clnt' : Client) : Prop :=
  (∃ relays out, clnt'.sent = clnt.sent ++ relays ++ [out] ∧
    (∀ relay ∈ relays, relay.queued?.isSome) ∧
    (out.status = some 0 ∨ out.status = some (-1)) ∧
    (clnt'.waiting = true → clnt.waiting = true)) ∨
  (jsondata.unpackString "command" = some "wait" ∧ clnt.queue.toList = [] ∧
    clnt'.sent = clnt.sent ∧ clnt'.waiting = true)

/-- A `send` to a group that holds the sender. -/
def SendsToOwnGroup (srv : Server) (c : ClientPtr) (jsondata : Json) : Prop :=
  jsondata.unpackString "command" = some "send" ∧
    ∃ name g group, jsondata.unpackString "name" = some name ∧
      srv.groups.cells g = some group ∧ group.name = name ∧ c ∈ group.clnts.items

namespace Server

variable {srv : Server} {history : List (Server × Action)} {action : Action} {c : ClientPtr}
  {clnt : Client} {jsondata : Json} {bindata : Bytes}

theorem command_eq {name : String} (hcommand : jsondata.unpackString "command" = some name) :
    Hub.command jsondata = name := by
  rw [Hub.command, hcommand, Option.getD_some]

theorem command_ne {name other : String} (hcommand : jsondata.unpackString "command" = some name)
    (hne : name ≠ other) : Hub.command jsondata ≠ other := by
  rwa [command_eq hcommand]

/-- A client queues a message for itself by a `send` to its own group only. -/
theorem addressed_self_iff {name : String}
    (hcommand : jsondata.unpackString "command" = some name) (bindata : Bytes) :
    srv.view.addressed jansson c (.command c jsondata bindata) ≠ [] ↔
      SendsToOwnGroup srv c jsondata := by
  have hname := command_eq hcommand
  rw [Hub.addressed, SendsToOwnGroup]
  split
  next hsend =>
    rw [hcommand, ← hname, hsend]
    cases hunpack : jsondata.unpackString "name" with
    | none =>
        refine ⟨fun hne => absurd rfl hne, ?_⟩
        rintro ⟨_, _, _, _, hbad, _⟩
        cases hbad
    | some groupName =>
        dsimp only
        split
        next hmember =>
          obtain ⟨g, group, hg, hgroup, hmem⟩ := hmember
          exact ⟨fun _ => ⟨rfl, groupName, g, group, rfl, hg, hgroup, hmem⟩,
            fun _ => List.cons_ne_nil _ _⟩
        next hnot =>
          refine ⟨fun hne => absurd rfl hne, ?_⟩
          rintro ⟨_, other, g, group, hother, hg, hgroup, hmem⟩
          cases hother
          exact absurd ⟨g, group, hg, hgroup, hmem⟩ hnot
  next hbroadcast =>
    refine ⟨fun hne => absurd (if_neg fun hbad => hbad.1 rfl) hne, ?_⟩
    rintro ⟨hsend, _⟩
    rw [command_eq hsend] at hbroadcast
    exact absurd hbroadcast (by decide)
  next hsend _ =>
    exact ⟨fun hne => absurd rfl hne, fun hboth => absurd (command_eq hboth.1) hsend⟩

/-- What a command pushes to the client it is from. -/
theorem Reaches.ownCommand (h : Reaches jansson history srv)
    (hc : srv.clnts.cells c = some clnt) (jsondata : Json) (bindata : Bytes) :
    ∃ srv' clnt' given outs, srv.perform jansson (.command c jsondata bindata) = .ok srv' ∧
      srv'.clnts.cells c = some clnt' ∧
      Hub.Given jansson srv.view (.command c jsondata bindata) c (clnt.view srv.content) given ∧
      Hub.Replies c jsondata outs ∧ clnt'.waiting = given.waiting ∧
      clnt'.sent = given.sent ++ outs c := by
  obtain ⟨srv', clnt', outs, hrun, _, hc', hreplies, hwaiting, _, hsent⟩ :=
    h.command jansson hc hc jsondata bindata
  exact ⟨srv', clnt', _, outs, hrun, hc', Hub.effect_given jansson c _, hreplies, hwaiting, hsent⟩

/-- A mute request changes nothing that its client sees. -/
theorem Reaches.mute (h : Reaches jansson history srv) (hc : srv.clnts.cells c = some clnt)
    (hmute : Hub.Mute jsondata) (bindata : Bytes) :
    ∃ srv' clnt', srv.perform jansson (.command c jsondata bindata) = .ok srv' ∧
      srv'.clnts.cells c = some clnt' ∧ ¬ Answered jsondata clnt clnt' := by
  obtain ⟨srv', clnt', outs, hrun, _, hc', hreplies, hwaiting, _, hsent⟩ :=
    h.command jansson hc hc jsondata bindata
  refine ⟨srv', clnt', hrun, hc', ?_⟩
  have hwait : Hub.command jsondata ≠ "wait" := by
    rcases hmute with ⟨hname, _⟩ | ⟨hname, _⟩ <;> rw [hname] <;> decide
  have hsame : srv.view.effect jansson c jsondata bindata c (clnt.view srv.content) =
      clnt.view srv.content := by
    rcases hmute with ⟨hname, _⟩ | ⟨hname, hn⟩
    · rw [Hub.effect_same jansson (by rw [hname]; decide) (by rw [hname]; decide)
        (by rw [hname]; decide) hwait, Hub.same]
    · rw [Hub.effect_own jansson (by rw [hname]; decide) (by rw [hname]; decide), if_pos rfl,
        Hub.own, hname, hn]
      rfl
  rw [hsame, hreplies.silent (.inl hmute), List.append_nil] at hsent
  have hsent' : clnt'.sent = clnt.sent := hsent
  rintro (⟨relays, out, hbad, _⟩ | ⟨hbad, _⟩)
  · rw [hsent'] at hbad
    have hlength := congrArg List.length hbad
    simp only [List.length_append, List.length_singleton] at hlength
    omega
  · exact hwait (command_eq hbad)

/-- Any other request is answered, unless its client waits and sends to itself. -/
theorem Reaches.answered (h : Reaches jansson history srv) (hc : srv.clnts.cells c = some clnt)
    {name : String} (hcommand : jsondata.unpackString "command" = some name)
    (hmute : ¬ Hub.Mute jsondata) (bindata : Bytes) :
    ∃ srv' clnt', srv.perform jansson (.command c jsondata bindata) = .ok srv' ∧
      srv'.clnts.cells c = some clnt' ∧
      (Answered jsondata clnt clnt' ↔ ¬ (clnt.waiting = true ∧ SendsToOwnGroup srv c jsondata)) := by
  obtain ⟨srv', clnt', given, outs, hrun, hc', hgiven, hreplies, hwaiting, hsent⟩ :=
    h.ownCommand jansson hc jsondata bindata
  refine ⟨srv', clnt', hrun, hc', ?_⟩
  rw [← addressed_self_iff jansson hcommand bindata]
  cases hgiven with
  | queued m haddressed hno =>
      have hwait : Hub.command jsondata ≠ "wait" := fun hbad => by
        rw [Hub.isWait_iff.mpr ⟨rfl, hbad⟩] at hno
        cases hno
      obtain ⟨out, hout, hreply⟩ := hreplies.reply hmute hwait
      obtain ⟨_, _, hcleared, hpushed⟩ := (clnt.view srv.content).enqueue_spec jansson m
      rw [hout, hpushed] at hsent
      rw [hcleared] at hwaiting
      have hview : (clnt.view srv.content).waiting = clnt.waiting := rfl
      rw [haddressed]
      cases hflag : clnt.waiting with
      | false =>
          rw [hview, hflag] at hsent
          refine ⟨fun _ hbad => absurd hbad.1 (by decide), fun _ => .inl ⟨[], out, hsent, nofun,
            hreply.2, fun hbad => ?_⟩⟩
          rw [hwaiting] at hbad
          cases hbad
      | true =>
          rw [hview, hflag, if_pos rfl] at hsent
          -- the notification stands in front of the reply and is no relayed message
          refine ⟨fun hanswered => ?_, fun hnot => absurd ⟨rfl, List.cons_ne_nil _ _⟩ hnot⟩
          exfalso
          rcases hanswered with ⟨relays, last, heq, hrelays, _⟩ | ⟨hbad, _⟩
          · rw [hsent, List.append_assoc, List.append_assoc] at heq
            have htail := List.append_cancel_left heq
            have hsplit := List.append_inj_left' htail rfl
            have hbad := hrelays _ (hsplit ▸ List.mem_singleton_self _)
            cases hbad
          · exact hwait (command_eq hbad)
  | relayed m haddressed hno =>
      have hwait : Hub.command jsondata ≠ "wait" := fun hbad => by
        rw [Hub.isWait_iff.mpr ⟨rfl, hbad⟩] at hno
        cases hno
      obtain ⟨out, hout, hreply⟩ := hreplies.reply hmute hwait
      obtain ⟨_, _, _, hflag, hpushed⟩ := (clnt.view srv.content).relay_spec jansson m
      rw [hout, hpushed] at hsent
      refine ⟨fun _ hbad => hbad.2 haddressed, fun _ => .inl ⟨_, out, hsent, ?_, hreply.2,
        fun htrue => ?_⟩⟩
      · intro relay hrelay
        obtain ⟨q, _, rfl⟩ := List.mem_map.mp hrelay
        rfl
      · rw [hwaiting, hflag] at htrue
        exact htrue
  | asked haddressed hyes =>
      have hwait := (Hub.isWait_iff.mp hyes).2
      rw [hreplies.silent (.inr hwait), List.append_nil] at hsent
      refine ⟨fun _ hbad => hbad.2 haddressed, fun _ => ?_⟩
      rw [Peer.wait] at hsent hwaiting
      have hlength : (clnt.view srv.content).queue.length = clnt.queue.toList.length := by
        rw [Client.view, List.length_map]
      split at hsent
      next hpos =>
        rw [if_pos hpos] at hwaiting
        exact .inl ⟨[], _, by rw [List.append_nil]; exact hsent, nofun, .inl rfl,
          fun htrue => hwaiting.symm.trans htrue⟩
      next hzero =>
        rw [if_neg hzero] at hwaiting
        refine .inr ⟨by rw [hcommand, ← command_eq hcommand, hwait],
          List.length_eq_zero_iff.mp (by omega), hsent, hwaiting⟩

end Server

open Server

/-- A request with a `command` is answered if and only if it is not mute (a handshake
for an unknown serialization, or a `sync` without an integer `n`) and is not sent by a
waiting client to a group of its own, which is told of the message and replied to. -/
theorem answered_iff {history : List (Server × Action)} {srv : Server}
    (h : Reaches jansson history srv) {c : ClientPtr} {clnt : Client}
    (hc : srv.clnts.cells c = some clnt) {jsondata : Json} {name : String}
    (hcommand : jsondata.unpackString "command" = some name) (bindata : Bytes) :
    ∃ srv' clnt', srv.perform jansson (.command c jsondata bindata) = .ok srv' ∧
      srv'.clnts.cells c = some clnt' ∧
      (Answered jsondata clnt clnt' ↔
        ¬ Hub.Mute jsondata ∧ ¬ (clnt.waiting = true ∧ SendsToOwnGroup srv c jsondata)) := by
  by_cases hmute : Hub.Mute jsondata
  · obtain ⟨srv', clnt', hrun, hc', hnot⟩ := h.mute jansson hc hmute bindata
    exact ⟨srv', clnt', hrun, hc', fun hanswered => absurd hanswered hnot,
      fun hbad => absurd hmute hbad.1⟩
  · obtain ⟨srv', clnt', hrun, hc', hiff⟩ := h.answered jansson hc hcommand hmute bindata
    exact ⟨srv', clnt', hrun, hc', hiff.trans ⟨fun hown => ⟨hmute, hown⟩, fun hboth => hboth.2⟩⟩

/-- One client, and no event since it came. -/
theorem oneClient : ∃ history srv clnt, Reaches (compactJansson []) history srv ∧
    srv.clnts.cells 0 = some clnt ∧ clnt.waiting = false := by
  have hscript : (script (compactJansson []) [.accept 3 false]).bind (fun result =>
      (result.2.clnts.cells 0).map Client.waiting) = some false := by decide +kernel
  obtain ⟨⟨history, srv⟩, hrun, hvalue⟩ := Option.bind_eq_some_iff.mp hscript
  obtain ⟨clnt, hc, hwaiting⟩ := Option.map_eq_some_iff.mp hvalue
  exact ⟨history, srv, clnt, script_reaches _ hrun, hc, hwaiting⟩

theorem answered_iff_sync : ∃ (srv srv' : Server) (clnt clnt' : Client),
    srv.clnts.cells 0 = some clnt ∧
      srv.perform (compactJansson []) (.command 0 (syncRequest 1) []) = .ok srv' ∧
      srv'.clnts.cells 0 = some clnt' ∧ Answered (syncRequest 1) clnt clnt' := by
  obtain ⟨history, srv, clnt, h, hc, hwaiting⟩ := oneClient
  obtain ⟨srv', clnt', hrun, hc', hiff⟩ :=
    answered_iff _ h hc (show (syncRequest 1).unpackString "command" = some "sync" from rfl) []
  refine ⟨srv, srv', clnt, clnt', hc, hrun, hc', hiff.mpr ⟨?_, fun hbad => ?_⟩⟩
  · rintro (⟨hbad, _⟩ | ⟨_, hbad⟩)
    · exact absurd hbad (by decide)
    · cases hbad
  · rw [hwaiting] at hbad
    exact absurd hbad.1 (by decide)

/-- `{"command":"sync"}` is never answered. -/
theorem not_answered_sync : ¬ ∀ (jansson : Jansson Json) history srv, Reaches jansson history srv →
    ∀ c clnt jsondata name bindata, srv.clnts.cells c = some clnt →
      jsondata.unpackString "command" = some name →
      ∃ srv' clnt', srv.perform jansson (.command c jsondata bindata) = .ok srv' ∧
        srv'.clnts.cells c = some clnt' ∧ Answered jsondata clnt clnt' := by
  intro hall
  obtain ⟨history, srv, clnt, h, hc, _⟩ := oneClient
  obtain ⟨srv', clnt', hrun, hc', hanswered⟩ :=
    hall _ history srv h 0 clnt (.object [("command", .string "sync")]) "sync" [] hc rfl
  obtain ⟨other, clnt'', hrun', hc'', hnot⟩ :=
    h.mute _ hc (show Hub.Mute (.object [("command", .string "sync")]) from .inr ⟨rfl, rfl⟩) []
  rw [hrun] at hrun'
  cases hrun'
  rw [hc'] at hc''
  cases hc''
  exact hnot hanswered

end Dime

end
