import Dime.Clients.Heeding
import Dime.Server.Members

/-!
# Requests in a run

The requests of a client that have been handled, with the states of the server before and
after: what a `send` or a `broadcast` puts into the queues of the clients, and which of these
have shaken hands.
-/

namespace Dime

open Dialogue

/-- A request that has been handled. -/
structure Turn where
  before : Server
  request : Message
  after : Server

namespace Turn

variable (loads : CString → Json)

/-- A copy of the request is put into the queue of a client. -/
def Queues (turn : Turn) (c : ClientPtr) : Prop :=
  turn.after.queueOf loads c = turn.before.queueOf loads c ++ [turn.request]

instance (turn : Turn) (c : ClientPtr) : Decidable (turn.Queues loads c) :=
  inferInstanceAs (Decidable (_ = _))

end Turn

namespace Server

/-- The requests of a client that have been handled. -/
def turns (history : List (Server × Action)) (srv : Server) (c : ClientPtr) : List Turn :=
  (history.zip (history.tail.map Prod.fst ++ [srv])).filterMap fun step =>
    match step.1.2 with
    | .command c' jsondata bindata =>
        if c' = c then some ⟨step.1.1, ⟨jsondata, bindata⟩, step.2⟩ else none
    | _ => none

variable {history : List (Server × Action)} {mid srv : Server} {action : Action} {c : ClientPtr}

theorem turns_append : turns (history ++ [(mid, action)]) srv c = turns history mid c ++
    match action with
    | .command c' jsondata bindata => if c' = c then [⟨mid, ⟨jsondata, bindata⟩, srv⟩] else []
    | _ => [] := by
  have hlast : ∀ step : (Server × Action) × Server, step = ((mid, action), srv) →
      ([step].filterMap fun step => match step.1.2 with
        | .command c' jsondata bindata =>
            if c' = c then some (⟨step.1.1, ⟨jsondata, bindata⟩, step.2⟩ : Turn) else none
        | _ => none) =
      match action with
      | .command c' jsondata bindata => if c' = c then [⟨mid, ⟨jsondata, bindata⟩, srv⟩] else []
      | _ => [] := by
    rintro step rfl
    cases action with
    | command c' jsondata bindata => by_cases hown : c' = c <;> simp [hown]
    | accept fd ws => rfl
    | find fd => rfl
    | transfer c' sock => rfl
    | close c' => rfl
  cases history with
  | nil => exact hlast _ rfl
  | cons first rest =>
      have hlength : (first :: rest).length = (rest.map Prod.fst ++ [mid]).length := by simp
      unfold turns
      rw [List.cons_append, List.tail_cons, List.tail_cons, List.map_append, List.map_singleton,
        ← List.cons_append, List.zip_append hlength, List.filterMap_append]
      exact congrArg _ (hlast _ rfl)

theorem turns_own (jsondata : Json) (bindata : Bytes) :
    turns (history ++ [(mid, .command c jsondata bindata)]) srv c =
      turns history mid c ++ [⟨mid, ⟨jsondata, bindata⟩, srv⟩] := by
  rw [turns_append]
  exact congrArg _ (if_pos rfl)

theorem turns_other (hno : ∀ jsondata bindata, action ≠ .command c jsondata bindata) :
    turns (history ++ [(mid, action)]) srv c = turns history mid c := by
  rw [turns_append]
  cases action with
  | command c' jsondata bindata =>
      have hne : c' ≠ c := by
        rintro rfl
        exact hno jsondata bindata rfl
      simp [hne]
  | accept fd ws => exact List.append_nil _
  | find fd => exact List.append_nil _
  | transfer c' sock => exact List.append_nil _
  | close c' => exact List.append_nil _

theorem turns_requests (history : List (Server × Action)) (srv : Server) (c : ClientPtr) :
    (turns history srv c).map Turn.request = handled history c := by
  induction history using List.reverseRecOn generalizing srv with
  | nil => rfl
  | append_singleton history step ih =>
      obtain ⟨mid, action⟩ := step
      rw [handled_append]
      by_cases hown : ∃ jsondata bindata, action = .command c jsondata bindata
      · obtain ⟨jsondata, bindata, rfl⟩ := hown
        rw [turns_own, handled_singleton_command, if_pos rfl, List.map_append, ih]
        rfl
      · have hno : ∀ jsondata bindata, action ≠ .command c jsondata bindata :=
          fun jsondata bindata heq => hown ⟨jsondata, bindata, heq⟩
        rw [turns_other hno, handled_singleton_of_ne hno, List.append_nil, ih]

variable {jansson : Jansson Json} {loads : CString → Json} {clnt : Client}

/-- The run up to a request, and what the server does with it. -/
theorem Reaches.turn (h : Reaches jansson history srv) : ∀ turn ∈ turns history srv c,
    ∃ earlier later, Reaches jansson earlier turn.before ∧
      history = earlier ++ (turn.before, .command c turn.request.jsondata turn.request.bindata) :: later ∧
      turn.before.view.Handles jansson c turn.request.jsondata turn.request.bindata turn.after.view := by
  refine Reaches.induct (P := fun history srv => ∀ turn ∈ turns history srv c,
    ∃ earlier later, Reaches jansson earlier turn.before ∧
      history = earlier ++ (turn.before, .command c turn.request.jsondata turn.request.bindata) :: later ∧
      turn.before.view.Handles jansson c turn.request.jsondata turn.request.bindata turn.after.view)
    jansson ?_ ?_ h
  · exact fun _ _ _ hmem => by cases hmem
  intro history mid action srv' hmid ih _ _ hacts turn hmem
  have hearlier : turn ∈ turns history mid c → ∃ earlier later, Reaches jansson earlier turn.before ∧
      history ++ [(mid, action)] =
        earlier ++ (turn.before, .command c turn.request.jsondata turn.request.bindata) :: later ∧
      turn.before.view.Handles jansson c turn.request.jsondata turn.request.bindata turn.after.view := by
    intro hold
    obtain ⟨earlier, later, hreaches, rfl, hhandles⟩ := ih turn hold
    exact ⟨earlier, later ++ [(mid, action)], hreaches, by simp, hhandles⟩
  by_cases hown : ∃ jsondata bindata, action = .command c jsondata bindata
  · obtain ⟨jsondata, bindata, rfl⟩ := hown
    rw [turns_own] at hmem
    rcases List.mem_append.mp hmem with hold | hnew
    · exact hearlier hold
    · rw [List.mem_singleton.mp hnew]
      exact ⟨history, [], hmid, rfl, hacts⟩
  · rw [turns_other fun jsondata bindata heq => hown ⟨jsondata, bindata, heq⟩] at hmem
    exact hearlier hmem

/-! ## Copies -/

/-- A request that puts messages into queues. -/
def IsTransmission (request : Message) : Prop :=
  Hub.command request.jsondata = "send" ∨ Hub.command request.jsondata = "broadcast"

theorem IsTransmission.ne {request : Message} (h : IsTransmission request) {name : String}
    (hsend : "send" ≠ name) (hbroadcast : "broadcast" ≠ name) :
    Hub.command request.jsondata ≠ name := by
  rcases h with h | h
  · exact Hub.command_ne h hsend
  · exact Hub.command_ne h hbroadcast

theorem IsTransmission.not_mute {request : Message} (h : IsTransmission request) :
    ¬ Hub.Mute request.jsondata :=
  Hub.not_mute (h.ne (by decide) (by decide)) (h.ne (by decide) (by decide))

variable {turn : Turn} {p : ClientPtr}

theorem queueOf_turn
    (h : turn.before.view.Handles jansson p turn.request.jsondata turn.request.bindata turn.after.view)
    (hsends : IsTransmission turn.request) (hc : turn.before.clnts.cells c = some clnt) :
    turn.after.queueOf loads c = turn.before.queueOf loads c ++
      (turn.before.view.addressed jansson c
        (.command p turn.request.jsondata turn.request.bindata)).map
          fun m => ⟨loads m.jsondata, m.bindata⟩ := by
  have hpeer : turn.before.view.peers c = some (clnt.view turn.before.content) := by
    rw [view_peers, hc, Option.map_some]
  obtain ⟨peer', hpeer', hqueue⟩ :=
    h.queues (hsends.ne (by decide) (by decide)) (hsends.ne (by decide) (by decide)) hpeer
  obtain ⟨clnt', hc', rfl⟩ := Option.map_eq_some_iff.mp hpeer'
  have hpending : turn.after.pending clnt' = turn.before.pending clnt ++
      turn.before.view.addressed jansson c (.command p turn.request.jsondata turn.request.bindata) :=
    hqueue
  rw [queueOf_eq hc', queueOf_eq hc, hpending, List.map_append]

/-- A broadcast goes to all other clients. -/
theorem queues_broadcast
    (h : turn.before.view.Handles jansson p turn.request.jsondata turn.request.bindata turn.after.view)
    (hcommand : Hub.command turn.request.jsondata = "broadcast")
    (hloads : loads (jansson.dumps turn.request.jsondata) = turn.request.jsondata)
    (hne : c ≠ p) (hc : turn.before.clnts.cells c = some clnt) : turn.Queues loads c := by
  have hpeer : (turn.before.view.peers c).isSome := by
    rw [view_peers, hc]
    rfl
  have haddressed : turn.before.view.addressed jansson c
      (.command p turn.request.jsondata turn.request.bindata) =
      [turn.before.view.newMessage jansson turn.request.jsondata turn.request.bindata] := by
    simp only [Hub.addressed, hcommand]
    exact if_pos ⟨hne, hpeer⟩
  rw [Turn.Queues, queueOf_turn h (.inr hcommand) hc, haddressed, List.map_singleton]
  simp [Hub.newMessage, hloads]

/-- A `send` goes to the members of a group. -/
theorem queues_send_iff
    (h : turn.before.view.Handles jansson p turn.request.jsondata turn.request.bindata turn.after.view)
    (hcommand : Hub.command turn.request.jsondata = "send") {name : String}
    (hname : turn.request.jsondata.unpackString "name" = some name)
    (hloads : loads (jansson.dumps turn.request.jsondata) = turn.request.jsondata)
    (hc : turn.before.clnts.cells c = some clnt) :
    turn.Queues loads c ↔ turn.before.view.member c name := by
  rw [Turn.Queues, queueOf_turn h (.inl hcommand) hc]
  simp only [Hub.addressed, hcommand, hname]
  by_cases hmember : turn.before.view.member c name
  · simp [hmember, Hub.newMessage, hloads]
  · simp [hmember]

/-- Nobody else finds a copy. -/
theorem connected_of_queues
    (h : turn.before.view.Handles jansson p turn.request.jsondata turn.request.bindata turn.after.view)
    (hqueues : turn.Queues loads c) : ∃ clnt, turn.before.clnts.cells c = some clnt := by
  cases hc : turn.before.clnts.cells c with
  | some clnt => exact ⟨clnt, rfl⟩
  | none =>
      obtain ⟨outs, hpushes, _⟩ := Hub.Handles.pushes jansson h
      have hnone : turn.after.view.peers c = none := by
        rw [hpushes.none, view_peers, hc, Option.map_none]
      rw [view_peers, Option.map_eq_none_iff] at hnone
      simp [Turn.Queues, queueOf, hc, hnone] at hqueues

/-! ## Members -/

theorem mem_each {handle : String → Members → Except String Members} {P : ClientPtr × String → Prop}
    (hhandle : ∀ name m m', handle name m = .ok m' → ∀ entry ∈ m', P entry ∨ entry ∈ m)
    (vs : List Json) (m : Members) :
    ∀ entry ∈ (Members.each handle vs m).2, P entry ∨ entry ∈ m := by
  induction vs generalizing m with
  | nil => exact fun entry hmem => .inr hmem
  | cons v vs ih =>
      intro entry hmem
      cases v with
      | string name =>
          rw [Members.each] at hmem
          cases hok : handle name m with
          | ok m' =>
              simp only [hok] at hmem
              rcases ih m' entry hmem with hP | hin
              · exact .inl hP
              · exact hhandle name m m' hok entry hin
          | error text =>
              simp only [hok] at hmem
              exact .inr hmem
      | _ => exact .inr hmem

/-- Only a request of its own makes a client a member. -/
theorem mem_after {m : Members} {name : String} (h : (c, name) ∈ m.after action) :
    (c, name) ∈ m ∨ ∃ jsondata bindata, action = .command c jsondata bindata := by
  cases action with
  | command c' jsondata bindata =>
      rw [Members.after] at h
      split at h
      next =>
        have hjoin := mem_each (P := fun entry => entry.1 = c') (fun name m m' hok entry hmem => by
          rw [Members.join] at hok
          split at hok
          next => cases hok
          next =>
            cases hok
            rcases Finset.mem_insert.mp hmem with rfl | hin
            · exact .inl rfl
            · exact .inr hin) _ m _ h
        rcases hjoin with rfl | hin
        · exact .inr ⟨jsondata, bindata, rfl⟩
        · exact .inl hin
      next =>
        split at h
        next =>
          have hleave := mem_each (P := fun _ => False) (fun name m m' hok entry hmem => by
            rw [Members.leave] at hok
            split at hok
            next =>
              cases hok
              exact .inr (Finset.mem_of_mem_erase hmem)
            next => cases hok) _ m _ h
          exact .inl (hleave.resolve_left id)
        next => exact .inl h
  | accept fd ws => exact .inl h
  | find fd => exact .inl h
  | transfer c' sock => exact .inl h
  | close c' => exact .inl (Finset.mem_of_mem_filter _ h)

theorem handled_of_mem {name : String} (h : (c, name) ∈ Members.ofHistory history) :
    handled history c ≠ [] := by
  induction history using List.reverseRecOn with
  | nil => simp [Members.ofHistory] at h
  | append_singleton history step ih =>
      obtain ⟨mid, action⟩ := step
      rw [Members.ofHistory, List.map_append, List.foldl_append] at h
      rw [handled_append]
      rcases mem_after h with hin | hown
      · exact List.append_ne_nil_of_left_ne_nil (ih hin) _
      · obtain ⟨jsondata, bindata, rfl⟩ := hown
        rw [handled_singleton_command, if_pos rfl]
        exact List.append_ne_nil_of_right_ne_nil _ (List.cons_ne_nil _ _)

/-- The members of the groups have shaken hands. -/
theorem Reaches.handled_member (h : Reaches jansson history srv) {name : String}
    (hmember : srv.view.member c name) : handled history c ≠ [] :=
  handled_of_mem ((h.agrees jansson c name).mp hmember)

end Server

end Dime
