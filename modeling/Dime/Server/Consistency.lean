import Dime.Server.Compact
import Dime.Server.HubRun

/-!
# Membership and references over whole runs

What the arrays of clients and groups and the counts of references agree on after
any interleaving of connections and commands.
-/

namespace Dime

namespace Server

/-- Clients and groups record each other, among live objects that the tables know. -/
structure Consistent (srv : Server) : Prop where
  both : ∀ c clnt g group, srv.clnts.cells c = some clnt → srv.groups.cells g = some group →
    (c ∈ group.clnts.items ↔ g ∈ clnt.groups.items)
  groups_nodup : ∀ c clnt, srv.clnts.cells c = some clnt → clnt.groups.items.Nodup
  clnts_nodup : ∀ g group, srv.groups.cells g = some group → group.clnts.items.Nodup
  registered_live : ∀ c, c ∈ srv.registered ↔ ∃ clnt, srv.clnts.cells c = some clnt
  clnts_registered : ∀ g group c, srv.groups.cells g = some group → c ∈ group.clnts.items →
    c ∈ srv.registered
  groups_live : ∀ c clnt g, srv.clnts.cells c = some clnt → g ∈ clnt.groups.items →
    ∃ group, srv.groups.cells g = some group
  name_inj : ∀ g g' group group', srv.groups.cells g = some group →
    srv.groups.cells g' = some group' → group.name = group'.name → g = g'
  found : ∀ g group, srv.groups.cells g = some group →
    ∃ name2clnt, srv.name2clnt.search group.name = some (some g, name2clnt)

variable {srv : Server} {slack : MsgPtr → Nat} {new : Option MsgPtr}

theorem Inv.consistent (h : srv.Inv slack new) : srv.Consistent where
  both c clnt g group hc hg := (h.membership.both c clnt g group hc hg).symm
  groups_nodup := h.membership.groups_nodup
  clnts_nodup := h.membership.clnts_nodup
  registered_live _ := h.registry.mem_clients
  clnts_registered g group c hg hc :=
    h.registry.mem_clients.mpr (h.membership.clnts_live g group c hg hc)
  groups_live := h.membership.groups_live
  name_inj _ _ _ _ := h.registry.name_inj
  found g group hg := by
    obtain ⟨name2clnt, hsearch, _⟩ := h.search group.name
    rw [(h.registry.name_lookup group.name g).mpr ⟨group, hg, rfl⟩] at hsearch
    exact ⟨name2clnt, hsearch⟩

/-- Every message counts the queue positions that hold it, and is allocated for as
long as there are any. -/
def RefsExact (srv : Server) : Prop :=
  (∀ p msg, srv.msgs.cells p = some msg → msg.refs = srv.holders p) ∧
    ∀ p, (∃ msg, srv.msgs.cells p = some msg) ↔ 0 < srv.holders p

/-- Exactly the references that were left behind are counted too much. -/
theorem Inv.refsExact_iff (h : srv.Inv slack none) : srv.RefsExact ↔ ∀ p, slack p = 0 := by
  constructor
  · rintro ⟨hrefs, _⟩ p
    cases hp : srv.msgs.cells p with
    | none =>
        have := h.refs.freed p hp
        omega
    | some msg =>
        have := h.refs.count_eq p msg hp
        have := hrefs p msg hp
        omega
  · intro hslack
    refine ⟨fun p msg hp => ?_, fun p => ?_⟩
    · rw [h.refs.count_eq p msg hp, hslack, Nat.add_zero]
    · rw [h.refs.live_iff, hslack, Nat.add_zero]

/-- A run loses references exactly where a client leaves with a full queue. -/
theorem lost_eq_zero_iff (history : List (Server × Action)) :
    (∀ p, lost history p = 0) ↔ ∀ mid c clnt, (mid, Action.close c) ∈ history →
      mid.clnts.cells c = some clnt → ¬ clnt.queue.Full := by
  constructor
  · intro hlost mid c clnt hmem hc hfull
    obtain ⟨p, hp⟩ := List.exists_mem_of_ne_nil _ (Queue.toList_ne_nil_of_full hfull)
    have hzero := List.sum_eq_zero_iff_forall_eq_nat.mp (hlost p) _ (List.mem_map_of_mem hmem)
    simp only [lostBy, hc, Option.elim_some, if_pos hfull] at hzero
    have := List.count_pos_iff.mpr hp
    omega
  · intro hnone p
    refine List.sum_eq_zero_iff_forall_eq_nat.mpr fun n hn => ?_
    obtain ⟨⟨mid, action⟩, hmem, rfl⟩ := List.mem_map.mp hn
    cases action with
    | close c =>
        cases hc : mid.clnts.cells c with
        | none => simp only [lostBy, hc, Option.elim_none]
        | some clnt =>
            simp only [lostBy, hc, Option.elim_some, if_neg (hnone mid c clnt hmem hc)]
    | _ => rfl

end Server

open Server

/-- After every run the arrays of clients and groups agree, hold no client that is
gone and no group twice, and no further event runs into a fault: the assertion of
`dime_client_leave` is never reached. -/
theorem membership_consistent (jansson : Jansson Json) {history : List (Server × Action)}
    {srv : Server} (h : Reaches jansson history srv) :
    srv.Consistent ∧
      ∀ action, srv.Enabled action → ∃ srv', srv.perform jansson action = .ok srv' :=
  ⟨h.inv.consistent, fun _ henabled =>
    let ⟨srv', hrun, _⟩ := h.perform jansson henabled
    ⟨srv', hrun⟩⟩

/-- `{"command":"join","name":[…]}`, and `leave` alike. -/
def namesRequest (command : String) (names : List String) : Json :=
  .object [("command", .string command), ("name", .array (names.map .string))]

/-- A `send` to a group, or any other command with a `name`. -/
def nameRequest (command name : String) : Json :=
  .object [("command", .string command), ("name", .string name)]

/-- Two clients join and leave two groups, one by a request that fails midway, and
one of them disconnects. -/
theorem membership_consistent_midway : ∃ history srv,
    Reaches (compactJansson []) history srv ∧ history.length = 6 ∧ srv.Consistent ∧
      ∀ action, srv.Enabled action → ∃ srv', srv.perform (compactJansson []) action = .ok srv' := by
  have hscript : (script (compactJansson []) [.accept 3 false, .accept 4 false,
      .command 0 (namesRequest "join" ["a", "b", "a"]) [],
      .command 1 (namesRequest "join" ["b"]) [],
      .command 0 (namesRequest "leave" ["b", "b"]) [], .close 1]).map (fun result =>
        result.1.length) = some 6 := by decide +kernel
  obtain ⟨⟨history, srv⟩, hrun, hlength⟩ := Option.map_eq_some_iff.mp hscript
  have h := script_reaches _ hrun
  obtain ⟨hconsistent, hrest⟩ := membership_consistent _ h
  exact ⟨history, srv, h, hlength, hconsistent, hrest⟩

/-- The counts of references are exact after a run if and only if no client left
with a full queue: the iteration of `dime_client_destroy` over a full queue ends
before its first element. -/
theorem refsExact_iff_no_full_close (jansson : Jansson Json) {history : List (Server × Action)}
    {srv : Server} (h : Reaches jansson history srv) :
    srv.RefsExact ↔ ∀ mid c clnt, (mid, Action.close c) ∈ history →
      mid.clnts.cells c = some clnt → ¬ clnt.queue.Full :=
  h.inv.refsExact_iff.trans (lost_eq_zero_iff history)

/-- A client in a group, and sixteen messages to the group: the initial capacity of
a queue. Then the client disconnects. -/
def fullQueueLeaves : List Action :=
  [.accept 3 false, .accept 4 false, .command 0 (namesRequest "join" ["g"]) []] ++
    List.replicate 16 (.command 1 (nameRequest "send" "g") []) ++ [.close 0]

theorem refsExact_iff_no_full_close_sixteen : ∃ history srv,
    Reaches (compactJansson []) history srv ∧ history.length = 20 ∧
      (srv.RefsExact ↔ ∀ mid c clnt, (mid, Action.close c) ∈ history →
        mid.clnts.cells c = some clnt → ¬ clnt.queue.Full) := by
  have hscript : (script (compactJansson []) fullQueueLeaves).map (fun result =>
      result.1.length) = some 20 := by decide +kernel
  obtain ⟨⟨history, srv⟩, hrun, hlength⟩ := Option.map_eq_some_iff.mp hscript
  have h := script_reaches _ hrun
  exact ⟨history, srv, h, hlength, refsExact_iff_no_full_close _ h⟩

/-- The first of the sixteen messages counts a reference that no queue holds. -/
theorem not_refsExact : ¬ ∀ (jansson : Jansson Json) history srv,
    Reaches jansson history srv → srv.RefsExact := by
  intro hall
  have hscript : (script (compactJansson []) fullQueueLeaves).map (fun result =>
      ((result.2.msgs.cells 0).map Rcmessage.refs, result.2.holders 0)) = some (some 1, 0) := by
    decide +kernel
  obtain ⟨⟨history, srv⟩, hrun, hvalue⟩ := Option.map_eq_some_iff.mp hscript
  obtain ⟨hrefs, hholders⟩ := Prod.mk.inj hvalue
  obtain ⟨msg, hmsg, hone⟩ := Option.map_eq_some_iff.mp hrefs
  have hexact := (hall _ history srv (script_reaches _ hrun)).1 0 msg hmsg
  dsimp only at hone hholders
  omega

end Dime
