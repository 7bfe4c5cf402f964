import Dime.Server.Consistency
import Dime.Server.Effects

/-!
# Ordered delivery

Over a whole run, the messages relayed to a client and those still in its queue
are the messages sent to it, in the order in which the server handled them.
-/

noncomputable section

open Classical

namespace Dime

variable (jansson : Jansson Json)

/-- The messages relayed to a client so far. -/
def Client.received (clnt : Client) : List Queued := clnt.sent.filterMap Outgoing.queued?

namespace Server

/-- The contents of a client's queue, from head to tail. -/
def pending (srv : Server) (clnt : Client) : List Queued := clnt.queue.toList.map srv.content

/-- The messages that a run has sent to a client: those of the sends to a group
that held the client at the time and of the broadcasts by others while it was
connected, in the order of the run. -/
def expected (history : List (Server × Action)) (c : ClientPtr) : List Queued :=
  history.flatMap fun (mid, action) => mid.view.addressed jansson c action

variable {srv mid : Server} {history : List (Server × Action)} {action : Action} {c : ClientPtr}
  {clnt : Client}

theorem expected_append : expected jansson (history ++ [(mid, action)]) c =
    expected jansson history c ++ mid.view.addressed jansson c action := by
  simp [expected]

/-- Messages are queued for connected clients, under the next address. -/
theorem addressed_live {slack : MsgPtr → Nat} {new : Option MsgPtr} (h : srv.Inv slack new)
    {m : Queued} (hm : m ∈ srv.view.addressed jansson c action) :
    c < srv.clnts.next ∧ m.msg = srv.msgs.next := by
  cases action with
  | command c₀ jsondata bindata =>
      simp only [Hub.addressed] at hm
      split at hm
      next =>
        split at hm
        next =>
          split at hm
          next hmember =>
            obtain ⟨g, group, hg, _, hin⟩ := hmember
            obtain ⟨clnt, hc⟩ := h.membership.clnts_live g group c hg hin
            rw [List.mem_singleton.mp hm]
            exact ⟨Heap.lt_next hc, rfl⟩
          next => cases hm
        next => cases hm
      next =>
        split at hm
        next hpeer =>
          obtain ⟨peer, hpeer⟩ := Option.isSome_iff_exists.mp hpeer.2
          obtain ⟨clnt, hc, _⟩ := Option.map_eq_some_iff.mp hpeer
          rw [List.mem_singleton.mp hm]
          exact ⟨Heap.lt_next hc, rfl⟩
        next => cases hm
      next => cases hm
  | _ => cases hm

theorem nextMsg_lt {mid' : Hub} (h : mid.view.Acts jansson action mid')
    (hne : mid.view.addressed jansson c action ≠ []) : mid.view.nextMsg < mid'.nextMsg := by
  cases action with
  | command c₀ jsondata bindata => exact Hub.Handles.nextMsg_lt jansson h hne
  | _ => exact absurd rfl hne

/-- What a client has been given by an event: nothing is lost or doubled. -/
theorem delivered_given {hub : Hub} {peer given : Peer}
    (h : Hub.Given jansson hub action c peer given) :
    given.relayed ++ given.queue =
      peer.relayed ++ peer.queue ++ hub.addressed jansson c action := by
  cases h with
  | queued m haddressed _ =>
      obtain ⟨hrelayed, hqueue, _⟩ := peer.enqueue_spec jansson m
      rw [hrelayed, hqueue, haddressed, List.append_assoc]
  | relayed m haddressed _ =>
      obtain ⟨hrelayed, hqueue, _⟩ := peer.relay_spec jansson m
      rw [hrelayed, hqueue, haddressed, List.append_nil, List.append_assoc, List.take_append_drop]
  | asked haddressed _ =>
      rw [haddressed, List.append_nil, Peer.wait]
      split
      next => exact congrArg (· ++ peer.queue) ((peer.relayed_push jansson _).trans (List.append_nil _))
      next => rfl

/-- What a run keeps: the balance of every client, nothing for clients to come, and
addresses of messages that grow. -/
structure Balanced (history : List (Server × Action)) (srv : Server) : Prop where
  balance : ∀ c peer, srv.view.peers c = some peer →
    peer.relayed ++ peer.queue = expected jansson history c
  fresh : ∀ c, srv.clnts.next ≤ c → expected jansson history c = []
  old : ∀ c, ∀ m ∈ expected jansson history c, m.msg < srv.msgs.next
  sorted : ∀ c, (expected jansson history c).Pairwise fun m m' => m.msg < m'.msg

theorem Balanced.step {srv' : Server} (h : Balanced jansson history mid)
    {slack : MsgPtr → Nat} (hinv : mid.Inv slack none)
    (hacts : mid.view.Acts jansson action srv'.view) :
    Balanced jansson (history ++ [(mid, action)]) srv' := by
  obtain ⟨hclient, hmsg⟩ := Hub.Acts.next_le jansson hacts
  have hlive : ∀ c, ∀ m ∈ mid.view.addressed jansson c action,
      c < mid.clnts.next ∧ m.msg = mid.msgs.next := fun c m => addressed_live jansson hinv
  constructor
  · intro c peer' hpeer'
    rw [expected_append]
    rcases hacts.peer jansson hpeer' with ⟨peer, given, outs, hpeer, hgiven, hplain, hsent, hqueue, _⟩ |
      ⟨hc, hsent, hqueue, _, haddressed, _⟩
    · have hrelayed : peer'.relayed = given.relayed := by
        rw [Peer.relayed, hsent, List.filterMap_append, Peer.filterMap_plain
          fun out hout => (hplain out hout).1, List.append_nil]
        rfl
      rw [hrelayed, hqueue, delivered_given jansson hgiven, h.balance c peer hpeer]
    · rw [h.fresh c (by rw [hc]; exact le_rfl), haddressed, Peer.relayed, hsent, hqueue]
      rfl
  · intro c hc
    rw [expected_append, h.fresh c (le_trans hclient hc), List.nil_append]
    refine List.eq_nil_iff_forall_not_mem.mpr fun m hm => ?_
    exact absurd (hlive c m hm).1 (not_lt.mpr (le_trans hclient hc))
  · intro c m hm
    rw [expected_append] at hm
    rcases List.mem_append.mp hm with hold | hnew
    · exact lt_of_lt_of_le (h.old c m hold) hmsg
    · rw [(hlive c m hnew).2]
      exact nextMsg_lt jansson hacts (List.ne_nil_of_mem hnew)
  · intro c
    rw [expected_append]
    refine List.pairwise_append.mpr ⟨h.sorted c, ?_, fun m hm m' hm' => ?_⟩
    · rcases Hub.addressed_length jansson mid.view c action with hnil | ⟨m, hm⟩
      · rw [hnil]
        exact List.Pairwise.nil
      · rw [hm]
        exact List.pairwise_singleton _ m
    · rw [(hlive c m' hm').2]
      exact h.old c m hm

theorem Reaches.balanced (h : Reaches jansson history srv) : Balanced jansson history srv := by
  refine Reaches.induct jansson (fun start hinit => ?_)
    (fun history mid action srv' hmid ih _ _ hacts => ih.step jansson hmid.inv hacts) h
  refine ⟨fun c peer hpeer => ?_, fun _ _ => rfl, nofun, fun _ => List.Pairwise.nil⟩
  obtain ⟨clnt, hc, _⟩ := Option.map_eq_some_iff.mp hpeer
  cases hinit
  cases hc

/-- The command of a connected client runs through, and its effect shows on every
connected client. -/
theorem Reaches.command (h : Reaches jansson history srv) {c₀ : ClientPtr} {clnt₀ : Client}
    (hc₀ : srv.clnts.cells c₀ = some clnt₀) (hc : srv.clnts.cells c = some clnt)
    (jsondata : Json) (bindata : Bytes) : ∃ srv' clnt' outs,
      srv.perform jansson (.command c₀ jsondata bindata) = .ok srv' ∧
      Reaches jansson (history ++ [(srv, .command c₀ jsondata bindata)]) srv' ∧
      srv'.clnts.cells c = some clnt' ∧ Hub.Replies c₀ jsondata outs ∧
      (clnt'.view srv'.content).waiting = (srv.view.effect jansson c₀ jsondata bindata c
        (clnt.view srv.content)).waiting ∧
      (clnt'.view srv'.content).queue = (srv.view.effect jansson c₀ jsondata bindata c
        (clnt.view srv.content)).queue ∧
      (clnt'.view srv'.content).sent = (srv.view.effect jansson c₀ jsondata bindata c
        (clnt.view srv.content)).sent ++ outs c := by
  have henabled : srv.Enabled (.command c₀ jsondata bindata) :=
    h.inv.registry.mem_clients.mpr ⟨clnt₀, hc₀⟩
  obtain ⟨srv', hrun, hreaches, hacts⟩ := h.perform jansson henabled
  obtain ⟨outs, hpushes, hreplies⟩ := Hub.Handles.pushes jansson hacts
  have hpeer : srv.view.peers c = some (clnt.view srv.content) := by
    rw [view_peers, hc, Option.map_some]
  obtain ⟨peer', hpeer', _, hwaiting, hqueue, hsent, _⟩ := hpushes.peer hpeer
  obtain ⟨clnt', hc', rfl⟩ := Option.map_eq_some_iff.mp hpeer'
  exact ⟨srv', clnt', outs, hrun, hreaches, hc', hreplies, hwaiting, hqueue, hsent⟩

/-- `sync` relays the first messages of the queue and keeps the others. -/
theorem Reaches.sync (h : Reaches jansson history srv) (hc : srv.clnts.cells c = some clnt)
    {jsondata : Json} {n : Int64} (hcommand : jsondata.unpackString "command" = some "sync")
    (hn : jsondata.unpackInt "n" = some n) (bindata : Bytes) : ∃ srv' clnt',
      srv.perform jansson (.command c jsondata bindata) = .ok srv' ∧
      srv'.clnts.cells c = some clnt' ∧
      clnt'.received = clnt.received ++ (srv.pending clnt).take (syncCount n) ∧
      srv'.pending clnt' = (srv.pending clnt).drop (syncCount n) := by
  obtain ⟨srv', clnt', outs, hrun, _, hc', hreplies, _, hqueue, hsent⟩ :=
    h.command jansson hc hc jsondata bindata
  have hname : Hub.command jsondata = "sync" := by rw [Hub.command, hcommand, Option.getD_some]
  have heffect : srv.view.effect jansson c jsondata bindata c (clnt.view srv.content) =
      (clnt.view srv.content).relay jansson (syncCount n) := by
    rw [Hub.effect_own jansson (by rw [hname]; decide) (by rw [hname]; decide), if_pos rfl,
      Hub.own, hname, hn]
    rfl
  obtain ⟨hrelayed, hrest, _⟩ := (clnt.view srv.content).relay_spec jansson (syncCount n)
  rw [heffect] at hqueue hsent
  refine ⟨srv', clnt', hrun, hc', ?_, hqueue.trans hrest⟩
  have hreceived : clnt'.received =
      ((clnt.view srv.content).relay jansson (syncCount n)).relayed ++
        (outs c).filterMap Outgoing.queued? := by
    rw [Peer.relayed, ← List.filterMap_append, ← hsent]
    rfl
  rw [hreceived, Peer.filterMap_plain fun out hout => (hreplies.plain c out hout).1,
    List.append_nil, hrelayed]
  rfl

end Server

/-- In a list that is sorted by the addresses, any two messages stand in the order
of their addresses. -/
theorem Queued.sublist_of_lt {ms : List Queued} {m m' : Queued}
    (hsorted : ms.Pairwise fun m m' => m.msg < m'.msg) (hm : m ∈ ms) (hm' : m' ∈ ms)
    (hlt : m.msg < m'.msg) : [m, m'].Sublist ms := by
  induction hsorted with
  | nil => cases hm
  | @cons first rest hfirst _ ih =>
      rcases List.mem_cons.mp hm' with rfl | hrest'
      · rcases List.mem_cons.mp hm with rfl | hrest
        · exact absurd hlt (lt_irrefl _)
        · exact absurd (hfirst m hrest) (not_lt.mpr hlt.le)
      · rcases List.mem_cons.mp hm with rfl | hrest
        · exact (List.singleton_sublist.mpr hrest').cons_cons m
        · exact (ih hrest hrest').cons first

/-- `syncCount` of a negative number is beyond the length of any deque. -/
theorem syncCount_eq (n : Int64) {len : Nat} (hlen : len < 2 ^ 64) :
    min (syncCount n) len = if n < 0 then len else min n.toInt.toNat len := by
  rw [syncCount]
  split <;> omega

open Server

/-- Ordered delivery, exactly once. After every run, what was relayed to a client
and what is left in its queue are the messages that the run has sent to it, in
order. A `sync` relays `n` messages or all there are, from the front of the queue,
and two clients receive the messages that reach both in the same order. The length
of a deque is a `size_t`. -/
theorem ordered_delivery {history : List (Server × Action)} {srv : Server}
    (h : Reaches jansson history srv) :
    (∀ c clnt, srv.clnts.cells c = some clnt →
      clnt.received ++ srv.pending clnt = expected jansson history c ∧
      (clnt.received ++ srv.pending clnt).Nodup) ∧
    (∀ c clnt jsondata n bindata, srv.clnts.cells c = some clnt → clnt.queue.len < 2 ^ 64 →
      jsondata.unpackString "command" = some "sync" → jsondata.unpackInt "n" = some n →
      ∃ srv' clnt' k, srv.perform jansson (.command c jsondata bindata) = .ok srv' ∧
        srv'.clnts.cells c = some clnt' ∧
        k = (if n < 0 then clnt.queue.len else min n.toInt.toNat clnt.queue.len) ∧
        clnt'.received = clnt.received ++ (srv.pending clnt).take k ∧
        srv'.pending clnt' = (srv.pending clnt).drop k) ∧
    (∀ c c' clnt clnt' m m', srv.clnts.cells c = some clnt → srv.clnts.cells c' = some clnt' →
      [m, m'].Sublist clnt.received → m ∈ clnt'.received → m' ∈ clnt'.received →
      [m, m'].Sublist clnt'.received) := by
  have hbalanced := h.balanced
  have hbalance : ∀ c clnt, srv.clnts.cells c = some clnt →
      clnt.received ++ srv.pending clnt = expected jansson history c := by
    intro c clnt hc
    exact hbalanced.balance c (clnt.view srv.content) (by rw [view_peers, hc, Option.map_some])
  have hsorted : ∀ c clnt, srv.clnts.cells c = some clnt →
      (clnt.received ++ srv.pending clnt).Pairwise fun m m' => m.msg < m'.msg := by
    intro c clnt hc
    rw [hbalance c clnt hc]
    exact hbalanced.sorted c
  refine ⟨fun c clnt hc => ⟨hbalance c clnt hc, ?_⟩, ?_, ?_⟩
  · refine (hsorted c clnt hc).imp fun hlt heq => ?_
    rw [heq] at hlt
    exact lt_irrefl _ hlt
  · intro c clnt jsondata n bindata hc hlen hcommand hn
    obtain ⟨srv', clnt', hrun, hc', hreceived, hpending⟩ := h.sync jansson hc hcommand hn bindata
    have hlength : (srv.pending clnt).length = clnt.queue.len := by
      rw [pending, List.length_map, Queue.length_toList]
    refine ⟨srv', clnt', _, hrun, hc', syncCount_eq n hlen, ?_, ?_⟩
    · rw [← hlength, ← List.take_eq_take_min]
      exact hreceived
    · rw [← hlength, hpending]
      rcases Nat.le_total (syncCount n) (srv.pending clnt).length with hle | hle
      · rw [Nat.min_eq_left hle]
      · rw [Nat.min_eq_right hle, List.drop_length, List.drop_eq_nil_of_le hle]
  · intro c c' clnt clnt' m m' hc hc' hsub hm hm'
    have hlt : m.msg < m'.msg :=
      List.rel_of_pairwise_cons ((hsorted c clnt hc).sublist
        (hsub.trans (List.sublist_append_left _ _))) List.mem_cons_self
    exact Queued.sublist_of_lt ((hsorted c' clnt' hc').sublist (List.sublist_append_left _ _))
      hm hm' hlt

/-- `{"command":"sync","n":n}`. -/
def syncRequest (n : Int64) : Json :=
  .object [("command", .string "sync"), ("n", .integer n)]

/-- A client has been sent two messages and a broadcast, and has synchronized two. -/
theorem ordered_delivery_halfway : ∃ history srv clnt,
    Reaches (compactJansson []) history srv ∧ srv.clnts.cells 0 = some clnt ∧
      clnt.received.length = 2 ∧ (srv.pending clnt).length = 1 ∧
      clnt.received ++ srv.pending clnt = expected (compactJansson []) history 0 := by
  have hscript : (script (compactJansson []) [.accept 3 false, .accept 4 false,
      .command 0 (namesRequest "join" ["g"]) [], .command 1 (nameRequest "send" "g") [1],
      .command 1 (nameRequest "broadcast" "g") [2], .command 0 (nameRequest "send" "g") [3],
      .command 0 (syncRequest 2) []]).bind (fun result =>
        (result.2.clnts.cells 0).map fun clnt =>
          (clnt.received.length, clnt.queue.toList.length)) = some (2, 1) := by decide +kernel
  obtain ⟨⟨history, srv⟩, hrun, hvalue⟩ := Option.bind_eq_some_iff.mp hscript
  obtain ⟨clnt, hc, hlengths⟩ := Option.map_eq_some_iff.mp hvalue
  obtain ⟨hreceived, hqueue⟩ := Prod.mk.inj hlengths
  have h := script_reaches _ hrun
  refine ⟨history, srv, clnt, h, hc, hreceived, ?_, ((ordered_delivery _ h).1 0 clnt hc).1⟩
  rw [pending, List.length_map, hqueue]

end Dime

end
