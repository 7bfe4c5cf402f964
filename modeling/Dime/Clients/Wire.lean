import Dime.Clients.Reading
import Dime.Server.Delivery

/-!
# Between the server and a client

What a client reads of the messages that the server pushes to it, and the server as
the one who answers the requests of a client.
-/

namespace Dime

deriving instance DecidableEq for Socket.Message

variable (jansson : Jansson Json) (loads : CString → Json)

/-- A message of the server as a client reads it; `loads` is the client's JSON parser. -/
def Outgoing.message (out : Outgoing) : Message := ⟨loads (out.jsonstr jansson), out.bindata⟩

namespace Server

/-- What has been pushed to a client so far. -/
def sentTo (srv : Server) (c : ClientPtr) : List Outgoing :=
  ((srv.clnts.cells c).map Client.sent).getD []

/-- The messages of a client's queue as it will read them. -/
def queueOf (srv : Server) (c : ClientPtr) : List Message :=
  (((srv.clnts.cells c).map fun clnt => srv.pending clnt).getD []).map fun m =>
    ⟨loads m.jsondata, m.bindata⟩

/-- The server as it handles a request of a client: what it becomes, and what it pushes to
that client. -/
def answer (c : ClientPtr) (srv : Server) (request : Message) : Server × List Message :=
  match srv.perform jansson (.command c request.jsondata request.bindata) with
  | .ok srv' =>
      (srv', ((srv'.sentTo c).drop (srv.sentTo c).length).map (Outgoing.message jansson loads))
  | .error _ => (srv, [])

variable {jansson loads} {srv : Server} {history : List (Server × Action)} {c : ClientPtr}
  {clnt : Client}

theorem sentTo_eq (hc : srv.clnts.cells c = some clnt) : srv.sentTo c = clnt.sent := by
  simp [sentTo, hc]

theorem queueOf_eq (hc : srv.clnts.cells c = some clnt) :
    srv.queueOf loads c = (srv.pending clnt).map fun m => ⟨loads m.jsondata, m.bindata⟩ := by
  simp [queueOf, hc]

/-- A `sync` pushes the first messages of the queue, and `{"status":0}`. -/
theorem Reaches.syncs (h : Reaches jansson history srv) (hc : srv.clnts.cells c = some clnt)
    (n : Int64) : ∃ srv' clnt',
      srv.perform jansson (.command c (Request.sync n).jsondata []) = .ok srv' ∧
      Reaches jansson
        (history ++ [(srv, .command c (Request.sync n).jsondata [])]) srv' ∧
      srv'.clnts.cells c = some clnt' ∧
      clnt'.sent = clnt.sent ++ ((srv.pending clnt).take (syncCount n)).map Queued.out ++
        [.statusOk] ∧
      srv'.pending clnt' = (srv.pending clnt).drop (syncCount n) := by
  have henabled : srv.Enabled (.command c (Request.sync n).jsondata []) :=
    h.inv.registry.mem_clients.mpr ⟨clnt, hc⟩
  obtain ⟨srv', hrun, hreaches, hacts⟩ := h.perform jansson henabled
  have hview : srv'.view = srv.view.sync jansson c (Request.sync n).jsondata := hacts
  have hpeer : srv.view.peers c = some (clnt.view srv.content) := by
    rw [view_peers, hc, Option.map_some]
  have hpeer' : srv'.view.peers c = some
      (((clnt.view srv.content).relay jansson (syncCount n)).push jansson .statusOk) := by
    rw [hview]
    change ((srv.view.update (· = c) _).finish jansson c).peers c = _
    rw [Hub.finish, Hub.push, Hub.update_peers, Hub.update_peers, hpeer]
    simp
  obtain ⟨clnt', hc', hclnt'⟩ := Option.map_eq_some_iff.mp hpeer'
  obtain ⟨_, hqueue, _, _, hsent⟩ := (clnt.view srv.content).relay_spec jansson (syncCount n)
  refine ⟨srv', clnt', hrun, hreaches, hc', ?_, ?_⟩
  · have hpushed : clnt'.sent =
        ((clnt.view srv.content).relay jansson (syncCount n)).sent ++ [.statusOk] :=
      congrArg Peer.sent hclnt'
    rw [hpushed, hsent]
    rfl
  · exact (congrArg Peer.queue hclnt').trans hqueue

/-- Towards a client that synchronises, the server is a queue. -/
theorem Reaches.serves (hok : loads statusOkText = statusOkMessage.jsondata) (c : ClientPtr) :
    Serves (answer jansson loads c) (queueOf loads · c)
      (fun srv => (∃ history, Reaches jansson history srv) ∧
        ∃ clnt, srv.clnts.cells c = some clnt) := by
  have hstep : ∀ srv n, ((∃ history, Reaches jansson history srv) ∧
      ∃ clnt, srv.clnts.cells c = some clnt) → ∃ srv' clnt clnt',
        answer jansson loads c srv (Request.sync n) = (srv', (srv.queueOf loads c).take (syncCount n) ++
          [statusOkMessage]) ∧ (∃ history, Reaches jansson history srv') ∧
        srv.clnts.cells c = some clnt ∧ srv'.clnts.cells c = some clnt' ∧
        srv'.pending clnt' = (srv.pending clnt).drop (syncCount n) := by
    rintro srv n ⟨⟨history, h⟩, clnt, hc⟩
    obtain ⟨srv', clnt', hrun, hreaches, hc', hsent, hpending⟩ := h.syncs hc n
    refine ⟨srv', clnt, clnt', ?_, ⟨_, hreaches⟩, hc, hc', hpending⟩
    have hrun' : srv.perform jansson
        (.command c (Request.sync n).jsondata (Request.sync n).bindata) = .ok srv' := hrun
    simp only [answer, hrun']
    have hlast : Outgoing.statusOk.message jansson loads = statusOkMessage :=
      congrArg (fun json => (⟨json, []⟩ : Message)) hok
    rw [sentTo_eq hc, sentTo_eq hc', hsent, List.append_assoc, List.drop_left, queueOf_eq hc,
      List.map_append, ← List.map_take, List.map_map, List.map_singleton, hlast]
    rfl
  constructor
  · intro srv n hgood
    obtain ⟨srv', clnt, clnt', hanswer, hreaches, _, hc', _⟩ := hstep srv n hgood
    rw [hanswer]
    exact ⟨hreaches, clnt', hc'⟩
  · intro srv n hgood
    obtain ⟨srv', clnt, clnt', hanswer, _, hc, hc', hpending⟩ := hstep srv n hgood
    rw [hanswer, queueOf_eq hc', queueOf_eq hc, hpending, List.map_drop]
  · intro srv n hgood
    obtain ⟨srv', clnt, clnt', hanswer, _⟩ := hstep srv n hgood
    rw [hanswer]

/-- A message that is queued in a run is the JSON object and the binary data of a request. -/
theorem mem_expected {m : Queued} (hm : m ∈ expected jansson history c) : ∃ mid c' jsondata,
    (mid, .command c' jsondata m.bindata) ∈ history ∧
    (Hub.command jsondata = "send" ∨ Hub.command jsondata = "broadcast") ∧
    m.jsondata = jansson.dumps jsondata := by
  obtain ⟨⟨mid, action⟩, hmem, haddressed⟩ := List.mem_flatMap.mp hm
  cases action with
  | command c' jsondata bindata =>
      have hcommand := Hub.command_of_addressed jansson (List.ne_nil_of_mem haddressed)
      have hnew : m = mid.view.newMessage jansson jsondata bindata := by
        simp only [Hub.addressed] at haddressed
        split at haddressed
        · split at haddressed
          · split at haddressed
            · exact List.mem_singleton.mp haddressed
            · cases haddressed
          · cases haddressed
        · split at haddressed
          · exact List.mem_singleton.mp haddressed
          · cases haddressed
        · cases haddressed
      subst hnew
      exact ⟨mid, c', jsondata, hmem, hcommand, rfl⟩
  | accept fd ws => cases haddressed
  | find fd => cases haddressed
  | transfer c' sock => cases haddressed
  | close c' => cases haddressed

/-- So are the messages of a queue. -/
theorem Reaches.submitted (h : Reaches jansson history srv) (hc : srv.clnts.cells c = some clnt)
    {m : Queued} (hm : m ∈ srv.pending clnt) : ∃ mid c' jsondata,
      (mid, .command c' jsondata m.bindata) ∈ history ∧
      (Hub.command jsondata = "send" ∨ Hub.command jsondata = "broadcast") ∧
      m.jsondata = jansson.dumps jsondata := by
  apply mem_expected (c := c)
  have hbalance := h.balanced.balance c (clnt.view srv.content)
    (by rw [view_peers, hc, Option.map_some])
  rw [← hbalance]
  exact List.mem_append_right _ hm

/-- So are those that have been relayed. -/
theorem Reaches.relayed (h : Reaches jansson history srv) (hc : srv.clnts.cells c = some clnt)
    {m : Queued} (hm : m.out ∈ clnt.sent) : ∃ mid c' jsondata,
      (mid, .command c' jsondata m.bindata) ∈ history ∧
      (Hub.command jsondata = "send" ∨ Hub.command jsondata = "broadcast") ∧
      m.jsondata = jansson.dumps jsondata := by
  apply mem_expected (c := c)
  have hbalance := h.balanced.balance c (clnt.view srv.content)
    (by rw [view_peers, hc, Option.map_some])
  rw [← hbalance]
  exact List.mem_append_left _ (List.mem_filterMap.mpr ⟨m.out, hm, rfl⟩)

end Server

end Dime
