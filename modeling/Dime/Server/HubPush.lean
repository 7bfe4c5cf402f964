import Dime.Server.Hub
import Dime.Server.Invariant

/-!
# Replies and handshakes on the hub

With allocations that succeed, a push appends one message to what a client was
sent, and nothing else changes. Replies, refusals and handshakes are made of
such pushes.
-/

namespace Dime

variable (jansson : Jansson Json)

namespace Client

/-- A client after a push that left `wbuf` in its outbuffer. -/
def pushed (clnt : Client) (out : Outgoing) (wbuf : Ring) : Client :=
  { clnt with sock := { clnt.sock.started with wbuf }, sent := clnt.sent ++ [out] }

theorem pushStr_succeed (clnt : Client) (out : Outgoing) :
    ∃ ret wbuf, clnt.pushStr (fun _ => true) out (out.jsonstr jansson) out.bindata =
        (ret, clnt.pushed out wbuf) ∧ 0 ≤ ret ∧
      ∀ content, (clnt.pushed out wbuf).view content = (clnt.view content).push jansson out := by
  obtain ⟨ret, wbuf, hrun, hlength, hwbuf⟩ :=
    clnt.sock.pushStr_succeed (out.jsonstr jansson) out.bindata
  have hret : 0 ≤ ret := by
    rw [hlength]
    exact Int.natCast_nonneg _
  refine ⟨ret, wbuf, ?_, hret, fun content => ?_⟩
  · rw [pushStr, hrun]
    dsimp only
    rw [if_neg (by omega)]
    rfl
  · have hws : (clnt.sock.ws.map Ring.toList).isSome = clnt.sock.ws.isSome := Option.isSome_map
    simp only [view, pushed, Peer.push, Outgoing.frame, hwbuf, hws, Socket.started_rbuf,
      Socket.started_ws, Socket.started_ev]
    congr

end Client

namespace Server

variable {srv : Server} {slack : MsgPtr → Nat} {new : Option MsgPtr} {c : ClientPtr}

theorem view_peers (srv : Server) (c : ClientPtr) :
    srv.view.peers c = (srv.clnts.cells c).map (Client.view srv.content) := rfl

/-- Changing one client shows as an operation on it. -/
theorem view_setClient {clnt clnt' : Client} (hc : srv.clnts.cells c = some clnt)
    {f : Peer → Peer} (hf : clnt'.view srv.content = f (clnt.view srv.content)) :
    (srv.setClient c clnt').view = srv.view.update (· = c) f := by
  refine Hub.ext (funext fun c' => ?_) rfl rfl rfl rfl
  have hcontent : (srv.setClient c clnt').content = srv.content := rfl
  rw [Hub.update_peers, view_peers, view_peers, hcontent]
  rcases eq_or_ne c' c with rfl | hne
  · rw [setClient_self hc, hc, Option.map_some, Option.map_some, Option.map_some, if_pos rfl, hf]
  · rw [setClient_of_ne _ hne]
    cases srv.clnts.cells c' with
    | none => rfl
    | some other => rw [Option.map_some, Option.map_some, if_neg hne]

/-- What a push to a client leaves. -/
structure Pushed (slack : MsgPtr → Nat) (new : Option MsgPtr) (srv : Server) (c : ClientPtr)
    (out : Outgoing) (srv' : Server) : Prop where
  inv : srv'.Inv slack new
  framed : srv.Framed srv'
  msgs : srv'.msgs = srv.msgs
  view : srv'.view = srv.view.push jansson c out

theorem pushStrTo_eq {clnt : Client} (hc : srv.clnts.cells c = some clnt) (out : Outgoing) :
    ∃ ret wbuf, srv.pushStrTo (fun _ => true) c out (out.jsonstr jansson) out.bindata =
        .ok (ret, srv.setClient c (clnt.pushed out wbuf)) ∧ 0 ≤ ret ∧
      ∀ content, (clnt.pushed out wbuf).view content = (clnt.view content).push jansson out := by
  obtain ⟨ret, wbuf, hrun, hret, hview⟩ := clnt.pushStr_succeed jansson out
  refine ⟨ret, wbuf, ?_, hret, hview⟩
  rw [pushStrTo, deref_some hc, ok_bind, hrun]
  rfl

theorem pushStrTo_succeed (h : srv.Inv slack new) {clnt : Client}
    (hc : srv.clnts.cells c = some clnt) (out : Outgoing) :
    ∃ ret srv', srv.pushStrTo (fun _ => true) c out (out.jsonstr jansson) out.bindata =
        .ok (ret, srv') ∧ 0 ≤ ret ∧ Pushed jansson slack new srv c out srv' := by
  obtain ⟨ret, wbuf, hrun, hret, hview⟩ := pushStrTo_eq jansson hc out
  have hframe := framed_setClient (clnt.pushed out wbuf) hc rfl rfl
  exact ⟨ret, srv.setClient c (clnt.pushed out wbuf), hrun, hret,
    ⟨h.registry.framed hframe, h.membership.framed hframe, h.refs.setClient hc rfl,
      h.quiet.setClient (h.quiet c clnt hc)⟩, hframe, rfl, view_setClient hc (hview _)⟩

theorem pushTo_succeed (h : srv.Inv slack new) {clnt : Client}
    (hc : srv.clnts.cells c = some clnt) (body : Json) :
    ∃ ret srv', srv.pushTo jansson .succeed c body = .ok (ret, srv') ∧ 0 ≤ ret ∧
      Pushed jansson slack new srv c (.json body) srv' :=
  pushStrTo_succeed jansson h hc (.json body)

/-- Noting an error text is not seen. -/
theorem Inv.setErr (h : srv.Inv slack new) (text : String) :
    Inv slack new { srv with err := text } :=
  ⟨h.registry.framed ⟨rfl, rfl, rfl, rfl, fun _ => rfl⟩,
    h.membership.framed ⟨rfl, rfl, rfl, rfl, fun _ => rfl⟩, h.refs,
    h.quiet⟩

/-- A refusal is a reply with the error text. -/
theorem refuse_succeed (h : srv.Inv slack new) {clnt : Client}
    (hc : srv.clnts.cells c = some clnt) (text : String) :
    ∃ srv', srv.refuse jansson .succeed c text = .ok (-1, srv') ∧ srv'.Inv slack new ∧
      srv.Framed srv' ∧ srv'.view = srv.view.refuse jansson c text := by
  obtain ⟨ret, srv', hrun, _, hpushed⟩ :=
    pushTo_succeed jansson (h.setErr text) (c := c) hc (errorReply text)
  have hframe : srv.Framed { srv with err := text } := ⟨rfl, rfl, rfl, rfl, fun _ => rfl⟩
  refine ⟨srv', ?_, hpushed.inv, hframe.trans hpushed.framed, hpushed.view⟩
  simp only [refuse, ReplyAlloc.succeed_pack, ReplyAlloc.succeed_push, if_true, hrun, ok_bind,
    pure_ok]

theorem finish_succeed (h : srv.Inv slack new) {clnt : Client}
    (hc : srv.clnts.cells c = some clnt) :
    ∃ srv', srv.finish jansson .succeed c = .ok (0, srv') ∧ srv'.Inv slack new ∧
      srv.Framed srv' ∧ srv'.view = srv.view.finish jansson c := by
  obtain ⟨ret, srv', hrun, hret, hpushed⟩ := pushStrTo_succeed jansson h hc .statusOk
  refine ⟨srv', ?_, hpushed.inv, hpushed.framed, hpushed.view⟩
  have hstatus : srv.pushStrTo (fun _ => true) c .statusOk statusOkText [] = .ok (ret, srv') :=
    hrun
  simp only [finish, Alloc.succeed_reply, ReplyAlloc.succeed_push, PushAlloc.succeed_write,
    hstatus, ok_bind, if_neg (not_lt.mpr hret), pure_ok]

/-! ## Handshakes -/

theorem Inv.setSerialization (h : srv.Inv slack new) (serialization : Serialization) :
    Inv slack new { srv with serialization } :=
  ⟨h.registry.framed ⟨rfl, rfl, rfl, rfl, fun _ => rfl⟩,
    h.membership.framed ⟨rfl, rfl, rfl, rfl, fun _ => rfl⟩, h.refs,
    h.quiet⟩

/-- The reregister message reaches every client of the list but `c`. -/
theorem reregister_succeed (others : List ClientPtr) (i : Nat) (h : srv.Inv slack new)
    (hnodup : others.Nodup)
    (hlive : ∀ other ∈ others, ∃ clnt, srv.clnts.cells other = some clnt) :
    ∃ srv', reregister jansson .succeed c i others srv = .ok (true, srv') ∧ srv'.Inv slack new ∧
      srv.Framed srv' ∧ srv'.view = srv.view.update (fun other => other ∈ others ∧ other ≠ c)
        fun peer => peer.push jansson (.json reregisterMeta) := by
  induction others generalizing i srv with
  | nil =>
      refine ⟨srv, rfl, h, .refl srv, (Hub.update_false _ fun _ _ _ hmem => ?_).symm⟩
      cases hmem.1
  | cons other rest ih =>
      obtain ⟨hnot, hrest⟩ := List.nodup_cons.mp hnodup
      rcases eq_or_ne other c with rfl | hne
      · obtain ⟨srv', hrun, hinv, hframe, hview⟩ := ih (i + 1) h hrest
          fun o ho => hlive o (List.mem_cons_of_mem _ ho)
        refine ⟨srv', by rw [reregister, if_neg (not_not_intro rfl)]; exact hrun, hinv, hframe, ?_⟩
        rw [hview]
        refine Hub.update_congr _ fun o peer _ => ?_
        rw [List.mem_cons]
        exact ⟨fun ⟨hmem, ho⟩ => ⟨.inr hmem, ho⟩,
          fun ⟨hmem, ho⟩ => ⟨hmem.resolve_left ho, ho⟩⟩
      · obtain ⟨clnt, hother⟩ := hlive other List.mem_cons_self
        obtain ⟨ret, mid, hpush, hret, hpushed⟩ :=
          pushStrTo_succeed jansson h hother (.json reregisterMeta)
        obtain ⟨srv', hrun, hinv, hframe, hview⟩ := ih (i + 1) hpushed.inv hrest fun o ho => by
          obtain ⟨old, hold⟩ := hlive o (List.mem_cons_of_mem _ ho)
          obtain ⟨now, hnow, _⟩ := hpushed.framed.forward hold
          exact ⟨now, hnow⟩
        have hstep : srv.pushStrTo (fun _ => true) other (.json reregisterMeta)
            (jansson.dumps reregisterMeta) [] = .ok (ret, mid) := hpush
        refine ⟨srv', ?_, hinv, hpushed.framed.trans hframe, ?_⟩
        · simp only [reregister, if_pos hne, Alloc.succeed_reply, ReplyAlloc.succeed_push,
            PushAlloc.succeed_write, hstep, ok_bind, if_neg (not_lt.mpr hret), hrun]
        · rw [hview, hpushed.view, Hub.push, Hub.update_update]
          · refine Hub.update_congr _ fun o peer _ => ?_
            rw [List.mem_cons]
            constructor
            · rintro (rfl | ⟨hmem, ho⟩)
              · exact ⟨.inl rfl, hne⟩
              · exact ⟨.inr hmem, ho⟩
            · rintro ⟨rfl | hmem, ho⟩
              · exact .inl rfl
              · exact .inr ⟨hmem, ho⟩
          · rintro o rfl ⟨hmem, _⟩
            exact hnot hmem

theorem negotiate_succeed (h : srv.Inv slack new) (requested : Serialization) :
    ∃ srv', srv.negotiate jansson .succeed c requested = .ok (true, srv') ∧ srv'.Inv slack new ∧
      srv.Framed srv' ∧ srv'.view = srv.view.negotiate jansson c requested := by
  have hserialization : srv.view.serialization = srv.serialization := rfl
  rw [negotiate, Hub.negotiate, hserialization]
  split
  next =>
    exact ⟨_, rfl, h.setSerialization requested, ⟨rfl, rfl, rfl, rfl, fun _ => rfl⟩, rfl⟩
  next =>
    split
    next =>
      obtain ⟨srv', hrun, hinv, hframe, hview⟩ := reregister_succeed jansson (c := c)
        (srv.fd2clnt.iterate.map Entry.val) 0 h h.registry.clients_nodup
        fun other => h.registry.mem_clients.mp
      have hframe' : srv'.Framed { srv' with serialization := .dimeb } :=
        ⟨rfl, rfl, rfl, rfl, fun _ => rfl⟩
      refine ⟨{ srv' with serialization := .dimeb }, ?_, hinv.setSerialization _,
        hframe.trans hframe', ?_⟩
      · simp only [Alloc.succeed_malloc, hrun, ok_bind, pure_ok, if_true, not_true_eq_false,
          if_false]
      · have hall : srv'.view = srv.view.update (· ≠ c)
            fun peer => peer.push jansson (.json reregisterMeta) := by
          rw [hview]
          refine Hub.update_congr _ fun other peer hpeer => ⟨fun hmem => hmem.2, fun hne => ?_⟩
          rw [view_peers] at hpeer
          obtain ⟨clnt, hother, _⟩ := Option.map_eq_some_iff.mp hpeer
          exact ⟨h.registry.mem_clients.mpr ⟨clnt, hother⟩, hne⟩
        rw [← hall]
        rfl
    next => exact ⟨srv, rfl, h, .refl srv, rfl⟩

/-- A handshake on the server is one on the hub. -/
theorem handshake_succeed (h : srv.Inv slack new) {clnt : Client}
    (hc : srv.clnts.cells c = some clnt) (jsondata : Json) :
    ∃ ret srv', srv.handshake jansson .succeed c jsondata = .ok (ret, srv') ∧
      srv'.Inv slack new ∧ srv'.view = srv.view.handshake jansson c jsondata := by
  have hrefuse := refuse_succeed jansson h hc (parsingError jansson jsondata "{sssb}")
  obtain ⟨refused, hrun, hinv, _, hview⟩ := hrefuse
  rw [handshake, Hub.handshake]
  cases jsondata.unpackString "serialization" with
  | none => exact ⟨-1, refused, hrun, hinv, hview⟩
  | some serialization =>
      cases jsondata.unpackBool "tls" with
      | none => exact ⟨-1, refused, hrun, hinv, hview⟩
      | some tls =>
          dsimp only
          cases Serialization.ofName serialization with
          | none => exact ⟨-1, srv, rfl, h, rfl⟩
          | some requested =>
              obtain ⟨mid, hmid, hmidInv, hframe, hmidView⟩ :=
                negotiate_succeed jansson (c := c) h requested
              obtain ⟨now, hnow, _⟩ := hframe.forward hc
              obtain ⟨ret, srv', hpush, hret, hpushed⟩ := pushTo_succeed jansson hmidInv hnow
                (handshakeReply (mid.serialization.name serialization) false)
              refine ⟨0, srv', ?_, hpushed.inv, ?_⟩
              · simp only [hmid, ok_bind, Alloc.succeed_reply, ReplyAlloc.succeed_pack,
                  ReplyAlloc.succeed_push, not_true_eq_false, if_false, hpush,
                  if_neg (not_lt.mpr hret), pure_ok]
              · dsimp only
                rw [hpushed.view, ← hmidView]
                rfl

end Server

end Dime
