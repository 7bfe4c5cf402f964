import Dime.Server.Loop
import Dime.Server.HubRun

/-!
# What handling does to a connection

While the messages of one client are handled, bytes come off its inbuffer, and
clients are pushed to and change their queues. Nothing leaves an outbuffer, and
no connection comes or goes.
-/

noncomputable section

open Classical

namespace Dime

variable (jansson : Jansson Json)

/-- `peer'` is `peer` after pushes and changes of its queue, its waiting flag and
its inbuffers. -/
inductive Peer.Evolves (peer : Peer) : Peer → Prop where
  | refl : Evolves peer peer
  | push {peer' : Peer} (before : Evolves peer peer') (out : Outgoing) :
      Evolves peer (peer'.push jansson out)
  | queue {peer' : Peer} (before : Evolves peer peer') (queue : List Queued) :
      Evolves peer { peer' with queue }
  | waiting {peer' : Peer} (before : Evolves peer peer') (waiting : Bool) :
      Evolves peer { peer' with waiting }
  | received {peer' : Peer} (before : Evolves peer peer') (rbuf : Bytes) (ws : Option Bytes) :
      Evolves peer { peer' with rbuf, ws }

namespace Peer

variable {jansson} {peer peer' peer'' : Peer}

theorem Evolves.trans (h : Evolves jansson peer peer') (h' : Evolves jansson peer' peer'') :
    Evolves jansson peer peer'' := by
  induction h' with
  | refl => exact h
  | push _ out ih => exact ih.push out
  | queue _ queue ih => exact ih.queue queue
  | waiting _ waiting ih => exact ih.waiting waiting
  | received _ rbuf ws ih => exact ih.received rbuf ws

variable (jansson) in
/-- A relation that holds of a client and what becomes of it by pushes and changes of its queue
and its waiting flag. -/
structure Closed (R : Peer → Peer → Prop) : Prop where
  refl : ∀ peer, R peer peer
  trans : ∀ {peer peer' peer''}, R peer peer' → R peer' peer'' → R peer peer''
  push : ∀ peer out, R peer (peer.push jansson out)
  queue : ∀ (peer : Peer) (queue : List Queued), R peer { peer with queue }
  waiting : ∀ (peer : Peer) (waiting : Bool), R peer { peer with waiting }

theorem closed_evolves : Closed jansson (Evolves jansson) where
  refl _ := .refl
  trans h h' := h.trans h'
  push _ out := Evolves.refl.push out
  queue _ queue := Evolves.refl.queue queue
  waiting _ waiting := Evolves.refl.waiting waiting

namespace Closed

variable {R : Peer → Peer → Prop}

theorem enqueue (h : Closed jansson R) (m : Queued) (peer : Peer) :
    R peer (peer.enqueue jansson m) := by
  unfold Peer.enqueue
  split
  · exact h.trans (h.push peer _) (h.trans (h.queue _ (peer.queue ++ [m])) (h.waiting _ false))
  · exact h.queue peer _

theorem wait (h : Closed jansson R) (peer : Peer) : R peer (peer.wait jansson) := by
  unfold Peer.wait
  split
  · exact h.push peer _
  · exact h.waiting peer true

theorem relay (h : Closed jansson R) (m : Nat) (peer : Peer) : R peer (peer.relay jansson m) := by
  induction m generalizing peer with
  | zero => exact h.refl peer
  | succ m ih =>
      unfold Peer.relay
      split
      · exact h.refl peer
      · next q rest _ => exact h.trans (h.queue peer rest) (h.trans (h.push _ q.out) (ih _))

end Closed

theorem Evolves.fd (h : Evolves jansson peer peer') : peer'.fd = peer.fd := by
  induction h with
  | refl => rfl
  | push _ _ ih => exact ih
  | queue _ _ ih => exact ih
  | waiting _ _ ih => exact ih
  | received _ _ _ ih => exact ih

end Peer

namespace Hub

/-- The clients are the same, each of them evolved. -/
def Evolves (hub hub' : Hub) : Prop :=
  ∀ c, Option.Rel (Peer.Evolves jansson) (hub.peers c) (hub'.peers c)

variable {jansson} {hub hub' hub'' : Hub} {c : ClientPtr}

theorem Evolves.of_peers (h : hub'.peers = hub.peers) : Evolves jansson hub hub' := by
  intro c
  rw [h]
  cases hub.peers c with
  | none => exact .none
  | some peer => exact .some .refl

theorem Evolves.trans (h : Evolves jansson hub hub') (h' : Evolves jansson hub' hub'') :
    Evolves jansson hub hub'' := by
  intro c
  specialize h c
  specialize h' c
  revert h h'
  cases hub.peers c <;> cases hub'.peers c <;> cases hub''.peers c <;> intro h h' <;> cases h <;>
    cases h'
  · exact .none
  · exact .some (.trans ‹_› ‹_›)

theorem Evolves.peer (h : Evolves jansson hub hub') {peer' : Peer}
    (hpeer' : hub'.peers c = some peer') :
    ∃ peer, hub.peers c = some peer ∧ peer.Evolves jansson peer' := by
  specialize h c
  rw [hpeer'] at h
  cases hpeer : hub.peers c with
  | none =>
      rw [hpeer] at h
      cases h
  | some peer =>
      rw [hpeer] at h
      cases h with
      | some hevolves => exact ⟨peer, rfl, hevolves⟩

theorem Evolves.peer' (h : Evolves jansson hub hub') {peer : Peer}
    (hpeer : hub.peers c = some peer) :
    ∃ peer', hub'.peers c = some peer' ∧ peer.Evolves jansson peer' := by
  specialize h c
  rw [hpeer] at h
  cases hpeer' : hub'.peers c with
  | none =>
      rw [hpeer'] at h
      cases h
  | some peer' =>
      rw [hpeer'] at h
      cases h with
      | some hevolves => exact ⟨peer', rfl, hevolves⟩

/-- The clients are the same, each of them related to what it was. -/
def Related (R : Peer → Peer → Prop) (hub hub' : Hub) : Prop :=
  ∀ c, Option.Rel R (hub.peers c) (hub'.peers c)

section

variable {R : Peer → Peer → Prop} (hR : Peer.Closed jansson R)

theorem Related.peer (h : Related R hub hub') {peer : Peer} (hpeer : hub.peers c = some peer) :
    ∃ peer', hub'.peers c = some peer' ∧ R peer peer' := by
  specialize h c
  rw [hpeer] at h
  cases hpeer' : hub'.peers c with
  | none =>
      rw [hpeer'] at h
      cases h
  | some peer' =>
      rw [hpeer'] at h
      cases h with
      | some hrelated => exact ⟨peer', rfl, hrelated⟩

theorem Related.before (h : Related R hub hub') {peer' : Peer} (hpeer' : hub'.peers c = some peer') :
    ∃ peer, hub.peers c = some peer ∧ R peer peer' := by
  specialize h c
  rw [hpeer'] at h
  cases hpeer : hub.peers c with
  | none =>
      rw [hpeer] at h
      cases h
  | some peer =>
      rw [hpeer] at h
      cases h with
      | some hrelated => exact ⟨peer, rfl, hrelated⟩

include hR

theorem related_of_peers (h : hub'.peers = hub.peers) : Related R hub hub' := by
  intro c
  rw [h]
  cases hub.peers c with
  | none => exact .none
  | some peer => exact .some (hR.refl peer)

theorem related_trans (h : Related R hub hub') (h' : Related R hub' hub'') :
    Related R hub hub'' := by
  intro c
  specialize h c
  specialize h' c
  revert h h'
  cases hub.peers c <;> cases hub'.peers c <;> cases hub''.peers c <;> intro h h' <;> cases h <;>
    cases h'
  · exact .none
  · exact .some (hR.trans ‹_› ‹_›)

theorem related_update (P : ClientPtr → Prop) {f : Peer → Peer} (hf : ∀ peer, R peer (f peer)) :
    Related R hub (hub.update P f) := by
  intro c
  rw [update_peers]
  cases hub.peers c with
  | none => exact .none
  | some peer =>
      refine .some ?_
      split
      · exact hf peer
      · exact hR.refl peer

theorem related_push (out : Outgoing) : Related R hub (hub.push jansson c out) :=
  related_update hR _ (hR.push · out)

theorem related_negotiate (requested : Serialization) :
    Related R hub (hub.negotiate jansson c requested) := by
  unfold negotiate
  split
  · exact related_of_peers hR rfl
  · split
    · exact related_trans hR (related_update hR (· ≠ c) (hR.push · _)) (related_of_peers hR rfl)
    · exact related_of_peers hR rfl

theorem related_handshake (jsondata : Json) :
    Related R hub (hub.handshake jansson c jsondata) := by
  unfold handshake
  split
  · split
    · exact related_of_peers hR rfl
    · exact related_trans hR (related_negotiate hR _) (related_push hR _)
  · exact related_push hR _

theorem related_joinName (v : Json) (hub : Hub) : Related R hub (joinName jansson c v hub).2 := by
  unfold joinName
  split
  · split
    · exact related_push hR _
    · exact related_of_peers hR rfl
  · exact related_push hR _

theorem related_leaveName (v : Json) (hub : Hub) : Related R hub (leaveName jansson c v hub).2 := by
  unfold leaveName
  split
  · split
    · exact related_of_peers hR rfl
    · exact related_push hR _
  · exact related_push hR _

theorem related_withNames {handle : Json → Hub → Bool × Hub}
    (hhandle : ∀ v hub, Related R hub (handle v hub).2) (jsondata : Json) :
    Related R hub (hub.withNames jansson handle c jsondata) := by
  have heach : ∀ vs hub, Related R hub (eachName handle vs hub).2 := by
    intro vs
    induction vs with
    | nil => exact fun hub => related_of_peers hR rfl
    | cons v rest ih =>
        intro hub
        unfold eachName
        split
        · exact related_trans hR (hhandle v hub) (ih _)
        · exact hhandle v hub
  unfold withNames
  split
  · exact related_push hR _
  · split
    · exact related_trans hR (heach _ hub) (related_push hR _)
    · exact heach _ hub

theorem related_deliver (P : ClientPtr → Prop) (jsondata : Json) (bindata : Bytes) :
    Related R hub (hub.deliver jansson P jsondata bindata) :=
  related_trans hR (related_update hR P fun peer => hR.enqueue _ peer) (related_of_peers hR rfl)

/-- Every command only pushes and changes queues and waiting flags. -/
theorem Handles.related {jsondata : Json} {bindata : Bytes}
    (h : hub.Handles jansson c jsondata bindata hub') : Related R hub hub' := by
  unfold Handles at h
  split at h
  case h_1 => exact h ▸ related_handshake hR jsondata
  case h_2 => exact h ▸ related_withNames hR (related_joinName hR) jsondata
  case h_3 => exact h ▸ related_withNames hR (related_leaveName hR) jsondata
  case h_4 =>
    subst h
    unfold send
    split
    · exact related_push hR _
    · split
      · exact related_trans hR (related_deliver hR _ jsondata bindata) (related_push hR _)
      · exact related_push hR _
  case h_5 =>
    subst h
    exact related_trans hR (related_deliver hR _ jsondata bindata) (related_push hR _)
  case h_6 =>
    subst h
    unfold sync
    split
    · exact related_of_peers hR rfl
    · exact related_trans hR (related_update hR _ fun peer => hR.relay _ peer) (related_push hR _)
  case h_7 => exact h ▸ related_update hR _ fun peer => hR.wait peer
  case h_8 =>
    obtain ⟨names, _, _, rfl⟩ := h
    exact related_push hR _
  case h_9 => exact h ▸ related_push hR _

end

theorem evolves_update (P : ClientPtr → Prop) {f : Peer → Peer}
    (hf : ∀ peer, Peer.Evolves jansson peer (f peer)) : Evolves jansson hub (hub.update P f) :=
  related_update Peer.closed_evolves P hf

theorem Handles.evolves {jsondata : Json} {bindata : Bytes}
    (h : hub.Handles jansson c jsondata bindata hub') : Evolves jansson hub hub' :=
  h.related Peer.closed_evolves

end Hub

/-! ## The pop loop -/

namespace Socket

variable {J : Type}

theorem popFrames_keeps {alloc : PopAlloc} {fuel i : Nat} {sock sock' : Socket} {ws : Ring}
    {ok : Bool} (h : popFrames alloc fuel i sock ws = .ok (ok, sock')) :
    sock'.wbuf = sock.wbuf ∧ sock'.ev = sock.ev := by
  induction fuel generalizing i sock ws with
  | zero => cases h
  | succ fuel ih =>
      rw [popFrames] at h
      dsimp only at h
      split at h
      · cases h
        exact ⟨rfl, rfl⟩
      · split at h
        · cases h
          exact ⟨rfl, rfl⟩
        · split at h
          · cases h
            exact ⟨rfl, rfl⟩
          · split at h
            · split at h
              · cases h
              · split at h
                · cases h
                  exact ⟨rfl, rfl⟩
                · have hrest := ih h
                  exact hrest
            · cases h
              exact ⟨rfl, rfl⟩

theorem popMessage_keeps {jansson : Jansson J} {alloc : PopAlloc} {sock sock' : Socket} {n : Int}
    {message : Option (Message J)} (h : sock.popMessage jansson alloc = .ok (n, message, sock')) :
    sock'.wbuf = sock.wbuf ∧ sock'.ev = sock.ev := by
  unfold popMessage at h
  dsimp only at h
  repeat' split at h
  all_goals first
    | (cases h; exact ⟨rfl, rfl⟩)
    | cases h

/-- A pop leaves the outbuffer and the watchers alone. -/
theorem pop_keeps {jansson : Jansson J} {alloc : PopAlloc} {sock sock' : Socket} {n : Int}
    {message : Option (Message J)} (h : sock.pop jansson alloc = .ok (n, message, sock')) :
    sock'.wbuf = sock.wbuf ∧ sock'.ev = sock.ev := by
  unfold pop at h
  split at h
  · exact popMessage_keeps h
  · split at h
    · cases h
    · next hframes =>
        cases h
        exact popFrames_keeps hframes
    · next mid hframes =>
        obtain ⟨hwbuf, hev⟩ := popFrames_keeps hframes
        obtain ⟨hwbuf', hev'⟩ := popMessage_keeps h
        exact ⟨hwbuf'.trans hwbuf, hev'.trans hev⟩

theorem recvpartial_keeps (malloc realloc : Bool) (chunk : Except String Bytes) (sock : Socket) :
    ( sock.recvpartial malloc realloc chunk).2.wbuf = sock.wbuf ∧
      ( sock.recvpartial malloc realloc chunk).2.ev = sock.ev := by
  unfold recvpartial
  split
  · split
    · exact ⟨rfl, rfl⟩
    · dsimp only
      split
      · split <;> exact ⟨rfl, rfl⟩
      · split <;> exact ⟨rfl, rfl⟩
  · exact ⟨rfl, rfl⟩

end Socket

namespace Server

variable {srv srv' mid : Server} {c : ClientPtr} {clnt : Client} {slack : MsgPtr → Nat}

/-- The server keeps its invariant, and its clients have evolved. -/
structure Evolves (slack : MsgPtr → Nat) (srv srv' : Server) : Prop where
  inv : srv'.Inv slack none
  clients : srv.view.Evolves jansson srv'.view

variable {jansson}

theorem Evolves.refl (h : srv.Inv slack none) : Evolves jansson slack srv srv := ⟨h, .of_peers rfl⟩

theorem Evolves.trans (h : Evolves jansson slack srv mid) (h' : Evolves jansson slack mid srv') :
    Evolves jansson slack srv srv' := ⟨h'.inv, h.clients.trans h'.clients⟩

variable (jansson)

/-- Bytes that come in or come off the inbuffers. -/
theorem evolves_received (h : srv.Inv slack none) (hc : srv.clnts.cells c = some clnt)
    {sock : Socket} (hwbuf : sock.wbuf = clnt.sock.wbuf) (hev : sock.ev = clnt.sock.ev) :
    Evolves jansson slack srv (srv.setClient c { clnt with sock }) := by
  have hframe := framed_setClient { clnt with sock } hc rfl rfl
  have hview : (srv.setClient c { clnt with sock }).view = srv.view.update (· = c) fun peer =>
      { peer with rbuf := sock.rbuf.toList, ws := sock.ws.map Ring.toList } := by
    apply view_setClient hc
    rw [Client.view, Client.view, hwbuf, hev]
  refine ⟨⟨h.registry.framed hframe, h.membership.framed hframe, h.refs.setClient hc rfl,
    h.quiet.setClient (h.quiet c clnt hc)⟩, ?_⟩
  rw [hview]
  exact Hub.evolves_update _ fun _ => Peer.Evolves.refl.received _ _

theorem evolves_setErr (h : srv.Inv slack none) (text : String) :
    Evolves jansson slack srv { srv with err := text } := ⟨h.setErr text, .of_peers rfl⟩

variable {jansson}

/-- The pop loop only dispatches messages and takes bytes off the inbuffers. -/
theorem evolves_popLoop {loop : EventLoop} {errno : String} {fuel : Nat} {unlooped : Bool}
    {verdict : Verdict} (h : srv.Inv slack none)
    (hrun : popLoop jansson loop errno fuel unlooped srv c = .ok (verdict, srv')) :
    Evolves jansson slack srv srv' := by
  induction fuel generalizing unlooped srv with
  | zero => cases hrun
  | succ fuel ih =>
      rw [popLoop] at hrun
      obtain ⟨clnt, hc, hrun⟩ := bind_eq_ok hrun
      obtain ⟨⟨n, message, sock⟩, hpop, hrun⟩ := bind_eq_ok hrun
      obtain ⟨hwbuf, hev⟩ := Socket.pop_keeps hpop
      have hpopped := evolves_received jansson h (deref_eq_ok hc) hwbuf hev
      dsimp only at hrun
      split at hrun
      · split at hrun
        · next message =>
            obtain ⟨⟨ret, mid⟩, hdispatch, hrun⟩ := bind_eq_ok hrun
            obtain ⟨ret', mid', hdispatch', hinv, hhandles⟩ := dispatch_succeed jansson hpopped.inv
              (setClient_self (deref_eq_ok hc)) message.jsondata message.bindata
            rw [hdispatch] at hdispatch'
            cases hdispatch'
            exact (hpopped.trans ⟨hinv, hhandles.evolves⟩).trans (ih hinv hrun)
        · cases hrun
      · split at hrun
        · have hnoted := evolves_setErr jansson hpopped.inv errno
          cases loop with
          | select =>
              cases hrun
              exact hpopped.trans hnoted
          | libev => exact (hpopped.trans hnoted).trans (ih hnoted.inv hrun)
        · cases hrun
          exact hpopped

end Server

end Dime

end
