import Dime.Server.HubMembership

/-!
# Delivery on the hub

A message is made once, queued by reference, and freed with its last holder. On
the hub a queue holds the contents themselves: the views agree because a message
keeps its content for as long as a queue holds it.
-/

namespace Dime

variable (jansson : Jansson Json)

namespace Server

variable {srv : Server} {slack : MsgPtr → Nat} {new : Option MsgPtr} {c other : ClientPtr}
  {clnt clnt' : Client} {p : MsgPtr} {msg : Rcmessage} {msgs : Heap Rcmessage}

/-- A client is seen through the contents of its queue alone. -/
theorem Client.view_congr {content content' : MsgPtr → Queued}
    (hcontent : ∀ p ∈ clnt.queue.toList, content' p = content p) :
    clnt.view content' = clnt.view content := by
  rw [Client.view, Client.view, List.map_congr_left hcontent]

def setMsgs (srv : Server) (msgs : Heap Rcmessage) : Server := { srv with msgs }

@[simp] theorem setMsgs_msgs : (srv.setMsgs msgs).msgs = msgs := rfl

theorem framed_setMsgs (srv : Server) (msgs : Heap Rcmessage) : srv.Framed (srv.setMsgs msgs) :=
  ⟨rfl, rfl, rfl, rfl, fun _ => rfl⟩

/-- Replacing the messages shows nothing but the next address, as long as the
queued ones keep their content. -/
theorem view_setMsgs (hcontent : ∀ p, 0 < srv.holders p →
      (srv.setMsgs msgs).content p = srv.content p) :
    (srv.setMsgs msgs).view = { srv.view with nextMsg := msgs.next } := by
  refine Hub.ext (funext fun c => ?_) rfl rfl rfl rfl
  change (srv.clnts.cells c).map _ = (srv.clnts.cells c).map _
  cases hc : srv.clnts.cells c with
  | none => rfl
  | some clnt =>
      exact congrArg some (Client.view_congr fun p hp => hcontent p (holders_pos hc hp))

theorem content_some (hp : srv.msgs.cells p = some msg) :
    srv.content p = ⟨p, msg.jsondata, msg.bindata⟩ := by
  rw [content, hp]

/-- A change of the count of references keeps every content. -/
theorem content_write (hp : srv.msgs.cells p = some msg) (refs : Nat) :
    (srv.setMsgs (srv.msgs.write p { msg with refs })).content = srv.content := by
  funext q
  rcases eq_or_ne q p with rfl | hne
  · have hself : (srv.setMsgs (srv.msgs.write q { msg with refs })).msgs.cells q =
        some { msg with refs } := Heap.cells_write_self hp
    rw [content_some hp, content_some hself]
  · rw [content, content, setMsgs_msgs, Heap.cells_write_of_ne hne]

theorem content_free {q : MsgPtr} (hne : q ≠ p) :
    (srv.setMsgs (srv.msgs.free p)).content q = srv.content q := by
  rw [content, content, setMsgs_msgs, Heap.cells_free_of_ne hne]

theorem Inv.setMsgs (h : srv.Inv slack new) {new' : Option MsgPtr}
    (hrefs : msgs.Counted Rcmessage.refs (fun p => srv.holders p + slack p) new') :
    (srv.setMsgs msgs).Inv slack new' :=
  ⟨h.registry.framed (framed_setMsgs srv msgs), h.membership.framed (framed_setMsgs srv msgs),
    hrefs, h.quiet⟩

/-! ## Queueing a message -/

/-- Who waits is told the length of its queue; nothing else about it changes. -/
theorem notify_eq (i : Nat) (hc : srv.clnts.cells c = some clnt) :
    ∃ clnt', srv.notify jansson .succeed i c = .ok (true, srv.setClient c clnt') ∧
      clnt'.fd = clnt.fd ∧ clnt'.groups = clnt.groups ∧ clnt'.queue = clnt.queue ∧
      clnt'.waiting = false ∧
      ∀ content, clnt'.view content = if clnt.waiting then
        { (clnt.view content).push jansson (.json (countReply clnt.queue.len)) with
          waiting := false } else clnt.view content := by
  cases hwaiting : clnt.waiting with
  | false =>
      refine ⟨clnt, ?_, rfl, rfl, rfl, hwaiting, fun content => rfl⟩
      rw [notify, deref_some hc, ok_bind, hwaiting, setClient, Heap.write_eq_self hc]
      rfl
  | true =>
      obtain ⟨ret, wbuf, hrun, hret, hview⟩ :=
        pushStrTo_eq jansson hc (.json (countReply clnt.queue.len))
      have hpush : srv.pushTo jansson .succeed c (countReply clnt.queue.len) =
          .ok (ret, srv.setClient c (clnt.pushed (.json (countReply clnt.queue.len)) wbuf)) := hrun
      refine ⟨{ clnt.pushed (.json (countReply clnt.queue.len)) wbuf with waiting := false },
        ?_, rfl, rfl, rfl, rfl, fun content => ?_⟩
      · rw [notify, deref_some hc, ok_bind, hwaiting]
        simp only [if_true, Alloc.succeed_reply, ReplyAlloc.succeed_pack, ReplyAlloc.succeed_push,
          hpush, ok_bind, if_neg (not_lt.mpr hret), deref_some (setClient_self hc), pure_ok]
        simp only [setClient, Heap.write_write]
      · rw [if_pos rfl, ← hview]
        rfl

/-- What queueing a message for a client leaves. -/
structure Enqueued (slack : MsgPtr → Nat) (p : MsgPtr) (msg : Rcmessage) (srv : Server)
    (P : ClientPtr → Prop) (n : Nat) (srv' : Server) : Prop where
  inv : srv'.Inv slack (some p)
  framed : srv.Framed srv'
  content : srv'.content = srv.content
  msg : srv'.msgs.cells p = some { msg with refs := msg.refs + n }
  view : srv'.view = srv.view.update P (Peer.enqueue jansson (srv.content p))

theorem enqueue_succeed (h : srv.Inv slack (some p)) (i : Nat)
    (hother : srv.clnts.cells other = some clnt) (hp : srv.msgs.cells p = some msg) :
    ∃ srv', srv.enqueue jansson .succeed c p i other = .ok (true, srv') ∧
      Enqueued jansson slack p msg srv (· = other) 1 srv' := by
  obtain ⟨queue, hpush, hlist⟩ := clnt.queue.pushr_true p
  have hlen : queue.len = (clnt.queue.toList ++ [p]).length := by
    rw [← hlist, Queue.length_toList]
  have hmid : (srv.setClient other { clnt with queue }).clnts.cells other =
      some { clnt with queue } := setClient_self hother
  obtain ⟨clnt', hnotify, hfd, hgroups, hqueue, hwaiting, hview⟩ := notify_eq jansson i hmid
  have hset : (srv.setClient other { clnt with queue }).setClient other clnt' =
      srv.setClient other clnt' := by
    simp only [setClient, Heap.write_write]
  rw [hset] at hnotify
  have hframe := framed_setClient clnt' hother hfd hgroups
  have hcontent : ((srv.setClient other clnt').setMsgs
      (srv.msgs.write p { msg with refs := msg.refs + 1 })).content = srv.content :=
    content_write (show (srv.setClient other clnt').msgs.cells p = some msg from hp) _
  refine ⟨(srv.setClient other clnt').setMsgs
    (srv.msgs.write p { msg with refs := msg.refs + 1 }), ?_, ?_⟩
  · rw [enqueue, deref_some hother, ok_bind, Alloc.succeed_malloc, hpush]
    simp only [hnotify, ok_bind, if_true, deref_some hp, pure_ok, setClient_msgs]
    rfl
  have hholders : ∀ q, (srv.setClient other clnt').holders q =
      srv.holders q + if q = p then 1 else 0 := by
    intro q
    have hsum := holders_setClient clnt' hother q
    rw [hqueue, hlist, List.count_append, List.count_singleton] at hsum
    simp only [beq_iff_eq, @eq_comm _ p] at hsum
    omega
  have hcounted := h.refs.retain hp (show Rcmessage.refs { msg with refs := msg.refs + 1 } = _ from rfl)
  constructor
  · refine ⟨h.registry.framed (hframe.trans (framed_setMsgs _ _)),
      h.membership.framed (hframe.trans (framed_setMsgs _ _)), ?_,
      h.quiet.setClient fun hbad => by rw [hwaiting] at hbad; cases hbad⟩
    -- the queue holds the message once more, which the reference that is taken makes up for
    have hheld : (fun q => (srv.setClient other clnt').holders q + slack q) =
        Function.update (fun q => srv.holders q + slack q) p (srv.holders p + slack p + 1) := by
      funext q
      rw [hholders]
      rcases eq_or_ne q p with rfl | hne
      · rw [if_pos rfl, Function.update_self]
        omega
      · rw [if_neg hne, Function.update_of_ne hne, Nat.add_zero]
    rw [← hheld] at hcounted
    exact hcounted
  · exact hframe.trans (framed_setMsgs _ _)
  · exact hcontent
  · exact Heap.cells_write_self hp
  · rw [view_setMsgs fun q _ => congrFun hcontent q, view_setClient hother]
    · rfl
    · rw [hview]
      simp only [Peer.enqueue, Client.view, Peer.push, hlist, hlen, List.map_append, List.map_cons,
        List.map_nil, List.length_append, List.length_map]
      rfl

/-- The loop of `send` queues the message once for each client of the list. -/
theorem sendAll_succeed (others : List ClientPtr) (i : Nat) (h : srv.Inv slack (some p))
    (hnodup : others.Nodup)
    (hlive : ∀ other ∈ others, ∃ clnt, srv.clnts.cells other = some clnt)
    (hp : srv.msgs.cells p = some msg) :
    ∃ srv', sendAll jansson .succeed c p i others srv = .ok (true, srv') ∧
      Enqueued jansson slack p msg srv (· ∈ others) others.length srv' := by
  induction others generalizing i srv msg with
  | nil =>
      exact ⟨srv, rfl, h, .refl srv, rfl, hp, (Hub.update_false _ fun _ _ _ => by simp).symm⟩
  | cons other rest ih =>
      obtain ⟨hnot, hrest⟩ := List.nodup_cons.mp hnodup
      obtain ⟨clnt, hother⟩ := hlive other List.mem_cons_self
      obtain ⟨mid, hrun, hmid⟩ := enqueue_succeed jansson (c := c) h (i + 1) hother hp
      obtain ⟨srv', hrun', hend⟩ := ih (i + 1) hmid.inv hrest (fun o ho => by
        obtain ⟨old, hold⟩ := hlive o (List.mem_cons_of_mem _ ho)
        obtain ⟨now, hnow, _⟩ := hmid.framed.forward hold
        exact ⟨now, hnow⟩) hmid.msg
      refine ⟨srv', ?_, hend.inv, hmid.framed.trans hend.framed, hend.content.trans hmid.content,
        ?_, ?_⟩
      · rw [sendAll, hrun, ok_bind]
        exact hrun'
      · rw [hend.msg, List.length_cons]
        congr 2
        dsimp only
        omega
      · rw [hend.view, hmid.view, hmid.content, Hub.update_update]
        · refine Hub.update_congr _ fun o peer _ => ?_
          rw [List.mem_cons]
        · rintro o rfl hmem
          exact hnot hmem

/-- The rounds are counted for the allocations alone. -/
theorem sendAll_index (others : List ClientPtr) (i j : Nat) (srv : Server) :
    sendAll jansson .succeed c p i others srv = sendAll jansson .succeed c p j others srv := by
  induction others generalizing i j srv with
  | nil => rfl
  | cons other rest ih =>
      have hround : srv.enqueue jansson .succeed c p (i + 1) other =
          srv.enqueue jansson .succeed c p (j + 1) other := rfl
      rw [sendAll, sendAll, hround]
      simp only [ih (i + 1) (j + 1)]

/-- The loop of `broadcast` is that of `send` over the clients but `c`, as no two
clients share a descriptor. -/
theorem broadcastAll_eq (others : List ClientPtr) (i : Nat) (h : srv.Inv slack (some p))
    (hc : srv.clnts.cells c = some clnt)
    (hlive : ∀ other ∈ others, ∃ clnt, srv.clnts.cells other = some clnt)
    (hp : srv.msgs.cells p = some msg) :
    broadcastAll jansson .succeed c p i others srv =
      sendAll jansson .succeed c p i (others.filter (· ≠ c)) srv := by
  induction others generalizing i srv clnt msg with
  | nil => rfl
  | cons other rest ih =>
      obtain ⟨peer, hother⟩ := hlive other List.mem_cons_self
      rw [broadcastAll, deref_some hc, ok_bind, deref_some hother, ok_bind]
      rcases eq_or_ne other c with rfl | hne
      · rw [hc] at hother
        cases hother
        rw [if_neg (not_not_intro rfl), List.filter_cons_of_neg (by simp),
          sendAll_index jansson _ i (i + 1)]
        exact ih (i + 1) h hc (fun o ho => hlive o (List.mem_cons_of_mem _ ho)) hp
      · have hfd : clnt.fd ≠ peer.fd := fun heq => hne (h.registry.fd_inj hother hc heq.symm)
        obtain ⟨mid, hrun, hmid⟩ := enqueue_succeed jansson (c := c) h (i + 1) hother hp
        obtain ⟨now, hnow, _⟩ := hmid.framed.forward hc
        rw [if_pos hfd, List.filter_cons_of_pos (by simpa using hne), sendAll, hrun, ok_bind,
          ok_bind]
        exact ih (i + 1) hmid.inv hnow (fun o ho => by
          obtain ⟨old, hold⟩ := hlive o (List.mem_cons_of_mem _ ho)
          obtain ⟨now, hnow, _⟩ := hmid.framed.forward hold
          exact ⟨now, hnow⟩) hmid.msg

/-! ## send and broadcast -/

/-- A new message, which nobody holds, is not seen. -/
theorem Inv.newMessage (h : srv.Inv slack none) (hmsg : msg.refs = 0) :
    (srv.setMsgs (srv.msgs.alloc msg)).Inv slack (some srv.msgs.next) ∧
      (srv.setMsgs (srv.msgs.alloc msg)).content srv.msgs.next =
        ⟨srv.msgs.next, msg.jsondata, msg.bindata⟩ ∧
      (srv.setMsgs (srv.msgs.alloc msg)).view =
        { srv.view with nextMsg := srv.view.nextMsg + 1 } := by
  have hfresh : srv.msgs.cells srv.msgs.next = none := srv.msgs.fresh _ le_rfl
  refine ⟨h.setMsgs (h.refs.alloc hmsg), content_some Heap.cells_alloc_self,
    view_setMsgs fun q hq => ?_⟩
  have hne : q ≠ srv.msgs.next := by
    rintro rfl
    have := h.refs.freed _ hfresh
    omega
  rw [content, content, setMsgs_msgs, Heap.cells_alloc_of_ne hne]

/-- After a message has been queued, the command is over for it. -/
theorem Enqueued.settle {P : ClientPtr → Prop} {n : Nat} {srv' : Server}
    (h : Enqueued jansson slack p msg srv P n srv') (hn : 0 < n) : srv'.Inv slack none := by
  have hheld := h.inv.refs.count_eq p _ h.msg
  dsimp only at hheld
  exact ⟨h.inv.registry, h.inv.membership, h.inv.refs.settle (by omega), h.inv.quiet⟩

/-- A message that nobody was there to take is freed. -/
theorem Inv.discard (h : srv.Inv slack (some p)) (hp : srv.msgs.cells p = some msg)
    (hmsg : msg.refs = 0) :
    (srv.setMsgs (srv.msgs.free p)).Inv slack none ∧
      (srv.setMsgs (srv.msgs.free p)).view = srv.view := by
  have hheld := h.refs.count_eq p msg hp
  refine ⟨h.setMsgs (h.refs.discard (by omega)), view_setMsgs fun q hq => content_free ?_⟩
  rintro rfl
  omega

theorem send_succeed (h : srv.Inv slack none) (hc : srv.clnts.cells c = some clnt)
    (jsondata : Json) (bindata : Bytes) :
    ∃ ret srv', srv.send jansson .succeed c jsondata bindata = .ok (ret, srv') ∧
      srv'.Inv slack none ∧ srv'.view = srv.view.send jansson c jsondata bindata := by
  rw [send, Hub.send]
  cases jsondata.unpackString "name" with
  | none =>
      obtain ⟨srv', hrun, hinv, _, hview⟩ :=
        refuse_succeed jansson h hc (parsingError jansson jsondata "{ss}")
      exact ⟨-1, srv', hrun, hinv, hview⟩
  | some name =>
      dsimp only
      obtain ⟨name2clnt, hsearch, hinv⟩ := h.search name
      have hsearched : ({ srv with name2clnt } : Server).view = srv.view := rfl
      obtain ⟨refused, hrefuse, hrefusedInv, _, hrefusedView⟩ :=
        refuse_succeed jansson hinv hc ("No such group exists: " ++ name)
      simp only [hsearch, ended, ok_bind]
      cases hlookup : srv.name2clnt.lookup name with
      | none =>
          have hnone : ¬ ∃ c', srv.view.member c' name := by
            rintro ⟨c', g, group, hg, hname, _⟩
            have hfound := (h.registry.name_lookup name g).mpr ⟨group, hg, hname⟩
            rw [hlookup] at hfound
            cases hfound
          rw [if_neg hnone]
          exact ⟨-1, refused, hrefuse, hrefusedInv, hrefusedView⟩
      | some g =>
          obtain ⟨group, hg, hname⟩ := (h.registry.name_lookup name g).mp hlookup
          -- there is only one group of the name, so its list says who its members are
          have hmember : ∀ c', srv.view.member c' name ↔ c' ∈ group.clnts.items := by
            intro c'
            constructor
            · rintro ⟨g', group', hg', hname', hmem⟩
              have heq := h.registry.name_inj hg' hg (hname'.trans hname.symm)
              rw [heq, hg] at hg'
              cases hg'
              exact hmem
            · exact fun hmem => ⟨g, group, hg, hname, hmem⟩
          simp only [deref_some hg, ok_bind]
          by_cases hempty : group.clnts.items.length = 0
          · have hnone : ¬ ∃ c', srv.view.member c' name := by
              rintro ⟨c', hmem⟩
              have := List.length_pos_of_mem ((hmember c').mp hmem)
              omega
            rw [if_neg hnone, if_pos hempty]
            exact ⟨-1, refused, hrefuse, hrefusedInv, hrefusedView⟩
          · have hsome : ∃ c', srv.view.member c' name := by
              obtain ⟨c', hmem⟩ := List.exists_mem_of_length_pos (Nat.pos_of_ne_zero hempty)
              exact ⟨c', (hmember c').mpr hmem⟩
            obtain ⟨hnew, hcontent, hnewView⟩ := hinv.newMessage
              (show Rcmessage.refs { refs := 0, jsondata := jansson.dumps jsondata, bindata } = 0
                from rfl)
            obtain ⟨mid, hrun, hmid⟩ := sendAll_succeed jansson (c := c) group.clnts.items 0 hnew
              (h.membership.clnts_nodup g group hg)
              (fun other hmem => h.membership.clnts_live g group other hg hmem)
              Heap.cells_alloc_self
            obtain ⟨now, hnow, _⟩ := hmid.framed.forward hc
            obtain ⟨srv', hfinish, hinv', _, hview'⟩ := finish_succeed jansson
              (hmid.settle jansson (Nat.pos_of_ne_zero hempty)) hnow
            refine ⟨0, srv', ?_, hinv', ?_⟩
            · have hp := deref_some hmid.msg
              simp only [setMsgs] at hrun
              simp only [if_neg hempty, Alloc.succeed_malloc, not_true_eq_false, if_false, hrun,
                ok_bind, if_true, hp]
              rw [if_pos (by omega)]
              exact hfinish
            · rw [if_pos hsome, hview', hmid.view, hcontent, hnewView, hsearched, Hub.deliver]
              congr 1
              refine Eq.trans (Hub.update_congr _ fun c' _ _ => (hmember c').symm) rfl

theorem broadcast_succeed (h : srv.Inv slack none) (hc : srv.clnts.cells c = some clnt)
    (jsondata : Json) (bindata : Bytes) :
    ∃ ret srv', srv.broadcast jansson .succeed c jsondata bindata = .ok (ret, srv') ∧
      srv'.Inv slack none ∧ srv'.view = srv.view.broadcast jansson c jsondata bindata := by
  obtain ⟨hnew, hcontent, hnewView⟩ := h.newMessage
    (show Rcmessage.refs { refs := 0, jsondata := jansson.dumps jsondata, bindata } = 0 from rfl)
  have hlive : ∀ other ∈ srv.fd2clnt.iterate.map Entry.val,
      ∃ clnt, srv.clnts.cells other = some clnt := fun other => h.registry.mem_clients.mp
  obtain ⟨mid, hrun, hmid⟩ := sendAll_succeed jansson (c := c)
    ((srv.fd2clnt.iterate.map Entry.val).filter (· ≠ c)) 0 hnew
    (h.registry.clients_nodup.filter _)
    (fun other hmem => hlive other (List.mem_filter.mp hmem).1) Heap.cells_alloc_self
  have hloop := broadcastAll_eq jansson (srv.fd2clnt.iterate.map Entry.val) 0 hnew hc hlive
    Heap.cells_alloc_self
  rw [hrun] at hloop
  obtain ⟨now, hnow, _⟩ := hmid.framed.forward hc
  have hdelivered : mid.view =
      srv.view.deliver jansson (fun c' => c' ≠ c) jsondata bindata := by
    rw [hmid.view, hcontent, hnewView, Hub.deliver]
    refine Eq.trans (Hub.update_congr _ fun c' peer hpeer => ?_) rfl
    obtain ⟨clnt', hc', _⟩ := Option.map_eq_some_iff.mp hpeer
    rw [List.mem_filter, h.registry.mem_clients]
    exact ⟨fun hmem => by simpa using hmem.2, fun hne => ⟨⟨clnt', hc'⟩, by simpa using hne⟩⟩
  -- Without other clients the message is freed before the reply.
  obtain ⟨later, hlater, hlaterInv, hnow', hlaterView⟩ : ∃ later,
      (if 0 + ((srv.fd2clnt.iterate.map Entry.val).filter (· ≠ c)).length = 0 then
        mid.setMsgs (mid.msgs.free srv.msgs.next) else mid) = later ∧
      later.Inv slack none ∧ later.clnts.cells c = some now ∧ later.view = mid.view := by
    split
    next hzero =>
      obtain ⟨hinv, hview⟩ := hmid.inv.discard hmid.msg hzero
      exact ⟨_, rfl, hinv, hnow, hview⟩
    next hpos =>
      exact ⟨_, rfl, hmid.settle jansson (by omega), hnow, rfl⟩
  obtain ⟨srv', hfinish, hinv', _, hview'⟩ := finish_succeed jansson hlaterInv hnow'
  refine ⟨0, srv', ?_, hinv', by rw [hview', hlaterView, hdelivered, Hub.broadcast]⟩
  have hp := deref_some hmid.msg
  simp only [setMsgs] at hloop hlater
  simp only [broadcast, Alloc.succeed_malloc, not_true_eq_false, if_false, hloop, ok_bind,
    if_true, hp, hlater, hfinish]

/-! ## sync -/

/-- Dropping a reference keeps the content of what is still held. -/
theorem unref_eq {held : MsgPtr → Nat} (h : srv.msgs.Counted Rcmessage.refs held new)
    (hp : 0 < held p) :
    ∃ msgs, srv.unref p = .ok (srv.setMsgs msgs) ∧
      msgs.Counted Rcmessage.refs (Function.update held p (held p - 1)) new ∧
      msgs.next = srv.msgs.next ∧
      ∀ q, 0 < Function.update held p (held p - 1) q →
        (srv.setMsgs msgs).content q = srv.content q := by
  obtain ⟨msg, hcell⟩ := h.live hp
  have hrefs := h.count_eq p msg hcell
  have hpred : predUInt msg.refs = msg.refs - 1 := if_neg (by omega)
  by_cases hlast : msg.refs - 1 = 0
  · refine ⟨srv.msgs.free p, ?_, ?_, rfl, fun q hq => content_free ?_⟩
    · rw [unref, deref_some hcell, ok_bind, hpred]
      exact if_pos hlast
    · rw [show held p - 1 = 0 by omega]
      exact h.free
    · rintro rfl
      rw [Function.update_self] at hq
      omega
  · refine ⟨srv.msgs.write p { msg with refs := msg.refs - 1 }, ?_,
      h.release hcell rfl (Nat.pos_of_ne_zero hlast), rfl,
      fun q _ => congrFun (content_write hcell _) q⟩
    rw [unref, deref_some hcell, ok_bind, hpred]
    exact if_neg hlast

/-- Relay the first message of the queue. -/
def relayHead (peer : Peer) : Peer :=
  match peer.queue with
  | [] => peer
  | q :: rest => Peer.push jansson { peer with queue := rest } q.out

theorem relay_nil (m : Nat) {peer : Peer} (hqueue : peer.queue = []) :
    Peer.relay jansson m peer = peer := by
  cases m with
  | zero => rfl
  | succ m => rw [Peer.relay, hqueue]

theorem relay_succ (m : Nat) : Peer.relay jansson (m + 1) =
    Peer.relay jansson m ∘ relayHead jansson := by
  funext peer
  cases hqueue : peer.queue with
  | nil =>
      have hhead : relayHead jansson peer = peer := by rw [relayHead, hqueue]
      rw [Function.comp_apply, hhead, relay_nil jansson _ hqueue, relay_nil jansson _ hqueue]
  | cons q rest => rw [Peer.relay, Function.comp_apply, relayHead, hqueue]

/-- A client without the head of its queue, and the reference of that position
dropped. -/
theorem Inv.dropHead (h : srv.Inv slack none) (clnt' : Client)
    (hc : srv.clnts.cells c = some clnt) (hlist : clnt.queue.toList = p :: clnt'.queue.toList) (hfd : clnt'.fd = clnt.fd)
    (hgroups : clnt'.groups = clnt.groups) (hwaiting : clnt'.waiting = clnt.waiting) :
    ∃ msgs, (srv.setClient c clnt').unref p = .ok ((srv.setClient c clnt').setMsgs msgs) ∧
      ((srv.setClient c clnt').setMsgs msgs).Inv slack none ∧
      ((srv.setClient c clnt').setMsgs msgs).view = (srv.setClient c clnt').view := by
  have hframe := framed_setClient clnt' hc hfd hgroups
  have hholders : ∀ q, (srv.setClient c clnt').holders q + (if q = p then 1 else 0) =
      srv.holders q := by
    intro q
    have hsum := holders_setClient clnt' hc q
    rw [hlist, List.count_cons] at hsum
    simp only [beq_iff_eq, @eq_comm _ p] at hsum
    omega
  have hp := hholders p
  rw [if_pos rfl] at hp
  have hcounted : (srv.setClient c clnt').msgs.Counted Rcmessage.refs
    (fun q => srv.holders q + slack q) none := h.refs
  obtain ⟨msgs, hunref, hrest, hnext, hcontent⟩ := unref_eq hcounted (p := p) (by omega)
  have hheld : Function.update (fun q => srv.holders q + slack q) p
      (srv.holders p + slack p - 1) =
        fun q => (srv.setClient c clnt').holders q + slack q := by
    funext q
    have hq := hholders q
    rcases eq_or_ne q p with rfl | hne
    · rw [Function.update_self]
      omega
    · rw [Function.update_of_ne hne]
      rw [if_neg hne] at hq
      omega
  rw [hheld] at hrest hcontent
  have hquiet : (srv.setClient c clnt').Quiet := h.quiet.setClient fun hbad => by
    have hnil := h.quiet c clnt hc (hwaiting ▸ hbad)
    rw [hlist] at hnil
    cases hnil
  refine ⟨msgs, hunref, ⟨h.registry.framed (hframe.trans (framed_setMsgs _ _)),
    h.membership.framed (hframe.trans (framed_setMsgs _ _)), hrest, hquiet⟩, ?_⟩
  rw [view_setMsgs fun q hq => hcontent q (Nat.add_pos_left hq _), hnext]
  rfl

/-- The loop of `sync`: each round moves the head of the queue to the socket and
drops the reference of its position. -/
theorem relay_succeed (m i : Nat) (h : srv.Inv slack none)
    (hc : srv.clnts.cells c = some clnt) :
    ∃ srv' clnt', relay .succeed c m i srv = .ok (true, srv') ∧ srv'.Inv slack none ∧
      srv'.clnts.cells c = some clnt' ∧
      srv'.view = srv.view.update (· = c) (Peer.relay jansson m) := by
  induction m generalizing i srv clnt with
  | zero => exact ⟨srv, clnt, rfl, h, hc, (Hub.update_eq_self fun _ _ _ _ => rfl).symm⟩
  | succ m ih =>
      rcases clnt.queue.popl_cases with ⟨hpop, hnil⟩ | ⟨p, queue, hpop, hlist⟩
      · refine ⟨srv, clnt, ?_, h, hc, (Hub.update_eq_self fun c' peer hpeer heq => ?_).symm⟩
        · rw [relay, deref_some hc, ok_bind, hpop]
          rfl
        · refine relay_nil jansson _ ?_
          rw [heq, view_peers, hc] at hpeer
          cases hpeer
          rw [Client.view, hnil, List.map_nil]
      · obtain ⟨msg, hcell⟩ := h.refs.live hc (p := p) (by rw [hlist]; exact List.mem_cons_self)
        have hmid : (srv.setClient c { clnt with queue }).clnts.cells c =
            some { clnt with queue } := setClient_self hc
        obtain ⟨ret, wbuf, hpush, hret, hview⟩ :=
          pushStrTo_eq jansson hmid (.relay p msg.jsondata msg.bindata)
        have hset : ∀ clnt', (srv.setClient c { clnt with queue }).setClient c clnt' =
            srv.setClient c clnt' := fun clnt' => by simp only [setClient, Heap.write_write]
        rw [hset] at hpush
        have hpush' : (srv.setClient c { clnt with queue }).pushStrTo (fun _ => true) c
          (.relay p msg.jsondata msg.bindata) msg.jsondata msg.bindata = .ok (ret, _) := hpush
        obtain ⟨msgs, hunref, hinv, hsame⟩ := h.dropHead
          (Client.pushed { clnt with queue } (.relay p msg.jsondata msg.bindata) wbuf) hc hlist rfl
          rfl rfl
        obtain ⟨srv', clnt', hrun, hinv', hc', hview'⟩ := ih (i + 1) hinv (setClient_self hc)
        refine ⟨srv', clnt', ?_, hinv', hc', ?_⟩
        · rw [relay, deref_some hc, ok_bind, hpop]
          simp only [setClient_msgs, deref_some hcell, ok_bind, Alloc.succeed_reply,
            ReplyAlloc.succeed_push, PushAlloc.succeed_write, hpush', if_neg (not_lt.mpr hret),
            hunref]
          exact hrun
        · rw [hview', hsame, relay_succ, ← Hub.update_comp]
          congr 1
          refine view_setClient hc ?_
          rw [hview, relayHead]
          simp only [Client.view, hlist, List.map_cons, content_some hcell]
          rfl

theorem sync_succeed (h : srv.Inv slack none) (hc : srv.clnts.cells c = some clnt)
    (jsondata : Json) :
    ∃ ret srv', srv.sync jansson .succeed c jsondata = .ok (ret, srv') ∧
      srv'.Inv slack none ∧ srv'.view = srv.view.sync jansson c jsondata := by
  rw [sync, Hub.sync]
  cases jsondata.unpackInt "n" with
  | none => exact ⟨-1, srv, rfl, h, rfl⟩
  | some n =>
      obtain ⟨mid, now, hrun, hinv, hnow, hview⟩ := relay_succeed jansson (syncCount n) 0 h hc
      obtain ⟨srv', hfinish, hinv', _, hview'⟩ := finish_succeed jansson hinv hnow
      refine ⟨0, srv', ?_, hinv', by rw [hview', hview]⟩
      simp only [hrun, ok_bind, if_true, hfinish]

/-! ## wait and devices -/

theorem wait_succeed (h : srv.Inv slack new) (hc : srv.clnts.cells c = some clnt) :
    ∃ ret srv', srv.wait jansson .succeed c = .ok (ret, srv') ∧ srv'.Inv slack new ∧
      srv'.view = srv.view.wait jansson c := by
  have hlen : (clnt.view srv.content).queue.length = clnt.queue.len := by
    rw [Client.view, List.length_map, Queue.length_toList]
  have hpeer : srv.view.peers c = some (clnt.view srv.content) := by
    rw [view_peers, hc, Option.map_some]
  rw [wait, deref_some hc, ok_bind, Hub.wait]
  by_cases hpos : clnt.queue.len > 0
  · obtain ⟨ret, srv', hrun, hret, hpushed⟩ :=
      pushTo_succeed jansson h hc (countReply clnt.queue.len)
    refine ⟨0, srv', ?_, hpushed.inv, ?_⟩
    · simp only [if_pos hpos, Alloc.succeed_reply, ReplyAlloc.succeed_pack, if_true,
        ReplyAlloc.succeed_push, hrun, ok_bind, if_neg (not_lt.mpr hret), pure_ok]
    · rw [hpushed.view, Hub.push]
      refine Hub.update_ext fun c' peer hc' heq => ?_
      rw [heq, hpeer] at hc'
      cases hc'
      rw [Peer.wait, hlen, if_pos hpos]
  · have hnil : clnt.queue.toList = [] := List.length_eq_zero_iff.mp (by
      rw [Queue.length_toList]
      omega)
    have hframe := framed_setClient { clnt with waiting := true } hc rfl rfl
    refine ⟨0, srv.setClient c { clnt with waiting := true }, if_neg hpos,
      ⟨h.registry.framed hframe, h.membership.framed hframe, h.refs.setClient hc rfl,
        h.quiet.setClient fun _ => hnil⟩, ?_⟩
    refine view_setClient hc ?_
    rw [Peer.wait, hlen, if_neg hpos]
    rfl

/-- The loop of `devices` finds the groups with clients. -/
theorem groupNames_spec {groups : Heap Group} (gs : List GroupPtr) (i : Nat)
    (hlive : ∀ g ∈ gs, ∃ group, groups.cells g = some group) :
    ∃ names, groupNames .succeed groups i gs = .ok (some names) ∧
      (∀ name, name ∈ names ↔ ∃ g ∈ gs, ∃ group, groups.cells g = some group ∧
        group.name = name ∧ group.clnts.items ≠ []) ∧
      names.Sublist (gs.filterMap fun g => (groups.cells g).map Group.name) := by
  induction gs generalizing i with
  | nil => exact ⟨[], rfl, by simp, List.Sublist.refl _⟩
  | cons g rest ih =>
      obtain ⟨group, hg⟩ := hlive g List.mem_cons_self
      obtain ⟨names, hrun, hmem, hsub⟩ := ih (i + 1) fun g' hg' =>
        hlive g' (List.mem_cons_of_mem _ hg')
      have hall : (g :: rest).filterMap (fun g => (groups.cells g).map Group.name) =
          group.name :: rest.filterMap fun g => (groups.cells g).map Group.name :=
        List.filterMap_cons_some (by rw [hg, Option.map_some])
      rw [hall]
      simp only [groupNames, deref_some hg, ok_bind]
      by_cases hlen : group.clnts.items.length > 0
      · refine ⟨group.name :: names, ?_, fun name => ?_, hsub.cons_cons _⟩
        · simp only [if_pos hlen, Alloc.succeed_malloc, not_true_eq_false, if_false, hrun, ok_bind,
            pure_ok, Option.map_some]
        · rw [List.mem_cons, hmem]
          constructor
          · rintro (rfl | ⟨g', hg', hrest⟩)
            · exact ⟨g, List.mem_cons_self, group, hg, rfl, List.ne_nil_of_length_pos hlen⟩
            · exact ⟨g', List.mem_cons_of_mem _ hg', hrest⟩
          · rintro ⟨g', hg', group', hcell, hname, hne⟩
            rcases List.mem_cons.mp hg' with rfl | hg'
            · rw [hg] at hcell
              cases hcell
              exact .inl hname.symm
            · exact .inr ⟨g', hg', group', hcell, hname, hne⟩
      · refine ⟨names, by rw [if_neg hlen]; exact hrun, fun name => ?_, hsub.cons _⟩
        rw [hmem]
        constructor
        · rintro ⟨g', hg', hrest⟩
          exact ⟨g', List.mem_cons_of_mem _ hg', hrest⟩
        · rintro ⟨g', hg', group', hcell, hname, hne⟩
          rcases List.mem_cons.mp hg' with rfl | hg'
          · rw [hg] at hcell
            cases hcell
            exact absurd (List.length_pos_iff.mpr hne) hlen
          · exact ⟨g', hg', group', hcell, hname, hne⟩

theorem devices_succeed (h : srv.Inv slack new) (hc : srv.clnts.cells c = some clnt) :
    ∃ ret srv' names, srv.devices jansson .succeed c = .ok (ret, srv') ∧ srv'.Inv slack new ∧
      names.Nodup ∧ (∀ name, name ∈ names ↔ ∃ c', srv.view.member c' name) ∧
      srv'.view = srv.view.push jansson c (.json (devicesReply names)) := by
  obtain ⟨names, hnames, hmem, hsub⟩ := groupNames_spec
    (srv.name2clnt.iterate.map Entry.val) 0 fun g => h.registry.mem_groups.mp
  obtain ⟨ret, srv', hrun, hret, hpushed⟩ := pushTo_succeed jansson h hc (devicesReply names)
  refine ⟨0, srv', names, ?_, hpushed.inv, hsub.nodup ?_, fun name => ?_, hpushed.view⟩
  · simp only [devices, Alloc.succeed_malloc, not_true_eq_false, if_false, hnames, ok_bind,
      Alloc.succeed_reply, ReplyAlloc.succeed_pack, if_true, ReplyAlloc.succeed_push, hrun,
      if_neg (not_lt.mpr hret), pure_ok]
  · refine h.registry.groups_nodup.filterMap fun g g' name hname hname' => ?_
    obtain ⟨group, hg, rfl⟩ := Option.map_eq_some_iff.mp hname
    obtain ⟨group', hg', hsame⟩ := Option.map_eq_some_iff.mp hname'
    exact h.registry.name_inj hg hg' hsame.symm
  · rw [hmem]
    constructor
    · rintro ⟨g, _, group, hg, hname, hne⟩
      obtain ⟨c', hc'⟩ := List.exists_mem_of_ne_nil _ hne
      exact ⟨c', g, group, hg, hname, hc'⟩
    · rintro ⟨c', g, group, hg, hname, hc'⟩
      exact ⟨g, h.registry.mem_groups.mpr ⟨group, hg⟩, group, hg, hname, List.ne_nil_of_mem hc'⟩

end Server

end Dime
