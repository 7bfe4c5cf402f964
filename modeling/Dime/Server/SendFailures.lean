import Dime.Server.Consistency
import Dime.Server.Failures

/-!
# Sending while allocations fail

A message is counted for a client only after the client has been told of it, which follows the
queueing. Where the telling fails, the loop of `dime_client_send` and of `dime_client_broadcast`
ends with the message in one queue more than it counts.
-/

namespace Dime

namespace Server

variable (jansson : Jansson Json)

/-- How many clients have the message in their queues. -/
def queuesHolding (srv : Server) (p : MsgPtr) : Nat :=
  srv.clnts.sum fun clnt => if p ∈ clnt.queue.toList then 1 else 0

/-- The message counts the queues that hold it, and is gone only if none does. -/
def Sound (srv : Server) (p : MsgPtr) : Prop :=
  match srv.msgs.cells p with
  | some msg => msg.refs = srv.queuesHolding p
  | none => srv.queuesHolding p = 0

/-- The queue of a recipient has room for the message, or grows. -/
def Takes (alloc : Alloc) (p : MsgPtr) (i : Nat) (peer : Client) : Prop :=
  (peer.queue.pushr (alloc.malloc i 0) p).isSome

/-- A recipient that waits is told: the notification is built and pushed. -/
def Told (alloc : Alloc) (i : Nat) (peer : Client) : Prop :=
  peer.waiting = true → (alloc.reply i 0).pack = true ∧
    0 ≤ (peer.push jansson (alloc.reply i 0).push (countReply (peer.queue.len + 1))).1

/-- Of the recipients that are wanted, all are told up to the first whose queue does not take
the message. -/
def AllTold (alloc : Alloc) (p : MsgPtr) (clnts : Heap Client) (wanted : Client → Prop) :
    Nat → List ClientPtr → Prop
  | _, [] => True
  | i, other :: rest => ∀ peer, clnts.cells other = some peer →
      (wanted peer → Takes alloc p (i + 1) peer → Told jansson alloc (i + 1) peer) ∧
      ((wanted peer → Takes alloc p (i + 1) peer) → AllTold alloc p clnts wanted (i + 1) rest)

/-- The clients of the group that a `send` names. -/
def sendRecipients (srv : Server) (jsondata : Json) : List ClientPtr :=
  match (jsondata.unpackString "name").bind srv.name2clnt.search with
  | some (some g, _) => (srv.groups.cells g).elim [] fun group => group.clnts.items
  | _ => []

variable {jansson} {srv mid srv' : Server} {c other : ClientPtr} {peer : Client} {alloc : Alloc}
  {p : MsgPtr} {i : Nat} {rest : List ClientPtr}

/-! ## The queues that hold a message -/

theorem queuesHolding_eq_zero (h : ∀ c clnt, srv.clnts.cells c = some clnt → p ∉ clnt.queue.toList) :
    srv.queuesHolding p = 0 := by
  by_contra hne
  obtain ⟨c, clnt, hc, hpos⟩ := Heap.exists_of_sum_pos (Nat.pos_of_ne_zero hne)
  rw [if_neg (h c clnt hc)] at hpos
  exact Nat.lt_irrefl 0 hpos

theorem queuesHolding_pushed (hpeer : srv.clnts.cells other = some peer) {queue : Queue MsgPtr}
    (hlist : queue.toList = peer.queue.toList ++ [p]) (hout : p ∉ peer.queue.toList) :
    (srv.setClient other { peer with queue }).queuesHolding p = srv.queuesHolding p + 1 := by
  have hsum := Heap.sum_write (a := { peer with queue })
    (fun clnt => if p ∈ clnt.queue.toList then 1 else 0) hpeer
  have hin : p ∈ queue.toList := hlist ▸ List.mem_append_right _ (List.mem_singleton_self p)
  rw [if_neg hout, if_pos hin] at hsum
  exact hsum

theorem Undisturbed.queuesHolding (h : srv.Undisturbed srv') (p : MsgPtr) :
    srv'.queuesHolding p = srv.queuesHolding p := by
  refine Heap.sum_congr h.framed.next fun c => ?_
  have hqueue := h.queue c
  cases hc : srv.clnts.cells c with
  | none =>
      rw [hc, Option.map_none, Option.map_eq_none_iff] at hqueue
      rw [hqueue]
  | some clnt =>
      rw [hc, Option.map_some, Option.map_eq_some_iff] at hqueue
      obtain ⟨clnt', hc', heq⟩ := hqueue
      rw [hc']
      exact congrArg (fun queue : Queue MsgPtr => if p ∈ queue.toList then 1 else 0) heq

theorem Undisturbed.sound_iff (h : srv.Undisturbed srv') (p : MsgPtr) : srv'.Sound p ↔ srv.Sound p := by
  rw [Sound, Sound, h.msgs, h.queuesHolding]

/-! ## One recipient -/

theorem notify_told (hpeer : srv.clnts.cells other = some peer)
    (htold : peer.waiting = true → (alloc.reply i 0).pack = true ∧
      0 ≤ (peer.push jansson (alloc.reply i 0).push (countReply peer.queue.len)).1) :
    ∃ srv', srv.notify jansson alloc i other = .ok (true, srv') ∧
      ∀ c, c ≠ other → srv'.clnts.cells c = srv.clnts.cells c := by
  rw [notify, deref_some hpeer, ok_bind]
  cases hwaiting : peer.waiting with
  | false => exact ⟨srv, rfl, fun _ _ => rfl⟩
  | true =>
      obtain ⟨hpack, hret⟩ := htold hwaiting
      rw [if_pos rfl, if_pos hpack, pushTo, deref_some hpeer]
      simp only [ok_bind, pure_ok]
      rw [if_neg (Int.not_lt.mpr hret), deref_some (setClient_self hpeer), ok_bind]
      refine ⟨_, rfl, fun c hne => ?_⟩
      rw [setClient_of_ne _ hne, setClient_of_ne _ hne]

theorem notify_untold (hpeer : srv.clnts.cells other = some peer)
    (hnot : ¬ (peer.waiting = true → (alloc.reply i 0).pack = true ∧
      0 ≤ (peer.push jansson (alloc.reply i 0).push (countReply peer.queue.len)).1)) :
    ∃ srv', srv.notify jansson alloc i other = .ok (false, srv') := by
  obtain ⟨hwaiting, hfail⟩ := Classical.not_imp.mp hnot
  rw [notify, deref_some hpeer, ok_bind, if_pos hwaiting]
  by_cases hpack : (alloc.reply i 0).pack = true
  · have hret := Int.not_le.mp (not_and.mp hfail hpack)
    rw [if_pos hpack, pushTo, deref_some hpeer]
    simp only [ok_bind, pure_ok]
    rw [if_pos hret]
    obtain ⟨srv', hrefuse⟩ := refuse_returns (setClient_self hpeer) (alloc.reply i 1) strerror
    rw [hrefuse]
    exact ⟨srv', rfl⟩
  · obtain ⟨srv', hrefuse⟩ := refuse_returns hpeer (alloc.reply i 1) strerror
    rw [if_neg hpack, hrefuse]
    exact ⟨srv', rfl⟩

/-- The loop is about to come to the clients `others`, none of which has the message, and the
message counts the queues that hold it. -/
structure Underway (srv mid : Server) (p : MsgPtr) (others : List ClientPtr) : Prop where
  framed : srv.Framed mid
  nodup : others.Nodup
  counted : ∃ msg, mid.msgs.cells p = some msg ∧ msg.refs = mid.queuesHolding p
  same : ∀ other ∈ others, mid.clnts.cells other = srv.clnts.cells other
  out : ∀ other ∈ others, ∀ peer, srv.clnts.cells other = some peer → p ∉ peer.queue.toList

theorem Underway.tail (h : Underway srv mid p (other :: rest)) : Underway srv mid p rest :=
  ⟨h.framed, h.nodup.of_cons, h.counted, fun c hc => h.same c (List.mem_cons_of_mem other hc),
    fun c hc => h.out c (List.mem_cons_of_mem other hc)⟩

theorem Underway.sound (h : Underway srv mid p rest) : mid.Sound p := by
  obtain ⟨msg, hmsg, hrefs⟩ := h.counted
  rw [Sound, hmsg]
  exact hrefs

/-- A recipient that has the message in its queue and is told of it is counted. -/
theorem Underway.told (h : Underway srv mid p (other :: rest)) (hpeer : srv.clnts.cells other = some peer)
    (htakes : Takes alloc p i peer) (htold : Told jansson alloc i peer) :
    ∃ srv', mid.enqueue jansson alloc c p i other = .ok (true, srv') ∧ Underway srv srv' p rest := by
  -- the queue that the notification reports has the message already
  obtain ⟨queue, hqueue⟩ := Option.isSome_iff_exists.mp htakes
  obtain ⟨msg, hmsg, hrefs⟩ := h.counted
  have hlist := Queue.pushr_eq_some hqueue
  have hcell := (h.same other List.mem_cons_self).trans hpeer
  obtain ⟨final, hnotify, hothers⟩ := @notify_told jansson
    (mid.setClient other { peer with queue }) other { peer with queue } alloc i (setClient_self hcell)
    (by rw [Queue.len_of_pushr hqueue]; exact htold)
  have hfinal := notify_undisturbed hnotify
  have hmsg' : final.msgs.cells p = some msg := hfinal.msgs ▸ hmsg
  refine ⟨{ final with msgs := final.msgs.write p { msg with refs := msg.refs + 1 } }, ?_, ?_⟩
  · rw [enqueue, deref_some hcell, ok_bind, hqueue]
    dsimp only
    rw [hnotify, ok_bind]
    dsimp only
    rw [if_pos rfl, deref_some hmsg']
    rfl
  · refine ⟨?_, h.nodup.of_cons, ⟨_, Heap.cells_write_self hmsg', ?_⟩, ?_, h.tail.out⟩
    · have hframed := (h.framed.trans (framed_setClient { peer with queue } hcell rfl rfl)).trans
        hfinal.framed
      exact ⟨hframed.fd2clnt, hframed.name2clnt, hframed.groups, hframed.next, hframed.clnts⟩
    · have hpushed := queuesHolding_pushed hcell hlist (h.out other List.mem_cons_self peer hpeer)
      have hheld := hfinal.queuesHolding p
      change msg.refs + 1 = final.queuesHolding p
      rw [hheld, hpushed, hrefs]
    · intro c' hc'
      -- no recipient comes twice, so those to come have their old queues
      have hne : c' ≠ other := by
        rintro rfl
        exact (List.nodup_cons.mp h.nodup).1 hc'
      exact (hothers c' hne).trans ((setClient_of_ne _ hne).trans (h.tail.same c' hc'))

/-- A recipient that has the message and cannot be told of it is not counted. -/
theorem Underway.untold (h : Underway srv mid p (other :: rest))
    (hpeer : srv.clnts.cells other = some peer) (htakes : Takes alloc p i peer)
    (hnot : ¬ Told jansson alloc i peer) :
    ∃ srv', mid.enqueue jansson alloc c p i other = .ok (false, srv') ∧ ¬ srv'.Sound p := by
  -- `enqueue` returns before it counts the recipient
  obtain ⟨queue, hqueue⟩ := Option.isSome_iff_exists.mp htakes
  obtain ⟨msg, hmsg, hrefs⟩ := h.counted
  have hlist := Queue.pushr_eq_some hqueue
  have hcell := (h.same other List.mem_cons_self).trans hpeer
  obtain ⟨final, hnotify⟩ := @notify_untold jansson
    (mid.setClient other { peer with queue }) other { peer with queue } alloc i (setClient_self hcell)
    (by rw [Queue.len_of_pushr hqueue]; exact hnot)
  have hfinal := notify_undisturbed hnotify
  refine ⟨final, ?_, ?_⟩
  · rw [enqueue, deref_some hcell, ok_bind, hqueue]
    dsimp only
    rw [hnotify]
    rfl
  · rw [hfinal.sound_iff p, Sound, setClient_msgs, hmsg,
      queuesHolding_pushed hcell hlist (h.out other List.mem_cons_self peer hpeer)]
    omega

/-- A recipient whose queue does not take the message ends the loop. -/
theorem Underway.full (h : Underway srv mid p (other :: rest)) (hpeer : srv.clnts.cells other = some peer)
    (hfull : ¬ Takes alloc p i peer) {ok : Bool}
    (hrun : mid.enqueue jansson alloc c p i other = .ok (ok, srv')) : ok = false ∧ srv'.Sound p := by
  obtain ⟨msg, hmsg, hrefs⟩ := h.counted
  have hcell := (h.same other List.mem_cons_self).trans hpeer
  rw [enqueue, deref_some hcell, ok_bind, Option.not_isSome_iff_eq_none.mp hfull] at hrun
  dsimp only at hrun
  rw [deref_some hmsg, ok_bind] at hrun
  obtain ⟨⟨_, final⟩, hrefuse, hlast⟩ := bind_eq_ok hrun
  cases hlast
  refine ⟨rfl, ((refuse_undisturbed hrefuse).2.sound_iff p).mpr ?_⟩
  split
  next hzero =>
    -- the message goes, and no queue has it
    rw [Sound, Heap.cells_free_self]
    exact hrefs.symm.trans hzero
  next => exact h.sound

/-- One round of the loop with a recipient that is told if it gets the message. -/
theorem Underway.round (h : Underway srv mid p (other :: rest))
    (hpeer : srv.clnts.cells other = some peer)
    (htold : Takes alloc p i peer → Told jansson alloc i peer) {ok : Bool}
    (hrun : mid.enqueue jansson alloc c p i other = .ok (ok, srv')) :
    ok = false ∧ srv'.Sound p ∨ ok = true ∧ Takes alloc p i peer ∧ Underway srv srv' p rest := by
  by_cases htakes : Takes alloc p i peer
  · obtain ⟨final, hok, hfinal⟩ := @Underway.told jansson srv mid c other peer alloc p i rest h hpeer
      htakes (htold htakes)
    cases hrun.symm.trans hok
    exact .inr ⟨rfl, htakes, hfinal⟩
  · exact .inl (h.full hpeer htakes hrun)

/-- Where a recipient is not told, or one of those `later`, the loop ends with this one or
comes to those. -/
theorem Underway.round_untold (h : Underway srv mid p (other :: rest))
    (hpeer : srv.clnts.cells other = some peer) {later : Prop}
    (hnot : ¬ ((Takes alloc p i peer → Told jansson alloc i peer) ∧ (Takes alloc p i peer → later))) :
    (∃ srv', mid.enqueue jansson alloc c p i other = .ok (false, srv') ∧ ¬ srv'.Sound p) ∨
    ∃ srv', mid.enqueue jansson alloc c p i other = .ok (true, srv') ∧ Underway srv srv' p rest ∧
      ¬ later := by
  by_cases htold : Takes alloc p i peer → Told jansson alloc i peer
  · obtain ⟨htakes, hlater⟩ := Classical.not_imp.mp (not_and.mp hnot htold)
    obtain ⟨final, hrun, hfinal⟩ := h.told hpeer htakes (htold htakes)
    exact .inr ⟨final, hrun, hfinal, hlater⟩
  · obtain ⟨htakes, huntold⟩ := Classical.not_imp.mp htold
    exact .inl (h.untold hpeer htakes huntold)

/-! ## The loops -/

/-- The loop of `dime_client_send` leaves the message sound if all are told that have to be. -/
theorem sendAll_sound {others : List ClientPtr} (h : Underway srv mid p others)
    (htold : AllTold jansson alloc p srv.clnts (fun _ => True) i others) {ok : Bool}
    (hrun : sendAll jansson alloc c p i others mid = .ok (ok, srv')) :
    srv'.Sound p ∧ (ok = true → Underway srv srv' p []) := by
  induction others generalizing i mid with
  | nil =>
      cases hrun
      exact ⟨h.sound, fun _ => h⟩
  | cons other rest ih =>
      obtain ⟨⟨queued, final⟩, henqueue, hrest⟩ := bind_eq_ok hrun
      obtain ⟨peer, hcell, -⟩ := bind_eq_ok henqueue
      have hpeer := (h.same other List.mem_cons_self).symm.trans (deref_eq_ok hcell)
      obtain ⟨hone, hothers⟩ := htold peer hpeer
      rcases h.round hpeer (hone trivial) henqueue with ⟨rfl, hsound⟩ | ⟨rfl, htakes, hfinal⟩
      · cases hrest
        exact ⟨hsound, fun hbad => absurd hbad Bool.false_ne_true⟩
      · exact ih hfinal (hothers fun _ => htakes) hrest

theorem sendAll_unsound {others : List ClientPtr} (h : Underway srv mid p others)
    (hnot : ¬ AllTold jansson alloc p srv.clnts (fun _ => True) i others) :
    ∃ srv', sendAll jansson alloc c p i others mid = .ok (false, srv') ∧ ¬ srv'.Sound p := by
  induction others generalizing i mid with
  | nil => exact absurd trivial hnot
  | cons other rest ih =>
      obtain ⟨peer, hnot⟩ := not_forall.mp hnot
      obtain ⟨hpeer, hnot⟩ := Classical.not_imp.mp hnot
      rw [true_imp_iff, true_imp_iff] at hnot
      rw [sendAll]
      rcases @Underway.round_untold jansson srv mid c other peer alloc p (i + 1) rest h hpeer _ hnot with
        ⟨final, hrun, hfinal⟩ | ⟨final, hrun, hfinal, hrest⟩
      · rw [hrun]
        exact ⟨final, rfl, hfinal⟩
      · rw [hrun]
        exact ih hfinal hrest

/-- The loop of `dime_client_broadcast` as well, which passes over the descriptor of the sender. -/
theorem broadcastAll_sound {others : List ClientPtr} (h : Underway srv mid p others)
    (htold : ∀ clnt, srv.clnts.cells c = some clnt →
      AllTold jansson alloc p srv.clnts (fun peer => clnt.fd ≠ peer.fd) i others) {ok : Bool}
    (hrun : broadcastAll jansson alloc c p i others mid = .ok (ok, srv')) :
    srv'.Sound p ∧ (ok = true → Underway srv srv' p []) := by
  induction others generalizing i mid with
  | nil =>
      cases hrun
      exact ⟨h.sound, fun _ => h⟩
  | cons other rest ih =>
      obtain ⟨clnt', hc', hrun⟩ := bind_eq_ok hrun
      obtain ⟨peer, hcell, hrun⟩ := bind_eq_ok hrun
      have hpeer := (h.same other List.mem_cons_self).symm.trans (deref_eq_ok hcell)
      obtain ⟨clnt, hc, hfd, -⟩ := h.framed.backward (deref_eq_ok hc')
      obtain ⟨hone, hothers⟩ := htold clnt hc peer hpeer
      -- only one client has the address of the sender
      have hothers : (clnt.fd ≠ peer.fd → Takes alloc p (i + 1) peer) → ∀ clnt', srv.clnts.cells c = some clnt' →
          AllTold jansson alloc p srv.clnts (fun peer => clnt'.fd ≠ peer.fd) (i + 1) rest := by
        intro htakes clnt' hclnt'
        cases hc.symm.trans hclnt'
        exact hothers htakes
      dsimp only at hrun
      split at hrun
      next hne =>
        rw [hfd] at hne
        obtain ⟨⟨queued, final⟩, henqueue, hrest⟩ := bind_eq_ok hrun
        rcases h.round hpeer (hone hne) henqueue with ⟨rfl, hsound⟩ | ⟨rfl, htakes, hfinal⟩
        · cases hrest
          exact ⟨hsound, fun hbad => absurd hbad Bool.false_ne_true⟩
        · exact ih hfinal (hothers fun _ => htakes) hrest
      next heq =>
        rw [hfd] at heq
        exact ih h.tail (hothers fun hbad => absurd hbad heq) hrun

theorem broadcastAll_unsound {others : List ClientPtr} {clnt : Client} (h : Underway srv mid p others)
    (hc : srv.clnts.cells c = some clnt)
    (hnot : ¬ AllTold jansson alloc p srv.clnts (fun peer => clnt.fd ≠ peer.fd) i others) :
    ∃ srv', broadcastAll jansson alloc c p i others mid = .ok (false, srv') ∧ ¬ srv'.Sound p := by
  induction others generalizing i mid with
  | nil => exact absurd trivial hnot
  | cons other rest ih =>
      obtain ⟨peer, hnot⟩ := not_forall.mp hnot
      obtain ⟨hpeer, hnot⟩ := Classical.not_imp.mp hnot
      obtain ⟨now, hnow, hfd, -⟩ := h.framed.forward hc
      rw [broadcastAll, deref_some hnow, ok_bind,
        deref_some ((h.same other List.mem_cons_self).trans hpeer), ok_bind, hfd]
      -- a client with the descriptor of the sender is passed over
      by_cases hne : clnt.fd ≠ peer.fd
      · rw [forall_prop_of_true hne, forall_prop_of_true hne] at hnot
        rw [if_pos hne]
        rcases @Underway.round_untold jansson srv mid c other peer alloc p (i + 1) rest h hpeer _ hnot with
          ⟨final, hrun, hfinal⟩ | ⟨final, hrun, hfinal, hrest⟩
        · rw [hrun]
          exact ⟨final, rfl, hfinal⟩
        · rw [hrun]
          exact ih hfinal hrest
      · rw [if_neg hne]
        refine ih h.tail fun hrest => hnot ⟨fun hbad => absurd hbad hne, fun _ => hrest⟩

/-! ## The commands -/

/-- A message that is not made yet. -/
theorem Sturdy.sound_next (h : srv.Sturdy) : srv.Sound srv.msgs.next := by
  rw [Sound, srv.msgs.fresh _ le_rfl]
  exact queuesHolding_eq_zero fun c clnt hc hmem =>
    Nat.lt_irrefl _ (h.queued c clnt hc srv.msgs.next hmem)

theorem Sturdy.registered_nodup (h : srv.Sturdy) : srv.registered.Nodup := by
  rw [registered, ← Multiset.coe_nodup, ← Multiset.map_coe, Table.coe_iterate]
  exact h.clients_nodup

/-- A message as it is made, before the loop. -/
theorem Sturdy.underway (h : srv.Sturdy) (made : Server) (hclnts : made.clnts = srv.clnts)
    {msg : Rcmessage} (hmsgs : made.msgs = srv.msgs.alloc msg) (hrefs : msg.refs = 0)
    {others : List ClientPtr} (hnodup : others.Nodup) : Underway made made srv.msgs.next others := by
  have hout : ∀ c clnt, made.clnts.cells c = some clnt → srv.msgs.next ∉ clnt.queue.toList := by
    intro c clnt hc hmem
    rw [hclnts] at hc
    exact Nat.lt_irrefl _ (h.queued c clnt hc srv.msgs.next hmem)
  refine ⟨.refl made, hnodup, ⟨msg, ?_, ?_⟩, fun _ _ => rfl, fun other _ => hout other⟩
  · rw [hmsgs]
    exact Heap.cells_alloc_self
  · rw [hrefs, queuesHolding_eq_zero hout]

theorem sendRecipients_eq {jsondata : Json} {name : String} {g : GroupPtr} {group : Group}
    {name2clnt : Table String GroupPtr} (hname : jsondata.unpackString "name" = some name)
    (hsearch : srv.name2clnt.search name = some (some g, name2clnt))
    (hg : srv.groups.cells g = some group) : srv.sendRecipients jsondata = group.clnts.items := by
  rw [sendRecipients, hname, Option.bind_some, hsearch]
  dsimp only
  rw [hg, Option.elim_some]

theorem send_sound (h : srv.Sturdy) {jsondata : Json} {bindata : Bytes} {ret : Int}
    (htold : alloc.malloc 0 0 = true → alloc.malloc 0 1 = true → AllTold jansson alloc srv.msgs.next
      srv.clnts (fun _ => True) 0 (srv.sendRecipients jsondata))
    (hrun : srv.send jansson alloc c jsondata bindata = .ok (ret, srv')) : srv'.Sound srv.msgs.next := by
  rw [send] at hrun
  split at hrun
  next => exact ((refuse_undisturbed hrun).2.sound_iff _).mpr h.sound_next
  next name hname =>
    obtain ⟨⟨found, name2clnt⟩, hsearch, hrun⟩ := bind_eq_ok hrun
    have hsearch := ended_eq_ok hsearch
    have hnext : Sound { srv with name2clnt } srv.msgs.next := (h.search hsearch).1.sound_next
    cases found with
    | none => exact ((refuse_undisturbed hrun).2.sound_iff _).mpr hnext
    | some g =>
        obtain ⟨group, hg, hrun⟩ := bind_eq_ok hrun
        have hg := deref_eq_ok hg
        dsimp only at hrun
        split at hrun
        next => exact ((refuse_undisturbed hrun).2.sound_iff _).mpr hnext
        split at hrun
        next => exact ((refuse_undisturbed hrun).2.sound_iff _).mpr hnext
        next hzero =>
          split at hrun
          next => exact ((refuse_undisturbed hrun).2.sound_iff _).mpr hnext
          next hone =>
            obtain ⟨⟨ok, mid⟩, hall, hrest⟩ := bind_eq_ok hrun
            have htold := htold (not_not.mp hzero) (not_not.mp hone)
            rw [sendRecipients_eq hname hsearch hg] at htold
            have hunderway := h.underway { srv with
              name2clnt := name2clnt
              msgs := srv.msgs.alloc ⟨0, jansson.dumps jsondata, bindata⟩ } rfl rfl rfl
              (h.membership.clnts_nodup g group hg)
            obtain ⟨hsound, -⟩ := sendAll_sound hunderway htold hall
            cases ok with
            | false =>
                cases hrest
                exact hsound
            | true =>
                obtain ⟨msg, -, hlast⟩ := bind_eq_ok hrest
                split at hlast
                · exact ((finish_undisturbed hlast).sound_iff _).mpr hsound
                · cases hlast

theorem send_unsound (h : srv.Sturdy) {jsondata : Json} {bindata : Bytes}
    (hzero : alloc.malloc 0 0 = true) (hone : alloc.malloc 0 1 = true)
    (hnot : ¬ AllTold jansson alloc srv.msgs.next srv.clnts (fun _ => True) 0
      (srv.sendRecipients jsondata)) :
    ∃ srv', srv.send jansson alloc c jsondata bindata = .ok (-1, srv') ∧
      ¬ srv'.Sound srv.msgs.next := by
  cases hname : jsondata.unpackString "name" with
  | none =>
      rw [sendRecipients, hname] at hnot
      exact absurd trivial hnot
  | some name =>
      cases hsearch : srv.name2clnt.search name with
      | none =>
          rw [sendRecipients, hname, Option.bind_some, hsearch] at hnot
          exact absurd trivial hnot
      | some result =>
          obtain ⟨found, name2clnt⟩ := result
          cases found with
          | none =>
              rw [sendRecipients, hname, Option.bind_some, hsearch] at hnot
              exact absurd trivial hnot
          | some g =>
              obtain ⟨group, hg, -⟩ := (h.search hsearch).2 g rfl
              rw [sendRecipients_eq hname hsearch hg] at hnot
              have hunderway := h.underway { srv with
                name2clnt := name2clnt
                msgs := srv.msgs.alloc ⟨0, jansson.dumps jsondata, bindata⟩ } rfl rfl rfl
                (h.membership.clnts_nodup g group hg)
              obtain ⟨final, hall, hunsound⟩ := @sendAll_unsound jansson _ _ c alloc _ 0 _ hunderway hnot
              -- with nobody in the group there would be nobody to tell
              have hsome : group.clnts.items.length ≠ 0 := by
                intro hnil
                rw [List.length_eq_zero_iff.mp hnil] at hnot
                exact hnot trivial
              refine ⟨final, ?_, hunsound⟩
              simp only [send, hname, hsearch, ended, ok_bind, deref_some hg, if_neg hsome, hzero, hone,
                not_true_eq_false, if_false]
              rw [hall]
              rfl

theorem broadcast_sound (h : srv.Sturdy) {jsondata : Json} {bindata : Bytes} {ret : Int}
    (htold : alloc.malloc 0 0 = true → alloc.malloc 0 1 = true → ∀ clnt, srv.clnts.cells c = some clnt →
      AllTold jansson alloc srv.msgs.next srv.clnts (fun peer => clnt.fd ≠ peer.fd) 0 srv.registered)
    (hrun : srv.broadcast jansson alloc c jsondata bindata = .ok (ret, srv')) :
    srv'.Sound srv.msgs.next := by
  rw [broadcast] at hrun
  split at hrun
  next => exact ((refuse_undisturbed hrun).2.sound_iff _).mpr h.sound_next
  next hzero =>
    split at hrun
    next => exact ((refuse_undisturbed hrun).2.sound_iff _).mpr h.sound_next
    next hone =>
      obtain ⟨⟨ok, mid⟩, hall, hrest⟩ := bind_eq_ok hrun
      have htold := htold (not_not.mp hzero) (not_not.mp hone)
      have hunderway := h.underway { srv with
        msgs := srv.msgs.alloc ⟨0, jansson.dumps jsondata, bindata⟩ } rfl rfl rfl h.registered_nodup
      obtain ⟨hsound, hthrough⟩ := broadcastAll_sound hunderway htold hall
      cases ok with
      | false =>
          cases hrest
          exact hsound
      | true =>
          obtain ⟨msg, hmsg, hlast⟩ := bind_eq_ok hrest
          obtain ⟨msg', hmsg', hrefs⟩ := (hthrough rfl).counted
          cases hmsg'.symm.trans (deref_eq_ok hmsg)
          refine ((finish_undisturbed hlast).sound_iff _).mpr ?_
          split
          -- the message that nobody has got is freed, and no queue holds it
          next hnobody =>
            rw [Sound, Heap.cells_free_self]
            exact hrefs.symm.trans hnobody
          next => exact hsound

theorem broadcast_unsound (h : srv.Sturdy) {jsondata : Json} {bindata : Bytes} {clnt : Client}
    (hzero : alloc.malloc 0 0 = true) (hone : alloc.malloc 0 1 = true)
    (hc : srv.clnts.cells c = some clnt)
    (hnot : ¬ AllTold jansson alloc srv.msgs.next srv.clnts (fun peer => clnt.fd ≠ peer.fd) 0
      srv.registered) :
    ∃ srv', srv.broadcast jansson alloc c jsondata bindata = .ok (-1, srv') ∧
      ¬ srv'.Sound srv.msgs.next := by
  have hunderway := h.underway { srv with
    msgs := srv.msgs.alloc ⟨0, jansson.dumps jsondata, bindata⟩ } rfl rfl rfl h.registered_nodup
  obtain ⟨final, hall, hunsound⟩ := @broadcastAll_unsound jansson _ _ c alloc _ 0 _ clnt hunderway hc hnot
  rw [registered] at hall
  refine ⟨final, ?_, hunsound⟩
  simp only [broadcast, hzero, hone, not_true_eq_false, if_false]
  rw [hall]
  rfl

end Server

open Server

/-- Whatever fails, a `send` and a `broadcast` that return leave the message counting the queues
that hold it if and only if every recipient is told that waits and has got the message, up to the
first whose queue does not take it. -/
theorem refs_sound_iff {jansson : Jansson Json} {srv : Server} (h : Reachable jansson srv)
    (alloc : Alloc) (c : ClientPtr) (jsondata : Json) (bindata : Bytes) :
    ((∀ ret srv', srv.send jansson alloc c jsondata bindata = .ok (ret, srv') →
        srv'.Sound srv.msgs.next) ↔
      (alloc.malloc 0 0 = true → alloc.malloc 0 1 = true → AllTold jansson alloc srv.msgs.next
        srv.clnts (fun _ => True) 0 (srv.sendRecipients jsondata))) ∧
    ((∀ ret srv', srv.broadcast jansson alloc c jsondata bindata = .ok (ret, srv') →
        srv'.Sound srv.msgs.next) ↔
      (alloc.malloc 0 0 = true → alloc.malloc 0 1 = true → ∀ clnt, srv.clnts.cells c = some clnt →
        AllTold jansson alloc srv.msgs.next srv.clnts (fun peer => clnt.fd ≠ peer.fd) 0
          srv.registered)) := by
  have hsturdy := h.sturdy
  refine ⟨⟨?_, ?_⟩, ?_, ?_⟩
  · intro hsound hzero hone
    by_contra hnot
    obtain ⟨srv', hrun, hunsound⟩ := @send_unsound jansson srv c alloc hsturdy jsondata bindata
      hzero hone hnot
    exact hunsound (hsound _ srv' hrun)
  · intro htold ret srv' hrun
    exact send_sound hsturdy htold hrun
  · intro hsound hzero hone clnt hc
    by_contra hnot
    obtain ⟨srv', hrun, hunsound⟩ := @broadcast_unsound jansson srv c alloc hsturdy jsondata bindata
      clnt hzero hone hc hnot
    exact hunsound (hsound _ srv' hrun)
  · intro htold ret srv' hrun
    exact broadcast_sound hsturdy htold hrun

/-- The notification of the first recipient is not built. -/
def notificationFails : Alloc :=
  { Alloc.succeed with
    reply := fun i j => if i = 1 ∧ j = 0 then ⟨false, .succeed⟩ else .succeed }

/-- A client waits in a group, and another one is there. -/
def groupWaits : List Action :=
  [.accept 3 false, .accept 4 false, .command 0 (namesRequest "join" ["g"]) [],
    .command 0 (nameRequest "wait" "") []]

/-- A message to the group, while the notification fails. -/
theorem refs_sound_iff_waiting : ∃ srv, Reachable (compactJansson []) srv ∧
    srv.sendRecipients (nameRequest "send" "g") = [0] ∧
    ((∀ ret srv', srv.send (compactJansson []) notificationFails 1 (nameRequest "send" "g") [] =
        .ok (ret, srv') → srv'.Sound srv.msgs.next) ↔
      (notificationFails.malloc 0 0 = true → notificationFails.malloc 0 1 = true →
        AllTold (compactJansson []) notificationFails srv.msgs.next srv.clnts (fun _ => True) 0
          (srv.sendRecipients (nameRequest "send" "g")))) := by
  have hscript : (script (compactJansson []) groupWaits).map (fun result =>
      result.2.sendRecipients (nameRequest "send" "g")) = some [0] := by decide +kernel
  obtain ⟨⟨history, srv⟩, hrun, hrecipients⟩ := Option.map_eq_some_iff.mp hscript
  have h := (script_reaches _ hrun).reachable
  exact ⟨srv, h, hrecipients,
    (refs_sound_iff h notificationFails 1 (nameRequest "send" "g") []).1⟩

/-- The message is in the queue of the client that waits and counts no reference. -/
theorem refs_unsound : ¬ ∀ (jansson : Jansson Json) srv, Reachable jansson srv →
    ∀ alloc c jsondata bindata ret srv', srv.send jansson alloc c jsondata bindata = .ok (ret, srv') →
      srv'.Sound srv.msgs.next := by
  intro hall
  have hscript : (script (compactJansson []) groupWaits).bind (fun result =>
      (result.2.send (compactJansson []) notificationFails 1 (nameRequest "send" "g") []).toOption.map
        fun after => ((after.2.msgs.cells result.2.msgs.next).map Rcmessage.refs,
          after.2.queuesHolding result.2.msgs.next)) = some (some 0, 1) := by
    decide +kernel
  obtain ⟨⟨history, srv⟩, hrun, hvalue⟩ := Option.bind_eq_some_iff.mp hscript
  obtain ⟨⟨ret, srv'⟩, hsend, heq⟩ := Option.map_eq_some_iff.mp hvalue
  obtain ⟨hrefs, hheld⟩ := Prod.mk.inj heq
  obtain ⟨msg, hmsg, hzero⟩ := Option.map_eq_some_iff.mp hrefs
  have hsound := hall _ srv (script_reaches _ hrun).reachable notificationFails 1
    (nameRequest "send" "g") [] ret srv' (ok_of_toOption hsend)
  dsimp only at hmsg hheld
  rw [Sound, hmsg] at hsound
  dsimp only at hsound
  omega

end Dime
