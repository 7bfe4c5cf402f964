import Dime.Server.Invariant

/-!
# Commands that stay out of the groups

What pushing and queueing leave as it was, whichever allocations fail. All commands but `join`
and `leave` are made of such steps, as far as they run through.
-/

namespace Dime

variable {jansson : Jansson Json}

theorem ended_eq_ok {α : Type} {x : Option α} {a : α} (h : ended x = .ok a) : x = some a := by
  cases x with
  | none => cases h
  | some b =>
      cases h
      rfl

namespace Server

variable {srv srv' srv'' : Server} {c : ClientPtr} {clnt clnt' : Client} {alloc : Alloc}

/-! ## Steps that only push -/

/-- Sockets, waiting flags and the error text may have changed, and nothing else. -/
structure Undisturbed (srv srv' : Server) : Prop where
  framed : srv.Framed srv'
  msgs : srv'.msgs = srv.msgs
  queue : ∀ c, (srv'.clnts.cells c).map Client.queue = (srv.clnts.cells c).map Client.queue

theorem Undisturbed.refl (srv : Server) : srv.Undisturbed srv := ⟨.refl srv, rfl, fun _ => rfl⟩

theorem Undisturbed.trans (h : srv.Undisturbed srv') (h' : srv'.Undisturbed srv'') :
    srv.Undisturbed srv'' :=
  ⟨h.framed.trans h'.framed, h'.msgs.trans h.msgs, fun c => (h'.queue c).trans (h.queue c)⟩

theorem undisturbed_setErr (srv : Server) (text : String) :
    srv.Undisturbed { srv with err := text } :=
  ⟨⟨rfl, rfl, rfl, rfl, fun _ => rfl⟩, rfl, fun _ => rfl⟩

theorem undisturbed_setClient (hc : srv.clnts.cells c = some clnt) (hfd : clnt'.fd = clnt.fd)
    (hgroups : clnt'.groups = clnt.groups) (hqueue : clnt'.queue = clnt.queue) :
    srv.Undisturbed (srv.setClient c clnt') := by
  refine ⟨framed_setClient clnt' hc hfd hgroups, rfl, ?_⟩
  intro c'
  rcases eq_or_ne c' c with rfl | hne
  · rw [setClient_self hc, hc, Option.map_some, Option.map_some, hqueue]
  · rw [setClient_of_ne clnt' hne]

theorem pushStrTo_eq_ok {write : Nat → Bool} {out : Outgoing} {jsonstr : CString} {bindata : Bytes}
    {ret : Int} (h : srv.pushStrTo write c out jsonstr bindata = .ok (ret, srv')) :
    ∃ clnt, srv.clnts.cells c = some clnt ∧ ret = (clnt.pushStr write out jsonstr bindata).1 ∧
      srv' = srv.setClient c (clnt.pushStr write out jsonstr bindata).2 := by
  obtain ⟨clnt, hc, hrun⟩ := bind_eq_ok h
  cases hrun
  exact ⟨clnt, deref_eq_ok hc, rfl, rfl⟩

theorem pushStrTo_undisturbed {write : Nat → Bool} {out : Outgoing} {jsonstr : CString}
    {bindata : Bytes} {ret : Int} (h : srv.pushStrTo write c out jsonstr bindata = .ok (ret, srv')) :
    srv.Undisturbed srv' := by
  obtain ⟨clnt, hc, -, rfl⟩ := pushStrTo_eq_ok h
  exact undisturbed_setClient hc rfl rfl rfl

theorem pushTo_eq_ok {push : PushAlloc} {body : Json} {ret : Int}
    (h : srv.pushTo jansson push c body = .ok (ret, srv')) :
    ∃ clnt, srv.clnts.cells c = some clnt ∧ ret = (clnt.push jansson push body).1 ∧
      srv' = srv.setClient c (clnt.push jansson push body).2 := by
  obtain ⟨clnt, hc, hrun⟩ := bind_eq_ok h
  cases hrun
  exact ⟨clnt, deref_eq_ok hc, rfl, rfl⟩

theorem pushTo_undisturbed {push : PushAlloc} {body : Json} {ret : Int}
    (h : srv.pushTo jansson push c body = .ok (ret, srv')) : srv.Undisturbed srv' := by
  obtain ⟨clnt, hc, -, rfl⟩ := pushTo_eq_ok h
  exact undisturbed_setClient hc rfl rfl rfl

theorem refuse_undisturbed {reply : ReplyAlloc} {text : String} {ret : Int}
    (h : srv.refuse jansson reply c text = .ok (ret, srv')) : ret = -1 ∧ srv.Undisturbed srv' := by
  rw [refuse] at h
  dsimp only at h
  split at h
  · obtain ⟨⟨_, mid⟩, hpush, hrun⟩ := bind_eq_ok h
    cases hrun
    exact ⟨rfl, (undisturbed_setErr srv text).trans (pushTo_undisturbed hpush)⟩
  · cases h
    exact ⟨rfl, undisturbed_setErr srv text⟩

/-- A live client can be refused. -/
theorem refuse_returns (hc : srv.clnts.cells c = some clnt) (reply : ReplyAlloc) (text : String) :
    ∃ srv', srv.refuse jansson reply c text = .ok (-1, srv') := by
  rw [refuse]
  dsimp only
  split
  · rw [pushTo, deref_some hc, ok_bind]
    exact ⟨_, rfl⟩
  · exact ⟨_, rfl⟩

theorem finish_undisturbed {ret : Int} (h : srv.finish jansson alloc c = .ok (ret, srv')) :
    srv.Undisturbed srv' := by
  obtain ⟨⟨_, mid⟩, hpush, hrun⟩ := bind_eq_ok h
  have hpushed := pushStrTo_undisturbed hpush
  dsimp only at hrun
  split at hrun
  · exact hpushed.trans (refuse_undisturbed hrun).2
  · cases hrun
    exact hpushed

theorem reregister_undisturbed {i : Nat} {others : List ClientPtr} {ok : Bool}
    (h : reregister jansson alloc c i others srv = .ok (ok, srv')) : srv.Undisturbed srv' := by
  induction others generalizing i srv with
  | nil =>
      cases h
      exact .refl _
  | cons other rest ih =>
      rw [reregister] at h
      split at h
      · obtain ⟨⟨_, mid⟩, hpush, hrun⟩ := bind_eq_ok h
        have hpushed := pushStrTo_undisturbed hpush
        dsimp only at hrun
        split at hrun
        · cases hrun
          exact hpushed
        · exact hpushed.trans (ih hrun)
      · exact ih h

theorem undisturbed_setSerialization (srv : Server) (serialization : Serialization) :
    srv.Undisturbed { srv with serialization } :=
  ⟨⟨rfl, rfl, rfl, rfl, fun _ => rfl⟩, rfl, fun _ => rfl⟩

theorem negotiate_undisturbed {requested : Serialization} {ok : Bool}
    (h : srv.negotiate jansson alloc c requested = .ok (ok, srv')) : srv.Undisturbed srv' := by
  rw [negotiate] at h
  split at h
  · cases h
    exact undisturbed_setSerialization srv requested
  split at h
  · split at h
    · cases h
      exact .refl srv
    split at h
    · cases h
      exact .refl srv
    · obtain ⟨⟨ok', mid⟩, hrun, hrest⟩ := bind_eq_ok h
      have hmid := reregister_undisturbed hrun
      cases ok' with
      | true =>
          cases hrest
          exact hmid.trans (undisturbed_setSerialization mid .dimeb)
      | false =>
          cases hrest
          exact hmid
  · cases h
    exact .refl srv

theorem handshake_undisturbed {jsondata : Json} {ret : Int}
    (h : srv.handshake jansson alloc c jsondata = .ok (ret, srv')) : srv.Undisturbed srv' := by
  rw [handshake] at h
  split at h
  · split at h
    · cases h
      exact .refl srv
    · obtain ⟨⟨ok, mid⟩, hrun, hrest⟩ := bind_eq_ok h
      have hmid := negotiate_undisturbed hrun
      dsimp only at hrest
      split at hrest
      · cases hrest
        exact hmid
      split at hrest
      · cases hrest
        exact hmid
      · obtain ⟨⟨_, final⟩, hpush, hlast⟩ := bind_eq_ok hrest
        have hpushed := pushTo_undisturbed hpush
        dsimp only at hlast
        split at hlast
        · cases hlast
          exact hmid.trans hpushed
        · cases hlast
          exact hmid.trans hpushed
  · exact (refuse_undisturbed h).2

/-- What is pushed in reply to a `wait`, and what follows where it fails. -/
theorem reply_undisturbed {i j : Nat} {text : String} {body : Json} {ret : Int}
    (h : (if (alloc.reply i j).pack then do
        let (ret, srv) ← srv.pushTo jansson (alloc.reply i j).push c body
        if ret < 0 then srv.refuse jansson (alloc.reply i (j + 1)) c text
        else return (0, srv)
      else srv.refuse jansson (alloc.reply i (j + 1)) c text) = .ok (ret, srv')) :
    srv.Undisturbed srv' := by
  split at h
  · obtain ⟨⟨_, mid⟩, hpush, hrun⟩ := bind_eq_ok h
    have hpushed := pushTo_undisturbed hpush
    dsimp only at hrun
    split at hrun
    · exact hpushed.trans (refuse_undisturbed hrun).2
    · cases hrun
      exact hpushed
  · exact (refuse_undisturbed h).2

theorem wait_undisturbed {ret : Int} (h : srv.wait jansson alloc c = .ok (ret, srv')) :
    srv.Undisturbed srv' := by
  obtain ⟨clnt, hc, hrun⟩ := bind_eq_ok h
  split at hrun
  · exact reply_undisturbed hrun
  · cases hrun
    exact undisturbed_setClient (deref_eq_ok hc) rfl rfl rfl

theorem devices_undisturbed {ret : Int} (h : srv.devices jansson alloc c = .ok (ret, srv')) :
    srv.Undisturbed srv' := by
  rw [devices] at h
  split at h
  · exact (refuse_undisturbed h).2
  · obtain ⟨names, -, hrun⟩ := bind_eq_ok h
    cases names with
    | none => exact (refuse_undisturbed hrun).2
    | some names => exact reply_undisturbed hrun

/-! ## Steps that queue messages -/

/-- Tables and groups stay, and only messages that are there enter a queue. -/
structure Calm (srv srv' : Server) : Prop where
  framed : srv.Framed srv'
  next : srv.msgs.next ≤ srv'.msgs.next
  queued : ∀ c clnt', srv'.clnts.cells c = some clnt' → ∀ p ∈ clnt'.queue.toList,
    p < srv'.msgs.next ∨ ∃ clnt, srv.clnts.cells c = some clnt ∧ p ∈ clnt.queue.toList

theorem Calm.refl (srv : Server) : srv.Calm srv :=
  ⟨.refl srv, le_rfl, fun _ clnt hc _ hp => .inr ⟨clnt, hc, hp⟩⟩

theorem Calm.trans (h : srv.Calm srv') (h' : srv'.Calm srv'') : srv.Calm srv'' := by
  refine ⟨h.framed.trans h'.framed, h.next.trans h'.next, ?_⟩
  intro c clnt'' hc'' p hp
  rcases h'.queued c clnt'' hc'' p hp with hlt | ⟨clnt', hc', hp'⟩
  · exact .inl hlt
  · rcases h.queued c clnt' hc' p hp' with hlt | hold
    · exact .inl (hlt.trans_le h'.next)
    · exact .inr hold

theorem Undisturbed.calm (h : srv.Undisturbed srv') : srv.Calm srv' := by
  refine ⟨h.framed, by rw [h.msgs], ?_⟩
  intro c clnt' hc' p hp
  have hqueue := h.queue c
  rw [hc', Option.map_some] at hqueue
  obtain ⟨clnt, hc, heq⟩ := Option.map_eq_some_iff.mp hqueue.symm
  exact .inr ⟨clnt, hc, by rw [heq]; exact hp⟩

theorem calm_setMsgs {msgs : Heap Rcmessage} (h : srv.msgs.next ≤ msgs.next) :
    srv.Calm { srv with msgs } :=
  ⟨⟨rfl, rfl, rfl, rfl, fun _ => rfl⟩, h, fun _ clnt hc _ hp => .inr ⟨clnt, hc, hp⟩⟩

theorem calm_setClient (hc : srv.clnts.cells c = some clnt) (hfd : clnt'.fd = clnt.fd)
    (hgroups : clnt'.groups = clnt.groups)
    (hqueue : ∀ p ∈ clnt'.queue.toList, p < srv.msgs.next ∨ p ∈ clnt.queue.toList) :
    srv.Calm (srv.setClient c clnt') := by
  refine ⟨framed_setClient clnt' hc hfd hgroups, le_rfl, ?_⟩
  intro c' k hk p hp
  rcases eq_or_ne c' c with rfl | hne
  · rw [setClient_self hc] at hk
    cases hk
    rcases hqueue p hp with hlt | hold
    · exact .inl hlt
    · exact .inr ⟨clnt, hc, hold⟩
  · rw [setClient_of_ne clnt' hne] at hk
    exact .inr ⟨k, hk, hp⟩

theorem unref_calm {p : MsgPtr} (h : srv.unref p = .ok srv') : srv.Calm srv' := by
  obtain ⟨msg, -, hrun⟩ := bind_eq_ok h
  dsimp only at hrun
  split at hrun
  · cases hrun
    exact calm_setMsgs le_rfl
  · cases hrun
    exact calm_setMsgs le_rfl

/-- A notification clears the flag of the client once it is out. -/
theorem notify_undisturbed {i : Nat} {other : ClientPtr} {ok : Bool}
    (h : srv.notify jansson alloc i other = .ok (ok, srv')) : srv.Undisturbed srv' := by
  obtain ⟨clnt, hc, hrun⟩ := bind_eq_ok h
  split at hrun
  · split at hrun
    · obtain ⟨⟨_, mid⟩, hpush, hrest⟩ := bind_eq_ok hrun
      have hpushed := pushTo_undisturbed hpush
      dsimp only at hrest
      split at hrest
      · obtain ⟨⟨_, final⟩, hrefuse, hlast⟩ := bind_eq_ok hrest
        cases hlast
        exact hpushed.trans (refuse_undisturbed hrefuse).2
      · obtain ⟨clnt', hc', hlast⟩ := bind_eq_ok hrest
        cases hlast
        exact hpushed.trans (undisturbed_setClient (deref_eq_ok hc') rfl rfl rfl)
    · obtain ⟨⟨_, final⟩, hrefuse, hlast⟩ := bind_eq_ok hrun
      cases hlast
      exact (refuse_undisturbed hrefuse).2
  · cases hrun
    exact .refl _

theorem enqueue_calm {p : MsgPtr} {i : Nat} {other : ClientPtr} {ok : Bool} (hp : p < srv.msgs.next)
    (h : srv.enqueue jansson alloc c p i other = .ok (ok, srv')) : srv.Calm srv' := by
  obtain ⟨clnt, hc, hrun⟩ := bind_eq_ok h
  cases hpush : clnt.queue.pushr (alloc.malloc i 0) p with
  | none =>
      rw [hpush] at hrun
      obtain ⟨msg, -, hrest⟩ := bind_eq_ok hrun
      obtain ⟨⟨_, final⟩, hrefuse, hlast⟩ := bind_eq_ok hrest
      cases hlast
      refine Calm.trans ?_ (refuse_undisturbed hrefuse).2.calm
      split
      · exact calm_setMsgs le_rfl
      · exact .refl srv
  | some queue =>
      rw [hpush] at hrun
      have hlist := Queue.pushr_eq_some hpush
      have hqueued : srv.Calm (srv.setClient other { clnt with queue }) := by
        refine calm_setClient (deref_eq_ok hc) rfl rfl ?_
        intro q hq
        rw [hlist] at hq
        rcases List.mem_append.mp hq with hold | hnew
        · exact .inr hold
        · exact .inl (List.mem_singleton.mp hnew ▸ hp)
      obtain ⟨⟨told, mid⟩, hnotify, hrest⟩ := bind_eq_ok hrun
      have hmid := hqueued.trans (notify_undisturbed hnotify).calm
      cases told with
      | true =>
          obtain ⟨msg, -, hlast⟩ := bind_eq_ok hrest
          cases hlast
          exact hmid.trans (calm_setMsgs le_rfl)
      | false =>
          cases hrest
          exact hmid

theorem sendAll_calm {p : MsgPtr} {i : Nat} {others : List ClientPtr} {ok : Bool}
    (hp : p < srv.msgs.next) (h : sendAll jansson alloc c p i others srv = .ok (ok, srv')) :
    srv.Calm srv' := by
  induction others generalizing i srv with
  | nil =>
      cases h
      exact .refl _
  | cons other rest ih =>
      obtain ⟨⟨queued, mid⟩, hrun, hrest⟩ := bind_eq_ok h
      have hmid := enqueue_calm hp hrun
      cases queued with
      | true => exact hmid.trans (ih (hp.trans_le hmid.next) hrest)
      | false =>
          cases hrest
          exact hmid

theorem broadcastAll_calm {p : MsgPtr} {i : Nat} {others : List ClientPtr} {ok : Bool}
    (hp : p < srv.msgs.next) (h : broadcastAll jansson alloc c p i others srv = .ok (ok, srv')) :
    srv.Calm srv' := by
  induction others generalizing i srv with
  | nil =>
      cases h
      exact .refl _
  | cons other rest ih =>
      obtain ⟨clnt, -, h⟩ := bind_eq_ok h
      obtain ⟨peer, -, h⟩ := bind_eq_ok h
      dsimp only at h
      split at h
      · obtain ⟨⟨queued, mid⟩, hrun, hrest⟩ := bind_eq_ok h
        have hmid := enqueue_calm hp hrun
        cases queued with
        | true => exact hmid.trans (ih (hp.trans_le hmid.next) hrest)
        | false =>
            cases hrest
            exact hmid
      · exact ih hp h

theorem broadcast_calm {jsondata : Json} {bindata : Bytes} {ret : Int}
    (h : srv.broadcast jansson alloc c jsondata bindata = .ok (ret, srv')) : srv.Calm srv' := by
  rw [broadcast] at h
  split at h
  · exact (refuse_undisturbed h).2.calm
  split at h
  · exact (refuse_undisturbed h).2.calm
  · obtain ⟨⟨ok, mid⟩, hrun, hrest⟩ := bind_eq_ok h
    have hmade : srv.Calm { srv with msgs := srv.msgs.alloc ⟨0, jansson.dumps jsondata, bindata⟩ } :=
      calm_setMsgs (Nat.le_succ _)
    have hmid := hmade.trans (broadcastAll_calm (Nat.lt_succ_self _) hrun)
    cases ok with
    | true =>
        obtain ⟨msg, -, hlast⟩ := bind_eq_ok hrest
        refine hmid.trans (Calm.trans ?_ (finish_undisturbed hlast).calm)
        split
        · exact calm_setMsgs le_rfl
        · exact .refl mid
    | false =>
        cases hrest
        exact hmid

/-- A `send` may rearrange the table of groups before it queues anything. -/
theorem send_calm {jsondata : Json} {bindata : Bytes} {ret : Int}
    (h : srv.send jansson alloc c jsondata bindata = .ok (ret, srv')) :
    srv.Calm srv' ∨ ∃ name found name2clnt, srv.name2clnt.search name = some (found, name2clnt) ∧
      Calm { srv with name2clnt } srv' := by
  rw [send] at h
  split at h
  next => exact .inl (refuse_undisturbed h).2.calm
  next name _ =>
    right
    obtain ⟨⟨found, name2clnt⟩, hsearch, hrun⟩ := bind_eq_ok h
    refine ⟨name, found, name2clnt, ended_eq_ok hsearch, ?_⟩
    cases found with
    | none => exact (refuse_undisturbed hrun).2.calm
    | some g =>
        obtain ⟨group, -, hrun⟩ := bind_eq_ok hrun
        dsimp only at hrun
        split at hrun
        · exact (refuse_undisturbed hrun).2.calm
        split at hrun
        · exact (refuse_undisturbed hrun).2.calm
        split at hrun
        · exact (refuse_undisturbed hrun).2.calm
        · obtain ⟨⟨ok, mid⟩, hall, hrest⟩ := bind_eq_ok hrun
          have hmade : Calm { srv with name2clnt }
              { srv with
                name2clnt := name2clnt
                msgs := srv.msgs.alloc ⟨0, jansson.dumps jsondata, bindata⟩ } :=
            calm_setMsgs (Nat.le_succ _)
          have hmid := hmade.trans (sendAll_calm (Nat.lt_succ_self _) hall)
          cases ok with
          | true =>
              obtain ⟨msg, -, hlast⟩ := bind_eq_ok hrest
              split at hlast
              · exact hmid.trans (finish_undisturbed hlast).calm
              · cases hlast
          | false =>
              cases hrest
              exact hmid

theorem relay_calm {m i : Nat} {ok : Bool} (h : relay alloc c m i srv = .ok (ok, srv')) :
    srv.Calm srv' := by
  induction m generalizing i srv with
  | zero =>
      cases h
      exact .refl _
  | succ m ih =>
      obtain ⟨clnt, hc, hrun⟩ := bind_eq_ok h
      rcases clnt.queue.popl_cases with ⟨hnone, -⟩ | ⟨p, queue, hsome, hlist⟩
      · rw [hnone] at hrun
        cases hrun
        exact .refl _
      · rw [hsome] at hrun
        have hpopped : srv.Calm (srv.setClient c { clnt with queue }) := by
          refine calm_setClient (deref_eq_ok hc) rfl rfl ?_
          intro q hq
          exact .inr (hlist ▸ List.mem_cons_of_mem p hq)
        obtain ⟨msg, hmsg, hrun⟩ := bind_eq_ok hrun
        have hlive : p < srv.msgs.next := Heap.lt_next (deref_eq_ok hmsg)
        obtain ⟨⟨pushed, mid⟩, hpush, hrun⟩ := bind_eq_ok hrun
        have hmid := hpopped.trans (pushStrTo_undisturbed hpush).calm
        dsimp only at hrun
        split at hrun
        · obtain ⟨clnt', hc', hrun⟩ := bind_eq_ok hrun
          cases hback : clnt'.queue.pushl (alloc.malloc (i + 1) 0) p with
          | none =>
              rw [hback] at hrun
              cases hrun
              exact hmid
          | some queue' =>
              rw [hback] at hrun
              cases hrun
              refine hmid.trans (calm_setClient (deref_eq_ok hc') rfl rfl ?_)
              intro q hq
              rw [Queue.pushl_eq_some hback] at hq
              rcases List.mem_cons.mp hq with rfl | hold
              · exact .inl (hlive.trans_le hmid.next)
              · exact .inr hold
        · obtain ⟨final, hunref, hrun⟩ := bind_eq_ok hrun
          exact (hmid.trans (unref_calm hunref)).trans (ih hrun)

theorem sync_calm {jsondata : Json} {ret : Int} (h : srv.sync jansson alloc c jsondata = .ok (ret, srv')) :
    srv.Calm srv' := by
  rw [sync] at h
  split at h
  · cases h
    exact .refl _
  · obtain ⟨⟨ok, mid⟩, hrun, hrest⟩ := bind_eq_ok h
    have hmid := relay_calm hrun
    cases ok with
    | true => exact hmid.trans (finish_undisturbed hrest).calm
    | false =>
        cases hrest
        exact hmid

end Server

end Dime
