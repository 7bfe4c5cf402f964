import Dime.Clients.Traffic

/-!
# The two event loops

Every round of the `select` loop, and every callback of the libev loop that does not ask it to
end, is made of steps that account for the bytes on the connections.
-/

namespace Dime

namespace Server

variable {jansson : Jansson Json} {srv srv' : Server} {c : ClientPtr} {clnt : Client}
  {loop : EventLoop} {errno : String} {fuel : Nat}

/-- A client can be read from, whatever the kernel delivers. -/
abbrev Open : Server → Traffic → ClientPtr → Bytes → Prop := fun _ _ _ _ => True

/-- The bytes that have passed account for a state of the server. -/
def Accounted (jansson : Jansson Json) (srv : Server) : Prop :=
  ∃ traffic, Served jansson Open srv traffic

theorem Accounted.registered (h : srv.Accounted jansson) (hc : srv.clnts.cells c = some clnt) :
    c ∈ srv.registered := by
  obtain ⟨traffic, hserved⟩ := h
  obtain ⟨⟨history, hcarried⟩, _⟩ := hserved.carried_true
  exact hcarried.reaches.inv.registry.mem_clients.mpr ⟨clnt, hc⟩

theorem Accounted.writable (h : srv.Accounted jansson) {accepted : Except String Nat}
    (hrun : srv.writable c accepted = .ok srv') : srv'.Accounted jansson := by
  obtain ⟨traffic, hserved⟩ := h
  obtain ⟨clnt, hc, _⟩ := bind_eq_ok hrun
  exact ⟨_, hserved.write (deref_eq_ok hc) hrun⟩

theorem Accounted.readable (h : srv.Accounted jansson) {chunk : Except String Bytes}
    (hrun : srv.readable jansson loop errno fuel c chunk = .ok (.stays, srv')) :
    srv'.Accounted jansson := by
  obtain ⟨clnt, hc, _⟩ := bind_eq_ok hrun
  have hregistered := h.registered (deref_eq_ok hc)
  obtain ⟨traffic, hserved⟩ := h
  exact ⟨_, hserved.read hregistered trivial hrun⟩

theorem Accounted.close (h : srv.Accounted jansson) (hc : c ∈ srv.registered)
    (hrun : srv.close c = .ok srv') : srv'.Accounted jansson := by
  obtain ⟨traffic, hserved⟩ := h
  exact ⟨_, hserved.close hc hrun⟩

theorem Accounted.watch (h : srv.Accounted jansson) (hc : srv.clnts.cells c = some clnt)
    (ev : Option Watchers) :
    (srv.setClient c { clnt with sock := { clnt.sock with ev } }).Accounted jansson := by
  obtain ⟨traffic, hserved⟩ := h
  exact ⟨_, hserved.watch hc ev⟩

theorem Accounted.accept (h : srv.Accounted jansson) {fd : Nat} {ws : Bool}
    (hunused : fd ∉ srv.fd2clnt.iterate.map Entry.key)
    (hrun : srv.accept (fun _ => true) fd ws = .ok (some srv')) : srv'.Accounted jansson := by
  obtain ⟨traffic, hserved⟩ := h
  exact ⟨_, hserved.accept hunused hrun⟩

end Server

/-! ## The `select` loop -/

namespace Select

open Server

variable {jansson : Jansson Json} {kernel : Kernel} {errno : String} {fuel : Nat} {fds : List Nat}
  {rready wready : Finset Nat} {st st' : Select} {i : Nat} {c : ClientPtr}

theorem accounted_find (h : st.srv.Accounted jansson) {found : Option ClientPtr}
    (hrun : st.find i = .ok (found, st')) : st'.srv.Accounted jansson := by
  obtain ⟨traffic, hserved⟩ := h
  rw [find] at hrun
  cases hsearch : st.srv.fd2clnt.search i with
  | none =>
      rw [hsearch] at hrun
      cases hrun
  | some result =>
      rw [hsearch] at hrun
      cases hrun
      exact ⟨traffic, hserved.find hsearch⟩

theorem accounted_writeTo (h : st.srv.Accounted jansson) (hrun : st.writeTo kernel i c = .ok st') :
    st'.srv.Accounted jansson := by
  suffices hwrite : st.srv.writable c (kernel.send i) = .ok st'.srv from h.writable hwrite
  rw [writeTo] at hrun
  obtain ⟨clnt, hc, hrun⟩ := bind_eq_ok hrun
  rw [writable, hc, ok_bind]
  dsimp only at hrun ⊢
  split at hrun
  · next hneg =>
      obtain ⟨srv, hclose, hrun⟩ := bind_eq_ok hrun
      cases hrun
      rw [if_pos hneg, hclose]
      rfl
  · next hpos =>
      cases hrun
      rw [if_neg hpos]
      rfl

theorem accounted_writePhase (h : st.srv.Accounted jansson) {clnt : Option ClientPtr}
    (hrun : st.writePhase kernel wready i clnt = .ok st') : st'.srv.Accounted jansson := by
  unfold writePhase at hrun
  split at hrun
  · split at hrun
    · exact accounted_writeTo h hrun
    · obtain ⟨⟨found, mid⟩, hfind, hrun⟩ := bind_eq_ok hrun
      have hmid := accounted_find h hfind
      dsimp only at hrun
      split at hrun
      · exact accounted_writeTo hmid hrun
      · cases hrun
        exact hmid
  · cases hrun
    exact h

theorem accounted_readFrom (h : st.srv.Accounted jansson) {there : Bool}
    (hrun : st.readFrom jansson kernel errno fuel i c = .ok (.stays, there, st')) :
    st'.srv.Accounted jansson := by
  suffices hread : st.srv.readable jansson .select errno fuel c (kernel.recv i) =
      .ok (.stays, st'.srv) from h.readable hread
  rw [readFrom] at hrun
  obtain ⟨clnt, hc, hrun⟩ := bind_eq_ok hrun
  rw [readable, hc, ok_bind]
  dsimp only at hrun ⊢
  split at hrun
  · next hnone =>
      obtain ⟨srv, hclose, hrun⟩ := bind_eq_ok hrun
      cases hrun
      rw [if_pos hnone, hclose]
      rfl
  · next hsome =>
      obtain ⟨⟨verdict, srv⟩, hpop, hrun⟩ := bind_eq_ok hrun
      cases hrun
      rw [if_neg hsome, hpop]

theorem accounted_acceptOn (h : st.srv.Accounted jansson)
    (hrun : st.acceptOn kernel fds i = .ok (.stays, st')) : st'.srv.Accounted jansson := by
  rw [acceptOn] at hrun
  split at hrun
  · cases hrun
    exact h
  · obtain ⟨accepted, haccept, hrun⟩ := bind_eq_ok hrun
    split at hrun
    · cases hrun
    · cases hrun
      refine h.accept ?_ haccept
      intro hmem
      exact kernel.accept_unused i _ (List.mem_toFinset.mpr (List.mem_append_right _ hmem))

theorem accounted_scanFd (h : st.srv.Accounted jansson)
    (hrun : st.scanFd jansson kernel errno fuel fds rready wready i = .ok (.stays, st')) :
    st'.srv.Accounted jansson := by
  unfold scanFd at hrun
  split at hrun
  · obtain ⟨⟨found, mid⟩, hfind, hrun⟩ := bind_eq_ok hrun
    have hmid := accounted_find h hfind
    dsimp only at hrun
    split at hrun
    · split at hrun
      · obtain ⟨⟨verdict, opened⟩, haccept, hrun⟩ := bind_eq_ok hrun
        dsimp only at hrun
        split at hrun
        · cases hrun
        · have hopened := accounted_acceptOn hmid haccept
          split at hrun
          · cases hrun
            exact hopened
          · obtain ⟨written, hwrite, hrun⟩ := bind_eq_ok hrun
            cases hrun
            exact accounted_writePhase hopened hwrite
      · cases hrun
        exact hmid
    · obtain ⟨⟨verdict, there, read⟩, hread, hrun⟩ := bind_eq_ok hrun
      dsimp only at hrun
      split at hrun
      · cases hrun
      · cases hrun
        exact accounted_readFrom hmid hread
      · obtain ⟨written, hwrite, hrun⟩ := bind_eq_ok hrun
        cases hrun
        exact accounted_writePhase (accounted_readFrom hmid hread) hwrite
  · obtain ⟨written, hwrite, hrun⟩ := bind_eq_ok hrun
    cases hrun
    exact accounted_writePhase h hwrite

theorem accounted_scan {n : Nat} (h : st.srv.Accounted jansson)
    (hrun : st.scan jansson kernel errno fuel fds rready wready n i = .ok (.stays, st')) :
    st'.srv.Accounted jansson := by
  induction n generalizing i st with
  | zero =>
      cases hrun
      exact h
  | succ n ih =>
      unfold scan at hrun
      split at hrun
      · obtain ⟨⟨verdict, mid⟩, hscan, hrun⟩ := bind_eq_ok hrun
        dsimp only at hrun
        split at hrun
        · cases hrun
        · exact ih (accounted_scanFd h hscan) hrun
      · cases hrun
        exact h

theorem accounted_refresh {n : Nat} (h : st.srv.Accounted jansson)
    (hrun : st.refresh n i = .ok st') : st'.srv.Accounted jansson := by
  induction n generalizing i st with
  | zero =>
      cases hrun
      exact h
  | succ n ih =>
      unfold refresh at hrun
      split at hrun
      · split at hrun
        · obtain ⟨⟨found, mid⟩, hfind, hrun⟩ := bind_eq_ok hrun
          have hmid := accounted_find h hfind
          dsimp only at hrun
          split at hrun
          · exact ih hmid hrun
          · obtain ⟨clnt, _, hrun⟩ := bind_eq_ok hrun
            split at hrun
            · refine ih ?_ hrun
              exact hmid
            · refine ih ?_ hrun
              exact hmid
        · exact ih h hrun
      · cases hrun
        exact h

/-- Every round is made of such steps. -/
theorem Calls.accounted (h : Calls jansson fds st) : st.srv.Accounted jansson := by
  induction h with
  | start hinit _ => exact ⟨_, .start hinit⟩
  | round _ _ _ _ _ _ step _ ih =>
      unfold Select.round at step
      obtain ⟨⟨verdict, mid⟩, hscan, step⟩ := bind_eq_ok step
      dsimp only at step
      split at step
      · cases step
      · obtain ⟨fresh, hrefresh, step⟩ := bind_eq_ok step
        cases step
        exact accounted_refresh (accounted_scan ih hscan) hrefresh

end Select

/-! ## The libev loop -/

namespace Server

variable {jansson : Jansson Json} {srv srv' : Server} {c : ClientPtr} {both : Bool}

variable (jansson) in
/-- The states that the callbacks of the libev loop leave, as long as none has asked the loop
to end. -/
inductive Continues : Server → Prop where
  | start {srv : Server} (init : Server.init (fun _ => true) = some srv) : Continues srv
  | serverReadable {srv srv' : Server} (before : Continues srv) {fd : Nat}
      {handshake : Option Bool} (unused : fd ∉ srv.fd2clnt.iterate.map Entry.key)
      (step : srv.evServerReadable fd handshake = .ok srv') : Continues srv'
  | clientReadable {srv srv' : Server} (before : Continues srv) {errno : String} {fuel : Nat}
      {c : ClientPtr} {both : Bool} {chunk : Except String Bytes}
      (registered : c ∈ srv.registered)
      (stays : both = false → srv.readable jansson .libev errno fuel c chunk = .ok (.stays, srv'))
      (step : srv.evClientReadable jansson errno fuel c both chunk = .ok srv') : Continues srv'
  | clientWritable {srv srv' : Server} (before : Continues srv) {c : ClientPtr} {both : Bool}
      {accepted : Except String Nat} (registered : c ∈ srv.registered)
      (step : srv.evClientWritable c both accepted = .ok srv') : Continues srv'

theorem accounted_evServerReadable (h : srv.Accounted jansson) {fd : Nat} {handshake : Option Bool}
    (hunused : fd ∉ srv.fd2clnt.iterate.map Entry.key)
    (hrun : srv.evServerReadable fd handshake = .ok srv') : srv'.Accounted jansson := by
  unfold evServerReadable at hrun
  split at hrun
  · cases hrun
    exact h
  · obtain ⟨accepted, haccept, hrun⟩ := bind_eq_ok hrun
    dsimp only at hrun
    split at hrun
    · cases hrun
      exact h
    · obtain ⟨clnt, hc, hrun⟩ := bind_eq_ok hrun
      cases hrun
      exact (h.accept hunused haccept).watch (deref_eq_ok hc) _

theorem accounted_evClientWritable (h : srv.Accounted jansson) {accepted : Except String Nat}
    (hregistered : c ∈ srv.registered)
    (hrun : srv.evClientWritable c both accepted = .ok srv') : srv'.Accounted jansson := by
  unfold evClientWritable at hrun
  split at hrun
  · exact h.close hregistered hrun
  · obtain ⟨clnt, hc, hrun⟩ := bind_eq_ok hrun
    dsimp only at hrun
    have hwrite : ∀ srv'', srv.writable c accepted = .ok srv'' → srv''.Accounted jansson :=
      fun _ => h.writable
    rw [writable, hc, ok_bind] at hwrite
    dsimp only at hwrite
    split at hrun
    · next hneg =>
        rw [if_pos hneg] at hwrite
        exact hwrite _ hrun
    · next hpos =>
        rw [if_neg hpos] at hwrite
        have hsent := hwrite _ rfl
        split at hrun
        · cases hrun
          have hwatched := hsent.watch (setClient_self (deref_eq_ok hc))
            (( clnt.sock.sendpartial true accepted).2.2.ev.map Watchers.stopWrite)
          simp only [setClient, Heap.write_write] at hwatched ⊢
          exact hwatched
        · cases hrun
          exact hsent

theorem Continues.accounted (h : Continues jansson srv) : srv.Accounted jansson := by
  induction h with
  | start hinit => exact ⟨_, .start hinit⟩
  | serverReadable _ hunused hstep ih => exact accounted_evServerReadable ih hunused hstep
  | @clientReadable srv srv' _ errno fuel c both chunk hregistered hstays hstep ih =>
      cases both with
      | true => exact ih.close hregistered hstep
      | false => exact ih.readable (hstays rfl)
  | clientWritable _ hregistered hstep ih => exact accounted_evClientWritable ih hregistered hstep

end Server

open Server

/-- A request on the first connection of the libev loop, which does not end. -/
theorem continues_reply : ∃ srv clnt, Continues syncOnly srv ∧ srv.clnts.cells 0 = some clnt := by
  have hscript : ((Server.init fun _ => true).bind fun start =>
      ((start.evServerReadable 4 (some false)).toOption).bind fun mid =>
        ((mid.readable syncOnly .libev "" 2 0 (requests.recv 4)).toOption).bind fun result =>
          (result.2.clnts.cells 0).map fun _ => decide (4 ∉ start.fd2clnt.iterate.map Entry.key ∧
            0 ∈ mid.registered ∧ result.1 = .stays)) = some true := by
    decide +kernel
  obtain ⟨start, hinit, hscript⟩ := Option.bind_eq_some_iff.mp hscript
  obtain ⟨mid, haccept, hscript⟩ := Option.bind_eq_some_iff.mp hscript
  obtain ⟨⟨verdict, srv⟩, hread, hscript⟩ := Option.bind_eq_some_iff.mp hscript
  obtain ⟨clnt, hc, hvalue⟩ := Option.map_eq_some_iff.mp hscript
  obtain ⟨hunused, hmid, hstays⟩ := of_decide_eq_true hvalue
  cases hstays
  have hreads := ok_of_toOption hread
  have hstep : mid.evClientReadable syncOnly "" 2 0 false (requests.recv 4) = .ok srv := by
    rw [evClientReadable, hreads]
    rfl
  exact ⟨srv, clnt, ((Continues.start hinit).serverReadable hunused
    (ok_of_toOption haccept)).clientReadable hmid (fun _ => hreads) hstep, hc⟩

end Dime
