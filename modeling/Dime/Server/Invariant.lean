import Dime.Foundation.RefCount
import Dime.Server.Handlers
import Dime.Server.TableMap

/-!
# The invariant of the server

What holds between two commands: the tables find exactly the live clients and
groups, membership is recorded on both sides, every count of references is that
of the queue positions, and no client waits with messages in its queue.
-/

namespace Dime

/-- The first step of a computation has succeeded. -/
@[simp] theorem ok_bind {α β : Type} (a : α) (f : α → Except Fault β) :
    (Except.ok a >>= f) = f a := rfl

/-- A computation that has succeeded has succeeded in its first step. -/
theorem bind_eq_ok {α β : Type} {x : Except Fault α} {f : α → Except Fault β} {b : β}
    (h : (x >>= f) = .ok b) : ∃ a, x = .ok a ∧ f a = .ok b := by
  cases x with
  | ok a => exact ⟨a, rfl, h⟩
  | error fault => cases h

theorem ok_of_toOption {α : Type} {x : Except Fault α} {a : α} (h : x.toOption = some a) :
    x = .ok a := by
  cases x with
  | error fault => cases h
  | ok b => exact congrArg Except.ok (Option.some.inj h)

@[simp] theorem pure_ok {α : Type} (a : α) : (pure a : Except Fault α) = .ok a := rfl

theorem deref_some {α : Type} {heap : Heap α} {p : Nat} {a : α} (h : heap.cells p = some a) :
    deref heap p = .ok a := by rw [deref, h]

theorem deref_eq_ok {α : Type} {heap : Heap α} {p : Nat} {a : α} (h : deref heap p = .ok a) :
    heap.cells p = some a := by
  unfold deref at h
  split at h
  · next hcell => exact hcell.trans (congrArg some (Except.ok.inj h))
  · cases h

namespace Server

variable {srv srv' srv'' : Server}

/-- The number of queue positions that hold a message. -/
def holders (srv : Server) (p : MsgPtr) : Nat :=
  srv.clnts.sum fun clnt => clnt.queue.toList.count p

/-- The tables find the live clients and groups, and nothing else. -/
structure Registry (srv : Server) : Prop where
  fd_wf : srv.fd2clnt.WF
  name_wf : srv.name2clnt.WF
  fd_lookup : ∀ fd c, srv.fd2clnt.lookup fd = some c ↔
    ∃ clnt, srv.clnts.cells c = some clnt ∧ clnt.fd = fd
  name_lookup : ∀ name g, srv.name2clnt.lookup name = some g ↔
    ∃ group, srv.groups.cells g = some group ∧ group.name = name

/-- Membership is recorded on both sides, once, and among live objects. -/
structure Membership (srv : Server) : Prop where
  both : ∀ c clnt g group, srv.clnts.cells c = some clnt → srv.groups.cells g = some group →
    (g ∈ clnt.groups.items ↔ c ∈ group.clnts.items)
  groups_nodup : ∀ c clnt, srv.clnts.cells c = some clnt → clnt.groups.items.Nodup
  clnts_nodup : ∀ g group, srv.groups.cells g = some group → group.clnts.items.Nodup
  groups_live : ∀ c clnt g, srv.clnts.cells c = some clnt → g ∈ clnt.groups.items →
    ∃ group, srv.groups.cells g = some group
  clnts_live : ∀ g group c, srv.groups.cells g = some group → c ∈ group.clnts.items →
    ∃ clnt, srv.clnts.cells c = some clnt

/-- A message counts the positions that hold it and `slack` more. Only the message
`new` may have no reference. -/
def Refs (slack : MsgPtr → Nat) (new : Option MsgPtr) (srv : Server) : Prop :=
  srv.msgs.Counted Rcmessage.refs (fun p => srv.holders p + slack p) new

/-- Who waits has an empty queue. -/
def Quiet (srv : Server) : Prop :=
  ∀ c clnt, srv.clnts.cells c = some clnt → clnt.waiting = true → clnt.queue.toList = []

/-- The invariant, within a command that deals with a message `new` if there is one. -/
structure Inv (slack : MsgPtr → Nat) (new : Option MsgPtr) (srv : Server) : Prop where
  registry : srv.Registry
  membership : srv.Membership
  refs : srv.Refs slack new
  quiet : srv.Quiet

/-- An iteration over `fd2clnt` sees the live clients. -/
theorem Registry.mem_clients (h : srv.Registry) {c : ClientPtr} :
    c ∈ srv.fd2clnt.iterate.map Entry.val ↔ ∃ clnt, srv.clnts.cells c = some clnt := by
  rw [Table.mem_iterate_val h.fd_wf.toCore]
  constructor
  · rintro ⟨fd, hfd⟩
    obtain ⟨clnt, hc, _⟩ := (h.fd_lookup fd c).mp hfd
    exact ⟨clnt, hc⟩
  · rintro ⟨clnt, hc⟩
    exact ⟨clnt.fd, (h.fd_lookup clnt.fd c).mpr ⟨clnt, hc, rfl⟩⟩

theorem Registry.clients_nodup (h : srv.Registry) : (srv.fd2clnt.iterate.map Entry.val).Nodup := by
  refine Table.iterate_val_nodup h.fd_wf.toCore fun fd fd' c hfd hfd' => ?_
  obtain ⟨clnt, hc, rfl⟩ := (h.fd_lookup fd c).mp hfd
  obtain ⟨clnt', hc', rfl⟩ := (h.fd_lookup fd' c).mp hfd'
  rw [hc] at hc'
  cases hc'
  rfl

/-- An iteration over `name2clnt` sees the groups. -/
theorem Registry.mem_groups (h : srv.Registry) {g : GroupPtr} :
    g ∈ srv.name2clnt.iterate.map Entry.val ↔ ∃ group, srv.groups.cells g = some group := by
  rw [Table.mem_iterate_val h.name_wf.toCore]
  constructor
  · rintro ⟨name, hname⟩
    obtain ⟨group, hg, _⟩ := (h.name_lookup name g).mp hname
    exact ⟨group, hg⟩
  · rintro ⟨group, hg⟩
    exact ⟨group.name, (h.name_lookup group.name g).mpr ⟨group, hg, rfl⟩⟩

theorem Registry.groups_nodup (h : srv.Registry) :
    (srv.name2clnt.iterate.map Entry.val).Nodup := by
  refine Table.iterate_val_nodup h.name_wf.toCore fun name name' g hname hname' => ?_
  obtain ⟨group, hg, rfl⟩ := (h.name_lookup name g).mp hname
  obtain ⟨group', hg', rfl⟩ := (h.name_lookup name' g).mp hname'
  rw [hg] at hg'
  cases hg'
  rfl

/-- Two groups have different names. -/
theorem Registry.name_inj (h : srv.Registry) {g g' : GroupPtr} {group group' : Group}
    (hg : srv.groups.cells g = some group) (hg' : srv.groups.cells g' = some group')
    (hname : group.name = group'.name) : g = g' := by
  have hlookup := (h.name_lookup group.name g).mpr ⟨group, hg, rfl⟩
  have hlookup' := (h.name_lookup group.name g').mpr ⟨group', hg', hname.symm⟩
  rw [hlookup] at hlookup'
  cases hlookup'
  rfl

/-- Two clients have different descriptors. -/
theorem Registry.fd_inj (h : srv.Registry) {c c' : ClientPtr} {clnt clnt' : Client}
    (hc : srv.clnts.cells c = some clnt) (hc' : srv.clnts.cells c' = some clnt')
    (hfd : clnt.fd = clnt'.fd) : c = c' := by
  have hlookup := (h.fd_lookup clnt.fd c).mpr ⟨clnt, hc, rfl⟩
  have hlookup' := (h.fd_lookup clnt.fd c').mpr ⟨clnt', hc', hfd.symm⟩
  rw [hlookup] at hlookup'
  cases hlookup'
  rfl

/-! ## Steps that keep the tables and the groups -/

/-- Only sockets, queues, waiting flags and messages may have changed. -/
structure Framed (srv srv' : Server) : Prop where
  fd2clnt : srv'.fd2clnt = srv.fd2clnt
  name2clnt : srv'.name2clnt = srv.name2clnt
  groups : srv'.groups = srv.groups
  next : srv'.clnts.next = srv.clnts.next
  clnts : ∀ c, (srv'.clnts.cells c).map (fun clnt => (clnt.fd, clnt.groups)) =
    (srv.clnts.cells c).map fun clnt => (clnt.fd, clnt.groups)

theorem Framed.refl (srv : Server) : srv.Framed srv := ⟨rfl, rfl, rfl, rfl, fun _ => rfl⟩

theorem Framed.trans (h : srv.Framed srv') (h' : srv'.Framed srv'') : srv.Framed srv'' :=
  ⟨h'.fd2clnt.trans h.fd2clnt, h'.name2clnt.trans h.name2clnt, h'.groups.trans h.groups,
    h'.next.trans h.next, fun c => (h'.clnts c).trans (h.clnts c)⟩

theorem Framed.forward (h : srv.Framed srv') {c : ClientPtr} {clnt : Client}
    (hc : srv.clnts.cells c = some clnt) :
    ∃ clnt', srv'.clnts.cells c = some clnt' ∧ clnt'.fd = clnt.fd ∧
      clnt'.groups = clnt.groups := by
  have hsame := h.clnts c
  rw [hc] at hsame
  obtain ⟨clnt', hc', heq⟩ := Option.map_eq_some_iff.mp hsame
  exact ⟨clnt', hc', congrArg Prod.fst heq, congrArg Prod.snd heq⟩

theorem Framed.backward (h : srv.Framed srv') {c : ClientPtr} {clnt' : Client}
    (hc : srv'.clnts.cells c = some clnt') :
    ∃ clnt, srv.clnts.cells c = some clnt ∧ clnt'.fd = clnt.fd ∧
      clnt'.groups = clnt.groups := by
  have hsame := h.clnts c
  rw [hc] at hsame
  obtain ⟨clnt, hc', heq⟩ := Option.map_eq_some_iff.mp hsame.symm
  exact ⟨clnt, hc', (congrArg Prod.fst heq).symm, (congrArg Prod.snd heq).symm⟩

theorem Registry.framed (h : srv.Registry) (hframe : srv.Framed srv') : srv'.Registry := by
  refine ⟨?_, ?_, fun fd c => ?_, fun name g => ?_⟩
  · rw [hframe.fd2clnt]
    exact h.fd_wf
  · rw [hframe.name2clnt]
    exact h.name_wf
  · rw [hframe.fd2clnt, h.fd_lookup]
    constructor
    · rintro ⟨clnt, hc, hfd⟩
      obtain ⟨clnt', hc', hfd', _⟩ := hframe.forward hc
      exact ⟨clnt', hc', hfd'.trans hfd⟩
    · rintro ⟨clnt', hc', hfd⟩
      obtain ⟨clnt, hc, hfd', _⟩ := hframe.backward hc'
      exact ⟨clnt, hc, hfd'.symm.trans hfd⟩
  · rw [hframe.name2clnt, hframe.groups, h.name_lookup]

theorem Membership.framed (h : srv.Membership) (hframe : srv.Framed srv') : srv'.Membership := by
  refine ⟨?_, ?_, ?_, ?_, ?_⟩
  · intro c clnt' g group hc' hg
    obtain ⟨clnt, hc, _, hgroups⟩ := hframe.backward hc'
    rw [hgroups]
    exact h.both c clnt g group hc (hframe.groups ▸ hg)
  · intro c clnt' hc'
    obtain ⟨clnt, hc, _, hgroups⟩ := hframe.backward hc'
    rw [hgroups]
    exact h.groups_nodup c clnt hc
  · rw [hframe.groups]
    exact h.clnts_nodup
  · intro c clnt' g hc' hg
    obtain ⟨clnt, hc, _, hgroups⟩ := hframe.backward hc'
    rw [hframe.groups]
    exact h.groups_live c clnt g hc (hgroups ▸ hg)
  · intro g group c hg hmem
    obtain ⟨clnt, hc⟩ := h.clnts_live g group c (hframe.groups ▸ hg) hmem
    obtain ⟨clnt', hc', _⟩ := hframe.forward hc
    exact ⟨clnt', hc'⟩

/-- Changing a client apart from its descriptor and its groups. -/
theorem framed_setClient {c : ClientPtr} {clnt : Client} (clnt' : Client)
    (hc : srv.clnts.cells c = some clnt) (hfd : clnt'.fd = clnt.fd)
    (hgroups : clnt'.groups = clnt.groups) : srv.Framed (srv.setClient c clnt') := by
  refine ⟨rfl, rfl, rfl, rfl, fun c' => ?_⟩
  rcases eq_or_ne c' c with rfl | hne
  · rw [setClient, Heap.cells_write_self hc, hc, Option.map_some, Option.map_some, hfd, hgroups]
  · rw [setClient, Heap.cells_write_of_ne hne]

@[simp] theorem setClient_msgs (c : ClientPtr) (clnt : Client) :
    (srv.setClient c clnt).msgs = srv.msgs := rfl

theorem setClient_self {c : ClientPtr} {clnt clnt' : Client}
    (hc : srv.clnts.cells c = some clnt) :
    (srv.setClient c clnt').clnts.cells c = some clnt' := Heap.cells_write_self hc

theorem setClient_of_ne {c c' : ClientPtr} (clnt : Client) (hne : c' ≠ c) :
    (srv.setClient c clnt).clnts.cells c' = srv.clnts.cells c' := Heap.cells_write_of_ne hne

/-- Changing a client changes the holders of a message by what changes in the
client's queue. -/
theorem holders_setClient {c : ClientPtr} {clnt : Client} (clnt' : Client)
    (hc : srv.clnts.cells c = some clnt) (p : MsgPtr) :
    (srv.setClient c clnt').holders p + clnt.queue.toList.count p =
      srv.holders p + clnt'.queue.toList.count p :=
  Heap.sum_write _ hc

theorem Refs.setClient {slack : MsgPtr → Nat} {new : Option MsgPtr} (h : srv.Refs slack new)
    {c : ClientPtr} {clnt clnt' : Client} (hc : srv.clnts.cells c = some clnt)
    (hqueue : clnt'.queue = clnt.queue) : (srv.setClient c clnt').Refs slack new := by
  have hholders : (srv.setClient c clnt').holders = srv.holders := by
    funext p
    have hsum := holders_setClient clnt' hc p
    rw [hqueue] at hsum
    omega
  rw [Refs, hholders]
  exact h

/-- A queued message is held. -/
theorem holders_pos {c : ClientPtr} {clnt : Client} (hc : srv.clnts.cells c = some clnt)
    {p : MsgPtr} (hp : p ∈ clnt.queue.toList) : 0 < srv.holders p := by
  have hle : clnt.queue.toList.count p ≤ srv.holders p :=
    Heap.le_sum (fun clnt => clnt.queue.toList.count p) hc
  have hpos := List.count_pos_iff.mpr hp
  omega

/-- A queued message is live. -/
theorem Refs.live {slack : MsgPtr → Nat} {new : Option MsgPtr} (h : srv.Refs slack new)
    {c : ClientPtr} {clnt : Client} (hc : srv.clnts.cells c = some clnt) {p : MsgPtr}
    (hp : p ∈ clnt.queue.toList) : ∃ msg, srv.msgs.cells p = some msg :=
  Heap.Counted.live h (Nat.add_pos_left (holders_pos hc hp) _)

theorem Quiet.setClient (h : srv.Quiet) {c : ClientPtr} {clnt : Client}
    (hquiet : clnt.waiting = true → clnt.queue.toList = []) : (srv.setClient c clnt).Quiet := by
  intro c' clnt' hc' hwaiting
  rcases eq_or_ne c' c with rfl | hne
  · cases hc : srv.clnts.cells c' with
    | none =>
        have hnone : (srv.clnts.write c' clnt).cells c' = none := Heap.write_eq_none_iff.mpr hc
        rw [Server.setClient, hnone] at hc'
        cases hc'
    | some old =>
        rw [setClient_self hc] at hc'
        cases hc'
        exact hquiet hwaiting
  · rw [setClient_of_ne clnt hne] at hc'
    exact h c' clnt' hc' hwaiting

/-! ## The initial state -/

theorem init_inv (hinit : init (fun _ => true) = some srv) : srv.Inv (fun _ => 0) none := by
  obtain ⟨hfd, hfdEmpty⟩ := Table.init_wf (K := Nat) (V := ClientPtr) cmpFd_eq_zero_iff
    (show Table.init true cmpFd hashFd = some _ from rfl)
  obtain ⟨hname, hnameEmpty⟩ := Table.init_wf (K := String) (V := GroupPtr) cmpName_eq_zero_iff
    (show Table.init true cmpName hashName = some _ from rfl)
  cases hinit
  refine ⟨⟨hfd, hname, fun fd c => ?_, fun name g => ?_⟩,
    ⟨?_, ?_, ?_, ?_, ?_⟩, .empty, ?_⟩
  · rw [(Table.lookup_eq_none_iff hfd.toCore).mpr]
    · simp
    · rw [hfdEmpty]
      simp
  · rw [(Table.lookup_eq_none_iff hname.toCore).mpr]
    · simp
    · rw [hnameEmpty]
      simp
  all_goals simp [Quiet]

end Server

end Dime
