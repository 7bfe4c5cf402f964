import Dime.Server.HubDelivery
import Dime.Server.Run

/-!
# Runs on the hub

Connections come and go on the hub as they do on the server, and every run of the
server is one of the hub. The server leaks where a client leaves with a full queue:
the iteration over the queue then sees nothing, and its references stay.
-/

namespace Dime

variable (jansson : Jansson Json)

/-- What an event does on the hub. -/
def Hub.Acts (hub : Hub) : Action → Hub → Prop
  | .accept fd ws, hub' => hub' = hub.accept fd ws
  | .find _, hub' => hub' = hub
  | .command c jsondata bindata, hub' => hub.Handles jansson c jsondata bindata hub'
  | .transfer c sock, hub' => hub' = hub.update (· = c) fun peer =>
      { peer with
        wbuf := sock.wbuf.toList, rbuf := sock.rbuf.toList, ws := sock.ws.map Ring.toList
        ev := sock.ev }
  | .close c, hub' => hub' = hub.close c

namespace Server

variable {srv : Server} {slack : MsgPtr → Nat} {new : Option MsgPtr} {c : ClientPtr}
  {clnt : Client}

/-! ## New connections -/

theorem clientInit_true (fd : Nat) (ws : Bool) : ∃ clnt,
    clientInit (fun _ => true) fd ws = some clnt ∧ clnt.fd = fd ∧ clnt.waiting = false ∧
      clnt.groups.items = [] ∧ clnt.queue.toList = [] ∧
      ∀ content, clnt.view content = ⟨fd, false, [], [], [], [], if ws then some [] else none, none⟩ := by
  refine ⟨_, rfl, rfl, rfl, rfl, rfl, fun content => ?_⟩
  cases ws <;> rfl

/-- A new client is in no group. -/
theorem Membership.accept (h : srv.Membership) {srv' : Server}
    (hclnts : srv'.clnts = srv.clnts.alloc clnt) (hgroups : srv'.groups = srv.groups)
    (hnone : clnt.groups.items = []) : srv'.Membership := by
  have hclnt : ∀ c' k, srv'.clnts.cells c' = some k →
      (c' = srv.clnts.next ∧ k = clnt) ∨ srv.clnts.cells c' = some k := by
    intro c' k hk
    rw [hclnts] at hk
    exact Heap.cells_alloc_cases hk
  refine ⟨?_, ?_, ?_, ?_, ?_⟩
  · intro c' k g group hk hg
    rw [hgroups] at hg
    rcases hclnt c' k hk with ⟨rfl, rfl⟩ | hold
    · rw [hnone]
      refine ⟨fun hmem => absurd hmem List.not_mem_nil, fun hmem => ?_⟩
      obtain ⟨k, hbad⟩ := h.clnts_live g group _ hg hmem
      rw [srv.clnts.fresh _ le_rfl] at hbad
      cases hbad
    · exact h.both c' k g group hold hg
  · intro c' k hk
    rcases hclnt c' k hk with ⟨_, rfl⟩ | hold
    · rw [hnone]
      exact List.nodup_nil
    · exact h.groups_nodup c' k hold
  · rw [hgroups]
    exact h.clnts_nodup
  · intro c' k g hk hmem
    rw [hgroups]
    rcases hclnt c' k hk with ⟨_, rfl⟩ | hold
    · rw [hnone] at hmem
      cases hmem
    · exact h.groups_live c' k g hold hmem
  · intro g group c' hg hmem
    rw [hgroups] at hg
    obtain ⟨k, hk⟩ := h.clnts_live g group c' hg hmem
    exact ⟨k, hclnts ▸ Heap.cells_alloc_of_some hk⟩

/-- The client of a new connection. Its descriptor is not in use. -/
theorem accept_succeed (h : srv.Inv slack none) (fd : Nat) (ws : Bool)
    (hfd : srv.fd2clnt.lookup fd = none) :
    ∃ srv', srv.accept (fun _ => true) fd ws = .ok (some srv') ∧ srv'.Inv slack none ∧
      srv'.view = srv.view.accept fd ws := by
  obtain ⟨clnt, hinit, hclntFd, hwaiting, hgroups, hqueue, hview⟩ := clientInit_true fd ws
  obtain ⟨fd2clnt, hinsert, hwf, hentries, _, _⟩ :=
    Table.insert_spec h.registry.fd_wf hfd srv.clnts.next
  obtain ⟨hnew, hother⟩ := Table.lookup_of_cons h.registry.fd_wf.toCore hwf.toCore hentries
  refine ⟨{ srv with fd2clnt, clnts := srv.clnts.alloc clnt }, ?_,
    ⟨⟨hwf, h.registry.name_wf, fun fd' c' => ?_, h.registry.name_lookup⟩,
      h.membership.accept rfl rfl hgroups, ?_, ?_⟩, ?_⟩
  · simp only [accept, hinit, hinsert, ended, ok_bind]
    rfl
  · rcases eq_or_ne fd' fd with rfl | hne
    · rw [hnew]
      constructor
      · intro heq
        cases heq
        exact ⟨clnt, Heap.cells_alloc_self, hclntFd⟩
      · rintro ⟨k, hk, hkfd⟩
        rcases Heap.cells_alloc_cases hk with ⟨rfl, _⟩ | hold
        · rfl
        · have hbad := (h.registry.fd_lookup fd' c').mpr ⟨k, hold, hkfd⟩
          rw [hfd] at hbad
          cases hbad
    · rw [hother fd' hne, h.registry.fd_lookup]
      refine exists_congr fun k => ⟨fun hold => ⟨Heap.cells_alloc_of_some hold.1, hold.2⟩, ?_⟩
      rintro ⟨hk, hkfd⟩
      rcases Heap.cells_alloc_cases hk with ⟨_, rfl⟩ | hold
      · exact absurd (hkfd.symm.trans hclntFd) hne
      · exact ⟨hold, hkfd⟩
  · have hheld : (fun p => (srv.clnts.alloc clnt).sum (fun k => k.queue.toList.count p) + slack p) =
        fun p => srv.holders p + slack p := by
      funext p
      rw [Heap.sum_alloc, hqueue, List.count_nil, Nat.add_zero]
      rfl
    have hrefs := h.refs
    rw [Refs, ← hheld] at hrefs
    exact hrefs
  · intro c' k hk hwait
    rcases Heap.cells_alloc_cases hk with ⟨_, rfl⟩ | hold
    · exact hqueue
    · exact h.quiet c' k hold hwait
  · refine Hub.ext (funext fun c' => ?_) rfl rfl rfl rfl
    change ((srv.clnts.alloc clnt).cells c').map (Client.view srv.content) =
      Function.update srv.view.peers srv.clnts.next _ c'
    rcases eq_or_ne c' srv.clnts.next with rfl | hne
    · rw [Heap.cells_alloc_self, Function.update_self, Option.map_some, hview]
    · rw [Heap.cells_alloc_of_ne hne, Function.update_of_ne hne]
      rfl

/-! ## Closing -/

/-- What the loop over the groups of a client leaves of the groups. -/
structure Left (c : ClientPtr) (gs : List GroupPtr) (groups groups' : Heap Group) : Prop where
  none_iff : ∀ g, groups'.cells g = none ↔ groups.cells g = none
  some : ∀ g group', groups'.cells g = some group' → ∃ group, groups.cells g = some group ∧
    group'.name = group.name ∧ group'.clnts.items.Nodup ∧
    ∀ c', c' ∈ group'.clnts.items ↔ c' ∈ group.clnts.items ∧ ¬ (c' = c ∧ g ∈ gs)

theorem live_of_left {gs : List GroupPtr} {groups groups' : Heap Group} (hleft : Left c gs groups groups')
    {g : GroupPtr} {group : Group} (hg : groups.cells g = some group) :
    ∃ group', groups'.cells g = some group' := by
  cases hnew : groups'.cells g with
  | some group' => exact ⟨group', rfl⟩
  | none =>
      have hbad := (hleft.none_iff g).mp hnew
      rw [hg] at hbad
      cases hbad

/-- One group after the other. -/
theorem Left.cons {g : GroupPtr} {gs : List GroupPtr} {groups mid groups' : Heap Group}
    (h : Left c [g] groups mid) (hrest : Left c gs mid groups') : Left c (g :: gs) groups groups' := by
  refine ⟨fun g' => (hrest.none_iff g').trans (h.none_iff g'), fun g' group' hg' => ?_⟩
  obtain ⟨now, hnow, hname, hnd, hmem⟩ := hrest.some g' group' hg'
  obtain ⟨old, hold, hname', _, hmem'⟩ := h.some g' now hnow
  refine ⟨old, hold, hname.trans hname', hnd, fun c' => ?_⟩
  rw [hmem, hmem', List.mem_singleton, List.mem_cons]
  constructor
  · rintro ⟨⟨hin, hnot⟩, hrest⟩
    refine ⟨hin, ?_⟩
    rintro ⟨rfl, rfl | hg'⟩
    · exact hnot ⟨rfl, rfl⟩
    · exact hrest ⟨rfl, hg'⟩
  · rintro ⟨hin, hnot⟩
    exact ⟨⟨hin, fun hboth => hnot ⟨hboth.1, .inl hboth.2⟩⟩,
      fun hboth => hnot ⟨hboth.1, .inr hboth.2⟩⟩

/-- A group that does not have the client stays. -/
theorem left_absent {g : GroupPtr} {group : Group} (hg : srv.groups.cells g = some group)
    (hnodup : ∀ g group, srv.groups.cells g = some group → group.clnts.items.Nodup)
    (hnot : c ∉ group.clnts.items) : Left c [g] srv.groups srv.groups := by
  refine ⟨fun _ => Iff.rfl, fun g' group' hg' => ⟨group', hg', rfl, hnodup g' group' hg', fun c' => ?_⟩⟩
  refine (and_iff_left_of_imp ?_).symm
  rintro hin ⟨rfl, hmem⟩
  cases List.mem_singleton.mp hmem
  cases hg.symm.trans hg'
  exact hnot hin

/-- The client is taken out of a group by swapping the last one in. -/
theorem left_removed {g : GroupPtr} {group : Group} (hg : srv.groups.cells g = some group)
    (hnodup : ∀ g group, srv.groups.cells g = some group → group.clnts.items.Nodup) {j : Nat}
    (hget : group.clnts.items[j]? = some c) :
    Left c [g] srv.groups (srv.setGroup g { group with clnts := group.clnts.removeAt j }).groups := by
  have hgroup := hnodup g group hg
  refine ⟨fun g' => Heap.write_eq_none_iff, fun g' group' hg' => ?_⟩
  rcases eq_or_ne g' g with rfl | hne
  · rw [setGroup_self hg] at hg'
    cases hg'
    exact ⟨group, hg, rfl, GrowArray.nodup_swapRemove hgroup hget, fun c' => by
      simp [GrowArray.mem_swapRemove_iff hgroup hget]⟩
  · rw [setGroup_of_ne hne] at hg'
    exact ⟨group', hg', rfl, hnodup g' group' hg', fun c' => by simp [hne]⟩

theorem leaveAll_eq (gs : List GroupPtr)
    (hlive : ∀ g ∈ gs, ∃ group, srv.groups.cells g = some group)
    (hnodup : ∀ g group, srv.groups.cells g = some group → group.clnts.items.Nodup) :
    ∃ groups, leaveAll c gs srv = .ok { srv with groups } ∧ Left c gs srv.groups groups := by
  induction gs generalizing srv with
  | nil =>
      exact ⟨srv.groups, rfl, fun _ => Iff.rfl, fun g group hg =>
        ⟨group, hg, rfl, hnodup g group hg, fun c' => by simp⟩⟩
  | cons g rest ih =>
      obtain ⟨group, hg⟩ := hlive g List.mem_cons_self
      have hrest : ∀ g' ∈ rest, ∃ group, srv.groups.cells g' = some group :=
        fun g' hg' => hlive g' (List.mem_cons_of_mem _ hg')
      rw [leaveAll, deref_some hg, ok_bind]
      cases hfind : group.clnts.items.findIdx? (· = c) with
      | none =>
          have hnot : c ∉ group.clnts.items := fun hmem => by
            obtain ⟨j, hj, _⟩ := findIdx_mem hmem
            rw [hfind] at hj
            cases hj
          obtain ⟨groups, hrun, hleft⟩ := ih hrest hnodup
          exact ⟨groups, hrun, (left_absent hg hnodup hnot).cons hleft⟩
      | some j =>
          obtain ⟨hlt, hj, _⟩ := List.findIdx?_eq_some_iff_getElem.mp hfind
          have hfirst := left_removed hg hnodup
            (List.getElem?_eq_some_iff.mpr ⟨hlt, by simpa using hj⟩)
          obtain ⟨groups, hrun, hleft⟩ := @ih
            (srv.setGroup g { group with clnts := group.clnts.removeAt j })
            (fun g' hg' => by
              obtain ⟨old, hold⟩ := hrest g' hg'
              exact live_of_left hfirst hold)
            (fun g' group' hg' => by
              obtain ⟨_, _, _, hnd, _⟩ := hfirst.some g' group' hg'
              exact hnd)
          exact ⟨groups, hrun, hfirst.cons hleft⟩

/-- What a group is left with once a client has left all of its groups. -/
theorem cells_of_left (h : srv.Membership) (hc : srv.clnts.cells c = some clnt) {groups : Heap Group}
    (hleft : Left c clnt.groups.items srv.groups groups) {g : GroupPtr} {group' : Group}
    (hg' : groups.cells g = some group') :
    ∃ group, srv.groups.cells g = some group ∧ group'.name = group.name ∧
      group'.clnts.items.Nodup ∧ ∀ c', c' ∈ group'.clnts.items ↔ c' ∈ group.clnts.items ∧ c' ≠ c := by
  obtain ⟨group, hg, hname, hnd, hmem⟩ := hleft.some g group' hg'
  refine ⟨group, hg, hname, hnd, fun c' => (hmem c').trans ?_⟩
  refine and_congr_right fun hin => ⟨fun hnot heq => hnot ⟨heq, ?_⟩, fun hne hbad => hne hbad.1⟩
  exact (h.both c clnt g group hc hg).mpr (heq ▸ hin)

/-- A client that has left its groups can go. -/
theorem Membership.close (h : srv.Membership) (hc : srv.clnts.cells c = some clnt) {srv' : Server}
    (hclnts : srv'.clnts = srv.clnts.free c)
    (hleft : Left c clnt.groups.items srv.groups srv'.groups) : srv'.Membership := by
  have hfree : ∀ c' k, srv'.clnts.cells c' = some k → c' ≠ c ∧ srv.clnts.cells c' = some k := by
    intro c' k hk
    rw [hclnts] at hk
    exact Heap.cells_free_cases hk
  refine ⟨?_, ?_, ?_, ?_, ?_⟩
  · intro c' k g group' hk hg'
    obtain ⟨hne, hold⟩ := hfree c' k hk
    obtain ⟨group, hg, _, _, hmem⟩ := cells_of_left h hc hleft hg'
    rw [hmem, h.both c' k g group hold hg]
    exact ⟨fun hin => ⟨hin, hne⟩, fun hin => hin.1⟩
  · intro c' k hk
    exact h.groups_nodup c' k (hfree c' k hk).2
  · intro g group' hg'
    obtain ⟨_, _, _, hnd, _⟩ := cells_of_left h hc hleft hg'
    exact hnd
  · intro c' k g hk hmem
    obtain ⟨group, hg⟩ := h.groups_live c' k g (hfree c' k hk).2 hmem
    exact live_of_left hleft hg
  · intro g group' c' hg' hmem
    obtain ⟨group, hg, _, _, hmem'⟩ := cells_of_left h hc hleft hg'
    obtain ⟨hin, hne⟩ := (hmem' c').mp hmem
    obtain ⟨k, hk⟩ := h.clnts_live g group c' hg hin
    exact ⟨k, hclnts ▸ (Heap.cells_free_of_ne hne).trans hk⟩

/-- Dropping the references of a list of messages. -/
theorem unrefAll_eq (ps : List MsgPtr) {held : MsgPtr → Nat}
    (h : srv.msgs.Counted Rcmessage.refs held new) (hle : ∀ p, ps.count p ≤ held p) :
    ∃ msgs, unrefAll ps srv = .ok (srv.setMsgs msgs) ∧
      msgs.Counted Rcmessage.refs (fun p => held p - ps.count p) new ∧
      msgs.next = srv.msgs.next ∧
      ∀ q, 0 < held q - ps.count q → (srv.setMsgs msgs).content q = srv.content q := by
  induction ps generalizing srv held with
  | nil => exact ⟨srv.msgs, rfl, by simpa using h, rfl, fun _ _ => rfl⟩
  | cons p rest ih =>
      have hp : 0 < held p := by
        have := hle p
        rw [List.count_cons_self] at this
        omega
      obtain ⟨mid, hrun, hmid, hnext, hcontent⟩ := unref_eq h hp
      have hupdate : ∀ q, Function.update held p (held p - 1) q - rest.count q =
          held q - (p :: rest).count q := by
        intro q
        rcases eq_or_ne q p with rfl | hne
        · rw [Function.update_self, List.count_cons_self]
          omega
        · rw [Function.update_of_ne hne, List.count_cons_of_ne hne.symm]
      obtain ⟨msgs, hrun', hrest, hnext', hcontent'⟩ := @ih (srv.setMsgs mid) _ hmid
        (fun q => by
          have hq := hle q
          rcases eq_or_ne q p with rfl | hne
          · rw [List.count_cons_self] at hq
            rw [Function.update_self]
            omega
          · rw [List.count_cons_of_ne hne.symm] at hq
            rwa [Function.update_of_ne hne])
      simp only [hupdate] at hrest hcontent'
      refine ⟨msgs, ?_, hrest, hnext'.trans hnext, fun q hq => ?_⟩
      · rw [unrefAll, hrun, ok_bind]
        exact hrun'
      · refine (hcontent' q hq).trans (hcontent q ?_)
        have := hupdate q
        omega

/-- The references of a closed client: dropped for what the iteration of its queue sees, which is
nothing of a full queue, and left behind for the rest. -/
theorem holders_close (hc : srv.clnts.cells c = some clnt) (p : MsgPtr) :
    srv.holders p = (srv.clnts.free c).sum (fun k => k.queue.toList.count p) +
      (if clnt.queue.Full then clnt.queue.toList.count p else 0) +
      (if clnt.queue.Full then [] else clnt.queue.toList).count p := by
  have hsum := Heap.sum_free (fun k : Client => k.queue.toList.count p) hc
  rw [holders, ← hsum]
  split
  next => rw [List.count_nil, Nat.add_zero]
  next => rw [Nat.add_zero]

theorem Registry.close (h : srv.Registry) (hm : srv.Membership) (hc : srv.clnts.cells c = some clnt)
    {srv' : Server} {fd2clnt : Table Nat ClientPtr} (hwf : fd2clnt.WF)
    (hnone : fd2clnt.lookup clnt.fd = none)
    (hother : ∀ fd, fd ≠ clnt.fd → fd2clnt.lookup fd = srv.fd2clnt.lookup fd)
    (hfd2clnt : srv'.fd2clnt = fd2clnt) (hname2clnt : srv'.name2clnt = srv.name2clnt)
    (hclnts : srv'.clnts = srv.clnts.free c)
    (hleft : Left c clnt.groups.items srv.groups srv'.groups) : srv'.Registry := by
  refine ⟨hfd2clnt ▸ hwf, hname2clnt ▸ h.name_wf, fun fd c' => ?_, fun name g => ?_⟩
  · rw [hfd2clnt, hclnts]
    rcases eq_or_ne fd clnt.fd with rfl | hne
    · rw [hnone]
      refine ⟨fun hbad => absurd hbad (Option.some_ne_none _).symm, ?_⟩
      rintro ⟨k, hk, hfd⟩
      obtain ⟨hne, hold⟩ := Heap.cells_free_cases hk
      exact absurd (h.fd_inj hold hc hfd) hne
    · rw [hother fd hne, h.fd_lookup]
      refine exists_congr fun k => ⟨?_, fun hgone => ⟨(Heap.cells_free_cases hgone.1).2, hgone.2⟩⟩
      rintro ⟨hk, hfd⟩
      refine ⟨?_, hfd⟩
      rw [Heap.cells_free_of_ne, hk]
      rintro rfl
      rw [hc] at hk
      cases hk
      exact hne hfd.symm
  · rw [hname2clnt, h.name_lookup]
    constructor
    · rintro ⟨group, hg, hname⟩
      obtain ⟨group', hg'⟩ := live_of_left hleft hg
      obtain ⟨old, hold, hname', _⟩ := cells_of_left hm hc hleft hg'
      cases hg.symm.trans hold
      exact ⟨group', hg', hname'.trans hname⟩
    · rintro ⟨group', hg', hname⟩
      obtain ⟨group, hg, hname', _⟩ := cells_of_left hm hc hleft hg'
      exact ⟨group, hg, hname'.symm.trans hname⟩

/-- What is seen of a server without the client, while the messages that queues still hold are as
they were. -/
theorem view_close (hm : srv.Membership) (hc : srv.clnts.cells c = some clnt) {srv' : Server}
    (hclnts : srv'.clnts = srv.clnts.free c)
    (hleft : Left c clnt.groups.items srv.groups srv'.groups)
    (hserialization : srv'.serialization = srv.serialization) (hnext : srv'.msgs.next = srv.msgs.next)
    (hcontent : ∀ p, 0 < (srv.clnts.free c).sum (fun k => k.queue.toList.count p) →
      srv'.content p = srv.content p) : srv'.view = srv.view.close c := by
  have hnextClient : srv'.clnts.next = srv.clnts.next := by
    rw [hclnts]
    rfl
  refine Hub.ext (funext fun c' => ?_) (funext fun c' => funext fun name => propext ?_)
    hserialization hnextClient hnext
  · change (srv'.clnts.cells c').map (Client.view _) = Function.update srv.view.peers c none c'
    rw [hclnts]
    rcases eq_or_ne c' c with rfl | hne
    · rw [Heap.cells_free_self, Function.update_self, Option.map_none]
    · rw [Heap.cells_free_of_ne hne, Function.update_of_ne hne, view_peers]
      cases hk : srv.clnts.cells c' with
      | none => rfl
      | some k =>
          refine congrArg some (Client.view_congr fun p hp => hcontent p ?_)
          exact (List.count_pos_iff.mpr hp).trans_le (Heap.le_sum
            (fun k : Client => k.queue.toList.count p) ((Heap.cells_free_of_ne hne).trans hk))
  · constructor
    · rintro ⟨g, group', hg', hname, hmem⟩
      obtain ⟨group, hg, hname', _, hmem'⟩ := cells_of_left hm hc hleft hg'
      obtain ⟨hin, hne⟩ := (hmem' c').mp hmem
      exact ⟨⟨g, group, hg, hname'.symm.trans hname, hin⟩, hne⟩
    · rintro ⟨⟨g, group, hg, hname, hin⟩, hne⟩
      obtain ⟨group', hg'⟩ := live_of_left hleft hg
      obtain ⟨old, hold, hname', _, hmem'⟩ := cells_of_left hm hc hleft hg'
      cases hg.symm.trans hold
      exact ⟨g, group', hg', hname'.trans hname, (hmem' c').mpr ⟨hin, hne⟩⟩

/-- A client goes, and with it what the iteration of its queue sees. References are left behind
where its queue is full. -/
theorem destroy_spec (hm : srv.Membership) (hrefs : srv.Refs slack none)
    (hc : srv.clnts.cells c = some clnt) :
    ∃ groups msgs, srv.destroy c = .ok { srv with groups, msgs, clnts := srv.clnts.free c } ∧
      Left c clnt.groups.items srv.groups groups ∧
      Refs (fun p => slack p + if clnt.queue.Full then clnt.queue.toList.count p else 0) none
        { srv with groups, msgs, clnts := srv.clnts.free c } ∧
      msgs.next = srv.msgs.next ∧
      ∀ p, 0 < (srv.clnts.free c).sum (fun k => k.queue.toList.count p) →
        (srv.setMsgs msgs).content p = srv.content p := by
  obtain ⟨groups, hleave, hleft⟩ := leaveAll_eq clnt.groups.items
    (fun g hg => hm.groups_live c clnt g hc hg) hm.clnts_nodup
  have hholders := holders_close hc
  generalize hps : (if clnt.queue.Full then [] else clnt.queue.toList) = ps at hholders
  obtain ⟨msgs, hunref, hcounted, hnext, hcontent⟩ := @unrefAll_eq
    { srv with groups } none ps (fun p => srv.holders p + slack p) hrefs (fun p => by
      have := hholders p
      omega)
  have hheld : (fun p => srv.holders p + slack p - ps.count p) = fun p =>
      (srv.clnts.free c).sum (fun k => k.queue.toList.count p) + (slack p +
        if clnt.queue.Full then clnt.queue.toList.count p else 0) := by
    funext p
    have := hholders p
    omega
  refine ⟨groups, msgs, ?_, hleft, ?_, hnext, fun p hpos => hcontent p ?_⟩
  · have hiter : clnt.queue.iterate = some ps := by rw [Queue.iterate_eq, hps]
    simp only [destroy, deref_some hc, ok_bind, hleave, hiter, ended, hunref]
    rfl
  · rw [hheld] at hcounted
    exact hcounted
  · have := hholders p
    omega

/-- Closing a connection takes the client out of the tables, the groups and the
heap. References are left behind where its queue is full. -/
theorem close_succeed (h : srv.Inv slack none) (hc : srv.clnts.cells c = some clnt) :
    ∃ srv', srv.close c = .ok srv' ∧
      srv'.Inv (fun p => slack p + if clnt.queue.Full then clnt.queue.toList.count p else 0) none ∧
      srv'.view = srv.view.close c := by
  obtain ⟨fd2clnt, hremove, hwf, hnone, hother⟩ := Table.remove_spec h.registry.fd_wf clnt.fd
  have hm := h.membership
  obtain ⟨groups, msgs, hdestroy, hleft, hrefs, hnext, hcontent⟩ := @destroy_spec
    { srv with fd2clnt } slack c clnt
    ⟨hm.both, hm.groups_nodup, hm.clnts_nodup, hm.groups_live, hm.clnts_live⟩ h.refs hc
  refine ⟨{ srv with fd2clnt, groups, msgs, clnts := srv.clnts.free c }, ?_,
    ⟨h.registry.close hm hc hwf hnone hother rfl rfl rfl hleft, hm.close hc rfl hleft, hrefs, ?_⟩,
    view_close hm hc rfl hleft rfl hnext hcontent⟩
  · simp only [close, deref_some hc, ok_bind, hremove, ended, hdestroy]
  · intro c' k hk
    exact h.quiet c' k (Heap.cells_free_cases hk).2

/-! ## Events -/

/-- Every command runs through, keeps the invariant and does on the hub what it is
for. -/
theorem dispatch_succeed (h : srv.Inv slack none) (hc : srv.clnts.cells c = some clnt)
    (jsondata : Json) (bindata : Bytes) :
    ∃ ret srv', srv.dispatch jansson .succeed c jsondata bindata = .ok (ret, srv') ∧
      srv'.Inv slack none ∧ srv.view.Handles jansson c jsondata bindata srv'.view := by
  rw [dispatch]
  simp only [Hub.Handles]
  generalize (jsondata.unpackString "command").getD "" = command
  split
  case h_1 => exact handshake_succeed jansson h hc jsondata
  case h_2 => exact join_succeed jansson h hc jsondata
  case h_3 => exact leave_succeed jansson h hc jsondata
  case h_4 => exact send_succeed jansson h hc jsondata bindata
  case h_5 => exact broadcast_succeed jansson h hc jsondata bindata
  case h_6 => exact sync_succeed jansson h hc jsondata
  case h_7 => exact wait_succeed jansson h hc
  case h_8 =>
      obtain ⟨ret, srv', names, hrun, hinv, hnodup, hmem, hview⟩ := devices_succeed jansson h hc
      exact ⟨ret, srv', hrun, hinv, names, hnodup, hmem, hview⟩
  case h_9 =>
      obtain ⟨srv', hrun, hinv, _, hview⟩ := refuse_succeed jansson h hc "Unknown command"
      refine ⟨-1, srv', hrun, hinv, ?_⟩
      repeat' split
      all_goals first | contradiction | exact hview

/-- The references that an event leaves behind. -/
def lostBy (srv : Server) : Action → MsgPtr → Nat
  | .close c, p => (srv.clnts.cells c).elim 0 fun clnt =>
      if clnt.queue.Full then clnt.queue.toList.count p else 0
  | _, _ => 0

theorem lookup_eq_none_of_enabled (h : srv.Inv slack new) {fd : Nat} {ws : Bool}
    (henabled : srv.Enabled (.accept fd ws)) : srv.fd2clnt.lookup fd = none := by
  rw [Table.lookup_eq_none_iff h.registry.fd_wf.toCore]
  rintro entry hentry rfl
  exact henabled (List.mem_map.mpr ⟨entry, Table.mem_iterate.mpr hentry, rfl⟩)

/-- A search may rearrange the table, which is not seen. -/
theorem search_succeed (h : srv.Inv slack new) (fd : Nat) :
    ∃ fd2clnt, srv.fd2clnt.search fd = some (srv.fd2clnt.lookup fd, fd2clnt) ∧
      ({ srv with fd2clnt } : Server).Inv slack new := by
  obtain ⟨fd2clnt, hrun, hwf, hentries⟩ := Table.search_spec h.registry.fd_wf fd
  have hsame := Table.lookup_congr h.registry.fd_wf.toCore hwf.toCore hentries
  have hm := h.membership
  refine ⟨fd2clnt, hrun, ⟨hwf, h.registry.name_wf, fun fd' c => ?_, h.registry.name_lookup⟩,
    ⟨hm.both, hm.groups_nodup, hm.clnts_nodup, hm.groups_live, hm.clnts_live⟩, h.refs, h.quiet⟩
  dsimp only
  rw [hsame]
  exact h.registry.fd_lookup fd' c

/-- No event runs into a fault. Each keeps the invariant, up to the references
that it loses, and acts on the hub. -/
theorem perform_succeed (h : srv.Inv slack none) {action : Action}
    (henabled : srv.Enabled action) :
    ∃ srv', srv.perform jansson action = .ok srv' ∧
      srv'.Inv (fun p => slack p + srv.lostBy action p) none ∧
      srv.view.Acts jansson action srv'.view := by
  cases action with
  | accept fd ws =>
      obtain ⟨srv', hrun, hinv, hview⟩ :=
        accept_succeed h fd ws (lookup_eq_none_of_enabled h henabled)
      exact ⟨srv', by rw [perform, hrun]; rfl, hinv, hview⟩
  | find fd =>
      obtain ⟨fd2clnt, hrun, hinv⟩ := search_succeed h fd
      exact ⟨{ srv with fd2clnt }, by rw [perform, hrun]; rfl, hinv, rfl⟩
  | command c jsondata bindata =>
      obtain ⟨clnt, hc⟩ := h.registry.mem_clients.mp henabled
      obtain ⟨ret, srv', hrun, hinv, hview⟩ := dispatch_succeed jansson h hc jsondata bindata
      exact ⟨srv', by rw [perform, hrun]; rfl, hinv, hview⟩
  | transfer c sock =>
      obtain ⟨clnt, hc, _, _, _⟩ := henabled
      have hframe := framed_setClient { clnt with sock } hc rfl rfl
      exact ⟨srv.setClient c { clnt with sock }, by rw [perform, deref_some hc]; rfl,
        ⟨h.registry.framed hframe, h.membership.framed hframe, h.refs.setClient hc rfl,
          h.quiet.setClient (h.quiet c clnt hc)⟩, view_setClient hc rfl⟩
  | close c =>
      obtain ⟨clnt, hc⟩ := h.registry.mem_clients.mp henabled
      obtain ⟨srv', hrun, hinv, hview⟩ := close_succeed h hc
      refine ⟨srv', hrun, ?_, hview⟩
      simp only [lostBy, hc, Option.elim_some]
      exact hinv

/-- The references that a run has left behind. -/
def lost (history : List (Server × Action)) (p : MsgPtr) : Nat :=
  (history.map fun (srv, action) => srv.lostBy action p).sum

variable {history : List (Server × Action)} {action : Action}

theorem lost_append (p : MsgPtr) :
    lost (history ++ [(srv, action)]) p = lost history p + srv.lostBy action p := by
  simp [lost]

/-- The invariant of every run, up to the references that it has lost. -/
theorem Reaches.inv (h : Reaches jansson history srv) : srv.Inv (lost history) none := by
  obtain ⟨start, hinit, hrun⟩ := h
  induction hrun with
  | nil => exact init_inv hinit
  | @snoc mid srv' history action before henabled hstep ih =>
      obtain ⟨next, hrun, hinv, _⟩ := perform_succeed jansson ih henabled
      rw [hstep] at hrun
      cases hrun
      have hlost : lost (history ++ [(mid, action)]) =
          fun p => lost history p + mid.lostBy action p := funext fun p => lost_append p
      rw [hlost]
      exact hinv

/-- Where a run has come, every further event runs through. -/
theorem Reaches.perform (h : Reaches jansson history srv) (henabled : srv.Enabled action) :
    ∃ srv', srv.perform jansson action = .ok srv' ∧
      Reaches jansson (history ++ [(srv, action)]) srv' ∧
      srv.view.Acts jansson action srv'.view := by
  obtain ⟨srv', hrun, _, hacts⟩ := perform_succeed jansson h.inv henabled
  obtain ⟨start, hinit, hbefore⟩ := h
  exact ⟨srv', hrun, ⟨start, hinit, hbefore.snoc henabled hrun⟩, hacts⟩

/-- Induction over the runs of the server, with what is known of each event. -/
theorem Reaches.induct {P : List (Server × Action) → Server → Prop}
    (hstart : ∀ start, init (fun _ => true) = some start → P [] start)
    (hstep : ∀ history mid action srv', Reaches jansson history mid → P history mid →
      mid.Enabled action → mid.perform jansson action = .ok srv' →
      mid.view.Acts jansson action srv'.view → P (history ++ [(mid, action)]) srv')
    (h : Reaches jansson history srv) : P history srv := by
  obtain ⟨start, hinit, hrun⟩ := h
  induction hrun with
  | nil => exact hstart start hinit
  | @snoc mid srv' history action before henabled hrun ih =>
      have hmid : Reaches jansson history mid := ⟨start, hinit, before⟩
      obtain ⟨next, hnext, _, hacts⟩ := hmid.perform jansson henabled
      rw [hrun] at hnext
      cases hnext
      exact hstep history mid action srv' hmid ih henabled hrun hacts

end Server

end Dime
