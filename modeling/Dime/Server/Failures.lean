import Dime.Server.Calm
import Dime.Server.HubRun
import Dime.Server.TableContents

/-!
# Runs in which allocations fail

What the commands do to the server whichever allocations fail, as far as they run through. The
tables may have lost track of their free slots by then, counts may be off and clients may wait
for nothing; but groups and their clients still know of each other, no client is registered
twice, and no queue holds a message that has not been made yet.
-/

namespace Dime

namespace Server

variable {jansson : Jansson Json} {srv srv' : Server} {c : ClientPtr} {clnt : Client} {alloc : Alloc}

/-! ## The invariant -/

/-- What holds whichever allocations have failed. -/
structure Sturdy (srv : Server) : Prop where
  fd_cap : ∃ m, srv.fd2clnt.cap = 2 ^ m
  name_cap : ∃ m, srv.name2clnt.cap = 2 ^ m
  name_cmp : srv.name2clnt.cmpF = cmpName
  clients_nodup : (srv.fd2clnt.entries.map Entry.val).Nodup
  clients_lt : ∀ entry ∈ srv.fd2clnt.entries, entry.val < srv.clnts.next
  named : ∀ entry ∈ srv.name2clnt.entries, ∃ group, srv.groups.cells entry.val = some group ∧
    group.name = entry.key
  membership : srv.Membership
  queued : ∀ c clnt, srv.clnts.cells c = some clnt → ∀ p ∈ clnt.queue.toList, p < srv.msgs.next

theorem Sturdy.calm (h : srv.Sturdy) (hcalm : srv.Calm srv') : srv'.Sturdy := by
  have hframe := hcalm.framed
  refine ⟨?_, ?_, ?_, ?_, ?_, ?_, h.membership.framed hframe, ?_⟩
  · rw [hframe.fd2clnt]
    exact h.fd_cap
  · rw [hframe.name2clnt]
    exact h.name_cap
  · rw [hframe.name2clnt]
    exact h.name_cmp
  · rw [hframe.fd2clnt]
    exact h.clients_nodup
  · rw [hframe.fd2clnt, hframe.next]
    exact h.clients_lt
  · rw [hframe.name2clnt, hframe.groups]
    exact h.named
  · intro c clnt' hc' p hp
    rcases hcalm.queued c clnt' hc' p hp with hlt | ⟨clnt, hc, hold⟩
    · exact hlt
    · exact (h.queued c clnt hc p hold).trans_le hcalm.next

/-- Membership is a matter of the clients and the groups. -/
theorem Membership.congr (h : srv.Membership) (hclnts : srv'.clnts = srv.clnts)
    (hgroups : srv'.groups = srv.groups) : srv'.Membership := by
  have hboth := h.both
  have hgroups_live := h.groups_live
  have hclnts_live := h.clnts_live
  rw [← hclnts, ← hgroups] at hboth hgroups_live hclnts_live
  exact ⟨hboth, hclnts ▸ h.groups_nodup, hgroups ▸ h.clnts_nodup, hgroups_live, hclnts_live⟩

theorem Sturdy.search (h : srv.Sturdy) {name : String} {found : Option GroupPtr}
    {name2clnt : Table String GroupPtr} (hrun : srv.name2clnt.search name = some (found, name2clnt)) :
    Sturdy { srv with name2clnt } ∧ ∀ g, found = some g →
      ∃ group, srv.groups.cells g = some group ∧ group.name = name := by
  obtain ⟨hsame, hfound⟩ := Table.search_contents h.name_cap hrun
  refine ⟨⟨h.fd_cap, hsame.cap_pow, hsame.cmpF.trans h.name_cmp, h.clients_nodup, h.clients_lt, ?_,
    h.membership.congr rfl rfl, h.queued⟩, ?_⟩
  · intro entry hentry
    rw [hsame.entries] at hentry
    exact h.named entry hentry
  · intro g hg
    obtain ⟨entry, hentry, hcmp, rfl⟩ := hfound g hg
    rw [h.name_cmp, cmpName_eq_zero_iff] at hcmp
    obtain ⟨group, hgroup, hname⟩ := h.named entry hentry
    exact ⟨group, hgroup, hname.trans hcmp.symm⟩

/-! ## join and leave -/

theorem obtainGroup_sturdy (h : srv.Sturdy) {i : Nat} {name : String} {found : Option GroupPtr}
    (hrun : srv.obtainGroup alloc i name = .ok (found, srv')) :
    srv'.Sturdy ∧ srv'.clnts = srv.clnts ∧
      (∀ g old, srv.groups.cells g = some old → srv'.groups.cells g = some old) ∧
      ∀ g, found = some g → ∃ group, srv'.groups.cells g = some group ∧ group.name = name := by
  obtain ⟨⟨there, name2clnt⟩, hsearch, hrun⟩ := bind_eq_ok hrun
  obtain ⟨hsearched, hthere⟩ := h.search (ended_eq_ok hsearch)
  have hnone : ∀ g, (none : Option GroupPtr) = some g → False := fun g heq => by cases heq
  cases there with
  | some g =>
      cases hrun
      exact ⟨hsearched, rfl, fun _ _ hold => hold, fun g' heq => by cases heq; exact hthere g rfl⟩
  | none =>
      dsimp only at hrun
      split at hrun
      · cases hrun
        exact ⟨hsearched, rfl, fun _ _ hold => hold, fun g heq => (hnone g heq).elim⟩
      split at hrun
      · cases hrun
        exact ⟨hsearched, rfl, fun _ _ hold => hold, fun g heq => (hnone g heq).elim⟩
      split at hrun
      · cases hrun
        exact ⟨hsearched, rfl, fun _ _ hold => hold, fun g heq => (hnone g heq).elim⟩
      · obtain ⟨⟨ret, inserted⟩, hinsert, hrun⟩ := bind_eq_ok hrun
        obtain ⟨hcap, hcmp, hentries⟩ := Table.insert_contents hsearched.name_cap (ended_eq_ok hinsert)
        have hcmp' := hcmp.trans hsearched.name_cmp
        dsimp only at hrun
        split at hrun
        next hneg =>
          cases hrun
          refine ⟨⟨h.fd_cap, hcap, hcmp', h.clients_nodup, h.clients_lt, ?_,
            h.membership.congr rfl rfl, h.queued⟩, rfl, fun _ _ hold => hold,
            fun g heq => (hnone g heq).elim⟩
          rcases hentries with ⟨-, hsame⟩ | ⟨hzero, -⟩
          · dsimp only
            rw [hsame]
            exact hsearched.named
          · omega
        next hnonneg =>
          cases hrun
          refine ⟨⟨h.fd_cap, hcap, hcmp', h.clients_nodup, h.clients_lt, ?_,
            h.membership.newGroup rfl rfl, h.queued⟩, rfl, fun _ _ hold => Heap.cells_alloc_of_some hold, ?_⟩
          · rcases hentries with ⟨hneg, -⟩ | ⟨-, hash, hcons⟩
            · exact absurd hneg hnonneg
            · intro entry hentry
              dsimp only at hentry
              rw [hcons] at hentry
              rcases Multiset.mem_cons.mp hentry with rfl | hold
              · exact ⟨_, Heap.cells_alloc_self, rfl⟩
              · obtain ⟨group, hg, hname⟩ := hsearched.named entry hold
                exact ⟨group, Heap.cells_alloc_of_some hg, hname⟩
          · intro g heq
            cases heq
            exact ⟨_, Heap.cells_alloc_self, rfl⟩

/-- Changing a client and a group on both sides. -/
theorem Sturdy.change (h : srv.Sturdy) {g : GroupPtr} {group : Group} (clnt' : Client)
    (group' : Group) (hc : srv.clnts.cells c = some clnt) (hg : srv.groups.cells g = some group)
    (hqueue : clnt'.queue = clnt.queue) (hname : group'.name = group.name)
    (hm : ((srv.setClient c clnt').setGroup g group').Membership) :
    ((srv.setClient c clnt').setGroup g group').Sturdy := by
  refine ⟨h.fd_cap, h.name_cap, h.name_cmp, h.clients_nodup, h.clients_lt, ?_, hm, ?_⟩
  · intro entry hentry
    obtain ⟨old, hold, hnamed⟩ := h.named entry hentry
    rcases eq_or_ne entry.val g with heq | hne
    · rw [heq, hg] at hold
      cases hold
      rw [heq]
      exact ⟨group', Heap.cells_write_self hg, hname.trans hnamed⟩
    · exact ⟨old, (setGroup_of_ne hne).trans hold, hnamed⟩
  · intro c' k hk p hp
    rcases eq_or_ne c' c with rfl | hne
    · have hself : (srv.setClient c' clnt').clnts.cells c' = some clnt' := setClient_self hc
      cases (hself.symm.trans hk)
      rw [hqueue] at hp
      exact h.queued c' clnt hc p hp
    · exact h.queued c' k ((setClient_of_ne clnt' hne).symm.trans hk) p hp

/-- Entering a group of which the client is no member yet. -/
theorem enter_sturdy (h : srv.Sturdy) {i : Nat} {g : GroupPtr} {ok : Bool}
    (hc : srv.clnts.cells c = some clnt) (hnot : g ∉ clnt.groups.items)
    (hrun : srv.enter alloc i c g = .ok (ok, srv')) : srv'.Sturdy := by
  have hm := h.membership
  obtain ⟨clnt', hc', hrun⟩ := bind_eq_ok hrun
  obtain rfl : clnt = clnt' := Option.some.inj (hc.symm.trans (deref_eq_ok hc'))
  cases hgroups : clnt.groups.reserve (alloc.malloc i 5) with
  | none =>
      rw [hgroups] at hrun
      cases hrun
      exact h
  | some groups =>
      have hgroupsItems := GrowArray.reserve_eq_some hgroups
      rw [hgroups] at hrun
      obtain ⟨group, hg, hrun⟩ := bind_eq_ok hrun
      have hg := deref_eq_ok hg
      have hout : c ∉ group.clnts.items := fun hmem => hnot ((hm.both c clnt g group hc hg).mpr hmem)
      cases hclnts : group.clnts.reserve (alloc.malloc i 6) with
      | none =>
          -- the array of the client has more room and holds what it held
          rw [hclnts] at hrun
          cases hrun
          have hsturdy := h.change { clnt with groups := groups.1 } group hc hg rfl rfl
            (hm.change hc hg (by rw [hgroupsItems]; exact hm.groups_nodup c clnt hc)
              (hm.clnts_nodup g group hg) (fun g' _ => by rw [hgroupsItems]) (fun c' _ => Iff.rfl)
              (by rw [hgroupsItems]; exact hm.both c clnt g group hc hg))
          have hsame : (srv.setClient c { clnt with groups := groups.1 }).groups.write g group =
              srv.groups := Heap.write_eq_self hg
          rw [setGroup, hsame] at hsturdy
          exact hsturdy
      | some clnts =>
          have hclntsItems := GrowArray.reserve_eq_some hclnts
          rw [hclnts] at hrun
          cases hrun
          refine h.change { clnt with groups := GrowArray.push groups g }
            { group with clnts := GrowArray.push clnts c } hc hg rfl rfl ?_
          apply hm.change hc hg
          · rw [GrowArray.items_push, hgroupsItems]
            exact (List.nodup_append_comm.mp (List.nodup_cons.mpr ⟨hnot, hm.groups_nodup c clnt hc⟩))
          · rw [GrowArray.items_push, hclntsItems]
            exact (List.nodup_append_comm.mp (List.nodup_cons.mpr ⟨hout, hm.clnts_nodup g group hg⟩))
          · intro g' hne
            simp [hgroupsItems, hne]
          · intro c' hne
            simp [hclntsItems, hne]
          · simp

theorem refuseName_sturdy (h : srv.Sturdy) {reply : ReplyAlloc} {text : String} {ok : Bool}
    (hrun : (do
      let (_, srv) ← srv.refuse jansson reply c text
      return (false, srv) : Except Fault (Bool × Server)) = .ok (ok, srv')) : srv'.Sturdy := by
  obtain ⟨⟨_, final⟩, hrefuse, hlast⟩ := bind_eq_ok hrun
  cases hlast
  exact h.calm (refuse_undisturbed hrefuse).2.calm

/-- The names of `join` keep the invariant one by one. -/
theorem joinName_sturdy (h : srv.Sturdy) {i : Nat} {v : Json} {ok : Bool}
    (hrun : srv.joinName jansson alloc c i v = .ok (ok, srv')) : srv'.Sturdy := by
  cases v with
  | string name =>
      obtain ⟨clnt, hc, hrun⟩ := bind_eq_ok hrun
      have hc := deref_eq_ok hc
      obtain ⟨found, hfind, hrun⟩ := bind_eq_ok hrun
      cases found with
      | some found => exact refuseName_sturdy h hrun
      | none =>
          obtain ⟨⟨obtained, mid⟩, hobtain, hrun⟩ := bind_eq_ok hrun
          -- a group that has just been made stays when the client cannot enter it
          obtain ⟨hmid, hclnts, hkept, hgroup⟩ := obtainGroup_sturdy h hobtain
          cases obtained with
          | none => exact refuseName_sturdy hmid hrun
          | some g =>
              obtain ⟨group, hg, hname⟩ := hgroup g rfl
              -- the client has been searched for a group of that name, so it is not in this one
              have hnot : g ∉ clnt.groups.items := by
                intro hmem
                rcases findNamed_spec name 0 clnt.groups.items
                    (h.membership.groups_live c clnt · hc) with ⟨-, hnone⟩ | ⟨k, _, _, hsome, -⟩
                · obtain ⟨old, hold⟩ := h.membership.groups_live c clnt g hc hmem
                  cases hg.symm.trans (hkept g old hold)
                  exact hnone g hmem group hold hname
                · rw [hfind] at hsome
                  cases hsome
              obtain ⟨⟨entered, final⟩, henter, hrun⟩ := bind_eq_ok hrun
              have hfinal := enter_sturdy hmid (hclnts ▸ hc) hnot henter
              cases entered with
              | true =>
                  cases hrun
                  exact hfinal
              | false => exact refuseName_sturdy hfinal hrun
  | _ => exact refuseName_sturdy h hrun

/-- The names of `leave` as well. -/
theorem leaveName_sturdy (h : srv.Sturdy) {i : Nat} {v : Json} {ok : Bool}
    (hrun : srv.leaveName jansson alloc c i v = .ok (ok, srv')) : srv'.Sturdy := by
  cases v with
  | string name =>
      obtain ⟨clnt, hc, hrun⟩ := bind_eq_ok hrun
      have hc := deref_eq_ok hc
      have hm := h.membership
      rcases findNamed_spec name 0 clnt.groups.items (hm.groups_live c clnt · hc) with
        ⟨hnone, -⟩ | ⟨k, g, group, hsome, hk, hg, -⟩
      · rw [hnone] at hrun
        exact refuseName_sturdy h hrun
      · rw [hsome, Nat.zero_add] at hrun
        have hgroups := hm.groups_nodup c clnt hc
        have hclnts := hm.clnts_nodup g group hg
        cases hfind : group.clnts.items.findIdx? (· = c) with
        | none =>
            simp only [ok_bind, hfind] at hrun
            cases hrun
        | some j =>
            have hmem := (hm.both c clnt g group hc hg).mp (List.mem_of_getElem? hk)
            obtain ⟨j', hfind', hj⟩ := findIdx_mem hmem
            obtain rfl : j = j' := Option.some.inj (hfind.symm.trans hfind')
            simp only [ok_bind, hfind] at hrun
            cases hrun
            refine h.change { clnt with groups := clnt.groups.removeAt k }
              { group with clnts := group.clnts.removeAt j } hc hg rfl rfl ?_
            apply hm.change hc hg
            · exact GrowArray.nodup_swapRemove hgroups hk
            · exact GrowArray.nodup_swapRemove hclnts hj
            · intro g' hne
              simp [GrowArray.mem_swapRemove_iff hgroups hk, hne]
            · intro c' hne
              simp [GrowArray.mem_swapRemove_iff hclnts hj, hne]
            · simp [GrowArray.mem_swapRemove_iff hgroups hk, GrowArray.mem_swapRemove_iff hclnts hj]
  | _ => exact refuseName_sturdy h hrun

theorem eachName_sturdy {handle : Nat → Server → Json → Except Fault (Bool × Server)}
    (hstep : ∀ {srv srv' : Server} {i : Nat} {v : Json} {ok : Bool}, srv.Sturdy →
      handle i srv v = .ok (ok, srv') → srv'.Sturdy)
    (h : srv.Sturdy) {i : Nat} {vs : List Json} {ok : Bool}
    (hrun : eachName handle i vs srv = .ok (ok, srv')) : srv'.Sturdy := by
  induction vs generalizing i srv with
  | nil =>
      cases hrun
      exact h
  | cons v rest ih =>
      obtain ⟨⟨handled, mid⟩, hhandle, hrest⟩ := bind_eq_ok hrun
      have hmid := hstep h hhandle
      cases handled with
      | true => exact ih hmid hrest
      | false =>
          cases hrest
          exact hmid

/-- What follows the loop of `join` and of `leave`. -/
theorem withNames_sturdy {handle : Nat → Server → Json → Except Fault (Bool × Server)}
    (hstep : ∀ {srv srv' : Server} {i : Nat} {v : Json} {ok : Bool}, srv.Sturdy →
      handle i srv v = .ok (ok, srv') → srv'.Sturdy)
    (h : srv.Sturdy) {vs : List Json} {ret : Int}
    (hrun : (do
      let (ok, srv) ← eachName handle 0 vs srv
      if ok then srv.finish jansson alloc c else return (-1, srv)) = .ok (ret, srv')) : srv'.Sturdy := by
  obtain ⟨⟨ok, mid⟩, heach, hrest⟩ := bind_eq_ok hrun
  have hmid := eachName_sturdy hstep h heach
  cases ok with
  | true => exact hmid.calm (finish_undisturbed hrest).calm
  | false =>
      cases hrest
      exact hmid

theorem join_sturdy (h : srv.Sturdy) {jsondata : Json} {ret : Int}
    (hrun : srv.join jansson alloc c jsondata = .ok (ret, srv')) : srv'.Sturdy := by
  rw [join] at hrun
  split at hrun
  · exact h.calm (refuse_undisturbed hrun).2.calm
  · exact withNames_sturdy (fun h hrun => joinName_sturdy h hrun) h hrun

theorem leave_sturdy (h : srv.Sturdy) {jsondata : Json} {ret : Int}
    (hrun : srv.leave jansson alloc c jsondata = .ok (ret, srv')) : srv'.Sturdy := by
  rw [leave] at hrun
  split at hrun
  · exact h.calm (refuse_undisturbed hrun).2.calm
  · exact withNames_sturdy (fun h hrun => leaveName_sturdy h hrun) h hrun

/-! ## Events -/

/-- Every command keeps the invariant, if it runs through. -/
theorem dispatch_sturdy (h : srv.Sturdy) {jsondata : Json} {bindata : Bytes} {ret : Int}
    (hrun : srv.dispatch jansson alloc c jsondata bindata = .ok (ret, srv')) : srv'.Sturdy := by
  rw [dispatch] at hrun
  split at hrun
  · exact h.calm (handshake_undisturbed hrun).calm
  · exact join_sturdy h hrun
  · exact leave_sturdy h hrun
  · rcases send_calm hrun with hcalm | ⟨name, found, name2clnt, hsearch, hcalm⟩
    · exact h.calm hcalm
    · exact (h.search hsearch).1.calm hcalm
  · exact h.calm (broadcast_calm hrun)
  · exact h.calm (sync_calm hrun)
  · exact h.calm (wait_undisturbed hrun).calm
  · exact h.calm (devices_undisturbed hrun).calm
  · exact h.calm (refuse_undisturbed hrun).2.calm

theorem clientInit_eq_some {malloc : Nat → Bool} {fd : Nat} {ws : Bool}
    (h : clientInit malloc fd ws = some clnt) : clnt.groups.items = [] ∧ clnt.queue.toList = [] := by
  rw [clientInit, Queue.init] at h
  split at h
  · cases h
  split at h
  · cases h
  · split at h
    next sock queue _ hqueue =>
      cases h
      split at hqueue
      · cases hqueue
        exact ⟨rfl, rfl⟩
      · cases hqueue
    next => cases h

/-- A new client is known to the table, or destroyed again. -/
theorem accept_sturdy (h : srv.Sturdy) {malloc : Nat → Bool} {fd : Nat} {ws : Bool}
    (hrun : srv.accept malloc fd ws = .ok (some srv')) : srv'.Sturdy := by
  rw [accept] at hrun
  split at hrun
  next => cases hrun
  next clnt hinit =>
    obtain ⟨hgroups, hqueue⟩ := clientInit_eq_some hinit
    obtain ⟨⟨ret, fd2clnt⟩, hinsert, hrun⟩ := bind_eq_ok hrun
    obtain ⟨hcap, -, hentries⟩ := Table.insert_contents h.fd_cap (ended_eq_ok hinsert)
    dsimp only at hrun
    split at hrun
    next hneg =>
      cases hrun
      have hsame : fd2clnt.entries = srv.fd2clnt.entries := by
        rcases hentries with ⟨-, hsame⟩ | ⟨hzero, -⟩
        · exact hsame
        · omega
      refine ⟨hcap, h.name_cap, h.name_cmp, ?_, ?_, h.named, h.membership.congr rfl rfl, h.queued⟩
      · dsimp only
        rw [hsame]
        exact h.clients_nodup
      · dsimp only
        rw [hsame]
        exact h.clients_lt
    next hnonneg =>
      cases hrun
      rcases hentries with ⟨hneg, -⟩ | ⟨-, hash, hcons⟩
      · exact absurd hneg hnonneg
      refine ⟨hcap, h.name_cap, h.name_cmp, ?_, ?_, h.named, h.membership.accept rfl rfl hgroups, ?_⟩
      · dsimp only
        rw [hcons, Multiset.map_cons, Multiset.nodup_cons]
        -- the new client is none of those that have been there
        refine ⟨fun hmem => ?_, h.clients_nodup⟩
        obtain ⟨entry, hentry, heq⟩ := Multiset.mem_map.mp hmem
        exact absurd (h.clients_lt entry hentry) (by rw [heq]; exact Nat.lt_irrefl _)
      · intro entry hentry
        dsimp only at hentry
        rw [hcons] at hentry
        rcases Multiset.mem_cons.mp hentry with rfl | hold
        · exact Nat.lt_succ_self _
        · exact (h.clients_lt entry hold).trans (Nat.lt_succ_self _)
      · intro c' k hk p hp
        rcases Heap.cells_alloc_cases hk with ⟨-, rfl⟩ | hold
        · rw [hqueue] at hp
          cases hp
        · exact h.queued c' k hold p hp

theorem unrefAll_cases {ps : List MsgPtr} (h : unrefAll ps srv = .ok srv') :
    ∃ msgs, srv' = { srv with msgs } ∧ msgs.next = srv.msgs.next := by
  induction ps generalizing srv with
  | nil =>
      cases h
      exact ⟨_, rfl, rfl⟩
  | cons p rest ih =>
      obtain ⟨mid, hunref, hrest⟩ := bind_eq_ok h
      obtain ⟨msgs, rfl, hnext⟩ := ih hrest
      obtain ⟨msg, -, hrun⟩ := bind_eq_ok hunref
      dsimp only at hrun
      split at hrun
      · cases hrun
        exact ⟨msgs, rfl, hnext⟩
      · cases hrun
        exact ⟨msgs, rfl, hnext⟩

/-- A client leaves its groups and the table behind, whatever references it drops. -/
theorem close_sturdy (h : srv.Sturdy) (hrun : srv.close c = .ok srv') : srv'.Sturdy := by
  have hm := h.membership
  obtain ⟨clnt, hc, hrun⟩ := bind_eq_ok hrun
  have hc := deref_eq_ok hc
  obtain ⟨⟨found, fd2clnt⟩, hremove, hrun⟩ := bind_eq_ok hrun
  obtain ⟨hcap, hle⟩ := Table.remove_contents h.fd_cap (ended_eq_ok hremove)
  obtain ⟨clnt', hc', hrun⟩ := bind_eq_ok hrun
  obtain rfl : clnt = clnt' := Option.some.inj (hc.symm.trans (deref_eq_ok hc'))
  obtain ⟨left, hleave, hrun⟩ := bind_eq_ok hrun
  obtain ⟨groups, hgroups, hleft⟩ := @leaveAll_eq { srv with fd2clnt } c clnt.groups.items
    (fun g hg => hm.groups_live c clnt g hc hg) hm.clnts_nodup
  -- the client has left its groups; of the messages only the counts change from here on
  obtain rfl : left = { srv with fd2clnt, groups } := Except.ok.inj (hleave.symm.trans hgroups)
  obtain ⟨ps, -, hrun⟩ := bind_eq_ok hrun
  obtain ⟨dropped, hunref, hrun⟩ := bind_eq_ok hrun
  obtain ⟨msgs, rfl, hnext⟩ := unrefAll_cases hunref
  cases hrun
  refine ⟨hcap, h.name_cap, h.name_cmp, ?_, ?_, ?_, hm.close hc rfl hleft, ?_⟩
  · exact Multiset.nodup_of_le (Multiset.map_le_map hle) h.clients_nodup
  · intro entry hentry
    exact h.clients_lt entry (Multiset.mem_of_le hle hentry)
  · intro entry hentry
    obtain ⟨group, hg, hname⟩ := h.named entry hentry
    obtain ⟨group', hg'⟩ := live_of_left hleft hg
    obtain ⟨old, hold, hsame, -⟩ := cells_of_left hm hc hleft hg'
    cases hg.symm.trans hold
    exact ⟨group', hg', hsame.trans hname⟩
  · intro c' k hk p hp
    dsimp only at hk ⊢
    rw [hnext]
    exact h.queued c' k (Heap.cells_free_cases hk).2 p hp

/-! ## Runs -/

/-- A server that starts has found memory for both of its tables. -/
theorem init_eq_some {malloc : Nat → Bool} (h : init malloc = some srv) :
    init (fun _ => true) = some srv := by
  rw [init, Table.init, Table.init] at h
  cases hfd : malloc 0 with
  | false =>
      rw [hfd] at h
      cases h
  | true =>
      cases hname : malloc 1 with
      | false =>
          rw [hfd, hname] at h
          cases h
      | true =>
          rw [hfd, hname] at h
          exact h

theorem init_sturdy {malloc : Nat → Bool} (h : init malloc = some srv) : srv.Sturdy := by
  have hinit := init_eq_some h
  have hmembership := (init_inv hinit).membership
  obtain ⟨-, hfd⟩ := Table.init_wf (K := Nat) (V := ClientPtr) cmpFd_eq_zero_iff
    (show Table.init true cmpFd hashFd = some _ from rfl)
  obtain ⟨-, hname⟩ := Table.init_wf (K := String) (V := GroupPtr) cmpName_eq_zero_iff
    (show Table.init true cmpName hashName = some _ from rfl)
  cases hinit
  refine ⟨⟨5, rfl⟩, ⟨5, rfl⟩, rfl, ?_, ?_, ?_, hmembership, ?_⟩
  · rw [hfd]
    exact Multiset.nodup_zero
  · intro entry hentry
    rw [hfd] at hentry
    exact absurd hentry (Multiset.notMem_zero entry)
  · intro entry hentry
    rw [hname] at hentry
    exact absurd hentry (Multiset.notMem_zero entry)
  · intro c' k hk
    cases hk

variable (jansson) in
/-- What an event does, with the given outcomes of its allocations; `none` where the event
loop returns. -/
def attempt (malloc : Nat → Bool) (alloc : Alloc) (srv : Server) :
    Action → Except Fault (Option Server)
  | .accept fd ws => srv.accept malloc fd ws
  | .find fd => do
      let (_, fd2clnt) ← ended (srv.fd2clnt.search fd)
      return some { srv with fd2clnt }
  | .command c jsondata bindata => do
      let (_, srv) ← srv.dispatch jansson alloc c jsondata bindata
      return some srv
  | .transfer c sock => do
      let clnt ← deref srv.clnts c
      return some (srv.setClient c { clnt with sock })
  | .close c => do
      let srv ← srv.close c
      return some srv

variable (jansson) in
/-- A state that some run ends in, whichever allocations fail on the way. -/
inductive Reachable : Server → Prop
  | start {malloc : Nat → Bool} {srv : Server} (h : init malloc = some srv) : Reachable srv
  | step {srv srv' : Server} {action : Action} {malloc : Nat → Bool} {alloc : Alloc}
      (before : Reachable srv) (enabled : srv.Enabled action)
      (h : srv.attempt jansson malloc alloc action = .ok (some srv')) : Reachable srv'

/-- Every event keeps the invariant, if it runs through. -/
theorem attempt_sturdy (h : srv.Sturdy) {malloc : Nat → Bool} {action : Action}
    (hrun : srv.attempt jansson malloc alloc action = .ok (some srv')) : srv'.Sturdy := by
  cases action with
  | accept fd ws => exact accept_sturdy h hrun
  | find fd =>
      obtain ⟨⟨found, fd2clnt⟩, hsearch, hrun⟩ := bind_eq_ok hrun
      cases hrun
      have hsame := (Table.search_contents h.fd_cap (ended_eq_ok hsearch)).1
      refine ⟨hsame.cap_pow, h.name_cap, h.name_cmp, ?_, ?_, h.named, h.membership.congr rfl rfl,
        h.queued⟩
      · dsimp only
        rw [hsame.entries]
        exact h.clients_nodup
      · dsimp only
        rw [hsame.entries]
        exact h.clients_lt
  | command c jsondata bindata =>
      obtain ⟨⟨ret, final⟩, hdispatch, hrun⟩ := bind_eq_ok hrun
      cases hrun
      exact dispatch_sturdy h hdispatch
  | transfer c sock =>
      obtain ⟨clnt, hc, hrun⟩ := bind_eq_ok hrun
      cases hrun
      exact h.calm (calm_setClient (deref_eq_ok hc) rfl rfl fun p hp => .inr hp)
  | close c =>
      obtain ⟨final, hclose, hrun⟩ := bind_eq_ok hrun
      cases hrun
      exact close_sturdy h hclose

/-- The invariant holds in every state of a run, whichever allocations fail. -/
theorem Reachable.sturdy (h : Reachable jansson srv) : srv.Sturdy := by
  induction h with
  | start h => exact init_sturdy h
  | step _ _ h ih => exact attempt_sturdy ih h

theorem attempt_of_perform {action : Action} (h : srv.perform jansson action = .ok srv') :
    srv.attempt jansson (fun _ => true) .succeed action = .ok (some srv') := by
  cases action with
  | accept fd ws =>
      obtain ⟨result, haccept, hrun⟩ := bind_eq_ok h
      obtain ⟨clnt, hinit, -⟩ := clientInit_true fd ws
      cases result with
      | some mid =>
          cases hrun
          exact haccept
      | none =>
          rw [accept, hinit] at haccept
          obtain ⟨⟨ret, fd2clnt⟩, -, hbad⟩ := bind_eq_ok haccept
          dsimp only at hbad
          split at hbad
          · cases hbad
          · cases hbad
  | find fd =>
      obtain ⟨result, hsearch, hrun⟩ := bind_eq_ok h
      cases hrun
      exact congrArg (· >>= _) hsearch
  | command c jsondata bindata =>
      obtain ⟨result, hdispatch, hrun⟩ := bind_eq_ok h
      cases hrun
      exact congrArg (· >>= _) hdispatch
  | transfer c sock =>
      obtain ⟨clnt, hc, hrun⟩ := bind_eq_ok h
      cases hrun
      exact congrArg (· >>= _) hc
  | close c => exact congrArg (· >>= _) h

/-- The runs in which no allocation fails are among these. -/
theorem Reaches.reachable {history : List (Server × Action)} (h : Reaches jansson history srv) :
    Reachable jansson srv := by
  obtain ⟨start, hinit, hrun⟩ := h
  induction hrun with
  | nil => exact .start hinit
  | snoc _ enabled step ih => exact .step ih enabled (attempt_of_perform step)

end Server

end Dime
