import Dime.Server.HubPush

/-!
# Joining and leaving on the hub

The arrays of clients and groups change together, and what they show is one
relation between clients and names.
-/

namespace Dime

variable (jansson : Jansson Json)

namespace Server

variable {srv : Server} {slack : MsgPtr → Nat} {new : Option MsgPtr} {c : ClientPtr}
  {g : GroupPtr} {clnt clnt' : Client} {group group' : Group}

/-- A loop over the groups of a client finds the one with the name, if it is there. -/
theorem findNamed_spec {groups : Heap Group} (name : String) (i : Nat) (gs : List GroupPtr)
    (hlive : ∀ g ∈ gs, ∃ group, groups.cells g = some group) :
    (findNamed groups name i gs = .ok none ∧
      ∀ g ∈ gs, ∀ group, groups.cells g = some group → group.name ≠ name) ∨
    ∃ k g group, findNamed groups name i gs = .ok (some (i + k, g, group)) ∧ gs[k]? = some g ∧
      groups.cells g = some group ∧ group.name = name := by
  induction gs generalizing i with
  | nil => exact .inl ⟨rfl, fun g hg => by cases hg⟩
  | cons g rest ih =>
      obtain ⟨group, hgroup⟩ := hlive g List.mem_cons_self
      rw [findNamed, deref_some hgroup, ok_bind]
      by_cases hname : name = group.name
      · right
        exact ⟨0, g, group, if_pos hname, rfl, hgroup, hname.symm⟩
      · rw [if_neg hname]
        rcases ih (i + 1) fun g' hg' => hlive g' (List.mem_cons_of_mem _ hg') with
          ⟨hrun, hnone⟩ | ⟨k, g', group', hrun, hk, hg', hname'⟩
        · refine .inl ⟨hrun, fun g' hg' other hother => ?_⟩
          rcases List.mem_cons.mp hg' with rfl | hg'
          · rw [hgroup] at hother
            cases hother
            exact fun heq => hname heq.symm
          · exact hnone g' hg' other hother
        · exact .inr ⟨k + 1, g', group', by rw [hrun, Nat.add_assoc, Nat.add_comm 1], hk, hg', hname'⟩

/-- The names of a client's groups are those it is a member of. -/
theorem Membership.member_iff (h : srv.Membership) (hc : srv.clnts.cells c = some clnt)
    (name : String) :
    srv.view.member c name ↔ ∃ g ∈ clnt.groups.items, ∃ group,
      srv.groups.cells g = some group ∧ group.name = name := by
  constructor
  · rintro ⟨g, group, hg, hname, hmem⟩
    exact ⟨g, (h.both c clnt g group hc hg).mpr hmem, group, hg, hname⟩
  · rintro ⟨g, hmem, group, hg, hname⟩
    exact ⟨g, group, hg, hname, (h.both c clnt g group hc hg).mp hmem⟩

/-! ## Changing a client and a group together -/

theorem Registry.setClient (h : srv.Registry) (hc : srv.clnts.cells c = some clnt)
    (hfd : clnt'.fd = clnt.fd) : (srv.setClient c clnt').Registry := by
  refine ⟨h.fd_wf, h.name_wf, fun fd c' => ?_, h.name_lookup⟩
  refine (h.fd_lookup fd c').trans ?_
  rcases eq_or_ne c' c with rfl | hne
  · rw [setClient_self hc, hc]
    simp [hfd]
  · rw [setClient_of_ne _ hne]

theorem setGroup_self (hg : srv.groups.cells g = some group) :
    (srv.setGroup g group').groups.cells g = some group' := Heap.cells_write_self hg

theorem setGroup_of_ne {g' : GroupPtr} (hne : g' ≠ g) :
    (srv.setGroup g group').groups.cells g' = srv.groups.cells g' := Heap.cells_write_of_ne hne

theorem Registry.setGroup (h : srv.Registry) (hg : srv.groups.cells g = some group)
    (hname : group'.name = group.name) : (srv.setGroup g group').Registry := by
  refine ⟨h.fd_wf, h.name_wf, h.fd_lookup, fun name g' => ?_⟩
  refine (h.name_lookup name g').trans ?_
  rcases eq_or_ne g' g with rfl | hne
  · rw [setGroup_self hg, hg]
    simp [hname]
  · rw [setGroup_of_ne hne]

/-- Membership survives a change of the pair `c` and `g` that both arrays record. -/
theorem Membership.change (h : srv.Membership) (hc : srv.clnts.cells c = some clnt)
    (hg : srv.groups.cells g = some group) (hgroups : clnt'.groups.items.Nodup)
    (hclnts : group'.clnts.items.Nodup)
    (hout : ∀ g' ≠ g, (g' ∈ clnt'.groups.items ↔ g' ∈ clnt.groups.items))
    (hin : ∀ c' ≠ c, (c' ∈ group'.clnts.items ↔ c' ∈ group.clnts.items))
    (hboth : g ∈ clnt'.groups.items ↔ c ∈ group'.clnts.items) :
    ((srv.setClient c clnt').setGroup g group').Membership := by
  -- each object is the one that was changed or an old one
  have hclient : ∀ c₁ k, ((srv.setClient c clnt').setGroup g group').clnts.cells c₁ = some k →
      (c₁ = c ∧ k = clnt') ∨ (c₁ ≠ c ∧ srv.clnts.cells c₁ = some k) := by
    intro c₁ k hk
    rcases eq_or_ne c₁ c with rfl | hne
    · have hself : (srv.setClient c₁ clnt').clnts.cells c₁ = some clnt' := setClient_self hc
      exact .inl ⟨rfl, Option.some.inj (hk.symm.trans hself)⟩
    · exact .inr ⟨hne, (setClient_of_ne clnt' hne).symm.trans hk⟩
  have hgroup : ∀ g₁ k, ((srv.setClient c clnt').setGroup g group').groups.cells g₁ = some k →
      (g₁ = g ∧ k = group') ∨ (g₁ ≠ g ∧ srv.groups.cells g₁ = some k) := by
    intro g₁ k hk
    rcases eq_or_ne g₁ g with rfl | hne
    · have hself : ((srv.setClient c clnt').setGroup g₁ group').groups.cells g₁ = some group' :=
        Heap.cells_write_self hg
      exact .inl ⟨rfl, Option.some.inj (hk.symm.trans hself)⟩
    · exact .inr ⟨hne, (setGroup_of_ne hne).symm.trans hk⟩
  have hliveClient : ∀ c₁ k, srv.clnts.cells c₁ = some k →
      ∃ k', ((srv.setClient c clnt').setGroup g group').clnts.cells c₁ = some k' := by
    intro c₁ k hk
    rcases eq_or_ne c₁ c with rfl | hne
    · exact ⟨clnt', setClient_self hc⟩
    · exact ⟨k, (setClient_of_ne clnt' hne).trans hk⟩
  have hliveGroup : ∀ g₁ k, srv.groups.cells g₁ = some k →
      ∃ k', ((srv.setClient c clnt').setGroup g group').groups.cells g₁ = some k' := by
    intro g₁ k hk
    rcases eq_or_ne g₁ g with rfl | hne
    · exact ⟨group', Heap.cells_write_self hg⟩
    · exact ⟨k, (setGroup_of_ne hne).trans hk⟩
  refine ⟨?_, ?_, ?_, ?_, ?_⟩
  · intro c₁ k g₁ k' hk hk'
    rcases hclient c₁ k hk with ⟨rfl, rfl⟩ | ⟨hne, hold⟩ <;>
      rcases hgroup g₁ k' hk' with ⟨rfl, rfl⟩ | ⟨hne', hold'⟩
    · exact hboth
    · exact (hout g₁ hne').trans (h.both c₁ clnt g₁ k' hc hold')
    · exact (h.both c₁ k g₁ group hold hg).trans (hin c₁ hne).symm
    · exact h.both c₁ k g₁ k' hold hold'
  · intro c₁ k hk
    rcases hclient c₁ k hk with ⟨rfl, rfl⟩ | ⟨_, hold⟩
    · exact hgroups
    · exact h.groups_nodup c₁ k hold
  · intro g₁ k hk
    rcases hgroup g₁ k hk with ⟨rfl, rfl⟩ | ⟨_, hold⟩
    · exact hclnts
    · exact h.clnts_nodup g₁ k hold
  · intro c₁ k g₁ hk hmem
    rcases hclient c₁ k hk with ⟨rfl, rfl⟩ | ⟨_, hold⟩
    · rcases eq_or_ne g₁ g with rfl | hne
      · exact hliveGroup g₁ group hg
      · obtain ⟨k', hk'⟩ := h.groups_live c₁ clnt g₁ hc ((hout g₁ hne).mp hmem)
        exact hliveGroup g₁ k' hk'
    · obtain ⟨k', hk'⟩ := h.groups_live c₁ k g₁ hold hmem
      exact hliveGroup g₁ k' hk'
  · intro g₁ k c₁ hk hmem
    rcases hgroup g₁ k hk with ⟨rfl, rfl⟩ | ⟨_, hold⟩
    · rcases eq_or_ne c₁ c with rfl | hne
      · exact hliveClient c₁ clnt hc
      · obtain ⟨k', hk'⟩ := h.clnts_live g₁ group c₁ hg ((hin c₁ hne).mp hmem)
        exact hliveClient c₁ k' hk'
    · obtain ⟨k', hk'⟩ := h.clnts_live g₁ k c₁ hold hmem
      exact hliveClient c₁ k' hk'

/-- What a change of one client and one group leaves of the invariant and of the
view: only the membership of that client under that name may differ. -/
theorem Inv.change (h : srv.Inv slack new) (clnt' : Client) (group' : Group)
    (hc : srv.clnts.cells c = some clnt) (hg : srv.groups.cells g = some group)
    (hclnt : clnt' = { clnt with groups := clnt'.groups })
    (hgroup : group' = { group with clnts := group'.clnts })
    (hgroups : clnt'.groups.items.Nodup) (hclnts : group'.clnts.items.Nodup)
    (hout : ∀ g' ≠ g, (g' ∈ clnt'.groups.items ↔ g' ∈ clnt.groups.items))
    (hin : ∀ c' ≠ c, (c' ∈ group'.clnts.items ↔ c' ∈ group.clnts.items))
    (hboth : g ∈ clnt'.groups.items ↔ c ∈ group'.clnts.items) :
    ((srv.setClient c clnt').setGroup g group').Inv slack new ∧
      ((srv.setClient c clnt').setGroup g group').view =
        { srv.view with member := fun c' name =>
            (¬ (c' = c ∧ name = group.name) ∧ srv.view.member c' name) ∨
              (c' = c ∧ name = group.name ∧ c ∈ group'.clnts.items) } := by
  have hfd : clnt'.fd = clnt.fd := by rw [hclnt]
  have hqueue : clnt'.queue = clnt.queue := by rw [hclnt]
  have hwaiting : clnt'.waiting = clnt.waiting := by rw [hclnt]
  have hview : clnt'.view srv.content = clnt.view srv.content := by rw [hclnt]; rfl
  have hname : group'.name = group.name := by rw [hgroup]
  have hquiet : clnt'.waiting = true → clnt'.queue.toList = [] := by
    rw [hwaiting, hqueue]
    exact h.quiet c clnt hc
  have hg' : (srv.setClient c clnt').groups.cells g = some group := hg
  have hrefs := h.refs.setClient hc hqueue
  refine ⟨⟨(h.registry.setClient hc hfd).setGroup hg' hname,
    h.membership.change hc hg hgroups hclnts hout hin hboth,
    hrefs, h.quiet.setClient hquiet⟩, ?_⟩
  have hself : ((srv.setClient c clnt').setGroup g group').groups.cells g = some group' :=
    setGroup_self hg'
  have hother : ∀ g' ≠ g, ((srv.setClient c clnt').setGroup g group').groups.cells g' =
      srv.groups.cells g' := fun g' hne => setGroup_of_ne hne
  refine Hub.ext (funext fun c' => ?_) (funext fun c' => funext fun name => propext ?_) rfl rfl rfl
  · have hsame : (srv.setClient c clnt').view.peers c' = srv.view.peers c' := by
      rw [view_setClient (f := id) hc hview, Hub.update_peers]
      cases srv.view.peers c' with
      | none => rfl
      | some peer => simp
    exact hsame
  · constructor
    · rintro ⟨g', group₁, hg₁, rfl, hmem⟩
      rcases eq_or_ne g' g with rfl | hne
      · rw [hself] at hg₁
        cases hg₁
        rcases eq_or_ne c' c with rfl | hne
        · exact .inr ⟨rfl, hname, hmem⟩
        · exact .inl ⟨fun hboth => hne hboth.1, g', group, hg, hname.symm, (hin c' hne).mp hmem⟩
      · have hold : srv.groups.cells g' = some group₁ := (hother g' hne).symm.trans hg₁
        refine .inl ⟨fun hboth => hne ?_, g', group₁, hold, rfl, hmem⟩
        exact h.registry.name_inj hold hg hboth.2
    · rintro (⟨hnot, g', group₁, hold, rfl, hmem⟩ | ⟨rfl, rfl, hmem⟩)
      · rcases eq_or_ne g' g with rfl | hne
        · rw [hg] at hold
          cases hold
          have hne : c' ≠ c := fun heq => hnot ⟨heq, rfl⟩
          exact ⟨g', group', hself, hname, (hin c' hne).mpr hmem⟩
        · exact ⟨g', group₁, (hother g' hne).trans hold, rfl, hmem⟩
      · exact ⟨g, group', hself, hname, hmem⟩

/-! ## join -/

theorem Registry.search (h : srv.Registry) (name : String) :
    ∃ name2clnt, srv.name2clnt.search name = some (srv.name2clnt.lookup name, name2clnt) ∧
      Registry { srv with name2clnt } ∧
      ∀ name', name2clnt.lookup name' = srv.name2clnt.lookup name' := by
  obtain ⟨name2clnt, hrun, hwf, hentries⟩ := Table.search_spec h.name_wf name
  have hsame : ∀ name', name2clnt.lookup name' = srv.name2clnt.lookup name' :=
    Table.lookup_congr h.name_wf.toCore hwf.toCore hentries
  refine ⟨name2clnt, hrun, ⟨h.fd_wf, hwf, h.fd_lookup, fun name' g => ?_⟩, hsame⟩
  dsimp only
  rw [hsame]
  exact h.name_lookup name' g

theorem Inv.search (h : srv.Inv slack new) (name : String) :
    ∃ name2clnt, srv.name2clnt.search name = some (srv.name2clnt.lookup name, name2clnt) ∧
      Inv slack new { srv with name2clnt } := by
  obtain ⟨name2clnt, hrun, hregistry, _⟩ := h.registry.search name
  have hm := h.membership
  exact ⟨name2clnt, hrun, hregistry,
    ⟨hm.both, hm.groups_nodup, hm.clnts_nodup, hm.groups_live, hm.clnts_live⟩,
    h.refs, h.quiet⟩

/-- A new group has no clients. -/
theorem Membership.newGroup (h : srv.Membership) {srv' : Server} {name : String}
    (hclnts : srv'.clnts = srv.clnts)
    (hgroups : srv'.groups = srv.groups.alloc { name, clnts := .empty }) : srv'.Membership := by
  have hgroup : ∀ g group, srv'.groups.cells g = some group →
      (g = srv.groups.next ∧ group = { name, clnts := .empty }) ∨ srv.groups.cells g = some group := by
    intro g group hg
    rw [hgroups] at hg
    exact Heap.cells_alloc_cases hg
  refine ⟨?_, ?_, ?_, ?_, ?_⟩
  · intro c clnt g group hc hg
    rw [hclnts] at hc
    rcases hgroup g group hg with ⟨rfl, rfl⟩ | hold
    · refine ⟨fun hmem => ?_, fun hmem => by cases hmem⟩
      obtain ⟨group, hbad⟩ := h.groups_live c clnt _ hc hmem
      rw [srv.groups.fresh _ le_rfl] at hbad
      cases hbad
    · exact h.both c clnt g group hc hold
  · rw [hclnts]
    exact h.groups_nodup
  · intro g group hg
    rcases hgroup g group hg with ⟨_, rfl⟩ | hold
    · exact List.nodup_nil
    · exact h.clnts_nodup g group hold
  · intro c clnt g hc hmem
    rw [hclnts] at hc
    obtain ⟨group, hg⟩ := h.groups_live c clnt g hc hmem
    exact ⟨group, hgroups ▸ Heap.cells_alloc_of_some hg⟩
  · intro g group c hg hmem
    rw [hclnts]
    rcases hgroup g group hg with ⟨_, rfl⟩ | hold
    · cases hmem
    · exact h.clnts_live g group c hold hmem

/-- A new group without clients. -/
theorem Inv.newGroup (h : srv.Inv slack new) {name : String}
    (habsent : srv.name2clnt.lookup name = none) :
    ∃ name2clnt, srv.name2clnt.insert true true name srv.groups.next = some (0, name2clnt) ∧
      Inv slack new
        { srv with name2clnt, groups := srv.groups.alloc { name, clnts := .empty } } ∧
      Server.view { srv with name2clnt, groups := srv.groups.alloc { name, clnts := .empty } } =
        srv.view := by
  obtain ⟨name2clnt, hrun, hwf, hentries, _, _⟩ :=
    Table.insert_spec h.registry.name_wf habsent srv.groups.next
  obtain ⟨hnew, hother⟩ := Table.lookup_of_cons h.registry.name_wf.toCore hwf.toCore hentries
  refine ⟨name2clnt, hrun, ⟨⟨h.registry.fd_wf, hwf, h.registry.fd_lookup, fun name' g => ?_⟩,
    h.membership.newGroup rfl rfl, h.refs, h.quiet⟩, ?_⟩
  · rcases eq_or_ne name' name with rfl | hne
    · rw [hnew]
      constructor
      · intro heq
        cases heq
        exact ⟨_, Heap.cells_alloc_self, rfl⟩
      · rintro ⟨group, hg, hname⟩
        rcases Heap.cells_alloc_cases hg with ⟨rfl, _⟩ | hold
        · rfl
        · have hbad := (h.registry.name_lookup name' g).mpr ⟨group, hold, hname⟩
          rw [habsent] at hbad
          cases hbad
    · rw [hother name' hne, h.registry.name_lookup]
      refine exists_congr fun group => ⟨fun ⟨hg, hname⟩ => ⟨Heap.cells_alloc_of_some hg, hname⟩,
        fun ⟨hg, hname⟩ => ?_⟩
      rcases Heap.cells_alloc_cases hg with ⟨_, rfl⟩ | hold
      · exact absurd hname.symm hne
      · exact ⟨hold, hname⟩
  · refine Hub.ext rfl (funext fun c => funext fun name' => propext ?_) rfl rfl rfl
    constructor
    · rintro ⟨g, group, hg, hname, hmem⟩
      rcases Heap.cells_alloc_cases hg with ⟨_, rfl⟩ | hold
      · cases hmem
      · exact ⟨g, group, hold, hname, hmem⟩
    · rintro ⟨g, group, hg, hname, hmem⟩
      exact ⟨g, group, Heap.cells_alloc_of_some hg, hname, hmem⟩

theorem obtainGroup_succeed (h : srv.Inv slack new) (i : Nat) (name : String) :
    ∃ g group srv', srv.obtainGroup .succeed i name = .ok (some g, srv') ∧ srv'.Inv slack new ∧
      srv'.clnts = srv.clnts ∧ srv'.groups.cells g = some group ∧ group.name = name ∧
      srv'.view = srv.view := by
  obtain ⟨name2clnt, hsearch, hinv⟩ := h.search name
  simp only [obtainGroup, hsearch, ended, ok_bind]
  cases hlookup : srv.name2clnt.lookup name with
  | some g =>
      obtain ⟨group, hg, hname⟩ := (h.registry.name_lookup name g).mp hlookup
      exact ⟨g, group, { srv with name2clnt }, rfl, hinv, rfl, hg, hname, rfl⟩
  | none =>
      have habsent : name2clnt.lookup name = none := by
        obtain ⟨_, hsearch', _, hsame⟩ := h.registry.search name
        rw [hsearch] at hsearch'
        cases hsearch'
        rw [hsame, hlookup]
      obtain ⟨grown, hinsert, hnew, hview⟩ := Inv.newGroup hinv habsent
      refine ⟨srv.groups.next, { name, clnts := .empty }, _, ?_, hnew, rfl,
        Heap.cells_alloc_self, rfl, hview⟩
      simp only [Alloc.succeed_malloc, not_true_eq_false, if_false, hinsert, ok_bind]
      rfl

theorem enter_succeed (h : srv.Inv slack new) (i : Nat) (hc : srv.clnts.cells c = some clnt)
    (hg : srv.groups.cells g = some group) (hnot : ¬ srv.view.member c group.name) :
    ∃ srv' clnt', srv.enter .succeed i c g = .ok (true, srv') ∧ srv'.Inv slack new ∧
      srv'.clnts.cells c = some clnt' ∧ srv'.view = srv.view.addMember c group.name := by
  obtain ⟨groups, hgroups, hgroupsItems⟩ := clnt.groups.reserve_true
  obtain ⟨clnts, hclnts, hclntsItems⟩ := group.clnts.reserve_true
  have hmem : c ∉ group.clnts.items := fun hmem => hnot ⟨g, group, hg, rfl, hmem⟩
  have hmem' : g ∉ clnt.groups.items := fun hmem' =>
    hmem ((h.membership.both c clnt g group hc hg).mp hmem')
  obtain ⟨hinv, hview⟩ := h.change { clnt with groups := GrowArray.push groups g }
    { group with clnts := GrowArray.push clnts c } hc hg rfl rfl
    (by
      rw [GrowArray.items_push, hgroupsItems]
      exact List.nodup_append.mpr ⟨h.membership.groups_nodup c clnt hc, List.nodup_singleton g,
        fun a ha b hb heq => hmem' (List.mem_singleton.mp hb ▸ heq ▸ ha)⟩)
    (by
      rw [GrowArray.items_push, hclntsItems]
      exact List.nodup_append.mpr ⟨h.membership.clnts_nodup g group hg, List.nodup_singleton c,
        fun a ha b hb heq => hmem (List.mem_singleton.mp hb ▸ heq ▸ ha)⟩)
    (fun g' hne => by simp [hgroupsItems, hne])
    (fun c' hne => by simp [hclntsItems, hne]) (by simp)
  refine ⟨_, { clnt with groups := GrowArray.push groups g }, ?_, hinv, setClient_self hc, ?_⟩
  · simp only [enter, deref_some hc, ok_bind, Alloc.succeed_malloc, hgroups, deref_some hg, hclnts]
    rfl
  · rw [hview]
    refine Hub.ext rfl (funext fun c' => funext fun name => propext ?_) rfl rfl rfl
    constructor
    · rintro (⟨_, hold⟩ | ⟨rfl, rfl, _⟩)
      · exact .inl hold
      · exact .inr ⟨rfl, rfl⟩
    · rintro (hold | ⟨rfl, rfl⟩)
      · exact .inl ⟨fun ⟨hc', hname⟩ => hnot (hc' ▸ hname ▸ hold), hold⟩
      · exact .inr ⟨rfl, rfl, by simp⟩

/-- A refusal inside a loop over names. -/
theorem refuse_name (h : srv.Inv slack new) (hc : srv.clnts.cells c = some clnt) (text : String) :
    ∃ srv' clnt', (do
        let (_, srv) ← srv.refuse jansson .succeed c text
        return (false, srv) : Except Fault (Bool × Server)) = .ok (false, srv') ∧
      srv'.Inv slack new ∧ srv'.clnts.cells c = some clnt' ∧
      srv'.view = srv.view.refuse jansson c text := by
  obtain ⟨srv', hrun, hinv, hframe, hview⟩ := refuse_succeed jansson h hc text
  obtain ⟨clnt', hc', _⟩ := hframe.forward hc
  exact ⟨srv', clnt', by rw [hrun]; rfl, hinv, hc', hview⟩

/-- One round of `join`. -/
theorem joinName_succeed (h : srv.Inv slack new) (i : Nat) (hc : srv.clnts.cells c = some clnt)
    (v : Json) :
    ∃ srv' clnt', srv.joinName jansson .succeed c i v =
        .ok ((Hub.joinName jansson c v srv.view).1, srv') ∧ srv'.Inv slack new ∧
      srv'.clnts.cells c = some clnt' ∧ srv'.view = (Hub.joinName jansson c v srv.view).2 := by
  cases v with
  | string name =>
      have hmember := h.membership.member_iff hc name
      simp only [joinName, Hub.joinName, deref_some hc, ok_bind]
      rcases findNamed_spec name 0 clnt.groups.items (h.membership.groups_live c clnt · hc) with
        ⟨hrun, hnone⟩ | ⟨k, g, group, hrun, hk, hg, hname⟩
      · have hnot : ¬ srv.view.member c name := fun hbad => by
          obtain ⟨g, hg, group, hgroup, hname⟩ := hmember.mp hbad
          exact hnone g hg group hgroup hname
        rw [hrun, if_neg hnot]
        obtain ⟨g, group, mid, hobtain, hinv, hclnts, hg, hname, hview⟩ :=
          obtainGroup_succeed h i name
        have hmid : mid.clnts.cells c = some clnt := hclnts ▸ hc
        obtain ⟨srv', clnt', henter, hinv', hc', hview'⟩ :=
          enter_succeed hinv i hmid hg (by rw [hname, hview]; exact hnot)
        refine ⟨srv', clnt', ?_, hinv', hc', ?_⟩
        · simp only [ok_bind, hobtain, henter, if_true]
          rfl
        · rw [hview', hview, hname]
      · have hin : srv.view.member c name :=
          hmember.mpr ⟨g, List.mem_of_getElem? hk, group, hg, hname⟩
        rw [hrun, if_pos hin]
        exact refuse_name jansson h hc _
  | null => exact refuse_name jansson h hc _
  | bool b => exact refuse_name jansson h hc _
  | integer n => exact refuse_name jansson h hc _
  | real bits => exact refuse_name jansson h hc _
  | array items => exact refuse_name jansson h hc _
  | object fields => exact refuse_name jansson h hc _

/-! ## leave -/

/-- A member of a group is found in its array. -/
theorem findIdx_mem {items : List ClientPtr} (hmem : c ∈ items) :
    ∃ j, items.findIdx? (· = c) = some j ∧ items[j]? = some c := by
  cases hfind : items.findIdx? (· = c) with
  | none =>
      have hnone := List.findIdx?_eq_none_iff.mp hfind c hmem
      simp at hnone
  | some j =>
      obtain ⟨hlt, hj, _⟩ := List.findIdx?_eq_some_iff_getElem.mp hfind
      exact ⟨j, rfl, List.getElem?_eq_some_iff.mpr ⟨hlt, by simpa using hj⟩⟩

/-- One round of `leave`. Its assertion holds. -/
theorem leaveName_succeed (h : srv.Inv slack new) (i : Nat) (hc : srv.clnts.cells c = some clnt)
    (v : Json) :
    ∃ srv' clnt', srv.leaveName jansson .succeed c i v =
        .ok ((Hub.leaveName jansson c v srv.view).1, srv') ∧ srv'.Inv slack new ∧
      srv'.clnts.cells c = some clnt' ∧ srv'.view = (Hub.leaveName jansson c v srv.view).2 := by
  cases v with
  | string name =>
      have hmember := h.membership.member_iff hc name
      simp only [leaveName, Hub.leaveName, deref_some hc, ok_bind]
      rcases findNamed_spec name 0 clnt.groups.items (h.membership.groups_live c clnt · hc) with
        ⟨hrun, hnone⟩ | ⟨k, g, group, hrun, hk, hg, hname⟩
      · have hnot : ¬ srv.view.member c name := fun hbad => by
          obtain ⟨g, hg, group, hgroup, hname⟩ := hmember.mp hbad
          exact hnone g hg group hgroup hname
        rw [hrun, if_neg hnot]
        exact refuse_name jansson h hc _
      · have hgmem := List.mem_of_getElem? hk
        have hcmem := (h.membership.both c clnt g group hc hg).mp hgmem
        have hin : srv.view.member c name := hmember.mpr ⟨g, hgmem, group, hg, hname⟩
        obtain ⟨j, hfind, hj⟩ := findIdx_mem hcmem
        have hgroups := h.membership.groups_nodup c clnt hc
        have hclnts := h.membership.clnts_nodup g group hg
        -- each is taken out of the array of the other
        obtain ⟨hinv, hview⟩ := h.change { clnt with groups := clnt.groups.removeAt k }
          { group with clnts := group.clnts.removeAt j } hc hg rfl rfl
          (GrowArray.nodup_swapRemove hgroups hk) (GrowArray.nodup_swapRemove hclnts hj)
          (fun g' hne => by simp [GrowArray.mem_swapRemove_iff hgroups hk, hne])
          (fun c' hne => by simp [GrowArray.mem_swapRemove_iff hclnts hj, hne])
          (by simp [GrowArray.mem_swapRemove_iff hgroups hk,
            GrowArray.mem_swapRemove_iff hclnts hj])
        rw [hrun, if_pos hin]
        refine ⟨_, { clnt with groups := clnt.groups.removeAt k }, ?_, hinv, setClient_self hc, ?_⟩
        · simp only [ok_bind, hfind, Nat.zero_add]
          rfl
        · rw [hview]
          refine Hub.ext rfl (funext fun c' => funext fun name' => propext ?_) rfl rfl rfl
          rw [← hname]
          constructor
          · rintro (⟨hnot, hold⟩ | ⟨_, _, hbad⟩)
            · exact ⟨hold, hnot⟩
            · rw [GrowArray.items_removeAt, GrowArray.mem_swapRemove_iff hclnts hj] at hbad
              exact absurd rfl hbad.2
          · rintro ⟨hold, hnot⟩
            exact .inl ⟨hnot, hold⟩
  | null => exact refuse_name jansson h hc _
  | bool b => exact refuse_name jansson h hc _
  | integer n => exact refuse_name jansson h hc _
  | real bits => exact refuse_name jansson h hc _
  | array items => exact refuse_name jansson h hc _
  | object fields => exact refuse_name jansson h hc _

/-! ## Lists of names -/

/-- The loop over names does on the server what its rounds do on the hub. -/
theorem eachName_succeed {handle : Nat → Server → Json → Except Fault (Bool × Server)}
    {op : Json → Hub → Bool × Hub}
    (hstep : ∀ (i : Nat) (srv : Server) (clnt : Client) (v : Json), srv.Inv slack new →
      srv.clnts.cells c = some clnt → ∃ srv' clnt', handle i srv v = .ok ((op v srv.view).1, srv') ∧
        srv'.Inv slack new ∧ srv'.clnts.cells c = some clnt' ∧ srv'.view = (op v srv.view).2)
    (vs : List Json) (i : Nat) (srv : Server) (clnt : Client) (h : srv.Inv slack new)
    (hc : srv.clnts.cells c = some clnt) :
    ∃ srv' clnt', eachName handle i vs srv = .ok ((Hub.eachName op vs srv.view).1, srv') ∧
      srv'.Inv slack new ∧ srv'.clnts.cells c = some clnt' ∧
      srv'.view = (Hub.eachName op vs srv.view).2 := by
  induction vs generalizing i srv clnt with
  | nil => exact ⟨srv, clnt, rfl, h, hc, rfl⟩
  | cons v rest ih =>
      obtain ⟨mid, clnt', hrun, hinv, hc', hview⟩ := hstep (i + 1) srv clnt v h hc
      rw [eachName, Hub.eachName, hrun, ok_bind]
      dsimp only
      cases hok : (op v srv.view).1 with
      | false => exact ⟨mid, clnt', rfl, hinv, hc', hview⟩
      | true =>
          rw [if_pos rfl, if_pos rfl, ← hview]
          exact ih (i + 1) mid clnt' hinv hc'

/-- What `join` and `leave` do with the result of their loop. -/
theorem withNames_succeed {handle : Nat → Server → Json → Except Fault (Bool × Server)}
    {op : Json → Hub → Bool × Hub}
    (hstep : ∀ (i : Nat) (srv : Server) (clnt : Client) (v : Json), srv.Inv slack new →
      srv.clnts.cells c = some clnt → ∃ srv' clnt', handle i srv v = .ok ((op v srv.view).1, srv') ∧
        srv'.Inv slack new ∧ srv'.clnts.cells c = some clnt' ∧ srv'.view = (op v srv.view).2)
    (h : srv.Inv slack new) (hc : srv.clnts.cells c = some clnt) (jsondata : Json) :
    ∃ ret srv', (match jsondata.get? "name" with
        | none => srv.refuse jansson .succeed c (parsingError jansson jsondata "{so}")
        | some arr => do
            let (ok, srv) ← eachName handle 0 arr.elements srv
            if ok then srv.finish jansson .succeed c else return (-1, srv)) = .ok (ret, srv') ∧
      srv'.Inv slack new ∧ srv'.view = srv.view.withNames jansson op c jsondata := by
  rw [Hub.withNames]
  cases jsondata.get? "name" with
  | none =>
      obtain ⟨srv', hrun, hinv, _, hview⟩ := refuse_succeed jansson h hc _
      exact ⟨-1, srv', hrun, hinv, hview⟩
  | some arr =>
      obtain ⟨mid, clnt', hrun, hinv, hc', hview⟩ :=
        eachName_succeed hstep arr.elements 0 srv clnt h hc
      dsimp only
      rw [hrun, ok_bind]
      dsimp only
      cases (Hub.eachName op arr.elements srv.view).1 with
      | false => exact ⟨-1, mid, rfl, hinv, hview⟩
      | true =>
          obtain ⟨srv', hfinish, hinv', _, hview'⟩ := finish_succeed jansson hinv hc'
          rw [if_pos rfl, if_pos rfl]
          exact ⟨0, srv', hfinish, hinv', by rw [hview', hview]⟩

theorem join_succeed (h : srv.Inv slack new) (hc : srv.clnts.cells c = some clnt)
    (jsondata : Json) :
    ∃ ret srv', srv.join jansson .succeed c jsondata = .ok (ret, srv') ∧ srv'.Inv slack new ∧
      srv'.view = srv.view.join jansson c jsondata :=
  withNames_succeed jansson
    (fun i _ _ v hinv hc' => joinName_succeed jansson hinv i hc' v) h hc jsondata

theorem leave_succeed (h : srv.Inv slack new) (hc : srv.clnts.cells c = some clnt)
    (jsondata : Json) :
    ∃ ret srv', srv.leave jansson .succeed c jsondata = .ok (ret, srv') ∧ srv'.Inv slack new ∧
      srv'.view = srv.view.leave jansson c jsondata :=
  withNames_succeed jansson
    (fun i _ _ v hinv hc' => leaveName_succeed jansson hinv i hc' v) h hc jsondata

end Server

end Dime
