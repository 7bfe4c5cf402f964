import Dime.Server.Consistency

/-!
# The end of the server

`dime_server_destroy` walks the tables: the clients go one after the other, then the groups.
What this leaves allocated are the messages of the queues that were full.
-/

namespace Dime

namespace Server

/-- The loop of `dime_server_destroy` over `fd2clnt`. -/
def destroyClients : List ClientPtr → Server → Except Fault Server
  | [], srv => return srv
  | c :: rest, srv => do
      let srv ← srv.destroy c
      destroyClients rest srv

/-- The loop of `dime_server_destroy` over `name2clnt`. -/
def destroyGroups : List GroupPtr → Server → Except Fault Server
  | [], srv => return srv
  | g :: rest, srv => do
      let _ ← deref srv.groups g
      destroyGroups rest { srv with groups := srv.groups.free g }

/-- `dime_server_destroy`. The descriptors, the path names and the memory of the tables are not
part of the model. -/
def serverDestroy (srv : Server) : Except Fault Server := do
  let srv ← destroyClients (srv.fd2clnt.iterate.map Entry.val) srv
  destroyGroups (srv.name2clnt.iterate.map Entry.val) srv

variable {srv : Server} {slack : MsgPtr → Nat}

/-- The references to a message in the queues that are full. -/
def stuck (srv : Server) (p : MsgPtr) : Nat :=
  srv.clnts.sum fun clnt => if clnt.queue.Full then clnt.queue.toList.count p else 0

/-- The loop over the clients frees each of them. What it drops no reference to is
what the full queues held. -/
theorem destroyClients_spec (cs : List ClientPtr) (hnodup : cs.Nodup)
    (hlive : ∀ c ∈ cs, ∃ clnt, srv.clnts.cells c = some clnt) (hm : srv.Membership)
    (hrefs : srv.Refs slack none) :
    ∃ srv' slack', destroyClients cs srv = .ok srv' ∧ srv'.Membership ∧ srv'.Refs slack' none ∧
      (∀ p, slack' p + srv'.stuck p = slack p + srv.stuck p) ∧
      (∀ c clnt, srv'.clnts.cells c = some clnt → srv.clnts.cells c = some clnt ∧ c ∉ cs) ∧
      (∀ g, srv'.groups.cells g = none ↔ srv.groups.cells g = none) ∧
      srv'.name2clnt = srv.name2clnt := by
  induction cs generalizing srv slack with
  | nil =>
      exact ⟨srv, slack, rfl, hm, hrefs, fun _ => rfl, fun _ _ hc => ⟨hc, List.not_mem_nil⟩,
        fun _ => Iff.rfl, rfl⟩
  | cons c rest ih =>
      obtain ⟨hnot, hrest⟩ := List.nodup_cons.mp hnodup
      obtain ⟨clnt, hc⟩ := hlive c List.mem_cons_self
      obtain ⟨groups, msgs, hrun, hleft, hrefs', _⟩ := destroy_spec hm hrefs hc
      obtain ⟨srv', slack', hruns, hm', hrefs'', hstuck, hgone, hgroups, hname⟩ := ih hrest
        (fun c' hc' => by
          obtain ⟨k, hk⟩ := hlive c' (List.mem_cons_of_mem _ hc')
          refine ⟨k, (Heap.cells_free_of_ne ?_).trans hk⟩
          rintro rfl
          exact hnot hc')
        (hm.close hc rfl hleft) hrefs'
      refine ⟨srv', slack', ?_, hm', hrefs'', fun p => ?_, fun c' k hk => ?_,
        fun g => (hgroups g).trans (hleft.none_iff g), hname⟩
      · rw [destroyClients, hrun, ok_bind]
        exact hruns
      · have hsum := Heap.sum_free
          (fun k : Client => if k.queue.Full then k.queue.toList.count p else 0) hc
        rw [hstuck p, stuck, stuck]
        dsimp only at hsum ⊢
        omega
      · obtain ⟨hfree, hnot'⟩ := hgone c' k hk
        obtain ⟨hne, hold⟩ := Heap.cells_free_cases hfree
        exact ⟨hold, List.not_mem_cons_of_ne_of_not_mem hne hnot'⟩

/-- The loop over the groups frees each of them, and nothing else. -/
theorem destroyGroups_spec (gs : List GroupPtr) (hnodup : gs.Nodup)
    (hlive : ∀ g ∈ gs, ∃ group, srv.groups.cells g = some group) :
    ∃ groups, destroyGroups gs srv = .ok { srv with groups } ∧
      ∀ g group, groups.cells g = some group → srv.groups.cells g = some group ∧ g ∉ gs := by
  induction gs generalizing srv with
  | nil => exact ⟨srv.groups, rfl, fun _ _ hg => ⟨hg, List.not_mem_nil⟩⟩
  | cons g rest ih =>
      obtain ⟨hnot, hrest⟩ := List.nodup_cons.mp hnodup
      obtain ⟨group, hg⟩ := hlive g List.mem_cons_self
      obtain ⟨groups, hrun, hgone⟩ := @ih { srv with groups := srv.groups.free g } hrest
        (fun g' hg' => by
          obtain ⟨k, hk⟩ := hlive g' (List.mem_cons_of_mem _ hg')
          refine ⟨k, (Heap.cells_free_of_ne ?_).trans hk⟩
          rintro rfl
          exact hnot hg')
      refine ⟨groups, ?_, fun g' group' hg' => ?_⟩
      · rw [destroyGroups, deref_some hg, ok_bind]
        exact hrun
      · obtain ⟨hfree, hnot'⟩ := hgone g' group' hg'
        obtain ⟨hne, hold⟩ := Heap.cells_free_cases hfree
        exact ⟨hold, List.not_mem_cons_of_ne_of_not_mem hne hnot'⟩

/-- Every client and every group is freed, and of the messages all that no full queue held. -/
theorem serverDestroy_spec (h : srv.Inv slack none) :
    ∃ srv', srv.serverDestroy = .ok srv' ∧ (∀ c, srv'.clnts.cells c = none) ∧
      (∀ g, srv'.groups.cells g = none) ∧
      srv'.msgs.Counted Rcmessage.refs (fun p => slack p + srv.stuck p) none := by
  obtain ⟨mid, slack', hclients, hm, hrefs, hstuck, hgone, hgroups, hname⟩ := destroyClients_spec _
    h.registry.clients_nodup (fun c hc => h.registry.mem_clients.mp hc) h.membership h.refs
  have hclnts : ∀ c, mid.clnts.cells c = none := by
    intro c
    by_contra hsome
    obtain ⟨clnt, hc⟩ := Option.ne_none_iff_exists'.mp hsome
    obtain ⟨hold, hnot⟩ := hgone c clnt hc
    exact hnot (h.registry.mem_clients.mpr ⟨clnt, hold⟩)
  obtain ⟨groups, hrun, hgone'⟩ := @destroyGroups_spec mid (srv.name2clnt.iterate.map Entry.val)
    h.registry.groups_nodup (fun g hg => by
      obtain ⟨group, hg⟩ := h.registry.mem_groups.mp hg
      refine Option.ne_none_iff_exists'.mp fun hnone => ?_
      rw [(hgroups g).mp hnone] at hg
      cases hg)
  refine ⟨{ mid with groups }, ?_, hclnts, fun g => ?_, ?_⟩
  · rw [← hname] at hrun
    rw [serverDestroy, hclients, ok_bind]
    exact hrun
  · by_contra hsome
    obtain ⟨group, hg⟩ := Option.ne_none_iff_exists'.mp hsome
    obtain ⟨hmid, hnot⟩ := hgone' g group hg
    obtain ⟨old, hold⟩ := Option.ne_none_iff_exists'.mp fun hnone =>
      Option.some_ne_none group (hmid.symm.trans ((hgroups g).mpr hnone))
    exact hnot (h.registry.mem_groups.mpr ⟨old, hold⟩)
  · have hheld : (fun p => mid.holders p + slack' p) = fun p => slack p + srv.stuck p := by
      funext p
      have hp := hstuck p
      rw [stuck, Heap.sum_eq_zero hclnts] at hp
      rw [holders, Heap.sum_eq_zero hclnts]
      omega
    rw [Refs, hheld] at hrefs
    exact hrefs

/-- A message in a queue that was full when its client left, or in one that is full now. -/
def Stranded (history : List (Server × Action)) (srv : Server) (p : MsgPtr) : Prop :=
  (∃ mid c clnt, (mid, Action.close c) ∈ history ∧ mid.clnts.cells c = some clnt ∧
    clnt.queue.Full ∧ p ∈ clnt.queue.toList) ∨
  ∃ c clnt, srv.clnts.cells c = some clnt ∧ clnt.queue.Full ∧ p ∈ clnt.queue.toList

theorem lostBy_pos_iff {action : Action} {p : MsgPtr} :
    0 < srv.lostBy action p ↔ ∃ c clnt, action = .close c ∧ srv.clnts.cells c = some clnt ∧
      clnt.queue.Full ∧ p ∈ clnt.queue.toList := by
  constructor
  · intro hpos
    cases action with
    | close c =>
        cases hc : srv.clnts.cells c with
        | none => simp [lostBy, hc] at hpos
        | some clnt =>
            simp only [lostBy, hc, Option.elim_some] at hpos
            split at hpos
            next hfull => exact ⟨c, clnt, rfl, hc, hfull, List.count_pos_iff.mp hpos⟩
            next => cases hpos
    | _ => cases hpos
  · rintro ⟨c, clnt, rfl, hc, hfull, hp⟩
    simp only [lostBy, hc, Option.elim_some, if_pos hfull]
    exact List.count_pos_iff.mpr hp

theorem stuck_pos_iff {p : MsgPtr} : 0 < srv.stuck p ↔ ∃ c clnt, srv.clnts.cells c = some clnt ∧
    clnt.queue.Full ∧ p ∈ clnt.queue.toList := by
  constructor
  · intro hpos
    obtain ⟨c, clnt, hc, hcount⟩ := Heap.exists_of_sum_pos hpos
    split at hcount
    next hfull => exact ⟨c, clnt, hc, hfull, List.count_pos_iff.mp hcount⟩
    next => cases hcount
  · rintro ⟨c, clnt, hc, hfull, hp⟩
    have hle := Heap.le_sum
      (fun k : Client => if k.queue.Full then k.queue.toList.count p else 0) hc
    have hcount := List.count_pos_iff.mpr hp
    rw [if_pos hfull] at hle
    exact hcount.trans_le hle

theorem stranded_iff {history : List (Server × Action)} {p : MsgPtr} :
    Stranded history srv p ↔ 0 < lost history p + srv.stuck p := by
  rw [Nat.add_pos_iff_pos_or_pos, Stranded, stuck_pos_iff]
  refine or_congr_left ?_
  constructor
  · rintro ⟨mid, c, clnt, hmem, hclose⟩
    have hpos : 0 < mid.lostBy (.close c) p := lostBy_pos_iff.mpr ⟨c, clnt, rfl, hclose⟩
    exact hpos.trans_le (List.single_le_sum (fun _ _ => Nat.zero_le _) _ (List.mem_map_of_mem hmem))
  · intro hpos
    obtain ⟨n, hn, hne⟩ := List.exists_mem_ne_zero_of_sum_ne_zero hpos.ne'
    obtain ⟨⟨mid, action⟩, hmem, rfl⟩ := List.mem_map.mp hn
    obtain ⟨c, clnt, rfl, hclose⟩ := lostBy_pos_iff.mp (Nat.pos_of_ne_zero hne)
    exact ⟨mid, c, clnt, hmem, hclose⟩

end Server

open Server

/-- From every state of a run `dime_server_destroy` runs through: it frees every client and every
group, once, and every message but those of the queues that were full. -/
theorem serverDestroy_leaves (jansson : Jansson Json) {history : List (Server × Action)}
    {srv : Server} (h : Reaches jansson history srv) :
    ∃ srv', srv.serverDestroy = .ok srv' ∧ (∀ c, srv'.clnts.cells c = none) ∧
      (∀ g, srv'.groups.cells g = none) ∧
      ∀ p, (∃ msg, srv'.msgs.cells p = some msg) ↔ Stranded history srv p := by
  obtain ⟨srv', hrun, hclnts, hgroups, hcounted⟩ := serverDestroy_spec h.inv
  exact ⟨srv', hrun, hclnts, hgroups, fun p => hcounted.live_iff.trans stranded_iff.symm⟩

/-- Two clients in two groups, and three messages that wait. -/
def messagesWait : List Action :=
  [.accept 3 false, .accept 4 false, .command 0 (namesRequest "join" ["a", "b"]) [],
    .command 1 (namesRequest "join" ["b"]) [], .command 1 (nameRequest "send" "a") [1],
    .command 0 (nameRequest "send" "b") [2], .command 0 (nameRequest "broadcast" "b") [3]]

theorem serverDestroy_leaves_waiting : ∃ history srv,
    Reaches (compactJansson []) history srv ∧ srv.msgs.next = 3 ∧
      ∃ srv', srv.serverDestroy = .ok srv' ∧ (∀ c, srv'.clnts.cells c = none) ∧
        (∀ g, srv'.groups.cells g = none) ∧
        ∀ p, (∃ msg, srv'.msgs.cells p = some msg) ↔ Stranded history srv p := by
  have hscript : (script (compactJansson []) messagesWait).map (fun result =>
      result.2.msgs.next) = some 3 := by decide +kernel
  obtain ⟨⟨history, srv⟩, hrun, hnext⟩ := Option.map_eq_some_iff.mp hscript
  have h := script_reaches _ hrun
  exact ⟨history, srv, h, hnext, serverDestroy_leaves _ h⟩

end Dime
