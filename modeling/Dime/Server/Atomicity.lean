import Dime.Server.Consistency
import Dime.Server.Effects
import Dime.Server.Failures

/-!
# All or none of the names

A `join` or a `leave` handles its names one by one, and the first that is refused ends it with an
error. The names before that one stay joined or left.
-/

noncomputable section

open Classical

namespace Dime

variable {jansson : Jansson Json}

/-- What `join` (`joins`) or `leave` refuses: what is no string, and a name to which the client
stands as it is asked to already. -/
def Refuses (member : String → Prop) (joins : Bool) : Json → Prop
  | .string name => member name ↔ joins = true
  | _ => True

/-- Different names, none of which is refused. -/
def Orderly (member : String → Prop) (joins : Bool) (vs : List Json) : Prop :=
  ∃ names : List String, vs = names.map Json.string ∧ names.Nodup ∧
    ∀ name ∈ names, ¬ Refuses member joins (.string name)

/-! ## The loop on the hub -/

namespace Hub

variable {joins : Bool} {c : ClientPtr} {handle : Json → Hub → Bool × Hub} {hub : Hub} {v : Json}
  {vs : List Json} {name : String}

variable (jansson joins c) in
/-- What the rounds of `join` and of `leave` have in common. -/
structure NameRule (handle : Json → Hub → Bool × Hub) : Prop where
  quiet : Quietly jansson c handle
  refused : ∀ v hub, Refuses (hub.member c) joins v → (handle v hub).1 = false
  handled : ∀ v hub, ¬ Refuses (hub.member c) joins v → (handle v hub).1 = true ∧
    ∃ name, v = .string name ∧ ((handle v hub).2.member c name ↔ joins = true) ∧
      ∀ name', name' ≠ name → ((handle v hub).2.member c name' ↔ hub.member c name')

theorem joinName_rule : NameRule jansson true c (joinName jansson c) := by
  refine ⟨joinName_quietly jansson, ?_, ?_⟩
  · intro v hub hrefuses
    cases v with
    | string name => rw [joinName, if_pos (hrefuses.mpr rfl)]
    | _ => rfl
  · intro v hub hnot
    cases v with
    | string name =>
        have hout : ¬ hub.member c name := fun hmem => hnot ⟨fun _ => rfl, fun _ => hmem⟩
        rw [joinName, if_neg hout]
        refine ⟨rfl, name, rfl, ⟨fun _ => rfl, fun _ => .inr ⟨rfl, rfl⟩⟩, ?_⟩
        intro name' hne
        exact ⟨fun hmem => hmem.resolve_right fun heq => hne heq.2, .inl⟩
    | _ => exact absurd trivial hnot

theorem leaveName_rule : NameRule jansson false c (leaveName jansson c) := by
  refine ⟨leaveName_quietly jansson, ?_, ?_⟩
  · intro v hub hrefuses
    cases v with
    | string name => rw [leaveName, if_neg fun hmem => Bool.false_ne_true (hrefuses.mp hmem)]
    | _ => rfl
  · intro v hub hnot
    cases v with
    | string name =>
        have hin : hub.member c name := by
          by_contra hout
          exact hnot ⟨fun hmem => absurd hmem hout, fun hbad => absurd hbad Bool.false_ne_true⟩
        rw [leaveName, if_pos hin]
        refine ⟨rfl, name, rfl, ?_, ?_⟩
        · exact ⟨fun hmem => absurd ⟨rfl, rfl⟩ hmem.2, fun hbad => absurd hbad Bool.false_ne_true⟩
        · intro name' hne
          exact ⟨fun hmem => hmem.1, fun hmem => ⟨hmem, fun heq => hne heq.2⟩⟩
    | _ => exact absurd trivial hnot

/-- A refusal leaves the members as they are. -/
theorem NameRule.member (h : NameRule jansson joins c handle) (hrefuses : Refuses (hub.member c) joins v) :
    (handle v hub).2.member = hub.member := by
  have hended := h.refused v hub hrefuses
  -- only the other outcome changes members
  rcases h.quiet v hub with ⟨hok, -⟩ | ⟨-, text, heq⟩
  · rw [hended] at hok
    cases hok
  · rw [heq]
    rfl

/-- A name that stands as asked stays so. -/
theorem NameRule.stays (h : NameRule jansson joins c handle)
    (hname : hub.member c name ↔ joins = true) :
    (eachName handle vs hub).2.member c name ↔ joins = true := by
  induction vs generalizing hub with
  | nil => exact hname
  | cons v rest ih =>
      rw [eachName]
      by_cases hrefuses : Refuses (hub.member c) joins v
      · rw [if_neg (by rw [h.refused v hub hrefuses]; exact Bool.false_ne_true)]
        dsimp only
        rw [h.member hrefuses]
        exact hname
      · obtain ⟨hok, other, -, hself, hothers⟩ := h.handled v hub hrefuses
        rw [if_pos hok]
        apply ih
        -- a repeated name would be refused, so no round undoes another
        by_cases heq : name = other
        · rw [heq]
          exact hself
        · exact (hothers name heq).trans hname

/-- The loop runs through if and only if the names are in order. -/
theorem NameRule.through_iff (h : NameRule jansson joins c handle) :
    (eachName handle vs hub).1 = true ↔ Orderly (hub.member c) joins vs := by
  induction vs generalizing hub with
  | nil => exact ⟨fun _ => ⟨[], rfl, List.nodup_nil, fun _ hmem => absurd hmem List.not_mem_nil⟩, fun _ => rfl⟩
  | cons v rest ih =>
      rw [eachName]
      by_cases hrefuses : Refuses (hub.member c) joins v
      · rw [if_neg (by rw [h.refused v hub hrefuses]; exact Bool.false_ne_true)]
        refine ⟨fun hbad => absurd hbad Bool.false_ne_true, ?_⟩
        rintro ⟨names, hvs, -, hnone⟩
        obtain ⟨name, hmem, rfl⟩ := List.mem_map.mp (hvs ▸ List.mem_cons_self : v ∈ names.map Json.string)
        exact absurd hrefuses (hnone name hmem)
      · obtain ⟨hok, name, rfl, hself, hothers⟩ := h.handled v hub hrefuses
        rw [if_pos hok, ih]
        constructor
        · rintro ⟨names, rfl, hnodup, hnone⟩
          -- a name that comes again would be refused
          have hnot : name ∉ names := fun hmem => hnone name hmem hself
          refine ⟨name :: names, rfl, List.nodup_cons.mpr ⟨hnot, hnodup⟩, ?_⟩
          intro name' hmem
          rcases List.mem_cons.mp hmem with rfl | hmem
          · exact hrefuses
          · have hne : name' ≠ name := fun heq => hnot (heq ▸ hmem)
            exact fun hbad => hnone name' hmem ((hothers name' hne).trans hbad)
        · rintro ⟨names, hvs, hnodup, hnone⟩
          cases names with
          | nil => cases hvs
          | cons first names =>
              cases hvs
              obtain ⟨hnot, hnodup⟩ := List.nodup_cons.mp hnodup
              refine ⟨names, rfl, hnodup, fun name' hmem hbad => ?_⟩
              have hne : name' ≠ name := fun heq => hnot (heq ▸ hmem)
              exact hnone name' (List.mem_cons_of_mem _ hmem) ((hothers name' hne).symm.trans hbad)

theorem NameRule.reached (h : NameRule jansson joins c handle) {names : List String}
    (hthrough : (eachName handle (names.map .string) hub).1 = true) (hmem : name ∈ names) :
    (eachName handle (names.map .string) hub).2.member c name ↔ joins = true := by
  induction names generalizing hub with
  | nil => cases hmem
  | cons first rest ih =>
      rw [List.map_cons, eachName] at hthrough ⊢
      by_cases hrefuses : Refuses (hub.member c) joins (.string first)
      · rw [if_neg (by rw [h.refused _ hub hrefuses]; exact Bool.false_ne_true)] at hthrough
        cases hthrough
      · obtain ⟨hok, other, heq, hself, -⟩ := h.handled _ hub hrefuses
        cases heq
        rw [if_pos hok] at hthrough ⊢
        rcases List.mem_cons.mp hmem with rfl | hmem
        · exact h.stays hself
        · exact ih hthrough hmem

end Hub

namespace Server

variable {srv srv' : Server} {c : ClientPtr} {clnt : Client} {joins : Bool} {alloc : Alloc}
  {jsondata : Json}

/-- The client is in the list of a group of that name. -/
def InGroup (srv : Server) (c : ClientPtr) (name : String) : Prop :=
  ∃ g group, srv.groups.cells g = some group ∧ group.name = name ∧ c ∈ group.clnts.items

/-- A reply with that status has been pushed to the client. -/
def Replied (srv srv' : Server) (c : ClientPtr) (status : Int64) : Prop :=
  ∃ clnt clnt', srv.clnts.cells c = some clnt ∧ srv'.clnts.cells c = some clnt' ∧
    ∃ out ∈ clnt'.sent.drop clnt.sent.length, out.status = some status

/-- The groups of the client and the clients of every group are exactly as before. A group that
was not there has no clients. -/
structure Unchanged (srv srv' : Server) (c : ClientPtr) : Prop where
  memberships : (srv'.clnts.cells c).map (fun clnt => clnt.groups.items) =
    (srv.clnts.cells c).map fun clnt => clnt.groups.items
  lists : ∀ g group, srv.groups.cells g = some group → ∃ group', srv'.groups.cells g = some group' ∧
    group'.name = group.name ∧ group'.clnts.items = group.clnts.items
  new : ∀ g group', srv'.groups.cells g = some group' → srv.groups.cells g = none →
    group'.clnts.items = []

/-- An error says that nothing has changed, and a success that all of the names are joined or
left. -/
structure Honest (joins : Bool) (c : ClientPtr) (jsondata : Json) (srv srv' : Server) : Prop where
  atomic : Replied srv srv' c (-1) → Unchanged srv srv' c
  truthful : Replied srv srv' c 0 → ∃ names : List String,
    jsondata.get? "name" = some (.array (names.map .string)) ∧
    ∀ name ∈ names, (srv'.InGroup c name ↔ joins = true)

/-- A `join` or a `leave`. -/
def changeGroups (jansson : Jansson Json) (joins : Bool) (alloc : Alloc) (srv : Server)
    (c : ClientPtr) (jsondata : Json) : Except Fault (Int × Server) :=
  if joins then srv.join jansson alloc c jsondata else srv.leave jansson alloc c jsondata

/-- The list of names is empty, or its first name is refused. -/
def RefusedAtOnce (joins : Bool) (srv : Server) (c : ClientPtr) (jsondata : Json) : Prop :=
  ∀ v, jsondata.get? "name" = some v → ∃ vs, v = .array vs ∧
    ∀ first ∈ vs.head?, Refuses (srv.InGroup c) joins first

/-- The first name of the list is refused, or none is. -/
def FirstOrNone (joins : Bool) (srv : Server) (c : ClientPtr) (jsondata : Json) : Prop :=
  ∀ v, jsondata.get? "name" = some v → ∃ vs, v = .array vs ∧
    ((∀ first ∈ vs.head?, Refuses (srv.InGroup c) joins first) ∨
      Orderly (srv.InGroup c) joins vs)

theorem Undisturbed.unchanged (h : srv.Undisturbed srv') (c : ClientPtr) : Unchanged srv srv' c := by
  have hframe := h.framed
  refine ⟨?_, ?_, ?_⟩
  · have hsame := congrArg (Option.map fun pair : Nat × GrowArray GroupPtr => pair.2.items)
      (hframe.clnts c)
    simpa only [Option.map_map, Function.comp_def] using hsame
  · intro g group hg
    exact ⟨group, hframe.groups ▸ hg, rfl, rfl⟩
  · intro g group' hg' hnone
    rw [hframe.groups, hnone] at hg'
    cases hg'

theorem Unchanged.inGroup_iff (h : Unchanged srv srv' c) (c' : ClientPtr) (name : String) :
    srv'.InGroup c' name ↔ srv.InGroup c' name := by
  constructor
  · rintro ⟨g, group', hg', hname, hmem⟩
    cases hg : srv.groups.cells g with
    | none =>
        rw [h.new g group' hg' hg] at hmem
        cases hmem
    | some group =>
        obtain ⟨now, hnow, hsame, hitems⟩ := h.lists g group hg
        cases hg'.symm.trans hnow
        exact ⟨g, group, hg, hsame.symm.trans hname, hitems ▸ hmem⟩
  · rintro ⟨g, group, hg, hname, hmem⟩
    obtain ⟨now, hnow, hsame, hitems⟩ := h.lists g group hg
    exact ⟨g, now, hnow, hsame.trans hname, hitems ▸ hmem⟩

/-! ## Requests that are refused at once -/

/-- A refusal is never a success. -/
theorem refuse_replied {reply : ReplyAlloc} {text : String} {ret : Int}
    (h : srv.refuse jansson reply c text = .ok (ret, srv')) : ¬ Replied srv srv' c 0 := by
  rintro ⟨clnt, clnt', hc, hc', out, hout, hstatus⟩
  rw [refuse] at h
  dsimp only at h
  split at h
  · obtain ⟨⟨_, final⟩, hpush, hrun⟩ := bind_eq_ok h
    cases hrun
    obtain ⟨old, hold, -, rfl⟩ := pushTo_eq_ok hpush
    cases hc.symm.trans hold
    cases hc'.symm.trans (@setClient_self { srv with err := text } c clnt _ hc)
    rw [Client.push] at hout
    dsimp only at hout
    split at hout
    · rw [List.drop_length] at hout
      cases hout
    · rw [List.drop_left, List.mem_singleton] at hout
      rw [hout] at hstatus
      cases hstatus
  · cases h
    cases hc.symm.trans hc'
    rw [List.drop_length] at hout
    cases hout

theorem joinName_refused (h : srv.Membership) {i : Nat} {v : Json} {ok : Bool}
    (hrefuses : Refuses (srv.InGroup c) true v)
    (hrun : srv.joinName jansson alloc c i v = .ok (ok, srv')) :
    ok = false ∧ ∃ ret text, srv.refuse jansson (alloc.reply i 0) c text = .ok (ret, srv') := by
  cases v with
  | string name =>
      obtain ⟨clnt, hc, hrun⟩ := bind_eq_ok hrun
      have hc := deref_eq_ok hc
      obtain ⟨found, hfind, hrun⟩ := bind_eq_ok hrun
      obtain ⟨g, hmem, group, hg, hname⟩ := (h.member_iff hc name).mp (hrefuses.mpr rfl)
      rcases findNamed_spec name 0 clnt.groups.items (h.groups_live c clnt · hc) with
        ⟨-, hnone⟩ | ⟨k, _, _, hsome, -⟩
      · exact absurd hname (hnone g hmem group hg)
      · cases hfind.symm.trans hsome
        obtain ⟨⟨ret, final⟩, hrefuse, hlast⟩ := bind_eq_ok hrun
        cases hlast
        exact ⟨rfl, ret, _, hrefuse⟩
  | _ =>
      obtain ⟨⟨ret, final⟩, hrefuse, hlast⟩ := bind_eq_ok hrun
      cases hlast
      exact ⟨rfl, ret, _, hrefuse⟩

theorem leaveName_refused (h : srv.Membership) {i : Nat} {v : Json} {ok : Bool}
    (hrefuses : Refuses (srv.InGroup c) false v)
    (hrun : srv.leaveName jansson alloc c i v = .ok (ok, srv')) :
    ok = false ∧ ∃ ret text, srv.refuse jansson (alloc.reply i 0) c text = .ok (ret, srv') := by
  cases v with
  | string name =>
      obtain ⟨clnt, hc, hrun⟩ := bind_eq_ok hrun
      have hc := deref_eq_ok hc
      obtain ⟨found, hfind, hrun⟩ := bind_eq_ok hrun
      rcases findNamed_spec name 0 clnt.groups.items (h.groups_live c clnt · hc) with
        ⟨hnone, -⟩ | ⟨k, g, group, -, hk, hg, hname⟩
      · cases hfind.symm.trans hnone
        obtain ⟨⟨ret, final⟩, hrefuse, hlast⟩ := bind_eq_ok hrun
        cases hlast
        exact ⟨rfl, ret, _, hrefuse⟩
      · have hin := (h.member_iff hc name).mpr ⟨g, List.mem_of_getElem? hk, group, hg, hname⟩
        exact absurd (hrefuses.mp hin) Bool.false_ne_true
  | _ =>
      obtain ⟨⟨ret, final⟩, hrefuse, hlast⟩ := bind_eq_ok hrun
      cases hlast
      exact ⟨rfl, ret, _, hrefuse⟩

/-- A loop that is refused at once, or has nothing to do. -/
theorem withNames_atOnce {handle : Nat → Server → Json → Except Fault (Bool × Server)} {vs : List Json}
    (hround : ∀ {i : Nat} {v : Json} {ok : Bool} {srv' : Server}, Refuses (srv.InGroup c) joins v →
      handle i srv v = .ok (ok, srv') →
      ok = false ∧ ∃ ret text, srv.refuse jansson (alloc.reply i 0) c text = .ok (ret, srv'))
    (hrefuses : ∀ first ∈ vs.head?, Refuses (srv.InGroup c) joins first) {ret : Int}
    (hrun : (do
      let (ok, srv) ← eachName handle 0 vs srv
      if ok then srv.finish jansson alloc c else return (-1, srv)) = .ok (ret, srv')) :
    Unchanged srv srv' c ∧ (Replied srv srv' c 0 → vs = []) := by
  cases vs with
  | nil => exact ⟨(finish_undisturbed hrun).unchanged c, fun _ => rfl⟩
  | cons first rest =>
      obtain ⟨⟨ok, mid⟩, heach, hrest⟩ := bind_eq_ok hrun
      obtain ⟨⟨handled, final⟩, hhandle, heach⟩ := bind_eq_ok heach
      obtain ⟨rfl, _, text, hrefuse⟩ := hround (hrefuses first rfl) hhandle
      cases heach
      cases hrest
      exact ⟨(refuse_undisturbed hrefuse).2.unchanged c, fun hbad => absurd hbad (refuse_replied hrefuse)⟩

/-- A request that is refused at once changes nothing, whichever allocations fail. -/
theorem RefusedAtOnce.honest (h : RefusedAtOnce joins srv c jsondata) (hm : srv.Membership) {ret : Int}
    (hrun : changeGroups jansson joins alloc srv c jsondata = .ok (ret, srv')) :
    Honest joins c jsondata srv srv' := by
  have hnames : ∀ v, jsondata.get? "name" = some v →
      Unchanged srv srv' c ∧ (Replied srv srv' c 0 → v.elements = []) → Honest joins c jsondata srv srv' := by
    rintro v hv ⟨hunchanged, hnil⟩
    -- a success is possible only for no names at all
    refine ⟨fun _ => hunchanged, fun hreplied => ⟨[], ?_, fun name hmem => absurd hmem List.not_mem_nil⟩⟩
    obtain ⟨vs, rfl, -⟩ := h v hv
    rw [hv]
    exact congrArg (fun items => some (Json.array items)) (hnil hreplied)
  have hmissing : ∀ {text : String},
      srv.refuse jansson (alloc.reply 0 0) c text = .ok (ret, srv') → Honest joins c jsondata srv srv' :=
    fun hrefuse => ⟨fun _ => (refuse_undisturbed hrefuse).2.unchanged c,
      fun hbad => absurd hbad (refuse_replied hrefuse)⟩
  cases joins with
  | true =>
      rw [changeGroups, if_pos rfl, join] at hrun
      split at hrun
      next => exact hmissing hrun
      next v hv =>
        obtain ⟨vs, rfl, hfirst⟩ := h v hv
        exact hnames _ hv (withNames_atOnce (joinName_refused hm) hfirst hrun)
  | false =>
      rw [changeGroups, if_neg Bool.false_ne_true, leave] at hrun
      split at hrun
      next => exact hmissing hrun
      next v hv =>
        obtain ⟨vs, rfl, hfirst⟩ := h v hv
        exact hnames _ hv (withNames_atOnce (leaveName_refused hm) hfirst hrun)

/-! ## Requests that find memory -/

/-- A request that changes nothing that is seen, and then replies. -/
theorem replied_iff (hc : srv.clnts.cells c = some clnt) {mid : Hub} {out : Outgoing}
    (hmid : Hub.Pushes Hub.same (fun _ => []) srv.view mid)
    (hview : srv'.view = mid.push jansson c out) (status : Int64) :
    Replied srv srv' c status ↔ out.status = some status := by
  have hpeer : srv.view.peers c = some (clnt.view srv.content) := by
    rw [view_peers, hc, Option.map_some]
  obtain ⟨peer', hpeer', -, -, -, hsent, -⟩ := (hmid.trans (Hub.push_pushes jansson out)).peer hpeer
  rw [← hview, view_peers, Option.map_eq_some_iff] at hpeer'
  obtain ⟨clnt', hc', rfl⟩ := hpeer'
  have hsent : clnt'.sent = clnt.sent ++ [out] := by
    rw [Hub.only_self] at hsent
    exact hsent
  constructor
  · rintro ⟨old, now, hold, hnow, out', hout', hstatus⟩
    cases hc.symm.trans hold
    cases hc'.symm.trans hnow
    rw [hsent, List.drop_left, List.mem_singleton] at hout'
    exact hout' ▸ hstatus
  · intro hstatus
    refine ⟨clnt, clnt', hc, hc', out, ?_, hstatus⟩
    rw [hsent, List.drop_left]
    exact List.mem_singleton_self out

section Views

variable {handle : Json → Hub → Bool × Hub} {v : Json}

/-- A loop that has run through has been truthful if the names are a list. -/
theorem honest_iff_of_through (hrule : Hub.NameRule jansson joins c handle)
    (hc : srv.clnts.cells c = some clnt) (hv : jsondata.get? "name" = some v)
    (hthrough : (Hub.eachName handle v.elements srv.view).1 = true)
    (hmid : Hub.Pushes Hub.same (fun _ => []) srv.view (Hub.eachName handle v.elements srv.view).2)
    (hview : srv'.view = (Hub.eachName handle v.elements srv.view).2.finish jansson c) :
    Honest joins c jsondata srv srv' ↔ FirstOrNone joins srv c jsondata := by
  have hreplied := replied_iff hc hmid hview
  obtain ⟨names, hnames, hrest⟩ := hrule.through_iff.mp hthrough
  constructor
  · intro hhonest v' hv'
    obtain ⟨names', hname, -⟩ := hhonest.truthful ((hreplied 0).mpr rfl)
    cases hv.symm.trans hv'
    -- what is no list has no elements, so the loop runs through and the reply is a success
    cases hv.symm.trans hname
    exact ⟨_, rfl, .inr ⟨names, hnames, hrest⟩⟩
  · intro hfirst
    obtain ⟨vs, rfl, -⟩ := hfirst v hv
    refine ⟨fun hbad => ?_, fun _ => ⟨names, ?_, fun name hmem => ?_⟩⟩
    · have hstatus := (hreplied (-1)).mp hbad
      cases hstatus
    · exact hv.trans (congrArg (fun items => some (Json.array items)) hnames)
    · have hstands := hrule.reached (hnames ▸ hthrough) hmem
      rw [← hnames] at hstands
      change srv'.view.member c name ↔ joins = true
      rw [hview, Hub.finish, Hub.push_member]
      exact hstands

/-- A loop that a refusal has ended has kept to what it says if the refusal was the first. -/
theorem honest_iff_of_ended (hrule : Hub.NameRule jansson joins c handle)
    (hc : srv.clnts.cells c = some clnt) (hv : jsondata.get? "name" = some v)
    (hended : (Hub.eachName handle v.elements srv.view).1 = false)
    (hview : srv'.view = (Hub.eachName handle v.elements srv.view).2) {mid : Hub} {text : String}
    (hmid : Hub.Pushes Hub.same (fun _ => []) srv.view mid)
    (hrefuse : (Hub.eachName handle v.elements srv.view).2 = mid.refuse jansson c text)
    (hatOnce : RefusedAtOnce joins srv c jsondata → Honest joins c jsondata srv srv') :
    Honest joins c jsondata srv srv' ↔ FirstOrNone joins srv c jsondata := by
  constructor
  · intro hhonest v' hv'
    cases hv.symm.trans hv'
    have hunchanged := hhonest.atomic ((replied_iff hc hmid (hview.trans hrefuse) (-1)).mpr rfl)
    cases helements : v.elements with
    | nil =>
        rw [helements] at hended
        cases hended
    | cons first rest =>
        have harray : v = .array (first :: rest) := by
          cases v with
          | array items => exact congrArg Json.array helements
          | _ => cases helements
        refine ⟨first :: rest, harray, .inl ?_⟩
        intro first' hfirst'
        cases hfirst'
        by_contra hnot
        -- the first name is joined or left and stays so
        obtain ⟨hok, name, rfl, hself, -⟩ := hrule.handled first srv.view hnot
        have hstands : srv'.view.member c name ↔ joins = true := by
          rw [hview, helements, Hub.eachName, if_pos hok]
          exact hrule.stays hself
        exact hnot ((hunchanged.inGroup_iff c name).symm.trans hstands)
  · intro hfirst
    refine hatOnce fun v' hv' => ?_
    cases hv.symm.trans hv'
    obtain ⟨vs, rfl, hrefuses | horderly⟩ := hfirst v hv
    · exact ⟨vs, rfl, hrefuses⟩
    · have hthrough : (Hub.eachName handle vs srv.view).1 = true := hrule.through_iff.mpr horderly
      exact absurd (hended.symm.trans hthrough) Bool.false_ne_true

/-- What a request has done on the hub says when it has been honest. -/
theorem honest_iff (hrule : Hub.NameRule jansson joins c handle) (hc : srv.clnts.cells c = some clnt)
    (hview : srv'.view = srv.view.withNames jansson handle c jsondata)
    (hatOnce : RefusedAtOnce joins srv c jsondata → Honest joins c jsondata srv srv') :
    Honest joins c jsondata srv srv' ↔ FirstOrNone joins srv c jsondata := by
  cases hv : jsondata.get? "name" with
  | none =>
      have hnone : ∀ {P : Json → Prop} v, jsondata.get? "name" = some v → P v := by
        intro P v hbad
        rw [hv] at hbad
        cases hbad
      exact ⟨fun _ => hnone, fun _ => hatOnce hnone⟩
  | some v =>
      rw [Hub.withNames, hv] at hview
      dsimp only at hview
      -- either the reply is a success, or it is the error of the name that ended the loop
      rcases Hub.eachName_pushes jansson hrule.quiet v.elements srv.view with
        ⟨hthrough, hmid⟩ | ⟨hended, mid, text, hmid, hrefuse⟩
      · rw [if_pos hthrough] at hview
        exact honest_iff_of_through hrule hc hv hthrough hmid hview
      · rw [if_neg (by rw [hended]; exact Bool.false_ne_true)] at hview
        exact honest_iff_of_ended hrule hc hv hended hview hmid hrefuse hatOnce

end Views

/-- With memory for everything a request returns, and is honest as the names require. -/
theorem changeGroups_honest {slack : MsgPtr → Nat} (h : srv.Inv slack none)
    (hc : srv.clnts.cells c = some clnt) (joins : Bool) (jsondata : Json) :
    ∃ ret srv', changeGroups jansson joins .succeed srv c jsondata = .ok (ret, srv') ∧
      (Honest joins c jsondata srv srv' ↔ FirstOrNone joins srv c jsondata) := by
  cases joins with
  | true =>
      obtain ⟨ret, srv', hrun, -, hview⟩ := join_succeed jansson h hc jsondata
      exact ⟨ret, srv', hrun, honest_iff Hub.joinName_rule hc hview fun hatOnce =>
        hatOnce.honest h.membership hrun⟩
  | false =>
      obtain ⟨ret, srv', hrun, -, hview⟩ := leave_succeed jansson h hc jsondata
      exact ⟨ret, srv', hrun, honest_iff Hub.leaveName_rule hc hview fun hatOnce =>
        hatOnce.honest h.membership hrun⟩

end Server

open Server

/-- A `join` or `leave` that is refused at its first name, or has none, is atomic and truthful
whichever allocations fail. Where none fails, a request is so if and only if its names are a list
of which the first is refused or none is. -/
theorem atomic_truthful_iff {srv : Server} (h : Reachable jansson srv) (joins : Bool)
    (c : ClientPtr) (jsondata : Json) :
    (RefusedAtOnce joins srv c jsondata → ∀ alloc ret srv',
      changeGroups jansson joins alloc srv c jsondata = .ok (ret, srv') →
        Honest joins c jsondata srv srv') ∧
    ∀ history clnt, Reaches jansson history srv → srv.clnts.cells c = some clnt → ∃ ret srv',
      changeGroups jansson joins .succeed srv c jsondata = .ok (ret, srv') ∧
        (Honest joins c jsondata srv srv' ↔ FirstOrNone joins srv c jsondata) := by
  refine ⟨?_, ?_⟩
  · intro hatOnce alloc ret srv' hrun
    exact hatOnce.honest h.sturdy.membership hrun
  · intro history clnt hreaches hc
    exact changeGroups_honest hreaches.inv hc joins jsondata

/-- A client that leaves two groups of which it has joined one. -/
theorem atomic_truthful_iff_leave : ∃ history srv clnt,
    Reaches (compactJansson []) history srv ∧ srv.clnts.cells 0 = some clnt ∧
    clnt.groups.items = [0] ∧ ∃ ret srv',
      changeGroups (compactJansson []) false .succeed srv 0 (namesRequest "leave" ["a", "b"]) =
        .ok (ret, srv') ∧
      (Honest false 0 (namesRequest "leave" ["a", "b"]) srv srv' ↔
        FirstOrNone false srv 0 (namesRequest "leave" ["a", "b"])) := by
  have hscript : (script (compactJansson []) [.accept 3 false,
      .command 0 (namesRequest "join" ["a"]) []]).bind (fun result =>
        (result.2.clnts.cells 0).map fun clnt => clnt.groups.items) = some [0] := by decide +kernel
  obtain ⟨⟨history, srv⟩, hrun, hvalue⟩ := Option.bind_eq_some_iff.mp hscript
  obtain ⟨clnt, hc, hitems⟩ := Option.map_eq_some_iff.mp hvalue
  have h := script_reaches _ hrun
  exact ⟨history, srv, clnt, h, hc, hitems,
    (atomic_truthful_iff h.reachable false 0 _).2 history clnt h hc⟩

/-- Names of which the second is no string. -/
abbrev mixedNames : Json :=
  .object [("command", .string "join"), ("name", .array [.string "a", .integer 1])]

/-- The client is told of an error and is in the group all the same. -/
theorem not_atomic_truthful : ¬ ∀ (jansson : Jansson Json) srv, Reachable jansson srv →
    ∀ joins alloc c jsondata ret srv',
      changeGroups jansson joins alloc srv c jsondata = .ok (ret, srv') →
        Honest joins c jsondata srv srv' := by
  intro hall
  have hscript : (script (compactJansson []) [.accept 3 false]).bind (fun result =>
      (changeGroups (compactJansson []) true .succeed result.2 0 mixedNames).toOption.bind fun after =>
        (result.2.clnts.cells 0).bind fun clnt => (after.2.clnts.cells 0).map fun clnt' =>
          (clnt.groups.items, clnt'.groups.items,
            (clnt'.sent.drop clnt.sent.length).map Outgoing.status)) =
      some ([], [0], [some (-1)]) := by
    decide +kernel
  obtain ⟨⟨history, srv⟩, hrun, hscript⟩ := Option.bind_eq_some_iff.mp hscript
  obtain ⟨⟨ret, srv'⟩, hjoin, hscript⟩ := Option.bind_eq_some_iff.mp hscript
  obtain ⟨clnt, hc, hscript⟩ := Option.bind_eq_some_iff.mp hscript
  obtain ⟨clnt', hc', hvalue⟩ := Option.map_eq_some_iff.mp hscript
  obtain ⟨hbefore, hvalue⟩ := Prod.mk.inj hvalue
  obtain ⟨hafter, hstatus⟩ := Prod.mk.inj hvalue
  have hhonest := hall _ srv (script_reaches _ hrun).reachable true .succeed 0 mixedNames ret srv'
    (ok_of_toOption hjoin)
  obtain ⟨out, hout, hone⟩ := List.mem_map.mp (hstatus ▸ List.mem_singleton_self (some (-1)))
  have hsame := (hhonest.atomic ⟨clnt, clnt', hc, hc', out, hout, hone⟩).memberships
  dsimp only at hc hc'
  rw [hc, hc', Option.map_some, Option.map_some, hbefore, hafter] at hsame
  cases hsame

end Dime

end
