import Dime.Clients.Network

/-!
# Agreement on a serialization

What handshaken clients have been told amounts to the serialization of the server, in
any run of the network: the reply to the handshake, and whether they were told to switch
to dimeb since then.
-/

namespace Dime

open Dialogue

/-- The name of a serialization that is set. -/
def Serialization.label (serialization : Serialization) : String := serialization.name ""

theorem Serialization.name_eq_label {serialization : Serialization}
    (h : serialization ≠ .noSerialization) (requested : String) :
    serialization.name requested = serialization.label := by
  cases serialization with
  | noSerialization => exact absurd rfl h
  | matlab => rfl
  | pickle => rfl
  | dimeb => rfl
  | json => rfl

/-- What a handshaken client has been told agrees with a serialization. -/
def Told (sent : List Outgoing) (current : Serialization) : Prop :=
  current ≠ .noSerialization ∧ ∃ before name after,
    sent = before ++ .json (handshakeReply name false) :: after ∧
    (∀ out ∈ before, out = .json reregisterMeta) ∧
    (∀ out ∈ after, out.Quiet ∨ out = .json reregisterMeta) ∧
    current.label = if .json reregisterMeta ∈ after then "dimeb" else name

theorem Told.quiet {sent outs : List Outgoing} {current : Serialization} (h : Told sent current)
    (houts : ∀ out ∈ outs, out.Quiet) : Told (sent ++ outs) current := by
  obtain ⟨hset, before, name, after, rfl, hbefore, hafter, hlabel⟩ := h
  refine ⟨hset, before, name, after ++ outs, by simp, hbefore, ?_, ?_⟩
  · intro out hmem
    rcases List.mem_append.mp hmem with hmem | hmem
    · exact hafter out hmem
    · exact .inl (houts out hmem)
  · have hnot : Outgoing.json reregisterMeta ∉ outs := fun hmem =>
      Outgoing.not_quiet_reregister (houts _ hmem)
    simpa [hnot] using hlabel

theorem Told.reregister {sent : List Outgoing} {current : Serialization} (h : Told sent current) :
    Told (sent ++ [.json reregisterMeta]) .dimeb := by
  obtain ⟨_, before, name, after, rfl, hbefore, hafter, _⟩ := h
  refine ⟨by decide, before, name, after ++ [.json reregisterMeta], by simp, hbefore, ?_, ?_⟩
  · intro out hmem
    rcases List.mem_append.mp hmem with hmem | hmem
    · exact hafter out hmem
    · exact .inr (List.mem_singleton.mp hmem)
  · simp [Serialization.label, Serialization.name]

namespace Server

/-- The serialization that the first handshake asks for. -/
def asked (history : List (Server × Action)) : Option String :=
  history.findSome? fun entry =>
    match entry.2 with
    | .command _ jsondata _ =>
        if Hub.command jsondata = "handshake" then jsondata.unpackString "serialization" else none
    | _ => none

end Server

theorem requested_handshake (name : String) :
    requested (Request.handshake name).jsondata = Serialization.ofName name := rfl

variable {V W : Type} {platform : Platform V W} {endpoint : ClientPtr → Endpoint V W}
  {jansson : Jansson Json} {loads : CString → Json} {history : List (Server × Action)}
  {mid srv : Server} {action : Action} {c : ClientPtr} {clnt : Client}

/-- The first request of a client is its handshake, and others are none. -/
theorem Follows.cases {jsondata : Json} {bindata : Bytes}
    (h : Follows platform endpoint jansson loads history mid (.command c jsondata bindata)) :
    (Server.handled history c = [] ∧
      (⟨jsondata, bindata⟩ : Message) = Request.handshake (endpoint c).serialization) ∨
    Server.handled history c ≠ [] ∧ IsCall ⟨jsondata, bindata⟩ := by
  obtain ⟨rest, hrequests, hrest⟩ := (endpoint c).requests_eq platform
    (mid.stream jansson loads c)
  change ((endpoint c).requests platform (mid.stream jansson loads c))[
    (Server.handled history c).length]? = some ⟨jsondata, bindata⟩ at h
  rw [hrequests] at h
  cases hhandled : Server.handled history c with
  | nil =>
      left
      refine ⟨rfl, ?_⟩
      rw [hhandled] at h
      exact (Option.some.inj h).symm
  | cons request handled =>
      right
      refine ⟨List.cons_ne_nil _ _, hrest _ ?_⟩
      rw [hhandled, List.length_cons, List.getElem?_cons_succ] at h
      exact List.mem_of_getElem? h

theorem Endpoint.ofName_serialization (endpoint : Endpoint V W) :
    ∃ r, Serialization.ofName endpoint.serialization = some r ∧ r ≠ .noSerialization ∧
      (r = .json ↔ endpoint.serialization = "json") := by
  cases endpoint with
  | python useJson calls =>
      cases useJson with
      | true => exact ⟨.json, rfl, by decide, by simp [Endpoint.serialization]⟩
      | false => exact ⟨.pickle, rfl, by decide, by simp [Endpoint.serialization]⟩
  | matlab calls => exact ⟨.matlab, rfl, by decide, by simp [Endpoint.serialization]⟩
  | javascript calls => exact ⟨.json, rfl, by decide, by simp [Endpoint.serialization]⟩

namespace Serialization

/-- The serialization suits a client that has asked for another. -/
def Suits (current : Serialization) (name : String) : Prop :=
  ofName name = some current ∨ current = .dimeb ∨ current = .json

variable {current r : Serialization} {jsondata : Json} {name : String}

theorem after_ne (h : requested jsondata = some r) (hr : r ≠ .noSerialization) :
    current.after jsondata ≠ .noSerialization := by
  by_cases hset : current = .noSerialization
  · simp [after, h, hset, hr]
  · by_cases hswitch : current.switches jsondata = true
    · rw [after_of_switches hswitch]
      decide
    · rwa [after_of_not_switches (Bool.eq_false_iff.mpr hswitch) hset]

/-- A handshake leaves a serialization that suits the client. -/
theorem after_suits (h : requested jsondata = some r) (hname : ofName name = some r) :
    (current.after jsondata).Suits name := by
  by_cases hset : current = .noSerialization
  · left
    simp [after, h, hset, hname]
  · by_cases hswitch : current.switches jsondata = true
    · right
      left
      exact after_of_switches hswitch
    · rw [after_of_not_switches (Bool.eq_false_iff.mpr hswitch) hset]
      simp only [switches, h, decide_eq_true_iff, not_and_or, not_not] at hswitch
      rcases hswitch with hbad | heq | hdimeb | hjson
      · exact absurd hbad hset
      · exact .inl (by rw [hname, heq])
      · exact .inr (.inl hdimeb)
      · exact .inr (.inr hjson)

theorem after_eq_json_iff (hset : current ≠ .noSerialization) :
    current.after jsondata = .json ↔ current = .json := by
  by_cases hswitch : current.switches jsondata = true
  · rw [after_of_switches hswitch]
    constructor
    · exact fun hbad => by cases hbad
    · rintro rfl
      cases hrequested : requested jsondata <;> simp [switches, hrequested] at hswitch
  · rw [after_of_not_switches (Bool.eq_false_iff.mpr hswitch) hset]

/-- It goes on to suit the others. -/
theorem Suits.after (h : current.Suits name) (hset : current ≠ .noSerialization) :
    (current.after jsondata).Suits name := by
  by_cases hswitch : current.switches jsondata = true
  · right
    left
    exact after_of_switches hswitch
  · rwa [after_of_not_switches (Bool.eq_false_iff.mpr hswitch) hset]

end Serialization

/-- What holds of the clients in a run of the network: before its handshake, a client has been
told to switch at most; after it, what it has been told agrees with the serialization of the
server, which suits it. -/
structure Linked (endpoint : ClientPtr → Endpoint V W) (history : List (Server × Action))
    (srv : Server) : Prop where
  early : ∀ c clnt, srv.clnts.cells c = some clnt → Server.handled history c = [] →
    clnt.waiting = false ∧ ∀ out ∈ clnt.sent, out = .json reregisterMeta
  told : ∀ c clnt, srv.clnts.cells c = some clnt → Server.handled history c ≠ [] →
    Told clnt.sent srv.serialization
  suits : ∀ c clnt, srv.clnts.cells c = some clnt → Server.handled history c ≠ [] →
    srv.serialization.Suits (endpoint c).serialization
  calm : ∀ c clnt, srv.clnts.cells c = some clnt → (Server.handled history c).length = 1 →
    clnt.waiting = false ∧ (clnt.sent.filter (· ≠ .json reregisterMeta)).length = 1

/-- What `Linked` says of one client, by the requests of its that have been handled. -/
structure LinkedTo (name : String) (requests : List Message) (current : Serialization)
    (clnt : Client) : Prop where
  early : requests = [] → clnt.waiting = false ∧ ∀ out ∈ clnt.sent, out = .json reregisterMeta
  told : requests ≠ [] → Told clnt.sent current
  suits : requests ≠ [] → current.Suits name
  calm : requests.length = 1 →
    clnt.waiting = false ∧ (clnt.sent.filter (· ≠ .json reregisterMeta)).length = 1

theorem Linked.to (h : Linked endpoint history srv) (hc : srv.clnts.cells c = some clnt) :
    LinkedTo (endpoint c).serialization (Server.handled history c) srv.serialization clnt :=
  ⟨h.early c clnt hc, h.told c clnt hc, h.suits c clnt hc, h.calm c clnt hc⟩

namespace LinkedTo

variable {name : String} {requests : List Message} {current r : Serialization} {clnt' : Client}
  {jsondata : Json} {bindata : Bytes}

theorem of_same (h : LinkedTo name requests current clnt) (hsent : clnt'.sent = clnt.sent)
    (hwaiting : clnt'.waiting = clnt.waiting) : LinkedTo name requests current clnt' := by
  refine ⟨?_, ?_, h.suits, ?_⟩
  · rw [hsent, hwaiting]
    exact h.early
  · rw [hsent]
    exact h.told
  · rw [hsent, hwaiting]
    exact h.calm

theorem fresh (hsent : clnt.sent = []) (hwaiting : clnt.waiting = false) :
    LinkedTo name [] current clnt :=
  ⟨fun _ => ⟨hwaiting, by simp [hsent]⟩, fun hne => absurd rfl hne, fun hne => absurd rfl hne,
    fun hone => by cases hone⟩

/-- The handshake of the client: before its reply, the client can only be told to switch. -/
theorem handshake (h : LinkedTo name [] current clnt) (hrequested : requested jsondata = some r)
    (hname : Serialization.ofName name = some r) (hr : r ≠ .noSerialization)
    (hawake : clnt'.waiting = clnt.waiting) {asked : String}
    (hreply : clnt'.sent = clnt.sent ++
      [.json (handshakeReply ((current.after jsondata).name asked) false)]) :
    LinkedTo name ([] ++ [⟨jsondata, bindata⟩]) (current.after jsondata) clnt' := by
  have hset : current.after jsondata ≠ .noSerialization := Serialization.after_ne hrequested hr
  obtain ⟨hwaiting, hearly⟩ := h.early rfl
  refine ⟨fun hnil => absurd hnil (List.cons_ne_nil _ _),
    fun _ => ⟨hset, clnt.sent, _, [], hreply, hearly, by simp, ?_⟩,
    fun _ => Serialization.after_suits hrequested hname,
    fun _ => ⟨hawake.trans hwaiting, ?_⟩⟩
  · rw [Serialization.name_eq_label hset]
    simp
  · rw [hreply, List.filter_append, List.filter_eq_nil_iff.mpr fun out hmem => by
      simp [hearly out hmem]]
    simp [handshakeReply, reregisterMeta]

/-- Another request of the client. -/
theorem call (h : LinkedTo name requests current clnt) (hne : requests ≠ [])
    (hrequested : requested jsondata = none) {outs : List Outgoing}
    (hquiet : ∀ out ∈ outs, out.Quiet) (hsent : clnt'.sent = clnt.sent ++ outs) :
    LinkedTo name (requests ++ [⟨jsondata, bindata⟩]) (current.after jsondata) clnt' := by
  rw [Serialization.after_of_requested_eq_none hrequested]
  refine ⟨fun hnil => by simp at hnil, fun _ => ?_, fun _ => h.suits hne, fun hone => ?_⟩
  · rw [hsent]
    exact (h.told hne).quiet hquiet
  · have hpos := List.length_pos_of_ne_nil hne
    rw [List.length_append, List.length_singleton] at hone
    omega

/-- A request of another client. -/
theorem other (h : LinkedTo name requests current clnt) {told : List Outgoing}
    (hquiet : ∀ out ∈ told, out.Quiet)
    (hawake : clnt.waiting = false → told = [] ∧ clnt'.waiting = false)
    (hsent : clnt'.sent = clnt.sent ++
      (told ++ if current.switches jsondata then [.json reregisterMeta] else [])) :
    LinkedTo name requests (current.after jsondata) clnt' := by
  refine ⟨?_, ?_, fun hne => (h.suits hne).after (h.told hne).1, ?_⟩
  · intro hnil
    obtain ⟨hwaiting, hearly⟩ := h.early hnil
    obtain ⟨rfl, hwaiting'⟩ := hawake hwaiting
    refine ⟨hwaiting', ?_⟩
    intro out hmem
    rw [hsent] at hmem
    rcases List.mem_append.mp hmem with hmem | hmem
    · exact hearly out hmem
    · rw [List.nil_append] at hmem
      split at hmem
      next => exact List.mem_singleton.mp hmem
      next => cases hmem
  · intro hne
    have htold := (h.told hne).quiet hquiet
    rw [hsent, ← List.append_assoc]
    by_cases hswitch : current.switches jsondata = true
    · rw [if_pos hswitch, Serialization.after_of_switches hswitch]
      exact htold.reregister
    · rw [if_neg hswitch, List.append_nil,
        Serialization.after_of_not_switches (Bool.eq_false_iff.mpr hswitch) htold.1]
      exact htold
  · intro hone
    obtain ⟨hwaiting, hcount⟩ := h.calm hone
    obtain ⟨rfl, hwaiting'⟩ := hawake hwaiting
    refine ⟨hwaiting', ?_⟩
    rw [hsent, List.nil_append, List.filter_append, List.length_append, hcount]
    split <;> simp

end LinkedTo

namespace Server

theorem handled_command (c₀ : ClientPtr) (jsondata : Json) (bindata : Bytes) (c : ClientPtr)
    (hne : c ≠ c₀) :
    handled (history ++ [(mid, .command c₀ jsondata bindata)]) c = handled history c := by
  rw [handled_append, handled_singleton_command, if_neg (Ne.symm hne), List.append_nil]

/-- What an event of the network leaves of a client. -/
theorem linked_step {srv' : Server} {clnt' : Client} (hmid : Reaches jansson history mid)
    (hlinked : Linked endpoint history mid)
    (hfollows : Follows platform endpoint jansson loads history mid action)
    (hacts : mid.view.Acts jansson action srv'.view) (hc' : srv'.clnts.cells c = some clnt') :
    LinkedTo (endpoint c).serialization (handled (history ++ [(mid, action)]) c)
      srv'.serialization clnt' := by
  have hserialization := hacts.serialization
  rcases tells hacts hc' with ⟨clnt, outs, hc, hsent, htells⟩ |
    ⟨hnew, hsent, hwaiting, fd, ws, rfl⟩
  · have hto := hlinked.to hc
    cases htells with
    | own jsondata bindata hquiet =>
        have hafter : srv'.serialization = mid.serialization.after jsondata := hserialization
        rw [handled_append, handled_singleton_command, if_pos rfl, hafter]
        rcases hfollows.cases with ⟨hnil, hrequest⟩ | ⟨hne, hcall, _⟩
        · obtain ⟨r, hname, hr, _⟩ := (endpoint c).ofName_serialization
          have hrequested : requested jsondata = some r := by
            rw [show jsondata = (Request.handshake (endpoint c).serialization).jsondata from
              congrArg Socket.Message.jsondata hrequest, requested_handshake, hname]
          have hpeer : mid.view.peers c = some (clnt.view mid.content) := by
            rw [view_peers, hc, Option.map_some]
          obtain ⟨name, peer', _, _, hpeer', hawake, hpushed⟩ :=
            Hub.Handles.handshakes hacts hrequested hpeer
          rw [view_peers, hc', Option.map_some] at hpeer'
          cases hpeer'
          rw [hnil] at hto ⊢
          exact hto.handshake hrequested hname hr hawake hpushed
        · exact hto.call hne (requested_eq_none hcall) hquiet hsent
    | @other c₀ jsondata bindata told hne hquiet hawake =>
        have hafter : srv'.serialization = mid.serialization.after jsondata := hserialization
        rw [handled_command c₀ jsondata bindata c hne, hafter]
        exact hto.other hquiet hawake hsent
    | nothing hno hsame =>
        have hsame' : srv'.serialization = mid.serialization := by
          cases action with
          | command c₀ jsondata bindata => exact absurd rfl (hno c₀ jsondata bindata)
          | accept fd ws => exact hserialization
          | find fd => exact hserialization
          | transfer c₀ sock => exact hserialization
          | close c₀ => exact hserialization
        rw [handled_append, handled_singleton_of_ne (hno c), List.append_nil, hsame']
        exact hto.of_same (hsent.trans (List.append_nil _)) hsame
  · rw [handled_append, hmid.handled_fresh c (by rw [hnew]),
      handled_singleton_of_ne fun _ _ => Action.noConfusion]
    exact .fresh hsent hwaiting

theorem Reaches.linked (h : Reaches jansson history srv) :
    Driven platform endpoint jansson loads history → Linked endpoint history srv := by
  refine Reaches.induct (P := fun history srv => Driven platform endpoint jansson loads history →
    Linked endpoint history srv) jansson ?_ ?_ h
  · intro start hinit _
    have hnone : ∀ c clnt, start.clnts.cells c ≠ some clnt := by
      intro c clnt hc
      cases hinit
      cases hc
    exact ⟨fun c clnt hc => absurd hc (hnone c clnt), fun c clnt hc => absurd hc (hnone c clnt),
      fun c clnt hc => absurd hc (hnone c clnt), fun c clnt hc => absurd hc (hnone c clnt)⟩
  · intro history mid action srv' hmid ih henabled _ hacts hdriven
    obtain ⟨hbefore, hfollows⟩ := driven_append.mp hdriven
    have hlinked := ih hbefore
    have hstep : ∀ c clnt, srv'.clnts.cells c = some clnt →
        LinkedTo (endpoint c).serialization (handled (history ++ [(mid, action)]) c)
          srv'.serialization clnt := fun c clnt hc => linked_step hmid hlinked hfollows hacts hc
    exact ⟨fun c clnt hc => (hstep c clnt hc).early, fun c clnt hc => (hstep c clnt hc).told,
      fun c clnt hc => (hstep c clnt hc).suits, fun c clnt hc => (hstep c clnt hc).calm⟩

/-- The serialization is set by the first handshake, and is json if and only if that asks
for it. -/
theorem Reaches.asks (h : Reaches jansson history srv) :
    Driven platform endpoint jansson loads history →
      (asked history = none → srv.serialization = .noSerialization) ∧
      ∀ name, asked history = some name → srv.serialization ≠ .noSerialization ∧
        (srv.serialization = .json ↔ name = "json") := by
  refine Reaches.induct (P := fun history srv => Driven platform endpoint jansson loads history →
    (asked history = none → srv.serialization = .noSerialization) ∧
    ∀ name, asked history = some name → srv.serialization ≠ .noSerialization ∧
      (srv.serialization = .json ↔ name = "json")) jansson ?_ ?_ h
  · intro start hinit _
    cases hinit
    exact ⟨fun _ => rfl, fun name hname => by cases hname⟩
  · intro history mid action srv' hmid ih _ _ hacts hdriven
    obtain ⟨hbefore, hfollows⟩ := driven_append.mp hdriven
    obtain ⟨hunset, hset⟩ := ih hbefore
    have hserialization := hacts.serialization
    have hasked : asked (history ++ [(mid, action)]) =
        (asked history).or (asked [(mid, action)]) := List.findSome?_append
    rw [hasked]
    -- an event that is no handshake
    have hsame : srv'.serialization = mid.serialization → asked [(mid, action)] = none →
        ((asked history).or (asked [(mid, action)]) = none →
          srv'.serialization = .noSerialization) ∧
        ∀ name, (asked history).or (asked [(mid, action)]) = some name →
          srv'.serialization ≠ .noSerialization ∧ (srv'.serialization = .json ↔ name = "json") := by
      intro hkeeps hnone
      rw [hkeeps, hnone, Option.or_none]
      exact ⟨hunset, hset⟩
    cases action with
    | command c jsondata bindata =>
        have hafter : srv'.serialization = mid.serialization.after jsondata := hserialization
        rcases hfollows.cases with ⟨_, hrequest⟩ | ⟨_, hcall, _⟩
        · obtain ⟨r, hname, hr, hjson⟩ := (endpoint c).ofName_serialization
          have hjsondata : jsondata = (Request.handshake (endpoint c).serialization).jsondata :=
            congrArg Socket.Message.jsondata hrequest
          subst hjsondata
          have hrequested := requested_handshake (endpoint c).serialization
          rw [hname] at hrequested
          have hone : asked [(mid, .command c
              (Request.handshake (endpoint c).serialization).jsondata bindata)] =
              some (endpoint c).serialization := rfl
          rw [hafter, hone]
          cases hfirst : asked history with
          | none =>
              have hstart := hunset hfirst
              refine ⟨fun hbad => (by cases hbad), ?_⟩
              intro name hor
              cases hor
              simp only [hstart, Serialization.after, hrequested, if_true]
              exact ⟨hr, hjson⟩
          | some first =>
              obtain ⟨hstarted, hfirstJson⟩ := hset first hfirst
              refine ⟨fun hbad => (by cases hbad), ?_⟩
              intro name hor
              cases hor
              exact ⟨Serialization.after_ne hrequested hr,
                (Serialization.after_eq_json_iff hstarted).trans hfirstJson⟩
        · apply hsame
          · rw [hafter, Serialization.after_of_requested_eq_none (requested_eq_none hcall)]
          · simp [asked, hcall]
    | accept fd ws => exact hsame hserialization rfl
    | find fd => exact hsame hserialization rfl
    | transfer c₀ sock => exact hsame hserialization rfl
    | close c₀ => exact hsame hserialization rfl

end Server

end Dime
