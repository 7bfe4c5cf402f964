import Dime.Clients.Consumption
import Dime.Clients.SyncResults
import Dime.Clients.Python.Underway

/-!
# The workspace of a Python client

`sync` puts what `sync_r` returns into the workspace. In a run of the network, a workspace has
the last values of the messages that the server has queued for the client, up to those that the
client has not taken yet, however often and with whatever counts it synchronises.
-/

namespace Dime

open Dialogue Server

variable {V W : Type} {platform : Platform V W} {endpoint : ClientPtr → Endpoint V W}
  {jansson : Jansson Json} {loads : CString → Json} {history : List (Server × Action)}
  {mid srv : Server} {c : ClientPtr} {clnt : Client}

/-! ## What is relayed in a run -/

/-- Relayed messages have no status. -/
def isRelayed (message : Message) : Bool := (message.jsondata.get? "status").isNone

/-- A message that the server has queued, as the client reads it. -/
def Queued.message (loads : CString → Json) (m : Queued) : Message := ⟨loads m.jsondata, m.bindata⟩

/-- What has been queued for a client in a run. -/
noncomputable def Server.addressed (jansson : Jansson Json) (loads : CString → Json)
    (history : List (Server × Action)) (c : ClientPtr) : List Message :=
  (expected jansson history c).map (Queued.message loads)

/-- A request in a run is a handshake, or one of the calls. -/
theorem Driven.request_of {P : Message → Prop} (hP : OfCalls P)
    (h : Driven platform endpoint jansson loads history) {jsondata : Json} {bindata : Bytes}
    (hmem : (mid, .command c jsondata bindata) ∈ history) :
    (⟨jsondata, bindata⟩ : Message) = Request.handshake (endpoint c).serialization ∨
      P ⟨jsondata, bindata⟩ := by
  obtain ⟨before, after, rfl⟩ := List.append_of_mem hmem
  have hfollows : ((endpoint c).requests platform (mid.stream jansson loads c))[
      (handled before c).length]? = some ⟨jsondata, bindata⟩ := h.follows.2
  obtain ⟨rest, hrequests, hrest⟩ :=
    (endpoint c).requests_of hP platform (mid.stream jansson loads c)
  rw [hrequests] at hfollows
  rcases List.mem_cons.mp (List.mem_of_getElem? hfollows) with heq | hin
  · exact .inl heq
  · exact .inr (hrest _ hin)

namespace Server

/-- All that a client is sent is relayed to it or has a status. -/
theorem Reaches.sent_cases (h : Reaches jansson history srv)
    (hdriven : Driven platform endpoint jansson loads history)
    (hparses : Parses jansson loads history srv) (hc : srv.clnts.cells c = some clnt)
    {out : Outgoing} (hout : out ∈ clnt.sent) :
    (∃ m : Queued, out.queued? = some m ∧ out.message jansson loads = m.message loads ∧
      isRelayed (m.message loads) = true) ∨
    (out.queued? = none ∧ isRelayed (out.message jansson loads) = false) := by
  have hparsed := hparses.sent h hc
  cases out with
  | relay p jsondata bindata =>
      left
      have hstatus := hdriven.status_relayed h hparsed.2 hc (m := ⟨p, jsondata, bindata⟩) hout
      refine ⟨⟨p, jsondata, bindata⟩, rfl, rfl, ?_⟩
      exact Option.isNone_iff_eq_none.mpr hstatus
  | statusOk =>
      right
      have hstatus := Outgoing.status_message (hparsed.1 _ hout) (show _ = some 0 from rfl)
      exact ⟨rfl, by rw [isRelayed, hstatus]; rfl⟩
  | json body =>
      right
      refine ⟨rfl, ?_⟩
      suffices hstatus : ∃ n, (Outgoing.json body).status = some n by
        obtain ⟨n, hn⟩ := hstatus
        rw [isRelayed, Outgoing.status_message (hparsed.1 _ hout) hn]
        rfl
      have hlinked := h.linked hdriven
      by_cases hhandled : handled history c = []
      · rw [(hlinked.early c clnt hc hhandled).2 _ hout]
        exact ⟨1, rfl⟩
      · obtain ⟨_, before, name, after, hsent, hbefore, hafter, _⟩ := hlinked.told c clnt hc hhandled
        rw [hsent] at hout
        rcases List.mem_append.mp hout with hmem | hmem
        · rw [hbefore _ hmem]
          exact ⟨1, rfl⟩
        · rcases List.mem_cons.mp hmem with heq | hmem
          · rw [heq]
            exact ⟨0, rfl⟩
          · rcases hafter _ hmem with (hrelay | hzero | hneg) | heq
            · cases hrelay
            · exact ⟨0, hzero⟩
            · exact ⟨-1, hneg⟩
            · rw [heq]
              exact ⟨1, rfl⟩

/-- What has been queued for a client has been relayed to it, or is in its queue. -/
theorem Reaches.addressed_eq (h : Reaches jansson history srv)
    (hdriven : Driven platform endpoint jansson loads history)
    (hparses : Parses jansson loads history srv) (hc : srv.clnts.cells c = some clnt) :
    addressed jansson loads history c =
      (srv.stream jansson loads c).filter isRelayed ++ srv.queueOf loads c := by
  have hbalance := h.balanced.balance c (clnt.view srv.content)
    (by rw [view_peers, hc, Option.map_some])
  have hrelayed : ∀ sent : List Outgoing, (∀ out ∈ sent, out ∈ clnt.sent) →
      (sent.map (Outgoing.message jansson loads)).filter isRelayed =
        (sent.filterMap Outgoing.queued?).map (Queued.message loads) := by
    intro sent hsent
    induction sent with
    | nil => rfl
    | cons out sent ih =>
        obtain ⟨hout, hrest⟩ := List.forall_mem_cons.mp hsent
        rw [List.map_cons]
        rcases h.sent_cases hdriven hparses hc hout with
          ⟨m, hqueued, hmessage, hrelayed⟩ | ⟨hqueued, hnot⟩
        · rw [hmessage, List.filter_cons_of_pos hrelayed, List.filterMap_cons_some hqueued,
            List.map_cons, ih hrest]
        · rw [List.filter_cons_of_neg (Bool.eq_false_iff.mp hnot), List.filterMap_cons_none hqueued,
            ih hrest]
  rw [addressed, ← hbalance, List.map_append, stream_eq hc, hrelayed _ fun _ hout => hout,
    queueOf_eq hc]
  rfl

end Server

/-- What has been queued for a client are requests that have been handled. -/
theorem mem_addressed
    (hloads : ∀ jsondata ∈ submissions history, loads (jansson.dumps jsondata) = jsondata)
    {message : Message} (hmem : message ∈ addressed jansson loads history c) :
    ∃ mid c', (mid, .command c' message.jsondata message.bindata) ∈ history ∧
      (Hub.command message.jsondata = "send" ∨ Hub.command message.jsondata = "broadcast") := by
  obtain ⟨m, hm, rfl⟩ := List.mem_map.mp hmem
  obtain ⟨mid, c', jsondata, hin, hcommand, hdumps⟩ := mem_expected hm
  have hjsondata : (m.message loads).jsondata = jsondata := by
    change loads m.jsondata = jsondata
    rw [hdumps, hloads jsondata (mem_submissions hin)]
  rw [hjsondata]
  exact ⟨mid, c', hin, hcommand⟩

/-- A request that puts messages into queues tells the name of a variable, and a serialization. -/
def Describes (request : Message) : Prop :=
  Hub.command request.jsondata = "send" ∨ Hub.command request.jsondata = "broadcast" →
    request.jsondata.get? "varname" = some (.string (text request "varname")) ∧
      (request.jsondata.get? "serialization").isSome = true

theorem describes_other {request : Message} {name : String}
    (hname : request.jsondata.unpackString "command" = some name) (hsend : name ≠ "send")
    (hbroadcast : name ≠ "broadcast") : Describes request := by
  rintro (hcommand | hcommand)
  · exact absurd hcommand (command_ne hname hsend)
  · exact absurd hcommand (command_ne hname hbroadcast)

theorem ofCalls_describes : OfCalls Describes where
  join _ := describes_other (show _ = some "join" from rfl) (by decide) (by decide)
  leave _ := describes_other (show _ = some "leave" from rfl) (by decide) (by decide)
  send _ _ _ _ := fun _ => ⟨rfl, rfl⟩
  broadcast _ _ _ := fun _ => ⟨rfl, rfl⟩
  sync _ := describes_other (show _ = some "sync" from rfl) (by decide) (by decide)
  wait := describes_other (show _ = some "wait" from rfl) (by decide) (by decide)
  devices := describes_other (show _ = some "devices" from rfl) (by decide) (by decide)

namespace Python

variable {modules : Modules} {fuel : Nat}

/-- What is queued in a run are variables. -/
theorem tagged_of_addressed (hdriven : Driven platform endpoint jansson loads history)
    (hloads : ∀ jsondata ∈ submissions history, loads (jansson.dumps jsondata) = jsondata)
    {message : Message} (hmem : message ∈ addressed jansson loads history c) :
    Tagged modules message := by
  obtain ⟨mid, c', hin, hcommand⟩ := mem_addressed hloads hmem
  have hdescribes : Describes message := by
    rcases hdriven.request_of ofCalls_describes hin with heq | hP
    · have hhandshake : message.jsondata.unpackString "command" = some "handshake" := by
        rw [show message.jsondata = _ from congrArg Socket.Message.jsondata heq]
        rfl
      exact describes_other hhandshake (by decide) (by decide)
    · exact hP
  obtain ⟨hvarname, hserialization⟩ := hdescribes hcommand
  exact ⟨hdriven.status_eq_none hin, hserialization, fun _ => hvarname⟩

/-! ## What the methods read -/

theorem checkStatus_eq_ok {jsondata : Json} (h : checkStatus jsondata = .ok ()) :
    ∃ status, jsondata.get? "status" = some status := by
  cases hstatus : jsondata.get? "status" with
  | some status => exact ⟨status, rfl⟩
  | none => simp [checkStatus, getitem, hstatus, Bind.bind, Except.bind] at h

theorem distinguishes : Distinguishes DimeClient.listener isRelayed where
  aside message f h := by
    have hmeta := (Listener.hearing_eq_aside.mp h).1
    cases hstatus : message.jsondata.get? "status" with
    | some status => rw [isRelayed, hstatus]; rfl
    | none => simp [DimeClient.listener, isMeta, hstatus] at hmeta
  check message h := by
    obtain ⟨status, hstatus⟩ := checkStatus_eq_ok h
    rw [isRelayed, hstatus]
    rfl

/-- A message with a status ends the loop of `sync_r`, or makes it fail. -/
theorem stops {message : Message} (h : isRelayed message = false) :
    DimeClient.judge modules message = .finish ∨ ∃ err, DimeClient.judge modules message = .fail err := by
  have hsome : (message.jsondata.get? "status").isSome = true := by
    rw [isRelayed, Option.isNone_eq_false_iff] at h
    exact h
  unfold DimeClient.judge
  rw [if_pos hsome]
  cases hcheck : checkStatus message.jsondata with
  | ok _ => exact .inl rfl
  | error err => exact .inr ⟨err, rfl⟩

theorem sync_r_consumes (n : Int64) : (DimeClient.sync_r modules fuel n).Consumes fun vars read =>
    Fits (decoders modules) (Tagged modules) (fun _ => True) (read.filter isRelayed) →
      HasValues (decoders modules) dict [] (read.filter isRelayed) vars :=
  (judges modules).sync_consumes (resyncs modules)
    (fun entries more => congrArg Prog.done (update_dict entries more)) distinguishes
    (fun _ => stops) n

theorem open_spares (useJson : Bool) : Spares isRelayed (DimeClient.open' fuel useJson) :=
  (distinguishes.call _).bind fun _ => (Spares.ofExcept _).bind fun _ =>
    Prog.consumes_get fun _ => Prog.consumes_put (Prog.consumes_done rfl)

theorem send_r_spares (name : String) (kvpairs : List (String × Value)) :
    Spares isRelayed (DimeClient.send_r modules fuel name kvpairs) := by
  induction fuel with
  | zero => exact Prog.consumes_exhausted
  | succ fuel ih => exact distinguishes.transmit (DimeClient.pipeline modules) ih _

/-- A call that does not synchronise reads no relayed message if it returns. -/
theorem method_spares {call : Call} (h : ∀ n, call ≠ .sync_r n) :
    Spares isRelayed (call.method modules fuel) := by
  cases call with
  | join names => exact (distinguishes.call _).bind fun _ => .done ()
  | leave names => exact (distinguishes.call _).bind fun _ => .done ()
  | send_r name kvpairs => exact send_r_spares name kvpairs
  | broadcast_r kvpairs =>
      exact distinguishes.transmit (DimeClient.pipeline modules) (Prog.consumes_raise _) _
  | sync_r n => exact absurd rfl (h n)
  | wait => exact ((distinguishes.call _).bind fun _ => .ofExcept _).bind fun _ => .done ()
  | devices => exact ((distinguishes.call _).bind fun _ => .ofExcept _).bind fun _ => .done ()

/-! ## The workspace -/

section

variable (modules fuel)

/-- `sync`: the workspace after it, and the names of what has been put in. -/
def DimeClient.sync (workspace : List (Value × Value)) (n : Int64) :
    Method (List (Value × Value) × List Value) := do
  let updates ← DimeClient.sync_r modules fuel n
  return (DimeClient.update workspace updates, updates.map Prod.fst)

/-- A call, or `sync` in the place of `sync_r`, and the workspace after it. -/
def Call.working (workspace : List (Value × Value)) : Call → Method (List (Value × Value))
  | .sync_r n => do
      let synced ← DimeClient.sync modules fuel workspace n
      return synced.1
  | call => do
      call.method modules fuel
      return workspace

/-- One call after the other, as long as they return. -/
def callsWorking : List (Value × Value) → List Call → Method (List (Value × Value))
  | workspace, [] => return workspace
  | workspace, call :: rest => do
      let workspace ← call.working modules fuel workspace
      callsWorking workspace rest

/-- A client that connects and then makes calls, all of which return: its workspace. -/
def sessionWorking (useJson : Bool) (cs : List Call) : Method (List (Value × Value)) := do
  DimeClient.open' fuel useJson
  callsWorking modules fuel [] cs

end

theorem working_covers (workspace : List (Value × Value)) (call : Call) :
    (call.working modules fuel workspace).Covers (call.method modules fuel) := by
  cases call with
  | sync_r n =>
      have hassoc : Call.working modules fuel workspace (.sync_r n) =
          (DimeClient.sync_r modules fuel n).bind fun updates =>
            .done (DimeClient.update workspace updates) := Prog.bind_assoc _ _ _
      rw [hassoc]
      exact (Prog.Covers.refl _).bind fun _ _ => Prog.covers_done _ _
  | _ => exact Prog.covers_map _ _

theorem sessionWorking_covers (useJson : Bool) (cs : List Call) :
    (sessionWorking modules fuel useJson cs).Covers (session modules fuel useJson cs) := by
  have hcalls : ∀ workspace, (callsWorking modules fuel workspace cs).Covers
      (calls modules fuel cs) := by
    induction cs with
    | nil => exact fun workspace => Prog.covers_done _ _
    | cons call rest ih =>
        exact fun workspace => (working_covers workspace call).attempt.bind fun workspace _ =>
          ih workspace
  exact (Prog.Covers.refl _).bind fun _ _ => hcalls []

/-- What a call makes of a workspace. -/
theorem working_consumes (workspace : List (Value × Value)) (call : Call) :
    (call.working modules fuel workspace).Consumes fun workspace' read =>
      ∀ entries, workspace = dict entries → (entries.map Prod.fst).Nodup →
        Fits (decoders modules) (Tagged modules) (fun _ => True) (read.filter isRelayed) →
        HasValues (decoders modules) dict entries (read.filter isRelayed) workspace' := by
  by_cases hsync : ∃ n, call = .sync_r n
  · obtain ⟨n, rfl⟩ := hsync
    refine Prog.Consumes.bind (R := fun synced read => ∀ entries, workspace = dict entries →
        (entries.map Prod.fst).Nodup →
        Fits (decoders modules) (Tagged modules) (fun _ => True) (read.filter isRelayed) →
        HasValues (decoders modules) dict entries (read.filter isRelayed) synced.1) ?_ ?_
    · refine Prog.Consumes.bind (sync_r_consumes n) fun updates read hread => Prog.consumes_done ?_
      rintro entries rfl hnodup hfits
      rw [List.append_nil] at hfits ⊢
      obtain ⟨more, rfl, hmore, hvalues⟩ := hread hfits
      refine ⟨Association.update entries more, update_dict entries more,
        Association.nodup_update hnodup, fun varname => ?_⟩
      rw [Association.lookup_update hmore, hvalues, Association.lookup_nil, Option.or_none]
    · intro synced read hread
      refine Prog.consumes_done ?_
      rw [List.append_nil]
      exact hread
  · have hother : ∀ n, call ≠ .sync_r n := fun n heq => hsync ⟨n, heq⟩
    have hwork : call.working modules fuel workspace =
        (call.method modules fuel).bind fun _ => .done workspace := by
      cases call with
      | sync_r n => exact absurd rfl (hother n)
      | _ => rfl
    rw [hwork]
    refine Prog.Consumes.bind (method_spares hother) fun _ read hread => Prog.consumes_done ?_
    rintro entries rfl hnodup _
    rw [List.append_nil, hread]
    exact ⟨entries, rfl, hnodup, fun _ => rfl⟩

/-- One call after the other. -/
theorem callsWorking_consumes (workspace : List (Value × Value)) (cs : List Call) :
    (callsWorking modules fuel workspace cs).Consumes fun workspace' read =>
      ∀ entries, workspace = dict entries → (entries.map Prod.fst).Nodup →
        Fits (decoders modules) (Tagged modules) (fun _ => True) (read.filter isRelayed) →
        HasValues (decoders modules) dict entries (read.filter isRelayed) workspace' := by
  induction cs generalizing workspace with
  | nil =>
      refine Prog.consumes_done ?_
      rintro entries rfl hnodup _
      exact ⟨entries, rfl, hnodup, fun _ => rfl⟩
  | cons call rest ih =>
      refine Prog.Consumes.bind (working_consumes workspace call) fun workspace' read hread => ?_
      refine (ih workspace').mono fun workspace'' more hmore entries hworkspace hnodup hfits => ?_
      rw [List.filter_append] at hfits ⊢
      have hsecond : Fits (decoders modules) (Tagged modules) (fun _ => True)
          (more.filter isRelayed) := hfits.mono fun _ => List.mem_append_right _
      obtain ⟨entries', hworkspace', hnodup', hvalues'⟩ := hread entries hworkspace hnodup
        (hfits.mono fun _ => List.mem_append_left _)
      obtain ⟨entries'', hworkspace'', hnodup'', hvalues''⟩ :=
        hmore entries' hworkspace' hnodup' hsecond
      refine ⟨entries'', hworkspace'', hnodup'', fun varname => ?_⟩
      rw [hvalues'', hvalues', lastValue_append hsecond.decodes, Option.or_assoc]

theorem sessionWorking_consumes (useJson : Bool) (cs : List Call) :
    (sessionWorking modules fuel useJson cs).Consumes fun workspace read =>
      Fits (decoders modules) (Tagged modules) (fun _ => True) (read.filter isRelayed) →
        HasValues (decoders modules) dict [] (read.filter isRelayed) workspace := by
  refine Prog.Consumes.bind (open_spares useJson) fun _ read hread => ?_
  refine (callsWorking_consumes [] cs).mono fun workspace more hmore hfits => ?_
  rw [List.filter_append, hread, List.nil_append] at hfits ⊢
  exact hmore [] rfl (by simp) hfits

/-! ## In a run -/

/-- The calls of a client with the messages that have been pushed to it, and its workspace. -/
def worked (platform : Platform V W) (useJson : Bool) (cs : List Call) (stream : List Message) :
    Ended Unit DimeClient String Message Message (List (Value × Value)) :=
  hear (sessionWorking platform.modules platform.fuel useJson cs) ⟨.null, none⟩ stream

/-- A client whose calls have returned has taken the first of the messages that the server has
queued for it, and has their values in its workspace. -/
theorem taken_of_done (h : Reaches jansson history srv)
    (hdriven : Driven platform endpoint jansson loads history)
    (hparses : Parses jansson loads history srv) (hc : srv.clnts.cells c = some clnt)
    {useJson : Bool} {cs : List Call}
    (hdecodes : Decodes (decoders platform.modules) (addressed jansson loads history c))
    {workspace : List (Value × Value)}
    (hdone : (worked platform useJson cs (srv.stream jansson loads c)).outcome = .done workspace) :
    ∃ taken, addressed jansson loads history c = taken ++
        (worked platform useJson cs (srv.stream jansson loads c)).unread.filter isRelayed ++
        srv.queueOf loads c ∧
      HasValues (decoders platform.modules) dict [] taken workspace := by
  obtain ⟨read, hstream, hvalues⟩ := sessionWorking_consumes useJson cs _ _ _ hdone
  have haddressed := h.addressed_eq hdriven hparses hc
  rw [hstream, List.filter_append] at haddressed
  have hmem : ∀ message ∈ read.filter isRelayed, message ∈ addressed jansson loads history c := by
    intro message hmem
    rw [haddressed, List.append_assoc]
    exact List.mem_append_left _ hmem
  refine ⟨read.filter isRelayed, haddressed, hvalues ⟨?_, ?_, fun _ _ _ => trivial⟩⟩
  · exact fun message hin => tagged_of_addressed hdriven hparses.2 (hmem message hin)
  · exact hdecodes.mono hmem

/-- A `pickle` that writes booleans. -/
def booleanModules : Modules :=
  { plainModules with
    pickleDumps := fun value => match value with
      | .bool b => some [if b then 1 else 0]
      | _ => none
    pickleLoads := fun bytes => match bytes with
      | [n] => some (.bool (n = 1))
      | _ => none }

def booleanPlatform : Platform Unit Unit := ⟨8, booleanModules, plainMatlab, plainJavaScript⟩

/-- One client broadcasts, and the other synchronises twice. -/
def sharing : ClientPtr → Endpoint Unit Unit :=
  pair (.python false [.broadcast_r [("x", .bool true)], .broadcast_r [("x", .bool false)],
    .broadcast_r [("x", .bool true)]]) (.python false [.sync_r 1, .sync_r (-1)])

def sharingLoads : CString → Json :=
  compactLoads [reregisterMeta, handshakeReply "pickle" false, statusOkMessage.jsondata,
    (Request.handshake "pickle").jsondata, Request.broadcast "x" (.string "pickle"),
    (Request.sync 1).jsondata, (Request.sync (-1)).jsondata]

/-- The last broadcast comes after the last `sync`. -/
def threeBroadcasts : List Action :=
  [.accept 3 false, .accept 4 false, .command 0 (Request.handshake "pickle").jsondata [],
    .command 1 (Request.handshake "pickle").jsondata [],
    .command 0 (Request.broadcast "x" (.string "pickle")) [1],
    .command 0 (Request.broadcast "x" (.string "pickle")) [0],
    .command 1 (Request.sync 1).jsondata [], .command 1 (Request.sync (-1)).jsondata [],
    .command 0 (Request.broadcast "x" (.string "pickle")) [1]]

/-- The run, with all that has been pushed to the client that synchronises. -/
theorem threeBroadcasts_run : ∃ history srv clnt,
    Reaches (compactJansson []) history srv ∧
    Driven booleanPlatform sharing (compactJansson []) sharingLoads history ∧
    Parses (compactJansson []) sharingLoads history srv ∧
    srv.clnts.cells 1 = some clnt ∧
    srv.stream (compactJansson []) sharingLoads 1 = [⟨handshakeReply "pickle" false, []⟩,
      ⟨Request.broadcast "x" (.string "pickle"), [1]⟩, statusOkMessage,
      ⟨Request.broadcast "x" (.string "pickle"), [0]⟩, statusOkMessage] ∧
    srv.queueOf sharingLoads 1 = [⟨Request.broadcast "x" (.string "pickle"), [1]⟩] ∧
    Decodes (decoders booleanModules) (addressed (compactJansson []) sharingLoads history 1) := by
  have hscript : (script (compactJansson []) threeBroadcasts).map
      (fun result : List (Server × Action) × Server =>
        decide (Driven booleanPlatform sharing (compactJansson []) sharingLoads result.1 ∧
          Parses (compactJansson []) sharingLoads result.1 result.2 ∧
          (result.2.clnts.cells 1).isSome = true ∧
          result.2.stream (compactJansson []) sharingLoads 1 =
            [⟨handshakeReply "pickle" false, []⟩,
              ⟨Request.broadcast "x" (.string "pickle"), [1]⟩, statusOkMessage,
              ⟨Request.broadcast "x" (.string "pickle"), [0]⟩, statusOkMessage] ∧
          result.2.queueOf sharingLoads 1 =
            [⟨Request.broadcast "x" (.string "pickle"), [1]⟩])) = some true := by decide +kernel
  obtain ⟨⟨history, srv⟩, hrun, hvalue⟩ := Option.map_eq_some_iff.mp hscript
  obtain ⟨hdriven, hparses, hsome, hstream, hqueue⟩ := of_decide_eq_true hvalue
  obtain ⟨clnt, hc⟩ := Option.isSome_iff_exists.mp hsome
  have h := script_reaches _ hrun
  refine ⟨history, srv, clnt, h, hdriven, hparses, hc, hstream, hqueue, ?_⟩
  rw [h.addressed_eq hdriven hparses hc, hstream, hqueue, Decodes]
  decide

end Python

end Dime
