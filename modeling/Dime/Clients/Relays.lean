import Dime.Clients.JavaScript.Client
import Dime.Clients.Matlab.Client
import Dime.Clients.Python.Client
import Dime.Clients.Wire

/-!
# Relayed messages

When a client that synchronises reads all that the server answers and keeps the
serialization that it has negotiated: exactly when every message relayed to it is one
that its loop gets past, and the last of those that it takes for a change of the
serialization names the one it holds.
-/

namespace Dime

open Dialogue

variable {Env Self Err Vars α β : Type} {answer : Env → Message → Env × List Message}
  {queue : Env → List Message} {good : Env → Prop} {env : Env} {n : Int64} {fuel : Nat}

/-- A method has returned or raised, has read all that there was to read, and has kept the
serialization. -/
def Settles (serialization : Self → α) (self : Self)
    (ended : Ended Env Self Err Message Message β) : Prop :=
  ended.outcome.over = true ∧ ended.unread = [] ∧ serialization ended.self = serialization self

namespace Listener

variable (listener : Listener Self Err)

/-- The serialization that a message makes the client hold. -/
def reregisters (message : Message) : Option Json :=
  match listener.hearing message with
  | .aside _ => message.jsondata.get? "serialization"
  | _ => none

/-- The last of the messages that change the serialization leaves it as it is. -/
def Keeps (serialization : Json) (messages : List Message) : Prop :=
  ∀ s, (messages.filterMap listener.reregisters).getLast? = some s → s = serialization

variable {listener}

theorem keeps_iff {serialization : Self → Json}
    (heffect : ∀ message self, serialization (listener.effect message self) =
      (listener.reregisters message).getD (serialization self))
    (messages : List Message) (self : Self) :
    serialization (messages.foldl (fun self message => listener.effect message self) self) =
        serialization self ↔
      listener.Keeps (serialization self) messages := by
  have hlast : serialization
      (messages.foldl (fun self message => listener.effect message self) self) =
      ((messages.filterMap listener.reregisters).getLast?).getD (serialization self) := by
    induction messages using List.reverseRecOn with
    | nil => simp
    | append_singleton messages message ih =>
        rw [List.foldl_append, List.foldl_cons, List.foldl_nil, heffect, ih, List.filterMap_append]
        cases hmessage : listener.reregisters message with
        | none => simp [hmessage]
        | some s => simp [hmessage]
  rw [hlast, Keeps]
  cases (messages.filterMap listener.reregisters).getLast? with
  | none => simp
  | some s => simp

end Listener

/-! ## The three clients -/

namespace Python

variable (modules : Modules)

/-- A status of `0` ends the loop. -/
theorem ends_of_status {message : Message}
    (hstatus : message.jsondata.get? "status" = some (.integer 0)) :
    Ends DimeClient.listener (DimeClient.judge modules) message := by
  constructor
  · simp [Listener.hearing, DimeClient.listener, isMeta, hstatus, sign]
  · simp [DimeClient.judge, checkStatus, getitem, hstatus, sign, Bind.bind, Except.bind]

theorem ends_statusOk : Ends DimeClient.listener (DimeClient.judge modules) statusOkMessage :=
  ends_of_status modules rfl

theorem resyncs : Resyncs DimeClient.listener (DimeClient.judge modules)
    (DimeClient.sync_r modules) [] fun ret more => .done (DimeClient.update ret more) :=
  ⟨fun _ => rfl, fun _ _ => rfl, fun _ _ => .inl ⟨_, rfl⟩⟩

/-- `__meta` holds the serialization of the message. -/
theorem onMeta_eq_ok {jsondata : Json} {f : DimeClient → DimeClient}
    (h : DimeClient.onMeta jsondata = .ok f) : ∃ serialization,
      jsondata.get? "serialization" = some serialization ∧
      f = DimeClient.setSerialization serialization := by
  unfold DimeClient.onMeta getitem at h
  cases hcommand : jsondata.get? "command" with
  | none => simp [hcommand, Bind.bind, Except.bind] at h
  | some command =>
      cases hserialization : jsondata.get? "serialization" with
      | none =>
          simp only [hcommand, hserialization, Bind.bind, Except.bind] at h
          split at h <;> cases h
      | some serialization =>
          simp only [hcommand, hserialization, Bind.bind, Except.bind] at h
          split at h
          · cases h
            exact ⟨serialization, rfl, rfl⟩
          · cases h

theorem serialization_effect (message : Message) (self : DimeClient) :
    (DimeClient.listener.effect message self).serialization =
      (DimeClient.listener.reregisters message).getD self.serialization := by
  unfold Listener.effect Listener.reregisters
  cases hhearing : DimeClient.listener.hearing message with
  | plain => rfl
  | failed err => rfl
  | aside f =>
      obtain ⟨serialization, hget, rfl⟩ := onMeta_eq_ok (Listener.hearing_eq_aside.mp hhearing).2
      simp [hget, DimeClient.setSerialization]

theorem settles_iff (hserves : Serves answer queue good) (hgood : good env)
    (hfuel : (queue env).length < fuel) (self : DimeClient) :
    Settles DimeClient.serialization self
        (run answer (DimeClient.sync_r modules (fuel + 1) n) self env []) ↔
      (∀ message ∈ fetched DimeClient.listener (DimeClient.judge modules) (fuel + 1) (queue env) n,
        Passes DimeClient.listener (DimeClient.judge modules) message) ∧
      DimeClient.listener.Keeps self.serialization
        (fetched DimeClient.listener (DimeClient.judge modules) (fuel + 1) (queue env) n) := by
  rw [← Listener.keeps_iff serialization_effect]
  exact (resyncs modules).settled_iff hserves (ends_statusOk modules) hgood hfuel
    DimeClient.serialization

end Python

namespace Matlab

variable {V : Type} (rt : Runtime V)

/-- A message without a variable ends the loop, if its status is `0`. -/
theorem ends_of_status {message : Message}
    (hstatus : message.jsondata.get? "status" = some (.integer 0))
    (hvarname : message.jsondata.get? "varname" = none) :
    Ends (Obj.listener rt) (Obj.judge rt) message := by
  constructor
  · simp [Listener.hearing, Obj.listener, isMeta, hstatus, rt.positive_integer]
  · simp [Obj.judge, hvarname]

theorem ends_statusOk : Ends (Obj.listener rt) (Obj.judge rt) statusOkMessage :=
  ends_of_status rt rfl rfl

theorem resyncs : Resyncs (Obj.listener rt) (Obj.judge rt) (Obj.sync_r rt) []
    fun _ _ => .raise "Not enough input arguments" :=
  ⟨fun _ => rfl, fun _ _ => rfl, fun _ _ => .inr ⟨_, rfl⟩⟩

theorem serialization_effect (message : Message) (self : Obj) :
    ((Obj.listener rt).effect message self).serialization =
      ((Obj.listener rt).reregisters message).getD self.serialization := by
  unfold Listener.effect Listener.reregisters
  cases hhearing : (Obj.listener rt).hearing message with
  | plain => rfl
  | failed err => rfl
  | aside f =>
      have hmetamsg := (Listener.hearing_eq_aside.mp hhearing).2
      simp only [Obj.listener, Obj.metamsg] at hmetamsg
      cases hget : message.jsondata.get? "serialization" with
      | none => simp [hget] at hmetamsg
      | some serialization =>
          simp only [hget, Except.ok.injEq] at hmetamsg
          simp [← hmetamsg]

theorem settles_iff (hserves : Serves answer queue good) (hgood : good env)
    (hfuel : (queue env).length < fuel) (self : Obj) :
    Settles Obj.serialization self (run answer (Obj.sync_r rt (fuel + 1) n) self env []) ↔
      (∀ message ∈ fetched (Obj.listener rt) (Obj.judge rt) (fuel + 1) (queue env) n,
        Passes (Obj.listener rt) (Obj.judge rt) message) ∧
      (Obj.listener rt).Keeps self.serialization
        (fetched (Obj.listener rt) (Obj.judge rt) (fuel + 1) (queue env) n) := by
  rw [← Listener.keeps_iff (serialization_effect rt)]
  exact (resyncs rt).settled_iff hserves (ends_statusOk rt) hgood hfuel Obj.serialization

end Matlab

namespace JavaScript

variable {V : Type} (rt : Runtime V)

/-- The client hands on every message. -/
def listener : Listener DimeClient String where
  isMeta _ := .ok false
  onMeta _ := .ok id
  check := checkStatus rt

theorem recv_listener (fuel : Nat) : (listener rt).recv (fuel + 1) = DimeClient.recv := rfl

theorem hearing_plain (message : Message) : (listener rt).hearing message = .plain := rfl

/-- A status of `0` ends the loop. -/
theorem ends_of_status {message : Message}
    (hstatus : message.jsondata.get? "status" = some (.integer 0)) :
    Ends (listener rt) (DimeClient.judge rt) message := by
  constructor
  · rfl
  · simp [DimeClient.judge, checkStatus, failed, hstatus, rt.negative_integer, Bind.bind,
      Except.bind]

theorem ends_statusOk : Ends (listener rt) (DimeClient.judge rt) statusOkMessage :=
  ends_of_status rt rfl

theorem settles_iff (hserves : Serves answer queue good) (hgood : good env)
    (hfuel : (queue env).length < fuel) {self : DimeClient} (hself : self.rejected = none) :
    Settles DimeClient.serialization self
        (run answer (DimeClient.sync_r rt fuel n) self env []) ↔
      ∀ message ∈ (queue env).take (syncCount n),
        Passes (listener rt) (DimeClient.judge rt) message := by
  have hconnected : run answer DimeClient.connected self env [] =
      ⟨.done (), self, env, [], []⟩ := by
    simp [DimeClient.connected, Prog.self, Prog.bind, run, hself]
  have hrecv : DimeClient.recv = (listener rt).recv (fuel + 1) := recv_listener rt fuel
  unfold DimeClient.sync_r
  rw [Prog.bind_eq, run_bind_done hconnected, Ended.after_nil, hrecv]
  by_cases hall : ∀ message ∈ (queue env).take (syncCount n),
      Passes (listener rt) (DimeClient.judge rt) message
  · have hrun := hserves.run_exchange (ends_statusOk rt) hgood
      (Nat.lt_succ_of_lt hfuel) hfuel hall self []
      fun _ _ => Prog.raise "self.sync_r is not a function"
    have hself' : ∀ messages : List Message, messages.foldl
        (fun self message => (listener rt).effect message self) self = self := by
      intro messages
      induction messages with
      | nil => rfl
      | cons message messages ih => exact ih
    rw [hrun, hself', merge]
    refine iff_of_true ?_ hall
    split
    · exact ⟨rfl, rfl, rfl⟩
    · exact ⟨rfl, rfl, rfl⟩
  · refine iff_of_false ?_ hall
    rintro ⟨hover, hunread, _⟩
    obtain ⟨front, last, behind, hsplit, hlast, hfront⟩ := exists_stop (by simpa using hall)
    rw [← List.nil_append ((queue env).take (syncCount n))] at hsplit
    refine hserves.run_stopped hgood hlast hfront hsplit ?_ hover hunread
    simp [run]

end JavaScript

open Server

/-- The JSON objects of the requests of a run. -/
def submissions (history : List (Server × Action)) : List Json :=
  history.filterMap fun entry =>
    match entry.2 with
    | .command _ jsondata _ => some jsondata
    | _ => none

theorem mem_submissions {history : List (Server × Action)} {mid : Server} {c : ClientPtr}
    {jsondata : Json} {bindata : Bytes} (h : (mid, .command c jsondata bindata) ∈ history) :
    jsondata ∈ submissions history :=
  List.mem_filterMap.mpr ⟨_, h, rfl⟩

variable {V W : Type} (modules : Python.Modules) (rt : Matlab.Runtime V)
  (rt' : JavaScript.Runtime W)

/-- What a client broadcasts, with fields that it chooses. -/
def broadcastOf (fields : List (String × Json)) : Json :=
  .object (("command", .string "broadcast") :: fields)

/-- One client broadcasts, and the other has not synchronised yet. -/
theorem broadcast_queued (jansson : Jansson Json) (fields : List (String × Json))
    (loads : CString → Json)
    (hscript : (script jansson [.accept 3 false, .accept 4 false,
      .command 1 (broadcastOf fields) [7]]).map
        (fun result : List (Server × Action) × Server => (decide (∀ jsondata ∈ submissions result.1,
            loads (jansson.dumps jsondata) = jsondata),
          (result.2.clnts.cells 0).isSome, result.2.queueOf loads 0)) =
      some (true, true, [⟨broadcastOf fields, [7]⟩])) :
    ∃ history srv clnt, Reaches jansson history srv ∧
      srv.clnts.cells 0 = some clnt ∧
      (∀ jsondata ∈ submissions history, loads (jansson.dumps jsondata) = jsondata) ∧
      srv.queueOf loads 0 = [⟨broadcastOf fields, [7]⟩] := by
  obtain ⟨⟨history, srv⟩, hrun, hvalue⟩ := Option.map_eq_some_iff.mp hscript
  simp only [Prod.mk.injEq, decide_eq_true_iff] at hvalue
  obtain ⟨hloads, hsome, hqueue⟩ := hvalue
  obtain ⟨clnt, hc⟩ := Option.isSome_iff_exists.mp hsome
  exact ⟨history, srv, clnt, script_reaches _ hrun, hc, hloads, hqueue⟩

/-- `{"command":"broadcast","serialization":"other","varname":"x"}`. -/
def foreign : List (String × Json) := [("serialization", .string "other"), ("varname", .string "x")]

/-- `{"command":"broadcast","status":0}`. -/
def forged : List (String × Json) := [("status", .integer 0)]

def wireOf (fields : List (String × Json)) : CString → Json :=
  compactLoads [broadcastOf fields, statusOkMessage.jsondata]

/-- MATLAB and JavaScript on the values of a concrete run, with a single variable. -/
def plainMatlab : Matlab.Runtime Unit where
  positive
    | .integer n => some (decide (0 < n.toInt))
    | _ => none
  negative
    | .integer n => some (decide (n.toInt < 0))
    | _ => none
  truthy
    | .bool b => some b
    | _ => none
  switchable
    | .string _ => true
    | _ => false
  strcmp
    | .string s, .string t => decide (s = t)
    | _, _ => false
  fieldName
    | .string s => some s
    | _ => none
  getByteStreamFromArray _ := some [1]
  getArrayFromByteStream _ := some ()
  dimebdumps _ := some [0]
  dimebloads _ := some ()
  positive_integer _ := rfl
  negative_integer _ := rfl
  truthy_bool _ := rfl
  switchable_string _ := rfl
  strcmp_string _ _ := rfl

def plainJavaScript : JavaScript.Runtime Unit where
  negative
    | .integer n => some (decide (n.toInt < 0))
    | _ => none
  propertyKey
    | .string s => some s
    | _ => none
  dimebdumps _ := some [0]
  dimebloads _ := some ()
  jsondumps _ := some [0x30]
  jsonloads _ := some ()
  negative_integer _ := rfl

def plainModules : Python.Modules where
  host := .little
  pickleDumps _ := some [1]
  pickleLoads _ := some .none
  jsonDumps _ := some [0x30]
  jsonLoads _ := some .none

end Dime
