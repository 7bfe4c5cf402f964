import Dime.Foundation.Guarded
import Dime.Clients.SyncResults
import Dime.Clients.Network
import Dime.Clients.Transmission

/-!
# Where the variables come from

A session sends a variable only where one of its calls passes it, under its name and encoded
for the serialization that the message is tagged with. So does everything that the server
queues in a run.
-/

namespace Dime

open Dialogue Server

/-- A request that puts messages into queues is for a variable of these, in a serialization and with
data that it has been encoded to. -/
def Bears {V : Type} (encodes : Json → V → Bytes → Prop) (vars : List (String × V))
    (request : Message) : Prop :=
  Hub.command request.jsondata = "send" ∨ Hub.command request.jsondata = "broadcast" →
    ∃ varname x serialization, (varname, x) ∈ vars ∧
      request.jsondata.get? "varname" = some (.string varname) ∧
      request.jsondata.get? "serialization" = some serialization ∧
      encodes serialization x request.bindata

section Bears

variable {V : Type} {encodes : Json → V → Bytes → Prop} {vars : List (String × V)}
  {request : Message}

theorem bears_of_command {name : String}
    (hname : request.jsondata.unpackString "command" = some name) (hsend : name ≠ "send")
    (hbroadcast : name ≠ "broadcast") : Bears encodes vars request := by
  rintro (hcommand | hcommand)
  · exact absurd hcommand (command_ne hname hsend)
  · exact absurd hcommand (command_ne hname hbroadcast)

theorem bears_handshake (serialization : String) :
    Bears encodes vars (Request.handshake serialization) :=
  bears_of_command (show _ = some "handshake" from rfl) (by decide) (by decide)

theorem bears_join (names : List String) : Bears encodes vars (Request.join names) :=
  bears_of_command (show _ = some "join" from rfl) (by decide) (by decide)

theorem bears_leave (names : List String) : Bears encodes vars (Request.leave names) :=
  bears_of_command (show _ = some "leave" from rfl) (by decide) (by decide)

theorem bears_sync (n : Int64) : Bears encodes vars (Request.sync n) :=
  bears_of_command (show _ = some "sync" from rfl) (by decide) (by decide)

theorem bears_wait : Bears encodes vars Request.wait :=
  bears_of_command (show _ = some "wait" from rfl) (by decide) (by decide)

theorem bears_devices : Bears encodes vars Request.devices :=
  bears_of_command (show _ = some "devices" from rfl) (by decide) (by decide)

/-- The requests with which a variable is sent. -/
def Names (request : String → Json → Json) : Prop :=
  ∀ varname serialization, (request varname serialization).get? "varname" = some (.string varname) ∧
    (request varname serialization).get? "serialization" = some serialization

theorem names_send (name : String) : Names (Request.send name) := fun _ _ => ⟨rfl, rfl⟩

theorem names_broadcast : Names Request.broadcast := fun _ _ => ⟨rfl, rfl⟩

end Bears

/-! ## Methods that keep a condition -/

section Methods

variable {Self Err V : Type} {P : Message → Prop} {I : Self → Prop} {fuel : Nat}

/-- What is for the connection keeps the condition. -/
theorem inherited_keeps {listener : Listener Self Err} (P : Message → Prop)
    (hmeta : ∀ jsondata f, listener.onMeta jsondata = .ok f → ∀ self, I self → I (f self)) :
    Inherited listener P fun _ p => p.Keeps P I where
  done := Prog.keeps_done
  raise := Prog.keeps_raise
  exhausted := Prog.keeps_exhausted
  get h := Prog.keeps_get fun self hself => h self self hself
  request _ h := Prog.keeps_request h
  recv fuel := by
    induction fuel with
    | zero => exact Prog.keeps_exhausted
    | succ fuel ih =>
        apply Prog.keeps_message.bind
        intro message
        apply (Prog.keeps_ofExcept _).bind
        intro isMeta
        cases isMeta with
        | false => exact Prog.keeps_done _
        | true =>
            cases hf : listener.onMeta message.jsondata with
            | error err => exact Prog.keeps_raise err
            | ok f => exact (Prog.keeps_modify (hmeta _ f hf)).bind fun _ => ih
  bind h hf := h.bind hf
  attempt h := h.attempt

variable {pipe : Pipeline Self Err V} {request : String → Json → Json}
  {encodes : Json → V → Bytes → Prop} {vars batch : List (String × V)}

/-- What the pipeline encodes goes with the serialization that it holds. -/
def Pipeline.Sound (pipe : Pipeline Self Err V) (I : Self → Prop)
    (encodes : Json → V → Bytes → Prop) : Prop :=
  ∀ self, I self → ∀ x bindata, pipe.encode self x = .ok bindata →
    encodes (pipe.serialization self) x bindata

theorem sendBatch_keeps (hsound : pipe.Sound I encodes) (hnames : Names request)
    (hbatch : ∀ kv ∈ batch, kv ∈ vars) :
    (pipe.sendBatch request batch).Keeps (Bears encodes vars) I := by
  induction batch with
  | nil => exact Prog.keeps_done 0
  | cons kv rest ih =>
      obtain ⟨hkv, hrest⟩ := List.forall_mem_cons.mp hbatch
      refine Prog.keeps_get fun self hself => ?_
      change Prog.Guarded _ I ((Prog.ofExcept (pipe.encode self kv.2)).bind fun bindata =>
        (Prog.request ⟨request kv.1 (pipe.serialization self), bindata⟩).bind fun _ =>
          (pipe.sendBatch request rest).bind fun n => .done (n + 1)) self
      cases hencode : pipe.encode self kv.2 with
      | error err => exact hself
      | ok bindata =>
          have hbears : Bears encodes vars ⟨request kv.1 (pipe.serialization self), bindata⟩ := fun _ =>
            ⟨kv.1, kv.2, pipe.serialization self, hkv, (hnames _ _).1, (hnames _ _).2,
              hsound self hself _ _ hencode⟩
          exact ((Prog.keeps_request hbears).bind fun _ =>
            (ih hrest).bind fun n => Prog.keeps_done (n + 1)) self hself

theorem batches_keeps (h : Inherited pipe.toListener (Bears encodes vars)
      fun _ p => p.Keeps (Bears encodes vars) I)
    (hsound : pipe.Sound I encodes) (hnames : Names request) {serialization : Json}
    {resend : Prog Self Err Message Message Unit} (hresend : resend.Keeps (Bears encodes vars) I)
    {kvs : List (List (String × V))} (hkvs : ∀ batch ∈ kvs, ∀ kv ∈ batch, kv ∈ vars) :
    (pipe.batches request fuel serialization resend kvs).Keeps (Bears encodes vars) I := by
  induction kvs with
  | nil => exact Prog.keeps_done ()
  | cons batch rest ih =>
      obtain ⟨hbatch, hrest⟩ := List.forall_mem_cons.mp hkvs
      apply (sendBatch_keeps hsound hnames hbatch).bind
      intro n
      apply (h.readReplies n).bind
      intro _
      refine Prog.keeps_get fun self hself => ?_
      change Prog.Guarded _ I (if pipe.differs serialization (pipe.serialization self) then resend
        else pipe.batches request fuel serialization resend rest) self
      split
      · exact hresend self hself
      · exact ih hrest self hself

theorem transmit_keeps (pipe : Pipeline Self Err V) (h : Inherited pipe.toListener (Bears encodes vars)
      fun _ p => p.Keeps (Bears encodes vars) I)
    (hsound : pipe.Sound I encodes) (hnames : Names request)
    {resend : Prog Self Err Message Message Unit} (hresend : resend.Keeps (Bears encodes vars) I)
    {kvs : List (List (String × V))} (hkvs : ∀ batch ∈ kvs, ∀ kv ∈ batch, kv ∈ vars) :
    (pipe.transmit request fuel resend kvs).Keeps (Bears encodes vars) I :=
  Prog.keeps_get fun self hself => batches_keeps h hsound hnames hresend hkvs self hself

/-- A method that transmits again what it has transmitted. -/
theorem transmits_keeps (pipe : Pipeline Self Err V) (h : Inherited pipe.toListener (Bears encodes vars)
      fun _ p => p.Keeps (Bears encodes vars) I)
    (hsound : pipe.Sound I encodes) (hnames : Names request) {kvs : List (List (String × V))}
    (hkvs : ∀ batch ∈ kvs, ∀ kv ∈ batch, kv ∈ vars)
    (sender : Nat → Prog Self Err Message Message Unit) (hzero : sender 0 = .exhausted)
    (hsucc : ∀ fuel, sender (fuel + 1) = pipe.transmit request fuel (sender fuel) kvs) :
    (sender fuel).Keeps (Bears encodes vars) I := by
  induction fuel with
  | zero =>
      rw [hzero]
      exact Prog.keeps_exhausted
  | succ fuel ih =>
      rw [hsucc]
      exact transmit_keeps pipe h hsound hnames ih hkvs

/-- One call after the other. -/
theorem calls_keep {Call : Type} {method : Call → Prog Self Err Message Message Unit}
    (calls : List Call → Prog Self Err Message Message Unit) (hnil : calls [] = .done ())
    (hcons : ∀ call rest, calls (call :: rest) = (method call).attempt.bind fun _ => calls rest)
    {cs : List Call} (hmethod : ∀ call ∈ cs, (method call).Keeps P I) : (calls cs).Keeps P I := by
  induction cs with
  | nil =>
      rw [hnil]
      exact Prog.keeps_done ()
  | cons call rest ih =>
      obtain ⟨hcall, hrest⟩ := List.forall_mem_cons.mp hmethod
      rw [hcons]
      exact hcall.attempt.bind fun _ => ih hrest

theorem mem_of_mem_windows {α : Type} {step size : Nat} {l window : List α}
    (h : window ∈ windows step size l) {a : α} (ha : a ∈ window) : a ∈ l := by
  obtain ⟨i, -, rfl⟩ := List.mem_map.mp h
  exact List.mem_of_mem_drop (List.mem_of_mem_take ha)

end Methods

/-! ## Python -/

namespace Python

variable {modules : Modules} {fuel : Nat} {vars : List (String × Value)}

/-- The variables that a call passes. -/
def Call.passed : Call → List (String × Value)
  | .send_r _ kvpairs | .broadcast_r kvpairs => kvpairs
  | _ => []

/-- The data is what the module of the serialization makes of the value. -/
def Encodes (modules : Modules) (serialization : Json) (x : Value) (bindata : Bytes) : Prop :=
  ∀ codec, Codec.ofName? serialization = some codec → modules.dumps codec x = some bindata

/-- The functions that a client holds are those of its serialization, if it has a module. -/
def Fitting (self : DimeClient) : Prop :=
  ∀ codec, Codec.ofName? self.serialization = some codec → self.codec = some codec

theorem fitting_setSerialization (serialization : Json) (self : DimeClient) :
    Fitting (DimeClient.setSerialization serialization self) := by
  intro codec hcodec
  change (Codec.ofName? serialization).orElse _ = _
  rw [show Codec.ofName? serialization = some codec from hcodec]
  rfl

theorem pipeline_sound : (DimeClient.pipeline modules).Sound Fitting (Encodes modules) := by
  intro self hself x bindata hencode codec hcodec
  have hdumps : DimeClient.dumps modules self x = .ok bindata := hencode
  rw [DimeClient.dumps, hself codec hcodec] at hdumps
  dsimp only at hdumps
  cases hvalue : modules.dumps codec x with
  | none =>
      rw [hvalue] at hdumps
      cases hdumps
  | some bindata' =>
      rw [hvalue] at hdumps
      exact congrArg some (Except.ok.inj hdumps)

theorem inherited_fitting (P : Message → Prop) :
    Inherited DimeClient.listener P fun _ p => p.Keeps P Fitting := by
  apply inherited_keeps
  intro jsondata f hf self _
  have hmeta : DimeClient.onMeta jsondata = .ok f := hf
  simp only [DimeClient.onMeta, Bind.bind, Except.bind] at hmeta
  split at hmeta
  next => cases hmeta
  split at hmeta
  next =>
    split at hmeta
    next => cases hmeta
    next =>
      obtain rfl := Except.ok.inj hmeta
      exact fitting_setSerialization _ self
  next => cases hmeta

theorem method_keeps {call : Call} (hcall : ∀ kv ∈ call.passed, kv ∈ vars) :
    (call.method modules fuel).Keeps (Bears (Encodes modules) vars) Fitting := by
  have h := inherited_fitting (Bears (Encodes modules) vars)
  cases call with
  | join names => exact h.bind (h.call (bears_join names)) fun _ => h.done ()
  | leave names => exact h.bind (h.call (bears_leave names)) fun _ => h.done ()
  | send_r name kvpairs =>
      exact transmits_keeps (DimeClient.pipeline modules) h pipeline_sound (names_send name)
        (fun _ hbatch _ hkv => hcall _ (mem_of_mem_windows hbatch hkv))
        (fun fuel => DimeClient.send_r modules fuel name kvpairs) rfl fun _ => rfl
  | broadcast_r kvpairs =>
      exact transmit_keeps (DimeClient.pipeline modules) h pipeline_sound names_broadcast
        (Prog.keeps_raise _) fun _ hbatch _ hkv => hcall _ (mem_of_mem_windows hbatch hkv)
  | sync_r n => exact h.bind (h.resyncs bears_sync (resyncs modules) n) fun _ => h.done ()
  | wait => exact h.lookup bears_wait _
  | devices => exact h.lookup bears_devices _

/-- A session sends the variables of its calls. -/
theorem session_bears (useJson : Bool) (cs : List Call) (inbox : List Message) :
    ∀ request ∈ (hear (session modules fuel useJson cs) ⟨.null, none⟩ inbox).requests,
      Bears (Encodes modules) (cs.flatMap Call.passed) request := by
  have h := inherited_fitting (Bears (Encodes modules) (cs.flatMap Call.passed))
  have hopen : (DimeClient.open' fuel useJson).Keeps
      (Bears (Encodes modules) (cs.flatMap Call.passed)) Fitting := by
    apply h.bind (h.call (bears_handshake _))
    intro jsondata
    apply h.bind (h.ofExcept _)
    intro serialization
    exact Prog.keeps_modify fun self _ => fitting_setSerialization serialization self
  have hcalls : (calls modules fuel cs).Keeps (Bears (Encodes modules) (cs.flatMap Call.passed))
      Fitting := calls_keep (calls modules fuel) rfl (fun _ _ => rfl) fun call hcall =>
    method_keeps fun kv hkv => List.mem_flatMap.mpr ⟨call, hcall, hkv⟩
  have hstart : Fitting ⟨.null, none⟩ := by
    intro codec hcodec
    cases hcodec
  have hsession := hopen.bind (fun _ => hcalls) ⟨.null, none⟩ hstart
  exact hsession.of_mem

end Python

/-! ## Matlab -/

namespace Matlab

variable {V : Type} {rt : Runtime V} {fuel : Nat} {vars : List (String × V)}

def Call.passed : Call V → List (String × V)
  | .send_r _ v | .broadcast_r v => v
  | _ => []

/-- The data is what the `switch` over the serialization makes of the value. -/
def Encodes (rt : Runtime V) (serialization : Json) (x : V) (bindata : Bytes) : Prop :=
  Obj.encode rt ⟨serialization⟩ x = .ok bindata

theorem pipeline_sound : (Obj.pipeline rt).Sound (fun _ => True) (Encodes rt) :=
  fun _ _ _ _ hencode => hencode

theorem method_keeps {call : Call V} (hcall : ∀ kv ∈ call.passed, kv ∈ vars) :
    (call.method rt fuel).Keeps (Bears (Encodes rt) vars) fun _ => True := by
  have h : Inherited (Obj.listener rt) (Bears (Encodes rt) vars) fun _ p =>
      p.Keeps (Bears (Encodes rt) vars) fun _ => True := inherited_keeps _ fun _ _ _ _ _ => trivial
  cases call with
  | join names => exact h.bind (h.call (bears_join names)) fun _ => h.done ()
  | leave names => exact h.bind (h.call (bears_leave names)) fun _ => h.done ()
  | send_r name v =>
      exact transmits_keeps (Obj.pipeline rt) h pipeline_sound (names_send name)
        (fun _ hbatch _ hkv => hcall _ (mem_of_mem_windows hbatch hkv))
        (fun fuel => Obj.send_r rt fuel name v) rfl fun _ => rfl
  | broadcast_r v =>
      exact transmits_keeps (Obj.pipeline rt) h pipeline_sound names_broadcast
        (fun _ hbatch _ hkv => hcall _ (mem_of_mem_windows hbatch hkv))
        (fun fuel => Obj.broadcast_r rt fuel v) rfl fun _ => rfl
  | sync_r n => exact h.bind (h.resyncs bears_sync (resyncs rt) n) fun _ => h.done ()
  | wait => exact h.lookup bears_wait _
  | devices => exact h.lookup bears_devices _

theorem session_bears (cs : List (Call V)) (inbox : List Message) :
    ∀ request ∈ (hear (session rt fuel cs) ⟨.null⟩ inbox).requests,
      Bears (Encodes rt) (cs.flatMap Call.passed) request := by
  have h : Inherited (Obj.listener rt) (Bears (Encodes rt) (cs.flatMap Call.passed)) fun _ p =>
      p.Keeps (Bears (Encodes rt) (cs.flatMap Call.passed)) fun _ => True :=
    inherited_keeps _ fun _ _ _ _ _ => trivial
  have hdime : (Obj.dime rt fuel).Keeps (Bears (Encodes rt) (cs.flatMap Call.passed))
      fun _ => True := by
    apply h.bind (h.call (bears_handshake _))
    intro jsondata
    exact h.bind (h.ofExcept _) fun _ => Prog.keeps_modify fun _ _ => trivial
  have hcalls : (calls rt fuel cs).Keeps (Bears (Encodes rt) (cs.flatMap Call.passed))
      fun _ => True := calls_keep (calls rt fuel) rfl (fun _ _ => rfl) fun call hcall =>
    method_keeps fun kv hkv => List.mem_flatMap.mpr ⟨call, hcall, hkv⟩
  have hsession := hdime.bind (fun _ => hcalls) ⟨.null⟩ trivial
  exact hsession.of_mem

end Matlab

/-! ## JavaScript -/

namespace JavaScript

variable {V : Type} {rt : Runtime V} {fuel : Nat} {vars : List (String × V)}

def Call.passed : Call V → List (String × V)
  | .send_r _ kvpairs | .broadcast_r kvpairs => kvpairs
  | _ => []

def Runtime.dumps (rt : Runtime V) : Codec → V → Option Bytes
  | .dimeb => rt.dimebdumps
  | .json => rt.jsondumps

/-- The data is what the function for the serialization makes of the value. -/
def Encodes (rt : Runtime V) (serialization : Json) (x : V) (bindata : Bytes) : Prop :=
  ∃ codec, Codec.ofName? (some serialization) = some codec ∧ rt.dumps codec x = some bindata

/-- A client that has functions for its serialization. -/
def Fitting (self : DimeClient) : Prop :=
  ∃ serialization codec, self.serialization = some serialization ∧
    Codec.ofName? (some serialization) = some codec ∧ self.codec = some codec

/-- A client that is connected has functions for its serialization. -/
def Settled (self : DimeClient) : Prop := self.rejected = none → Fitting self

theorem settled_onReply (jsondata : Json) (self : DimeClient) :
    Settled (DimeClient.onReply rt jsondata self) := by
  intro hrejected
  unfold DimeClient.onReply at hrejected ⊢
  cases hfailed : failed rt jsondata with
  | error err =>
      rw [hfailed] at hrejected
      cases hrejected
  | ok b =>
      rw [hfailed] at hrejected
      dsimp only at hrejected ⊢
      cases hcodec : Codec.ofName? (jsondata.get? "serialization") with
      | none =>
          rw [hcodec] at hrejected
          cases hrejected
      | some codec =>
          cases hserialization : jsondata.get? "serialization" with
          | none =>
              rw [hserialization] at hcodec
              cases hcodec
          | some serialization =>
              rw [hserialization] at hcodec
              exact ⟨serialization, codec, rfl, hcodec, rfl⟩

theorem call_keeps {P : Message → Prop} {I : DimeClient → Prop} {request : Message} (h : P request) :
    (DimeClient.call rt request).Keeps P I :=
  (Prog.keeps_request h).bind fun _ => Prog.keeps_message.bind fun _ =>
    (Prog.keeps_ofExcept _).bind fun _ => Prog.keeps_done _

/-- A client that is not connected goes no further. -/
theorem connected_keeps {α : Type} {P : Message → Prop} {f : Unit → Method α}
    (h : (f ()).Keeps P Fitting) : (DimeClient.connected.bind f).Keeps P Settled := by
  intro self hself
  cases hrejected : self.rejected with
  | some reason =>
      simp only [DimeClient.connected, bind, Prog.self, Prog.bind, Prog.Guarded, hrejected]
      exact hself
  | none =>
      simp only [DimeClient.connected, bind, Prog.self, Prog.bind, Prog.Guarded, hrejected]
      exact (h self (hself hrejected)).mono fun _ hfitting _ => hfitting

theorem transmit_keeps {request : String → Json → Json} (hnames : Names request)
    {kvpairs : List (String × V)} (hkvpairs : ∀ kv ∈ kvpairs, kv ∈ vars) :
    (DimeClient.transmit rt request kvpairs).Keeps (Bears (Encodes rt) vars) Fitting := by
  induction kvpairs with
  | nil => exact Prog.keeps_done ()
  | cons kv rest ih =>
      obtain ⟨hkv, hrest⟩ := List.forall_mem_cons.mp hkvpairs
      refine Prog.keeps_get fun self hself => ?_
      change Prog.Guarded _ Fitting ((Prog.ofExcept (DimeClient.dumps rt self kv.2)).bind fun bindata =>
        (DimeClient.call rt ⟨request kv.1 (self.serialization.getD .null), bindata⟩).bind fun _ =>
          DimeClient.transmit rt request rest) self
      obtain ⟨serialization, codec, hserialization, hname, hcodec⟩ := hself
      cases hdumps : DimeClient.dumps rt self kv.2 with
      | error err => exact ⟨serialization, codec, hserialization, hname, hcodec⟩
      | ok bindata =>
          have hencodes : rt.dumps codec kv.2 = some bindata := by
            rw [DimeClient.dumps, hcodec] at hdumps
            cases hbytes : rt.dumps codec kv.2 with
            | none => cases codec <;> simp only [Runtime.dumps] at hbytes <;> simp [hbytes] at hdumps
            | some bytes =>
                cases codec <;> simp only [Runtime.dumps] at hbytes <;> simp [hbytes] at hdumps <;>
                  rw [hdumps]
          have hbears : Bears (Encodes rt) vars
              ⟨request kv.1 (self.serialization.getD .null), bindata⟩ := by
            rw [hserialization, Option.getD_some]
            exact fun _ => ⟨kv.1, kv.2, serialization, hkv, (hnames _ _).1, (hnames _ _).2, codec, hname,
              hencodes⟩
          exact ((call_keeps hbears).bind fun _ => ih hrest) self
            ⟨serialization, codec, hserialization, hname, hcodec⟩

theorem sync_r_keeps (n : Int64) :
    (DimeClient.sync_r rt fuel n).Keeps (Bears (Encodes rt) vars) Settled := by
  have h : Inherited (listener rt) (Bears (Encodes rt) vars) fun _ p =>
      p.Keeps (Bears (Encodes rt) vars) Fitting := by
    apply inherited_keeps
    rintro _ _ ⟨⟩ self hself
    exact hself
  have hcollect : ∀ rounds m, (collect DimeClient.recv (DimeClient.judge rt) rounds [] m).Keeps
      (Bears (Encodes rt) vars) Fitting := by
    intro rounds m
    rw [← recv_listener rt 0]
    exact h.collect rounds [] m
  apply connected_keeps
  apply (Prog.keeps_request (bears_sync n)).bind
  intro _
  apply (hcollect fuel n.toInt).bind
  intro result
  change Prog.Keeps _ Fitting (if 0 < n.toInt ∧ result.2 < n.toInt then
    Prog.raise "self.sync_r is not a function" else .done result.1)
  split
  · exact Prog.keeps_raise _
  · exact Prog.keeps_done _

theorem method_keeps {call : Call V} (hcall : ∀ kv ∈ call.passed, kv ∈ vars) :
    (call.method rt fuel).Keeps (Bears (Encodes rt) vars) Settled := by
  cases call with
  | join names =>
      exact connected_keeps ((call_keeps (bears_join names)).bind fun _ => Prog.keeps_done ())
  | leave names =>
      exact connected_keeps ((call_keeps (bears_leave names)).bind fun _ => Prog.keeps_done ())
  | send_r name kvpairs => exact connected_keeps (transmit_keeps (names_send name) hcall)
  | broadcast_r kvpairs => exact connected_keeps (transmit_keeps names_broadcast hcall)
  | sync_r n => exact (sync_r_keeps n).bind fun _ => Prog.keeps_done ()
  | wait =>
      have hwait : (DimeClient.wait rt).Keeps (Bears (Encodes rt) vars) Settled :=
        connected_keeps ((call_keeps bears_wait).bind fun _ => Prog.keeps_done _)
      exact hwait.bind fun _ => Prog.keeps_done ()
  | devices =>
      have hdevices : (DimeClient.devices rt).Keeps (Bears (Encodes rt) vars) Settled :=
        connected_keeps ((call_keeps bears_devices).bind fun _ => Prog.keeps_done _)
      exact hdevices.bind fun _ => Prog.keeps_done ()

theorem session_bears (cs : List (Call V)) (inbox : List Message) :
    ∀ request ∈ (hear (session rt fuel cs) .new inbox).requests,
      Bears (Encodes rt) (cs.flatMap Call.passed) request := by
  have hcalls : (calls rt fuel cs).Keeps (Bears (Encodes rt) (cs.flatMap Call.passed)) Settled :=
    calls_keep (calls rt fuel) rfl (fun _ _ => rfl) fun call hcall =>
      method_keeps fun kv hkv => List.mem_flatMap.mpr ⟨call, hcall, hkv⟩
  -- the reply to the handshake settles the client, whatever it is
  have hsession : (session rt fuel cs).Guarded (Bears (Encodes rt) (cs.flatMap Call.passed)) Settled
      .new := ⟨bears_handshake "json", fun message => hcalls _ (settled_onReply message.jsondata _)⟩
  exact hsession.of_mem

end JavaScript

/-! ## In a run -/

section

variable {V W : Type}

/-- One of the calls of a client passes a value under this name, and this is what the client makes
of it for the serialization. -/
def Endpoint.Passes (platform : Platform V W) (varname : String) (serialization : Json)
    (bindata : Bytes) : Endpoint V W → Prop
  | .python _ cs => ∃ x, (varname, x) ∈ cs.flatMap Python.Call.passed ∧
      Python.Encodes platform.modules serialization x bindata
  | .matlab cs => ∃ x, (varname, x) ∈ cs.flatMap Matlab.Call.passed ∧
      Matlab.Encodes platform.matlab serialization x bindata
  | .javascript cs => ∃ x, (varname, x) ∈ cs.flatMap JavaScript.Call.passed ∧
      JavaScript.Encodes platform.javascript serialization x bindata

variable {platform : Platform V W} {endpoint : ClientPtr → Endpoint V W} {jansson : Jansson Json}
  {loads : CString → Json} {history : List (Server × Action)} {mid : Server} {c : ClientPtr}

theorem Endpoint.passes_of_mem (client : Endpoint V W) {inbox : List Message} {request : Message}
    (hmem : request ∈ client.requests platform inbox)
    (hcommand : Hub.command request.jsondata = "send" ∨
      Hub.command request.jsondata = "broadcast") :
    ∃ varname serialization, request.jsondata.get? "varname" = some (.string varname) ∧
      request.jsondata.get? "serialization" = some serialization ∧
      client.Passes platform varname serialization request.bindata := by
  cases client with
  | python useJson cs =>
      obtain ⟨varname, x, serialization, hx, hvarname, hserialization, hencodes⟩ :=
        Python.session_bears useJson cs inbox request hmem hcommand
      exact ⟨varname, serialization, hvarname, hserialization, x, hx, hencodes⟩
  | matlab cs =>
      obtain ⟨varname, x, serialization, hx, hvarname, hserialization, hencodes⟩ :=
        Matlab.session_bears cs inbox request hmem hcommand
      exact ⟨varname, serialization, hvarname, hserialization, x, hx, hencodes⟩
  | javascript cs =>
      obtain ⟨varname, x, serialization, hx, hvarname, hserialization, hencodes⟩ :=
        JavaScript.session_bears cs inbox request hmem hcommand
      exact ⟨varname, serialization, hvarname, hserialization, x, hx, hencodes⟩

/-- What is handled in a run is a request of the session. -/
theorem Driven.mem_requests (h : Driven platform endpoint jansson loads history) {jsondata : Json}
    {bindata : Bytes} (hmem : (mid, .command c jsondata bindata) ∈ history) :
    (⟨jsondata, bindata⟩ : Message) ∈
      (endpoint c).requests platform (mid.stream jansson loads c) := by
  obtain ⟨before, after, rfl⟩ := List.append_of_mem hmem
  have hfollows : ((endpoint c).requests platform (mid.stream jansson loads c))[
      (handled before c).length]? = some ⟨jsondata, bindata⟩ := h.follows.2
  exact List.mem_of_getElem? hfollows

end

end Dime
