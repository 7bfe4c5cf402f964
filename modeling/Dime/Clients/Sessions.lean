import Dime.Clients.Relays
import Dime.Server.Answers

/-!
# Sessions

A client of the server is the session of one of the implementations. It sends a
handshake, and then the requests of its calls, which are no handshakes.
-/

namespace Dime

open Dialogue

/-- What the sessions rest on: the libraries of the implementations, and a bound on the
rounds of their loops. -/
structure Platform (V W : Type) where
  fuel : Nat
  modules : Python.Modules
  matlab : Matlab.Runtime V
  javascript : JavaScript.Runtime W

/-- A client, and the calls that it makes one after the other. -/
inductive Endpoint (V W : Type) where
  | python (useJson : Bool) (calls : List Python.Call)
  | matlab (calls : List (Matlab.Call V))
  | javascript (calls : List (JavaScript.Call W))

namespace Endpoint

variable {V W : Type} (platform : Platform V W)

/-- What a session has sent after it has read the messages that are there. -/
def requests : Endpoint V W → List Message → List Message
  | .python useJson calls, inbox =>
      (hear (Python.session platform.modules platform.fuel useJson calls) ⟨.null, none⟩
        inbox).requests
  | .matlab calls, inbox =>
      (hear (Matlab.session platform.matlab platform.fuel calls) ⟨.null⟩ inbox).requests
  | .javascript calls, inbox =>
      (hear (JavaScript.session platform.javascript platform.fuel calls) .new inbox).requests

/-- The serialization that an implementation asks for. -/
def serialization : Endpoint V W → String
  | .python useJson _ => if useJson then "json" else "pickle"
  | .matlab _ => "matlab"
  | .javascript _ => "json"

/-- The implementation has a decoder for a serialization. -/
def decodes : Endpoint V W → Json → Bool
  | .python .., serialization => (Python.Codec.ofName? serialization).isSome
  | .matlab _, serialization => (Matlab.Obj.decoder platform.matlab serialization).isSome
  | .javascript _, serialization => (JavaScript.Codec.ofName? (some serialization)).isSome

variable {platform}

theorem requests_grow (platform : Platform V W) (endpoint : Endpoint V W) (inbox more : List Message) :
    endpoint.requests platform inbox <+: endpoint.requests platform (inbox ++ more) := by
  cases endpoint with
  | python useJson calls => exact hear_requests_prefix _ _ _ _
  | matlab calls => exact hear_requests_prefix _ _ _ _
  | javascript calls => exact hear_requests_prefix _ _ _ _

end Endpoint

/-! ## What the sessions send -/

/-- The requests of the calls: they are no handshakes, and cannot be taken for replies. -/
def IsCall (request : Message) : Prop :=
  Hub.command request.jsondata ≠ "handshake" ∧ request.jsondata.get? "status" = none

theorem isCall_sync (n : Int64) : IsCall (Request.sync n) :=
  ⟨Server.command_ne (show _ = some "sync" from rfl) (by decide), rfl⟩

theorem isCall_join (names : List String) : IsCall (Request.join names) :=
  ⟨Server.command_ne (show _ = some "join" from rfl) (by decide), rfl⟩

theorem isCall_leave (names : List String) : IsCall (Request.leave names) :=
  ⟨Server.command_ne (show _ = some "leave" from rfl) (by decide), rfl⟩

theorem isCall_wait : IsCall Request.wait :=
  ⟨Server.command_ne (show _ = some "wait" from rfl) (by decide), rfl⟩

theorem isCall_devices : IsCall Request.devices :=
  ⟨Server.command_ne (show _ = some "devices" from rfl) (by decide), rfl⟩

theorem isCall_send (name varname : String) (serialization : Json) (bindata : Bytes) :
    IsCall ⟨Request.send name varname serialization, bindata⟩ :=
  ⟨Server.command_ne (show _ = some "send" from rfl) (by decide), rfl⟩

theorem isCall_broadcast (varname : String) (serialization : Json) (bindata : Bytes) :
    IsCall ⟨Request.broadcast varname serialization, bindata⟩ :=
  ⟨Server.command_ne (show _ = some "broadcast" from rfl) (by decide), rfl⟩

/-- A property of the requests of the calls. -/
structure OfCalls (P : Message → Prop) : Prop where
  join : ∀ names, P (Request.join names)
  leave : ∀ names, P (Request.leave names)
  send : ∀ name varname serialization bindata, P ⟨Request.send name varname serialization, bindata⟩
  broadcast : ∀ varname serialization bindata, P ⟨Request.broadcast varname serialization, bindata⟩
  sync : ∀ n, P (Request.sync n)
  wait : P Request.wait
  devices : P Request.devices

theorem ofCalls_isCall : OfCalls IsCall :=
  ⟨isCall_join, isCall_leave, isCall_send, isCall_broadcast, isCall_sync, isCall_wait, isCall_devices⟩

/-! ## Properties of the methods -/

section Methods

variable {Self Err Vars V α β : Type} {listener : Listener Self Err} {P : Message → Prop}
  {fuel : Nat}

/-- A property that the methods of a client have if all their parts do. `P` is a property of
the requests. -/
structure Inherited (listener : Listener Self Err) (P : Message → Prop)
    (Q : (α : Type) → Prog Self Err Message Message α → Prop) : Prop where
  done : ∀ {α : Type} (a : α), Q α (.done a)
  raise : ∀ {α : Type} (err : Err), Q α (.raise err)
  exhausted : ∀ {α : Type}, Q α .exhausted
  get : ∀ {α : Type} {next : Self → Prog Self Err Message Message α},
    (∀ self, Q α (next self)) → Q α (.get next)
  request : ∀ request, P request → Q Unit (Prog.request request)
  recv : ∀ fuel, Q Message (listener.recv fuel)
  bind : ∀ {α β : Type} {p : Prog Self Err Message Message α}
    {f : α → Prog Self Err Message Message β}, Q α p → (∀ a, Q β (f a)) → Q β (p.bind f)
  attempt : ∀ {α : Type} {p : Prog Self Err Message Message α}, Q α p → Q (Except Err α) p.attempt

namespace Inherited

variable {Q : (α : Type) → Prog Self Err Message Message α → Prop}

theorem ofExcept (h : Inherited listener P Q) (result : Except Err α) :
    Q α (Prog.ofExcept result) := by
  cases result with
  | ok a => exact h.done a
  | error err => exact h.raise err

theorem reply (h : Inherited listener P Q) : Q Json (listener.reply fuel) := by
  apply h.bind (h.recv fuel)
  intro message
  apply h.bind (h.ofExcept _)
  intro _
  exact h.done _

theorem call (h : Inherited listener P Q) {request : Message} (hrequest : P request) :
    Q Json (listener.call fuel request) :=
  h.bind (h.request request hrequest) fun _ => h.reply

/-- A call of which the result is looked up. -/
theorem lookup (h : Inherited listener P Q) {request : Message} (hrequest : P request)
    (f : Json → Except Err α) :
    Q Unit (((listener.call fuel request).bind fun jsondata => Prog.ofExcept (f jsondata)).bind
      fun _ => .done ()) :=
  h.bind (h.bind (h.call hrequest) fun _ => h.ofExcept _) fun _ => h.done ()

section Transmitting

variable {pipe : Pipeline Self Err V} {request : String → Json → Json}

theorem sendBatch (h : Inherited pipe.toListener P Q)
    (hrequest : ∀ varname serialization bindata, P ⟨request varname serialization, bindata⟩)
    (batch : List (String × V)) : Q Nat (pipe.sendBatch request batch) := by
  induction batch with
  | nil => exact h.done 0
  | cons kv rest ih =>
      apply h.get
      intro self
      apply h.bind (h.ofExcept _)
      intro bindata
      apply h.bind (h.request _ (hrequest _ _ _))
      intro _
      exact h.bind ih fun n => h.done (n + 1)

theorem readReplies (h : Inherited pipe.toListener P Q) (n : Nat) :
    Q Unit (pipe.readReplies fuel n) := by
  induction n with
  | zero => exact h.done ()
  | succ n ih => exact h.bind h.reply fun _ => ih

theorem batches (h : Inherited pipe.toListener P Q)
    (hrequest : ∀ varname serialization bindata, P ⟨request varname serialization, bindata⟩)
    {serialization : Json} {resend : Prog Self Err Message Message Unit} (hresend : Q Unit resend)
    (kvs : List (List (String × V))) :
    Q Unit (pipe.batches request fuel serialization resend kvs) := by
  induction kvs with
  | nil => exact h.done ()
  | cons batch rest ih =>
      apply h.bind (h.sendBatch hrequest batch)
      intro n
      apply h.bind (h.readReplies n)
      intro _
      apply h.get
      intro self
      change Q Unit (if pipe.differs serialization (pipe.serialization self) then resend
        else pipe.batches request fuel serialization resend rest)
      split
      · exact hresend
      · exact ih

theorem transmit (pipe : Pipeline Self Err V) (h : Inherited pipe.toListener P Q)
    (hrequest : ∀ varname serialization bindata, P ⟨request varname serialization, bindata⟩)
    {resend : Prog Self Err Message Message Unit} (hresend : Q Unit resend)
    (kvs : List (List (String × V))) : Q Unit (pipe.transmit request fuel resend kvs) :=
  h.get fun _ => h.batches hrequest hresend kvs

/-- A method that transmits again what it has transmitted. -/
theorem transmits (pipe : Pipeline Self Err V) (h : Inherited pipe.toListener P Q)
    (hrequest : ∀ varname serialization bindata, P ⟨request varname serialization, bindata⟩)
    {kvs : List (List (String × V))} (sender : Nat → Prog Self Err Message Message Unit)
    (hzero : sender 0 = .exhausted)
    (hsucc : ∀ fuel, sender (fuel + 1) = pipe.transmit request fuel (sender fuel) kvs) :
    Q Unit (sender fuel) := by
  induction fuel with
  | zero =>
      rw [hzero]
      exact h.exhausted
  | succ fuel ih =>
      rw [hsucc]
      exact h.transmit pipe hrequest ih kvs

end Transmitting

theorem collect (h : Inherited listener P Q) {judge : Message → Judgement Err Vars}
    (rounds : Nat) (vars : Vars) (m : Int) :
    Q (Vars × Int) (Dime.collect (listener.recv fuel) judge rounds vars m) := by
  induction rounds generalizing vars m with
  | zero => exact h.exhausted
  | succ rounds ih =>
      apply h.bind (h.recv fuel)
      intro message
      cases judge message with
      | finish => exact h.done _
      | fail err => exact h.raise err
      | skip => exact ih vars (m - 1)
      | keep f => exact ih (f vars) m

/-- A method that synchronises. -/
theorem resyncs (h : Inherited listener P Q) (hrequest : ∀ n, P (Request.sync n))
    {judge : Message → Judgement Err Vars} {vars : Vars}
    {sync : Nat → Int64 → Prog Self Err Message Message Vars}
    {combine : Vars → Vars → Prog Self Err Message Message Vars}
    (hsync : Resyncs listener judge sync vars combine) (n : Int64) : Q Vars (sync fuel n) := by
  induction fuel generalizing n with
  | zero =>
      rw [hsync.zero]
      exact h.exhausted
  | succ fuel ih =>
      rw [hsync.succ]
      apply h.bind (h.request _ (hrequest n))
      intro _
      apply h.bind (h.collect fuel vars n.toInt)
      intro result
      change Q Vars (if 0 < n.toInt ∧ result.2 < n.toInt then
        (sync fuel (Int64.ofInt (n.toInt - result.2))).bind (combine result.1)
        else .done result.1)
      split
      · apply h.bind (ih _)
        intro more
        rcases hsync.combine result.1 more with ⟨vars', heq⟩ | ⟨err, heq⟩
        · rw [heq]
          exact h.done vars'
        · rw [heq]
          exact h.raise err
      · exact h.done _

/-- One call after the other. -/
theorem calls (h : Inherited listener P Q) {Call : Type}
    {method : Call → Prog Self Err Message Message Unit}
    (calls : List Call → Prog Self Err Message Message Unit) (hnil : calls [] = .done ())
    (hcons : ∀ call rest, calls (call :: rest) = (method call).attempt.bind fun _ => calls rest)
    (hmethod : ∀ call, Q Unit (method call)) (cs : List Call) : Q Unit (calls cs) := by
  induction cs with
  | nil =>
      rw [hnil]
      exact h.done ()
  | cons call rest ih =>
      rw [hcons]
      exact h.bind (h.attempt (hmethod call)) fun _ => ih

end Inherited

theorem hear_send {request : Message} {next : Prog Self Err Message Message α} (h : next.Issues P)
    (self : Self) (inbox : List Message) : ∃ rest,
      (hear (.send request next) self inbox).requests = request :: rest ∧
        ∀ request ∈ rest, P request :=
  ⟨_, rfl, h.of_mem⟩

theorem issues_ofExcept (result : Except Err α) :
    (Prog.ofExcept result : Prog Self Err Message Message α).Issues P := by
  cases result with
  | ok a => trivial
  | error err => trivial

theorem Listener.recv_issues (listener : Listener Self Err) : (listener.recv fuel).Issues P := by
  induction fuel with
  | zero => trivial
  | succ fuel ih =>
      intro message
      apply (issues_ofExcept _).bind
      intro isMeta
      cases isMeta with
      | false => trivial
      | true =>
          apply (issues_ofExcept _).bind
          intro f self
          exact ih

theorem inherited_issues (listener : Listener Self Err) (P : Message → Prop) :
    Inherited listener P fun _ p => p.Issues P where
  done _ := trivial
  raise _ := trivial
  exhausted := trivial
  get h := h
  request _ h := ⟨h, trivial⟩
  recv _ := listener.recv_issues
  bind h hf := h.bind hf
  attempt h := h.attempt

theorem syncWith_issues {recv : Prog Self Err Message Message Message} (hrecv : recv.Issues P)
    {judge : Message → Judgement Err Vars} {rounds : Nat} {vars : Vars}
    {again : Vars → Int64 → Prog Self Err Message Message Vars}
    (hagain : ∀ vars n, (again vars n).Issues P) (h : ∀ n, P (Request.sync n)) (n : Int64) :
    (syncWith recv judge rounds vars again n).Issues P := by
  have hcollect : ∀ rounds vars m, (collect recv judge rounds vars m).Issues P := by
    intro rounds
    induction rounds with
    | zero => exact fun _ _ => trivial
    | succ rounds ih =>
        intro vars m
        apply hrecv.bind
        intro message
        cases judge message with
        | finish => trivial
        | fail err => trivial
        | skip => exact ih vars (m - 1)
        | keep f => exact ih (f vars) m
  refine ⟨h n, (hcollect rounds vars n.toInt).bind ?_⟩
  intro result
  change Prog.Issues P (if 0 < n.toInt ∧ result.2 < n.toInt then
    again result.1 (Int64.ofInt (n.toInt - result.2)) else .done result.1)
  split
  · exact hagain _ _
  · trivial

end Methods

namespace Python

variable {P : Message → Prop} {Q : (α : Type) → Method α → Prop} (modules : Modules) (fuel : Nat)

theorem method_inherits (hP : OfCalls P) (h : Inherited DimeClient.listener P Q) (call : Call) :
    Q Unit (call.method modules fuel) := by
  cases call with
  | join names => exact h.bind (h.call (hP.join names)) fun _ => h.done ()
  | leave names => exact h.bind (h.call (hP.leave names)) fun _ => h.done ()
  | send_r name kvpairs =>
      exact Inherited.transmits (DimeClient.pipeline modules) h (hP.send name)
        (fun fuel => DimeClient.send_r modules fuel name kvpairs) rfl fun _ => rfl
  | broadcast_r kvpairs =>
      exact Inherited.transmit (DimeClient.pipeline modules) h hP.broadcast
        (h.raise _) _
  | sync_r n => exact h.bind (h.resyncs hP.sync (resyncs modules) n) fun _ => h.done ()
  | wait => exact h.lookup hP.wait _
  | devices => exact h.lookup hP.devices _

theorem calls_inherit_of (hP : OfCalls P) (h : Inherited DimeClient.listener P Q)
    (cs : List Call) : Q Unit (calls modules fuel cs) :=
  h.calls (calls modules fuel) rfl (fun _ _ => rfl) (method_inherits modules fuel hP h) cs

theorem calls_inherit (h : Inherited DimeClient.listener IsCall Q) (cs : List Call) :
    Q Unit (calls modules fuel cs) :=
  calls_inherit_of modules fuel ofCalls_isCall h cs

end Python

namespace Matlab

variable {V : Type} {P : Message → Prop} {Q : (α : Type) → Method α → Prop} (rt : Runtime V)
  (fuel : Nat)

theorem method_inherits (hP : OfCalls P) (h : Inherited (Obj.listener rt) P Q) (call : Call V) :
    Q Unit (call.method rt fuel) := by
  cases call with
  | join names => exact h.bind (h.call (hP.join names)) fun _ => h.done ()
  | leave names => exact h.bind (h.call (hP.leave names)) fun _ => h.done ()
  | send_r name v =>
      exact Inherited.transmits (Obj.pipeline rt) h (hP.send name)
        (fun fuel => Obj.send_r rt fuel name v) rfl fun _ => rfl
  | broadcast_r v =>
      exact Inherited.transmits (Obj.pipeline rt) h hP.broadcast
        (fun fuel => Obj.broadcast_r rt fuel v) rfl fun _ => rfl
  | sync_r n => exact h.bind (h.resyncs hP.sync (resyncs rt) n) fun _ => h.done ()
  | wait => exact h.lookup hP.wait _
  | devices => exact h.lookup hP.devices _

theorem calls_inherit_of (hP : OfCalls P) (h : Inherited (Obj.listener rt) P Q)
    (cs : List (Call V)) : Q Unit (calls rt fuel cs) :=
  h.calls (calls rt fuel) rfl (fun _ _ => rfl) (method_inherits rt fuel hP h) cs

theorem calls_inherit (h : Inherited (Obj.listener rt) IsCall Q) (cs : List (Call V)) :
    Q Unit (calls rt fuel cs) :=
  calls_inherit_of rt fuel ofCalls_isCall h cs

end Matlab

namespace JavaScript

variable {V : Type} (rt : Runtime V) (fuel : Nat)

theorem call_issues {P : Message → Prop} {request : Message} (h : P request) :
    (DimeClient.call rt request).Issues P := by
  refine ⟨h, ?_⟩
  intro message
  exact (issues_ofExcept _).bind fun _ => trivial

theorem connected_issues {P : Message → Prop} : DimeClient.connected.Issues P := by
  intro self
  simp only [Prog.bind]
  cases self.rejected with
  | none => trivial
  | some reason => trivial

theorem transmit_issues {P : Message → Prop} {request : String → Json → Json}
    (h : ∀ varname serialization bindata, P ⟨request varname serialization, bindata⟩)
    (kvpairs : List (String × V)) : (DimeClient.transmit rt request kvpairs).Issues P := by
  induction kvpairs with
  | nil => trivial
  | cons kv rest ih =>
      intro self
      apply (issues_ofExcept _).bind
      intro bindata
      apply (call_issues rt (h _ _ _)).bind
      intro _
      exact ih

theorem method_issues {P : Message → Prop} (h : OfCalls P) (call : Call V) :
    (call.method rt fuel).Issues P := by
  cases call with
  | join names =>
      apply connected_issues.bind
      intro _
      exact (call_issues rt (h.join names)).bind fun _ => trivial
  | leave names =>
      apply connected_issues.bind
      intro _
      exact (call_issues rt (h.leave names)).bind fun _ => trivial
  | send_r name kvpairs =>
      exact connected_issues.bind fun _ => transmit_issues rt (h.send name) kvpairs
  | broadcast_r kvpairs =>
      exact connected_issues.bind fun _ => transmit_issues rt h.broadcast kvpairs
  | sync_r n =>
      have hsync : (DimeClient.sync_r rt fuel n).Issues P := by
        apply connected_issues.bind
        intro _
        apply syncWith_issues _ _ h.sync
        · exact fun _ => trivial
        · exact fun _ _ => trivial
      exact hsync.bind fun _ => trivial
  | wait =>
      have hwait : (DimeClient.wait rt).Issues P := by
        apply connected_issues.bind
        intro _
        exact (call_issues rt h.wait).bind fun _ => trivial
      exact hwait.bind fun _ => trivial
  | devices =>
      have hdevices : (DimeClient.devices rt).Issues P := by
        apply connected_issues.bind
        intro _
        exact (call_issues rt h.devices).bind fun _ => trivial
      exact hdevices.bind fun _ => trivial

end JavaScript

/-! ## What the sessions send -/

section

variable {V : Type} {P : Message → Prop} {fuel : Nat}

theorem Python.session_requests {modules : Modules} {cs : List Call}
    (h : (calls modules fuel cs).Issues P) (useJson : Bool) (self : DimeClient)
    (inbox : List Message) : ∃ rest,
      (hear (session modules fuel useJson cs) self inbox).requests =
        Request.handshake (if useJson then "json" else "pickle") :: rest ∧
        ∀ request ∈ rest, P request := by
  cases useJson with
  | true =>
      apply hear_send
      apply Prog.Issues.bind _ fun _ => h
      apply (inherited_issues DimeClient.listener P).reply.bind
      intro jsondata
      exact (issues_ofExcept _).bind fun _ _ => trivial
  | false =>
      apply hear_send
      apply Prog.Issues.bind _ fun _ => h
      apply (inherited_issues DimeClient.listener P).reply.bind
      intro jsondata
      exact (issues_ofExcept _).bind fun _ _ => trivial

theorem Matlab.session_requests {rt : Runtime V} {cs : List (Call V)}
    (h : (calls rt fuel cs).Issues P) (self : Obj) (inbox : List Message) : ∃ rest,
      (hear (session rt fuel cs) self inbox).requests = Request.handshake "matlab" :: rest ∧
        ∀ request ∈ rest, P request := by
  apply hear_send
  apply Prog.Issues.bind _ fun _ => h
  apply (inherited_issues (Obj.listener rt) P).reply.bind
  intro jsondata
  exact (issues_ofExcept _).bind fun _ _ => trivial

theorem JavaScript.session_requests {rt : Runtime V} {cs : List (Call V)}
    (h : (calls rt fuel cs).Issues P) (self : DimeClient) (inbox : List Message) : ∃ rest,
      (hear (session rt fuel cs) self inbox).requests = Request.handshake "json" :: rest ∧
        ∀ request ∈ rest, P request := by
  apply hear_send
  intro message self
  exact h

end

/-- A session begins with a handshake, and goes on with the requests of its calls. -/
theorem Endpoint.requests_of {V W : Type} {P : Message → Prop} (hP : OfCalls P)
    (platform : Platform V W) (endpoint : Endpoint V W) (inbox : List Message) : ∃ rest,
      endpoint.requests platform inbox = Request.handshake endpoint.serialization :: rest ∧
        ∀ request ∈ rest, P request := by
  cases endpoint with
  | python useJson cs =>
      exact Python.session_requests (Python.calls_inherit_of platform.modules platform.fuel hP
        (inherited_issues _ P) cs) useJson _ inbox
  | matlab cs =>
      exact Matlab.session_requests (Matlab.calls_inherit_of platform.matlab platform.fuel hP
        (inherited_issues _ P) cs) _ inbox
  | javascript cs =>
      exact JavaScript.session_requests
        ((inherited_issues (JavaScript.listener platform.javascript) P).calls
          (JavaScript.calls platform.javascript platform.fuel) rfl (fun _ _ => rfl)
          (JavaScript.method_issues platform.javascript platform.fuel hP) cs) _ inbox

theorem Endpoint.requests_eq {V W : Type} (platform : Platform V W) (endpoint : Endpoint V W)
    (inbox : List Message) : ∃ rest,
      endpoint.requests platform inbox = Request.handshake endpoint.serialization :: rest ∧
        ∀ request ∈ rest, IsCall request :=
  endpoint.requests_of ofCalls_isCall platform inbox

end Dime
