import Dime.Clients.Outstanding
import Dime.Clients.Relays
import Dime.Server.Answers

/-!
# Calls that fail

What a call of the Python and the Matlab client leaves unread. A pipelined batch is
abandoned with the first refusal, and the replies behind it are taken for those to
the next requests.
-/

namespace Dime

open Dialogue Server

variable {Env : Type} {answer : Env → Message → Env × List Message} {fuel : Nat}

/-! ## The Python client -/

namespace Python

/-- A transmission is steady, and of the other calls nothing is required. -/
def Call.Steady (modules : Modules) (answer : Env → Message → Env × List Message) (fuel : Nat) :
    Call → DimeClient → Env → List Message → Prop
  | .send_r name kvpairs, self, env, inbox =>
      (DimeClient.pipeline modules).Steady (Request.send name) answer (windows 16 16 kvpairs) fuel
        self env inbox
  | .broadcast_r kvpairs, self, env, inbox =>
      (DimeClient.pipeline modules).SteadyBatches Request.broadcast answer fuel self.serialization
        (fun _ _ _ => True) (windows 16 16 kvpairs) self env inbox
  | _, _, _, _ => True

theorem Call.Steady.tidy (modules : Modules)
    (h : Responds DimeClient.listener (DimeClient.judge modules) answer) (call : Call)
    (self : DimeClient) (env : Env) (inbox : List Message)
    (hsteady : call.Steady modules answer fuel self env inbox)
    (howed : DimeClient.listener.Owed inbox []) :
    Tidy DimeClient.listener (run answer (call.method modules fuel) self env inbox) := by
  cases call with
  | join names =>
      exact (h.call (command_ne (show _ = some "join" from rfl) (by decide)) howed).bind
        fun _ _ _ _ => rfl
  | leave names =>
      exact (h.call (command_ne (show _ = some "leave" from rfl) (by decide)) howed).bind
        fun _ _ _ _ => rfl
  | send_r name kvpairs =>
      apply Pipeline.Steady.tidy h _ (fun fuel => DimeClient.send_r modules fuel name kvpairs) rfl
        (fun _ => rfl) hsteady howed
      exact fun _ _ => command_ne (show _ = some "send" from rfl) (by decide)
  | broadcast_r kvpairs =>
      apply Pipeline.SteadyBatches.tidy h _ _ hsteady howed
      · exact fun _ _ => command_ne (show _ = some "broadcast" from rfl) (by decide)
      · intro self env inbox _ howed _
        exact howed
  | sync_r n => exact (h.resyncs (resyncs modules) howed).bind fun _ _ _ _ => rfl
  | wait =>
      have hwait : Tidy DimeClient.listener
          (run answer (DimeClient.listener.call fuel Request.wait) self env inbox) :=
        h.call (command_ne (show _ = some "wait" from rfl) (by decide)) howed
      exact (hwait.bind fun _ _ _ _ => run_ofExcept_unread _ _ _ _).bind fun _ _ _ _ => rfl
  | devices =>
      have hdevices : Tidy DimeClient.listener
          (run answer (DimeClient.listener.call fuel Request.devices) self env inbox) :=
        h.call (command_ne (show _ = some "devices" from rfl) (by decide)) howed
      exact (hdevices.bind fun _ _ _ _ => run_ofExcept_unread _ _ _ _).bind fun _ _ _ _ => rfl

end Python

/-! ## The Matlab client -/

namespace Matlab

variable {V : Type} (rt : Runtime V)

/-- A transmission is steady, and of the other calls nothing is required. -/
def Call.Steady (answer : Env → Message → Env × List Message) (fuel : Nat) :
    Call V → Obj → Env → List Message → Prop
  | .send_r name v, self, env, inbox =>
      (Obj.pipeline rt).Steady (Request.send name) answer (windows 16 17 v) fuel self env inbox
  | .broadcast_r v, self, env, inbox =>
      (Obj.pipeline rt).Steady Request.broadcast answer (windows 16 17 v) fuel self env inbox
  | _, _, _, _ => True

theorem Call.Steady.tidy (h : Responds (Obj.listener rt) (Obj.judge rt) answer) (call : Call V)
    (self : Obj) (env : Env) (inbox : List Message)
    (hsteady : call.Steady rt answer fuel self env inbox)
    (howed : (Obj.listener rt).Owed inbox []) :
    Tidy (Obj.listener rt) (run answer (call.method rt fuel) self env inbox) := by
  cases call with
  | join names =>
      exact (h.call (command_ne (show _ = some "join" from rfl) (by decide)) howed).bind
        fun _ _ _ _ => rfl
  | leave names =>
      exact (h.call (command_ne (show _ = some "leave" from rfl) (by decide)) howed).bind
        fun _ _ _ _ => rfl
  | send_r name v =>
      apply Pipeline.Steady.tidy h _ (fun fuel => Obj.send_r rt fuel name v) rfl (fun _ => rfl)
        hsteady howed
      exact fun _ _ => command_ne (show _ = some "send" from rfl) (by decide)
  | broadcast_r v =>
      apply Pipeline.Steady.tidy h _ (fun fuel => Obj.broadcast_r rt fuel v) rfl (fun _ => rfl)
        hsteady howed
      exact fun _ _ => command_ne (show _ = some "broadcast" from rfl) (by decide)
  | sync_r n => exact (h.resyncs (resyncs rt) howed).bind fun _ _ _ _ => rfl
  | wait =>
      have hwait : Tidy (Obj.listener rt)
          (run answer ((Obj.listener rt).call fuel Request.wait) self env inbox) :=
        h.call (command_ne (show _ = some "wait" from rfl) (by decide)) howed
      exact (hwait.bind fun _ _ _ _ => run_ofExcept_unread _ _ _ _).bind fun _ _ _ _ => rfl
  | devices =>
      have hdevices : Tidy (Obj.listener rt)
          (run answer ((Obj.listener rt).call fuel Request.devices) self env inbox) :=
        h.call (command_ne (show _ = some "devices" from rfl) (by decide)) howed
      exact (hdevices.bind fun _ _ _ _ => run_ofExcept_unread _ _ _ _).bind fun _ _ _ _ => rfl

end Matlab

/-! ## Both clients -/

/-- After each of a sequence of calls, no reply is unread, if every transmission is steady. -/
theorem calls_tidy {V : Type} (modules : Python.Modules) (rt : Matlab.Runtime V)
    (answer : Env → Message → Env × List Message) (fuel : Nat) (env : Env)
    (inbox : List Message) :
    (Responds Python.DimeClient.listener (Python.DimeClient.judge modules) answer →
      Python.DimeClient.listener.Owed inbox [] → ∀ cs self,
      SteadyCalls answer (Python.Call.method modules fuel) (Python.Call.Steady modules answer fuel)
        cs self env inbox →
      ∀ n, Tidy Python.DimeClient.listener
        (run answer (Python.calls modules fuel (cs.take n)) self env inbox)) ∧
    (Responds (Matlab.Obj.listener rt) (Matlab.Obj.judge rt) answer →
      (Matlab.Obj.listener rt).Owed inbox [] → ∀ cs self,
      SteadyCalls answer (Matlab.Call.method rt fuel) (Matlab.Call.Steady rt answer fuel)
        cs self env inbox →
      ∀ n, Tidy (Matlab.Obj.listener rt)
        (run answer (Matlab.calls rt fuel (cs.take n)) self env inbox)) := by
  constructor
  · intro h howed cs self hsteady n
    exact hsteady.tidy rfl (fun _ _ => rfl) (Python.Call.Steady.tidy modules h) howed n
  · intro h howed cs self hsteady n
    exact hsteady.tidy rfl (fun _ _ => rfl) (Matlab.Call.Steady.tidy rt h) howed n

/-! ### Two refusals -/

/-- A refusal. -/
def refusal (text : String) : Message :=
  ⟨.object [("status", .integer (-1)), ("error", .string text)], []⟩

/-- A server that refuses every second request. -/
def refusesSecond (count : Nat) (_ : Message) : Nat × List Message :=
  (count + 1, [if count % 2 = 1 then refusal "refused" else statusOkMessage])

theorem responds_refusesSecond {Self Err Vars : Type} {listener : Listener Self Err}
    {judge : Message → Judgement Err Vars} (hok : listener.hearing statusOkMessage = .plain)
    (hrefusal : listener.hearing (refusal "refused") = .plain)
    (hends : ¬ Passes listener judge statusOkMessage)
    (hrefused : ¬ Passes listener judge (refusal "refused")) :
    Responds listener judge refusesSecond := by
  have howed : ∀ reply, listener.hearing reply = .plain → listener.Owed [reply] [reply] := by
    intro reply hreply
    constructor
    · intro message hmem err
      rw [List.mem_singleton.mp hmem, hreply]
      simp
    · simp [Listener.isPlain, hreply]
  constructor
  · intro count request _
    refine ⟨_, howed _ ?_⟩
    split
    · exact hrefusal
    · exact hok
  · intro count n
    refine ⟨[], _, [], rfl, by simp, ?_, by simp, rfl⟩
    split
    · exact hrefused
    · exact hends

/-- The last of a batch is refused, and the next call reads its own reply. -/
theorem calls_tidy_refusal :
    (∀ n, Tidy Python.DimeClient.listener (run refusesSecond
      (Python.calls plainModules 3
        (([.send_r "g" [("a", .none), ("b", .none)], .devices] : List Python.Call).take n))
      ⟨.string "pickle", some .pickle⟩ 0 [])) ∧
    ∀ n, Tidy (Matlab.Obj.listener plainMatlab) (run refusesSecond
      (Matlab.calls plainMatlab 3
        (([.send_r "g" [("a", ()), ("b", ())], .devices] : List (Matlab.Call Unit)).take n))
      ⟨.string "matlab"⟩ 0 []) := by
  obtain ⟨hpython, hmatlab⟩ := calls_tidy plainModules plainMatlab refusesSecond 3 0 []
  constructor
  · apply hpython (responds_refusesSecond rfl rfl id id) ⟨by simp, rfl⟩
    refine ⟨⟨.inr ⟨?_, ?_⟩, ?_⟩, trivial, trivial⟩
    · exact fun _ _ => ⟨[1], rfl⟩
    · exact ⟨fun _ => by decide, fun hne => absurd rfl hne, trivial⟩
    · exact fun hdone => absurd hdone (by decide +kernel)
  · apply hmatlab (responds_refusesSecond rfl rfl id id) ⟨by simp, rfl⟩
    refine ⟨⟨.inr ⟨?_, ?_⟩, ?_⟩, trivial, trivial⟩
    · exact fun _ _ => ⟨[1], rfl⟩
    · exact ⟨fun _ => by decide, fun hne => absurd rfl hne, trivial⟩
    · exact fun hdone => absurd hdone (by decide +kernel)

/-- What the server answers if nobody has joined a group. -/
def noGroup : Message := refusal "No such group exists: g"

/-- A client that has connected sends two variables to a group that nobody has joined. One
of the refusals is read, and the other is taken for the reply to a later `join`. -/
theorem calls_untidy : ∃ history srv,
    Reaches (compactJansson []) history srv ∧
    let answer := Server.answer (compactJansson []) (compactLoads [noGroup.jsondata]) 0
    let ended := run answer
      (Python.calls plainModules 3 [.send_r "g" [("a", .none), ("b", .none)]])
      ⟨.string "pickle", some .pickle⟩ srv []
    ended.outcome = .done () ∧ ended.unread = [noGroup] ∧
    ¬ Tidy Python.DimeClient.listener ended ∧
    (run answer (Python.DimeClient.join 1 ["h"]) ended.self ended.env ended.unread).outcome =
      .raised "NameError: name 'status' is not defined" := by
  have hscript : (script (compactJansson [])
      [.accept 3 false, .command 0 (Request.handshake "pickle").jsondata []]).map
      (fun result : List (Server × Action) × Server =>
        let answer := Server.answer (compactJansson []) (compactLoads [noGroup.jsondata]) 0
        let ended := run answer
          (Python.calls plainModules 3 [.send_r "g" [("a", .none), ("b", .none)]])
          ⟨.string "pickle", some .pickle⟩ result.2 []
        (decide (ended.outcome = .done ()), decide (ended.unread = [noGroup]),
          decide ((run answer (Python.DimeClient.join 1 ["h"]) ended.self ended.env
            ended.unread).outcome = .raised "NameError: name 'status' is not defined"))) =
      some (true, true, true) := by decide +kernel
  obtain ⟨⟨history, srv⟩, hrun, hvalue⟩ := Option.map_eq_some_iff.mp hscript
  simp only [Prod.mk.injEq, decide_eq_true_iff] at hvalue
  obtain ⟨hdone, hunread, hraised⟩ := hvalue
  refine ⟨history, srv, script_reaches _ hrun, hdone, hunread, ?_, hraised⟩
  intro htidy
  have howed := (htidy (by rw [hdone]; rfl)).replies
  rw [hunread] at howed
  revert howed
  decide

end Dime
