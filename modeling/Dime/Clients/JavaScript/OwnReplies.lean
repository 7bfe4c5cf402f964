import Mathlib.Logic.Hydra
import Dime.Clients.Relays
import Dime.Clients.JavaScript.Overlapping

/-!
# Every call gets the reply to its own request

A run of the event loop comes to an end, whatever happens in it. Where no call sends a
request while something of another call is outstanding, all promises are settled then,
with the replies to the calls' own requests.
-/

namespace Dime.JavaScript

open Dialogue Relation

/-! ## What the methods read -/

/-- What a call returns. -/
inductive Returned (V : Type) where
  | nothing
  | variables (ret : List (String × V))
  | value (jsondata : Option Json)

/-- The call, with what its promise is resolved with. -/
def Call.promise {V : Type} (rt : Runtime V) (fuel : Nat) : Call V → Method (Returned V)
  | .join names => do
      DimeClient.join rt names
      return .nothing
  | .leave names => do
      DimeClient.leave rt names
      return .nothing
  | .send_r name kvpairs => do
      DimeClient.send_r rt name kvpairs
      return .nothing
  | .broadcast_r kvpairs => do
      DimeClient.broadcast_r rt kvpairs
      return .nothing
  | .sync_r n => do
      let ret ← DimeClient.sync_r rt fuel n
      return .variables ret
  | .wait => do
      let n ← DimeClient.wait rt
      return .value n
  | .devices => do
      let devices ← DimeClient.devices rt
      return .value devices

/-- The answer to a request: one reply, and before the reply to a `sync` the messages that
the server relays. A reply has a status, and no relayed message has one. -/
def Answers (fuel : Nat) (request : Message) (messages : List Message) : Prop :=
  ∃ relayed reply, messages = relayed ++ [reply] ∧ (reply.jsondata.get? "status").isSome ∧
    (∀ message ∈ relayed, (message.jsondata.get? "status").isSome = false) ∧
    relayed.length < fuel ∧
    (request.jsondata.get? "command" ≠ some (.string "sync") → relayed = [])

section

variable {V α : Type} {rt : Runtime V} {fuel : Nat} {due : List Message}

/-- Nothing is due at the end. -/
def Answered (_ : α) (due : List Message) : Prop := due = []

theorem answers_ne_nil {request : Message} {messages : List Message} (h : Answers fuel request messages) :
    messages ≠ [] := by
  obtain ⟨relayed, reply, rfl, _⟩ := h
  exact List.append_ne_nil_of_right_ne_nil relayed (List.cons_ne_nil reply [])

/-- What a method does after it has awaited `this.connected`. -/
theorem reads_connected {method : Method α} (h : method.Reads (Answers fuel) Answered []) :
    (DimeClient.connected.bind fun _ => method).Reads (Answers fuel) Answered [] := by
  unfold DimeClient.connected
  intro self
  cases hrejected : self.rejected with
  | some reason =>
      simp only [Prog.bind, hrejected]
      trivial
  | none =>
      simp only [Prog.bind, hrejected]
      exact h

theorem reads_ofExcept (result : Except String α) :
    (Prog.ofExcept result : Method α).Reads (Answers fuel) Answered [] :=
  Prog.Reads.ofExcept fun _ _ => rfl

theorem reads_call {request : Message}
    (hcommand : request.jsondata.get? "command" ≠ some (.string "sync")) :
    (DimeClient.call rt request).Reads (Answers fuel) Answered [] := by
  refine ⟨rfl, fun messages hmessages => ?_⟩
  obtain ⟨relayed, reply, rfl, _, _, _, hnone⟩ := hmessages
  rw [hnone hcommand]
  change ((Prog.ofExcept (checkStatus rt reply.jsondata)).bind fun _ => Prog.done reply.jsondata).Reads
    (Answers fuel) Answered []
  apply Prog.Reads.bind (reads_ofExcept _)
  exact fun _ _ hdue => hdue

theorem reads_transmit {request : String → Json → Json}
    (hcommand : ∀ varname serialization,
      (request varname serialization).get? "command" ≠ some (.string "sync"))
    (kvpairs : List (String × V)) :
    (DimeClient.transmit rt request kvpairs).Reads (Answers fuel) Answered [] := by
  induction kvpairs with
  | nil => rfl
  | cons kv kvpairs ih =>
      obtain ⟨varname, value⟩ := kv
      intro self
      apply Prog.Reads.bind (reads_ofExcept _)
      intro bindata due hdue
      obtain rfl : due = [] := hdue
      apply Prog.Reads.bind (reads_call (hcommand varname _))
      intro _ due hdue
      obtain rfl : due = [] := hdue
      exact ih

theorem judge_reply (rt : Runtime V) {message : Message} (h : (message.jsondata.get? "status").isSome) :
    DimeClient.judge rt message = .finish ∨ ∃ err, DimeClient.judge rt message = .fail err := by
  unfold DimeClient.judge
  rw [if_pos h]
  cases checkStatus rt message.jsondata with
  | error err => exact .inr ⟨err, rfl⟩
  | ok _ => exact .inl rfl

theorem judge_relayed {message : Message} (h : (message.jsondata.get? "status").isSome = false) :
    DimeClient.judge rt message ≠ .finish := by
  unfold DimeClient.judge
  rw [if_neg (Bool.not_eq_true _ ▸ h)]
  split
  · simp
  · split
    · simp
    · simp

/-- The loop of `sync_r` reads up to the reply. -/
theorem reads_collect {relayed : List Message} {reply : Message}
    (hreply : (reply.jsondata.get? "status").isSome)
    (hrelayed : ∀ message ∈ relayed, (message.jsondata.get? "status").isSome = false)
    (hfuel : relayed.length < fuel) (vars : List (String × V)) (m : Int) {fuel' : Nat} :
    (collect DimeClient.recv (DimeClient.judge rt) fuel vars m).Reads (Answers fuel') Answered
      (relayed ++ [reply]) := by
  -- one round of the loop
  have hround : ∀ rounds vars m message due,
      (judged DimeClient.recv (DimeClient.judge rt) rounds vars m message).Reads (Answers fuel') Answered
        due →
      (collect DimeClient.recv (DimeClient.judge rt) (rounds + 1) vars m).Reads (Answers fuel') Answered
        (message :: due) := by
    intro rounds vars m message due h
    rw [collect_succ]
    exact h
  induction relayed generalizing fuel vars m with
  | nil =>
      cases fuel with
      | zero => exact absurd hfuel (Nat.not_lt_zero _)
      | succ rounds =>
          apply hround
          unfold judged
          obtain hfinish | ⟨err, hfail⟩ := judge_reply rt hreply
          · rw [hfinish]
            rfl
          · rw [hfail]
            trivial
  | cons message relayed ih =>
      cases fuel with
      | zero => exact absurd hfuel (Nat.not_lt_zero _)
      | succ rounds =>
          have hrest := ih (fun message hmem => hrelayed message (List.mem_cons_of_mem _ hmem))
            (Nat.lt_of_succ_lt_succ hfuel)
          apply hround
          unfold judged
          cases hjudge : DimeClient.judge rt message with
          | finish => exact absurd hjudge (judge_relayed (hrelayed message List.mem_cons_self))
          | fail err => trivial
          | skip => exact hrest vars (m - 1)
          | keep f => exact hrest (f vars) m

theorem reads_sync_r (n : Int64) :
    (DimeClient.sync_r rt fuel n).Reads (Answers fuel) Answered [] := by
  apply reads_connected
  refine ⟨rfl, fun messages hmessages => ?_⟩
  obtain ⟨relayed, reply, rfl, hreply, hrelayed, hfuel, _⟩ := hmessages
  apply Prog.Reads.bind (reads_collect hreply hrelayed hfuel [] n.toInt)
  intro result due hdue
  dsimp only
  split
  · trivial
  · exact hdue

/-- Every method reads the answers to its requests. -/
theorem reads_promise (call : Call V) :
    (call.promise rt fuel).Reads (Answers fuel) Answered [] := by
  have hcall : ∀ {request : Message}, request.jsondata.get? "command" ≠ some (.string "sync") →
      ∀ {β : Type} (f : Json → Method β), (∀ jsondata, (f jsondata).Reads (Answers fuel) Answered []) →
      (DimeClient.connected.bind fun _ => (DimeClient.call rt request).bind f).Reads (Answers fuel)
        Answered [] := by
    intro request hcommand β f hf
    apply reads_connected
    apply Prog.Reads.bind (reads_call hcommand)
    intro jsondata due hdue
    obtain rfl : due = [] := hdue
    exact hf jsondata
  have hcommand : ∀ (command : String) fields, command ≠ "sync" →
      (Json.object (("command", .string command) :: fields)).get? "command" ≠ some (.string "sync") := by
    intro command fields hne heq
    cases heq
    exact hne rfl
  have hreturn : ∀ {β : Type} {method : Method β} (f : β → Returned V),
      method.Reads (Answers fuel) Answered [] →
      (method.bind fun b => Prog.done (f b)).Reads (Answers fuel) Answered [] :=
    fun f h => h.bind fun _ _ hdue => hdue
  cases call with
  | join names => exact hreturn (fun _ => .nothing) (hcall (hcommand "join" _ (by decide)) _ fun _ => rfl)
  | leave names =>
      exact hreturn (fun _ => .nothing) (hcall (hcommand "leave" _ (by decide)) _ fun _ => rfl)
  | send_r name kvpairs =>
      exact hreturn (fun _ => .nothing)
        (reads_connected (reads_transmit (fun _ _ => hcommand "send" _ (by decide)) kvpairs))
  | broadcast_r kvpairs =>
      exact hreturn (fun _ => .nothing)
        (reads_connected (reads_transmit (fun _ _ => hcommand "broadcast" _ (by decide)) kvpairs))
  | sync_r n => exact hreturn .variables (reads_sync_r n)
  | wait => exact hreturn .value (hcall (by decide) _ fun _ => rfl)
  | devices => exact hreturn .value (hcall (by decide) _ fun _ => rfl)

end

/-! ## Every run comes to an end -/

section

variable {Env α : Type} {answer : Env → Message → Env × List Frame} {parse : Bytes → Json}
  {page : Page Env α} {i : Nat}

/-- What a call comes to next. -/
inductive Activity.Follows : Activity α → Activity α → Prop
  | stopped (method : Method α) (client : DimeClient) :
      Follows (.stopped (method.proceed client).2.2) (.ready method)
  | resolved (next : Message → Method α) (message : Message) :
      Follows (.ready (next message)) (.stopped (.awaiting next))
  | rejected (next : Message → Method α) (reason : String) :
      Follows (.ready (Prog.raise reason)) (.stopped (.awaiting next))

theorem acc_settled (result : Except String α) :
    Acc Activity.Follows (.stopped (.settled result) : Activity α) := by
  constructor
  intro later h
  cases h

theorem acc_raise (reason : String) :
    Acc Activity.Follows (.ready (Prog.raise reason) : Activity α) := by
  constructor
  intro later h
  cases h
  exact acc_settled (.error reason)

theorem acc_stopped (method : Method α) (client : DimeClient) :
    Acc Activity.Follows (.stopped (method.proceed client).2.2) := by
  induction method generalizing client with
  | done a => exact acc_settled (.ok a)
  | raise reason => exact acc_settled (.error reason)
  | exhausted =>
      constructor
      intro later h
      cases h
  | get next ih => exact ih client client
  | put self next ih => exact ih self
  | send request next ih => exact ih client
  | recv next ih =>
      constructor
      intro later h
      cases h with
      | resolved _ message =>
          constructor
          intro later h
          cases h with
          | stopped _ client => exact ih message client
      | rejected _ reason => exact acc_raise reason

/-- A call does not go on for ever. -/
theorem wellFounded_follows : WellFounded (Activity.Follows (α := α)) := by
  constructor
  intro activity
  cases activity with
  | ready method =>
      constructor
      intro later h
      cases h with
      | stopped _ client => exact acc_stopped method client
  | stopped stop =>
      cases stop with
      | settled result => exact acc_settled result
      | exhausted => exact acc_stopped .exhausted ⟨none, none, none⟩
      | awaiting next => exact acc_stopped (.recv next) ⟨none, none, none⟩

/-- The activities of all calls. -/
def Page.activities (page : Page Env α) : Multiset (Activity α) :=
  Multiset.ofList (page.tasks.map Task.activity)

/-- Some calls have gone on, or none. -/
def Page.Behind (page' page : Page Env α) : Prop :=
  ReflTransGen (CutExpand Activity.Follows) page'.activities page.activities

theorem cutExpand_modify {tasks : List (Task α)} {f : Task α → Task α} {task : Task α}
    (htask : tasks[i]? = some task) (hf : Activity.Follows (f task).activity task.activity) :
    CutExpand Activity.Follows (Multiset.ofList ((tasks.modify i f).map Task.activity))
      (Multiset.ofList (tasks.map Task.activity)) := by
  have hsplit : ∀ (front back : List (Activity α)) (activity : Activity α),
      Multiset.ofList (front ++ activity :: back) = Multiset.ofList (front ++ back) + {activity} := by
    intro front back activity
    rw [add_comm, Multiset.singleton_add, Multiset.cons_coe, Multiset.coe_eq_coe]
    exact List.perm_middle
  obtain ⟨front, task', back, htasks, hlength, hmodify⟩ :=
    List.exists_of_modify f (List.getElem?_eq_some_iff.mp htask).1
  have heq : task' = task := by
    rw [htasks, ← hlength, List.getElem?_append_right le_rfl, Nat.sub_self] at htask
    exact Option.some.inj htask
  subst heq
  rw [hmodify, htasks, List.map_append, List.map_append, List.map_cons, List.map_cons, hsplit, hsplit]
  exact cutExpand_add_single _ hf

/-- A call that is changed only where it goes on. -/
theorem behind_modify {f : Task α → Task α}
    (hf : ∀ task, f task = task ∨ Activity.Follows (f task).activity task.activity)
    {tasks : List (Task α)} :
    ReflTransGen (CutExpand Activity.Follows) (Multiset.ofList ((tasks.modify i f).map Task.activity))
      (Multiset.ofList (tasks.map Task.activity)) := by
  cases htask : tasks[i]? with
  | none =>
      rw [List.modify_eq_self (List.getElem?_eq_none_iff.mp htask)]
  | some task =>
      rcases hf task with heq | hfollows
      · have hsame : tasks.modify i f = tasks := by
          apply List.ext_getElem?
          intro j
          rw [List.getElem?_modify]
          by_cases hij : i = j
          · rw [← hij, htask]
            exact congrArg some ((if_pos rfl).trans heq)
          · cases tasks[j]? with
            | none => rfl
            | some other => exact congrArg some (if_neg hij)
        rw [hsame]
      · exact .single (cutExpand_modify htask hfollows)

theorem behind_resolve (message : Message) : (page.resolve i message).Behind page := by
  apply behind_modify
  intro task
  obtain ⟨activity, heard⟩ := task
  cases activity with
  | ready method => exact .inl rfl
  | stopped stop =>
      cases stop with
      | settled result => exact .inl rfl
      | exhausted => exact .inl rfl
      | awaiting next => exact .inr (.resolved next message)

theorem behind_reject (reason : String) : (page.reject i reason).Behind page := by
  apply behind_modify
  intro task
  obtain ⟨activity, heard⟩ := task
  cases activity with
  | ready method => exact .inl rfl
  | stopped stop =>
      cases stop with
      | settled result => exact .inl rfl
      | exhausted => exact .inl rfl
      | awaiting next => exact .inr (.rejected next reason)

/-- The function in `__recv` settles promises, and sends nothing. -/
theorem behind_callback : (page.callback parse i).Behind page ∧
    (page.callback parse i).requests = page.requests ∧
    (page.callback parse i).stream = page.stream := by
  unfold Page.callback
  split
  · dsimp only
    split
    · split
      · exact ⟨ReflTransGen.trans (behind_resolve _) (behind_reject _), rfl, rfl⟩
      · exact ⟨behind_reject _, rfl, rfl⟩
    · split
      · exact ⟨behind_resolve _, rfl, rfl⟩
      · exact ⟨.refl, rfl, rfl⟩
  · exact ⟨.refl, rfl, rfl⟩

/-- What gets less with every step: what the calls have still to do, then the requests, then
the data on their way. -/
def Page.rest (page : Page Env α) : Multiset (Activity α) × Nat × Nat :=
  (page.activities, page.requests.length, page.stream.length)

/-- Such a triple is less than another one. -/
def Less : Multiset (Activity α) × Nat × Nat → Multiset (Activity α) × Nat × Nat → Prop :=
  Prod.Lex (TransGen (CutExpand Activity.Follows)) (Prod.Lex (· < ·) (· < ·))

theorem wellFounded_less : WellFounded (Less (α := α)) :=
  WellFounded.prod_lex wellFounded_follows.cutExpand.transGen
    (WellFounded.prod_lex Nat.lt_wfRel.wf Nat.lt_wfRel.wf)

theorem less_of_behind {page page' : Page Env α} (h : page'.Behind page)
    (hrest : Prod.Lex (· < ·) (· < ·) (page'.requests.length, page'.stream.length)
      (page.requests.length, page.stream.length)) :
    Less page'.rest page.rest := by
  rcases reflTransGen_iff_eq_or_transGen.mp h with heq | hlt
  · unfold Less Page.rest
    rw [heq]
    exact Prod.Lex.right _ hrest
  · exact Prod.Lex.left _ _ hlt

theorem Page.Step.less {page page' : Page Env α} (h : Page.Step answer parse page page') :
    Less page'.rest page.rest := by
  cases h with
  | @serve i request requests first =>
      apply Prod.Lex.right
      apply Prod.Lex.left
      rw [first]
      exact Nat.lt_succ_self _
  | @onmessage data stream arrives nonempty =>
      have hlength : stream.length < page.stream.length := by
        rw [arrives, List.length_append]
        exact Nat.lt_add_of_pos_left (List.length_pos_of_ne_nil nonempty)
      unfold Page.onmessage
      dsimp only
      split
      next i _ =>
        have hcallback := @behind_callback _ _ parse
          { page with stream := stream, recvbuffer := page.recvbuffer ++ data } i
        refine less_of_behind (show Page.Behind _ page from hcallback.1) ?_
        rw [hcallback.2.1, hcallback.2.2]
        exact Prod.Lex.right _ hlength
      · exact less_of_behind .refl (Prod.Lex.right _ hlength)
  | @proceed i method heard ready =>
      have hstopped : CutExpand Activity.Follows
          (Multiset.ofList ((page.tasks.modify i fun task =>
            { task with activity := .stopped (method.proceed page.client).2.2 }).map Task.activity))
          page.activities :=
        cutExpand_modify ready (.stopped method page.client)
      unfold Page.proceed
      dsimp only
      split
      · exact Prod.Lex.left _ _ (.tail' behind_callback.1 hstopped)
      · exact Prod.Lex.left _ _ (.single hstopped)

/-- There is no infinite run. -/
theorem wellFounded_step :
    WellFounded fun page' page : Page Env α => Page.Step answer parse page page' :=
  Subrelation.wf Page.Step.less (InvImage.wf Page.rest wellFounded_less)

end

/-! ## Runs in which requests do not overlap -/

section

variable {Env α : Type} {answer : Env → Message → Env × List Frame} {parse : Bytes → Json}
  {proper : Message → List Message → Prop} {calls : List (Method α)} {client : DimeClient}
  {page page' : Page Env α} {owner : Nat} {due : List Message → Prop} {left : List Message}

/-- Every call has heard answers to its own requests only. A promise that is settled is
settled as these answers say. The run comes to an end, and then all promises are settled. -/
structure OwnReplies (answer : Env → Message → Env × List Frame) (parse : Bytes → Json)
    (calls : List (Method α)) (client : DimeClient) (page : Page Env α) : Prop where
  heard : ∀ i task, page.tasks[i]? = some task → task.heard <+: page.repliesTo parse i
  result : ∀ (i : Nat) (call : Method α) result heard,
    page.tasks[i]? = some ⟨.stopped (.settled result), heard⟩ → calls[i]? = some call →
    (hear call client (page.repliesTo parse i)).outcome = .ofExcept result
  ends : Acc (fun page' page : Page Env α => Page.Step answer parse page page') page
  settles : (∀ page', ¬ Page.Step answer parse page page') →
    ∀ task ∈ page.tasks, ∃ result, task.activity = .stopped (.settled result)

/-- A step that sends a request only where everything has been answered and handed out. -/
def Page.Alone (answer : Env → Message → Env × List Frame) (parse : Bytes → Json)
    (page page' : Page Env α) : Prop :=
  Page.Step answer parse page page' ∧ (page.requests.length < page'.requests.length → page.Idle)

theorem orderly_start {calls : List (Method α)} {env : Env}
    (hcalls : ∀ call ∈ calls, call.Reads proper (fun _ _ => True) []) :
    Orderly parse proper calls client (Page.start client env calls) 0
      (fun messages => messages = ([] : List Frame).map (Frame.message parse)) [] := by
  have htasks : ∀ (i : Nat) task, (Page.start client env calls).tasks[i]? = some task →
      ∃ call, calls[i]? = some call ∧ task = ⟨.ready call, []⟩ := by
    intro i task htask
    unfold Page.start at htask
    rw [List.getElem?_map] at htask
    obtain ⟨call, hcall, htask⟩ := Option.map_eq_some_iff.mp htask
    exact ⟨call, hcall, htask.symm⟩
  refine ⟨rfl, Outstanding.coming rfl rfl, ?_, ?_, ?_, ?_, ?_⟩
  · intro i task htask messages hmessages
    obtain ⟨call, hcall, rfl⟩ := htasks i task htask
    rw [List.map_nil, ite_self] at hmessages
    subst hmessages
    exact hcalls call (List.mem_of_getElem? hcall)
  · intro i task htask
    obtain ⟨call, _, rfl⟩ := htasks i task htask
    rw [ite_self]
    rfl
  · intro i task call htask hcall more
    obtain ⟨call', hcall', rfl⟩ := htasks i task htask
    cases hcall.symm.trans hcall'
    rfl
  · intro i next heard htask
    obtain ⟨call, _, heq⟩ := htasks i _ htask
    cases heq
  · intro i hi
    cases hi

/-- What one step keeps. -/
theorem Orderly.step (h : Orderly parse proper calls client page owner due left)
    (hchecked : Checked parse page)
    (hproper : ∀ env request, proper request ((answer env request).2.map (Frame.message parse)))
    (hnonempty : ∀ request messages, proper request messages → messages ≠ [])
    (hstep : Page.Alone answer parse page page') :
    ∃ owner' due' left', Orderly parse proper calls client page' owner' due' left' ∧
      Checked parse page' := by
  obtain ⟨hstep, hidle⟩ := hstep
  cases hstep with
  | serve first => exact ⟨owner, h.run_serve hproper first⟩
  | onmessage arrives nonempty => exact ⟨owner, h.run_onmessage arrives nonempty⟩
  | @proceed i method heard ready =>
      apply h.run_proceed hchecked ready hnonempty (fun request => ⟨_, hproper page.env request⟩)
      intro hsent
      apply hidle
      have hrequests : (page.proceed parse i method).requests =
          page.requests ++ (method.proceed page.client).2.1.map fun request => (i, request) := by
        unfold Page.proceed
        dsimp only
        split
        · exact behind_callback.2.1
        · rfl
      rw [hrequests, List.length_append, List.length_map]
      exact Nat.lt_add_of_pos_right (List.length_pos_of_ne_nil hsent)

/-- Where nothing can happen any more, every promise is settled. -/
theorem Orderly.settled (h : Orderly parse proper calls client page owner due left)
    (hchecked : Checked parse page) (hanswer : ∀ request, ∃ messages, proper request messages)
    (hend : ∀ page', ¬ Page.Step answer parse page page') {task : Task α} {i : Nat}
    (htask : page.tasks[i]? = some task) :
    ∃ result, task.activity = .stopped (.settled result) := by
  obtain ⟨messages, hmessages⟩ : ∃ messages, if i = owner then due messages else messages = [] := by
    split
    · exact h.outstanding.exists_due hanswer
    · exact ⟨[], rfl⟩
  have hreads := h.reads i task htask messages hmessages
  obtain ⟨activity, heard⟩ := task
  cases activity with
  | ready method => exact absurd (Page.Step.proceed htask) (hend _)
  | stopped stop =>
      cases stop with
      | settled result => exact ⟨result, rfl⟩
      | exhausted => exact absurd hreads id
      | awaiting next =>
          have hcallback := h.waiting i next heard htask
          obtain rfl := h.eq_owner htask
          cases h.outstanding with
          | asked requests => exact absurd (Page.Step.serve requests) (hend _)
          | @coming frames _ bytes =>
              by_cases hstream : page.stream = []
              · -- the rest of the answer is in the buffer, and would have been handed out
                have hmore := hchecked (by rw [hcallback]; exact Option.some_ne_none i)
                rw [hstream, List.append_nil] at bytes
                cases frames with
                | nil =>
                    rw [if_pos rfl] at hmessages
                    rw [hmessages] at hreads
                    exact absurd hreads id
                | cons frame frames =>
                    rw [bytes, Framing.stream_cons, (reads_frame parse frame).complete] at hmore
                    cases hmore
              · exact absurd (Page.Step.onmessage (List.append_nil page.stream).symm hstream) (hend _)

theorem Orderly.ownReplies (h : Orderly parse proper calls client page owner due left)
    (hchecked : Checked parse page) (hanswer : ∀ request, ∃ messages, proper request messages) :
    OwnReplies answer parse calls client page where
  heard i task htask := by
    rw [← h.heard i task htask]
    exact List.prefix_append _ _
  result i call result heard htask hcall := by
    rw [← h.heard i _ htask, h.history i _ call htask hcall]
    rfl
  ends := wellFounded_step.apply page
  settles hend task hmem := by
    obtain ⟨i, htask⟩ := List.mem_iff_getElem?.mp hmem
    exact h.settled hchecked hanswer hend htask

end

/-- The reply to `devices` where no client has a name. -/
def noDevices : Json := .object [("status", .integer 0), ("devices", .array [])]

def noDevicesFrame : Frame where
  jsondata := noDevices.compact
  bindata := []
  jsondata_lt := by decide +kernel
  bindata_lt := by decide

/-- A server that sends it. -/
def answerDevices (_ : Unit) (_ : Message) : Unit × List Frame := ((), [noDevicesFrame])

/-- `JSON.parse` of its text. -/
def parseDevices (_ : Bytes) : Json := noDevices

theorem answers_devices (env : Unit) (request : Message) :
    Answers 1 request ((answerDevices env request).2.map (Frame.message parseDevices)) :=
  ⟨[], noDevicesFrame.message parseDevices, rfl, rfl, by simp, Nat.one_pos, fun _ => rfl⟩

/-- A connected client. -/
def jsonClient : DimeClient := ⟨some (.string "json"), some .json, none⟩

/-- The call waits for the reply, and returns what is in it. -/
theorem proceed_devices : ∃ next,
    (Call.promise plainJavaScript 1 .devices).proceed jsonClient =
      (jsonClient, [Request.devices], .awaiting next) ∧
    next (noDevicesFrame.message parseDevices) = Prog.done (.value (some (.array []))) :=
  ⟨_, rfl, rfl⟩

section

variable {Env α : Type} {answer : Env → Message → Env × List Frame} {parse : Bytes → Json}
  {client : DimeClient} {tasks : List (Task α)} {requests : List (Nat × Message)} {stream : Bytes}
  {env : Env} {served : List (Nat × List Frame)} {page page' : Page Env α}

/-- A call sends a request and waits, where nothing has arrived. -/
theorem step_awaiting (i : Nat) {method : Method α} {next : Message → Method α} {heard : List Message}
    {request : Message} {callback : Option Nat} (hready : tasks[i]? = some ⟨.ready method, heard⟩)
    (hproceed : method.proceed client = (client, [request], .awaiting next)) :
    Page.Step answer parse ⟨client, [], callback, tasks, requests, stream, env, served⟩
      ⟨client, [], some i, tasks.modify i fun task => { task with activity := .stopped (.awaiting next) },
        requests ++ [(i, request)], stream, env, served⟩ := by
  have hpage : Page.proceed parse i method
      ⟨client, [], callback, tasks, requests, stream, env, served⟩ =
      ⟨client, [], some i, tasks.modify i fun task => { task with activity := .stopped (.awaiting next) },
        requests ++ [(i, request)], stream, env, served⟩ := by
    rw [Page.proceed_awaiting hproceed]
    exact callback_more (received_nil parse)
  rw [← hpage]
  exact .proceed hready

/-- A call returns. -/
theorem step_returns (i : Nat) {a : α} {heard : List Message} {buffer : Bytes} {callback : Option Nat}
    (hready : tasks[i]? = some ⟨.ready (Prog.done a), heard⟩) :
    Page.Step answer parse ⟨client, buffer, callback, tasks, requests, stream, env, served⟩
      ⟨client, buffer, callback,
        tasks.modify i fun task => { task with activity := .stopped (.settled (.ok a)) },
        requests ++ [], stream, env, served⟩ := by
  have hpage : Page.proceed parse i (Prog.done a)
      ⟨client, buffer, callback, tasks, requests, stream, env, served⟩ =
      ⟨client, buffer, callback,
        tasks.modify i fun task => { task with activity := .stopped (.settled (.ok a)) },
        requests ++ [], stream, env, served⟩ := rfl
  rw [← hpage]
  exact .proceed hready

/-- All data arrive at once, where nothing has. -/
theorem step_arrives (i : Nat) (frame : Frame) (rest : Bytes) :
    Page.Step answer parse ⟨client, [], some i, tasks, requests, frame.bytes ++ rest, env, served⟩
      (Page.resolve i (frame.message parse) ⟨client, rest, none, tasks, requests, [], env, served⟩) := by
  have hitem : received parse (frame.bytes ++ rest) = .item (frame.message parse) frame.bytes.length :=
    (reads_frame parse frame).complete rest
  have hpage : Page.callback parse i
      ⟨client, frame.bytes ++ rest, some i, tasks, requests, [], env, served⟩ =
      Page.resolve i (frame.message parse) ⟨client, rest, none, tasks, requests, [], env, served⟩ := by
    have hcallback := @callback_item _ _ parse
      ⟨client, frame.bytes ++ rest, some i, tasks, requests, [], env, served⟩ i _ _ hitem
    rw [hcallback, List.drop_left]
  rw [← hpage]
  exact .onmessage (List.append_nil _).symm
    (List.append_ne_nil_of_left_ne_nil (reads_frame parse frame).pos rest)

/-- Where nothing is left that can happen. -/
theorem not_step (hrequests : page.requests = []) (hstream : page.stream = [])
    (htasks : ∀ task ∈ page.tasks, ∀ method, task.activity ≠ .ready method) :
    ¬ Page.Step answer parse page page' := by
  intro h
  cases h with
  | serve first =>
      rw [hrequests] at first
      cases first
  | onmessage arrives nonempty =>
      rw [hstream] at arrives
      exact nonempty (List.append_eq_nil_iff.mp arrives.symm).1
  | proceed ready => exact htasks _ (List.mem_of_getElem? ready) _ rfl

end

end Dime.JavaScript
