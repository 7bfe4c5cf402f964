import Dime.Clients.Wire

/-!
# Outstanding replies

Which of the messages that wait to be read are replies. A call that ends is tidy if it
leaves no reply unread. Calls with one request always are; a transmission is if in each
of its batches no reply but the last is a refusal, and no value but the first fails to
be encoded.
-/

namespace Dime

open Dialogue

variable {Env Self Err Vars V α β : Type} {answer : Env → Message → Env × List Message}
  {self : Self} {env : Env} {inbox : List Message} {message : Message} {fuel : Nat}

namespace Listener

variable (listener : Listener Self Err)

/-- A message that is handed on. -/
def isPlain (message : Message) : Bool :=
  match listener.hearing message with
  | .plain => true
  | _ => false

/-- The messages that are handed on; nothing among the others makes a method fail. -/
structure Owed (inbox replies : List Message) : Prop where
  sound : ∀ message ∈ inbox, ∀ err, listener.hearing message ≠ .failed err
  replies : inbox.filter listener.isPlain = replies

variable {listener} {replies replies' inbox' : List Message} {reply : Message}

theorem Owed.append (h : listener.Owed inbox replies) (h' : listener.Owed inbox' replies') :
    listener.Owed (inbox ++ inbox') (replies ++ replies') := by
  constructor
  · intro message hmem
    rcases List.mem_append.mp hmem with hmem | hmem
    · exact h.sound message hmem
    · exact h'.sound message hmem
  · rw [List.filter_append, h.replies, h'.replies]

/-- Reading hands on the next of them. -/
theorem Owed.run_recv (h : listener.Owed inbox (reply :: replies))
    (answer : Env → Message → Env × List Message) (self : Self) (env : Env) (fuel : Nat) :
    (∃ self' unread, run answer (listener.recv fuel) self env inbox =
      ⟨.exhausted, self', env, [], unread⟩) ∨
    ∃ self' unread, run answer (listener.recv fuel) self env inbox =
      ⟨.done reply, self', env, [], unread⟩ ∧ listener.Owed unread replies := by
  induction inbox generalizing fuel self with
  | nil =>
      have hreplies := h.replies
      simp at hreplies
  | cons message inbox ih =>
      cases fuel with
      | zero => exact .inl ⟨self, _, rfl⟩
      | succ fuel =>
          have hsound : ∀ message ∈ inbox, ∀ err, listener.hearing message ≠ .failed err :=
            fun other hmem => h.sound other (List.mem_cons_of_mem message hmem)
          have hreplies := h.replies
          cases hhearing : listener.hearing message with
          | failed err => exact absurd hhearing (h.sound message List.mem_cons_self err)
          | plain =>
              have hplain : listener.isPlain message = true := by simp [isPlain, hhearing]
              rw [List.filter_cons_of_pos hplain] at hreplies
              obtain ⟨rfl, hrest⟩ := List.cons.inj hreplies
              exact .inr ⟨self, inbox, run_recv_plain hhearing, hsound, hrest⟩
          | aside f =>
              have hplain : ¬ listener.isPlain message = true := by simp [isPlain, hhearing]
              rw [List.filter_cons_of_neg hplain] at hreplies
              rw [run_recv_aside hhearing]
              exact ih ⟨hsound, hreplies⟩ (f self) fuel

/-- Reading a reply and checking it. -/
theorem Owed.run_reply (h : listener.Owed inbox (reply :: replies))
    (answer : Env → Message → Env × List Message) (self : Self) (env : Env) (fuel : Nat) :
    (∃ self' unread, run answer (listener.reply fuel) self env inbox =
      ⟨.exhausted, self', env, [], unread⟩) ∨
    ∃ self' unread, listener.Owed unread replies ∧
      run answer (listener.reply fuel) self env inbox =
        ⟨match listener.check reply.jsondata with
          | .ok () => .done reply.jsondata
          | .error err => .raised err, self', env, [], unread⟩ := by
  unfold Listener.reply
  rcases h.run_recv answer self env fuel with ⟨self', unread, hrun⟩ | ⟨self', unread, hrun, howed⟩
  · left
    refine ⟨self', unread, ?_⟩
    rw [Prog.bind_eq, run_bind, hrun]
  · right
    refine ⟨self', unread, howed, ?_⟩
    rw [Prog.bind_eq, run_bind_done hrun, Ended.after_nil]
    cases hcheck : listener.check reply.jsondata with
    | error err => simp [Prog.ofExcept, Prog.bind, run]
    | ok u => simp [Prog.ofExcept, Prog.bind, run]

end Listener

/-- The method leaves no reply unread, if it returns or raises. -/
def Tidy (listener : Listener Self Err) (ended : Ended Env Self Err Message Message α) : Prop :=
  ended.outcome.over = true → listener.Owed ended.unread []

/-- What follows a tidy method, and reads no message. -/
theorem Tidy.bind {listener : Listener Self Err} {p : Prog Self Err Message Message α}
    {f : α → Prog Self Err Message Message β} (h : Tidy listener (run answer p self env inbox))
    (hf : ∀ a self env inbox, (run answer (f a) self env inbox).unread = inbox) :
    Tidy listener (run answer (p.bind f) self env inbox) := by
  unfold Tidy at h ⊢
  rw [run_bind]
  cases hp : (run answer p self env inbox).outcome with
  | done a =>
      intro _
      simp only [hp, Ended.after_unread, hf]
      exact h (by rw [hp]; rfl)
  | raised err =>
      intro _
      simp only [hp]
      exact h (by rw [hp]; rfl)
  | exhausted => simp [hp, Outcome.over]
  | waiting => simp [hp, Outcome.over]

/-- A server that answers every request with one reply. Messages for the connection may
come before and after it; in answer to a `sync`, so may messages that are relayed, which
the loop gets past. -/
structure Responds (listener : Listener Self Err) (judge : Message → Judgement Err Vars)
    (answer : Env → Message → Env × List Message) : Prop where
  request : ∀ env request, Hub.command request.jsondata ≠ "sync" →
    ∃ reply, listener.Owed (answer env request).2 [reply]
  sync : ∀ env n, ∃ front reply behind,
    (answer env (Request.sync n)).2 = front ++ reply :: behind ∧
    (∀ message ∈ front, Passes listener judge message) ∧
    ¬ Passes listener judge reply ∧ listener.Owed behind []

section Calls

variable {listener : Listener Self Err} {judge : Message → Judgement Err Vars}

/-- A call with one request. -/
theorem Responds.call (h : Responds listener judge answer) {request : Message}
    (hrequest : Hub.command request.jsondata ≠ "sync") (howed : listener.Owed inbox []) :
    Tidy listener (run answer (listener.call fuel request) self env inbox) := by
  obtain ⟨reply, hreply⟩ := h.request env request hrequest
  have hinbox : listener.Owed (inbox ++ (answer env request).2) (reply :: []) :=
    howed.append hreply
  have hsend : run answer (listener.call fuel request) self env inbox =
      (run answer (listener.reply fuel) self (answer env request).1
        (inbox ++ (answer env request).2)).after [request] := rfl
  rw [hsend]
  rcases hinbox.run_reply answer self (answer env request).1 fuel with ⟨self', unread, hrun⟩ |
    ⟨self', unread, hunread, hrun⟩
  · rw [hrun]
    simp [Tidy, Outcome.over]
  · rw [hrun]
    intro _
    exact hunread

/-- A method that synchronises. -/
theorem Responds.resyncs (h : Responds listener judge answer) {vars : Vars}
    {sync : Nat → Int64 → Prog Self Err Message Message Vars}
    {combine : Vars → Vars → Prog Self Err Message Message Vars}
    (hsync : Resyncs listener judge sync vars combine) {n : Int64}
    (howed : listener.Owed inbox []) :
    Tidy listener (run answer (sync fuel n) self env inbox) := by
  induction fuel generalizing self env inbox n with
  | zero =>
      rw [hsync.zero]
      simp [Tidy, run, Outcome.over]
  | succ fuel ih =>
      obtain ⟨front, reply, behind, hanswer, hfront, hreply, hbehind⟩ := h.sync env n
      have hinbox : ∀ message ∈ inbox ++ front, Passes listener judge message := by
        intro message hmem
        rcases List.mem_append.mp hmem with hmem | hmem
        · have hplain := List.filter_eq_nil_iff.mp howed.replies message hmem
          unfold Passes
          cases hhearing : listener.hearing message with
          | failed err => exact absurd hhearing (howed.sound message hmem err)
          | plain => simp [Listener.isPlain, hhearing] at hplain
          | aside f => trivial
        · exact hfront message hmem
      rw [hsync.succ, run_syncWith, hanswer, ← List.append_assoc]
      unfold Tidy
      rw [Ended.after_outcome, Ended.after_unread]
      cases fuel with
      | zero => simp [collect, Prog.bind, run, Outcome.over]
      | succ fuel =>
          obtain ⟨outcome, self', unread, hrun, hwaiting, hunread, _⟩ :=
            run_collect_stops hreply hinbox answer self (answer env (Request.sync n)).1 behind vars
              n.toInt (fuel + 1) fuel (fuel + 1)
          rw [collect_succ]
          cases outcome with
          | waiting => exact absurd rfl hwaiting
          | exhausted =>
              rw [run_bind, hrun]
              simp [Outcome.over]
          | raised err =>
              rw [run_bind_raised hrun, hunread (by simp)]
              exact fun _ => hbehind
          | done result =>
              rw [run_bind_done hrun, hunread (by simp), Ended.after_nil, merge]
              split
              · obtain ⟨outcome, hcombine, hover⟩ := run_bind_combine answer self'
                  (answer env (Request.sync n)).1 behind
                  (sync (fuel + 1) (Int64.ofInt (n.toInt - result.2))) (hsync.combine result.1)
                rw [hcombine]
                intro hended
                exact ih hbehind (hover.symm.trans hended)
              · exact fun _ => hbehind

end Calls

/-! ## Transmissions -/

namespace Pipeline

variable (pipe : Pipeline Self Err V) (request : String → Json → Json)
  (answer : Env → Message → Env × List Message)

/-- Of the replies to a batch, none but the last is a refusal. -/
def Unrefused (self : Self) : Env → List (String × V) → Prop
  | _, [] => True
  | env, (varname, var) :: rest =>
      match pipe.encode self var with
      | .error _ => True
      | .ok bindata =>
          let (env', messages) := answer env ⟨request varname (pipe.serialization self), bindata⟩
          (rest ≠ [] → ∀ reply ∈ messages.filter pipe.isPlain,
            pipe.check reply.jsondata = .ok ()) ∧ Unrefused self env' rest

/-- A batch whose values are all encoded, or not even the first, and whose requests are
accepted up to the last. -/
def SteadyBatch (self : Self) (env : Env) (batch : List (String × V)) : Prop :=
  (∃ first rest err, batch = first :: rest ∧ pipe.encode self first.2 = .error err) ∨
    (∀ kv ∈ batch, ∃ bindata, pipe.encode self kv.2 = .ok bindata) ∧
      pipe.Unrefused request answer self env batch

/-- Every batch is, in the state in which it is sent. What is sent again where the
serialization is found changed satisfies `resend`. -/
def SteadyBatches (fuel : Nat) (serialization : Json) (resend : Self → Env → List Message → Prop) :
    List (List (String × V)) → Self → Env → List Message → Prop
  | [], _, _, _ => True
  | batch :: rest, self, env, inbox =>
      pipe.SteadyBatch request answer self env batch ∧
      let ended := run answer ((pipe.sendBatch request batch).bind (pipe.readReplies fuel)) self
        env inbox
      ended.outcome = .done () →
        if pipe.differs serialization (pipe.serialization ended.self) then
          resend ended.self ended.env ended.unread
        else SteadyBatches fuel serialization resend rest ended.self ended.env ended.unread

/-- For a transmission that sends again what it has sent. -/
def Steady (kvs : List (List (String × V))) : Nat → Self → Env → List Message → Prop
  | 0, _, _, _ => True
  | fuel + 1, self, env, inbox =>
      pipe.SteadyBatches request answer fuel (pipe.serialization self) (Steady kvs fuel) kvs self
        env inbox

variable {pipe request answer} {judge : Message → Judgement Err Vars}

theorem run_sendBatch (h : Responds pipe.toListener judge answer)
    (hrequest : ∀ varname serialization, Hub.command (request varname serialization) ≠ "sync")
    {batch : List (String × V)}
    (hencode : ∀ kv ∈ batch, ∃ bindata, pipe.encode self kv.2 = .ok bindata)
    (hunrefused : pipe.Unrefused request answer self env batch) (inbox : List Message) :
    ∃ env' requests answers replies,
      run answer (pipe.sendBatch request batch) self env inbox =
        ⟨.done batch.length, self, env', requests, inbox ++ answers⟩ ∧
      pipe.Owed answers replies ∧ replies.length = batch.length ∧
      ∀ reply ∈ replies.dropLast, pipe.check reply.jsondata = .ok () := by
  induction batch generalizing env inbox with
  | nil => exact ⟨env, [], [], [], by simp [sendBatch, run], ⟨by simp, rfl⟩, rfl, by simp⟩
  | cons kv rest ih =>
      obtain ⟨varname, var⟩ := kv
      obtain ⟨bindata, hbindata⟩ := hencode _ List.mem_cons_self
      simp only [Unrefused, hbindata] at hunrefused
      obtain ⟨hlast, hrest⟩ := hunrefused
      obtain ⟨reply, hreply⟩ := h.request env
        ⟨request varname (pipe.serialization self), bindata⟩ (hrequest _ _)
      obtain ⟨env', requests, answers, replies, hrun, howed, hlength, hchecked⟩ :=
        ih (fun kv hmem => hencode kv (List.mem_cons_of_mem _ hmem)) hrest
          (inbox ++ (answer env ⟨request varname (pipe.serialization self), bindata⟩).2)
      refine ⟨env', ⟨request varname (pipe.serialization self), bindata⟩ :: requests,
        (answer env ⟨request varname (pipe.serialization self), bindata⟩).2 ++ answers,
        reply :: replies, ?_, hreply.append howed, by simp [hlength], ?_⟩
      · simp only [sendBatch, Prog.bind_eq, Prog.self, Prog.bind, run, hbindata, Prog.ofExcept,
          Prog.request]
        rw [run_bind_done hrun]
        simp [run, Ended.after, List.append_assoc]
      · intro other hmem
        cases replies with
        | nil => simp at hmem
        | cons second replies =>
            rw [List.dropLast_cons_cons] at hmem
            rcases List.mem_cons.mp hmem with rfl | hmem
            · apply hlast
              · rintro rfl
                simp at hlength
              · rw [hreply.replies]
                exact List.mem_singleton_self other
            · exact hchecked other hmem

theorem run_readReplies {replies : List Message} (howed : pipe.Owed inbox replies)
    (hchecked : ∀ reply ∈ replies.dropLast, pipe.check reply.jsondata = .ok ()) :
    Tidy pipe.toListener (run answer (pipe.readReplies fuel replies.length) self env inbox) := by
  induction replies generalizing self inbox with
  | nil => exact fun _ => howed
  | cons reply replies ih =>
      rw [List.length_cons, readReplies, Prog.bind_eq]
      rcases howed.run_reply answer self env fuel with ⟨self', unread, hrun⟩ | ⟨self', unread, hunread, hrun⟩
      · unfold Tidy
        rw [run_bind, hrun]
        simp [Outcome.over]
      · cases replies with
        | nil =>
            refine Tidy.bind ?_ fun _ _ _ _ => rfl
            rw [hrun]
            exact fun _ => hunread
        | cons second replies =>
            rw [List.dropLast_cons_cons] at hchecked
            rw [hchecked reply List.mem_cons_self] at hrun
            rw [run_bind_done hrun]
            exact ih hunread fun other hmem => hchecked other (List.mem_cons_of_mem _ hmem)

/-- A batch that is sent and answered. -/
theorem SteadyBatch.tidy (h : Responds pipe.toListener judge answer)
    (hrequest : ∀ varname serialization, Hub.command (request varname serialization) ≠ "sync")
    {batch : List (String × V)} (hsteady : pipe.SteadyBatch request answer self env batch)
    (howed : pipe.Owed inbox []) :
    Tidy pipe.toListener (run answer
      ((pipe.sendBatch request batch).bind (pipe.readReplies fuel)) self env inbox) := by
  rcases hsteady with ⟨⟨varname, var⟩, rest, err, rfl, herr⟩ | ⟨hencode, hunrefused⟩
  · -- nothing has been sent
    have hraised : run answer (pipe.sendBatch request ((varname, var) :: rest)) self env inbox =
        ⟨.raised err, self, env, [], inbox⟩ := by
      simp [sendBatch, Prog.self, Prog.bind, run, herr, Prog.ofExcept]
    rw [run_bind_raised hraised]
    exact fun _ => howed
  · obtain ⟨env', requests, answers, replies, hrun, hreplies, hlength, hchecked⟩ :=
      run_sendBatch h hrequest hencode hunrefused inbox
    rw [run_bind_done hrun, ← hlength]
    exact run_readReplies (howed.append hreplies) hchecked

theorem SteadyBatches.tidy (h : Responds pipe.toListener judge answer)
    (hrequest : ∀ varname serialization, Hub.command (request varname serialization) ≠ "sync")
    {serialization : Json} {resend : Self → Env → List Message → Prop}
    {again : Prog Self Err Message Message Unit}
    (hresend : ∀ self env inbox, resend self env inbox → pipe.Owed inbox [] →
      Tidy pipe.toListener (run answer again self env inbox))
    {kvs : List (List (String × V))}
    (hsteady : pipe.SteadyBatches request answer fuel serialization resend kvs self env inbox)
    (howed : pipe.Owed inbox []) :
    Tidy pipe.toListener
      (run answer (pipe.batches request fuel serialization again kvs) self env inbox) := by
  induction kvs generalizing self env inbox with
  | nil => exact fun _ => howed
  | cons batch rest ih =>
      obtain ⟨hbatch, hnext⟩ := hsteady
      have htidy : Tidy pipe.toListener (run answer
          ((pipe.sendBatch request batch).bind (pipe.readReplies fuel)) self env inbox) :=
        hbatch.tidy h hrequest howed
      have hbatches : pipe.batches request fuel serialization again (batch :: rest) =
          ((pipe.sendBatch request batch).bind (pipe.readReplies fuel)).bind fun _ =>
            .get fun self =>
              if pipe.differs serialization (pipe.serialization self) then again
              else pipe.batches request fuel serialization again rest := by
        rw [Prog.bind_assoc]
        rfl
      rw [hbatches]
      unfold Tidy
      rw [run_bind]
      cases hended : (run answer ((pipe.sendBatch request batch).bind (pipe.readReplies fuel)) self
          env inbox).outcome with
      | done u =>
          have hunread := htidy (by rw [hended]; rfl)
          have hthen := hnext hended
          simp only [hended, run, Ended.after_outcome, Ended.after_unread]
          by_cases hdiffers : pipe.differs serialization (pipe.serialization
              (run answer ((pipe.sendBatch request batch).bind (pipe.readReplies fuel)) self env
                inbox).self) = true
          · rw [if_pos hdiffers] at hthen ⊢
            exact hresend _ _ _ hthen hunread
          · rw [if_neg hdiffers] at hthen ⊢
            exact ih hthen hunread
      | raised err =>
          intro _
          simp only [hended]
          exact htidy (by rw [hended]; rfl)
      | exhausted => simp [hended, Outcome.over]
      | waiting => simp [hended, Outcome.over]

/-- A method that transmits again what it has transmitted. -/
theorem Steady.tidy (h : Responds pipe.toListener judge answer)
    (hrequest : ∀ varname serialization, Hub.command (request varname serialization) ≠ "sync")
    {kvs : List (List (String × V))} (sender : Nat → Prog Self Err Message Message Unit)
    (hzero : sender 0 = .exhausted)
    (hsucc : ∀ fuel, sender (fuel + 1) = pipe.transmit request fuel (sender fuel) kvs)
    (hsteady : pipe.Steady request answer kvs fuel self env inbox) (howed : pipe.Owed inbox []) :
    Tidy pipe.toListener (run answer (sender fuel) self env inbox) := by
  induction fuel generalizing self env inbox with
  | zero =>
      rw [hzero]
      simp [Tidy, run, Outcome.over]
  | succ fuel ih =>
      rw [hsucc]
      exact SteadyBatches.tidy h hrequest (fun _ _ _ => ih) hsteady howed

end Pipeline

/-! ## Calls one after the other -/

/-- Every call satisfies `steady` in the state in which it is made. -/
def SteadyCalls {Call : Type} (answer : Env → Message → Env × List Message)
    (method : Call → Prog Self Err Message Message Unit)
    (steady : Call → Self → Env → List Message → Prop) :
    List Call → Self → Env → List Message → Prop
  | [], _, _, _ => True
  | call :: rest, self, env, inbox =>
      steady call self env inbox ∧
        let ended := run answer (method call) self env inbox
        SteadyCalls answer method steady rest ended.self ended.env ended.unread

theorem SteadyCalls.tidy {Call : Type} {listener : Listener Self Err}
    {method : Call → Prog Self Err Message Message Unit}
    {steady : Call → Self → Env → List Message → Prop}
    {calls : List Call → Prog Self Err Message Message Unit}
    (hnil : calls [] = .done ())
    (hcons : ∀ call rest, calls (call :: rest) = (method call).attempt.bind fun _ => calls rest)
    (hmethod : ∀ call self env inbox, steady call self env inbox → listener.Owed inbox [] →
      Tidy listener (run answer (method call) self env inbox))
    {cs : List Call} (hsteady : SteadyCalls answer method steady cs self env inbox)
    (howed : listener.Owed inbox []) (n : Nat) :
    Tidy listener (run answer (calls (cs.take n)) self env inbox) := by
  induction cs generalizing self env inbox n with
  | nil =>
      rw [List.take_nil, hnil]
      exact fun _ => howed
  | cons call rest ih =>
      cases n with
      | zero =>
          rw [List.take_zero, hnil]
          exact fun _ => howed
      | succ n =>
          obtain ⟨hcall, hrest⟩ := hsteady
          have htidy := hmethod call self env inbox hcall howed
          rw [List.take_succ_cons, hcons]
          unfold Tidy
          rw [run_bind, run_attempt]
          cases hended : (run answer (method call) self env inbox).outcome with
          | done u =>
              simp only [hended, Ended.after_outcome, Ended.after_unread]
              exact ih hrest (htidy (by rw [hended]; rfl)) n
          | raised err =>
              simp only [hended, Ended.after_outcome, Ended.after_unread]
              exact ih hrest (htidy (by rw [hended]; rfl)) n
          | exhausted => simp [hended, Outcome.over]
          | waiting => simp [hended, Outcome.over]

end Dime
