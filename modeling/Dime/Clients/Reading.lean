import Dime.Clients.Methods
import Dime.Server.State

/-!
# Reading messages

What a client makes of the messages that it reads: those meant for the connection are
passed over on the way to the next one, and the loop of a `sync` goes on until a
message stops it.
-/

namespace Dime

open Dialogue

variable {Env Self Err Vars α : Type} {answer : Env → Message → Env × List Message}
  {self : Self} {env : Env} {inbox : List Message} {message : Message} {fuel : Nat}

/-- The message `{"status":0}`. -/
def statusOkMessage : Message := ⟨.object [("status", .integer 0)], []⟩

namespace Listener

variable (listener : Listener Self Err)

/-- What becomes of a message: it is handed on, it is meant for the connection and
changes its state, or it makes the method fail. -/
inductive Hearing (Self Err : Type) where
  | plain
  | aside (f : Self → Self)
  | failed (err : Err)

def hearing (message : Message) : Hearing Self Err :=
  match listener.isMeta message.jsondata with
  | .error err => .failed err
  | .ok false => .plain
  | .ok true =>
      match listener.onMeta message.jsondata with
      | .error err => .failed err
      | .ok f => .aside f

variable {listener}

theorem hearing_eq_aside {f : Self → Self} : listener.hearing message = .aside f ↔
    listener.isMeta message.jsondata = .ok true ∧ listener.onMeta message.jsondata = .ok f := by
  unfold hearing
  cases listener.isMeta message.jsondata with
  | error err => simp
  | ok isMeta =>
      cases isMeta with
      | false => simp
      | true => cases listener.onMeta message.jsondata <;> simp

theorem run_recv_cons :
    run answer (listener.recv (fuel + 1)) self env (message :: inbox) =
      match listener.hearing message with
      | .plain => ⟨.done message, self, env, [], inbox⟩
      | .aside f => run answer (listener.recv fuel) (f self) env inbox
      | .failed err => ⟨.raised err, self, env, [], inbox⟩ := by
  cases hmeta : listener.isMeta message.jsondata with
  | error err => simp [recv, Prog.message, Prog.bind, run, Prog.ofExcept, hearing, hmeta]
  | ok isMeta =>
      cases isMeta with
      | false => simp [recv, Prog.message, Prog.bind, run, Prog.ofExcept, hearing, hmeta]
      | true =>
          cases hon : listener.onMeta message.jsondata with
          | error err =>
              simp [recv, Prog.message, Prog.bind, run, Prog.ofExcept, hearing, hmeta, hon]
          | ok f =>
              simp [recv, Prog.message, Prog.modify, Prog.bind, run, Prog.ofExcept, hearing,
                hmeta, hon]

theorem run_recv_plain (h : listener.hearing message = .plain) :
    run answer (listener.recv (fuel + 1)) self env (message :: inbox) =
      ⟨.done message, self, env, [], inbox⟩ := by
  rw [run_recv_cons, h]

theorem run_recv_aside {f : Self → Self} (h : listener.hearing message = .aside f) :
    run answer (listener.recv (fuel + 1)) self env (message :: inbox) =
      run answer (listener.recv fuel) (f self) env inbox := by
  rw [run_recv_cons, h]

theorem run_recv_failed {err : Err} (h : listener.hearing message = .failed err) :
    run answer (listener.recv (fuel + 1)) self env (message :: inbox) =
      ⟨.raised err, self, env, [], inbox⟩ := by
  rw [run_recv_cons, h]

end Listener

/-! ## The loop of a `sync` -/

section Collecting

variable (listener : Listener Self Err) (judge : Message → Judgement Err Vars)

/-- Messages that the loop of a `sync` gets past. -/
def Passes (message : Message) : Prop :=
  match listener.hearing message with
  | .plain =>
      match judge message with
      | .finish | .fail _ => False
      | .skip | .keep _ => True
  | .aside _ => True
  | .failed _ => False

/-- Messages that it passes over. -/
def skipped (message : Message) : Bool :=
  match listener.hearing message, judge message with
  | .plain, .skip => true
  | _, _ => false

/-- What a message does to the state of the client. -/
def Listener.effect (message : Message) (self : Self) : Self :=
  match listener.hearing message with
  | .aside f => f self
  | _ => self

/-- What a message does to the variables. -/
def kept (message : Message) (vars : Vars) : Vars :=
  match listener.hearing message, judge message with
  | .plain, .keep f => f vars
  | _, _ => vars

/-- A message that ends the loop. -/
def Ends (message : Message) : Prop :=
  listener.hearing message = .plain ∧ judge message = .finish

variable {listener judge} {vars : Vars} {m : Int} {rounds : Nat} {messages : List Message}

/-- The rest of a round, once a message has been read. -/
def judged (recv : Prog Self Err Message Message Message) (judge : Message → Judgement Err Vars)
    (rounds : Nat) (vars : Vars) (m : Int) (message : Message) :
    Prog Self Err Message Message (Vars × Int) :=
  match judge message with
  | .finish => return (vars, m)
  | .fail err => Prog.raise err
  | .skip => collect recv judge rounds vars (m - 1)
  | .keep f => collect recv judge rounds (f vars) m

theorem collect_succ (recv : Prog Self Err Message Message Message) :
    collect recv judge (rounds + 1) vars m = recv.bind (judged recv judge rounds vars m) := rfl

/-- Past messages that it passes, the loop comes to the message that ends it. -/
theorem run_collect_passes {last : Message} (hlast : Ends listener judge last)
    (hpasses : ∀ message ∈ messages, Passes listener judge message) {left : Nat}
    (hleft : messages.length < left) (hfuel : messages.length < fuel)
    (hrounds : messages.length ≤ rounds) (answer : Env → Message → Env × List Message)
    (self : Self) (env : Env) (inbox : List Message) (vars : Vars) (m : Int) :
    run answer ((listener.recv left).bind
        (judged (listener.recv fuel) judge rounds vars m)) self env (messages ++ last :: inbox) =
      ⟨.done (messages.foldl (fun vars message => kept listener judge message vars) vars,
          m - messages.countP (skipped listener judge)),
        messages.foldl (fun self message => listener.effect message self) self, env, [],
        inbox⟩ := by
  induction messages generalizing left rounds vars m self with
  | nil =>
      obtain ⟨left, rfl⟩ := Nat.exists_eq_succ_of_ne_zero (Nat.ne_of_gt hleft)
      -- the message that ends the loop is the first to be read
      rw [List.nil_append, run_bind_done (Listener.run_recv_plain hlast.1)]
      simp [judged, hlast.2, run]
  | cons message messages ih =>
      obtain ⟨left, rfl⟩ := Nat.exists_eq_succ_of_ne_zero (Nat.ne_of_gt (Nat.zero_lt_of_lt hleft))
      have hhead := hpasses message List.mem_cons_self
      have htail : ∀ message ∈ messages, Passes listener judge message :=
        fun other hmem => hpasses other (List.mem_cons_of_mem message hmem)
      rw [List.length_cons] at hleft hfuel hrounds
      rw [List.cons_append]
      cases hhearing : listener.hearing message with
      | failed err => simp [Passes, hhearing] at hhead
      | aside f =>
          have hskip : skipped listener judge message = false := by simp [skipped, hhearing]
          have hkept : kept listener judge message vars = vars := by simp [kept, hhearing]
          have hstep : listener.effect message self = f self := by
            simp [Listener.effect, hhearing]
          -- set aside within `recv`, which goes on; the loop does not come to see it
          have hrun := ih htail (Nat.lt_of_succ_lt_succ hleft)
            (Nat.lt_of_succ_lt hfuel) (Nat.le_of_succ_le hrounds) (f self) vars m
          rw [run_bind, Listener.run_recv_aside hhearing, ← run_bind, hrun]
          simp [hskip, hkept, hstep]
      | plain =>
          have hstep : listener.effect message self = self := by
            simp [Listener.effect, hhearing]
          obtain ⟨rounds, rfl⟩ := Nat.exists_eq_succ_of_ne_zero (Nat.ne_of_gt (Nat.zero_lt_of_lt hrounds))
          rw [run_bind_done (Listener.run_recv_plain hhearing)]
          cases hjudge : judge message with
          | finish => simp [Passes, hhearing, hjudge] at hhead
          | fail err => simp [Passes, hhearing, hjudge] at hhead
          | skip =>
              have hskip : skipped listener judge message = true := by
                simp [skipped, hhearing, hjudge]
              have hkept : kept listener judge message vars = vars := by
                simp [kept, hhearing, hjudge]
              -- counted off, and read again with the whole fuel
              have hrun := ih htail (Nat.lt_of_succ_lt hfuel)
                (Nat.lt_of_succ_lt hfuel) (Nat.le_of_succ_le_succ hrounds) self vars (m - 1)
              simp only [judged, hjudge]
              rw [collect_succ, hrun]
              simp [hskip, hkept, hstep]
              omega
          | keep f =>
              have hskip : skipped listener judge message = false := by
                simp [skipped, hhearing, hjudge]
              have hkept : kept listener judge message vars = f vars := by
                simp [kept, hhearing, hjudge]
              have hrun := ih htail (Nat.lt_of_succ_lt hfuel)
                (Nat.lt_of_succ_lt hfuel) (Nat.le_of_succ_le_succ hrounds) self (f vars) m
              simp only [judged, hjudge]
              rw [collect_succ, hrun]
              simp [hskip, hkept, hstep]

/-- The first message that it does not get past ends the loop, one way or the other, with
what comes behind it unread. -/
theorem run_collect_stops {last : Message} (hlast : ¬ Passes listener judge last)
    (hpasses : ∀ message ∈ messages, Passes listener judge message)
    (answer : Env → Message → Env × List Message) (self : Self) (env : Env) (inbox : List Message)
    (vars : Vars) (m : Int) (fuel rounds left : Nat) :
    ∃ outcome self' unread, run answer ((listener.recv left).bind
        (judged (listener.recv fuel) judge rounds vars m)) self env (messages ++ last :: inbox) =
      ⟨outcome, self', env, [], unread⟩ ∧ outcome ≠ .waiting ∧
        (outcome ≠ .exhausted → unread = inbox) ∧
        (¬ Ends listener judge last → ∀ result, outcome ≠ .done result) := by
  induction messages generalizing left rounds vars m self with
  | nil =>
      cases left with
      | zero => exact ⟨.exhausted, self, _, rfl, by simp, by simp, by simp⟩
      | succ left =>
          rw [List.nil_append]
          cases hhearing : listener.hearing last with
          | failed err =>
              rw [run_bind_raised (Listener.run_recv_failed hhearing)]
              exact ⟨_, _, _, rfl, by simp, fun _ => rfl, by simp⟩
          | aside f => simp [Passes, hhearing] at hlast
          | plain =>
              rw [run_bind_done (Listener.run_recv_plain hhearing)]
              cases hjudge : judge last with
              | finish =>
                  simp only [judged, hjudge]
                  exact ⟨_, _, _, rfl, by simp [run], fun _ => rfl,
                    fun hends => absurd ⟨hhearing, hjudge⟩ hends⟩
              | fail err =>
                  simp only [judged, hjudge]
                  exact ⟨_, _, _, rfl, by simp [run], fun _ => rfl, by simp [run]⟩
              | skip => simp [Passes, hhearing, hjudge] at hlast
              | keep f => simp [Passes, hhearing, hjudge] at hlast
  | cons message messages ih =>
      have hhead := hpasses message List.mem_cons_self
      have htail : ∀ message ∈ messages, Passes listener judge message :=
        fun other hmem => hpasses other (List.mem_cons_of_mem message hmem)
      cases left with
      | zero => exact ⟨.exhausted, self, _, rfl, by simp, by simp, by simp⟩
      | succ left =>
          rw [List.cons_append]
          cases hhearing : listener.hearing message with
          | failed err => simp [Passes, hhearing] at hhead
          | aside f =>
              rw [run_bind, Listener.run_recv_aside hhearing, ← run_bind]
              exact ih htail (f self) vars m rounds left
          | plain =>
              rw [run_bind_done (Listener.run_recv_plain hhearing), Ended.after_nil]
              cases hjudge : judge message with
              | finish => simp [Passes, hhearing, hjudge] at hhead
              | fail err => simp [Passes, hhearing, hjudge] at hhead
              | skip =>
                  simp only [judged, hjudge]
                  cases rounds with
                  | zero => exact ⟨.exhausted, self, _, rfl, by simp, by simp, by simp⟩
                  | succ rounds => exact ih htail self vars (m - 1) rounds fuel
              | keep f =>
                  simp only [judged, hjudge]
                  cases rounds with
                  | zero => exact ⟨.exhausted, self, _, rfl, by simp, by simp, by simp⟩
                  | succ rounds => exact ih htail self (f vars) m rounds fuel

/-- In a list not all of which passes, the first message that does not. -/
theorem exists_stop (h : ∃ message ∈ messages, ¬ Passes listener judge message) :
    ∃ front last behind, messages = front ++ last :: behind ∧ ¬ Passes listener judge last ∧
      ∀ message ∈ front, Passes listener judge message := by
  induction messages with
  | nil => simp at h
  | cons message messages ih =>
      by_cases hhead : Passes listener judge message
      · have htail : ∃ message ∈ messages, ¬ Passes listener judge message := by
          simpa [hhead] using h
        obtain ⟨front, last, behind, heq, hlast, hfront⟩ := ih htail
        refine ⟨message :: front, last, behind, by simp [heq], hlast, ?_⟩
        simpa [hhead] using hfront
      · exact ⟨[], message, messages, rfl, hhead, by simp⟩

end Collecting

/-! ## A `sync` at a server

Its answers are the messages of a queue and one that ends the loop. -/

section Syncing

variable (listener : Listener Self Err) (judge : Message → Judgement Err Vars)

/-- A server with a queue, which answers a `sync` with the first messages of the queue
and `{"status":0}`. -/
structure Serves (answer : Env → Message → Env × List Message) (queue : Env → List Message)
    (good : Env → Prop) : Prop where
  stays : ∀ env n, good env → good (answer env (Request.sync n)).1
  rest : ∀ env n, good env →
    queue (answer env (Request.sync n)).1 = (queue env).drop (syncCount n)
  relays : ∀ env n, good env →
    (answer env (Request.sync n)).2 = (queue env).take (syncCount n) ++ [statusOkMessage]

/-- A method that synchronises, and asks again for as many messages as were passed over.
What it then does with the variables takes no messages. -/
structure Resyncs (sync : Nat → Int64 → Prog Self Err Message Message Vars) (vars : Vars)
    (combine : Vars → Vars → Prog Self Err Message Message Vars) : Prop where
  zero : ∀ n, sync 0 n = Prog.exhausted
  succ : ∀ fuel n, sync (fuel + 1) n = syncWith (listener.recv fuel) judge fuel vars
    (fun vars n => (sync fuel n).bind (combine vars)) n
  combine : ∀ vars more, (∃ a, combine vars more = .done a) ∨ ∃ err, combine vars more = .raise err

/-- The messages that such a method fetches from a queue. -/
def fetched : Nat → List Message → Int64 → List Message
  | 0, _, _ => []
  | fuel + 1, queue, n =>
      let relays := queue.take (syncCount n)
      let m := n.toInt - relays.countP (skipped listener judge)
      relays ++ if 0 < n.toInt ∧ m < n.toInt then
        fetched fuel (queue.drop (syncCount n)) (Int64.ofInt (n.toInt - m)) else []

variable {listener judge} {queue : Env → List Message} {good : Env → Prop}
  {sync : Nat → Int64 → Prog Self Err Message Message Vars} {vars : Vars}
  {combine : Vars → Vars → Prog Self Err Message Message Vars} {n : Int64}
  {again : Vars → Int64 → Prog Self Err Message Message Vars} {rounds : Nat}

/-- What follows the loop. -/
def merge (again : Vars → Int64 → Prog Self Err Message Message Vars) (n : Int64) :
    Vars × Int → Prog Self Err Message Message Vars
  | (vars, m) =>
      if 0 < n.toInt ∧ m < n.toInt then again vars (Int64.ofInt (n.toInt - m)) else return vars

theorem run_syncWith {recv : Prog Self Err Message Message Message} :
    run answer (syncWith recv judge rounds vars again n) self env inbox =
      (run answer ((collect recv judge rounds vars n.toInt).bind (merge again n)) self
        (answer env (Request.sync n)).1 (inbox ++ (answer env (Request.sync n)).2)).after
        [Request.sync n] := rfl

/-- What is done with the variables leaves the messages alone. -/
theorem run_bind_combine (answer : Env → Message → Env × List Message) (self : Self) (env : Env)
    (inbox : List Message) (p : Prog Self Err Message Message Vars)
    {f : Vars → Prog Self Err Message Message Vars}
    (hf : ∀ more, (∃ a, f more = .done a) ∨ ∃ err, f more = .raise err) :
    ∃ outcome, run answer (p.bind f) self env inbox =
        { run answer p self env inbox with outcome } ∧
      outcome.over = (run answer p self env inbox).outcome.over := by
  rw [run_bind]
  cases hp : (run answer p self env inbox).outcome with
  | done a =>
      rcases hf a with ⟨b, hb⟩ | ⟨err, herr⟩
      · refine ⟨.done b, ?_, rfl⟩
        simp [hp, hb, run, Ended.after]
      · refine ⟨.raised err, ?_, rfl⟩
        simp [hp, herr, run, Ended.after]
  | raised err => exact ⟨.raised err, by simp [hp], rfl⟩
  | exhausted => exact ⟨.exhausted, by simp [hp], rfl⟩
  | waiting => exact ⟨.waiting, by simp [hp], rfl⟩

/-- An exchange in which all that is relayed passes: nothing is left unread. -/
theorem Serves.run_exchange (hserves : Serves answer queue good)
    (hok : Ends listener judge statusOkMessage) (hgood : good env)
    (hfuel : (queue env).length < fuel) (hrounds : (queue env).length < rounds)
    (hrelays : ∀ message ∈ (queue env).take (syncCount n), Passes listener judge message)
    (self : Self) (vars : Vars) (again : Vars → Int64 → Prog Self Err Message Message Vars) :
    run answer (syncWith (listener.recv fuel) judge rounds vars again n) self env [] =
      (run answer (merge again n
          (((queue env).take (syncCount n)).foldl
            (fun vars message => kept listener judge message vars) vars,
            n.toInt - ((queue env).take (syncCount n)).countP (skipped listener judge)))
        (((queue env).take (syncCount n)).foldl
          (fun self message => listener.effect message self) self)
        (answer env (Request.sync n)).1 []).after [Request.sync n] := by
  have hlength := List.length_take_le' (syncCount n) (queue env)
  obtain ⟨rounds, rfl⟩ := Nat.exists_eq_succ_of_ne_zero (Nat.ne_of_gt (Nat.zero_lt_of_lt hrounds))
  have hcollect := run_collect_passes hok hrelays (lt_of_le_of_lt hlength hfuel)
    (lt_of_le_of_lt hlength hfuel) (hlength.trans (Nat.le_of_lt_succ hrounds)) answer self
    (answer env (Request.sync n)).1 [] vars n.toInt
  rw [run_syncWith, hserves.relays env n hgood, List.nil_append, collect_succ,
    run_bind_done hcollect, Ended.after_nil]

/-- Once a message has stopped the loop, the end of the server's answer is not read, if
it is not read by what follows. -/
theorem Serves.run_stopped (hserves : Serves answer queue good) (hgood : good env) {last : Message}
    {front behind : List Message} (hlast : ¬ Passes listener judge last)
    (hfront : ∀ message ∈ front, Passes listener judge message)
    (hinbox : inbox ++ (queue env).take (syncCount n) = front ++ last :: behind)
    (hagain : ∀ vars self n',
      let ended := run answer (again vars n') self (answer env (Request.sync n)).1
        (behind ++ [statusOkMessage])
      ended.outcome.over = true → ended.unread ≠ []) :
    let ended := run answer (syncWith (listener.recv fuel) judge rounds vars again n) self env inbox
    ended.outcome.over = true → ended.unread ≠ [] := by
  intro ended
  dsimp only [ended]
  rw [run_syncWith, hserves.relays env n hgood, ← List.append_assoc, hinbox, List.append_assoc,
    List.cons_append, Ended.after_outcome, Ended.after_unread]
  cases rounds with
  | zero => simp [collect, Prog.bind, run, Outcome.over]
  | succ rounds =>
      obtain ⟨outcome, self', unread, hrun, hwaiting, hunread, _⟩ :=
        run_collect_stops hlast hfront answer self (answer env (Request.sync n)).1
          (behind ++ [statusOkMessage]) vars n.toInt fuel rounds fuel
      rw [collect_succ]
      cases outcome with
      | waiting => exact absurd rfl hwaiting
      | exhausted =>
          rw [run_bind, hrun]
          simp [Outcome.over]
      | raised err =>
          rw [run_bind_raised hrun, hunread (by simp)]
          simp
      | done result =>
          rw [run_bind_done hrun, hunread (by simp), Ended.after_nil, merge]
          split
          · exact hagain result.1 self' _
          · simp [run]

/-- Where a message has been passed over, the queue has become shorter. -/
theorem Serves.shorter (hserves : Serves answer queue good) (hgood : good env)
    (hfuel : (queue env).length < fuel + 1)
    (hagain : n.toInt - ((queue env).take (syncCount n)).countP (skipped listener judge) <
      n.toInt) :
    (queue (answer env (Request.sync n)).1).length < fuel := by
  have hcount := List.countP_le_length (p := skipped listener judge)
    (l := (queue env).take (syncCount n))
  rw [hserves.rest env n hgood, List.length_drop]
  rw [List.length_take] at hcount
  omega

/-- Where all that is fetched passes, the method reads all that the server answers. -/
theorem Resyncs.run_passes (h : Resyncs listener judge sync vars combine)
    (hserves : Serves answer queue good) (hok : Ends listener judge statusOkMessage)
    (hgood : good env) (hfuel : (queue env).length < fuel)
    (hpasses : ∀ message ∈ fetched listener judge (fuel + 1) (queue env) n,
      Passes listener judge message) (self : Self) :
    ∃ outcome env' requests, run answer (sync (fuel + 1) n) self env [] =
        ⟨outcome, (fetched listener judge (fuel + 1) (queue env) n).foldl
          (fun self message => listener.effect message self) self, env', requests, []⟩ ∧
      outcome.over = true := by
  induction fuel generalizing env n self with
  | zero => exact absurd hfuel (Nat.not_lt_zero _)
  | succ fuel ih =>
      rw [fetched] at hpasses ⊢
      have hrun := hserves.run_exchange hok hgood hfuel hfuel
        (fun message hmem => hpasses message (List.mem_append_left _ hmem)) self vars
        fun vars n => (sync (fuel + 1) n).bind (combine vars)
      rw [h.succ, hrun, merge]
      by_cases hagain : 0 < n.toInt ∧
          n.toInt - ((queue env).take (syncCount n)).countP (skipped listener judge) < n.toInt
      · simp only [if_pos hagain] at hpasses ⊢
        have hrest := hserves.rest env n hgood
        rw [← hrest] at hpasses ⊢
        obtain ⟨outcome, env', requests, hrun, hover⟩ :=
          ih (hserves.stays env n hgood) (hserves.shorter hgood hfuel hagain.2)
            (fun message hmem => hpasses message (List.mem_append_right _ hmem))
            (((queue env).take (syncCount n)).foldl
              (fun self message => listener.effect message self) self)
        obtain ⟨outcome', hcombine, hover'⟩ := run_bind_combine answer
          (((queue env).take (syncCount n)).foldl
            (fun self message => listener.effect message self) self)
          (answer env (Request.sync n)).1 []
          (sync (fuel + 1) (Int64.ofInt (n.toInt -
            (n.toInt - ((queue env).take (syncCount n)).countP (skipped listener judge)))))
          (h.combine _)
        rw [hcombine, hrun, List.foldl_append]
        rw [hrun] at hover'
        exact ⟨outcome', env', _, rfl, hover'.trans hover⟩
      · simp only [if_neg hagain, List.append_nil]
        exact ⟨.done _, _, _, rfl, rfl⟩

theorem Ends.not_passes (h : Ends listener judge message) : ¬ Passes listener judge message := by
  simp [Passes, h.1, h.2]

theorem Resyncs.run_again (h : Resyncs listener judge sync vars combine) {vars' : Vars}
    (hrest : (run answer (sync fuel n) self env inbox).outcome.over = true →
      (run answer (sync fuel n) self env inbox).unread ≠ []) :
    let ended := run answer ((sync fuel n).bind (combine vars')) self env inbox
    ended.outcome.over = true → ended.unread ≠ [] := by
  obtain ⟨outcome, hcombine, hover⟩ :=
    run_bind_combine answer self env inbox (sync fuel n) (h.combine vars')
  intro ended hended
  dsimp only [ended] at hended ⊢
  rw [hcombine] at hended ⊢
  exact hrest (hover.symm.trans hended)

/-- Once the method is behind the server's answers, it does not catch up. -/
theorem Resyncs.run_behind (h : Resyncs listener judge sync vars combine)
    (hserves : Serves answer queue good) (hok : Ends listener judge statusOkMessage)
    (hgood : good env) (hbehind : ∃ message ∈ inbox, ¬ Passes listener judge message) :
    (run answer (sync fuel n) self env inbox).outcome.over →
      (run answer (sync fuel n) self env inbox).unread ≠ [] := by
  induction fuel generalizing env n self inbox with
  | zero =>
      rw [h.zero]
      simp [run, Outcome.over]
  | succ fuel ih =>
      obtain ⟨front, last, behind, rfl, hlast, hfront⟩ := exists_stop hbehind
      have hinbox : (front ++ last :: behind) ++ (queue env).take (syncCount n) =
          front ++ last :: (behind ++ (queue env).take (syncCount n)) := by simp
      rw [h.succ]
      apply hserves.run_stopped hgood hlast hfront hinbox
      intro vars' self' n'
      exact h.run_again fun hover =>
        ih (hserves.stays env _ hgood) ⟨statusOkMessage, by simp, hok.not_passes⟩ hover

/-- Where something that is fetched does not pass, a part of the answers is not read. -/
theorem Resyncs.run_stops (h : Resyncs listener judge sync vars combine)
    (hserves : Serves answer queue good) (hok : Ends listener judge statusOkMessage)
    (hgood : good env) (hfuel : (queue env).length < fuel)
    (hstops : ∃ message ∈ fetched listener judge (fuel + 1) (queue env) n,
      ¬ Passes listener judge message) (self : Self) :
    (run answer (sync (fuel + 1) n) self env []).outcome.over →
      (run answer (sync (fuel + 1) n) self env []).unread ≠ [] := by
  induction fuel generalizing env n self with
  | zero => exact absurd hfuel (Nat.not_lt_zero _)
  | succ fuel ih =>
      by_cases hrelays : ∃ message ∈ (queue env).take (syncCount n), ¬ Passes listener judge message
      · obtain ⟨front, last, behind, hsplit, hlast, hfront⟩ := exists_stop hrelays
        rw [h.succ]
        apply hserves.run_stopped hgood hlast hfront hsplit
        intro vars' self' n'
        exact h.run_again (h.run_behind hserves hok (hserves.stays env _ hgood)
          ⟨statusOkMessage, by simp, hok.not_passes⟩)
      · have hall : ∀ message ∈ (queue env).take (syncCount n), Passes listener judge message := by
          simpa using hrelays
        have hrun := hserves.run_exchange hok hgood hfuel hfuel hall self vars
          fun vars n => (sync (fuel + 1) n).bind (combine vars)
        rw [h.succ, hrun, merge]
        obtain ⟨message, hmem, hstop⟩ := hstops
        rw [fetched] at hmem
        rcases List.mem_append.mp hmem with hmem | hmem
        · exact absurd (hall message hmem) hstop
        · by_cases hagain : 0 < n.toInt ∧
              n.toInt - ((queue env).take (syncCount n)).countP (skipped listener judge) < n.toInt
          · simp only [if_pos hagain] at hmem ⊢
            rw [← hserves.rest env n hgood] at hmem
            exact h.run_again (ih (hserves.stays env n hgood)
              (hserves.shorter hgood hfuel hagain.2) ⟨message, hmem, hstop⟩ _)
          · simp only [if_neg hagain] at hmem
            cases hmem

/-- Exactly when the method reads all that the server answers and is left with the
serialization that it held. -/
theorem Resyncs.settled_iff (h : Resyncs listener judge sync vars combine)
    (hserves : Serves answer queue good) (hok : Ends listener judge statusOkMessage)
    (hgood : good env) (hfuel : (queue env).length < fuel) (serialization : Self → α) :
    let ended := run answer (sync (fuel + 1) n) self env []
    let messages := fetched listener judge (fuel + 1) (queue env) n
    (ended.outcome.over = true ∧ ended.unread = [] ∧
        serialization ended.self = serialization self) ↔
      (∀ message ∈ messages, Passes listener judge message) ∧
        serialization (messages.foldl (fun self message => listener.effect message self) self) =
          serialization self := by
  intro ended messages
  by_cases hall : ∀ message ∈ messages, Passes listener judge message
  · obtain ⟨outcome, env', requests, hrun, hover⟩ :=
      h.run_passes hserves hok hgood hfuel hall self
    simp only [ended, hrun, hover, true_and]
    exact (and_iff_right hall).symm
  · have hstops : ∃ message ∈ messages, ¬ Passes listener judge message := by simpa using hall
    have hbehind := h.run_stops hserves hok hgood hfuel hstops self
    constructor
    · intro hended
      exact absurd hended.2.1 (hbehind hended.1)
    · intro hpasses
      exact absurd hpasses.1 hall

end Syncing

end Dime
