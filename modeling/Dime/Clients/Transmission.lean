import Dime.Clients.Reading

/-!
# Transmitting variables

What a client that transmits in batches sends and reads, at a server that answers every
request with one message.
-/

namespace Dime

open Dialogue

variable {Env Self Err V : Type}

/-- A server that answers every request with one message, which is not for the connection. -/
def RepliesOnce (listener : Listener Self Err) (answer : Env → Message → Env × List Message) :
    Prop :=
  ∀ env request, ∃ reply, (answer env request).2 = [reply] ∧ listener.hearing reply = .plain

/-- What becomes of the server by a few requests, and all that it answers. -/
def serve (answer : Env → Message → Env × List Message) : Env → List Message → Env × List Message
  | env, [] => (env, [])
  | env, request :: requests =>
      let rest := serve answer (answer env request).1 requests
      (rest.1, (answer env request).2 ++ rest.2)

/-- The request for a variable, with the data that it is encoded to. -/
def Carries (request : String → Json → Json) (serialization : Json) (encode : V → Except Err Bytes)
    (kv : String × V) (message : Message) : Prop :=
  message.jsondata = request kv.1 serialization ∧ encode kv.2 = .ok message.bindata

/-- One request for each variable has been sent, in their order, and the replies have been
read. -/
structure Transmits {α : Type} (request : String → Json → Json) (serialization : Json)
    (encode : V → Except Err Bytes) (kvpairs : List (String × V))
    (ended : Ended Env Self Err Message Message α) : Prop where
  requests : List.Forall₂ (Carries request serialization encode) kvpairs ended.requests
  replies : ended.unread = []

/-- Every variable can be encoded, and no reply is a refusal, the last one apart. -/
def Granted (answer : Env → Message → Env × List Message) (check : Json → Except Err Unit)
    (request : String → Json → Json) (serialization : Json) (encode : V → Except Err Bytes)
    (env : Env) (kvpairs : List (String × V)) : Prop :=
  ∃ messages, List.Forall₂ (Carries request serialization encode) kvpairs messages ∧
    ∀ reply ∈ (serve answer env messages).2.dropLast, check reply.jsondata = .ok ()

section

variable {answer : Env → Message → Env × List Message} {listener : Listener Self Err} {env : Env}
  {request : String → Json → Json} {serialization : Json} {encode : V → Except Err Bytes}
  {kvpairs more : List (String × V)} {messages : List Message}

@[simp] theorem serve_nil : serve answer env [] = (env, []) := rfl

theorem serve_append (front back : List Message) :
    serve answer env (front ++ back) =
      ((serve answer (serve answer env front).1 back).1,
        (serve answer env front).2 ++ (serve answer (serve answer env front).1 back).2) := by
  induction front generalizing env with
  | nil => rfl
  | cons message front ih => simp [serve, ih]

theorem RepliesOnce.length_serve (h : RepliesOnce listener answer) (messages : List Message) :
    (serve answer env messages).2.length = messages.length := by
  induction messages generalizing env with
  | nil => rfl
  | cons message messages ih =>
      obtain ⟨reply, hreply, _⟩ := h env message
      rw [serve, List.length_append, hreply, ih, List.length_singleton, List.length_cons, Nat.add_comm]

theorem RepliesOnce.hearing_serve (h : RepliesOnce listener answer) :
    ∀ reply ∈ (serve answer env messages).2, listener.hearing reply = .plain := by
  induction messages generalizing env with
  | nil => simp
  | cons message messages ih =>
      obtain ⟨reply, hreply, hplain⟩ := h env message
      intro reply' hmem
      rw [serve, hreply, List.singleton_append, List.mem_cons] at hmem
      rcases hmem with rfl | hmem
      · exact hplain
      · exact ih reply' hmem

/-- There is only one request for a variable. -/
theorem Carries.unique {kv : String × V} {message message' : Message}
    (h : Carries request serialization encode kv message)
    (h' : Carries request serialization encode kv message') : message = message' := by
  obtain ⟨jsondata, bindata⟩ := message
  obtain ⟨jsondata', bindata'⟩ := message'
  obtain rfl : jsondata = jsondata' := h.1.trans h'.1.symm
  obtain rfl : bindata = bindata' := Except.ok.inj (h.2.symm.trans h'.2)
  rfl

theorem carries_unique {messages' : List Message}
    (h : List.Forall₂ (Carries request serialization encode) kvpairs messages)
    (h' : List.Forall₂ (Carries request serialization encode) kvpairs messages') :
    messages = messages' := by
  induction h generalizing messages' with
  | nil =>
      cases h'
      rfl
  | cons hhead _ ih =>
      cases h' with
      | cons hhead' htail' => rw [hhead.unique hhead', ih htail']

theorem encode_of_carries (h : List.Forall₂ (Carries request serialization encode) kvpairs messages) :
    ∀ kv ∈ kvpairs, ∃ bindata, encode kv.2 = .ok bindata := by
  induction h with
  | nil => simp
  | cons hhead _ ih => exact List.forall_mem_cons.mpr ⟨⟨_, hhead.2⟩, ih⟩

/-- The requests for two lists of variables. -/
theorem carries_append {messages' : List Message}
    (h : List.Forall₂ (Carries request serialization encode) kvpairs messages) :
    List.Forall₂ (Carries request serialization encode) (kvpairs ++ more) (messages ++ messages') ↔
      List.Forall₂ (Carries request serialization encode) more messages' := by
  induction h with
  | nil => rfl
  | cons hhead _ ih =>
      rw [List.cons_append, List.cons_append, List.forall₂_cons, ih]
      exact and_iff_right hhead

/-- Where all of the first replies are granted, the rest decides. -/
theorem granted_append (hcarries : List.Forall₂ (Carries request serialization encode) kvpairs messages)
    {check : Json → Except Err Unit}
    (hchecked : ∀ reply ∈ (serve answer env messages).2, check reply.jsondata = .ok ()) :
    Granted answer check request serialization encode env (kvpairs ++ more) ↔
      Granted answer check request serialization encode (serve answer env messages).1 more := by
  have hdrop : ∀ messages', (∀ reply ∈ (serve answer env (messages ++ messages')).2.dropLast,
      check reply.jsondata = .ok ()) ↔
      ∀ reply ∈ (serve answer (serve answer env messages).1 messages').2.dropLast,
        check reply.jsondata = .ok () := by
    intro messages'
    rw [serve_append]
    dsimp only
    cases hrest : (serve answer (serve answer env messages).1 messages').2 with
    | nil =>
        rw [List.append_nil, List.dropLast_nil]
        exact iff_of_true (fun reply hmem => hchecked reply (List.mem_of_mem_dropLast hmem)) (by simp)
    | cons reply rest =>
        rw [List.dropLast_append_of_ne_nil (List.cons_ne_nil reply rest), List.forall_mem_append]
        exact and_iff_right hchecked
  constructor
  · intro h
    obtain ⟨all, hall, hgranted⟩ := h
    have hfront := List.forall₂_take kvpairs.length hall
    have hback := List.forall₂_drop kvpairs.length hall
    rw [List.take_left] at hfront
    rw [List.drop_left] at hback
    rw [← List.take_append_drop kvpairs.length all] at hgranted
    rw [← carries_unique hcarries hfront] at hgranted
    exact ⟨_, hback, (hdrop _).mp hgranted⟩
  · intro h
    obtain ⟨back, hback, hgranted⟩ := h
    exact ⟨messages ++ back, (carries_append hcarries).mpr hback, (hdrop back).mpr hgranted⟩

/-- A refusal has to be the reply to the last request. -/
theorem granted_refused_iff (hreplies : RepliesOnce listener answer)
    (hcarries : List.Forall₂ (Carries request serialization encode) kvpairs messages)
    {check : Json → Except Err Unit} {front behind : List Message} {reply : Message} {err : Err}
    (hserve : (serve answer env messages).2 = front ++ reply :: behind)
    (hfront : ∀ reply ∈ front, check reply.jsondata = .ok ())
    (hrefused : check reply.jsondata = .error err) :
    Granted answer check request serialization encode env (kvpairs ++ more) ↔
      behind = [] ∧ more = [] := by
  constructor
  · intro h
    obtain ⟨all, hall, hgranted⟩ := h
    have hkvpairs := List.forall₂_take kvpairs.length hall
    have hmore := List.forall₂_drop kvpairs.length hall
    rw [List.take_left] at hkvpairs
    rw [List.drop_left] at hmore
    rw [← List.take_append_drop kvpairs.length all, ← carries_unique hcarries hkvpairs, serve_append,
      hserve] at hgranted
    have hlast : behind ++ (serve answer (serve answer env messages).1
        (all.drop kvpairs.length)).2 = [] := by
      by_contra hne
      have hmem : reply ∈ (front ++ reply :: behind ++ (serve answer (serve answer env messages).1
          (all.drop kvpairs.length)).2).dropLast := by
        rw [List.append_assoc, List.cons_append, List.dropLast_append_of_ne_nil (List.cons_ne_nil _ _),
          List.dropLast_cons_of_ne_nil hne]
        exact List.mem_append_right _ List.mem_cons_self
      have hok := hgranted reply hmem
      rw [hrefused] at hok
      cases hok
    obtain ⟨hbehind, hrest⟩ := List.append_eq_nil_iff.mp hlast
    have hlength : (serve answer (serve answer env messages).1 (all.drop kvpairs.length)).2.length =
        (all.drop kvpairs.length).length := hreplies.length_serve _
    rw [hrest, ← hmore.length_eq] at hlength
    exact ⟨hbehind, List.eq_nil_of_length_eq_zero hlength.symm⟩
  · rintro ⟨rfl, rfl⟩
    refine ⟨messages, by rw [List.append_nil]; exact hcarries, ?_⟩
    rw [hserve, List.dropLast_concat]
    exact hfront

end

/-! ## Batches -/

namespace Pipeline

variable {answer : Env → Message → Env × List Message} {pipe : Pipeline Self Err V} {env : Env}
  {self : Self} {request : String → Json → Json} {batch : List (String × V)}
  {messages inbox rest replies : List Message} {fuel : Nat}

/-- The request for a variable, as the client in this state makes it. -/
abbrev Makes (pipe : Pipeline Self Err V) (request : String → Json → Json) (self : Self) :
    String × V → Message → Prop :=
  Carries request (pipe.serialization self) (pipe.encode self)

theorem run_sendBatch_cons {varname : String} {var : V} {bindata : Bytes}
    (hencode : pipe.encode self var = .ok bindata) :
    run answer (pipe.sendBatch request ((varname, var) :: batch)) self env inbox =
      let message : Message := ⟨request varname (pipe.serialization self), bindata⟩
      (run answer ((pipe.sendBatch request batch).bind fun n => .done (n + 1)) self
        (answer env message).1 (inbox ++ (answer env message).2)).after [message] := by
  simp only [sendBatch, Prog.bind_eq, Prog.self, Prog.bind, run, hencode, Prog.ofExcept, Prog.request]
  rfl

theorem run_sendBatch_raised {varname : String} {var : V} {err : Err}
    (hencode : pipe.encode self var = .error err) :
    run answer (pipe.sendBatch request ((varname, var) :: batch)) self env inbox =
      ⟨.raised err, self, env, [], inbox⟩ := by
  simp [sendBatch, Prog.self, Prog.bind, run, hencode, Prog.ofExcept]

/-- A batch that can be encoded is sent as a whole, whatever the server answers. -/
theorem run_sendBatch_makes (hmakes : List.Forall₂ (pipe.Makes request self) batch messages) :
    run answer (pipe.sendBatch request batch) self env inbox =
      ⟨.done batch.length, self, (serve answer env messages).1, messages,
        inbox ++ (serve answer env messages).2⟩ := by
  induction hmakes generalizing env inbox with
  | nil => simp [sendBatch, run]
  | @cons kv message batch messages hhead _ ih =>
      obtain ⟨varname, var⟩ := kv
      obtain ⟨jsondata, bindata⟩ := message
      obtain rfl := hhead.1
      rw [run_sendBatch_cons hhead.2]
      dsimp only
      rw [run_bind_done ih]
      simp [serve, run, Ended.after]

/-- Of a batch that cannot be encoded only a part is sent. -/
theorem run_sendBatch_fails (hfails : ¬ ∃ messages, List.Forall₂ (pipe.Makes request self) batch messages) :
    ∃ err env' requests unread, run answer (pipe.sendBatch request batch) self env inbox =
      ⟨.raised err, self, env', requests, unread⟩ ∧ requests.length < batch.length := by
  induction batch generalizing env inbox with
  | nil => exact absurd ⟨[], .nil⟩ hfails
  | cons kv batch ih =>
      obtain ⟨varname, var⟩ := kv
      cases hencode : pipe.encode self var with
      | error err =>
          rw [run_sendBatch_raised hencode]
          exact ⟨err, _, _, _, rfl, Nat.succ_pos _⟩
      | ok bindata =>
          have htail : ¬ ∃ messages, List.Forall₂ (pipe.Makes request self) batch messages := by
            intro h
            obtain ⟨messages, hmessages⟩ := h
            exact hfails ⟨⟨request varname (pipe.serialization self), bindata⟩ :: messages,
              .cons ⟨rfl, hencode⟩ hmessages⟩
          rw [run_sendBatch_cons hencode]
          dsimp only
          obtain ⟨err, env', requests, unread, hrun, hlength⟩ := ih htail
          rw [run_bind_raised hrun]
          exact ⟨err, env', _, unread, rfl, Nat.succ_lt_succ hlength⟩

theorem run_reply_plain {message : Message} (hplain : pipe.hearing message = .plain) :
    run answer (pipe.reply (fuel + 1)) self env (message :: inbox) =
      match pipe.check message.jsondata with
      | .ok () => ⟨.done message.jsondata, self, env, [], inbox⟩
      | .error err => ⟨.raised err, self, env, [], inbox⟩ := by
  unfold Listener.reply
  rw [Prog.bind_eq, run_bind_done (Listener.run_recv_plain hplain), Ended.after_nil]
  cases hcheck : pipe.check message.jsondata with
  | ok _ => simp [Prog.ofExcept, Prog.bind, run]
  | error err => simp [Prog.ofExcept, Prog.bind, run]

theorem run_readReplies_granted (hplain : ∀ reply ∈ replies, pipe.hearing reply = .plain)
    (hchecked : ∀ reply ∈ replies, pipe.check reply.jsondata = .ok ()) :
    run answer (pipe.readReplies (fuel + 1) replies.length) self env (replies ++ rest) =
      ⟨.done (), self, env, [], rest⟩ := by
  induction replies with
  | nil => rfl
  | cons reply replies ih =>
      rw [List.forall_mem_cons] at hplain hchecked
      have hreply : run answer (pipe.reply (fuel + 1)) self env (reply :: (replies ++ rest)) =
          ⟨.done reply.jsondata, self, env, [], replies ++ rest⟩ := by
        rw [run_reply_plain hplain.1, hchecked.1]
      rw [List.length_cons, readReplies, Prog.bind_eq, List.cons_append, run_bind_done hreply]
      exact ih hplain.2 hchecked.2

/-- What comes behind a refusal is not read. -/
theorem run_readReplies_refused {reply : Message} {err : Err} {front : List Message} {n : Nat}
    (hplain : ∀ reply ∈ front, pipe.hearing reply = .plain)
    (hchecked : ∀ reply ∈ front, pipe.check reply.jsondata = .ok ())
    (hreply : pipe.hearing reply = .plain) (hrefused : pipe.check reply.jsondata = .error err)
    (hn : front.length < n) :
    run answer (pipe.readReplies (fuel + 1) n) self env (front ++ reply :: rest) =
      ⟨.raised err, self, env, [], rest⟩ := by
  induction front generalizing n with
  | nil =>
      obtain ⟨n, rfl⟩ := Nat.exists_eq_succ_of_ne_zero (Nat.ne_of_gt hn)
      have hrun : run answer (pipe.reply (fuel + 1)) self env (reply :: rest) =
          ⟨.raised err, self, env, [], rest⟩ := by
        rw [run_reply_plain hreply, hrefused]
      rw [readReplies, Prog.bind_eq, List.nil_append, run_bind_raised hrun]
  | cons first front ih =>
      obtain ⟨n, rfl⟩ := Nat.exists_eq_succ_of_ne_zero (Nat.ne_of_gt (Nat.zero_lt_of_lt hn))
      rw [List.forall_mem_cons] at hplain hchecked
      have hrun : run answer (pipe.reply (fuel + 1)) self env (first :: (front ++ reply :: rest)) =
          ⟨.done first.jsondata, self, env, [], front ++ reply :: rest⟩ := by
        rw [run_reply_plain hplain.1, hchecked.1]
      rw [readReplies, Prog.bind_eq, List.cons_append, run_bind_done hrun]
      exact ih hplain.2 hchecked.2 (Nat.lt_of_succ_lt_succ hn)

/-- In a list that has refusals, the first of them. -/
theorem exists_refusal {check : Json → Except Err Unit}
    (h : ¬ ∀ reply ∈ replies, check reply.jsondata = .ok ()) :
    ∃ front reply behind err, replies = front ++ reply :: behind ∧
      (∀ reply ∈ front, check reply.jsondata = .ok ()) ∧ check reply.jsondata = .error err := by
  induction replies with
  | nil => exact absurd (by simp) h
  | cons first replies ih =>
      cases hcheck : check first.jsondata with
      | error err => exact ⟨[], first, replies, err, rfl, by simp, hcheck⟩
      | ok _ =>
          have htail : ¬ ∀ reply ∈ replies, check reply.jsondata = .ok () := by
            intro hall
            exact h (List.forall_mem_cons.mpr ⟨hcheck, hall⟩)
          obtain ⟨front, reply, behind, err, rfl, hfront, hreply⟩ := ih htail
          exact ⟨first :: front, reply, behind, err, rfl,
            List.forall_mem_cons.mpr ⟨hcheck, hfront⟩, hreply⟩

variable {serialization : Json} {resend : Prog Self Err Message Message Unit}
  {batches : List (List (String × V))}

/-- A batch that cannot be encoded ends the loop before all of it has been sent. -/
theorem run_batches_fails (hfails : ¬ ∃ messages, List.Forall₂ (pipe.Makes request self) batch messages) :
    (run answer (pipe.batches request fuel serialization resend (batch :: batches)) self env
      inbox).requests.length < batch.length := by
  obtain ⟨err, env', requests, unread, hrun, hlength⟩ : ∃ err env' requests unread,
      run answer (pipe.sendBatch request batch) self env inbox =
        ⟨.raised err, self, env', requests, unread⟩ ∧ requests.length < batch.length :=
    run_sendBatch_fails hfails
  rw [Pipeline.batches, Prog.bind_eq, run_bind_raised hrun]
  exact hlength

/-- A refusal ends the loop, with what comes behind it unread. -/
theorem run_batches_refused (hreplies : RepliesOnce pipe.toListener answer)
    (hmakes : List.Forall₂ (pipe.Makes request self) batch messages) {front behind : List Message}
    {reply : Message} {err : Err}
    (hserve : (serve answer env messages).2 = front ++ reply :: behind)
    (hfront : ∀ reply ∈ front, pipe.check reply.jsondata = .ok ())
    (hrefused : pipe.check reply.jsondata = .error err) :
    run answer (pipe.batches request (fuel + 1) serialization resend (batch :: batches)) self env [] =
      ⟨.raised err, self, (serve answer env messages).1, messages, behind⟩ := by
  have hplain : ∀ reply ∈ (serve answer env messages).2, pipe.hearing reply = .plain :=
    hreplies.hearing_serve
  have hlength : (serve answer env messages).2.length = messages.length := hreplies.length_serve messages
  rw [hserve] at hplain hlength
  rw [List.forall_mem_append, List.forall_mem_cons] at hplain
  rw [List.length_append, List.length_cons, ← hmakes.length_eq] at hlength
  rw [Pipeline.batches, Prog.bind_eq, run_bind_done (run_sendBatch_makes hmakes), List.nil_append,
    hserve, Prog.bind_eq, run_bind_raised (run_readReplies_refused hplain.1 hfront hplain.2.1 hrefused
      (by omega))]
  simp [Ended.after]

/-- Where all of a batch is granted, the loop goes on with the next. -/
theorem run_batches_granted (hreplies : RepliesOnce pipe.toListener answer)
    (hmakes : List.Forall₂ (pipe.Makes request self) batch messages)
    (hchecked : ∀ reply ∈ (serve answer env messages).2, pipe.check reply.jsondata = .ok ())
    (hsame : pipe.differs serialization (pipe.serialization self) = false) :
    run answer (pipe.batches request (fuel + 1) serialization resend (batch :: batches)) self env [] =
      (run answer (pipe.batches request (fuel + 1) serialization resend batches) self
        (serve answer env messages).1 []).after messages := by
  have hread : run answer (pipe.readReplies (fuel + 1) batch.length) self
      (serve answer env messages).1 (serve answer env messages).2 =
        ⟨.done (), self, (serve answer env messages).1, [], []⟩ := by
    have hall : run answer (pipe.readReplies (fuel + 1) (serve answer env messages).2.length) self
        (serve answer env messages).1 ((serve answer env messages).2 ++ []) =
          ⟨.done (), self, (serve answer env messages).1, [], []⟩ :=
      run_readReplies_granted hreplies.hearing_serve hchecked
    rw [hreplies.length_serve, ← hmakes.length_eq, List.append_nil] at hall
    exact hall
  rw [Pipeline.batches, Prog.bind_eq, run_bind_done (run_sendBatch_makes hmakes), List.nil_append,
    Prog.bind_eq, run_bind_done hread]
  simp [Prog.self, Prog.bind, run, hsame]

/-- One request for each variable of the batches is sent, and all is read, exactly if all
can be encoded and no reply but the last is a refusal. -/
theorem transmits_batches_iff (hreplies : RepliesOnce pipe.toListener answer)
    (hsame : pipe.differs serialization (pipe.serialization self) = false) :
    Transmits request (pipe.serialization self) (pipe.encode self) batches.flatten
        (run answer (pipe.batches request (fuel + 1) serialization resend batches) self env []) ↔
      Granted answer pipe.check request (pipe.serialization self) (pipe.encode self) env
        batches.flatten := by
  induction batches generalizing env with
  | nil => exact ⟨fun _ => ⟨[], .nil, by simp⟩, fun _ => ⟨.nil, rfl⟩⟩
  | cons batch batches ih =>
      rw [List.flatten_cons]
      by_cases hencodes : ∃ messages, List.Forall₂ (pipe.Makes request self) batch messages
      · obtain ⟨messages, hmakes⟩ := hencodes
        by_cases hchecked : ∀ reply ∈ (serve answer env messages).2,
            pipe.check reply.jsondata = .ok ()
        · rw [run_batches_granted hreplies hmakes hchecked hsame, granted_append hmakes hchecked, ← ih]
          constructor
          · intro h
            exact ⟨(carries_append hmakes).mp h.requests, h.replies⟩
          · intro h
            exact ⟨(carries_append hmakes).mpr h.requests, h.replies⟩
        · obtain ⟨front, reply, behind, err, hserve, hfront, hrefused⟩ := exists_refusal hchecked
          rw [run_batches_refused hreplies hmakes hserve hfront hrefused,
            granted_refused_iff hreplies hmakes hserve hfront hrefused]
          constructor
          · intro h
            have hlength := h.requests.length_eq
            rw [List.length_append, hmakes.length_eq, Nat.add_eq_left] at hlength
            exact ⟨h.replies, List.eq_nil_of_length_eq_zero hlength⟩
          · intro h
            refine ⟨?_, h.1⟩
            rw [h.2, List.append_nil]
            exact hmakes
      · refine iff_of_false ?_ ?_
        · intro h
          have hlength := h.requests.length_eq
          have hshort : (run answer (pipe.batches request (fuel + 1) serialization resend
              (batch :: batches)) self env []).requests.length < batch.length :=
            run_batches_fails hencodes
          rw [List.length_append] at hlength
          omega
        · intro h
          obtain ⟨all, hall, _⟩ := h
          have hfront := List.forall₂_take batch.length hall
          rw [List.take_left] at hfront
          exact hencodes ⟨_, hfront⟩

/-- The first variable of a batch is sent if it can be encoded. -/
theorem run_batches_first {kv : String × V} {bindata : Bytes}
    (hencode : pipe.encode self kv.2 = .ok bindata) :
    ∃ requests, (run answer (pipe.batches request fuel serialization resend ((kv :: batch) :: batches))
      self env inbox).requests = ⟨request kv.1 (pipe.serialization self), bindata⟩ :: requests := by
  rw [Pipeline.batches, Prog.bind_eq, run_bind, run_sendBatch_cons hencode]
  dsimp only
  cases ((run answer ((pipe.sendBatch request batch).bind fun n => .done (n + 1)) self
    (answer env ⟨request kv.1 (pipe.serialization self), bindata⟩).1
    (inbox ++ (answer env ⟨request kv.1 (pipe.serialization self), bindata⟩).2)).after
    [⟨request kv.1 (pipe.serialization self), bindata⟩]).outcome <;> exact ⟨_, rfl⟩

end Pipeline

/-! ## Windows -/

theorem windows_nil {α : Type} (step size : Nat) (hstep : 0 < step) :
    windows step size ([] : List α) = [] := by
  have hzero : (([] : List α).length + step - 1) / step = 0 :=
    Nat.div_eq_of_lt (by rw [List.length_nil]; omega)
  rw [windows, hzero]
  rfl

/-- After the first window come those of the rest. -/
theorem windows_cons {α : Type} {step : Nat} (size : Nat) (hstep : 0 < step) {l : List α}
    (hl : l ≠ []) : windows step size l = l.take size :: windows step size (l.drop step) := by
  have hpos : 0 < l.length := List.length_pos_iff.mpr hl
  have hcount : (l.length + step - 1) / step = ((l.drop step).length + step - 1) / step + 1 := by
    rw [List.length_drop]
    by_cases hle : step ≤ l.length
    · have hsub : l.length + step - 1 = l.length - step + step - 1 + step := by omega
      rw [hsub, Nat.add_div_right _ hstep]
    · have hone : (l.length + step - 1) / step = 1 :=
        Nat.div_eq_of_lt_le (by omega) (by omega)
      have hzero : (l.length - step + step - 1) / step = 0 := Nat.div_eq_of_lt (by omega)
      rw [hone, hzero]
  have hwindows : windows step size l = (List.range ((l.length + step - 1) / step)).map
      fun i => (l.drop (step * i)).take size := rfl
  rw [hwindows, hcount, List.range_succ_eq_map, List.map_cons, List.map_map, Nat.mul_zero,
    List.drop_zero, windows]
  congr 1
  refine List.map_congr_left ?_
  intro i _
  have hshift : step * (i + 1) = step + step * i := by rw [Nat.mul_succ, Nat.add_comm]
  simp only [Function.comp_apply, Nat.succ_eq_add_one, hshift, List.drop_drop]

/-- Windows that do not overlap are a partition. -/
theorem flatten_windows {α : Type} {size : Nat} (hsize : 0 < size) (l : List α) :
    (windows size size l).flatten = l := by
  induction hlength : l.length using Nat.strong_induction_on generalizing l with
  | _ n ih =>
      by_cases hl : l = []
      · subst hl
        rw [windows_nil size size hsize]
        rfl
      · have hpos : 0 < l.length := List.length_pos_iff.mpr hl
        rw [windows_cons size hsize hl, List.flatten_cons,
          ih (l.drop size).length (by rw [List.length_drop]; omega) _ rfl, List.take_append_drop]

/-- Windows that overlap by one: there is a second only for more items than the step. -/
theorem flatten_windows_short {α : Type} {n : Nat} (hn : 0 < n) {l : List α} (hshort : l.length ≤ n) :
    (windows n (n + 1) l).flatten = l := by
  by_cases hnil : l = []
  · rw [hnil, windows_nil n (n + 1) hn]
    rfl
  · rw [windows_cons (n + 1) hn hnil, List.drop_eq_nil_of_le hshort, windows_nil n (n + 1) hn,
      List.take_of_length_le (Nat.le_succ_of_le hshort)]
    simp

/-- The second window starts with the last item of the first. -/
theorem windows_overlap {α : Type} {n : Nat} (hn : 0 < n) {l : List α} (hlong : n < l.length) :
    windows n (n + 1) l = l.take (n + 1) :: (l[n] :: (l.drop (n + 1)).take n) ::
      windows n (n + 1) ((l[n] :: l.drop (n + 1)).drop n) := by
  have hnil : l ≠ [] := by
    rintro rfl
    exact absurd hlong (Nat.not_lt_zero _)
  have hnil' : l.drop n ≠ [] := by
    rw [ne_eq, List.drop_eq_nil_iff]
    exact Nat.not_le.mpr hlong
  rw [windows_cons (n + 1) hn hnil, windows_cons (n + 1) hn hnil', List.drop_eq_getElem_cons hlong,
    List.take_succ_cons]

/-- The last reply is a refusal. -/
def LastRefused (answer : Env → Message → Env × List Message) (check : Json → Except Err Unit)
    (request : String → Json → Json) (serialization : Json) (encode : V → Except Err Bytes)
    (env : Env) (kvpairs : List (String × V)) : Prop :=
  ∃ messages, List.Forall₂ (Carries request serialization encode) kvpairs messages ∧
    ∃ reply err, (serve answer env messages).2.getLast? = some reply ∧
      check reply.jsondata = .error err

namespace Pipeline

variable {answer : Env → Message → Env × List Message} {pipe : Pipeline Self Err V} {env : Env}
  {self : Self} {request : String → Json → Json} {fuel : Nat} {serialization : Json}
  {resend : Prog Self Err Message Message Unit}

/-- Once the first of two windows is granted, its last variable is sent again. -/
theorem not_transmits_granted (hreplies : RepliesOnce pipe.toListener answer)
    (hsame : pipe.differs serialization (pipe.serialization self) = false)
    (hrequest : ∀ varname varname', request varname (pipe.serialization self) =
      request varname' (pipe.serialization self) → varname = varname')
    {n : Nat} {kvpairs : List (String × V)} (hlong : n < kvpairs.length)
    (hnodup : (kvpairs.map Prod.fst).Nodup) {messages : List Message}
    (hmakes : List.Forall₂ (pipe.Makes request self) (kvpairs.take (n + 1)) messages)
    (hchecked : ∀ reply ∈ (serve answer env messages).2, pipe.check reply.jsondata = .ok ())
    (batches : List (List (String × V))) :
    ¬ Transmits request (pipe.serialization self) (pipe.encode self) kvpairs
        (run answer (pipe.batches request (fuel + 1) serialization resend (kvpairs.take (n + 1) ::
          (kvpairs[n] :: (kvpairs.drop (n + 1)).take n) :: batches)) self env []) := by
  intro h
  have hrequests := h.requests
  have hmem : kvpairs[n] ∈ kvpairs.take (n + 1) :=
    List.mem_take_iff_getElem.mpr ⟨n, by omega, rfl⟩
  obtain ⟨bindata, hbindata⟩ := encode_of_carries hmakes _ hmem
  obtain ⟨requests, hfirst⟩ := @run_batches_first _ _ _ _ answer pipe (serve answer env messages).1
    self request ((kvpairs.drop (n + 1)).take n) [] (fuel + 1) serialization resend batches kvpairs[n]
    bindata hbindata
  rw [run_batches_granted hreplies hmakes hchecked hsame, Ended.after_requests, hfirst] at hrequests
  have hrest : List.Forall₂ (pipe.Makes request self) (kvpairs.drop (n + 1))
      (⟨request kvpairs[n].1 (pipe.serialization self), bindata⟩ :: requests) := by
    rw [← carries_append hmakes, List.take_append_drop]
    exact hrequests
  have hdrop : kvpairs.drop n = kvpairs[n] :: kvpairs.drop (n + 1) := List.drop_eq_getElem_cons hlong
  -- so what comes after the first window would start with a variable of that name
  cases hnext : kvpairs.drop (n + 1) with
  | nil =>
      rw [hnext] at hrest
      cases hrest
  | cons kv _ =>
      rw [hnext] at hrest hdrop
      have hname : kvpairs[n].1 = kv.1 := hrequest _ _ (List.forall₂_cons.mp hrest).1.1
      have hdistinct : ((kvpairs.drop n).map Prod.fst).Nodup :=
        hnodup.sublist ((List.drop_sublist n kvpairs).map Prod.fst)
      rw [hdrop, List.map_cons, List.map_cons, hname] at hdistinct
      exact (List.nodup_cons.mp hdistinct).1 List.mem_cons_self

/-- Windows that overlap by one send a variable twice where there is a second window. A
refusal at the end of the first keeps the method from coming there. -/
theorem transmits_overlapping_iff (hreplies : RepliesOnce pipe.toListener answer)
    (hsame : pipe.differs serialization (pipe.serialization self) = false)
    (hrequest : ∀ varname varname', request varname (pipe.serialization self) =
      request varname' (pipe.serialization self) → varname = varname')
    {n : Nat} (hn : 0 < n) {kvpairs : List (String × V)} (hnodup : (kvpairs.map Prod.fst).Nodup) :
    Transmits request (pipe.serialization self) (pipe.encode self) kvpairs
        (run answer (pipe.batches request (fuel + 1) serialization resend (windows n (n + 1) kvpairs))
          self env []) ↔
      Granted answer pipe.check request (pipe.serialization self) (pipe.encode self) env kvpairs ∧
        (kvpairs.length ≤ n ∨ kvpairs.length = n + 1 ∧
          LastRefused answer pipe.check request (pipe.serialization self) (pipe.encode self) env
            kvpairs) := by
  by_cases hshort : kvpairs.length ≤ n
  · have hiff : Transmits request (pipe.serialization self) (pipe.encode self)
        (windows n (n + 1) kvpairs).flatten (run answer (pipe.batches request (fuel + 1) serialization
          resend (windows n (n + 1) kvpairs)) self env []) ↔
        Granted answer pipe.check request (pipe.serialization self) (pipe.encode self) env
          (windows n (n + 1) kvpairs).flatten := transmits_batches_iff hreplies hsame
    rw [flatten_windows_short hn hshort] at hiff
    rw [hiff, and_iff_left (.inl hshort)]
  · have hlong : n < kvpairs.length := Nat.lt_of_not_le hshort
    have hsplit := List.take_append_drop (n + 1) kvpairs
    have hfirst : (kvpairs.take (n + 1)).length = n + 1 := by
      rw [List.length_take]
      omega
    rw [windows_overlap hn hlong]
    by_cases hencodes : ∃ messages,
        List.Forall₂ (pipe.Makes request self) (kvpairs.take (n + 1)) messages
    · obtain ⟨messages, hmakes⟩ := hencodes
      by_cases hchecked : ∀ reply ∈ (serve answer env messages).2, pipe.check reply.jsondata = .ok ()
      · apply iff_of_false (not_transmits_granted hreplies hsame hrequest hlong hnodup hmakes hchecked _)
        intro h
        obtain ⟨_, hlength | ⟨hlength, all, hall, reply, err, hlast, hrefused⟩⟩ := h
        · exact hshort hlength
        · rw [List.take_of_length_le (Nat.le_of_eq hlength)] at hmakes
          rw [← carries_unique hmakes hall] at hlast
          have hok := hchecked reply (List.mem_of_getLast? hlast)
          rw [hrefused] at hok
          cases hok
      · obtain ⟨front, reply, behind, err, hserve, hfront, hrefused⟩ := exists_refusal hchecked
        have hgranted : Granted answer pipe.check request (pipe.serialization self)
            (pipe.encode self) env (kvpairs.take (n + 1) ++ kvpairs.drop (n + 1)) ↔
              behind = [] ∧ kvpairs.drop (n + 1) = [] :=
          granted_refused_iff hreplies hmakes hserve hfront hrefused
        rw [hsplit] at hgranted
        rw [run_batches_refused hreplies hmakes hserve hfront hrefused, hgranted]
        constructor
        · intro h
          have hlength : kvpairs.length = n + 1 := by
            rw [h.requests.length_eq, ← hmakes.length_eq, hfirst]
          have hbehind : behind = [] := h.replies
          refine ⟨⟨hbehind, List.drop_eq_nil_of_le (Nat.le_of_eq hlength)⟩,
            .inr ⟨hlength, messages, h.requests, reply, err, ?_, hrefused⟩⟩
          rw [hserve, hbehind, List.getLast?_concat]
        · intro h
          refine ⟨?_, h.1.1⟩
          rw [h.1.2, List.append_nil] at hsplit
          rw [hsplit] at hmakes
          exact hmakes
    · refine iff_of_false ?_ ?_
      · intro h
        have hlength := h.requests.length_eq
        have hpart : (run answer (pipe.batches request (fuel + 1) serialization resend
            (kvpairs.take (n + 1) :: (kvpairs[n] :: (kvpairs.drop (n + 1)).take n) ::
              windows n (n + 1) ((kvpairs[n] :: kvpairs.drop (n + 1)).drop n))) self env
            []).requests.length < (kvpairs.take (n + 1)).length := run_batches_fails hencodes
        omega
      · intro h
        obtain ⟨⟨all, hall, _⟩, _⟩ := h
        exact hencodes ⟨_, List.forall₂_take (n + 1) hall⟩

/-- A transmission in windows that do not overlap. -/
theorem transmits_iff (hreplies : RepliesOnce pipe.toListener answer)
    (hsame : pipe.differs (pipe.serialization self) (pipe.serialization self) = false) {n : Nat}
    (hn : 0 < n) (kvpairs : List (String × V)) :
    Transmits request (pipe.serialization self) (pipe.encode self) kvpairs
        (run answer (pipe.transmit request (fuel + 1) resend (windows n n kvpairs)) self env []) ↔
      Granted answer pipe.check request (pipe.serialization self) (pipe.encode self) env kvpairs := by
  have hiff : Transmits request (pipe.serialization self) (pipe.encode self)
      (windows n n kvpairs).flatten (run answer (pipe.batches request (fuel + 1)
        (pipe.serialization self) resend (windows n n kvpairs)) self env []) ↔
      Granted answer pipe.check request (pipe.serialization self) (pipe.encode self) env
        (windows n n kvpairs).flatten := transmits_batches_iff hreplies hsame
  rw [flatten_windows hn] at hiff
  exact hiff

end Pipeline

end Dime
