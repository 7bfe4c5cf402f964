import Dime.Clients.Heeding
import Dime.Clients.Outstanding
import Dime.Clients.Transmission

/-!
# Batches, and the messages that have arrived

What a client that transmits in batches reads of the messages that have arrived so far,
and what it has sent then. Its replies may be mixed with messages for the connection.
-/

namespace Dime

open Dialogue

variable {Self Err V : Type}

namespace Listener

variable (listener : Listener Self Err)

/-- What some messages do to the state of the client. -/
def effects (messages : List Message) (self : Self) : Self :=
  messages.foldl (fun self message => listener.effect message self) self

/-- How many messages are handed on. -/
def plains (messages : List Message) : Nat := (messages.filter listener.isPlain).length

variable {listener} {self : Self} {message : Message} {messages more inbox : List Message}
  {fuel n : Nat}

theorem isPlain_iff : listener.isPlain message = true ↔ listener.hearing message = .plain := by
  unfold isPlain
  cases listener.hearing message <;> simp

@[simp] theorem effects_nil : listener.effects [] self = self := rfl

theorem effects_append :
    listener.effects (messages ++ more) self = listener.effects more (listener.effects messages self) :=
  List.foldl_append

@[simp] theorem plains_nil : listener.plains [] = 0 := rfl

theorem plains_append :
    listener.plains (messages ++ more) = listener.plains messages + listener.plains more := by
  simp [plains]

/-- The messages up to one that is handed on. -/
theorem exists_plains (inbox : List Message) (h : n ≤ listener.plains inbox) :
    ∃ front back, inbox = front ++ back ∧ listener.plains front = n := by
  induction inbox generalizing n with
  | nil =>
      obtain rfl : n = 0 := Nat.le_zero.mp h
      exact ⟨[], [], rfl, rfl⟩
  | cons first inbox ih =>
      by_cases hplain : listener.isPlain first = true
      · cases n with
        | zero => exact ⟨[], first :: inbox, rfl, rfl⟩
        | succ n =>
            rw [plains, List.filter_cons_of_pos hplain, List.length_cons, Nat.add_le_add_iff_right] at h
            obtain ⟨front, back, rfl, hfront⟩ := ih h
            refine ⟨first :: front, back, rfl, ?_⟩
            rw [plains, List.filter_cons_of_pos hplain, List.length_cons]
            exact congrArg Nat.succ hfront
      · rw [plains, List.filter_cons_of_neg hplain] at h
        obtain ⟨front, back, rfl, hfront⟩ := ih h
        refine ⟨first :: front, back, rfl, ?_⟩
        rw [plains, List.filter_cons_of_neg hplain]
        exact hfront

/-- Messages have been read from the front, so many of which were handed on. -/
def Advances {α : Type} (listener : Listener Self Err) (n : Nat) (self : Self)
    (inbox : List Message) (ended : Ended Unit Self Err Message Message α) : Prop :=
  ∃ read, inbox = read ++ ended.unread ∧ ended.self = listener.effects read self ∧
    listener.plains read = n

theorem Advances.trans {α β : Type} {first : Ended Unit Self Err Message Message α}
    {second : Ended Unit Self Err Message Message β} {m : Nat}
    (h : listener.Advances n self inbox first)
    (h' : listener.Advances m first.self first.unread second) :
    listener.Advances (n + m) self inbox second := by
  obtain ⟨read, hinbox, hself, hcount⟩ := h
  obtain ⟨read', hunread, hself', hcount'⟩ := h'
  refine ⟨read ++ read', ?_, ?_, ?_⟩
  · rw [List.append_assoc, ← hunread, ← hinbox]
  · rw [effects_append, ← hself, ← hself']
  · rw [plains_append, hcount, hcount']

/-- A message that is handed on comes behind messages for the connection. -/
theorem done_recv (h : (hear (listener.recv fuel) self inbox).outcome = .done message) :
    listener.Advances 1 self inbox (hear (listener.recv fuel) self inbox) ∧
      (hear (listener.recv fuel) self inbox).requests = [] := by
  induction fuel generalizing self inbox with
  | zero => cases h
  | succ fuel ih =>
      cases inbox with
      | nil => cases h
      | cons first inbox =>
          rw [hear, run_recv_cons] at h ⊢
          cases hhearing : listener.hearing first with
          | plain =>
              have hplain : listener.isPlain first = true := isPlain_iff.mpr hhearing
              refine ⟨⟨[first], rfl, ?_, by simp [plains, hplain]⟩, rfl⟩
              simp [effects, effect, hhearing]
          | aside f =>
              simp only [hhearing] at h ⊢
              obtain ⟨⟨read, hinbox, hself, hcount⟩, hrequests⟩ := ih h
              have hplain : ¬ listener.isPlain first = true := by simp [isPlain_iff, hhearing]
              refine ⟨⟨first :: read, congrArg (first :: ·) hinbox, ?_, ?_⟩, hrequests⟩
              · rw [hself]
                simp [effects, effect, hhearing]
              · rw [plains, List.filter_cons_of_neg hplain]
                exact hcount
          | failed err =>
              simp only [hhearing] at h
              cases h

/-- So does a reply. -/
theorem done_reply {jsondata : Json}
    (h : (hear (listener.reply fuel) self inbox).outcome = .done jsondata) :
    listener.Advances 1 self inbox (hear (listener.reply fuel) self inbox) ∧
      (hear (listener.reply fuel) self inbox).requests = [] := by
  obtain ⟨message, hmessage, heq⟩ := done_of_bind h
  obtain ⟨⟨read, hinbox, hself, hcount⟩, hrequests⟩ := done_recv hmessage
  have hreply : hear (listener.reply fuel) self inbox = _ := heq
  rw [hreply] at h ⊢
  cases hcheck : listener.check message.jsondata with
  | error err =>
      simp [hcheck, Prog.ofExcept, Prog.bind, run] at h
  | ok _ =>
      simp only [Prog.bind_eq, Prog.ofExcept, Prog.bind, run, Prog.pure_eq]
      exact ⟨⟨read, hinbox, hself, hcount⟩, by simp [hrequests]⟩

/-! ## Messages that change nothing -/

/-- The messages are accepted replies, and messages for the connection that leave the client
as it is. -/
def Calm (listener : Listener Self Err) (self : Self) (inbox : List Message) : Prop :=
  ∀ message ∈ inbox,
    (listener.hearing message = .plain ∧ listener.check message.jsondata = .ok ()) ∨
      ∃ f, listener.hearing message = .aside f ∧ f self = self

namespace Calm

theorem behind {front rest : List Message} (h : listener.Calm self (front ++ rest)) :
    listener.Calm self rest :=
  fun message hmem => h message (List.mem_append_right _ hmem)

theorem recv (h : listener.Calm self inbox) (hfuel : inbox.length < fuel) :
    (listener.plains inbox = 0 ∧ (hear (listener.recv fuel) self inbox).outcome = .waiting ∧
      (hear (listener.recv fuel) self inbox).requests = []) ∨
    ∃ message front rest, inbox = front ++ rest ∧ listener.plains front = 1 ∧
      listener.check message.jsondata = .ok () ∧
      hear (listener.recv fuel) self inbox = ⟨.done message, self, (), [], rest⟩ := by
  induction inbox generalizing fuel with
  | nil =>
      obtain ⟨fuel, rfl⟩ := Nat.exists_eq_succ_of_ne_zero (Nat.ne_of_gt hfuel)
      exact .inl ⟨rfl, rfl, rfl⟩
  | cons first inbox ih =>
      obtain ⟨fuel, rfl⟩ := Nat.exists_eq_succ_of_ne_zero (Nat.ne_of_gt (Nat.zero_lt_of_lt hfuel))
      obtain ⟨hfirst, hrest⟩ := List.forall_mem_cons.mp h
      rcases hfirst with ⟨hplain, hcheck⟩ | ⟨f, haside, hf⟩
      · right
        refine ⟨first, [first], inbox, rfl, ?_, hcheck, run_recv_plain hplain⟩
        simp [plains, isPlain_iff, hplain]
      · have hnot : ¬ listener.isPlain first = true := by simp [isPlain_iff, haside]
        rw [hear, run_recv_aside haside, hf, plains, List.filter_cons_of_neg hnot]
        rcases ih hrest (Nat.lt_of_succ_lt_succ hfuel) with hwaits | hreads
        · exact .inl hwaits
        · obtain ⟨message, front, rest, rfl, hfront, hcheck, hrun⟩ := hreads
          refine .inr ⟨message, first :: front, rest, rfl, ?_, hcheck, hrun⟩
          rw [plains, List.filter_cons_of_neg hnot]
          exact hfront

/-- Either a reply is read, or there is none. -/
theorem reply (h : listener.Calm self inbox) (hfuel : inbox.length < fuel) :
    (listener.plains inbox = 0 ∧ (hear (listener.reply fuel) self inbox).outcome = .waiting ∧
      (hear (listener.reply fuel) self inbox).requests = []) ∨
    ∃ jsondata front rest, inbox = front ++ rest ∧ listener.plains front = 1 ∧
      hear (listener.reply fuel) self inbox = ⟨.done jsondata, self, (), [], rest⟩ := by
  rcases h.recv hfuel with ⟨hnone, hwaiting, hrequests⟩ |
    ⟨message, front, rest, hinbox, hfront, hcheck, hrun⟩
  · left
    refine ⟨hnone, ?_⟩
    rw [Listener.reply, Prog.bind_eq, hear, run_bind]
    simp only [hwaiting]
    exact ⟨trivial, hrequests⟩
  · right
    refine ⟨message.jsondata, front, rest, hinbox, hfront, ?_⟩
    rw [Listener.reply, Prog.bind_eq, hear, run_bind_done hrun]
    simp [hcheck, Prog.ofExcept, Prog.bind, run]

end Calm

end Listener

namespace Pipeline

variable {pipe : Pipeline Self Err V} {self : Self} {inbox messages : List Message} {fuel n : Nat}
  {request : String → Json → Json}

theorem serve_silent (messages : List Message) : serve silent () messages = ((), []) := by
  induction messages with
  | nil => rfl
  | cons message messages ih => simp [serve, silent, ih]

/-- A batch is sent without a look at what has arrived. -/
theorem hear_sendBatch {batch : List (String × V)}
    (hmakes : List.Forall₂ (pipe.Makes request self) batch messages) :
    hear (pipe.sendBatch request batch) self inbox =
      ⟨.done batch.length, self, (), messages, inbox⟩ := by
  rw [hear, run_sendBatch_makes hmakes, serve_silent, List.append_nil]

/-- Either so many replies are read, or there are fewer. -/
theorem calm_readReplies (h : pipe.Calm self inbox) (hfuel : inbox.length < fuel) :
    (pipe.plains inbox < n ∧ (hear (pipe.readReplies fuel n) self inbox).outcome = .waiting ∧
      (hear (pipe.readReplies fuel n) self inbox).requests = []) ∨
    ∃ front rest, inbox = front ++ rest ∧ pipe.plains front = n ∧
      hear (pipe.readReplies fuel n) self inbox = ⟨.done (), self, (), [], rest⟩ := by
  induction n generalizing inbox with
  | zero => exact .inr ⟨[], inbox, rfl, rfl, rfl⟩
  | succ n ih =>
      rw [readReplies, Prog.bind_eq]
      rcases h.reply hfuel with ⟨hnone, hwaiting, hrequests⟩ |
        ⟨jsondata, front, rest, rfl, hfront, hrun⟩
      · left
        rw [hnone, hear, run_bind]
        simp only [hwaiting]
        exact ⟨Nat.succ_pos n, trivial, hrequests⟩
      · rw [hear, run_bind_done hrun, Ended.after_nil, Listener.plains_append, hfront, Nat.add_comm 1,
          Nat.add_lt_add_iff_right]
        rcases ih h.behind (lt_of_le_of_lt (by simp) hfuel) with hwaits | hreads
        · exact .inl hwaits
        · obtain ⟨more, rest, rfl, hmore, hrun'⟩ := hreads
          refine .inr ⟨front ++ more, rest, (List.append_assoc _ _ _).symm, ?_, hrun'⟩
          rw [Listener.plains_append, hfront, hmore, Nat.add_comm]

/-- The loop sends a batch, reads the replies, and compares. -/
theorem batches_cons {serialization : Json} {resend : Prog Self Err Message Message Unit}
    {batch : List (String × V)} {bs : List (List (String × V))}
    (hmakes : List.Forall₂ (pipe.Makes request self) batch messages) :
    hear (pipe.batches request fuel serialization resend (batch :: bs)) self inbox =
      (hear ((pipe.readReplies fuel messages.length).bind fun _ => .get fun self =>
        if pipe.differs serialization (pipe.serialization self) then resend
        else pipe.batches request fuel serialization resend bs) self inbox).after messages := by
  rw [batches, Prog.bind_eq, hear, run_bind_done (hear_sendBatch hmakes), hmakes.length_eq]
  rfl

/-- Where nothing changes the client, it sends one request for each variable, as long as there
are replies to its batches. -/
theorem calm_batches (hsame : ∀ serialization, pipe.differs serialization serialization = false)
    {resend : Prog Self Err Message Message Unit} {bs : List (List (String × V))}
    (hmakes : List.Forall₂ (pipe.Makes request self) bs.flatten messages)
    (h : pipe.Calm self inbox) (hfuel : inbox.length < fuel) :
    let ended := hear (pipe.batches request fuel (pipe.serialization self) resend bs) self inbox
    (pipe.plains inbox < messages.length ∧ ended.outcome = .waiting ∧
      pipe.plains inbox < ended.requests.length) ∨
    ∃ front rest, inbox = front ++ rest ∧ pipe.plains front = messages.length ∧
      ended = ⟨.done (), self, (), messages, rest⟩ := by
  induction bs generalizing inbox messages with
  | nil =>
      cases hmakes
      exact .inr ⟨[], inbox, rfl, rfl, rfl⟩
  | cons batch bs ih =>
      have hbatch := List.forall₂_take batch.length hmakes
      have hrest := List.forall₂_drop batch.length hmakes
      rw [List.flatten_cons, List.take_left] at hbatch
      rw [List.flatten_cons, List.drop_left] at hrest
      have hlength := congrArg List.length (List.take_append_drop batch.length messages)
      rw [List.length_append] at hlength
      intro ended
      have hended : ended = _ := batches_cons hbatch
      rcases pipe.calm_readReplies h hfuel (n := (messages.take batch.length).length) with
        ⟨hfew, hwaiting, hrequests⟩ | ⟨front, rest, rfl, hfront, hrun⟩
      · left
        rw [hended, hear, run_bind]
        simp only [hwaiting, Ended.after_outcome, Ended.after_requests, hrequests, List.append_nil]
        exact ⟨by omega, trivial, hfew⟩
      · have hnext : ended = (hear (pipe.batches request fuel (pipe.serialization self) resend bs)
            self rest).after (messages.take batch.length) := by
          rw [hended, hear, run_bind_done hrun, Ended.after_nil, run, hsame,
            if_neg Bool.false_ne_true]
        have hbound : rest.length < fuel := lt_of_le_of_lt (by simp) hfuel
        rw [hnext, Listener.plains_append, hfront]
        rcases ih hrest h.behind hbound with ⟨hfew, hwaiting, hsent⟩ | ⟨more, rest, rfl, hmore, hended'⟩
        · left
          rw [Ended.after_outcome, Ended.after_requests, List.length_append]
          exact ⟨by omega, hwaiting, by omega⟩
        · right
          refine ⟨front ++ more, rest, (List.append_assoc _ _ _).symm, ?_, ?_⟩
          · rw [Listener.plains_append]
            omega
          · rw [hended', Ended.after, List.take_append_drop]

/-! ## Transmissions that are done -/

theorem done_readReplies (h : (hear (pipe.readReplies fuel n) self inbox).outcome = .done ()) :
    pipe.Advances n self inbox (hear (pipe.readReplies fuel n) self inbox) ∧
      (hear (pipe.readReplies fuel n) self inbox).requests = [] := by
  induction n generalizing self inbox with
  | zero => exact ⟨⟨[], rfl, rfl, rfl⟩, rfl⟩
  | succ n ih =>
      obtain ⟨jsondata, hreply, heq⟩ := done_of_bind h
      obtain ⟨hfirst, hsilent⟩ := Listener.done_reply hreply
      have hrest : hear (pipe.readReplies fuel (n + 1)) self inbox = _ := heq
      rw [hrest] at h ⊢
      obtain ⟨hadvances, hrequests⟩ := ih h
      rw [Nat.add_comm n 1]
      refine ⟨hfirst.trans hadvances, ?_⟩
      rw [Ended.after_requests, hrequests, List.append_nil]
      exact hsilent

variable (pipe self) in
/-- A loop that is done has read a reply for each request of its own, with the client as it was
or found changed at the end of a batch; then it has sent again. -/
theorem done_batches {serialization : Json} {resend : Prog Self Err Message Message Unit}
    {bs : List (List (String × V))}
    (hkeeps : ∀ read, read <+: inbox →
      pipe.differs serialization (pipe.serialization (pipe.effects read self)) = false →
      pipe.effects read self = self)
    (h : (hear (pipe.batches request fuel serialization resend bs) self inbox).outcome = .done ()) :
    ∃ front rest sent read back, bs = front ++ rest ∧
      List.Forall₂ (pipe.Makes request self) front.flatten sent ∧ inbox = read ++ back ∧
      pipe.plains read = sent.length ∧
      ((rest = [] ∧ pipe.effects read self = self ∧
          hear (pipe.batches request fuel serialization resend bs) self inbox =
            ⟨.done (), self, (), sent, back⟩) ∨
        (pipe.differs serialization (pipe.serialization (pipe.effects read self)) = true ∧
          hear (pipe.batches request fuel serialization resend bs) self inbox =
            (hear resend (pipe.effects read self) back).after sent)) := by
  induction bs generalizing inbox with
  | nil => exact ⟨[], [], [], [], inbox, rfl, .nil, rfl, rfl, .inl ⟨rfl, rfl, rfl⟩⟩
  | cons batch bs ih =>
      have hencoded : ∃ messages, List.Forall₂ (pipe.Makes request self) batch messages := by
        by_contra hfails
        obtain ⟨err, env, requests, unread, hrun, _⟩ : ∃ err env requests unread,
            hear (pipe.sendBatch request batch) self inbox =
              ⟨.raised err, self, env, requests, unread⟩ ∧ requests.length < batch.length :=
          run_sendBatch_fails hfails
        rw [batches, Prog.bind_eq, hear, run_bind_raised hrun] at h
        cases h
      obtain ⟨sent, hsent⟩ := hencoded
      rw [batches_cons hsent, Ended.after_outcome] at h
      obtain ⟨_, hreplies, heq⟩ := done_of_bind h
      obtain ⟨⟨read, hinbox, hself, hcount⟩, hsilent⟩ := done_readReplies hreplies
      generalize (hear (pipe.readReplies fuel sent.length) self inbox).unread = back at hinbox heq
      subst hinbox
      have hended : hear (pipe.batches request fuel serialization resend (batch :: bs)) self
          (read ++ back) = (hear (if pipe.differs serialization (pipe.serialization
            (pipe.effects read self)) then resend
          else pipe.batches request fuel serialization resend bs) (pipe.effects read self)
            back).after sent := by
        rw [batches_cons hsent, hear, heq, hsilent, Ended.after_nil, hself, run]
      rw [hear, heq, hsilent, Ended.after_nil, hself, run] at h
      rw [hended]
      by_cases hdiffers : pipe.differs serialization (pipe.serialization (pipe.effects read self)) =
          true
      · rw [if_pos hdiffers]
        exact ⟨[batch], bs, sent, read, back, rfl, by simpa using hsent, rfl, hcount,
          .inr ⟨hdiffers, rfl⟩⟩
      · have hsame := hkeeps read (List.prefix_append read back) (Bool.eq_false_iff.mpr hdiffers)
        rw [if_neg hdiffers, hsame] at h ⊢
        have hbehind : ∀ more, more <+: back →
            pipe.differs serialization (pipe.serialization (pipe.effects more self)) = false →
            pipe.effects more self = self := by
          intro more hmore hunchanged
          have hall := hkeeps (read ++ more) ((List.prefix_append_right_inj read).mpr hmore)
          rw [Listener.effects_append, hsame] at hall
          exact hall hunchanged
        obtain ⟨front, rest, sent', read', back', rfl, hmakes, rfl, hcount', hend⟩ := ih hbehind h
        refine ⟨batch :: front, rest, sent ++ sent', read ++ read', back', rfl,
          List.rel_append hsent hmakes, (List.append_assoc _ _ _).symm, ?_, ?_⟩
        · rw [Listener.plains_append, hcount, hcount', List.length_append]
        · rw [Listener.effects_append, hsame]
          rcases hend with ⟨hrest, hsame', hdone⟩ | ⟨hchanged, hagain⟩
          · exact .inl ⟨hrest, hsame', by rw [hdone]; rfl⟩
          · exact .inr ⟨hchanged, by rw [hagain, Ended.after_after]⟩

end Pipeline

end Dime
