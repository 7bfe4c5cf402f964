import Dime.Clients.TopUp

/-!
# What the methods read

The relayed messages among those that a method reads: none, if it returns and is not one that
synchronises. One that does returns the last values of them.
-/

namespace Dime

open Dialogue

variable {Self Err Vars V α β : Type} {listener : Listener Self Err} {relayed : Message → Bool}
  {fuel rounds : Nat} {n : Int64}

/-- How a client tells replies from relayed messages: no message for the connection and no reply
that it accepts is relayed. -/
structure Distinguishes (listener : Listener Self Err) (relayed : Message → Bool) : Prop where
  aside : ∀ message f, listener.hearing message = .aside f → relayed message = false
  check : ∀ message, listener.check message.jsondata = .ok () → relayed message = false

/-- A method that reads no relayed message before it returns. -/
abbrev Spares (relayed : Message → Bool) (p : Prog Self Err Message Message α) : Prop :=
  p.Consumes fun _ read => read.filter relayed = []

namespace Spares

theorem done (a : α) : Spares relayed (.done a : Prog Self Err Message Message α) :=
  Prog.consumes_done rfl

theorem ofExcept (result : Except Err α) :
    Spares relayed (Prog.ofExcept result : Prog Self Err Message Message α) :=
  Prog.consumes_ofExcept fun _ _ => rfl

theorem bind {p : Prog Self Err Message Message α} {f : α → Prog Self Err Message Message β}
    (h : Spares relayed p) (hf : ∀ a, Spares relayed (f a)) : Spares relayed (p.bind f) := by
  refine Prog.Consumes.bind h fun a read hread => (hf a).mono fun b more hmore => ?_
  rw [List.filter_append, hread, hmore, List.append_nil]

end Spares

namespace Distinguishes

variable (h : Distinguishes listener relayed)

include h

/-- What is handed on comes behind messages for the connection. -/
theorem recv (fuel : Nat) : (listener.recv fuel).Consumes fun message read =>
    listener.hearing message = .plain ∧ read.filter relayed = [message].filter relayed := by
  induction fuel with
  | zero => exact Prog.consumes_exhausted
  | succ fuel ih =>
      intro self inbox message hdone
      cases inbox with
      | nil => cases hdone
      | cons first inbox =>
          rw [hear, Listener.run_recv_cons] at hdone ⊢
          cases hhearing : listener.hearing first with
          | plain =>
              simp only [hhearing] at hdone
              cases hdone
              exact ⟨[message], rfl, hhearing, rfl⟩
          | aside f =>
              simp only [hhearing] at hdone ⊢
              obtain ⟨read, hinbox, hplain, hread⟩ := ih (f self) inbox message hdone
              refine ⟨first :: read, congrArg (first :: ·) hinbox, hplain, ?_⟩
              rw [List.filter_cons_of_neg (Bool.eq_false_iff.mp (h.aside first f hhearing)), hread]
          | failed err =>
              simp only [hhearing] at hdone
              cases hdone

theorem reply : Spares relayed (listener.reply fuel) := by
  refine Prog.Consumes.bind (h.recv fuel) fun message read hread => ?_
  refine Prog.Consumes.bind (R := fun _ more => more = [] ∧ relayed message = false)
    (Prog.consumes_ofExcept fun _ hcheck => ⟨rfl, h.check message hcheck⟩) fun _ more hmore => ?_
  obtain ⟨rfl, hstatus⟩ := hmore
  refine Prog.consumes_done ?_
  rw [List.append_nil, List.append_nil, hread.2, List.filter_cons_of_neg (Bool.eq_false_iff.mp hstatus),
    List.filter_nil]

theorem call (request : Message) : Spares relayed (listener.call fuel request) :=
  Prog.consumes_send h.reply

omit h in
theorem sendBatch (pipe : Pipeline Self Err V) (request : String → Json → Json)
    (batch : List (String × V)) : Spares relayed (pipe.sendBatch request batch) := by
  induction batch with
  | nil => exact .done 0
  | cons kv rest ih =>
      refine Prog.consumes_get fun self => ?_
      refine (Spares.ofExcept _).bind fun bindata => ?_
      exact Prog.consumes_send (ih.bind fun n => .done (n + 1))

end Distinguishes

section Transmitting

variable (pipe : Pipeline Self Err V) {request : String → Json → Json}

theorem Distinguishes.readReplies (h : Distinguishes pipe.toListener relayed) (n : Nat) :
    Spares relayed (pipe.readReplies fuel n) := by
  induction n with
  | zero => exact .done ()
  | succ n ih => exact h.reply.bind fun _ => ih

theorem Distinguishes.transmit (h : Distinguishes pipe.toListener relayed)
    {resend : Prog Self Err Message Message Unit} (hresend : Spares relayed resend)
    (kvs : List (List (String × V))) : Spares relayed (pipe.transmit request fuel resend kvs) := by
  refine Prog.consumes_get fun self => ?_
  change Spares relayed (pipe.batches request fuel (pipe.serialization self) resend kvs)
  generalize pipe.serialization self = serialization
  induction kvs with
  | nil => exact .done ()
  | cons batch rest ih =>
      refine (Distinguishes.sendBatch pipe request batch).bind fun n => ?_
      refine (readReplies pipe h n).bind fun _ => Prog.consumes_get fun self' => ?_
      change Spares relayed (if pipe.differs serialization (pipe.serialization self') then resend
        else pipe.batches request fuel serialization resend rest)
      split
      · exact hresend
      · exact ih

end Transmitting

/-! ## Synchronising -/

variable {decoders : Decoders V} {embed : List (String × V) → Vars} {carried : Message → Prop}
  {valid : String → Prop} {judge : Message → Judgement Err Vars}

/-- The loop puts in the variables of the relayed messages that it reads. -/
theorem Judges.collect_consumes (h : Judges listener judge decoders embed carried valid)
    (hdistinguishes : Distinguishes listener relayed)
    (hstops : ∀ message, relayed message = false →
      judge message = .finish ∨ ∃ err, judge message = .fail err) (vars : Vars) (m : Int) :
    (collect (listener.recv fuel) judge rounds vars m).Consumes fun result read =>
      ∀ entries, vars = embed entries → Fits decoders carried valid (read.filter relayed) →
        result.1 = embed (collected decoders entries (read.filter relayed)) := by
  induction rounds generalizing vars m with
  | zero => exact Prog.consumes_exhausted
  | succ rounds ih =>
      rw [collect]
      refine Prog.Consumes.bind (hdistinguishes.recv fuel) fun message read hread => ?_
      obtain ⟨hplain, hread⟩ := hread
      by_cases hrelayed : relayed message = true
      · -- what the loop does with a message that it can deal with
        have hfirst : read.filter relayed = [message] := by
          rw [hread, List.filter_cons_of_pos hrelayed, List.filter_nil]
        have hspec : ∀ more : List Message,
            Fits decoders carried valid ((read ++ more).filter relayed) →
            Passes listener judge message ∧
              ∀ entries, kept listener judge message (embed entries) =
                embed (put decoders entries message) := by
          intro more hfits
          have hmem : message ∈ (read ++ more).filter relayed := by
            rw [List.filter_append, hfirst]
            exact List.mem_cons_self
          exact ⟨(h.spec hfits hmem).1, (h.spec hfits hmem).2.2.2⟩
        have hmore : ∀ more : List Message, (read ++ more).filter relayed =
            message :: more.filter relayed := by
          intro more
          rw [List.filter_append, hfirst]
          rfl
        cases hjudge : judge message with
        | finish =>
            refine Prog.consumes_done ?_
            rintro entries rfl hfits
            have hpasses := (hspec [] hfits).1
            simp [Passes, hplain, hjudge] at hpasses
        | fail err => exact Prog.consumes_raise err
        | skip =>
            refine (ih vars (m - 1)).mono fun result more hresult entries hvars hfits => ?_
            obtain ⟨_, hkept⟩ := hspec more hfits
            have hput : vars = embed (put decoders entries message) := by
              rw [← hkept, kept, hplain, hjudge, hvars]
            rw [hmore] at hfits ⊢
            exact hresult _ hput (hfits.mono fun other => List.mem_cons_of_mem _)
        | keep f =>
            refine (ih (f vars) m).mono fun result more hresult entries hvars hfits => ?_
            obtain ⟨_, hkept⟩ := hspec more hfits
            have hput : f vars = embed (put decoders entries message) := by
              rw [← hkept, kept, hplain, hjudge, hvars]
            rw [hmore] at hfits ⊢
            exact hresult _ hput (hfits.mono fun other => List.mem_cons_of_mem _)
      · have hnone : read.filter relayed = [] := by
          rw [hread, List.filter_cons_of_neg hrelayed, List.filter_nil]
        rcases hstops message (Bool.eq_false_iff.mpr hrelayed) with hjudge | ⟨err, hjudge⟩
        · rw [hjudge]
          refine Prog.consumes_done ?_
          rintro entries rfl _
          rw [List.append_nil, hnone]
          rfl
        · rw [hjudge]
          exact Prog.consumes_raise err

/-- Variables with the last values of some messages. -/
def HasValues (decoders : Decoders V) (embed : List (String × V) → Vars) (before : List (String × V))
    (messages : List Message) (vars : Vars) : Prop :=
  ∃ entries, vars = embed entries ∧ (entries.map Prod.fst).Nodup ∧
    ∀ varname, Association.lookup varname entries =
      (lastValue decoders messages varname).or (Association.lookup varname before)

/-- A method that synchronises, in as many rounds as it takes, returns the last values of the
relayed messages that it reads. -/
theorem Judges.sync_consumes {sync : Nat → Int64 → Prog Self Err Message Message Vars}
    {combine : Vars → Vars → Prog Self Err Message Message Vars}
    (h : Judges listener judge decoders embed carried valid)
    (hresyncs : Resyncs listener judge sync (embed []) combine)
    (hcombine : ∀ entries more, combine (embed entries) (embed more) =
      .done (embed (Association.update entries more)))
    (hdistinguishes : Distinguishes listener relayed)
    (hstops : ∀ message, relayed message = false →
      judge message = .finish ∨ ∃ err, judge message = .fail err) (n : Int64) :
    (sync fuel n).Consumes fun vars read => Fits decoders carried valid (read.filter relayed) →
      HasValues decoders embed [] (read.filter relayed) vars := by
  induction fuel generalizing n with
  | zero =>
      rw [hresyncs.zero]
      exact Prog.consumes_exhausted
  | succ fuel ih =>
      rw [hresyncs.succ]
      refine Prog.consumes_send ?_
      change ((collect (listener.recv fuel) judge fuel (embed []) n.toInt).bind fun result =>
        if 0 < n.toInt ∧ result.2 < n.toInt then
          (sync fuel (Int64.ofInt (n.toInt - result.2))).bind (combine result.1)
        else .done result.1).Consumes _
      refine Prog.Consumes.bind (h.collect_consumes hdistinguishes hstops (embed []) n.toInt)
        fun result read hread => ?_
      obtain ⟨vars, m⟩ := result
      have hvars : Fits decoders carried valid (read.filter relayed) →
          vars = embed (collected decoders [] (read.filter relayed)) := hread [] rfl
      dsimp only
      split
      · refine Prog.Consumes.bind (ih _) fun more read' hread' => ?_
        rcases hresyncs.combine vars more with ⟨vars', heq⟩ | ⟨err, heq⟩
        · rw [heq]
          refine Prog.consumes_done fun hfits => ?_
          rw [List.append_nil, List.filter_append] at hfits ⊢
          have hfirst : Fits decoders carried valid (read.filter relayed) :=
            hfits.mono fun _ => List.mem_append_left _
          have hsecond : Fits decoders carried valid (read'.filter relayed) :=
            hfits.mono fun _ => List.mem_append_right _
          obtain ⟨entries, rfl, hnodup, hvalues⟩ := hread' hsecond
          rw [hvars hfirst, hcombine] at heq
          cases heq
          refine ⟨_, rfl, Association.nodup_update (nodup_collected (by simp) _), fun varname => ?_⟩
          rw [Association.lookup_update hnodup, hvalues, lookup_collected hfirst.decodes,
            lastValue_append hsecond.decodes, Association.lookup_nil, Option.or_none, Option.or_none,
            Option.or_none]
        · rw [heq]
          exact Prog.consumes_raise err
      · refine Prog.consumes_done fun hfits => ?_
        rw [List.append_nil] at hfits ⊢
        refine ⟨_, hvars hfits, nodup_collected (by simp) _, fun varname => ?_⟩
        rw [lookup_collected hfits.decodes]

end Dime
