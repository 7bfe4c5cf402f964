import Dime.Foundation.Association
import Dime.Clients.Relays

/-!
# Collecting the first variables

What a `sync_r` returns for a queue of variables, each in some serialization, and what
it takes from the queue. A method that asks again for as many messages as it passed
over collects the first variables that it supports.
-/

namespace Dime

open Dialogue

variable {V : Type}

/-- What a client makes of binary data in a serialization, if it supports it. -/
abbrev Decoders (V : Type) := String → Option (Bytes → Option V)

/-- The text in a field of a message. -/
def text (message : Message) (field : String) : String :=
  match message.jsondata.get? field with
  | some (.string s) => s
  | _ => ""

/-- A message that carries a variable in some serialization. -/
structure IsVariable (message : Message) : Prop where
  status : message.jsondata.get? "status" = none
  varname : message.jsondata.get? "varname" = some (.string (text message "varname"))
  serialization :
    message.jsondata.get? "serialization" = some (.string (text message "serialization"))

def supports (decoders : Decoders V) (message : Message) : Bool :=
  (decoders (text message "serialization")).isSome

/-- The value that a message carries, for a client that supports its serialization. -/
def valueOf (decoders : Decoders V) (message : Message) : Option V :=
  (decoders (text message "serialization")).bind fun loads => loads message.bindata

/-- The messages of a queue up to the `n`-th of a kind, or all of them. -/
def upTo {α : Type} (p : α → Bool) : Nat → List α → List α
  | 0, _ => []
  | _ + 1, [] => []
  | n + 1, a :: queue => a :: upTo p (if p a then n else n + 1) queue

/-- The messages that a `sync_r` is to look at. -/
def wanted (decoders : Decoders V) (queue : List Message) (n : Int64) : List Message :=
  if n.toInt < 0 then queue else upTo (supports decoders) n.toInt.toNat queue

/-- The value of the last variable of that name in a supported serialization. -/
def lastValue (decoders : Decoders V) (messages : List Message) (varname : String) : Option V :=
  (messages.reverse.find? fun message =>
    supports decoders message && decide (text message "varname" = varname)).bind (valueOf decoders)

/-- A `sync_r` that has returned the last values of the messages that it is to look at, and
has removed nothing behind the `n`-th variable that is supported. -/
structure Collects {Env Self Err Vars : Type} (decoders : Decoders V)
    (embed : List (String × V) → Vars) (queue : Env → List Message) (env : Env) (n : Int64)
    (ended : Ended Env Self Err Message Message Vars) : Prop where
  returns : ∃ entries, ended.outcome = .done (embed entries) ∧ (entries.map Prod.fst).Nodup ∧
    ∀ varname, Association.lookup varname entries =
      lastValue decoders (wanted decoders (queue env) n) varname
  leaves : 0 < n.toInt → n.toInt ≤ (queue env).countP (supports decoders) →
    ∃ taken, taken <+: wanted decoders (queue env) n ∧ queue env = taken ++ queue ended.env

/-! ## The first of a kind -/

section

variable {α : Type} {p : α → Bool}

@[simp] theorem upTo_nil (n : Nat) : upTo p n [] = [] := by cases n <;> rfl

@[simp] theorem upTo_zero (queue : List α) : upTo p 0 queue = [] := by rw [upTo]

/-- To find `n` of a kind, look at `n`, and then go on for those that are not. -/
theorem upTo_eq (n : Nat) (queue : List α) :
    upTo p n queue =
      queue.take n ++ upTo p ((queue.take n).countP fun a => !p a) (queue.drop n) := by
  have hmore : ∀ (n k : Nat) (queue : List α), upTo p (n + k) queue =
      queue.take n ++ upTo p ((queue.take n).countP (fun a => !p a) + k) (queue.drop n) := by
    intro n
    induction n with
    | zero => simp
    | succ n ih =>
        intro k queue
        cases queue with
        | nil => simp
        | cons a queue =>
            rw [Nat.add_right_comm, upTo, List.take_succ_cons, List.drop_succ_cons, List.cons_append,
              List.countP_cons]
            by_cases hp : p a = true
            · simp [hp, ih]
            · have hskip : n + k + 1 = n + (k + 1) := rfl
              have hcount : ∀ m, m + 1 + k = m + (k + 1) := fun m => by omega
              simp [hp, hskip, ih, hcount]
  exact hmore n 0 queue

theorem upTo_initial (n : Nat) (queue : List α) : upTo p n queue <+: queue := by
  induction queue generalizing n with
  | nil => simp
  | cons a queue ih =>
      cases n with
      | zero => simp
      | succ n =>
          rw [upTo, List.cons_prefix_cons]
          exact ⟨rfl, ih _⟩

/-- If the next `n` are all of the kind, these are the ones. -/
theorem upTo_of_forall {n : Nat} {queue : List α} (h : ∀ a ∈ queue.take n, p a = true) :
    upTo p n queue = queue.take n := by
  have hcount : (queue.take n).countP (fun a => !p a) = 0 := by
    rw [List.countP_eq_zero]
    intro a ha
    simp [h a ha]
  rw [upTo_eq, hcount, upTo_zero, List.append_nil]

end

/-! ## The last values -/

variable {decoders : Decoders V}

/-- Every message that is supported can be decoded. -/
def Decodes (decoders : Decoders V) (messages : List Message) : Prop :=
  ∀ message ∈ messages, supports decoders message = true → (valueOf decoders message).isSome

theorem Decodes.mono {messages more : List Message} (h : Decodes decoders messages)
    (hsubset : ∀ message ∈ more, message ∈ messages) : Decodes decoders more :=
  fun message hmem => h message (hsubset message hmem)

theorem lastValue_append {front back : List Message} (hback : Decodes decoders back)
    (varname : String) :
    lastValue decoders (front ++ back) varname =
      (lastValue decoders back varname).or (lastValue decoders front varname) := by
  unfold lastValue
  rw [List.reverse_append, List.find?_append]
  cases hfind : back.reverse.find? fun message =>
      supports decoders message && decide (text message "varname" = varname) with
  | none => rfl
  | some message =>
      have hmem := List.mem_of_find?_eq_some hfind
      have hfound := List.find?_some hfind
      rw [Bool.and_eq_true] at hfound
      obtain ⟨x, hx⟩ := Option.isSome_iff_exists.mp
        (hback message (List.mem_reverse.mp hmem) hfound.1)
      rw [Option.some_or, Option.bind_some, hx, Option.some_or]

/-- The entries with the variable of a message put in. -/
def put (decoders : Decoders V) (entries : List (String × V)) (message : Message) :
    List (String × V) :=
  match valueOf decoders message with
  | some x => Association.insert (text message "varname") x entries
  | none => entries

/-- The entries after the variables have been put in one after the other. -/
def collected (decoders : Decoders V) (entries : List (String × V)) (messages : List Message) :
    List (String × V) :=
  messages.foldl (put decoders) entries

theorem nodup_collected {entries : List (String × V)} (h : (entries.map Prod.fst).Nodup)
    (messages : List Message) : ((collected decoders entries messages).map Prod.fst).Nodup := by
  induction messages generalizing entries with
  | nil => exact h
  | cons message messages ih =>
      apply ih
      unfold put
      split
      · exact Association.nodup_insert h
      · exact h

theorem supports_of_valueOf {message : Message} {x : V} (h : valueOf decoders message = some x) :
    supports decoders message = true := by
  obtain ⟨loads, hloads, _⟩ := Option.bind_eq_some_iff.mp h
  rw [supports, hloads]
  rfl

/-- What stands for a name in the end is the last value that was put in for it. -/
theorem lookup_collected {messages : List Message} (hdecodable : Decodes decoders messages)
    (entries : List (String × V)) (varname : String) :
    Association.lookup varname (collected decoders entries messages) =
      (lastValue decoders messages varname).or (Association.lookup varname entries) := by
  induction messages generalizing entries with
  | nil => rfl
  | cons message messages ih =>
      have htail : Decodes decoders messages :=
        fun other hother => hdecodable other (List.mem_cons_of_mem _ hother)
      have hhead := hdecodable message List.mem_cons_self
      rw [← List.singleton_append, lastValue_append htail, Option.or_assoc]
      refine (ih htail _).trans (congrArg _ ?_)
      unfold lastValue
      rw [List.reverse_singleton, List.find?_singleton]
      cases hvalue : valueOf decoders message with
      | none =>
          have hskip : supports decoders message = false := by
            rw [← Bool.not_eq_true]
            intro hsupports
            have := hhead hsupports
            rw [hvalue] at this
            cases this
          simp [put, hvalue, hskip]
      | some x =>
          simp only [put, hvalue]
          rw [Association.lookup_insert, supports_of_valueOf hvalue, Bool.true_and]
          by_cases hname : varname = text message "varname"
          · simp [hname, hvalue]
          · have hname' : ¬ text message "varname" = varname := fun h => hname h.symm
            simp [hname, hname']

theorem lastValue_isSome {messages : List Message} (hdecodable : Decodes decoders messages)
    {message : Message} (hmem : message ∈ messages) (hsupports : supports decoders message = true) :
    (lastValue decoders messages (text message "varname")).isSome := by
  unfold lastValue
  cases hfind : messages.reverse.find? fun other =>
      supports decoders other && decide (text other "varname" = text message "varname") with
  | none =>
      have hnone := List.find?_eq_none.mp hfind message (List.mem_reverse.mpr hmem)
      simp [hsupports] at hnone
  | some other =>
      have hfound := List.find?_some hfind
      rw [Bool.and_eq_true] at hfound
      rw [Option.bind_some]
      exact hdecodable other (List.mem_reverse.mp (List.mem_of_find?_eq_some hfind)) hfound.1

/-! ## What is to be looked at -/

theorem syncCount_of_nonneg {n : Int64} (h : 0 ≤ n.toInt) : syncCount n = n.toInt.toNat := by
  have hnot : ¬ n < 0 := by
    rw [Int64.lt_iff_toInt_lt]
    exact not_lt.mpr h
  exact if_neg hnot

theorem take_syncCount {n : Int64} (h : n.toInt < 0) {queue : List Message}
    (hlen : queue.length < 2 ^ 64) : queue.take (syncCount n) = queue := by
  have hneg : n < 0 := Int64.lt_iff_toInt_lt.mpr h
  rw [syncCount, if_pos hneg]
  exact List.take_of_length_le (Nat.le_pred_of_lt hlen)

theorem mem_of_mem_wanted {n : Int64} {queue : List Message} {message : Message}
    (hmem : message ∈ wanted decoders queue n) : message ∈ queue := by
  unfold wanted at hmem
  split at hmem
  · exact hmem
  · exact (upTo_initial _ _).subset hmem

/-- What is fetched first is to be looked at. -/
theorem mem_wanted_of_mem_take {n : Int64} {queue : List Message} {message : Message}
    (hmem : message ∈ queue.take (syncCount n)) : message ∈ wanted decoders queue n := by
  unfold wanted
  split
  · exact List.mem_of_mem_take hmem
  next hn =>
    rw [syncCount_of_nonneg (not_lt.mp hn)] at hmem
    rw [upTo_eq]
    exact List.mem_append_left _ hmem

/-- Without unsupported variables at the front, one round is enough. -/
theorem wanted_eq_take {n : Int64} {queue : List Message} (hlen : queue.length < 2 ^ 64)
    (h : 0 < n.toInt → ∀ message ∈ queue.take n.toInt.toNat, supports decoders message = true) :
    wanted decoders queue n = queue.take (syncCount n) := by
  by_cases hneg : n.toInt < 0
  · rw [wanted, if_pos hneg, take_syncCount hneg hlen]
  · rw [wanted, if_neg hneg, syncCount_of_nonneg (not_lt.mp hneg)]
    by_cases hpos : 0 < n.toInt
    · exact upTo_of_forall (h hpos)
    · have hzero : n.toInt.toNat = 0 := by omega
      rw [hzero, upTo_zero, List.take_zero]

/-- Otherwise there is more to look at. -/
theorem wanted_eq_append {n k : Int64} {queue : List Message} (hn : 0 < n.toInt)
    (hk : k.toInt = (queue.take n.toInt.toNat).countP fun message => !supports decoders message) :
    wanted decoders queue n =
      queue.take (syncCount n) ++ wanted decoders (queue.drop (syncCount n)) k := by
  have hk' : ¬ k.toInt < 0 := by
    rw [hk]
    exact not_lt.mpr (Int.natCast_nonneg _)
  rw [wanted, if_neg (not_lt.mpr hn.le), wanted, if_neg hk', syncCount_of_nonneg hn.le, upTo_eq, hk,
    Int.toNat_natCast]

/-! ## A loop on variables -/

section

variable {Env Self Err Vars : Type} {listener : Listener Self Err}
  {judge : Message → Judgement Err Vars} {embed : List (String × V) → Vars}
  {carried : Message → Prop} {valid : String → Prop}
  {answer : Env → Message → Env × List Message} {queue : Env → List Message} {good : Env → Prop}
  {env : Env} {self : Self} {fuel rounds : Nat} {n : Int64}
  {again : Vars → Int64 → Prog Self Err Message Message Vars}

/-- A loop that passes over the variables that are not supported, and keeps the others
under their names if these are valid. -/
structure Judges (listener : Listener Self Err) (judge : Message → Judgement Err Vars)
    (decoders : Decoders V) (embed : List (String × V) → Vars) (carried : Message → Prop)
    (valid : String → Prop) : Prop where
  hears : ∀ message, carried message → listener.hearing message = .plain
  skips : ∀ message, carried message → supports decoders message = false → judge message = .skip
  keeps : ∀ message x, carried message → valueOf decoders message = some x →
    valid (text message "varname") → ∃ f, judge message = .keep f ∧
      ∀ entries, f (embed entries) = embed (Association.insert (text message "varname") x entries)

/-- Messages that such a loop can deal with. -/
structure Fits (decoders : Decoders V) (carried : Message → Prop) (valid : String → Prop)
    (messages : List Message) : Prop where
  carries : ∀ message ∈ messages, carried message
  decodes : Decodes decoders messages
  names : ∀ message ∈ messages, supports decoders message = true → valid (text message "varname")

theorem Fits.mono {messages more : List Message} (h : Fits decoders carried valid messages)
    (hsubset : ∀ message ∈ more, message ∈ messages) : Fits decoders carried valid more :=
  ⟨fun message hmem => h.carries message (hsubset message hmem),
    h.decodes.mono hsubset,
    fun message hmem => h.names message (hsubset message hmem)⟩

/-- What the loop makes of one variable. -/
theorem Judges.spec (h : Judges listener judge decoders embed carried valid) {messages : List Message}
    (hfits : Fits decoders carried valid messages) {message : Message} (hmem : message ∈ messages) :
    Passes listener judge message ∧
      skipped listener judge message = !supports decoders message ∧
      (∀ self, listener.effect message self = self) ∧
      ∀ entries, kept listener judge message (embed entries) = embed (put decoders entries message) := by
  have hvariable := hfits.carries message hmem
  have hhears := h.hears message hvariable
  cases hsupports : supports decoders message with
  | false =>
      have hskip := h.skips message hvariable hsupports
      have hnone : valueOf decoders message = none := by
        rw [Option.eq_none_iff_forall_ne_some]
        intro x hx
        rw [supports_of_valueOf hx] at hsupports
        cases hsupports
      refine ⟨?_, ?_, ?_, ?_⟩
      · simp [Passes, hhears, hskip]
      · simp [skipped, hhears, hskip]
      · simp [Listener.effect, hhears]
      · simp [kept, hhears, hskip, put, hnone]
  | true =>
      obtain ⟨x, hx⟩ := Option.isSome_iff_exists.mp (hfits.decodes message hmem hsupports)
      obtain ⟨f, hkeep, hf⟩ := h.keeps message x hvariable hx (hfits.names message hmem hsupports)
      refine ⟨?_, ?_, ?_, ?_⟩
      · simp [Passes, hhears, hkeep]
      · simp [skipped, hhears, hkeep]
      · simp [Listener.effect, hhears]
      · simp [kept, hhears, hkeep, put, hx, hf]

theorem Judges.foldl_kept (h : Judges listener judge decoders embed carried valid) {messages : List Message}
    (hfits : Fits decoders carried valid messages) (entries : List (String × V)) :
    messages.foldl (fun vars message => kept listener judge message vars) (embed entries) =
      embed (collected decoders entries messages) := by
  induction messages generalizing entries with
  | nil => rfl
  | cons message messages ih =>
      rw [List.foldl_cons, (h.spec hfits List.mem_cons_self).2.2.2]
      exact ih (hfits.mono fun other hother => List.mem_cons_of_mem _ hother) _

theorem Judges.foldl_effect (h : Judges listener judge decoders embed carried valid)
    {messages : List Message} (hfits : Fits decoders carried valid messages) (self : Self) :
    messages.foldl (fun self message => listener.effect message self) self = self := by
  induction messages with
  | nil => rfl
  | cons message messages ih =>
      rw [List.foldl_cons, (h.spec hfits List.mem_cons_self).2.2.1]
      exact ih (hfits.mono fun other hother => List.mem_cons_of_mem _ hother)

theorem Judges.countP_skipped (h : Judges listener judge decoders embed carried valid)
    {messages : List Message} (hfits : Fits decoders carried valid messages) :
    messages.countP (skipped listener judge) =
      messages.countP fun message => !supports decoders message :=
  List.countP_congr fun message hmem => by rw [(h.spec hfits hmem).2.1]

/-- One round at a server with a queue of variables. -/
theorem Judges.run_round (h : Judges listener judge decoders embed carried valid)
    (hserves : Serves answer queue good) (hok : Ends listener judge statusOkMessage)
    (hgood : good env) (hfuel : (queue env).length < fuel) (hrounds : (queue env).length < rounds)
    (hfits : Fits decoders carried valid ((queue env).take (syncCount n))) (self : Self)
    (entries : List (String × V)) (again : Vars → Int64 → Prog Self Err Message Message Vars) :
    run answer (syncWith (listener.recv fuel) judge rounds (embed entries) again n) self env [] =
      (run answer (merge again n
          (embed (collected decoders entries ((queue env).take (syncCount n))),
            n.toInt - ((queue env).take (syncCount n)).countP fun message =>
              !supports decoders message))
        self (answer env (Request.sync n)).1 []).after [Request.sync n] := by
  rw [hserves.run_exchange hok hgood hfuel hrounds (fun message hmem => (h.spec hfits hmem).1),
    h.foldl_kept hfits, h.foldl_effect hfits, h.countP_skipped hfits]

/-- A round without a further one collects the variables, if it sees what it is to. -/
theorem collects_of_round (hserves : Serves answer queue good) (hgood : good env)
    (hlen : (queue env).length < 2 ^ 64)
    (hdecodes : Decodes decoders ((queue env).take (syncCount n)))
    (hfirst : 0 < n.toInt →
      ∀ message ∈ (queue env).take n.toInt.toNat, supports decoders message = true)
    {ended : Ended Env Self Err Message Message Vars}
    (houtcome : ended.outcome =
      .done (embed (collected decoders [] ((queue env).take (syncCount n)))))
    (henv : ended.env = (answer env (Request.sync n)).1) :
    Collects decoders embed queue env n ended := by
  have hwanted := wanted_eq_take hlen hfirst
  constructor
  · refine ⟨_, houtcome, nodup_collected (by simp) _, ?_⟩
    intro varname
    rw [lookup_collected hdecodes, Association.lookup_nil, Option.or_none, hwanted]
  · intro _ _
    refine ⟨(queue env).take (syncCount n), ?_, ?_⟩
    · rw [hwanted]
    · rw [henv, hserves.rest env n hgood, List.take_append_drop]

/-- With rounds for what has been passed over, a method returns the last values of what it
is to look at, and takes just that from the queue. -/
theorem Judges.run_rounds {sync : Nat → Int64 → Prog Self Err Message Message Vars}
    {combine : Vars → Vars → Prog Self Err Message Message Vars}
    (h : Judges listener judge decoders embed carried valid)
    (hresyncs : Resyncs listener judge sync (embed []) combine)
    (hcombine : ∀ entries more, combine (embed entries) (embed more) =
      .done (embed (Association.update entries more)))
    (hserves : Serves answer queue good) (hok : Ends listener judge statusOkMessage)
    (hgood : good env) (hfuel : (queue env).length < fuel) (hlen : (queue env).length < 2 ^ 64)
    (hfits : Fits decoders carried valid (queue env)) (self : Self) :
    ∃ entries env' requests, run answer (sync (fuel + 1) n) self env [] =
        ⟨.done (embed entries), self, env', requests, []⟩ ∧ (entries.map Prod.fst).Nodup ∧
      (∀ varname, Association.lookup varname entries =
        lastValue decoders (wanted decoders (queue env) n) varname) ∧
      queue env = wanted decoders (queue env) n ++ queue env' := by
  induction fuel generalizing env n with
  | zero => exact absurd hfuel (Nat.not_lt_zero _)
  | succ fuel ih =>
      have htake : Fits decoders carried valid ((queue env).take (syncCount n)) :=
        hfits.mono fun _ => List.mem_of_mem_take
      have hrest := hserves.rest env n hgood
      rw [hresyncs.succ, h.run_round hserves hok hgood hfuel hfuel htake, merge]
      by_cases hagain : 0 < n.toInt ∧ n.toInt - ((queue env).take (syncCount n)).countP
          (fun message => !supports decoders message) < n.toInt
      · have hsync := syncCount_of_nonneg hagain.1.le
        -- the number of messages asked for is that of the messages passed over
        have hcount := List.countP_le_length (p := fun message => !supports decoders message)
          (l := (queue env).take n.toInt.toNat)
        rw [List.length_take] at hcount
        have hlt := n.toInt_lt
        have hk : (Int64.ofInt (n.toInt - (n.toInt - ((queue env).take (syncCount n)).countP
            fun message => !supports decoders message))).toInt =
            ((queue env).take n.toInt.toNat).countP fun message => !supports decoders message := by
          rw [hsync, Int64.toInt_ofInt_of_le (by omega) (by omega)]
          omega
        have hfewer : n.toInt - ((queue env).take (syncCount n)).countP (skipped listener judge) <
            n.toInt := by
          rw [h.countP_skipped htake]
          exact hagain.2
        have hshorter := hserves.shorter hgood hfuel hfewer
        obtain ⟨more, env', requests, hmore, hnodup, hvalues, hleft⟩ :=
          ih (n := Int64.ofInt (n.toInt - (n.toInt - ((queue env).take (syncCount n)).countP
              fun message => !supports decoders message)))
            (hserves.stays env n hgood) hshorter
            (by rw [hrest, List.length_drop]; omega)
            (by rw [hrest]; exact hfits.mono fun _ => List.mem_of_mem_drop)
        rw [hrest] at hvalues hleft
        rw [if_pos hagain, run_bind_done hmore, hcombine, wanted_eq_append hagain.1 hk]
        refine ⟨_, env', _, rfl, Association.nodup_update (nodup_collected (by simp) _), ?_, ?_⟩
        · intro varname
          have hdecodes : Decodes decoders (wanted decoders ((queue env).drop (syncCount n))
              (Int64.ofInt (n.toInt - (n.toInt - ((queue env).take (syncCount n)).countP
                fun message => !supports decoders message)))) := by
            refine (hfits.mono ?_).decodes
            intro message hmem
            have hdrop : message ∈ (queue env).drop (syncCount n) := by
              rw [hleft]
              exact List.mem_append_left _ hmem
            exact List.mem_of_mem_drop hdrop
          rw [Association.lookup_update hnodup, hvalues, lookup_collected htake.decodes,
            Association.lookup_nil, Option.or_none, lastValue_append hdecodes]
        · rw [List.append_assoc, ← hleft, List.take_append_drop]
      · have hfirst : 0 < n.toInt →
            ∀ message ∈ (queue env).take n.toInt.toNat, supports decoders message = true := by
          intro hpos message hmem
          have hzero : ((queue env).take (syncCount n)).countP
              (fun message => !supports decoders message) = 0 := by
            by_contra hne
            exact hagain ⟨hpos, by omega⟩
          rw [syncCount_of_nonneg hpos.le] at hzero
          simpa using List.countP_eq_zero.mp hzero message hmem
        rw [if_neg hagain, wanted_eq_take hlen hfirst]
        refine ⟨_, (answer env (Request.sync n)).1, _, rfl, nodup_collected (by simp) _, ?_, ?_⟩
        · intro varname
          rw [lookup_collected htake.decodes, Association.lookup_nil, Option.or_none]
        · rw [hrest, List.take_append_drop]

theorem Judges.collects_rounds {sync : Nat → Int64 → Prog Self Err Message Message Vars}
    {combine : Vars → Vars → Prog Self Err Message Message Vars}
    (h : Judges listener judge decoders embed carried valid)
    (hresyncs : Resyncs listener judge sync (embed []) combine)
    (hcombine : ∀ entries more, combine (embed entries) (embed more) =
      .done (embed (Association.update entries more)))
    (hserves : Serves answer queue good) (hok : Ends listener judge statusOkMessage)
    (hgood : good env) (hfuel : (queue env).length < fuel) (hlen : (queue env).length < 2 ^ 64)
    (hfits : Fits decoders carried valid (queue env)) (self : Self) :
    Collects decoders embed queue env n (run answer (sync (fuel + 1) n) self env []) := by
  obtain ⟨entries, env', requests, hrun, hnodup, hvalues, hleft⟩ :=
    h.run_rounds (n := n) hresyncs hcombine hserves hok hgood hfuel hlen hfits self
  rw [hrun]
  exact ⟨⟨entries, rfl, hnodup, hvalues⟩, fun _ _ => ⟨_, List.prefix_rfl, hleft⟩⟩

/-- A loop that a message stops without an end does not return. -/
theorem Serves.not_done (hserves : Serves answer queue good) (hgood : good env)
    (hstops : ∃ message ∈ (queue env).take (syncCount n), ¬ Passes listener judge message)
    (hends : ∀ message ∈ (queue env).take (syncCount n), ¬ Ends listener judge message)
    (self : Self) (vars result : Vars) :
    (run answer (syncWith (listener.recv fuel) judge rounds vars again n) self env []).outcome ≠
      .done result := by
  obtain ⟨front, last, behind, hsplit, hlast, hfront⟩ := exists_stop hstops
  rw [run_syncWith, hserves.relays env n hgood, List.nil_append, hsplit, List.append_assoc,
    List.cons_append, Ended.after_outcome]
  cases rounds with
  | zero => simp [collect, Prog.bind, run]
  | succ rounds =>
      obtain ⟨outcome, self', unread, hrun, _, _, hdone⟩ :=
        run_collect_stops hlast hfront answer self (answer env (Request.sync n)).1
          (behind ++ [statusOkMessage]) vars n.toInt fuel rounds fuel
      have hnot := hdone (hends last (by rw [hsplit]; exact List.mem_append_right _ List.mem_cons_self))
      rw [collect_succ, run_bind, hrun]
      cases outcome with
      | done result => exact absurd rfl (hnot result)
      | raised err => simp
      | exhausted => simp
      | waiting => simp

/-- A method that fails where it has to ask again collects what it is to look at exactly
if none of the first `n` messages is passed over. -/
theorem Judges.collects_round_iff (h : Judges listener judge decoders embed carried valid)
    (hagain : ∀ vars n self env inbox result,
      (run answer (again vars n) self env inbox).outcome ≠ .done result)
    (hserves : Serves answer queue good) (hok : Ends listener judge statusOkMessage)
    (hgood : good env) (hfuel : (queue env).length < fuel) (hrounds : (queue env).length < rounds)
    (hlen : (queue env).length < 2 ^ 64)
    (hfits : Fits decoders carried valid ((queue env).take (syncCount n))) (self : Self) :
    Collects decoders embed queue env n
        (run answer (syncWith (listener.recv fuel) judge rounds (embed []) again n) self env []) ↔
      (0 < n.toInt →
        ∀ message ∈ (queue env).take n.toInt.toNat, supports decoders message = true) := by
  rw [h.run_round hserves hok hgood hfuel hrounds hfits, merge]
  constructor
  · intro hcollects hpos message hmem
    obtain ⟨entries, hdone, _⟩ := hcollects.returns
    by_contra hunsupported
    have hcount : 0 < ((queue env).take (syncCount n)).countP
        fun message => !supports decoders message := by
      rw [syncCount_of_nonneg hpos.le]
      exact List.countP_pos_iff.mpr ⟨message, hmem, by simpa using hunsupported⟩
    rw [if_pos ⟨hpos, by omega⟩] at hdone
    exact hagain _ _ _ _ _ _ hdone
  · intro hfirst
    have hnot : ¬ (0 < n.toInt ∧ n.toInt - ((queue env).take (syncCount n)).countP
        (fun message => !supports decoders message) < n.toInt) := by
      rintro ⟨hpos, hless⟩
      have hcount : ((queue env).take (syncCount n)).countP
          (fun message => !supports decoders message) = 0 := by
        rw [syncCount_of_nonneg hpos.le]
        exact List.countP_eq_zero.mpr fun message hmem => by simp [hfirst hpos message hmem]
      omega
    rw [if_neg hnot]
    exact collects_of_round hserves hgood hlen hfits.decodes hfirst rfl rfl

end

end Dime
