import Dime.Clients.SyncResults

/-!
# What Python's `sync_r` takes

The first variables of a queue that the client supports, whichever others stand between
them, and what is left of the queue.
-/

namespace Dime

open Dialogue

variable {V : Type}

/-- The first `n` messages that a client supports, or all of them. -/
def firstSupported (decoders : Decoders V) (queue : List Message) (n : Int) : List Message :=
  let supported := queue.filter (supports decoders)
  if n < 0 then supported else supported.take n.toNat

/-- A `sync_r` has returned the last value of every variable among the first `n` messages
that are supported, and has taken the shortest part of the queue that has these, or all of
it. -/
structure TakesFirst {Env Self Err Vars : Type} (decoders : Decoders V)
    (embed : List (String × V) → Vars) (queue : Env → List Message) (env : Env) (n : Int)
    (ended : Ended Env Self Err Message Message Vars) : Prop where
  returns : ∃ entries, ended.outcome = .done (embed entries) ∧ (entries.map Prod.fst).Nodup ∧
    ∀ varname, Association.lookup varname entries =
      lastValue decoders (firstSupported decoders (queue env) n) varname
  empties : n < 0 ∨ ((queue env).countP (supports decoders) : Int) < n → queue ended.env = []
  leaves : 0 ≤ n → n ≤ (queue env).countP (supports decoders) →
    ∃ taken, queue env = taken ++ queue ended.env ∧ (taken.countP (supports decoders) : Int) = n ∧
      ∀ front, front <+: queue env → (front.countP (supports decoders) : Int) = n → taken <+: front

/-! ## The shortest part of a queue -/

section

variable {α : Type} {p : α → Bool}

theorem filter_upTo (n : Nat) (queue : List α) :
    (upTo p n queue).filter p = (queue.filter p).take n := by
  induction queue generalizing n with
  | nil => simp
  | cons a queue ih =>
      cases n with
      | zero => simp
      | succ n =>
          rw [upTo, List.filter_cons, List.filter_cons, ih]
          by_cases hp : p a = true
          · rw [if_pos hp, if_pos hp, if_pos hp, List.take_succ_cons]
          · rw [if_neg hp, if_neg hp, if_neg hp]

theorem countP_upTo {n : Nat} {queue : List α} (h : n ≤ queue.countP p) :
    (upTo p n queue).countP p = n := by
  rw [List.countP_eq_length_filter] at h ⊢
  rw [filter_upTo, List.length_take, Nat.min_eq_left h]

/-- Where there are fewer of the kind, one looks at everything. -/
theorem upTo_of_countP_lt {n : Nat} {queue : List α} (h : queue.countP p < n) :
    upTo p n queue = queue := by
  induction queue generalizing n with
  | nil => simp
  | cons a queue ih =>
      cases n with
      | zero => exact absurd h (Nat.not_lt_zero _)
      | succ n =>
          rw [List.countP_cons] at h
          rw [upTo]
          congr 1
          apply ih
          by_cases hp : p a = true
          · rw [if_pos hp] at h ⊢
            omega
          · rw [if_neg hp] at h ⊢
            omega

/-- No shorter part of the queue has as many of the kind. -/
theorem upTo_shortest {n : Nat} {queue front : List α} (hfront : front <+: queue)
    (hcount : front.countP p = n) : upTo p n queue <+: front := by
  induction queue generalizing n front with
  | nil => simp
  | cons a queue ih =>
      cases n with
      | zero => simp
      | succ n =>
          cases front with
          | nil => cases hcount
          | cons b front =>
              rw [List.cons_prefix_cons] at hfront
              obtain ⟨rfl, hfront⟩ := hfront
              rw [upTo, List.cons_prefix_cons]
              refine ⟨rfl, ih hfront ?_⟩
              rw [List.countP_cons] at hcount
              by_cases hp : p b = true
              · rw [if_pos hp] at hcount ⊢
                omega
              · rw [if_neg hp] at hcount ⊢
                omega

end

section

variable {decoders : Decoders V}

/-- What is not supported does not count for the last values. -/
theorem lastValue_filter (messages : List Message) (varname : String) :
    lastValue decoders (messages.filter (supports decoders)) varname =
      lastValue decoders messages varname := by
  unfold lastValue
  rw [← List.filter_reverse, List.find?_filter]
  simp only [← Bool.and_assoc, Bool.and_self, Bool.decide_and, Bool.decide_eq_true]

theorem filter_wanted (queue : List Message) (n : Int64) :
    (wanted decoders queue n).filter (supports decoders) = firstSupported decoders queue n.toInt := by
  unfold wanted firstSupported
  by_cases hn : n.toInt < 0
  · rw [if_pos hn, if_pos hn]
  · rw [if_neg hn, if_neg hn, filter_upTo]

/-- A run that takes what it is to look at takes the first messages that are supported. -/
theorem takesFirst_of_wanted {Env Self Err Vars : Type} {embed : List (String × V) → Vars}
    {queue : Env → List Message} {env : Env} {n : Int64} {entries : List (String × V)}
    {ended : Ended Env Self Err Message Message Vars} (houtcome : ended.outcome = .done (embed entries))
    (hnodup : (entries.map Prod.fst).Nodup)
    (hvalues : ∀ varname, Association.lookup varname entries =
      lastValue decoders (wanted decoders (queue env) n) varname)
    (hleft : queue env = wanted decoders (queue env) n ++ queue ended.env) :
    TakesFirst decoders embed queue env n.toInt ended := by
  have hwanted : wanted decoders (queue env) n = queue env → queue ended.env = [] := by
    intro h
    rw [h] at hleft
    exact List.append_cancel_left (hleft.symm.trans (List.append_nil _).symm)
  constructor
  · refine ⟨entries, houtcome, hnodup, fun varname => ?_⟩
    rw [hvalues, ← filter_wanted, lastValue_filter]
  · intro h
    apply hwanted
    unfold wanted
    by_cases hn : n.toInt < 0
    · exact if_pos hn
    · rw [if_neg hn]
      apply upTo_of_countP_lt
      omega
  · intro hn hcount
    have hupTo : wanted decoders (queue env) n = upTo (supports decoders) n.toInt.toNat (queue env) :=
      if_neg (Int.not_lt.mpr hn)
    refine ⟨_, hleft, ?_, ?_⟩
    · rw [hupTo, countP_upTo (by omega), Int.toNat_of_nonneg hn]
    · intro front hfront hfrontCount
      rw [hupTo]
      exact upTo_shortest hfront (by omega)

end

/-! ## A call with an integer -/

namespace Python

def syncHead : String := "\x7b\"command\": \"sync\", \"n\": "

/-- What `json.dumps` writes for a `sync` request. -/
def syncString (n : Int) : String := syncHead ++ n.repr ++ "\x7d"

def syncText (n : Int) : Bytes := (syncString n).toUTF8.data.toList

open Server

/-- The number that decimal digits stand for. -/
def decimal : List Char → Int
  | '-' :: digits => -(Nat.ofDigitChars 10 digits 0)
  | digits => Nat.ofDigitChars 10 digits 0

theorem decimal_repr (n : Int) : decimal n.repr.toList = n := by
  cases n with
  | ofNat n =>
      have hdigits : (Int.ofNat n).repr.toList = Nat.toDigits 10 n := Nat.toList_repr
      rw [hdigits]
      unfold decimal
      split
      next rest heq =>
        have hdigit : '-'.isDigit = true :=
          Nat.isDigit_of_mem_toDigits (b := 10) (n := n) (by decide) (by decide) (by simp [heq])
        exact absurd hdigit (by decide)
      next => rw [Nat.ofDigitChars_ten_toDigits]; rfl
  | negSucc n =>
      have hdigits : (Int.negSucc n).repr.toList = '-' :: Nat.toDigits 10 (n + 1) := by
        rw [show (Int.negSucc n).repr = "-" ++ Nat.repr (n + 1) from rfl, String.toList_append,
          Nat.toList_repr]
        rfl
      rw [hdigits, decimal, Nat.ofDigitChars_ten_toDigits]
      rfl

/-- The number in the text of a request. -/
def syncNumber (text : Bytes) : Option Int :=
  (String.fromUTF8? ⟨text.toArray⟩).map fun s => decimal (s.toList.drop 25).dropLast

theorem fromUTF8?_toList (s : String) : String.fromUTF8? ⟨s.toUTF8.data.toList.toArray⟩ = some s := by
  rw [Array.toArray_toList]
  exact dif_pos s.isValidUTF8

theorem syncNumber_syncText (n : Int) : syncNumber (syncText n) = some n := by
  have hlength : syncHead.toList.length = 25 := by decide +kernel
  have hclose : "\x7d".toList = ['\x7d'] := by decide +kernel
  have hdigits : ((syncString n).toList.drop 25).dropLast = n.repr.toList := by
    rw [syncString, String.toList_append, String.toList_append, List.append_assoc,
      List.drop_left' hlength, hclose, List.dropLast_concat]
  rw [syncNumber, syncText, fromUTF8?_toList, Option.map_some, hdigits, decimal_repr]

/-- A JSON library that reads these requests. -/
def syncJansson : Jansson Json where
  loadb text := (syncNumber text).elim (.error "unexpected token") fun n =>
    if text = syncText n then
      if -2 ^ 63 ≤ n ∧ n < 2 ^ 63 then .ok (Request.sync (Int64.ofInt n)).jsondata
      else .error "too big integer"
    else .error "unexpected token"
  dumps := (compactJansson []).dumps
  unpackText value format := "Object item not found"
  rejects _ := none
  loadb_nil := by
    have hne : [] ≠ syncText 0 := by decide +kernel
    have hzero : syncNumber [] = some 0 := by decide +kernel
    exact ⟨"unexpected token", by rw [hzero, Option.elim_some, if_neg hne]⟩
  rejects_sound _ _ _ h := by cases h

theorem syncJansson_reads (m : Int64) :
    syncJansson.loadb (syncText m.toInt) = .ok (Request.sync m).jsondata := by
  have hfits : -2 ^ 63 ≤ m.toInt ∧ m.toInt < 2 ^ 63 := ⟨m.le_toInt, m.toInt_lt⟩
  simp only [syncJansson, syncNumber_syncText, Option.elim_some, if_pos, if_pos hfits, Int64.ofInt_toInt]

example : (script syncJansson [.accept 3 false, .accept 4 false,
      .command 1 (broadcastOf foreign) [7]]).map
        (fun result => result.2.queueOf (wireOf foreign) 0) = some [⟨broadcastOf foreign, [7]⟩] := by
  decide +kernel

/-- The server reads the request for `n`, and `sync_r(n)` takes the first `n` variables
that are supported. -/
def SyncTakes (modules : Modules) (jansson : Jansson Json) (loads : CString → Json) (c : ClientPtr)
    (srv : Server) (fuel : Nat) (self : DimeClient) (n : Int) : Prop :=
  ∃ m : Int64, m.toInt = n ∧ jansson.loadb (syncText n) = .ok (Request.sync m).jsondata ∧
    TakesFirst (decoders modules) dict (Server.queueOf loads · c) srv n
      (run (Server.answer jansson loads c) (DimeClient.sync_r modules fuel m) self srv [])

/-- At a server whose queue for a client consists of variables in any serialization,
`sync_r(n)` returns the last values among the first `n` that the client supports and takes
no more than it has to, for every `n` that fits into 64 bits. The JSON library reads such
integers. -/
theorem sync_r_takes_first {jansson : Jansson Json} {loads : CString → Json}
    {history : List (Server × Action)} {srv : Server} (h : Reaches jansson history srv)
    {c : ClientPtr} {clnt : Client} (hc : srv.clnts.cells c = some clnt)
    (hok : loads statusOkText = statusOkMessage.jsondata)
    (hreads : ∀ m : Int64, jansson.loadb (syncText m.toInt) = .ok (Request.sync m).jsondata)
    (hlen : (srv.queueOf loads c).length < 2 ^ 64) (modules : Modules)
    (htagged : ∀ message ∈ srv.queueOf loads c, Tagged modules message)
    (hdecodes : Decodes (decoders modules) (srv.queueOf loads c)) {n : Int}
    (hn : -2 ^ 63 ≤ n ∧ n < 2 ^ 63) {fuel : Nat} (hfuel : (srv.queueOf loads c).length < fuel)
    (self : DimeClient) : SyncTakes modules jansson loads c srv (fuel + 1) self n := by
  have hserves : Serves (Server.answer jansson loads c) (Server.queueOf loads · c)
      (fun srv => (∃ history, Reaches jansson history srv) ∧
        ∃ clnt, srv.clnts.cells c = some clnt) := Reaches.serves hok c
  have hgood : (∃ history, Reaches jansson history srv) ∧
      ∃ clnt, srv.clnts.cells c = some clnt := ⟨⟨history, h⟩, clnt, hc⟩
  have hm : (Int64.ofInt n).toInt = n := Int64.toInt_ofInt_of_le hn.1 hn.2
  refine ⟨Int64.ofInt n, hm, ?_, ?_⟩
  · have hread := hreads (Int64.ofInt n)
    rwa [hm] at hread
  · obtain ⟨entries, env', requests, hrun, hnodup, hvalues, hleft⟩ :=
      (judges modules).run_rounds (n := Int64.ofInt n) (resyncs modules)
        (fun entries more => congrArg Prog.done (update_dict entries more)) hserves
        (ends_statusOk modules) hgood hfuel hlen ⟨htagged, hdecodes, fun _ _ _ => trivial⟩ self
    have htakes : TakesFirst (decoders modules) dict (Server.queueOf loads · c) srv
        (Int64.ofInt n).toInt (run (Server.answer jansson loads c)
          (DimeClient.sync_r modules (fuel + 1) (Int64.ofInt n)) self srv []) :=
      takesFirst_of_wanted (by rw [hrun]) hnodup hvalues (by rw [hrun]; exact hleft)
    rwa [hm] at htakes

/-- The queue has one variable that Python does not support. -/
theorem sync_r_takes_first_foreign : ∃ history srv,
    Reaches syncJansson history srv ∧
    SyncTakes plainModules syncJansson (wireOf foreign) 0 srv 3 ⟨.string "pickle", some .pickle⟩ 1 := by
  obtain ⟨history, srv, clnt, h, hc, _, hqueue⟩ :=
    broadcast_queued syncJansson foreign (wireOf foreign) (by decide +kernel)
  refine ⟨history, srv, h, sync_r_takes_first h hc (by decide +kernel) syncJansson_reads
    (by rw [hqueue]; decide) plainModules ?_ ?_ (by decide) (by rw [hqueue]; decide) _⟩
  · rw [hqueue]
    exact fun message hmem => tagged_of_isVariable _ (isVariable_foreign message hmem)
  · rw [hqueue]
    exact List.forall_mem_singleton.mpr fun hsupports => by cases hsupports

/-- Asked for 2 ^ 63 messages, the JSON library of the server does not read the request. -/
theorem not_syncTakes_large :
    syncJansson.loadb (syncText (2 ^ 63)) = .error "too big integer" ∧
    ¬ ∀ (n : Int) history srv, Reaches syncJansson history srv →
      srv.queueOf (wireOf foreign) 0 = [⟨broadcastOf foreign, [7]⟩] →
      SyncTakes plainModules syncJansson (wireOf foreign) 0 srv 3 ⟨.string "pickle", some .pickle⟩ n := by
  have hrefused : syncJansson.loadb (syncText (2 ^ 63)) = .error "too big integer" := by
    simp only [syncJansson, syncNumber_syncText, Option.elim_some]
    rw [if_pos trivial, if_neg (by omega)]
  refine ⟨hrefused, ?_⟩
  intro hall
  obtain ⟨history, srv, clnt, h, hc, _, hqueue⟩ :=
    broadcast_queued syncJansson foreign (wireOf foreign) (by decide +kernel)
  obtain ⟨m, _, hread, _⟩ := hall (2 ^ 63) history srv h hqueue
  rw [hrefused] at hread
  cases hread

end Python

end Dime
