import Dime.Foundation.Exchange
import Dime.Clients.Exchanges
import Dime.Clients.Heeding

/-!
# Replies across handshakes

A JavaScript client does not know the message that makes clients switch. In a run of the
network it takes every reply for the request that the reply answers, if it is not told to
switch between its connect and its handshake, and can decode what its syncs fetch.
-/

namespace Dime.JavaScript

open Dialogue

/-! ## What a session reads -/

/-- What the client reads after a request: one message, or, after a `sync`, messages up to the
first that stops the loop. -/
def Taken {V : Type} (rt : Runtime V) (fuel : Nat) (request : Message) (messages : List Message) :
    Prop :=
  ∃ front last, messages = front ++ [last] ∧
    (Hub.command request.jsondata ≠ "sync" → front = []) ∧
    (Hub.command request.jsondata = "sync" →
      (∀ message ∈ front, Passes (listener rt) (DimeClient.judge rt) message) ∧
        ¬ Passes (listener rt) (DimeClient.judge rt) last ∧ front.length < fuel)

section

variable {V α : Type} {rt : Runtime V} {fuel : Nat} {due : List Message} {request message : Message}

theorem passes_iff : Passes (listener rt) (DimeClient.judge rt) message ↔
    DimeClient.judge rt message ≠ .finish ∧ ∀ err, DimeClient.judge rt message ≠ .fail err := by
  unfold Passes
  rw [hearing_plain]
  cases DimeClient.judge rt message <;> simp

theorem taken_single (hcommand : Hub.command request.jsondata ≠ "sync") :
    Taken rt fuel request [message] :=
  ⟨[], message, rfl, fun _ => rfl, fun hsync => absurd hsync hcommand⟩

/-- What a method does after it has awaited `this.connected`. -/
theorem takes_connected {method : Method α} (h : method.Takes (Taken rt fuel) []) :
    (DimeClient.connected.bind fun _ => method).Takes (Taken rt fuel) [] := by
  unfold DimeClient.connected
  intro self
  cases hrejected : self.rejected with
  | some reason =>
      simp only [Prog.bind, hrejected]
      rfl
  | none =>
      simp only [Prog.bind, hrejected]
      exact h

theorem takes_call (hcommand : Hub.command request.jsondata ≠ "sync") :
    (DimeClient.call rt request).Takes (Taken rt fuel) [] := by
  refine ⟨rfl, fun messages hmessages => ?_⟩
  obtain ⟨front, last, rfl, hfront, _⟩ := hmessages
  rw [hfront hcommand]
  change ((Prog.ofExcept (checkStatus rt last.jsondata)).bind fun _ => Prog.done last.jsondata).Takes
    (Taken rt fuel) []
  exact (Prog.takes_ofExcept _).bind fun _ => rfl

theorem takes_transmit {request : String → Json → Json}
    (hcommand : ∀ varname serialization, Hub.command (request varname serialization) ≠ "sync")
    (kvpairs : List (String × V)) :
    (DimeClient.transmit rt request kvpairs).Takes (Taken rt fuel) [] := by
  induction kvpairs with
  | nil => rfl
  | cons kv kvpairs ih =>
      obtain ⟨varname, value⟩ := kv
      intro self
      apply (Prog.takes_ofExcept _).bind
      intro bindata
      refine Prog.Takes.bind (takes_call ?_) fun _ => ih
      exact hcommand varname _

/-- The loop of `sync_r` reads up to the message that stops it. -/
theorem takes_collect {front : List Message} {last : Message}
    (hfront : ∀ message ∈ front, Passes (listener rt) (DimeClient.judge rt) message)
    (hlast : ¬ Passes (listener rt) (DimeClient.judge rt) last) {rounds : Nat}
    (hrounds : front.length < rounds) (vars : List (String × V)) (m : Int) :
    (collect DimeClient.recv (DimeClient.judge rt) rounds vars m).Takes (Taken rt fuel)
      (front ++ [last]) := by
  induction front generalizing rounds vars m with
  | nil =>
      obtain ⟨rounds, rfl⟩ := Nat.exists_eq_succ_of_ne_zero (Nat.ne_of_gt hrounds)
      change (judged DimeClient.recv (DimeClient.judge rt) rounds vars m last).Takes (Taken rt fuel) []
      unfold judged
      cases hjudge : DimeClient.judge rt last with
      | finish => rfl
      | fail err => rfl
      | skip => exact absurd (passes_iff.mpr (by simp [hjudge])) hlast
      | keep f => exact absurd (passes_iff.mpr (by simp [hjudge])) hlast
  | cons message front ih =>
      obtain ⟨hhead, htail⟩ := List.forall_mem_cons.mp hfront
      obtain ⟨rounds, rfl⟩ := Nat.exists_eq_succ_of_ne_zero (Nat.ne_of_gt (Nat.zero_lt_of_lt hrounds))
      have hrest : front.length < rounds := Nat.lt_of_succ_lt_succ hrounds
      change (judged DimeClient.recv (DimeClient.judge rt) rounds vars m message).Takes (Taken rt fuel)
        (front ++ [last])
      unfold judged
      cases hjudge : DimeClient.judge rt message with
      | finish => exact absurd hjudge (passes_iff.mp hhead).1
      | fail err => exact absurd hjudge ((passes_iff.mp hhead).2 err)
      | skip => exact ih htail hrest vars (m - 1)
      | keep f => exact ih htail hrest (f vars) m

theorem takes_sync_r (n : Int64) : (DimeClient.sync_r rt fuel n).Takes (Taken rt fuel) [] := by
  apply takes_connected
  refine ⟨rfl, fun messages hmessages => ?_⟩
  obtain ⟨front, last, rfl, _, hsync⟩ := hmessages
  obtain ⟨hfront, hlast, hrounds⟩ := hsync rfl
  apply (takes_collect hfront hlast hrounds [] n.toInt).bind
  intro result
  dsimp only
  split
  · rfl
  · rfl

theorem takes_method (call : Call V) : (call.method rt fuel).Takes (Taken rt fuel) [] := by
  have hcall : ∀ {request : Message} {name : String},
      request.jsondata.unpackString "command" = some name → name ≠ "sync" →
      ∀ {β : Type} (f : Json → β), (DimeClient.connected.bind fun _ =>
        (DimeClient.call rt request).bind fun jsondata => Prog.done (f jsondata)).Takes
          (Taken rt fuel) [] := by
    intro request name hname hne β f
    apply takes_connected
    exact (takes_call (Server.command_ne hname hne)).bind fun _ => rfl
  cases call with
  | join names => exact hcall (show _ = some "join" from rfl) (by decide) fun _ => ()
  | leave names => exact hcall (show _ = some "leave" from rfl) (by decide) fun _ => ()
  | send_r name kvpairs =>
      exact takes_connected (takes_transmit
        (fun _ _ => Server.command_ne (show _ = some "send" from rfl) (by decide)) kvpairs)
  | broadcast_r kvpairs =>
      exact takes_connected (takes_transmit
        (fun _ _ => Server.command_ne (show _ = some "broadcast" from rfl) (by decide)) kvpairs)
  | sync_r n => exact (takes_sync_r n).bind fun _ => rfl
  | wait =>
      have hwait : (DimeClient.wait rt).Takes (Taken rt fuel) [] :=
        hcall (show _ = some "wait" from rfl) (by decide) fun jsondata => jsondata.get? "n"
      exact hwait.bind fun _ => rfl
  | devices =>
      have hdevices : (DimeClient.devices rt).Takes (Taken rt fuel) [] :=
        hcall (show _ = some "devices" from rfl) (by decide) fun jsondata => jsondata.get? "devices"
      exact hdevices.bind fun _ => rfl

theorem takes_calls (cs : List (Call V)) : (calls rt fuel cs).Takes (Taken rt fuel) [] := by
  induction cs with
  | nil => rfl
  | cons call cs ih => exact (takes_method call).attempt.bind fun _ => ih

/-- The session reads one message after its handshake, and goes on with the calls. -/
theorem takes_session (cs : List (Call V)) : (session rt fuel cs).Takes (Taken rt fuel) [] := by
  refine Prog.Takes.bind ?_ fun _ => takes_calls cs
  refine ⟨rfl, fun messages hmessages => ?_⟩
  obtain ⟨front, last, rfl, hfront, _⟩ := hmessages
  rw [hfront (by decide)]
  exact fun self => rfl

end

/-! ## What the server answers -/

/-- The client can decode a message, if it is one that is relayed. -/
def Decodes {V : Type} (rt : Runtime V) (message : Message) : Prop :=
  message.jsondata.get? "status" = none → ∀ err, DimeClient.judge rt message ≠ .fail err

/-- The answer to a request: one reply, and before the reply to a `sync` the messages that are
relayed. -/
def Complete (request : Message) (messages : List Message) : Prop :=
  ∃ relayed reply, messages = relayed ++ [reply] ∧
    (Hub.command request.jsondata ≠ "sync" → relayed = []) ∧
    (reply.jsondata.get? "status").isSome ∧
    ∀ message ∈ relayed, message.jsondata.get? "status" = none

section

variable {V : Type} {rt : Runtime V} {fuel : Nat} {request message : Message}
  {messages stream : List Message} {waiting : Bool} {exchanges : List (Message × List Message)}

theorem not_passes_reply (h : (message.jsondata.get? "status").isSome) :
    ¬ Passes (listener rt) (DimeClient.judge rt) message := by
  rw [passes_iff]
  unfold DimeClient.judge
  rw [if_pos h]
  cases checkStatus rt message.jsondata with
  | error err => simp
  | ok _ => simp

theorem passes_relayed (h : message.jsondata.get? "status" = none) :
    Passes (listener rt) (DimeClient.judge rt) message ↔ Decodes rt message := by
  rw [passes_iff, Decodes]
  constructor
  · exact fun hpasses _ => hpasses.2
  · refine fun hdecodes => ⟨?_, hdecodes h⟩
    unfold DimeClient.judge
    simp only [h]
    split
    next hbad => cases hbad
    next =>
      split
      · simp
      · split
        · simp
        · simp

/-- An answer that can be decoded is read as a whole. -/
theorem Complete.taken (h : Complete request messages)
    (hdecodes : ∀ message ∈ messages, Decodes rt message) (hfuel : messages.length ≤ fuel) :
    Taken rt fuel request messages := by
  obtain ⟨relayed, reply, rfl, hnone, hreply, hrelayed⟩ := h
  refine ⟨relayed, reply, rfl, hnone, fun _ => ⟨?_, not_passes_reply hreply, ?_⟩⟩
  · intro message hmem
    exact (passes_relayed (hrelayed message hmem)).mpr (hdecodes message (List.mem_append_left _ hmem))
  · simpa using hfuel

/-- Any other one is read up to the first message that cannot be decoded. -/
theorem Complete.stops (h : Complete request messages)
    (hbad : ∃ message ∈ messages, ¬ Decodes rt message) (hfuel : messages.length ≤ fuel) :
    ∃ front last behind, messages = front ++ last :: behind ∧ behind ≠ [] ∧ ¬ Decodes rt last ∧
      Taken rt fuel request (front ++ [last]) := by
  obtain ⟨relayed, reply, rfl, hnone, hreply, hrelayed⟩ := h
  have hstop : ∃ message ∈ relayed, ¬ Passes (listener rt) (DimeClient.judge rt) message := by
    obtain ⟨message, hmem, hmessage⟩ := hbad
    rcases List.mem_append.mp hmem with hmem | hmem
    · exact ⟨message, hmem, fun hpasses => hmessage ((passes_relayed (hrelayed message hmem)).mp hpasses)⟩
    · rw [List.mem_singleton.mp hmem] at hmessage
      refine absurd (fun hbad => ?_) hmessage
      rw [hbad] at hreply
      cases hreply
  obtain ⟨front, last, behind, rfl, hlast, hfront⟩ := exists_stop hstop
  have hmem : last ∈ front ++ last :: behind := by simp
  have hsync : Hub.command request.jsondata = "sync" := by
    by_contra hne
    exact absurd (hnone hne) (List.append_ne_nil_of_right_ne_nil _ (List.cons_ne_nil _ _))
  refine ⟨front, last, behind ++ [reply], by simp, by simp,
    fun hdecodes => hlast ((passes_relayed (hrelayed last hmem)).mpr hdecodes),
    front, last, rfl, fun hne => absurd hsync hne, fun _ => ⟨hfront, hlast, ?_⟩⟩
  simp only [List.length_append, List.length_cons, List.length_nil] at hfuel
  omega

/-- What has been pushed to the client is the answers to its requests, all of which it can
decode; where it waits for messages, the `wait` is still to be answered. -/
structure Matched (rt : Runtime V) (exchanges : List (Message × List Message))
    (stream : List Message) (waiting : Bool) : Prop where
  shared : exchanges.flatMap Prod.snd = stream
  quiet : reregisterMessage ∉ stream
  decodes : ∀ message ∈ stream, Decodes rt message
  answered : waiting = false → ∀ exchange ∈ exchanges, Complete exchange.1 exchange.2
  awaits : waiting = true → ∃ front request, exchanges = front ++ [(request, [])] ∧
    Hub.command request.jsondata ≠ "sync" ∧ ∀ exchange ∈ front, Complete exchange.1 exchange.2

/-- Among the answers is one of which the client reads a part only. -/
def Strays (rt : Runtime V) (fuel : Nat) (exchanges : List (Message × List Message))
    (stream : List Message) : Prop :=
  ∃ good request front last behind tail,
    exchanges = good ++ (request, front ++ last :: behind) :: tail ∧ behind ≠ [] ∧
    (∀ exchange ∈ good, Taken rt fuel exchange.1 exchange.2) ∧
    Taken rt fuel request (front ++ [last]) ∧ ¬ Decodes rt last ∧
    good.flatMap Prod.snd ++ (front ++ [last]) <+: stream

theorem taken_of_complete {taken : List (Message × List Message)}
    (hcomplete : ∀ exchange ∈ taken, Complete exchange.1 exchange.2)
    (hdecodes : ∀ message ∈ taken.flatMap Prod.snd, Decodes rt message)
    (hfuel : (taken.flatMap Prod.snd).length < fuel) :
    ∀ exchange ∈ taken, Taken rt fuel exchange.1 exchange.2 := by
  intro exchange hmem
  have hsub : exchange.2.Sublist (taken.flatMap Prod.snd) :=
    List.sublist_flatten_of_mem (List.mem_map_of_mem hmem)
  exact (hcomplete exchange hmem).taken (fun message hmessage => hdecodes message (hsub.subset hmessage))
    (hsub.length_le.trans hfuel.le)

section

variable {method : Method Unit} {self : DimeClient}

/-- While it waits, the client asks for nothing else. -/
theorem Matched.requests_eq (h : Matched rt exchanges stream true) (hfuel : stream.length < fuel)
    (hmethod : method.Takes (Taken rt fuel) [])
    (hrequests : exchanges.map Prod.fst <+: (hear method self stream).requests) :
    (hear method self stream).requests = exchanges.map Prod.fst := by
  obtain ⟨front, request, rfl, hcommand, hfront⟩ := h.awaits rfl
  obtain rfl : front.flatMap Prod.snd = stream := by simpa using h.shared
  rw [List.map_append, List.map_singleton] at hrequests ⊢
  have hlast : Taken rt fuel request [reregisterMessage] := taken_single hcommand
  exact hmethod.requests_eq (taken_of_complete hfront h.decodes hfuel) hlast (List.cons_ne_nil _ _)
    hrequests

/-- Every answer is read for the request that it is the answer to. -/
theorem Matched.exchanges_prefix (h : Matched rt exchanges stream waiting)
    (hfuel : stream.length < fuel) (hmethod : method.Takes (Taken rt fuel) [])
    (hrequests : exchanges.map Prod.fst <+: (hear method self stream).requests) :
    exchanges <+: (method.exchanges self stream).2 := by
  have hread : ∀ taken : List (Message × List Message), taken.flatMap Prod.snd = stream →
      (∀ exchange ∈ taken, Complete exchange.1 exchange.2) →
      taken.map Prod.fst <+: (hear method self stream).requests →
      taken <+: (method.exchanges self stream).2 := by
    rintro taken rfl hcomplete hsent
    rw [← List.append_nil (taken.flatMap Prod.snd)] at hsent ⊢
    exact (hmethod.exchanges_prefix (taken_of_complete hcomplete h.decodes hfuel) hsent).2
  cases waiting with
  | false => exact hread exchanges h.shared (h.answered rfl) hrequests
  | true =>
      have hlast := h.requests_eq hfuel hmethod hrequests
      obtain ⟨front, request, rfl, _, hfront⟩ := h.awaits rfl
      have hstream : front.flatMap Prod.snd = stream := by simpa using h.shared
      rw [List.map_append] at hrequests hlast
      obtain ⟨more, hmore⟩ := hread front hstream hfront ((List.prefix_append _ _).trans hrequests)
      -- behind the answers there is one request, and nothing to read for it
      have hsent := method.exchanges_requests self stream
      have hparts := (List.suffix_append _ _).isInfix.trans (method.exchanges_read self stream).isInfix
      rw [← hmore, List.map_append, hlast] at hsent
      rw [← hmore, List.flatMap_append, hstream] at hparts
      obtain ⟨⟨request', messages⟩, rfl, rfl⟩ := List.map_eq_singleton_iff.mp (List.append_cancel_left hsent)
      have hlength := hparts.length_le
      rw [List.length_append] at hlength
      have hnone : messages = [] := List.eq_nil_of_length_eq_zero (by simpa using hlength)
      rw [← hmore, hnone]

/-- Where a part of an answer is not read for its request, that is not so. -/
theorem Strays.not_prefix (h : Strays rt fuel exchanges stream)
    (hmethod : method.Takes (Taken rt fuel) [])
    (hrequests : exchanges.map Prod.fst <+: (hear method self stream).requests) :
    ¬ exchanges <+: (method.exchanges self stream).2 := by
  obtain ⟨good, request, front, last, behind, tail, rfl, hbehind, hgood, htaken, _, hstream⟩ := h
  obtain ⟨rest, rfl⟩ := hstream
  have hall : ∀ exchange ∈ good ++ [(request, front ++ [last])],
      Taken rt fuel exchange.1 exchange.2 :=
    List.forall_mem_append.mpr ⟨hgood, List.forall_mem_singleton.mpr htaken⟩
  have hflat : good.flatMap Prod.snd ++ (front ++ [last]) =
      (good ++ [(request, front ++ [last])]).flatMap Prod.snd := by simp
  rw [hflat] at hrequests ⊢
  have hsent : (good ++ [(request, front ++ [last])]).map Prod.fst <+:
      (good ++ (request, front ++ last :: behind) :: tail).map Prod.fst := by
    rw [List.map_append, List.map_append]
    exact (List.prefix_append_right_inj _).mpr (List.cons_prefix_cons.mpr ⟨rfl, List.nil_prefix⟩)
  obtain ⟨_, hread⟩ := hmethod.exchanges_prefix hall (hsent.trans hrequests)
  intro hprefix
  obtain ⟨more, hmore⟩ := hread
  obtain ⟨more', hmore'⟩ := hprefix
  rw [List.nil_append, ← hmore', List.append_assoc, List.append_assoc] at hmore
  have hhead := List.append_cancel_left hmore
  rw [List.singleton_append, List.cons_append, List.cons.injEq, Prod.mk.injEq] at hhead
  have hcut : [last] = last :: behind := List.append_cancel_left hhead.1.2
  exact hbehind (List.cons.inj hcut).2.symm

end

/-! ## One event -/

theorem Matched.answer (h : Matched rt exchanges stream false) (hcomplete : Complete request messages)
    (hquiet : reregisterMessage ∉ messages) (hdecodes : ∀ message ∈ messages, Decodes rt message) :
    Matched rt (exchanges ++ [(request, messages)]) (stream ++ messages) false where
  shared := by rw [List.flatMap_append, h.shared, List.flatMap_singleton]
  quiet := by simp [h.quiet, hquiet]
  decodes := List.forall_mem_append.mpr ⟨h.decodes, hdecodes⟩
  answered _ := List.forall_mem_append.mpr ⟨h.answered rfl, List.forall_mem_singleton.mpr hcomplete⟩
  awaits hbad := by cases hbad

theorem Matched.wait (h : Matched rt exchanges stream false)
    (hcommand : Hub.command request.jsondata ≠ "sync") :
    Matched rt (exchanges ++ [(request, [])]) stream true where
  shared := by rw [List.flatMap_append, h.shared, List.flatMap_singleton, List.append_nil]
  quiet := h.quiet
  decodes := h.decodes
  answered hbad := by cases hbad
  awaits _ := ⟨exchanges, request, rfl, hcommand, h.answered rfl⟩

/-- The client is told of a message. -/
theorem Matched.wake (h : Matched rt exchanges stream true)
    (hstatus : (message.jsondata.get? "status").isSome) (hne : message ≠ reregisterMessage) :
    Matched rt (exchanges.modifyLast fun exchange => (exchange.1, exchange.2 ++ [message]))
      (stream ++ [message]) false := by
  obtain ⟨front, request, rfl, hcommand, hfront⟩ := h.awaits rfl
  have hstream : front.flatMap Prod.snd = stream := by simpa using h.shared
  have hreply : Complete request [message] := ⟨[], message, rfl, fun _ => rfl, hstatus, by simp⟩
  have hdecodes : Decodes rt message := by
    intro hnone
    rw [hnone] at hstatus
    cases hstatus
  rw [List.modifyLast_concat, List.nil_append]
  refine ⟨by simp [hstream], by simp [h.quiet, Ne.symm hne], ?_, fun _ => ?_, fun hbad => by cases hbad⟩
  · exact List.forall_mem_append.mpr ⟨h.decodes, List.forall_mem_singleton.mpr hdecodes⟩
  · exact List.forall_mem_append.mpr ⟨hfront, List.forall_mem_singleton.mpr hreply⟩

/-- An answer that cannot be decoded. -/
theorem Matched.stray (h : Matched rt exchanges stream false) (hcomplete : Complete request messages)
    (hbad : ∃ message ∈ messages, ¬ Decodes rt message) (hfuel : (stream ++ messages).length < fuel) :
    Strays rt fuel (exchanges ++ [(request, messages)]) (stream ++ messages) := by
  rw [List.length_append] at hfuel
  obtain ⟨front, last, behind, rfl, hbehind, hlast, htaken⟩ :=
    hcomplete.stops hbad (by omega : messages.length ≤ fuel)
  obtain rfl := h.shared
  refine ⟨exchanges, request, front, last, behind, [], rfl, hbehind,
    taken_of_complete (h.answered rfl) h.decodes (by omega), htaken, hlast, behind, ?_⟩
  simp

theorem Strays.grow (h : Strays rt fuel exchanges stream) (more : List Message) :
    Strays rt fuel exchanges (stream ++ more) := by
  obtain ⟨good, request, front, last, behind, tail, heq, hbehind, hgood, htaken, hlast, hstream⟩ := h
  exact ⟨good, request, front, last, behind, tail, heq, hbehind, hgood, htaken, hlast,
    hstream.trans (List.prefix_append _ _)⟩

theorem Strays.answer (h : Strays rt fuel exchanges stream)
    (exchange : Message × List Message) : Strays rt fuel (exchanges ++ [exchange]) stream := by
  obtain ⟨good, request, front, last, behind, tail, rfl, hrest⟩ := h
  exact ⟨good, request, front, last, behind, tail ++ [exchange], by simp, hrest⟩

theorem Strays.wake (h : Strays rt fuel exchanges stream) (messages : List Message) :
    Strays rt fuel (exchanges.modifyLast fun exchange => (exchange.1, exchange.2 ++ messages))
      stream := by
  obtain ⟨good, request, front, last, behind, tail, rfl, hbehind, hrest⟩ := h
  rw [List.modifyLast_append_of_right_ne_nil _ _ _ (List.cons_ne_nil _ _)]
  cases tail with
  | nil =>
      refine ⟨good, request, front, last, behind ++ messages, [], ?_, by simp [hbehind], hrest⟩
      change good ++ [(request, front ++ last :: behind ++ messages)] = _
      simp
  | cons exchange tail =>
      have hfirst := List.modifyLast_append_of_right_ne_nil
        (fun exchange : Message × List Message => (exchange.1, exchange.2 ++ messages))
        [(request, front ++ last :: behind)] (exchange :: tail) (List.cons_ne_nil _ _)
      exact ⟨good, request, front, last, behind, _, congrArg (good ++ ·) hfirst, hbehind, hrest⟩

end

/-! ## Runs of the network -/

open Server

/-- The event is the handshake of another client, and makes the server change its
serialization while the client is connected. -/
def disturbs (c : ClientPtr) (entry : Server × Action) : Bool :=
  match entry.2 with
  | .command c' jsondata _ =>
      decide (c' ≠ c) && (entry.1.clnts.cells c).isSome && entry.1.serialization.switches jsondata
  | _ => false

/-- As long as a client is connected, no handshake of another one makes the server change its
serialization. -/
def Undisturbed (history : List (Server × Action)) (c : ClientPtr) : Prop :=
  ∀ entry ∈ history, disturbs c entry = false

instance (history : List (Server × Action)) (c : ClientPtr) : Decidable (Undisturbed history c) :=
  inferInstanceAs (Decidable (∀ entry ∈ history, disturbs c entry = false))

/-- How far a run has gone well for a client: all that it has been sent is the answers to its
requests, or a part of an answer is not read, or it has been told to switch first of all. -/
def Tracks {V : Type} (rt : Runtime V) (fuel : Nat) (history : List (Server × Action))
    (c : ClientPtr) (exchanges : List (Message × List Message)) (stream : List Message)
    (waiting : Bool) : Prop :=
  (Undisturbed history c ∧ Matched rt exchanges stream waiting) ∨ Strays rt fuel exchanges stream ∨
    (¬ Undisturbed history c ∧ ∃ rest, stream = reregisterMessage :: rest)

section

variable {V W : Type} {platform : Platform V W} {endpoint : ClientPtr → Endpoint V W}
  {jansson : Jansson Json} {loads : CString → Json} {history : List (Server × Action)}
  {mid srv : Server} {action : Action} {c : ClientPtr} {clnt clnt' : Client}
  {cs : List (Call W)} {outs : List Outgoing}

theorem disturbs_of_ne (hno : ∀ c₀ jsondata bindata, action ≠ .command c₀ jsondata bindata) :
    disturbs c (mid, action) = false := by
  cases action with
  | command c₀ jsondata bindata => exact absurd rfl (hno c₀ jsondata bindata)
  | accept fd ws => rfl
  | find fd => rfl
  | transfer c₀ sock => rfl
  | close c₀ => rfl

theorem undisturbed_append : Undisturbed (history ++ [(mid, action)]) c ↔
    Undisturbed history c ∧ disturbs c (mid, action) = false := by
  rw [Undisturbed, List.forall_mem_append, List.forall_mem_singleton]
  rfl

/-- The server answers every request of the session. -/
theorem requests_not_mute (hclient : endpoint c = .javascript cs) (inbox : List Message) :
    ∀ request ∈ (endpoint c).requests platform inbox, ¬ Hub.Mute request.jsondata := by
  have hname : ∀ {jsondata : Json} {name : String}, jsondata.unpackString "command" = some name →
      name ≠ "handshake" → name ≠ "sync" → ¬ Hub.Mute jsondata := fun hcommand =>
    Hub.not_mute_of_command (command_eq hcommand)
  have hcalls : OfCalls fun request => ¬ Hub.Mute request.jsondata := by
    constructor
    · exact fun _ => hname (show _ = some "join" from rfl) (by decide) (by decide)
    · exact fun _ => hname (show _ = some "leave" from rfl) (by decide) (by decide)
    · exact fun _ _ _ _ => hname (show _ = some "send" from rfl) (by decide) (by decide)
    · exact fun _ _ _ => hname (show _ = some "broadcast" from rfl) (by decide) (by decide)
    · rintro n (⟨hbad, _⟩ | ⟨_, hbad⟩)
      · exact command_ne (show _ = some "sync" from rfl) (by decide) hbad
      · cases hbad
    · exact hname (show _ = some "wait" from rfl) (by decide) (by decide)
    · exact hname (show _ = some "devices" from rfl) (by decide) (by decide)
  have hissues := (inherited_issues (listener platform.javascript)
      fun request => ¬ Hub.Mute request.jsondata).calls
    (calls platform.javascript platform.fuel) rfl (fun _ _ => rfl)
    (method_issues platform.javascript platform.fuel hcalls) cs
  obtain ⟨rest, hrequests, hrest⟩ := session_requests hissues .new inbox
  intro request hmem
  rw [hclient, show (Endpoint.javascript cs : Endpoint V W).requests platform inbox = _ from
    hrequests] at hmem
  rcases List.mem_cons.mp hmem with rfl | hmem
  · rintro (⟨_, _, _, hserialization, _, hunknown⟩ | ⟨hbad, _⟩)
    · cases hserialization
      cases hunknown
    · exact command_ne (show _ = some "handshake" from rfl) (by decide) hbad
  · exact hrest request hmem

theorem Strays.note {rt : Runtime W} {fuel : Nat} {exchanges : List (Message × List Message)}
    {stream : List Message} (h : Strays rt fuel exchanges stream) (more : List Message) :
    Strays rt fuel (Server.note jansson loads c mid action srv exchanges) (stream ++ more) := by
  apply Strays.grow
  cases action with
  | command c' jsondata bindata =>
      unfold Server.note
      by_cases hown : c' = c
      · simp only [if_pos hown]
        exact h.answer _
      · simp only [if_neg hown]
        exact h.wake _
  | accept fd ws => exact h
  | find fd => exact h
  | transfer c' sock => exact h
  | close c' => exact h

/-- A status of the server other than that of the message that makes clients switch. -/
theorem ne_reregister {message : Message}
    (h : message.jsondata.get? "status" ≠ some (.integer 1)) : message ≠ reregisterMessage := by
  rintro rfl
  exact h rfl

theorem reply_message {out : Outgoing} (hparsed : out.Parsed jansson loads)
    (hstatus : out.status = some 0 ∨ out.status = some (-1)) :
    ((out.message jansson loads).jsondata.get? "status").isSome ∧
      out.message jansson loads ≠ reregisterMessage := by
  rcases hstatus with hstatus | hstatus
  · have hread := Outgoing.status_message hparsed hstatus
    exact ⟨by rw [hread]; rfl, ne_reregister (by rw [hread]; decide)⟩
  · have hread := Outgoing.status_message hparsed hstatus
    exact ⟨by rw [hread]; rfl, ne_reregister (by rw [hread]; decide)⟩

/-- What is pushed to a client as its request is handled. -/
theorem complete_answer (h : Reaches jansson history srv)
    (hdriven : Driven platform endpoint jansson loads history)
    (hloads : ∀ jsondata ∈ submissions history, loads (jansson.dumps jsondata) = jsondata)
    (hc : srv.clnts.cells c = some clnt) (hparsed : ∀ out ∈ clnt.sent, out.Parsed jansson loads)
    {before : List Outgoing} {relays : List Queued} {out : Outgoing}
    (hsent : clnt.sent = before ++ (relays.map Queued.out ++ [out])) {request : Message}
    (hnone : Hub.command request.jsondata ≠ "sync" → relays = [])
    (hstatus : out.status = some 0 ∨ out.status = some (-1)) :
    Complete request ((relays.map Queued.out ++ [out]).map (Outgoing.message jansson loads)) ∧
      reregisterMessage ∉
        (relays.map Queued.out ++ [out]).map (Outgoing.message jansson loads) := by
  have hmem : ∀ pushed ∈ relays.map Queued.out ++ [out], pushed ∈ clnt.sent := by
    intro pushed hpushed
    rw [hsent]
    exact List.mem_append_right _ hpushed
  obtain ⟨hreply, hne⟩ := reply_message (hparsed out (hmem out (by simp))) hstatus
  have hrelayed : ∀ m ∈ relays, (m.out.message jansson loads).jsondata.get? "status" = none :=
    fun m hm => hdriven.status_relayed h hloads hc
      (hmem m.out (List.mem_append_left _ (List.mem_map_of_mem hm)))
  rw [List.map_append, List.map_singleton, List.map_map]
  refine ⟨⟨_, _, rfl, fun hsync => by rw [hnone hsync]; rfl, hreply, ?_⟩, ?_⟩
  · intro message hmessage
    obtain ⟨m, hm, rfl⟩ := List.mem_map.mp hmessage
    exact hrelayed m hm
  · intro hbad
    rcases List.mem_append.mp hbad with hbad | hbad
    · obtain ⟨m, hm, heq⟩ := List.mem_map.mp hbad
      refine ne_reregister ?_ heq
      rw [show ((Outgoing.message jansson loads ∘ Queued.out) m).jsondata.get? "status" = none from
        hrelayed m hm]
      decide
    · exact hne (List.mem_singleton.mp hbad).symm

/-- A request of the client is handled. -/
theorem tracks_own {srv' : Server} {jsondata : Json} {bindata : Bytes}
    (hmid : Reaches jansson history mid)
    (hafter : Reaches jansson (history ++ [(mid, .command c jsondata bindata)]) srv')
    (hdriven : Driven platform endpoint jansson loads
      (history ++ [(mid, .command c jsondata bindata)]))
    (hacts : mid.view.Handles jansson c jsondata bindata srv'.view)
    (hclient : endpoint c = .javascript cs)
    (hloads : ∀ request ∈ submissions (history ++ [(mid, .command c jsondata bindata)]),
      loads (jansson.dumps request) = request)
    (hc : mid.clnts.cells c = some clnt) (hc' : srv'.clnts.cells c = some clnt')
    (hsent : clnt'.sent = clnt.sent ++ outs)
    (hparsed : ∀ out ∈ clnt'.sent, out.Parsed jansson loads)
    (hfuel : clnt'.sent.length < platform.fuel) (hcalm : Undisturbed history c)
    (hmatched : Matched platform.javascript (exchanged jansson loads history mid c)
      (mid.stream jansson loads c) clnt.waiting) :
    Tracks platform.javascript platform.fuel (history ++ [(mid, .command c jsondata bindata)]) c
      (exchanged jansson loads history mid c ++
        [(⟨jsondata, bindata⟩, outs.map (Outgoing.message jansson loads))])
      (mid.stream jansson loads c ++ outs.map (Outgoing.message jansson loads)) clnt'.waiting := by
  obtain ⟨hbefore, hfollows⟩ := driven_append.mp hdriven
  have hnext : ((endpoint c).requests platform (mid.stream jansson loads c))[
      (handled history c).length]? = some ⟨jsondata, bindata⟩ := hfollows
  have hlength : (mid.stream jansson loads c ++
      outs.map (Outgoing.message jansson loads)).length < platform.fuel := by
    rw [stream_eq hc, ← List.map_append, ← hsent, List.length_map]
    exact hfuel
  have hundisturbed : Undisturbed (history ++ [(mid, .command c jsondata bindata)]) c := by
    exact undisturbed_append.mpr ⟨hcalm, by simp [disturbs]⟩
  have hmute : ¬ Hub.Mute jsondata :=
    requests_not_mute hclient _ _ (List.mem_of_getElem? hnext)
  have hawake : clnt.waiting = false := by
    rw [Bool.eq_false_iff]
    intro hwaiting
    rw [hwaiting] at hmatched
    have hsession := hmid.handled_sent hbefore c clnt hc
    rw [← exchanged_requests history mid c] at hsession hnext
    rw [hclient] at hsession hnext
    have htakes : (session platform.javascript platform.fuel cs).Takes
        (Taken platform.javascript platform.fuel) [] := takes_session cs
    have hall := hmatched.requests_eq (lt_of_le_of_lt (by simp) hlength) htakes hsession
    rw [show (Endpoint.javascript cs : Endpoint V W).requests platform _ = _ from hall,
      List.getElem?_eq_none le_rfl] at hnext
    cases hnext
  have hpeer : mid.view.peers c = some (clnt.view mid.content) := by
    rw [view_peers, hc, Option.map_some]
  obtain ⟨peer', outs', hpeer', hsent', hanswer⟩ := hacts.answers hmute hpeer hawake
  rw [view_peers, hc', Option.map_some] at hpeer'
  cases hpeer'
  obtain rfl : outs = outs' := List.append_cancel_left (hsent.symm.trans hsent')
  rw [hawake] at hmatched
  rcases hanswer with ⟨hwaiting, relays, out, rfl, hnone, hstatus⟩ | ⟨hwait, hwaiting, rfl⟩
  · have hmessages : Complete ⟨jsondata, bindata⟩ _ ∧ _ :=
      complete_answer hafter hdriven hloads hc' hparsed hsent hnone hstatus
    obtain ⟨hcomplete, hquiet⟩ := hmessages
    rw [show clnt'.waiting = false from hwaiting]
    by_cases hdecodes : ∀ message ∈ (relays.map Queued.out ++ [out]).map
        (Outgoing.message jansson loads), Decodes platform.javascript message
    · exact .inl ⟨hundisturbed, hmatched.answer hcomplete hquiet hdecodes⟩
    · exact .inr (.inl (hmatched.stray hcomplete (by simpa using hdecodes) hlength))
  · rw [show clnt'.waiting = true from hwaiting, List.map_nil, List.append_nil]
    refine .inl ⟨hundisturbed, hmatched.wait ?_⟩
    exact Hub.command_ne hwait (by decide)

theorem switches_json (jsondata : Json) : Serialization.json.switches jsondata = false := by
  unfold Serialization.switches
  cases requested jsondata <;> simp

theorem switches_dimeb (jsondata : Json) : Serialization.dimeb.switches jsondata = false := by
  unfold Serialization.switches
  cases requested jsondata <;> simp

/-- A request of another client is handled. -/
theorem tracks_other {srv' : Server} {c₀ : ClientPtr} {jsondata : Json} {bindata : Bytes}
    (hmid : Reaches jansson history mid)
    (hbefore : Driven platform endpoint jansson loads history)
    (hacts : mid.view.Handles jansson c₀ jsondata bindata srv'.view) (hne : c ≠ c₀)
    (hclient : endpoint c = .javascript cs) (hc : mid.clnts.cells c = some clnt)
    (hc' : srv'.clnts.cells c = some clnt') (hsent : clnt'.sent = clnt.sent ++ outs)
    (hparsed : ∀ out ∈ clnt'.sent, out.Parsed jansson loads) (hcalm : Undisturbed history c)
    (hmatched : Matched platform.javascript (exchanged jansson loads history mid c)
      (mid.stream jansson loads c) clnt.waiting) :
    Tracks platform.javascript platform.fuel (history ++ [(mid, .command c₀ jsondata bindata)]) c
      ((exchanged jansson loads history mid c).modifyLast fun exchange => (exchange.1, exchange.2 ++
        (outs.filter (· ≠ .json reregisterMeta)).map (Outgoing.message jansson loads)))
      (mid.stream jansson loads c ++ outs.map (Outgoing.message jansson loads)) clnt'.waiting := by
  have hpeer' : srv'.view.peers c = some (clnt'.view srv'.content) := by
    rw [view_peers, hc', Option.map_some]
  obtain ⟨peer, told, hpeer, hsent', hwakes⟩ := hacts.wakes hne hpeer'
  rw [view_peers, hc, Option.map_some] at hpeer
  cases hpeer
  have houts : outs = told ++ if mid.serialization.switches jsondata then
      [.json reregisterMeta] else [] := List.append_cancel_left (hsent.symm.trans hsent')
  have hmem : ∀ out ∈ outs, out ∈ clnt'.sent := by
    intro out hout
    rw [hsent]
    exact List.mem_append_right _ hout
  by_cases hswitch : mid.serialization.switches jsondata = true
  · rw [if_pos hswitch] at houts
    have hlinked := hmid.linked hbefore
    have hnil : handled history c = [] := by
      by_contra hhandled
      -- after its handshake the serialization suits the client, and stays
      have hsuits := hlinked.suits c clnt hc hhandled
      rw [hclient] at hsuits
      rcases hsuits with hasked | hdimeb | hjson
      · have hjson : Serialization.json = mid.serialization := Option.some.inj hasked
        rw [← hjson, switches_json] at hswitch
        cases hswitch
      · rw [hdimeb, switches_dimeb] at hswitch
        cases hswitch
      · rw [hjson, switches_json] at hswitch
        cases hswitch
    have hnone : exchanged jansson loads history mid c = [] := by
      rw [← List.map_eq_nil_iff, exchanged_requests, hnil]
    have hempty : mid.stream jansson loads c = [] := by
      rw [← hmatched.shared, hnone, List.flatMap_nil]
    obtain ⟨rfl, _⟩ := hwakes.awake (hlinked.early c clnt hc hnil).1
    rw [List.nil_append] at houts
    have hparsed' : (Outgoing.json reregisterMeta).Parsed jansson loads :=
      hparsed _ (hmem _ (by simp [houts]))
    have hread : (Outgoing.json reregisterMeta).message jansson loads = reregisterMessage :=
      congrArg (fun json => (⟨json, []⟩ : Message)) hparsed'
    refine .inr (.inr ⟨?_, [], ?_⟩)
    · intro hundisturbed
      have hbad := (undisturbed_append.mp hundisturbed).2
      simp [disturbs, hne.symm, hc, hswitch] at hbad
    · rw [hempty, houts, List.map_singleton, hread, List.nil_append]
  · rw [if_neg hswitch, List.append_nil] at houts
    subst houts
    have hundisturbed : Undisturbed (history ++ [(mid, .command c₀ jsondata bindata)]) c := by
      exact undisturbed_append.mpr ⟨hcalm, by simp [disturbs, Bool.eq_false_iff.mpr hswitch]⟩
    left
    refine ⟨hundisturbed, ?_⟩
    rcases hwakes with ⟨rfl, hsame⟩ | ⟨hwaiting, hawake, n, rfl⟩
    · rw [show clnt'.waiting = clnt.waiting from hsame]
      simpa [modifyLast_self] using hmatched
    · have hparsed' := hparsed _ (hmem _ List.mem_cons_self)
      obtain ⟨hreply, hne'⟩ := reply_message hparsed' (.inl rfl)
      have hkept : [Outgoing.json (countReply n)].filter (· ≠ .json reregisterMeta) =
          [.json (countReply n)] := by
        apply List.filter_eq_self.mpr
        intro out hout
        rw [List.mem_singleton.mp hout]
        simp [countReply, reregisterMeta]
      rw [show clnt.waiting = true from hwaiting] at hmatched
      rw [show clnt'.waiting = false from hawake, hkept]
      exact hmatched.wake hreply hne'

/-- An event, for a client that has been there. -/
theorem tracks_step {srv' : Server} (hmid : Reaches jansson history mid)
    (hafter : Reaches jansson (history ++ [(mid, action)]) srv')
    (hdriven : Driven platform endpoint jansson loads (history ++ [(mid, action)]))
    (hacts : mid.view.Acts jansson action srv'.view) (hclient : endpoint c = .javascript cs)
    (hloads : ∀ jsondata ∈ submissions (history ++ [(mid, action)]),
      loads (jansson.dumps jsondata) = jsondata)
    (hc : mid.clnts.cells c = some clnt) (hc' : srv'.clnts.cells c = some clnt')
    (hsent : clnt'.sent = clnt.sent ++ outs)
    (htells : Tells mid.serialization c clnt.waiting clnt'.waiting action outs)
    (hparsed : ∀ out ∈ clnt'.sent, out.Parsed jansson loads)
    (hfuel : clnt'.sent.length < platform.fuel)
    (htracks : Tracks platform.javascript platform.fuel history c
      (exchanged jansson loads history mid c) (mid.stream jansson loads c) clnt.waiting) :
    Tracks platform.javascript platform.fuel (history ++ [(mid, action)]) c
      (exchanged jansson loads (history ++ [(mid, action)]) srv' c) (srv'.stream jansson loads c)
      clnt'.waiting := by
  have hstream : srv'.stream jansson loads c =
      mid.stream jansson loads c ++ outs.map (Outgoing.message jansson loads) := by
    rw [stream_eq hc', stream_eq hc, hsent, List.map_append]
  rw [hstream, exchanged_append]
  rcases htracks with ⟨hcalm, hmatched⟩ | hstrays | ⟨hdisturbed, rest, hrest⟩
  · cases htells with
    | own jsondata bindata _ =>
        rw [note_own jsondata bindata hc hc' hsent]
        exact tracks_own hmid hafter hdriven hacts hclient hloads hc hc' hsent hparsed hfuel hcalm
          hmatched
    | other c₀ jsondata bindata hne _ _ =>
        rw [note_other hne jsondata bindata hc hc' hsent]
        exact tracks_other hmid (driven_append.mp hdriven).1 hacts hne hclient hc hc' hsent hparsed
          hcalm hmatched
    | nothing hno hsame =>
        rw [note_nothing hno, hsame, List.map_nil, List.append_nil]
        exact .inl ⟨undisturbed_append.mpr ⟨hcalm, disturbs_of_ne hno⟩, hmatched⟩
  · exact .inr (.inl (hstrays.note _))
  · refine .inr (.inr ⟨fun hcalm => hdisturbed (undisturbed_append.mp hcalm).1,
      rest ++ outs.map (Outgoing.message jansson loads), ?_⟩)
    rw [hrest, List.cons_append]

/-- A client that is still to come has not been there. -/
theorem undisturbed_fresh (h : Reaches jansson history srv) :
    ∀ c, srv.clnts.next ≤ c → Undisturbed history c := by
  refine Reaches.induct (P := fun history srv => ∀ c, srv.clnts.next ≤ c → Undisturbed history c)
    jansson ?_ ?_ h
  · exact fun _ _ _ _ _ hmem => absurd hmem List.not_mem_nil
  · intro history mid action srv' _ ih _ _ hacts c hc
    have hnext : mid.clnts.next ≤ c := le_trans (Hub.Acts.next_le jansson hacts).1 hc
    have hnone : mid.clnts.cells c = none := by
      rw [Option.eq_none_iff_forall_ne_some]
      exact fun clnt hclnt => absurd (Heap.lt_next hclnt) (not_lt.mpr hnext)
    refine undisturbed_append.mpr ⟨ih c hnext, ?_⟩
    cases action <;> simp [disturbs, hnone]

/-- So it is in every run of the network. -/
theorem tracks (h : Reaches jansson history srv) (hclient : endpoint c = .javascript cs) :
    Driven platform endpoint jansson loads history →
    (∀ jsondata ∈ submissions history, loads (jansson.dumps jsondata) = jsondata) →
    ∀ clnt, srv.clnts.cells c = some clnt → (∀ out ∈ clnt.sent, out.Parsed jansson loads) →
    clnt.sent.length < platform.fuel →
    Tracks platform.javascript platform.fuel history c (exchanged jansson loads history srv c)
      (srv.stream jansson loads c) clnt.waiting := by
  refine Reaches.induct (P := fun history srv =>
    Driven platform endpoint jansson loads history →
    (∀ jsondata ∈ submissions history, loads (jansson.dumps jsondata) = jsondata) →
    ∀ clnt, srv.clnts.cells c = some clnt → (∀ out ∈ clnt.sent, out.Parsed jansson loads) →
    clnt.sent.length < platform.fuel →
    Tracks platform.javascript platform.fuel history c (exchanged jansson loads history srv c)
      (srv.stream jansson loads c) clnt.waiting) jansson ?_ ?_ h
  · intro start hinit _ _ clnt hc
    cases hinit
    cases hc
  · intro history mid action srv' hmid ih henabled hrun hacts hdriven hloads clnt' hc' hparsed hfuel
    obtain ⟨next, hnext, hafter, _⟩ := hmid.perform jansson henabled
    rw [hrun] at hnext
    cases hnext
    rcases tells hacts hc' with ⟨clnt, outs, hc, hsent, htells⟩ | ⟨hnew, hsent, hwaiting, fd, ws, rfl⟩
    · refine tracks_step hmid hafter hdriven hacts hclient hloads hc hc' hsent htells hparsed hfuel ?_
      apply ih (driven_append.mp hdriven).1 _ clnt hc
      · intro out hmem
        exact hparsed out (by rw [hsent]; exact List.mem_append_left _ hmem)
      · exact lt_of_le_of_lt (by rw [hsent]; simp) hfuel
      · intro jsondata hmem
        exact hloads jsondata
          (by rw [submissions, List.filterMap_append]; exact List.mem_append_left _ hmem)
    · have hnext : mid.clnts.next ≤ c := by rw [hnew]
      have hnone : exchanged jansson loads history mid c = [] := by
        rw [← List.map_eq_nil_iff, exchanged_requests, hmid.handled_fresh c hnext]
      rw [exchanged_append, note_nothing fun _ _ _ => Action.noConfusion, hnone, stream_eq hc', hsent,
        hwaiting]
      refine .inl ⟨undisturbed_append.mpr ⟨undisturbed_fresh hmid c hnext, rfl⟩, ?_⟩
      exact ⟨rfl, by simp, by simp, by simp, by simp⟩

/-- What the session of a client reads for each of its requests. -/
def sessionReads (platform : Platform V W) (cs : List (Call W)) (inbox : List Message) :
    List (Message × List Message) :=
  ((session platform.javascript platform.fuel cs).exchanges .new inbox).2

/-- In every run of the network, a JavaScript client takes every reply for the request that
the reply answers, from the handshake on, and takes no message that makes clients switch for a
reply, if and only if no other client's handshake has changed the serialization while it was
connected, and it can decode all that its syncs have fetched. -/
theorem replies_match_iff (h : Reaches jansson history srv)
    (hdriven : Driven platform endpoint jansson loads history)
    (hparses : Parses jansson loads history srv) (hc : srv.clnts.cells c = some clnt)
    (hclient : endpoint c = .javascript cs)
    (hfuel : (srv.stream jansson loads c).length < platform.fuel) :
    (exchanged jansson loads history srv c <+: sessionReads platform cs (srv.stream jansson loads c) ∧
      ∀ exchange ∈ sessionReads platform cs (srv.stream jansson loads c),
        reregisterMessage ∉ exchange.2) ↔
    Undisturbed history c ∧
      ∀ message ∈ srv.stream jansson loads c, Decodes platform.javascript message := by
  have hparsed : ∀ out ∈ clnt.sent, out.Parsed jansson loads := by
    intro out hmem
    exact hparses.1 c (h.inv.registry.mem_clients.mpr ⟨clnt, hc⟩) out (by rwa [sentTo_eq hc])
  have hlength : clnt.sent.length < platform.fuel := by simpa [stream_eq hc] using hfuel
  have htakes : (session platform.javascript platform.fuel cs).Takes
      (Taken platform.javascript platform.fuel) [] := takes_session cs
  have hsession := h.handled_sent hdriven c clnt hc
  rw [hclient, ← exchanged_requests history srv c] at hsession
  have hinbox := (session platform.javascript platform.fuel cs).exchanges_read .new
    (srv.stream jansson loads c)
  rcases tracks h hclient hdriven hparses.2 clnt hc hparsed hlength with
    ⟨hcalm, hmatched⟩ | hstrays | ⟨hdisturbed, rest, hrest⟩
  · refine iff_of_true ⟨hmatched.exchanges_prefix hfuel htakes hsession, ?_⟩ ⟨hcalm, hmatched.decodes⟩
    intro exchange hmem hbad
    apply hmatched.quiet
    apply hinbox.subset
    exact List.mem_append_right _ (List.mem_flatMap.mpr ⟨exchange, hmem, hbad⟩)
  · refine iff_of_false (fun hall => hstrays.not_prefix htakes hsession hall.1) fun hall => ?_
    obtain ⟨good, request, front, last, behind, tail, _, _, _, _, hlast, hstream⟩ := hstrays
    exact hlast (hall.2 last (hstream.subset (by simp)))
  · refine iff_of_false (fun hall => ?_) fun hall => hdisturbed hall.1
    -- the first message is read after the handshake
    rw [hrest] at hall
    exact hall.2 _ List.mem_cons_self List.mem_cons_self

end

/-! ### A page beside a Python and a Matlab client -/

/-- Client 1 is a page that joins a group. -/
def pagePeers (c : ClientPtr) : Endpoint Unit Unit :=
  if c = 0 then .python false [] else if c = 1 then .javascript [.join ["g"]] else .matlab []

/-- Three clients connect, a Python client is the first to shake hands, and the page joins a
group in the end. -/
def withPage (handshakes : List Action) : List Action :=
  [.accept 3 false, .accept 4 true, .accept 5 false,
    .command 0 (Request.handshake "pickle").jsondata []] ++ handshakes ++
    [.command 1 (Request.join ["g"]).jsondata []]

def pageLoads : CString → Json :=
  compactLoads [reregisterMeta, handshakeReply "pickle" false, handshakeReply "dimeb" false,
    statusOkMessage.jsondata, (Request.handshake "pickle").jsondata,
    (Request.handshake "matlab").jsondata, (Request.handshake "json").jsondata,
    (Request.join ["g"]).jsondata]

/-- The page shakes hands before the Matlab client does. -/
theorem replies_match_early : ∃ history srv, Reaches (compactJansson []) history srv ∧
    exchanged (compactJansson []) pageLoads history srv 1 =
      [(Request.handshake "json", [⟨handshakeReply "dimeb" false, []⟩]),
        (Request.join ["g"], [statusOkMessage])] ∧
    exchanged (compactJansson []) pageLoads history srv 1 <+:
      sessionReads plainPlatform [.join ["g"]] (srv.stream (compactJansson []) pageLoads 1) := by
  have hscript : (script (compactJansson []) (withPage
      [.command 1 (Request.handshake "json").jsondata [],
        .command 2 (Request.handshake "matlab").jsondata []])).map
      (fun result : List (Server × Action) × Server =>
        (decide (Driven plainPlatform pagePeers (compactJansson []) pageLoads result.1),
          decide (Parses (compactJansson []) pageLoads result.1 result.2),
          (result.2.clnts.cells 1).isSome, decide (Undisturbed result.1 1),
          decide (result.2.stream (compactJansson []) pageLoads 1 =
            [⟨handshakeReply "dimeb" false, []⟩, statusOkMessage]),
          decide (exchanged (compactJansson []) pageLoads result.1 result.2 1 =
            [(Request.handshake "json", [⟨handshakeReply "dimeb" false, []⟩]),
              (Request.join ["g"], [statusOkMessage])]))) =
      some (true, true, true, true, true, true) := by decide +kernel
  obtain ⟨⟨history, srv⟩, hrun, hvalue⟩ := Option.map_eq_some_iff.mp hscript
  simp only [Prod.mk.injEq, decide_eq_true_iff] at hvalue
  obtain ⟨hdriven, hparses, hsome, hcalm, hstream, hexchanged⟩ := hvalue
  obtain ⟨clnt, hc⟩ := Option.isSome_iff_exists.mp hsome
  have h := script_reaches _ hrun
  have hfuel : (srv.stream (compactJansson []) pageLoads 1).length < plainPlatform.fuel := by
    rw [hstream]
    decide
  refine ⟨history, srv, h, hexchanged, ((replies_match_iff h hdriven hparses hc
    (show pagePeers 1 = .javascript [.join ["g"]] from rfl) hfuel).mpr ⟨hcalm, ?_⟩).1⟩
  rw [hstream]
  intro message hmem hnone
  rcases List.mem_cons.mp hmem with rfl | hmem
  · cases hnone
  · rw [List.mem_singleton.mp hmem] at hnone
    cases hnone

/-- A page that is connected as the Matlab client makes the others switch takes the message for
the reply to its handshake, and that for the reply to its first command. -/
theorem replies_shifted : ¬ ∀ (platform : Platform Unit Unit)
    (endpoint : ClientPtr → Endpoint Unit Unit) (jansson : Jansson Json) (loads : CString → Json)
    history srv c clnt cs, Reaches jansson history srv →
      Driven platform endpoint jansson loads history → Parses jansson loads history srv →
      srv.clnts.cells c = some clnt → endpoint c = .javascript cs →
      (srv.stream jansson loads c).length < platform.fuel →
      exchanged jansson loads history srv c <+:
          sessionReads platform cs (srv.stream jansson loads c) ∧
        ∀ exchange ∈ sessionReads platform cs (srv.stream jansson loads c),
          reregisterMessage ∉ exchange.2 := by
  intro hall
  have hscript : (script (compactJansson []) (withPage
      [.command 2 (Request.handshake "matlab").jsondata [],
        .command 1 (Request.handshake "json").jsondata []])).map
      (fun result : List (Server × Action) × Server =>
        (decide (Driven plainPlatform pagePeers (compactJansson []) pageLoads result.1),
          decide (Parses (compactJansson []) pageLoads result.1 result.2),
          (result.2.clnts.cells 1).isSome,
          decide (result.2.stream (compactJansson []) pageLoads 1 =
            [reregisterMessage, ⟨handshakeReply "dimeb" false, []⟩, statusOkMessage]),
          decide ((Request.join ["g"], [⟨handshakeReply "dimeb" false, []⟩]) ∈
            sessionReads plainPlatform [.join ["g"]]
              (result.2.stream (compactJansson []) pageLoads 1)),
          decide ((Request.handshake "json", [reregisterMessage]) ∈
            sessionReads plainPlatform [.join ["g"]]
              (result.2.stream (compactJansson []) pageLoads 1)))) =
      some (true, true, true, true, true, true) := by decide +kernel
  obtain ⟨⟨history, srv⟩, hrun, hvalue⟩ := Option.map_eq_some_iff.mp hscript
  simp only [Prod.mk.injEq, decide_eq_true_iff] at hvalue
  obtain ⟨hdriven, hparses, hsome, hstream, _, hread⟩ := hvalue
  obtain ⟨clnt, hc⟩ := Option.isSome_iff_exists.mp hsome
  have hfuel : (srv.stream (compactJansson []) pageLoads 1).length < plainPlatform.fuel := by
    rw [hstream]
    decide
  obtain ⟨_, hquiet⟩ := hall plainPlatform pagePeers (compactJansson []) pageLoads history srv 1
    clnt [.join ["g"]] (script_reaches _ hrun) hdriven hparses hc rfl hfuel
  exact hquiet _ hread List.mem_cons_self

end Dime.JavaScript
