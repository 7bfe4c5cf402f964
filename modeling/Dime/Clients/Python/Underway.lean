import Dime.Clients.Batches
import Dime.Clients.Turns

/-!
# A call in a run of the network

What a Python client that has come to one of its calls has sent and read of it: the requests
of the call that have been handled, and where in the messages that the client reads then the
replies to them are.
-/

namespace Dime.Python

open Dialogue Server

variable {V W : Type}

section

variable (platform : Platform V W) (useJson : Bool) (calls : List Call)

/-- The session up to a call. -/
def begun (stream : List Message) : Ended Unit DimeClient String Message Message Unit :=
  hear (session platform.modules platform.fuel useJson calls) ⟨.null, none⟩ stream

/-- The call, from there on. -/
def course (call : Call) (stream : List Message) :
    Ended Unit DimeClient String Message Message Unit :=
  hear (call.method platform.modules platform.fuel) (begun platform useJson calls stream).self
    (begun platform useJson calls stream).unread

end

variable {platform : Platform V W} {useJson : Bool} {before after : List Call} {call : Call}
  {stream : List Message}

theorem calls_append (modules : Modules) (fuel : Nat) (front back : List Call) :
    calls modules fuel (front ++ back) =
      (calls modules fuel front).bind fun _ => calls modules fuel back := by
  induction front with
  | nil => rfl
  | cons call front ih =>
      rw [List.cons_append, calls, ih, calls]
      simp only [Prog.bind_eq, Prog.bind_assoc]

theorem session_append (modules : Modules) (fuel : Nat) (useJson : Bool) (front back : List Call) :
    session modules fuel useJson (front ++ back) =
      (session modules fuel useJson front).bind fun _ => calls modules fuel back := by
  simp only [session, Prog.bind_eq, Prog.bind_assoc, calls_append]

/-- Until a call begins, the client sends what it sends before. -/
theorem requests_of_not_begun (h : (begun platform useJson before stream).outcome ≠ .done ()) :
    (Endpoint.python useJson (before ++ call :: after) : Endpoint V W).requests platform stream =
      (begun platform useJson before stream).requests := by
  rw [Endpoint.requests, session_append]
  exact requests_bind (fun _ => h) _

variable (call after) in
/-- The requests of the call come next, and no others before it is over. -/
theorem requests_of_begun (h : (begun platform useJson before stream).outcome = .done ()) :
    ∃ more, (Endpoint.python useJson (before ++ call :: after) : Endpoint V W).requests platform
        stream = (begun platform useJson before stream).requests ++
          ((course platform useJson before call stream).requests ++ more) ∧
      ((course platform useJson before call stream).outcome.over = false → more = []) := by
  obtain ⟨more, hmore, hover⟩ := requests_attempt_bind silent
    (call.method platform.modules platform.fuel)
    (fun _ => calls platform.modules platform.fuel after)
    (begun platform useJson before stream).self () (begun platform useJson before stream).unread
  refine ⟨more, ?_, hover⟩
  rw [Endpoint.requests, session_append, hear, run_bind_of_outcome h, Ended.after_requests]
  exact congrArg _ hmore

/-! ## More messages -/

theorem begun_append (h : (begun platform useJson before stream).outcome = .done ())
    (more : List Message) : begun platform useJson before (stream ++ more) =
      { begun platform useJson before stream with
        unread := (begun platform useJson before stream).unread ++ more } :=
  hear_append (by rw [← begun, h]; rfl) more

theorem begun_requests_ne_nil : (begun platform useJson before stream).requests ≠ [] := by
  obtain ⟨rest, hrequests, _⟩ := session_requests (calls_inherit platform.modules platform.fuel
    (inherited_issues DimeClient.listener IsCall) before) useJson ⟨.null, none⟩ stream
  rw [begun, hrequests]
  exact List.cons_ne_nil _ _

theorem begun_requests_grow (more : List Message) :
    (begun platform useJson before stream).requests <+:
      (begun platform useJson before (stream ++ more)).requests :=
  hear_requests_prefix _ _ _ _

theorem course_requests_grow (h : (begun platform useJson before stream).outcome = .done ())
    (more : List Message) : (course platform useJson before call stream).requests <+:
      (course platform useJson before call (stream ++ more)).requests := by
  rw [course, course, begun_append h]
  exact hear_requests_prefix _ _ _ _

/-- A call that is over stays as it is. -/
theorem course_append (h : (begun platform useJson before stream).outcome = .done ())
    (hover : (course platform useJson before call stream).outcome.over = true)
    (more : List Message) : course platform useJson before call (stream ++ more) =
      { course platform useJson before call stream with
        unread := (course platform useJson before call stream).unread ++ more } := by
  have hrun := hear_append hover more
  rw [← course] at hrun
  rw [course, begun_append h]
  exact hrun

/-! ## What the client holds -/

/-- The message that makes clients switch, as often as it may come. -/
theorem effects_eq {messages : List Message}
    (hmessages : ∀ message ∈ messages,
      DimeClient.listener.hearing message = .plain ∨ message = reregisterMessage)
    (self : DimeClient) : DimeClient.listener.effects messages self =
      if reregisterMessage ∈ messages then DimeClient.setSerialization (.string "dimeb") self
      else self := by
  have hswitch : DimeClient.listener.hearing reregisterMessage =
      .aside (DimeClient.setSerialization (.string "dimeb")) := by rfl
  induction messages generalizing self with
  | nil => rfl
  | cons message messages ih =>
      obtain ⟨hhead, htail⟩ := List.forall_mem_cons.mp hmessages
      rw [Listener.effects, List.foldl_cons]
      change DimeClient.listener.effects messages _ = _
      rw [ih htail]
      rcases hhead with hplain | rfl
      · have hne : reregisterMessage ≠ message := by
          rintro rfl
          rw [hswitch] at hplain
          cases hplain
        simp [Listener.effect, hplain, hne]
      · have hagain : DimeClient.setSerialization (.string "dimeb")
            (DimeClient.setSerialization (.string "dimeb") self) =
            DimeClient.setSerialization (.string "dimeb") self := rfl
        simp [Listener.effect, hswitch, hagain]

/-- The serialization of the server, as a client has it that has messages left to read. -/
structure Held (name : String) (client : DimeClient) (unread : List Message) : Prop where
  late : ∀ message ∈ unread,
    DimeClient.listener.hearing message = .plain ∨ message = reregisterMessage
  label : Json.string name =
    if reregisterMessage ∈ unread then .string "dimeb" else client.serialization
  codec : client.serialization = .string "dimeb" → client.codec = some .dimeb

/-- Where it is dimeb, the client is not changed by the message that makes it switch. -/
theorem Held.switched {name : String} {client : DimeClient} {unread : List Message}
    (h : Held name client unread) (hdimeb : client.serialization = .string "dimeb") :
    DimeClient.setSerialization (.string "dimeb") client = client := by
  obtain ⟨serialization, codec⟩ := client
  have hcodec : codec = some .dimeb := h.codec hdimeb
  subst hcodec
  subst hdimeb
  rfl

variable {endpoint : ClientPtr → Endpoint V W} {jansson : Jansson Json} {loads : CString → Json}
  {history : List (Server × Action)} {mid srv : Server} {action : Action} {p : ClientPtr}
  {clnt clnt' : Client}

theorem held_begun (h : Reaches jansson history srv)
    (hdriven : Driven platform endpoint jansson loads history)
    (hp : srv.clnts.cells p = some clnt) (hparses : ParsesFor jansson loads history clnt.sent)
    (hhandled : handled history p ≠ [])
    (hfuel : (srv.stream jansson loads p).length < platform.fuel) :
    Held srv.serialization.label
      (begun platform useJson before (srv.stream jansson loads p)).self
      (begun platform useJson before (srv.stream jansson loads p)).unread := by
  obtain ⟨front, name, back, hreads, _⟩ := Python.hears.reads h hdriven hp hparses hhandled
  have hlength : (srv.stream jansson loads p).length = front.length + (back.length + 1) := by
    rw [hreads.split, List.length_append, List.length_cons]
  have hopening : (platform.fuel ≤ front.length ∧ _) ∨ ∃ self,
      hear (opening DimeClient.listener (getitem · "serialization") DimeClient.setSerialization
        platform.fuel (Request.handshake (if useJson then "json" else "pickle"))) ⟨.null, none⟩
        (srv.stream jansson loads p) = ⟨.done (), DimeClient.setSerialization (.string name) self, (),
          [Request.handshake (if useJson then "json" else "pickle")], back⟩ :=
    hreads.run_opening Python.hears rfl rfl _
  rcases hopening with ⟨hbound, _⟩ | ⟨self, hrun⟩
  · omega
  · have hsession : begun platform useJson before (srv.stream jansson loads p) =
        (hear (calls platform.modules platform.fuel before)
          (DimeClient.setSerialization (.string name) self) back).after
            [Request.handshake (if useJson then "json" else "pickle")] :=
      run_bind_done hrun _
    obtain ⟨read, hback, hself⟩ := calls_inherit platform.modules platform.fuel
      (inherited_heeds DimeClient.listener IsCall) before
      (DimeClient.setSerialization (.string name) self) back
    rw [hsession, Ended.after_self, Ended.after_unread]
    generalize (hear (calls platform.modules platform.fuel before)
      (DimeClient.setSerialization (.string name) self) back).unread = unread at hback ⊢
    subst hback
    have hlate := hreads.late
    have hlabel := hreads.label
    rw [hself]
    change Held _ (DimeClient.listener.effects read _) _
    rw [effects_eq fun message hmem => hlate message (List.mem_append_left _ hmem)]
    refine ⟨fun message hmem => hlate message (List.mem_append_right _ hmem), ?_, ?_⟩
    · rw [hlabel]
      by_cases hread : reregisterMessage ∈ read
      · simp [hread, DimeClient.setSerialization]
      · by_cases hunread : reregisterMessage ∈ unread <;>
          simp [hread, hunread, DimeClient.setSerialization]
    · by_cases hread : reregisterMessage ∈ read
      · rw [if_pos hread]
        exact fun _ => rfl
      · rw [if_neg hread]
        intro hname
        obtain rfl : name = "dimeb" := Json.string.inj hname
        rfl

/-! ## The requests of a call -/

/-- What an event adds to a list of which a part is looked at, while that part grows at most
beyond the end of the list. -/
theorem take_drop_append {α : Type} {l x : List α} {start size size' : Nat} (hx : x.length ≤ 1)
    (h : size = size' ∨ l.length + x.length ≤ start + size ∧ size ≤ size') :
    ((l ++ x).drop start).take size' = (l.drop start).take size ++
      if start ≤ l.length ∧ l.length < start + size then x else [] := by
  have hdrop : (l.drop start).length = l.length - start := List.length_drop
  by_cases hinside : start ≤ l.length ∧ l.length < start + size
  · rw [if_pos hinside, List.drop_append_of_le_length hinside.1, List.take_of_length_le,
      List.take_of_length_le]
    · omega
    · rw [List.length_append]
      omega
  · rw [if_neg hinside, List.append_nil, List.drop_append]
    have hx' : (x.drop (start - l.length)).take (size' - (l.drop start).length) = [] := by
      apply List.eq_nil_of_length_eq_zero
      simp only [List.length_take, List.length_drop]
      omega
    rw [List.take_append, hx', List.append_nil]
    rcases h with rfl | hshort
    · rfl
    · rw [List.take_of_length_le (by omega), List.take_of_length_le (by omega)]

variable (platform useJson before call jansson loads) in
/-- The requests of the call that have been handled. -/
def callTurns (history : List (Server × Action)) (srv : Server) (p : ClientPtr) : List Turn :=
  ((turns history srv p).drop
    (begun platform useJson before (srv.stream jansson loads p)).requests.length).take
      (course platform useJson before call (srv.stream jansson loads p)).requests.length

variable (platform useJson before jansson loads p) in
/-- As a call begins, all replies have been read, and no `wait` is to be answered. -/
def Settled (srv : Server) : Prop :=
  (∀ message ∈ (begun platform useJson before (srv.stream jansson loads p)).unread,
    message = reregisterMessage) ∧
  ∀ clnt, srv.clnts.cells p = some clnt → clnt.waiting = false

/-- The reply to a request of the call, by the number of the request, and what has been left for
the client to read before it. -/
def ReplyTo (held : Json) (i : Nat) (turn : Turn) (settled : Prop) (unread : List Message) : Prop :=
  ∃ front reply rest, unread = front ++ reply :: rest ∧
    DimeClient.listener.hearing reply = .plain ∧ i ≤ DimeClient.listener.plains front ∧
    (settled → DimeClient.listener.plains front = i) ∧
    Json.string turn.before.serialization.label =
      if reregisterMessage ∈ front then .string "dimeb" else held

variable (platform useJson before call jansson loads p) in
/-- The requests of the call that have been handled are answered in their order; where all earlier
replies have been read, there are no others as long as there is one to come. -/
structure Paced (turns : List Turn) (stream : List Message) (waiting : Bool) : Prop where
  replies : ∀ i turn, turns[i]? = some turn →
    ReplyTo (begun platform useJson before stream).self.serialization i turn
      (∀ first ∈ turns.head?, Settled platform useJson before jansson loads p first.before)
      (begun platform useJson before stream).unread
  awake : turns ≠ [] →
    (∀ first ∈ turns.head?, Settled platform useJson before jansson loads p first.before) →
    ((course platform useJson before call stream).outcome.over = false ∨
      turns.length < (course platform useJson before call stream).requests.length) →
    DimeClient.listener.plains (begun platform useJson before stream).unread = turns.length ∧
      waiting = false

variable {turns : List Turn} {turn : Turn} {more : List Message} {waiting waiting' : Bool}

theorem ReplyTo.append {held : Json} {i : Nat} {settled : Prop} {unread : List Message}
    (h : ReplyTo held i turn settled unread) (more : List Message) :
    ReplyTo held i turn settled (unread ++ more) := by
  obtain ⟨front, reply, rest, rfl, hreply⟩ := h
  exact ⟨front, reply, rest ++ more, by simp, hreply⟩

/-- What is left to read has as many replies as there are requests. -/
theorem Paced.length_le
    (h : Paced platform useJson before call jansson loads p turns stream waiting) :
    turns.length ≤ DimeClient.listener.plains (begun platform useJson before stream).unread := by
  cases hlength : turns.length with
  | zero => exact Nat.zero_le _
  | succ n =>
      have hn : n < turns.length := by omega
      obtain ⟨front, reply, rest, hunread, hplain, hle, _⟩ :=
        h.replies n _ (List.getElem?_eq_getElem hn)
      rw [hunread, Listener.plains_append]
      have hone : 1 ≤ DimeClient.listener.plains (reply :: rest) := by
        rw [Listener.plains, List.filter_cons_of_pos (Listener.isPlain_iff.mpr hplain),
          List.length_cons]
        omega
      omega

/-- An event that handles no request of the call. -/
theorem Paced.other (h : Paced platform useJson before call jansson loads p turns stream waiting)
    (hbegun : (begun platform useJson before stream).outcome = .done ())
    (hmore : turns ≠ [] → ((course platform useJson before call stream).outcome.over = false ∨
        turns.length < (course platform useJson before call stream).requests.length) →
      waiting = false → DimeClient.listener.plains more = 0 ∧ waiting' = false) :
    Paced platform useJson before call jansson loads p turns (stream ++ more) waiting' := by
  have hunread := begun_append hbegun more
  constructor
  · intro i turn hturn
    rw [hunread]
    exact (h.replies i turn hturn).append more
  · intro hne hsettled hunfinished
    have hmid : (course platform useJson before call stream).outcome.over = false ∨
        turns.length < (course platform useJson before call stream).requests.length := by
      by_cases hover : (course platform useJson before call stream).outcome.over = true
      · rw [course_append hbegun hover] at hunfinished
        exact hunfinished
      · exact .inl (Bool.eq_false_iff.mpr hover)
    obtain ⟨hcount, hwaiting⟩ := h.awake hne hsettled hmid
    obtain ⟨hnone, hwaiting'⟩ := hmore hne hmid hwaiting
    refine ⟨?_, hwaiting'⟩
    rw [hunread]
    dsimp only
    rw [Listener.plains_append, hcount, hnone, Nat.add_zero]

/-- A request of the call. -/
theorem Paced.own (h : Paced platform useJson before call jansson loads p turns stream waiting)
    (hbegun : (begun platform useJson before stream).outcome = .done ())
    (hlength : turns.length < (course platform useJson before call stream).requests.length)
    (hlabel : Json.string turn.before.serialization.label =
      if reregisterMessage ∈ (begun platform useJson before stream).unread then .string "dimeb"
      else (begun platform useJson before stream).self.serialization)
    (hfirst : Settled platform useJson before jansson loads p turn.before →
      (∀ message ∈ (begun platform useJson before stream).unread, message = reregisterMessage) ∧
        waiting = false)
    {told : List Message} {reply : Message}
    (htold : ∀ message ∈ told, DimeClient.listener.hearing message = .plain)
    (hreply : DimeClient.listener.hearing reply = .plain)
    (hawake : waiting = false → told = [] ∧ waiting' = false) :
    Paced platform useJson before call jansson loads p (turns ++ [turn])
      (stream ++ (told ++ [reply])) waiting' := by
  have hunread := begun_append hbegun (told ++ [reply])
  have hquiet : reregisterMessage ∉ told := by
    intro hmem
    have hplain := htold _ hmem
    cases hplain
  have hone : DimeClient.listener.plains [reply] = 1 := by
    simp [Listener.plains, Listener.isPlain_iff, hreply]
  have hhead : turns ≠ [] → (turns ++ [turn]).head? = turns.head? :=
    fun hne => List.head?_append_of_ne_nil _ hne
  -- all there is to read are the replies to the requests before
  have hexact : (∀ first ∈ (turns ++ [turn]).head?,
      Settled platform useJson before jansson loads p first.before) →
      DimeClient.listener.plains (begun platform useJson before stream).unread = turns.length ∧
        waiting = false := by
    intro hsettled
    by_cases hne : turns = []
    · subst hne
      obtain ⟨hall, hwaiting⟩ := hfirst (hsettled turn rfl)
      refine ⟨List.length_eq_zero_iff.mpr (List.filter_eq_nil_iff.mpr fun message hmem => ?_),
        hwaiting⟩
      rw [hall message hmem]
      decide
    · rw [hhead hne] at hsettled
      exact h.awake hne hsettled (.inr hlength)
  constructor
  · intro i turn' hturn
    rw [hunread]
    rcases Nat.lt_or_ge i turns.length with hi | hi
    · rw [List.getElem?_append_left hi] at hturn
      rw [hhead (List.ne_nil_of_length_pos (Nat.zero_lt_of_lt hi))]
      exact (h.replies i turn' hturn).append _
    · rw [List.getElem?_append_right hi] at hturn
      obtain ⟨hzero, rfl⟩ : i - turns.length = 0 ∧ turn = turn' := by
        cases hindex : i - turns.length with
        | zero =>
            rw [hindex] at hturn
            exact ⟨rfl, Option.some.inj hturn⟩
        | succ k =>
            rw [hindex] at hturn
            cases hturn
      have hcount := h.length_le
      refine ⟨(begun platform useJson before stream).unread ++ told, reply, [], by simp, hreply,
        ?_, ?_, ?_⟩
      · rw [Listener.plains_append]
        omega
      · intro hsettled
        obtain ⟨hplains, hwaiting⟩ := hexact hsettled
        rw [(hawake hwaiting).1, List.append_nil]
        omega
      · rw [hlabel]
        simp [hquiet]
  · intro _ hsettled _
    obtain ⟨hplains, hwaiting⟩ := hexact hsettled
    obtain ⟨rfl, hwaiting'⟩ := hawake hwaiting
    refine ⟨?_, hwaiting'⟩
    rw [hunread]
    dsimp only
    rw [List.nil_append, Listener.plains_append, hplains, hone, List.length_append,
      List.length_singleton]

theorem Paced.nil : Paced platform useJson before call jansson loads p [] stream waiting :=
  ⟨fun _ _ hturn => (by cases hturn), fun hne => absurd rfl hne⟩

/-! ## Runs -/

/-- An event before the call has begun. -/
theorem callTurns_early (hmid : Reaches jansson history mid)
    (hdriven : Driven platform endpoint jansson loads (history ++ [(mid, action)]))
    (hclient : endpoint p = .python useJson (before ++ call :: after))
    (hp : mid.clnts.cells p = some clnt) {more : List Message}
    (hstream : srv.stream jansson loads p = mid.stream jansson loads p ++ more)
    (hbegun : (begun platform useJson before (mid.stream jansson loads p)).outcome ≠ .done ()) :
    callTurns platform useJson before call jansson loads (history ++ [(mid, action)]) srv p = [] := by
  obtain ⟨hbefore, hfollows⟩ := driven_append.mp hdriven
  have hsession := hmid.handled_sent hbefore p clnt hp
  rw [hclient, requests_of_not_begun hbegun, ← turns_requests history mid p] at hsession
  have hlength := hsession.length_le
  have hgrows : (begun platform useJson before (mid.stream jansson loads p)).requests.length ≤
      (begun platform useJson before (mid.stream jansson loads p ++ more)).requests.length :=
    (begun_requests_grow more).length_le
  rw [← hstream] at hgrows
  rw [List.length_map] at hlength
  rw [callTurns, List.drop_of_length_le, List.take_nil]
  by_cases hown : ∃ jsondata bindata, action = .command p jsondata bindata
  · obtain ⟨jsondata, bindata, rfl⟩ := hown
    have hnext : ((endpoint p).requests platform (mid.stream jansson loads p))[
        (handled history p).length]? = some ⟨jsondata, bindata⟩ := hfollows
    rw [hclient, requests_of_not_begun hbegun, ← turns_requests history mid p,
      List.length_map] at hnext
    have hlt := (List.getElem?_eq_some_iff.mp hnext).1
    rw [turns_own, List.length_append, List.length_singleton]
    omega
  · rw [turns_other fun jsondata bindata heq => hown ⟨jsondata, bindata, heq⟩]
    omega

/-- An event after that: a request of the client is one of the call, or of an earlier one, or of a
later one if the call is over. -/
theorem callTurns_late (hmid : Reaches jansson history mid)
    (hdriven : Driven platform endpoint jansson loads (history ++ [(mid, action)]))
    (hclient : endpoint p = .python useJson (before ++ call :: after))
    (hp : mid.clnts.cells p = some clnt) {more : List Message}
    (hstream : srv.stream jansson loads p = mid.stream jansson loads p ++ more)
    (hbegun : (begun platform useJson before (mid.stream jansson loads p)).outcome = .done ()) :
    (callTurns platform useJson before call jansson loads (history ++ [(mid, action)]) srv p =
        callTurns platform useJson before call jansson loads history mid p ∧
      ∀ jsondata bindata, action = .command p jsondata bindata →
        callTurns platform useJson before call jansson loads history mid p ≠ [] →
        (course platform useJson before call (mid.stream jansson loads p)).outcome.over = true ∧
          (course platform useJson before call (mid.stream jansson loads p)).requests.length ≤
            (callTurns platform useJson before call jansson loads history mid p).length) ∨
    ∃ jsondata bindata, action = .command p jsondata bindata ∧
      callTurns platform useJson before call jansson loads (history ++ [(mid, action)]) srv p =
        callTurns platform useJson before call jansson loads history mid p ++
          [⟨mid, ⟨jsondata, bindata⟩, srv⟩] ∧
      ⟨jsondata, bindata⟩ ∈
        (course platform useJson before call (mid.stream jansson loads p)).requests ∧
      (callTurns platform useJson before call jansson loads history mid p).length <
        (course platform useJson before call (mid.stream jansson loads p)).requests.length ∧
      handled history p ≠ [] := by
  obtain ⟨hbefore, hfollows⟩ := driven_append.mp hdriven
  obtain ⟨rest, hrequests, hover⟩ := requests_of_begun after call hbegun
  have hsession := hmid.handled_sent hbefore p clnt hp
  rw [hclient, hrequests, ← turns_requests history mid p] at hsession
  have hlength := hsession.length_le
  have hsize : (course platform useJson before call (mid.stream jansson loads p)).requests.length =
        (course platform useJson before call (srv.stream jansson loads p)).requests.length ∨
      rest = [] ∧
      (course platform useJson before call (mid.stream jansson loads p)).requests.length ≤
        (course platform useJson before call (srv.stream jansson loads p)).requests.length := by
    rw [hstream]
    by_cases hended : (course platform useJson before call
        (mid.stream jansson loads p)).outcome.over = true
    · rw [course_append hbegun hended]
      exact .inl rfl
    · exact .inr ⟨hover (Bool.eq_false_iff.mpr hended), (course_requests_grow hbegun more).length_le⟩
  have hstart : (begun platform useJson before (srv.stream jansson loads p)).requests =
      (begun platform useJson before (mid.stream jansson loads p)).requests := by
    rw [hstream, begun_append hbegun]
  simp only [List.length_append, List.length_map] at hlength
  unfold callTurns
  rw [hstart]
  by_cases hown : ∃ jsondata bindata, action = .command p jsondata bindata
  · obtain ⟨jsondata, bindata, rfl⟩ := hown
    have hnext : ((endpoint p).requests platform (mid.stream jansson loads p))[
        (handled history p).length]? = some ⟨jsondata, bindata⟩ := hfollows
    rw [hclient, hrequests, ← turns_requests history mid p, List.length_map] at hnext
    have hlt := (List.getElem?_eq_some_iff.mp hnext).1
    simp only [List.length_append] at hlt
    have hshort : rest = [] → (turns history mid p).length <
        (begun platform useJson before (mid.stream jansson loads p)).requests.length +
          (course platform useJson before call (mid.stream jansson loads p)).requests.length := by
      rintro rfl
      simpa using hlt
    have hgrown := take_drop_append (l := turns history mid p)
      (x := [⟨mid, ⟨jsondata, bindata⟩, srv⟩]) (by simp)
      (hsize.imp_right fun hpair => ⟨Nat.succ_le_of_lt (hshort hpair.1), hpair.2⟩)
    rw [turns_own, hgrown]
    by_cases hinside :
        (begun platform useJson before (mid.stream jansson loads p)).requests.length ≤
          (turns history mid p).length ∧
        (turns history mid p).length <
          (begun platform useJson before (mid.stream jansson loads p)).requests.length +
            (course platform useJson before call (mid.stream jansson loads p)).requests.length
    · right
      rw [if_pos hinside]
      refine ⟨jsondata, bindata, rfl, rfl, ?_, ?_, ?_⟩
      · rw [List.getElem?_append_right hinside.1, List.getElem?_append_left (by omega)] at hnext
        exact List.mem_of_getElem? hnext
      · rw [List.length_take, List.length_drop]
        omega
      · have hpos : 0 < (begun platform useJson before
            (mid.stream jansson loads p)).requests.length :=
          List.length_pos_of_ne_nil begun_requests_ne_nil
        intro hnil
        rw [← turns_requests history mid p, List.map_eq_nil_iff] at hnil
        rw [hnil, List.length_nil] at hinside
        omega
    · left
      rw [if_neg hinside, List.append_nil]
      refine ⟨rfl, fun _ _ _ hne => ?_⟩
      have hpos := List.length_pos_of_ne_nil hne
      rw [List.length_take, List.length_drop] at hpos ⊢
      refine ⟨?_, by omega⟩
      by_contra hended
      have hbound := hshort (hover (Bool.eq_false_iff.mpr hended))
      omega
  · have hno : ∀ jsondata bindata, action ≠ .command p jsondata bindata :=
      fun jsondata bindata heq => hown ⟨jsondata, bindata, heq⟩
    left
    refine ⟨?_, fun jsondata bindata heq => absurd heq (hno jsondata bindata)⟩
    rw [turns_other hno]
    have hgrown := take_drop_append (l := turns history mid p) (x := []) (Nat.zero_le _)
      (hsize.imp_right fun hpair => ⟨by rw [hpair.1] at hlength; simpa using hlength, hpair.2⟩)
    simpa using hgrown

/-- A request of the call is handled. -/
theorem paced_own {jsondata : Json} {bindata : Bytes} (hmid : Reaches jansson history mid)
    (hafter : Reaches jansson (history ++ [(mid, .command p jsondata bindata)]) srv)
    (hdriven : Driven platform endpoint jansson loads
      (history ++ [(mid, .command p jsondata bindata)]))
    (hacts : mid.view.Handles jansson p jsondata bindata srv.view)
    (hsends : IsTransmission ⟨jsondata, bindata⟩)
    (hp : mid.clnts.cells p = some clnt) (hp' : srv.clnts.cells p = some clnt')
    (hparses : ParsesFor jansson loads (history ++ [(mid, .command p jsondata bindata)]) clnt'.sent)
    (hfuel : clnt'.sent.length < platform.fuel) (hhandled : handled history p ≠ [])
    (hbegun : (begun platform useJson before (mid.stream jansson loads p)).outcome = .done ())
    (hlength : turns.length <
      (course platform useJson before call (mid.stream jansson loads p)).requests.length)
    (hpaced : Paced platform useJson before call jansson loads p turns
      (mid.stream jansson loads p) clnt.waiting) :
    Paced platform useJson before call jansson loads p
      (turns ++ [⟨mid, ⟨jsondata, bindata⟩, srv⟩]) (srv.stream jansson loads p) clnt'.waiting := by
  have hpeer : mid.view.peers p = some (clnt.view mid.content) := by
    rw [view_peers, hp, Option.map_some]
  obtain ⟨peer', told, out, hpeer', hsent, hwakes, hreply⟩ := hacts.replies hsends.not_mute
    (hsends.ne (by decide) (by decide)) (hsends.ne (by decide) (by decide)) hpeer
  rw [view_peers, hp', Option.map_some] at hpeer'
  cases hpeer'
  have hsent' : clnt'.sent = clnt.sent ++ (told ++ [out]) := hsent
  have hstream : srv.stream jansson loads p = mid.stream jansson loads p ++
      (told.map (Outgoing.message jansson loads) ++ [out.message jansson loads]) := by
    rw [stream_eq hp', stream_eq hp, hsent', List.map_append, List.map_append, List.map_singleton]
  have hplain : ∀ pushed ∈ told ++ [out], pushed.Quiet →
      DimeClient.listener.hearing (pushed.message jansson loads) = .plain :=
    fun pushed hmem hquiet => Python.hears.quiet hafter hdriven hp' hparses
      (by rw [hsent']; exact List.mem_append_right _ hmem) hquiet
  have hbefore := hparses
  rw [hsent'] at hbefore hfuel
  have hheld : Held mid.serialization.label
      (begun platform useJson before (mid.stream jansson loads p)).self
      (begun platform useJson before (mid.stream jansson loads p)).unread := held_begun hmid (driven_append.mp hdriven).1 hp hbefore.front hhandled
    (by rw [stream_eq hp, List.length_map]; exact lt_of_le_of_lt (by simp) hfuel)
  rw [hstream]
  refine hpaced.own hbegun hlength hheld.label (fun hsettled => ⟨hsettled.1, hsettled.2 clnt hp⟩)
    ?_ (hplain out (by simp) hreply.quiet) ?_
  · intro message hmem
    obtain ⟨pushed, hpushed, rfl⟩ := List.mem_map.mp hmem
    exact hplain pushed (List.mem_append_left _ hpushed) (hwakes.quiet pushed hpushed)
  · intro hwaiting
    obtain ⟨rfl, hawake⟩ := hwakes.awake hwaiting
    exact ⟨rfl, hawake⟩

/-- An event, for a client that has been there. -/
theorem paced_step (hmid : Reaches jansson history mid)
    (hafter : Reaches jansson (history ++ [(mid, action)]) srv)
    (hdriven : Driven platform endpoint jansson loads (history ++ [(mid, action)]))
    (hacts : mid.view.Acts jansson action srv.view)
    (hclient : endpoint p = .python useJson (before ++ call :: after))
    (hsends : (call.method platform.modules platform.fuel).Issues IsTransmission)
    (hp : mid.clnts.cells p = some clnt) (hp' : srv.clnts.cells p = some clnt')
    {outs : List Outgoing} (hsent : clnt'.sent = clnt.sent ++ outs)
    (htells : Tells mid.serialization p clnt.waiting clnt'.waiting action outs)
    (hparses : ParsesFor jansson loads (history ++ [(mid, action)]) clnt'.sent)
    (hfuel : clnt'.sent.length < platform.fuel)
    (ih : (begun platform useJson before (mid.stream jansson loads p)).outcome = .done () →
      Paced platform useJson before call jansson loads p
        (callTurns platform useJson before call jansson loads history mid p)
        (mid.stream jansson loads p) clnt.waiting) :
    Paced platform useJson before call jansson loads p
      (callTurns platform useJson before call jansson loads (history ++ [(mid, action)]) srv p)
      (srv.stream jansson loads p) clnt'.waiting := by
  have hstream : srv.stream jansson loads p = mid.stream jansson loads p ++
      outs.map (Outgoing.message jansson loads) := by
    rw [stream_eq hp', stream_eq hp, hsent, List.map_append]
  by_cases hbegun :
      (begun platform useJson before (mid.stream jansson loads p)).outcome = .done ()
  · have hpaced := ih hbegun
    rcases callTurns_late hmid hdriven hclient hp hstream hbegun with
      ⟨hsame, hown⟩ | ⟨jsondata, bindata, rfl, hturns, hmem, hlength, hhandled⟩
    · rw [hsame, hstream]
      refine hpaced.other hbegun fun hne hunfinished hwaiting => ?_
      cases htells with
      | own jsondata bindata _ =>
          obtain ⟨hover, hall⟩ := hown jsondata bindata rfl hne
          rcases hunfinished with hbad | hbad
          · rw [hover] at hbad
            cases hbad
          · exact absurd hbad (Nat.not_lt.mpr hall)
      | other c₀ jsondata bindata hne₀ _ hawake =>
          obtain ⟨rfl, hwaiting'⟩ := hawake hwaiting
          refine ⟨?_, hwaiting'⟩
          by_cases hswitch : mid.serialization.switches jsondata = true
          · rw [if_pos hswitch] at hsent ⊢
            have hparsed : (Outgoing.json reregisterMeta).Parsed jansson loads :=
              hparses.1 _ (by rw [hsent]; simp)
            have hread : (Outgoing.json reregisterMeta).message jansson loads = reregisterMessage :=
              congrArg (fun json => (⟨json, []⟩ : Message)) hparsed
            rw [List.nil_append, List.map_singleton, hread]
            rfl
          · rw [if_neg hswitch]
            rfl
      | nothing _ hsame' => exact ⟨rfl, hsame'.trans hwaiting⟩
    · rw [hturns]
      exact paced_own hmid hafter hdriven hacts (hsends.of_mem _ hmem) hp hp' hparses hfuel hhandled
        hbegun hlength hpaced
  · rw [callTurns_early hmid hdriven hclient hp hstream hbegun]
    exact .nil

/-- So it is in every run of the network. -/
theorem paced (h : Reaches jansson history srv)
    (hclient : endpoint p = .python useJson (before ++ call :: after))
    (hsends : (call.method platform.modules platform.fuel).Issues IsTransmission) :
    Driven platform endpoint jansson loads history →
    ∀ clnt, srv.clnts.cells p = some clnt → ParsesFor jansson loads history clnt.sent →
    clnt.sent.length < platform.fuel →
    (begun platform useJson before (srv.stream jansson loads p)).outcome = .done () →
    Paced platform useJson before call jansson loads p
      (callTurns platform useJson before call jansson loads history srv p)
      (srv.stream jansson loads p) clnt.waiting := by
  refine Reaches.induct (P := fun history srv => Driven platform endpoint jansson loads history →
    ∀ clnt, srv.clnts.cells p = some clnt → ParsesFor jansson loads history clnt.sent →
    clnt.sent.length < platform.fuel →
    (begun platform useJson before (srv.stream jansson loads p)).outcome = .done () →
    Paced platform useJson before call jansson loads p
      (callTurns platform useJson before call jansson loads history srv p)
      (srv.stream jansson loads p) clnt.waiting) jansson ?_ ?_ h
  · intro start hinit _ clnt hp
    cases hinit
    cases hp
  · intro history mid action srv' hmid ih henabled hrun hacts hdriven clnt' hp' hparses hfuel _
    obtain ⟨next, hnext, hafter, _⟩ := hmid.perform jansson henabled
    rw [hrun] at hnext
    cases hnext
    rcases tells hacts hp' with ⟨clnt, outs, hp, hsent, htells⟩ | ⟨hnew, _, _, fd, ws, rfl⟩
    · refine paced_step hmid hafter hdriven hacts hclient hsends hp hp' hsent htells hparses hfuel ?_
      rw [hsent] at hparses hfuel
      exact ih (driven_append.mp hdriven).1 clnt hp hparses.front (lt_of_le_of_lt (by simp) hfuel)
    · have hnone : turns (history ++ [(mid, .accept fd ws)]) srv' p = [] := by
        rw [turns_other fun _ _ => Action.noConfusion, ← List.map_eq_nil_iff, turns_requests]
        exact hmid.handled_fresh p (by rw [hnew])
      rw [callTurns, hnone, List.drop_nil, List.take_nil]
      exact .nil

end Dime.Python
