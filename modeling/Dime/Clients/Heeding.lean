import Dime.Clients.Usable

/-!
# What the clients hold

A Python or Matlab client that has read what has been pushed to it holds the
serialization that it has been told to use: the methods change it for a message that
makes clients switch, and for nothing else.
-/

namespace Dime

open Dialogue

variable {Self Err α : Type}

/-- The message that makes clients switch, as they read it. -/
def reregisterMessage : Message := ⟨reregisterMeta, []⟩

/-- The method reads a part of the messages from the front, and does with the state of the
client what these do. -/
def Heeds (listener : Listener Self Err) (α : Type) (p : Prog Self Err Message Message α) : Prop :=
  ∀ self inbox, ∃ read, inbox = read ++ (hear p self inbox).unread ∧
    (hear p self inbox).self =
      read.foldl (fun self message => listener.effect message self) self

section

variable {listener : Listener Self Err} {fuel : Nat}

theorem Heeds.of_reads_nothing {p : Prog Self Err Message Message α}
    (h : ∀ self inbox, (hear p self inbox).unread = inbox ∧ (hear p self inbox).self = self) :
    Heeds listener α p := by
  intro self inbox
  refine ⟨[], ?_, (h self inbox).2⟩
  rw [(h self inbox).1]
  rfl

theorem heeds_recv (fuel : Nat) : Heeds listener Message (listener.recv fuel) := by
  induction fuel with
  | zero => exact .of_reads_nothing fun _ _ => ⟨rfl, rfl⟩
  | succ fuel ih =>
      intro self inbox
      cases inbox with
      | nil => exact ⟨[], rfl, rfl⟩
      | cons message inbox =>
          simp only [hear, Listener.run_recv_cons]
          cases hhearing : listener.hearing message with
          | plain => exact ⟨[message], rfl, by simp [Listener.effect, hhearing]⟩
          | failed err => exact ⟨[message], rfl, by simp [Listener.effect, hhearing]⟩
          | aside f =>
              obtain ⟨read, hinbox, hself⟩ := ih (f self) inbox
              refine ⟨message :: read, congrArg (message :: ·) hinbox, ?_⟩
              rw [List.foldl_cons, show listener.effect message self = f self by
                simp [Listener.effect, hhearing]]
              exact hself

theorem inherited_heeds (listener : Listener Self Err) (P : Message → Prop) :
    Inherited listener P (Heeds listener) where
  done _ := .of_reads_nothing fun _ _ => ⟨rfl, rfl⟩
  raise _ := .of_reads_nothing fun _ _ => ⟨rfl, rfl⟩
  exhausted := .of_reads_nothing fun _ _ => ⟨rfl, rfl⟩
  get h := fun self inbox => h self self inbox
  request _ _ := .of_reads_nothing fun _ _ => ⟨List.append_nil _, rfl⟩
  recv := heeds_recv
  bind {α β p f} h hf := by
    intro self inbox
    obtain ⟨read, hinbox, hself⟩ := h self inbox
    rw [hear, run_bind]
    cases hp : (hear p self inbox).outcome with
    | done a =>
        obtain ⟨more, hunread, hself'⟩ := hf a (hear p self inbox).self (hear p self inbox).unread
        refine ⟨read ++ more, ?_, ?_⟩
        · simp only [hp, Ended.after_unread]
          rw [List.append_assoc, ← hunread, ← hinbox]
        · simp only [hp, Ended.after_self]
          rw [List.foldl_append, ← hself, ← hself']
    | raised err => exact ⟨read, by simpa [hp] using hinbox, by simpa [hp] using hself⟩
    | exhausted => exact ⟨read, by simpa [hp] using hinbox, by simpa [hp] using hself⟩
    | waiting => exact ⟨read, by simpa [hp] using hinbox, by simpa [hp] using hself⟩
  attempt h := by
    intro self inbox
    rw [hear, run_attempt]
    exact h self inbox

/-- Reading goes past messages for the connection, with a bound above their number. -/
theorem run_recv_skips {message : Message} (hmessage : listener.hearing message = .plain)
    {before : List Message} (hbefore : ∀ message ∈ before, ∃ f, listener.hearing message = .aside f)
    (self : Self) (after : List Message) :
    (fuel ≤ before.length ∧
      (hear (listener.recv fuel) self (before ++ message :: after)).outcome = .exhausted ∧
      message ∈ (hear (listener.recv fuel) self (before ++ message :: after)).unread) ∨
    ∃ self', hear (listener.recv fuel) self (before ++ message :: after) =
      ⟨.done message, self', (), [], after⟩ := by
  induction before generalizing self fuel with
  | nil =>
      cases fuel with
      | zero => exact .inl ⟨le_rfl, rfl, List.mem_cons_self⟩
      | succ fuel => exact .inr ⟨self, Listener.run_recv_plain hmessage⟩
  | cons first rest ih =>
      cases fuel with
      | zero => exact .inl ⟨Nat.zero_le _, rfl, List.mem_append_right _ List.mem_cons_self⟩
      | succ fuel =>
          obtain ⟨f, hf⟩ := hbefore first List.mem_cons_self
          rw [List.cons_append, hear, Listener.run_recv_aside hf, List.length_cons,
            Nat.add_le_add_iff_right]
          exact ih (fun message hmem => hbefore message (List.mem_cons_of_mem _ hmem)) (f self)

/-- Where there are only such messages, it waits behind them. -/
theorem run_recv_waits {messages : List Message}
    (hmessages : ∀ message ∈ messages, ∃ f, listener.hearing message = .aside f)
    (hfuel : messages.length < fuel) (self : Self) :
    (hear (listener.recv fuel) self messages).outcome = .waiting ∧
      (hear (listener.recv fuel) self messages).unread = [] := by
  induction messages generalizing self fuel with
  | nil =>
      cases fuel with
      | zero => simp at hfuel
      | succ fuel => exact ⟨rfl, rfl⟩
  | cons first rest ih =>
      cases fuel with
      | zero => simp at hfuel
      | succ fuel =>
          obtain ⟨f, hf⟩ := hmessages first List.mem_cons_self
          rw [hear, Listener.run_recv_aside hf]
          exact ih (fun message hmem => hmessages message (List.mem_cons_of_mem _ hmem))
            (by simpa using hfuel) (f self)

end

/-! ## The serialization that is held -/

/-- How a client hears what the server sends: what has no status or none above zero is handed
on, and the message that makes clients switch makes it hold dimeb. -/
structure Hears (listener : Listener Self Err) (held : Self → Json) : Prop where
  silent : ∀ message, message.jsondata.get? "status" = none → listener.hearing message = .plain
  replies : ∀ message n, message.jsondata.get? "status" = some (.integer n) → n.toInt ≤ 0 →
    listener.hearing message = .plain
  switch : ∃ f, listener.hearing reregisterMessage = .aside f ∧
    ∀ self, held (f self) = .string "dimeb"

theorem Python.hears : Hears Python.DimeClient.listener Python.DimeClient.serialization where
  silent message h := by
    simp [Listener.hearing, Python.DimeClient.listener, Python.isMeta, h]
  replies message n h hn := by
    have hsign : decide (0 < n.toInt) = false := by simpa using hn
    simp [Listener.hearing, Python.DimeClient.listener, Python.isMeta, h, Python.sign, hsign]
  switch := ⟨Python.DimeClient.setSerialization (.string "dimeb"), by rfl, fun _ => rfl⟩

theorem Matlab.hears {V : Type} (rt : Matlab.Runtime V) :
    Hears (Matlab.Obj.listener rt) Matlab.Obj.serialization where
  silent message h := by
    simp [Listener.hearing, Matlab.Obj.listener, Matlab.isMeta, h]
  replies message n h hn := by
    have hsign : decide (0 < n.toInt) = false := by simpa using hn
    simp [Listener.hearing, Matlab.Obj.listener, Matlab.isMeta, h, rt.positive_integer, hsign]
  switch := by
    refine ⟨fun _ => ⟨.string "dimeb"⟩, ?_, fun _ => rfl⟩
    have hstatus : reregisterMessage.jsondata.get? "status" = some (.integer 1) := rfl
    have hmeta : reregisterMessage.jsondata.get? "meta" = some (.bool true) := rfl
    have hserialization : reregisterMessage.jsondata.get? "serialization" =
      some (.string "dimeb") := rfl
    have hone : (1 : Int64).toInt = 1 := by decide
    simp [Listener.hearing, Matlab.Obj.listener, Matlab.isMeta, hstatus, hmeta,
      rt.positive_integer, rt.truthy_bool, Matlab.Obj.metamsg, hserialization, hone]

/-! ## What has been pushed to them -/

open Server

section

variable (jansson : Jansson Json) (loads : CString → Json)

/-- A message whose JSON text is read as what it was written from. -/
def Outgoing.Parsed : Outgoing → Prop
  | .json body => loads (jansson.dumps body) = body
  | .statusOk => loads statusOkText = statusOkMessage.jsondata
  | .relay .. => True

instance (out : Outgoing) : Decidable (out.Parsed jansson loads) :=
  match out with
  | .json body => inferInstanceAs (Decidable (loads (jansson.dumps body) = body))
  | .statusOk => inferInstanceAs (Decidable (loads statusOkText = statusOkMessage.jsondata))
  | .relay .. => .isTrue trivial

/-- The JSON texts that the server writes and those that it relays are read as what they were
written from. -/
def Parses (history : List (Server × Action)) (srv : Server) : Prop :=
  (∀ c ∈ srv.registered, ∀ out ∈ srv.sentTo c, out.Parsed jansson loads) ∧
    ∀ jsondata ∈ submissions history, loads (jansson.dumps jsondata) = jsondata

instance (history : List (Server × Action)) (srv : Server) :
    Decidable (Parses jansson loads history srv) :=
  inferInstanceAs (Decidable (_ ∧ _))

/-- So is what one client has been sent. -/
def ParsesFor (history : List (Server × Action)) (sent : List Outgoing) : Prop :=
  (∀ out ∈ sent, out.Parsed jansson loads) ∧
    ∀ jsondata ∈ submissions history, loads (jansson.dumps jsondata) = jsondata

end

variable {V W : Type} {platform : Platform V W} {endpoint : ClientPtr → Endpoint V W}
  {jansson : Jansson Json} {loads : CString → Json} {history : List (Server × Action)}
  {mid srv : Server} {action : Action} {c : ClientPtr} {clnt : Client}

theorem Parses.sent (h : Parses jansson loads history srv) (hreaches : Reaches jansson history srv)
    (hc : srv.clnts.cells c = some clnt) : ParsesFor jansson loads history clnt.sent := by
  refine ⟨fun out hmem => ?_, h.2⟩
  exact h.1 c (hreaches.inv.registry.mem_clients.mpr ⟨clnt, hc⟩) out (by rwa [sentTo_eq hc])

/-- What is read so at the end has been before. -/
theorem ParsesFor.front {more : List (Server × Action)} {sent outs : List Outgoing}
    (h : ParsesFor jansson loads (history ++ more) (sent ++ outs)) :
    ParsesFor jansson loads history sent := by
  refine ⟨fun out hmem => h.1 out (List.mem_append_left _ hmem), fun jsondata hmem => h.2 jsondata ?_⟩
  rw [submissions, List.filterMap_append]
  exact List.mem_append_left _ hmem

/-- What the clients submit cannot be taken for a reply. -/
theorem Driven.status_eq_none {jsondata : Json} {bindata : Bytes}
    (h : Driven platform endpoint jansson loads history)
    (hmem : (mid, .command c jsondata bindata) ∈ history) : jsondata.get? "status" = none := by
  obtain ⟨before, after, rfl⟩ := List.append_of_mem hmem
  rcases h.follows.2.cases with ⟨_, hrequest⟩ | ⟨_, _, hstatus⟩
  · rw [show jsondata = (Request.handshake (endpoint c).serialization).jsondata from
      congrArg Socket.Message.jsondata hrequest]
    rfl
  · exact hstatus

theorem get?_of_unpackInt {json : Json} {name : String} {n : Int64}
    (h : json.unpackInt name = some n) : json.get? name = some (.integer n) := by
  unfold Json.unpackInt at h
  split at h
  next m hm =>
    rw [hm, Option.some.inj h]
  next => cases h

/-- Nor can what is relayed to them. -/
theorem Driven.status_relayed (hdriven : Driven platform endpoint jansson loads history)
    (h : Reaches jansson history srv)
    (hloads : ∀ jsondata ∈ submissions history, loads (jansson.dumps jsondata) = jsondata)
    (hc : srv.clnts.cells c = some clnt) {m : Queued} (hmem : m.out ∈ clnt.sent) :
    (m.out.message jansson loads).jsondata.get? "status" = none := by
  obtain ⟨mid, c', submitted, hsubmitted, _, hdumps⟩ := h.relayed hc hmem
  have hjsondata : (m.out.message jansson loads).jsondata = submitted := by
    change loads m.jsondata = submitted
    rw [hdumps, hloads submitted (mem_submissions hsubmitted)]
  rw [hjsondata]
  exact hdriven.status_eq_none hsubmitted

/-- A status is read as it was written. -/
theorem Outgoing.status_message {out : Outgoing} {n : Int64} (hparsed : out.Parsed jansson loads)
    (hstatus : out.status = some n) :
    (out.message jansson loads).jsondata.get? "status" = some (.integer n) := by
  cases out with
  | json body =>
      have hbody : loads (jansson.dumps body) = body := hparsed
      rw [show ((Outgoing.json body).message jansson loads).jsondata = body from hbody]
      exact get?_of_unpackInt hstatus
  | statusOk =>
      have hok : ((Outgoing.statusOk).message jansson loads).jsondata =
        statusOkMessage.jsondata := hparsed
      cases hstatus
      rw [hok]
      rfl
  | relay p jsondata bindata => cases hstatus

/-- Quiet messages are handed on. -/
theorem Hears.quiet {listener : Listener Self Err} {held : Self → Json}
    (hears : Hears listener held) (h : Reaches jansson history srv)
    (hdriven : Driven platform endpoint jansson loads history)
    (hc : srv.clnts.cells c = some clnt) (hparses : ParsesFor jansson loads history clnt.sent)
    {out : Outgoing} (hmem : out ∈ clnt.sent) (hquiet : out.Quiet) :
    listener.hearing (out.message jansson loads) = .plain := by
  have hparsed := hparses.1 out hmem
  rcases hquiet with hrelay | hzero | hneg
  · cases out with
    | json body => cases hrelay
    | statusOk => cases hrelay
    | relay p jsondata bindata =>
        exact hears.silent _ (hdriven.status_relayed h hparses.2 hc (m := ⟨p, jsondata, bindata⟩) hmem)
  · exact hears.replies _ 0 (Outgoing.status_message hparsed hzero) (by decide)
  · exact hears.replies _ (-1) (Outgoing.status_message hparsed hneg) (by decide)

/-- What a handshaken client reads: messages that make it switch, the reply to its handshake,
and then messages that are handed on and such as make it switch. -/
structure Reads (listener : Listener Self Err) (stream : List Message) (label : String)
    (before : List Message) (name : String) (after : List Message) : Prop where
  split : stream = before ++ ⟨handshakeReply name false, []⟩ :: after
  early : ∀ message ∈ before, message = reregisterMessage
  reply : listener.hearing ⟨handshakeReply name false, []⟩ = .plain
  late : ∀ message ∈ after, listener.hearing message = .plain ∨ message = reregisterMessage
  label : label = if reregisterMessage ∈ after then "dimeb" else name

theorem Hears.reads {listener : Listener Self Err} {held : Self → Json}
    (hears : Hears listener held) (h : Reaches jansson history srv)
    (hdriven : Driven platform endpoint jansson loads history)
    (hc : srv.clnts.cells c = some clnt) (hparses : ParsesFor jansson loads history clnt.sent)
    (hne : handled history c ≠ []) : ∃ before name after,
      Reads listener (srv.stream jansson loads c) srv.serialization.label before name after ∧
        ((handled history c).length = 1 → ∀ message ∈ after, message = reregisterMessage) := by
  have hlinked := h.linked hdriven
  obtain ⟨_, before, name, after, hsent, hbefore, hafter, hlabel⟩ := hlinked.told c clnt hc hne
  have hparsed : ∀ out ∈ clnt.sent, out.Parsed jansson loads := hparses.1
  have hbody : ∀ body, .json body ∈ clnt.sent →
      (Outgoing.json body).message jansson loads = ⟨body, []⟩ :=
    fun body hmem => congrArg (fun json => (⟨json, []⟩ : Message)) (hparsed _ hmem)
  have hbeforeSent : ∀ out ∈ before, out ∈ clnt.sent := by
    intro out hmem
    rw [hsent]
    exact List.mem_append_left _ hmem
  have hafterSent : ∀ out ∈ after, out ∈ clnt.sent := by
    intro out hmem
    rw [hsent]
    exact List.mem_append_right _ (List.mem_cons_of_mem _ hmem)
  have hreplySent : .json (handshakeReply name false) ∈ clnt.sent := by
    rw [hsent]
    exact List.mem_append_right _ List.mem_cons_self
  obtain ⟨f, hf, _⟩ := hears.switch
  -- messages that are handed on are not those that make clients switch
  have hquiet : ∀ out ∈ after, out.Quiet →
      listener.hearing (out.message jansson loads) = .plain :=
    fun out hmem hquiet => hears.quiet h hdriven hc hparses (hafterSent out hmem) hquiet
  refine ⟨before.map (Outgoing.message jansson loads), name,
    after.map (Outgoing.message jansson loads), ⟨?_, ?_, ?_, ?_, ?_⟩, ?_⟩
  · rw [stream_eq hc, hsent, List.map_append, List.map_cons, hbody _ hreplySent]
  · intro message hmem
    obtain ⟨out, hout, rfl⟩ := List.mem_map.mp hmem
    obtain rfl := hbefore out hout
    exact hbody _ (hbeforeSent _ hout)
  · rw [← hbody _ hreplySent]
    exact hears.quiet h hdriven hc hparses hreplySent (.inr (.inl rfl))
  · intro message hmem
    obtain ⟨out, hout, rfl⟩ := List.mem_map.mp hmem
    rcases hafter out hout with hq | rfl
    · exact .inl (hquiet out hout hq)
    · exact .inr (hbody _ (hafterSent _ hout))
  · rw [hlabel]
    congr 1
    apply propext
    constructor
    · intro hmem
      exact List.mem_map.mpr ⟨_, hmem, hbody _ (hafterSent _ hmem)⟩
    · intro hmem
      obtain ⟨out, hout, heq⟩ := List.mem_map.mp hmem
      rcases hafter out hout with hq | rfl
      · have hplain := hquiet out hout hq
        rw [heq, hf] at hplain
        cases hplain
      · exact hout
  · intro hone message hmem
    obtain ⟨out, hout, rfl⟩ := List.mem_map.mp hmem
    have hcount := (hlinked.calm c clnt hc hone).2
    have hreply : Outgoing.json (handshakeReply name false) ≠ .json reregisterMeta := by
      simp [handshakeReply, reregisterMeta]
    rw [hsent, List.filter_append, List.filter_cons_of_pos (by simpa using hreply),
      List.length_append, List.length_cons] at hcount
    have hnone : (after.filter (· ≠ .json reregisterMeta)) = [] :=
      List.eq_nil_of_length_eq_zero (by omega)
    have heq := List.filter_eq_nil_iff.mp hnone out hout
    simp only [ne_eq, decide_not, Bool.not_eq_true', decide_eq_false_iff_not, not_not] at heq
    rw [heq]
    exact hbody _ (heq ▸ hafterSent _ hout)

/-- The serialization that is held after some of the messages. -/
theorem Hears.held_foldl {listener : Listener Self Err} {held : Self → Json}
    (hears : Hears listener held) {messages : List Message}
    (hmessages : ∀ message ∈ messages,
      listener.hearing message = .plain ∨ message = reregisterMessage) (self : Self) :
    held (messages.foldl (fun self message => listener.effect message self) self) =
      if reregisterMessage ∈ messages then .string "dimeb" else held self := by
  obtain ⟨f, hf, hheld⟩ := hears.switch
  induction messages generalizing self with
  | nil => simp
  | cons message rest ih =>
      rw [List.foldl_cons, ih fun message hmem => hmessages message (List.mem_cons_of_mem _ hmem)]
      by_cases hrest : reregisterMessage ∈ rest
      · simp [hrest]
      · rcases hmessages message List.mem_cons_self with hplain | rfl
        · have hne : reregisterMessage ≠ message := by
            rintro rfl
            rw [hf] at hplain
            cases hplain
          simp [hrest, hne, Listener.effect, hplain]
        · simp [hrest, Listener.effect, hf, hheld]

/-! ## Connecting and reading on -/

/-- A method that shakes hands, and takes over the serialization of the reply. -/
def opening (listener : Listener Self Err) (lookup : Json → Except Err Json)
    (enter : Json → Self → Self) (fuel : Nat) (request : Message) :
    Prog Self Err Message Message Unit := do
  let jsondata ← listener.call fuel request
  let serialization ← Prog.ofExcept (lookup jsondata)
  Prog.modify (enter serialization)

/-- The serialization that is held at the end of a run in which all messages have been read. -/
def heldAtEnd (held : Self → Json) (ended : Ended Unit Self Err Message Message α) :
    Option Json :=
  if ended.unread = [] then some (held ended.self) else none

section

variable {listener : Listener Self Err} {held : Self → Json} {stream before after : List Message}
  {label name : String} {lookup : Json → Except Err Json} {enter : Json → Self → Self}
  {fuel : Nat} {request : Message}

theorem Reads.run_opening (h : Reads listener stream label before name after)
    (hears : Hears listener held)
    (hcheck : listener.check (handshakeReply name false) = .ok ())
    (hlookup : lookup (handshakeReply name false) = .ok (.string name)) (self : Self) :
    (fuel ≤ before.length ∧
      (hear (opening listener lookup enter fuel request) self stream).outcome = .exhausted ∧
      (hear (opening listener lookup enter fuel request) self stream).unread ≠ []) ∨
    ∃ self', hear (opening listener lookup enter fuel request) self stream =
      ⟨.done (), enter (.string name) self', (), [request], after⟩ := by
  have hasides : ∀ message ∈ before, ∃ f, listener.hearing message = .aside f := by
    intro message hmem
    obtain ⟨f, hf, _⟩ := hears.switch
    exact ⟨f, by rw [h.early message hmem, hf]⟩
  have hopening : hear (opening listener lookup enter fuel request) self stream =
      (hear ((listener.recv fuel).bind fun message =>
        (Prog.ofExcept (listener.check message.jsondata)).bind fun _ =>
          (Prog.ofExcept (lookup message.jsondata)).bind fun serialization =>
            Prog.modify (enter serialization)) self stream).after [request] := by
    simp only [opening, Listener.call, Listener.reply, Prog.bind_eq, Prog.request, Prog.bind_assoc,
      Prog.bind, hear, run, silent, List.append_nil, Prog.pure_eq]
  rw [hopening, h.split]
  rcases run_recv_skips h.reply hasides self after with ⟨hfuel, hexhausted, hmem⟩ | ⟨self', hrun⟩
  · left
    rw [hear, run_bind_exhausted hexhausted]
    exact ⟨hfuel, rfl, List.ne_nil_of_mem hmem⟩
  · right
    refine ⟨self', ?_⟩
    rw [hear, run_bind_done hrun]
    simp [hcheck, hlookup, Prog.ofExcept, Prog.bind, Prog.modify, run, Ended.after]

/-- What follows holds the serialization that the client has been told to use, once it has read
all messages. -/
theorem Reads.held_eq (h : Reads listener stream label before name after)
    (hears : Hears listener held)
    (hcheck : listener.check (handshakeReply name false) = .ok ())
    (hlookup : lookup (handshakeReply name false) = .ok (.string name))
    (henter : ∀ serialization self, held (enter serialization self) = serialization)
    {p : Prog Self Err Message Message α} (hp : Heeds listener α p) (fuel : Nat)
    (request : Message) (self : Self)
    (hunread : (hear ((opening listener lookup enter fuel request).bind fun _ => p) self
      stream).unread = []) :
    held (hear ((opening listener lookup enter fuel request).bind fun _ => p) self stream).self =
      .string label := by
  rcases h.run_opening hears hcheck hlookup self with ⟨_, hexhausted, hne⟩ | ⟨self', hrun⟩
  · rw [hear, run_bind_exhausted hexhausted] at hunread
    exact absurd hunread hne
  · rw [hear, run_bind_done hrun] at hunread ⊢
    obtain ⟨read, hafter, hself⟩ := hp (enter (.string name) self') after
    rw [Ended.after_unread] at hunread
    rw [hunread, List.append_nil] at hafter
    rw [Ended.after_self, hself, ← hafter, hears.held_foldl h.late, henter, h.label]
    split <;> rfl

/-- A client that makes no calls reads all messages. -/
theorem Reads.unread_eq_nil (h : Reads listener stream label before name after)
    (hears : Hears listener held)
    (hcheck : listener.check (handshakeReply name false) = .ok ())
    (hlookup : lookup (handshakeReply name false) = .ok (.string name))
    (hafter : ∀ message ∈ after, message = reregisterMessage) (hfuel : stream.length < fuel)
    (enter : Json → Self → Self) (request : Message) (self : Self) :
    (hear ((opening listener lookup enter fuel request).bind fun _ => listener.recv fuel) self
      stream).unread = [] := by
  have hlength : stream.length = before.length + (after.length + 1) := by
    rw [h.split, List.length_append, List.length_cons]
  have hasides : ∀ message ∈ after, ∃ f, listener.hearing message = .aside f := by
    intro message hmem
    obtain ⟨f, hf, _⟩ := hears.switch
    exact ⟨f, by rw [hafter message hmem, hf]⟩
  have hopening : _ ∨ ∃ self', hear (opening listener lookup enter fuel request) self stream =
      ⟨.done (), enter (.string name) self', (), [request], after⟩ :=
    h.run_opening hears hcheck hlookup self
  rcases hopening with ⟨hbound, _⟩ | ⟨self', hrun⟩
  · omega
  · rw [hear, run_bind_done hrun, Ended.after_unread]
    exact (run_recv_waits hasides (by omega) _).2

/-- A session of a client that then reads on. -/
theorem Reads.holds (h : Reads listener stream label before name after)
    (hears : Hears listener held) (lookup : Json → Except Err Json) (enter : Json → Self → Self)
    (request : Message) (hcheck : listener.check (handshakeReply name false) = .ok ())
    (hlookup : lookup (handshakeReply name false) = .ok (.string name))
    (henter : ∀ serialization self, held (enter serialization self) = serialization)
    {calls : Prog Self Err Message Message Unit} (hcalls : Heeds listener Unit calls)
    {session : Prog Self Err Message Message Unit}
    (hsession : session = (opening listener lookup enter fuel request).bind fun _ => calls)
    (self : Self) :
    (∀ serialization, heldAtEnd held (hear (session.bind fun _ => listener.recv fuel) self stream) =
      some serialization → serialization = .string label) ∧
    (calls = .done () → (∀ message ∈ after, message = reregisterMessage) →
      stream.length < fuel →
      heldAtEnd held (hear (session.bind fun _ => listener.recv fuel) self stream) =
        some (.string label)) := by
  have hheeds : Heeds listener Message (calls.bind fun _ => listener.recv fuel) :=
    (inherited_heeds listener fun _ => True).bind hcalls fun _ => heeds_recv fuel
  rw [hsession, Prog.bind_assoc]
  have hheld := h.held_eq hears hcheck hlookup henter hheeds fuel request self
  unfold heldAtEnd
  constructor
  · intro serialization hsome
    split at hsome
    next hunread => rw [← Option.some.inj hsome, hheld hunread]
    next => cases hsome
  · rintro rfl hafter hfuel
    have hunread := h.unread_eq_nil hears hcheck hlookup hafter hfuel enter request self
    rw [← hheld hunread]
    exact if_pos hunread

end

namespace Endpoint

/-- What a client holds that makes its calls and then reads on; none unless it has read all
messages. The JavaScript client does not read on. -/
def holds (platform : Platform V W) : Endpoint V W → List Message → Option Json
  | .python useJson calls, stream =>
      heldAtEnd Python.DimeClient.serialization
        (hear ((Python.session platform.modules platform.fuel useJson calls).bind
          fun _ => Python.DimeClient.recv platform.fuel) ⟨.null, none⟩ stream)
  | .matlab calls, stream =>
      heldAtEnd Matlab.Obj.serialization
        (hear ((Matlab.session platform.matlab platform.fuel calls).bind
          fun _ => Matlab.Obj.recvmsg platform.matlab platform.fuel) ⟨.null⟩ stream)
  | .javascript _, _ => none

/-- A Python or Matlab client that makes no calls. -/
def Idle : Endpoint V W → Prop
  | .python _ calls => calls = []
  | .matlab calls => calls = []
  | .javascript _ => False

/-- It sends a handshake only. -/
theorem Idle.requests_eq {endpoint : Endpoint V W} (h : endpoint.Idle) (inbox : List Message) :
    endpoint.requests platform inbox = [Request.handshake endpoint.serialization] := by
  obtain ⟨rest, hrequests, hrest⟩ : ∃ rest, endpoint.requests platform inbox =
      Request.handshake endpoint.serialization :: rest ∧ ∀ request ∈ rest, False := by
    cases endpoint with
    | python useJson cs =>
        obtain rfl : cs = [] := h
        have hnone : (Python.calls platform.modules platform.fuel []).Issues fun _ => False :=
          trivial
        exact Python.session_requests hnone useJson _ inbox
    | matlab cs =>
        obtain rfl : cs = [] := h
        have hnone : (Matlab.calls platform.matlab platform.fuel []).Issues fun _ => False :=
          trivial
        exact Matlab.session_requests hnone _ inbox
    | javascript cs => exact h.elim
  rw [hrequests, List.eq_nil_iff_forall_not_mem.mpr hrest]

end Endpoint

theorem Matlab.check_handshakeReply (rt : Matlab.Runtime V) (name : String) :
    (Matlab.Obj.listener rt).check (handshakeReply name false) = .ok () := by
  have hstatus : (handshakeReply name false).get? "status" = some (.integer 0) := rfl
  have hzero : (0 : Int64).toInt = 0 := by decide
  simp [Matlab.Obj.listener, Matlab.checkStatus, Matlab.getfield, hstatus, rt.negative_integer,
    hzero, Bind.bind, Except.bind]

/-- The serialization of the server, once it is set, changes at most once more, to dimeb, and
not from json. A handshaken Python or Matlab client that has read all that has been pushed to
it holds the serialization of the server, and one that makes no calls does read it all. -/
theorem serialization_agreement (h : Reaches jansson history srv)
    (hdriven : Driven platform endpoint jansson loads history)
    (hparses : Parses jansson loads history srv) :
    (serializations history srv).Pairwise Serialization.Becomes ∧
    Serialization.changes (serializations history srv) ≤ 1 ∧
    ∀ c clnt, srv.clnts.cells c = some clnt → handled history c ≠ [] →
      (∀ serialization, (endpoint c).holds platform (srv.stream jansson loads c) =
        some serialization → serialization = .string srv.serialization.label) ∧
      ((endpoint c).Idle → (srv.stream jansson loads c).length < platform.fuel →
        (endpoint c).holds platform (srv.stream jansson loads c) =
          some (.string srv.serialization.label)) := by
  have hserializations := h.serializations
  refine ⟨hserializations, Serialization.changes_le_one hserializations, ?_⟩
  intro c clnt hc hne
  have hsent := hparses.sent h hc
  have honce : (endpoint c).Idle → (handled history c).length = 1 := by
    intro hidle
    have hpart := (h.handled_sent hdriven c clnt hc).length_le
    rw [hidle.requests_eq, List.length_singleton] at hpart
    have hpos := List.length_pos_of_ne_nil hne
    omega
  cases hclient : endpoint c with
  | python useJson cs =>
      obtain ⟨before, name, after, hreads, hone⟩ := Python.hears.reads h hdriven hc hsent hne
      obtain ⟨hheld, hidle⟩ := hreads.holds Python.hears (Python.getitem · "serialization")
        Python.DimeClient.setSerialization
        (Request.handshake (if useJson then "json" else "pickle")) rfl rfl (fun _ _ => rfl)
        (Python.calls_inherit platform.modules platform.fuel
          (inherited_heeds Python.DimeClient.listener IsCall) cs)
        (show Python.session platform.modules platform.fuel useJson cs = _ from rfl) ⟨.null, none⟩
      refine ⟨hheld, ?_⟩
      rintro rfl hfuel
      exact hidle rfl (hone (honce (by rw [hclient]; rfl))) hfuel
  | matlab cs =>
      obtain ⟨before, name, after, hreads, hone⟩ :=
        (Matlab.hears platform.matlab).reads h hdriven hc hsent hne
      obtain ⟨hheld, hidle⟩ := hreads.holds (Matlab.hears platform.matlab)
        (Matlab.getfield · "serialization") (fun serialization _ => ⟨serialization⟩)
        (Request.handshake "matlab") (Matlab.check_handshakeReply platform.matlab name) rfl
        (fun _ _ => rfl)
        (Matlab.calls_inherit platform.matlab platform.fuel
          (inherited_heeds (Matlab.Obj.listener platform.matlab) IsCall) cs)
        (show Matlab.session platform.matlab platform.fuel cs = _ from rfl) ⟨.null⟩
      refine ⟨hheld, ?_⟩
      rintro rfl hfuel
      exact hidle rfl (hone (honce (by rw [hclient]; rfl))) hfuel
  | javascript cs =>
      refine ⟨?_, fun hidle => hidle.elim⟩
      intro serialization hholds
      cases hholds

/-! ### A client that is told to switch before its handshake -/

/-- A Python client and two others: another Python client and a Matlab client. -/
def trio (c : ClientPtr) : Endpoint Unit Unit :=
  if c = 0 then .python false [] else if c = 1 then .python true [] else .matlab []

/-- The handshake of client 1 is handled last, after that of the Matlab client. -/
def lateHandshake : List Action :=
  [.accept 3 false, .command 0 (Request.handshake "pickle").jsondata [], .accept 4 false,
    .accept 5 false, .command 2 (Request.handshake "matlab").jsondata [],
    .command 1 (Request.handshake "json").jsondata []]

def handshakeLoads : CString → Json :=
  compactLoads [reregisterMeta, handshakeReply "pickle" false, handshakeReply "dimeb" false,
    (Request.handshake "pickle").jsondata, (Request.handshake "matlab").jsondata,
    (Request.handshake "json").jsondata]

theorem serialization_agreement_late : ∃ history srv, Reaches (compactJansson []) history srv ∧
    srv.serialization = .dimeb ∧
    (srv.stream (compactJansson []) handshakeLoads 1).head? = some reregisterMessage ∧
    (trio 1).holds plainPlatform (srv.stream (compactJansson []) handshakeLoads 1) =
      some (.string "dimeb") := by
  have hscript : (script (compactJansson []) lateHandshake).map
      (fun result : List (Server × Action) × Server =>
        (decide (Driven plainPlatform trio (compactJansson []) handshakeLoads result.1),
          decide (Parses (compactJansson []) handshakeLoads result.1 result.2),
          (result.2.clnts.cells 1).isSome, decide ((handled result.1 1).length = 1),
          decide (result.2.serialization = .dimeb),
          decide (result.2.stream (compactJansson []) handshakeLoads 1 =
            [reregisterMessage, ⟨handshakeReply "dimeb" false, []⟩]))) =
      some (true, true, true, true, true, true) := by decide +kernel
  obtain ⟨⟨history, srv⟩, hrun, hvalue⟩ := Option.map_eq_some_iff.mp hscript
  simp only [Prod.mk.injEq, decide_eq_true_iff] at hvalue
  obtain ⟨hdriven, hparses, hsome, hhandled, hdimeb, hstream⟩ := hvalue
  obtain ⟨clnt, hc⟩ := Option.isSome_iff_exists.mp hsome
  have h := script_reaches _ hrun
  obtain ⟨_, _, hclients⟩ := serialization_agreement h hdriven hparses
  refine ⟨history, srv, h, hdimeb, by rw [hstream]; rfl, ?_⟩
  have hholds := (hclients 1 clnt hc (List.ne_nil_of_length_pos (by rw [hhandled]; decide))).2 rfl
    (by rw [hstream]; decide)
  rw [hholds, hdimeb]
  rfl

end Dime
