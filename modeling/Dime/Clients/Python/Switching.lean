import Mathlib.Data.List.TakeWhile
import Dime.Clients.Python.Underway
import Dime.Clients.Usable

/-!
# Switching while variables are transmitted

What becomes of the variables of a `send_r` or a `broadcast_r` of the Python client, if the
server switches to dimeb in the meantime. The copies that the server has queued before are of
no use to clients that have no decoder for them; `send_r` sends them again, `broadcast_r` fails.
-/

namespace Dime

open Dialogue Server

/-- The implementation has a decoder for the data of a message. -/
def Endpoint.understands {V W : Type} (platform : Platform V W) (endpoint : Endpoint V W)
    (message : Message) : Bool :=
  (message.jsondata.get? "serialization").any (endpoint.decodes platform)

namespace Python

variable {V W : Type}

/-- A run of the network in which a Python client has come to one of its calls. -/
structure Underway (platform : Platform V W) (endpoint : ClientPtr → Endpoint V W)
    (jansson : Jansson Json) (loads : CString → Json) (history : List (Server × Action))
    (srv : Server) (p : ClientPtr) (useJson : Bool) (before : List Call) (call : Call) : Prop where
  reaches : Reaches jansson history srv
  driven : Driven platform endpoint jansson loads history
  parses : Parses jansson loads history srv
  connected : ∃ clnt, srv.clnts.cells p = some clnt
  client : ∃ after, endpoint p = .python useJson (before ++ call :: after)
  fuel : (srv.stream jansson loads p).length < platform.fuel
  begins : (begun platform useJson before (srv.stream jansson loads p)).outcome = .done ()

variable {platform : Platform V W} {endpoint : ClientPtr → Endpoint V W} {jansson : Jansson Json}
  {loads : CString → Json} {history : List (Server × Action)} {srv : Server} {p c : ClientPtr}
  {useJson : Bool} {before : List Call} {call : Call} {turn : Turn}

namespace Underway

/-- What the client has as the call begins. -/
abbrev start (_ : Underway platform endpoint jansson loads history srv p useJson before call) :
    Ended Unit DimeClient String Message Message Unit :=
  begun platform useJson before (srv.stream jansson loads p)

/-- The call, with the messages that have been pushed to the client. -/
abbrev course (_ : Underway platform endpoint jansson loads history srv p useJson before call) :
    Ended Unit DimeClient String Message Message Unit :=
  Python.course platform useJson before call (srv.stream jansson loads p)

/-- The requests of the call that have been handled. -/
abbrev turns (_ : Underway platform endpoint jansson loads history srv p useJson before call) :
    List Turn :=
  callTurns platform useJson before call jansson loads history srv p

variable (u : Underway platform endpoint jansson loads history srv p useJson before call)

include u in
/-- The client has shaken hands. -/
theorem handled_ne_nil : handled history p ≠ [] := by
  intro hnil
  obtain ⟨clnt, hp⟩ := u.connected
  have hearly := (u.reaches.linked u.driven).early p clnt hp hnil
  have hparsed := (u.parses.sent u.reaches hp).1
  obtain ⟨_, hopened, _⟩ := done_of_bind u.begins
  obtain ⟨_, hcalled, _⟩ := done_of_bind hopened
  obtain ⟨_, hreplied⟩ : ∃ jsondata, (hear (DimeClient.listener.reply platform.fuel) ⟨.null, none⟩
      (srv.stream jansson loads p)).outcome = .done jsondata := by
    simp only [Listener.call, Prog.request, Prog.bind_eq, Prog.bind, run, silent,
      List.append_nil, Ended.after_outcome] at hcalled
    exact ⟨_, hcalled⟩
  obtain ⟨⟨read, hread, _, hcount⟩, _⟩ := Listener.done_reply hreplied
  -- a client that has not can only have been told to switch
  have hnone : DimeClient.listener.plains read = 0 := by
    apply List.length_eq_zero_iff.mpr
    apply List.filter_eq_nil_iff.mpr
    intro message hmem
    have hstream : message ∈ srv.stream jansson loads p := by
      rw [hread]
      exact List.mem_append_left _ hmem
    rw [stream_eq hp] at hstream
    obtain ⟨out, hout, rfl⟩ := List.mem_map.mp hstream
    obtain rfl := hearly.2 out hout
    have hmessage : (Outgoing.json reregisterMeta).message jansson loads = reregisterMessage :=
      congrArg (fun json => (⟨json, []⟩ : Message)) (hparsed _ hout)
    rw [hmessage]
    exact Bool.false_ne_true
  omega

/-- The requests that have been handled are the first ones of the call. -/
theorem requests_prefix : u.turns.map Turn.request <+: u.course.requests := by
  obtain ⟨clnt, hp⟩ := u.connected
  obtain ⟨after, hclient⟩ := u.client
  have hsession := u.reaches.handled_sent u.driven p clnt hp
  obtain ⟨more, hrequests, _⟩ := requests_of_begun after call u.begins
  rw [hclient, hrequests, ← turns_requests history srv p] at hsession
  rw [turns, callTurns, List.map_take, List.map_drop]
  have hdropped := hsession.drop u.start.requests.length
  rw [List.drop_left] at hdropped
  have htaken := hdropped.take u.course.requests.length
  rwa [List.take_left] at htaken

/-- What the server does with a request of the call. -/
theorem handles (hmem : turn ∈ u.turns) : ∃ earlier later, Reaches jansson earlier turn.before ∧
    Driven platform endpoint jansson loads earlier ∧ history = earlier ++ later ∧
    turn.before.view.Handles jansson p turn.request.jsondata turn.request.bindata turn.after.view ∧
    loads (jansson.dumps turn.request.jsondata) = turn.request.jsondata := by
  obtain ⟨earlier, later, hreaches, hhistory, hhandles⟩ :=
    u.reaches.turn turn (List.mem_of_mem_drop (List.mem_of_mem_take hmem))
  have hdriven := u.driven
  rw [hhistory] at hdriven
  refine ⟨earlier, _, hreaches, hdriven.follows.1, hhistory, hhandles, ?_⟩
  apply u.parses.2
  rw [hhistory]
  exact mem_submissions (List.mem_append_right _ List.mem_cons_self)

/-- The replies to the requests. -/
theorem paced (hsends : (call.method platform.modules platform.fuel).Issues IsTransmission) :
    ∃ clnt, srv.clnts.cells p = some clnt ∧
      Paced platform useJson before call jansson loads p u.turns (srv.stream jansson loads p)
        clnt.waiting := by
  obtain ⟨clnt, hp⟩ := u.connected
  obtain ⟨after, hclient⟩ := u.client
  have hfuel := u.fuel
  rw [stream_eq hp, List.length_map] at hfuel
  exact ⟨clnt, hp, Python.paced u.reaches hclient hsends u.driven clnt hp
    (u.parses.sent u.reaches hp) hfuel u.begins⟩

theorem held : Held srv.serialization.label u.start.self u.start.unread := by
  obtain ⟨clnt, hp⟩ := u.connected
  exact held_begun u.reaches u.driven hp (u.parses.sent u.reaches hp) u.handled_ne_nil u.fuel

/-- Where the server has not switched since the call began, nothing that comes before the replies
changes the client. -/
theorem settled (hsends : (call.method platform.modules platform.fuel).Issues IsTransmission)
    (hlabels : ∀ turn ∈ u.turns,
      Json.string turn.before.serialization.label = u.start.self.serialization) :
    ∃ inbox rest, u.start.unread = inbox ++ rest ∧
      (∀ message ∈ inbox, DimeClient.listener.hearing message = .plain ∨
        message = reregisterMessage ∧
          DimeClient.setSerialization (.string "dimeb") u.start.self = u.start.self) ∧
      u.turns.length ≤ DimeClient.listener.plains inbox := by
  obtain ⟨_, _, hpaced⟩ := u.paced hsends
  cases hlength : u.turns.length with
  | zero => exact ⟨[], _, rfl, fun _ hmem => (by cases hmem), Nat.zero_le _⟩
  | succ n =>
      have hn : n < u.turns.length := by omega
      have hheld := u.held
      obtain ⟨front, reply, rest, hunread, hplain, hcount, _, hlabel⟩ :=
        hpaced.replies n _ (List.getElem?_eq_getElem hn)
      rw [hlabels _ (List.getElem_mem hn)] at hlabel
      refine ⟨front ++ [reply], rest, by simpa using hunread, ?_, ?_⟩
      · intro message hmem
        rcases List.mem_append.mp hmem with hfront | hlast
        · rcases hheld.late message (by rw [hunread]; exact List.mem_append_left _ hfront) with
            hmessage | rfl
          · exact .inl hmessage
          · rw [if_pos hfront] at hlabel
            exact .inr ⟨rfl, hheld.switched hlabel⟩
        · rw [List.mem_singleton.mp hlast]
          exact .inl hplain
      · rw [Listener.plains_append]
        have hone : DimeClient.listener.plains [reply] = 1 := by
          simp [Listener.plains, Listener.isPlain_iff, hplain]
        omega

/-- What there is to read comes from the messages that have been pushed. -/
theorem unread_length : u.start.unread.length < platform.fuel :=
  lt_of_le_of_lt (hear_unread_suffix _ _ _).length_le u.fuel

/-- Messages that leave the serialization of the client as it is leave the client as it is. -/
theorem effects_keep {read : List Message} (hread : read <+: u.start.unread)
    (hsame : (DimeClient.listener.effects read u.start.self).serialization =
      u.start.self.serialization) :
    DimeClient.listener.effects read u.start.self = u.start.self := by
  have hheld := u.held
  rw [effects_eq fun message hin => hheld.late message (hread.subset hin)] at hsame ⊢
  by_cases hswitch : reregisterMessage ∈ read
  · rw [if_pos hswitch] at hsame ⊢
    exact hheld.switched hsame.symm
  · rw [if_neg hswitch]

/-- The server has handled a request before it switched, if the reply to it has been read and the
client is as it was. -/
theorem label_of_read (hsends : (call.method platform.modules platform.fuel).Issues IsTransmission)
    (hsettled : ∀ first ∈ u.turns.head?,
      Settled platform useJson before jansson loads p first.before)
    {read back : List Message} (hunread : u.start.unread = read ++ back)
    (hsame : DimeClient.listener.effects read u.start.self = u.start.self) {i : Nat}
    (hi : i < DimeClient.listener.plains read) (hturn : u.turns[i]? = some turn) :
    Json.string turn.before.serialization.label = u.start.self.serialization := by
  obtain ⟨_, _, hpaced⟩ := u.paced hsends
  have hheld := u.held
  obtain ⟨front, reply, rest, hreply, _, _, hcount, hlabel⟩ := hpaced.replies i turn hturn
  have hfront := hcount hsettled
  rw [hlabel]
  by_cases hswitch : reregisterMessage ∈ front
  · rw [if_pos hswitch]
    have hsplit : read ++ back = front ++ reply :: rest := hunread.symm.trans hreply
    rcases List.append_eq_append_iff.mp hsplit with ⟨more, rfl, _⟩ | ⟨more, rfl, _⟩
    · rw [Listener.plains_append] at hfront
      omega
    · rw [effects_eq fun message hin =>
        hheld.late message (by rw [hunread]; exact List.mem_append_left _ hin),
        if_pos (List.mem_append_left _ hswitch)] at hsame
      exact congrArg DimeClient.serialization hsame
  · exact if_neg hswitch

/-- A client that has shaken hands understands what is labelled as the server has it. -/
theorem understands_of_label (hmem : turn ∈ u.turns) {clnt : Client}
    (hc : turn.before.clnts.cells c = some clnt) (hcurrent : current? clnt.sent ≠ none)
    (hserialization : turn.request.jsondata.get? "serialization" =
      some (.string turn.before.serialization.label))
    (hjson : ¬ (turn.before.serialization = .json ∧ ∃ calls, endpoint c = .matlab calls)) :
    (endpoint c).understands platform turn.request = true := by
  obtain ⟨earlier, _, hreaches, hdriven, _⟩ := u.handles hmem
  have hlinked := hreaches.linked hdriven
  have hne : handled earlier c ≠ [] := by
    intro hnil
    have hearly := (hlinked.early c clnt hc hnil).2
    refine hcurrent ?_
    have hdrop : clnt.sent.dropWhile (fun out => decide (out = .json reregisterMeta)) = [] :=
      List.dropWhile_eq_nil_iff.mpr fun out hout => by simp [hearly out hout]
    rw [current?, hdrop]
  have husable : _ ∧ (endpoint c).decodes platform (.string _) = true :=
    (Endpoint.usable_iff (hlinked.suits c clnt hc hne)).mpr hjson
  rw [Endpoint.understands, hserialization, Option.any_some]
  exact husable.2

end Underway

/-! ## Broadcasts -/

theorem broadcast_r_sends (modules : Modules) (fuel : Nat) (kvpairs : List (String × Value)) :
    ((Call.broadcast_r kvpairs).method modules fuel).Issues IsTransmission :=
  have h := inherited_issues DimeClient.listener IsTransmission
  h.transmit (DimeClient.pipeline modules) (fun _ _ _ => .inr rfl) (h.raise _) _

theorem exists_carries {request : String → Json → Json} {serialization : Json} {Err V : Type}
    {encode : V → Except Err Bytes} {kvpairs : List (String × V)}
    (h : ∀ kv ∈ kvpairs, ∃ bindata, encode kv.2 = .ok bindata) :
    ∃ messages, List.Forall₂ (Carries request serialization encode) kvpairs messages := by
  induction kvpairs with
  | nil => exact ⟨[], .nil⟩
  | cons kv kvpairs ih =>
      obtain ⟨⟨bindata, hbindata⟩, hrest⟩ := List.forall_mem_cons.mp h
      obtain ⟨messages, hmessages⟩ := ih hrest
      exact ⟨⟨request kv.1 serialization, bindata⟩ :: messages, .cons ⟨rfl, hbindata⟩ hmessages⟩

/-- What is behind a message of a transmission. -/
theorem exists_carried {α β : Type} {R : α → β → Prop} {kvpairs : List α} {messages : List β}
    (h : List.Forall₂ R kvpairs messages) {i : Nat} {message : β} (hi : messages[i]? = some message) :
    ∃ kv, kvpairs[i]? = some kv ∧ R kv message := by
  induction h generalizing i with
  | nil => cases hi
  | cons hhead _ ih =>
      cases i with
      | zero =>
          cases hi
          exact ⟨_, rfl, hhead⟩
      | succ i => exact ih hi

theorem differs_self (modules : Modules) (serialization : Json) :
    (DimeClient.pipeline modules).differs serialization serialization = false := by
  simp [DimeClient.pipeline]

variable {kvpairs : List (String × Value)}

/-- A broadcast that nothing disturbs has more requests than there are replies, or returns. -/
theorem calm_broadcast_r (modules : Modules) {self : DimeClient} {inbox : List Message} {fuel : Nat}
    (hencodes : ∀ kv ∈ kvpairs, ∃ bindata, DimeClient.dumps modules self kv.2 = .ok bindata)
    (hcalm : DimeClient.listener.Calm self inbox) (hfuel : inbox.length < fuel) :
    let ended := hear (DimeClient.broadcast_r modules fuel kvpairs) self inbox
    (DimeClient.listener.plains inbox < kvpairs.length ∧
      DimeClient.listener.plains inbox < ended.requests.length) ∨
    (ended.outcome = .done () ∧
      List.Forall₂ ((DimeClient.pipeline modules).Makes Request.broadcast self) kvpairs
        ended.requests) := by
  intro ended
  obtain ⟨messages, hmessages⟩ : ∃ messages, List.Forall₂
      (Carries Request.broadcast self.serialization (DimeClient.dumps modules self)) kvpairs
      messages := exists_carries hencodes
  have hmakes : List.Forall₂ ((DimeClient.pipeline modules).Makes Request.broadcast self)
      (windows 16 16 kvpairs).flatten messages := by
    rw [flatten_windows (by decide)]
    exact hmessages
  rcases Pipeline.calm_batches (differs_self modules) hmakes
      hcalm hfuel with ⟨hfew, _, hsent⟩ | ⟨front, rest, _, _, hrun⟩
  · rw [← hmessages.length_eq] at hfew
    exact .inl ⟨hfew, hsent⟩
  · have hended : ended = _ := hrun
    rw [hended]
    exact .inr ⟨rfl, hmessages⟩

/-- A broadcast returns that the server has handled before it switched. -/
theorem broadcast_done
    (u : Underway platform endpoint jansson loads history srv p useJson before
      (.broadcast_r kvpairs))
    (hanswered : u.turns.length = u.course.requests.length)
    (hgranted : ∀ message ∈
      (u.start.unread.filter DimeClient.listener.isPlain).take kvpairs.length,
      message.jsondata.get? "status" = some (.integer 0))
    (hencodes : ∀ kv ∈ kvpairs, ∃ bindata,
      DimeClient.dumps platform.modules u.start.self kv.2 = .ok bindata)
    (hlabels : ∀ turn ∈ u.turns,
      Json.string turn.before.serialization.label = u.start.self.serialization) :
    u.course.outcome = .done () ∧
      List.Forall₂ ((DimeClient.pipeline platform.modules).Makes Request.broadcast u.start.self)
        kvpairs u.course.requests := by
  obtain ⟨inbox, rest, hunread, hinbox, hcount⟩ :=
    u.settled (broadcast_r_sends platform.modules platform.fuel kvpairs) hlabels
  obtain ⟨front, back, rfl, hfront⟩ := DimeClient.listener.exists_plains inbox
    (min_le_right kvpairs.length (DimeClient.listener.plains inbox))
  rw [List.append_assoc] at hunread
  -- of the messages up to the last reply none changes the client
  have hcalm : DimeClient.listener.Calm u.start.self front := by
    intro message hmem
    rcases hinbox message (List.mem_append_left _ hmem) with hplain | ⟨rfl, hsame⟩
    · have hstatus := hgranted message (by
        rw [hunread, List.filter_append, List.take_append, List.take_of_length_le]
        · exact List.mem_append_left _ (List.mem_filter.mpr ⟨hmem, Listener.isPlain_iff.mpr hplain⟩)
        · exact hfront.trans_le (min_le_left _ _))
      refine .inl ⟨hplain, ?_⟩
      simp only [DimeClient.listener, checkStatus, getitem, hstatus]
      rfl
    · exact .inr ⟨DimeClient.setSerialization (.string "dimeb"), rfl, hsame⟩
  have hfuel : front.length < platform.fuel := by
    have hlength := u.unread_length
    rw [hunread, List.length_append] at hlength
    omega
  have hcourse : u.course = hear (DimeClient.broadcast_r platform.modules platform.fuel kvpairs)
      u.start.self (front ++ (back ++ rest)) := by
    rw [← hunread]
    rfl
  rcases calm_broadcast_r platform.modules hencodes hcalm hfuel with ⟨hfew, hsent⟩ | ⟨hdone, hmakes⟩
  · -- more requests have been sent than are answered
    have hgrows := hear_requests_prefix (DimeClient.broadcast_r platform.modules platform.fuel
      kvpairs) u.start.self front (back ++ rest)
    have hlength := hgrows.length_le
    rw [← hcourse, ← hanswered] at hlength
    omega
  · rw [hcourse, hear_append (by rw [hdone]; rfl)]
    exact ⟨hdone, hmakes⟩

def roomyPlatform : Platform Unit Unit := { plainPlatform with fuel := 8 }

def broadcastLoads : CString → Json :=
  compactLoads [reregisterMeta, handshakeReply "pickle" false, statusOkMessage.jsondata,
    (Request.handshake "pickle").jsondata, Request.broadcast "x" (.string "pickle")]

/-- Two clients shake hands, and the first broadcasts. -/
def broadcastToPeer : List Action :=
  [.accept 3 false, .accept 4 false, .command 0 (Request.handshake "pickle").jsondata [],
    .command 1 (Request.handshake "pickle").jsondata [],
    .command 0 (Request.broadcast "x" (.string "pickle")) [1]]

theorem send_r_sends (modules : Modules) (fuel : Nat) (name : String)
    (kvpairs : List (String × Value)) :
    ((Call.send_r name kvpairs).method modules fuel).Issues IsTransmission :=
  have h := inherited_issues DimeClient.listener IsTransmission
  h.transmits (DimeClient.pipeline modules) (fun _ _ _ => .inl rfl)
    (DimeClient.send_r modules · name kvpairs) rfl fun _ => rfl

/-- What a client has that has switched. -/
abbrev switched : DimeClient := ⟨.string "dimeb", some .dimeb⟩

theorem effects_switched {messages : List Message}
    (hmessages : ∀ message ∈ messages,
      DimeClient.listener.hearing message = .plain ∨ message = reregisterMessage) :
    DimeClient.listener.effects messages switched = switched := by
  have hstay : DimeClient.setSerialization (.string "dimeb") switched = switched := rfl
  rw [effects_eq hmessages, hstay, ite_self]

/-- A client that has switched sends every variable once. -/
theorem done_send_r_switched {modules : Modules} {fuel : Nat} {name : String} {inbox : List Message}
    (hlate : ∀ message ∈ inbox,
      DimeClient.listener.hearing message = .plain ∨ message = reregisterMessage)
    (h : (hear (DimeClient.send_r modules fuel name kvpairs) switched inbox).outcome = .done ()) :
    ∃ sent read back, inbox = read ++ back ∧ DimeClient.listener.plains read = sent.length ∧
      List.Forall₂ ((DimeClient.pipeline modules).Makes (Request.send name) switched)
        kvpairs sent ∧
      hear (DimeClient.send_r modules fuel name kvpairs) switched inbox =
        ⟨.done (), switched, (), sent, back⟩ := by
  cases fuel with
  | zero => cases h
  | succ fuel =>
      obtain ⟨front, rest, sent, read, back, hwindows, hmakes, rfl, hcount, hend⟩ :=
        Pipeline.done_batches (DimeClient.pipeline modules) switched
          (fun read hread _ => effects_switched fun message hin => hlate message (hread.subset hin)) h
      rcases hend with ⟨rfl, _, hended⟩ | ⟨hchanged, _⟩
      · refine ⟨sent, read, back, rfl, hcount, ?_, hended⟩
        rw [List.append_nil] at hwindows
        rwa [← hwindows, flatten_windows (by decide)] at hmakes
      · have hkeep := effects_switched fun message hin =>
          hlate message (List.mem_append_left back hin)
        exact absurd (congrArg DimeClient.serialization hkeep).symm (of_decide_eq_true hchanged)

/-- A `send_r` that is done has sent every variable once, with the client as it was; or it has
found the client switched, and has sent every variable again. -/
theorem done_send_r {modules : Modules} {fuel : Nat} {name : String} {self : DimeClient}
    {inbox : List Message}
    (hlate : ∀ message ∈ inbox,
      DimeClient.listener.hearing message = .plain ∨ message = reregisterMessage)
    (hcodec : self.serialization = .string "dimeb" → self = switched)
    (h : (hear (DimeClient.send_r modules fuel name kvpairs) self inbox).outcome = .done ()) :
    ∃ sent read back, inbox = read ++ back ∧ sent.length ≤ kvpairs.length ∧
      DimeClient.listener.plains read = sent.length ∧
      List.Forall₂ ((DimeClient.pipeline modules).Makes (Request.send name) self)
        (kvpairs.take sent.length) sent ∧
      ((sent.length = kvpairs.length ∧ DimeClient.listener.effects read self = self ∧
          hear (DimeClient.send_r modules fuel name kvpairs) self inbox =
            ⟨.done (), self, (), sent, back⟩) ∨
        (self.serialization ≠ .string "dimeb" ∧ ∃ again read' back', back = read' ++ back' ∧
          DimeClient.listener.plains read' = again.length ∧
          List.Forall₂ ((DimeClient.pipeline modules).Makes (Request.send name) switched)
            kvpairs again ∧
          hear (DimeClient.send_r modules fuel name kvpairs) self inbox =
            ⟨.done (), switched, (), sent ++ again, back'⟩)) := by
  cases fuel with
  | zero => cases h
  | succ fuel =>
      have hkeeps : ∀ read, read <+: inbox →
          (DimeClient.pipeline modules).differs self.serialization
            (DimeClient.listener.effects read self).serialization = false →
          DimeClient.listener.effects read self = self := by
        intro read hread hsame
        have hunchanged := (not_not.mp (of_decide_eq_false hsame)).symm
        rw [effects_eq fun message hin => hlate message (hread.subset hin)] at hunchanged ⊢
        by_cases hswitch : reregisterMessage ∈ read
        · rw [if_pos hswitch] at hunchanged ⊢
          exact (hcodec hunchanged.symm).symm
        · rw [if_neg hswitch]
      obtain ⟨front, rest, sent, read, back, hwindows, hmakes, rfl, hcount, hend⟩ :=
        Pipeline.done_batches (DimeClient.pipeline modules) self hkeeps h
      have hflat : kvpairs = front.flatten ++ rest.flatten := by
        rw [← List.flatten_append, ← hwindows, flatten_windows (by decide)]
      have hsent : kvpairs.take sent.length = front.flatten := by
        rw [← hmakes.length_eq, hflat, List.take_left]
      have hlength : kvpairs.length = sent.length + rest.flatten.length := by
        rw [← hmakes.length_eq, hflat, List.length_append]
      refine ⟨sent, read, back, rfl, by omega, hcount, by rwa [hsent], ?_⟩
      rcases hend with ⟨rfl, hsame, hended⟩ | ⟨hchanged, hended⟩
      · exact .inl ⟨hlength.symm, hsame, hended⟩
      · right
        -- the client is found changed only by the message that makes clients switch
        have heffects : DimeClient.listener.effects read self = _ :=
          effects_eq (fun message hin => hlate message (List.mem_append_left _ hin)) self
        by_cases hswitch : reregisterMessage ∈ read
        · have hself : DimeClient.listener.effects read self = switched := by
            rw [heffects, if_pos hswitch]
            rfl
          have hagain : hear (DimeClient.send_r modules (fuel + 1) name kvpairs) self (read ++ back) =
              (hear (DimeClient.send_r modules fuel name kvpairs) switched back).after sent := by
            rw [← hself]
            exact hended
          rw [hagain, Ended.after_outcome] at h
          obtain ⟨again, read', back', rfl, hcount', hmakes', hended'⟩ := done_send_r_switched
            (fun message hin => hlate message (List.mem_append_right _ hin)) h
          refine ⟨fun hdimeb => of_decide_eq_true hchanged ?_, again, read', back', rfl, hcount',
            hmakes', by rw [hagain, hended', Ended.after]⟩
          exact hdimeb.trans (congrArg DimeClient.serialization hself).symm
        · rw [if_neg hswitch] at heffects
          exact absurd (congrArg DimeClient.serialization heffects).symm (of_decide_eq_true hchanged)

theorem asked_append {history more : List (Server × Action)} {name : String}
    (h : asked history = some name) : asked (history ++ more) = some name := by
  rw [asked, List.findSome?_append, ← asked, h]
  rfl

/-- The members of a group are connected. -/
theorem connected_of_member (h : Reaches jansson history srv) {name : String}
    (hmember : srv.view.member c name) : ∃ clnt, srv.clnts.cells c = some clnt := by
  obtain ⟨g, group, hg, _, hc⟩ := hmember
  exact h.inv.membership.clnts_live g group c hg hc

theorem understands_dimeb (platform : Platform V W) (endpoint : Endpoint V W) {message : Message}
    (h : message.jsondata.get? "serialization" = some (.string "dimeb")) :
    endpoint.understands platform message = true := by
  rw [Endpoint.understands, h]
  cases endpoint <;> rfl

theorem Underway.request_at
    (u : Underway platform endpoint jansson loads history srv p useJson before call) {i : Nat}
    (hi : u.turns[i]? = some turn) : u.course.requests[i]? = some turn.request := by
  obtain ⟨more, hmore⟩ := u.requests_prefix
  have hlt : i < u.turns.length := (List.getElem?_eq_some_iff.mp hi).1
  rw [← hmore, List.getElem?_append_left (by rwa [List.length_map]), List.getElem?_map, hi,
    Option.map_some]

/-- A copy in a serialization of the server's goes to clients that understand it. -/
theorem Underway.understands_queued
    (u : Underway platform endpoint jansson loads history srv p useJson before call)
    (hjson : asked history ≠ some "json") (hmem : turn ∈ u.turns) {name varname : String}
    (hrequest : turn.request.jsondata =
      Request.send name varname (.string turn.before.serialization.label))
    (hqueues : turn.Queues loads c) : (endpoint c).understands platform turn.request = true := by
  obtain ⟨earlier, later, hreaches, hdriven, rfl, hhandles, hloads⟩ := u.handles hmem
  obtain ⟨clnt, hc⟩ := connected_of_queues hhandles hqueues
  have hname : turn.request.jsondata.unpackString "name" = some name := by
    rw [hrequest]
    rfl
  have hmember := (queues_send_iff hhandles (by rw [hrequest]; rfl) hname hloads hc).mp hqueues
  have htold := (hreaches.linked hdriven).told c clnt hc (hreaches.handled_member hmember)
  refine u.understands_of_label hmem hc (by rw [htold.current]; exact Option.some_ne_none _)
    (by rw [hrequest]; rfl) ?_
  rintro ⟨hlabel, _⟩
  obtain ⟨hunset, hset⟩ := hreaches.asks hdriven
  cases hasked : asked earlier with
  | none =>
      rw [hunset hasked] at hlabel
      cases hlabel
  | some first =>
      obtain rfl := (hset first hasked).2.mp hlabel
      exact hjson (asked_append hasked)

/-- The requests of a call that is done have been handled, if there was nothing left to answer as
the first of them was handled. -/
theorem Underway.answered
    (u : Underway platform endpoint jansson loads history srv p useJson before call)
    (hsends : (call.method platform.modules platform.fuel).Issues IsTransmission)
    (hsettled : ∀ first ∈ u.turns.head?,
      Settled platform useJson before jansson loads p first.before)
    (hne : u.turns ≠ [])
    (hread : u.course.requests.length ≤ DimeClient.listener.plains u.start.unread) :
    u.turns.length = u.course.requests.length := by
  obtain ⟨_, _, hpaced⟩ := u.paced hsends
  have hle := u.requests_prefix.length_le
  rw [List.length_map] at hle
  by_contra hfewer
  have hawake := hpaced.awake hne hsettled (.inr (Nat.lt_of_le_of_ne hle hfewer))
  have hcount : DimeClient.listener.plains u.start.unread = u.turns.length := hawake.1
  omega

def sendLoads : CString → Json :=
  compactLoads [reregisterMeta, handshakeReply "pickle" false, handshakeReply "dimeb" false,
    statusOkMessage.jsondata, (Request.handshake "pickle").jsondata,
    (Request.handshake "matlab").jsondata, (Request.join ["g"]).jsondata,
    Request.send "g" "x" (.string "pickle"), Request.send "g" "x" (.string "dimeb")]

/-- A Matlab client shakes hands and joins a group before the client that sends has read that the
server has switched. -/
def sendToMatlab : List Action :=
  [.accept 3 false, .accept 4 false, .command 0 (Request.handshake "pickle").jsondata [],
    .command 1 (Request.handshake "matlab").jsondata [], .command 1 (Request.join ["g"]).jsondata [],
    .command 0 (Request.send "g" "x" (.string "pickle")) [1],
    .command 0 (Request.send "g" "x" (.string "dimeb")) [0]]

end Python

end Dime
