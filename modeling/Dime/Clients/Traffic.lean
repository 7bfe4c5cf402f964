import Dime.Server.Readiness
import Dime.Server.Delivery
import Dime.Clients.Network

/-!
# The bytes on the connections

The steps that the rounds of the `select` loop and the callbacks of the libev loop are made of,
with the bytes that the kernel delivers from the clients and those that it takes for them. The
requests that are handled are those that the delivered bytes contain, and the bytes that are
taken are those of the messages that are pushed.
-/

namespace Dime

/-- What has passed over the connections of the clients. -/
structure Traffic where
  received : ClientPtr → Bytes
  written : ClientPtr → Bytes

namespace Traffic

def none : Traffic := ⟨fun _ => [], fun _ => []⟩

/-- The kernel delivers the next part of a stream, or reports an error. -/
def receive (traffic : Traffic) (c : ClientPtr) (chunk : Except String Bytes) : Traffic :=
  { traffic with
    received := Function.update traffic.received c
      (traffic.received c ++ (chunk.toOption.getD []).take recvBufLen) }

/-- The kernel takes bytes. -/
def write (traffic : Traffic) (c : ClientPtr) (bytes : Bytes) : Traffic :=
  { traffic with written := Function.update traffic.written c (traffic.written c ++ bytes) }

/-- The same has passed over all connections but one. -/
structure Beside (c : ClientPtr) (traffic traffic' : Traffic) : Prop where
  received : ∀ c' ≠ c, traffic'.received c' = traffic.received c'
  written : ∀ c' ≠ c, traffic'.written c' = traffic.written c'

variable {traffic : Traffic} {c : ClientPtr}

@[simp] theorem receive_received (chunk : Except String Bytes) :
    (traffic.receive c chunk).received c =
      traffic.received c ++ (chunk.toOption.getD []).take recvBufLen :=
  Function.update_self ..

@[simp] theorem receive_written (chunk : Except String Bytes) :
    (traffic.receive c chunk).written = traffic.written := rfl

@[simp] theorem write_written (bytes : Bytes) :
    (traffic.write c bytes).written c = traffic.written c ++ bytes := Function.update_self ..

@[simp] theorem write_received (bytes : Bytes) :
    (traffic.write c bytes).received = traffic.received := rfl

theorem beside_refl (c : ClientPtr) (traffic : Traffic) : traffic.Beside c traffic :=
  ⟨fun _ _ => rfl, fun _ _ => rfl⟩

theorem beside_receive (chunk : Except String Bytes) :
    traffic.Beside c (traffic.receive c chunk) :=
  ⟨fun _ hne => Function.update_of_ne hne .., fun _ _ => rfl⟩

theorem beside_write (bytes : Bytes) : traffic.Beside c (traffic.write c bytes) :=
  ⟨fun _ _ => rfl, fun _ hne => Function.update_of_ne hne ..⟩

end Traffic

/-! ## One connection -/

section

variable (jansson : Jansson Json)

/-- `stream` is what the complete frames in the received bytes hold, if there are frames, and
`ws` is what is behind them. -/
def Layered (received : Bytes) (ws : Option Bytes) (stream : Bytes) : Prop :=
  match ws with
  | none => stream = received
  | some rest => ∃ payloads, Framing.drain readFrame received = (payloads, some rest) ∧
      stream = payloads.flatten

/-- The messages have been popped of the received bytes, and the inbuffers hold the others. -/
def ReadTo (received : Bytes) (messages : List Message) (held : Socket.Held) : Prop :=
  ∃ stream, Layered received held.1 stream ∧
    Framing.drain (Socket.readMessage jansson) stream =
      (messages ++ (Framing.drain (Socket.readMessage jansson) held.2).1,
        (Framing.drain (Socket.readMessage jansson) held.2).2)

/-- The received bytes are complete messages, and what the inbuffers hold: the beginnings of a
frame, if there are frames, and of a message. -/
def ReadUp (received : Bytes) (messages : List Message) (held : Socket.Held) : Prop :=
  ∃ stream, Layered received held.1 stream ∧
    Framing.drain (Socket.readMessage jansson) stream = (messages, some held.2)

end

variable {jansson : Jansson Json} {received : Bytes} {messages : List Message} {held : Socket.Held}

theorem ReadTo.readUp (h : ReadTo jansson received messages held)
    (hmore : Socket.readMessage jansson held.2 = .more) : ReadUp jansson received messages held := by
  obtain ⟨stream, hlayered, hdrain⟩ := h
  rw [Framing.drain_more hmore, List.append_nil] at hdrain
  exact ⟨stream, hlayered, hdrain⟩

/-- On a new connection. -/
theorem readTo_nil (ws : Bool) :
    ReadTo jansson [] [] (if ws then some [] else none, []) := by
  have hnil : Framing.drain (Socket.readMessage jansson) [] = ([], some []) :=
    Framing.drain_more rfl
  cases ws with
  | false => exact ⟨[], rfl, by rw [hnil]; rfl⟩
  | true => exact ⟨[], ⟨[], Framing.drain_more rfl, rfl⟩, by rw [hnil]; rfl⟩

theorem ReadTo.pop (h : ReadTo jansson received messages held) {message : Message} {size : Nat}
    (hitem : Socket.readMessage jansson held.2 = .item message size) :
    ReadTo jansson received (messages ++ [message]) (held.1, held.2.drop size) := by
  obtain ⟨stream, hlayered, hdrain⟩ := h
  rw [Framing.drain_item (Socket.readMessage_progresses jansson) hitem] at hdrain
  exact ⟨stream, hlayered, by rw [hdrain, List.append_assoc]; rfl⟩

/-- What arrives, once complete frames have been unwrapped. -/
theorem ReadUp.arrive {sock : Socket} (h : ReadUp jansson received messages sock.held)
    {chunk : Bytes} (hunframes : Socket.Unframes (sock.arrived chunk) held) :
    ReadTo jansson (received ++ chunk.take recvBufLen) messages held := by
  obtain ⟨stream, hlayered, hdrain⟩ := h
  have happend := Framing.drain_append (Socket.readMessage_progresses jansson)
    (Socket.readMessage_stable jansson) hdrain
  unfold Socket.held at hlayered happend
  unfold Socket.arrived at hunframes
  cases hws : sock.ws with
  | none =>
      rw [hws] at hlayered hunframes
      obtain rfl : held = _ := hunframes
      obtain rfl : stream = received := hlayered
      exact ⟨_, rfl, happend _⟩
  | some ws =>
      rw [hws] at hlayered hunframes
      obtain ⟨payloads, rest, hframes, rfl⟩ := hunframes
      obtain ⟨before, hbefore, rfl⟩ := hlayered
      refine ⟨_, ⟨before ++ payloads, ?_, rfl⟩, ?_⟩
      · rw [Framing.drain_append readFrame_progresses readFrame_stable hbefore, hframes]
      · rw [List.flatten_append]
        exact happend _

namespace Peer

/-- What is pushed goes to the outbuffer, and the inbuffers stay as they are. -/
def Writes (jansson : Jansson Json) (peer peer' : Peer) : Prop :=
  ∃ outs, peer'.sent = peer.sent ++ outs ∧
    peer'.wbuf = peer.wbuf ++ outs.flatMap (Outgoing.frame jansson peer.ws.isSome) ∧
    peer'.rbuf = peer.rbuf ∧ peer'.ws = peer.ws

theorem closed_writes (jansson : Jansson Json) : Closed jansson (Writes jansson) where
  refl peer := ⟨[], (List.append_nil _).symm, (List.append_nil _).symm, rfl, rfl⟩
  trans := by
    rintro peer peer' peer'' ⟨outs, hsent, hwbuf, hrbuf, hws⟩ ⟨outs', hsent', hwbuf', hrbuf', hws'⟩
    refine ⟨outs ++ outs', ?_, ?_, hrbuf'.trans hrbuf, hws'.trans hws⟩
    · rw [hsent', hsent, List.append_assoc]
    · rw [hwbuf', hwbuf, hws, List.flatMap_append, List.append_assoc]
  push peer out := ⟨[out], rfl, by rw [List.flatMap_singleton]; rfl, rfl, rfl⟩
  queue peer queue := ⟨[], (List.append_nil _).symm, (List.append_nil _).symm, rfl, rfl⟩
  waiting peer waiting := ⟨[], (List.append_nil _).symm, (List.append_nil _).symm, rfl, rfl⟩

end Peer

/-! ## The steps of the event loops -/

namespace Server

/-- The handling of a client to which bytes can be written. -/
def writable (srv : Server) (c : ClientPtr) (accepted : Except String Nat) :
    Except Fault Server := do
  let clnt ← deref srv.clnts c
  let (n, _, sock) := clnt.sock.sendpartial true accepted
  let srv := srv.setClient c { clnt with sock }
  if n < 0 then srv.close c else return srv

/-- The steps that the event loops are made of, with what passes over the connections. The
kernel delivers from a client what `delivers` says. -/
inductive Served (jansson : Jansson Json)
    (delivers : Server → Traffic → ClientPtr → Bytes → Prop) : Server → Traffic → Prop where
  | start {srv : Server} (init : init (fun _ => true) = some srv) : Served jansson delivers srv .none
  | find {srv : Server} {traffic : Traffic} (before : Served jansson delivers srv traffic) {fd : Nat}
      {found : Option ClientPtr} {fd2clnt : Table Nat ClientPtr}
      (step : srv.fd2clnt.search fd = some (found, fd2clnt)) :
      Served jansson delivers { srv with fd2clnt } traffic
  | accept {srv srv' : Server} {traffic : Traffic} (before : Served jansson delivers srv traffic)
      {fd : Nat} {ws : Bool} (unused : fd ∉ srv.fd2clnt.iterate.map Entry.key)
      (step : srv.accept (fun _ => true) fd ws = .ok (some srv')) :
      Served jansson delivers srv' traffic
  | read {srv srv' : Server} {traffic : Traffic} (before : Served jansson delivers srv traffic)
      {loop : EventLoop} {errno : String} {fuel : Nat} {c : ClientPtr} {chunk : Except String Bytes}
      (registered : c ∈ srv.registered)
      (sent : delivers srv traffic c ((traffic.receive c chunk).received c))
      (step : srv.readable jansson loop errno fuel c chunk = .ok (.stays, srv')) :
      Served jansson delivers srv' (traffic.receive c chunk)
  | write {srv srv' : Server} {traffic : Traffic} (before : Served jansson delivers srv traffic)
      {c : ClientPtr} {clnt : Client} (client : srv.clnts.cells c = some clnt)
      {accepted : Except String Nat} (step : srv.writable c accepted = .ok srv') :
      Served jansson delivers srv' (traffic.write c ( clnt.sock.sendpartial true accepted).2.1)
  | watch {srv : Server} {traffic : Traffic} (before : Served jansson delivers srv traffic)
      {c : ClientPtr} {clnt : Client} (client : srv.clnts.cells c = some clnt)
      (ev : Option Watchers) :
      Served jansson delivers (srv.setClient c { clnt with sock := { clnt.sock with ev } }) traffic
  | close {srv srv' : Server} {traffic : Traffic} (before : Served jansson delivers srv traffic)
      {c : ClientPtr} (registered : c ∈ srv.registered) (step : srv.close c = .ok srv') :
      Served jansson delivers srv' traffic

/-! ## Runs with the bytes -/

/-- A property of runs that only their commands decide. -/
structure ByCommands (P : List (Server × Action) → Prop) : Prop where
  nil : P []
  other : ∀ history mid action, P history → (∀ c jsondata bindata, action ≠ .command c jsondata bindata) →
    P (history ++ [(mid, action)])

/-- The events of a run with the property account for the bytes. -/
structure Carried (jansson : Jansson Json) (P : List (Server × Action) → Prop) (traffic : Traffic)
    (history : List (Server × Action)) (srv : Server) : Prop where
  reaches : Reaches jansson history srv
  admitted : P history
  reads : ∀ c peer, srv.view.peers c = some peer →
    ReadTo jansson (traffic.received c) (handled history c) (peer.ws, peer.rbuf)
  writes : ∀ c peer, srv.view.peers c = some peer →
    traffic.written c ++ peer.wbuf = peer.sent.flatMap (Outgoing.frame jansson peer.ws.isSome)
  fresh : ∀ c, srv.clnts.next ≤ c → traffic.received c = [] ∧ traffic.written c = []

/-- No complete message is in the inbuffers of these clients. -/
def Idle (jansson : Jansson Json) (P : ClientPtr → Prop) (srv : Server) : Prop :=
  ∀ c peer, P c → srv.view.peers c = some peer → Socket.readMessage jansson peer.rbuf = .more

variable {jansson : Jansson Json} {P : List (Server × Action) → Prop} {traffic traffic' : Traffic}
  {history : List (Server × Action)} {srv mid srv' : Server} {c : ClientPtr} {clnt : Client}

theorem Idle.readUp (h : Carried jansson P traffic history srv) (hidle : srv.Idle jansson (· = c))
    (hc : srv.clnts.cells c = some clnt) :
    ReadUp jansson (traffic.received c) (handled history c) clnt.sock.held := by
  have hpeer : srv.view.peers c = some (clnt.view srv.content) := by
    rw [view_peers, hc, Option.map_some]
  exact (h.reads c _ hpeer).readUp (hidle c _ rfl hpeer)

theorem Carried.start (hP : ByCommands P) {start : Server}
    (hinit : init (fun _ => true) = some start) : Carried jansson P .none [] start ∧ start.Idle jansson fun _ => True := by
  have hnone : ∀ c peer, start.view.peers c ≠ some peer := by
    intro c peer hpeer
    obtain ⟨clnt, hc, _⟩ := Option.map_eq_some_iff.mp hpeer
    cases hinit
    cases hc
  exact ⟨⟨⟨start, hinit, .nil start⟩, hP.nil, fun c peer hpeer => absurd hpeer (hnone c peer),
    fun c peer hpeer => absurd hpeer (hnone c peer), fun _ _ => ⟨rfl, rfl⟩⟩,
    fun c peer _ hpeer => absurd hpeer (hnone c peer)⟩

theorem Carried.find (hP : ByCommands P) (h : Carried jansson P traffic history srv) {fd : Nat}
    {found : Option ClientPtr} {fd2clnt : Table Nat ClientPtr}
    (hstep : srv.fd2clnt.search fd = some (found, fd2clnt)) :
    Carried jansson P traffic (history ++ [(srv, .find fd)]) { srv with fd2clnt } := by
  have henabled : srv.Enabled (.find fd) := trivial
  obtain ⟨srv', hrun, hreaches, _⟩ := h.reaches.perform jansson henabled
  rw [perform, hstep] at hrun
  cases hrun
  have hhandled : ∀ c, handled (history ++ [(srv, .find fd)]) c = handled history c :=
    fun c => (handled_append).trans (List.append_nil _)
  refine ⟨hreaches, hP.other _ _ _ h.admitted fun _ _ _ => Action.noConfusion, ?_, h.writes, h.fresh⟩
  intro c peer hpeer
  rw [hhandled]
  exact h.reads c peer hpeer

theorem Carried.accept (hP : ByCommands P) (h : Carried jansson P traffic history srv) {fd : Nat} {ws : Bool}
    (hunused : fd ∉ srv.fd2clnt.iterate.map Entry.key)
    (hstep : srv.accept (fun _ => true) fd ws = .ok (some srv')) :
    Carried jansson P traffic (history ++ [(srv, .accept fd ws)]) srv' ∧
      (srv.Idle jansson (fun _ => True) → srv'.Idle jansson fun _ => True) := by
  have henabled : srv.Enabled (.accept fd ws) := hunused
  obtain ⟨srv'', hrun, hreaches, hacts⟩ := h.reaches.perform jansson henabled
  rw [perform, hstep] at hrun
  cases hrun
  have hview : srv'.view = srv.view.accept fd ws := hacts
  have hpeers : srv'.view.peers = Function.update srv.view.peers srv.clnts.next (some
      { fd, waiting := false, queue := [], sent := [], wbuf := [], rbuf := [],
        ws := if ws then some [] else none, ev := none }) := congrArg Hub.peers hview
  have hnext := (Hub.Acts.next_le jansson hacts).1
  obtain ⟨hreceived, hwritten⟩ := h.fresh srv.clnts.next le_rfl
  have hhandled : ∀ c, handled (history ++ [(srv, .accept fd ws)]) c = handled history c :=
    fun c => (handled_append).trans (List.append_nil _)
  refine ⟨⟨hreaches, hP.other _ _ _ h.admitted fun _ _ _ => Action.noConfusion, ?_, ?_,
    fun c hc => h.fresh c (le_trans hnext hc)⟩, ?_⟩
  · intro c peer hpeer
    rw [hhandled]
    rw [hpeers] at hpeer
    obtain rfl | hne := eq_or_ne c srv.clnts.next
    · rw [Function.update_self] at hpeer
      cases hpeer
      rw [hreceived, h.reaches.handled_fresh _ le_rfl]
      exact readTo_nil ws
    · rw [Function.update_of_ne hne] at hpeer
      exact h.reads c peer hpeer
  · intro c peer hpeer
    rw [hpeers] at hpeer
    obtain rfl | hne := eq_or_ne c srv.clnts.next
    · rw [Function.update_self] at hpeer
      cases hpeer
      rw [hwritten]
      rfl
    · rw [Function.update_of_ne hne] at hpeer
      exact h.writes c peer hpeer
  · intro hidle c peer _ hpeer
    rw [hpeers] at hpeer
    obtain rfl | hne := eq_or_ne c srv.clnts.next
    · rw [Function.update_self] at hpeer
      cases hpeer
      rfl
    · rw [Function.update_of_ne hne] at hpeer
      exact hidle c peer trivial hpeer

/-! ### Another socket for a client -/

/-- Another socket shows in the client alone. -/
theorem peer_setClient (hc : srv.clnts.cells c = some clnt) (sock : Socket) {c' : ClientPtr}
    {peer : Peer} (hpeer : (srv.setClient c { clnt with sock }).view.peers c' = some peer) :
    (c' = c ∧ peer = Client.view srv.content { clnt with sock }) ∨
      (c' ≠ c ∧ srv.view.peers c' = some peer) := by
  have hcontent : (srv.setClient c { clnt with sock }).content = srv.content := rfl
  rw [view_peers, hcontent] at hpeer
  obtain rfl | hne := eq_or_ne c' c
  · rw [setClient_self hc] at hpeer
    cases hpeer
    exact .inl ⟨rfl, rfl⟩
  · rw [setClient_of_ne _ hne] at hpeer
    exact .inr ⟨hne, hpeer⟩

theorem Reaches.transfer (h : Reaches jansson history srv) (hc : srv.clnts.cells c = some clnt)
    {sock : Socket} (hfd : sock.fd = clnt.sock.fd)
    (hws : sock.ws.isSome = clnt.sock.ws.isSome) :
    Reaches jansson (history ++ [(srv, .transfer c sock)]) (srv.setClient c { clnt with sock }) := by
  have henabled : srv.Enabled (.transfer c sock) :=
    ⟨clnt, hc, h.inv.registry.mem_clients.mpr ⟨clnt, hc⟩, hfd, hws⟩
  obtain ⟨srv', hrun, hreaches, _⟩ := h.perform jansson henabled
  rw [Server.perform, deref_some hc] at hrun
  cases hrun
  exact hreaches

theorem handled_transfer (sock : Socket) (c' : ClientPtr) :
    handled (history ++ [(srv, .transfer c sock)]) c' = handled history c' :=
  handled_append.trans (List.append_nil _)

/-- Bytes have passed through the socket of a client. -/
theorem Carried.transfer (hP : ByCommands P) (h : Carried jansson P traffic history srv)
    (hc : srv.clnts.cells c = some clnt) {sock : Socket} (hfd : sock.fd = clnt.sock.fd)
    (hws : sock.ws.isSome = clnt.sock.ws.isSome) (hbeside : traffic.Beside c traffic')
    (hreads : ReadTo jansson (traffic'.received c) (handled history c) sock.held)
    (hwrites : traffic'.written c ++ sock.wbuf.toList =
      clnt.sent.flatMap (Outgoing.frame jansson sock.ws.isSome)) :
    Carried jansson P traffic' (history ++ [(srv, .transfer c sock)])
      (srv.setClient c { clnt with sock }) := by
  refine ⟨h.reaches.transfer hc hfd hws,
    hP.other _ _ _ h.admitted fun _ _ _ => Action.noConfusion, ?_, ?_, ?_⟩
  · intro c' peer hpeer
    rw [handled_transfer]
    obtain ⟨rfl, rfl⟩ | ⟨hne, hpeer⟩ := peer_setClient hc sock hpeer
    · exact hreads
    · rw [hbeside.received c' hne]
      exact h.reads c' peer hpeer
  · intro c' peer hpeer
    obtain ⟨rfl, rfl⟩ | ⟨hne, hpeer⟩ := peer_setClient hc sock hpeer
    · have hsome : (Client.view srv.content { clnt with sock }).ws.isSome = sock.ws.isSome :=
        Option.isSome_map
      rw [hsome]
      exact hwrites
    · rw [hbeside.written c' hne]
      exact h.writes c' peer hpeer
  · intro c' hfresh
    have hne : c' ≠ c := by
      rintro rfl
      exact absurd (Heap.lt_next hc) (not_lt.mpr hfresh)
    rw [hbeside.received c' hne, hbeside.written c' hne]
    exact h.fresh c' hfresh

theorem Idle.transfer {Q : ClientPtr → Prop} (h : srv.Idle jansson Q)
    (hc : srv.clnts.cells c = some clnt) {sock : Socket}
    (hmore : Q c → Socket.readMessage jansson sock.rbuf.toList = .more) :
    (srv.setClient c { clnt with sock }).Idle jansson Q := by
  intro c' peer hQ hpeer
  obtain ⟨rfl, rfl⟩ | ⟨_, hpeer⟩ := peer_setClient hc sock hpeer
  · exact hmore hQ
  · exact h c' peer hQ hpeer

/-- A client is closed, after bytes have passed through its socket. -/
theorem Carried.leave (hP : ByCommands P) (h : Carried jansson P traffic history srv)
    (hc : srv.clnts.cells c = some clnt) {sock : Socket} (hfd : sock.fd = clnt.sock.fd)
    (hws : sock.ws.isSome = clnt.sock.ws.isSome) (hbeside : traffic.Beside c traffic')
    (hstep : (srv.setClient c { clnt with sock }).close c = .ok srv') :
    (∃ history', Carried jansson P traffic' history' srv') ∧
      (srv.Idle jansson (fun _ => True) → srv'.Idle jansson fun _ => True) := by
  have hmid := h.reaches.transfer hc hfd hws
  have hcell : (srv.setClient c { clnt with sock }).clnts.cells c = some { clnt with sock } :=
    setClient_self hc
  have henabled : (srv.setClient c { clnt with sock }).Enabled (.close c) :=
    hmid.inv.registry.mem_clients.mpr ⟨_, hcell⟩
  obtain ⟨srv'', hrun, hreaches, hacts⟩ := hmid.perform jansson henabled
  have hsame : srv'' = srv' := Except.ok.inj (hrun.symm.trans hstep)
  subst hsame
  have hview : srv''.view = (srv.setClient c { clnt with sock }).view.close c := hacts
  have hothers : ∀ c' peer, srv''.view.peers c' = some peer →
      c' ≠ c ∧ srv.view.peers c' = some peer := by
    intro c' peer hpeer
    have hpeers : srv''.view.peers = Function.update _ c none := congrArg Hub.peers hview
    rw [hpeers] at hpeer
    obtain rfl | hne := eq_or_ne c' c
    · rw [Function.update_self] at hpeer
      cases hpeer
    · rw [Function.update_of_ne hne] at hpeer
      obtain ⟨hbad, _⟩ | hother := peer_setClient hc sock hpeer
      · exact absurd hbad hne
      · exact hother
  have hnext : srv.clnts.next ≤ srv''.clnts.next := (Hub.Acts.next_le jansson hacts).1
  have hadmitted := hP.other _ srv (.transfer c sock) h.admitted fun _ _ _ => Action.noConfusion
  refine ⟨⟨_, hreaches, hP.other _ _ _ hadmitted fun _ _ _ => Action.noConfusion, ?_, ?_, ?_⟩, ?_⟩
  · intro c' peer hpeer
    obtain ⟨hne, hpeer⟩ := hothers c' peer hpeer
    have hhandled : handled (history ++ [(srv, .transfer c sock)] ++
        [(srv.setClient c { clnt with sock }, .close c)]) c' = handled history c' :=
      (handled_append.trans (List.append_nil _)).trans (handled_transfer sock c')
    rw [hhandled, hbeside.received c' hne]
    exact h.reads c' peer hpeer
  · intro c' peer hpeer
    obtain ⟨hne, hpeer⟩ := hothers c' peer hpeer
    rw [hbeside.written c' hne]
    exact h.writes c' peer hpeer
  · intro c' hfresh
    have hle := le_trans hnext hfresh
    have hne : c' ≠ c := by
      rintro rfl
      exact absurd (Heap.lt_next hc) (not_lt.mpr hle)
    rw [hbeside.received c' hne, hbeside.written c' hne]
    exact h.fresh c' hle
  · intro hidle c' peer _ hpeer
    exact hidle c' peer trivial (hothers c' peer hpeer).2

/-! ### The pop loop -/

/-- What a client is later on the same connection, as far as its messages go. -/
structure Precedes (before clnt : Client) : Prop where
  sent : before.sent <+: clnt.sent
  ws : clnt.sock.ws.isSome = before.sock.ws.isSome

/-- The property admits the messages of a client from some time on. -/
def Permits (jansson : Jansson Json) (P : List (Server × Action) → Prop) (traffic : Traffic)
    (c : ClientPtr) (before : Client) : Prop :=
  ∀ history mid clnt sock message size, Carried jansson P traffic history mid →
    mid.clnts.cells c = some clnt → Precedes before clnt →
    Socket.readMessage jansson clnt.sock.rbuf.toList = .item message size →
    P (history ++ [(mid, .transfer c sock)]) →
    P (history ++ [(mid, .transfer c sock)] ++
      [(mid.setClient c { clnt with sock }, .command c message.jsondata message.bindata)])

/-- A message is popped and dispatched. -/
theorem Carried.dispatch (hP : ByCommands P) (h : Carried jansson P traffic history srv)
    {before : Client} (hpermits : Permits jansson P traffic c before) (hbefore : Precedes before clnt)
    (hc : srv.clnts.cells c = some clnt) {message : Message} {size : Nat}
    (hitem : Socket.readMessage jansson clnt.sock.rbuf.toList = .item message size) {ret : Int}
    (hstep : (srv.setClient c { clnt with
      sock := { clnt.sock with rbuf := (clnt.sock.rbuf.discard size).2 } }).dispatch jansson .succeed c
        message.jsondata message.bindata = .ok (ret, srv')) :
    ∃ history', Carried jansson P traffic history' srv' ∧
      (srv.Idle jansson (· ≠ c) → srv'.Idle jansson (· ≠ c)) ∧
      ∃ clnt', srv'.clnts.cells c = some clnt' ∧ Precedes before clnt' ∧
        clnt'.sock.ws.map Ring.toList = clnt.sock.ws.map Ring.toList := by
  generalize hsock : { clnt.sock with rbuf := (clnt.sock.rbuf.discard size).2 } = sock at hstep
  have hmid : Reaches jansson (history ++ [(srv, .transfer c sock)])
      (srv.setClient c { clnt with sock }) :=
    h.reaches.transfer hc (by rw [← hsock]) (by rw [← hsock])
  have hcell : (srv.setClient c { clnt with sock }).clnts.cells c = some { clnt with sock } :=
    setClient_self hc
  have henabled : (srv.setClient c { clnt with sock }).Enabled
      (.command c message.jsondata message.bindata) :=
    hmid.inv.registry.mem_clients.mpr ⟨_, hcell⟩
  obtain ⟨srv'', hrun, hreaches, hacts⟩ := hmid.perform jansson henabled
  rw [perform, hstep] at hrun
  cases hrun
  have hhandles : (srv.setClient c { clnt with sock }).view.Handles jansson c message.jsondata
      message.bindata srv'.view := hacts
  have hrelated := hhandles.related (Peer.closed_writes jansson)
  -- what the clients were, before they were written to
  have hformer : ∀ c' peer', srv'.view.peers c' = some peer' → ∃ peer, Peer.Writes jansson peer peer' ∧
      ((c' = c ∧ peer = Client.view srv.content { clnt with sock }) ∨
        (c' ≠ c ∧ srv.view.peers c' = some peer)) := by
    intro c' peer' hpeer'
    obtain ⟨peer, hpeer, hwrites⟩ := hrelated.before hpeer'
    exact ⟨peer, hwrites, peer_setClient hc sock hpeer⟩
  have hself : srv.view.peers c = some (clnt.view srv.content) := by
    rw [view_peers, hc, Option.map_some]
  have hadmitted := hP.other _ srv (.transfer c sock) h.admitted fun _ _ _ => Action.noConfusion
  refine ⟨_, ⟨hreaches, hpermits _ _ _ _ _ _ h hc hbefore hitem hadmitted, ?_, ?_, ?_⟩, ?_, ?_⟩
  · intro c' peer' hpeer'
    obtain ⟨peer, ⟨_, _, _, hrbuf, hws⟩, ⟨rfl, rfl⟩ | ⟨hne, hpeer⟩⟩ := hformer c' peer' hpeer'
    · have hpop := (h.reads c' _ hself).pop hitem
      rw [handled_append, handled_transfer, handled_singleton_command, if_pos rfl, hrbuf, hws]
      rw [← hsock]
      simpa only [Client.view, Ring.discard_toList] using hpop
    · rw [handled_append, handled_transfer, handled_singleton_command, if_neg (Ne.symm hne),
        List.append_nil, hrbuf, hws]
      exact h.reads c' peer hpeer
  · intro c' peer' hpeer'
    obtain ⟨peer, ⟨outs, hsent, hwbuf, _, hws⟩, hpeer⟩ := hformer c' peer' hpeer'
    have hwrites : traffic.written c' ++ peer.wbuf =
        peer.sent.flatMap (Outgoing.frame jansson peer.ws.isSome) := by
      obtain ⟨rfl, rfl⟩ | ⟨_, hpeer⟩ := hpeer
      · have hold := h.writes c' _ hself
        rw [← hsock]
        exact hold
      · exact h.writes c' peer hpeer
    rw [hsent, hwbuf, hws, List.flatMap_append, ← hwrites, List.append_assoc]
  · intro c' hfresh
    exact h.fresh c' (le_trans (Hub.Acts.next_le jansson hacts).1 hfresh)
  · intro hidle c' peer' hne hpeer'
    obtain ⟨peer, ⟨_, _, _, hrbuf, _⟩, ⟨hbad, _⟩ | ⟨_, hpeer⟩⟩ := hformer c' peer' hpeer'
    · exact absurd hbad hne
    · rw [hrbuf]
      exact hidle c' peer hne hpeer
  · obtain ⟨peer', hpeer', outs, hgrows, _, _, hws⟩ := hrelated.peer
      (show (srv.setClient c { clnt with sock }).view.peers c = some _ by
        rw [view_peers, hcell, Option.map_some])
    obtain ⟨clnt', hc', rfl⟩ := Option.map_eq_some_iff.mp hpeer'
    have hlater : clnt'.sent = clnt.sent ++ outs := hgrows
    rw [← hsock] at hws
    have hsame : clnt'.sock.ws.map Ring.toList = clnt.sock.ws.map Ring.toList := hws
    refine ⟨clnt', hc', ⟨?_, ?_⟩, hsame⟩
    · rw [hlater]
      exact hbefore.sent.trans (List.prefix_append _ _)
    · have hsome := congrArg Option.isSome hsame
      rw [Option.isSome_map, Option.isSome_map] at hsome
      exact hsome.trans hbefore.ws

variable {loop : EventLoop} {errno : String} {fuel : Nat}

/-- The pop loop of a client, once its complete frames have been unwrapped. The induction is
on the rounds. -/
theorem Carried.popLoop (hP : ByCommands P) (h : Carried jansson P traffic history srv)
    (hidle : srv.Idle jansson (· ≠ c)) {before : Client}
    (hpermits : Permits jansson P traffic c before) (hc : srv.clnts.cells c = some clnt)
    (hbefore : Precedes before clnt) (hunwrapped : clnt.sock.Unwrapped)
    (hrun : popLoop jansson loop errno fuel false srv c = .ok (.stays, srv')) :
    (∃ history', Carried jansson P traffic history' srv') ∧ srv'.Idle jansson fun _ => True := by
  induction fuel generalizing srv history clnt with
  | zero => cases hrun
  | succ fuel ih =>
      have hpop := Socket.pop_unwrapped jansson hunwrapped
      have hpops := Socket.popMessage_reads jansson clnt.sock
      have hself : srv.view.peers c = some (clnt.view srv.content) := by
        rw [view_peers, hc, Option.map_some]
      cases hread : Socket.readMessage jansson clnt.sock.rbuf.toList with
      | more =>
          rw [hread] at hpops
          rw [Server.popLoop, deref_some hc, ok_bind, hpop, hpops] at hrun
          cases hrun
          refine ⟨⟨_, h.transfer hP hc rfl rfl (Traffic.beside_refl c traffic) (h.reads c _ hself) ?_⟩, ?_⟩
          · have hwrites := h.writes c _ hself
            rwa [show (clnt.view srv.content).ws.isSome = clnt.sock.ws.isSome from
              Option.isSome_map] at hwrites
          · apply Idle.transfer _ hc fun _ => hread
            intro c' peer _ hpeer
            obtain rfl | hne := eq_or_ne c' c
            · cases hself.symm.trans hpeer
              exact hread
            · exact hidle c' peer hne hpeer
      | bad =>
          rw [hread] at hpops
          refine absurd hrun (Ends.refuse jansson hc ?_ [] (fuel + 1) srv')
          rw [hpop]
          rcases hpops with ⟨err, hrefused⟩ | houtside
          · exact .inl ⟨_, hrefused⟩
          · exact .inr houtside
      | item message size =>
          rw [hread] at hpops
          obtain ⟨hpos, hsize, hpopped⟩ := hpops
          rw [Server.popLoop, deref_some hc, ok_bind, hpop, hpopped, ok_bind] at hrun
          dsimp only at hrun
          rw [if_pos (by omega)] at hrun
          obtain ⟨⟨ret, mid⟩, hdispatch, hrun⟩ := bind_eq_ok hrun
          obtain ⟨history', hmid, hothers, clnt', hc', hbefore', hws⟩ :=
            h.dispatch hP hpermits hbefore hc hread hdispatch
          exact ih hmid (hothers hidle) hc' hbefore' (hunwrapped.congr hws) hrun

/-! ### The handlers -/

/-- A delivery, and the messages that are complete with it. -/
theorem Carried.readable (hP : ByCommands P) (h : Carried jansson P traffic history srv)
    (hidle : srv.Idle jansson fun _ => True) (hc : srv.clnts.cells c = some clnt)
    {chunk : Except String Bytes} (hpermits : Permits jansson P (traffic.receive c chunk) c clnt)
    (hrun : srv.readable jansson loop errno fuel c chunk = .ok (.stays, srv')) :
    (∃ history', Carried jansson P (traffic.receive c chunk) history' srv') ∧
      srv'.Idle jansson fun _ => True := by
  have hself : srv.view.peers c = some (clnt.view srv.content) := by
    rw [view_peers, hc, Option.map_some]
  have hwrites : traffic.written c ++ clnt.sock.wbuf.toList =
      clnt.sent.flatMap (Outgoing.frame jansson clnt.sock.ws.isSome) := by
    have hwrites := h.writes c _ hself
    rwa [show (clnt.view srv.content).ws.isSome = clnt.sock.ws.isSome from Option.isSome_map]
      at hwrites
  rw [Server.readable, deref_some hc, ok_bind] at hrun
  dsimp only at hrun
  cases chunk with
  | error err =>
      -- the client is gone
      obtain ⟨srv'', hclose, hrun⟩ := bind_eq_ok hrun
      cases hrun
      have hsame : ( clnt.sock.recvpartial true true (.error err)).2.fd = clnt.sock.fd ∧
          ( clnt.sock.recvpartial true true (.error err)).2.ws.isSome = clnt.sock.ws.isSome :=
        ⟨rfl, rfl⟩
      obtain ⟨hcarried, hkeeps⟩ := h.leave hP hc hsame.1 hsame.2 (Traffic.beside_receive _) hclose
      exact ⟨hcarried, hkeeps hidle⟩
  | ok chunk =>
      obtain ⟨sock, hrecv, hheld, hfd, hws⟩ := clnt.sock.recvpartial_held chunk
      have hwbuf := (clnt.sock.recvpartial_keeps true true (.ok chunk)).1
      rw [hrecv] at hrun hwbuf
      dsimp only at hrun hwbuf
      split at hrun
      · obtain ⟨srv'', hclose, hrun⟩ := bind_eq_ok hrun
        cases hrun
        obtain ⟨hcarried, hkeeps⟩ := h.leave hP hc hfd hws (Traffic.beside_receive _) hclose
        exact ⟨hcarried, hkeeps hidle⟩
      · have hinv := inv_setClient h.reaches.inv hc sock
        rcases sock.pop_unframes jansson with
          ⟨sock', hunframes, hunwrapped, hfd', hwbuf', hpop⟩ | ⟨_, hrefused⟩
        · have hws' : sock'.ws.isSome = sock.ws.isSome := by
            have hsome : (sock'.ws.map Ring.toList).isSome = (sock.ws.map Ring.toList).isSome :=
              hunframes.isSome
            rwa [Option.isSome_map, Option.isSome_map] at hsome
          have hboth : (srv.setClient c { clnt with sock }).setClient c { clnt with sock := sock' } =
              srv.setClient c { clnt with sock := sock' } := by
            simp only [setClient, Heap.write_write]
          have hsame := @popLoop_setClient jansson (srv.setClient c { clnt with sock }) c
            { clnt with sock } loop errno (setClient_self hc) sock'
            (hpop.trans (Socket.pop_unwrapped jansson hunwrapped).symm) fuel
          rw [← hsame, hboth] at hrun
          have hreads := (Idle.readUp h (fun c' peer _ => hidle c' peer trivial) hc).arrive
            (hheld ▸ hunframes)
          have hmid := h.transfer hP hc (hfd'.trans hfd) (hws'.trans hws)
            (Traffic.beside_receive (.ok chunk)) (by rw [Traffic.receive_received]; exact hreads)
            (by rw [Traffic.receive_written, hwbuf', hwbuf, hws', hws]; exact hwrites)
          refine hmid.popLoop hP ?_ hpermits (setClient_self hc)
            ⟨List.prefix_rfl, hws'.trans hws⟩ hunwrapped hrun
          apply Idle.transfer _ hc fun hne => absurd rfl hne
          exact fun c' peer _ => hidle c' peer trivial
        · exact absurd hrun (Ends.refuse jansson (setClient_self hc) hrefused [] fuel srv')

/-- What the kernel takes is from the front of the outbuffer. -/
theorem sendpartial_takes (accepted : Except String Nat) (sock : Socket) :
    ( sock.sendpartial true accepted).2.1 ++ ( sock.sendpartial true accepted).2.2.wbuf.toList =
        sock.wbuf.toList ∧
      ( sock.sendpartial true accepted).2.2.held = sock.held ∧
      ( sock.sendpartial true accepted).2.2.fd = sock.fd ∧
      ( sock.sendpartial true accepted).2.2.ws = sock.ws := by
  cases accepted with
  | error err => exact ⟨rfl, rfl, rfl, rfl⟩
  | ok n =>
      refine ⟨?_, rfl, rfl, rfl⟩
      have htaken : ( sock.sendpartial true (.ok n)).2.1 =
          (sock.wbuf.peek sendBufLen).take n := rfl
      have hleft : ( sock.sendpartial true (.ok n)).2.2.wbuf =
          (sock.wbuf.discard ((sock.wbuf.peek sendBufLen).take n).length).2 := rfl
      rw [htaken, hleft, Ring.discard_toList, Ring.peek_eq]
      exact List.prefix_iff_eq_append.mp ((List.take_prefix _ _).trans (List.take_prefix _ _))

theorem Carried.writable (hP : ByCommands P) (h : Carried jansson P traffic history srv)
    (hidle : srv.Idle jansson fun _ => True) (hc : srv.clnts.cells c = some clnt)
    {accepted : Except String Nat} (hrun : srv.writable c accepted = .ok srv') :
    (∃ history', Carried jansson P (traffic.write c ( clnt.sock.sendpartial true accepted).2.1)
      history' srv') ∧ srv'.Idle jansson fun _ => True := by
  have hself : srv.view.peers c = some (clnt.view srv.content) := by
    rw [view_peers, hc, Option.map_some]
  obtain ⟨htaken, hheld, hfd, hws⟩ := sendpartial_takes accepted clnt.sock
  rw [Server.writable, deref_some hc, ok_bind] at hrun
  dsimp only at hrun
  split at hrun
  · obtain ⟨hcarried, hkeeps⟩ := h.leave hP hc hfd (by rw [hws]) (Traffic.beside_write _) hrun
    exact ⟨hcarried, hkeeps hidle⟩
  · cases hrun
    refine ⟨⟨_, h.transfer hP hc hfd (by rw [hws]) (Traffic.beside_write _) ?_ ?_⟩, ?_⟩
    · rw [Traffic.write_received, hheld]
      exact h.reads c _ hself
    · rw [Traffic.write_written, List.append_assoc, htaken, hws]
      have hwrites := h.writes c _ hself
      rwa [show (clnt.view srv.content).ws.isSome = clnt.sock.ws.isSome from Option.isSome_map]
        at hwrites
    · refine Idle.transfer hidle hc fun _ => ?_
      have hrbuf : ( clnt.sock.sendpartial true accepted).2.2.rbuf.toList =
          clnt.sock.rbuf.toList := congrArg Prod.snd hheld
      rw [hrbuf]
      exact hidle c _ trivial hself

/-- The events of a run account for the bytes that have passed, if the property admits the
messages in what is delivered. -/
theorem Served.carried {delivers : Server → Traffic → ClientPtr → Bytes → Prop} (hP : ByCommands P)
    (hpermits : ∀ srv traffic history c clnt chunk, Carried jansson P traffic history srv →
      srv.clnts.cells c = some clnt →
      delivers srv traffic c ((traffic.receive c chunk).received c) →
      Permits jansson P (traffic.receive c chunk) c clnt)
    (h : Served jansson delivers srv traffic) :
    (∃ history, Carried jansson P traffic history srv) ∧ srv.Idle jansson fun _ => True := by
  induction h with
  | start hinit =>
      obtain ⟨hcarried, hidle⟩ := Carried.start hP hinit
      exact ⟨⟨_, hcarried⟩, hidle⟩
  | find _ hstep ih =>
      obtain ⟨⟨history, h⟩, hidle⟩ := ih
      exact ⟨⟨_, h.find hP hstep⟩, hidle⟩
  | accept _ hunused hstep ih =>
      obtain ⟨⟨history, h⟩, hidle⟩ := ih
      obtain ⟨hcarried, hkeeps⟩ := h.accept hP hunused hstep
      exact ⟨⟨_, hcarried⟩, hkeeps hidle⟩
  | read _ hregistered hsent hstep ih =>
      obtain ⟨⟨history, h⟩, hidle⟩ := ih
      obtain ⟨clnt, hc⟩ := h.reaches.inv.registry.mem_clients.mp hregistered
      exact h.readable hP hidle hc (hpermits _ _ _ _ _ _ h hc hsent) hstep
  | write _ hc hstep ih =>
      obtain ⟨⟨history, h⟩, hidle⟩ := ih
      exact h.writable hP hidle hc hstep
  | @watch srv traffic _ c clnt hc ev ih =>
      obtain ⟨⟨history, h⟩, hidle⟩ := ih
      have hself : srv.view.peers c = some (clnt.view srv.content) := by
        rw [view_peers, hc, Option.map_some]
      refine ⟨⟨_, h.transfer hP hc rfl rfl (Traffic.beside_refl c traffic) (h.reads c _ hself) ?_⟩,
        Idle.transfer hidle hc fun _ => hidle c _ trivial hself⟩
      have hwrites := h.writes c _ hself
      rwa [show (clnt.view srv.content).ws.isSome = clnt.sock.ws.isSome from Option.isSome_map]
        at hwrites
  | @close srv srv' traffic _ c hregistered hstep ih =>
      obtain ⟨⟨history, h⟩, hidle⟩ := ih
      obtain ⟨clnt, hc⟩ := h.reaches.inv.registry.mem_clients.mp hregistered
      have hsame : srv.setClient c { clnt with sock := clnt.sock } = srv :=
        congrArg (fun clnts => { srv with clnts }) (Heap.write_eq_self hc)
      obtain ⟨hcarried, hkeeps⟩ := h.leave hP hc rfl rfl (Traffic.beside_refl c traffic)
        ((congrArg (Server.close · c) hsame).trans hstep)
      exact ⟨hcarried, hkeeps hidle⟩

theorem byCommands_true : ByCommands fun _ => True := ⟨trivial, fun _ _ _ _ _ => trivial⟩

/-- Of whatever has passed. -/
theorem Served.carried_true {delivers : Server → Traffic → ClientPtr → Bytes → Prop}
    (h : Served jansson delivers srv traffic) :
    (∃ history, Carried jansson (fun _ => True) traffic history srv) ∧
      srv.Idle jansson fun _ => True :=
  h.carried byCommands_true fun _ _ _ _ _ _ _ _ _ => fun _ _ _ _ _ _ _ _ _ _ _ => trivial

end Server

end Dime
