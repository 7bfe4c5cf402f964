import Dime.Server.Answers
import Dime.Server.Inbox
import Dime.Server.Loop

/-!
# Fault isolation

When handling the bytes of one client leaves the server in its event loop, with
nothing done but the commands that those bytes contain.
-/

noncomputable section

open Classical

namespace Dime

variable (jansson : Jansson Json)

/-- An event in the service of client `c`: a search, traffic of its socket, or a
command. -/
def Action.Of (c : ClientPtr) : Action → Prop
  | .find _ => True
  | .transfer c' _ => c' = c
  | .command c' _ _ => c' = c
  | _ => False

/-- The message that a command comes from. -/
def Action.message? : Action → Option (Socket.Message Json)
  | .command _ jsondata bindata => some ⟨jsondata, bindata⟩
  | _ => none

namespace Server

variable {srv mid srv' : Server} {c : ClientPtr} {clnt : Client} {slack : MsgPtr → Nat}

/-- The server has performed the commands of some messages from a client, in order,
and otherwise only passed bytes of its socket. -/
def Serves (srv : Server) (c : ClientPtr) (messages : List (Socket.Message Json))
    (srv' : Server) : Prop :=
  ∃ events, Run jansson srv events srv' ∧ (∀ s action, (s, action) ∈ events → action.Of c) ∧
    events.filterMap (fun (_, action) => action.message?) = messages

theorem Run.append {events events' : List (Server × Action)} (h : Run jansson srv events mid)
    (h' : Run jansson mid events' srv') : Run jansson srv (events ++ events') srv' := by
  induction h' with
  | nil =>
      rw [List.append_nil]
      exact h
  | snoc _ henabled hstep ih =>
      rw [← List.append_assoc]
      exact ih.snoc henabled hstep

theorem Serves.refl (srv : Server) (c : ClientPtr) : Serves jansson srv c [] srv :=
  ⟨[], .nil srv, nofun, rfl⟩

theorem Serves.trans {messages messages' : List (Socket.Message Json)}
    (h : Serves jansson srv c messages mid) (h' : Serves jansson mid c messages' srv') :
    Serves jansson srv c (messages ++ messages') srv' := by
  obtain ⟨events, hrun, hof, hmessages⟩ := h
  obtain ⟨events', hrun', hof', hmessages'⟩ := h'
  refine ⟨events ++ events', hrun.append jansson hrun', fun s action hmem => ?_, ?_⟩
  · rcases List.mem_append.mp hmem with hmem | hmem
    · exact hof s action hmem
    · exact hof' s action hmem
  · rw [List.filterMap_append, hmessages, hmessages']

/-- One event of the client. -/
theorem Serves.single {action : Action} (hof : action.Of c) (henabled : srv.Enabled action)
    (hstep : srv.perform jansson action = .ok srv') :
    Serves jansson srv c action.message?.toList srv' := by
  refine ⟨[(srv, action)], (Run.nil srv).snoc henabled hstep, fun s a hmem => ?_, ?_⟩
  · cases List.mem_singleton.mp hmem
    exact hof
  · cases hmessage : action.message? <;> simp [hmessage]

/-- Bytes have passed through the socket of the client. -/
theorem Serves.transfer (h : srv.Inv slack none) (hc : srv.clnts.cells c = some clnt)
    {sock : Socket} (hfd : sock.fd = clnt.sock.fd) (hws : sock.ws.isSome = clnt.sock.ws.isSome) :
    Serves jansson srv c [] (srv.setClient c { clnt with sock }) ∧
      (srv.setClient c { clnt with sock }).Inv slack none := by
  have hframe := framed_setClient { clnt with sock } hc rfl rfl
  refine ⟨Serves.single jansson (show (Action.transfer c sock).Of c from rfl)
    ⟨clnt, hc, h.registry.mem_clients.mpr ⟨clnt, hc⟩, hfd, hws⟩ ?_,
    h.registry.framed hframe, h.membership.framed hframe, h.refs.setClient hc rfl,
    h.quiet.setClient (h.quiet c clnt hc)⟩
  rw [perform, deref_some hc]
  rfl

/-- A dispatched command keeps the invariant, and what has arrived from its client. -/
theorem Serves.dispatch (h : srv.Inv slack none) (hc : srv.clnts.cells c = some clnt)
    (message : Socket.Message Json) : ∃ ret srv' clnt',
      srv.dispatch jansson .succeed c message.jsondata message.bindata = .ok (ret, srv') ∧
      Serves jansson srv c [message] srv' ∧ srv'.Inv slack none ∧
      srv'.clnts.cells c = some clnt' ∧
      clnt'.sock.rbuf.toList = clnt.sock.rbuf.toList ∧
      clnt'.sock.ws.map Ring.toList = clnt.sock.ws.map Ring.toList := by
  obtain ⟨ret, srv', hrun, hinv, hhandles⟩ :=
    dispatch_succeed jansson h hc message.jsondata message.bindata
  obtain ⟨outs, hpushes, _⟩ := Hub.Handles.pushes jansson hhandles
  have hpeer : srv.view.peers c = some (clnt.view srv.content) := by
    rw [view_peers, hc, Option.map_some]
  obtain ⟨peer', hpeer', _, _, _, _, hrbuf, hws⟩ := hpushes.peer hpeer
  obtain ⟨clnt', hc', rfl⟩ := Option.map_eq_some_iff.mp hpeer'
  obtain ⟨hsame, hsame'⟩ := (@Hub.effect_given jansson srv.view c message.jsondata
    message.bindata c (clnt.view srv.content)).arrived
  refine ⟨ret, srv', clnt', hrun, Serves.single jansson
    (show (Action.command c message.jsondata message.bindata).Of c from rfl)
    (h.registry.mem_clients.mpr ⟨clnt, hc⟩) (by rw [perform, hrun]; rfl), hinv, hc',
    hrbuf.trans hsame, hws.trans hsame'⟩

/-- The clients that are registered stay so. -/
theorem Serves.registered {messages : List (Socket.Message Json)} (h : srv.Inv slack none)
    (hserves : Serves jansson srv c messages srv') {c' : ClientPtr} (hc' : c' ∈ srv.registered) :
    c' ∈ srv'.registered := by
  obtain ⟨events, hrun, hof, hmessages⟩ := hserves
  suffices hall : ∃ slack', srv'.Inv slack' none ∧ c' ∈ srv'.registered from hall.choose_spec.2
  clear hmessages
  induction hrun with
  | nil => exact ⟨slack, h, hc'⟩
  | @snoc mid srv' history action _ henabled hstep ih =>
      obtain ⟨slack', hinv, hmem⟩ := ih fun s a hin => hof s a (List.mem_append_left _ hin)
      obtain ⟨next, hnext, hinv', hacts⟩ := perform_succeed jansson hinv henabled
      rw [hstep] at hnext
      cases hnext
      refine ⟨_, hinv', hinv'.registry.mem_clients.mpr ?_⟩
      obtain ⟨clnt, hcell⟩ := hinv.registry.mem_clients.mp hmem
      have hpeer : mid.view.peers c' = some (clnt.view mid.content) := by
        rw [view_peers, hcell, Option.map_some]
      have hkept : ∃ peer', srv'.view.peers c' = some peer' := by
        have hact := hof mid action (List.mem_append_right _ (List.mem_singleton_self _))
        cases action with
        | accept fd ws => cases hact
        | find fd => exact ⟨_, hacts ▸ hpeer⟩
        | command c₀ jsondata bindata =>
            obtain ⟨outs, hpushes, _⟩ := Hub.Handles.pushes jansson hacts
            obtain ⟨peer', hpeer', _⟩ := hpushes.peer hpeer
            exact ⟨peer', hpeer'⟩
        | transfer c₀ sock =>
            have hview : srv'.view = mid.view.update (· = c₀) _ := hacts
            exact ⟨_, by rw [hview, Hub.update_peers, hpeer, Option.map_some]⟩
        | close c₀ => cases hact
      obtain ⟨peer', hpeer'⟩ := hkept
      obtain ⟨clnt', hcell', _⟩ := Option.map_eq_some_iff.mp hpeer'
      exact ⟨clnt', hcell'⟩

/-! ## The pop loop -/

variable {loop : EventLoop} {errno : String}

/-- Once a libev handler has asked its loop to end, the loop does end, if the handler
returns. -/
theorem popLoop_unlooped (fuel : Nat) (srv srv' : Server) :
    popLoop jansson loop errno fuel true srv c ≠ .ok (.stays, srv') := by
  induction fuel generalizing srv with
  | zero => exact nofun
  | succ fuel ih =>
      intro h
      rw [popLoop] at h
      obtain ⟨clnt, _, h⟩ := bind_eq_ok h
      obtain ⟨⟨n, message, sock⟩, _, h⟩ := bind_eq_ok h
      dsimp only at h
      split at h
      next =>
        split at h
        next message =>
          obtain ⟨⟨_, mid⟩, _, h⟩ := bind_eq_ok h
          exact ih mid h
        next => cases h
      next =>
        split at h
        next =>
          cases loop with
          | select => cases h
          | libev => exact ih _ h
        next => cases h

/-- A socket that pops alike can take the place of the client's. -/
theorem popLoop_setClient (hc : srv.clnts.cells c = some clnt) {sock : Socket}
    (hpop : clnt.sock.pop jansson .succeed = sock.pop jansson .succeed) (fuel : Nat) :
    popLoop jansson loop errno fuel false (srv.setClient c { clnt with sock }) c =
      popLoop jansson loop errno fuel false srv c := by
  cases fuel with
  | zero => rfl
  | succ fuel =>
      rw [popLoop, popLoop, deref_some hc, deref_some (setClient_self hc), ok_bind, ok_bind, hpop]
      simp only [setClient, Heap.write_write]

/-- How the pop loop of a client ends whose messages are `messages`: it returns to
the event loop once they are dispatched, unless the bytes behind them are refused. -/
def Ends (loop : EventLoop) (errno : String) (srv : Server) (c : ClientPtr) :
    List (Socket.Message Json) × Option Bytes → Prop
  | (messages, some _) => ∃ fuel srv',
      popLoop jansson loop errno fuel false srv c = .ok (.stays, srv') ∧
        Serves jansson srv c messages srv'
  | (_, none) => ∀ fuel srv', popLoop jansson loop errno fuel false srv c ≠ .ok (.stays, srv')

/-- A pop that fails, or leaves the memory of the process, ends the loop. -/
theorem Ends.refuse (hc : srv.clnts.cells c = some clnt)
    (hpop : (∃ sock, clnt.sock.pop jansson .succeed = .ok (-1, none, sock)) ∨
      clnt.sock.pop jansson .succeed = .error .outOfBounds)
    (messages : List (Socket.Message Json)) :
    Ends jansson loop errno srv c (messages, none) := by
  intro fuel srv' h
  cases fuel with
  | zero => cases h
  | succ fuel =>
      rw [popLoop, deref_some hc, ok_bind] at h
      rcases hpop with ⟨sock, hpop⟩ | hpop
      · rw [hpop] at h
        cases loop with
        | select => cases h
        | libev => exact popLoop_unlooped jansson fuel _ srv' h
      · rw [hpop] at h
        cases h

/-- A pop that finds no complete message ends the loop. -/
theorem Ends.wait (h : srv.Inv slack none) (hc : srv.clnts.cells c = some clnt)
    (hpop : clnt.sock.pop jansson .succeed = .ok (0, none, clnt.sock)) (rest : Bytes) :
    Ends jansson loop errno srv c ([], some rest) := by
  refine ⟨1, srv.setClient c clnt, ?_, (Serves.transfer jansson h hc rfl rfl).1⟩
  rw [popLoop, deref_some hc, ok_bind, hpop]
  rfl

/-- After a message has been popped and dispatched, the loop goes on. -/
theorem Ends.dispatch (hc : srv.clnts.cells c = some clnt) {size : Nat}
    {message : Socket.Message Json} {sock : Socket} {ret : Int} (hpos : 0 < size)
    (hpop : clnt.sock.pop jansson .succeed = .ok (size, some message, sock))
    (hdispatch : (srv.setClient c { clnt with sock }).dispatch jansson .succeed c
      message.jsondata message.bindata = .ok (ret, mid))
    (hserves : Serves jansson srv c [message] mid)
    {messages : List (Socket.Message Json)} {rest : Option Bytes}
    (hrest : Ends jansson loop errno mid c (messages, rest)) :
    Ends jansson loop errno srv c (message :: messages, rest) := by
  have hround : ∀ fuel, popLoop jansson loop errno (fuel + 1) false srv c =
      popLoop jansson loop errno fuel false mid c := by
    intro fuel
    rw [popLoop, deref_some hc, ok_bind, hpop, ok_bind]
    dsimp only
    rw [if_pos (by omega), hdispatch, ok_bind]
  cases rest with
  | some rest =>
      obtain ⟨fuel, srv', hrun, hserves'⟩ := hrest
      exact ⟨fuel + 1, srv', (hround fuel).trans hrun, hserves.trans jansson hserves'⟩
  | none =>
      intro fuel srv' hrun
      cases fuel with
      | zero => cases hrun
      | succ fuel => exact hrest fuel srv' ((hround fuel).symm.trans hrun)

/-- The pop loop on a socket without complete frames. The induction is on the length
of the inbuffer, which every dispatched message shortens. -/
theorem popLoop_unwrapped (h : srv.Inv slack none) (hc : srv.clnts.cells c = some clnt)
    (hunwrapped : clnt.sock.Unwrapped) :
    Ends jansson loop errno srv c
      (Framing.drain (Socket.readMessage jansson) clnt.sock.rbuf.toList) := by
  induction hlength : clnt.sock.rbuf.toList.length using Nat.strong_induction_on
    generalizing srv clnt with
  | _ length ih =>
      have hpop := Socket.pop_unwrapped jansson hunwrapped
      have hpops := Socket.popMessage_reads jansson clnt.sock
      cases hread : Socket.readMessage jansson clnt.sock.rbuf.toList with
      | more =>
          rw [hread] at hpops
          rw [Framing.drain_more hread]
          exact Ends.wait jansson h hc (hpop.trans hpops) _
      | bad =>
          rw [hread] at hpops
          rw [Framing.drain_bad hread]
          apply Ends.refuse jansson hc
          rw [hpop]
          rcases hpops with ⟨err, hrefused⟩ | houtside
          · exact .inl ⟨_, hrefused⟩
          · exact .inr houtside
      | item message size =>
          rw [hread] at hpops
          obtain ⟨hpos, hsize, hrun⟩ := hpops
          obtain ⟨hserves, hinv⟩ := @Serves.transfer jansson srv c clnt slack h hc
            { clnt.sock with rbuf := (clnt.sock.rbuf.discard size).2 } rfl rfl
          obtain ⟨ret, mid, clnt', hdispatch, hserves', hinv', hc', hrbuf, hws⟩ :=
            Serves.dispatch jansson hinv (setClient_self hc) message
          have hleft : clnt'.sock.rbuf.toList = clnt.sock.rbuf.toList.drop size :=
            hrbuf.trans (Ring.discard_toList _ _)
          rw [Framing.drain_item (Socket.readMessage_progresses jansson) hread, ← hleft]
          apply Ends.dispatch jansson hc hpos (hpop.trans hrun) hdispatch
            (hserves.trans jansson hserves')
          refine ih _ ?_ hinv' hc' (hunwrapped.congr hws) rfl
          rw [hleft, List.length_drop]
          omega

/-- The pop loop may as well start after events of the client. -/
theorem Ends.congr (hserves : Serves jansson srv c [] mid)
    (hrun : ∀ fuel, popLoop jansson loop errno fuel false mid c =
      popLoop jansson loop errno fuel false srv c)
    {drained : List (Socket.Message Json) × Option Bytes}
    (hends : Ends jansson loop errno mid c drained) : Ends jansson loop errno srv c drained := by
  obtain ⟨messages, rest⟩ := drained
  cases rest with
  | some rest =>
      obtain ⟨fuel, srv', hstays, hserves'⟩ := hends
      exact ⟨fuel, srv', (hrun fuel).symm.trans hstays, hserves.trans jansson hserves'⟩
  | none => exact fun fuel srv' hstays => hends fuel srv' ((hrun fuel).trans hstays)

/-- The pop loop of any client. -/
theorem popLoop_ends (h : srv.Inv slack none) (hc : srv.clnts.cells c = some clnt) :
    Ends jansson loop errno srv c (Socket.drained jansson clnt.sock.held) := by
  rw [Socket.drained]
  rcases Socket.pop_unwraps jansson clnt.sock with
    ⟨bytes, sock, hbytes, hunwrapped, hrbuf, hfd, hws, hpop⟩ | ⟨hbad, hpop⟩
  · rw [hbytes, ← hrbuf]
    obtain ⟨hserves, hinv⟩ := Serves.transfer jansson h hc hfd hws
    apply Ends.congr jansson hserves
    · intro fuel
      exact popLoop_setClient jansson hc
        (hpop.trans (Socket.pop_unwrapped jansson hunwrapped).symm) fuel
    · exact popLoop_unwrapped jansson hinv (setClient_self hc) hunwrapped
  · rw [hbad]
    exact Ends.refuse jansson hc hpop []

/-! ## Handling a readable client -/

/-- The handling of a readable client is its pop loop, with the bytes that have
arrived. -/
theorem readable_ends (h : srv.Inv slack none) (hc : srv.clnts.cells c = some clnt)
    {chunk : Bytes} (hchunk : chunk ≠ []) : ∃ mid, Serves jansson srv c [] mid ∧
      Ends jansson loop errno mid c (Socket.drained jansson (clnt.sock.arrived chunk)) ∧
      ∀ fuel, srv.readable jansson loop errno fuel c (.ok chunk) =
        popLoop jansson loop errno fuel false mid c := by
  obtain ⟨sock, hrecv, hheld, hfd, hws⟩ := clnt.sock.recvpartial_held chunk
  obtain ⟨hserves, hinv⟩ := Serves.transfer jansson h hc hfd hws
  refine ⟨srv.setClient c { clnt with sock }, hserves, ?_, fun fuel => ?_⟩
  · rw [← hheld]
    exact popLoop_ends jansson hinv (setClient_self hc)
  · have hpos : 0 < (chunk.take recvBufLen).length := by
      have := List.length_pos_iff.mpr hchunk
      rw [List.length_take, recvBufLen]
      omega
    rw [readable, deref_some hc, ok_bind, hrecv]
    dsimp only
    rw [if_neg (by omega)]

/-- The search of the `select` loop finds the client. -/
theorem find_succeed (h : srv.Inv slack none) (hc : srv.clnts.cells c = some clnt) :
    ∃ fd2clnt, srv.fd2clnt.search clnt.fd = some (some c, fd2clnt) ∧
      Serves jansson srv c [] { srv with fd2clnt } ∧
      ({ srv with fd2clnt } : Server).Inv slack none := by
  obtain ⟨fd2clnt, hsearch, hinv⟩ := search_succeed h clnt.fd
  rw [(h.registry.fd_lookup clnt.fd c).mpr ⟨clnt, hc, rfl⟩] at hsearch
  have hof : (Action.find clnt.fd).Of c := trivial
  exact ⟨fd2clnt, hsearch, Serves.single jansson hof trivial (by rw [perform, hsearch]; rfl), hinv⟩

theorem onReadable_ends (h : srv.Inv slack none) (hc : srv.clnts.cells c = some clnt)
    {chunk : Bytes} (hchunk : chunk ≠ []) : ∃ mid, Serves jansson srv c [] mid ∧
      Ends jansson loop errno mid c (Socket.drained jansson (clnt.sock.arrived chunk)) ∧
      ∀ fuel, srv.onReadable jansson loop errno fuel clnt.fd c (.ok chunk) =
        popLoop jansson loop errno fuel false mid c := by
  cases loop with
  | libev => exact readable_ends jansson h hc hchunk
  | select =>
      obtain ⟨fd2clnt, hsearch, hserves, hinv⟩ := find_succeed jansson h hc
      obtain ⟨mid, hserves', hends, hrun⟩ := readable_ends jansson hinv hc hchunk
      refine ⟨mid, hserves.trans jansson hserves', hends, fun fuel => ?_⟩
      rw [onReadable, hsearch]
      exact hrun fuel

/-- Handling the bytes that a client sent leaves the server in its event loop, every
client registered, and nothing done but the commands among them. -/
def Isolated (loop : EventLoop) (errno : String) (srv : Server) (c : ClientPtr) (clnt : Client)
    (chunk : Bytes) : Prop :=
  ∃ fuel srv', srv.onReadable jansson loop errno fuel clnt.fd c (.ok chunk) = .ok (.stays, srv') ∧
    Serves jansson srv c (Socket.drained jansson (clnt.sock.arrived chunk)).1 srv' ∧
    ∀ c' ∈ srv.registered, c' ∈ srv'.registered

theorem isolated_of_wellFormed (h : srv.Inv slack none) (hc : srv.clnts.cells c = some clnt)
    {chunk : Bytes} (hchunk : chunk ≠ [])
    (hwell : Socket.WellFormed jansson (clnt.sock.arrived chunk)) :
    Isolated jansson loop errno srv c clnt chunk := by
  obtain ⟨mid, hserves, hends, hrun⟩ := @onReadable_ends jansson srv c clnt slack loop errno h hc
    chunk hchunk
  obtain ⟨rest, hrest⟩ := hwell
  rw [← Prod.mk.eta (p := Socket.drained jansson (clnt.sock.arrived chunk)), hrest] at hends
  obtain ⟨fuel, srv', hstays, hserves'⟩ := hends
  have hall := hserves.trans jansson hserves'
  exact ⟨fuel, srv', (hrun fuel).trans hstays, hall, fun c' hc' => hall.registered jansson h hc'⟩

theorem not_isolated_of_refused (h : srv.Inv slack none) (hc : srv.clnts.cells c = some clnt)
    {chunk : Bytes} (hchunk : chunk ≠ [])
    (hbad : (Socket.drained jansson (clnt.sock.arrived chunk)).2 = none) :
    ¬ Isolated jansson loop errno srv c clnt chunk := by
  rintro ⟨fuel, srv', hstays, _⟩
  obtain ⟨mid, _, hends, hrun⟩ := @onReadable_ends jansson srv c clnt slack loop errno h hc
    chunk hchunk
  rw [← Prod.mk.eta (p := Socket.drained jansson (clnt.sock.arrived chunk)), hbad] at hends
  exact hends fuel srv' ((hrun fuel).symm.trans hstays)

end Server

open Server

/-- Handling the bytes of a client is isolated from everything else if and only if all
bytes buffered and received are complete frames and messages and an incomplete rest. -/
theorem isolated_iff {history : List (Server × Action)} {srv : Server}
    (h : Reaches jansson history srv) {c : ClientPtr} {clnt : Client}
    (hc : srv.clnts.cells c = some clnt) (loop : EventLoop) (errno : String) {chunk : Bytes}
    (hchunk : chunk ≠ []) :
    Isolated jansson loop errno srv c clnt chunk ↔
      Socket.WellFormed jansson (clnt.sock.arrived chunk) := by
  cases hrest : (Socket.drained jansson (clnt.sock.arrived chunk)).2 with
  | some rest =>
      exact ⟨fun _ => ⟨rest, hrest⟩, isolated_of_wellFormed jansson h.inv hc hchunk⟩
  | none =>
      have hnot := @not_isolated_of_refused jansson srv c clnt _ loop errno h.inv hc chunk
        hchunk hrest
      refine ⟨fun hbad => absurd hbad hnot, fun hwell => ?_⟩
      obtain ⟨rest, hsome⟩ := hwell
      rw [hrest] at hsome
      cases hsome

/-- A JSON library for one request. -/
abbrev syncOnly : Jansson Json := compactJansson [((syncRequest 1).compact, syncRequest 1)]

/-- One client from which nothing has arrived. -/
theorem quietClient : ∃ history srv clnt, Reaches syncOnly history srv ∧
    srv.clnts.cells 0 = some clnt ∧
    ∀ chunk, clnt.sock.arrived chunk = (none, chunk.take recvBufLen) := by
  have hscript : (script syncOnly [.accept 3 false]).bind (fun result =>
      (result.2.clnts.cells 0).map fun clnt => clnt.sock.held) = some (none, []) := by
    decide +kernel
  obtain ⟨⟨history, srv⟩, hrun, hvalue⟩ := Option.bind_eq_some_iff.mp hscript
  obtain ⟨clnt, hc, hheld⟩ := Option.map_eq_some_iff.mp hvalue
  refine ⟨history, srv, clnt, script_reaches _ hrun, hc, fun chunk => ?_⟩
  obtain ⟨hws, hrbuf⟩ := Prod.mk.inj hheld
  rw [Socket.arrived, Option.map_eq_none_iff.mp hws, hrbuf]
  rfl

/-- A request and the header of another. -/
theorem isolated_iff_sync : ∃ history srv clnt chunk, Reaches syncOnly history srv ∧
    srv.clnts.cells 0 = some clnt ∧ Isolated syncOnly .select "" srv 0 clnt chunk := by
  obtain ⟨history, srv, clnt, h, hc, harrived⟩ := quietClient
  refine ⟨history, srv, clnt, Socket.header 24 0 ++ (syncRequest 1).compact ++ magic, h, hc, ?_⟩
  rw [isolated_iff syncOnly h hc .select "" (by decide), harrived]
  have hrest : (Socket.drained syncOnly (none, (Socket.header 24 0 ++ (syncRequest 1).compact ++
      magic).take recvBufLen)).2 = some magic := by decide +kernel
  exact ⟨magic, hrest⟩

/-- Twelve bytes that are not a header end the server of everyone. -/
theorem not_isolated : ¬ ∀ (jansson : Jansson Json) history srv, Reaches jansson history srv →
    ∀ c clnt, srv.clnts.cells c = some clnt → ∀ loop errno chunk, chunk ≠ [] →
      Isolated jansson loop errno srv c clnt chunk := by
  intro hall
  obtain ⟨history, srv, clnt, h, hc, harrived⟩ := quietClient
  have hbad : (Socket.drained syncOnly (none, (List.replicate 12 0).take recvBufLen)).2 = none := by
    decide +kernel
  rw [← harrived] at hbad
  exact not_isolated_of_refused syncOnly h.inv hc (by decide) hbad
    (hall _ history srv h 0 clnt hc .select "" _ (by decide))

end Dime

end