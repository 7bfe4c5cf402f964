import Dime.Server.Handlers

/-!
# Runs of the server

What the event loops do to the state of the server, one event at a time, for as
long as no allocation fails. Runs interleave the events of all connections in any
order.
-/

namespace Dime

/-- An event. `accept` is a new connection, with the descriptor that the kernel
chose for it; `find` is the search for a descriptor that is ready, which may
rearrange the table; `transfer` is traffic of a socket: bytes that arrived or left,
or that were taken off the inbuffer. -/
inductive Action where
  | accept (fd : Nat) (ws : Bool)
  | find (fd : Nat)
  | command (c : ClientPtr) (jsondata : Json) (bindata : Bytes)
  | transfer (c : ClientPtr) (sock : Socket)
  | close (c : ClientPtr)

namespace Server

variable (jansson : Jansson Json)

/-- The clients that `fd2clnt` holds. -/
def registered (srv : Server) : List ClientPtr := srv.fd2clnt.iterate.map Entry.val

/-- What the kernel and the event loops see to: a new connection does not get a
descriptor in use, other events are those of registered clients, and only the buffers
and the watchers of a socket change as bytes pass. -/
def Enabled (srv : Server) : Action → Prop
  | .accept fd _ => fd ∉ srv.fd2clnt.iterate.map Entry.key
  | .find _ => True
  | .command c _ _ => c ∈ srv.registered
  | .transfer c sock => ∃ clnt, srv.clnts.cells c = some clnt ∧ c ∈ srv.registered ∧
      sock.fd = clnt.sock.fd ∧ sock.ws.isSome = clnt.sock.ws.isSome
  | .close c => c ∈ srv.registered

/-- What an event does. -/
def perform (srv : Server) : Action → Except Fault Server
  | .accept fd ws => do
      match ← srv.accept (fun _ => true) fd ws with
      | some srv => return srv
      | none => return srv
  | .find fd => do
      let (_, fd2clnt) ← ended (srv.fd2clnt.search fd)
      return { srv with fd2clnt }
  | .command c jsondata bindata => do
      let (_, srv) ← srv.dispatch jansson .succeed c jsondata bindata
      return srv
  | .transfer c sock => do
      let clnt ← deref srv.clnts c
      return srv.setClient c { clnt with sock }
  | .close c => srv.close c

/-- A run, with each of its events in the state that it found. -/
inductive Run : Server → List (Server × Action) → Server → Prop
  | nil (srv : Server) : Run srv [] srv
  | snoc {srv mid srv' : Server} {history : List (Server × Action)} {action : Action}
      (before : Run srv history mid) (enabled : mid.Enabled action)
      (step : mid.perform jansson action = .ok srv') :
      Run srv (history ++ [(mid, action)]) srv'

/-- A run from the start of the server. -/
def Reaches (history : List (Server × Action)) (srv : Server) : Prop :=
  ∃ start, init (fun _ => true) = some start ∧ Run jansson start history srv

instance (srv : Server) (action : Action) : Decidable (srv.Enabled action) :=
  match action with
  | .accept fd _ => inferInstanceAs (Decidable (fd ∉ srv.fd2clnt.iterate.map Entry.key))
  | .find _ => inferInstanceAs (Decidable True)
  | .command c _ _ => inferInstanceAs (Decidable (c ∈ srv.registered))
  | .transfer c sock =>
      match h : srv.clnts.cells c with
      | none => .isFalse fun ⟨clnt, hc, _⟩ => by rw [h] at hc; cases hc
      | some clnt =>
          decidable_of_iff (c ∈ srv.registered ∧ sock.fd = clnt.sock.fd ∧
            sock.ws.isSome = clnt.sock.ws.isSome)
            ⟨fun hold => ⟨clnt, h, hold⟩, fun ⟨_, hc, hold⟩ => by rw [h] at hc; cases hc; exact hold⟩
  | .close c => inferInstanceAs (Decidable (c ∈ srv.registered))

/-- Play the events of a list, with what has happened before; `none` where one is
not enabled or does not run through. -/
def play : List Action → List (Server × Action) → Server →
    Option (List (Server × Action) × Server)
  | [], history, srv => some (history, srv)
  | action :: rest, history, srv =>
      if srv.Enabled action then
        match srv.perform jansson action with
        | .ok srv' => play rest (history ++ [(srv, action)]) srv'
        | .error _ => none
      else none

theorem play_run {start srv srv' : Server} {history history' : List (Server × Action)}
    (before : Run jansson start history srv) (actions : List Action)
    (hplay : play jansson actions history srv = some (history', srv')) :
    Run jansson start history' srv' := by
  induction actions generalizing history srv with
  | nil =>
      cases hplay
      exact before
  | cons action rest ih =>
      rw [play] at hplay
      split at hplay
      next henabled =>
        split at hplay
        next mid hstep => exact ih (before.snoc henabled hstep) hplay
        next => cases hplay
      next => cases hplay

/-- Play events from the start of the server. -/
def script (actions : List Action) : Option (List (Server × Action) × Server) :=
  (init fun _ => true).bind fun start => play jansson actions [] start

theorem script_reaches {history : List (Server × Action)} {srv : Server} {actions : List Action}
    (hscript : script jansson actions = some (history, srv)) : Reaches jansson history srv := by
  obtain ⟨start, hinit, hplay⟩ := Option.bind_eq_some_iff.mp hscript
  exact ⟨start, hinit, play_run jansson (.nil start) actions hplay⟩

end Server

end Dime
