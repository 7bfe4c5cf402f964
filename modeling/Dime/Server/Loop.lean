import Dime.Server.Run

/-!
# The event loops

What the `select` loop and the libev handler do when a client's descriptor is
readable: receive, then pop and dispatch messages until none is complete. They
differ in what a failed pop leads to.
-/

namespace Dime

/-- The two builds of `dime_server_loop`. -/
inductive EventLoop where
  | select
  | libev
  deriving DecidableEq, Repr

/-- What follows a step: the loop goes on, or `dime_server_loop` returns. -/
inductive Verdict where
  | stays
  | returns
  deriving DecidableEq, Repr

namespace Server

variable (jansson : Jansson Json)

/-- The `while (1)` around `dime_socket_pop`. A failed pop makes the `select` loop
return, while the libev handler only asks its loop to end once the handler is over
(`unlooped`) and pops again. `errno` is the text that `strerror(errno)` has then. -/
def popLoop (loop : EventLoop) (errno : String) :
    Nat → Bool → Server → ClientPtr → Except Fault (Verdict × Server)
  | 0, _, _, _ => .error .diverges
  | fuel + 1, unlooped, srv, c => do
      let clnt ← deref srv.clnts c
      let (n, message, sock) ← clnt.sock.pop jansson .succeed
      let srv := srv.setClient c { clnt with sock }
      if n > 0 then
        match message with
        | some message =>
            let (_, srv) ← srv.dispatch jansson .succeed c message.jsondata message.bindata
            popLoop loop errno fuel unlooped srv c
        -- a positive return value comes with a message
        | none => .error .outOfBounds
      else if n < 0 then
        let srv := { srv with err := errno }
        match loop with
        | .select => return (.returns, srv)
        | .libev => popLoop loop errno fuel true srv c
      else return (if unlooped then .returns else .stays, srv)

/-- The handling of a readable client: `chunk` is what the kernel delivers, or the
error that it reports. -/
def readable (loop : EventLoop) (errno : String) (fuel : Nat) (srv : Server) (c : ClientPtr)
    (chunk : Except String Bytes) : Except Fault (Verdict × Server) := do
  let clnt ← deref srv.clnts c
  let (n, sock) := clnt.sock.recvpartial true true chunk
  let srv := srv.setClient c { clnt with sock }
  if n ≤ 0 then
    let srv ← srv.close c
    return (.stays, srv)
  else popLoop jansson loop errno fuel false srv c

/-- The handling of a descriptor `fd` that is ready to be read, of client `c`. The
`select` loop searches for the client, and takes a descriptor without one for one that
it listens on; to the handler of libev the client is given. -/
def onReadable (loop : EventLoop) (errno : String) (fuel : Nat) (srv : Server) (fd : Nat)
    (c : ClientPtr) (chunk : Except String Bytes) : Except Fault (Verdict × Server) :=
  match loop with
  | .select => do
      let (found, fd2clnt) ← ended (srv.fd2clnt.search fd)
      let srv := { srv with fd2clnt }
      match found with
      | some c => srv.readable jansson loop errno fuel c chunk
      | none => return (.stays, srv)
  | .libev => srv.readable jansson loop errno fuel c chunk

end Server

end Dime
