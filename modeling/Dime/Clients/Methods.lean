import Dime.Foundation.Dialogue
import Dime.Server.Socket

/-!
# What the clients have in common

The messages that the three clients send, and the schemes that their methods follow:
how a message is read, how variables are transmitted in batches, and how relayed
messages are collected.
-/

namespace Dime

open Dialogue

/-- A message as a client sends or reads it. -/
abbrev Message := Socket.Message Json

namespace Request

/-- A request without binary data. -/
def plain (fields : List (String × Json)) : Message := ⟨.object fields, []⟩

def handshake (serialization : String) : Message :=
  plain [("command", .string "handshake"), ("serialization", .string serialization),
    ("tls", .bool false)]

def join (names : List String) : Message :=
  plain [("command", .string "join"), ("name", .array (names.map Json.string))]

def leave (names : List String) : Message :=
  plain [("command", .string "leave"), ("name", .array (names.map Json.string))]

def sync (n : Int64) : Message := plain [("command", .string "sync"), ("n", .integer n)]

def wait : Message := plain [("command", .string "wait")]

def devices : Message := plain [("command", .string "devices")]

def send (name varname : String) (serialization : Json) : Json :=
  .object [("command", .string "send"), ("name", .string name), ("varname", .string varname),
    ("serialization", serialization)]

def broadcast (varname : String) (serialization : Json) : Json :=
  .object [("command", .string "broadcast"), ("varname", .string varname),
    ("serialization", serialization)]

end Request

/-! ## Reading a message -/

/-- How a client reads messages: which of them are meant for the connection, what it does
with these, and how it checks a reply. -/
structure Listener (Self Err : Type) where
  isMeta : Json → Except Err Bool
  onMeta : Json → Except Err (Self → Self)
  check : Json → Except Err Unit

namespace Listener

variable {Self Err : Type} (listener : Listener Self Err)

/-- Read up to a message that is not meant for the connection. -/
def recv : Nat → Prog Self Err Message Message Message
  | 0 => Prog.exhausted
  | fuel + 1 => do
      let message ← Prog.message
      let isMeta ← Prog.ofExcept (listener.isMeta message.jsondata)
      if isMeta then
        let f ← Prog.ofExcept (listener.onMeta message.jsondata)
        Prog.modify f
        recv fuel
      else return message

/-- Read a reply and check its status. -/
def reply (fuel : Nat) : Prog Self Err Message Message Json := do
  let message ← listener.recv fuel
  Prog.ofExcept (listener.check message.jsondata)
  return message.jsondata

/-- Send a request and read the reply. -/
def call (fuel : Nat) (request : Message) : Prog Self Err Message Message Json := do
  Prog.request request
  listener.reply fuel

end Listener

/-! ## Transmitting variables -/

/-- The parts of a list that start at `0`, `step`, `2 * step`, ... and have up to `size`
elements. -/
def windows {α : Type} (step size : Nat) (l : List α) : List (List α) :=
  (List.range ((l.length + step - 1) / step)).map fun i => (l.drop (step * i)).take size

example : windows 2 2 [1, 2, 3, 4, 5] = [[1, 2], [3, 4], [5]] := by decide

/-- What a client that transmits in batches has: the serialization that it holds, its
encoder, and the comparison of two serializations. -/
structure Pipeline (Self Err V : Type) extends Listener Self Err where
  serialization : Self → Json
  encode : Self → V → Except Err Bytes
  differs : Json → Json → Bool

namespace Pipeline

variable {Self Err V : Type} (pipe : Pipeline Self Err V) (request : String → Json → Json)

/-- The first inner loop: send a batch, and count its messages. -/
def sendBatch : List (String × V) → Prog Self Err Message Message Nat
  | [] => return 0
  | (varname, var) :: rest => do
      let self ← Prog.self
      let bindata ← Prog.ofExcept (pipe.encode self var)
      Prog.request ⟨request varname (pipe.serialization self), bindata⟩
      let n ← sendBatch rest
      return n + 1

/-- The second inner loop: read so many replies. -/
def readReplies (fuel : Nat) : Nat → Prog Self Err Message Message Unit
  | 0 => return ()
  | n + 1 => do
      let _ ← pipe.reply fuel
      readReplies fuel n

/-- The loop over the batches, for the serialization held when the call began. Where it
is found changed, the call ends with `resend`. -/
def batches (fuel : Nat) (serialization : Json) (resend : Prog Self Err Message Message Unit) :
    List (List (String × V)) → Prog Self Err Message Message Unit
  | [] => return ()
  | batch :: rest => do
      let n ← pipe.sendBatch request batch
      pipe.readReplies fuel n
      let self ← Prog.self
      if pipe.differs serialization (pipe.serialization self) then resend
      else batches fuel serialization resend rest

def transmit (fuel : Nat) (resend : Prog Self Err Message Message Unit)
    (kvs : List (List (String × V))) : Prog Self Err Message Message Unit := do
  let self ← Prog.self
  pipe.batches request fuel (pipe.serialization self) resend kvs

end Pipeline

/-! ## Collecting relayed messages -/

/-- What a `sync` makes of a message: the end of its loop, an error, a message that it
passes over, or a variable that it keeps. -/
inductive Judgement (Err Vars : Type) where
  | finish
  | fail (err : Err)
  | skip
  | keep (f : Vars → Vars)

/-- The loop of a `sync`. `m` counts down for every message that is passed over. -/
def collect {Self Err Vars : Type} (recv : Prog Self Err Message Message Message)
    (judge : Message → Judgement Err Vars) :
    Nat → Vars → Int → Prog Self Err Message Message (Vars × Int)
  | 0, _, _ => Prog.exhausted
  | rounds + 1, vars, m => do
      let message ← recv
      match judge message with
      | .finish => return (vars, m)
      | .fail err => Prog.raise err
      | .skip => collect recv judge rounds vars (m - 1)
      | .keep f => collect recv judge rounds (f vars) m

/-- A `sync` of `n` messages, `again` for as many as were passed over. -/
def syncWith {Self Err Vars : Type} (recv : Prog Self Err Message Message Message)
    (judge : Message → Judgement Err Vars) (rounds : Nat) (vars : Vars)
    (again : Vars → Int64 → Prog Self Err Message Message Vars) (n : Int64) :
    Prog Self Err Message Message Vars := do
  Prog.request (Request.sync n)
  let (vars, m) ← collect recv judge rounds vars n.toInt
  if 0 < n.toInt ∧ m < n.toInt then again vars (Int64.ofInt (n.toInt - m)) else return vars

end Dime
