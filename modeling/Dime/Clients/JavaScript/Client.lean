import Mathlib.Data.List.Sort
import Dime.Clients.Methods

/-!
# The JavaScript client

The methods of `DimeClient`, each awaited before the next is called. Each loop has a
bound on its rounds. What JavaScript makes of decoded JSON is taken as it is, for
values that the server does not send.
-/

namespace Dime.JavaScript

open Dialogue

/-- What the methods use of JavaScript and of the codecs, for values of type `V`.
`none` is an exception; `negative` is `x < 0`. -/
structure Runtime (V : Type) where
  negative : Json → Option Bool
  propertyKey : Json → Option String
  dimebdumps : V → Option Bytes
  dimebloads : Bytes → Option V
  jsondumps : V → Option Bytes
  jsonloads : Bytes → Option V
  negative_integer : ∀ n, negative (.integer n) = some (decide (n.toInt < 0))

/-- The functions that a client holds. -/
inductive Codec where
  | dimeb
  | json
  deriving DecidableEq, Repr

/-- A `DimeClient`. A serialization that is `undefined` is `none`, and `rejected` is the
reason for which `this.connected` is rejected. -/
structure DimeClient where
  serialization : Option Json
  codec : Option Codec
  rejected : Option String

abbrev Method (α : Type) := Prog DimeClient String Message Message α

variable {V : Type} (rt : Runtime V)

/-- `this` as the constructor sets it up. -/
def DimeClient.new : DimeClient := ⟨some (.string "json"), none, none⟩

/-- The serializations that the client has functions for. -/
def Codec.ofName? : Option Json → Option Codec
  | some (.string name) =>
      if name = "dimeb" then some .dimeb else if name = "json" then some .json else none
  | _ => none

/-- `jsondata.status < 0`. -/
def failed (jsondata : Json) : Except String Bool :=
  match jsondata.get? "status" with
  | none => .ok false
  | some status =>
      match rt.negative status with
      | none => .error "TypeError"
      | some b => .ok b

/-- `if (jsondata.status < 0) { throw ...; }`. -/
def checkStatus (jsondata : Json) : Except String Unit := do
  if ← failed rt jsondata then .error "status" else .ok ()

namespace DimeClient

/-- `__recv`. -/
def recv : Method Message := Prog.message

/-- What the constructor does with the reply to its handshake. A rejected promise stays
rejected. -/
def onReply (jsondata : Json) (self : DimeClient) : DimeClient :=
  match failed rt jsondata with
  | .error err => { self with rejected := some err }
  | .ok failed =>
      let serialization := jsondata.get? "serialization"
      match Codec.ofName? serialization with
      | some codec => ⟨serialization, some codec, if failed then some "error" else none⟩
      | none =>
          ⟨serialization, self.codec,
            some (if failed then "error" else "Cannot use the selected serialization")⟩

/-- `onopen`. -/
def onopen : Method Unit := do
  Prog.request (Request.handshake "json")
  let message ← recv
  Prog.modify (onReply rt message.jsondata)

/-- `await this.connected`. -/
def connected : Method Unit := do
  let self ← Prog.self
  match self.rejected with
  | some reason => Prog.raise reason
  | none => return ()

/-- Send a request and check the reply to it. -/
def call (request : Message) : Method Json := do
  Prog.request request
  let message ← recv
  Prog.ofExcept (checkStatus rt message.jsondata)
  return message.jsondata

def join (names : List String) : Method Unit := do
  connected
  let _ ← call rt (Request.join names)
  return ()

def leave (names : List String) : Method Unit := do
  connected
  let _ ← call rt (Request.leave names)
  return ()

/-- `this.dumps(value)`. The function that is there at first returns `undefined`, for
which `__send` takes an empty buffer. -/
def dumps (self : DimeClient) (value : V) : Except String Bytes :=
  match self.codec with
  | none => .ok []
  | some codec =>
      match (match codec with
        | .dimeb => rt.dimebdumps value
        | .json => rt.jsondumps value) with
      | some bindata => .ok bindata
      | none => .error "dumps"

/-- The loop of `send_r` and `broadcast_r`. A serialization that is `undefined` is left
out of the JSON text, which does not happen to a connected client. -/
def transmit (request : String → Json → Json) : List (String × V) → Method Unit
  | [] => return ()
  | (varname, value) :: rest => do
      let self ← Prog.self
      let bindata ← Prog.ofExcept (dumps rt self value)
      let _ ← call rt ⟨request varname (self.serialization.getD .null), bindata⟩
      transmit request rest

def send_r (name : String) (kvpairs : List (String × V)) : Method Unit := do
  connected
  transmit rt (Request.send name) kvpairs

def broadcast_r (kvpairs : List (String × V)) : Method Unit := do
  connected
  transmit rt Request.broadcast kvpairs

/-- `ret[name] = x`, for an object's own properties: `__proto__` is none. -/
def setProperty (name : String) (x : V) (ret : List (String × V)) : List (String × V) :=
  if name = "__proto__" then ret
  else if ret.any (fun property => property.1 = name) then
    ret.map fun property => if property.1 = name then (name, x) else property
  else ret ++ [(name, x)]

/-- The number that a key is, if it is an array index. -/
def arrayIndex? (key : String) : Option Nat :=
  key.toNat?.bind fun n => if toString n = key ∧ n < 2 ^ 32 - 1 then some n else none

/-- Array indices come first, from small to large, and the other keys as they were
created. -/
def precedes (key key' : String) : Bool :=
  match arrayIndex? key, arrayIndex? key' with
  | some n, some n' => decide (n ≤ n')
  | some _, none => true
  | none, some _ => false
  | none, none => true

/-- `Object.entries`. -/
def entries (object : List (String × V)) : List (String × V) :=
  object.insertionSort fun entry entry' => precedes entry.1 entry'.1

/-- The loop of `send` and `broadcast`. -/
def selected (workspace : String → V) (varnames : List String) : List (String × V) :=
  varnames.foldl (fun kvpairs varname => setProperty varname (workspace varname) kvpairs) []

def send (workspace : String → V) (name : String) (varnames : List String) : Method Unit :=
  send_r rt name (entries (selected workspace varnames))

/-- The first argument is taken for a group. -/
def broadcast (workspace : String → V) (arguments : List String) : Method Unit :=
  broadcast_r rt (entries (selected workspace arguments.tail))

/-- `jsondata.varname` as the name of a property. -/
def varname (jsondata : Json) : Option String :=
  match jsondata.get? "varname" with
  | none => some "undefined"
  | some name => rt.propertyKey name

/-- The body of the loop of `sync_r`. -/
def judge (message : Message) : Judgement String (List (String × V)) :=
  if (message.jsondata.get? "status").isSome then
    match checkStatus rt message.jsondata with
    | .error err => .fail err
    | .ok () => .finish
  else
    match Codec.ofName? (message.jsondata.get? "serialization") with
    | none => .skip
    | some codec =>
        match (match codec with
          | .dimeb => rt.dimebloads message.bindata
          | .json => rt.jsonloads message.bindata), varname rt message.jsondata with
        | some x, some name => .keep (setProperty name x)
        | _, _ => .fail "decoding failed"

/-- The method that asks for more is that of a global variable `self`, which is no client. -/
def sync_r (fuel : Nat) (n : Int64) : Method (List (String × V)) := do
  connected
  syncWith recv (judge rt) fuel []
    (fun _ _ => Prog.raise "self.sync_r is not a function") n

def wait : Method (Option Json) := do
  connected
  let jsondata ← call rt Request.wait
  return jsondata.get? "n"

def devices : Method (Option Json) := do
  connected
  let jsondata ← call rt Request.devices
  return jsondata.get? "devices"

end DimeClient

/-! ## Sessions -/

/-- A call of a method. -/
inductive Call (V : Type) where
  | join (names : List String)
  | leave (names : List String)
  | send_r (name : String) (kvpairs : List (String × V))
  | broadcast_r (kvpairs : List (String × V))
  | sync_r (n : Int64)
  | wait
  | devices

/-- The call, without what it returns. -/
def Call.method (fuel : Nat) : Call V → Method Unit
  | .join names => DimeClient.join rt names
  | .leave names => DimeClient.leave rt names
  | .send_r name kvpairs => DimeClient.send_r rt name kvpairs
  | .broadcast_r kvpairs => DimeClient.broadcast_r rt kvpairs
  | .sync_r n => do
      let _ ← DimeClient.sync_r rt fuel n
      return ()
  | .wait => do
      let _ ← DimeClient.wait rt
      return ()
  | .devices => do
      let _ ← DimeClient.devices rt
      return ()

/-- One call after the other, each awaited. -/
def calls (fuel : Nat) : List (Call V) → Method Unit
  | [] => return ()
  | call :: rest => do
      let _ ← (call.method rt fuel).attempt
      calls fuel rest

/-- A client that connects and then makes calls. -/
def session (fuel : Nat) (cs : List (Call V)) : Method Unit := do
  DimeClient.onopen rt
  calls rt fuel cs

end Dime.JavaScript
