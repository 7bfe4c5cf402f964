import Dime.Foundation.Association
import Dime.Clients.Python.Dimeb
import Dime.Clients.Methods

/-!
# The Python client

The methods of `DimeClient`. Each loop and each recursion has a bound on its
rounds. An exception is given by its class, and by its text where there is one.
-/

namespace Dime.Python

open Dialogue

/-- The modules whose `loads` and `dumps` a client uses. -/
inductive Codec where
  | pickle
  | dimeb
  | json
  deriving DecidableEq, Repr

/-- The modules themselves: `pickle` and `dime.json` are taken as they are. -/
structure Modules where
  host : Endian
  pickleDumps : Value → Option Bytes
  pickleLoads : Bytes → Option Value
  jsonDumps : Value → Option Bytes
  jsonLoads : Bytes → Option Value

namespace Modules

def dumps (modules : Modules) : Codec → Value → Option Bytes
  | .pickle => modules.pickleDumps
  | .dimeb => Dimeb.dumps modules.host
  | .json => modules.jsonDumps

def loads (modules : Modules) : Codec → Bytes → Option Value
  | .pickle => modules.pickleLoads
  | .dimeb => Dimeb.loads modules.host
  | .json => modules.jsonLoads

end Modules

/-- The comparisons with the names of serializations. -/
def Codec.ofName? : Json → Option Codec
  | .string name =>
      if name = "pickle" then some .pickle
      else if name = "dimeb" then some .dimeb
      else if name = "json" then some .json
      else none
  | _ => none

/-- A `DimeClient`. `codec` is where `self.loads` and `self.dumps` come from. -/
structure DimeClient where
  serialization : Json
  codec : Option Codec

abbrev Method (α : Type) := Prog DimeClient String Message Message α

/-! ## Values of `json.loads` -/

/-- A number compared with `0`; `none` is a `TypeError`. -/
def sign : Json → Option Int
  | .bool b => some (if b then 1 else 0)
  | .integer n => some n.toInt
  | .real bits =>
      some (if bits.toNat % 2 ^ 63 = 0 then 0 else if bits.toNat < 2 ^ 63 then 1 else -1)
  | _ => none

def truthy : Json → Bool
  | .null => false
  | .bool b => b
  | .integer n => n ≠ 0
  | .real bits => bits.toNat % 2 ^ 63 ≠ 0
  | .string s => s ≠ ""
  | .array items => ¬ items.isEmpty
  | .object fields => ¬ fields.isEmpty

/-- A value as the key of a `dict`. Lists and dicts are no keys, whatever they hold. -/
def asKey : Json → Value
  | .null => .none
  | .bool b => .bool b
  | .integer n => .int n.toInt
  | .real bits => .float bits
  | .string s => .str (s.toList.map codePoint)
  | .array _ => .list []
  | .object _ => .dict []

/-- `jsondata[key]`. -/
def getitem (jsondata : Json) (key : String) : Except String Json :=
  match jsondata.get? key with
  | some val => .ok val
  | none => .error ("KeyError: " ++ key)

/-- The condition on which `__recv` hands a message to `__meta`. -/
def isMeta (jsondata : Json) : Except String Bool :=
  match jsondata.get? "status" with
  | none => .ok false
  | some status =>
      match sign status with
      | none => .error "TypeError"
      | some s => .ok (decide (0 < s) && (jsondata.get? "meta").any truthy)

/-- `if jsondata["status"] < 0: raise RuntimeError(status["error"])`, which fails for
want of a variable `status`. -/
def checkStatus (jsondata : Json) : Except String Unit := do
  let status ← getitem jsondata "status"
  match sign status with
  | none => .error "TypeError"
  | some s => if s < 0 then .error "NameError: name 'status' is not defined" else .ok ()

namespace DimeClient

/-- Hold a serialization, with the functions of its module if it has one. -/
def setSerialization (serialization : Json) (self : DimeClient) : DimeClient :=
  { serialization, codec := (Codec.ofName? serialization).orElse fun _ => self.codec }

/-- `__meta`. -/
def onMeta (jsondata : Json) : Except String (DimeClient → DimeClient) := do
  let command ← getitem jsondata "command"
  if command = .string "reregister" then
    let serialization ← getitem jsondata "serialization"
    return setSerialization serialization
  else .error "RuntimeError: Received unknown meta-status from server"

def listener : Listener DimeClient String := { isMeta, onMeta, check := checkStatus }

/-- `__recv`. -/
def recv (fuel : Nat) : Method Message := listener.recv fuel

def open' (fuel : Nat) (useJson : Bool) : Method Unit := do
  let jsondata ← listener.call fuel (Request.handshake (if useJson then "json" else "pickle"))
  let serialization ← Prog.ofExcept (getitem jsondata "serialization")
  Prog.modify (setSerialization serialization)

def join (fuel : Nat) (names : List String) : Method Unit := do
  let _ ← listener.call fuel (Request.join names)
  return ()

def leave (fuel : Nat) (names : List String) : Method Unit := do
  let _ ← listener.call fuel (Request.leave names)
  return ()

variable (modules : Modules)

/-- `self.dumps(var)`. -/
def dumps (self : DimeClient) (var : Value) : Except String Bytes :=
  match self.codec with
  | none => .error "AttributeError"
  | some codec =>
      match modules.dumps codec var with
      | none => .error "dumps"
      | some bindata => .ok bindata

def pipeline : Pipeline DimeClient String Value :=
  { listener with
    serialization := DimeClient.serialization
    encode := dumps modules
    differs := fun serialization serialization' => serialization ≠ serialization' }

def send_r : Nat → String → List (String × Value) → Method Unit
  | 0, _, _ => Prog.exhausted
  | fuel + 1, name, kvpairs =>
      (pipeline modules).transmit (Request.send name) fuel (send_r fuel name kvpairs)
        (windows 16 16 kvpairs)

/-- The variable `name` of the call that sends again is not defined. -/
def broadcast_r (fuel : Nat) (kvpairs : List (String × Value)) : Method Unit :=
  (pipeline modules).transmit Request.broadcast fuel
    (Prog.raise "NameError: name 'name' is not defined") (windows 16 16 kvpairs)

/-- `{varname: self.workspace[varname] for varname in varnames}`. -/
def selected (workspace : String → Option Value) (varnames : List String) :
    Except String (List (String × Value)) :=
  varnames.foldlM (fun kvpairs varname =>
    match workspace varname with
    | some var => .ok (Association.insert varname var kvpairs)
    | none => .error "KeyError") []

/-- The arguments `**kvpairs` of a function that has parameters with names of their own. -/
def keywords (parameters : List String) (kvpairs : List (String × Value)) :
    Except String (List (String × Value)) :=
  if kvpairs.any fun kv => kv.1 ∈ parameters then .error "TypeError: got multiple values for argument"
  else .ok kvpairs

def send (fuel : Nat) (workspace : String → Option Value) (name : String) (varnames : List String) :
    Method Unit := do
  let kvpairs ← Prog.ofExcept (selected workspace varnames)
  let kvpairs ← Prog.ofExcept (keywords ["self", "name"] kvpairs)
  send_r modules fuel name kvpairs

def broadcast (fuel : Nat) (workspace : String → Option Value) (varnames : List String) :
    Method Unit := do
  let kvpairs ← Prog.ofExcept (selected workspace varnames)
  let kvpairs ← Prog.ofExcept (keywords ["self"] kvpairs)
  broadcast_r modules fuel kvpairs

/-- `ret[key] = var`, for a key that is hashable. -/
def setitem (key var : Value) (ret : List (Value × Value)) : List (Value × Value) :=
  (Value.setitem ret key var).getD ret

/-- The body of the loop of `sync_r`. -/
def judge (message : Message) : Judgement String (List (Value × Value)) :=
  if (message.jsondata.get? "status").isSome then
    match checkStatus message.jsondata with
    | .error err => .fail err
    | .ok () => .finish
  else
    match getitem message.jsondata "serialization" with
    | .error err => .fail err
    | .ok serialization =>
        match Codec.ofName? serialization with
        | none => .skip
        | some codec =>
            match modules.loads codec message.bindata, getitem message.jsondata "varname" with
            | none, _ => .fail "loads"
            | _, .error err => .fail err
            | some var, .ok varname =>
                if (asKey varname).hashable then .keep (setitem (asKey varname) var)
                else .fail "TypeError: unhashable type"

/-- `ret.update(more)`. -/
def update (ret more : List (Value × Value)) : List (Value × Value) :=
  more.foldl (fun ret item => setitem item.1 item.2 ret) ret

def sync_r : Nat → Int64 → Method (List (Value × Value))
  | 0, _ => Prog.exhausted
  | fuel + 1, n =>
      syncWith (recv fuel) (judge modules) fuel []
        (fun ret n => do
          let more ← sync_r fuel n
          return update ret more) n

def wait (fuel : Nat) : Method Json := do
  let jsondata ← listener.call fuel Request.wait
  Prog.ofExcept (getitem jsondata "n")

def devices (fuel : Nat) : Method Json := do
  let jsondata ← listener.call fuel Request.devices
  Prog.ofExcept (getitem jsondata "devices")

end DimeClient

/-! ## Sessions -/

/-- A call of a method. -/
inductive Call where
  | join (names : List String)
  | leave (names : List String)
  | send_r (name : String) (kvpairs : List (String × Value))
  | broadcast_r (kvpairs : List (String × Value))
  | sync_r (n : Int64)
  | wait
  | devices

/-- The call, without what it returns. -/
def Call.method (modules : Modules) (fuel : Nat) : Call → Method Unit
  | .join names => DimeClient.join fuel names
  | .leave names => DimeClient.leave fuel names
  | .send_r name kvpairs => DimeClient.send_r modules fuel name kvpairs
  | .broadcast_r kvpairs => DimeClient.broadcast_r modules fuel kvpairs
  | .sync_r n => do
      let _ ← DimeClient.sync_r modules fuel n
      return ()
  | .wait => do
      let _ ← DimeClient.wait fuel
      return ()
  | .devices => do
      let _ ← DimeClient.devices fuel
      return ()

/-- One call after the other, whether they return or raise. -/
def calls (modules : Modules) (fuel : Nat) : List Call → Method Unit
  | [] => return ()
  | call :: rest => do
      let _ ← (call.method modules fuel).attempt
      calls modules fuel rest

/-- A client that connects and then makes calls. -/
def session (modules : Modules) (fuel : Nat) (useJson : Bool) (cs : List Call) : Method Unit := do
  DimeClient.open' fuel useJson
  calls modules fuel cs

end Dime.Python
