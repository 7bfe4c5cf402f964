import Dime.Clients.Methods

/-!
# The Matlab client

The methods of the class `dime`. Each loop and each recursion has a bound on its
rounds. What MATLAB makes of decoded JSON is taken as it is, for values that the
server does not send.
-/

namespace Dime.Matlab

open Dialogue

/-- What the methods use of MATLAB and of the dimeb functions, for values of type `V`.
`none` is an error. `positive` and `negative` are `x > 0` and `x < 0` as conditions,
`truthy` is a value as a condition, and `fieldName` is a value as a field name. -/
structure Runtime (V : Type) where
  positive : Json → Option Bool
  negative : Json → Option Bool
  truthy : Json → Option Bool
  switchable : Json → Bool
  strcmp : Json → Json → Bool
  fieldName : Json → Option String
  getByteStreamFromArray : V → Option Bytes
  getArrayFromByteStream : Bytes → Option V
  dimebdumps : V → Option Bytes
  dimebloads : Bytes → Option V
  positive_integer : ∀ n, positive (.integer n) = some (decide (0 < n.toInt))
  negative_integer : ∀ n, negative (.integer n) = some (decide (n.toInt < 0))
  truthy_bool : ∀ b, truthy (.bool b) = some b
  switchable_string : ∀ s, switchable (.string s) = true
  strcmp_string : ∀ s t, strcmp (.string s) (.string t) = decide (s = t)

/-- The object `obj`. -/
structure Obj where
  serialization : Json

abbrev Method (α : Type) := Prog Obj String Message Message α

variable {V : Type} (rt : Runtime V)

/-- `jsondata.(name)`. -/
def getfield (jsondata : Json) (name : String) : Except String Json :=
  match jsondata.get? name with
  | some val => .ok val
  | none => .error "Unrecognized field name"

/-- The condition on which `recvmsg` hands a message to `metamsg`. -/
def isMeta (json : Json) : Except String Bool :=
  match json.get? "status" with
  | none => .ok false
  | some status =>
      match rt.positive status with
      | none => .error "Operands must be convertible to logical scalar values"
      | some false => .ok false
      | some true =>
          match json.get? "meta" with
          | none => .ok false
          | some val =>
              match rt.truthy val with
              | none => .error "Operands must be convertible to logical scalar values"
              | some b => .ok b

/-- `if jsondata.status < 0, error(jsondata.error); end`. An empty text is no error. -/
def checkStatus (jsondata : Json) : Except String Unit := do
  let status ← getfield jsondata "status"
  match rt.negative status with
  | none => .error "Conversion to logical is not possible"
  | some false => .ok ()
  | some true =>
      match ← getfield jsondata "error" with
      | .string text => if text = "" then .ok () else .error text
      | _ => .error "Error text must be a string"

namespace Obj

def metamsg (json : Json) : Except String (Obj → Obj) :=
  match json.get? "serialization" with
  | some serialization => .ok fun _ => { serialization }
  | none => .error "Received unknown meta-status from server"

def listener : Listener Obj String :=
  { isMeta := isMeta rt, onMeta := metamsg, check := checkStatus rt }

def recvmsg (fuel : Nat) : Method Message := (listener rt).recv fuel

/-- The constructor. -/
def dime (fuel : Nat) : Method Unit := do
  let jsondata ← (listener rt).call fuel (Request.handshake "matlab")
  let serialization ← Prog.ofExcept (getfield jsondata "serialization")
  Prog.modify fun _ => { serialization }

def join (fuel : Nat) (names : List String) : Method Unit := do
  let _ ← (listener rt).call fuel (Request.join names)
  return ()

def leave (fuel : Nat) (names : List String) : Method Unit := do
  let _ ← (listener rt).call fuel (Request.leave names)
  return ()

/-- The `switch` over `obj.serialization`. Without a case for it `bindata` has no value. -/
def encode (self : Obj) (x : V) : Except String Bytes :=
  if ¬ rt.switchable self.serialization then
    .error "SWITCH expression must be a scalar or a character vector"
  else
    let bindata : Option Bytes :=
      if self.serialization = .string "matlab" then rt.getByteStreamFromArray x
      else if self.serialization = .string "dimeb" then rt.dimebdumps x
      else none
    match bindata with
    | some bindata => .ok bindata
    | none => .error "Unrecognized function or variable 'bindata'"

def pipeline : Pipeline Obj String V :=
  { listener rt with
    serialization := Obj.serialization
    encode := encode rt
    differs := fun serialization serialization' => ¬ rt.strcmp serialization serialization' }

/-- The batches are `i:min(i + 16, length(k))`. -/
def send_r : Nat → String → List (String × V) → Method Unit
  | 0, _, _ => Prog.exhausted
  | fuel + 1, name, v =>
      (pipeline rt).transmit (Request.send name) fuel (send_r fuel name v) (windows 16 17 v)

def broadcast_r : Nat → List (String × V) → Method Unit
  | 0, _ => Prog.exhausted
  | fuel + 1, v =>
      (pipeline rt).transmit Request.broadcast fuel (broadcast_r fuel v) (windows 16 17 v)

/-- `v.(name) = x`. -/
def setfield (name : String) (x : V) (v : List (String × V)) : List (String × V) :=
  if v.any (fun field => field.1 = name) then
    v.map fun field => if field.1 = name then (name, x) else field
  else v ++ [(name, x)]

/-- The loop that fills `v` with variables of the caller. -/
def selected (caller : String → Option V) (varnames : List String) :
    Except String (List (String × V)) :=
  varnames.foldlM (fun v varname =>
    match caller varname, rt.fieldName (.string varname) with
    | some x, some name => .ok (setfield name x v)
    | none, _ => .error "Unrecognized function or variable"
    | _, none => .error "Invalid field name") []

def send (fuel : Nat) (caller : String → Option V) (name : String) (varnames : List String) :
    Method Unit := do
  let v ← Prog.ofExcept (selected rt caller varnames)
  send_r rt fuel name v

def broadcast (fuel : Nat) (caller : String → Option V) (varnames : List String) : Method Unit := do
  let v ← Prog.ofExcept (selected rt caller varnames)
  broadcast_r rt fuel v

/-- The decoder for a serialization, if the `switch` of `sync_r` has a case for it. -/
def decoder : Json → Option (Bytes → Option V)
  | .string name =>
      if name = "matlab" then some rt.getArrayFromByteStream
      else if name = "dimeb" then some rt.dimebloads
      else none
  | _ => none

/-- The body of the loop of `sync_r`. -/
def judge (message : Message) : Judgement String (List (String × V)) :=
  match message.jsondata.get? "varname" with
  | none => .finish
  | some varname =>
      match getfield message.jsondata "serialization" with
      | .error err => .fail err
      | .ok serialization =>
          if ¬ rt.switchable serialization then
            .fail "SWITCH expression must be a scalar or a character vector"
          else
            match decoder rt serialization with
            | none => .skip
            | some decode =>
                match decode message.bindata, rt.fieldName varname with
                | some x, some name => .keep (setfield name x)
                | _, _ => .fail "decoding failed"

/-- The function `fields` is called without an argument where variables are merged. -/
def sync_r : Nat → Int64 → Method (List (String × V))
  | 0, _ => Prog.exhausted
  | fuel + 1, n =>
      syncWith (recvmsg rt fuel) (judge rt) fuel []
        (fun _ n => do
          let _ ← sync_r fuel n
          Prog.raise "Not enough input arguments") n

def wait (fuel : Nat) : Method Json := do
  let jsondata ← (listener rt).call fuel Request.wait
  Prog.ofExcept (getfield jsondata "n")

def devices (fuel : Nat) : Method Json := do
  let jsondata ← (listener rt).call fuel Request.devices
  Prog.ofExcept (getfield jsondata "devices")

end Obj

/-! ## Sessions -/

/-- A call of a method. -/
inductive Call (V : Type) where
  | join (names : List String)
  | leave (names : List String)
  | send_r (name : String) (v : List (String × V))
  | broadcast_r (v : List (String × V))
  | sync_r (n : Int64)
  | wait
  | devices

/-- The call, without what it returns. -/
def Call.method (fuel : Nat) : Call V → Method Unit
  | .join names => Obj.join rt fuel names
  | .leave names => Obj.leave rt fuel names
  | .send_r name v => Obj.send_r rt fuel name v
  | .broadcast_r v => Obj.broadcast_r rt fuel v
  | .sync_r n => do
      let _ ← Obj.sync_r rt fuel n
      return ()
  | .wait => do
      let _ ← Obj.wait rt fuel
      return ()
  | .devices => do
      let _ ← Obj.devices rt fuel
      return ()

/-- One call after the other, whether they return or not. -/
def calls (fuel : Nat) : List (Call V) → Method Unit
  | [] => return ()
  | call :: rest => do
      let _ ← (call.method rt fuel).attempt
      calls fuel rest

/-- A client that connects and then makes calls. -/
def session (fuel : Nat) (cs : List (Call V)) : Method Unit := do
  Obj.dime rt fuel
  calls rt fuel cs

end Dime.Matlab
