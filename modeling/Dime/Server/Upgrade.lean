import Mathlib.Data.UInt
import Dime.Foundation.Base64
import Dime.Foundation.CStrings
import Dime.Server.Compact
import Dime.Server.Socket

/-!
# The WebSocket handshake

The server reads the request of a new connection in blocking mode until an empty line
arrives, cuts it into lines in place, and answers. Peers that close early or send nothing but
empty lines are the ones that it cannot cope with.
-/

namespace Dime

open CStrings

/-- How `dime_socket_init_ws` can fail to return. -/
inductive HandshakeFault where
  | misuse (misuse : Misuse)
  | assertFailed
  | diverges
  deriving DecidableEq, Repr

def checked {α : Type} : Except Misuse α → Except HandshakeFault α
  | .ok a => .ok a
  | .error misuse => .error (.misuse misuse)

@[simp] theorem checked_ok {α : Type} (a : α) : checked (.ok a) = .ok a := rfl

/-- The bytes that a peer sends before it closes its side, and how many of them the `i`-th
call of `recv` would get. -/
structure Upgrader where
  stream : Bytes
  split : Nat → Nat

/-- `recv` for `space` bytes, once `received` bytes have arrived. Nothing comes out only at
the end of the stream. -/
def Upgrader.recv (peer : Upgrader) (i received space : Nat) : Bytes :=
  (peer.stream.drop received).take (min space (max 1 (peer.split i)))

/-- The allocations of `dime_socket_init_ws`, the ones for its `i`-th round among them. -/
structure UpgradeAlloc where
  malloc : Bool
  realloc : Nat → Bool
  rbuf : Bool

/-- No allocation fails. -/
def UpgradeAlloc.succeed : UpgradeAlloc := ⟨true, fun _ => true, true⟩

/-- What the two calls of `dime_socket_setnonblocking` and the one of `send` report, and what
is in memory that has just been allocated. -/
structure UpgradeCalls where
  blocking : Except String Unit
  accepted : Except String Nat
  nonblocking : Except String Unit
  fresh : Nat → UInt8

/-- `SHA1`. -/
structure Openssl where
  sha1 : Bytes → Bytes
  length_sha1 : ∀ bytes, (sha1 bytes).length = 20

namespace Socket

def cr : UInt8 := 0x0D

def lf : UInt8 := 0x0A

/-! ## Receiving the request -/

/-- The loop of `dime_socket_init_ws` around `recv`, from its `i`-th round: the buffer, or the
text of an error. The length of `http_hdr` is `http_cap`, the size of an object in memory, so
it does not overflow. -/
def receive (alloc : UpgradeAlloc) (fresh : Nat → UInt8)
    (recv : Nat → Nat → Nat → Except String Bytes) :
    Nat → Nat → Bytes → Nat → Except HandshakeFault (Except String Bytes)
  | 0, _, _, _ => .error .diverges
  | fuel + 1, i, httpHdr, httpLen =>
      match recv i httpLen (httpHdr.length - httpLen) with
      | .error err => .ok (.error err)
      | .ok nrecvd => do
        -- at the end of the stream nothing is copied, and the loop goes on all the same
        let httpHdr ← checked (copy httpHdr httpLen nrecvd)
        let httpLen := httpLen + nrecvd.length
        if httpLen ≥ httpHdr.length ∧ ¬ alloc.realloc i then return .error strerror
        else
          let httpHdr :=
            if httpLen ≥ httpHdr.length then realloc fresh httpHdr (httpHdr.length * 3 / 2)
            else httpHdr
          -- `strstr` looks at the request as a string, so zeros within it hide what follows them
          let httpHdr ← checked (store httpHdr httpLen 0)
          match ← checked (strstr httpHdr (some 0) [cr, lf, cr, lf]) with
          | none => receive alloc fresh recv fuel (i + 1) httpHdr httpLen
          | some _ => return .ok httpHdr

/-! ## The request line -/

/-- `isspace`. -/
def isSpace (c : UInt8) : Bool := c = 0x20 || (9 ≤ c && c ≤ 13)

/-- White space in a format. -/
def skipSpace (s : Bytes) : Bytes := s.dropWhile isSpace

/-- `%s` with a width. -/
def scanWord (width : Nat) (s : Bytes) : Option (Bytes × Bytes) :=
  let s := skipSpace s
  let word := (s.takeWhile fun c => ¬ isSpace c).take width
  if word = [] then none else some (word, s.drop word.length)

/-- Ordinary characters in a format. -/
def scanText (text s : Bytes) : Option Bytes :=
  if text <+: s then some (s.drop text.length) else none

def isDigit (c : UInt8) : Bool := 0x30 ≤ c && c ≤ 0x39

def value (digits : Bytes) : Nat := digits.foldl (fun n c => 10 * n + (c.toNat - 0x30)) 0

/-- The `int` that `%d` stores: the number within the range of `long`, cut to 32 bits. -/
def toInt (negative : Bool) (digits : Bytes) : Int32 :=
  if negative then Int32.ofInt (max (-2 ^ 63) (-value digits))
  else Int32.ofInt (min (2 ^ 63 - 1) (value digits))

/-- `%d`. -/
def scanInt (s : Bytes) : Option (Int32 × Bytes) :=
  let s := skipSpace s
  let unsigned := if s.head? = some 0x2B ∨ s.head? = some 0x2D then s.tail else s
  let digits := unsigned.takeWhile isDigit
  if digits = [] then none
  else some (toInt (s.head? = some 0x2D) digits, unsigned.drop digits.length)

/-- `sscanf` with the format `"%7s %*s HTTP/%d.%d"`, where it assigns all three. -/
def sscanf (s : Bytes) : Option (Bytes × Int32 × Int32) := do
  let (method, s) ← scanWord 7 s
  let (_, s) ← scanWord s.length (skipSpace s)
  let s ← scanText (ascii "HTTP/") (skipSpace s)
  let (major, s) ← scanInt s
  let s ← scanText (ascii ".") s
  let (minor, _) ← scanInt s
  return (method, major, minor)

/-- The version in the request line, if the line is acceptable. -/
def requestLine (httpHdr : Bytes) (line : Option Nat) :
    Except HandshakeFault (Option (Int32 × Int32)) := do
  -- without a token `line` is null, and `sscanf` gets it unchecked
  let line ← checked (stringAt httpHdr line)
  match sscanf line with
  | none => return none
  | some (method, major, minor) =>
    if method ≠ ascii "GET" then return none
    -- signed overflow is undefined in C; here it wraps
    else if major * 10 + minor < 11 then return none
    else return some (major, minor)

/-! ## The header lines -/

/-- The headers that count, by the addresses of their values. -/
structure Headers where
  connection : Option Nat
  upgrade : Option Nat
  secWsKey : Option Nat
  secWsVersion : Option Nat

/-- The header with a name and a value. -/
def Headers.put (headers : Headers) (key : Bytes) (val : Nat) : Headers :=
  if key = ascii "Connection" then { headers with connection := some val }
  else if key = ascii "Upgrade" then { headers with upgrade := some val }
  else if key = ascii "Sec-WebSocket-Key" then { headers with secWsKey := some val }
  else if key = ascii "Sec-WebSocket-Version" then { headers with secWsVersion := some val }
  else headers

/-- The loop over the lines that follow; `none` where one of them has no delimiter. -/
def headerLines : Nat → Bytes → Nat → Headers → Except HandshakeFault (Option (Bytes × Headers))
  | 0, _, _, _ => .error .diverges
  | fuel + 1, httpHdr, saveptr, headers => do
      let token ← checked (strtok [cr, lf] httpHdr saveptr)
      match token.line with
      | none => return some (token.buf, headers)
      | some line =>
        match ← checked (strstr token.buf (some line) (ascii ": ")) with
        | none => return none
        | some delimiter =>
          let httpHdr ← checked (store token.buf delimiter 0)
          let key ← checked (stringAt httpHdr (some line))
          headerLines fuel httpHdr token.saveptr (headers.put key (delimiter + 2))

/-- One of the conditions on the headers: a value that is there and passes a test. -/
def passes (httpHdr : Bytes) (test : Bytes → Bool) : Option Nat → Except HandshakeFault Bool
  | none => return false
  | some val => do
    let s ← checked (stringAt httpHdr (some val))
    return test s

/-- The value of `Sec-WebSocket-Key`, if all headers are as they should be. -/
def websocketKey (httpHdr : Bytes) (headers : Headers) : Except HandshakeFault (Option Bytes) := do
  if ¬ (← passes httpHdr (fun s => ascii "Upgrade" <:+: s) headers.connection) then return none
  else if ¬ (← passes httpHdr (· = ascii "websocket") headers.upgrade) then return none
  else if ¬ (← passes httpHdr (fun s => s.length ≠ 0) headers.secWsKey) then return none
  else if ¬ (← passes httpHdr (· = ascii "13") headers.secWsVersion) then return none
  else
    let key ← checked (stringAt httpHdr headers.secWsKey)
    return some key

/-- What `dime_socket_init_ws` does with the bytes it has received: the version and the key,
or `none` for an invalid request. -/
def parse (httpHdr : Bytes) : Except HandshakeFault (Option (Int32 × Int32 × Bytes)) := do
  let token ← checked (strtok [cr, lf] httpHdr 0)
  match ← requestLine token.buf token.line with
  | none => return none
  | some (major, minor) =>
    match ← headerLines httpHdr.length token.buf token.saveptr ⟨none, none, none, none⟩ with
    | none => return none
    | some (httpHdr, headers) =>
      match ← websocketKey httpHdr headers with
      | none => return none
      | some key => return some (major, minor, key)

/-! ## The response -/

/-- `%d` of `snprintf`. -/
def decimal (n : Int32) : Bytes :=
  let digits := (Nat.toDigits 10 n.toInt.natAbs).map fun c => UInt8.ofNat c.toNat
  if n < 0 then 0x2D :: digits else digits

/-- The text that `dime_socket_init_ws` has `snprintf` make. -/
def switchingProtocols (major minor : Int32) (b64Sha1sum : Bytes) : Bytes :=
  ascii "HTTP/" ++ decimal major ++ ascii "." ++ decimal minor ++
    ascii " 101 Switching Protocols\r\nConnection: Upgrade\r\nUpgrade: websocket\r\nSec-WebSocket-Accept: " ++
    b64Sha1sum ++ ascii "\r\n\r\n"

/-- What `dime_socket_init_ws` does for a valid request. A socket that stays in blocking mode
counts as a success, without WebSocket. -/
def respond (openssl : Openssl) (alloc : UpgradeAlloc) (calls : UpgradeCalls) (sock : Socket)
    (major minor : Int32) (secWsKey : Bytes) : Except HandshakeFault (Int × Bytes × Socket) :=
  let sha1sum := openssl.sha1 (secWsKey ++ ascii "258EAFA5-E914-47DA-95CA-C5AB0DC85B11")
  let response := switchingProtocols major minor (Base64.encode sha1sum)
  if response.length < 200 then
    match calls.accepted with
    | .error err => .ok (-1, [], { sock with err })
    | .ok n =>
      match calls.nonblocking with
      | .error err => .ok (0, response.take n, { sock with err })
      | .ok () =>
        match Ring.init alloc.rbuf with
        -- `ws.enabled` is set by then, without a buffer; the caller destroys the socket
        | none => .ok (-1, response.take n, { sock with err := strerror })
        | some rbuf => .ok (0, response.take n, { sock with ws := some rbuf })
  else .error .assertFailed

/-- `dime_socket_init_ws`: what it returns, the bytes that leave, and the socket after. -/
def initWs (openssl : Openssl) (alloc : UpgradeAlloc) (calls : UpgradeCalls)
    (recv : Nat → Nat → Nat → Except String Bytes) (fuel : Nat) (sock : Socket) :
    Except HandshakeFault (Int × Bytes × Socket) :=
  match calls.blocking with
  | .error err => .ok (-1, [], { sock with err })
  | .ok () =>
    if ¬ alloc.malloc then .ok (-1, [], { sock with err := strerror })
    else do
      match ← receive alloc calls.fresh recv fuel 0 (malloc calls.fresh 500) 0 with
      | .error err => return (-1, [], { sock with err })
      | .ok httpHdr =>
        match ← parse httpHdr with
        | none => return (-1, [], { sock with err := "Invalid HTTP response" })
        | some (major, minor, secWsKey) => respond openssl alloc calls sock major minor secWsKey

end Socket

end Dime
