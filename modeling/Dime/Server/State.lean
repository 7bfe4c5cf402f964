import Dime.Foundation.GrowArray
import Dime.Foundation.Heap
import Dime.Server.Deque
import Dime.Server.Socket
import Dime.Server.Table

/-!
# The server's state

Clients, groups and messages are objects on heaps of their own, and the server,
the clients and the groups refer to each other by their addresses.
-/

namespace Dime

abbrev ClientPtr := Nat

abbrev GroupPtr := Nat

abbrev MsgPtr := Nat

/-- The serialization that the server has settled on. -/
inductive Serialization where
  | noSerialization
  | matlab
  | pickle
  | dimeb
  | json
  deriving DecidableEq, Repr

/-- `dime_rcmessage_t`. A message is queued at most once for each descriptor, so
that its count stays far from the bound of an `unsigned int`. -/
structure Rcmessage where
  refs : Nat
  jsondata : CString
  bindata : Bytes

/-- `dime_group_t`. -/
structure Group where
  name : String
  clnts : GrowArray ClientPtr

/-- What the server pushes to a socket: a JSON object that it builds, the text
`{"status":0}`, or a message from a queue. -/
inductive Outgoing where
  | json (body : Json)
  | statusOk
  | relay (msg : MsgPtr) (jsondata : CString) (bindata : Bytes)

/-- `dime_client_t`. The text of its address is only logged and left out. -/
structure Client where
  fd : Nat
  waiting : Bool
  groups : GrowArray GroupPtr
  sock : Socket
  queue : Queue MsgPtr
  /-- A history variable: what was pushed to the socket, in order. -/
  sent : List Outgoing

/-- `dime_server_t`, with the heaps that it reaches. `err` is the error text before
it is cut to the size of its array. -/
structure Server where
  err : String
  serialization : Serialization
  fd2clnt : Table Nat ClientPtr
  name2clnt : Table String GroupPtr
  clnts : Heap Client
  groups : Heap Group
  msgs : Heap Rcmessage

/-! ## Hashing and comparing -/

def cmpFd (a b : Nat) : Int := b - a

def hashFd (a : Nat) : Nat := (a.toUInt64 * 0x9E3779B97F4A7BB9).toNat

/-- `strcmp`; the order of code points is that of their UTF-8 bytes. -/
def cmpName (a b : String) : Int := if a = b then 0 else if a < b then -1 else 1

/-- FNV1a over the characters, which are signed. -/
def hashName (a : String) : Nat :=
  (a.toUTF8.toList.foldl
    (fun (y : UInt64) (s : UInt8) => (y ^^^ s.toInt8.toInt64.toUInt64) * 1099511628211)
    0xCBF29CE484222325).toNat

theorem cmpFd_eq_zero_iff (a b : Nat) : cmpFd a b = 0 ↔ a = b := by
  rw [cmpFd]
  omega

theorem cmpName_eq_zero_iff (a b : String) : cmpName a b = 0 ↔ a = b := by
  rw [cmpName]
  split
  next heq => simp [heq]
  next hne => split <;> simp [hne]

namespace Server

/-- `dime_server_init`. The record starts out as zeros. -/
def init (malloc : Nat → Bool) : Option Server :=
  match Table.init (malloc 0) cmpFd hashFd with
  | none => none
  | some fd2clnt =>
      (Table.init (malloc 1) cmpName hashName).map fun name2clnt =>
        { err := ""
          serialization := .noSerialization
          fd2clnt
          name2clnt
          clnts := .empty
          groups := .empty
          msgs := .empty }

end Server

/-- Read the object behind a pointer. -/
def deref {α : Type} (heap : Heap α) (p : Nat) : Except Fault α :=
  match heap.cells p with
  | some a => .ok a
  | none => .error .useAfterFree

/-- The result of a table operation whose loop may not end. -/
def ended {α : Type} : Option α → Except Fault α
  | some a => .ok a
  | none => .error .diverges

/-- `x--` on an `unsigned int`. -/
def predUInt (n : Nat) : Nat := if n = 0 then 2 ^ 32 - 1 else n - 1

/-- `(size_t)(n < 0 ? -1 : n)`. -/
def syncCount (n : Int64) : Nat := if n < 0 then 2 ^ 64 - 1 else n.toInt.toNat

/-! ## Allocations -/

/-- The allocations of a push: the text of the JSON object and the growth of the
outbuffer in each write. -/
structure PushAlloc where
  dump : Bool
  write : Nat → Bool

/-- The allocations of a reply: the JSON object and its push. -/
structure ReplyAlloc where
  pack : Bool
  push : PushAlloc

/-- The allocations of a command, by the round of its loop (`0` outside of it) and
the place in the round. -/
structure Alloc where
  malloc : Nat → Nat → Bool
  reply : Nat → Nat → ReplyAlloc

def PushAlloc.succeed : PushAlloc := ⟨true, fun _ => true⟩

def ReplyAlloc.succeed : ReplyAlloc := ⟨true, .succeed⟩

/-- No allocation fails. -/
def Alloc.succeed : Alloc := ⟨fun _ _ => true, fun _ _ => .succeed⟩

@[simp] theorem PushAlloc.succeed_write : PushAlloc.succeed.write = fun _ => true := rfl

@[simp] theorem ReplyAlloc.succeed_pack : ReplyAlloc.succeed.pack = true := rfl

@[simp] theorem ReplyAlloc.succeed_push : ReplyAlloc.succeed.push = .succeed := rfl

@[simp] theorem Alloc.succeed_malloc (i j : Nat) : Alloc.succeed.malloc i j = true := rfl

@[simp] theorem Alloc.succeed_reply (i j : Nat) : Alloc.succeed.reply i j = .succeed := rfl

end Dime
