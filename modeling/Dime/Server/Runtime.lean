import Dime.Server.Ringbuffer

/-!
# What the server runs on

The faults a C program can run into, comparisons between signed and unsigned
sizes, C strings, and the JSON library as far as the server relies on it.
-/

namespace Dime

/-- Behaviour that no return value describes. -/
inductive Fault where
  | outOfBounds
  | useAfterFree
  | assertFailed
  | diverges
  deriving DecidableEq, Repr

/-- `ret < n` for an `ssize_t` and a `size_t`. The comparison is made on `size_t`,
where a negative value is above the size of every object. -/
def LtSize (ret : Int) (n : Nat) : Prop := 0 ≤ ret ∧ ret < n

instance (ret : Int) (n : Nat) : Decidable (LtSize ret n) := inferInstanceAs (Decidable (_ ∧ _))

@[simp] theorem not_ltSize_natCast (n : Nat) : ¬ LtSize n n := fun h => lt_irrefl _ h.2

@[simp] theorem not_ltSize_neg_one (n : Nat) : ¬ LtSize (-1) n := fun h => absurd h.1 (by decide)

/-- The characters of a C string, up to its terminating NUL. -/
abbrev CString := { chars : Bytes // 0 ∉ chars }

/-- `strlen`. -/
def CString.length (s : CString) : Nat := s.1.length

/-- `json_t`. A `json_int_t` has 64 bits; a real is kept by its bit pattern. -/
inductive Json where
  | null
  | bool (b : Bool)
  | integer (n : Int64)
  | real (bits : UInt64)
  | string (s : String)
  | array (items : List Json)
  | object (fields : List (String × Json))

namespace Json

/-- `json_object_get`. -/
def get? : Json → String → Option Json
  | .object fields, name => (fields.find? fun field => field.1 = name).map Prod.snd
  | _, _ => none

/-- `json_unpack` of a string field. -/
def unpackString (json : Json) (name : String) : Option String :=
  match json.get? name with
  | some (.string s) => some s
  | _ => none

/-- `json_unpack` of a boolean field. -/
def unpackBool (json : Json) (name : String) : Option Bool :=
  match json.get? name with
  | some (.bool b) => some b
  | _ => none

/-- `json_unpack` of an integer field. -/
def unpackInt (json : Json) (name : String) : Option Int64 :=
  match json.get? name with
  | some (.integer n) => some n
  | _ => none

/-- The elements that `json_array_foreach` visits: none unless the value is an array. -/
def elements : Json → List Json
  | .array items => items
  | _ => []

/-! ### Equality -/

mutual

def beq : Json → Json → Bool
  | .null, .null => true
  | .bool a, .bool b => a = b
  | .integer m, .integer n => m = n
  | .real a, .real b => a = b
  | .string s, .string t => s = t
  | .array xs, .array ys => beqItems xs ys
  | .object xs, .object ys => beqFields xs ys
  | _, _ => false

def beqItems : List Json → List Json → Bool
  | [], [] => true
  | x :: xs, y :: ys => beq x y && beqItems xs ys
  | _, _ => false

def beqFields : List (String × Json) → List (String × Json) → Bool
  | [], [] => true
  | (name, x) :: xs, (name', y) :: ys => decide (name = name') && beq x y && beqFields xs ys
  | _, _ => false

end

mutual

theorem beq_iff : ∀ x y : Json, beq x y = true ↔ x = y
  | .null, y => by cases y <;> simp [beq]
  | .bool a, y => by cases y <;> simp [beq]
  | .integer n, y => by cases y <;> simp [beq]
  | .real bits, y => by cases y <;> simp [beq]
  | .string s, y => by cases y <;> simp [beq]
  | .array xs, y => by cases y <;> simp [beq, beqItems_iff xs]
  | .object xs, y => by cases y <;> simp [beq, beqFields_iff xs]

theorem beqItems_iff : ∀ xs ys : List Json, beqItems xs ys = true ↔ xs = ys
  | [], ys => by cases ys <;> simp [beqItems]
  | x :: xs, ys => by cases ys <;> simp [beqItems, beq_iff x, beqItems_iff xs]

theorem beqFields_iff : ∀ xs ys : List (String × Json), beqFields xs ys = true ↔ xs = ys
  | [], ys => by cases ys <;> simp [beqFields]
  | (name, x) :: xs, ys => by
      cases ys with
      | nil => simp [beqFields]
      | cons y ys => simp [beqFields, beq_iff x, beqFields_iff xs, Prod.ext_iff]

end

instance : DecidableEq Json := fun x y => decidable_of_iff (beq x y = true) (beq_iff x y)

end Json

/-- The JSON library, for JSON values of type `J`. `loadb` gives the value or the
text of the error. It reads its input from left to right, and `rejects` gives the
error text where the bytes read so far are enough to refuse the input. `dumps`
fails only where memory does, and `unpackText` is the text of the error where a
value does not have the shape that a format of `json_unpack_ex` asks for. -/
structure Jansson (J : Type) where
  loadb : Bytes → Except String J
  dumps : J → CString
  unpackText : J → String → String
  rejects : Bytes → Option String
  loadb_nil : ∃ err, loadb [] = .error err
  rejects_sound : ∀ seen rest err, rejects seen = some err → loadb (seen ++ rest) = .error err

namespace Jansson

variable {J : Type}

/-- `json_loadb` on a text of `len` bytes of which the first `text.length` are in
the buffer it was handed. -/
def loadbFrom (jansson : Jansson J) (text : Bytes) (len : Nat) : Except Fault (Except String J) :=
  if len ≤ text.length then .ok (jansson.loadb (text.take len))
  else
    match jansson.rejects text with
    | some err => .ok (.error err)
    | none => .error .outOfBounds

end Jansson

end Dime
