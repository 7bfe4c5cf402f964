import Dime.Server.Runtime

/-!
# Compact JSON

The text of a JSON value under `JSON_COMPACT`, for the JSON library that concrete
runs are made with. Reals do not occur there and have no faithful text.
-/

namespace Dime

/-- The bytes of a string without escapes. -/
def ascii (s : String) : Bytes := s.toUTF8.toList

namespace Json

def hexDigit (n : UInt8) : UInt8 := if n < 10 then 0x30 + n else 0x37 + n

/-- A byte inside quotes. -/
def escape (byte : UInt8) : Bytes :=
  if byte = 0x22 then [0x5C, 0x22]
  else if byte = 0x5C then [0x5C, 0x5C]
  else if byte = 0x08 then [0x5C, 0x62]
  else if byte = 0x0C then [0x5C, 0x66]
  else if byte = 0x0A then [0x5C, 0x6E]
  else if byte = 0x0D then [0x5C, 0x72]
  else if byte = 0x09 then [0x5C, 0x74]
  else if byte < 0x20 then [0x5C, 0x75, 0x30, 0x30, hexDigit (byte >>> 4), hexDigit (byte &&& 0xF)]
  else [byte]

def quote (s : String) : Bytes := 0x22 :: (ascii s).flatMap escape ++ [0x22]

mutual

def compact : Json → Bytes
  | .null => ascii "null"
  | .bool b => ascii (if b then "true" else "false")
  | .integer n => ascii (toString n.toInt)
  | .real _ => ascii "0.0"
  | .string s => quote s
  | .array items => 0x5B :: compactItems items ++ [0x5D]
  | .object fields => 0x7B :: compactFields fields ++ [0x7D]

def compactItems : List Json → Bytes
  | [] => []
  | [item] => compact item
  | item :: rest => compact item ++ 0x2C :: compactItems rest

def compactFields : List (String × Json) → Bytes
  | [] => []
  | [(name, value)] => quote name ++ 0x3A :: compact value
  | (name, value) :: rest => quote name ++ 0x3A :: compact value ++ 0x2C :: compactFields rest

end

example : compact (.object [("status", .integer (-1)), ("error", .string "a\"b")]) =
    ascii "\x7b\"status\":-1,\"error\":\"a\\\"b\"\x7d" := by decide +kernel

end Json

/-- A JSON library that knows the texts of some values, for concrete runs. -/
def compactJansson (texts : List (Bytes × Json)) : Jansson Json where
  loadb text :=
    if text = [] then .error "unexpected end of file"
    else
      match texts.find? fun entry => entry.1 = text with
      | some entry => .ok entry.2
      | none => .error "unexpected token"
  dumps value := ⟨value.compact.filter (· ≠ 0), by simp⟩
  unpackText value format := "Object item not found"
  rejects _ := none
  loadb_nil := ⟨_, rfl⟩
  rejects_sound _ _ _ h := by cases h

/-- The JSON parser of a client that knows some values. -/
def compactLoads (values : List Json) (text : CString) : Json :=
  (values.find? fun value => (compactJansson []).dumps value = text).getD .null

end Dime
