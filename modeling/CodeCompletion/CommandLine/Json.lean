/-! JSON values and their texts: one without blanks, and one with a line for each member. -/
namespace CodeCompletion

inductive JsonValue where
  | null
  | num (value : Int)
  | str (value : String)
  | arr (items : List JsonValue)
  | obj (fields : List (String × JsonValue))

namespace JsonValue

def controlCode (c : Char) : List Char :=
  let digits := Nat.toDigits 16 c.toNat
  List.replicate (4 - digits.length) '0' ++ digits

def escaped (c : Char) : List Char :=
  if c = '"' then ['\\', '"']
  else if c = '\\' then ['\\', '\\']
  else if c = '\x08' then ['\\', 'b']
  else if c = '\x0c' then ['\\', 'f']
  else if c = '\n' then ['\\', 'n']
  else if c = '\r' then ['\\', 'r']
  else if c = '\t' then ['\\', 't']
  else if c.toNat < 0x20 then ['\\', 'u'] ++ controlCode c
  else [c]

def string (text : String) : String :=
  String.ofList ('"' :: text.toList.flatMap escaped ++ ['"'])

mutual

/-- The text without blanks. -/
def compact : JsonValue → String
  | null => "null"
  | num value => toString value
  | str value => string value
  | arr items => "[" ++ ",".intercalate (compactItems items) ++ "]"
  | obj fields => "\x7b" ++ ",".intercalate (compactFields fields) ++ "\x7d"

def compactItems : List JsonValue → List String
  | [] => []
  | item :: rest => item.compact :: compactItems rest

def compactFields : List (String × JsonValue) → List String
  | [] => []
  | (name, value) :: rest => (string name ++ ":" ++ value.compact) :: compactFields rest

end

def enclosed (depth : Nat) (left right : String) (members : List String) : String :=
  let line (depth : Nat) : String := "\n" ++ String.ofList (List.replicate (2 * depth) ' ')
  if members.isEmpty then left ++ right
  else
    left ++ line (depth + 1) ++ ("," ++ line (depth + 1)).intercalate members ++ line depth
      ++ right

mutual

/-- The text with a line for each member, inside `depth` brackets. -/
def pretty (depth : Nat) : JsonValue → String
  | null => "null"
  | num value => toString value
  | str value => string value
  | arr items => enclosed depth "[" "]" (prettyItems (depth + 1) items)
  | obj fields => enclosed depth "\x7b" "\x7d" (prettyFields (depth + 1) fields)

def prettyItems (depth : Nat) : List JsonValue → List String
  | [] => []
  | item :: rest => item.pretty depth :: prettyItems depth rest

def prettyFields (depth : Nat) : List (String × JsonValue) → List String
  | [] => []
  | (name, value) :: rest =>
    (string name ++ ": " ++ value.pretty depth) :: prettyFields depth rest

end

end JsonValue

end CodeCompletion
