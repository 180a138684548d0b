import CodeCompletion.Text.Extending
import CodeCompletion.Text.Unprintable

/-! Text in double quotes, written so that every character can be told: the usual letters for the
usual controls, and the code point in hexadecimal for what has no visible form of its own or would
fuse with the character before it. -/
namespace CodeCompletion

/-- Hexadecimal digits in lower case, without leading zeros. -/
def hexDigits (n : Nat) : List Char :=
  Nat.toDigits 16 n

def isShown (c : Char) : Bool :=
  if c.toNat < 0x7f then 0x20 ≤ c.toNat
  else c.toNat ≠ 0x7f && !extendingRanges.contains c.toNat &&
    !unprintableRanges.contains c.toNat

def quotedChar (c : Char) : List Char :=
  if c = '\x00' then ['\\', '0']
  else if c = '\t' then ['\\', 't']
  else if c = '\r' then ['\\', 'r']
  else if c = '\n' then ['\\', 'n']
  else if c = '"' then ['\\', '"']
  else if c = '\\' then ['\\', '\\']
  else if isShown c then [c]
  else ['\\', 'u', '\x7b'] ++ hexDigits c.toNat ++ ['\x7d']

def quoted (text : String) : String :=
  String.ofList ('"' :: text.toList.flatMap quotedChar ++ ['"'])

end CodeCompletion
