import CodeCompletion.Number.Binary64
import CodeCompletion.Settings.Table
import CodeCompletion.Text.CharClass

/-! The notation of a settings file. A line is blank, opens a section in brackets or gives a name a
value: `true`, `false`, a whole number, a number with a fraction or an exponent, or text between
double quotes. A `#` starts a comment, and a byte order mark may open the file. The names of a
section are together one table, and no name may be given twice. -/
namespace CodeCompletion.SettingsFile

def dropByteOrderMark : List Char → List Char
  | '\ufeff' :: rest => rest
  | text => text

/-- The lines of a text. A line feed ends a line, also after a carriage return. -/
def splitLines : List Char → List (List Char)
  | [] => [[]]
  | '\n' :: rest => [] :: splitLines rest
  | '\r' :: '\n' :: rest => [] :: splitLines rest
  | c :: rest =>
    match splitLines rest with
    | [] => [[c]]
    | line :: lines => (c :: line) :: lines

def isSpace (c : Char) : Bool := c = ' ' || c = '\t'

def skipSpace (line : List Char) : List Char := line.dropWhile isSpace

/-- Control characters may not occur, except for tabs. -/
def isAllowed (c : Char) : Bool :=
  c = '\t' || 0x20 ≤ c.toNat && c.toNat ≠ 0x7f

/-- Whether only blanks and a comment are left. -/
def isRest (line : List Char) : Bool :=
  match skipSpace line with
  | [] => true
  | '#' :: comment => comment.all isAllowed
  | _ => false

def isNameChar (c : Char) : Bool := c.isAlphanum || c = '_' || c = '-'

def isWordChar (c : Char) : Bool := isNameChar c || c = '+' || c = '.'

def escape? : Char → Option Char
  | 'b' => some '\x08'
  | 't' => some '\t'
  | 'n' => some '\n'
  | 'f' => some '\x0c'
  | 'r' => some '\r'
  | '"' => some '"'
  | '\\' => some '\\'
  | _ => none

def codePoint? (digits : List Char) : Option Char := do
  let n ← digitsValue? 16 digits
  if n.isValidChar then some (Char.ofNat n) else none

/-- Text up to its closing quote, and what follows the quote. -/
def readText? : List Char → Option (List Char × List Char)
  | [] => none
  | '"' :: rest => some ([], rest)
  | ['\\'] => none
  | '\\' :: letter :: rest =>
    let width := if letter = 'u' then 4 else if letter = 'U' then 8 else 0
    if width = 0 then do
      let c ← escape? letter
      let (text, rest) ← readText? rest
      return (c :: text, rest)
    else if rest.length < width then none
    else do
      let c ← codePoint? (rest.take width)
      let (text, rest) ← readText? (rest.drop width)
      return (c :: text, rest)
  | c :: rest =>
    if isAllowed c then (readText? rest).map fun (text, rest) => (c :: text, rest) else none
termination_by line => line.length
decreasing_by all_goals simp only [List.length_cons,List.length_drop]; omega

/-- Digits with single underscores between them. -/
def areDigits (base : Nat) : List Char → Bool
  | [] => false
  | [c] => (digitValue? base c).isSome
  | c :: '_' :: rest => (digitValue? base c).isSome && areDigits base rest
  | c :: rest => (digitValue? base c).isSome && areDigits base rest

def number? (base : Nat) (digits : List Char) : Option Nat :=
  if areDigits base digits then digitsValue? base (digits.filter (· ≠ '_')) else none

/-- A decimal number starts with 0 only if it is 0. -/
def decimal? (digits : List Char) : Option Nat :=
  if digits.head? = some '0' ∧ digits ≠ ['0'] then none else number? 10 digits

def splitSign : List Char → Bool × List Char
  | '-' :: rest => (true, rest)
  | '+' :: rest => (false, rest)
  | rest => (false, rest)

def withSign (isNegative : Bool) (n : Nat) : Int := if isNegative then -(n : Int) else n

/-- Whole numbers have 64 bits, one of them for the sign. -/
def isInRange (n : Int) : Bool := -0x8000000000000000 ≤ n && n ≤ 0x7fffffffffffffff

def integer? (word : List Char) : Option Int := do
  let value : Int ←
    match word with
    | '0' :: 'x' :: digits => (number? 16 digits).map Int.ofNat
    | '0' :: 'o' :: digits => (number? 8 digits).map Int.ofNat
    | '0' :: 'b' :: digits => (number? 2 digits).map Int.ofNat
    | _ =>
      let (isNegative, digits) := splitSign word
      (decimal? digits).map (withSign isNegative)
  if isInRange value then some value else none

def exponent? (word : List Char) : Option Int :=
  let (isNegative, digits) := splitSign word
  (number? 10 digits).map (withSign isNegative)

/-- The number with the given digits before and after its point, times a power of ten. -/
def magnitude (whole fraction : List Char) (exponent : Int) : Binary64 :=
  let fraction := fraction.filter (· ≠ '_')
  let digits := whole.filter (· ≠ '_') ++ fraction
  Binary64.ofDecimal ((digitsValue? 10 digits).getD 0) (exponent - fraction.length)

/-- Whether a word is a number with a fraction or an exponent. A number that rounds to
infinity is refused; one that rounds to minus infinity is not. -/
def isFractional (word : List Char) : Bool :=
  let (isNegative, body) := splitSign word
  if body = ['i', 'n', 'f'] ∨ body = ['n', 'a', 'n'] then true
  else
    let isMark (c : Char) : Bool := c = 'e' || c = 'E'
    let exponent := body.dropWhile (!isMark ·)
    let mantissa := body.takeWhile (!isMark ·)
    let whole := mantissa.takeWhile (· ≠ '.')
    let fraction := mantissa.dropWhile (· ≠ '.')
    let power := if exponent = [] then some 0 else exponent? (exponent.drop 1)
    (decimal? whole).isSome
      && (fraction ≠ [] || exponent ≠ [])
      && (fraction = [] || areDigits 10 (fraction.drop 1))
      && power.any fun power => isNegative || (magnitude whole (fraction.drop 1) power).isFinite

def wordValue? (word : List Char) : Option SettingValue :=
  if word = ['t', 'r', 'u', 'e'] then some (.bool true)
  else if word = ['f', 'a', 'l', 's', 'e'] then some (.bool false)
  else
    match integer? word with
    | some n => some (.integer n)
    | none => if isFractional word then some .other else none

def readValue? : List Char → Option (SettingValue × List Char)
  | '"' :: rest => (readText? rest).map fun (text, rest) => (.text (String.ofList text), rest)
  | line => (wordValue? (line.takeWhile isWordChar)).map (·, line.dropWhile isWordChar)

def readName? : List Char → Option (String × List Char)
  | '"' :: rest => (readText? rest).map fun (text, rest) => (String.ofList text, rest)
  | line =>
    let name := line.takeWhile isNameChar
    if name.isEmpty then none else some (String.ofList name, line.dropWhile isNameChar)

inductive Line where
  | blank
  | heading (name : String)
  | entry (name : String) (value : SettingValue)

def readHeading? (line : List Char) : Option Line := do
  let (name, rest) ← readName? (skipSpace line)
  match skipSpace rest with
  | ']' :: rest => if isRest rest then some (.heading name) else none
  | _ => none

def readEntry? (line : List Char) : Option Line := do
  let (name, rest) ← readName? line
  match skipSpace rest with
  | '=' :: rest =>
    let (value, rest) ← readValue? (skipSpace rest)
    if isRest rest then some (.entry name value) else none
  | _ => none

def readLine? (line : List Char) : Option Line :=
  if isRest line then some .blank
  else
    match skipSpace line with
    | '[' :: rest => readHeading? rest
    | line => readEntry? line

def readLines (number : Nat) : List (List Char) → Except SettingsError (List Line)
  | [] => .ok []
  | line :: rest =>
    match readLine? line with
    | none => .error (.unreadable number)
    | some read => do return read :: (← readLines (number + 1) rest)

def group : List Line → SettingTable × List (String × SettingTable)
  | [] => ([], [])
  | line :: rest =>
    let (entries, sections) := group rest
    match line with
    | .blank => (entries, sections)
    | .entry name value => ((name, value) :: entries, sections)
    | .heading name => ([], (name, entries) :: sections)

def repeatedName? : SettingTable → Option String
  | [] => none
  | (name, _) :: rest =>
    if rest.any (·.1 = name) then some name else repeatedName? rest

def checkNames (table : SettingTable) : Except SettingsError Unit :=
  (repeatedName? table).elim (.ok ()) fun name => .error (.repeated name)

def table (text : String) : Except SettingsError SettingTable := do
  let (entries, sections) := group (← readLines 1 (splitLines (dropByteOrderMark text.toList)))
  sections.forM fun (_, entries) => checkNames entries
  let whole := entries ++ sections.map fun (name, entries) => (name, .table entries)
  checkNames whole
  return whole

def settings (text : String) : Except SettingsError Settings := do
  (← table text).settings

end CodeCompletion.SettingsFile
