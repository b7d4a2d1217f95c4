import VirtualPeople.Json.Reader
import VirtualPeople.Json.Writer
import VirtualPeople.Text.Literal

/-!
# Settings documents

A document is a part of TOML: lines that hold a comment, the name of a table between brackets, or a
key of the current table with a truth value, an integer or a string. Neither a table nor a key of
a table may come twice. A line ends with a line feed, before which a carriage return may stand; no
other control character but a tab may stand anywhere.
-/

namespace VirtualPeople

inductive Setting
  | truth (value : Bool)
  | integer (value : Int)
  | string (text : String)
deriving DecidableEq, Repr

/-- The keys before the first table, and the tables in their order. -/
structure Document where
  top : List (String × Setting)
  tables : List (String × List (String × Setting))
deriving DecidableEq, Repr

namespace Document

def isSpace (c : Char) : Bool := c = ' ' || c = '\t'

def skipSpace (cs : List Char) : List Char := cs.dropWhile isSpace

/-- A character that stands for itself in a string or a comment. -/
def isPlain (c : Char) : Bool := c = '\t' || 0x20 ≤ c.toNat && c ≠ '\x7f'

/-- Nothing but a comment. -/
def isRest (cs : List Char) : Bool :=
  match skipSpace cs with
  | [] => true
  | c :: comment => c = '#' && comment.all isPlain

def isKeyChar (c : Char) : Bool := c.isAlphanum || c = '_' || c = '-'

/-- A key and what follows it. -/
def key? (cs : List Char) : Option (String × List Char) :=
  match cs.takeWhile isKeyChar with
  | [] => none
  | name => some (String.ofList name, cs.dropWhile isKeyChar)

/-- The character of a number. -/
def scalar? (n : Nat) : Option Char :=
  if n < 0xd800 ∨ 0xe000 ≤ n ∧ n < 0x110000 then some (.ofNat n) else none

/-- The value of digits in a base of at most sixteen. -/
def valueIn? (base : Nat) (cs : List Char) : Option Nat :=
  cs.foldlM (fun n c => do
    let digit ← Json.hexValue? c
    if digit < base then some (n * base + digit) else none) 0

/-- What a backslash and a letter stand for. -/
def simpleEscape? : Char → Option Char
  | '"' => some '"'
  | '\\' => some '\\'
  | 'b' => some '\x08'
  | 'f' => some '\x0c'
  | 'n' => some '\n'
  | 'r' => some '\r'
  | 't' => some '\t'
  | _ => none

/-- The characters of a string up to its closing quote, and what follows it. -/
def stringBody (seen : List Char) : List Char → Option (String × List Char)
  | '"' :: rest => some (String.ofList seen.reverse, rest)
  | '\\' :: 'u' :: a :: b :: c :: d :: rest =>
    match (valueIn? 16 [a, b, c, d]).bind scalar? with
    | some char => stringBody (char :: seen) rest
    | none => none
  | '\\' :: 'U' :: a :: b :: c :: d :: e :: f :: g :: h :: rest =>
    match (valueIn? 16 [a, b, c, d, e, f, g, h]).bind scalar? with
    | some char => stringBody (char :: seen) rest
    | none => none
  | '\\' :: c :: rest =>
    match simpleEscape? c with
    | some char => stringBody (char :: seen) rest
    | none => none
  | c :: rest => if isPlain c then stringBody (c :: seen) rest else none
  | [] => none

/-- Digits without the single underscores that may stand between them. -/
def ungrouped? (cs : List Char) : Option (List Char) :=
  let groups := Text.pieces '_' cs
  if groups.any List.isEmpty then none else some groups.flatten

/-- A natural in base ten, whose digits do not begin with a zero. -/
def natural? (cs : List Char) : Option Nat := do
  let digits ← ungrouped? cs
  if digits.head? = some '0' ∧ digits.length ≠ 1 then none else valueIn? 10 digits

/-- An integer in base ten behind a sign, or in another base behind the mark of it, that 64 bits
hold. -/
def integer? (cs : List Char) : Option Int :=
  let value : Option Int :=
    match cs with
    | '0' :: 'x' :: digits => ((ungrouped? digits).bind (valueIn? 16)).map Int.ofNat
    | '0' :: 'o' :: digits => ((ungrouped? digits).bind (valueIn? 8)).map Int.ofNat
    | '0' :: 'b' :: digits => ((ungrouped? digits).bind (valueIn? 2)).map Int.ofNat
    | '+' :: digits => (natural? digits).map Int.ofNat
    | '-' :: digits => (natural? digits).map fun n => -(n : Int)
    | digits => (natural? digits).map Int.ofNat
  value.filter fun i => -9223372036854775808 ≤ i && i ≤ 9223372036854775807

/-- A value without quotes. -/
def word? (cs : List Char) : Option Setting :=
  match Text.boolean? cs with
  | some b => some (.truth b)
  | none => (integer? cs).map .integer

def isWordChar (c : Char) : Bool := c.isAlphanum || c = '_' || c = '+' || c = '-'

/-- A value and what follows it. -/
def value? : List Char → Option (Setting × List Char)
  | '"' :: rest => (stringBody [] rest).map fun (text, rest) => (.string text, rest)
  | cs => (word? (cs.takeWhile isWordChar)).map (·, cs.dropWhile isWordChar)

/-- What a line holds. -/
inductive Line
  | blank
  | table (name : String)
  | entry (key : String) (value : Setting)

def line? (cs : List Char) : Option Line :=
  if isRest cs then some .blank
  else
    match skipSpace cs with
    | '[' :: rest => do
      let (name, rest) ← key? (skipSpace rest)
      match skipSpace rest with
      | ']' :: rest => if isRest rest then some (.table name) else none
      | _ => none
    | cs => do
      let (key, rest) ← key? cs
      match skipSpace rest with
      | '=' :: rest =>
        let (value, rest) ← value? (skipSpace rest)
        if isRest rest then some (.entry key value) else none
      | _ => none

/-- Adds a key to entries that do not have it. -/
def addEntry (key : String) (value : Setting) (entries : List (String × Setting)) :
    Option (List (String × Setting)) :=
  if entries.any (·.1 == key) then none else some (entries ++ [(key, value)])

/-- Adds a line to a document, whose last table is the current one. -/
def addLine (d : Document) : Line → Option Document
  | .blank => some d
  | .table name =>
    if d.top.any (·.1 == name) || d.tables.any (·.1 == name) then none
    else some { d with tables := d.tables ++ [(name, [])] }
  | .entry key value =>
    match d.tables.getLast? with
    | none => (addEntry key value d.top).map fun top => { d with top }
    | some (name, entries) =>
      (addEntry key value entries).map fun entries =>
        { d with tables := d.tables.dropLast ++ [(name, entries)] }

/-- A text without the carriage returns that stand before a line feed. -/
def withoutReturns : List Char → List Char
  | '\r' :: '\n' :: cs => '\n' :: withoutReturns cs
  | c :: cs => c :: withoutReturns cs
  | [] => []

/-- A text without the byte order mark at its head. -/
def withoutMark : List Char → List Char
  | '\ufeff' :: cs => cs
  | cs => cs

/-- The document of a text. -/
def read? (text : String) : Option Document :=
  (Text.pieces '\n' (withoutReturns (withoutMark text.toList))).foldlM
    (fun d cs => (line? cs).bind d.addLine) ⟨[], []⟩

/-- A character as it stands in a string. -/
def escape (c : Char) : List Char :=
  if c = '"' then ['\\', '"']
  else if c = '\\' then ['\\', '\\']
  else if c = '\n' then ['\\', 'n']
  else if isPlain c then [c]
  else ['\\', 'u', '0', '0', Json.hexDigit (c.toNat / 16), Json.hexDigit (c.toNat % 16)]

def Setting.text : Setting → List Char
  | .truth b => if b then "true".toList else "false".toList
  | .integer i => Text.integerText i
  | .string s => '"' :: (s.toList.flatMap escape ++ ['"'])

def entriesText (entries : List (String × Setting)) : List Char :=
  entries.flatMap fun (key, value) => key.toList ++ " = ".toList ++ Setting.text value ++ ['\n']

/-- The text of a document. -/
def text (d : Document) : String :=
  String.ofList (entriesText d.top ++ d.tables.flatMap fun (name, entries) =>
    '[' :: (name.toList ++ [']', '\n'] ++ entriesText entries))

end Document

end VirtualPeople
