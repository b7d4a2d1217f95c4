import VirtualPeople.Json.Basic
import VirtualPeople.Text.Literal

/-!
# Writing JSON

Compact text has no blanks; laid-out text has a line for each item and member, two blanks deeper
for each level. Of the characters of a string only the quote, the backslash and the control
characters are escaped.
-/

namespace VirtualPeople.Json

def hexDigit (n : Nat) : Char := (Nat.toDigits 16 n).headD '0'

/-- A character as it stands in a string. -/
def escape (c : Char) : List Char :=
  if c = '"' then ['\\', '"']
  else if c = '\\' then ['\\', '\\']
  else if c = '\x08' then ['\\', 'b']
  else if c = '\t' then ['\\', 't']
  else if c = '\n' then ['\\', 'n']
  else if c = '\x0c' then ['\\', 'f']
  else if c = '\r' then ['\\', 'r']
  else if c.toNat < 0x20 then
    ['\\', 'u', '0', '0', hexDigit (c.toNat / 16), hexDigit (c.toNat % 16)]
  else [c]

def quoted (text : String) : List Char := '"' :: (text.toList.flatMap escape ++ ['"'])

/-- Texts with a separator between them. -/
def joined (separator : List Char) : List (List Char) → List Char
  | [] => []
  | [text] => text
  | text :: rest => text ++ (separator ++ joined separator rest)

/-- The text of a value that is neither array nor object. -/
def leafText : Json → List Char
  | .null => "null".toList
  | .bool b => if b then "true".toList else "false".toList
  | .int i _ => Text.integerText i
  | .float x _ => jsonNumberText x
  | .string s => quoted s
  | _ => "\"\\ud800\"".toList

mutual

/-- Compact text. -/
def write : Json → List Char
  | .array items => '[' :: (joined [','] (writeItems items) ++ [']'])
  | .object members => '\x7b' :: (joined [','] (writeMembers members) ++ ['\x7d'])
  | v => v.leafText

def writeItems : List Json → List (List Char)
  | [] => []
  | item :: rest => item.write :: writeItems rest

def writeMembers : List (String × Json) → List (List Char)
  | [] => []
  | (name, value) :: rest => (quoted name ++ ':' :: value.write) :: writeMembers rest

end

def text (v : Json) : String := String.ofList v.write

/-- The text of the canonical form. -/
def canonicalText (v : Json) : String := v.canonical.text

/-- A line break and the blanks of a level. -/
def lineBreak (level : Nat) : List Char := '\n' :: List.replicate (2 * level) ' '

/-- Parts between brackets, each on a line of its own one level deeper. -/
def block (level : Nat) (opening closing : Char) : List (List Char) → List Char
  | [] => [opening, closing]
  | parts =>
    opening :: (lineBreak (level + 1) ++ joined (',' :: lineBreak (level + 1)) parts
      ++ lineBreak level ++ [closing])

mutual

/-- Laid-out text, at a level. -/
def layOut (level : Nat) : Json → List Char
  | .array items => block level '[' ']' (layOutItems (level + 1) items)
  | .object members => block level '\x7b' '\x7d' (layOutMembers (level + 1) members)
  | v => v.leafText

def layOutItems (level : Nat) : List Json → List (List Char)
  | [] => []
  | item :: rest => item.layOut level :: layOutItems level rest

def layOutMembers (level : Nat) : List (String × Json) → List (List Char)
  | [] => []
  | (name, value) :: rest =>
    (quoted name ++ ':' :: ' ' :: value.layOut level) :: layOutMembers level rest

end

def laidOutText (v : Json) : String := String.ofList (v.layOut 0)

end VirtualPeople.Json
