import VirtualPeople.Json.Number

/-!
# Reading JSON

A text is read whole or not at all; only blanks may follow the value. The readers take what is
left of the text and return what they leave, and the count they start with is the length of the
text, of which every level of nesting takes at least one character.
-/

namespace VirtualPeople.Json

def isSpace (c : Char) : Bool := c = ' ' || c = '\n' || c = '\t' || c = '\r'

def skipSpace (cs : List Char) : List Char := cs.dropWhile isSpace

def hexValue? (c : Char) : Option Nat :=
  if c.isDigit then some (c.toNat - '0'.toNat)
  else if 'a' ≤ c ∧ c ≤ 'f' then some (c.toNat - 'a'.toNat + 10)
  else if 'A' ≤ c ∧ c ≤ 'F' then some (c.toNat - 'A'.toNat + 10)
  else none

/-- The number of four hexadecimal digits. -/
def hexFour? (a b c d : Char) : Option Nat := do
  return (((← hexValue? a) * 16 + (← hexValue? b)) * 16 + (← hexValue? c)) * 16 + (← hexValue? d)

/-- What a backslash and a letter stand for. -/
def simpleEscape? : Char → Option Char
  | '"' => some '"'
  | '\\' => some '\\'
  | '/' => some '/'
  | 'b' => some '\x08'
  | 'f' => some '\x0c'
  | 'n' => some '\n'
  | 'r' => some '\r'
  | 't' => some '\t'
  | _ => none

/-- The character of the two halves of a surrogate pair. -/
def pair? (high : Option Nat) (unit : Nat) : Option Char :=
  match high with
  | some high =>
    if 0xdc00 ≤ unit ∧ unit < 0xe000 then
      some (.ofNat (0x10000 + (high - 0xd800) * 0x400 + (unit - 0xdc00)))
    else none
  | none => none

/-- The characters of a string up to its closing quote, onto those read before, last first. The
first part of the answer says that no half of a surrogate pair stood alone; `high` is a first half
that waits for its second. -/
def stringBody (whole : Bool) (high : Option Nat) (seen : List Char) :
    List Char → Option (Bool × List Char × List Char)
  | '"' :: rest => some (whole && high.isNone, seen.reverse, rest)
  | '\\' :: 'u' :: a :: b :: c :: d :: rest =>
    match hexFour? a b c d with
    | none => none
    | some unit =>
      match pair? high unit with
      | some c => stringBody whole none (c :: seen) rest
      | none =>
        if 0xd800 ≤ unit ∧ unit < 0xdc00 then
          stringBody (whole && high.isNone) (some unit) seen rest
        else if 0xdc00 ≤ unit ∧ unit < 0xe000 then stringBody false none seen rest
        else stringBody (whole && high.isNone) none (.ofNat unit :: seen) rest
  | '\\' :: c :: rest =>
    match simpleEscape? c with
    | none => none
    | some c => stringBody (whole && high.isNone) none (c :: seen) rest
  | c :: rest =>
    if c.toNat < 0x20 then none else stringBody (whole && high.isNone) none (c :: seen) rest
  | [] => none

mutual

/-- The value at the head of a text. -/
def value? : Nat → List Char → Option (Json × List Char)
  | 0, _ => none
  | fuel + 1, cs =>
    match cs with
    | 'n' :: 'u' :: 'l' :: 'l' :: rest => some (.null, rest)
    | 't' :: 'r' :: 'u' :: 'e' :: rest => some (.bool true, rest)
    | 'f' :: 'a' :: 'l' :: 's' :: 'e' :: rest => some (.bool false, rest)
    | '"' :: rest =>
      (stringBody true none [] rest).map fun (whole, text, rest) =>
        (if whole then .string (String.ofList text) else .unreadable, rest)
    | '[' :: rest =>
      match skipSpace rest with
      | ']' :: rest => some (.array [], rest)
      | rest => items? fuel [] rest
    | '\x7b' :: rest =>
      match skipSpace rest with
      | '\x7d' :: rest => some (.object [], rest)
      | rest => members? fuel true [] rest
    | rest => number? rest

/-- The items of an array from one of them on, onto those read before, last first. -/
def items? : Nat → List Json → List Char → Option (Json × List Char)
  | 0, _, _ => none
  | fuel + 1, seen, cs =>
    match value? fuel (skipSpace cs) with
    | none => none
    | some (item, rest) =>
      match skipSpace rest with
      | ',' :: rest => items? fuel (item :: seen) (skipSpace rest)
      | ']' :: rest => some (.array (item :: seen).reverse, rest)
      | _ => none

/-- The members of an object from one of them on, onto those read before, last first. An object
with an unreadable name is unreadable. -/
def members? : Nat → Bool → List (String × Json) → List Char → Option (Json × List Char)
  | 0, _, _, _ => none
  | fuel + 1, readable, seen, cs =>
    match skipSpace cs with
    | '"' :: rest =>
      match stringBody true none [] rest with
      | none => none
      | some (whole, name, rest) =>
        match skipSpace rest with
        | ':' :: rest =>
          match value? fuel (skipSpace rest) with
          | none => none
          | some (value, rest) =>
            let seen := (String.ofList name, value) :: seen
            match skipSpace rest with
            | ',' :: rest => members? fuel (readable && whole) seen rest
            | '\x7d' :: rest =>
              some (if readable && whole then .object seen.reverse else .unreadable, rest)
            | _ => none
        | _ => none
    | _ => none

end

/-- The value of a text. -/
def read? (s : String) : Option Json :=
  let cs := s.toList
  match value? (cs.length + 1) (skipSpace cs) with
  | some (v, rest) => if skipSpace rest = [] then some v else none
  | none => none

end VirtualPeople.Json
