/-!
# Options of a command

A command takes options, each at most once and in any order. An option is written as its name
behind two dashes, or as its letter behind one. The value of an option stands in the same argument,
behind an equals sign, which a letter does not need, or else it is the next argument. Two dashes
alone end the options, and nothing may follow them.
-/

namespace VirtualPeople

/-- An option of a command. -/
structure CommandOption where
  name : String
  letter : Option Char
  takesValue : Bool
deriving DecidableEq, Repr

namespace CommandOption

/-- The value that an argument holds behind the letter of its option. -/
def behindLetter? : List Char → Option (List Char)
  | [] => none
  | '=' :: value => some value
  | value => some value

/-- The value that an argument holds behind the name of its option. -/
def behindName? (cs : List Char) : Option (List Char) :=
  match cs.dropWhile (· ≠ '=') with
  | [] => none
  | _ :: value => some value

/-- The option that an argument writes, and the value that it holds. -/
def ofArgument? (options : List CommandOption) :
    List Char → Option (CommandOption × Option (List Char))
  | '-' :: '-' :: cs =>
    (options.find? fun o => o.name.toList = cs.takeWhile (· ≠ '=')).map (·, behindName? cs)
  | '-' :: letter :: cs =>
    (options.find? fun o => o.letter = some letter).map (·, behindLetter? cs)
  | _ => none

/-- Whether an argument may be the value of the option before it: a lone dash may, but no other
argument with a dash at its head. -/
def mayBeValue : List Char → Bool
  | '-' :: _ :: _ => false
  | _ => true

/-- Adds an option that was not given before and the value given for it. -/
def addOnce (o : CommandOption) (value : List Char) (given : List (String × String)) :
    Option (List (String × String)) :=
  if given.any (·.1 == o.name) then none else some ((o.name, String.ofList value) :: given)

/-- The names of the options that are given in arguments, with their values. A value is not empty;
an option that takes none is given with the empty text. -/
def read? (options : List CommandOption) : List String → Option (List (String × String))
  | [] => some []
  | ["--"] => some []
  | arg :: rest =>
    match ofArgument? options arg.toList with
    | none => none
    | some (o, held) =>
      match o.takesValue, held, rest with
      | false, none, rest => (read? options rest).bind (o.addOnce [])
      | true, some (c :: cs), rest => (read? options rest).bind (o.addOnce (c :: cs))
      | true, none, value :: rest =>
        if value = "" ∨ mayBeValue value.toList = false then none
        else (read? options rest).bind (o.addOnce value.toList)
      | _, _, _ => none

end CommandOption

end VirtualPeople
