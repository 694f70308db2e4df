/-!
# Words of a command line

A word is an option with a long or a short name, the mark that ends the options, or a plain word.
-/

namespace LeastPrivilege.CommandLine

/-- The forms of a word. -/
inductive Word where
  /-- Two hyphens alone: no options follow. -/
  | endOfOptions
  /-- Two hyphens and a name, with the text after an equals sign. -/
  | long (name : String) (attached : Option String)
  /-- A hyphen and a letter, with the characters after it. -/
  | short (letter : Char) (rest : List Char)
  | plain
  deriving DecidableEq, Repr

namespace Word

/-- The form of a text. A hyphen alone is a plain word. -/
def ofText (text : String) : Word :=
  match text.toList with
  | ['-', '-'] => endOfOptions
  | '-' :: '-' :: name =>
    long (String.ofList (name.takeWhile (· != '=')))
      (match name.dropWhile (· != '=') with
        | [] => none
        | _ :: value => some (String.ofList value))
  | '-' :: letter :: rest => short letter rest
  | _ => plain

/-- The value attached to a short option, from which an equals sign in front is taken away. -/
def attachedValue : List Char → Option String
  | [] => none
  | '=' :: value => some (String.ofList value)
  | value => some (String.ofList value)

end Word

end LeastPrivilege.CommandLine
