/-!
# Strings of TOML

Strings come in four forms: with double quotes and escapes or with single quotes and none, and each
of them on one line or, with the quotes written three times, on several.
-/

namespace LeastPrivilege.Toml

/-- The characters that may stand in comments and strings as they are: all but controls. -/
def isVisible (c : Char) : Bool :=
  c == '\t' || (0x20 ≤ c.toNat && c.toNat != 0x7F)

/-- The value of hexadecimal digits, of which there has to be at least one. -/
def hexValue? (cs : List Char) : Option Nat :=
  if cs ≠ [] ∧ cs.all (fun c => c.isDigit || ('a' ≤ c.toLower && c.toLower ≤ 'f')) then
    some (cs.foldl
      (fun n c => n * 16 + if c.isDigit then c.toNat - 48 else c.toLower.toNat - 87) 0)
  else none

/-- The character with a code given in hexadecimal digits. Surrogates are no characters. -/
def charOfHex? (cs : List Char) : Option Char :=
  (hexValue? cs).bind fun n => if n.isValidChar then some (Char.ofNat n) else none

/-- The character that a one-letter escape stands for. -/
def escaped? : Char → Option Char
  | 'b' => some '\x08'
  | 't' => some '\t'
  | 'n' => some '\n'
  | 'f' => some '\x0c'
  | 'r' => some '\r'
  | '"' => some '"'
  | '\\' => some '\\'
  | _ => none

/-- The rest of a one-line string with escapes after the characters already known, the latest first;
and what follows the closing quote. -/
def scanBasic? (known : List Char) : List Char → Option (String × List Char)
  | '"' :: rest => some (String.ofList known.reverse, rest)
  | '\\' :: 'u' :: a :: b :: c :: d :: rest =>
    match charOfHex? [a, b, c, d] with
    | some x => scanBasic? (x :: known) rest
    | none => none
  | '\\' :: 'U' :: a :: b :: c :: d :: e :: f :: g :: h :: rest =>
    match charOfHex? [a, b, c, d, e, f, g, h] with
    | some x => scanBasic? (x :: known) rest
    | none => none
  | '\\' :: e :: rest =>
    match escaped? e with
    | some x => scanBasic? (x :: known) rest
    | none => none
  | c :: rest => if isVisible c ∧ c ≠ '\\' then scanBasic? (c :: known) rest else none
  | [] => none

/-- The rest of a one-line string without escapes, and what follows the closing quote. -/
def scanLiteral? (known : List Char) : List Char → Option (String × List Char)
  | '\'' :: rest => some (String.ofList known.reverse, rest)
  | c :: rest => if isVisible c then scanLiteral? (c :: known) rest else none
  | [] => none

/-- What stands at a place in a string of several lines. -/
inductive Fold where
  /-- Ordinary text. -/
  | none
  /-- The blanks after a backslash at the end of a line; the line has to end. -/
  | beforeBreak
  /-- The blanks and line ends after that. -/
  | afterBreak
  deriving DecidableEq, Repr

/-- The rest of a string of several lines with escapes, and what follows the closing quotes. A
backslash at the end of a line swallows all blanks and line ends up to the next character. Up to
two quotes may stand before the closing ones. -/
def scanLongBasic? (known : List Char) : Fold → List Char → Option (String × List Char)
  | .beforeBreak, ' ' :: rest => scanLongBasic? known .beforeBreak rest
  | .beforeBreak, '\t' :: rest => scanLongBasic? known .beforeBreak rest
  | .beforeBreak, '\n' :: rest => scanLongBasic? known .afterBreak rest
  | .beforeBreak, '\r' :: '\n' :: rest => scanLongBasic? known .afterBreak rest
  | .beforeBreak, _ => none
  | .afterBreak, ' ' :: rest => scanLongBasic? known .afterBreak rest
  | .afterBreak, '\t' :: rest => scanLongBasic? known .afterBreak rest
  | .afterBreak, '\n' :: rest => scanLongBasic? known .afterBreak rest
  | .afterBreak, '\r' :: '\n' :: rest => scanLongBasic? known .afterBreak rest
  | _, '"' :: '"' :: '"' :: '"' :: '"' :: rest =>
    some (String.ofList ('"' :: '"' :: known).reverse, rest)
  | _, '"' :: '"' :: '"' :: '"' :: rest => some (String.ofList ('"' :: known).reverse, rest)
  | _, '"' :: '"' :: '"' :: rest => some (String.ofList known.reverse, rest)
  | _, '\\' :: 'u' :: a :: b :: c :: d :: rest =>
    match charOfHex? [a, b, c, d] with
    | some x => scanLongBasic? (x :: known) .none rest
    | none => none
  | _, '\\' :: 'U' :: a :: b :: c :: d :: e :: f :: g :: h :: rest =>
    match charOfHex? [a, b, c, d, e, f, g, h] with
    | some x => scanLongBasic? (x :: known) .none rest
    | none => none
  | _, '\\' :: ' ' :: rest => scanLongBasic? known .beforeBreak rest
  | _, '\\' :: '\t' :: rest => scanLongBasic? known .beforeBreak rest
  | _, '\\' :: '\n' :: rest => scanLongBasic? known .afterBreak rest
  | _, '\\' :: '\r' :: '\n' :: rest => scanLongBasic? known .afterBreak rest
  | _, '\\' :: e :: rest =>
    match escaped? e with
    | some x => scanLongBasic? (x :: known) .none rest
    | none => none
  | _, '\n' :: rest => scanLongBasic? ('\n' :: known) .none rest
  | _, '\r' :: '\n' :: rest => scanLongBasic? ('\n' :: known) .none rest
  | _, c :: rest => if isVisible c ∧ c ≠ '\\' then scanLongBasic? (c :: known) .none rest else none
  | _, [] => none

/-- The rest of a string of several lines without escapes, and what follows the closing quotes. -/
def scanLongLiteral? (known : List Char) : List Char → Option (String × List Char)
  | '\'' :: '\'' :: '\'' :: '\'' :: '\'' :: rest =>
    some (String.ofList ('\'' :: '\'' :: known).reverse, rest)
  | '\'' :: '\'' :: '\'' :: '\'' :: rest => some (String.ofList ('\'' :: known).reverse, rest)
  | '\'' :: '\'' :: '\'' :: rest => some (String.ofList known.reverse, rest)
  | '\n' :: rest => scanLongLiteral? ('\n' :: known) rest
  | '\r' :: '\n' :: rest => scanLongLiteral? ('\n' :: known) rest
  | c :: rest => if isVisible c then scanLongLiteral? (c :: known) rest else none
  | [] => none

/-- A text without the line end that it starts with. -/
def skipBreak : List Char → List Char
  | '\n' :: rest => rest
  | '\r' :: '\n' :: rest => rest
  | cs => cs

/-- The string that a text starts with, and what follows. A line end right after three quotes does
not belong to the string. -/
def scanString? : List Char → Option (String × List Char)
  | '"' :: '"' :: '"' :: rest => scanLongBasic? [] .none (skipBreak rest)
  | '\'' :: '\'' :: '\'' :: rest => scanLongLiteral? [] (skipBreak rest)
  | '"' :: rest => scanBasic? [] rest
  | '\'' :: rest => scanLiteral? [] rest
  | _ => none

end LeastPrivilege.Toml
