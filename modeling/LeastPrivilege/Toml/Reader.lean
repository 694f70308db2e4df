import LeastPrivilege.Toml.Basic
import LeastPrivilege.Toml.Quoted
import LeastPrivilege.Toml.Scalar

/-!
# Reading TOML

A document is a sequence of lines: entries, headers of tables, comments and empty lines. Entries
belong to the table of the last header before them.
-/

namespace LeastPrivilege.Toml

/-- How deep arrays and inline tables may be nested, and how many parts a key may have. -/
def depthLimit : Nat := 79

/-- The blanks that may stand within a line. -/
def isGap (c : Char) : Bool :=
  c == ' ' || c == '\t'

/-- A text without the blanks that it starts with. -/
def skipGap (cs : List Char) : List Char :=
  cs.dropWhile isGap

/-- A text without the blanks, line ends and comments that it starts with. The flag tells whether a
comment is open. -/
def skipLines? : Bool → List Char → Option (List Char)
  | _, [] => some []
  | _, '\n' :: rest => skipLines? false rest
  | _, '\r' :: '\n' :: rest => skipLines? false rest
  | true, c :: rest => if isVisible c then skipLines? true rest else none
  | false, '#' :: rest => skipLines? true rest
  | false, c :: rest => if isGap c then skipLines? false rest else some (c :: rest)

/-- What follows the end of a line, before which only blanks and a comment may stand. -/
def endLine? (cs : List Char) : Option (List Char) :=
  let rest := match skipGap cs with
    | '#' :: comment => comment.dropWhile isVisible
    | rest => rest
  match rest with
  | [] => some []
  | '\n' :: rest => some rest
  | '\r' :: '\n' :: rest => some rest
  | _ => none

/-- The characters of a key without quotes. -/
def isBareChar (c : Char) : Bool :=
  c.isAlphanum || c == '_' || c == '-'

/-- The part of a key that a text starts with, and what follows. -/
def scanKeyPart? (cs : List Char) : Option (String × List Char) :=
  match cs with
  | '"' :: rest => scanBasic? [] rest
  | '\'' :: rest => scanLiteral? [] rest
  | cs =>
    let word := cs.takeWhile isBareChar
    if word = [] then none else some (String.ofList word, cs.dropWhile isBareChar)

/-- The parts of a key after those already known, the latest first, and what follows. -/
def scanKeyAfter (known : List String) : Nat → List Char → Option (List String × List Char)
  | 0, _ => none
  | fuel + 1, cs => do
    let (part, rest) ← scanKeyPart? (skipGap cs)
    match skipGap rest with
    | '.' :: rest => scanKeyAfter (part :: known) fuel rest
    | rest => return ((part :: known).reverse, rest)

/-- The key that a text starts with, as its path and its last part, and what follows. -/
def scanKey? (cs : List Char) : Option (List String × String × List Char) := do
  let (parts, rest) ← scanKeyAfter [] depthLimit cs
  let last ← parts.getLast?
  return (parts.dropLast, last, rest)

mutual

/-- The value that a text starts with, and what follows. `depth` bounds the nesting. -/
def scanValue? : Nat → Nat → List Char → Option (Value × List Char)
  | 0, _, _ => none
  | fuel + 1, depth, cs =>
    match cs with
    | '[' :: rest =>
      match depth with
      | 0 => none
      | depth + 1 => scanItems? fuel depth [] rest
    | '\x7b' :: rest =>
      match depth with
      | 0 => none
      | depth + 1 =>
        match skipGap rest with
        | '\x7d' :: rest => some (.inlineTable, rest)
        | rest => scanPairs? fuel depth [] rest
    | '"' :: _ => (scanString? cs).map fun (s, rest) => (.string s, rest)
    | '\'' :: _ => (scanString? cs).map fun (s, rest) => (.string s, rest)
    | cs => (scanPlain? cs).map fun rest => (.scalar, rest)

/-- The rest of an array after the items already known, the latest first. The last item may be
followed by a comma. -/
def scanItems? : Nat → Nat → List Value → List Char → Option (Value × List Char)
  | 0, _, _, _ => none
  | fuel + 1, depth, known, cs => do
    match ← skipLines? false cs with
    | ']' :: rest => return (.array known.reverse, rest)
    | cs =>
      let (item, rest) ← scanValue? fuel depth cs
      match ← skipLines? false rest with
      | ',' :: rest => scanItems? fuel depth (item :: known) rest
      | ']' :: rest => return (.array (item :: known).reverse, rest)
      | _ => none

/-- The rest of an inline table that has the given entries so far. It ends on its line, and the last
entry is not followed by a comma. -/
def scanPairs? : Nat → Nat → Entries → List Char → Option (Value × List Char)
  | 0, _, _, _ => none
  | fuel + 1, depth, entries, cs => do
    let (path, key, rest) ← scanKey? cs
    match rest with
    | '=' :: rest =>
      let (v, rest) ← scanValue? fuel depth (skipGap rest)
      let entries ← addAt path key v .header entries
      match skipGap rest with
      | ',' :: rest => scanPairs? fuel depth entries rest
      | '\x7d' :: rest => return (.inlineTable, rest)
      | _ => none
    | _ => none

end

/-- A document in the course of reading: its entries, and the path of the last header. -/
structure Document where
  entries : Entries := []
  path : List String := []

namespace Document

/-- Reads an entry with its line. -/
def readEntry? (d : Document) (cs : List Char) : Option (Document × List Char) := do
  let (path, key, rest) ← scanKey? cs
  match rest with
  | '=' :: rest =>
    let (v, rest) ← scanValue? (2 * rest.length + 2) depthLimit (skipGap rest)
    let entries ← modifyAt .passing (addAt path key v) d.path .header d.entries
    return ({ d with entries }, ← endLine? rest)
  | _ => none

/-- Reads the header of a list of tables with its line. -/
def readRowHeader? (d : Document) (cs : List Char) : Option (Document × List Char) := do
  let (path, key, rest) ← scanKey? cs
  match rest with
  | ']' :: ']' :: rest =>
    let entries ← modifyAt .passing (openRow key) path .header d.entries
    return ({ entries, path := path ++ [key] }, ← endLine? rest)
  | _ => none

/-- Reads the header of a table with its line. -/
def readHeader? (d : Document) (cs : List Char) : Option (Document × List Char) := do
  let (path, key, rest) ← scanKey? cs
  match rest with
  | ']' :: rest =>
    let entries ← modifyAt .passing (openTable key) path .header d.entries
    return ({ entries, path := path ++ [key] }, ← endLine? rest)
  | _ => none

/-- Reads the line that a text starts with. -/
def readLine? (d : Document) (cs : List Char) : Option (Document × List Char) :=
  match skipGap cs with
  | '[' :: '[' :: rest => d.readRowHeader? rest
  | '[' :: rest => d.readHeader? rest
  | cs =>
    match endLine? cs with
    | some rest => some (d, rest)
    | none => d.readEntry? cs

/-- Reads all lines. The fuel bounds their number. -/
def readLines? (d : Document) : Nat → List Char → Option Document
  | _, [] => some d
  | 0, _ :: _ => none
  | fuel + 1, cs => do
    let (d, rest) ← d.readLine? cs
    d.readLines? fuel rest

end Document

/-- The entries of the document that a text describes. A byte order mark in front is ignored. -/
def read? (text : String) : Option Entries :=
  let cs := match text.toList with
    | '\ufeff' :: rest => rest
    | cs => cs
  (Document.readLines? {} cs.length cs).map Document.entries

/-- The text of an item. -/
def Item.toText? : Item → Option String
  | .value (.string s) => some s
  | _ => none

/-- The texts of an item that is a list of them. -/
def Item.toTexts? : Item → Option (List String)
  | .value (.array items) => items.mapM fun
    | .string s => some s
    | _ => none
  | _ => none

/-- An entry that may be missing. -/
def entryOr? {α : Type} (entries : Entries) (key : String) (decode : Item → Option α)
    (fallback : α) : Option α :=
  match entries.lookup key with
  | some item => decode item
  | none => some fallback

end LeastPrivilege.Toml
