/-!
# TOML tables

What a TOML document describes: a table whose entries are values, tables and lists of tables. Each
table remembers how it came about, because that decides what may be added to it later.
-/

namespace LeastPrivilege.Toml

/-- A value on the right of an equals sign. Of numbers, truth values and dates only the form
matters, and an inline table admits no additions. -/
inductive Value where
  | string (s : String)
  | scalar
  | array (items : List Value)
  | inlineTable

/-- How a table came about. -/
inductive Origin where
  /-- By a header of its own, or as the document itself. -/
  | header
  /-- On the way to the table of a longer header. -/
  | passing
  /-- By a dotted key. -/
  | dotted
  deriving DecidableEq, Repr

/-- An entry of a table. -/
inductive Item where
  | value (v : Value)
  | table (origin : Origin) (entries : List (String × Item))
  | tables (rows : List (List (String × Item)))

/-- The entries of a table in the order in which they were added. -/
abbrev Entries := List (String × Item)

/-- Replaces the entry under a key. -/
def replace (key : String) (item : Item) (entries : Entries) : Entries :=
  entries.map fun entry => if entry.1 == key then (key, item) else entry

/-- Changes the table at the end of a path. Tables that are missing on the way are made with the
given origin. A value is no table, of a list of tables the last one counts, and a dotted key does
not lead into a table that has a header. -/
def modifyAt (origin : Origin) (f : Origin → Entries → Option Entries) :
    List String → Origin → Entries → Option Entries
  | [], own, entries => f own entries
  | key :: path, _, entries =>
    match entries.lookup key with
    | none => do
      let inner ← modifyAt origin f path origin []
      return entries ++ [(key, .table origin inner)]
    | some (.value _) => none
    | some (.table own inner) =>
      if origin = .dotted ∧ own = .header then none
      else do
        let inner ← modifyAt origin f path own inner
        return replace key (.table own inner) entries
    | some (.tables rows) => do
      let last ← rows.getLast?
      let inner ← modifyAt origin f path .header last
      return replace key (.tables (rows.dropLast ++ [inner])) entries

/-- Adds a value under a key that is not in use. A dotted key ends in a table made by dotted keys,
and a plain key in one that was not. -/
def addValue (isDotted : Bool) (key : String) (v : Value) (own : Origin) (entries : Entries) :
    Option Entries :=
  if (own = .dotted) ≠ isDotted then none
  else if (entries.lookup key).isSome then none
  else some (entries ++ [(key, .value v)])

/-- Adds a value under a key with its path, all relative to a table. -/
def addAt (path : List String) (key : String) (v : Value) (own : Origin) (entries : Entries) :
    Option Entries :=
  modifyAt .dotted (addValue (!path.isEmpty) key v) path own entries

/-- Opens the table of a header. It may have been passed before, but not opened. -/
def openTable (key : String) (_ : Origin) (entries : Entries) : Option Entries :=
  match entries.lookup key with
  | none => some (entries ++ [(key, .table .header [])])
  | some (.table .passing inner) => some (replace key (.table .header inner) entries)
  | some _ => none

/-- Opens one more table of a list of tables. -/
def openRow (key : String) (_ : Origin) (entries : Entries) : Option Entries :=
  match entries.lookup key with
  | none => some (entries ++ [(key, .tables [[]])])
  | some (.tables rows) => some (replace key (.tables (rows ++ [[]])) entries)
  | some _ => none

end LeastPrivilege.Toml
