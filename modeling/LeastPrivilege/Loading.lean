import LeastPrivilege.CallGraph.Targets
import LeastPrivilege.Drop.Plan
import LeastPrivilege.Json.Reader
import LeastPrivilege.Program.Codec
import LeastPrivilege.Program.Lookup
import LeastPrivilege.Settings.Codec

/-!
# Loading documents

The four kinds of files that the commands read. A file may be missing, unreadable, of a wrong form,
or hold a document that its check refuses.
-/

namespace LeastPrivilege

/-- The kinds of documents. -/
inductive DocumentKind where
  | settings
  | program
  | dropPlan
  | callTargets
  deriving DecidableEq, Repr

namespace DocumentKind

/-- What the file of a document is called in messages. -/
def fileName : DocumentKind → String
  | settings => "config file"
  | program => "module file"
  | dropPlan => "drop plan"
  | callTargets => "call targets"

/-- What the text of a document is called in messages. -/
def textName : DocumentKind → String
  | settings => "config TOML"
  | program => "module JSON"
  | dropPlan => "drop plan JSON"
  | callTargets => "call targets JSON"

end DocumentKind

/-- Why a document cannot be loaded. -/
inductive LoadError where
  /-- There is no file. This is told apart for programs only. -/
  | notFound (path : String)
  /-- The file cannot be read, or it holds no text. -/
  | unreadable (kind : DocumentKind) (path : String)
  /-- The text does not describe a document of its kind. -/
  | malformed (kind : DocumentKind)
  /-- The document fails its check. -/
  | rejected (cause : Error)
  deriving DecidableEq, Repr

namespace LoadError

/-- The text of an error. -/
def message : LoadError → String
  | notFound path => s!"Module file not found: {path}"
  | unreadable kind path => s!"Failed to read {kind.fileName} {path}"
  | malformed kind => s!"Invalid {kind.textName}"
  | rejected cause => cause.message

end LoadError

/-- What stands at a path. -/
inductive FileContent where
  | missing
  | unreadable
  | text (content : String)
  deriving DecidableEq, Repr

namespace FileContent

/-- The text of a file that has to be there. -/
def toText (kind : DocumentKind) (path : String) : FileContent → Except LoadError String
  | text content => .ok content
  | missing => .error (if kind = .program then .notFound path else .unreadable kind path)
  | unreadable => .error (.unreadable kind path)

end FileContent

/-- The document that a JSON text describes. -/
def loadJson {α : Type} (kind : DocumentKind) (decode : Json → Option α) (text : String) :
    Except LoadError α :=
  match (Json.read? text).bind decode with
  | some document => .ok document
  | none => .error (.malformed kind)

namespace Program

/-- A program that passes its check. -/
def checked (p : Program) : Except LoadError Program :=
  match p.check with
  | .ok _ => .ok p
  | .error e => .error (.rejected e)

/-- The program that a text describes, in which names have to be distinct. -/
def ofText (text : String) : Except LoadError Program := do
  (← loadJson .program ofJson? text).checked

/-- The program in a file. -/
def load (path : String) (file : FileContent) : Except LoadError Program := do
  ofText (← file.toText .program path)

end Program

namespace DropPlan

/-- The drop plan that a text describes. -/
def ofText : String → Except LoadError DropPlan :=
  loadJson .dropPlan ofJson?

/-- The drop plan in a file. -/
def load (path : String) (file : FileContent) : Except LoadError DropPlan := do
  ofText (← file.toText .dropPlan path)

end DropPlan

namespace CallTargets

/-- The call targets that a text describes. -/
def ofText : String → Except LoadError CallTargets :=
  loadJson .callTargets ofJson?

/-- The call targets in a file. -/
def load (path : String) (file : FileContent) : Except LoadError CallTargets := do
  ofText (← file.toText .callTargets path)

end CallTargets

namespace Settings

/-- Settings that pass their check. -/
def checked (s : Settings) : Except LoadError Settings :=
  match s.check with
  | .ok _ => .ok s
  | .error e => .error (.rejected e)

/-- The settings that a TOML text describes. -/
def ofText (text : String) : Except LoadError Settings :=
  match (Toml.read? text).bind ofToml? with
  | some s => s.checked
  | none => .error (.malformed .settings)

/-- The settings in a file. -/
def load (path : String) (file : FileContent) : Except LoadError Settings := do
  ofText (← file.toText .settings path)

end Settings

end LeastPrivilege
