import LeastPrivilege.Json.Token

/-!
# Reading JSON

The reader takes the tokens of a text one by one. Its state says what may come next, and holds the
arrays and objects that are still open.
-/

namespace LeastPrivilege.Json

/-- An array or object that is still open, with what it holds so far, the latest first. -/
inductive Frame where
  | array (items : List Json)
  | object (fields : List (Option String × Json)) (name : Option String)

/-- What the reader has seen and what may come next. -/
inductive ReaderState where
  /-- A value has to come. -/
  | value (stack : List Frame)
  /-- An array has just been opened. -/
  | itemOrEnd (stack : List Frame)
  /-- An object has just been opened. -/
  | nameOrEnd (stack : List Frame)
  /-- The name of a further field has to come. -/
  | fieldName (fields : List (Option String × Json)) (stack : List Frame)
  /-- A colon has to come. -/
  | colon (fields : List (Option String × Json)) (name : Option String) (stack : List Frame)
  /-- A value has just ended. -/
  | after (v : Json) (stack : List Frame)

namespace ReaderState

/-- The state after the first token of a value. -/
def startValue (stack : List Frame) : Token → Option ReaderState
  | .null => some (.after .null stack)
  | .bool b => some (.after (.bool b) stack)
  | .number n => some (.after (.number n) stack)
  | .string s => some (.after (.string s) stack)
  | .beginArray => some (.itemOrEnd stack)
  | .beginObject => some (.nameOrEnd stack)
  | _ => none

/-- The state after one more token, if the token may stand there. -/
def step : ReaderState → Token → Option ReaderState
  | .value stack, token => startValue stack token
  | .itemOrEnd stack, .endArray => some (.after (.array []) stack)
  | .itemOrEnd stack, token => startValue (.array [] :: stack) token
  | .nameOrEnd stack, .endObject => some (.after (.object []) stack)
  | .nameOrEnd stack, .string s => some (.colon [] s stack)
  | .fieldName fields stack, .string s => some (.colon fields s stack)
  | .colon fields name stack, .colon => some (.value (.object fields name :: stack))
  | .after v (.array items :: stack), .comma => some (.value (.array (v :: items) :: stack))
  | .after v (.array items :: stack), .endArray =>
    some (.after (.array (v :: items).reverse) stack)
  | .after v (.object fields name :: stack), .comma => some (.fieldName ((name, v) :: fields) stack)
  | .after v (.object fields name :: stack), .endObject =>
    some (.after (.object ((name, v) :: fields).reverse) stack)
  | _, _ => none

/-- The value that has been read, if nothing is left open. -/
def result? : ReaderState → Option Json
  | .after v [] => some v
  | _ => none

end ReaderState

/-- The value that a list of tokens describes. -/
def ofTokens? (tokens : List Token) : Option Json :=
  (tokens.foldlM ReaderState.step (.value [])).bind ReaderState.result?

/-- The value that a text describes. -/
def read? (text : String) : Option Json :=
  (Token.scanAll? text.toList).bind ofTokens?

end LeastPrivilege.Json
