import LeastPrivilege.Json.Reader
import LeastPrivilege.Proofs.JsonSpelling

/-!
# Texts of JSON values

A value stands for a list of tokens, and any text that is written with these tokens is read back as
the value, whatever white space it has. The pretty layout is such a text, as long as the numbers of
the value are integers that fit 64 bits.
-/

namespace LeastPrivilege.Json

mutual

/-- The tokens of a value. -/
def tokens : Json → List Token
  | .null => [.null]
  | .bool b => [.bool b]
  | .number n => [.number n]
  | .string s => [.string s]
  | .array [] => [.beginArray, .endArray]
  | .array (item :: items) => .beginArray :: (tokens item ++ itemTokens items)
  | .object [] => [.beginObject, .endObject]
  | .object ((name, v) :: fields) =>
    .beginObject :: .string name :: .colon :: (tokens v ++ fieldTokens fields)

/-- The tokens of the items after the first, with the closing bracket. -/
def itemTokens : List Json → List Token
  | [] => [.endArray]
  | item :: items => .comma :: (tokens item ++ itemTokens items)

/-- The tokens of the fields after the first, with the closing bracket. -/
def fieldTokens : List (Option String × Json) → List Token
  | [] => [.endObject]
  | (name, v) :: fields =>
    .comma :: .string name :: .colon :: (tokens v ++ fieldTokens fields)

end

/-! ## Reading tokens -/

namespace ReaderState

/-- In an array that has just been opened, a value is read as the first item. -/
theorem foldlM_itemOrEnd (v : Json) (stack : List Frame) (rest : List Token) :
    (v.tokens ++ rest).foldlM step (.itemOrEnd stack) =
      (v.tokens ++ rest).foldlM step (.value (.array [] :: stack)) := by
  cases v with
  | array items => cases items <;> rfl
  | object fields => cases fields <;> rfl
  | _ => rfl

mutual

theorem foldlM_tokens (v : Json) (stack : List Frame) (rest : List Token) :
    (v.tokens ++ rest).foldlM step (.value stack) = rest.foldlM step (.after v stack) :=
  match v with
  | .null => rfl
  | .bool _ => rfl
  | .number _ => rfl
  | .string _ => rfl
  | .array [] => rfl
  | .object [] => rfl
  | .array (item :: items) => by
    rw [tokens, List.cons_append, List.append_assoc, List.foldlM_cons]
    -- The bracket has been taken, and the first item may come.
    change (item.tokens ++ (itemTokens items ++ rest)).foldlM step (.itemOrEnd stack) = _
    rw [foldlM_itemOrEnd, foldlM_tokens item, foldlM_itemTokens items]
    rfl
  | .object ((name, v) :: fields) => by
    rw [tokens, List.cons_append, List.cons_append, List.cons_append, List.append_assoc]
    -- The bracket, the name and the colon have been taken.
    change (v.tokens ++ (fieldTokens fields ++ rest)).foldlM step
      (.value (.object [] name :: stack)) = _
    rw [foldlM_tokens v, foldlM_fieldTokens fields]
    rfl

theorem foldlM_itemTokens (items : List Json) (v : Json) (known : List Json) (stack : List Frame)
    (rest : List Token) :
    (itemTokens items ++ rest).foldlM step (.after v (.array known :: stack)) =
      rest.foldlM step (.after (.array (known.reverse ++ v :: items)) stack) :=
  match items with
  | [] => by
    rw [itemTokens, List.singleton_append, List.foldlM_cons, ← List.reverse_cons]
    rfl
  | item :: items => by
    rw [itemTokens, List.cons_append, List.append_assoc]
    change (item.tokens ++ (itemTokens items ++ rest)).foldlM step
      (.value (.array (v :: known) :: stack)) = _
    rw [foldlM_tokens item, foldlM_itemTokens items]
    simp

theorem foldlM_fieldTokens (fields : List (Option String × Json)) (v : Json) (name : Option String)
    (known : List (Option String × Json)) (stack : List Frame) (rest : List Token) :
    (fieldTokens fields ++ rest).foldlM step (.after v (.object known name :: stack)) =
      rest.foldlM step (.after (.object (known.reverse ++ (name, v) :: fields)) stack) :=
  match fields with
  | [] => by
    rw [fieldTokens, List.singleton_append, List.foldlM_cons, ← List.reverse_cons]
    rfl
  | (name', v') :: fields => by
    rw [fieldTokens, List.cons_append, List.cons_append, List.cons_append, List.append_assoc]
    change (v'.tokens ++ (fieldTokens fields ++ rest)).foldlM step
      (.value (.object ((name, v) :: known) name' :: stack)) = _
    rw [foldlM_tokens v', foldlM_fieldTokens fields]
    simp

end

end ReaderState

theorem ofTokens?_tokens (v : Json) : ofTokens? v.tokens = some v := by
  have hread := ReaderState.foldlM_tokens v [] []
  rw [List.append_nil] at hread
  rw [ofTokens?, hread]
  rfl

/-- A text that is written with the tokens of a value is read as the value. -/
theorem read?_of_written {v : Json} {text : String} (h : Token.Written v.tokens text.toList) :
    read? text = some v := by
  rw [read?, Token.scanAll?_of_written h]
  exact ofTokens?_tokens v

/-! ## The pretty layout -/

mutual

/-- Every number in a value is an integer from `0` to `2 ^ 64 - 1`. -/
def HasWords : Json → Prop
  | .null => True
  | .bool _ => True
  | .number n => n.toWord?.isSome = true
  | .string _ => True
  | .array items => ItemsHaveWords items
  | .object fields => FieldsHaveWords fields

/-- `HasWords` of every item. -/
def ItemsHaveWords : List Json → Prop
  | [] => True
  | item :: items => HasWords item ∧ ItemsHaveWords items

/-- `HasWords` of every value. -/
def FieldsHaveWords : List (Option String × Json) → Prop
  | [] => True
  | (_, v) :: fields => HasWords v ∧ FieldsHaveWords fields

end

namespace Token

variable {ts : List Token} {rest : List Char}

/-- A token that is no number may stand in front of anything. -/
theorem Written.cons {t : Token} {spelling : List Char} (h : Written ts rest)
    (ht : t.Spelled spelling) (hnumber : ∀ n, t ≠ .number n) :
    Written (t :: ts) (spelling ++ rest) :=
  .token ht (fun n heq => absurd heq (hnumber n)) h

theorem Written.newline (h : Written ts rest) (level : Nat) :
    Written ts (newline level ++ rest) := by
  have hblanks : ∀ k, Written ts (List.replicate k ' ' ++ rest) := by
    intro k
    induction k with
    | zero => exact h
    | succ k ih => exact .space rfl ih
  exact .space rfl (hblanks (2 * level))

end Token

/-- Behind an item stands a comma or a new line, and neither goes on with a number. -/
theorem endsNumber_prettyItems (level : Nat) (items : List Json) (rest : List Char) :
    endsNumber (prettyItems level items ++ rest) = true := by
  cases items <;> rw [prettyItems] <;> rfl

theorem endsNumber_prettyFields (level : Nat) (fields : List (Option String × Json))
    (rest : List Char) : endsNumber (prettyFields level fields ++ rest) = true := by
  rcases fields with _ | ⟨⟨name, v⟩, fields⟩ <;> rw [prettyFields] <;> rfl

open Token in
mutual

theorem written_prettyChars (v : Json) (hv : v.HasWords) (level : Nat) {ts : List Token}
    {rest : List Char} (h : Written ts rest) (hend : endsNumber rest = true) :
    Written (v.tokens ++ ts) (prettyChars level v ++ rest) :=
  match v with
  | .null => h.cons .null nofun
  | .bool true => h.cons .isTrue nofun
  | .bool false => h.cons .isFalse nofun
  | .number n => .token (spelled_print hv) (fun _ _ => hend) h
  | .string s => h.cons (spelled_quote s) nofun
  | .array [] => (h.cons .endArray nofun).cons .beginArray nofun
  | .object [] => (h.cons .endObject nofun).cons .beginObject nofun
  | .array (item :: items) => by
    -- The text is put together from its end, since a number has to know what follows it.
    have hitems := written_prettyItems items hv.2 level h
    have hitem := written_prettyChars item hv.1 (level + 1) hitems
      (endsNumber_prettyItems level items rest)
    have hopen := (hitem.newline (level + 1)).cons .beginArray nofun
    simpa [tokens, prettyChars] using hopen
  | .object ((name, v) :: fields) => by
    have hfields := written_prettyFields fields hv.2 level h
    have hvalue := written_prettyChars v hv.1 (level + 1) hfields
      (endsNumber_prettyFields level fields rest)
    have hcolon := (Written.space (c := ' ') rfl hvalue).cons .colon nofun
    have hname := (hcolon.cons (spelled_quote name) nofun).newline (level + 1)
    have hopen := hname.cons .beginObject nofun
    simpa [tokens, prettyChars] using hopen

theorem written_prettyItems (items : List Json) (hitems : ItemsHaveWords items) (level : Nat)
    {ts : List Token} {rest : List Char} (h : Written ts rest) :
    Written (itemTokens items ++ ts) (prettyItems level items ++ rest) :=
  match items with
  | [] => by
    have hclose := (h.cons .endArray nofun).newline level
    simpa [itemTokens, prettyItems] using hclose
  | item :: items => by
    have hrest := written_prettyItems items hitems.2 level h
    have hitem := written_prettyChars item hitems.1 (level + 1) hrest
      (endsNumber_prettyItems level items rest)
    have hcomma := (hitem.newline (level + 1)).cons .comma nofun
    simpa [itemTokens, prettyItems] using hcomma

theorem written_prettyFields (fields : List (Option String × Json))
    (hfields : FieldsHaveWords fields) (level : Nat) {ts : List Token} {rest : List Char}
    (h : Written ts rest) :
    Written (fieldTokens fields ++ ts) (prettyFields level fields ++ rest) :=
  match fields with
  | [] => by
    have hclose := (h.cons .endObject nofun).newline level
    simpa [fieldTokens, prettyFields] using hclose
  | (name, v) :: fields => by
    have hrest := written_prettyFields fields hfields.2 level h
    have hvalue := written_prettyChars v hfields.1 (level + 1) hrest
      (endsNumber_prettyFields level fields rest)
    have hcolon := (Written.space (c := ' ') rfl hvalue).cons .colon nofun
    have hname := (hcolon.cons (spelled_quote name) nofun).newline (level + 1)
    have hcomma := hname.cons .comma nofun
    simpa [fieldTokens, prettyFields] using hcomma

end

theorem written_pretty {v : Json} (hv : v.HasWords) : Token.Written v.tokens v.pretty.toList := by
  have h := written_prettyChars v hv 0 .nil rfl
  simpa [pretty] using h

/-- What is printed is read back. -/
theorem read?_pretty {v : Json} (hv : v.HasWords) : read? v.pretty = some v :=
  read?_of_written (written_pretty hv)

/-! ## Values that encode something -/

theorem itemsHaveWords_iff {items : List Json} :
    ItemsHaveWords items ↔ ∀ item ∈ items, item.HasWords := by
  induction items with
  | nil => simp [ItemsHaveWords]
  | cons item items ih => simp [ItemsHaveWords, ih]

@[simp] theorem hasWords_text (s : String) : (text s).HasWords := trivial

@[simp] theorem hasWords_bool (b : Bool) : (bool b).HasWords := trivial

@[simp] theorem hasWords_nat {n : Nat} : (nat n).HasWords ↔ n < UInt64.size := by
  simp [nat, HasWords, Number.ofNat, Number.toWord?]

@[simp] theorem hasWords_array_map {α : Type} {f : α → Json} {xs : List α} :
    (array (xs.map f)).HasWords ↔ ∀ x ∈ xs, (f x).HasWords := by
  simp [HasWords, itemsHaveWords_iff]

@[simp] theorem hasWords_record {fields : List (String × Json)} :
    (record fields).HasWords ↔ ∀ field ∈ fields, field.2.HasWords := by
  rw [record, HasWords]
  induction fields with
  | nil => simp [FieldsHaveWords]
  | cons field fields ih => simp [FieldsHaveWords, ih]

end LeastPrivilege.Json
