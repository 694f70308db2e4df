import LeastPrivilege.Loading
import LeastPrivilege.Proofs.JsonFields
import LeastPrivilege.Proofs.JsonText

/-!
# Programs and their texts

Each part of a program is decoded from the JSON value that it is encoded as. Together with the
layout, which is read back as the value, this makes the text of a program stand for the program: it
is loaded as it was, or refused for the reason for which the check refuses it.
-/

namespace LeastPrivilege

namespace Json

/-! ## Decoding what was encoded -/

/-- The fields of a record are found by name, if no two share one. -/
theorem toFields?_record {names : List String} {fields : List (String × Json)}
    (hnodup : (fields.map Prod.fst).Nodup) (hknown : ∀ field ∈ fields, field.1 ∈ names) :
    (record fields).toFields? names = some fields := by
  have hfilter : fields.filter (fun field => names.contains field.1) = fields := by
    rw [List.filter_eq_self]
    intro field hfield
    simpa using hknown field hfield
  exact toFields?_object_eq_some_iff.2
    ⟨hasNames_iff.2 ⟨fields, rfl⟩, (filterMap_known?_map names fields).trans hfilter, hnodup⟩

theorem toVariant?_record (name : String) (v : Json) :
    (record [(name, v)]).toVariant? = some (name, v) :=
  rfl

theorem toList?_map {α : Type} {decode : Json → Option α} {encode : α → Json} {xs : List α}
    (h : ∀ x ∈ xs, decode (encode x) = some x) :
    toList? decode (array (xs.map encode)) = some xs := by
  rw [toList?, List.mapM_map]
  induction xs with
  | nil => rfl
  | cons x xs ih =>
    rw [List.mapM_cons, Function.comp_apply, h x List.mem_cons_self,
      ih fun y hy => h y (List.mem_cons_of_mem _ hy)]
    rfl

theorem toWord?_nat (w : UInt64) : (nat w.toNat).toWord? = some w :=
  Number.toWord?_ofNat w

theorem toWord32?_nat (w : UInt32) : (nat w.toNat).toWord32? = some w := by
  have hword : (nat w.toNat).toWord? = some w.toUInt64 := by
    rw [← toWord?_nat, UInt32.toNat_toUInt64]
  simp [toWord32?, hword, w.toNat_lt]

theorem toWord8?_nat (w : UInt8) : (nat w.toNat).toWord8? = some w := by
  have hword : (nat w.toNat).toWord? = some w.toUInt64 := by
    rw [← toWord?_nat, UInt8.toNat_toUInt64]
  simp [toWord8?, hword, w.toNat_lt]

/-! ## Sound values -/

@[simp] theorem isSound_text (depth : Nat) (s : String) : isSound depth (text s) = true := by
  simp [text, isSound]

@[simp] theorem isSound_nat {depth n : Nat} (h : n < UInt64.size) :
    isSound depth (nat n) = true := by
  simp [nat, isSound, Number.ofNat, Number.toWord?, h]

theorem isSound_array_iff {depth : Nat} {items : List Json} :
    isSound depth (array items) = true ↔
      ∃ inner, depth = inner + 1 ∧ ∀ item ∈ items, isSound inner item = true := by
  have hitems : ∀ inner,
      areSound inner items = true ↔ ∀ item ∈ items, isSound inner item = true := by
    intro inner
    induction items with
    | nil => simp [areSound]
    | cons item items ih => simp [areSound, ih]
  cases depth with
  | zero => simp [isSound]
  | succ depth => simp [isSound, hitems]

theorem isSound_object_iff {depth : Nat} {fields : List (Option String × Json)} :
    isSound depth (object fields) = true ↔
      ∃ inner, depth = inner + 1 ∧
        ∀ field ∈ fields, field.1.isSome = true ∧ isSound inner field.2 = true := by
  have hfields : ∀ inner, areSoundFields inner fields = true ↔
      ∀ field ∈ fields, field.1.isSome = true ∧ isSound inner field.2 = true := by
    intro inner
    induction fields with
    | nil => simp [areSoundFields]
    | cons field fields ih => simp [areSoundFields, ih]
  cases depth with
  | zero => simp [isSound]
  | succ depth => simp [isSound, hfields]

@[simp] theorem isSound_array_map {α : Type} {f : α → Json} {xs : List α} {depth : Nat} :
    isSound (depth + 1) (array (xs.map f)) = true ↔ ∀ x ∈ xs, isSound depth (f x) = true := by
  simp [isSound_array_iff]

@[simp] theorem isSound_record {fields : List (String × Json)} {depth : Nat} :
    isSound (depth + 1) (record fields) = true ↔
      ∀ field ∈ fields, isSound depth field.2 = true := by
  rw [record, isSound_object_iff]
  simp only [List.forall_mem_map]
  simp

end Json

/-! ## The parts of a program -/

theorem ValueType.ofJson?_toJson (t : ValueType) : ofJson? t.toJson = some t := by
  cases t <;> rfl

theorem Linkage.ofJson?_toJson (l : Linkage) : ofJson? l.toJson = some l := by
  cases l <;> rfl

theorem Signature.ofJson?_toJson (s : Signature) : ofJson? s.toJson = some s := by
  have hparams : Json.toList? ValueType.ofJson? (.array (s.params.map ValueType.toJson)) =
      some s.params := Json.toList?_map fun t _ => t.ofJson?_toJson
  rw [ofJson?, toJson, Json.toFields?_record (by simp) (by simp)]
  simp [Json.fieldOr?, List.lookup_cons, hparams, ValueType.ofJson?_toJson, Json.toBool?]

theorem Operand.ofJson?_toJson (x : Operand) : ofJson? x.toJson = some x := by
  cases x with
  | literal width n =>
    rw [ofJson?, toJson, Json.toVariant?_record]
    simp only [Option.bind_eq_bind, Option.bind_some]
    rw [Json.toFields?_record (by simp) (by simp)]
    simp [Json.field?, List.lookup_cons, Json.toWord8?_nat, Json.toWord?_nat]
  | procedure name => rfl
  | value name => rfl

theorem Callee.ofJson?_toJson (c : Callee) : ofJson? c.toJson = some c := by
  cases c with
  | direct name => rfl
  | indirect site =>
    rw [ofJson?, toJson, Json.toVariant?_record]
    simp only [Option.bind_eq_bind, Option.bind_some]
    rw [Json.toFields?_record (by simp) (by simp)]
    simp [Json.field?, Json.toWord32?_nat]

theorem Call.ofJson?_toJson (c : Call) : ofJson? c.toJson = some c := by
  have hargs : Json.toList? Operand.ofJson? (.array (c.args.map Operand.toJson)) = some c.args :=
    Json.toList?_map fun x _ => x.ofJson?_toJson
  rw [ofJson?, toJson, fields, Json.toFields?_record (by simp) (by simp)]
  simp [Json.field?, Json.fieldOr?, List.lookup_cons, hargs, Callee.ofJson?_toJson]

namespace Operation

/-- The object that is left when the kind of an operation is taken off. -/
def withoutKind (fields : List (Option String × Json)) : Json :=
  .object (fields.filter fun field => field.1 != some "op")

/-- An object names a kind if it does so once. -/
theorem split?_eq_some_iff {fields : List (Option String × Json)} {kind : String} {body : Json} :
    split? (.object fields) = some (kind, body) ↔
      Json.under fields "op" = [.text kind] ∧ withoutKind fields = body := by
  rw [split?, List.partition_eq_filter_filter, Json.under]
  change _ ↔ _ ∧ Json.object (fields.filter (not ∘ fun field => field.1 == some "op")) = body
  generalize fields.filter (fun field => field.1 == some "op") = kinds
  rcases kinds with _ | ⟨⟨_, v⟩, _ | ⟨_, _⟩⟩
  · simp
  · cases v <;> simp [Json.toText?, Json.text]
  · simp

/-- The field `op` is taken off a record that has it in front. -/
theorem split?_record {kind : String} {fields : List (String × Json)}
    (h : ∀ field ∈ fields, field.1 ≠ "op") :
    split? (.record (("op", .text kind) :: fields)) = some (kind, .record fields) := by
  have hothers : ∀ field ∈ fields.map fun field => (some field.1, field.2),
      field.1 ≠ some "op" := by
    intro field hfield
    obtain ⟨f, hf, rfl⟩ := List.mem_map.1 hfield
    simpa using h f hf
  refine split?_eq_some_iff.2 ⟨?_, ?_⟩
  · have hnone : Json.under (fields.map fun field => (some field.1, field.2)) "op" = [] := by
      rw [Json.under, List.map_eq_nil_iff, List.filter_eq_nil_iff]
      exact fun field hfield => by simpa using hothers field hfield
    rw [List.map_cons, Json.under_cons_self, hnone]
  · rw [withoutKind, List.map_cons, List.filter_cons_of_neg (by simp), List.filter_eq_self.2]
    · rfl
    · exact fun field hfield => by simpa using hothers field hfield

theorem ofJson?_toJson (op : Operation) : ofJson? op.toJson = some op := by
  cases op with
  | phi => rfl
  | ret => rfl
  | unreachable => rfl
  | call c =>
    rw [ofJson?, toJson, split?_record (by simp [Call.fields])]
    have hcall := c.ofJson?_toJson
    rw [Call.toJson] at hcall
    simp [hcall]
  | other opcode =>
    rw [ofJson?, toJson, split?_record (by simp)]
    simp only [Option.bind_eq_bind, Option.bind_some]
    rw [Json.toFields?_record (by simp) (by simp)]
    simp [Json.field?, Json.text, Json.toText?]
  | branch targets =>
    have htargets : Json.toList? Json.toText? (.texts targets) = some targets :=
      Json.toList?_map fun _ _ => rfl
    rw [ofJson?, toJson, split?_record (by simp)]
    simp only [Option.bind_eq_bind, Option.bind_some]
    rw [Json.toFields?_record (by simp) (by simp)]
    simp [Json.fieldOr?, htargets]

/-- An operation is nested four deep at most, and its numbers fit 64 bits. -/
theorem isSound_toJson (op : Operation) (depth : Nat) :
    op.toJson.isSound (depth + 4) = true ∧ op.toJson.HasWords := by
  have hoperand : ∀ x : Operand, x.toJson.isSound (depth + 2) = true ∧ x.toJson.HasWords := by
    intro x
    cases x with
    | literal width n =>
      have hwidth : width.toNat < UInt64.size := Nat.lt_trans width.toNat_lt (by decide)
      simp [Operand.toJson, hwidth, n.toNat_lt]
    | procedure name => simp [Operand.toJson]
    | value name => simp [Operand.toJson]
  have hcallee : ∀ c : Callee, c.toJson.isSound (depth + 3) = true ∧ c.toJson.HasWords := by
    intro c
    cases c with
    | direct name => simp [Callee.toJson]
    | indirect site =>
      have hsite : site.toNat < UInt64.size := Nat.lt_trans site.toNat_lt (by decide)
      simp [Callee.toJson, hsite]
  cases op with
  | call c => simp [toJson, Call.fields, hcallee, hoperand]
  | _ => simp [toJson, Json.texts]

theorem ofSound?_toJson (op : Operation) : ofSound? op.toJson = some op := by
  have hsound : op.toJson.isSound depthLimit = true := (op.isSound_toJson 117).1
  rw [ofSound?, hsound, op.ofJson?_toJson]
  rfl

end Operation

theorem Block.ofJson?_toJson (b : Block) : ofJson? b.toJson = some b := by
  have hops : Json.toList? Operation.ofSound? (.array (b.operations.map Operation.toJson)) =
      some b.operations := Json.toList?_map fun op _ => op.ofSound?_toJson
  rw [ofJson?, toJson, Json.toFields?_record (by simp) (by simp)]
  simp [Json.field?, Json.fieldOr?, List.lookup_cons, hops, Json.text, Json.toText?]

theorem Procedure.ofJson?_toJson (d : Procedure) : ofJson? d.toJson = some d := by
  have hblocks : Json.toList? Block.ofJson? (.array (d.blocks.map Block.toJson)) = some d.blocks :=
    Json.toList?_map fun b _ => b.ofJson?_toJson
  rw [ofJson?, toJson, Json.toFields?_record (by simp) (by simp)]
  simp [Json.field?, Json.fieldOr?, List.lookup_cons, hblocks, Signature.ofJson?_toJson,
    Linkage.ofJson?_toJson, Json.text, Json.toText?]

namespace Program

theorem ofJson?_toJson (p : Program) : ofJson? p.toJson = some p := by
  have hprocedures : Json.toList? Procedure.ofJson? (.array (p.procedures.map Procedure.toJson)) =
      some p.procedures := Json.toList?_map fun d _ => d.ofJson?_toJson
  rw [ofJson?, toJson, Json.toFields?_record (by simp) (by simp)]
  simp [Json.fieldOr?, List.lookup_cons, hprocedures, Json.text, Json.toText?]

theorem hasWords_toJson (p : Program) : p.toJson.HasWords := by
  have htype : ∀ t : ValueType, t.toJson.HasWords := fun t => Json.hasWords_text t.name
  have hlinkage : ∀ l : Linkage, l.toJson.HasWords := by
    intro l
    cases l <;> exact Json.hasWords_text _
  have hop : ∀ op : Operation, op.toJson.HasWords := fun op => (op.isSound_toJson 0).2
  simp [toJson, Procedure.toJson, Signature.toJson, Block.toJson, htype, hlinkage, hop]

/-- The text of a program is a JSON text of the value that the program is encoded as. Loading it
gives back the program if the check accepts it, and otherwise the error of the check. -/
theorem ofText_print (p : Program) :
    Json.Token.Written p.toJson.tokens p.print.toList ∧
      ofText p.print = match p.check with
        | .ok _ => .ok p
        | .error e => .error (.rejected e) := by
  refine ⟨Json.written_pretty p.hasWords_toJson, ?_⟩
  have hread : Json.read? p.print = some p.toJson := Json.read?_pretty p.hasWords_toJson
  have hload : loadJson .program ofJson? p.print = .ok p := by
    rw [loadJson, hread, Option.bind_some, p.ofJson?_toJson]
  rw [ofText, hload]
  rfl

end Program

end LeastPrivilege
