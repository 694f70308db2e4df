import LeastPrivilege.Proofs.ProgramText
import LeastPrivilege.Proofs.Spellings
import LeastPrivilege.Report

/-!
# Reports and their texts

A report is decoded from the JSON value that it is encoded as. Names and texts are strings of the
value and go through its layout; a set goes through the list of its names, and each name has to be
parsed as the capability that it was written for. So the text of a report stands for the report.
-/

namespace LeastPrivilege

/-! ## Sets in a report -/

theorem Capability.standsFor_name (c : Capability) : StandsFor (.text c.name) c :=
  .spelling (Text.trimmed_iff.2 rfl) (parse_eq_iff.1 c.parse_name)

theorem CapabilitySet.ofJson?_toJson (s : CapabilitySet) : ofJson? s.toJson = some s := by
  have hnames : List.Forall₂ Capability.StandsFor (s.names.map Json.text) s.toList := by
    rw [names, List.forall₂_map_left_iff, List.forall₂_map_left_iff]
    exact List.forall₂_same.2 fun c _ => c.standsFor_name
  rw [ofJson?, toOption_eq_some]
  exact decode_eq_ok_iff.2 ⟨s.names.map Json.text, s.toList, rfl, hnames, fun _ => mem_toList.symm⟩

theorem CapabilitySet.hasWords_toJson (s : CapabilitySet) : s.toJson.HasWords := by
  simp [toJson, Json.texts]

namespace Report

/-! ## Rows and reports -/

theorem Row.ofJson?_toJson (r : Row) : ofJson? r.toJson = some r := by
  rw [ofJson?, toJson, Json.toFields?_record (by simp) (by simp)]
  simp [Json.field?, List.lookup_cons, CapabilitySet.ofJson?_toJson, Json.text, Json.toText?,
    Json.toBool?]

theorem ofJson?_toJson (r : Report) : ofJson? r.toJson = some r := by
  have hrows : Json.toList? Row.ofJson? (.array (r.rows.map Row.toJson)) = some r.rows :=
    Json.toList?_map fun row _ => row.ofJson?_toJson
  rw [ofJson?, toJson, Json.toFields?_record (by simp) (by simp)]
  simp [Json.field?, List.lookup_cons, hrows, CapabilitySet.ofJson?_toJson, Json.toWord?_nat,
    Json.text, Json.toText?]

/-- The only number in a report is the number of its iterations, a word of 64 bits. -/
theorem hasWords_toJson (r : Report) : r.toJson.HasWords := by
  have hrow : ∀ row : Row, row.toJson.HasWords := by
    intro row
    simp [Row.toJson, CapabilitySet.hasWords_toJson]
  simp [toJson, hrow, CapabilitySet.hasWords_toJson, r.iterations.toNat_lt]

/-- The text of a report is a JSON text of the value that the report is encoded as, and decoding it
gives back the report. -/
theorem decode_print (r : Report) :
    Json.Token.Written r.toJson.tokens r.print.toList ∧
      (Json.read? r.print).bind ofJson? = some r := by
  have hread : Json.read? r.print = some r.toJson := Json.read?_pretty r.hasWords_toJson
  refine ⟨Json.written_pretty r.hasWords_toJson, ?_⟩
  rw [hread, Option.bind_some, r.ofJson?_toJson]

end Report

end LeastPrivilege
