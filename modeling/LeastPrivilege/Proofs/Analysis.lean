import LeastPrivilege.Proofs.Propagation
import LeastPrivilege.Proofs.TextReachability
import Mathlib.Data.String.Basic

/-!
# What the report on a program says

A report has one row for each definition. For the analysed ones it says what the text of the program
says; a definition with an intrinsic name is credited with nothing.
-/

namespace LeastPrivilege

namespace RequirementTable

variable {t : RequirementTable} {name : String} {s : CapabilitySet}

theorem mem_procedures : (name, s) ∈ t.procedures ↔ t[Node.procedure name]? = some s := by
  simp only [procedures, List.mem_filterMap, Prod.exists,
    Std.ExtTreeMap.mem_toList_iff_getElem?_eq_some]
  constructor
  · rintro ⟨n, s', hs, hname⟩
    cases n with
    | procedure name' =>
      obtain ⟨rfl, rfl⟩ : name' = name ∧ s' = s := by simpa [Node.procedure?] using hname
      exact hs
    | unknownCallees => simp [Node.procedure?] at hname
    | unknownCallers => simp [Node.procedure?] at hname
  · intro hs
    exact ⟨.procedure name, s, hs, rfl⟩

/-- The procedures of a table are listed in the order of their names. -/
theorem pairwise_procedures (t : RequirementTable) :
    t.procedures.Pairwise fun x y => x.1 < y.1 := by
  rw [procedures, List.pairwise_filterMap]
  refine Std.ExtTreeMap.ordered_keys_toList.imp ?_
  rintro ⟨n, s⟩ ⟨m, u⟩ hlt x hx y hy
  cases n with
  | procedure a =>
    cases m with
    | procedure b =>
      obtain rfl : (a, s) = x := by simpa [Node.procedure?] using hx
      obtain rfl : (b, u) = y := by simpa [Node.procedure?] using hy
      exact compare_lt_iff_lt.1 hlt
    | unknownCallees => simp [Node.procedure?] at hy
    | unknownCallers => simp [Node.procedure?] at hy
  | unknownCallees => simp [Node.procedure?] at hx
  | unknownCallers => simp [Node.procedure?] at hx

end RequirementTable

namespace CallGraph

theorem mem_externallyCallable {g : CallGraph} {entry name : String} :
    name ∈ g.externallyCallable entry ↔
      name ≠ entry ∧ ∃ site, ⟨.procedure name, site⟩ ∈ g.callees .unknownCallers := by
  simp only [externallyCallable, Std.ExtTreeSet.mem_ofList, List.contains_iff_mem, List.mem_filter,
    List.mem_filterMap, bne_iff_ne]
  constructor
  · rintro ⟨⟨⟨callee, site⟩, he, hname⟩, hentry⟩
    cases callee with
    | procedure f =>
      obtain rfl : f = name := by simpa [Node.procedure?] using hname
      exact ⟨hentry, site, he⟩
    | unknownCallees => simp [Node.procedure?] at hname
    | unknownCallers => simp [Node.procedure?] at hname
  · rintro ⟨hentry, site, he⟩
    exact ⟨⟨_, he, rfl⟩, hentry⟩

/-- The procedures of a program that the graph has entered from outside. -/
theorem mem_externallyCallable_ofProgram {settings : Settings} {p : Program}
    {entry name : String} :
    name ∈ (ofProgram settings p).externallyCallable entry ↔
      name ≠ entry ∧ ∃ d ∈ p.analysed settings, d.name = name ∧ p.IsEntered d := by
  rw [mem_externallyCallable]
  refine and_congr_right fun _ => ?_
  constructor
  · rintro ⟨site, he⟩
    rcases procedure_edge_cases he with ⟨-, hentered⟩ | ⟨d, -, c, -, -, -, hcaller⟩
    · exact hentered
    · simp at hcaller
  · rintro ⟨d, hd, rfl, henter⟩
    exact ⟨none, mem_callees_ofProgram.2 ⟨_, .entered hd henter, rfl⟩⟩

end CallGraph

namespace Report

variable {settings : Settings} {p : Program} {resolver : Resolver} {direct : LocalRequirements}
  {report : Report} {row : Row}

theorem ofProgram_eq_ok :
    ofProgram settings p resolver = .ok report ↔
      ∃ direct, LocalRequirements.ofProgram settings p = .ok direct ∧
        report = ofPropagation p.name settings.entry direct
          (Propagation.run (p.problem settings resolver direct)) := by
  rw [ofProgram, bind_eq_ok]
  refine exists_congr fun direct => and_congr_right fun _ => ?_
  exact ⟨fun h => (Except.ok.inj h).symm, fun h => congrArg Except.ok h.symm⟩

/-- What a row says: the definition that it is about, the set of that definition in the direct
requirements, and what the propagation found for it. -/
theorem row_of_mem (hdirect : LocalRequirements.ofProgram settings p = .ok direct)
    (hrow : row ∈ (ofPropagation p.name settings.entry direct
      (Propagation.run (p.problem settings resolver direct))).rows) :
    (∃ d ∈ p.definitions, d.name = row.name) ∧
      row.direct = direct.procedures.requirement (.procedure row.name) ∧
      (∀ c, c ∈ row.transitive ↔
        (p.problem settings resolver direct).Requires c (.procedure row.name)) ∧
      (row.externallyCallable = true ↔
        row.name ∈ (CallGraph.ofProgram settings p).externallyCallable settings.entry) := by
  obtain ⟨⟨name, s⟩, hmem, rfl⟩ := List.mem_map.1 hrow
  have hs := RequirementTable.mem_procedures.1 hmem
  have hkey : .procedure name ∈ direct.procedures :=
    Std.ExtTreeMap.mem_iff_isSome_getElem?.2 (Option.isSome_of_eq_some hs)
  obtain ⟨d, hd, hname⟩ := (LocalRequirements.mem_procedures_ofProgram hdirect).1 hkey
  have hg : (p.problem settings resolver direct).graph.WellFormed :=
    CallGraph.wellFormed_ofProgram settings p
  obtain ⟨u, hu, hmemu⟩ := Propagation.getElem?_requirements_run hg (Or.inr hkey)
  refine ⟨⟨d, hd, by simpa using hname⟩, ?_, ?_, ?_⟩
  · simp [RequirementTable.requirement, Std.ExtTreeMap.getD_eq_getD_getElem?, hs]
  · simpa [Std.ExtTreeMap.getD_eq_getD_getElem?, hu] using hmemu
  · exact decide_eq_true_iff

theorem map_name_rows (program entry : String) (direct : LocalRequirements) (r : Propagation) :
    (ofPropagation program entry direct r).rows.map Row.name =
      direct.procedures.procedures.map Prod.fst := by
  simp [ofPropagation]

theorem mem_map_name_rows (hdirect : LocalRequirements.ofProgram settings p = .ok direct)
    {program entry name : String} {r : Propagation} :
    name ∈ (ofPropagation program entry direct r).rows.map Row.name ↔
      ∃ d ∈ p.definitions, d.name = name := by
  have hkey : .procedure name ∈ direct.procedures ↔ ∃ d ∈ p.definitions, d.name = name := by
    simp [LocalRequirements.mem_procedures_ofProgram hdirect]
  rw [map_name_rows, ← hkey, Std.ExtTreeMap.mem_iff_isSome_getElem?, Option.isSome_iff_exists]
  simp [RequirementTable.mem_procedures]

/-- In a program that passes its check, the direct set of a definition is what it handles. -/
theorem mem_requirement_iff_handles (hcheck : p.check = .ok ())
    (hdirect : LocalRequirements.ofProgram settings p = .ok direct) {d : Procedure}
    (hd : d ∈ p.definitions) {c : Capability} :
    c ∈ direct.procedures.requirement (.procedure d.name) ↔ d.Handles settings c := by
  rw [LocalRequirements.mem_requirement_ofProgram hdirect]
  constructor
  · rintro ⟨e, he, hname, hhandles⟩
    obtain rfl := Program.eq_of_check hcheck (Program.mem_definitions.1 he).1
      (Program.mem_definitions.1 hd).1 hname
    exact hhandles
  · intro hhandles
    exact ⟨d, hd, rfl, hhandles⟩

/-- In a program that passes its check, an analysed definition is entered from outside just if its
text says so. -/
theorem mem_externallyCallable_iff_isEntered (hcheck : p.check = .ok ()) {d : Procedure}
    (hd : d ∈ p.analysed settings) :
    d.name ∈ (CallGraph.ofProgram settings p).externallyCallable settings.entry ↔
      d.name ≠ settings.entry ∧ p.IsEntered d := by
  rw [CallGraph.mem_externallyCallable_ofProgram]
  refine and_congr_right fun _ => ?_
  constructor
  · rintro ⟨e, he, hname, henter⟩
    obtain rfl := Program.eq_of_check hcheck
      (Program.mem_definitions.1 (Program.mem_analysed.1 he).1).1
      (Program.mem_definitions.1 (Program.mem_analysed.1 hd).1).1 hname
    exact henter
  · intro henter
    exact ⟨d, hd, rfl, henter⟩

/-- A definition with an intrinsic name is credited with nothing, not even with what it handles
itself. -/
theorem transitive_of_intrinsic (hreport : ofProgram settings p resolver = .ok report)
    (hrow : row ∈ report.rows) (hname : row.name ∈ settings.intrinsics) : row.transitive = ∅ := by
  obtain ⟨direct, hdirect, rfl⟩ := ofProgram_eq_ok.1 hreport
  obtain ⟨-, -, htransitive, -⟩ := row_of_mem hdirect hrow
  apply CapabilitySet.ext
  intro c
  -- The direct requirements have an entry under the name, but the graph has no node for it.
  rw [htransitive]
  exact iff_of_false (Program.not_requires_intrinsic hname) (CapabilitySet.not_mem_empty c)

/-- An analysed definition is credited with what it handles itself. -/
theorem direct_subset_of_not_intrinsic (hreport : ofProgram settings p resolver = .ok report)
    (hrow : row ∈ report.rows) (hname : row.name ∉ settings.intrinsics) :
    row.direct ⊆ row.transitive := by
  obtain ⟨direct, hdirect, rfl⟩ := ofProgram_eq_ok.1 hreport
  obtain ⟨-, hown, htransitive, -⟩ := row_of_mem hdirect hrow
  intro c hc
  rw [hown, LocalRequirements.mem_requirement_ofProgram hdirect] at hc
  obtain ⟨e, he, hename, hhandles⟩ := hc
  rw [htransitive, ← hename]
  have hanalysed : e ∈ p.analysed settings := Program.mem_analysed.2 ⟨he, hename ▸ hname⟩
  exact ((Program.owns_iff hdirect).2 ⟨e, hanalysed, rfl, hhandles⟩).requires

/-- A report is given whenever the extraction succeeds, and it says of the analysed definitions what
the text of the program says: what each handles itself, what is handled where control can come from
it, and whether it is entered from outside. Of the code outside it says what is handled where
control can come from there. -/
theorem ofProgram_reads_text (settings : Settings) (p : Program) (resolver : Resolver)
    (direct : LocalRequirements) (hcheck : p.check = .ok ())
    (hdirect : LocalRequirements.ofProgram settings p = .ok direct) :
    ∃ report, ofProgram settings p resolver = .ok report ∧
      report.program = p.name ∧ report.entry = settings.entry ∧
      (report.rows.map Row.name).Pairwise (· < ·) ∧
      (∀ name, name ∈ report.rows.map Row.name ↔ ∃ d ∈ p.definitions, d.name = name) ∧
      (∀ row ∈ report.rows, ∀ d ∈ p.analysed settings, d.name = row.name →
        (∀ c, c ∈ row.direct ↔ d.Handles settings c) ∧
        (∀ c, c ∈ row.transitive ↔ ∃ e ∈ p.analysed settings,
          Relation.ReflTransGen (p.Leads settings resolver) (.inside d.name) (.inside e.name) ∧
            e.Handles settings c) ∧
        (row.externallyCallable = true ↔ d.name ≠ settings.entry ∧ p.IsEntered d)) ∧
      (∀ c, c ∈ report.unknownCallees ↔ ∃ e ∈ p.analysed settings,
        Relation.ReflTransGen (p.Leads settings resolver) .outside (.inside e.name) ∧
          e.Handles settings c) ∧
      (∀ c, c ∈ report.unknownCallers ↔ ∃ e ∈ p.analysed settings,
        Relation.ReflTransGen (p.Leads settings resolver) .outside (.inside e.name) ∧
          e.Handles settings c) := by
  have hg : (p.problem settings resolver direct).graph.WellFormed :=
    CallGraph.wellFormed_ofProgram settings p
  refine ⟨_, ofProgram_eq_ok.2 ⟨direct, hdirect, rfl⟩, rfl, rfl, ?_, ?_, ?_, ?_, ?_⟩
  · rw [map_name_rows, List.pairwise_map]
    exact direct.procedures.pairwise_procedures
  · intro name
    exact mem_map_name_rows hdirect
  · intro row hrow d hd hname
    obtain ⟨-, hown, htransitive, hcallable⟩ := row_of_mem hdirect hrow
    rw [← hname] at hown htransitive hcallable
    refine ⟨fun c => ?_, fun c => ?_, ?_⟩
    · rw [hown, mem_requirement_iff_handles hcheck hdirect (Program.mem_analysed.1 hd).1]
    · exact (htransitive c).trans (Program.requires_inside_iff hcheck hdirect hd)
    · exact hcallable.trans (mem_externallyCallable_iff_isEntered hcheck hd)
  · intro c
    exact (Propagation.mem_unknownCallees_run hg).trans
      (Program.requires_unknownCallees_iff hcheck hdirect)
  · intro c
    exact (Propagation.mem_unknownCallers_run hg).trans
      (Program.requires_unknownCallers_iff hcheck hdirect)

/-- An entry that calls a helper. -/
def sampleEntry : Procedure where
  name := "main"
  blocks := [⟨"entry", [.call (.direct "helper" []), .ret]⟩]

/-- A helper that raises a capability. -/
def sampleHelper : Procedure where
  name := "helper"
  linkage := .internal
  blocks := [⟨"entry", [.call (.direct "priv_raise" [.i32 1, .i32 21]), .ret]⟩]

/-- A procedure that raises a capability under the name of a routine of the counter. -/
def sampleShadow : Procedure where
  name := "atexit"
  blocks := [⟨"entry", [.call (.direct "priv_raise" [.i32 1, .i32 25]), .ret]⟩]

/-- The program of these three. -/
def sample : Program where
  name := "sample"
  procedures := [sampleEntry, sampleHelper, sampleShadow]

/-- The entry of the sample is credited with what its helper raises. -/
theorem ofProgram_reads_text_sample :
    ∃ report, ofProgram {} sample .unknown = .ok report ∧
      ∃ row ∈ report.rows, row.name = "main" ∧ .sysAdmin ∈ row.transitive ∧
        row.externallyCallable = false := by
  obtain ⟨direct, hdirect⟩ : ∃ direct, LocalRequirements.ofProgram {} sample = .ok direct :=
    ⟨_, rfl⟩
  obtain ⟨report, hreport, -, -, -, hnames, hrows, -, -⟩ :=
    ofProgram_reads_text {} sample .unknown direct (by decide) hdirect
  have hentry : sampleEntry ∈ sample.analysed {} := by decide
  have hhelper : sampleHelper ∈ sample.analysed {} := by decide
  obtain ⟨row, hrow, hname⟩ := List.mem_map.1
    ((hnames "main").2 ⟨sampleEntry, (Program.mem_analysed.1 hentry).1, rfl⟩)
  obtain ⟨-, htransitive, hcallable⟩ := hrows row hrow sampleEntry hentry hname.symm
  have hcall : sample.Leads {} .unknown (.inside "main") (.inside "helper") :=
    .call hentry (c := .direct "helper" []) (by decide) rfl (by decide) (by decide)
      ⟨sampleHelper, hhelper, rfl⟩
  have hraises : sampleHelper.Handles {} .sysAdmin :=
    ⟨_, List.mem_singleton_self _, .direct "priv_raise" [.i32 1, .i32 21], by decide, by decide,
      .single .sysAdmin, by decide, by decide⟩
  refine ⟨report, hreport, row, hrow, hname, ?_, ?_⟩
  · exact (htransitive .sysAdmin).2 ⟨sampleHelper, hhelper, .single hcall, hraises⟩
  · rw [← Bool.not_eq_true, hcallable]
    exact fun h => h.1 rfl

/-- The row of a definition has its direct set within the transitive one, unless its name is
intrinsic: then the transitive set is empty, and only an empty direct set is within it. -/
theorem direct_subset_transitive_iff (settings : Settings) (p : Program) (resolver : Resolver)
    (report : Report) (row : Row) (hreport : ofProgram settings p resolver = .ok report)
    (hrow : row ∈ report.rows) :
    (row.direct ⊆ row.transitive ↔ row.name ∉ settings.intrinsics ∨ row.direct = ∅) ∧
      (row.name ∈ settings.intrinsics → row.transitive = ∅) := by
  refine ⟨⟨fun hsub => ?_, ?_⟩, transitive_of_intrinsic hreport hrow⟩
  · by_cases hname : row.name ∈ settings.intrinsics
    · rw [transitive_of_intrinsic hreport hrow hname] at hsub
      refine Or.inr (CapabilitySet.ext fun c => ⟨hsub c, ?_⟩)
      intro hc
      exact absurd hc (CapabilitySet.not_mem_empty c)
    · exact Or.inl hname
  · rintro (hname | hempty)
    · exact direct_subset_of_not_intrinsic hreport hrow hname
    · rw [hempty]
      intro c hc
      exact absurd hc (CapabilitySet.not_mem_empty c)

/-- The report on the sample. -/
def sampleReport : Report where
  program := "sample"
  entry := "main"
  iterations := 2
  rows :=
    [⟨"atexit", .single .sysTime, ∅, false⟩,
      ⟨"helper", .single .sysAdmin, .single .sysAdmin, false⟩,
      ⟨"main", ∅, .single .sysAdmin, false⟩]
  unknownCallees := ∅
  unknownCallers := ∅

theorem ofProgram_sample : ofProgram {} sample .unknown = .ok sampleReport := by
  decide +kernel

theorem direct_subset_transitive_iff_sample :
    (∃ row ∈ sampleReport.rows, row.name = "helper" ∧ row.direct ⊆ row.transitive) ∧
      ∃ row ∈ sampleReport.rows, row.name = "atexit" ∧ ¬row.direct ⊆ row.transitive := by
  constructor
  · refine ⟨⟨"helper", .single .sysAdmin, .single .sysAdmin, false⟩, by decide, rfl, ?_⟩
    exact (direct_subset_transitive_iff {} sample .unknown sampleReport _ ofProgram_sample
      (by decide)).1.2 (Or.inl (by decide))
  · refine ⟨⟨"atexit", .single .sysTime, ∅, false⟩, by decide, rfl, ?_⟩
    rw [(direct_subset_transitive_iff {} sample .unknown sampleReport _ ofProgram_sample
      (by decide)).1]
    decide

/-- A definition that takes the name of a routine loses what it raises itself. -/
theorem not_direct_subset_transitive :
    ¬∀ (settings : Settings) (p : Program) (resolver : Resolver) (report : Report),
      p.check = .ok () → ofProgram settings p resolver = .ok report →
        ∀ row ∈ report.rows, row.direct ⊆ row.transitive := by
  intro h
  have hrow := h {} sample .unknown sampleReport (by decide) ofProgram_sample
    ⟨"atexit", .single .sysTime, ∅, false⟩ (by decide)
  exact absurd hrow (by decide)

end Report

end LeastPrivilege
