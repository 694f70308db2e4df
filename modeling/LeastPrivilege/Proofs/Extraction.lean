import LeastPrivilege.Proofs.Results
import LeastPrivilege.Proofs.Tables
import LeastPrivilege.Requirement.Local

/-!
# Extraction finds what a definition handles

What a definition requires itself, as the extraction has it, is what the calls in its text raise or
lower.
-/

namespace LeastPrivilege

variable {settings : Settings} {p : Program} {r : LocalRequirements} {c : Capability}
  {name : String}

/-- A definition raises or lowers a capability: a call of a primitive in one of its blocks passes
it. -/
def Procedure.Handles (settings : Settings) (d : Procedure) (c : Capability) : Prop :=
  ∃ b ∈ d.blocks, ∃ call ∈ b.calls, LocalRequirements.isPrimitive settings call = true ∧
    ∃ s, call.capabilities ⟨d.name, b.label⟩ = .ok s ∧ c ∈ s

theorem Program.mem_callSites {site : BlockRef} {call : Call} :
    (site, call) ∈ p.callSites ↔
      ∃ d ∈ p.definitions, ∃ b ∈ d.blocks,
        call ∈ b.calls ∧ (⟨d.name, b.label⟩ : BlockRef) = site := by
  simp only [Program.callSites, List.mem_flatMap, List.mem_map, Prod.mk.injEq]
  constructor
  · rintro ⟨d, hd, b, hb, call', hcall, hsite, rfl⟩
    exact ⟨d, hd, b, hb, hcall, hsite⟩
  · rintro ⟨d, hd, b, hb, hcall, hsite⟩
    exact ⟨d, hd, b, hb, call, hcall, hsite, rfl⟩

namespace LocalRequirements

theorem isPrimitive_direct_eq_false {args : List Operand} (hraise : settings.raisePrimitive ≠ name)
    (hlower : settings.lowerPrimitive ≠ name) :
    isPrimitive settings (.direct name args) = false := by
  simp [isPrimitive, Call.calls, Call.target?, Call.direct, hraise.symm, hlower.symm]

theorem mem_of_setsOfCalls {test : Call → Bool} {sets : List (BlockRef × CapabilitySet)}
    (h : setsOfCalls p test = .ok sets) {site : BlockRef} {s : CapabilitySet} :
    (site, s) ∈ sets ↔
      ∃ call, (site, call) ∈ p.callSites ∧ test call = true ∧ call.capabilities site = .ok s := by
  rw [mem_of_mapM_eq_ok h]
  constructor
  · rintro ⟨⟨site', call⟩, hmem, hs⟩
    obtain ⟨hmem, htest⟩ := List.mem_filter.1 hmem
    obtain ⟨s', hs', heq⟩ := map_eq_ok.1 hs
    obtain ⟨rfl, rfl⟩ : site' = site ∧ s' = s := by simpa using heq
    exact ⟨call, hmem, htest, hs'⟩
  · rintro ⟨call, hmem, htest, hs⟩
    exact ⟨(site, call), List.mem_filter.2 ⟨hmem, htest⟩, map_eq_ok.2 ⟨s, hs, rfl⟩⟩

/-- The sets of the calls that pass a test can be had if all these calls name one. -/
theorem exists_setsOfCalls_eq_ok_iff {test : Call → Bool} :
    (∃ sets, setsOfCalls p test = .ok sets) ↔ ∀ d ∈ p.definitions, ∀ b ∈ d.blocks, ∀ c ∈ b.calls,
      test c = true → ∃ s, c.capabilities ⟨d.name, b.label⟩ = .ok s := by
  rw [setsOfCalls, exists_mapM_eq_ok_iff]
  constructor
  · intro h d hd b hb c hc htest
    have hsite := Program.mem_callSites.2 ⟨d, hd, b, hb, hc, rfl⟩
    obtain ⟨_, hfound⟩ := h _ (List.mem_filter.2 ⟨hsite, htest⟩)
    obtain ⟨s, hs, -⟩ := map_eq_ok.1 hfound
    exact ⟨s, hs⟩
  · rintro h ⟨site, c⟩ hsite
    obtain ⟨hsite, htest⟩ := List.mem_filter.1 hsite
    obtain ⟨d, hd, b, hb, hc, rfl⟩ := Program.mem_callSites.1 hsite
    obtain ⟨s, hs⟩ := h d hd b hb c hc htest
    exact ⟨_, map_eq_ok.2 ⟨s, hs, rfl⟩⟩

theorem procedures_foldl_add (sets : List (BlockRef × CapabilitySet)) (r : LocalRequirements) :
    (sets.foldl (fun r site => r.add site.1 site.2) r).procedures =
      sets.foldl (fun t site => t.add (.procedure site.1.procedure) site.2) r.procedures := by
  induction sets generalizing r with
  | nil => rfl
  | cons site sets ih => exact ih (r.add site.1 site.2)

/-- The table before any call is looked at: every definition, with the empty set. -/
def blank (p : Program) : RequirementTable :=
  p.definitions.foldl (fun t d => t.add (.procedure d.name) ∅) ∅

theorem ofProgram_eq_ok (h : ofProgram settings p = .ok r) :
    ∃ sets, setsOfCalls p (isPrimitive settings) = .ok sets ∧
      r = sets.foldl (fun r site => r.add site.1 site.2) { procedures := blank p } := by
  obtain ⟨sets, hsets, h⟩ := bind_eq_ok.1 h
  exact ⟨sets, hsets, (Except.ok.inj h).symm⟩

/-- The table has the names of the definitions. -/
theorem mem_procedures_ofProgram (h : ofProgram settings p = .ok r) {n : Node} :
    n ∈ r.procedures ↔ ∃ d ∈ p.definitions, Node.procedure d.name = n := by
  obtain ⟨sets, hsets, hr⟩ := ofProgram_eq_ok h
  have hblank : n ∈ blank p ↔ ∃ d ∈ p.definitions, Node.procedure d.name = n := by
    simp [blank, RequirementTable.mem_foldl_add]
  rw [hr, procedures_foldl_add, RequirementTable.mem_foldl_add, hblank, or_iff_left_of_imp]
  rintro ⟨⟨site, s⟩, hsite, rfl⟩
  obtain ⟨call, hcall, -, -⟩ := (mem_of_setsOfCalls hsets).1 hsite
  obtain ⟨d, hd, b, -, -, rfl⟩ := Program.mem_callSites.1 hcall
  exact ⟨d, hd, rfl⟩

/-- The set of a name is what the definitions of that name handle. -/
theorem mem_requirement_ofProgram (h : ofProgram settings p = .ok r) :
    c ∈ r.procedures.requirement (.procedure name) ↔
      ∃ d ∈ p.definitions, d.name = name ∧ d.Handles settings c := by
  obtain ⟨sets, hsets, hr⟩ := ofProgram_eq_ok h
  have hblank : c ∉ (blank p).requirement (.procedure name) := by
    simp [blank, RequirementTable.mem_requirement_foldl_add,
      RequirementTable.requirement_of_not_mem]
  rw [hr, procedures_foldl_add, RequirementTable.mem_requirement_foldl_add, or_iff_right hblank]
  constructor
  · rintro ⟨⟨site, s⟩, hsite, hname, hc⟩
    obtain ⟨call, hmem, htest, hs⟩ := (mem_of_setsOfCalls hsets).1 hsite
    obtain ⟨d, hd, b, hb, hcall, rfl⟩ := Program.mem_callSites.1 hmem
    exact ⟨d, hd, by simpa using hname, b, hb, call, hcall, htest, s, hs, hc⟩
  · rintro ⟨d, hd, rfl, b, hb, call, hcall, htest, s, hs, hc⟩
    refine ⟨(⟨d.name, b.label⟩, s), ?_, rfl, hc⟩
    exact (mem_of_setsOfCalls hsets).2
      ⟨call, Program.mem_callSites.2 ⟨d, hd, b, hb, hcall, rfl⟩, htest, hs⟩

/-- The table has no stand-in. -/
theorem requirement_standIn (h : ofProgram settings p = .ok r) {n : Node}
    (hn : ∀ name, n ≠ .procedure name) : r.procedures.requirement n = ∅ := by
  apply RequirementTable.requirement_of_not_mem
  rw [mem_procedures_ofProgram h]
  rintro ⟨d, -, hd⟩
  exact hn d.name hd.symm

/-! ## What is raised anywhere -/

theorem exists_raisedAnywhere_eq_ok_iff :
    (∃ s, raisedAnywhere settings p = .ok s) ↔ ∀ d ∈ p.definitions, ∀ b ∈ d.blocks, ∀ c ∈ b.calls,
      c.calls settings.raisePrimitive = true →
        ∃ s, c.capabilities ⟨d.name, b.label⟩ = .ok s := by
  rw [← exists_setsOfCalls_eq_ok_iff]
  constructor
  · rintro ⟨s, h⟩
    obtain ⟨sets, hsets, -⟩ := bind_eq_ok.1 h
    exact ⟨sets, hsets⟩
  · rintro ⟨sets, hsets⟩
    exact ⟨_, by rw [raisedAnywhere, hsets]; rfl⟩

/-- A capability is raised anywhere if a call of the primitive names it. -/
theorem mem_raisedAnywhere {s : CapabilitySet} (h : raisedAnywhere settings p = .ok s) :
    c ∈ s ↔ ∃ site call, (site, call) ∈ p.callSites ∧
      call.target? = some settings.raisePrimitive ∧
      ∃ named, call.capabilities site = .ok named ∧ c ∈ named := by
  obtain ⟨sets, hsets, h⟩ := bind_eq_ok.1 h
  obtain rfl := Except.ok.inj h
  rw [CapabilitySet.mem_foldl_union]
  constructor
  · rintro (hc | ⟨⟨site, named⟩, hmem, hc⟩)
    · simp at hc
    · obtain ⟨call, hcall, htest, hnamed⟩ := (mem_of_setsOfCalls hsets).1 hmem
      exact ⟨site, call, hcall, by simpa [Call.calls] using htest, named, hnamed, hc⟩
  · rintro ⟨site, call, hcall, htarget, named, hnamed, hc⟩
    refine Or.inr ⟨(site, named), (mem_of_setsOfCalls hsets).2 ⟨call, hcall, ?_, hnamed⟩, hc⟩
    simp [Call.calls, htarget]

end LocalRequirements

end LeastPrivilege
