import LeastPrivilege.Proofs.Analysis
import LeastPrivilege.Proofs.Padding

/-!
# Calls through pointers and calls by name

A call through a pointer whose targets are known is compared with calls of these targets by name.
The two lead to the same places, with one exception: a target that the program neither has nor calls
by name anywhere is no node of the graph, so that a call through a pointer is not seen to leave the
program there, while a call by name is.
-/

namespace LeastPrivilege

/-- One of the calls through pointers in a procedure has a given target. -/
def Procedure.PointsTo (resolver : Resolver) (d : Procedure) (target : String) : Prop :=
  ∃ c ∈ d.calls, ∃ site targets, c.callee = .indirect site ∧
    resolver d.name site = some targets ∧ target ∈ targets

namespace Program

variable {settings : Settings} {p p' : Program} {resolver : Resolver} {name caller x : String}
  {a b : Place} {c : Capability} {direct : LocalRequirements}

/-- A name of which the analysis does not know: it has no second meaning, and the program neither
has a procedure under it nor calls one. -/
structure IsUnheardOf (settings : Settings) (p : Program) (x : String) : Prop where
  not_intrinsic : x ∉ settings.intrinsics
  not_entry : x ≠ settings.entry
  absent : ∀ d ∈ p.procedures, d.name ≠ x
  not_called : ¬p.IsCalled settings x

/-- A name is unheard of if nothing analysed has it and nothing with it is known to be outside. -/
theorem isUnheardOf_of_not (hname : x ∉ settings.intrinsics) (hentry : x ≠ settings.entry)
    (hin : ¬p.IsAnalysed settings x) (hout : ¬p.IsKnownOutside settings x) :
    p.IsUnheardOf settings x := by
  have hnode := mt (isKnownOutside_of_mem_nodes · hin) hout
  rw [CallGraph.procedure_mem_nodes_ofProgram] at hnode
  refine ⟨hname, hentry, ?_, ?_⟩
  · intro d hd heq
    exact hnode ⟨hname, Or.inl ⟨d, hd, heq⟩⟩
  · intro hcalled
    exact hnode ⟨hname, Or.inr hcalled⟩

/-- The program with a call by name, without arguments, right after an operation of a block. -/
def withCallAfter (p : Program) (ref : BlockRef) (i : Nat) (x : String) : Program :=
  p.modifyBlock ref fun b =>
    { b with operations := b.operations.insertIdx (i + 1) (.call (.direct x [])) }

/-- The second program is the first with calls of a procedure by name put into a definition. At
least one has been put in. -/
structure CallsToo (settings : Settings) (caller x : String) (p p' : Program) : Prop where
  padded : p.PaddedTo (fun name op => name = caller ∧ op = .call (.direct x [])) (fun _ => False) p'
  called : ∃ d' ∈ p'.analysed settings, d'.name = caller ∧ Call.direct x [] ∈ d'.calls

namespace CallsToo

theorem isEntered_iff (h : p.CallsToo settings caller x p') {d d' : Procedure}
    {P : Operation → Prop} (hd : d.PaddedTo P d') : p'.IsEntered d' ↔ p.IsEntered d := by
  have htaken : p'.IsAddressTaken d.name ↔ p.IsAddressTaken d.name := by
    refine h.padded.isAddressTaken_iff ?_
    rintro _ _ ⟨-, hnew⟩
    simp [Operation.call.inj hnew, Call.direct]
  rw [IsEntered, IsEntered, hd.name_eq, hd.linkage_eq, htaken]

/-- What becomes of an analysed definition. -/
theorem exists_after (h : p.CallsToo settings caller x p') {d : Procedure}
    (hd : d ∈ p.analysed settings) :
    ∃ d' ∈ p'.analysed settings, d'.name = d.name ∧ (∀ call ∈ d.calls, call ∈ d'.calls) ∧
      (p.IsEntered d → p'.IsEntered d') := by
  obtain ⟨d', hd', hpad⟩ := exists_right_of_forall₂ (h.padded.analysed settings) hd
  exact ⟨d', hd', hpad.name_eq, hpad.calls.sublist.subset, (h.isEntered_iff hpad).2⟩

/-- What an analysed definition was before. -/
theorem exists_before (h : p.CallsToo settings caller x p') {d' : Procedure}
    (hd' : d' ∈ p'.analysed settings) :
    ∃ d ∈ p.analysed settings, d'.name = d.name ∧
      (∀ call ∈ d'.calls, call ∈ d.calls ∨ d.name = caller ∧ call = .direct x []) ∧
      (p'.IsEntered d' → p.IsEntered d) := by
  obtain ⟨d, hd, hpad⟩ := exists_left_of_forall₂ (h.padded.analysed settings) hd'
  refine ⟨d, hd, hpad.name_eq, fun call hcall => ?_, (h.isEntered_iff hpad).1⟩
  exact (hpad.calls.mem_or hcall).imp_right (And.imp_right Operation.call.inj)

theorem isCalled_iff (h : p.CallsToo settings caller x p') :
    p'.IsCalled settings name ↔ p.IsCalled settings name ∨ name = x := by
  constructor
  · rintro ⟨d', hd', call, hcall, hcallee⟩
    obtain ⟨d, hd, -, hcalls, -⟩ := h.exists_before hd'
    rcases hcalls call hcall with hold | ⟨-, rfl⟩
    · exact Or.inl ⟨d, hd, call, hold, hcallee⟩
    · exact Or.inr (Callee.direct.inj hcallee).symm
  · rintro (⟨d, hd, call, hcall, hcallee⟩ | rfl)
    · obtain ⟨d', hd', -, hcalls, -⟩ := h.exists_after hd
      exact ⟨d', hd', call, hcalls call hcall, hcallee⟩
    · obtain ⟨d', hd', -, hcall⟩ := h.called
      exact ⟨d', hd', _, hcall, rfl⟩

theorem exists_declaration_iff (h : p.CallsToo settings caller x p') :
    (∃ d ∈ p'.procedures, d.name = name ∧ d.isDeclaration = true) ↔
      ∃ d ∈ p.procedures, d.name = name ∧ d.isDeclaration = true := by
  obtain ⟨kept, declared, heq, hkept, hdeclared⟩ := h.padded.procedures
  obtain rfl : declared = [] :=
    List.eq_nil_iff_forall_not_mem.2 fun d hd => (hdeclared d hd).2
  rw [heq, List.append_nil]
  constructor
  · rintro ⟨d', hd', rfl, hbody⟩
    obtain ⟨d, hd, hpad⟩ := exists_left_of_forall₂ hkept hd'
    exact ⟨d, hd, hpad.name_eq.symm, hpad.isDeclaration_eq ▸ hbody⟩
  · rintro ⟨d, hd, rfl, hbody⟩
    obtain ⟨d', hd', hpad⟩ := exists_right_of_forall₂ hkept hd
    exact ⟨d', hd', hpad.name_eq, hpad.isDeclaration_eq ▸ hbody⟩

/-- The call makes only its own target known, and only if the program is without it. -/
theorem isKnownOutside_iff (h : p.CallsToo settings caller x p') :
    p'.IsKnownOutside settings name ↔
      p.IsKnownOutside settings name ∨ name = x ∧ ∀ d ∈ p.procedures, d.name ≠ x := by
  have hpresent : (∃ d ∈ p'.procedures, d.name = name) ↔ ∃ d ∈ p.procedures, d.name = name :=
    h.padded.exists_procedure_iff id
  have habsent : (∀ d ∈ p'.procedures, d.name ≠ name) ↔ ∀ d ∈ p.procedures, d.name ≠ name := by
    simpa only [not_exists, not_and] using not_congr hpresent
  rw [IsKnownOutside, IsKnownOutside, h.exists_declaration_iff, habsent, h.isCalled_iff]
  constructor
  · rintro (hdeclared | ⟨hnone, hcalled | rfl⟩)
    · exact Or.inl (Or.inl hdeclared)
    · exact Or.inl (Or.inr ⟨hnone, hcalled⟩)
    · exact Or.inr ⟨rfl, hnone⟩
  · rintro ((hdeclared | ⟨hnone, hcalled⟩) | ⟨rfl, hnone⟩)
    · exact Or.inl hdeclared
    · exact Or.inr ⟨hnone, Or.inl hcalled⟩
    · exact Or.inr ⟨hnone, Or.inr rfl⟩

/-- All that was possible still is. -/
theorem leads_of_leads (h : p.CallsToo settings caller x p')
    (hlead : p.Leads settings resolver a b) : p'.Leads settings resolver a b := by
  cases hlead with
  | call hd hc hcallee hname hentry hin =>
    obtain ⟨d', hd', heq, hcalls, -⟩ := h.exists_after hd
    rw [← heq]
    exact .call hd' (hcalls _ hc) hcallee hname hentry (h.padded.isAnalysed_iff.2 hin)
  | callOut hd hc hcallee hname hentry hout =>
    obtain ⟨d', hd', heq, hcalls, -⟩ := h.exists_after hd
    rw [← heq]
    exact .callOut hd' (hcalls _ hc) hcallee hname hentry (mt h.padded.isAnalysed_iff.1 hout)
  | resolved hd hc hcallee htargets hmem hentry hin =>
    obtain ⟨d', hd', heq, hcalls, -⟩ := h.exists_after hd
    rw [← heq] at htargets ⊢
    exact .resolved hd' (hcalls _ hc) hcallee htargets hmem hentry (h.padded.isAnalysed_iff.2 hin)
  | resolvedOut hd hc hcallee htargets hmem hname hentry hout =>
    obtain ⟨d', hd', heq, hcalls, -⟩ := h.exists_after hd
    rw [← heq] at htargets ⊢
    exact .resolvedOut hd' (hcalls _ hc) hcallee htargets hmem hname hentry
      (h.isKnownOutside_iff.2 (Or.inl hout))
  | unresolved hd hc hcallee hnone =>
    obtain ⟨d', hd', heq, hcalls, -⟩ := h.exists_after hd
    rw [← heq] at hnone ⊢
    exact .unresolved hd' (hcalls _ hc) hcallee hnone
  | enter hd hentry henter =>
    obtain ⟨d', hd', heq, -, hentered⟩ := h.exists_after hd
    rw [← heq] at hentry ⊢
    exact .enter hd' hentry (hentered henter)

/-- A target that has been called through a pointer is reached by name in no new way, unless the
analysis did not know of it. -/
theorem leads_cases (h : p.CallsToo settings caller x p')
    (hpoints : ∀ d ∈ p.analysed settings, d.name = caller → d.PointsTo resolver x)
    (hlead : p'.Leads settings resolver a b) :
    p.Leads settings resolver a b ∨ p.IsUnheardOf settings x ∧ b = .outside ∧
      ∃ d ∈ p.analysed settings, a = .inside d.name ∧ d.PointsTo resolver x := by
  cases hlead with
  | call hd' hc hcallee hname hentry hin =>
    obtain ⟨d, hd, heq, hcalls, -⟩ := h.exists_before hd'
    rw [h.padded.isAnalysed_iff] at hin
    rw [heq]
    rcases hcalls _ hc with hold | ⟨hcaller, rfl⟩
    · exact Or.inl (.call hd hold hcallee hname hentry hin)
    · -- The new call leads where the pointer in front of it leads.
      obtain rfl := Callee.direct.inj hcallee
      obtain ⟨c, hc, site, targets, hsite, htargets, hmem⟩ := hpoints d hd hcaller
      exact Or.inl (.resolved hd hc hsite htargets hmem hentry hin)
  | callOut hd' hc hcallee hname hentry hout =>
    obtain ⟨d, hd, heq, hcalls, -⟩ := h.exists_before hd'
    rw [h.padded.isAnalysed_iff] at hout
    rw [heq]
    rcases hcalls _ hc with hold | ⟨hcaller, rfl⟩
    · exact Or.inl (.callOut hd hold hcallee hname hentry hout)
    · -- So it does out of the program, but only if the target had been known to be there.
      obtain rfl := Callee.direct.inj hcallee
      by_cases hknown : p.IsKnownOutside settings x
      · obtain ⟨c, hc, site, targets, hsite, htargets, hmem⟩ := hpoints d hd hcaller
        exact Or.inl (.resolvedOut hd hc hsite htargets hmem hname hentry hknown)
      · have hunheard := isUnheardOf_of_not hname hentry hout hknown
        exact Or.inr ⟨hunheard, rfl, d, hd, rfl, hpoints d hd hcaller⟩
  | resolved hd' hc hcallee htargets hmem hentry hin =>
    obtain ⟨d, hd, heq, hcalls, -⟩ := h.exists_before hd'
    rw [h.padded.isAnalysed_iff] at hin
    rw [heq] at htargets ⊢
    rcases hcalls _ hc with hold | ⟨-, rfl⟩
    · exact Or.inl (.resolved hd hold hcallee htargets hmem hentry hin)
    · simp [Call.direct] at hcallee
  | @resolvedOut _ _ site targets target hd' hc hcallee htargets hmem hname hentry hout =>
    obtain ⟨d, hd, heq, hcalls, -⟩ := h.exists_before hd'
    rw [heq] at htargets ⊢
    rcases hcalls _ hc with hold | ⟨-, rfl⟩
    · by_cases hknown : p.IsKnownOutside settings target
      · exact Or.inl (.resolvedOut hd hold hcallee htargets hmem hname hentry hknown)
      · obtain ⟨rfl, hnone⟩ := (h.isKnownOutside_iff.1 hout).resolve_left hknown
        refine Or.inr ⟨⟨hname, hentry, hnone, fun hcalled => ?_⟩, rfl, d, hd, rfl, ?_⟩
        · exact hknown (Or.inr ⟨hnone, hcalled⟩)
        · exact ⟨_, hold, site, targets, hcallee, htargets, hmem⟩
    · simp [Call.direct] at hcallee
  | unresolved hd' hc hcallee hnone =>
    obtain ⟨d, hd, heq, hcalls, -⟩ := h.exists_before hd'
    rw [heq] at hnone ⊢
    rcases hcalls _ hc with hold | ⟨-, rfl⟩
    · exact Or.inl (.unresolved hd hold hcallee hnone)
    · simp [Call.direct] at hcallee
  | enter hd' hentry henter =>
    obtain ⟨d, hd, heq, -, hentered⟩ := h.exists_before hd'
    rw [heq] at hentry ⊢
    exact Or.inl (.enter hd hentry (hentered henter))

/-- The new calls neither raise nor lower. -/
theorem isPrimitive_eq_false (hraise : settings.raisePrimitive ≠ x)
    (hlower : settings.lowerPrimitive ≠ x) (name : String) (call : Call)
    (h : name = caller ∧ Operation.call call = .call (.direct x [])) :
    LocalRequirements.isPrimitive settings call = false := by
  rw [Operation.call.inj h.2]
  exact LocalRequirements.isPrimitive_direct_eq_false hraise hlower

theorem requires_of_requires (h : p.CallsToo settings caller x p')
    (hraise : settings.raisePrimitive ≠ x) (hlower : settings.lowerPrimitive ≠ x)
    (hreq : p.Requires settings resolver c a) : p'.Requires settings resolver c a := by
  obtain ⟨e, he, hreach, hhandles⟩ := hreq
  obtain ⟨e', he', hpad⟩ := exists_right_of_forall₂ (h.padded.analysed settings) he
  refine ⟨e', he', ?_, (hpad.handles_iff (isPrimitive_eq_false hraise hlower e.name)).2 hhandles⟩
  rw [hpad.name_eq]
  exact Relation.ReflTransGen.mono (fun _ _ => h.leads_of_leads) _ _ hreach

/-- Where a target that the analysis did not know of is called through a pointer, the call by name
adds all that is required outside. -/
theorem requires_iff (h : p.CallsToo settings caller x p') (hraise : settings.raisePrimitive ≠ x)
    (hlower : settings.lowerPrimitive ≠ x)
    (hpoints : ∀ d ∈ p.analysed settings, d.name = caller → d.PointsTo resolver x) :
    p'.Requires settings resolver c a ↔ p.Requires settings resolver c a ∨
      p.IsUnheardOf settings x ∧ p.Requires settings resolver c .outside ∧
        ∃ d ∈ p.analysed settings, d.PointsTo resolver x ∧
          Relation.ReflTransGen (p.Leads settings resolver) a (.inside d.name) := by
  constructor
  · rintro ⟨e', he', hreach, hhandles⟩
    obtain ⟨e, he, hpad⟩ := exists_left_of_forall₂ (h.padded.analysed settings) he'
    rw [hpad.handles_iff (isPrimitive_eq_false hraise hlower e.name)] at hhandles
    rw [hpad.name_eq] at hreach
    induction hreach using Relation.ReflTransGen.head_induction_on with
    | refl => exact Or.inl ⟨e, he, .refl, hhandles⟩
    | head hlead _ ih =>
      rcases h.leads_cases hpoints hlead with hold | ⟨hunheard, rfl, d, hd, rfl, hx⟩
      · rcases ih with ih | ⟨hunheard, hout, d, hd, hx, hreach⟩
        · exact Or.inl (hold.requires ih)
        · exact Or.inr ⟨hunheard, hout, d, hd, hx, .head hold hreach⟩
      · -- The path has come to the new call: from here on it starts outside.
        exact Or.inr ⟨hunheard, ih.elim id (·.2.1), d, hd, hx, .refl⟩
  · rintro (hreq | ⟨hunheard, hout, d, hd, hx, hreach⟩)
    · exact h.requires_of_requires hraise hlower hreq
    · obtain ⟨call, hcall, site, targets, hsite, htargets, hmem⟩ := hx
      obtain ⟨d', hd', hname, hcalls, -⟩ := h.exists_after hd
      rw [← hname] at htargets hreach
      have hknown : p'.IsKnownOutside settings x :=
        h.isKnownOutside_iff.2 (Or.inr ⟨rfl, hunheard.absent⟩)
      have hlead : p'.Leads settings resolver (.inside d'.name) .outside :=
        .resolvedOut hd' (hcalls call hcall) hsite htargets hmem hunheard.not_intrinsic
          hunheard.not_entry hknown
      have hthere := Relation.ReflTransGen.mono (fun _ _ => h.leads_of_leads) _ _ hreach
      obtain ⟨e, he, hback, hhandles⟩ := h.requires_of_requires hraise hlower hout
      exact ⟨e, he, hthere.trans (.head hlead hback), hhandles⟩

end CallsToo

/-- Putting a call behind an operation of a block of an analysed definition is such a change. -/
theorem callsToo_withCallAfter {ref : BlockRef} {b : Block} {i : Nat} (hcheck : p.check = .ok ())
    (hcaller : ref.procedure ∉ settings.intrinsics) (hblock : p.block? ref = some b)
    (hi : i < b.operations.length) (x : String) :
    p.CallsToo settings ref.procedure x (p.withCallAfter ref i x) := by
  have hprocedures := procedures_modifyBlock hcheck ref fun b =>
    { b with operations := b.operations.insertIdx (i + 1) (.call (.direct x [])) }
  constructor
  · refine ⟨rfl, _, [], (List.append_nil _).symm, ?_, by simp⟩
    rw [withCallAfter, hprocedures]
    refine List.forall₂_map_right_iff.2 (List.forall₂_same.2 fun d _ => ⟨rfl, rfl, rfl, ?_⟩)
    refine List.forall₂_map_right_iff.2 (List.forall₂_same.2 fun b _ => ?_)
    by_cases hhere : d.name = ref.procedure ∧ b.label = ref.block
    · rw [if_pos hhere]
      exact ⟨rfl, .insertIdx ⟨hhere.1, rfl⟩ _ _⟩
    · rw [if_neg hhere]
      exact .refl _ b
  · obtain ⟨d, hd, hname, hb, hlabel⟩ := exists_procedure_of_block? hblock
    obtain ⟨d', hd', hname', hblocks⟩ : ∃ d' ∈ (p.withCallAfter ref i x).procedures,
        d'.name = ref.procedure ∧ ∃ b' ∈ d'.blocks, b'.operations =
          b.operations.insertIdx (i + 1) (.call (.direct x [])) := by
      rw [withCallAfter, hprocedures]
      refine ⟨_, List.mem_map_of_mem hd, hname, _, List.mem_map_of_mem hb, ?_⟩
      rw [if_pos ⟨hname, hlabel⟩]
    obtain ⟨b', hb', hops⟩ := hblocks
    have hbody : d'.isDefinition = true := by
      simpa [Procedure.isDefinition, Procedure.isDeclaration] using List.ne_nil_of_mem hb'
    refine ⟨d', mem_analysed.2 ⟨mem_definitions.2 ⟨hd', hbody⟩, hname' ▸ hcaller⟩, hname', ?_⟩
    refine List.mem_flatMap.2 ⟨b', hb', List.mem_filterMap.2 ⟨.call (.direct x []), ?_, rfl⟩⟩
    rw [hops, List.mem_insertIdx (by omega)]
    exact Or.inl rfl

/-- A definition that has a call through a pointer in one of its blocks points to its targets. -/
theorem pointsTo_of_block? {ref : BlockRef} {b : Block} {i : Nat} {call : Call} {site : UInt32}
    {targets : List String} {d : Procedure} (hcheck : p.check = .ok ())
    (hblock : p.block? ref = some b) (hop : b.operations[i]? = some (.call call))
    (hcallee : call.callee = .indirect site) (htargets : resolver ref.procedure site = some targets)
    (hx : x ∈ targets) (hd : d ∈ p.analysed settings) (hname : d.name = ref.procedure) :
    d.PointsTo resolver x := by
  obtain ⟨e, he, hename, hb, -⟩ := exists_procedure_of_block? hblock
  obtain rfl := eq_of_check hcheck he (mem_definitions.1 (mem_analysed.1 hd).1).1
    (hename.trans hname.symm)
  refine ⟨call, List.mem_flatMap.2 ⟨b, hb, ?_⟩, site, targets, hcallee, hname ▸ htargets, hx⟩
  exact List.mem_filterMap.2 ⟨_, List.mem_of_getElem? hop, rfl⟩

/-- Control is never in a procedure with an intrinsic name. -/
theorem not_reach_intrinsic {d : Procedure} (hname : name ∈ settings.intrinsics)
    (hd : d ∈ p.analysed settings) :
    ¬Relation.ReflTransGen (p.Leads settings resolver) (.inside name) (.inside d.name) := by
  intro hreach
  have hanalysed : ∀ e ∈ p.analysed settings, e.name ≠ name := by
    rintro e he rfl
    exact (mem_analysed.1 he).2 hname
  rcases Relation.ReflTransGen.cases_head hreach with heq | ⟨b, hlead, -⟩
  · exact hanalysed d hd (Place.inside.inj heq).symm
  · generalize ha : Place.inside name = a at hlead
    cases hlead with
    | call he => exact hanalysed _ he (Place.inside.inj ha).symm
    | callOut he => exact hanalysed _ he (Place.inside.inj ha).symm
    | resolved he => exact hanalysed _ he (Place.inside.inj ha).symm
    | resolvedOut he => exact hanalysed _ he (Place.inside.inj ha).symm
    | unresolved he => exact hanalysed _ he (Place.inside.inj ha).symm
    | enter he => cases ha

end Program

namespace Report

variable {settings : Settings} {p : Program} {resolver : Resolver} {direct : LocalRequirements}
  {row : Row} {c : Capability}

/-- What every row says of its definition, whether this is analysed or not. -/
theorem mem_transitive_iff (hcheck : p.check = .ok ())
    (hdirect : LocalRequirements.ofProgram settings p = .ok direct)
    (hrow : row ∈ (ofPropagation p.name settings.entry direct
      (Propagation.run (p.problem settings resolver direct))).rows) :
    c ∈ row.transitive ↔ p.Requires settings resolver c (.inside row.name) := by
  obtain ⟨⟨d, hd, hname⟩, -, htransitive, -⟩ := row_of_mem hdirect hrow
  rw [htransitive]
  by_cases hintrinsic : row.name ∈ settings.intrinsics
  · refine iff_of_false (Program.not_requires_intrinsic hintrinsic) ?_
    rintro ⟨e, he, hreach, -⟩
    exact Program.not_reach_intrinsic hintrinsic he hreach
  · rw [← hname] at hintrinsic ⊢
    exact Program.requires_inside_iff hcheck hdirect (Program.mem_analysed.2 ⟨hd, hintrinsic⟩)

theorem mem_unknownCallees_iff (hcheck : p.check = .ok ())
    (hdirect : LocalRequirements.ofProgram settings p = .ok direct) :
    c ∈ (ofPropagation p.name settings.entry direct
        (Propagation.run (p.problem settings resolver direct))).unknownCallees ↔
      p.Requires settings resolver c .outside :=
  (Propagation.mem_unknownCallees_run (CallGraph.wellFormed_ofProgram settings p)).trans
    (Program.requires_unknownCallees_iff hcheck hdirect)

/-- Take a call through a pointer with known targets and call one of them by name as well, right
after it. Then the report stays the same as to what the definitions require, unless the analysis had
not heard of the target: the program has no procedure of that name and does not call one, nor has
the name a second meaning. In that case all definitions from which control comes to such a call
through a pointer are credited with what is required outside, as they had not been before. -/
theorem transitive_of_withCallAfter (settings : Settings) (p : Program) (resolver : Resolver)
    (report : Report) (ref : BlockRef) (b : Block) (i : Nat) (call : Call) (site : UInt32)
    (targets : List String) (x : String) (hcheck : p.check = .ok ())
    (hreport : ofProgram settings p resolver = .ok report)
    (hcaller : ref.procedure ∉ settings.intrinsics) (hblock : p.block? ref = some b)
    (hop : b.operations[i]? = some (.call call)) (hcallee : call.callee = .indirect site)
    (htargets : resolver ref.procedure site = some targets) (hx : x ∈ targets)
    (hraise : settings.raisePrimitive ≠ x) (hlower : settings.lowerPrimitive ≠ x) :
    (p.withCallAfter ref i x).check = .ok () ∧
      ∃ report', ofProgram settings (p.withCallAfter ref i x) resolver = .ok report' ∧
        report'.rows.map Row.name = report.rows.map Row.name ∧
        ∀ row ∈ report.rows, ∀ row' ∈ report'.rows, row'.name = row.name →
          (¬p.IsUnheardOf settings x → row'.transitive = row.transitive) ∧
          (p.IsUnheardOf settings x → ∀ c, c ∈ row'.transitive ↔ c ∈ row.transitive ∨
            c ∈ report.unknownCallees ∧ ∃ d ∈ p.analysed settings, d.PointsTo resolver x ∧
              Relation.ReflTransGen (p.Leads settings resolver) (.inside row.name)
                (.inside d.name)) := by
  obtain ⟨hi, -⟩ := List.getElem?_eq_some_iff.1 hop
  have htoo := Program.callsToo_withCallAfter hcheck hcaller hblock hi x
  have hcheck' := htoo.padded.check_eq_ok (fun _ => id) hcheck
  have hpoints : ∀ d ∈ p.analysed settings, d.name = ref.procedure → d.PointsTo resolver x :=
    fun d => Program.pointsTo_of_block? hcheck hblock hop hcallee htargets hx
  obtain ⟨direct, hdirect, rfl⟩ := ofProgram_eq_ok.1 hreport
  have hdirect' : LocalRequirements.ofProgram settings (p.withCallAfter ref i x) = .ok direct := by
    rw [htoo.padded.localRequirements_eq (Program.CallsToo.isPrimitive_eq_false hraise hlower),
      hdirect]
  refine ⟨hcheck', _, ofProgram_eq_ok.2 ⟨direct, hdirect', rfl⟩, ?_, ?_⟩
  · rw [map_name_rows, map_name_rows]
  · intro row hrow row' hrow' hname
    have hnew : ∀ c, c ∈ row'.transitive ↔ c ∈ row.transitive ∨ p.IsUnheardOf settings x ∧
        p.Requires settings resolver c .outside ∧ ∃ d ∈ p.analysed settings,
          d.PointsTo resolver x ∧ Relation.ReflTransGen (p.Leads settings resolver)
            (.inside row.name) (.inside d.name) := by
      intro c
      rw [mem_transitive_iff hcheck' hdirect' hrow', mem_transitive_iff hcheck hdirect hrow, hname]
      exact htoo.requires_iff hraise hlower hpoints
    constructor
    · intro hheard
      apply CapabilitySet.ext
      intro c
      rw [hnew c]
      exact or_iff_left fun h => hheard h.1
    · intro hunheard c
      rw [hnew c, ← mem_unknownCallees_iff hcheck hdirect]
      exact or_congr_right (and_iff_right hunheard)

/-- An entry that calls through a pointer. -/
def pointerEntry : Procedure where
  name := "main"
  blocks := [⟨"entry", [.call ⟨.indirect 0, []⟩, .ret]⟩]

/-- A procedure that raises a capability and can be entered from outside. -/
def enteredHelper : Procedure where
  name := "helper"
  blocks := [⟨"entry", [.call (.direct "priv_raise" [.i32 1, .i32 21]), .ret]⟩]

/-- The program of these two. -/
def pointerSample : Program where
  name := "sample"
  procedures := [pointerEntry, enteredHelper]

/-- The pointer is known to lead to a procedure that the program does not mention. -/
def pointerTargets : Resolver := fun caller site =>
  if caller = "main" ∧ site = 0 then some ["ext"] else none

/-- The report on the program, given what its entry requires. -/
def pointerReport (iterations : UInt64) (s : CapabilitySet) : Report where
  program := "sample"
  entry := "main"
  iterations := iterations
  rows := [⟨"helper", .single .sysAdmin, .single .sysAdmin, true⟩, ⟨"main", ∅, s, false⟩]
  unknownCallees := .single .sysAdmin
  unknownCallers := .single .sysAdmin

theorem ofProgram_pointerSample :
    ofProgram {} pointerSample pointerTargets = .ok (pointerReport 2 ∅) := by
  decide +kernel

theorem ofProgram_withCallAfter_pointerSample :
    ofProgram {} (pointerSample.withCallAfter ⟨"main", "entry"⟩ 0 "ext") pointerTargets =
      .ok (pointerReport 3 (.single .sysAdmin)) := by
  decide +kernel

theorem isUnheardOf_pointerSample : pointerSample.IsUnheardOf {} "ext" where
  not_intrinsic := by decide
  not_entry := by decide
  absent := by decide
  not_called := by
    rintro ⟨d, hd, c, hc, hcallee⟩
    have hnone : ∀ d ∈ pointerSample.analysed {}, ∀ c ∈ d.calls, c.callee ≠ .direct "ext" := by
      decide
    exact hnone d hd c hc hcallee

/-- With the call by name, the entry of the sample is credited with the capability that is raised
where the program can be entered; and with the name of a procedure that the program has in place of
the unknown one, nothing changes. -/
theorem transitive_of_withCallAfter_pointerSample :
    (∃ report', ofProgram {} (pointerSample.withCallAfter ⟨"main", "entry"⟩ 0 "ext")
          pointerTargets = .ok report' ∧
        ∃ row' ∈ report'.rows, row'.name = "main" ∧ .sysAdmin ∈ row'.transitive) ∧
      ∃ report report', ofProgram {} pointerSample (fun _ _ => some ["helper"]) = .ok report ∧
        ofProgram {} (pointerSample.withCallAfter ⟨"main", "entry"⟩ 0 "helper")
          (fun _ _ => some ["helper"]) = .ok report' ∧
        ∀ row ∈ report.rows, ∀ row' ∈ report'.rows, row'.name = row.name →
          row'.transitive = row.transitive := by
  constructor
  · obtain ⟨-, report', hreport', hnames, hrows⟩ :=
      transitive_of_withCallAfter {} pointerSample pointerTargets (pointerReport 2 ∅)
        ⟨"main", "entry"⟩ ⟨"entry", [.call ⟨.indirect 0, []⟩, .ret]⟩ 0 ⟨.indirect 0, []⟩ 0 ["ext"]
        "ext" (by decide) ofProgram_pointerSample (by decide) (by decide) rfl rfl rfl (by decide)
        (by decide) (by decide)
    obtain ⟨row', hrow', hname⟩ : ∃ row' ∈ report'.rows, row'.name = "main" := by
      rw [← List.mem_map, hnames]
      decide
    refine ⟨report', hreport', row', hrow', hname, ?_⟩
    rw [(hrows ⟨"main", ∅, ∅, false⟩ (by decide) row' hrow' hname).2 isUnheardOf_pointerSample]
    refine Or.inr ⟨by decide, pointerEntry, by decide, ?_, .refl⟩
    exact ⟨⟨.indirect 0, []⟩, by decide, 0, ["ext"], rfl, rfl, by decide⟩
  · obtain ⟨report, hreport⟩ : ∃ report,
        ofProgram {} pointerSample (fun _ _ => some ["helper"]) = .ok report := ⟨_, rfl⟩
    obtain ⟨-, report', hreport', -, hrows⟩ :=
      transitive_of_withCallAfter {} pointerSample (fun _ _ => some ["helper"]) report
        ⟨"main", "entry"⟩ ⟨"entry", [.call ⟨.indirect 0, []⟩, .ret]⟩ 0 ⟨.indirect 0, []⟩ 0
        ["helper"] "helper" (by decide) hreport (by decide) (by decide) rfl rfl rfl (by decide)
        (by decide) (by decide)
    refine ⟨report, report', hreport, hreport', fun row hrow row' hrow' hname => ?_⟩
    exact (hrows row hrow row' hrow' hname).1 fun h => h.absent enteredHelper (by decide) rfl

/-- A call by name can add to what the entry requires, although the pointer in front of it was known
to lead to the same procedure. -/
theorem not_transitive_eq_of_withCallAfter :
    ¬∀ (settings : Settings) (p : Program) (resolver : Resolver) (report report' : Report)
        (ref : BlockRef) (b : Block) (i : Nat) (call : Call) (site : UInt32)
        (targets : List String) (x : String), p.check = .ok () →
      ofProgram settings p resolver = .ok report → ref.procedure ∉ settings.intrinsics →
      p.block? ref = some b → b.operations[i]? = some (.call call) →
      call.callee = .indirect site → resolver ref.procedure site = some targets → x ∈ targets →
      settings.raisePrimitive ≠ x → settings.lowerPrimitive ≠ x →
      ofProgram settings (p.withCallAfter ref i x) resolver = .ok report' →
      ∀ row ∈ report.rows, ∀ row' ∈ report'.rows, row'.name = row.name →
        row'.transitive = row.transitive := by
  intro h
  have hsame := h {} pointerSample pointerTargets (pointerReport 2 ∅)
    (pointerReport 3 (.single .sysAdmin)) ⟨"main", "entry"⟩
    ⟨"entry", [.call ⟨.indirect 0, []⟩, .ret]⟩ 0 ⟨.indirect 0, []⟩ 0 ["ext"] "ext" (by decide)
    ofProgram_pointerSample (by decide) (by decide) rfl rfl rfl (by decide) (by decide) (by decide)
    ofProgram_withCallAfter_pointerSample ⟨"main", ∅, ∅, false⟩ (by decide)
    ⟨"main", ∅, .single .sysAdmin, false⟩ (by decide) rfl
  exact absurd hsame (by decide)

end Report

end LeastPrivilege
