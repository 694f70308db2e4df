import LeastPrivilege.Proofs.Extraction
import LeastPrivilege.Proofs.Interleaving
import LeastPrivilege.Proofs.Lists
import LeastPrivilege.Proofs.ProgramGraph

/-!
# Programs with operations put in

A pass that only puts operations into blocks and declarations at the end of a program keeps the
order of all that was there. Such a program is related here to what it was before: block by block,
procedure by procedure, and as a whole. What an analysis reads off the two is the same as long as it
does not look at what has been put in.
-/

namespace LeastPrivilege

/-! ## Blocks, procedures, programs -/

/-- The second block is the first with operations put in that have a property. -/
structure Block.PaddedTo (P : Operation → Prop) (b b' : Block) : Prop where
  label_eq : b'.label = b.label
  operations : Interspersed P b.operations b'.operations

/-- The second procedure is the first with operations put into its blocks. -/
structure Procedure.PaddedTo (P : Operation → Prop) (d d' : Procedure) : Prop where
  name_eq : d'.name = d.name
  signature_eq : d'.signature = d.signature
  linkage_eq : d'.linkage = d.linkage
  blocks : List.Forall₂ (Block.PaddedTo P) d.blocks d'.blocks

/-- The second program is the first with operations put into its blocks, depending on the procedure,
and with declarations at the end whose names have a property. -/
structure Program.PaddedTo (P : String → Operation → Prop) (N : String → Prop)
    (p p' : Program) : Prop where
  name_eq : p'.name = p.name
  procedures : ∃ kept declared, p'.procedures = kept ++ declared ∧
    List.Forall₂ (fun d d' => d.PaddedTo (P d.name) d') p.procedures kept ∧
    ∀ d ∈ declared, d.isDeclaration = true ∧ N d.name

namespace Block.PaddedTo

variable {P Q : Operation → Prop} {b b' b'' : Block}

theorem refl (P : Operation → Prop) (b : Block) : b.PaddedTo P b :=
  ⟨rfl, .refl P b.operations⟩

theorem mono (hPQ : ∀ op, P op → Q op) (h : b.PaddedTo P b') : b.PaddedTo Q b' :=
  ⟨h.label_eq, h.operations.mono hPQ⟩

theorem trans (h : b.PaddedTo P b') (h' : b'.PaddedTo P b'') : b.PaddedTo P b'' :=
  ⟨h'.label_eq.trans h.label_eq, h.operations.trans h'.operations⟩

theorem calls (h : b.PaddedTo P b') : Interspersed (fun c => P (.call c)) b.calls b'.calls := by
  refine h.operations.filterMap ?_
  intro op c hop hc
  cases op with
  | call c' =>
    obtain rfl : c' = c := by simpa [Operation.call?] using hc
    exact hop
  | _ => simp [Operation.call?] at hc

end Block.PaddedTo

namespace Procedure.PaddedTo

variable {P Q : Operation → Prop} {d d' : Procedure}

theorem mono (hPQ : ∀ op, P op → Q op) (h : d.PaddedTo P d') : d.PaddedTo Q d' :=
  ⟨h.name_eq, h.signature_eq, h.linkage_eq, h.blocks.imp fun _ _ hb => hb.mono hPQ⟩

theorem calls (h : d.PaddedTo P d') : Interspersed (fun c => P (.call c)) d.calls d'.calls :=
  .flatMap h.blocks fun _ _ hb => hb.calls

theorem isDeclaration_eq (h : d.PaddedTo P d') : d'.isDeclaration = d.isDeclaration := by
  rw [isDeclaration, isDeclaration, Bool.eq_iff_iff, List.isEmpty_iff_length_eq_zero,
    List.isEmpty_iff_length_eq_zero, h.blocks.length_eq]

theorem isDefinition_eq (h : d.PaddedTo P d') : d'.isDefinition = d.isDefinition := by
  rw [isDefinition, isDefinition, h.isDeclaration_eq]

theorem map_label_blocks (h : d.PaddedTo P d') :
    d'.blocks.map Block.label = d.blocks.map Block.label :=
  map_eq_of_forall₂ h.blocks fun _ _ hb => hb.label_eq

/-- What a definition handles does not depend on calls that neither raise nor lower. -/
theorem handles_iff (h : d.PaddedTo P d') {settings : Settings} {c : Capability}
    (hplain : ∀ call, P (.call call) → LocalRequirements.isPrimitive settings call = false) :
    d'.Handles settings c ↔ d.Handles settings c := by
  constructor
  · rintro ⟨b', hb', call, hcall, hprimitive, s, hs, hc⟩
    obtain ⟨b, hb, hpad⟩ := exists_left_of_forall₂ h.blocks hb'
    rw [h.name_eq, hpad.label_eq] at hs
    rcases hpad.calls.mem_or hcall with hold | hnew
    · exact ⟨b, hb, call, hold, hprimitive, s, hs, hc⟩
    · simp [hplain call hnew] at hprimitive
  · rintro ⟨b, hb, call, hcall, hprimitive, s, hs, hc⟩
    obtain ⟨b', hb', hpad⟩ := exists_right_of_forall₂ h.blocks hb
    rw [← h.name_eq, ← hpad.label_eq] at hs
    exact ⟨b', hb', call, hpad.calls.sublist.subset hcall, hprimitive, s, hs, hc⟩

end Procedure.PaddedTo

namespace Program.PaddedTo

variable {P Q : String → Operation → Prop} {N M : String → Prop} {p p' : Program}
  {settings : Settings} {name : String}

theorem mono (hPQ : ∀ name op, P name op → Q name op) (hNM : ∀ name, N name → M name)
    (h : p.PaddedTo P N p') : p.PaddedTo Q M p' := by
  obtain ⟨kept, declared, heq, hkept, hdeclared⟩ := h.procedures
  refine ⟨h.name_eq, kept, declared, heq, hkept.imp fun d d' hd => hd.mono (hPQ d.name), ?_⟩
  exact fun d hd => (hdeclared d hd).imp_right (hNM d.name)

/-- Declarations at the end do not matter to what is said about definitions. -/
theorem definitions (h : p.PaddedTo P N p') :
    List.Forall₂ (fun d d' => d.PaddedTo (P d.name) d') p.definitions p'.definitions := by
  obtain ⟨kept, declared, heq, hkept, hdeclared⟩ := h.procedures
  have hnone : declared.filter Procedure.isDefinition = [] := by
    rw [List.filter_eq_nil_iff]
    intro d hd
    simp [Procedure.isDefinition, (hdeclared d hd).1]
  rw [Program.definitions, Program.definitions, heq, List.filter_append, hnone, List.append_nil]
  refine List.rel_filter ?_ hkept
  intro d d' hd
  simp only [hd.isDefinition_eq]

theorem map_name_definitions (h : p.PaddedTo P N p') :
    p'.definitions.map Procedure.name = p.definitions.map Procedure.name :=
  map_eq_of_forall₂ h.definitions fun _ _ hd => hd.name_eq

theorem analysed (h : p.PaddedTo P N p') (settings : Settings) :
    List.Forall₂ (fun d d' => d.PaddedTo (P d.name) d') (p.analysed settings)
      (p'.analysed settings) := by
  refine List.rel_filter ?_ h.definitions
  intro d d' hd
  simp only [hd.name_eq]

theorem isAnalysed_iff (h : p.PaddedTo P N p') :
    p'.IsAnalysed settings name ↔ p.IsAnalysed settings name := by
  constructor
  · rintro ⟨d', hd', rfl⟩
    obtain ⟨d, hd, hpad⟩ := exists_left_of_forall₂ (h.analysed settings) hd'
    exact ⟨d, hd, hpad.name_eq.symm⟩
  · rintro ⟨d, hd, rfl⟩
    obtain ⟨d', hd', hpad⟩ := exists_right_of_forall₂ (h.analysed settings) hd
    exact ⟨d', hd', hpad.name_eq⟩

/-- Without declarations at the end, a program that passes its check still does. -/
theorem check_eq_ok (h : p.PaddedTo P N p') (hN : ∀ name, ¬N name) (hcheck : p.check = .ok ()) :
    p'.check = .ok () := by
  obtain ⟨kept, declared, heq, hkept, hdeclared⟩ := h.procedures
  obtain rfl : declared = [] := by
    rw [List.eq_nil_iff_forall_not_mem]
    exact fun d hd => hN d.name (hdeclared d hd).2
  rw [List.append_nil] at heq
  obtain ⟨hnames, hlabels⟩ := check_eq_ok_iff.1 hcheck
  rw [check_eq_ok_iff, heq]
  constructor
  · rw [map_eq_of_forall₂ hkept fun d d' hd => hd.name_eq]
    exact hnames
  · intro d' hd'
    obtain ⟨d, hd, hpad⟩ := exists_left_of_forall₂ hkept hd'
    rw [hpad.map_label_blocks]
    exact hlabels d hd

theorem callSites (h : p.PaddedTo P N p') :
    Interspersed (fun site => P site.1.procedure (.call site.2)) p.callSites p'.callSites := by
  refine .flatMap h.definitions fun d d' hd => .flatMap hd.blocks fun b b' hb => ?_
  rw [hd.name_eq, hb.label_eq]
  exact hb.calls.map fun c hc => hc

/-- A name that no declaration at the end may have stands for a procedure in both or in neither. -/
theorem exists_procedure_iff (h : p.PaddedTo P N p') (hname : ¬N name) :
    (∃ d ∈ p'.procedures, d.name = name) ↔ ∃ d ∈ p.procedures, d.name = name := by
  obtain ⟨kept, declared, heq, hkept, hdeclared⟩ := h.procedures
  rw [heq]
  constructor
  · rintro ⟨d', hd', rfl⟩
    rcases List.mem_append.1 hd' with hd' | hd'
    · obtain ⟨d, hd, hpad⟩ := exists_left_of_forall₂ hkept hd'
      exact ⟨d, hd, hpad.name_eq.symm⟩
    · exact absurd (hdeclared d' hd').2 hname
  · rintro ⟨d, hd, rfl⟩
    obtain ⟨d', hd', hpad⟩ := exists_right_of_forall₂ hkept hd
    exact ⟨d', List.mem_append_left _ hd', hpad.name_eq⟩

/-! ## What the analysis reads off both programs -/

theorem setsOfCalls_eq (h : p.PaddedTo P N p') {test : Call → Bool}
    (htest : ∀ name c, P name (.call c) → test c = false) :
    LocalRequirements.setsOfCalls p' test = LocalRequirements.setsOfCalls p test := by
  have hsame : (p'.callSites.filter fun site => test site.2) =
      p.callSites.filter fun site => test site.2 :=
    h.callSites.filter_eq fun site hsite => htest site.1.procedure site.2 hsite
  rw [LocalRequirements.setsOfCalls, LocalRequirements.setsOfCalls, hsame]

/-- Extraction does not see calls that neither raise nor lower capabilities. -/
theorem localRequirements_eq (h : p.PaddedTo P N p')
    (hplain : ∀ name c, P name (.call c) → LocalRequirements.isPrimitive settings c = false) :
    LocalRequirements.ofProgram settings p' = LocalRequirements.ofProgram settings p := by
  have hblank : ∀ q : Program,
      q.definitions.foldl (fun t d => t.add (.procedure d.name) ∅) (∅ : RequirementTable) =
        (q.definitions.map Procedure.name).foldl (fun t n => t.add (.procedure n) ∅) ∅ := by
    intro q
    rw [List.foldl_map]
  rw [LocalRequirements.ofProgram, LocalRequirements.ofProgram, h.setsOfCalls_eq hplain, hblank,
    hblank, h.map_name_definitions]

theorem raisedAnywhere_eq (h : p.PaddedTo P N p')
    (hplain : ∀ name c, P name (.call c) → LocalRequirements.isPrimitive settings c = false) :
    LocalRequirements.raisedAnywhere settings p' = LocalRequirements.raisedAnywhere settings p := by
  have hraise : ∀ name c, P name (.call c) → c.calls settings.raisePrimitive = false := by
    intro name c hc
    exact (Bool.or_eq_false_iff.1 (hplain name c hc)).1
  rw [LocalRequirements.raisedAnywhere, LocalRequirements.raisedAnywhere, h.setsOfCalls_eq hraise]

/-- The address of a procedure is taken in both programs or in neither, if no operation that was put
in takes it. -/
theorem isAddressTaken_iff (h : p.PaddedTo P N p')
    (hargs : ∀ caller c, P caller (.call c) → .procedure name ∉ c.args) :
    p'.IsAddressTaken name ↔ p.IsAddressTaken name := by
  constructor
  · rintro ⟨d', hd', c, hc, harg⟩
    obtain ⟨d, hd, hpad⟩ := exists_left_of_forall₂ h.definitions hd'
    rcases hpad.calls.mem_or hc with hc | hnew
    · exact ⟨d, hd, c, hc, harg⟩
    · exact absurd harg (hargs d.name c hnew)
  · rintro ⟨d, hd, c, hc, harg⟩
    obtain ⟨d', hd', hpad⟩ := exists_right_of_forall₂ h.definitions hd
    exact ⟨d', hd', c, hpad.calls.sublist.subset hc, harg⟩

end Program.PaddedTo

end LeastPrivilege
