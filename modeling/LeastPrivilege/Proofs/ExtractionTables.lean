import LeastPrivilege.Proofs.Extraction
import LeastPrivilege.Proofs.Lists

/-!
# The tables of an extraction

Extraction fails with the first call of a primitive that names no set, in the order of the text. If
it succeeds, its two tables are read off the text alike: one by definitions, the other by blocks.
The sets of the blocks therefore make up those of the definitions.
-/

namespace LeastPrivilege

/-! ## The first refusal -/

/-- Why an operation in a block is refused: it calls a primitive, and its operands name no set. -/
def Operation.refusal? (settings : Settings) (site : BlockRef) (op : Operation) : Option Error :=
  op.call?.bind fun c =>
    if LocalRequirements.isPrimitive settings c then errorOf? (c.capabilities site) else none

/-- Why the first operation that is refused is refused, looking at the definitions in order, in each
of them at the blocks in order, and in each of these at the operations in order. -/
def Program.firstRefusal? (settings : Settings) (p : Program) : Option Error :=
  p.definitions.findSome? fun d =>
    d.blocks.findSome? fun b => b.operations.findSome? (·.refusal? settings ⟨d.name, b.label⟩)

/-- A block of a procedure raises or lowers a capability: a call of a primitive in it passes it. -/
def Block.Handles (settings : Settings) (procedure : String) (b : Block) (c : Capability) : Prop :=
  ∃ call ∈ b.calls, LocalRequirements.isPrimitive settings call = true ∧
    ∃ s, call.capabilities ⟨procedure, b.label⟩ = .ok s ∧ c ∈ s

namespace LocalRequirements

variable {settings : Settings} {p : Program} {r : LocalRequirements} {c : Capability}
  {ref : BlockRef} {sets : List (BlockRef × CapabilitySet)}

theorem setsOfCalls_eq_error_iff {e : Error} :
    setsOfCalls p (isPrimitive settings) = .error e ↔ p.firstRefusal? settings = some e := by
  have herror : ∀ site : BlockRef × Call,
      errorOf? ((site.2.capabilities site.1).map fun s => (site.1, s)) =
        errorOf? (site.2.capabilities site.1) := by
    intro site
    cases site.2.capabilities site.1 <;> rfl
  rw [setsOfCalls, mapM_eq_error_iff, findSome?_filter]
  simp only [herror, Program.callSites, findSome?_flatMap, List.findSome?_map, Block.calls,
    findSome?_filterMap]
  rfl

theorem ofProgram_eq_error_iff {e : Error} :
    ofProgram settings p = .error e ↔ p.firstRefusal? settings = some e := by
  rw [← setsOfCalls_eq_error_iff, ofProgram]
  cases setsOfCalls p (isPrimitive settings) with
  | error e' => simp [bind, Except.bind]
  | ok sets => simp [bind, Except.bind, pure, Except.pure]

theorem exists_ofProgram_eq_ok_iff :
    (∃ r, ofProgram settings p = .ok r) ↔ ∀ d ∈ p.definitions, ∀ b ∈ d.blocks, ∀ call ∈ b.calls,
      isPrimitive settings call = true →
        ∃ s, call.capabilities ⟨d.name, b.label⟩ = .ok s := by
  rw [← exists_setsOfCalls_eq_ok_iff]
  constructor
  · rintro ⟨r, h⟩
    obtain ⟨sets, hsets, -⟩ := ofProgram_eq_ok h
    exact ⟨sets, hsets⟩
  · rintro ⟨sets, hsets⟩
    exact ⟨_, by rw [ofProgram, hsets]; rfl⟩

/-! ## The table of blocks -/

theorem mem_blocks_foldl_add :
    ref ∈ (sets.foldl (fun r site => r.add site.1 site.2) r).blocks ↔
      ref ∈ r.blocks ∨ ∃ site ∈ sets, site.1 = ref := by
  induction sets generalizing r with
  | nil => simp
  | cons site sets ih =>
    rw [List.foldl_cons, ih]
    simp only [add, Std.ExtTreeMap.mem_insert, Std.LawfulEqCmp.compare_eq_iff_eq, List.mem_cons,
      exists_eq_or_imp]
    tauto

theorem mem_getD_blocks_foldl_add :
    c ∈ (sets.foldl (fun r site => r.add site.1 site.2) r).blocks.getD ref ∅ ↔
      c ∈ r.blocks.getD ref ∅ ∨ ∃ site ∈ sets, site.1 = ref ∧ c ∈ site.2 := by
  induction sets generalizing r with
  | nil => simp
  | cons site sets ih =>
    rw [List.foldl_cons, ih]
    by_cases href : site.1 = ref
    · subst href
      simp [add, or_assoc]
    · simp [add, Std.ExtTreeMap.getD_insert, href]

/-- The table of blocks has the blocks that call a primitive. -/
theorem mem_blocks_ofProgram (h : ofProgram settings p = .ok r) :
    ref ∈ r.blocks ↔ ∃ d ∈ p.definitions, ∃ b ∈ d.blocks,
      (∃ call ∈ b.calls, isPrimitive settings call = true) ∧
        (⟨d.name, b.label⟩ : BlockRef) = ref := by
  obtain ⟨sets, hsets, rfl⟩ := ofProgram_eq_ok h
  rw [mem_blocks_foldl_add, or_iff_right Std.ExtTreeMap.not_mem_empty]
  constructor
  · rintro ⟨⟨site, s⟩, hsite, rfl⟩
    obtain ⟨call, hmem, htest, -⟩ := (mem_of_setsOfCalls hsets).1 hsite
    obtain ⟨d, hd, b, hb, hcall, hsite⟩ := Program.mem_callSites.1 hmem
    exact ⟨d, hd, b, hb, ⟨call, hcall, htest⟩, hsite⟩
  · rintro ⟨d, hd, b, hb, ⟨call, hcall, htest⟩, rfl⟩
    obtain ⟨s, hs⟩ := exists_setsOfCalls_eq_ok_iff.1 ⟨sets, hsets⟩ d hd b hb call hcall htest
    have hmem := Program.mem_callSites.2 ⟨d, hd, b, hb, hcall, rfl⟩
    exact ⟨_, (mem_of_setsOfCalls hsets).2 ⟨call, hmem, htest, hs⟩, rfl⟩

/-- A capability is in the set of a block if a call of a primitive passes it in a block of that
name. -/
theorem mem_getD_blocks_ofProgram (h : ofProgram settings p = .ok r) :
    c ∈ r.blocks.getD ref ∅ ↔ ∃ d ∈ p.definitions, ∃ b ∈ d.blocks,
      b.Handles settings d.name c ∧ (⟨d.name, b.label⟩ : BlockRef) = ref := by
  obtain ⟨sets, hsets, rfl⟩ := ofProgram_eq_ok h
  rw [mem_getD_blocks_foldl_add, or_iff_right (by simp)]
  constructor
  · rintro ⟨⟨site, s⟩, hsite, rfl, hc⟩
    obtain ⟨call, hmem, htest, hs⟩ := (mem_of_setsOfCalls hsets).1 hsite
    obtain ⟨d, hd, b, hb, hcall, rfl⟩ := Program.mem_callSites.1 hmem
    exact ⟨d, hd, b, hb, ⟨call, hcall, htest, s, hs, hc⟩, rfl⟩
  · rintro ⟨d, hd, b, hb, ⟨call, hcall, htest, s, hs, hc⟩, rfl⟩
    have hmem := Program.mem_callSites.2 ⟨d, hd, b, hb, hcall, rfl⟩
    exact ⟨_, (mem_of_setsOfCalls hsets).2 ⟨call, hmem, htest, hs⟩, rfl, hc⟩

/-! ## Both tables -/

/-- The tables are those of a program: they have the entries that its text calls for, and each set
is what the calls of primitives pass that stand there. What has the same name is joined. -/
structure ReadOff (settings : Settings) (p : Program) (r : LocalRequirements) : Prop where
  /-- The first table has the names of the definitions and nothing else. -/
  mem_procedures : ∀ n, n ∈ r.procedures ↔ ∃ d ∈ p.definitions, Node.procedure d.name = n
  /-- The second has the blocks that call a primitive and nothing else. -/
  mem_blocks : ∀ ref, ref ∈ r.blocks ↔ ∃ d ∈ p.definitions, ∃ b ∈ d.blocks,
    (∃ call ∈ b.calls, isPrimitive settings call = true) ∧ (⟨d.name, b.label⟩ : BlockRef) = ref
  mem_procedureSet : ∀ name s, r.procedures[Node.procedure name]? = some s →
    ∀ c, c ∈ s ↔ ∃ d ∈ p.definitions, d.name = name ∧ d.Handles settings c
  mem_blockSet : ∀ ref s, r.blocks[ref]? = some s →
    ∀ c, c ∈ s ↔ ∃ d ∈ p.definitions, ∃ b ∈ d.blocks,
      b.Handles settings d.name c ∧ (⟨d.name, b.label⟩ : BlockRef) = ref
  /-- The set of a definition is made up of the sets of its blocks. -/
  mem_procedureSet_iff_blocks : ∀ name s, r.procedures[Node.procedure name]? = some s →
    ∀ c, c ∈ s ↔ ∃ label u, r.blocks[(⟨name, label⟩ : BlockRef)]? = some u ∧ c ∈ u

theorem requirement_of_getElem? {t : RequirementTable} {n : Node} {s : CapabilitySet}
    (h : t[n]? = some s) : t.requirement n = s := by
  rw [RequirementTable.requirement, Std.ExtTreeMap.getD_eq_getD_getElem?, h, Option.getD_some]

theorem mem_getD_blocks_iff :
    c ∈ r.blocks.getD ref ∅ ↔ ∃ u, r.blocks[ref]? = some u ∧ c ∈ u := by
  rw [Std.ExtTreeMap.getD_eq_getD_getElem?]
  cases r.blocks[ref]? <;> simp

theorem readOff_of_ofProgram (h : ofProgram settings p = .ok r) : r.ReadOff settings p where
  mem_procedures n := mem_procedures_ofProgram h
  mem_blocks ref := mem_blocks_ofProgram h
  mem_procedureSet name s hs c := by
    rw [← requirement_of_getElem? hs, mem_requirement_ofProgram h]
  mem_blockSet ref s hs c := by
    rw [← mem_getD_blocks_ofProgram h, mem_getD_blocks_iff, hs]
    simp
  mem_procedureSet_iff_blocks name s hs c := by
    rw [← requirement_of_getElem? hs, mem_requirement_ofProgram h]
    simp only [← mem_getD_blocks_iff, mem_getD_blocks_ofProgram h, BlockRef.mk.injEq]
    constructor
    · rintro ⟨d, hd, rfl, b, hb, hhandles⟩
      exact ⟨b.label, d, hd, b, hb, hhandles, rfl, rfl⟩
    · rintro ⟨label, d, hd, b, hb, hhandles, hname, -⟩
      exact ⟨d, hd, hname, b, hb, hhandles⟩

/-- What is raised anywhere can be had along with the tables, and definitions require it. -/
theorem exists_raisedAnywhere_of_ofProgram (h : ofProgram settings p = .ok r) :
    ∃ raised, raisedAnywhere settings p = .ok raised ∧
      ∀ c ∈ raised, ∃ name s, r.procedures[Node.procedure name]? = some s ∧ c ∈ s := by
  have hall := exists_ofProgram_eq_ok_iff.1 ⟨r, h⟩
  obtain ⟨raised, hraised⟩ : ∃ raised, raisedAnywhere settings p = .ok raised := by
    refine exists_raisedAnywhere_eq_ok_iff.2 fun d hd b hb call hcall hraise => ?_
    exact hall d hd b hb call hcall (by simp [isPrimitive, hraise])
  refine ⟨raised, hraised, ?_⟩
  intro c hc
  obtain ⟨site, call, hsite, htarget, named, hnamed, hc⟩ := (mem_raisedAnywhere hraised).1 hc
  obtain ⟨d, hd, b, hb, hcall, rfl⟩ := Program.mem_callSites.1 hsite
  have hkey : .procedure d.name ∈ r.procedures := (mem_procedures_ofProgram h).2 ⟨d, hd, rfl⟩
  refine ⟨d.name, _, RequirementTable.getElem?_eq_some_requirement hkey, ?_⟩
  have htest : isPrimitive settings call = true := by simp [isPrimitive, Call.calls, htarget]
  exact (mem_requirement_ofProgram h).2 ⟨d, hd, rfl, b, hb, call, hcall, htest, named, hnamed, hc⟩

/-- Extraction is exact. It succeeds just if every call of a primitive in a definition names a set,
and otherwise its error is that of the first call that does not. The tables that it gives are those
of the program, and what is raised anywhere is then found too and is part of what the definitions
require. -/
theorem extraction_is_exact (settings : Settings) (p : Program) :
    ((∃ r, ofProgram settings p = .ok r) ↔
      ∀ d ∈ p.definitions, ∀ b ∈ d.blocks, ∀ call ∈ b.calls, isPrimitive settings call = true →
        ∃ s, call.capabilities ⟨d.name, b.label⟩ = .ok s) ∧
    (∀ e, ofProgram settings p = .error e ↔ p.firstRefusal? settings = some e) ∧
    ∀ r, ofProgram settings p = .ok r → r.ReadOff settings p ∧
      ∃ raised, raisedAnywhere settings p = .ok raised ∧
        ∀ c ∈ raised, ∃ name s, r.procedures[Node.procedure name]? = some s ∧ c ∈ s := by
  refine ⟨exists_ofProgram_eq_ok_iff, fun e => ofProgram_eq_error_iff, ?_⟩
  intro r h
  exact ⟨readOff_of_ofProgram h, exists_raisedAnywhere_of_ofProgram h⟩

/-- Two definitions of one name, both with a block `entry` that calls a primitive, and a block that
calls none. -/
def pooledUnit (args : List Operand) : Program where
  procedures :=
    [{ name := "main"
       blocks := [⟨"entry", [.call (.direct "priv_raise" [.i32 1, .i32 21]), .ret]⟩,
         ⟨"idle", [.ret]⟩] },
     { name := "main"
       blocks := [⟨"entry", [.call (.direct "priv_lower" args), .ret]⟩] }]

/-- The blocks `entry` share an entry of the tables. If the second call says that it passes two
capabilities and passes one, this is the error. -/
theorem extraction_is_exact_sample :
    (∃ r, ofProgram {} (pooledUnit [.i32 1, .i32 0]) = .ok r ∧
      r.blocks.toList = [(⟨"main", "entry"⟩, .ofList [.chown, .sysAdmin])] ∧
      r.procedures.toList = [(.procedure "main", .ofList [.chown, .sysAdmin])] ∧
      r.ReadOff {} (pooledUnit [.i32 1, .i32 0]) ∧
      ∃ raised, raisedAnywhere {} (pooledUnit [.i32 1, .i32 0]) = .ok raised) ∧
    ofProgram {} (pooledUnit [.i32 2, .i32 0]) =
      .error (.operandCountMismatch "priv_lower" "main" "entry" 2 1) := by
  constructor
  · refine ⟨_, rfl, by decide +kernel, by decide +kernel, ?_⟩
    obtain ⟨hread, raised, hraised, -⟩ :=
      (extraction_is_exact {} (pooledUnit [.i32 1, .i32 0])).2.2 _ rfl
    exact ⟨hread, raised, hraised⟩
  · exact ((extraction_is_exact {} (pooledUnit [.i32 2, .i32 0])).2.1 _).2 (by decide +kernel)

end LocalRequirements

end LeastPrivilege
