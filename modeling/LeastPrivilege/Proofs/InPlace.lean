import LeastPrivilege.Program.Rewriting
import LeastPrivilege.Proofs.ProgramGraph
import LeastPrivilege.Proofs.Results

/-!
# Passes that work in place

A pass first looks at its program, as long as something can still go wrong, and then changes it. The
changes look up again what they change. In a program whose names are used once, a block that was
found before is found then too: neither declarations nor changes to other blocks are in the way.
-/

namespace LeastPrivilege

theorem Block.isNone_terminator? {b : Block} : b.terminator?.isNone = false ↔
    ∃ op, b.operations.getLast? = some op ∧ op.isTerminator = true := by
  rw [Option.isNone_eq_false_iff, Option.isSome_iff_exists]
  exact exists_congr fun op => Option.filter_eq_some_iff

/-! ## Blocks under names -/

namespace Program

variable {p : Program} {ref : BlockRef} {f g : BlockRef → Block → Block} {b : Block}
  {name : String} {signature : Signature}

theorem checkSignature_eq_ok_iff (h : p.check = .ok ()) :
    p.checkSignature name signature = .ok () ↔
      ∀ e ∈ p.procedures, e.name = name → e.signature = signature := by
  rw [checkSignature]
  cases hfound : p.procedure? name with
  | none =>
    have hnone := procedure?_eq_none.1 hfound
    exact ⟨fun _ e he hname => absurd hname (hnone e he), fun _ => rfl⟩
  | some existing =>
    have hname : existing.name = name := by simpa using List.find?_some hfound
    have hmem := List.mem_of_find?_eq_some hfound
    by_cases heq : existing.signature = signature
    · simp only [heq, if_true, true_iff]
      intro e he hen
      rw [eq_of_check h he hmem (hen.trans hname.symm), heq]
    · simp only [heq, if_false]
      exact ⟨fun hok => (by cases hok), fun hall => absurd (hall existing hmem hname) heq⟩

/-- A block is found by two searches, of which the first must come to a procedure with a body. -/
theorem findBlock_eq_ok_iff_find? : p.findBlock ref = .ok b ↔
    ∃ e, p.procedure? ref.procedure = some e ∧ e.isDefinition = true ∧
      e.block? ref.block = some b := by
  rw [findBlock]
  cases hfound : p.procedure? ref.procedure with
  | none => simp
  | some e =>
    by_cases hbody : e.isDefinition = true
    · cases hblock : e.block? ref.block <;> simp [hbody, hblock, Option.filter_some]
    · simp [hbody, Option.filter_some]

theorem findBlock_eq_ok_iff (h : p.check = .ok ()) :
    p.findBlock ref = .ok b ↔ ∃ e ∈ p.definitions, e.name = ref.procedure ∧
      b ∈ e.blocks ∧ b.label = ref.block := by
  obtain ⟨hnames, hlabels⟩ := check_eq_ok_iff.1 h
  rw [findBlock_eq_ok_iff_find?]
  constructor
  · rintro ⟨e, hfound, hbody, hblock⟩
    refine ⟨e, mem_definitions.2 ⟨List.mem_of_find?_eq_some hfound, hbody⟩, ?_,
      List.mem_of_find?_eq_some hblock, ?_⟩
    · simpa using List.find?_some hfound
    · simpa using List.find?_some hblock
  · rintro ⟨e, he, hname, hb, hlabel⟩
    obtain ⟨hmem, hbody⟩ := mem_definitions.1 he
    exact ⟨e, hname ▸ find?_name_of_mem hnames hmem, hbody,
      hlabel ▸ find?_name_of_mem (hlabels e hmem) hb⟩

theorem mapBlocks_mapBlocks (hlabel : ∀ ref b, (f ref b).label = b.label) (p : Program) :
    (p.mapBlocks f).mapBlocks g = p.mapBlocks fun ref b => g ref (f ref b) := by
  simp [mapBlocks, hlabel]

theorem check_mapBlocks (hlabel : ∀ ref b, (f ref b).label = b.label) (h : p.check = .ok ()) :
    (p.mapBlocks f).check = .ok () := by
  rw [check_eq_ok_iff] at h ⊢
  simpa [mapBlocks, Function.comp_def, hlabel] using h

theorem mapBlocks_congr (h : ∀ d ∈ p.procedures, ∀ b ∈ d.blocks,
    f ⟨d.name, b.label⟩ b = g ⟨d.name, b.label⟩ b) : p.mapBlocks f = p.mapBlocks g := by
  simp only [mapBlocks, Program.mk.injEq, true_and]
  refine List.map_congr_left fun d hd => ?_
  rw [List.map_congr_left (h d hd)]

theorem procedure?_mapBlocks (f : BlockRef → Block → Block) (p : Program) (name : String) :
    (p.mapBlocks f).procedure? name = (p.procedure? name).map fun d =>
      { d with blocks := d.blocks.map fun b => f ⟨d.name, b.label⟩ b } := by
  rw [procedure?, mapBlocks, List.find?_map]
  rfl

theorem block?_map_blocks (hlabel : ∀ ref b, (f ref b).label = b.label) (d : Procedure)
    (label : String) :
    Procedure.block? { d with blocks := d.blocks.map fun b => f ⟨d.name, b.label⟩ b } label =
      (d.block? label).map (f ⟨d.name, label⟩) := by
  rw [Procedure.block?, Procedure.block?, List.find?_map, Function.comp_def]
  simp only [hlabel]
  cases hblock : d.blocks.find? (·.label == label) with
  | none => rfl
  | some b =>
    have hblockLabel : b.label = label := by simpa using List.find?_some hblock
    rw [Option.map_some, Option.map_some, hblockLabel]

theorem block?_mapBlocks (hlabel : ∀ ref b, (f ref b).label = b.label) (p : Program)
    (ref : BlockRef) : (p.mapBlocks f).block? ref = (p.block? ref).map (f ref) := by
  rw [block?, block?, procedure?_mapBlocks]
  cases hfound : p.procedure? ref.procedure with
  | none => rfl
  | some d =>
    have hname : d.name = ref.procedure := by simpa using List.find?_some hfound
    rw [Option.map_some, Option.bind_some, Option.bind_some, block?_map_blocks hlabel, hname]

theorem findBlock_mapBlocks (hlabel : ∀ ref b, (f ref b).label = b.label) (p : Program)
    (ref : BlockRef) : (p.mapBlocks f).findBlock ref = (p.findBlock ref).map (f ref) := by
  rw [findBlock, findBlock, procedure?_mapBlocks]
  cases hfound : p.procedure? ref.procedure with
  | none => rfl
  | some d =>
    have hname : d.name = ref.procedure := by simpa using List.find?_some hfound
    have hbody : Procedure.isDefinition
        { d with blocks := d.blocks.map fun b => f ⟨d.name, b.label⟩ b } = d.isDefinition := by
      simp [Procedure.isDefinition, Procedure.isDeclaration]
    rw [Option.map_some, Option.filter_some, Option.filter_some, hbody]
    cases d.isDefinition with
    | false => rfl
    | true =>
      simp only [if_true, block?_map_blocks hlabel]
      rw [hname]
      cases d.block? ref.block <;> rfl

/-- A procedure that is only declared hides no block and adds none. -/
theorem findBlock_declare (p : Program) (name : String) (signature : Signature) (ref : BlockRef) :
    (p.declare name signature).findBlock ref = p.findBlock ref := by
  rcases p.declare_cases name signature with ⟨-, heq⟩ | ⟨hnew, heq⟩
  · rw [heq]
  · have hprocedure : ((p.declare name signature).procedure? ref.procedure).filter
        Procedure.isDefinition = (p.procedure? ref.procedure).filter Procedure.isDefinition := by
      rw [heq, procedure?, procedure?, List.find?_append]
      cases p.procedures.find? (·.name == ref.procedure) with
      | some d => rfl
      | none =>
        by_cases hname : name = ref.procedure
        · simp [Procedure.declare, hname, Procedure.isDefinition, Procedure.isDeclaration]
        · simp [Procedure.declare, hname]
    rw [findBlock, findBlock, hprocedure]

theorem block?_declare (h : p.block? ref = some b) (name : String) (signature : Signature) :
    (p.declare name signature).block? ref = some b := by
  rcases p.declare_cases name signature with ⟨-, heq⟩ | ⟨-, heq⟩
  · rw [heq, h]
  · obtain ⟨e, he, hb⟩ := Option.bind_eq_some_iff.1 h
    rw [heq, block?, procedure?, List.find?_append, ← procedure?, he]
    exact hb

theorem mapBlocks_declare (f : BlockRef → Block → Block) (p : Program) (name : String)
    (signature : Signature) : (p.declare name signature).mapBlocks f =
      { p with
        procedures := (p.mapBlocks f).procedures ++
          if (p.procedure? name).isSome then [] else [.declare name signature] } := by
  rw [declare]
  cases p.procedure? name with
  | some e => simp [mapBlocks]
  | none => simp [mapBlocks, Procedure.declare]

theorem declare_mapBlocks (f : BlockRef → Block → Block) (p : Program) (name : String)
    (signature : Signature) :
    (p.mapBlocks f).declare name signature = (p.declare name signature).mapBlocks f := by
  rw [declare, declare, procedure?_mapBlocks]
  cases p.procedure? name with
  | some d => rfl
  | none => simp [mapBlocks, Procedure.declare]

theorem modifyBlock_eq_mapBlocks (h : p.check = .ok ()) (ref : BlockRef) (change : Block → Block) :
    p.modifyBlock ref change = p.mapBlocks fun r b => if r = ref then change b else b := by
  obtain ⟨procedure, label⟩ := ref
  have hprocedures := procedures_modifyBlock h ⟨procedure, label⟩ change
  change { p with procedures := (p.modifyBlock ⟨procedure, label⟩ change).procedures } = _
  simp only [hprocedures, mapBlocks, BlockRef.mk.injEq]

end Program

/-! ## Looking -/

namespace Rewriting

variable {α β : Type} {p q : Program}

/-- What is left by a pass that changes its program only if it succeeds. -/
def allOrNothing (p : Program) : Except Error (Program × α) → EStateM.Result Error Program α
  | .ok (q, a) => .ok a q
  | .error e => .error e p

theorem allOrNothing_eq_ok_iff {x : Except Error (Program × α)} {a : α} :
    allOrNothing p x = .ok a q ↔ x = .ok (q, a) := by
  rcases x with e | ⟨q', a'⟩
  · simp [allOrNothing]
  · simp [allOrNothing, and_comm]

theorem eq_of_allOrNothing_eq_error {x : Except Error (Program × α)} {e : Error}
    (h : allOrNothing p x = .error e q) : q = p := by
  rcases x with e' | ⟨q', a'⟩
  · cases h
    rfl
  · cases h

theorem run_inspect (look : Program → Except Error α) (p : Program) :
    (inspect look).run p = allOrNothing p ((look p).map (p, ·)) := by
  rw [inspect, EStateM.run_bind, EStateM.run_get]
  cases hlook : look p with
  | ok a =>
    simp only [hlook]
    rfl
  | error e =>
    simp only [hlook]
    rfl

theorem run_bind_of_ok {x : Rewriting α} {f : α → Rewriting β} {a : α} (h : x.run p = .ok a q) :
    (x >>= f).run p = (f a).run q := by
  rw [EStateM.run_bind, h]

/-- A pass that looks before it goes on changes all or nothing if what comes then does. -/
theorem run_inspect_bind {look : Program → Except Error α} {f : α → Rewriting β}
    {g : α → Except Error (Program × β)}
    (h : ∀ a, look p = .ok a → (f a).run p = allOrNothing p (g a)) :
    (inspect look >>= f).run p = allOrNothing p (look p >>= g) := by
  rw [EStateM.run_bind, run_inspect]
  cases hlook : look p with
  | ok a => exact h a hlook
  | error e => rfl

/-! ## Changing -/

theorem run_require (name : String) (signature : Signature) (p : Program) :
    (require name signature).run p =
      allOrNothing p ((p.require name signature).map (·, ())) := by
  change (inspect (·.require name signature) >>= set).run p = _
  rw [EStateM.run_bind, run_inspect]
  cases p.require name signature <;> rfl

theorem run_editBlock {ref : BlockRef} {edit : Block → α × Block} {b : Block}
    (hcheck : p.check = .ok ()) (hb : p.findBlock ref = .ok b) :
    (editBlock ref edit).run p =
      .ok (edit b).1 (p.mapBlocks fun r b => if r = ref then (edit b).2 else b) := by
  have hfound : (inspect (·.findBlock ref)).run p = .ok b p := by
    rw [run_inspect, hb]
    rfl
  rw [← Program.modifyBlock_eq_mapBlocks hcheck ref fun b => (edit b).2]
  exact run_bind_of_ok hfound

/-- What becomes of a block when the blocks under the given names are changed. -/
def edited (entries : List (BlockRef × β)) (edit : BlockRef → β → Block → α × Block)
    (ref : BlockRef) (b : Block) : Block :=
  entries.foldl (fun b entry => if ref = entry.1 then (edit entry.1 entry.2 b).2 else b) b

section Edited

variable {entries : List (BlockRef × β)} {edit : BlockRef → β → Block → α × Block} {ref : BlockRef}
  {b : Block} {x : β}

theorem edited_of_not_mem (h : ref ∉ entries.map Prod.fst) : edited entries edit ref b = b := by
  induction entries with
  | nil => rfl
  | cons entry entries ih =>
    obtain ⟨hne, hrest⟩ : ref ≠ entry.1 ∧ ref ∉ entries.map Prod.fst := by
      simpa [not_or] using h
    rw [edited, List.foldl_cons, if_neg hne]
    exact ih hrest

theorem edited_of_mem (hnodup : (entries.map Prod.fst).Nodup) (h : (ref, x) ∈ entries) :
    edited entries edit ref b = (edit ref x b).2 := by
  induction entries with
  | nil => cases h
  | cons entry entries ih =>
    obtain ⟨hnew, hrest⟩ := List.nodup_cons.1 hnodup
    rw [edited, List.foldl_cons]
    rcases List.mem_cons.1 h with rfl | h
    · rw [if_pos rfl]
      exact edited_of_not_mem hnew
    · have hne : ref ≠ entry.1 := by
        rintro rfl
        exact hnew (List.mem_map.2 ⟨_, h, rfl⟩)
      rw [if_neg hne]
      exact ih hrest h

theorem label_edited (hlabel : ∀ ref x b, (edit ref x b).2.label = b.label) (ref : BlockRef)
    (b : Block) : (edited entries edit ref b).label = b.label := by
  induction entries generalizing b with
  | nil => rfl
  | cons entry entries ih =>
    rw [edited, List.foldl_cons]
    refine (ih _).trans ?_
    split
    · exact hlabel _ _ _
    · rfl

/-- Changing blocks under different names finds them all as they were before. -/
theorem run_editBlocks {found : List α} (hlabel : ∀ ref x b, (edit ref x b).2.label = b.label)
    (hnodup : (entries.map Prod.fst).Nodup) (hcheck : p.check = .ok ())
    (hfound : List.Forall₂ (fun entry a => ∃ b, p.findBlock entry.1 = .ok b ∧
      (edit entry.1 entry.2 b).1 = a) entries found) :
    (editBlocks entries edit).run p = .ok found (p.mapBlocks (edited entries edit)) := by
  induction entries generalizing p found with
  | nil =>
    obtain rfl := List.forall₂_nil_left_iff.1 hfound
    simp [editBlocks, edited, Program.mapBlocks]
  | cons entry entries ih =>
    obtain ⟨hnew, hrest⟩ := List.nodup_cons.1 hnodup
    obtain ⟨a, later, ⟨b, hb, rfl⟩, hlater, rfl⟩ := List.forall₂_cons_left_iff.1 hfound
    have hone : ∀ r b, (if r = entry.1 then (edit entry.1 entry.2 b).2 else b).label = b.label := by
      intro r b
      split
      · exact hlabel _ _ _
      · rfl
    -- The names that are still to come are others, so what stands under them has not changed.
    have hkept : List.Forall₂ (fun e a => ∃ b,
        (p.mapBlocks fun r b => if r = entry.1 then (edit entry.1 entry.2 b).2 else b).findBlock
          e.1 = .ok b ∧ (edit e.1 e.2 b).1 = a) entries later := by
      refine ((List.forall₂_and_left ..).2 ⟨fun e he => he, hlater⟩).imp ?_
      rintro e a ⟨he, b, hb, rfl⟩
      have hne : e.1 ≠ entry.1 := fun heq => hnew (heq ▸ List.mem_map_of_mem he)
      refine ⟨b, ?_, rfl⟩
      rw [Program.findBlock_mapBlocks hone, hb]
      simp [Except.map, hne]
    have hrun := ih hrest (Program.check_mapBlocks hone hcheck) hkept
    rw [Program.mapBlocks_mapBlocks hone] at hrun
    rw [editBlocks, List.mapM_cons, run_bind_of_ok (run_editBlock hcheck hb)]
    exact run_bind_of_ok hrun

end Edited

end Rewriting

end LeastPrivilege
