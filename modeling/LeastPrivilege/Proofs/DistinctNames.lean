import LeastPrivilege.Proofs.InPlace
import LeastPrivilege.Proofs.Lists

/-!
# What the check of names guards

The check accepts the programs whose names are distinct, and for any other program it reports the
first name or label that was seen before. In a program that it accepts, a name finds one block:
replacing the operations of that block leaves all others alone, and neither this nor the declaration
of a procedure that is missing makes a name stand for two things.
-/

namespace LeastPrivilege

/-! ## The first repetition -/

theorem firstRepeat?_append {seen before : List String} (hnodup : before.Nodup)
    (hnew : ∀ x ∈ before, x ∉ seen) (rest : List String) :
    firstRepeat? seen (before ++ rest) = firstRepeat? (before.reverse ++ seen) rest := by
  induction before generalizing seen with
  | nil => rfl
  | cons x before ih =>
    obtain ⟨hx, hbefore⟩ := List.nodup_cons.1 hnodup
    have hseen : ¬seen.contains x = true := by simpa using hnew x List.mem_cons_self
    have hrest : ∀ y ∈ before, y ∉ x :: seen := by
      intro y hy hmem
      rcases List.mem_cons.1 hmem with rfl | hmem
      · exact hx hy
      · exact hnew y (List.mem_cons_of_mem _ hy) hmem
    rw [List.cons_append, firstRepeat?, if_neg hseen, ih hbefore hrest]
    simp

/-- An item that stands among the different items before it is the first repetition. -/
theorem firstRepeat?_of_mem {before : List String} {x : String} (hnodup : before.Nodup)
    (hx : x ∈ before) (after : List String) :
    firstRepeat? [] (before ++ x :: after) = some x := by
  have hseen : (before.reverse ++ []).contains x = true := by simpa using hx
  rw [firstRepeat?_append hnodup (by simp), firstRepeat?, if_pos hseen]

namespace Program

/-- The names of procedures differ, and so do the labels within each procedure. -/
structure DistinctNames (ps : List Procedure) : Prop where
  names : (ps.map Procedure.name).Nodup
  labels : ∀ d ∈ ps, (d.blocks.map Block.label).Nodup

/-- The first violation that is met when procedures are gone through in order, the name of each
before its labels, and the labels in the order of the blocks: all that comes before is distinct. -/
inductive FirstViolation : List Procedure → Error → Prop where
  | name {before after : List Procedure} {d : Procedure} (hbefore : DistinctNames before)
      (hname : d.name ∈ before.map Procedure.name) :
      FirstViolation (before ++ d :: after) (.duplicateProcedure d.name)
  | label {before after : List Procedure} {d : Procedure} {blocks rest : List Block} {b : Block}
      (hbefore : DistinctNames before) (hname : d.name ∉ before.map Procedure.name)
      (hblocks : d.blocks = blocks ++ b :: rest) (hlabels : (blocks.map Block.label).Nodup)
      (hlabel : b.label ∈ blocks.map Block.label) :
      FirstViolation (before ++ d :: after) (.duplicateBlock d.name b.label)

variable {p q : Program} {ps before : List Procedure} {d : Procedure} {e : Error}
  {seen : List String} {ref : BlockRef} {b : Block}

theorem checkProcedures_append (h : DistinctNames before)
    (hnew : ∀ d ∈ before, d.name ∉ seen) (rest : List Procedure) :
    checkProcedures seen (before ++ rest) =
      checkProcedures ((before.map Procedure.name).reverse ++ seen) rest := by
  induction before generalizing seen with
  | nil => rfl
  | cons d before ih =>
    obtain ⟨hd, hnames⟩ := List.nodup_cons.1 h.names
    have hseen : ¬seen.contains d.name = true := by simpa using hnew d List.mem_cons_self
    have hlabels : firstRepeat? [] (d.blocks.map Block.label) = none :=
      firstRepeat?_eq_none.2 ⟨h.labels d List.mem_cons_self, by simp⟩
    have hrest : ∀ c ∈ before, c.name ∉ d.name :: seen := by
      intro c hc hmem
      rcases List.mem_cons.1 hmem with heq | hmem
      · exact hd (heq ▸ List.mem_map_of_mem hc)
      · exact hnew c (List.mem_cons_of_mem _ hc) hmem
    rw [List.cons_append, checkProcedures, if_neg hseen, hlabels]
    simp only
    rw [ih ⟨hnames, fun c hc => h.labels c (List.mem_cons_of_mem _ hc)⟩ hrest]
    simp

/-- A first violation is what the check reports. -/
theorem checkProcedures_of_firstViolation (h : FirstViolation ps e) :
    checkProcedures [] ps = .error e := by
  cases h with
  | name hbefore hname =>
    rw [checkProcedures_append hbefore (by simp), checkProcedures, if_pos (by simpa using hname)]
  | label hbefore hname hblocks hlabels hlabel =>
    rw [checkProcedures_append hbefore (by simp), checkProcedures, if_neg (by simpa using hname),
      hblocks, List.map_append, List.map_cons, firstRepeat?_of_mem hlabels hlabel]

/-- Names are distinct, or there is a first violation. -/
theorem distinctNames_or_exists_firstViolation (ps : List Procedure) :
    DistinctNames ps ∨ ∃ e, FirstViolation ps e := by
  induction ps using List.reverseRecOn with
  | nil => exact Or.inl ⟨List.nodup_nil, by simp⟩
  | append_singleton ps d ih =>
    rcases ih with hps | ⟨e, he⟩
    · by_cases hname : d.name ∈ ps.map Procedure.name
      · exact Or.inr ⟨_, .name hps hname⟩
      rcases nodup_or_exists_repeat Block.label d.blocks with hlabels |
        ⟨blocks, b, rest, hblocks, hlabels, hlabel⟩
      · refine Or.inl ⟨nodup_map_concat hps.names hname, fun c hc => ?_⟩
        rcases List.mem_append.1 hc with hc | hc
        · exact hps.labels c hc
        · rwa [List.mem_singleton.1 hc]
      · exact Or.inr ⟨_, .label hps hname hblocks hlabels hlabel⟩
    · -- What comes behind a first violation does not matter.
      refine Or.inr ⟨e, ?_⟩
      cases he with
      | name hbefore hname =>
        rw [List.append_assoc, List.cons_append]
        exact .name hbefore hname
      | label hbefore hname hblocks hlabels hlabel =>
        rw [List.append_assoc, List.cons_append]
        exact .label hbefore hname hblocks hlabels hlabel

theorem check_eq_ok_iff_distinctNames : p.check = .ok () ↔ DistinctNames p.procedures := by
  rw [check_eq_ok_iff]
  exact ⟨fun h => ⟨h.1, h.2⟩, fun h => ⟨h.names, h.labels⟩⟩

theorem check_eq_error_iff : p.check = .error e ↔ FirstViolation p.procedures e := by
  constructor
  · intro h
    rcases distinctNames_or_exists_firstViolation p.procedures with hdistinct | ⟨e', he'⟩
    · rw [check_eq_ok_iff_distinctNames.2 hdistinct] at h
      cases h
    · have h' := checkProcedures_of_firstViolation he'
      rw [← check, h] at h'
      cases h'
      exact he'
  · exact checkProcedures_of_firstViolation

/-! ## Replacing the operations of a block -/

/-- The second program is the first with one block replaced, which is the one under a name. -/
structure ReplacedAt (p : Program) (ref : BlockRef) (b b' : Block) (q : Program) : Prop where
  /-- One block of one procedure is replaced, and all else stands as it did. -/
  one : ∃ ps d qs bs cs, p.procedures = ps ++ d :: qs ∧ d.blocks = bs ++ b :: cs ∧
    ref = ⟨d.name, b.label⟩ ∧
    q = { p with procedures := ps ++ { d with blocks := bs ++ b' :: cs } :: qs }
  /-- The new block is found under the name, and under other names what was found before. -/
  found : q.findBlock ref = .ok b'
  others : ∀ other, other ≠ ref → q.findBlock other = p.findBlock other

theorem modifyFirst_of_find? {α : Type} {test : α → Bool} {xs : List α} {x : α}
    (h : xs.find? test = some x) (f : α → α) : ∃ before after, xs = before ++ x :: after ∧
      modifyFirst test f xs = before ++ f x :: after := by
  obtain ⟨hx, before, after, rfl, hbefore⟩ := List.find?_eq_some_iff_append.1 h
  refine ⟨before, after, rfl, ?_⟩
  clear h
  induction before with
  | nil => rw [List.nil_append, modifyFirst, if_pos hx, List.nil_append]
  | cons y before ih =>
    obtain ⟨hy, hrest⟩ := List.forall_mem_cons.1 hbefore
    have hskip : ¬test y = true := by simpa using hy
    rw [List.cons_append, modifyFirst, if_neg hskip, ih hrest, List.cons_append]

theorem modifyBlock_split (h : p.findBlock ref = .ok b) (f : Block → Block) :
    ∃ ps d qs bs cs, p.procedures = ps ++ d :: qs ∧ d.blocks = bs ++ b :: cs ∧
      ref = ⟨d.name, b.label⟩ ∧
      p.modifyBlock ref f =
        { p with procedures := ps ++ { d with blocks := bs ++ f b :: cs } :: qs } := by
  obtain ⟨d, hd, -, hb⟩ := findBlock_eq_ok_iff_find?.1 h
  have hname : d.name = ref.procedure := by simpa using List.find?_some hd
  have hlabel : b.label = ref.block := by simpa using List.find?_some hb
  obtain ⟨bs, cs, hblocks, hmodified⟩ := modifyFirst_of_find? hb f
  obtain ⟨ps, qs, hprocedures, hall⟩ := modifyFirst_of_find? hd fun procedure =>
    { procedure with blocks := modifyFirst (·.label == ref.block) f procedure.blocks }
  refine ⟨ps, d, qs, bs, cs, hprocedures, hblocks, by rw [hname, hlabel], ?_⟩
  rw [modifyBlock, hall, hmodified]

/-- In a program that the check accepts, replacing the operations of a block that is found replaces
that block alone, and the check accepts the result. -/
theorem exists_replacedAt (hcheck : p.check = .ok ()) (h : p.findBlock ref = .ok b)
    (ops : List Operation) :
    ∃ q, (Rewriting.editBlock ref fun b => ((), { b with operations := ops })).run p = .ok () q ∧
      p.ReplacedAt ref b { b with operations := ops } q ∧ q.check = .ok () := by
  have hlabel : ∀ (r : BlockRef) (c : Block),
      (if r = ref then { c with operations := ops } else c).label = c.label := by
    intro r c
    split <;> rfl
  refine ⟨_, Rewriting.run_editBlock hcheck h, ⟨?_, ?_, ?_⟩, check_mapBlocks hlabel hcheck⟩
  · rw [← modifyBlock_eq_mapBlocks hcheck ref fun c => { c with operations := ops }]
    exact modifyBlock_split h _
  · rw [findBlock_mapBlocks hlabel, h]
    simp [Except.map]
  · intro other hne
    rw [findBlock_mapBlocks hlabel]
    cases p.findBlock other <;> simp [Except.map, hne]

end Program

/-! ## Declaring a procedure -/

/-- The program that a computation leaves, whether it fails or not. -/
def Rewriting.left {α : Type} : EStateM.Result Error Program α → Program
  | .ok _ q => q
  | .error _ q => q

/-- A signature that does not fit is that of a procedure which is present, so nothing is declared
then. -/
theorem Rewriting.left_require (name : String) (signature : Signature) (p : Program) :
    left ((require name signature).run p) = p.declare name signature := by
  rw [run_require, Program.require]
  cases hfits : p.checkSignature name signature with
  | ok u => rfl
  | error e =>
    rw [Program.declare]
    cases hfound : p.procedure? name with
    | some d => rfl
    | none => simp [Program.checkSignature, hfound] at hfits

namespace Program

/-- The check accepts the programs whose names are distinct and reports the first violation of any
other. In a program that it accepts, the operations of a block that is found can be replaced without
a change to any other block, and a procedure can be asked for without a change to any that is
present: at most one declaration is added. The check accepts what is left in both cases. -/
theorem check_guards_names (p : Program) :
    (p.check = .ok () ↔ DistinctNames p.procedures) ∧
    (∀ e, p.check = .error e ↔ FirstViolation p.procedures e) ∧
    (p.check = .ok () →
      (∀ ref b ops, p.findBlock ref = .ok b → ∃ q,
        (Rewriting.editBlock ref fun b => ((), { b with operations := ops })).run p = .ok () q ∧
        p.ReplacedAt ref b { b with operations := ops } q ∧ q.check = .ok ()) ∧
      ∀ name signature, ∃ q declared,
        Rewriting.left ((Rewriting.require name signature).run p) = q ∧
        q = { p with procedures := p.procedures ++ declared } ∧ q.check = .ok () ∧
        ((∃ d ∈ p.procedures, d.name = name) ∧ declared = [] ∨
          (∀ d ∈ p.procedures, d.name ≠ name) ∧ declared = [.declare name signature])) := by
  refine ⟨check_eq_ok_iff_distinctNames, fun e => check_eq_error_iff, fun hcheck =>
    ⟨fun ref b ops hb => exists_replacedAt hcheck hb ops, fun name signature => ?_⟩⟩
  rw [Rewriting.left_require]
  have haccepted : (p.declare name signature).check = .ok () := check_declare hcheck
  rcases p.declare_cases name signature with ⟨hpresent, heq⟩ | ⟨hnew, heq⟩
  · refine ⟨_, [], rfl, ?_, haccepted, Or.inl ⟨hpresent, rfl⟩⟩
    rw [heq, List.append_nil]
  · exact ⟨_, _, rfl, heq, haccepted, Or.inr ⟨hnew, rfl⟩⟩

/-- Two procedures with equal blocks under equal labels. -/
def twins : Program where
  name := "twins"
  procedures := [
    { name := "main", blocks := [⟨"entry", [.ret]⟩, ⟨"leave", [.ret]⟩] },
    { name := "work", blocks := [⟨"entry", [.ret]⟩, ⟨"leave", [.ret]⟩] }]

/-- Only the second of the equal blocks changes, and a third procedure can be declared. -/
theorem check_guards_names_twins : twins.check = .ok () ∧
    twins.findBlock ⟨"work", "entry"⟩ = .ok ⟨"entry", [.ret]⟩ ∧
    (∃ q, twins.ReplacedAt ⟨"work", "entry"⟩ ⟨"entry", [.ret]⟩ ⟨"entry", [.unreachable]⟩ q ∧
      q.check = .ok ()) ∧
    ∃ q, q = { twins with procedures := twins.procedures ++ [Procedure.declare "other" {}] } ∧
      q.check = .ok () := by
  have hcheck : twins.check = .ok () := by decide
  have hb : twins.findBlock ⟨"work", "entry"⟩ = .ok ⟨"entry", [.ret]⟩ := by decide
  obtain ⟨-, -, haccepted⟩ := check_guards_names twins
  obtain ⟨hreplaced, hdeclared⟩ := haccepted hcheck
  obtain ⟨q, -, hq, hqcheck⟩ := hreplaced _ _ [.unreachable] hb
  obtain ⟨r, declared, -, hr, hrcheck, ⟨hpresent, -⟩ | ⟨-, rfl⟩⟩ := hdeclared "other" {}
  · exact absurd hpresent (by decide)
  · exact ⟨hcheck, hb, ⟨q, hq, hqcheck⟩, r, hr, hrcheck⟩

/-- A repeated label is reported before the repeated name of a later procedure. -/
example : check { procedures := [
    { name := "main", blocks := [⟨"entry", []⟩, ⟨"leave", []⟩, ⟨"entry", []⟩] },
    { name := "main" }] } = .error (.duplicateBlock "main" "entry") := by
  decide

end Program

end LeastPrivilege
