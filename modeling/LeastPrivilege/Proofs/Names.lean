import LeastPrivilege.Program.Lookup
import LeastPrivilege.Proofs.Lists

/-!
# Names that stand for one thing

The check of a program accepts it just if no two procedures share a name and no two blocks of a
procedure share a label. In such a program a change to what has a given name is a change to one
thing, and a declaration that is missing can be added.
-/

namespace LeastPrivilege

/-- An item is changed only once if the items behind one that passes the test all fail it. -/
theorem modifyFirst_eq_map {α : Type} {test : α → Bool} {f : α → α} {xs : List α}
    (h : xs.Pairwise fun x y => test x = true → test y = false) :
    modifyFirst test f xs = xs.map fun x => if test x then f x else x := by
  induction xs with
  | nil => rfl
  | cons x xs ih =>
    obtain ⟨hx, hxs⟩ := List.pairwise_cons.1 h
    rw [modifyFirst, List.map_cons]
    by_cases htest : test x = true
    · have hrest : (xs.map fun y => if test y then f y else y) = xs := by
        refine (List.map_congr_left fun y hy => ?_).trans (List.map_id xs)
        simp [hx y hy htest]
      simp only [htest, if_true, hrest]
    · simp only [htest, ih hxs, Bool.false_eq_true, if_false]

/-- Among items with different names, only one can pass the test for a name. -/
theorem pairwise_name_test {α : Type} {f : α → String} {xs : List α} (h : (xs.map f).Nodup)
    (name : String) : xs.Pairwise fun x y => (f x == name) = true → (f y == name) = false := by
  refine (List.pairwise_map.1 h).imp ?_
  intro x y hne hx
  rw [beq_eq_false_iff_ne]
  rintro rfl
  exact hne (beq_iff_eq.1 hx)

theorem find?_name_of_mem {α : Type} {f : α → String} {xs : List α} (h : (xs.map f).Nodup) {x : α}
    (hx : x ∈ xs) : xs.find? (f · == f x) = some x := by
  cases hfound : xs.find? (f · == f x) with
  | none => exact absurd (List.find?_eq_none.1 hfound x hx) (by simp)
  | some y =>
    have hname : f y = f x := by simpa using List.find?_some hfound
    rw [List.inj_on_of_nodup_map h (List.mem_of_find?_eq_some hfound) hx hname]

theorem exists_find?_of_forall₂ {α β : Type} {R : α → β → Prop} {f : α → String}
    {g : β → String} {xs : List α} {ys : List β} (h : List.Forall₂ R xs ys)
    (hname : ∀ x y, R x y → g y = f x) {name : String} {x : α}
    (hx : xs.find? (f · == name) = some x) : ∃ y, ys.find? (g · == name) = some y ∧ R x y := by
  induction h with
  | nil => cases hx
  | @cons a b xs ys hab _ ih =>
    by_cases ha : f a = name
    · rw [List.find?_cons_of_pos (by simpa using ha)] at hx
      obtain rfl := Option.some.inj hx
      exact ⟨b, List.find?_cons_of_pos (by simpa [hname a b hab] using ha), hab⟩
    · rw [List.find?_cons_of_neg (by simpa using ha)] at hx
      obtain ⟨y, hy, hxy⟩ := ih hx
      refine ⟨y, ?_, hxy⟩
      rw [List.find?_cons_of_neg (by simpa [hname a b hab] using ha), hy]

theorem firstRepeat?_eq_none {seen xs : List String} :
    firstRepeat? seen xs = none ↔ xs.Nodup ∧ ∀ x ∈ xs, x ∉ seen := by
  induction xs generalizing seen with
  | nil => simp [firstRepeat?]
  | cons x xs ih =>
    rw [firstRepeat?]
    by_cases hx : x ∈ seen
    · simp [hx]
    · rw [if_neg (by simpa using hx), ih, List.nodup_cons, List.forall_mem_cons]
      constructor
      · rintro ⟨hnodup, hnew⟩
        have hback : x ∉ xs := fun hin => hnew x hin List.mem_cons_self
        exact ⟨⟨hback, hnodup⟩, hx, fun y hy hseen => hnew y hy (List.mem_cons_of_mem _ hseen)⟩
      · rintro ⟨⟨hback, hnodup⟩, -, hnew⟩
        refine ⟨hnodup, fun y hy hseen => ?_⟩
        rcases List.mem_cons.1 hseen with rfl | hseen
        · exact hback hy
        · exact hnew y hy hseen

namespace Program

variable {p : Program} {name : String} {signature : Signature}

theorem checkProcedures_eq_ok_iff {seen : List String} {ps : List Procedure} :
    checkProcedures seen ps = .ok () ↔ firstRepeat? seen (ps.map Procedure.name) = none ∧
      ∀ d ∈ ps, firstRepeat? [] (d.blocks.map Block.label) = none := by
  induction ps generalizing seen with
  | nil => simp [checkProcedures, firstRepeat?]
  | cons d ps ih =>
    rw [checkProcedures, List.map_cons, firstRepeat?]
    by_cases hseen : d.name ∈ seen
    · simp [hseen]
    · have hnew : ¬seen.contains d.name = true := by simpa using hseen
      rw [if_neg hnew, if_neg hnew]
      cases hlabels : firstRepeat? [] (d.blocks.map Block.label) with
      | some label => simp [hlabels]
      | none => simp [hlabels, ih]

/-- The check accepts a program just if names and labels are used once. -/
theorem check_eq_ok_iff :
    p.check = .ok () ↔ (p.procedures.map Procedure.name).Nodup ∧
      ∀ d ∈ p.procedures, (d.blocks.map Block.label).Nodup := by
  simp [check, checkProcedures_eq_ok_iff, firstRepeat?_eq_none]

/-- Where names are used once, changing the block under a name changes all blocks under it. -/
theorem procedures_modifyBlock (h : p.check = .ok ()) (ref : BlockRef) (f : Block → Block) :
    (p.modifyBlock ref f).procedures = p.procedures.map fun d =>
      { d with
        blocks := d.blocks.map fun b =>
          if d.name = ref.procedure ∧ b.label = ref.block then f b else b } := by
  obtain ⟨hnames, hlabels⟩ := check_eq_ok_iff.1 h
  rw [modifyBlock, modifyFirst_eq_map (pairwise_name_test hnames ref.procedure)]
  refine List.map_congr_left fun d hd => ?_
  by_cases hname : d.name = ref.procedure
  · simp [hname, modifyFirst_eq_map (pairwise_name_test (hlabels d hd) ref.block)]
  · simp [hname]

theorem block?_of_mem (h : p.check = .ok ()) {d : Procedure} {b : Block} (hd : d ∈ p.procedures)
    (hb : b ∈ d.blocks) : p.block? ⟨d.name, b.label⟩ = some b := by
  obtain ⟨hnames, hlabels⟩ := check_eq_ok_iff.1 h
  rw [block?, procedure?, find?_name_of_mem hnames hd]
  exact find?_name_of_mem (hlabels d hd) hb

theorem exists_procedure_of_block? {ref : BlockRef} {b : Block} (h : p.block? ref = some b) :
    ∃ d ∈ p.procedures, d.name = ref.procedure ∧ b ∈ d.blocks ∧ b.label = ref.block := by
  obtain ⟨d, hd, hb⟩ := Option.bind_eq_some_iff.1 h
  refine ⟨d, List.mem_of_find?_eq_some hd, ?_, List.mem_of_find?_eq_some hb, ?_⟩
  · simpa using List.find?_some hd
  · simpa using List.find?_some hb

/-- Declaring adds at most one declaration, whose name is new. -/
theorem declare_cases (p : Program) (name : String) (signature : Signature) :
    (∃ d ∈ p.procedures, d.name = name) ∧ p.declare name signature = p ∨
      (∀ d ∈ p.procedures, d.name ≠ name) ∧ p.declare name signature =
        { p with procedures := p.procedures ++ [Procedure.declare name signature] } := by
  cases hfound : p.procedure? name with
  | some d =>
    refine Or.inl ⟨⟨d, List.mem_of_find?_eq_some hfound, ?_⟩, by rw [declare, hfound]⟩
    simpa using List.find?_some hfound
  | none =>
    exact Or.inr ⟨by simpa [procedure?] using hfound, by rw [declare, hfound]⟩

theorem check_declare (h : p.check = .ok ()) : (p.declare name signature).check = .ok () := by
  rcases declare_cases p name signature with ⟨-, heq⟩ | ⟨hnew, heq⟩
  · rw [heq, h]
  · rw [heq, check_eq_ok_iff]
    obtain ⟨hnames, hlabels⟩ := check_eq_ok_iff.1 h
    constructor
    · simpa [Procedure.declare, List.nodup_append] using ⟨hnames, hnew⟩
    · intro d hd
      rcases List.mem_append.1 hd with hd | hd
      · exact hlabels d hd
      · simp [List.mem_singleton.1 hd, Procedure.declare]

end Program

end LeastPrivilege
