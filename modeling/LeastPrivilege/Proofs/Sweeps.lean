import LeastPrivilege.Proofs.Tables
import LeastPrivilege.Requirement.Propagation

/-!
# One table instead of two

Propagation keeps two tables and a flag. The tables are equal before the first pass and after every
update, since what is joined to the output of a node is joined to its input at once; and the flag
tells whether they have grown. So a pass can be followed on one table, and it is the last pass just
if that table gives no node more than before.
-/

namespace LeastPrivilege.Propagation

/-! ## Joining sets -/

theorem join_eq (collected : CapabilitySet × Bool) (s : CapabilitySet) :
    join collected s = (collected.1 ∪ s, collected.2 || !decide (s ⊆ collected.1)) := by
  rw [join, CapabilitySet.unionWith_eq]

/-- Joining two sets one after the other adds something if joining them at once does. -/
theorem join_join (collected : CapabilitySet × Bool) (s t : CapabilitySet) :
    join (join collected s) t = join collected (s ∪ t) := by
  have hsub : s ∪ t ⊆ collected.1 ↔ s ⊆ collected.1 ∧ t ⊆ collected.1 ∪ s := by
    simp only [CapabilitySet.subset_def, CapabilitySet.mem_union]
    constructor
    · exact fun h => ⟨fun c hc => h c (Or.inl hc), fun c hc => Or.inl (h c (Or.inr hc))⟩
    · rintro ⟨hs, ht⟩ c (hc | hc)
      · exact hs c hc
      · exact (ht c hc).elim id (hs c)
  simp only [join_eq, Prod.mk.injEq]
  constructor
  · apply CapabilitySet.ext
    simp [or_assoc]
  · rw [decide_eq_decide.2 hsub, Bool.decide_and, Bool.not_and, Bool.or_assoc]

/-- The members of all sets of a list. -/
def joined (sets : List CapabilitySet) : CapabilitySet :=
  sets.foldr (· ∪ ·) ∅

theorem mem_joined {sets : List CapabilitySet} {c : Capability} :
    c ∈ joined sets ↔ ∃ s ∈ sets, c ∈ s := by
  induction sets with
  | nil => simp [joined]
  | cons s sets ih =>
    rw [joined, List.foldr_cons, CapabilitySet.mem_union, ← joined, ih]
    simp

theorem foldl_join (sets : List CapabilitySet) (collected : CapabilitySet × Bool) :
    sets.foldl join collected = join collected (joined sets) := by
  induction sets generalizing collected with
  | nil =>
    have hnew : (∅ : CapabilitySet) ⊆ collected.1 := fun c hc => absurd hc (by simp)
    have hsame : collected.1 ∪ ∅ = collected.1 := CapabilitySet.ext (by simp)
    rw [List.foldl_nil, join_eq, joined, List.foldr_nil, hsame]
    simp [hnew]
  | cons s sets ih => rw [List.foldl_cons, ih, join_join, joined, joined, List.foldr_cons]

/-! ## A table that keeps step -/

namespace Sweep

variable {s : Sweep} {old t : RequirementTable}

/-- Both tables of a pass are the given one, which has grown from an old one, and the flag tells
whether it gives some node more than that did. -/
structure Tracks (s : Sweep) (old t : RequirementTable) : Prop where
  input_eq : s.input = t
  output_eq : s.output = t
  grown : ∀ n c, c ∈ old.requirement n → c ∈ t.requirement n
  changed_iff : s.changed = true ↔ ∃ n c, c ∈ t.requirement n ∧ c ∉ old.requirement n

theorem tracks_begin (hinput : s.input = t) (houtput : s.output = t) :
    Tracks { s with changed := false } t t where
  input_eq := hinput
  output_eq := houtput
  grown := fun _ _ hc => hc
  changed_iff := by simp

/-- Where the tables are equal, an update adds the same to both. -/
theorem update_eq (hinput : s.input = t) (houtput : s.output = t) (n : Node)
    (sets : List CapabilitySet) :
    s.update n sets =
      { input := t.add n (joined sets)
        output := t.add n (joined sets)
        changed := s.changed || !decide (joined sets ⊆ t.requirement n) } := by
  have hsame : t.requirement n ∪ (t.requirement n ∪ joined sets) =
      t.requirement n ∪ joined sets := CapabilitySet.ext (by simp)
  have hsub : t.requirement n ∪ joined sets ⊆ t.requirement n ↔
      joined sets ⊆ t.requirement n := by
    simp only [CapabilitySet.subset_def, CapabilitySet.mem_union]
    exact ⟨fun h c hc => h c (Or.inr hc), fun h c hc => hc.elim id (h c)⟩
  simp only [update, foldl_join, join_eq, hinput, houtput, hsame, decide_eq_decide.2 hsub,
    RequirementTable.add, Bool.or_assoc, Bool.or_self]

theorem Tracks.update (h : s.Tracks old t) (n : Node) (sets : List CapabilitySet) :
    (s.update n sets).Tracks old (t.add n (joined sets)) := by
  have hadd : ∀ m c, c ∈ (t.add n (joined sets)).requirement m ↔
      c ∈ t.requirement m ∨ m = n ∧ c ∈ joined sets :=
    fun m c => RequirementTable.mem_requirement_add
  rw [update_eq h.input_eq h.output_eq]
  refine ⟨rfl, rfl, fun m c hc => (hadd m c).2 (Or.inl (h.grown m c hc)), ?_⟩
  rw [Bool.or_eq_true, h.changed_iff, Bool.not_eq_true', decide_eq_false_iff_not,
    CapabilitySet.subset_def]
  simp only [not_forall, exists_prop]
  constructor
  · rintro (⟨m, c, hc, hold⟩ | ⟨c, hc, hnew⟩)
    · exact ⟨m, c, (hadd m c).2 (Or.inl hc), hold⟩
    · exact ⟨n, c, (hadd n c).2 (Or.inr ⟨rfl, hc⟩), fun hold => hnew (h.grown n c hold)⟩
  · rintro ⟨m, c, hc, hold⟩
    by_cases ht : c ∈ t.requirement m
    · exact Or.inl ⟨m, c, ht, hold⟩
    · rcases (hadd m c).1 hc with hthere | ⟨rfl, hnew⟩
      · exact absurd hthere ht
      · exact Or.inr ⟨c, hnew, ht⟩

end Sweep

namespace Problem

variable {q : Problem} {s : Sweep} {old t : RequirementTable}

/-- What a node requires, going by a table of what its successors require. -/
def required (q : Problem) (t : RequirementTable) (n : Node) : CapabilitySet :=
  joined ((q.successorsOf n).map t.requirement ++ [q.direct.requirement n])

/-- The update of one node on one table. -/
def extend (q : Problem) (t : RequirementTable) (n : Node) : RequirementTable :=
  if n = .unknownCallees then t else t.add n (q.required t n)

/-- One pass on one table. -/
def round (q : Problem) (t : RequirementTable) : RequirementTable :=
  let t := q.graph.nodes.foldl q.extend t
  t.add .unknownCallees (t.requirement .unknownCallers)

theorem tracks_visit (h : s.Tracks old t) (n : Node) :
    (q.visit s n).Tracks old (q.extend t n) := by
  rw [visit, extend]
  split
  · exact h
  · rw [required, ← h.input_eq]
    have hupdate := h.update n ((q.successorsOf n).map s.input.requirement ++
      [q.direct.requirement n])
    rwa [← h.input_eq] at hupdate

theorem tracks_foldl_visit (h : s.Tracks old t) (nodes : List Node) :
    (nodes.foldl q.visit s).Tracks old (nodes.foldl q.extend t) := by
  induction nodes generalizing s t with
  | nil => exact h
  | cons n nodes ih => exact ih (tracks_visit h n)

/-- After a pass both tables are what the pass makes of one, and the flag tells whether any node has
got more. -/
theorem tracks_pass (hinput : s.input = t) (houtput : s.output = t) :
    (q.pass s).Tracks t (q.round t) := by
  have hvisits := tracks_foldl_visit (Sweep.tracks_begin hinput houtput) (q := q) q.graph.nodes
  have hupdate := hvisits.update .unknownCallees
    [(q.graph.nodes.foldl q.extend t).requirement .unknownCallers]
  have hlast : joined [(q.graph.nodes.foldl q.extend t).requirement .unknownCallers] =
      (q.graph.nodes.foldl q.extend t).requirement .unknownCallers :=
    CapabilitySet.ext fun c => by simp [mem_joined]
  rw [hlast] at hupdate
  rw [pass, round]
  simp only [hvisits.input_eq]
  exact hupdate

end Problem

end LeastPrivilege.Propagation
