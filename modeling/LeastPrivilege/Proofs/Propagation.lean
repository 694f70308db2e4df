import LeastPrivilege.Proofs.Reachability
import LeastPrivilege.Proofs.Sweeps

/-!
# Propagation finds what each node requires

Passes over the graph never give a node more than it requires, and a number of passes gives it at
least what it requires within as many rounds. After as many passes as there are nodes the table is
therefore exact, and the next pass changes nothing.
-/

namespace LeastPrivilege.Propagation

namespace Problem

variable {q : Problem} {c : Capability} {n m : Node} {e : CallEdge} {t t' : RequirementTable}
  {s u : Sweep} {nodes : List Node} {k fuel : Nat}

/-! ## One node -/

theorem leads_of_mem_successors (he : e ∈ q.graph.callees n) (hm : m ∈ q.successors n e)
    (hnode : m ∈ q.graph.nodes) : q.Leads n m := by
  obtain ⟨callee, site⟩ := e
  cases callee with
  | unknownCallers => simp [successors] at hm
  | procedure name =>
    by_cases hentry : name = q.entry
    · simp [successors, hentry] at hm
    · obtain rfl : m = .procedure name := by simpa [successors, hentry] using hm
      exact .call he hentry
  | unknownCallees =>
    cases n with
    | unknownCallees =>
      obtain rfl : m = .unknownCallees := by simpa [successors, Node.procedure?] using hm
      exact .unresolved he (by simp)
    | unknownCallers =>
      obtain rfl : m = .unknownCallees := by simpa [successors, Node.procedure?] using hm
      exact .unresolved he (by simp)
    | procedure caller =>
      cases site with
      | none =>
        obtain rfl : m = .unknownCallees := by simpa [successors, Node.procedure?] using hm
        exact .unresolved he (by simp)
      | some s =>
        cases hr : q.resolver caller s with
        | none =>
          obtain rfl : m = .unknownCallees := by
            simpa [successors, Node.procedure?, hr] using hm
          refine .unresolved he ?_
          rintro _ _ ⟨⟩ ⟨⟩
          exact hr
        | some targets =>
          obtain ⟨name, ⟨hmem, hentry⟩, rfl⟩ :
              ∃ name, (name ∈ targets ∧ name ≠ q.entry) ∧ Node.procedure name = m := by
            simpa [successors, Node.procedure?, hr] using hm
          exact .resolved he hr hmem hnode hentry

theorem leads_of_mem_successorsOf (hm : m ∈ q.successorsOf n) (hnode : m ∈ q.graph.nodes) :
    q.Leads n m := by
  obtain ⟨e, he, hm⟩ := List.mem_flatMap.1 hm
  exact leads_of_mem_successors he hm hnode

theorem Leads.mem_successorsOf (h : q.Leads n m) (hn : n ≠ .unknownCallees) :
    m ∈ q.successorsOf n := by
  cases h with
  | call hedge hentry => exact List.mem_flatMap.2 ⟨_, hedge, by simp [successors, hentry]⟩
  | resolved hedge htargets hmem hnode hentry =>
    refine List.mem_flatMap.2 ⟨_, hedge, ?_⟩
    simp [successors, Node.procedure?, htargets, hmem, hentry]
  | @unresolved _ site hedge hnone =>
    refine List.mem_flatMap.2 ⟨_, hedge, ?_⟩
    cases n with
    | unknownCallees => exact absurd rfl hn
    | unknownCallers => simp [successors, Node.procedure?]
    | procedure caller =>
      cases site with
      | none => simp [successors, Node.procedure?]
      | some s => simp [successors, Node.procedure?, hnone caller s rfl rfl]
  | callBack => exact absurd rfl hn

theorem mem_required :
    c ∈ q.required t n ↔
      c ∈ q.direct.requirement n ∨ ∃ m ∈ q.successorsOf n, c ∈ t.requirement m := by
  rw [required, mem_joined, or_comm]
  simp [or_and_right, exists_or]

/-- A table that gives no node more than it requires. -/
def Sound (q : Problem) (t : RequirementTable) : Prop :=
  ∀ n c, c ∈ t.requirement n → q.Requires c n

theorem Sound.required (hg : q.graph.WellFormed) (ht : q.Sound t) (hn : n ∈ q.graph.nodes)
    (hne : n ≠ .unknownCallees) (hc : c ∈ q.required t n) : q.Requires c n := by
  rcases mem_required.1 hc with hown | ⟨m, hm, hc⟩
  · exact Owns.requires ⟨hn, hne, hown⟩
  · have hreq := ht m c hc
    exact (leads_of_mem_successorsOf hm (hreq.mem_nodes hg)).requires hreq

theorem mem_requirement_extend :
    c ∈ (q.extend t n).requirement m ↔
      c ∈ t.requirement m ∨ m = n ∧ n ≠ .unknownCallees ∧ c ∈ q.required t n := by
  rw [extend]
  split
  · next h => simp [h]
  · next h =>
    rw [RequirementTable.mem_requirement_add, and_iff_right h]

theorem mem_extend (hn : n ∈ t) : m ∈ q.extend t n ↔ m ∈ t := by
  rw [extend]
  split
  · rfl
  · rw [RequirementTable.mem_add]
    exact or_iff_right_of_imp fun h => h ▸ hn

/-! ## One pass -/

theorem foldl_extend_grows (h : c ∈ t.requirement m) :
    c ∈ (nodes.foldl q.extend t).requirement m := by
  induction nodes generalizing t with
  | nil => exact h
  | cons n nodes ih => exact ih (mem_requirement_extend.2 (Or.inl h))

theorem Sound.foldl_extend (hg : q.graph.WellFormed) (ht : q.Sound t)
    (hnodes : ∀ n ∈ nodes, n ∈ q.graph.nodes) : q.Sound (nodes.foldl q.extend t) := by
  induction nodes generalizing t with
  | nil => exact ht
  | cons n nodes ih =>
    refine ih ?_ fun m hm => hnodes m (List.mem_cons_of_mem n hm)
    intro m c hc
    rcases mem_requirement_extend.1 hc with hold | ⟨rfl, hne, hnew⟩
    · exact ht m c hold
    · exact ht.required hg (hnodes _ List.mem_cons_self) hne hnew

theorem foldl_extend_covers (hn : n ∈ nodes) (hne : n ≠ .unknownCallees)
    (hc : c ∈ q.required t n) : c ∈ (nodes.foldl q.extend t).requirement n := by
  induction nodes generalizing t with
  | nil => simp at hn
  | cons m nodes ih =>
    rw [List.foldl_cons]
    rcases List.mem_cons.1 hn with rfl | hn
    · exact foldl_extend_grows (mem_requirement_extend.2 (Or.inr ⟨rfl, hne, hc⟩))
    · -- The visit of another node only adds to what is read when it is the turn of this one.
      refine ih hn (mem_required.2 ((mem_required.1 hc).imp_right ?_))
      rintro ⟨r, hr, hcr⟩
      exact ⟨r, hr, mem_requirement_extend.2 (Or.inl hcr)⟩

theorem mem_foldl_extend (hnodes : ∀ n ∈ nodes, n ∈ t) :
    m ∈ nodes.foldl q.extend t ↔ m ∈ t := by
  induction nodes generalizing t with
  | nil => rfl
  | cons n nodes ih =>
    have hn : n ∈ t := hnodes n List.mem_cons_self
    rw [List.foldl_cons, ih, mem_extend hn]
    intro r hr
    exact (mem_extend hn).2 (hnodes r (List.mem_cons_of_mem n hr))

theorem mem_requirement_round :
    c ∈ (q.round t).requirement m ↔
      c ∈ (q.graph.nodes.foldl q.extend t).requirement m ∨
        m = .unknownCallees ∧
          c ∈ (q.graph.nodes.foldl q.extend t).requirement .unknownCallers :=
  RequirementTable.mem_requirement_add

theorem round_grows (h : c ∈ t.requirement m) : c ∈ (q.round t).requirement m :=
  mem_requirement_round.2 (Or.inl (foldl_extend_grows h))

theorem Sound.round (hg : q.graph.WellFormed) (ht : q.Sound t) : q.Sound (q.round t) := by
  have hvisits : q.Sound (q.graph.nodes.foldl q.extend t) := ht.foldl_extend hg fun _ h => h
  intro m c hc
  rcases mem_requirement_round.1 hc with hold | ⟨rfl, hnew⟩
  · exact hvisits m c hold
  · exact Leads.callBack.requires (hvisits _ c hnew)

/-- A table that gives each node at least what it requires within a number of rounds. -/
def Covers (q : Problem) (k : Nat) (t : RequirementTable) : Prop :=
  ∀ n c, q.RequiresWithin c k n → c ∈ t.requirement n

/-- A pass makes up for one more round. -/
theorem Covers.round (hg : q.graph.WellFormed) (ht : q.Covers k t) :
    q.Covers (k + 1) (q.round t) := by
  intro n c hn
  by_cases hne : n = .unknownCallees
  · -- The callees outside are never visited. They get the set of the callers outside at the end.
    subst hne
    rcases hn with hown | ⟨m, hlead, hm⟩
    · exact absurd rfl hown.2.1
    · obtain rfl := hlead.eq_unknownCallers hg
      exact mem_requirement_round.2 (Or.inr ⟨rfl, foldl_extend_grows (ht _ c hm)⟩)
  · have hreq : c ∈ q.required t n := by
      rcases hn with hown | ⟨m, hlead, hm⟩
      · exact mem_required.2 (Or.inl hown.2.2)
      · exact mem_required.2 (Or.inr ⟨m, hlead.mem_successorsOf hne, ht m c hm⟩)
    have hnode : n ∈ q.graph.nodes := (RequiresWithin.requires hn).mem_nodes hg
    exact mem_requirement_round.2 (Or.inl (foldl_extend_covers hnode hne hreq))

/-- A table with an entry for each node of the graph. -/
def Complete (q : Problem) (t : RequirementTable) : Prop :=
  ∀ n ∈ q.graph.nodes, n ∈ t

theorem Complete.mem_round (hg : q.graph.WellFormed) (ht : q.Complete t) :
    m ∈ q.round t ↔ m ∈ t := by
  have hvisits : m ∈ q.graph.nodes.foldl q.extend t ↔ m ∈ t := mem_foldl_extend ht
  refine RequirementTable.mem_add.trans (Iff.trans (or_iff_right_of_imp ?_) hvisits)
  rintro rfl
  exact hvisits.2 (ht _ hg.unknownCallees_mem)

/-- A pass leaves a table alone that gives each node just what it requires. -/
theorem round_eq_self (hg : q.graph.WellFormed) (hnodes : q.Complete t) (hsound : q.Sound t)
    (hcovers : q.Covers q.graph.nodeCount t) : q.round t = t := by
  apply RequirementTable.ext_requirement
  · intro n
    exact hnodes.mem_round hg
  · intro n c
    constructor
    · intro hc
      exact hcovers n c ((hsound.round hg n c hc).within_nodeCount hg)
    · exact round_grows

/-! ## All passes -/

theorem mem_start : n ∈ q.start ↔ n ∈ q.graph.nodes ∨ n ∈ q.direct := by
  rw [start, RequirementTable.mem_foldl_add, RequirementTable.mem_zeroed, or_comm]
  simp

theorem not_mem_requirement_start : c ∉ q.start.requirement n := by
  simp [start, RequirementTable.mem_requirement_foldl_add]

theorem mem_iterate_round (hg : q.graph.WellFormed) :
    n ∈ q.round^[k] q.start ↔ n ∈ q.graph.nodes ∨ n ∈ q.direct := by
  induction k generalizing n with
  | zero => exact mem_start
  | succ k ih =>
    have hcomplete : q.Complete (q.round^[k] q.start) := fun m hm => ih.2 (Or.inl hm)
    rw [Function.iterate_succ_apply', hcomplete.mem_round hg, ih]

theorem sound_iterate_round (hg : q.graph.WellFormed) : q.Sound (q.round^[k] q.start) := by
  induction k with
  | zero => exact fun n c hc => absurd hc not_mem_requirement_start
  | succ k ih =>
    rw [Function.iterate_succ_apply']
    exact ih.round hg

theorem covers_iterate_round (hg : q.graph.WellFormed) : q.Covers k (q.round^[k] q.start) := by
  induction k with
  | zero => exact fun n c hn => hn.elim
  | succ k ih =>
    rw [Function.iterate_succ_apply']
    exact ih.round hg

theorem quiet_at_nodeCount (hg : q.graph.WellFormed) :
    q.round (q.round^[q.graph.nodeCount] q.start) = q.round^[q.graph.nodeCount] q.start :=
  round_eq_self hg (fun _ hn => (mem_iterate_round hg).2 (Or.inl hn)) (sound_iterate_round hg)
    (covers_iterate_round hg)

/-- Passes are made without a limit until one adds nothing. The second state is then the last one,
and the number is that of the passes. -/
inductive Settles (q : Problem) : Sweep → Sweep → Nat → Prop
  | quiet {s : Sweep} (h : (q.pass s).changed = false) : Settles q s (q.pass s) 1
  | again {s u : Sweep} {k : Nat} (h : (q.pass s).changed = true)
      (hrest : Settles q (q.pass s) u k) : Settles q s u (k + 1)

/-- The passes come to an end if one of them leaves the table alone. -/
theorem exists_settles (hinput : s.input = t) (houtput : s.output = t)
    (hquiet : q.round (q.round^[k] t) = q.round^[k] t) :
    ∃ j ≤ k, ∃ last, q.Settles s last (j + 1) ∧ last.input = last.output := by
  induction k generalizing s t with
  | zero =>
    have htracks := tracks_pass (q := q) hinput houtput
    refine ⟨0, Nat.le_refl 0, q.pass s, .quiet ?_, htracks.input_eq.trans htracks.output_eq.symm⟩
    rw [← Bool.not_eq_true, htracks.changed_iff, show q.round t = t from hquiet]
    rintro ⟨n, c, hnew, hold⟩
    exact hold hnew
  | succ k ih =>
    have htracks := tracks_pass (q := q) hinput houtput
    cases hchanged : (q.pass s).changed with
    | false =>
      exact ⟨0, Nat.zero_le _, q.pass s, .quiet hchanged,
        htracks.input_eq.trans htracks.output_eq.symm⟩
    | true =>
      -- After this pass the quiet one is one pass nearer.
      obtain ⟨j, hj, last, hsettles, hsame⟩ := ih htracks.input_eq htracks.output_eq hquiet
      exact ⟨j + 1, Nat.succ_le_succ hj, last, .again hchanged hsettles, hsame⟩

/-- A limit that is high enough makes no difference. -/
theorem Settles.iterate_eq (h : q.Settles s u k) (hfuel : k ≤ fuel) :
    q.iterate fuel s = (u, k) := by
  induction h generalizing fuel with
  | quiet h =>
    obtain ⟨fuel, rfl⟩ : ∃ m, fuel = m + 1 := ⟨fuel - 1, by omega⟩
    simp [iterate, h]
  | again h _ ih =>
    obtain ⟨fuel, rfl⟩ : ∃ m, fuel = m + 1 := ⟨fuel - 1, by omega⟩
    simp [iterate, h, ih (Nat.le_of_succ_le_succ hfuel)]

theorem Settles.unique {u' : Sweep} {k' : Nat} (h : q.Settles s u k) (h' : q.Settles s u' k') :
    u = u' ∧ k = k' := by
  have heq := (h.iterate_eq (Nat.le_max_left k k')).symm.trans
    (h'.iterate_eq (Nat.le_max_right k k'))
  exact Prod.mk.inj heq

theorem nodeCount_lt_passLimit (q : Problem) : q.graph.nodeCount < q.passLimit := by
  rw [passLimit, Capability.count]
  omega

/-! ## The last table -/

/-- A pass goes by the sets of a table. -/
theorem requirement_round_congr (h : ∀ n, t.requirement n = t'.requirement n) :
    ∀ n, (q.round t).requirement n = (q.round t').requirement n := by
  have hextend : ∀ {u u' : RequirementTable}, (∀ n, u.requirement n = u'.requirement n) →
      ∀ m n, (q.extend u m).requirement n = (q.extend u' m).requirement n := by
    intro u u' hu m n
    have hsets : u.requirement = u'.requirement := funext hu
    rw [extend, extend]
    split
    · exact hu n
    · rw [RequirementTable.requirement_add, RequirementTable.requirement_add, required, required,
        hsets]
  have hvisits : ∀ nodes : List Node, ∀ n,
      (nodes.foldl q.extend t).requirement n = (nodes.foldl q.extend t').requirement n := by
    intro nodes
    induction nodes generalizing t t' with
    | nil => exact h
    | cons m nodes ih => exact ih (hextend h m)
  intro n
  rw [round, round]
  simp only [RequirementTable.requirement_add, hvisits]

theorem requirement_iterate_round (h : ∀ n, (q.round t).requirement n = t.requirement n) (k : Nat) :
    ∀ n, (q.round^[k] t).requirement n = t.requirement n := by
  induction k with
  | zero => exact fun n => rfl
  | succ k ih =>
    intro n
    rw [Function.iterate_succ_apply', requirement_round_congr ih, h]

/-- Stopping at a pass that adds nothing makes no difference to the sets. -/
theorem requirement_iterate (hinput : s.input = t) (houtput : s.output = t) (fuel : Nat)
    (n : Node) :
    (q.iterate fuel s).1.input.requirement n = (q.round^[fuel] t).requirement n := by
  induction fuel generalizing s t with
  | zero => rw [iterate, hinput, Function.iterate_zero_apply]
  | succ fuel ih =>
    have htracks := tracks_pass (q := q) hinput houtput
    rw [iterate, Function.iterate_succ_apply]
    cases hchanged : (q.pass s).changed with
    | true => exact ih htracks.input_eq htracks.output_eq
    | false =>
      have hquiet : ∀ m, (q.round t).requirement m = t.requirement m := by
        intro m
        apply CapabilitySet.ext
        intro c
        refine ⟨fun hc => ?_, htracks.grown m c⟩
        by_contra hold
        rw [htracks.changed_iff.2 ⟨m, c, hc, hold⟩] at hchanged
        cases hchanged
      have hstill := requirement_iterate_round (requirement_round_congr hquiet) fuel n
      rw [hstill, ← htracks.input_eq]
      rfl

/-- The last table is one of those that passes lead to. -/
theorem exists_input_iterate (hinput : s.input = t) (houtput : s.output = t) (fuel : Nat) :
    ∃ k, (q.iterate fuel s).1.input = q.round^[k] t := by
  induction fuel generalizing s t with
  | zero => exact ⟨0, hinput⟩
  | succ fuel ih =>
    have htracks := tracks_pass (q := q) hinput houtput
    rw [iterate]
    cases (q.pass s).changed with
    | true =>
      obtain ⟨k, hk⟩ := ih htracks.input_eq htracks.output_eq
      exact ⟨k + 1, hk⟩
    | false => exact ⟨1, htracks.input_eq⟩

theorem iterate_round_of_quiet {j : Nat} (hquiet : q.round (q.round^[j] t) = q.round^[j] t)
    (hjk : j ≤ k) : q.round^[k] t = q.round^[j] t := by
  induction hjk with
  | refl => rfl
  | step _ ih => rw [Function.iterate_succ_apply', ih, hquiet]

/-- The last table gives each node just what it requires. -/
theorem mem_requirement_settled (hg : q.graph.WellFormed) :
    c ∈ q.settled.1.input.requirement n ↔ q.Requires c n := by
  rw [settled, requirement_iterate rfl rfl,
    iterate_round_of_quiet (quiet_at_nodeCount hg) q.nodeCount_lt_passLimit.le]
  constructor
  · exact sound_iterate_round hg n c
  · intro h
    exact covers_iterate_round hg n c (h.within_nodeCount hg)

theorem mem_settled (hg : q.graph.WellFormed) :
    n ∈ q.settled.1.input ↔ n ∈ q.graph.nodes ∨ n ∈ q.direct := by
  obtain ⟨k, hk⟩ := exists_input_iterate (q := q)
    (s := { input := q.start, output := q.start }) rfl rfl q.passLimit
  rw [settled, hk, mem_iterate_round hg]

end Problem

/-! ## The outcome -/

variable {q : Problem} {c : Capability} {n : Node} {name : String}

theorem requirements_run (q : Problem) :
    (run q).requirements =
      q.settled.1.input.filter fun n _ => n.procedure?.isSome :=
  rfl

theorem mem_requirements_run (hg : q.graph.WellFormed) :
    n ∈ (run q).requirements ↔
      (∃ name, n = .procedure name) ∧ (n ∈ q.graph.nodes ∨ n ∈ q.direct) := by
  rw [← Problem.mem_settled hg, requirements_run, Std.ExtTreeMap.mem_filter]
  cases n <;> simp [Node.procedure?]

theorem getElem?_requirements_run (hg : q.graph.WellFormed)
    (h : .procedure name ∈ q.graph.nodes ∨ .procedure name ∈ q.direct) :
    ∃ s, (run q).requirements[Node.procedure name]? = some s ∧
      ∀ c, c ∈ s ↔ q.Requires c (.procedure name) := by
  refine ⟨_, ?_, fun c => Problem.mem_requirement_settled hg⟩
  rw [requirements_run, Std.ExtTreeMap.getElem?_filter',
    RequirementTable.getElem?_eq_some_requirement ((Problem.mem_settled hg).2 h)]
  rfl

theorem mem_unknownCallees_run (hg : q.graph.WellFormed) :
    c ∈ (run q).unknownCallees ↔ q.Requires c .unknownCallees :=
  Problem.mem_requirement_settled hg

theorem mem_unknownCallers_run (hg : q.graph.WellFormed) :
    c ∈ (run q).unknownCallers ↔ q.Requires c .unknownCallers :=
  Problem.mem_requirement_settled hg

/-- Propagation computes reachability. On a graph that steps build, each procedure and both
stand-ins get just the capabilities of the nodes that they reach. The table has the procedures of
the graph and those of the direct requirements, and the latter are empty where the graph lacks
them. -/
theorem run_computes_reachability (steps : List CallGraph.Step) (resolver : Resolver)
    (entry : String) (direct : RequirementTable) :
    let q : Problem := { graph := .build steps, resolver, entry, direct }
    (∀ name, .procedure name ∈ q.graph.nodes →
      ∃ s, (run q).requirements[Node.procedure name]? = some s ∧
        ∀ c, c ∈ s ↔ ∃ m, Relation.ReflTransGen q.Leads (.procedure name) m ∧ q.Owns c m) ∧
    (∀ c, c ∈ (run q).unknownCallees ↔
      ∃ m, Relation.ReflTransGen q.Leads .unknownCallees m ∧ q.Owns c m) ∧
    (∀ c, c ∈ (run q).unknownCallers ↔
      ∃ m, Relation.ReflTransGen q.Leads .unknownCallers m ∧ q.Owns c m) ∧
    (∀ n, n ∈ (run q).requirements ↔
      (∃ name, n = .procedure name) ∧ (n ∈ q.graph.nodes ∨ n ∈ direct)) ∧
    ∀ n, n ∈ (run q).requirements → n ∉ q.graph.nodes → (run q).requirements[n]? = some ∅ := by
  intro q
  have hg : q.graph.WellFormed := CallGraph.wellFormed_build steps
  refine ⟨fun name hname => getElem?_requirements_run hg (Or.inl hname),
    fun c => mem_unknownCallees_run hg, fun c => mem_unknownCallers_run hg,
    fun n => mem_requirements_run hg, ?_⟩
  intro n hn hout
  obtain ⟨⟨name, rfl⟩, hmem⟩ := (mem_requirements_run hg).1 hn
  obtain ⟨s, hs, hc⟩ := getElem?_requirements_run hg hmem
  obtain rfl : s = ∅ := by
    apply CapabilitySet.ext
    intro c
    constructor
    · intro h
      exact absurd (((hc c).1 h).mem_nodes hg) hout
    · intro h
      exact absurd h (CapabilitySet.not_mem_empty c)
  exact hs

/-- Propagation comes to an end. Passes that are made without a limit until one adds nothing lead to
one last state, with both tables the same, from which the outcome is taken. Their number is the
number that is reported: at least one, and at most one more than the graph has nodes. All passes but
the last add something, and there are not more of them than nodes times capabilities. -/
theorem run_terminates (steps : List CallGraph.Step) (resolver : Resolver) (entry : String)
    (direct : RequirementTable) :
    let q : Problem := { graph := .build steps, resolver, entry, direct }
    (∃ last : Sweep, (∀ u k, q.Settles { input := q.start, output := q.start } u k ↔
        u = last ∧ k = (run q).iterations) ∧
      last.input = last.output ∧
      (run q).requirements = (last.input.filter fun n _ => n.procedure?.isSome) ∧
      (run q).unknownCallees = last.input.requirement .unknownCallees ∧
      (run q).unknownCallers = last.input.requirement .unknownCallers) ∧
    1 ≤ (run q).iterations ∧ (run q).iterations ≤ q.graph.nodeCount + 1 ∧
    (run q).iterations - 1 ≤ q.graph.nodeCount * Capability.count := by
  intro q
  have hg : q.graph.WellFormed := CallGraph.wellFormed_build steps
  obtain ⟨j, hj, last, hsettles, hsame⟩ := Problem.exists_settles (q := q)
    (s := { input := q.start, output := q.start }) rfl rfl (Problem.quiet_at_nodeCount hg)
  have hlimit := q.nodeCount_lt_passLimit
  have hrun : q.settled = (last, j + 1) := hsettles.iterate_eq (by omega)
  have hcount : (run q).iterations = j + 1 := congrArg Prod.snd hrun
  refine ⟨⟨last, ?_, hsame, ?_, ?_, ?_⟩, ?_, ?_, ?_⟩
  · intro u k
    rw [hcount]
    constructor
    · exact fun h => h.unique hsettles
    · rintro ⟨rfl, rfl⟩
      exact hsettles
  · rw [requirements_run, hrun]
  · exact congrArg (fun r => RequirementTable.requirement r.1.input _) hrun
  · exact congrArg (fun r => RequirementTable.requirement r.1.input _) hrun
  · omega
  · omega
  · have hcap : q.graph.nodeCount ≤ q.graph.nodeCount * Capability.count :=
      Nat.le_mul_of_pos_right _ (by decide)
    omega

end LeastPrivilege.Propagation
