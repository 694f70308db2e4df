import LeastPrivilege.Proofs.Accounting
import LeastPrivilege.Proofs.Names
import LeastPrivilege.Proofs.Padding

/-!
# Instrumentation preserves the program

An instrumented program is the program with calls of routines put in. Each block keeps its headers
in front and its last operation at the end, the calls that count stand behind the headers, and the
entry sets the counter up before it counts anything.
-/

namespace LeastPrivilege

/-- The headers of a block all stand in front of its other operations. -/
def Block.HeadersFirst (b : Block) : Prop :=
  ∀ op ∈ b.operations.dropWhile Operation.isHeader, op.isHeader = false

namespace Operation

/-- An operation that counts: it calls a routine, though none that sets the counter up, and passes
it no address. -/
def IsCounting (op : Operation) : Prop :=
  ∃ (r : Routine) (args : List Operand), op = r.invoke args ∧ r ≠ .start ∧ r ≠ .atExit ∧
    ∀ a ∈ args, a.procedure? = none

theorem IsCounting.isHeader_eq_false {op : Operation} (h : op.IsCounting) :
    op.isHeader = false := by
  obtain ⟨r, args, rfl, -⟩ := h
  rfl

theorem IsCounting.routine?_isSome {op : Operation} (h : op.IsCounting) :
    op.routine?.isSome = true := by
  obtain ⟨r, args, rfl, -⟩ := h
  rw [routine?_invoke]
  rfl

theorem isCounting_invoke {r : Routine} {args : List Operand} (hstart : r ≠ .start)
    (hexit : r ≠ .atExit) (hargs : ∀ a ∈ args, a.procedure? = none) :
    (r.invoke args).IsCounting :=
  ⟨r, args, rfl, hstart, hexit, hargs⟩

end Operation

/-- What instrumentation makes of a block. After the headers come the hooks, which are empty but for
one block, and then the other operations, interspersed with those that count. -/
structure Block.Instrumented (hooks : List Operation) (b b' : Block) : Prop where
  label_eq : b'.label = b.label
  placed : ∃ rest, b'.operations = b.operations.takeWhile Operation.isHeader ++ hooks ++ rest ∧
    Interspersed Operation.IsCounting (b.operations.dropWhile Operation.isHeader) rest
  kept : b.operations.Sublist b'.operations
  last_eq : b'.operations.getLast? = b.operations.getLast?
  headersFirst : b.HeadersFirst → b'.HeadersFirst

/-! ## One block -/

namespace Block

variable {b b' : Block} {hooks rest : List Operation} {op : Operation}

theorem headers_append (b : Block) :
    b.operations.takeWhile Operation.isHeader ++ b.operations.dropWhile Operation.isHeader =
      b.operations :=
  List.takeWhile_append_dropWhile

theorem take_headerCount (b : Block) :
    b.operations.take b.headerCount = b.operations.takeWhile Operation.isHeader := by
  conv_lhs => rw [← headers_append b]
  exact List.take_left

theorem drop_headerCount (b : Block) :
    b.operations.drop b.headerCount = b.operations.dropWhile Operation.isHeader := by
  conv_lhs => rw [← headers_append b]
  exact List.drop_left

/-- The headers of a block that is put together from its headers, hooks and the rest. -/
theorem headers_of_placed (hhooks : ∀ op ∈ hooks, op.isHeader = false)
    (hops : b'.operations = b.operations.takeWhile Operation.isHeader ++ hooks ++ rest)
    (hrest : Interspersed Operation.IsCounting (b.operations.dropWhile Operation.isHeader) rest) :
    b'.operations.takeWhile Operation.isHeader = b.operations.takeWhile Operation.isHeader ∧
      b'.operations.dropWhile Operation.isHeader = hooks ++ rest := by
  rw [hops, List.append_assoc]
  refine takeWhile_dropWhile_append (List.all_eq_true.1 List.all_takeWhile) ?_
  intro op hop
  cases hooks with
  | cons hook hooks =>
    obtain rfl := Option.some.inj hop
    exact hhooks hook List.mem_cons_self
  | nil =>
    rcases hrest.head?_or hop with hop | hop
    · exact test_of_head?_dropWhile hop
    · exact hop.isHeader_eq_false

theorem instrumented_of_placed (hhooks : ∀ op ∈ hooks, op.isHeader = false)
    (hlabel : b'.label = b.label)
    (hops : b'.operations = b.operations.takeWhile Operation.isHeader ++ hooks ++ rest)
    (hrest : Interspersed Operation.IsCounting (b.operations.dropWhile Operation.isHeader) rest)
    (hlast : b'.operations.getLast? = b.operations.getLast?) : Instrumented hooks b b' where
  label_eq := hlabel
  placed := ⟨rest, hops, hrest⟩
  kept := by
    have hkept := (List.sublist_append_left (b.operations.takeWhile Operation.isHeader)
      hooks).append hrest.sublist
    rwa [headers_append, ← hops] at hkept
  last_eq := hlast
  headersFirst := by
    intro hfirst op hop
    rw [(headers_of_placed hhooks hops hrest).2] at hop
    rcases List.mem_append.1 hop with hop | hop
    · exact hhooks op hop
    · rcases hrest.mem_or hop with hop | hop
      · exact hfirst op hop
      · exact hop.isHeader_eq_false

/-- Hooks can be put into a block afterwards, if it does not end in a header. -/
theorem Instrumented.insertAfterHeaders (h : Instrumented [] b b')
    (hhooks : ∀ op ∈ hooks, op.isHeader = false) (hlast : b.operations.getLast? = some op)
    (hop : op.isHeader = false) :
    Instrumented hooks b (Instrumentation.insertAfterHeaders hooks b') := by
  obtain ⟨rest, hops, hrest⟩ := h.placed
  obtain ⟨htake, hdrop⟩ := headers_of_placed (by simp) hops hrest
  have hnew : (Instrumentation.insertAfterHeaders hooks b').operations =
      b.operations.takeWhile Operation.isHeader ++ hooks ++ rest := by
    rw [Instrumentation.insertAfterHeaders, take_headerCount, drop_headerCount, htake, hdrop,
      List.nil_append]
  refine instrumented_of_placed hhooks h.label_eq hnew hrest ?_
  -- Otherwise the last operation of the block would be one of its headers.
  have hne : rest ≠ [] := by
    rintro rfl
    have hheader := h.last_eq
    rw [hops, hlast, List.append_nil, List.append_nil] at hheader
    have hmem := List.mem_of_getLast? hheader
    rw [List.all_eq_true.1 List.all_takeWhile op hmem] at hop
    cases hop
  rw [hnew, ← h.last_eq, hops, List.getLast?_append_of_ne_nil _ hne,
    List.getLast?_append_of_ne_nil _ hne]

end Block

namespace BlockPlan

open PlannedCall

variable {special? : Operation → Option SpecialCall} {settings : Settings} {procedure : String}
  {b : Block} {plan : BlockPlan} {n : Nat} {op : Operation} {ops rest headers : List Operation}

theorem procedure?_countArg (n : Nat) : (countArg n).procedure? = none :=
  rfl

theorem interspersed_around (n : Nat) (op : Operation) (special : SpecialCall) :
    Interspersed Operation.IsCounting [op] (around n op special) := by
  have hcount : ∀ r : Routine, r ≠ .start → r ≠ .atExit → (r.invoke [countArg n]).IsCounting := by
    intro r hstart hexit
    exact Operation.isCounting_invoke hstart hexit (by simp [procedure?_countArg])
  have hbare : ∀ r : Routine, r ≠ .start → r ≠ .atExit → (r.invoke []).IsCounting := by
    intro r hstart hexit
    exact Operation.isCounting_invoke hstart hexit (by simp)
  cases special with
  | drop s =>
    refine .add (Operation.isCounting_invoke (by decide) (by decide) ?_) (.refl _ _)
    simp [countArg, Operand.i32, Operand.i64, Operand.procedure?]
  | duplicate =>
    exact .add (hcount _ (by decide) (by decide))
      (.add (hbare _ (by decide) (by decide)) (.refl _ _))
  | replace =>
    exact .add (hcount _ (by decide) (by decide))
      (.add (hbare _ (by decide) (by decide)) (.refl _ _))
  | identityChange => exact .keep (.add (hcount _ (by decide) (by decide)) (.refl _ _))

theorem interspersed_weave (n : Nat) (ops : List Operation) :
    Interspersed Operation.IsCounting ops (weave special? n ops) := by
  induction ops generalizing n with
  | nil => exact .refl _ _
  | cons op ops ih =>
    rw [weave]
    cases special? op with
    | some special => exact (interspersed_around (n + 1) op special).append (ih 0)
    | none =>
      by_cases hlast : ops = []
      · subst hlast
        exact .add (Operation.isCounting_invoke (by decide) (by decide)
          (by simp [procedure?_countArg])) (.refl _ _)
      · simp only [if_neg hlast]
        exact (ih (n + 1)).keep

/-- Nothing is put in front of operations that are not special, as long as others follow. -/
theorem weave_append (hheaders : ∀ op ∈ headers, special? op = none) (hops : ops ≠ []) :
    weave special? n (headers ++ ops) = headers ++ weave special? (n + headers.length) ops := by
  induction headers generalizing n with
  | nil => rfl
  | cons op headers ih =>
    obtain ⟨hop, hrest⟩ := List.forall_mem_cons.1 hheaders
    have hne : headers ++ ops ≠ [] := by simp [hops]
    have hlength : n + 1 + headers.length = n + (op :: headers).length := by
      rw [List.length_cons]
      omega
    simp only [List.cons_append, weave, hop, if_neg hne, ih hrest, hlength]

theorem weave_special {special : SpecialCall} (h : special? op = some special) (n : Nat)
    (ops : List Operation) :
    weave special? n (op :: ops) = around (n + 1) op special ++ weave special? 0 ops := by
  rw [weave, h]

/-- What is made of operations comes in front of what is made of those that follow. -/
theorem exists_weave_append (special? : Operation → Option SpecialCall) (hrest : rest ≠ [])
    (n : Nat) (ops : List Operation) :
    ∃ woven m, Interspersed Operation.IsCounting ops woven ∧
      weave special? n (ops ++ rest) = woven ++ weave special? m rest := by
  induction ops generalizing n with
  | nil => exact ⟨[], n, .refl _ _, rfl⟩
  | cons x ops ih =>
    rw [List.cons_append]
    cases hx : special? x with
    | some special =>
      obtain ⟨woven, m, hwoven, hweave⟩ := ih 0
      refine ⟨around (n + 1) x special ++ woven, m, ?_, ?_⟩
      · exact (interspersed_around (n + 1) x special).append hwoven
      · rw [weave_special hx, hweave, List.append_assoc]
    | none =>
      obtain ⟨woven, m, hwoven, hweave⟩ := ih (n + 1)
      refine ⟨x :: woven, m, hwoven.keep, ?_⟩
      simp [weave, hx, hrest, hweave]

theorem getLast?_weave (hop : special? op = none) (n : Nat) (ops : List Operation) :
    (weave special? n (ops ++ [op])).getLast? = some op := by
  induction ops generalizing n with
  | nil => simp [weave, hop]
  | cons x ops ih =>
    have hne : weave special? n (ops ++ [op]) ≠ [] := by
      intro hnil
      have hlast := ih n
      rw [hnil] at hlast
      cases hlast
    rw [List.cons_append, weave]
    cases special? x with
    | some special =>
      have hlast := ih 0
      simp only
      rw [List.getLast?_append, hlast]
      rfl
    | none =>
      have hlast := ih (n + 1)
      simp only [List.append_eq_nil_iff, List.cons_ne_self, and_false, if_false]
      rw [List.getLast?_cons, hlast]
      rfl

theorem exists_terminator (h : ofBlock settings procedure b = .ok plan) :
    ∃ op, b.operations.getLast? = some op ∧ op.isTerminator = true := by
  cases hterminator : b.terminator? with
  | none =>
    rw [ofBlock, hterminator] at h
    cases h
  | some op =>
    obtain ⟨hlast, hop⟩ := Option.filter_eq_some_iff.1 hterminator
    exact ⟨op, hlast, hop⟩

theorem special?_of_isHeader {site : BlockRef} (h : op.isHeader = true) :
    op.special? settings site = none := by
  cases op <;> simp_all [Operation.isHeader, Operation.special?, Operation.call?]

theorem special?_of_isTerminator {site : BlockRef} (h : op.isTerminator = true) :
    op.special? settings site = none := by
  cases op <;> simp_all [Operation.isTerminator, Operation.special?, Operation.call?]

theorem isHeader_of_isTerminator (h : op.isTerminator = true) : op.isHeader = false := by
  cases op <;> simp_all [Operation.isTerminator, Operation.isHeader]

/-- The operations that are executed, if there are any, are headers, then one that is none, then
others. -/
theorem exists_live_split (h : ofBlock settings procedure b = .ok plan) (hlive : b.live ≠ []) :
    ∃ headers op rest, b.live = headers ++ op :: rest ∧
      (∀ x ∈ headers, x.isHeader = true) ∧ op.isHeader = false := by
  -- The block does not end in a header. Where its end is not executed, nothing is unless there is
  -- another operation that is no header.
  have hother : ¬∀ op ∈ b.live, op.isHeader = true := by
    intro hheaders
    obtain ⟨op, hlast, hop⟩ := exists_terminator h
    by_cases hend : b.endsUnreachable = true
    · by_cases hall : b.operations.dropLast.all Operation.isHeader = true
      · exact hlive (by rw [Block.live, if_pos hend, if_pos hall])
      · rw [Block.live, if_pos hend, if_neg hall] at hheaders
        exact hall (List.all_eq_true.2 hheaders)
    · rw [Block.live, if_neg hend] at hheaders
      have hheader := hheaders op (List.mem_of_getLast? hlast)
      rw [isHeader_of_isTerminator hop] at hheader
      cases hheader
  have hsplit := List.takeWhile_append_dropWhile (p := Operation.isHeader) (l := b.live)
  have htaken : ∀ x ∈ b.live.takeWhile Operation.isHeader, x.isHeader = true :=
    List.all_eq_true.1 List.all_takeWhile
  cases hrest : b.live.dropWhile Operation.isHeader with
  | nil =>
    rw [hrest, List.append_nil] at hsplit
    rw [hsplit] at htaken
    exact absurd htaken hother
  | cons op rest =>
    rw [hrest] at hsplit
    exact ⟨_, op, rest, hsplit.symm, htaken, test_of_head?_dropWhile (by rw [hrest]; rfl)⟩

theorem getLast?_result (h : ofBlock settings procedure b = .ok plan) :
    plan.result.operations.getLast? = b.operations.getLast? := by
  rw [operations_result h]
  by_cases hidle : b.idle = []
  · have hlive : b.live = b.operations := by
      have hsplit := b.live_append_idle
      rwa [hidle, List.append_nil] at hsplit
    obtain ⟨op, hlast, hop⟩ := exists_terminator h
    obtain ⟨ops, hops⟩ := List.getLast?_eq_some_iff.1 hlast
    rw [hidle, List.append_nil, hlive, hops, getLast?_weave (special?_of_isTerminator hop),
      List.getLast?_concat]
  · rw [List.getLast?_append_of_ne_nil _ hidle]
    conv_rhs => rw [← b.live_append_idle]
    rw [List.getLast?_append_of_ne_nil _ hidle]

theorem label_result (h : ofBlock settings procedure b = .ok plan) :
    plan.result.label = b.label := by
  rw [result, Block.insertAll, (ofBlock_eq_ok h).1]

/-- The plan for a block puts calls that count behind its headers. -/
theorem instrumented_result (h : ofBlock settings procedure b = .ok plan) :
    Block.Instrumented [] b plan.result := by
  have hlabel := label_result h
  have hops := operations_result h
  by_cases hlive : b.live = []
  · -- Nothing is executed, so nothing is counted.
    have hidle : b.idle = b.operations := by
      have hsplit := b.live_append_idle
      rwa [hlive, List.nil_append] at hsplit
    rw [hlive, hidle, weave, List.nil_append, ← b.headers_append] at hops
    exact Block.instrumented_of_placed (by simp) hlabel (by simpa using hops) (.refl _ _)
      (getLast?_result h)
  · obtain ⟨headers, op, rest, hsplit, hheaders, hop⟩ := exists_live_split h hlive
    have hall : b.operations = headers ++ (op :: rest ++ b.idle) := by
      rw [← b.live_append_idle, hsplit, List.append_assoc]
    obtain ⟨htake, hdrop⟩ : b.operations.takeWhile Operation.isHeader = headers ∧
        b.operations.dropWhile Operation.isHeader = op :: rest ++ b.idle := by
      rw [hall]
      refine takeWhile_dropWhile_append hheaders ?_
      intro x hx
      obtain rfl := Option.some.inj hx
      exact hop
    have hplain : ∀ x ∈ headers, x.special? settings ⟨procedure, b.label⟩ = none :=
      fun x hx => special?_of_isHeader (hheaders x hx)
    rw [hsplit, weave_append hplain (List.cons_ne_nil op rest), List.append_assoc] at hops
    have hrest : Interspersed Operation.IsCounting (op :: rest ++ b.idle)
        (weave (Operation.special? settings ⟨procedure, b.label⟩) (0 + headers.length)
          (op :: rest) ++ b.idle) := (interspersed_weave _ _).append (.refl _ _)
    refine Block.instrumented_of_placed (by simp) hlabel ?_ (hdrop ▸ hrest) (getLast?_result h)
    rw [htake, hops, List.append_nil]

end BlockPlan

theorem Block.Instrumented.interspersed {hooks : List Operation} {b b' : Block}
    {P : Operation → Prop} (h : Instrumented hooks b b') (hhooks : ∀ op ∈ hooks, P op)
    (hcounting : ∀ op, op.IsCounting → P op) : Interspersed P b.operations b'.operations := by
  obtain ⟨rest, hops, hrest⟩ := h.placed
  have hall := ((Interspersed.refl P (b.operations.takeWhile Operation.isHeader)).append
    (.of_forall hhooks)).append (hrest.mono hcounting)
  rwa [List.append_nil, headers_append, ← hops] at hall

/-! ## Procedures -/

/-- What instrumentation makes of a procedure. The hooks are put into the first block of the
entry. -/
structure Procedure.Instrumented (entry : String) (hooks : List Operation)
    (d d' : Procedure) : Prop where
  name_eq : d'.name = d.name
  signature_eq : d'.signature = d.signature
  linkage_eq : d'.linkage = d.linkage
  plain : d.name ≠ entry → List.Forall₂ (Block.Instrumented []) d.blocks d'.blocks
  entered : d.name = entry → ∃ b bs b' bs', d.blocks = b :: bs ∧ d'.blocks = b' :: bs' ∧
    Block.Instrumented hooks b b' ∧ List.Forall₂ (Block.Instrumented []) bs bs'

/-- A block without the calls of routines. -/
def Block.withoutRoutineCalls (b : Block) : Block :=
  { b with operations := b.operations.filter fun op => op.routine?.isNone }

/-- A procedure without the calls of routines. -/
def Procedure.withoutRoutineCalls (d : Procedure) : Procedure :=
  { d with blocks := d.blocks.map Block.withoutRoutineCalls }

/-- Taking out the calls of routines undoes putting them in, if there were none before. -/
theorem Block.PaddedTo.withoutRoutineCalls_eq {b b' : Block}
    (h : b.PaddedTo (fun op => op.routine?.isSome = true) b')
    (hb : ∀ op ∈ b.operations, op.routine? = none) : b'.withoutRoutineCalls = b := by
  have hkept : b'.operations.filter (fun op => op.routine?.isNone) =
      b.operations.filter fun op => op.routine?.isNone :=
    h.operations.filter_eq fun op hop => by simpa [Option.isSome_iff_ne_none] using hop
  have hself : b.operations.filter (fun op => op.routine?.isNone) = b.operations :=
    List.filter_eq_self.2 fun op hop => by simp [hb op hop]
  rw [withoutRoutineCalls, hkept, hself, h.label_eq]

namespace Procedure.Instrumented

variable {entry : String} {hooks : List Operation} {d d' : Procedure}

theorem paddedTo {P : Operation → Prop} (h : d.Instrumented entry hooks d')
    (hhooks : ∀ op ∈ hooks, P op) (hcounting : ∀ op, op.IsCounting → P op) :
    d.PaddedTo P d' := by
  have hplain : ∀ b b', Block.Instrumented [] b b' → b.PaddedTo P b' := fun b b' hb =>
    ⟨hb.label_eq, hb.interspersed (by simp) hcounting⟩
  refine ⟨h.name_eq, h.signature_eq, h.linkage_eq, ?_⟩
  by_cases hname : d.name = entry
  · obtain ⟨b, bs, b', bs', hblocks, hblocks', hb, hbs⟩ := h.entered hname
    rw [hblocks, hblocks']
    exact .cons ⟨hb.label_eq, hb.interspersed hhooks hcounting⟩ (hbs.imp hplain)
  · exact (h.plain hname).imp hplain

theorem withoutRoutineCalls_eq (h : d.Instrumented entry hooks d')
    (hhooks : ∀ op ∈ hooks, op.routine?.isSome = true)
    (hd : ∀ b ∈ d.blocks, ∀ op ∈ b.operations, op.routine? = none) :
    d'.withoutRoutineCalls = d := by
  have hpad := h.paddedTo hhooks fun op hop => hop.routine?_isSome
  have hblocks : d'.blocks.map Block.withoutRoutineCalls = d.blocks.map id :=
    map_eq_of_forall₂ ((List.forall₂_and_left ..).2 ⟨hd, hpad.blocks⟩)
      fun b b' hb => hb.2.withoutRoutineCalls_eq hb.1
  rw [withoutRoutineCalls, hblocks, List.map_id, h.name_eq, h.signature_eq, h.linkage_eq]

end Procedure.Instrumented

/-! ## Programs -/

namespace ProcedurePlan

variable {settings : Settings} {d : Procedure} {plan : ProcedurePlan}

theorem ofProcedure_eq_ok (h : ofProcedure settings d = .ok plan) :
    plan.procedure = d ∧ List.Forall₂ (fun b blockPlan =>
      BlockPlan.ofBlock settings d.name b = .ok blockPlan) d.blocks plan.blocks := by
  obtain ⟨blocks, hblocks, h⟩ := bind_eq_ok.1 h
  obtain rfl := Except.ok.inj h
  exact ⟨rfl, forall₂_of_mapM_eq_ok hblocks⟩

theorem blocks_result (h : ofProcedure settings d = .ok plan) :
    List.Forall₂ (fun b b' => Block.Instrumented [] b b' ∧
      ∃ op, b.operations.getLast? = some op ∧ op.isHeader = false) d.blocks plan.result.blocks := by
  rw [result, List.forall₂_map_right_iff]
  refine (ofProcedure_eq_ok h).2.imp ?_
  intro b blockPlan hplan
  obtain ⟨op, hlast, hop⟩ := BlockPlan.exists_terminator hplan
  exact ⟨BlockPlan.instrumented_result hplan, op, hlast, BlockPlan.isHeader_of_isTerminator hop⟩

end ProcedurePlan

namespace Instrumentation

variable {settings : Settings} {p q : Program} {stats : InstrumentStats} {extra : List Operation}
  {d : Procedure} {plan : ProcedurePlan}

theorem instrumented_of_ne_entry (h : ProcedurePlan.ofProcedure settings d = .ok plan)
    (hname : d.name ≠ settings.entry) : d.Instrumented settings.entry extra plan.result := by
  obtain ⟨rfl, -⟩ := ProcedurePlan.ofProcedure_eq_ok h
  refine ⟨rfl, rfl, rfl, ?_, ?_⟩
  · intro _
    exact (ProcedurePlan.blocks_result h).imp fun b b' hb => hb.1
  · intro hentry
    exact absurd hentry hname

theorem instrumented_entry (hextra : ∀ op ∈ extra, op.isHeader = false)
    (h : ProcedurePlan.ofProcedure settings d = .ok plan) (hname : d.name = settings.entry)
    (hbody : d.blocks ≠ []) :
    d.Instrumented settings.entry extra
      (modifyEntryBlock (insertAfterHeaders extra) plan.result) := by
  obtain ⟨rfl, -⟩ := ProcedurePlan.ofProcedure_eq_ok h
  refine ⟨rfl, rfl, rfl, ?_, ?_⟩
  · intro hne
    exact absurd hname hne
  · intro _
    obtain ⟨b, bs, hblocks⟩ := List.exists_cons_of_ne_nil hbody
    have hresult := ProcedurePlan.blocks_result h
    rw [hblocks] at hresult
    obtain ⟨b', bs', ⟨hb, op, hlast, hop⟩, hbs, hblocks'⟩ := List.forall₂_cons_left_iff.1 hresult
    refine ⟨b, bs, insertAfterHeaders extra b', bs', hblocks, ?_,
      hb.insertAfterHeaders hextra hlast hop, hbs.imp fun b b' hb => hb.1⟩
    rw [modifyEntryBlock, hblocks', List.modifyHead_cons]

/-- What a run that succeeds has found and done. -/
theorem run_eq_ok (h : run settings p = .ok (q, stats)) :
    ∃ plans, p.check = .ok () ∧
      ((p.procedure? settings.entry).filter Procedure.isDefinition).isNone = false ∧
      LocalRequirements.raisedAnywhere settings p = .ok stats.initialSet ∧
      p.procedures.mapM (ProcedurePlan.ofProcedure settings) = .ok plans ∧
      q = (usedRoutines (plans.flatMap ProcedurePlan.blocks)).foldl
        (fun q r => q.declare r.name r.signature)
        { p with
          procedures := modifyFirst (·.name == settings.entry)
            (modifyEntryBlock (insertAfterHeaders (hooks stats.initialSet)))
            (plans.map ProcedurePlan.result) } := by
  rw [run] at h
  obtain ⟨_, hcheck, h⟩ := bind_eq_ok.1 h
  cases hentry : ((p.procedure? settings.entry).filter Procedure.isDefinition).isNone with
  | true =>
    rw [hentry] at h
    obtain ⟨_, hthrow, -⟩ := bind_eq_ok.1 h
    cases hthrow
  | false =>
    simp only [hentry] at h
    obtain ⟨initialSet, hinitial, h⟩ := bind_eq_ok.1 h
    obtain ⟨plans, hplans, h⟩ := bind_eq_ok.1 h
    obtain ⟨_, -, h⟩ := bind_eq_ok.1 h
    obtain ⟨rfl, rfl⟩ := Prod.mk.inj (Except.ok.inj h)
    exact ⟨plans, hcheck, rfl, hinitial, hplans, rfl⟩

/-- Declaring routines appends declarations of some of them. -/
theorem foldl_declare (routines : List Routine) (p : Program) :
    ∃ declared, routines.foldl (fun q r => q.declare r.name r.signature) p =
        { p with procedures := p.procedures ++ declared } ∧
      ∀ d ∈ declared, ∃ r ∈ routines, d = Procedure.declare r.name r.signature := by
  induction routines generalizing p with
  | nil => exact ⟨[], by simp, by simp⟩
  | cons r routines ih =>
    obtain ⟨declared, heq, hdeclared⟩ := ih (p.declare r.name r.signature)
    have hlater : ∀ d ∈ declared, ∃ s ∈ r :: routines,
        d = Procedure.declare s.name s.signature := by
      intro d hd
      obtain ⟨s, hs, rfl⟩ := hdeclared d hd
      exact ⟨s, List.mem_cons_of_mem _ hs, rfl⟩
    rw [List.foldl_cons, heq]
    rcases Program.declare_cases p r.name r.signature with ⟨-, hdeclare⟩ | ⟨-, hdeclare⟩
    · rw [hdeclare]
      exact ⟨declared, rfl, hlater⟩
    · rw [hdeclare]
      refine ⟨Procedure.declare r.name r.signature :: declared, by simp, ?_⟩
      exact List.forall_mem_cons.2 ⟨⟨r, List.mem_cons_self, rfl⟩, hlater⟩

theorem check_foldl_declare (routines : List Routine) (h : p.check = .ok ()) :
    (routines.foldl (fun q r => q.declare r.name r.signature) p).check = .ok () := by
  induction routines generalizing p with
  | nil => exact h
  | cons r routines ih => exact ih (Program.check_declare h)

theorem name_of_plan (h : ProcedurePlan.ofProcedure settings d = .ok plan) :
    plan.result.name = d.name := by
  obtain ⟨rfl, -⟩ := ProcedurePlan.ofProcedure_eq_ok h
  rfl

theorem blocks_of_entry (hcheck : p.check = .ok ())
    (hentry : ((p.procedure? settings.entry).filter Procedure.isDefinition).isNone = false) :
    ∀ d ∈ p.procedures, d.name = settings.entry → d.blocks ≠ [] := by
  intro d hd hname
  obtain ⟨e, he⟩ := Option.isSome_iff_exists.1 (Option.isNone_eq_false_iff.1 hentry)
  obtain ⟨hfound, hdefinition⟩ := Option.filter_eq_some_iff.1 he
  have hename : e.name = settings.entry := by simpa using List.find?_some hfound
  obtain rfl := Program.eq_of_check hcheck hd (List.mem_of_find?_eq_some hfound)
    (hname.trans hename.symm)
  intro hblocks
  simp [Procedure.isDefinition, Procedure.isDeclaration, hblocks] at hdefinition

/-- Names are used once, so that the hooks come into the entry and into nothing else. -/
theorem hooked_eq_map {plans : List ProcedurePlan} (hcheck : p.check = .ok ())
    (hplans : p.procedures.mapM (ProcedurePlan.ofProcedure settings) = .ok plans)
    (f : Procedure → Procedure) :
    modifyFirst (·.name == settings.entry) f (plans.map ProcedurePlan.result) =
      plans.map fun plan =>
        if plan.result.name = settings.entry then f plan.result else plan.result := by
  have hnames : (plans.map ProcedurePlan.result).map Procedure.name =
      p.procedures.map Procedure.name := by
    rw [List.map_map]
    exact map_eq_of_forall₂ (forall₂_of_mapM_eq_ok hplans) fun d plan hplan => name_of_plan hplan
  have honce := pairwise_name_test (hnames ▸ (Program.check_eq_ok_iff.1 hcheck).1) settings.entry
  rw [modifyFirst_eq_map honce, List.map_map]
  simp only [Function.comp_def, beq_iff_eq]

/-- The procedures before the declarations, each instrumented. -/
theorem forall₂_instrumented {plans : List ProcedurePlan} (hcheck : p.check = .ok ())
    (hentry : ((p.procedure? settings.entry).filter Procedure.isDefinition).isNone = false)
    (hplans : p.procedures.mapM (ProcedurePlan.ofProcedure settings) = .ok plans)
    (hextra : ∀ op ∈ extra, op.isHeader = false) :
    List.Forall₂ (Procedure.Instrumented settings.entry extra) p.procedures
      (modifyFirst (·.name == settings.entry) (modifyEntryBlock (insertAfterHeaders extra))
        (plans.map ProcedurePlan.result)) := by
  rw [hooked_eq_map hcheck hplans, List.forall₂_map_right_iff]
  refine ((List.forall₂_and_left ..).2
    ⟨blocks_of_entry hcheck hentry, forall₂_of_mapM_eq_ok hplans⟩).imp ?_
  rintro d plan ⟨hbody, hplan⟩
  rw [name_of_plan hplan]
  by_cases hentry : d.name = settings.entry
  · rw [if_pos hentry]
    exact instrumented_entry hextra hplan hentry (hbody hentry)
  · rw [if_neg hentry]
    exact instrumented_of_ne_entry hplan hentry

theorem isHeader_hooks (s : CapabilitySet) : ∀ op ∈ hooks s, op.isHeader = false := by
  simp [hooks, Routine.invoke, Operation.isHeader]

theorem routine?_hooks (s : CapabilitySet) : ∀ op ∈ hooks s, op.routine?.isSome = true := by
  intro op hop
  rcases List.mem_cons.1 hop with rfl | hop
  · exact congrArg Option.isSome (Operation.routine?_invoke .start _)
  · rw [List.mem_singleton.1 hop]
    exact congrArg Option.isSome (Operation.routine?_invoke .atExit _)

/-- A run that succeeds instruments each procedure and appends declarations. -/
theorem exists_instrumented (h : run settings p = .ok (q, stats)) :
    ∃ kept declared, q = { p with procedures := kept ++ declared } ∧
      List.Forall₂ (Procedure.Instrumented settings.entry (hooks stats.initialSet))
        p.procedures kept ∧
      ∀ d ∈ declared, ∃ r : Routine, d = Procedure.declare r.name r.signature := by
  obtain ⟨plans, hcheck, hentry, -, hplans, rfl⟩ := run_eq_ok h
  have hkept := forall₂_instrumented hcheck hentry hplans (isHeader_hooks stats.initialSet)
  obtain ⟨declared, heq, hdeclared⟩ := foldl_declare
    (usedRoutines (plans.flatMap ProcedurePlan.blocks))
    { p with
      procedures := modifyFirst (·.name == settings.entry)
        (modifyEntryBlock (insertAfterHeaders (hooks stats.initialSet)))
        (plans.map ProcedurePlan.result) }
  refine ⟨_, declared, heq, hkept, ?_⟩
  intro d hd
  obtain ⟨r, -, hr⟩ := hdeclared d hd
  exact ⟨r, hr⟩

theorem check_of_instrumented {kept : List Procedure} (hcheck : p.check = .ok ())
    (hkept : List.Forall₂ (Procedure.Instrumented settings.entry extra) p.procedures kept) :
    ({ p with procedures := kept } : Program).check = .ok () := by
  have hpadded : p.PaddedTo (fun _ _ => True) (fun _ => False) { p with procedures := kept } :=
    ⟨rfl, kept, [], (List.append_nil kept).symm,
      hkept.imp fun d d' hd => hd.paddedTo (by simp) (by simp), by simp⟩
  exact hpadded.check_eq_ok (by simp) hcheck

theorem check_of_run (h : run settings p = .ok (q, stats)) : q.check = .ok () := by
  obtain ⟨plans, hcheck, hentry, -, hplans, rfl⟩ := run_eq_ok h
  exact check_foldl_declare _ (check_of_instrumented hcheck
    (forall₂_instrumented hcheck hentry hplans (isHeader_hooks stats.initialSet)))

/-- A program that has been instrumented is the program with calls of routines put in. It passes its
check again. Its procedures are those of the program, in their order and with their names,
signatures, linkage, labels and operations, and then declarations of routines. Where the program
calls no routine itself, taking out all such calls gives the program back. -/
theorem run_preserves_program (settings : Settings) (p q : Program) (stats : InstrumentStats)
    (h : run settings p = .ok (q, stats)) :
    q.check = .ok () ∧ q.name = p.name ∧
      LocalRequirements.raisedAnywhere settings p = .ok stats.initialSet ∧
      ∃ kept declared, q.procedures = kept ++ declared ∧
        (∀ d ∈ declared, d.blocks = [] ∧
          ∃ r : Routine, d.name = r.name ∧ d.signature = r.signature) ∧
        List.Forall₂ (Procedure.Instrumented settings.entry
          [Routine.start.invoke [.i64 (.ofNat stats.initialSet.bits)],
            Routine.atExit.invoke [.procedure Routine.report.name]]) p.procedures kept ∧
        ((∀ d ∈ p.procedures, ∀ c ∈ d.calls, ∀ r : Routine, c.target? ≠ some r.name) →
          kept.map Procedure.withoutRoutineCalls = p.procedures) := by
  obtain ⟨kept, declared, hq, hkept, hdeclared⟩ := exists_instrumented h
  obtain ⟨-, -, -, hinitial, -, -⟩ := run_eq_ok h
  refine ⟨check_of_run h, by rw [hq], hinitial, kept, declared, by rw [hq], ?_, hkept, ?_⟩
  · intro d hd
    obtain ⟨r, rfl⟩ := hdeclared d hd
    exact ⟨rfl, r, rfl, rfl⟩
  · intro hroutines
    have hnone : ∀ d ∈ p.procedures, ∀ b ∈ d.blocks, ∀ op ∈ b.operations, op.routine? = none := by
      intro d hd b hb op hop
      refine Operation.routine?_eq_none fun c hc => hroutines d hd c ?_
      exact List.mem_flatMap.2 ⟨b, hb, List.mem_filterMap.2 ⟨op, hop, hc⟩⟩
    have hback := map_eq_of_forall₂ ((List.forall₂_and_left ..).2 ⟨hnone, hkept⟩)
      fun d d' hd => hd.2.withoutRoutineCalls_eq (routine?_hooks stats.initialSet) hd.1
    rw [hback]
    exact List.map_id _

/-- A procedure that raises a capability and forks. -/
def sampleMain : Procedure where
  name := "main"
  blocks := [⟨"entry", [.phi, .call (.direct "priv_raise" [.i32 1, .i32 21]),
    .call (.direct "fork" []), .ret]⟩]

/-- The program of this procedure alone. -/
def sampleUnit : Program where
  name := "sample"
  procedures := [sampleMain]

/-- The sample is set up behind its header, with the capability that it raises. -/
theorem run_preserves_program_sample :
    ∃ q stats, run {} sampleUnit = .ok (q, stats) ∧ q.check = .ok () ∧
      ∃ d ∈ q.procedures, d.withoutRoutineCalls = sampleMain ∧
        ∃ b rest, d.blocks = [b] ∧ b.operations =
          [.phi, .call (.direct "initDynCount" [.i64 2097152]),
            .call (.direct "atexit" [.procedure "reportPrivDstr"])] ++ rest := by
  obtain ⟨q, stats, hrun, hset⟩ : ∃ q stats, run {} sampleUnit = .ok (q, stats) ∧
      stats.initialSet.bits = 2097152 := ⟨_, _, rfl, by decide⟩
  obtain ⟨hcheck, -, -, kept, declared, hq, -, hkept, hback⟩ :=
    run_preserves_program {} sampleUnit q stats hrun
  have hroutines : ∀ r : Routine, ∀ c ∈ sampleMain.calls, c.target? ≠ some r.name := by
    intro r
    cases r <;> decide
  obtain ⟨d, _, hd, hnil, rfl⟩ := List.forall₂_cons_left_iff.1 hkept
  obtain rfl := List.forall₂_nil_left_iff.1 hnil
  obtain ⟨b, bs, b', bs', hblocks, hblocks', hb, hbs⟩ := hd.entered rfl
  obtain ⟨rfl, rfl⟩ := List.cons.inj hblocks
  obtain rfl := List.forall₂_nil_left_iff.1 hbs
  obtain ⟨rest, hops, -⟩ := hb.placed
  refine ⟨q, stats, hrun, hcheck, d, by simp [hq], ?_, b', rest, hblocks', ?_⟩
  · have hsame := hback (by simpa [sampleUnit] using fun c hc r => hroutines r c hc)
    simpa [sampleUnit] using hsame
  · rw [hops, hset]
    rfl

end Instrumentation

end LeastPrivilege
