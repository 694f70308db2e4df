import LeastPrivilege.Proofs.CapabilitySets
import LeastPrivilege.Requirement.Local

/-!
# Operands that name a set

A call of a primitive passes a count and then as many indices. Such operands are read as the set of
the capabilities with these indices. All other operands are refused, and the error is the first
reason to refuse them in the order in which they stand. The operands that are written for a set are
read as that set.
-/

namespace LeastPrivilege

variable {arg : Operand} {v : UInt64} {c : Capability} {s : CapabilitySet} {e : Error}

namespace Operand

/-- An operand is a literal with a given value, of whatever width. -/
def HasValue (arg : Operand) (v : UInt64) : Prop :=
  ∃ width, arg = .literal width v

theorem literal?_eq_some_iff : arg.literal? = some v ↔ arg.HasValue v := by
  cases arg <;> simp [literal?, HasValue]

theorem literal?_eq_none_iff : arg.literal? = none ↔ ∀ v, ¬ arg.HasValue v := by
  simp [Option.eq_none_iff_forall_ne_some, literal?_eq_some_iff]

theorem HasValue.unique {w : UInt64} (hv : arg.HasValue v) (hw : arg.HasValue w) : v = w :=
  Option.some.inj ((literal?_eq_some_iff.2 hv).symm.trans (literal?_eq_some_iff.2 hw))

/-- An operand names a capability: it is a literal with its index. -/
def Names (arg : Operand) (c : Capability) : Prop :=
  ∃ v, arg.HasValue v ∧ v.toNat = c.index

theorem forall₂_names_iff {args : List Operand} {cs : List Capability} :
    List.Forall₂ Names args cs ↔ ∃ values, List.Forall₂ HasValue args values ∧
      (values.map UInt64.toNat).mapM Capability.ofIndex = .ok cs := by
  simp only [mapM_eq_ok_iff, List.forall₂_map_left_iff, Capability.ofIndex_eq_ok_iff]
  constructor
  · intro h
    induction h with
    | nil => exact ⟨[], .nil, .nil⟩
    | cons harg _ ih =>
      obtain ⟨v, hv, hindex⟩ := harg
      obtain ⟨values, hvalues, hcs⟩ := ih
      exact ⟨v :: values, .cons hv hvalues, .cons hindex.symm hcs⟩
  · rintro ⟨values, hvalues, hcs⟩
    induction hvalues generalizing cs with
    | nil =>
      cases hcs
      exact .nil
    | cons hv _ ih =>
      cases hcs with
      | cons hc hcs => exact .cons ⟨_, hv, hc.symm⟩ (ih hcs)

/-- Why the operand at a position names no capability. -/
inductive Misses (callee : String) (site : BlockRef) (position : Nat) (arg : Operand) :
    Error → Prop where
  | notLiteral (h : ∀ v, ¬ arg.HasValue v) : Misses callee site position arg
    (.nonConstantOperand callee site.procedure site.block position)
  | outOfRange {v : UInt64} (h : arg.HasValue v) (hv : Capability.count ≤ v.toNat) :
    Misses callee site position arg (.capabilityOutOfRange v.toNat)

end Operand

namespace Call

variable {callee : String} {site : BlockRef} {position : Nat} {args : List Operand}
  {cs : List Capability}

/-! ## One operand after the other -/

theorem capabilityOperand_eq_ok_iff :
    capabilityOperand callee site position arg = .ok c ↔ arg.Names c := by
  cases hvalue : arg.literal? with
  | none =>
    have hnone := Operand.literal?_eq_none_iff.1 hvalue
    simp [capabilityOperand, hvalue, Operand.Names, hnone]
  | some v =>
    have hv := Operand.literal?_eq_some_iff.1 hvalue
    simp only [capabilityOperand, hvalue, Capability.ofIndex_eq_ok_iff]
    constructor
    · exact fun h => ⟨v, hv, h.symm⟩
    · rintro ⟨w, hw, h⟩
      rw [← h, hv.unique hw]

theorem capabilityOperand_eq_error_iff :
    capabilityOperand callee site position arg = .error e ↔
      arg.Misses callee site position e := by
  cases hvalue : arg.literal? with
  | none =>
    have hnone := Operand.literal?_eq_none_iff.1 hvalue
    simp only [capabilityOperand, hvalue, Except.error.injEq]
    constructor
    · rintro rfl
      exact .notLiteral hnone
    · rintro (_ | ⟨hw, _⟩)
      · rfl
      · exact absurd hw (hnone _)
  | some v =>
    have hv := Operand.literal?_eq_some_iff.1 hvalue
    simp only [capabilityOperand, hvalue, Capability.ofIndex_eq_error_iff]
    constructor
    · rintro ⟨hcount, rfl⟩
      exact .outOfRange hv hcount
    · rintro (hnone | ⟨hw, hcount⟩)
      · exact absurd hv (hnone v)
      · rw [hv.unique hw]
        exact ⟨hcount, rfl⟩

theorem capabilityOperands_eq_ok_iff :
    capabilityOperands callee site position args = .ok cs ↔
      List.Forall₂ Operand.Names args cs := by
  induction args generalizing position cs with
  | nil => simp [capabilityOperands, eq_comm]
  | cons arg args ih =>
    rw [capabilityOperands, bind_eq_ok, List.forall₂_cons_left_iff]
    refine exists_congr fun c => ?_
    rw [capabilityOperand_eq_ok_iff, bind_eq_ok]
    simp [ih, pure, Except.pure, eq_comm]

theorem capabilityOperands_cons_eq_error_iff :
    capabilityOperands callee site position (arg :: args) = .error e ↔
      arg.Misses callee site position e ∨
        (∃ c, arg.Names c) ∧ capabilityOperands callee site (position + 1) args = .error e := by
  have hnames (c : Capability) :
      arg.Names c ↔ capabilityOperand callee site position arg = .ok c :=
    capabilityOperand_eq_ok_iff.symm
  rw [capabilityOperands, ← capabilityOperand_eq_error_iff]
  simp only [hnames]
  cases capabilityOperand callee site position arg with
  | error e' => simp [bind, Except.bind]
  | ok c =>
    cases capabilityOperands callee site (position + 1) args <;>
      simp [bind, Except.bind, pure, Except.pure]

/-- The operands are refused for the first one that names no capability. -/
theorem capabilityOperands_eq_error_iff :
    capabilityOperands callee site position args = .error e ↔
      ∃ before arg after, args = before ++ arg :: after ∧ (∀ a ∈ before, ∃ c, a.Names c) ∧
        arg.Misses callee site (position + before.length) e := by
  induction args generalizing position with
  | nil => simp [capabilityOperands]
  | cons first args ih =>
    rw [capabilityOperands_cons_eq_error_iff, ih]
    constructor
    · rintro (hfirst | ⟨hfirst, before, arg, after, rfl, hbefore, harg⟩)
      · exact ⟨[], first, args, rfl, by simp, hfirst⟩
      · refine ⟨first :: before, arg, after, rfl, List.forall_mem_cons.2 ⟨hfirst, hbefore⟩, ?_⟩
        -- The position of the culprit is the same, counted from one operand earlier.
        rwa [List.length_cons, Nat.add_comm before.length, ← Nat.add_assoc]
    · rintro ⟨_ | ⟨b, before⟩, arg, after, hargs, hbefore, harg⟩
      · obtain ⟨rfl, rfl⟩ := List.cons.inj hargs
        exact .inl harg
      · obtain ⟨rfl, rfl⟩ := List.cons.inj hargs
        obtain ⟨hfirst, hbefore⟩ := List.forall_mem_cons.1 hbefore
        rw [List.length_cons, Nat.add_comm before.length, ← Nat.add_assoc] at harg
        exact .inr ⟨hfirst, before, arg, after, rfl, hbefore, harg⟩

/-! ## The operands of a call -/

/-- A call passes values: its operands are a count and as many literals, with these values. -/
def Passes (call : Call) (values : List UInt64) : Prop :=
  ∃ count n rest, call.args = count :: rest ∧ count.HasValue n ∧ n.toNat = rest.length ∧
    List.Forall₂ Operand.HasValue rest values

/-- The name under which a call stands in errors. -/
def shownTarget (call : Call) : String :=
  call.target?.getD "<indirect>"

/-- Why a call passes no set. Each reason is given only if those before it do not apply, and an
operand is the reason only if all operands before it name capabilities. -/
inductive Refused (call : Call) (site : BlockRef) : Error → Prop where
  | noCount (hargs : call.args = []) :
    Refused call site (.missingOperandCount call.shownTarget site.procedure site.block)
  | openCount {count : Operand} {rest : List Operand} (hargs : call.args = count :: rest)
    (hcount : ∀ n, ¬ count.HasValue n) :
    Refused call site (.nonConstantOperand call.shownTarget site.procedure site.block 0)
  | mismatch {count : Operand} {rest : List Operand} {n : UInt64}
    (hargs : call.args = count :: rest) (hcount : count.HasValue n) (hn : n.toNat ≠ rest.length) :
    Refused call site
      (.operandCountMismatch call.shownTarget site.procedure site.block n.toNat rest.length)
  | operand {count arg : Operand} {before after : List Operand} {n : UInt64} {e : Error}
    (hargs : call.args = count :: (before ++ arg :: after)) (hcount : count.HasValue n)
    (hn : n.toNat = (before ++ arg :: after).length) (hbefore : ∀ a ∈ before, ∃ c, a.Names c)
    (harg : arg.Misses call.shownTarget site (1 + before.length) e) : Refused call site e

variable {call : Call} {count : Operand} {n : UInt64} {rest : List Operand}

theorem capabilities_of_count (hargs : call.args = count :: rest) (hcount : count.HasValue n) :
    call.capabilities site = if n.toNat = rest.length then
      (capabilityOperands call.shownTarget site 1 rest).map CapabilitySet.ofList
    else
      .error (.operandCountMismatch call.shownTarget site.procedure site.block n.toNat
        rest.length) := by
  simp only [capabilities, hargs, Operand.literal?_eq_some_iff.2 hcount, shownTarget]

theorem capabilities_of_refused (h : call.Refused site e) : call.capabilities site = .error e := by
  cases h with
  | noCount hargs => simp only [capabilities, hargs, shownTarget]
  | openCount hargs hcount =>
    simp only [capabilities, hargs, Operand.literal?_eq_none_iff.2 hcount, shownTarget]
  | mismatch hargs hcount hn => rw [capabilities_of_count hargs hcount, if_neg hn]
  | operand hargs hcount hn hbefore harg =>
    rw [capabilities_of_count hargs hcount, if_pos hn,
      capabilityOperands_eq_error_iff.2 ⟨_, _, _, rfl, hbefore, harg⟩, Except.map]

theorem capabilities_of_passes {values : List UInt64} (h : call.Passes values)
    (hs : CapabilitySet.ofIndices (values.map UInt64.toNat) = .ok s) :
    call.capabilities site = .ok s := by
  obtain ⟨count, n, rest, hargs, hcount, hn, hrest⟩ := h
  obtain ⟨cs, hcs, rfl⟩ := map_eq_ok.1 hs
  have hnames := Operand.forall₂_names_iff.2 ⟨values, hrest, hcs⟩
  rw [capabilities_of_count hargs hcount, if_pos hn, capabilityOperands_eq_ok_iff.2 hnames,
    Except.map]

/-- There is no third case: a call that is not refused passes the indices of a set. -/
theorem refused_or_passes (call : Call) (site : BlockRef) :
    (∃ e, call.Refused site e) ∨ ∃ values s, call.Passes values ∧
      CapabilitySet.ofIndices (values.map UInt64.toNat) = .ok s := by
  -- The cases are split in the order of the reasons, so that each one starts where the reasons
  -- before it have been ruled out.
  cases hargs : call.args with
  | nil => exact .inl ⟨_, .noCount hargs⟩
  | cons count rest =>
    cases hcount : count.literal? with
    | none => exact .inl ⟨_, .openCount hargs (Operand.literal?_eq_none_iff.1 hcount)⟩
    | some n =>
      have hvalue := Operand.literal?_eq_some_iff.1 hcount
      by_cases hn : n.toNat = rest.length
      · cases hrest : capabilityOperands call.shownTarget site 1 rest with
        | error e =>
          obtain ⟨before, arg, after, rfl, hbefore, harg⟩ := capabilityOperands_eq_error_iff.1 hrest
          exact .inl ⟨e, .operand hargs hvalue hn hbefore harg⟩
        | ok cs =>
          have hnames := capabilityOperands_eq_ok_iff.1 hrest
          obtain ⟨values, hvalues, hcs⟩ := Operand.forall₂_names_iff.1 hnames
          exact .inr ⟨values, _, ⟨count, n, rest, hargs, hvalue, hn, hvalues⟩,
            map_eq_ok.2 ⟨cs, hcs, rfl⟩⟩
      · exact .inl ⟨_, .mismatch hargs hvalue hn⟩

theorem capabilities_eq_error_iff : call.capabilities site = .error e ↔ call.Refused site e := by
  refine ⟨fun h => ?_, capabilities_of_refused⟩
  obtain ⟨e', he'⟩ | ⟨values, s, hvalues, hs⟩ := call.refused_or_passes site
  · obtain rfl : e' = e := Except.error.inj ((capabilities_of_refused he').symm.trans h)
    exact he'
  · cases h.symm.trans (capabilities_of_passes hvalues hs)

theorem capabilities_eq_ok_iff : call.capabilities site = .ok s ↔
    ∃ values, call.Passes values ∧
      CapabilitySet.ofIndices (values.map UInt64.toNat) = .ok s := by
  refine ⟨fun h => ?_, fun ⟨_, hvalues, hs⟩ => capabilities_of_passes hvalues hs⟩
  obtain ⟨e, he⟩ | ⟨values, t, hvalues, ht⟩ := call.refused_or_passes site
  · cases h.symm.trans (capabilities_of_refused he)
  · obtain rfl : t = s := Except.ok.inj ((capabilities_of_passes hvalues ht).symm.trans h)
    exact ⟨values, hvalues, ht⟩

/-! ## The operands for a set -/

/-- The values that are written for a set. -/
def encodedIndices (s : CapabilitySet) : List UInt64 :=
  s.indices.map fun i => (UInt32.ofNat i).toUInt64

theorem toNat_encodedIndices (s : CapabilitySet) :
    (encodedIndices s).map UInt64.toNat = s.indices := by
  rw [encodedIndices, List.map_map]
  refine (List.map_congr_left fun i hi => ?_).trans (List.map_id _)
  obtain ⟨c, -, rfl⟩ := CapabilitySet.mem_indices.1 hi
  have hsmall : c.index < UInt32.size := Nat.lt_trans c.index_lt_count (by decide)
  exact (UInt32.toNat_toUInt64 _).trans (UInt32.toNat_ofNat_of_lt' hsmall)

/-- The count that is written for a set is the number of values that follow. -/
theorem passes_ofCapabilities (name : String) (s : CapabilitySet) :
    (ofCapabilities name s).Passes (encodedIndices s) := by
  have hsmall : s.size < UInt32.size := by
    have hle : s.size ≤ Capability.all.length := List.length_filter_le _ _
    exact Nat.lt_of_le_of_lt hle (by decide)
  have hsize : (UInt32.ofNat s.size).toUInt64.toNat = s.indices.length := by
    rw [UInt32.toNat_toUInt64, UInt32.toNat_ofNat_of_lt' hsmall, CapabilitySet.indices,
      List.length_map, CapabilitySet.size]
  refine ⟨_, _, _, rfl, ⟨32, rfl⟩, by rw [hsize, List.length_map], ?_⟩
  rw [encodedIndices, List.forall₂_map_left_iff, List.forall₂_map_right_iff]
  exact List.forall₂_same.2 fun i _ => ⟨32, rfl⟩

/-- The set that a call was made for is read back from its operands. -/
theorem capabilities_ofCapabilities (name : String) (s : CapabilitySet) (site : BlockRef) :
    (ofCapabilities name s).capabilities site = .ok s := by
  refine capabilities_of_passes (passes_ofCapabilities name s) ?_
  rw [toNat_encodedIndices, CapabilitySet.ofIndices_indices]

/-- A call passes a set just if its operands are a count and as many literals below the number of
capabilities, and then the set of these. Otherwise the error is the first reason to refuse it.
What is written for a set passes that set, with the indices in strictly ascending order. -/
theorem operands_name_sets (call : Call) (site : BlockRef) :
    (∀ s, call.capabilities site = .ok s ↔ ∃ values, call.Passes values ∧
      (∀ v ∈ values, v.toNat < Capability.count) ∧
      ∀ c : Capability, c ∈ s ↔ ∃ v ∈ values, v.toNat = c.index) ∧
    (∀ e, call.capabilities site = .error e ↔ call.Refused site e) ∧
    ∀ name s, (ofCapabilities name s).capabilities site = .ok s ∧
      ∃ values, (ofCapabilities name s).Passes values ∧
        (values.map UInt64.toNat).Pairwise (· < ·) := by
  refine ⟨fun s => ?_, fun e => capabilities_eq_error_iff, fun name s => ?_⟩
  · rw [capabilities_eq_ok_iff]
    simp [CapabilitySet.ofIndices_eq_ok_iff]
  · refine ⟨capabilities_ofCapabilities name s site, encodedIndices s,
      passes_ofCapabilities name s, ?_⟩
    rw [toNat_encodedIndices]
    exact s.pairwise_indices

end Call

end LeastPrivilege
