import LeastPrivilege.Profile.Counter
import Mathlib.Tactic.Common

/-!
# The account behind a counter

A counter keeps, beside its account of the operations, the capabilities that are gone and the
position of the bucket it credits. Both follow from the account, so what an event does to a counter
can be said of the account alone.
-/

namespace LeastPrivilege

theorem CapabilitySet.sdiff_eq_left_iff (s t : CapabilitySet) : s \ t = s ↔ t ∩ s = ∅ := by
  constructor
  · intro h
    apply ext
    intro x
    have hx : x ∈ s \ t ↔ x ∈ s := by rw [h]
    simp only [mem_sdiff, mem_inter, not_mem_empty] at hx ⊢
    tauto
  · intro h
    apply ext
    intro x
    have hx : x ∉ t ∩ s := by simp [h]
    simp only [mem_sdiff, mem_inter] at hx ⊢
    tauto

/-- What a counter tells about the operations that ran. -/
structure Account where
  total : Nat
  set : CapabilitySet
  identity : Identity
  ledger : List Bucket
  deriving DecidableEq, Repr

namespace Account

variable (a : Account)

/-- Credits operations to the last bucket. -/
def credit (n : Nat) : Account :=
  { a with
    total := a.total + n
    ledger := a.ledger.modify (a.ledger.length - 1) fun b => { b with count := b.count + n } }

/-- Opens a bucket for the present capabilities and identity. -/
def openBucket : Account :=
  { a with ledger := a.ledger ++ [{ set := a.set, identity := a.identity, count := 0 }] }

/-- Takes capabilities away, with a new bucket if any of them is still there. -/
def remove (s : CapabilitySet) : Account :=
  if s ∩ a.set = ∅ then a else { a with set := a.set \ s }.openBucket

/-- Takes over an identity, with a new bucket if it is another one. -/
def observe (identity : Identity) : Account :=
  if identity = a.identity then a else { a with identity }.openBucket

@[simp] theorem credit_zero : a.credit 0 = a := by
  have hsame : a.ledger.modify (a.ledger.length - 1) (fun b => { b with count := b.count + 0 }) =
      a.ledger :=
    List.modify_id ..
  rw [credit, hsame, Nat.add_zero]

@[simp] theorem credit_credit (m n : Nat) : (a.credit m).credit n = a.credit (m + n) := by
  simp [credit, List.modify_modify_eq, Function.comp_def, Nat.add_assoc]

end Account

namespace Counter

variable {c : Counter} {live : Host} {s : CapabilitySet} {n : Nat}

/-- The account that a counter keeps. -/
def account (c : Counter) : Account :=
  { total := c.total, set := c.set, identity := c.identity, ledger := c.ledger }

@[simp] theorem account_set (c : Counter) : c.account.set = c.set :=
  rfl

@[simp] theorem account_identity (c : Counter) : c.account.identity = c.identity :=
  rfl

/-- The fields of a counter that follow from its account do so. -/
structure WellFormed (c : Counter) : Prop where
  removed_eq : c.removed = c.set.complement
  current_eq : c.current = c.ledger.length - 1

theorem wellFormed_fresh : fresh.WellFormed where
  removed_eq := by decide
  current_eq := rfl

theorem wellFormed_openBucket (h : c.removed = c.set.complement) : c.openBucket.WellFormed where
  removed_eq := h
  current_eq := by simp [openBucket]

theorem wellFormed_start (c : Counter) (live : Host) (s : CapabilitySet) :
    (c.start live s).WellFormed :=
  wellFormed_openBucket rfl

theorem WellFormed.ensure (h : c.WellFormed) (live : Host) : (c.ensure live).WellFormed := by
  rw [Counter.ensure]
  split
  · exact wellFormed_start ..
  · split
    · exact wellFormed_start ..
    · exact h

theorem WellFormed.credit (h : c.WellFormed) (n : Nat) : (c.credit n).WellFormed where
  removed_eq := h.removed_eq
  current_eq := by simpa [Counter.credit] using h.current_eq

theorem WellFormed.count (h : c.WellFormed) (live : Host) (n : Nat) : (c.count live n).WellFormed :=
  (h.ensure live).credit n

theorem WellFormed.removed_union (h : c.WellFormed) (s : CapabilitySet) :
    c.removed ∪ s \ c.removed = (c.set \ (s \ c.removed)).complement := by
  apply CapabilitySet.ext
  intro x
  simp only [h.removed_eq, CapabilitySet.mem_union, CapabilitySet.mem_sdiff,
    CapabilitySet.mem_complement]
  tauto

theorem WellFormed.remove (h : c.WellFormed) (s : CapabilitySet) : (c.remove s).WellFormed := by
  rw [Counter.remove]
  have hremoved := h.removed_union s
  split
  · next hsame =>
    rw [hsame] at hremoved
    exact ⟨hremoved, h.current_eq⟩
  · exact wellFormed_openBucket hremoved

theorem WellFormed.observe (h : c.WellFormed) (i : Identity) : (c.observe i).WellFormed := by
  rw [Counter.observe]
  split
  · exact h
  · exact wellFormed_openBucket h.removed_eq

theorem WellFormed.apply (h : c.WellFormed) (live : Host) (e : Event) :
    (c.apply live e).WellFormed := by
  cases e with
  | start s => exact wellFormed_start c live s
  | count n => exact h.count live n
  | drop n s => exact (h.count live n).remove s
  | identityChanged n => exact (h.count live n).observe live.identity
  | announceFork => exact ⟨h.removed_eq, h.current_eq⟩

/-- Every counter that events lead to is well-formed. -/
theorem WellFormed.run (h : c.WellFormed) (events : List (Host × Event)) :
    (c.run events).WellFormed := by
  rw [Counter.run]
  induction events generalizing c with
  | nil => exact h
  | cons e events ih => exact ih (h.apply e.1 e.2)

/-- A counter that a process finds as it left it. -/
structure Current (c : Counter) (live : Host) : Prop where
  wellFormed : c.WellFormed
  started : c.started = true
  pid_eq : live.pid = c.pid

theorem Current.count_eq (h : c.Current live) (n : Nat) : c.count live n = c.credit n := by
  simp [count, ensure, h.started, h.pid_eq]

theorem WellFormed.account_credit (h : c.WellFormed) (n : Nat) :
    (c.credit n).account = c.account.credit n := by
  simp [Counter.credit, account, Account.credit, h.current_eq]

theorem WellFormed.account_remove (h : c.WellFormed) (s : CapabilitySet) :
    (c.remove s).account = c.account.remove s := by
  -- What is gone is what the set lacks, so leaving it out of the request makes no difference.
  have hleft : c.set \ (s \ c.removed) = c.set \ s := by
    apply CapabilitySet.ext
    intro x
    simp only [h.removed_eq, CapabilitySet.mem_sdiff, CapabilitySet.mem_complement]
    tauto
  have hsame := CapabilitySet.sdiff_eq_left_iff c.set s
  rw [Counter.remove, Account.remove, account_set]
  simp only [hleft]
  by_cases hmeet : s ∩ c.set = ∅
  · rw [if_pos (hsame.2 hmeet), if_pos hmeet]
    rfl
  · rw [if_neg fun h => hmeet (hsame.1 h), if_neg hmeet]
    rfl

theorem account_observe (c : Counter) (i : Identity) :
    (c.observe i).account = c.account.observe i := by
  rw [Counter.observe, Account.observe, account_identity]
  by_cases hi : i = c.identity
  · rw [if_pos hi, if_pos hi]
  · rw [if_neg hi, if_neg hi]
    rfl

theorem Current.count (h : c.Current live) (n : Nat) : (c.count live n).Current live := by
  rw [h.count_eq]
  exact ⟨h.wellFormed.credit n, h.started, h.pid_eq⟩

theorem Current.remove (h : c.Current live) (s : CapabilitySet) : (c.remove s).Current live := by
  have hkept : (c.remove s).started = c.started ∧ (c.remove s).pid = c.pid := by
    rw [Counter.remove]
    split <;> exact ⟨rfl, rfl⟩
  exact ⟨h.wellFormed.remove s, hkept.1.trans h.started, h.pid_eq.trans hkept.2.symm⟩

theorem Current.observe (h : c.Current live) (i : Identity) : (c.observe i).Current live := by
  have hkept : (c.observe i).started = c.started ∧ (c.observe i).pid = c.pid := by
    rw [Counter.observe]
    split <;> exact ⟨rfl, rfl⟩
  exact ⟨h.wellFormed.observe i, hkept.1.trans h.started, h.pid_eq.trans hkept.2.symm⟩

/-- A process finds a counter as it left it after everything that it does itself. -/
theorem Current.apply (h : c.Current live) (e : Event) : (c.apply live e).Current live := by
  cases e with
  | start s => exact ⟨wellFormed_start c live s, rfl, rfl⟩
  | count n => exact h.count n
  | drop n s => exact (h.count n).remove s
  | identityChanged n => exact (h.count n).observe live.identity
  | announceFork => exact ⟨⟨h.wellFormed.removed_eq, h.wellFormed.current_eq⟩, h.started, h.pid_eq⟩

theorem Current.account_count (h : c.Current live) (n : Nat) :
    (c.count live n).account = c.account.credit n := by
  rw [h.count_eq, h.wellFormed.account_credit]

theorem Current.account_drop (h : c.Current live) (n : Nat) (s : CapabilitySet) :
    (c.drop live n s).account = (c.account.credit n).remove s := by
  rw [drop, (h.wellFormed.count live n).account_remove, h.account_count]

theorem Current.account_identityChanged (h : c.Current live) (n : Nat) :
    (c.identityChanged live n).account = (c.account.credit n).observe live.identity := by
  rw [identityChanged, account_observe, h.account_count]

end Counter

end LeastPrivilege
