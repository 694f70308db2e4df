import LeastPrivilege.Proofs.Ledger
import LeastPrivilege.Proofs.Lists
import Mathlib.Algebra.GroupWithZero.Nat
import Mathlib.Data.List.Chain

/-!
# The buckets of a counter

A counter that has been set up credits operations to its last bucket, which has the capabilities and
the identity of the moment. The total is what the buckets hold together. A bucket was opened because
capabilities were given up or because the identity changed, so each differs from the one before it
in just one of the two.
-/

namespace LeastPrivilege

/-- How a bucket may differ from the one opened before it: capabilities are gone under the same
identity, or the identity is another one with the same capabilities. -/
def Bucket.Precedes (b b' : Bucket) : Prop :=
  b'.identity = b.identity ∧ b'.set ⊆ b.set ∧ b'.set ≠ b.set ∨
    b'.set = b.set ∧ b'.identity ≠ b.identity

namespace Counter

variable {c : Counter} {live : Host} {s : CapabilitySet}

/-- A counter that nobody has set up. Forks may have been announced to it. -/
def Idle (c : Counter) : Prop :=
  ∃ n, c = { fresh with forks := n }

/-- A counter that has been set up, and whose ledger is in order. -/
structure Running (c : Counter) : Prop extends WellFormed c where
  started : c.started = true
  total_eq : c.total = (c.ledger.map Bucket.count).sum
  chain : c.ledger.IsChain Bucket.Precedes
  last : ∃ closed n, c.ledger = closed ++ [⟨c.set, c.identity, n⟩]

theorem running_openBucket (hstarted : c.started = true) (hremoved : c.removed = c.set.complement)
    (htotal : c.total = (c.ledger.map Bucket.count).sum)
    (hchain : (c.ledger ++ [Bucket.mk c.set c.identity 0]).IsChain Bucket.Precedes) :
    c.openBucket.Running where
  toWellFormed := wellFormed_openBucket hremoved
  started := hstarted
  total_eq := by simpa [openBucket] using htotal
  chain := hchain
  last := ⟨c.ledger, 0, rfl⟩

theorem running_start (c : Counter) (live : Host) (s : CapabilitySet) : (c.start live s).Running :=
  running_openBucket rfl rfl rfl (List.isChain_singleton _)

/-- Whoever counts finds the counter set up. -/
theorem running_ensure (h : c.Idle ∨ c.Running) (live : Host) : (c.ensure live).Running := by
  rw [ensure]
  rcases h with ⟨n, rfl⟩ | h
  · exact running_start fresh live ∅
  · rw [if_neg (by simp [h.started])]
    split
    · exact running_start ..
    · exact h

theorem Running.current_eq_length (h : c.Running) {closed : List Bucket} {b : Bucket}
    (hledger : c.ledger = closed ++ [b]) : c.current = closed.length := by
  rw [h.current_eq, hledger, List.length_append, List.length_singleton, Nat.add_sub_cancel]

/-- The current bucket is the last one. -/
theorem Running.current_add_one (h : c.Running) : c.current + 1 = c.ledger.length := by
  obtain ⟨closed, n, hledger⟩ := h.last
  rw [h.current_eq_length hledger, hledger, List.length_append, List.length_singleton]

theorem Running.ledger_credit (h : c.Running) (n : Nat) :
    ∃ closed m, c.ledger = closed ++ [⟨c.set, c.identity, m⟩] ∧
      (c.credit n).ledger = closed ++ [⟨c.set, c.identity, m + n⟩] := by
  obtain ⟨closed, m, hledger⟩ := h.last
  refine ⟨closed, m, hledger, ?_⟩
  rw [Counter.credit, h.current_eq_length hledger, hledger]
  exact modify_concat ..

theorem Running.credit (h : c.Running) (n : Nat) : (c.credit n).Running := by
  obtain ⟨closed, m, hledger, hnew⟩ := h.ledger_credit n
  refine ⟨h.toWellFormed.credit n, h.started, ?_, ?_, closed, m + n, hnew⟩
  · have htotal := h.total_eq
    rw [hledger, List.map_append, List.sum_append] at htotal
    rw [hnew, List.map_append, List.sum_append, Counter.credit, htotal]
    simp [Nat.add_assoc]
  · -- Only the count of the last bucket is new, and the order of buckets does not depend on it.
    have hchain := h.chain
    rw [hledger, List.isChain_append] at hchain
    obtain ⟨hclosed, -, hjoin⟩ := hchain
    rw [hnew, List.isChain_append]
    refine ⟨hclosed, List.isChain_singleton _, ?_⟩
    intro b hb b' hb'
    obtain rfl := Option.some.inj hb'
    exact hjoin b hb ⟨c.set, c.identity, m⟩ rfl

/-- A bucket can be opened that differs from the current one as it should. -/
theorem Running.isChain_concat (h : c.Running) {b : Bucket}
    (hb : ∀ n, Bucket.Precedes ⟨c.set, c.identity, n⟩ b) :
    (c.ledger ++ [b]).IsChain Bucket.Precedes := by
  obtain ⟨closed, n, hledger⟩ := h.last
  refine List.isChain_append.2 ⟨h.chain, List.isChain_singleton _, ?_⟩
  intro x hx y hy
  rw [hledger, List.getLast?_concat] at hx
  obtain rfl := Option.some.inj hx
  obtain rfl := Option.some.inj hy
  exact hb n

theorem Running.remove (h : c.Running) (s : CapabilitySet) : (c.remove s).Running := by
  have hremoved := h.removed_union s
  rw [Counter.remove]
  split
  · next hsame =>
    rw [hsame] at hremoved
    exact ⟨⟨hremoved, h.current_eq⟩, h.started, h.total_eq, h.chain, h.last⟩
  · next hless =>
    refine running_openBucket h.started hremoved h.total_eq (h.isChain_concat fun n => ?_)
    refine Or.inl ⟨rfl, ?_, hless⟩
    intro x hx
    exact (CapabilitySet.mem_sdiff.1 hx).1

theorem Running.observe (h : c.Running) (i : Identity) : (c.observe i).Running := by
  rw [Counter.observe]
  split
  · exact h
  · next hother =>
    exact running_openBucket h.started h.removed_eq h.total_eq
      (h.isChain_concat fun n => Or.inr ⟨rfl, hother⟩)

theorem running_count (h : c.Idle ∨ c.Running) (live : Host) (n : Nat) :
    (c.count live n).Running :=
  (running_ensure h live).credit n

/-- Every event leaves a counter idle or with its ledger in order. -/
theorem idle_or_running_apply (h : c.Idle ∨ c.Running) (live : Host) (e : Event) :
    (c.apply live e).Idle ∨ (c.apply live e).Running := by
  cases e with
  | start s => exact Or.inr (running_start c live s)
  | count n => exact Or.inr (running_count h live n)
  | drop n s => exact Or.inr ((running_count h live n).remove s)
  | identityChanged n => exact Or.inr ((running_count h live n).observe live.identity)
  | announceFork =>
    rcases h with ⟨n, rfl⟩ | h
    · exact Or.inl ⟨n + 1, rfl⟩
    · exact Or.inr ⟨⟨h.removed_eq, h.current_eq⟩, h.started, h.total_eq, h.chain, h.last⟩

theorem idle_or_running_run (h : c.Idle ∨ c.Running) (events : List (Host × Event)) :
    (c.run events).Idle ∨ (c.run events).Running := by
  rw [run]
  induction events generalizing c with
  | nil => exact h
  | cons e events ih => exact ih (idle_or_running_apply h e.1 e.2)

theorem idle_fresh : fresh.Idle :=
  ⟨0, rfl⟩

/-- Whatever happens to a counter from the beginning, its total is what its buckets hold together,
and the capabilities that are gone are those it does not have. It has buckets just if it has been
set up. Then the current bucket is the last one and has the capabilities and the identity of the
moment. When operations are counted the current bucket is there to be credited. Of two buckets in a
row the later one has fewer capabilities or another identity, and agrees with the earlier one in the
other respect. -/
theorem ledger_of_run (events : List (Host × Event)) :
    let c := fresh.run events
    c.total = (c.ledger.map Bucket.count).sum ∧
      c.removed = c.set.complement ∧
      (c.started = true ↔ c.ledger ≠ []) ∧
      (c.started = true → c.current + 1 = c.ledger.length ∧
        ∃ n, c.ledger[c.current]? = some ⟨c.set, c.identity, n⟩) ∧
      (∀ live, (c.ensure live).current < (c.ensure live).ledger.length) ∧
      ∀ i b b', c.ledger[i]? = some b → c.ledger[i + 1]? = some b' →
        b'.identity = b.identity ∧ b'.set ⊆ b.set ∧ b'.set ≠ b.set ∨
          b'.set = b.set ∧ b'.identity ≠ b.identity := by
  intro c
  have hc : c.Idle ∨ c.Running := idle_or_running_run (Or.inl idle_fresh) events
  have hbounds : ∀ live, (c.ensure live).current < (c.ensure live).ledger.length := fun live =>
    Nat.lt_of_succ_le (Nat.le_of_eq (running_ensure hc live).current_add_one)
  rcases hc with ⟨n, hidle⟩ | h
  · refine ⟨?_, ?_, ?_, ?_, hbounds, ?_⟩ <;> rw [hidle]
    · rfl
    · exact wellFormed_fresh.removed_eq
    · simp [fresh]
    · intro hstarted
      cases hstarted
    · intro i b b' hb
      cases hb
  · obtain ⟨closed, n, hledger⟩ := h.last
    refine ⟨h.total_eq, h.removed_eq, ?_, ?_, hbounds, ?_⟩
    · simp [h.started, hledger]
    · intro _
      refine ⟨h.current_add_one, n, ?_⟩
      rw [h.current_eq_length hledger, hledger, List.getElem?_concat_length]
    · intro i b b' hb hb'
      obtain ⟨hi, rfl⟩ := List.getElem?_eq_some_iff.1 hb
      obtain ⟨hi', rfl⟩ := List.getElem?_eq_some_iff.1 hb'
      exact List.isChain_iff_getElem.1 h.chain i hi'

end Counter

end LeastPrivilege
