import LeastPrivilege.Capability.Spelling

/-!
# Sets of capabilities

A set is a mask with one bit for each capability, so a set outside the universe cannot be written.
Each operation comes with the statement of what it does to membership.
-/

namespace LeastPrivilege

/-- A set of capabilities: bit `i` tells whether the capability of index `i` is a member. -/
structure CapabilitySet where
  mask : BitVec Capability.count
  deriving DecidableEq, Repr

namespace CapabilitySet

instance : Membership Capability CapabilitySet where
  mem s c := s.mask.getLsbD c.index = true

instance (c : Capability) (s : CapabilitySet) : Decidable (c ∈ s) :=
  inferInstanceAs (Decidable (s.mask.getLsbD c.index = true))

theorem mem_def {c : Capability} {s : CapabilitySet} : c ∈ s ↔ s.mask.getLsbD c.index = true :=
  Iff.rfl

/-- Two sets with the same members are equal. -/
theorem ext {s t : CapabilitySet} (h : ∀ c, c ∈ s ↔ c ∈ t) : s = t := by
  obtain ⟨s⟩ := s
  obtain ⟨t⟩ := t
  congr 1
  apply BitVec.eq_of_getLsbD_eq
  intro i hi
  cases hc : Capability.ofIndex? i with
  | none => exact absurd hi (Nat.not_lt.2 (Capability.ofIndex?_eq_none_iff.1 hc))
  | some c =>
    have hci := Capability.ofIndex?_eq_some_iff.1 hc
    have hiff := h c
    rw [mem_def, mem_def, hci] at hiff
    exact Bool.eq_iff_iff.2 hiff

/-- The set without members. -/
def empty : CapabilitySet :=
  ⟨0#_⟩

instance : EmptyCollection CapabilitySet := ⟨empty⟩

instance : Inhabited CapabilitySet := ⟨empty⟩

@[simp] theorem not_mem_empty (c : Capability) : c ∉ (∅ : CapabilitySet) := by
  simp [mem_def, EmptyCollection.emptyCollection, empty]

/-- The set of all capabilities. -/
def all : CapabilitySet :=
  ⟨BitVec.allOnes _⟩

@[simp] theorem mem_all (c : Capability) : c ∈ all := by
  simp [mem_def, all, c.index_lt_count]

/-- The set of one capability. -/
def single (c : Capability) : CapabilitySet :=
  ⟨BitVec.twoPow _ c.index⟩

@[simp] theorem mem_single {c d : Capability} : d ∈ single c ↔ d = c := by
  rw [mem_def, single, BitVec.getLsbD_twoPow]
  have hc := c.index_lt_count
  constructor
  · intro h
    simp only [Bool.and_eq_true, decide_eq_true_eq] at h
    exact (Capability.index_injective h.2).symm
  · rintro rfl
    simp [hc]

/-- The capabilities in one set or the other. -/
def union (s t : CapabilitySet) : CapabilitySet :=
  ⟨s.mask ||| t.mask⟩

instance : Union CapabilitySet := ⟨union⟩

@[simp] theorem mem_union {c : Capability} {s t : CapabilitySet} : c ∈ s ∪ t ↔ c ∈ s ∨ c ∈ t := by
  simp [mem_def, Union.union, union]

/-- Joins a second set to the first, and tells whether the first has grown. -/
def unionWith (s t : CapabilitySet) : CapabilitySet × Bool :=
  (s ∪ t, ~~~s.mask &&& t.mask != 0#_)

/-- The capabilities in both sets. -/
def inter (s t : CapabilitySet) : CapabilitySet :=
  ⟨s.mask &&& t.mask⟩

instance : Inter CapabilitySet := ⟨inter⟩

@[simp] theorem mem_inter {c : Capability} {s t : CapabilitySet} : c ∈ s ∩ t ↔ c ∈ s ∧ c ∈ t := by
  simp [mem_def, Inter.inter, inter]

/-- The capabilities outside a set. -/
def complement (s : CapabilitySet) : CapabilitySet :=
  ⟨~~~s.mask⟩

@[simp] theorem mem_complement {c : Capability} {s : CapabilitySet} :
    c ∈ s.complement ↔ c ∉ s := by
  simp [mem_def, complement, c.index_lt_count]

/-- The capabilities of the first set that the second lacks. -/
def diff (s t : CapabilitySet) : CapabilitySet :=
  ⟨s.mask &&& ~~~t.mask⟩

instance : SDiff CapabilitySet := ⟨diff⟩

@[simp] theorem mem_sdiff {c : Capability} {s t : CapabilitySet} : c ∈ s \ t ↔ c ∈ s ∧ c ∉ t := by
  simp [mem_def, SDiff.sdiff, diff, c.index_lt_count]

instance : HasSubset CapabilitySet where
  Subset s t := ∀ c, c ∈ s → c ∈ t

theorem subset_def {s t : CapabilitySet} : s ⊆ t ↔ ∀ c, c ∈ s → c ∈ t :=
  Iff.rfl

theorem subset_iff_sdiff_eq_empty {s t : CapabilitySet} : s ⊆ t ↔ s \ t = ∅ := by
  constructor
  · intro h
    apply ext
    intro c
    simpa using h c
  · intro h c hc
    have hnot : c ∉ s \ t := by simp [h]
    simpa [hc] using hnot

instance (s t : CapabilitySet) : Decidable (s ⊆ t) :=
  decidable_of_iff (s \ t = ∅) subset_iff_sdiff_eq_empty.symm

/-- The first set grows if the second has a member that it lacks. -/
theorem unionWith_eq (s t : CapabilitySet) : s.unionWith t = (s ∪ t, !decide (t ⊆ s)) := by
  have hmask : (t \ s).mask = ~~~s.mask &&& t.mask := BitVec.and_comm _ _
  have hgrown : (~~~s.mask &&& t.mask != 0#_) = !decide (t ⊆ s) := by
    rw [Bool.eq_iff_iff, bne_iff_ne, ← hmask, Bool.not_eq_true', decide_eq_false_iff_not,
      subset_iff_sdiff_eq_empty]
    exact not_congr ⟨congrArg CapabilitySet.mk, congrArg mask⟩
  rw [unionWith, hgrown]

/-- A set with one more member. -/
def insert (s : CapabilitySet) (c : Capability) : CapabilitySet :=
  s ∪ single c

@[simp] theorem mem_insert {s : CapabilitySet} {c d : Capability} :
    d ∈ s.insert c ↔ d ∈ s ∨ d = c := by
  simp [insert]

/-- The set of the members of a list. -/
def ofList (cs : List Capability) : CapabilitySet :=
  cs.foldl insert ∅

theorem mem_foldl_insert {cs : List Capability} {s : CapabilitySet} {c : Capability} :
    c ∈ cs.foldl insert s ↔ c ∈ s ∨ c ∈ cs := by
  induction cs generalizing s with
  | nil => simp
  | cons d cs ih => simp [ih, or_assoc]

@[simp] theorem mem_ofList {cs : List Capability} {c : Capability} : c ∈ ofList cs ↔ c ∈ cs := by
  simp [ofList, mem_foldl_insert]

/-- The members in the order of their indices. -/
def toList (s : CapabilitySet) : List Capability :=
  Capability.all.filter (· ∈ s)

@[simp] theorem mem_toList {s : CapabilitySet} {c : Capability} : c ∈ s.toList ↔ c ∈ s := by
  simp [toList, Capability.mem_all]

@[simp] theorem ofList_toList (s : CapabilitySet) : ofList s.toList = s :=
  ext fun c => by simp

/-- The number of members. -/
def size (s : CapabilitySet) : Nat :=
  s.toList.length

/-- The indices of the members, ascending. -/
def indices (s : CapabilitySet) : List Nat :=
  s.toList.map Capability.index

/-- The indices of a set come in ascending order. -/
theorem pairwise_indices (s : CapabilitySet) : s.indices.Pairwise (· < ·) := by
  have hall : (Capability.all.map Capability.index).Pairwise (· < ·) := by
    rw [Capability.index_all]
    exact List.pairwise_lt_range
  rw [indices, toList, List.pairwise_map]
  exact (List.pairwise_map.1 hall).filter _

theorem mem_indices {s : CapabilitySet} {i : Nat} : i ∈ s.indices ↔ ∃ c ∈ s, c.index = i := by
  simp [indices]

/-- The names of the members in the order of their indices. -/
def names (s : CapabilitySet) : List String :=
  s.toList.map Capability.name

/-- The mask as a number. -/
def bits (s : CapabilitySet) : Nat :=
  s.mask.toNat

theorem bits_lt (s : CapabilitySet) : s.bits < Nat.pow 2 Capability.count :=
  s.mask.isLt

theorem testBit_bits (s : CapabilitySet) (c : Capability) :
    s.bits.testBit c.index = decide (c ∈ s) := by
  rw [bits, BitVec.testBit_toNat]
  exact Bool.decide_eq_true.symm

/-- The set whose mask is the low part of a number. -/
def ofBitsTruncate (n : Nat) : CapabilitySet :=
  ⟨BitVec.ofNat _ n⟩

/-- The set with a given mask. A number with a bit outside the universe is refused, and the highest
bit is named. -/
def ofBits (n : Nat) : Except Error CapabilitySet :=
  if n < Nat.pow 2 Capability.count then .ok (ofBitsTruncate n)
  else .error (.capabilityOutOfRange n.log2)

@[simp] theorem ofBitsTruncate_bits (s : CapabilitySet) : ofBitsTruncate s.bits = s := by
  simp [ofBitsTruncate, bits]

@[simp] theorem ofBits_bits (s : CapabilitySet) : ofBits s.bits = .ok s := by
  rw [ofBits, if_pos s.bits_lt, ofBitsTruncate_bits]

/-- The set of the capabilities with given indices; the first index out of range is the error. -/
def ofIndices (ns : List Nat) : Except Error CapabilitySet :=
  (ns.mapM Capability.ofIndex).map ofList

/-- The names between commas, or `empty`. -/
def render (s : CapabilitySet) : String :=
  if s = ∅ then "empty" else ",".intercalate s.names

end CapabilitySet

end LeastPrivilege
