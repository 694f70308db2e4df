import LeastPrivilege.Proofs.Spellings
import Mathlib.Data.Option.NAry
import Mathlib.Data.Set.Insert

/-!
# Sets of capabilities are sets of indices

However a set is made, from masks, lists and other sets, it stands for the indices that the same
operations give on sets of numbers, and its mask is the one that they give on words of 64 bits: no
bit outside the universe is ever set. The listings and the text of a set make the set again.
-/

namespace LeastPrivilege.CapabilitySet

variable {s t : CapabilitySet} {c : Capability}

/-! ## Masks as words -/

/-- The mask as a word of 64 bits. -/
def word (s : CapabilitySet) : UInt64 :=
  .ofNat s.bits

/-- The word with the bits of all capabilities. -/
def universeBits : UInt64 :=
  .ofNat (1 <<< Capability.count - 1)

/-- The word with the bit of one capability. -/
def bit (c : Capability) : UInt64 :=
  .ofNat (1 <<< c.index)

/-- The word with the bits of some capabilities, set one after the other. -/
def bitsOf (cs : List Capability) : UInt64 :=
  cs.foldl (fun w c => w ||| bit c) (.ofNat 0)

theorem getLsbD_word (s : CapabilitySet) (i : Nat) :
    s.word.toBitVec.getLsbD i = s.mask.getLsbD i := by
  change (BitVec.ofNat 64 s.mask.toNat).getLsbD i = _
  rw [BitVec.getLsbD_ofNat, BitVec.testBit_toNat, Bool.and_eq_right_iff_imp, decide_eq_true_eq]
  intro hi
  exact Nat.lt_trans (BitVec.lt_of_getLsbD hi) (by decide)

theorem eq_of_getLsbD_eq {v w : UInt64}
    (h : ∀ i < 64, v.toBitVec.getLsbD i = w.toBitVec.getLsbD i) : v = w :=
  UInt64.eq_of_toBitVec_eq (BitVec.eq_of_getLsbD_eq h)

theorem word_all : all.word = universeBits := by
  decide

theorem word_single (c : Capability) : (single c).word = bit c := by
  cases c <;> decide

theorem word_union (s t : CapabilitySet) : (s ∪ t).word = s.word ||| t.word := by
  refine eq_of_getLsbD_eq fun i _ => ?_
  rw [getLsbD_word, UInt64.toBitVec_or, BitVec.getLsbD_or, getLsbD_word, getLsbD_word]
  exact BitVec.getLsbD_or

theorem word_inter (s t : CapabilitySet) : (s ∩ t).word = s.word &&& t.word := by
  refine eq_of_getLsbD_eq fun i _ => ?_
  rw [getLsbD_word, UInt64.toBitVec_and, BitVec.getLsbD_and, getLsbD_word, getLsbD_word]
  exact BitVec.getLsbD_and

theorem word_complement (s : CapabilitySet) : s.complement.word = ~~~s.word &&& universeBits := by
  refine eq_of_getLsbD_eq fun i hi => ?_
  rw [← word_all, UInt64.toBitVec_and, UInt64.toBitVec_not, BitVec.getLsbD_and,
    BitVec.getLsbD_not, getLsbD_word, getLsbD_word, getLsbD_word]
  simp only [complement, all, BitVec.getLsbD_not, BitVec.getLsbD_allOnes, hi, decide_true,
    Bool.true_and, Bool.and_comm]

/-- The complement of the second mask has bits outside the universe, and the first mask clears
them. -/
theorem word_sdiff (s t : CapabilitySet) : (s \ t).word = s.word &&& ~~~t.word := by
  refine eq_of_getLsbD_eq fun i hi => ?_
  have hsmall : s.mask.getLsbD i = true → i < Capability.count := BitVec.lt_of_getLsbD
  rw [UInt64.toBitVec_and, UInt64.toBitVec_not, BitVec.getLsbD_and, BitVec.getLsbD_not,
    getLsbD_word, getLsbD_word, getLsbD_word]
  change (s.mask &&& ~~~t.mask).getLsbD i = _
  rw [BitVec.getLsbD_and, BitVec.getLsbD_not]
  cases hs : s.mask.getLsbD i with
  | false => rfl
  | true => simp only [hsmall hs, hi]

theorem word_ofBitsTruncate (mask : UInt64) :
    (ofBitsTruncate mask.toNat).word = mask &&& universeBits := by
  refine eq_of_getLsbD_eq fun i _ => ?_
  rw [← word_all, UInt64.toBitVec_and, BitVec.getLsbD_and, getLsbD_word, getLsbD_word]
  simp only [ofBitsTruncate, all, BitVec.getLsbD_ofNat, BitVec.getLsbD_allOnes, Bool.and_comm]
  rfl

theorem word_ofList (cs : List Capability) : (ofList cs).word = bitsOf cs := by
  have hfoldl : ∀ s : CapabilitySet,
      (cs.foldl insert s).word = cs.foldl (fun w c => w ||| bit c) s.word := by
    induction cs with
    | nil => exact fun s => rfl
    | cons c cs ih =>
      intro s
      rw [List.foldl_cons, ih, insert, word_union, word_single, List.foldl_cons]
  exact hfoldl ∅

theorem toNat_word (s : CapabilitySet) : s.word.toNat = s.bits :=
  UInt64.toNat_ofNat_of_lt' (Nat.lt_trans s.bits_lt (by decide))

theorem lt_pow_count_iff {n : Nat} :
    n < Nat.pow 2 Capability.count ↔ ∀ i, n.testBit i = true → i < Capability.count := by
  constructor
  · intro h i hi
    by_contra hge
    have hlarge : n < Nat.pow 2 i :=
      Nat.lt_of_lt_of_le h (Nat.pow_le_pow_right (by decide) (Nat.not_lt.1 hge))
    rw [Nat.testBit_lt_two_pow hlarge] at hi
    cases hi
  · intro h
    refine Nat.lt_pow_two_of_testBit n fun i hi => ?_
    by_contra hbit
    exact absurd (h i (Bool.not_eq_false _ ▸ hbit)) (Nat.not_lt.2 hi)

theorem testBit_word (s : CapabilitySet) (i : Nat) :
    s.word.toNat.testBit i = true ↔ ∃ c ∈ s, c.index = i := by
  rw [toNat_word]
  constructor
  · intro h
    have hi : i < Capability.count := lt_pow_count_iff.1 s.bits_lt i h
    cases hc : Capability.ofIndex? i with
    | none => exact absurd hi (Nat.not_lt.2 (Capability.ofIndex?_eq_none_iff.1 hc))
    | some c =>
      obtain rfl := Capability.ofIndex?_eq_some_iff.1 hc
      exact ⟨c, by simpa [testBit_bits] using h, rfl⟩
  · rintro ⟨c, hc, rfl⟩
    simpa [testBit_bits] using hc

theorem cpopNatRec_eq {w : Nat} (x : BitVec w) (n acc : Nat) :
    x.cpopNatRec n acc = (List.range n).countP x.getLsbD + acc := by
  induction n generalizing acc with
  | zero => exact (Nat.zero_add acc).symm
  | succ n ih =>
    have hlast : [n].countP x.getLsbD = (x.getLsbD n).toNat := by
      rw [List.countP_singleton]
      cases x.getLsbD n <;> rfl
    rw [BitVec.cpopNatRec_succ, ih, List.range_succ, List.countP_append, hlast]
    omega

/-- The ones in the mask are as many as the members. -/
theorem cpop_word (s : CapabilitySet) : s.word.toBitVec.cpop.toNat = s.size := by
  have hlow : (List.range Capability.count).countP s.mask.getLsbD = s.size := by
    rw [← Capability.index_all, List.countP_map, size, toList, ← List.countP_eq_length_filter]
    refine List.countP_congr fun c _ => ?_
    simp [mem_def]
  have hhigh : ((List.range 26).map (Capability.count + ·)).countP s.mask.getLsbD = 0 := by
    rw [List.countP_map, List.countP_eq_zero]
    intro i _ hbit
    have hlt : Capability.count + i < Capability.count := BitVec.lt_of_getLsbD hbit
    omega
  have hrange : List.range 64 =
      List.range Capability.count ++ (List.range 26).map (Capability.count + ·) := by
    rw [← List.range_add]
  rw [BitVec.toNat_cpop, cpopNatRec_eq, Nat.add_zero, funext s.getLsbD_word, hrange,
    List.countP_append, hlow, hhigh, Nat.add_zero]

/-! ## Sets from masks and lists -/

/-- A mask keeps to the universe if the test for bits outside finds none. -/
theorem outside_eq_zero_iff {mask : UInt64} :
    (mask &&& ~~~universeBits).toNat = 0 ↔ mask.toNat < Nat.pow 2 Capability.count := by
  have houtside : ∀ i, (mask &&& ~~~universeBits).toBitVec.getLsbD i = true ↔
      mask.toBitVec.getLsbD i = true ∧ Capability.count ≤ i := by
    intro i
    have hsmall : mask.toBitVec.getLsbD i = true → i < 64 := BitVec.lt_of_getLsbD
    rw [UInt64.toBitVec_and, UInt64.toBitVec_not, BitVec.getLsbD_and, BitVec.getLsbD_not,
      ← word_all, getLsbD_word]
    simp only [all, BitVec.getLsbD_allOnes, Bool.and_eq_true, decide_eq_true_eq,
      Bool.not_eq_true', decide_eq_false_iff_not, Nat.not_lt]
    exact and_congr_right fun h => and_iff_right (hsmall h)
  rw [lt_pow_count_iff]
  constructor
  · intro hzero i hi
    by_contra hcount
    have hbit : (mask &&& ~~~universeBits).toNat.testBit i = true :=
      (houtside i).2 ⟨hi, Nat.not_lt.1 hcount⟩
    simp [hzero] at hbit
  · intro hinside
    refine Nat.eq_of_testBit_eq fun i => ?_
    rw [Nat.zero_testBit, ← Bool.not_eq_true]
    intro hbit
    obtain ⟨hi, hcount⟩ := (houtside i).1 hbit
    exact Nat.not_lt.2 hcount (hinside i hi)

theorem mem_ofBitsTruncate {n : Nat} : c ∈ ofBitsTruncate n ↔ n.testBit c.index = true := by
  rw [mem_def, ofBitsTruncate, BitVec.getLsbD_ofNat]
  simp [c.index_lt_count]

theorem ofBits_eq_ok_iff {n : Nat} :
    ofBits n = .ok s ↔
      (∀ i, n.testBit i = true → i < Capability.count) ∧ s = ofBitsTruncate n := by
  rw [ofBits, ← lt_pow_count_iff]
  by_cases h : n < Nat.pow 2 Capability.count
  · rw [if_pos h, Except.ok.injEq, eq_comm]
    exact (and_iff_right h).symm
  · rw [if_neg h]
    constructor
    · intro herror
      cases herror
    · rintro ⟨hlt, -⟩
      exact absurd hlt h

/-- A number is below the power of two that is above its highest bit. -/
theorem log2_eq_of_highest {n i : Nat} (hi : n.testBit i = true)
    (hhigher : ∀ j, i < j → n.testBit j = false) : n.log2 = i := by
  have hne : n ≠ 0 := by
    rintro rfl
    simp at hi
  have hge : i ≤ n.log2 := (Nat.le_log2 hne).2 (Nat.ge_two_pow_of_testBit hi)
  rcases Nat.lt_or_eq_of_le hge with hlt | heq
  · have htop := Nat.testBit_log2 hne
    rw [hhigher _ hlt] at htop
    cases htop
  · exact heq.symm

/-- A mask is refused just if it has a bit outside the universe, and the highest such bit is
named. -/
theorem ofBits_eq_error_iff {n : Nat} {e : Error} :
    ofBits n = .error e ↔ ∃ i, Capability.count ≤ i ∧ n.testBit i = true ∧
      (∀ j, i < j → n.testBit j = false) ∧ e = .capabilityOutOfRange i := by
  rw [ofBits]
  constructor
  · intro h
    split at h
    · cases h
    next hlarge =>
      cases h
      have hne : n ≠ 0 := by
        rintro rfl
        exact hlarge (by decide)
      refine ⟨n.log2, (Nat.le_log2 hne).2 (Nat.not_lt.1 hlarge), Nat.testBit_log2 hne, ?_, rfl⟩
      intro j hj
      exact Nat.testBit_lt_two_pow ((Nat.log2_lt hne).1 hj)
  · rintro ⟨i, hcount, hi, hhigher, rfl⟩
    have hlarge : ¬ n < Nat.pow 2 Capability.count := fun h =>
      Nat.not_lt.2 hcount (lt_pow_count_iff.1 h i hi)
    rw [if_neg hlarge, log2_eq_of_highest hi hhigher]

theorem exists_ofIndices_iff {ns : List Nat} :
    (∃ s, ofIndices ns = .ok s) ↔ ∀ n ∈ ns, n < Capability.count := by
  have hread : ∀ n, (∃ c, Capability.ofIndex n = .ok c) ↔ n < Capability.count := by
    intro n
    rw [← Nat.not_le, ← Capability.ofIndex?_eq_none_iff, ← ne_eq, Option.ne_none_iff_exists']
    simp only [Capability.ofIndex_eq_ok_iff, Capability.ofIndex?_eq_some_iff]
  simp only [ofIndices, map_eq_ok, ← hread]
  rw [← exists_mapM_eq_ok_iff]
  exact ⟨fun ⟨_, cs, hcs, _⟩ => ⟨cs, hcs⟩, fun ⟨cs, hcs⟩ => ⟨_, cs, hcs, rfl⟩⟩

theorem mem_of_ofIndices {ns : List Nat} (h : ofIndices ns = .ok s) :
    c ∈ s ↔ c.index ∈ ns := by
  obtain ⟨cs, hcs, rfl⟩ := map_eq_ok.1 h
  rw [mem_ofList, mem_of_mapM_eq_ok hcs]
  simp [Capability.ofIndex_eq_ok_iff]

theorem ofIndices_eq_ok_iff {ns : List Nat} :
    ofIndices ns = .ok s ↔ (∀ n ∈ ns, n < Capability.count) ∧ ∀ c, c ∈ s ↔ c.index ∈ ns := by
  constructor
  · exact fun h => ⟨exists_ofIndices_iff.1 ⟨s, h⟩, fun _ => mem_of_ofIndices h⟩
  · rintro ⟨hlt, hmem⟩
    obtain ⟨t, ht⟩ := exists_ofIndices_iff.2 hlt
    rw [ht, ext fun c => (mem_of_ofIndices ht).trans (hmem c).symm]

theorem exists_decode_iff {v : Json} :
    (∃ s, decode v = .ok s) ↔
      ∃ items, v = .array items ∧ ∀ item ∈ items, ∃ c, Capability.StandsFor item c := by
  simp only [decode_eq_ok, ← Capability.decode_eq_ok_iff, ← exists_mapM_eq_ok_iff]
  exact ⟨fun ⟨_, items, hv, cs, hcs, _⟩ => ⟨items, hv, cs, hcs⟩,
    fun ⟨items, hv, cs, hcs⟩ => ⟨_, items, hv, cs, hcs, rfl⟩⟩

theorem mem_of_decode {items : List Json} (h : decode (.array items) = .ok s) :
    c ∈ s ↔ ∃ item ∈ items, Capability.StandsFor item c := by
  obtain ⟨cs, hcs, rfl⟩ := map_eq_ok.1 h
  rw [mem_ofList, mem_of_mapM_eq_ok hcs]
  simp only [Capability.decode_eq_ok_iff]

/-! ## Listings and texts -/

/-- The indices of the members. -/
def members (s : CapabilitySet) : Set Nat :=
  {i | ∃ c ∈ s, c.index = i}

theorem index_mem_members : c.index ∈ s.members ↔ c ∈ s := by
  constructor
  · rintro ⟨d, hd, hindex⟩
    rwa [← Capability.index_injective hindex]
  · exact fun hc => ⟨c, hc, rfl⟩

theorem ofIndices_indices (s : CapabilitySet) : ofIndices s.indices = .ok s := by
  have hlt : ∀ i ∈ s.indices, i < Capability.count := by
    intro i hi
    obtain ⟨c, -, rfl⟩ := mem_indices.1 hi
    exact c.index_lt_count
  exact ofIndices_eq_ok_iff.2 ⟨hlt, fun _ => (mem_indices.trans index_mem_members).symm⟩

theorem mapM_parse_names (s : CapabilitySet) :
    (s.names.mapM Capability.parse).map ofList = .ok s := by
  have hparse : s.names.mapM Capability.parse = .ok s.toList := by
    rw [mapM_eq_ok_iff, names, List.forall₂_map_left_iff]
    exact List.forall₂_same.2 fun c _ => c.parse_name
  rw [hparse, Except.map, ofList_toList]

theorem comma_not_mem_name (c : Capability) : ',' ∉ c.name.toList := by
  cases c <;> simp [Capability.name]

/-- The text of a set that has members is divided by its commas into their names. -/
theorem split_render (h : s ≠ ∅) : (s.render.split ',').toList.map String.Slice.copy = s.names := by
  have hnames : s.names ≠ [] := by
    intro hnil
    have hlist : s.toList = [] := List.map_eq_nil_iff.1 hnil
    apply h
    rw [← ofList_toList s, hlist]
    rfl
  have hcommas : ∀ cs ∈ s.names.map String.toList, ',' ∉ cs := by
    simp only [names, List.map_map, List.forall_mem_map]
    exact fun c _ => comma_not_mem_name c
  rw [String.toList_split_char, render, if_neg h, String.toList_intercalate]
  have hsplit := List.splitOn_intercalate ',' hcommas (by simpa using hnames)
  change List.map String.ofList (List.splitOn ',' ([','].intercalate _)) = _
  rw [hsplit, List.map_map]
  simp

/-! ## Indices of members -/

/-- A set of indices is that of the members if it keeps to the universe and has the same
capabilities. -/
theorem members_eq_iff {is : Set Nat} :
    s.members = is ↔ (∀ i ∈ is, i < Capability.count) ∧ ∀ c, c ∈ s ↔ c.index ∈ is := by
  constructor
  · rintro rfl
    refine ⟨?_, fun c => index_mem_members.symm⟩
    rintro i ⟨c, -, rfl⟩
    exact c.index_lt_count
  · rintro ⟨hlt, hmem⟩
    ext i
    constructor
    · rintro ⟨c, hc, rfl⟩
      exact (hmem c).1 hc
    · intro hi
      cases hc : Capability.ofIndex? i with
      | none => exact absurd (hlt i hi) (Nat.not_lt.2 (Capability.ofIndex?_eq_none_iff.1 hc))
      | some c =>
        obtain rfl := Capability.ofIndex?_eq_some_iff.1 hc
        exact ⟨c, (hmem c).2 hi, rfl⟩

theorem lt_of_mem_members {i : Nat} (h : i ∈ s.members) : i < Capability.count :=
  (members_eq_iff.1 rfl).1 i h

theorem members_complement (s : CapabilitySet) :
    s.complement.members = {i | i < Capability.count} \ s.members := by
  refine members_eq_iff.2 ⟨fun i hi => hi.1, fun c => ?_⟩
  rw [mem_complement, Set.mem_sdiff, index_mem_members]
  exact (and_iff_right c.index_lt_count).symm

theorem members_insert (s : CapabilitySet) (c : Capability) :
    (s.insert c).members = s.members ∪ {c.index} := by
  refine members_eq_iff.2 ⟨?_, fun d => ?_⟩
  · rintro i (hi | rfl)
    · exact lt_of_mem_members hi
    · exact c.index_lt_count
  · rw [mem_insert, Set.mem_union, index_mem_members, Set.mem_singleton_iff]
    exact or_congr_right ⟨congrArg _, Capability.index_injective⟩

/-! ## Ways to make a set -/

/-- The operations that make a set from two. -/
inductive Combination where
  | unionWith
  | union
  | inter
  | diff

namespace Combination

/-- The operation on sets of capabilities. -/
def apply : Combination → CapabilitySet → CapabilitySet → CapabilitySet
  | unionWith, s, t => (s.unionWith t).1
  | union, s, t => s ∪ t
  | inter, s, t => s ∩ t
  | diff, s, t => s \ t

/-- The operation on sets of indices. -/
def onIndices : Combination → Set Nat → Set Nat → Set Nat
  | unionWith, i, j => i ∪ j
  | union, i, j => i ∪ j
  | inter, i, j => i ∩ j
  | diff, i, j => i \ j

/-- The operation on masks of 64 bits. -/
def onWords : Combination → UInt64 → UInt64 → UInt64
  | unionWith, v, w => v ||| w
  | union, v, w => v ||| w
  | inter, v, w => v &&& w
  | diff, v, w => v &&& ~~~w

theorem word_apply (op : Combination) (s t : CapabilitySet) :
    (op.apply s t).word = op.onWords s.word t.word := by
  cases op with
  | unionWith => exact word_union s t
  | union => exact word_union s t
  | inter => exact word_inter s t
  | diff => exact word_sdiff s t

theorem members_apply (op : Combination) (s t : CapabilitySet) :
    (op.apply s t).members = op.onIndices s.members t.members := by
  have hunion : (s ∪ t).members = s.members ∪ t.members := by
    refine members_eq_iff.2 ⟨?_, fun c => by simp [index_mem_members]⟩
    rintro i (hi | hi) <;> exact lt_of_mem_members hi
  cases op with
  | unionWith => exact hunion
  | union => exact hunion
  | inter =>
    exact members_eq_iff.2 ⟨fun i hi => lt_of_mem_members hi.1,
      fun c => by simp [apply, onIndices, index_mem_members]⟩
  | diff =>
    exact members_eq_iff.2 ⟨fun i hi => lt_of_mem_members hi.1,
      fun c => by simp [apply, onIndices, index_mem_members]⟩

end Combination

theorem unionWith_grows_iff : (s.unionWith t).2 = true ↔ ¬ t.members ⊆ s.members := by
  have hsame : t.members ⊆ s.members ↔ t ⊆ s := by
    constructor
    · exact fun h c hc => index_mem_members.1 (h (index_mem_members.2 hc))
    · rintro h i ⟨c, hc, rfl⟩
      exact index_mem_members.2 (h c hc)
  rw [unionWith_eq, hsame, Bool.not_eq_true', decide_eq_false_iff_not]

/-- A way to make a set: from a mask, from a list of indices or capabilities or from a JSON value,
and by operations from sets that are made in turn. -/
inductive Making where
  | ofBits (mask : UInt64)
  | ofBitsTruncate (mask : UInt64)
  | ofIndices (ns : List UInt64)
  | ofList (cs : List Capability)
  | decode (v : Json)
  | all
  | insert (m : Making) (c : Capability)
  | combine (op : Combination) (m n : Making)
  | complement (m : Making)

namespace Making

/-- The set that is made, if no mask, list or value on the way is refused. -/
def result? : Making → Option CapabilitySet
  | ofBits mask => (CapabilitySet.ofBits mask.toNat).toOption
  | ofBitsTruncate mask => some (.ofBitsTruncate mask.toNat)
  | ofIndices ns => (CapabilitySet.ofIndices (ns.map UInt64.toNat)).toOption
  | ofList cs => some (.ofList cs)
  | decode v => (CapabilitySet.decode v).toOption
  | all => some .all
  | insert m c => m.result?.map (·.insert c)
  | combine op m n => Option.map₂ op.apply m.result? n.result?
  | complement m => m.result?.map CapabilitySet.complement

/-- Nothing is refused on the way. -/
def IsPossible : Making → Prop
  | ofBits mask => ∀ i, mask.toNat.testBit i = true → i < Capability.count
  | ofIndices ns => ∀ n ∈ ns, n.toNat < Capability.count
  | decode v => ∃ items, v = .array items ∧ ∀ item ∈ items, ∃ c, Capability.StandsFor item c
  | insert m _ => m.IsPossible
  | combine _ m n => m.IsPossible ∧ n.IsPossible
  | complement m => m.IsPossible
  | _ => True

/-- The indices that the set is meant to have. -/
def indices : Making → Set Nat
  | ofBits mask => {i | mask.toNat.testBit i = true}
  | ofBitsTruncate mask => {i | i < Capability.count ∧ mask.toNat.testBit i = true}
  | ofIndices ns => {i | ∃ n ∈ ns, n.toNat = i}
  | ofList cs => {i | ∃ c ∈ cs, c.index = i}
  | decode v => {i | ∃ items, v = .array items ∧
      ∃ item ∈ items, ∃ c, Capability.StandsFor item c ∧ c.index = i}
  | all => {i | i < Capability.count}
  | insert m c => m.indices ∪ {c.index}
  | combine op m n => op.onIndices m.indices n.indices
  | complement m => {i | i < Capability.count} \ m.indices

/-- The mask that is computed on words of 64 bits, if nothing is refused on the way. -/
def word? : Making → Option UInt64
  | ofBits mask => if (mask &&& ~~~universeBits).toNat = 0 then some mask else none
  | ofBitsTruncate mask => some (mask &&& universeBits)
  | ofIndices ns => ((ns.map UInt64.toNat).mapM Capability.ofIndex).toOption.map bitsOf
  | ofList cs => some (bitsOf cs)
  | decode (.array items) => (items.mapM Capability.decode).toOption.map bitsOf
  | decode _ => none
  | all => some universeBits
  | insert m c => m.word?.map (· ||| bit c)
  | combine op m n => Option.map₂ op.onWords m.word? n.word?
  | complement m => m.word?.map fun w => ~~~w &&& universeBits

theorem exists_result?_iff (m : Making) : (∃ s, m.result? = some s) ↔ m.IsPossible := by
  induction m with
  | ofBits mask => simp [result?, IsPossible, toOption_eq_some, ofBits_eq_ok_iff]
  | ofIndices ns => simp [result?, IsPossible, toOption_eq_some, exists_ofIndices_iff]
  | decode v => simp [result?, IsPossible, toOption_eq_some, exists_decode_iff]
  | insert m c ih => simp [result?, IsPossible, ← ih]
  | combine op m n ihm ihn => simp [result?, IsPossible, ← ihm, ← ihn]
  | complement m ih => simp [result?, IsPossible, ← ih]
  | _ => simp [result?, IsPossible]

theorem members_result? {m : Making} (h : m.result? = some s) : s.members = m.indices := by
  -- A set that is made from others has its members from theirs; the rest are made at once.
  induction m generalizing s with
  | ofBits mask =>
    -- The mask was accepted, so that none of its bits is outside.
    obtain ⟨hlt, rfl⟩ := ofBits_eq_ok_iff.1 (toOption_eq_some.1 h)
    exact members_eq_iff.2 ⟨hlt, fun c => mem_ofBitsTruncate⟩
  | ofBitsTruncate mask =>
    obtain rfl := Option.some.inj h
    refine members_eq_iff.2 ⟨fun i hi => hi.1, fun c => ?_⟩
    exact mem_ofBitsTruncate.trans (and_iff_right c.index_lt_count).symm
  | ofIndices ns =>
    have hok := toOption_eq_some.1 h
    refine members_eq_iff.2 ⟨?_, fun c => by simp [mem_of_ofIndices hok, indices]⟩
    rintro i ⟨n, hn, rfl⟩
    exact exists_ofIndices_iff.1 ⟨s, hok⟩ _ (List.mem_map_of_mem hn)
  | ofList cs =>
    obtain rfl := Option.some.inj h
    ext i
    simp [members, indices]
  | decode v =>
    have hok := toOption_eq_some.1 h
    obtain ⟨items, rfl, -⟩ := decode_eq_ok.1 hok
    ext i
    constructor
    · rintro ⟨c, hc, rfl⟩
      obtain ⟨item, hitem, hstands⟩ := (mem_of_decode hok).1 hc
      exact ⟨items, rfl, item, hitem, c, hstands, rfl⟩
    · rintro ⟨_, ⟨⟩, item, hitem, c, hstands, rfl⟩
      exact ⟨c, (mem_of_decode hok).2 ⟨item, hitem, hstands⟩, rfl⟩
  | all =>
    obtain rfl := Option.some.inj h
    exact members_eq_iff.2 ⟨fun i hi => hi, fun c => by simp [indices, c.index_lt_count]⟩
  | insert m c ih =>
    obtain ⟨t, ht, rfl⟩ := Option.map_eq_some_iff.1 h
    rw [members_insert, ih ht, indices]
  | combine op m n ihm ihn =>
    obtain ⟨t, u, ht, hu, rfl⟩ := Option.map₂_eq_some_iff.1 h
    rw [Combination.members_apply, ihm ht, ihn hu, indices]
  | complement m ih =>
    obtain ⟨t, ht, rfl⟩ := Option.map_eq_some_iff.1 h
    rw [members_complement, ih ht, indices]

theorem word?_ofBits (mask : UInt64) : (ofBits mask).word? = (ofBits mask).result?.map word := by
  rw [word?, result?, CapabilitySet.ofBits]
  by_cases h : mask.toNat < Nat.pow 2 Capability.count
  · have hmask : (CapabilitySet.ofBitsTruncate mask.toNat).word = mask := by
      have hbits : (BitVec.ofNat Capability.count mask.toNat).toNat = mask.toNat :=
        (BitVec.toNat_ofNat _ _).trans (Nat.mod_eq_of_lt h)
      rw [word, bits, CapabilitySet.ofBitsTruncate, hbits, UInt64.ofNat_toNat]
    rw [if_pos (outside_eq_zero_iff.2 h), if_pos h]
    exact congrArg some hmask.symm
  · rw [if_neg (mt outside_eq_zero_iff.1 h), if_neg h]
    rfl

theorem word?_eq (m : Making) : m.word? = m.result?.map word := by
  induction m with
  | ofBits mask => exact word?_ofBits mask
  | ofBitsTruncate mask => exact congrArg some (word_ofBitsTruncate mask).symm
  | ofIndices ns =>
    rw [word?, result?, CapabilitySet.ofIndices, toOption_map, Option.map_map]
    exact congrArg (Option.map · _) (funext fun cs => (word_ofList cs).symm)
  | ofList cs => exact congrArg some (word_ofList cs).symm
  | decode v =>
    cases v with
    | array items =>
      rw [word?, result?, CapabilitySet.decode, toOption_map, Option.map_map]
      exact congrArg (Option.map · _) (funext fun cs => (word_ofList cs).symm)
    | _ => rfl
  | all => exact congrArg some word_all.symm
  | insert m c ih =>
    rw [word?, result?, ih, Option.map_map, Option.map_map]
    exact congrArg (Option.map · _) (funext fun s => by
      simp [CapabilitySet.insert, word_union, word_single])
  | combine op m n ihm ihn =>
    rw [word?, result?, ihm, ihn, Option.map_map₂]
    simp only [Combination.word_apply]
    rw [Option.map₂_map_left, Option.map₂_map_right]
  | complement m ih =>
    rw [word?, result?, ih, Option.map_map, Option.map_map]
    exact congrArg (Option.map · _) (funext fun s => (word_complement s).symm)

end Making

/-! ## Sets and indices -/

/-- A set stands for a set of indices: in its mask, in its members, and in what it lists. -/
structure Represents (s : CapabilitySet) (is : Set Nat) : Prop where
  mem_iff : ∀ c, c ∈ s ↔ c.index ∈ is
  /-- The mask has the bits of the indices. -/
  testBit_iff : ∀ i, s.word.toNat.testBit i = true ↔ i ∈ is
  /-- No bit outside the universe is set. -/
  high_clear : ∀ i, Capability.count ≤ i → s.word.toNat.testBit i = false
  /-- There are as many members as are listed, and as the mask has ones. -/
  size_eq : s.size = s.toList.length ∧ s.size = s.word.toBitVec.cpop.toNat
  ascending : s.indices.Pairwise (· < ·)
  mem_indices_iff : ∀ i, i ∈ s.indices ↔ i ∈ is
  /-- The indices make the set again. -/
  ofIndices_eq : ofIndices s.indices = .ok s
  /-- So do the names in the text, between the commas. -/
  parse_render : s ≠ ∅ → (((s.render.split ',').toList.map String.Slice.copy).mapM
    Capability.parse).map ofList = .ok s

theorem represents_members (s : CapabilitySet) : s.Represents s.members where
  mem_iff _ := index_mem_members.symm
  testBit_iff := s.testBit_word
  high_clear i hi := by
    rw [← Bool.not_eq_true, testBit_word]
    exact fun h => Nat.not_lt.2 hi (lt_of_mem_members h)
  size_eq := ⟨rfl, s.cpop_word.symm⟩
  ascending := s.pairwise_indices
  mem_indices_iff _ := mem_indices
  ofIndices_eq := s.ofIndices_indices
  parse_render h := by rw [split_render h, mapM_parse_names]

/-- Sets of capabilities are sets of indices. A set is made unless something is refused on the way.
It has the indices that the operations give on sets of numbers, within the universe, and the mask
that they give on words of 64 bits. Joining reports growth just if there is something to add, and a
mask is refused for the highest bit outside the universe. -/
theorem sets_are_sets_of_indices :
    (∀ m : Making, ((∃ s, m.result? = some s) ↔ m.IsPossible) ∧
      ∀ s, m.result? = some s → m.word? = some s.word ∧ s.Represents m.indices) ∧
    (∀ (m n : Making) (s t : CapabilitySet), m.result? = some s → n.result? = some t →
      ((s.unionWith t).2 = true ↔ ¬ n.indices ⊆ m.indices)) ∧
    ∀ (mask : UInt64) (e : Error), ofBits mask.toNat = .error e ↔
      ∃ i, Capability.count ≤ i ∧ mask.toNat.testBit i = true ∧
        (∀ j, i < j → mask.toNat.testBit j = false) ∧ e = .capabilityOutOfRange i := by
  refine ⟨fun m => ⟨m.exists_result?_iff, ?_⟩, ?_, fun mask e => ofBits_eq_error_iff⟩
  · intro s h
    rw [m.word?_eq, h, ← Making.members_result? h]
    exact ⟨rfl, s.represents_members⟩
  · intro m n s t hm hn
    rw [← Making.members_result? hm, ← Making.members_result? hn]
    exact unionWith_grows_iff

/-- The complement of what a mask of ones leaves when two capabilities are taken away, of which one
is listed twice. -/
def sampleMaking : Making :=
  .complement (.combine .diff (.ofBitsTruncate (.ofNat (UInt64.size - 1))) (.ofIndices [37, 0, 37]))

/-- The complement of the difference is what was taken away. Nothing is added by joining it to
itself, and a mask with two bits outside the universe is refused for the higher one. -/
theorem sets_are_sets_of_indices_sample :
    sampleMaking.result? = some (ofList [.chown, .auditRead]) ∧
    sampleMaking.word? = some (ofList [.chown, .auditRead]).word ∧
    (ofList [.chown, .auditRead]).Represents sampleMaking.indices ∧
    ((ofList [.chown, .auditRead]).unionWith (ofList [.chown, .auditRead])).2 = false ∧
    ofBits (UInt64.ofNat (1 <<< 40 + 1 <<< 38)).toNat = .error (.capabilityOutOfRange 40) := by
  have hmade : sampleMaking.result? = some (ofList [.chown, .auditRead]) := by decide +kernel
  obtain ⟨hword, hrepresents⟩ := (sets_are_sets_of_indices.1 sampleMaking).2 _ hmade
  have hgrown := sets_are_sets_of_indices.2.1 _ _ _ _ hmade hmade
  refine ⟨hmade, hword, hrepresents, ?_, ?_⟩
  · rw [← Bool.not_eq_true, hgrown, not_not]
  · refine (sets_are_sets_of_indices.2.2 _ _).2 ⟨40, by decide, by decide +kernel, ?_, rfl⟩
    intro j hj
    have hlt : (UInt64.ofNat (1 <<< 40 + 1 <<< 38)).toNat < Nat.pow 2 41 := by decide +kernel
    exact Nat.testBit_lt_two_pow
      (Nat.lt_of_lt_of_le hlt (Nat.pow_le_pow_right (by decide) hj))

end LeastPrivilege.CapabilitySet
