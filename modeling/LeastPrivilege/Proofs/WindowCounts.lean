import LeastPrivilege.Proofs.BlockwiseInstrumentation
import Mathlib.Algebra.GroupWithZero.Nat

/-!
# The numbers that are counted

The special calls of a block close its windows. Each call that counts passes the size of one window,
so the numbers passed up to a special call add up to the operations up to it, and all numbers to the
operations that are executed. This holds for the numbers as they stand in the operands.
-/

namespace LeastPrivilege

/-- The number that an operation passes if it calls a routine that counts. -/
def Operation.count? (op : Operation) : Option Nat :=
  match op.routine? with
  | some .count | some .countDrop | some .countIdentity =>
    op.call?.bind fun c => (c.args.head?.bind Operand.literal?).map UInt64.toNat
  | _ => none

/-- Only headers stand in front of the marker of an unreachable end. -/
def Block.OnlyHeaders (b : Block) : Prop :=
  ∃ headers, b.operations = headers ++ [.unreachable] ∧ ∀ op ∈ headers, op.isHeader = true

theorem Block.onlyHeaders_iff {b : Block} : b.OnlyHeaders ↔ BlockPlan.isDead b = true := by
  rw [isDead_iff, endsUnreachable_iff]
  constructor
  · rintro ⟨headers, hops, hheaders⟩
    refine ⟨⟨headers, hops⟩, ?_⟩
    rw [hops, List.dropLast_concat]
    exact List.all_eq_true.2 hheaders
  · rintro ⟨⟨headers, hops⟩, hheaders⟩
    rw [hops, List.dropLast_concat] at hheaders
    exact ⟨headers, hops, List.all_eq_true.1 hheaders⟩

theorem Operation.special?_eq_some_iff {settings : Settings} {site : BlockRef} {op : Operation}
    {special : SpecialCall} : op.special? settings site = some special ↔
      ∃ c, op = .call c ∧ SpecialCall.classify settings site c = .ok (some special) := by
  rw [special?]
  cases op with
  | call c =>
    cases hclassify : SpecialCall.classify settings site c with
    | error e => simp [call?, hclassify, Except.toOption]
    | ok found => cases found <;> simp [call?, hclassify, Except.toOption]
  | _ => simp [call?]

namespace BlockPlan

open PlannedCall

section Sizes

variable (special? : Operation → Option SpecialCall)

/-- The sizes of the windows that special calls close, when `n` operations are yet to be counted. -/
def windowCounts (n : Nat) : List Operation → List Nat
  | [] => []
  | op :: ops =>
    match special? op with
    | some _ => (n + 1) :: windowCounts 0 ops
    | none => windowCounts (n + 1) ops

/-- The size of the window that is open after operations, when `n` operations before them are yet to
be counted. -/
def openWindow (n : Nat) : List Operation → Nat
  | [] => n
  | op :: ops =>
    match special? op with
    | some _ => openWindow 0 ops
    | none => openWindow (n + 1) ops

/-- The size of the window that is open at the end, if there is one. -/
def tailCount (ops : List Operation) : List Nat :=
  if openWindow special? 0 ops = 0 then [] else [openWindow special? 0 ops]

end Sizes

variable {special? : Operation → Option SpecialCall} {special : SpecialCall} {op : Operation}
  {ops xs ys rest : List Operation} {n position k i : Nat}

theorem windowCounts_append : windowCounts special? n (xs ++ ys) =
    windowCounts special? n xs ++ windowCounts special? (openWindow special? n xs) ys := by
  induction xs generalizing n with
  | nil => rfl
  | cons op xs ih =>
    rw [List.cons_append, windowCounts, windowCounts, openWindow]
    cases special? op with
    | some special => simp only [ih, List.cons_append]
    | none => simp only [ih]

theorem openWindow_append : openWindow special? n (xs ++ ys) =
    openWindow special? (openWindow special? n xs) ys := by
  induction xs generalizing n with
  | nil => rfl
  | cons op xs ih =>
    rw [List.cons_append, openWindow, openWindow]
    cases special? op with
    | some special => exact ih
    | none => exact ih

/-- Every operation is in a window that has been closed or in the one that is open. -/
theorem sum_windowCounts (special? : Operation → Option SpecialCall) (n : Nat)
    (ops : List Operation) :
    (windowCounts special? n ops).sum + openWindow special? n ops = n + ops.length := by
  induction ops generalizing n with
  | nil => simp [windowCounts, openWindow]
  | cons op ops ih =>
    rw [windowCounts, openWindow, List.length_cons]
    cases special? op with
    | some special =>
      have hrest := ih 0
      simp only [List.sum_cons]
      omega
    | none =>
      have hrest := ih (n + 1)
      simp only
      omega

theorem length_windowCounts (n position : Nat) (ops : List Operation) :
    (windowCounts special? n ops).length = (specialsFrom special? position ops).length := by
  induction ops generalizing n position with
  | nil => rfl
  | cons op ops ih =>
    rw [windowCounts, specialsFrom]
    cases special? op with
    | some special => simp only [List.length_cons, ih 0 (position + 1)]
    | none => exact ih (n + 1) (position + 1)

/-! ## Positions of the special calls -/

theorem mem_specialsFrom : (k, special) ∈ specialsFrom special? position ops ↔
    ∃ i op, ops[i]? = some op ∧ special? op = some special ∧ k = position + i := by
  induction ops generalizing position with
  | nil => simp [specialsFrom]
  | cons op ops ih =>
    have hshift : (∃ i o, (op :: ops)[i]? = some o ∧ special? o = some special ∧ k = position + i) ↔
        special? op = some special ∧ k = position ∨
          ∃ i o, ops[i]? = some o ∧ special? o = some special ∧ k = position + 1 + i := by
      constructor
      · rintro ⟨i, o, ho, hspecial, rfl⟩
        cases i with
        | zero =>
          obtain rfl : op = o := by simpa using ho
          exact Or.inl ⟨hspecial, rfl⟩
        | succ i => exact Or.inr ⟨i, o, by simpa using ho, hspecial, by omega⟩
      · rintro (⟨hspecial, rfl⟩ | ⟨i, o, ho, hspecial, rfl⟩)
        · exact ⟨0, op, rfl, hspecial, rfl⟩
        · exact ⟨i + 1, o, by simpa using ho, hspecial, by omega⟩
    rw [hshift, ← ih, specialsFrom]
    cases special? op with
    | none => simp
    | some found => simp [eq_comm, and_comm]

theorem pairwise_specialsFrom (position : Nat) (ops : List Operation) :
    (specialsFrom special? position ops).Pairwise fun x y => x.1 < y.1 := by
  induction ops generalizing position with
  | nil => exact List.Pairwise.nil
  | cons op ops ih =>
    rw [specialsFrom]
    cases special? op with
    | some special =>
      refine List.pairwise_cons.2 ⟨?_, ih (position + 1)⟩
      rintro ⟨k, other⟩ hk
      obtain ⟨i, -, -, -, rfl⟩ := mem_specialsFrom.1 hk
      change position < position + 1 + i
      omega
    | none => exact ih (position + 1)

/-- A special call divides the operations, and as many windows are closed before it as there are
special calls. -/
theorem exists_split_of_specialsFrom
    (h : (specialsFrom special? position ops)[i]? = some (k, special)) :
    ∃ xs op ys, ops = xs ++ op :: ys ∧ special? op = some special ∧ k = position + xs.length ∧
      ∀ n, (windowCounts special? n xs).length = i := by
  induction ops generalizing position i with
  | nil => simp [specialsFrom] at h
  | cons op ops ih =>
    rw [specialsFrom] at h
    cases hop : special? op with
    | some found =>
      rw [hop] at h
      cases i with
      | zero =>
        obtain ⟨rfl, rfl⟩ : position = k ∧ found = special := by simpa using h
        exact ⟨[], op, ops, rfl, hop, rfl, fun _ => rfl⟩
      | succ i =>
        obtain ⟨xs, op', ys, rfl, hspecial, hk, hlength⟩ := ih h
        refine ⟨op :: xs, op', ys, rfl, hspecial, ?_, fun n => ?_⟩
        · rw [hk, List.length_cons]
          omega
        · rw [windowCounts, hop, List.length_cons, hlength]
    | none =>
      rw [hop] at h
      obtain ⟨xs, op', ys, rfl, hspecial, hk, hlength⟩ := ih h
      refine ⟨op :: xs, op', ys, rfl, hspecial, ?_, fun n => ?_⟩
      · rw [hk, List.length_cons]
        omega
      · rw [windowCounts, hop]
        exact hlength (n + 1)

/-! ## Reading the numbers back -/

theorem count?_invoke {r : Routine} (hr : r = .count ∨ r = .countDrop ∨ r = .countIdentity)
    (hn : n < UInt32.size) (rest : List Operand) :
    (r.invoke (countArg n :: rest)).count? = some n := by
  have hread : ((countArg n).literal?).map UInt64.toNat = some n :=
    congrArg some (Operation.toNat_countArg hn)
  rw [Operation.count?, Operation.routine?_invoke]
  rcases hr with rfl | rfl | rfl <;> exact hread

/-- Around a special call, one number is passed: the size of the window that it closes. -/
theorem exists_around (hn : n < UInt32.size) (op : Operation) (special : SpecialCall) :
    ∃ added, Interleaved [op] added (around n op special) ∧
      added.filterMap Operation.count? = [n] := by
  refine ⟨_, interleaved_around 0 n op special, ?_⟩
  have hnone : ∀ r : Routine, r = .announceFork ∨ r = .report → (r.invoke []).count? = none := by
    rintro r (rfl | rfl) <;> rw [Operation.count?, Operation.routine?_invoke]
  cases special with
  | drop s =>
    change List.filterMap _ [Routine.countDrop.invoke _] = _
    rw [List.filterMap_cons, count?_invoke (by simp) hn]
    rfl
  | duplicate =>
    change List.filterMap _ [Routine.count.invoke _, Routine.announceFork.invoke []] = _
    rw [List.filterMap_cons, count?_invoke (by simp) hn]
    simp only [List.filterMap_cons, hnone _ (Or.inl rfl), List.filterMap_nil]
  | replace =>
    change List.filterMap _ [Routine.count.invoke _, Routine.report.invoke []] = _
    rw [List.filterMap_cons, count?_invoke (by simp) hn]
    simp only [List.filterMap_cons, hnone _ (Or.inr rfl), List.filterMap_nil]
  | identityChange =>
    change List.filterMap _ [Routine.countIdentity.invoke _] = _
    rw [List.filterMap_cons, count?_invoke (by simp) hn]
    rfl

/-- What is made of operations that others follow passes the sizes of the windows that are closed in
them. -/
theorem exists_woven (special? : Operation → Option SpecialCall) (hrest : rest ≠ [])
    (hlength : n + xs.length < UInt32.size) :
    ∃ woven added, weave special? n (xs ++ rest) =
        woven ++ weave special? (openWindow special? n xs) rest ∧
      Interleaved xs added woven ∧
      added.filterMap Operation.count? = windowCounts special? n xs := by
  induction xs generalizing n with
  | nil => exact ⟨[], [], rfl, .nil, rfl⟩
  | cons op xs ih =>
    rw [List.length_cons] at hlength
    rw [List.cons_append, openWindow, windowCounts]
    cases hop : special? op with
    | some special =>
      obtain ⟨woven, added, hweave, hadded, hcounts⟩ := ih (n := 0) (by omega)
      obtain ⟨first, hfirst, hcount⟩ := exists_around (n := n + 1) (by omega) op special
      refine ⟨around (n + 1) op special ++ woven, first ++ added, ?_, hfirst.append hadded, ?_⟩
      · rw [weave_special hop, hweave, List.append_assoc]
      · rw [List.filterMap_append, hcount, hcounts]
        rfl
    | none =>
      obtain ⟨woven, added, hweave, hadded, hcounts⟩ := ih (n := n + 1) (by omega)
      have hne : xs ++ rest ≠ [] := by simp [hrest]
      refine ⟨op :: woven, added, ?_, hadded.keep, hcounts⟩
      simp only [weave, hop, if_neg hne, hweave, List.cons_append]

theorem windowCounts_concat (hop : special? op = none) (n : Nat) (xs : List Operation) :
    windowCounts special? n (xs ++ [op]) = windowCounts special? n xs := by
  rw [windowCounts_append, windowCounts, hop]
  exact List.append_nil _

theorem tailCount_concat (hop : special? op = none) (xs : List Operation) :
    tailCount special? (xs ++ [op]) = [openWindow special? 0 xs + 1] := by
  rw [tailCount, openWindow_append, openWindow, hop]
  rfl

theorem tailCount_concat_special (hop : special? op = some special) (xs : List Operation) :
    tailCount special? (xs ++ [op]) = [] := by
  rw [tailCount, openWindow_append, openWindow, hop]
  rfl

/-- The window that is open at the end is counted right before the last operation. -/
theorem exists_woven_concat (hop : special? op = none) (hlength : xs.length < UInt32.size) :
    ∃ woven added, weave special? 0 (xs ++ [op]) =
        woven ++ [Routine.count.invoke [countArg (openWindow special? 0 xs + 1)], op] ∧
      Interleaved xs added woven ∧
      added.filterMap Operation.count? = windowCounts special? 0 xs := by
  rw [← Nat.zero_add xs.length] at hlength
  obtain ⟨woven, added, hweave, hadded⟩ := exists_woven special? (List.cons_ne_nil op []) hlength
  refine ⟨woven, added, ?_, hadded⟩
  rw [hweave, weave, hop]
  rfl

/-- What is made of operations passes the sizes of all windows. -/
theorem exists_woven_all (special? : Operation → Option SpecialCall)
    (hlength : ops.length < UInt32.size) :
    ∃ added, Interleaved ops added (weave special? 0 ops) ∧
      added.filterMap Operation.count? = windowCounts special? 0 ops ++ tailCount special? ops := by
  rcases List.eq_nil_or_concat ops with rfl | ⟨xs, op, rfl⟩
  · exact ⟨[], .nil, rfl⟩
  rw [List.length_concat] at hlength
  have hopen : openWindow special? 0 xs + 1 < UInt32.size := by
    have hsum := sum_windowCounts special? 0 xs
    omega
  rw [List.concat_eq_append]
  cases hop : special? op with
  | none =>
    obtain ⟨woven, added, hweave, hadded, hcounts⟩ :=
      exists_woven_concat hop (Nat.lt_of_succ_lt hlength)
    refine ⟨added ++ [Routine.count.invoke [countArg (openWindow special? 0 xs + 1)]], ?_, ?_⟩
    · rw [hweave]
      exact hadded.append (.add (.refl [op]))
    · rw [List.filterMap_append, hcounts, windowCounts_concat hop, tailCount_concat hop,
        List.filterMap_cons, count?_invoke (by simp) hopen]
      rfl
  | some special =>
    have hbound : 0 + xs.length < UInt32.size := by omega
    obtain ⟨woven, added, hweave, hadded, hcounts⟩ :=
      exists_woven special? (List.cons_ne_nil op []) hbound
    obtain ⟨last, hlast, hcount⟩ := exists_around hopen op special
    refine ⟨added ++ last, ?_, ?_⟩
    · rw [hweave, weave_special hop, weave, List.append_nil]
      exact hadded.append hlast
    · rw [List.filterMap_append, hcounts, hcount, tailCount_concat_special hop,
        windowCounts_append, windowCounts, hop, List.append_nil]
      rfl

/-! ## Blocks -/

variable {settings : Settings} {procedure : String} {b : Block} {plan : BlockPlan}

/-- How the windows of a block are counted, when its special calls have given positions. -/
structure CountedAs (b : Block) (specials : List (Nat × SpecialCall)) (counts tail : List Nat)
    (b' : Block) : Prop where
  /-- The numbers that inserted operations pass, in order. -/
  numbers : ∃ added, Interleaved b.operations added b'.operations ∧
    added.filterMap Operation.count? = counts ++ tail
  /-- There is one for every special call, and they add up to the operations up to it. -/
  length_eq : counts.length = specials.length
  sum_take : ∀ (i k : Nat) (special : SpecialCall), specials[i]? = some (k, special) →
    (counts.take (i + 1)).sum = k + 1
  /-- Each is passed by the call that stands around the special call. -/
  placed : ∀ (i k n : Nat) (special : SpecialCall), specials[i]? = some (k, special) →
    counts[i]? = some n → ∃ before op after earlier later, b.operations[k]? = some op ∧
      b'.operations = before ++ around n op special ++ after ∧
      Interleaved (b.operations.take k) earlier before ∧
      earlier.filterMap Operation.count? = counts.take i ∧
      Interleaved (b.operations.drop (k + 1)) later after ∧
      later.filterMap Operation.count? = counts.drop (i + 1) ++ tail
  /-- Where nothing is executed, nothing is inserted. -/
  dead : b.OnlyHeaders → b' = b
  /-- Otherwise the numbers add up to the operations that are executed, with one more call if those
  up to the last special call are not all. -/
  sum_all : ¬b.OnlyHeaders → (counts ++ tail).sum = executed b
  tail_iff : ¬b.OnlyHeaders → (tail ≠ [] ↔ counts.sum < executed b)
  /-- This call stands before the last operation that is executed. -/
  tail_placed : ∀ n ∈ tail, tail = [n] ∧ ∃ before earlier,
    b'.operations = before ++ Routine.count.invoke [countArg n] ::
      b.operations.drop (executed b - 1) ∧
    Interleaved (b.operations.take (executed b - 1)) earlier before ∧
    earlier.filterMap Operation.count? = counts

/-- The windows of the operations that are executed, divided at a special call. -/
theorem windows_at_special (hlive : ops = xs ++ op :: ys) (hop : special? op = some special) :
    windowCounts special? 0 ops =
        windowCounts special? 0 xs ++ (openWindow special? 0 xs + 1) :: windowCounts special? 0 ys ∧
      tailCount special? ops = tailCount special? ys := by
  subst hlive
  constructor
  · rw [windowCounts_append, windowCounts, hop]
  · rw [tailCount, tailCount, openWindow_append, openWindow, hop]

theorem sum_take_windowCounts (h : (specialsFrom special? 0 ops)[i]? = some (k, special)) :
    ((windowCounts special? 0 ops).take (i + 1)).sum = k + 1 := by
  obtain ⟨xs, op, ys, hops, hop, hk, hi⟩ := exists_split_of_specialsFrom h
  have hsum := sum_windowCounts special? 0 xs
  rw [(windows_at_special hops hop).1, ← hi 0, List.take_length_add_append, List.sum_append]
  simp only [List.take_succ_cons, List.take_zero, List.sum_singleton]
  omega

theorem placed_windowCounts (hlength : ops.length < UInt32.size) (idle : List Operation)
    (h : (specialsFrom special? 0 ops)[i]? = some (k, special))
    (hn : (windowCounts special? 0 ops)[i]? = some n) :
    ∃ before op after earlier later, (ops ++ idle)[k]? = some op ∧
      weave special? 0 ops ++ idle = before ++ around n op special ++ after ∧
      Interleaved ((ops ++ idle).take k) earlier before ∧
      earlier.filterMap Operation.count? = (windowCounts special? 0 ops).take i ∧
      Interleaved ((ops ++ idle).drop (k + 1)) later after ∧
      later.filterMap Operation.count? =
        (windowCounts special? 0 ops).drop (i + 1) ++ tailCount special? ops := by
  obtain ⟨xs, op, ys, rfl, hop, hk, hi⟩ := exists_split_of_specialsFrom h
  obtain ⟨hcounts, htail⟩ := windows_at_special rfl hop
  rw [Nat.zero_add] at hk
  rw [List.length_append, List.length_cons] at hlength
  have hbound : 0 + xs.length < UInt32.size := by omega
  obtain ⟨before, earlier, hweave, hearlier, hbefore⟩ :=
    exists_woven special? (List.cons_ne_nil op ys) hbound
  have hrest : ys.length < UInt32.size := by omega
  obtain ⟨later, hlater, hafter⟩ := exists_woven_all special? hrest
  rw [hcounts, ← hi 0] at hn ⊢
  obtain rfl : openWindow special? 0 xs + 1 = n := by simpa using hn
  rw [htail, hk]
  refine ⟨before, op, weave special? 0 ys ++ idle, earlier, later, ?_, ?_, ?_, ?_, ?_, ?_⟩
  · simp
  · rw [hweave, weave_special hop]
    simp only [List.append_assoc]
  · simpa using hearlier
  · simpa using hbefore
  · simpa using hlater.append (.refl idle)
  · rw [hafter, List.drop_length_add_append]
    rfl

theorem sum_tailCount (special? : Operation → Option SpecialCall) (ops : List Operation) :
    (tailCount special? ops).sum = openWindow special? 0 ops := by
  rw [tailCount]
  split
  · next hopen => rw [hopen, List.sum_nil]
  · exact List.sum_singleton

theorem tailCount_ne_nil_iff :
    tailCount special? ops ≠ [] ↔ (windowCounts special? 0 ops).sum < ops.length := by
  have hsum := sum_windowCounts special? 0 ops
  rw [tailCount]
  by_cases hopen : openWindow special? 0 ops = 0
  · rw [if_pos hopen]
    exact ⟨fun hne => absurd rfl hne, fun hlt => by omega⟩
  · rw [if_neg hopen]
    exact ⟨fun _ => by omega, fun _ => List.cons_ne_nil _ _⟩

theorem placed_tailCount (hlength : ops.length < UInt32.size) (idle : List Operation)
    (hn : n ∈ tailCount special? ops) :
    tailCount special? ops = [n] ∧ ∃ before earlier,
      weave special? 0 ops ++ idle = before ++ Routine.count.invoke [countArg n] ::
        (ops ++ idle).drop (ops.length - 1) ∧
      Interleaved ((ops ++ idle).take (ops.length - 1)) earlier before ∧
      earlier.filterMap Operation.count? = windowCounts special? 0 ops := by
  rcases List.eq_nil_or_concat ops with rfl | ⟨xs, op, rfl⟩
  · cases hn
  rw [List.length_concat] at hlength
  rw [List.concat_eq_append] at hn ⊢
  cases hop : special? op with
  | some special =>
    rw [tailCount_concat_special hop] at hn
    cases hn
  | none =>
    rw [tailCount_concat hop] at hn ⊢
    obtain rfl := List.mem_singleton.1 hn
    obtain ⟨before, earlier, hweave, hearlier, hcounts⟩ :=
      exists_woven_concat hop (Nat.lt_of_succ_lt hlength)
    refine ⟨rfl, before, earlier, ?_, ?_, ?_⟩
    · rw [hweave]
      simp
    · simpa using hearlier
    · rw [hcounts, windowCounts_concat hop]

theorem countedAs_result (h : ofBlock settings procedure b = .ok plan)
    (hlength : b.live.length < UInt32.size) :
    CountedAs b plan.specials
      (windowCounts (Operation.special? settings ⟨procedure, b.label⟩) 0 b.live)
      (tailCount (Operation.special? settings ⟨procedure, b.label⟩) b.live) plan.result where
  numbers := by
    obtain ⟨added, hadded, hcounts⟩ :=
      exists_woven_all (Operation.special? settings ⟨procedure, b.label⟩) hlength
    refine ⟨added ++ [], ?_, ?_⟩
    · rw [operations_result h]
      conv => arg 1; rw [← b.live_append_idle]
      exact hadded.append (.refl b.idle)
    · rw [List.append_nil, hcounts]
  length_eq := by
    rw [specials_eq h]
    exact length_windowCounts 0 0 b.live
  sum_take := by
    intro i k special hi
    rw [specials_eq h] at hi
    exact sum_take_windowCounts hi
  placed := by
    intro i k n special hi hn
    rw [specials_eq h] at hi
    have hplaced := placed_windowCounts hlength b.idle hi hn
    rwa [b.live_append_idle, ← operations_result h] at hplaced
  dead := by
    intro hdead
    rcases ofBlock_cases h with ⟨-, rfl⟩ | ⟨hlive, -⟩
    · simp [result, Block.insertAll]
    · exact absurd (Block.onlyHeaders_iff.1 hdead) hlive
  sum_all := by
    intro hdead
    have hsum := sum_windowCounts (Operation.special? settings ⟨procedure, b.label⟩) 0 b.live
    rw [List.sum_append, sum_tailCount, hsum, Nat.zero_add]
    exact Block.length_live fun hisDead => hdead (Block.onlyHeaders_iff.2 hisDead)
  tail_iff := by
    intro hdead
    rw [tailCount_ne_nil_iff,
      Block.length_live fun hisDead => hdead (Block.onlyHeaders_iff.2 hisDead)]
  tail_placed := by
    intro n hn
    have hdead : ¬isDead b = true := by
      intro hdead
      rw [Block.live_of_isDead hdead] at hn
      cases hn
    have hplaced := placed_tailCount hlength b.idle hn
    rwa [b.live_append_idle, ← operations_result h, Block.length_live hdead] at hplaced

/-- The special calls of a plan are the calls classified as such, in the order of their positions,
and the calls that the plan puts into the block count its windows: the numbers add up at each
special call and at the end, and each call stands in its place. -/
theorem windows_counted_exactly (settings : Settings) (procedure : String) (b : Block)
    (plan : BlockPlan) (h : ofBlock settings procedure b = .ok plan)
    (hlength : b.operations.length < UInt32.size) :
    plan.specials.Pairwise (fun x y => x.1 < y.1) ∧
    (∀ k special, (k, special) ∈ plan.specials ↔ ∃ c, b.operations[k]? = some (.call c) ∧
      SpecialCall.classify settings ⟨procedure, b.label⟩ c = .ok (some special)) ∧
    ∃ counts tail, CountedAs b plan.specials counts tail plan.result := by
  have hspecials := specials_eq h
  have hlive : b.live.length < UInt32.size := by
    rw [← b.live_append_idle, List.length_append] at hlength
    omega
  have hall : plan.specials =
      specialsFrom (Operation.special? settings ⟨procedure, b.label⟩) 0 b.operations := by
    rw [hspecials, ← specialsFrom_append fun op hop => special?_of_mem_idle hop,
      b.live_append_idle]
  refine ⟨hspecials ▸ pairwise_specialsFrom 0 b.live, fun k special => ?_, _, _,
    countedAs_result h hlive⟩
  rw [hall, mem_specialsFrom]
  constructor
  · rintro ⟨i, op, hop, hspecial, rfl⟩
    obtain ⟨c, rfl, hclassify⟩ := Operation.special?_eq_some_iff.1 hspecial
    exact ⟨c, by rwa [Nat.zero_add], hclassify⟩
  · rintro ⟨c, hop, hclassify⟩
    exact ⟨k, _, hop, Operation.special?_eq_some_iff.2 ⟨c, rfl, hclassify⟩, (Nat.zero_add k).symm⟩

/-- The sample has five special calls in a row, the first of which closes a window of three. One
operation is left, and none after it is executed. -/
theorem windows_counted_exactly_sample : ∃ plan counts tail,
    ofBlock {} "main" sampleBlock = .ok plan ∧ sampleBlock.operations.length < UInt32.size ∧
      CountedAs sampleBlock plan.specials counts tail plan.result ∧
      counts.length = 5 ∧ (counts.take 1).sum = 3 ∧ (counts.take 5).sum = 7 ∧
      (counts ++ tail).sum = 8 ∧ tail ≠ [] := by
  obtain ⟨plan, hplan, hspecials⟩ : ∃ plan, ofBlock {} "main" sampleBlock = .ok plan ∧
      plan.specials = [(2, .drop (.ofList [.setuid])), (3, .identityChange), (4, .identityChange),
        (5, .duplicate), (6, .replace)] := ⟨_, rfl, by decide⟩
  have hlength : sampleBlock.operations.length < UInt32.size := by decide
  obtain ⟨-, -, counts, tail, hcounted⟩ :=
    windows_counted_exactly {} "main" sampleBlock plan hplan hlength
  have hlive : ¬sampleBlock.OnlyHeaders := by
    rw [Block.onlyHeaders_iff]
    decide
  have hlast : (counts.take 5).sum = 7 := hcounted.sum_take 4 6 .replace (by rw [hspecials]; rfl)
  have hfive : counts.length = 5 := by rw [hcounted.length_eq, hspecials]; rfl
  refine ⟨plan, counts, tail, hplan, hlength, hcounted, hfive, ?_, hlast,
    hcounted.sum_all hlive, (hcounted.tail_iff hlive).2 ?_⟩
  · exact hcounted.sum_take 0 2 _ (by rw [hspecials]; rfl)
  · rw [List.take_of_length_le (Nat.le_of_eq hfive)] at hlast
    rw [hlast]
    decide

end BlockPlan

end LeastPrivilege
