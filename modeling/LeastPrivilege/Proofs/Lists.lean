import Mathlib.Data.List.DropRight
import Mathlib.Data.List.Forall2
import Mathlib.Data.List.Induction
import Mathlib.Data.List.Nodup

/-!
# Lists

General facts about lists: what happens at one place of a list, when two lists are related item by
item, what a search finds, and when a list is determined by its order.
-/

namespace LeastPrivilege

/-! ## Places of a list -/

section Places

variable {α : Type} {test : α → Bool} {xs ys : List α}

theorem modify_concat (xs : List α) (x : α) (f : α → α) :
    (xs ++ [x]).modify xs.length f = xs ++ [f x] := by
  induction xs with
  | nil => rfl
  | cons y xs ih => simp [ih]

theorem insertIdx_length_append (xs ys : List α) (x : α) :
    (xs ++ ys).insertIdx xs.length x = xs ++ x :: ys := by
  induction xs with
  | nil => simp
  | cons y xs ih => simp [ih]

/-- Items that pass a test, followed by one that fails it, are all that the test takes. -/
theorem takeWhile_dropWhile_append (hxs : ∀ x ∈ xs, test x = true)
    (hys : ∀ y, ys.head? = some y → test y = false) :
    (xs ++ ys).takeWhile test = xs ∧ (xs ++ ys).dropWhile test = ys := by
  rw [List.takeWhile_append_of_pos hxs, List.dropWhile_append_of_pos hxs]
  cases ys with
  | nil => simp
  | cons y ys => simp [hys y rfl]

theorem test_of_head?_dropWhile {y : α} (h : (xs.dropWhile test).head? = some y) :
    test y = false := by
  have hhead := List.head?_dropWhile_not test xs
  rwa [h] at hhead

theorem rdropWhile_append_of_pos (h : ∀ y ∈ ys, test y = true) :
    (xs ++ ys).rdropWhile test = xs.rdropWhile test := by
  rw [List.rdropWhile, List.reverse_append,
    List.dropWhile_append_of_pos fun y hy => h y (List.mem_reverse.1 hy)]
  rfl

/-- No item of a list has a property, or one is the last that has it. -/
theorem exists_last (P : α → Prop) (xs : List α) :
    (∀ x ∈ xs, ¬P x) ∨
      ∃ before x after, xs = before ++ x :: after ∧ P x ∧ ∀ y ∈ after, ¬P y := by
  induction xs with
  | nil => exact Or.inl (by simp)
  | cons x xs ih =>
    rcases ih with hnone | ⟨before, y, after, rfl, hy, hafter⟩
    · by_cases hx : P x
      · exact Or.inr ⟨[], x, xs, rfl, hx, hnone⟩
      · exact Or.inl (List.forall_mem_cons.2 ⟨hx, hnone⟩)
    · exact Or.inr ⟨x :: before, y, after, rfl, hy, hafter⟩

end Places

/-! ## Lists related item by item -/

section Related

variable {α β γ : Type} {R : α → β → Prop} {xs : List α} {ys : List β}

theorem flatMap_eq_of_forall₂ {f : α → List γ} {g : β → List γ}
    (h : List.Forall₂ R xs ys) (hfg : ∀ x y, R x y → g y = f x) :
    ys.flatMap g = xs.flatMap f := by
  induction h with
  | nil => rfl
  | cons hxy _ ih => simp only [List.flatMap_cons, hfg _ _ hxy, ih]

theorem map_eq_of_forall₂ {f : α → γ} {g : β → γ}
    (h : List.Forall₂ R xs ys) (hfg : ∀ x y, R x y → g y = f x) :
    ys.map g = xs.map f := by
  induction h with
  | nil => rfl
  | cons hxy _ ih => rw [List.map_cons, List.map_cons, hfg _ _ hxy, ih]

theorem exists_right_of_forall₂ {xs : List α} {ys : List β}
    (h : List.Forall₂ R xs ys) {x : α} (hx : x ∈ xs) : ∃ y ∈ ys, R x y := by
  induction h with
  | nil => simp at hx
  | cons hxy _ ih =>
    rcases List.mem_cons.1 hx with rfl | hx
    · exact ⟨_, List.mem_cons_self, hxy⟩
    · obtain ⟨y, hy, hR⟩ := ih hx
      exact ⟨y, List.mem_cons_of_mem _ hy, hR⟩

theorem exists_left_of_forall₂ {xs : List α} {ys : List β}
    (h : List.Forall₂ R xs ys) {y : β} (hy : y ∈ ys) : ∃ x ∈ xs, R x y :=
  exists_right_of_forall₂ (R := flip R) h.flip hy

theorem perm_flatMap_of_forall₂ {f : α → List γ}
    {g new : β → List γ} (h : List.Forall₂ R xs ys)
    (hfg : ∀ x y, R x y → (g y).Perm (new y ++ f x)) :
    (ys.flatMap g).Perm (ys.flatMap new ++ xs.flatMap f) := by
  induction h with
  | nil => exact .refl []
  | @cons x y xs ys hxy _ ih =>
    simp only [List.flatMap_cons]
    refine ((hfg x y hxy).append ih).trans ?_
    rw [List.append_assoc, List.append_assoc]
    exact (List.perm_append_comm_assoc ..).append_left (new y)

end Related

/-! ## Searching -/

section Searching

variable {α β γ : Type}

theorem findSome?_flatMap {f : α → List β} {g : β → Option γ} (xs : List α) :
    (xs.flatMap f).findSome? g = xs.findSome? fun x => (f x).findSome? g := by
  induction xs with
  | nil => rfl
  | cons x xs ih =>
    rw [List.flatMap_cons, List.findSome?_append, ih, List.findSome?_cons]
    cases (f x).findSome? g <;> rfl

theorem findSome?_filter {test : α → Bool} {g : α → Option β} (xs : List α) :
    (xs.filter test).findSome? g = xs.findSome? fun x => if test x then g x else none := by
  induction xs with
  | nil => rfl
  | cons x xs ih =>
    cases htest : test x with
    | true => simp only [List.filter_cons_of_pos htest, List.findSome?_cons, ih, htest, if_true]
    | false => simp [htest, ih]

theorem findSome?_filterMap {f : α → Option β} {g : β → Option γ} (xs : List α) :
    (xs.filterMap f).findSome? g = xs.findSome? fun x => (f x).bind g := by
  induction xs with
  | nil => rfl
  | cons x xs ih =>
    cases hx : f x with
    | none => simp [hx, ih]
    | some y => simp only [List.filterMap_cons, hx, List.findSome?_cons, ih, Option.bind_some]

theorem nodup_map_concat {f : α → β} {xs : List α} {y : α}
    (hnodup : (xs.map f).Nodup) (hy : f y ∉ xs.map f) : ((xs ++ [y]).map f).Nodup := by
  rw [List.map_append, List.map_singleton, ← List.concat_eq_append]
  exact List.Nodup.concat hy hnodup

theorem nodup_or_exists_repeat (f : α → β) (xs : List α) :
    (xs.map f).Nodup ∨ ∃ before x after, xs = before ++ x :: after ∧ (before.map f).Nodup ∧
      f x ∈ before.map f := by
  induction xs using List.reverseRecOn with
  | nil => exact Or.inl List.nodup_nil
  | append_singleton xs y ih =>
    rcases ih with hnodup | ⟨before, x, after, rfl, hnodup, hx⟩
    · by_cases hy : f y ∈ xs.map f
      · exact Or.inr ⟨xs, y, [], rfl, hnodup, hy⟩
      · exact Or.inl (nodup_map_concat hnodup hy)
    · exact Or.inr ⟨before, x, after ++ [y], by simp, hnodup, hx⟩

end Searching

/-! ## Sorting by a key -/

section Keys

variable {α : Type} {key : α → Nat} {xs ys : List α}

theorem mem_of_filter_eq (h : ∀ k, xs.filter (key · = k) = ys.filter (key · = k)) {z : α}
    (hz : z ∈ xs) : z ∈ ys := by
  have hkept : z ∈ ys.filter (key · = key z) := by
    rw [← h]
    simpa using hz
  exact List.mem_of_mem_filter hkept

theorem key_head_le {x z : α} (h : (x :: xs).Pairwise fun x y => key x ≤ key y)
    (hz : z ∈ x :: xs) : key x ≤ key z := by
  rcases List.mem_cons.1 hz with rfl | hz
  · exact Nat.le_refl _
  · exact List.rel_of_pairwise_cons h hz

/-- A sorted list is determined by its items of each key. -/
theorem eq_of_filter_eq (hxs : xs.Pairwise fun x y => key x ≤ key y)
    (hys : ys.Pairwise fun x y => key x ≤ key y)
    (h : ∀ k, xs.filter (key · = k) = ys.filter (key · = k)) : xs = ys := by
  induction xs generalizing ys with
  | nil =>
    refine (List.eq_nil_iff_forall_not_mem.2 fun z hz => ?_).symm
    cases mem_of_filter_eq (fun k => (h k).symm) hz
  | cons x xs ih =>
    cases ys with
    | nil => cases mem_of_filter_eq h List.mem_cons_self
    | cons y ys =>
      -- Each head stands in the other list too, so both have the least key.
      have hkey : key y = key x := Nat.le_antisymm
        (key_head_le hys (mem_of_filter_eq h List.mem_cons_self))
        (key_head_le hxs (mem_of_filter_eq (fun k => (h k).symm) List.mem_cons_self))
      have hhead := h (key x)
      simp only [List.filter_cons, hkey, decide_true, if_true, List.cons.injEq] at hhead
      obtain ⟨rfl, -⟩ := hhead
      refine congrArg (x :: ·) (ih hxs.of_cons hys.of_cons fun k => ?_)
      have hk := h k
      by_cases hx : key x = k <;> simpa [hx] using hk

end Keys

/-- Lists in strict order that have the same items are equal. -/
theorem eq_of_ordered {α : Type} [Ord α] [Std.OrientedOrd α] {xs ys : List α}
    (hxs : xs.Pairwise (compare · · = .lt)) (hys : ys.Pairwise (compare · · = .lt))
    (h : ∀ x, x ∈ xs ↔ x ∈ ys) : xs = ys := by
  have hnodup : ∀ {zs : List α}, zs.Pairwise (compare · · = .lt) → zs.Nodup := by
    intro zs hzs
    refine hzs.imp ?_
    rintro x _ hlt rfl
    rw [Std.ReflOrd.compare_self] at hlt
    cases hlt
  refine ((List.perm_ext_iff_of_nodup (hnodup hxs) (hnodup hys)).2 h).eq_of_pairwise ?_ hxs hys
  intro x y _ _ hlt hgt
  rw [Std.OrientedCmp.gt_of_lt hlt] at hgt
  cases hgt

end LeastPrivilege
