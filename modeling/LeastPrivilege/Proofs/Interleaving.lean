import Mathlib.Data.List.Forall2

/-!
# Lists with items put in

A list that has been made from another by putting items in keeps the order of what was there.
`Interleaved` lists the items that were put in, in their order; `Interspersed` only says what they
are like.
-/

namespace LeastPrivilege

/-- The third list is the first with the items of the second put in, in their order. -/
inductive Interleaved {α : Type} : List α → List α → List α → Prop
  | nil : Interleaved [] [] []
  | keep {x : α} {xs added ys : List α} (h : Interleaved xs added ys) :
      Interleaved (x :: xs) added (x :: ys)
  | add {y : α} {xs added ys : List α} (h : Interleaved xs added ys) :
      Interleaved xs (y :: added) (y :: ys)

/-- The second list is the first with items put in, all of which have a property. -/
def Interspersed {α : Type} (P : α → Prop) (xs ys : List α) : Prop :=
  ∃ added, Interleaved xs added ys ∧ ∀ y ∈ added, P y

namespace Interleaved

variable {α β : Type} {xs added ys zs us vs new : List α}

theorem refl (xs : List α) : Interleaved xs [] xs := by
  induction xs with
  | nil => exact .nil
  | cons x xs ih => exact .keep ih

theorem all (ys : List α) : Interleaved [] ys ys := by
  induction ys with
  | nil => exact .nil
  | cons y ys ih => exact .add ih

theorem append (h : Interleaved xs added ys) (h' : Interleaved us new vs) :
    Interleaved (xs ++ us) (added ++ new) (ys ++ vs) := by
  induction h with
  | nil => exact h'
  | keep _ ih => exact .keep ih
  | add _ ih => exact .add ih

theorem insert (ys new zs : List α) : Interleaved (ys ++ zs) new (ys ++ new ++ zs) := by
  have h := ((refl ys).append (all new)).append (refl zs)
  rwa [List.append_nil, List.nil_append, List.append_nil] at h

/-- More items can be put in afterwards, anywhere. -/
theorem trans (h : Interleaved xs added ys) (h' : Interleaved ys new zs) :
    ∃ all, Interleaved xs all zs ∧ ∀ z, z ∈ all ↔ z ∈ new ∨ z ∈ added := by
  induction h' generalizing xs added with
  | nil => exact ⟨added, h, by simp⟩
  | add _ ih =>
    obtain ⟨all, hall, hmem⟩ := ih h
    refine ⟨_, .add hall, fun z => ?_⟩
    rw [List.mem_cons, List.mem_cons, hmem, or_assoc]
  | keep _ ih =>
    cases h with
    | keep h =>
      obtain ⟨all, hall, hmem⟩ := ih h
      exact ⟨all, .keep hall, hmem⟩
    | add h =>
      obtain ⟨all, hall, hmem⟩ := ih h
      refine ⟨_, .add hall, fun z => ?_⟩
      rw [List.mem_cons, List.mem_cons, hmem, or_left_comm]

/-- Items that have been put in come in addition to those that were there. -/
theorem perm (h : Interleaved xs added ys) : ys.Perm (added ++ xs) := by
  induction h with
  | nil => exact .refl []
  | keep _ ih => exact (ih.cons _).trans List.perm_middle.symm
  | add _ ih => exact ih.cons _

theorem sublist (h : Interleaved xs added ys) : xs.Sublist ys := by
  induction h with
  | nil => exact .slnil
  | keep _ ih => exact .cons_cons _ ih
  | add _ ih => exact .cons _ ih

theorem filterMap (f : α → Option β) (h : Interleaved xs added ys) :
    Interleaved (xs.filterMap f) (added.filterMap f) (ys.filterMap f) := by
  induction h with
  | nil => exact .nil
  | @keep x _ _ _ _ ih =>
    cases hx : f x with
    | none => simpa [hx] using ih
    | some z => simpa [hx] using ih.keep
  | @add y _ _ _ _ ih =>
    cases hy : f y with
    | none => simpa [hy] using ih
    | some z => simpa [hy] using ih.add

end Interleaved

namespace Interspersed

variable {α β : Type} {P Q : α → Prop} {x y : α} {xs ys zs us vs : List α}

theorem refl (P : α → Prop) (xs : List α) : Interspersed P xs xs :=
  ⟨[], .refl xs, by simp⟩

theorem of_forall (h : ∀ y ∈ ys, P y) : Interspersed P [] ys :=
  ⟨ys, .all ys, h⟩

theorem append (h : Interspersed P xs ys) (h' : Interspersed P us vs) :
    Interspersed P (xs ++ us) (ys ++ vs) := by
  obtain ⟨added, hadded, hP⟩ := h
  obtain ⟨new, hnew, hP'⟩ := h'
  exact ⟨added ++ new, hadded.append hnew, List.forall_mem_append.2 ⟨hP, hP'⟩⟩

theorem keep (h : Interspersed P xs ys) : Interspersed P (x :: xs) (x :: ys) :=
  (refl P [x]).append h

theorem add (hy : P y) (h : Interspersed P xs ys) : Interspersed P xs (y :: ys) :=
  (of_forall (List.forall_mem_singleton.2 hy)).append h

theorem mono (hPQ : ∀ y, P y → Q y) (h : Interspersed P xs ys) : Interspersed Q xs ys := by
  obtain ⟨added, hadded, hP⟩ := h
  exact ⟨added, hadded, fun y hy => hPQ y (hP y hy)⟩

theorem trans (h : Interspersed P xs ys) (h' : Interspersed P ys zs) : Interspersed P xs zs := by
  obtain ⟨added, hadded, hP⟩ := h
  obtain ⟨new, hnew, hP'⟩ := h'
  obtain ⟨all, hall, hmem⟩ := hadded.trans hnew
  exact ⟨all, hall, fun z hz => ((hmem z).1 hz).elim (hP' z) (hP z)⟩

theorem sublist (h : Interspersed P xs ys) : xs.Sublist ys := by
  obtain ⟨_, hadded, -⟩ := h
  exact hadded.sublist

theorem mem_or (h : Interspersed P xs ys) (hy : y ∈ ys) : y ∈ xs ∨ P y := by
  obtain ⟨added, hadded, hP⟩ := h
  rcases List.mem_append.1 (hadded.perm.mem_iff.1 hy) with hnew | hold
  · exact Or.inr (hP y hnew)
  · exact Or.inl hold

theorem head?_or (h : Interspersed P xs ys) (hy : ys.head? = some y) :
    xs.head? = some y ∨ P y := by
  obtain ⟨added, hadded, hP⟩ := h
  cases hadded with
  | nil => simp at hy
  | keep _ => exact Or.inl hy
  | add _ =>
    obtain rfl := Option.some.inj hy
    exact Or.inr (hP _ List.mem_cons_self)

theorem insertIdx (hy : P y) (xs : List α) (i : Nat) : Interspersed P xs (xs.insertIdx i y) := by
  induction xs generalizing i with
  | nil =>
    cases i with
    | zero => exact add hy (refl P [])
    | succ i => exact refl P []
  | cons x xs ih =>
    cases i with
    | zero => exact add hy (refl P _)
    | succ i => exact keep (ih i)

theorem filterMap {f : α → Option β} {R : β → Prop} (hf : ∀ y z, P y → f y = some z → R z)
    (h : Interspersed P xs ys) : Interspersed R (xs.filterMap f) (ys.filterMap f) := by
  obtain ⟨added, hadded, hP⟩ := h
  refine ⟨added.filterMap f, hadded.filterMap f, fun z hz => ?_⟩
  obtain ⟨y, hy, hyz⟩ := List.mem_filterMap.1 hz
  exact hf y z (hP y hy) hyz

theorem map {f : α → β} {R : β → Prop} (hf : ∀ y, P y → R (f y)) (h : Interspersed P xs ys) :
    Interspersed R (xs.map f) (ys.map f) := by
  simp only [← List.filterMap_eq_map]
  exact h.filterMap fun y z hy hz => Option.some.inj hz ▸ hf y hy

theorem flatMap {γ δ : Type} {R : γ → δ → Prop} {f : γ → List α} {g : δ → List α} {cs : List γ}
    {ds : List δ} (h : List.Forall₂ R cs ds) (hfg : ∀ c d, R c d → Interspersed P (f c) (g d)) :
    Interspersed P (cs.flatMap f) (ds.flatMap g) := by
  induction h with
  | nil => exact refl P []
  | cons hcd _ ih => exact (hfg _ _ hcd).append ih

/-- A test that all new items fail picks the same items out of both lists. -/
theorem filter_eq {test : α → Bool} (htest : ∀ y, P y → test y = false)
    (h : Interspersed P xs ys) : ys.filter test = xs.filter test := by
  obtain ⟨added, hadded, hP⟩ := h
  induction hadded with
  | nil => rfl
  | keep _ ih => simp only [List.filter_cons, ih hP]
  | @add y _ _ _ _ ih =>
    obtain ⟨hy, hnew⟩ := List.forall_mem_cons.1 hP
    rw [List.filter_cons_of_neg (by simp [htest y hy]), ih hnew]

theorem flatMap_eq {f : α → List β} (hf : ∀ y, P y → f y = []) (h : Interspersed P xs ys) :
    ys.flatMap f = xs.flatMap f := by
  obtain ⟨added, hadded, hP⟩ := h
  induction hadded with
  | nil => rfl
  | keep _ ih => simp only [List.flatMap_cons, ih hP]
  | @add y _ _ _ _ ih =>
    obtain ⟨hy, hnew⟩ := List.forall_mem_cons.1 hP
    rw [List.flatMap_cons, hf y hy, List.nil_append, ih hnew]

end Interspersed

end LeastPrivilege
