import LeastPrivilege.Program.Edit
import LeastPrivilege.Proofs.Lists

/-!
# Slots of a block

Edits are asked for next to positions of the unchanged block and queued. Making them all at once
fills the slots: each operation has the edits of its slot in front of it, in the order of the queue,
and behind the last operation come the edits of all later slots, slot by slot. Positions are words,
and so are the numbers of slots.
-/

namespace LeastPrivilege

/-- How an insertion is asked for: next to a position of the unchanged block. -/
inductive Edit where
  | before (position : UInt64) (op : Operation)
  | after (position : UInt64) (op : Operation)
  deriving DecidableEq, Repr

namespace Edit

/-- The insertion that is queued for an edit. -/
def insertion : Edit → Insertion
  | before position op => .before position op
  | after position op => .after position op

/-- The slot that an edit names: the one in front of its position or the next. -/
def namedSlot : Edit → Nat
  | before position _ => position.toNat
  | after position _ => position.toNat + 1

/-- The slot that an edit is addressed to: the one that it names, or the first if the number of that
one is no word. -/
def slot (e : Edit) : Nat :=
  if e.namedSlot < UInt64.size then e.namedSlot else 0

/-- The operation that an edit puts in. -/
def operation : Edit → Operation
  | before _ op => op
  | after _ op => op

@[simp] theorem slot_insertion (e : Edit) : e.insertion.slot = e.slot := by
  cases e with
  | before position op => exact (if_pos position.toNat_lt_size).symm
  | after position op =>
    have hword := position.toNat_lt_size
    rw [slot, namedSlot]
    change (position + 1).toNat = _
    rw [UInt64.toNat_add]
    split
    · next hlt => exact Nat.mod_eq_of_lt hlt
    · next hge =>
      have hlast : position.toNat + 1 = UInt64.size := by omega
      change (position.toNat + 1) % UInt64.size = 0
      rw [hlast, Nat.mod_self]

@[simp] theorem operation_insertion (e : Edit) : e.insertion.operation = e.operation := by
  cases e <;> rfl

variable (slotOf : Edit → Nat)

/-- The operations that are addressed to a slot, in the order of the queue. -/
def addressedTo (k : Nat) (edits : List Edit) : List Operation :=
  (edits.filter (slotOf · = k)).map operation

/-- The edits addressed to slots from `n` on, ordered by slot, and those of one slot in the order of
the queue. -/
structure IsLate (n : Nat) (edits late : List Edit) : Prop where
  sorted : late.Pairwise fun e f => slotOf e ≤ slotOf f
  filter_eq : ∀ k, late.filter (slotOf · = k) =
    if n ≤ k then edits.filter (slotOf · = k) else []

/-- The second block is the first with its slots filled: every operation has the edits addressed to
its slot in front of it, in the order of the queue, and the edits addressed to later slots come at
the end, ordered by slot and within a slot by the queue. -/
def FillsSlots (edits : List Edit) (b b' : Block) : Prop :=
  ∃ late, IsLate slotOf b.operations.length edits late ∧ b'.label = b.label ∧
    b'.operations = b.operations.zipIdx.flatMap (fun x => addressedTo slotOf x.2 edits ++ [x.1]) ++
      late.map operation

theorem FillsSlots.unique {edits : List Edit} {b c c' : Block} (h : FillsSlots slotOf edits b c)
    (h' : FillsSlots slotOf edits b c') : c = c' := by
  obtain ⟨late, hlate, hlabel, hops⟩ := h
  obtain ⟨late', hlate', hlabel', hops'⟩ := h'
  obtain rfl : late = late' := by
    refine eq_of_filter_eq hlate.sorted hlate'.sorted fun k => ?_
    rw [hlate.filter_eq, hlate'.filter_eq]
  rw [Block.mk.injEq, hlabel, hlabel', hops, hops']
  exact ⟨rfl, rfl⟩

end Edit

/-! ## Merging -/

namespace Insertion

end Insertion

namespace Block

open Edit

example : (insertAll ⟨"entry", [.phi, .ret]⟩ ([.after 6 (.other "e"), .after 1 (.other "c"),
    .after 0 (.other "a"), .before 2 (.other "d"), .before 1 (.other "b")].map insertion)) =
      ⟨"entry", [.phi, .other "a", .other "b", .ret, .other "c", .other "d", .other "e"]⟩ := by
  cbv

end Block

end LeastPrivilege
