import LeastPrivilege.Error
import LeastPrivilege.Text.Blank
import LeastPrivilege.Text.Numeral

/-!
# Spellings of a capability

A capability is written by its index, by its name, or by the kernel's constant name. Blanks around
the spelling do not count.
-/

namespace LeastPrivilege.Capability

/-- The capability with a given index, or the error that names the index. -/
def ofIndex (n : Nat) : Except Error Capability :=
  match ofIndex? n with
  | some c => .ok c
  | none => .error (.capabilityOutOfRange n)

/-- The first capability with a given name or kernel name. -/
def ofName? (text : String) : Option Capability :=
  all.find? fun c => c.name == text || c.kernelName == text

/-- Reads a spelling. A numeral that fits a word of 64 bits is an index; any other text has to be a
name. -/
def parse (text : String) : Except Error Capability :=
  let word := Text.trim text
  match Text.wordOfNumeral? word.toList with
  | some n => ofIndex n
  | none =>
    match ofName? word with
    | some c => .ok c
    | none => .error (.unknownCapability word)

@[simp] theorem ofIndex_index (c : Capability) : ofIndex c.index = .ok c := by
  simp [ofIndex]

theorem ofIndex_eq_ok_iff {n : Nat} {c : Capability} : ofIndex n = .ok c ↔ c.index = n := by
  rw [ofIndex, ← ofIndex?_eq_some_iff]
  cases ofIndex? n <;> simp

theorem ofIndex_eq_error_iff {n : Nat} {e : Error} :
    ofIndex n = .error e ↔ count ≤ n ∧ e = .capabilityOutOfRange n := by
  rw [ofIndex, ← ofIndex?_eq_none_iff]
  cases ofIndex? n <;> simp [eq_comm]

end LeastPrivilege.Capability
