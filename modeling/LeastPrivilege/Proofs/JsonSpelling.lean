import LeastPrivilege.Json.Printer
import LeastPrivilege.Json.Token
import Mathlib.Data.Option.Basic

/-!
# How the tokens of a JSON text are spelled

The spellings of tokens as relations: a character of a string can be written in more than one way,
and white space can stand in front of any token. The scanner finds the tokens of every text that is
written by these rules, and the strings and numbers that are printed are written by them.
-/

namespace LeastPrivilege

namespace Text

theorem exists_numeral_eq_cons (n : Nat) : ∃ c cs, numeral n = c :: cs ∧ c.isDigit = true := by
  obtain ⟨c, cs, hcons⟩ : ∃ c cs, numeral n = c :: cs :=
    List.exists_cons_of_ne_nil Nat.toDigits_ne_nil
  refine ⟨c, cs, hcons, isDigit_of_mem_numeral (n := n) ?_⟩
  rw [hcons]
  exact List.mem_cons_self

/-- No numeral has a leading zero, apart from that of zero. -/
theorem head?_numeral_ne_zero {n : Nat} (hn : 0 < n) : (numeral n).head? ≠ some '0' := by
  induction n using Nat.strongRecOn with
  | ind n ih =>
    by_cases hsmall : n < 10
    · rw [numeral, Nat.toDigits_of_lt_base hsmall]
      simpa [Nat.digitChar_eq_zero] using Nat.pos_iff_ne_zero.1 hn
    · have hdigits : numeral n = numeral (n / 10) ++ [(n % 10).digitChar] :=
        Nat.toDigits_of_base_le (by decide) (by omega)
      have hhead : (numeral n).head? = (numeral (n / 10)).head? := by
        obtain ⟨c, cs, hcons, -⟩ := exists_numeral_eq_cons (n / 10)
        rw [hdigits, hcons, List.cons_append, List.head?_cons, List.head?_cons]
      rw [hhead]
      exact ih (n / 10) (by omega) (by omega)

end Text

namespace Json

/-! ## Strings -/

/-- How a part of a string is written. -/
inductive StringPart.Spelled : StringPart → List Char → Prop
  | plain {c : Char} (hseen : 0x20 ≤ c.toNat) (hquote : c ≠ '"') (hslash : c ≠ '\\') :
      Spelled (.char c) [c]
  | escaped {e c : Char} (h : Token.escaped? e = some c) : Spelled (.char c) ['\\', e]
  | code {a b c d : Char} {n : Nat} (h : Token.hexCode? a b c d = some n) :
      Spelled (.code n) ['\\', 'u', a, b, c, d]

/-- How the parts of a string are written one after the other. -/
inductive StringPart.AllSpelled : List StringPart → List Char → Prop
  | nil : AllSpelled [] []
  | cons {part : StringPart} {parts : List StringPart} {cs ds : List Char} (h : part.Spelled cs)
      (hs : AllSpelled parts ds) : AllSpelled (part :: parts) (cs ++ ds)

namespace Token

variable {part : StringPart} {parts known : List StringPart} {cs rest : List Char}

theorem scanString?_of_spelled (h : part.Spelled cs) (known : List StringPart) (rest : List Char) :
    scanString? known (cs ++ rest) = scanString? (part :: known) rest := by
  cases h with
  | @plain c hseen hquote hslash =>
    have hbound : ¬(c.toNat < 0x20 ∨ c = '\\') := by
      rintro (hlt | heq)
      · omega
      · exact hslash heq
    rw [List.singleton_append, scanString?, if_neg hbound] <;> simp_all
  | @escaped e c h =>
    have hcode : e ≠ 'u' := by
      rintro rfl
      simp [escaped?] at h
    rw [List.cons_append, List.singleton_append, scanString?]
    · simp [h]
    · simp_all
  | code h => simp [scanString?, h]

theorem scanString?_of_allSpelled (h : StringPart.AllSpelled parts cs) (known : List StringPart)
    (rest : List Char) :
    scanString? known (cs ++ '"' :: rest) = some (known.reverse ++ parts, rest) := by
  induction h generalizing known with
  | nil => simp [scanString?]
  | @cons part parts cs ds hpart _ ih =>
    rw [List.append_assoc, scanString?_of_spelled hpart, ih]
    simp

end Token

namespace StringPart

/-- A part that spells one character. -/
def Spells (part : StringPart) (c : Char) : Prop :=
  part = .char c ∨ part = .code c.toNat

theorem spellAfter_of_spells {part : StringPart} {c : Char} (h : part.Spells c)
    (known : List Char) (parts : List StringPart) :
    spellAfter known (part :: parts) = spellAfter (c :: known) parts := by
  rcases h with rfl | rfl
  · rfl
  · -- No character has the code of half a surrogate pair.
    have hvalid : c.toNat < 0xD800 ∨ 0xDFFF < c.toNat := by
      rcases c.valid with h | h
      · exact Or.inl h
      · exact Or.inr h.1
    have hhigh : isHigh c.toNat = false := by
      simp only [isHigh, Bool.and_eq_false_iff, decide_eq_false_iff_not]
      omega
    have hlow : isLow c.toNat = false := by
      simp only [isLow, Bool.and_eq_false_iff, decide_eq_false_iff_not]
      omega
    rw [spellAfter.eq_def]
    simp [hhigh, hlow]

end StringPart

/-- The code of a control character is read back from its two hexadecimal digits. -/
theorem hexCode?_control {n : Nat} (hn : n < 0x20) :
    Token.hexCode? '0' '0' (hexDigit (n / 16)) (hexDigit (n % 16)) = some n := by
  have hall : ∀ n : Fin 0x20,
      Token.hexCode? '0' '0' (hexDigit (n.val / 16)) (hexDigit (n.val % 16)) = some n.val := by
    decide
  exact hall ⟨n, hn⟩

/-- The spelling that is printed for a character is one of a part that spells it. -/
theorem exists_spelled_escape (c : Char) :
    ∃ part : StringPart, part.Spells c ∧ part.Spelled (escape c) := by
  unfold escape
  split
  · exact ⟨.char '"', Or.inl rfl, .escaped rfl⟩
  · exact ⟨.char '\\', Or.inl rfl, .escaped rfl⟩
  · exact ⟨.char '\x08', Or.inl rfl, .escaped rfl⟩
  · exact ⟨.char '\x0c', Or.inl rfl, .escaped rfl⟩
  · exact ⟨.char '\n', Or.inl rfl, .escaped rfl⟩
  · exact ⟨.char '\r', Or.inl rfl, .escaped rfl⟩
  · exact ⟨.char '\t', Or.inl rfl, .escaped rfl⟩
  · next hquote hslash _ _ _ _ _ =>
    by_cases hcontrol : c.toNat < 0x20
    · rw [if_pos hcontrol]
      exact ⟨.code c.toNat, Or.inr rfl, .code (hexCode?_control hcontrol)⟩
    · rw [if_neg hcontrol]
      exact ⟨.char c, Or.inl rfl, .plain (by omega) hquote hslash⟩

/-- What is printed between the quotes of a string is written by the rules, and it spells the
string. -/
theorem exists_allSpelled_escape (cs : List Char) :
    ∃ parts, StringPart.AllSpelled parts (cs.flatMap escape) ∧
      ∀ known, StringPart.spellAfter known parts = some (known.reverse ++ cs) := by
  induction cs with
  | nil => exact ⟨[], .nil, fun known => by simp [StringPart.spellAfter]⟩
  | cons c cs ih =>
    obtain ⟨part, hspells, hpart⟩ := exists_spelled_escape c
    obtain ⟨parts, hparts, hspell⟩ := ih
    refine ⟨part :: parts, .cons hpart hparts, fun known => ?_⟩
    rw [StringPart.spellAfter_of_spells hspells, hspell]
    simp

/-! ## Tokens -/

/-- Whether a text cannot go on with a number that ends in front of it. -/
def endsNumber : List Char → Bool
  | [] => true
  | c :: _ => !c.isDigit && c != '.' && c != 'e' && c != 'E'

namespace Token

/-- How a token is written. Of the numbers, only those that are natural are spelled out. -/
inductive Spelled : Token → List Char → Prop
  | beginArray : Spelled .beginArray ['[']
  | endArray : Spelled .endArray [']']
  | beginObject : Spelled .beginObject ['\x7b']
  | endObject : Spelled .endObject ['\x7d']
  | colon : Spelled .colon [':']
  | comma : Spelled .comma [',']
  | null : Spelled .null ['n', 'u', 'l', 'l']
  | isTrue : Spelled (.bool true) ['t', 'r', 'u', 'e']
  | isFalse : Spelled (.bool false) ['f', 'a', 'l', 's', 'e']
  | natural (n : Nat) : Spelled (.number (.ofNat n)) (Text.numeral n)
  | string {parts : List StringPart} {cs : List Char} (h : StringPart.AllSpelled parts cs) :
      Spelled (.string (StringPart.spell? parts)) ('"' :: (cs ++ ['"']))

/-- A text that consists of tokens, with white space in any place between them. -/
inductive Written : List Token → List Char → Prop
  | nil : Written [] []
  | space {ts : List Token} {c : Char} {cs : List Char} (hc : isSpace c = true)
      (h : Written ts cs) : Written ts (c :: cs)
  | token {t : Token} {ts : List Token} {spelling rest : List Char} (ht : t.Spelled spelling)
      (hend : ∀ n, t = .number n → endsNumber rest = true) (h : Written ts rest) :
      Written (t :: ts) (spelling ++ rest)

variable {t : Token} {ts : List Token} {cs rest : List Char} {n : Nat}

theorem scanFraction?_of_endsNumber (h : endsNumber rest = true) :
    scanFraction? rest = some ([], rest) := by
  cases rest with
  | nil => rfl
  | cons c cs =>
    have hpoint : c ≠ '.' := by
      rintro rfl
      simp [endsNumber] at h
    rw [scanFraction?]
    simp_all

theorem scanExponent?_of_endsNumber (h : endsNumber rest = true) :
    scanExponent? rest = some (none, rest) := by
  cases rest with
  | nil => rfl
  | cons c cs =>
    have hmark : ¬(c = 'e' ∨ c = 'E') := by
      rintro (rfl | rfl) <;> simp [endsNumber] at h
    rw [scanExponent?.eq_def]
    exact if_neg hmark

theorem takeWhile_isDigit_numeral (h : endsNumber rest = true) :
    (Text.numeral n ++ rest).takeWhile Char.isDigit = Text.numeral n ∧
      (Text.numeral n ++ rest).dropWhile Char.isDigit = rest := by
  have hdigits : ∀ c ∈ Text.numeral n, c.isDigit = true := fun c => Text.isDigit_of_mem_numeral
  rw [List.takeWhile_append_of_pos hdigits, List.dropWhile_append_of_pos hdigits]
  cases rest with
  | nil => simp
  | cons c cs =>
    have hc : c.isDigit = false := by simp_all [endsNumber]
    simp [hc]

theorem scanNumber?_numeral (h : endsNumber rest = true) :
    scanNumber? (Text.numeral n ++ rest) = some (.ofNat n, rest) := by
  obtain ⟨htake, hdrop⟩ := takeWhile_isDigit_numeral (n := n) h
  obtain ⟨c, cs, hcons, hdigit⟩ := Text.exists_numeral_eq_cons n
  have hsign : c ≠ '-' := by
    rintro rfl
    exact absurd hdigit (by decide)
  have hzero : (Text.numeral n).head? = some '0' → Text.numeral n = ['0'] := by
    intro hhead
    rcases Nat.eq_zero_or_pos n with rfl | hn
    · rfl
    · exact absurd hhead (Text.head?_numeral_ne_zero hn)
  have hne : Text.numeral n ≠ [] := Nat.toDigits_ne_nil
  have hvalue : Nat.ofDigitChars 10 (Text.numeral n) 0 = n := Nat.ofDigitChars_ten_toDigits
  unfold scanNumber?
  split
  next negative whole hstart =>
  split at hstart
  · next heq =>
    rw [hcons, List.cons_append] at heq
    exact absurd (List.cons.inj heq).1 hsign
  · obtain ⟨rfl, rfl⟩ := Prod.mk.inj hstart
    have hguard : (guard (Text.numeral n ≠ [] ∧
        ((Text.numeral n).head? = some '0' → Text.numeral n = ['0'])) : Option Unit) = some () :=
      if_pos ⟨hne, hzero⟩
    dsimp only
    rw [htake, hdrop, hguard, scanFraction?_of_endsNumber h]
    simp [scanExponent?_of_endsNumber h, hvalue, Number.ofNat]

/-- A text that starts with a digit starts with a number. -/
theorem scan?_of_scanNumber? {c : Char} {n : Number} (hc : c.isDigit = true)
    (hnumber : scanNumber? (c :: cs) = some (n, rest)) :
    scan? (c :: cs) = some (number n, rest) := by
  rw [scan?.eq_def]
  -- None of the characters with which other tokens start is a digit.
  split <;> simp_all

theorem scan?_of_spelled (h : t.Spelled cs) (hend : ∀ n, t = .number n → endsNumber rest = true) :
    scan? (cs ++ rest) = some (t, rest) := by
  cases h with
  | natural n =>
    obtain ⟨c, cs, hcons, hdigit⟩ := Text.exists_numeral_eq_cons n
    have hnumber := scanNumber?_numeral (n := n) (hend _ rfl)
    rw [hcons, List.cons_append] at hnumber ⊢
    exact scan?_of_scanNumber? hdigit hnumber
  | string h =>
    have hstring := scanString?_of_allSpelled h [] rest
    rw [List.cons_append, List.append_assoc, List.singleton_append, scan?, hstring]
    rfl
  | _ => rfl

/-- The first character of a token is no white space. -/
theorem Spelled.exists_cons (h : t.Spelled cs) : ∃ c ds, cs = c :: ds ∧ isSpace c = false := by
  cases h with
  | natural n =>
    obtain ⟨c, cs, hcons, hdigit⟩ := Text.exists_numeral_eq_cons n
    refine ⟨c, cs, hcons, ?_⟩
    cases hspace : isSpace c with
    | false => rfl
    | true =>
      simp only [isSpace, Bool.or_eq_true, beq_iff_eq] at hspace
      rcases hspace with ((rfl | rfl) | rfl) | rfl <;> simp at hdigit
  | string h => exact ⟨'"', _, rfl, rfl⟩
  | _ => exact ⟨_, _, rfl, rfl⟩

/-- With fuel for every character, the scanner finds the tokens that have been written. -/
theorem scanAfter_of_written (h : Written ts cs) (known : List Token) {fuel : Nat}
    (hfuel : cs.length ≤ fuel) : scanAfter known fuel cs = some (known.reverse ++ ts) := by
  induction h generalizing known fuel with
  | nil => cases fuel <;> simp [scanAfter]
  | space hc _ ih =>
    obtain ⟨fuel, rfl⟩ : ∃ k, fuel = k + 1 := ⟨fuel - 1, by simp at hfuel; omega⟩
    rw [scanAfter, if_pos hc]
    exact ih known (by simpa using hfuel)
  | @token t ts spelling rest ht hend _ ih =>
    obtain ⟨c, ds, rfl, hspace⟩ := ht.exists_cons
    have hscan := scan?_of_spelled ht hend
    have hlength : ds.length + rest.length + 1 ≤ fuel := by simpa using hfuel
    obtain ⟨fuel, rfl⟩ : ∃ k, fuel = k + 1 := ⟨fuel - 1, by omega⟩
    rw [List.cons_append] at hscan ⊢
    rw [scanAfter, if_neg (by simp [hspace]), hscan]
    simp only
    rw [ih (t :: known) (by omega)]
    simp

theorem scanAll?_of_written (h : Written ts cs) : scanAll? cs = some ts :=
  scanAfter_of_written h [] (Nat.le_refl _)

/-- Strings are printed by the rules, also those that spell no text. -/
theorem spelled_quote (s : Option String) : (string s).Spelled (quote s) := by
  cases s with
  | some s =>
    obtain ⟨parts, hparts, hspell⟩ := exists_allSpelled_escape s.toList
    have hs : StringPart.spell? parts = some s := by
      rw [StringPart.spell?, hspell]
      simp
    have hspelled := Spelled.string hparts
    rwa [hs] at hspelled
  | none =>
    have hhalf : (StringPart.code 0xD800).Spelled ['\\', 'u', 'd', '8', '0', '0'] := .code rfl
    exact .string (.cons hhalf .nil)

/-- Numbers from `0` to `2 ^ 64 - 1` are printed by the rules. -/
theorem spelled_print {n : Number} (h : n.toWord?.isSome = true) :
    (number n).Spelled n.print := by
  obtain ⟨k, rfl, hk⟩ : ∃ k, n = .ofNat k ∧ k < UInt64.size := by
    cases n with
    | integer negative k =>
      cases negative with
      | false => exact ⟨k, rfl, by simpa [Number.toWord?] using h⟩
      | true => simp [Number.toWord?] at h
    | decimal => simp [Number.toWord?] at h
  have hdigits : (Number.ofNat k).print = Text.numeral k := by
    simp [Number.print, Number.integerDigits?, Number.ofNat, hk]
  rw [hdigits]
  exact .natural k

end Token

end Json

end LeastPrivilege
