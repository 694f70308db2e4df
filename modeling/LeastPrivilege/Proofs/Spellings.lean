import LeastPrivilege.Capability.Codec
import LeastPrivilege.Proofs.Lists
import LeastPrivilege.Proofs.Results

/-!
# Texts that spell a capability

The grammar of spellings, apart from how they are read: blanks around a word, numerals that may
carry a plus, and the two names of each capability, none of which is the name of another. Reading a
text gives what the grammar gives, and so does reading a list of spellings and indices.
-/

namespace LeastPrivilege

namespace Text

/-! ## Words between blanks -/

/-- A word stands in a text with nothing but blanks around it, and has none at its own ends. -/
structure Trimmed (text word : List Char) : Prop where
  surrounded : ∃ before after, text = before ++ (word ++ after) ∧
    (∀ c ∈ before, isBlank c = true) ∧ ∀ c ∈ after, isBlank c = true
  head : ∀ h : word ≠ [], isBlank (word.head h) = false
  last : ∀ h : word ≠ [], isBlank (word.getLast h) = false

/-- The blanks in front are dropped first, and those behind from what is left. -/
theorem trimBlanks_eq (cs : List Char) :
    trimBlanks cs = (cs.dropWhile isBlank).rdropWhile isBlank :=
  rfl

theorem trimmed_trimBlanks (cs : List Char) : Trimmed cs (trimBlanks cs) := by
  rw [trimBlanks_eq]
  constructor
  · refine ⟨cs.takeWhile isBlank, (cs.dropWhile isBlank).rtakeWhile isBlank, ?_, ?_, ?_⟩
    · rw [List.rdropWhile_append_rtakeWhile, List.takeWhile_append_dropWhile]
    · exact fun c hc => List.mem_takeWhile_imp hc
    · exact fun c hc => List.mem_rtakeWhile_imp hc
  · intro h
    have hfront := List.rdropWhile_prefix isBlank (l := cs.dropWhile isBlank)
    rw [hfront.head h]
    exact List.head_dropWhile_not isBlank _
  · intro h
    exact Bool.eq_false_iff.2 (List.rdropWhile_last_not _ _ h)

theorem trimBlanks_of_trimmed {cs word : List Char} (h : Trimmed cs word) :
    trimBlanks cs = word := by
  obtain ⟨before, after, rfl, hbefore, hafter⟩ := h.surrounded
  rw [trimBlanks_eq, List.dropWhile_append_of_pos hbefore]
  cases word with
  | nil =>
    have hblank : after.dropWhile isBlank = [] := List.dropWhile_eq_nil_iff.2 hafter
    rw [List.nil_append, hblank, List.rdropWhile_nil]
  | cons c cs =>
    have hfirst : isBlank c = false := h.head (List.cons_ne_nil c cs)
    have hlast : (c :: cs).rdropWhile isBlank = c :: cs :=
      List.rdropWhile_eq_self_iff.2 fun hne => Bool.eq_false_iff.1 (h.last hne)
    rw [List.cons_append, List.dropWhile_cons_of_neg (by simp [hfirst]), ← List.cons_append,
      rdropWhile_append_of_pos hafter, hlast]

/-- A text has one word, which is what trimming leaves of it. -/
theorem trimmed_iff {text word : String} :
    Trimmed text.toList word.toList ↔ word = trim text := by
  constructor
  · intro h
    rw [trim, trimBlanks_of_trimmed h, String.ofList_toList]
  · rintro rfl
    rw [trim, String.toList_ofList]
    exact trimmed_trimBlanks text.toList

/-! ## Numerals -/

/-- A run of decimal digits, with its value. -/
inductive Digits : List Char → Nat → Prop where
  | digit {c : Char} (hc : c.isDigit = true) : Digits [c] (c.toNat - '0'.toNat)
  | more {cs : List Char} {n : Nat} {c : Char} (h : Digits cs n) (hc : c.isDigit = true) :
    Digits (cs ++ [c]) (10 * n + (c.toNat - '0'.toNat))

/-- A run of digits behind at most one plus, with its value. -/
inductive Numeral : List Char → Nat → Prop where
  | plain {cs : List Char} {n : Nat} (h : Digits cs n) : Numeral cs n
  | signed {cs : List Char} {n : Nat} (h : Digits cs n) : Numeral ('+' :: cs) n

theorem Digits.forall_isDigit {cs : List Char} {n : Nat} (h : Digits cs n) :
    ∀ c ∈ cs, c.isDigit = true := by
  induction h with
  | digit hc => simpa using hc
  | more _ hc ih => simpa [or_imp, forall_and, hc] using ih

theorem Digits.ne_nil {cs : List Char} {n : Nat} (h : Digits cs n) : cs ≠ [] := by
  cases h <;> simp

theorem Digits.value {cs : List Char} {n : Nat} (h : Digits cs n) :
    Nat.ofDigitChars 10 cs 0 = n := by
  induction h with
  | digit hc => simp [Nat.ofDigitChars_cons]
  | more _ _ ih => simp [Nat.ofDigitChars_append, ih, Nat.ofDigitChars_cons]

theorem digits_ofDigitChars {cs : List Char} (hne : cs ≠ []) (h : ∀ c ∈ cs, c.isDigit = true) :
    Digits cs (Nat.ofDigitChars 10 cs 0) := by
  -- The value grows at the end of the run, so the induction takes the last digit off.
  induction cs using List.reverseRecOn with
  | nil => exact absurd rfl hne
  | append_singleton cs c ih =>
    have hc : c.isDigit = true := h c (by simp)
    have hvalue : Nat.ofDigitChars 10 (cs ++ [c]) 0 =
        10 * Nat.ofDigitChars 10 cs 0 + (c.toNat - '0'.toNat) := by
      simp [Nat.ofDigitChars_append, Nat.ofDigitChars_cons]
    rw [hvalue]
    by_cases hcs : cs = []
    · subst hcs
      simpa using Digits.digit hc
    · exact .more (ih hcs fun d hd => h d (by simp [hd])) hc

theorem natOfDigits?_eq_some_iff {cs : List Char} {n : Nat} :
    natOfDigits? cs = some n ↔ Digits cs n := by
  rw [natOfDigits?]
  constructor
  · intro h
    split at h
    next hdigits =>
      cases h
      exact digits_ofDigitChars hdigits.1 (List.all_eq_true.1 hdigits.2)
    next => cases h
  · intro h
    rw [if_pos ⟨h.ne_nil, List.all_eq_true.2 h.forall_isDigit⟩, h.value]

/-- A plus is no digit, so that it is a sign wherever it comes first. -/
theorem numeral_plus_iff {cs : List Char} {n : Nat} : Numeral ('+' :: cs) n ↔ Digits cs n := by
  constructor
  · intro h
    cases h with
    | plain h => exact absurd (h.forall_isDigit '+' List.mem_cons_self) (by decide)
    | signed h => exact h
  · exact .signed

theorem wordOfNumeral?_eq_some_iff {cs : List Char} {n : Nat} :
    wordOfNumeral? cs = some n ↔ Numeral cs n ∧ n < UInt64.size := by
  simp only [wordOfNumeral?, Option.filter_eq_some_iff, decide_eq_true_eq,
    natOfDigits?_eq_some_iff]
  split
  next rest => rw [numeral_plus_iff]
  next hplus =>
    have hnumeral : Numeral cs n ↔ Digits cs n := by
      constructor
      · intro h
        cases h with
        | plain h => exact h
        | signed h => exact absurd rfl (hplus _)
      · exact .plain
    rw [hnumeral]

theorem Numeral.unique {cs : List Char} {m n : Nat} (hm : Numeral cs m) (hn : Numeral cs n) :
    m = n := by
  cases hm with
  | plain hm =>
    cases hn with
    | plain hn => rw [← hm.value, hn.value]
    | signed _ => exact absurd (hm.forall_isDigit '+' List.mem_cons_self) (by decide)
  | signed hm => rw [← hm.value, (numeral_plus_iff.1 hn).value]

theorem wordOfNumeral?_eq_none_iff {cs : List Char} :
    wordOfNumeral? cs = none ↔ ∀ n, Numeral cs n → UInt64.size ≤ n := by
  rw [Option.eq_none_iff_forall_ne_some]
  simp [wordOfNumeral?_eq_some_iff]

end Text

namespace Json.Number

theorem toWord?_eq_some_iff {n : Number} {w : UInt64} :
    n.toWord? = some w ↔ n = .ofNat w.toNat := by
  constructor
  · intro h
    rw [toWord?.eq_def] at h
    split at h
    · split at h
      next hsize =>
        cases h
        rw [ofNat, UInt64.toNat_ofNat_of_lt' hsize]
      next => cases h
    · cases h
  · rintro rfl
    exact toWord?_ofNat w

end Json.Number

namespace Capability

/-! ## Names -/

/-- A text is one of the two names of a capability. -/
def IsNamed (c : Capability) (text : String) : Prop :=
  text = c.name ∨ text = c.kernelName

/-- The capabilities under their names, and then under the names of the kernel. -/
def directory : List (String × Capability) :=
  all.map (fun c => (c.name, c)) ++ all.map fun c => (c.kernelName, c)

theorem mem_directory {text : String} {c : Capability} :
    (text, c) ∈ directory ↔ c.IsNamed text := by
  simp [directory, IsNamed, mem_all, eq_comm]

/-- No name stands for two capabilities, and no capability has the same name twice. -/
theorem nodup_directory : (directory.map Prod.fst).Nodup := by
  decide +kernel

theorem IsNamed.unique {c d : Capability} {text : String} (hc : c.IsNamed text)
    (hd : d.IsNamed text) : c = d :=
  congrArg Prod.snd
    (List.inj_on_of_nodup_map nodup_directory (mem_directory.2 hc) (mem_directory.2 hd) rfl)

theorem ofName?_eq_some_iff {text : String} {c : Capability} :
    ofName? text = some c ↔ c.IsNamed text := by
  have htest : ∀ d : Capability,
      (d.name == text || d.kernelName == text) = true ↔ d.IsNamed text := by
    intro d
    rw [Bool.or_eq_true, beq_iff_eq, beq_iff_eq, IsNamed, eq_comm, eq_comm (a := d.kernelName)]
  constructor
  · intro h
    have hfound := List.find?_some h
    exact (htest c).1 hfound
  · intro h
    cases hfound : ofName? text with
    | none => exact absurd ((htest c).2 h) (List.find?_eq_none.1 hfound c c.mem_all)
    | some d =>
      have hd := List.find?_some hfound
      rw [h.unique ((htest d).1 hd)]

/-- Both names begin with a letter, and a numeral does not. -/
theorem IsNamed.not_numeral {c : Capability} {text : String} (h : c.IsNamed text) (n : Nat) :
    ¬ Text.Numeral text.toList n := by
  have hhead : text.toList.head? = some 'C' := by
    rcases h with rfl | rfl
    · cases c <;> simp [name]
    · cases c <;> simp [kernelName]
  generalize text.toList = cs at hhead
  rintro (hdigits | hdigits)
  · exact absurd (hdigits.forall_isDigit 'C' (List.mem_of_mem_head? hhead)) (by decide)
  · exact absurd (Option.some.inj hhead) (by decide)

/-! ## Readings -/

/-- What a word is read as. A numeral that fits 64 bits is an index, whether or not there is such a
capability, and any other word has to be a name. -/
inductive Reading (word : String) : Except Error Capability → Prop where
  | index {c : Capability} (h : Text.Numeral word.toList c.index) : Reading word (.ok c)
  | outOfRange {n : Nat} (h : Text.Numeral word.toList n) (hcount : count ≤ n)
    (hsize : n < UInt64.size) : Reading word (.error (.capabilityOutOfRange n))
  | named {c : Capability} (hindex : ∀ n, Text.Numeral word.toList n → UInt64.size ≤ n)
    (h : c.IsNamed word) : Reading word (.ok c)
  | unknown (hindex : ∀ n, Text.Numeral word.toList n → UInt64.size ≤ n)
    (hname : ∀ c : Capability, ¬ c.IsNamed word) : Reading word (.error (.unknownCapability word))

theorem index_lt_size (c : Capability) : c.index < UInt64.size :=
  Nat.lt_trans c.index_lt_count (by decide)

theorem parse_of_reading {text : String} {r : Except Error Capability}
    (h : Reading (Text.trim text) r) : parse text = r := by
  delta parse
  cases h with
  | @index c hnumeral =>
    have hword := Text.wordOfNumeral?_eq_some_iff.2 ⟨hnumeral, c.index_lt_size⟩
    simp only [hword, ofIndex_index]
  | outOfRange hnumeral hcount hsize =>
    have hword := Text.wordOfNumeral?_eq_some_iff.2 ⟨hnumeral, hsize⟩
    simp only [hword, ofIndex, ofIndex?_eq_none_iff.2 hcount]
  | named hindex hname =>
    have hword := Text.wordOfNumeral?_eq_none_iff.2 hindex
    simp only [hword, ofName?_eq_some_iff.2 hname]
  | unknown hindex hname =>
    have hword := Text.wordOfNumeral?_eq_none_iff.2 hindex
    have hnone : ofName? (Text.trim text) = none :=
      Option.eq_none_iff_forall_ne_some.2 fun c hc => hname c (ofName?_eq_some_iff.1 hc)
    simp only [hword, hnone]

/-- Every word is read as something. -/
theorem exists_reading (word : String) : ∃ r, Reading word r := by
  cases hnumeral : Text.wordOfNumeral? word.toList with
  | some n =>
    obtain ⟨hnumeral, hsize⟩ := Text.wordOfNumeral?_eq_some_iff.1 hnumeral
    cases hc : ofIndex? n with
    | some c =>
      obtain rfl := ofIndex?_eq_some_iff.1 hc
      exact ⟨_, .index hnumeral⟩
    | none => exact ⟨_, .outOfRange hnumeral (ofIndex?_eq_none_iff.1 hc) hsize⟩
  | none =>
    have hindex := Text.wordOfNumeral?_eq_none_iff.1 hnumeral
    by_cases hname : ∃ c : Capability, c.IsNamed word
    · obtain ⟨c, hc⟩ := hname
      exact ⟨_, .named hindex hc⟩
    · exact ⟨_, .unknown hindex (not_exists.1 hname)⟩

/-- Parsing a text gives what its word is read as, and nothing else. -/
theorem parse_eq_iff {text : String} {r : Except Error Capability} :
    parse text = r ↔ Reading (Text.trim text) r := by
  constructor
  · intro h
    obtain ⟨r', hr'⟩ := exists_reading (Text.trim text)
    rwa [← h, parse_of_reading hr']
  · exact parse_of_reading

theorem parse_name (c : Capability) : parse c.name = .ok c := by
  have htrim : Text.trim c.name = c.name := by
    cases c <;> decide +kernel
  have hnamed : c.IsNamed c.name := Or.inl rfl
  rw [parse_eq_iff, htrim]
  exact .named (fun n hn => absurd hn (hnamed.not_numeral n)) hnamed

/-! ## Spellings and indices in JSON -/

/-- A JSON value stands for a capability: it is a string around a word that is read as the
capability, or it is the index. -/
inductive StandsFor : Json → Capability → Prop where
  | spelling {text word : String} {c : Capability}
    (hword : Text.Trimmed text.toList word.toList) (h : Reading word (.ok c)) :
    StandsFor (.text text) c
  | index (c : Capability) : StandsFor (.nat c.index) c

theorem decode_ofNat (w : UInt64) :
    decode (.number (.ofNat w.toNat)) = (ofIndex w.toNat).mapError .invalid := by
  rw [decode, Json.Number.toWord?_ofNat]

theorem decode_eq_ok_iff {v : Json} {c : Capability} : decode v = .ok c ↔ StandsFor v c := by
  constructor
  · intro h
    rw [decode.eq_def] at h
    split at h
    next text =>
      exact .spelling (Text.trimmed_iff.2 rfl) (parse_eq_iff.1 (mapError_eq_ok.1 h))
    next n =>
      split at h
      next w hw =>
        obtain rfl := Json.Number.toWord?_eq_some_iff.1 hw
        rw [← ofIndex_eq_ok_iff.1 (mapError_eq_ok.1 h)]
        exact .index c
      next => cases h
    next => cases h
  · intro h
    cases h with
    | spelling hword h =>
      obtain rfl := Text.trimmed_iff.1 hword
      exact mapError_eq_ok.2 (parse_eq_iff.2 h)
    | index c =>
      have hnat := UInt64.toNat_ofNat_of_lt' c.index_lt_size
      rw [← hnat, Json.nat, decode_ofNat, hnat, ofIndex_index]
      rfl

end Capability

namespace CapabilitySet

theorem decode_eq_ok {v : Json} {s : CapabilitySet} :
    decode v = .ok s ↔ ∃ items, v = .array items ∧
      ∃ cs, items.mapM Capability.decode = .ok cs ∧ ofList cs = s := by
  constructor
  · intro h
    rw [decode.eq_def] at h
    split at h
    next items => exact ⟨items, rfl, map_eq_ok.1 h⟩
    next => cases h
  · rintro ⟨items, rfl, h⟩
    exact map_eq_ok.2 h

/-- A list is decoded item by item, and the order and the repetition of the items do not matter. -/
theorem decode_eq_ok_iff {v : Json} {s : CapabilitySet} :
    decode v = .ok s ↔ ∃ items cs, v = .array items ∧
      List.Forall₂ Capability.StandsFor items cs ∧ ∀ c, c ∈ s ↔ c ∈ cs := by
  simp only [decode_eq_ok, mapM_eq_ok_iff, Capability.decode_eq_ok_iff]
  constructor
  · rintro ⟨items, rfl, cs, hcs, rfl⟩
    exact ⟨items, cs, rfl, hcs, fun c => mem_ofList⟩
  · rintro ⟨items, cs, rfl, hcs, hmem⟩
    exact ⟨items, rfl, cs, hcs, ext fun c => by rw [mem_ofList, hmem]⟩

/-- A set is written as the names of its members in ascending order, each once. -/
theorem exists_toJson_eq (s : CapabilitySet) :
    ∃ cs : List Capability, s.toJson = .texts (cs.map Capability.name) ∧
      (cs.map Capability.index).Pairwise (· < ·) ∧ ∀ c, c ∈ cs ↔ c ∈ s :=
  ⟨s.toList, rfl, s.pairwise_indices, fun _ => mem_toList⟩

end CapabilitySet

namespace Capability

/-- Capabilities are read by their grammar. A text has one word, and what it is parsed to is what
the word is read as. No word names two capabilities, and a numeral beyond 64 bits names none. A list
is decoded just if each item stands for a capability, and then to the set of these, in whatever
order and however often they come. The set is written in order and without repetition. -/
theorem spellings_follow_grammar :
    (∀ text : String, ∃ word : String,
      (∀ other : String, Text.Trimmed text.toList other.toList ↔ other = word) ∧
      (∀ r, parse text = r ↔ Reading word r) ∧
      (∀ c d : Capability, c.IsNamed word → d.IsNamed word → c = d) ∧
      ∀ n, Text.Numeral word.toList n → UInt64.size ≤ n →
        parse text = .error (.unknownCapability word)) ∧
    (∀ v s, CapabilitySet.decode v = .ok s ↔ ∃ items cs, v = .array items ∧
      List.Forall₂ StandsFor items cs ∧ ∀ c, c ∈ s ↔ c ∈ cs) ∧
    ∀ s : CapabilitySet, ∃ cs : List Capability, s.toJson = .texts (cs.map name) ∧
      (cs.map index).Pairwise (· < ·) ∧ ∀ c, c ∈ cs ↔ c ∈ s := by
  refine ⟨fun text => ⟨Text.trim text, fun _ => Text.trimmed_iff, fun _ => parse_eq_iff,
    fun _ _ => IsNamed.unique, ?_⟩, fun _ _ => CapabilitySet.decode_eq_ok_iff,
    CapabilitySet.exists_toJson_eq⟩
  intro n hnumeral hsize
  have hindex : ∀ m, Text.Numeral (Text.trim text).toList m → UInt64.size ≤ m := by
    intro m hm
    rwa [hm.unique hnumeral]
  exact parse_eq_iff.2 (.unknown hindex fun c hc => hc.not_numeral n hnumeral)

/-- An index with a sign, leading zeros and blanks around it, the first numeral that is too large, a
name of the kernel, and a list in which one capability is spelled twice. -/
theorem spellings_follow_grammar_sample :
    parse "\u00a0+0021\t" = .ok .sysAdmin ∧
    parse "18446744073709551616" = .error (.unknownCapability "18446744073709551616") ∧
    (∀ c : Capability, c.IsNamed "CAP_KILL" → c = .kill) ∧
    ∃ s : CapabilitySet,
      CapabilitySet.decode (.array [.text " CAP_KILL", .nat 0, .text "5"]) = .ok s ∧
      s.toJson = .texts ["CapChown", "CapKill"] := by
  refine ⟨?_, ?_, ?_, .ofList [.kill, .chown, .kill], ?_, ?_⟩
  · obtain ⟨word, htrim, hread, -, -⟩ := spellings_follow_grammar.1 "\u00a0+0021\t"
    obtain rfl : "+0021" = word := (htrim _).1 (Text.trimmed_iff.2 (by decide +kernel))
    exact (hread _).2 (.index (.signed (Text.natOfDigits?_eq_some_iff.1 (by decide +kernel))))
  · obtain ⟨word, htrim, -, -, hlarge⟩ := spellings_follow_grammar.1 "18446744073709551616"
    obtain rfl := (htrim "18446744073709551616").1 (Text.trimmed_iff.2 (by decide +kernel))
    exact hlarge 18446744073709551616
      (.plain (Text.natOfDigits?_eq_some_iff.1 (by decide +kernel))) (by decide)
  · obtain ⟨word, htrim, -, hunique, -⟩ := spellings_follow_grammar.1 "CAP_KILL"
    obtain rfl : "CAP_KILL" = word := (htrim _).1 (Text.trimmed_iff.2 (by decide +kernel))
    exact fun c hc => hunique c .kill hc (Or.inr (by decide +kernel))
  · have hspelled : ∀ text, parse text = .ok .kill → StandsFor (.text text) .kill :=
      fun text h => .spelling (Text.trimmed_iff.2 rfl) (parse_eq_iff.1 h)
    refine (spellings_follow_grammar.2.1 _ _).2 ⟨_, [.kill, .chown, .kill], rfl, ?_, by simp⟩
    exact .cons (hspelled _ (by decide +kernel))
      (.cons (.index .chown) (.cons (hspelled _ (by decide +kernel)) .nil))
  · exact congrArg Json.texts (by decide +kernel)

end Capability

end LeastPrivilege
