import LeastPrivilege.Proofs.ProgramText
import Mathlib.Logic.Relation

/-!
# Ways to write a program

The fields of an object may stand in any order, a field that has its default value may be left out,
and an object may have fields that nobody knows. None of this changes the program that is read, at
whatever depth it is done and however often.

The table `Part.slots` says which fields each part of a program has, and `Part.Restyled` is one
change to a JSON value. Every decoder is shown to give the same answer after one change, from the
innermost parts outwards.
-/

namespace LeastPrivilege

/-- The parts of a program that are written as objects, and lists of them. -/
inductive Part where
  | program
  | procedure
  | signature
  | block
  | operation
  /-- An operation of which the kind is known. -/
  | kind (name : String)
  | callee
  | site
  | operand
  | literal
  | list (item : Part)

namespace Part

/-- A field of an object. -/
structure Slot where
  /-- The part that stands there, if it is one. -/
  part? : Option Part := none
  /-- The value that is meant if the field is left out, if it may be. -/
  default? : Option Json := none

/-- The fields of each kind of operation. -/
def kindSlots : String → List (String × Slot)
  | "call" =>
    [("callee", { part? := some callee }),
      ("args", { part? := some (list operand), default? := some (.array []) })]
  | "other" => [("opcode", {})]
  | "br" => [("targets", { default? := some (.array []) })]
  | _ => []

/-- The fields of each part. -/
def slots : Part → List (String × Slot)
  | program =>
    [("name", { default? := some (.text "") }),
      ("procedures", { part? := some (list procedure), default? := some (.array []) })]
  | procedure =>
    [("name", {}),
      ("signature", { part? := some signature, default? := some (Signature.toJson {}) }),
      ("linkage", { default? := some Linkage.external.toJson }),
      ("blocks", { part? := some (list block), default? := some (.array []) })]
  | signature =>
    [("params", { default? := some (.array []) }),
      ("ret", { default? := some ValueType.void.toJson }),
      ("variadic", { default? := some (.bool false) })]
  | block =>
    [("label", {}), ("ops", { part? := some (list operation), default? := some (.array []) })]
  | kind name => ("op", {}) :: kindSlots name
  | callee => [("direct", {}), ("indirect", { part? := some site })]
  | site => [("site", {})]
  | operand => [("int", { part? := some literal }), ("proc_ref", {}), ("value", {})]
  | literal => [("width", {}), ("value", {})]
  | operation => []
  | list _ => []

/-- The field with a given name. -/
def slot? (part : Part) (name : String) : Option Slot :=
  part.slots.lookup name

theorem mem_slots_of_slot? {part : Part} {name : String} {slot : Slot}
    (h : part.slot? name = some slot) : (name, slot) ∈ part.slots := by
  obtain ⟨before, after, hslots, _⟩ := List.lookup_eq_some_iff.1 h
  rw [hslots]
  exact List.mem_append_right before List.mem_cons_self

/-- Whether objects for a part may have fields beside its own. -/
def isOpen : Part → Bool
  | program | procedure | signature | block | kind _ => true
  | operation | callee | site | operand | literal | list _ => false

/-- The values that may stand in a field that nobody knows. -/
inductive Ignored : Json → Prop
  | null : Ignored .null
  | bool (b : Bool) : Ignored (.bool b)
  | text (s : String) : Ignored (.text s)
  | word (w : UInt64) : Ignored (.nat w.toNat)

/-- One change to how a part is written. A part within a part is changed where it stands. Only what
is written out as a default is left out: a default that was itself changed before could have been
left out first. -/
inductive Restyled : Part → Json → Json → Prop
  | reorder {part : Part} {fields fields' : List (Option String × Json)}
      (h : fields.Perm fields') : Restyled part (.object fields) (.object fields')
  | leaveOut {part : Part} {name : String} {slot : Slot} {v : Json}
      {before after : List (Option String × Json)} (hslot : part.slot? name = some slot)
      (hdefault : slot.default? = some v) :
      Restyled part (.object (before ++ (some name, v) :: after)) (.object (before ++ after))
  | add {part : Part} {name : String} {v : Json} {before after : List (Option String × Json)}
      (hopen : part.isOpen = true) (hname : part.slot? name = none) (hv : Ignored v) :
      Restyled part (.object (before ++ after)) (.object (before ++ (some name, v) :: after))
  | inside {part inner : Part} {name : String} {slot : Slot} {v v' : Json}
      {before after : List (Option String × Json)} (hslot : part.slot? name = some slot)
      (hpart : slot.part? = some inner) (h : Restyled inner v v') :
      Restyled part (.object (before ++ (some name, v) :: after))
        (.object (before ++ (some name, v') :: after))
  | item {part : Part} {v v' : Json} {before after : List Json} (h : Restyled part v v') :
      Restyled (.list part) (.array (before ++ v :: after)) (.array (before ++ v' :: after))
  | operation {name : String} {fields : List (Option String × Json)} {v' : Json}
      (hname : (some "op", .text name) ∈ fields)
      (h : Restyled (.kind name) (.object fields) v') :
      Restyled .operation (.object fields) v'

variable {part inner : Part} {name : String} {names : List String} {slot : Slot}
  {v v' : Json} {v? w? : Option Json} {fields fields' : List (Option String × Json)}
  {known known' : List (String × Json)} {α β : Type}

/-! ## The fields of an object that is changed -/

/-- What may happen to one field of a part. -/
inductive Changed (part : Part) (name : String) : Option Json → Option Json → Prop
  | same (v? : Option Json) : Changed part name v? v?
  | leftOut {slot : Slot} {v : Json} (hslot : part.slot? name = some slot)
      (hdefault : slot.default? = some v) : Changed part name (some v) none
  | inside {inner : Part} {slot : Slot} {v v' : Json} (hslot : part.slot? name = some slot)
      (hpart : slot.part? = some inner) (h : Restyled inner v v') :
      Changed part name (some v) (some v')

/-- Putting one value in the place of another, or leaving it out, changes only its own field. -/
theorem Changed.exists_under {other : String} {before after : List (Option String × Json)}
    (h : Changed part other (some v) w?)
    (hv : Json.under (before ++ (some other, v) :: after) name = v?.toList) :
    ∃ u? : Option Json,
      Json.under (before ++ (w?.toList.map fun w => (some other, w)) ++ after) name = u?.toList ∧
        Changed part name v? u? := by
  rw [Json.under_append] at hv
  by_cases hname : other = name
  · subst hname
    rw [Json.under_cons_self] at hv
    -- One value at most stands under the name, so this is the only place where it stands.
    have hone : Json.under before other = [] ∧ Json.under after other = [] ∧ v? = some v := by
      cases v? with
      | none => simp at hv
      | some u => simp_all [List.append_eq_singleton_iff]
    obtain ⟨hbefore, hafter, rfl⟩ := hone
    refine ⟨w?, ?_, h⟩
    rw [Json.under_append, Json.under_append, hbefore, hafter]
    cases w? with
    | none => rfl
    | some w => simp [Json.under]
  · rw [Json.under_cons_of_ne hname] at hv
    refine ⟨v?, ?_, .same v?⟩
    rw [Json.under_append, Json.under_append, ← hv]
    cases w? with
    | none => simp [Json.under]
    | some w => simp [Json.under, hname]

/-- A change to a part that has fields is one to an object. All its names still spell texts, and
each field is what it was, is left out or is changed itself. -/
theorem Restyled.exists_fields (h : Restyled part v v') (hslots : part.slots ≠ []) :
    ∃ fields fields', v = .object fields ∧ v' = .object fields' ∧
      (Json.HasNames fields → Json.HasNames fields') ∧
      ∀ name, (part.slot? name).isSome = true → ∀ v? : Option Json,
        Json.under fields name = v?.toList →
          ∃ w? : Option Json, Json.under fields' name = w?.toList ∧ Changed part name v? w? := by
  cases h with
  | reorder h =>
    exact ⟨_, _, rfl, rfl, fun hnames field hfield => hnames field (h.mem_iff.2 hfield),
      fun name _ v? hv => ⟨v?, Json.under_eq_of_perm h hv, .same v?⟩⟩
  | leaveOut hslot hdefault =>
    refine ⟨_, _, rfl, rfl, by simp, fun name _ v? hv => ?_⟩
    simpa using (Changed.leftOut hslot hdefault).exists_under hv
  | @add _ other _ _ _ _ hother =>
    refine ⟨_, _, rfl, rfl, by simp, fun name hname v? hv => ⟨v?, ?_, .same v?⟩⟩
    have hne : other ≠ name := by
      rintro rfl
      simp [hother] at hname
    rwa [Json.under_append, Json.under_cons_of_ne hne, ← Json.under_append]
  | inside hslot hpart h =>
    refine ⟨_, _, rfl, rfl, by simp, fun name _ v? hv => ?_⟩
    simpa using (Changed.inside hslot hpart h).exists_under hv
  | item h => exact absurd rfl hslots
  | operation hname h => exact absurd rfl hslots

/-! ## Decoders -/

/-- Where the first of two computations gives an answer, the second gives the same. -/
def Extends (x y : Option α) : Prop :=
  ∀ a, x = some a → y = some a

theorem Extends.refl (x : Option α) : Extends x x :=
  fun _ => id

theorem Extends.bind {x y : Option α} {f g : α → Option β} (h : Extends x y)
    (hfg : ∀ a, Extends (f a) (g a)) : Extends (x.bind f) (y.bind g) := by
  intro b hb
  obtain ⟨a, ha, hb⟩ := Option.bind_eq_some_iff.1 hb
  exact Option.bind_eq_some_iff.2 ⟨a, h a ha, hfg a b hb⟩

/-- No change to a part matters to a decoder. -/
def Keeps (part : Part) (decode : Json → Option α) : Prop :=
  ∀ v v', Restyled part v v' → Extends (decode v) (decode v')

theorem Changed.eq_of_leaf (h : Changed part name (some v) (some v'))
    (hslot : part.slot? name = some slot) (hpart : slot.part? = none) : v = v' := by
  cases h with
  | same => rfl
  | inside hslot' hpart' h =>
    obtain rfl : slot = _ := Option.some.inj (hslot.symm.trans hslot')
    simp [hpart] at hpart'

theorem Changed.extends {decode : Json → Option α} (h : Changed part name (some v) (some v'))
    (hslot : part.slot? name = some slot)
    (hkeeps : ∀ inner, slot.part? = some inner → Keeps inner decode) :
    Extends (decode v) (decode v') := by
  cases h with
  | same => exact .refl _
  | inside hslot' hpart h =>
    obtain rfl : slot = _ := Option.some.inj (hslot.symm.trans hslot')
    exact hkeeps _ hpart _ _ h

/-- A field that has to be present has no default. -/
theorem Changed.field? {decode : Json → Option α}
    (h : Changed part name (known.lookup name) (known'.lookup name))
    (hslot : part.slot? name = some slot) (hdefault : slot.default? = none)
    (hkeeps : ∀ inner, slot.part? = some inner → Keeps inner decode) :
    Extends (Json.field? known name decode) (Json.field? known' name decode) := by
  rw [Json.field?, Json.field?]
  generalize known.lookup name = v?, known'.lookup name = w? at h
  cases h with
  | same => exact .refl _
  | leftOut hslot' hdefault' =>
    obtain rfl : slot = _ := Option.some.inj (hslot.symm.trans hslot')
    simp [hdefault] at hdefault'
  | inside hslot' hpart h' =>
    exact (Changed.inside hslot' hpart h').extends hslot hkeeps

theorem Changed.fieldOr? {decode : Json → Option α} {fallback : α}
    (h : Changed part name (known.lookup name) (known'.lookup name))
    (hslot : part.slot? name = some slot)
    (hdefault : ∀ v, slot.default? = some v → decode v = some fallback)
    (hkeeps : ∀ inner, slot.part? = some inner → Keeps inner decode) :
    Extends (Json.fieldOr? known name decode fallback)
      (Json.fieldOr? known' name decode fallback) := by
  rw [Json.fieldOr?, Json.fieldOr?]
  generalize known.lookup name = v?, known'.lookup name = w? at h
  cases h with
  | same => exact .refl _
  | leftOut hslot' hdefault' =>
    obtain rfl : slot = _ := Option.some.inj (hslot.symm.trans hslot')
    change Extends (decode _) (some fallback)
    rw [hdefault _ hdefault']
    exact .refl _
  | inside hslot' hpart h' =>
    exact (Changed.inside hslot' hpart h').extends hslot hkeeps

/-- A record is decoded as before if this holds once its fields are known. -/
theorem Restyled.extends_record {read : List (String × Json) → Option α} (h : Restyled part v v')
    (hslots : part.slots ≠ []) (hnames : ∀ name ∈ names, (part.slot? name).isSome = true)
    (hread : ∀ known known' : List (String × Json),
      (∀ name ∈ names, Changed part name (known.lookup name) (known'.lookup name)) →
        Extends (read known) (read known')) :
    Extends ((v.toFields? names).bind read) ((v'.toFields? names).bind read) := by
  obtain ⟨fields, fields', rfl, rfl, hspelled, hchanged⟩ := h.exists_fields hslots
  intro a ha
  obtain ⟨known, hknown, ha⟩ := Option.bind_eq_some_iff.1 ha
  obtain ⟨known', hknown', hlookup⟩ := Json.exists_toFields?_of_forall hknown hspelled
    fun name hname v? hv => hchanged name (hnames name hname) v? hv
  exact Option.bind_eq_some_iff.2 ⟨known', hknown', hread known known' hlookup a ha⟩

theorem keeps_list {decode : Json → Option α} (h : Keeps part decode) :
    Keeps (.list part) (Json.toList? decode) := by
  intro v v' hv
  cases hv with
  | item hv =>
    rw [Json.toList?, Json.toList?, List.mapM_append, List.mapM_append, List.mapM_cons,
      List.mapM_cons]
    exact .bind (.refl _) fun _ => .bind (.bind (h _ _ hv) fun _ => .refl _) fun _ => .refl _
  | _ =>
    -- An object stands for no list.
    intro xs hxs
    cases hxs

theorem keeps_signature : Keeps .signature Signature.ofJson? := by
  intro v v' h
  refine h.extends_record (List.cons_ne_nil _ _) (by decide) fun known known' hchanged => ?_
  refine .bind ?params fun _ => .bind ?ret fun _ => .bind ?variadic fun _ => .refl _
  case params =>
    exact (hchanged "params" (by decide)).fieldOr? rfl (by rintro _ ⟨⟩; rfl) nofun
  case ret =>
    exact (hchanged "ret" (by decide)).fieldOr? rfl (by rintro _ ⟨⟩; rfl) nofun
  case variadic =>
    exact (hchanged "variadic" (by decide)).fieldOr? rfl (by rintro _ ⟨⟩; rfl) nofun

/-- What has one field, named for its kind, is decoded as before if this holds once the field is
known. -/
theorem Restyled.extends_variant {read : String × Json → Option α} (h : Restyled part v v')
    (hslots : part.slots ≠ []) (hclosed : part.isOpen = false)
    (hdefault : ∀ field ∈ part.slots, field.2.default? = none)
    (hread : ∀ name body body', Changed part name (some body) (some body') →
      Extends (read (name, body)) (read (name, body'))) :
    Extends (v.toVariant?.bind read) (v'.toVariant?.bind read) := by
  intro a ha
  obtain ⟨⟨name, body⟩, hv, ha⟩ := Option.bind_eq_some_iff.1 ha
  suffices hv' : ∃ body', v'.toVariant? = some (name, body') ∧
      Changed part name (some body) (some body') by
    obtain ⟨body', hv', hchanged⟩ := hv'
    exact Option.bind_eq_some_iff.2 ⟨_, hv', hread name body body' hchanged a ha⟩
  cases h with
  | reorder h =>
    obtain rfl := Json.object.inj (Json.toVariant?_eq_some_iff.1 hv)
    rw [← h.singleton_eq]
    exact ⟨body, rfl, .same _⟩
  | leaveOut hslot hsome =>
    exact nomatch (hdefault _ (mem_slots_of_slot? hslot)).symm.trans hsome
  | add hopen => simp [hclosed] at hopen
  | inside hslot hpart h =>
    have hfields := Json.object.inj (Json.toVariant?_eq_some_iff.1 hv)
    -- The field that is changed is the only one.
    obtain ⟨rfl, hfield⟩ | ⟨_, hnone⟩ := List.append_eq_singleton_iff.1 hfields
    · cases hfield
      exact ⟨_, rfl, .inside hslot hpart h⟩
    · cases hnone
  | item h => exact absurd rfl hslots
  | operation hname h => exact absurd rfl hslots

theorem keeps_site :
    Keeps .site fun body => do
      let fields ← body.toFields? ["site"]
      return Callee.indirect (← Json.field? fields "site" Json.toWord32?) := by
  intro v v' h
  refine h.extends_record (List.cons_ne_nil _ _) (by decide) fun known known' hchanged => ?_
  refine .bind ?site fun _ => .refl _
  case site => exact (hchanged "site" (by decide)).field? rfl rfl nofun

theorem keeps_callee : Keeps .callee Callee.ofJson? := by
  intro v v' h
  refine h.extends_variant (List.cons_ne_nil _ _) rfl (by simp [slots]) ?_
  intro name body body' hchanged
  split
  · next hfield =>
    cases hfield
    obtain rfl := hchanged.eq_of_leaf rfl rfl
    exact .refl _
  · next hfield =>
    cases hfield
    simp only
    exact hchanged.extends rfl (by rintro _ ⟨⟩; exact keeps_site)
  · exact nofun

theorem keeps_literal :
    Keeps .literal fun body => do
      let fields ← body.toFields? ["width", "value"]
      let width ← Json.field? fields "width" Json.toWord8?
      let n ← Json.field? fields "value" Json.toWord?
      return Operand.literal width n := by
  intro v v' h
  refine h.extends_record (List.cons_ne_nil _ _) (by decide) fun known known' hchanged => ?_
  refine .bind ?width fun _ => .bind ?value fun _ => .refl _
  case width => exact (hchanged "width" (by decide)).field? rfl rfl nofun
  case value => exact (hchanged "value" (by decide)).field? rfl rfl nofun

theorem keeps_operand : Keeps .operand Operand.ofJson? := by
  intro v v' h
  refine h.extends_variant (List.cons_ne_nil _ _) rfl (by simp [slots]) ?_
  intro name body body' hchanged
  split
  · next hfield =>
    cases hfield
    simp only
    exact hchanged.extends rfl (by rintro _ ⟨⟩; exact keeps_literal)
  · next hfield =>
    cases hfield
    obtain rfl := hchanged.eq_of_leaf rfl rfl
    exact .refl _
  · next hfield =>
    cases hfield
    obtain rfl := hchanged.eq_of_leaf rfl rfl
    exact .refl _
  · exact nofun

/-! ## Operations -/

open Operation (withoutKind split?_eq_some_iff)

/-- A change to an operation is one to an operation of the kind that it has. -/
theorem Restyled.to_kind {body : Json} (h : Restyled .operation v v')
    (hsplit : Operation.split? v = some (name, body)) : Restyled (.kind name) v v' := by
  cases h with
  | reorder h => exact .reorder h
  | leaveOut hslot => cases hslot
  | add hopen => cases hopen
  | inside hslot => cases hslot
  | @operation other fields _ hother h =>
    have hmem : Json.text other ∈ Json.under fields "op" :=
      List.mem_map.2 ⟨_, List.mem_filter.2 ⟨hother, beq_self_eq_true _⟩, rfl⟩
    rw [(split?_eq_some_iff.1 hsplit).1, List.mem_singleton] at hmem
    cases hmem
    exact h

/-- No change takes the kind off an operation. -/
theorem Restyled.split? {body : Json} (h : Restyled (.kind name) (.object fields) (.object fields'))
    (hsplit : Operation.split? (.object fields) = some (name, body)) :
    Operation.split? (.object fields') = some (name, withoutKind fields') := by
  obtain ⟨_, _, ⟨⟩, ⟨⟩, _, hchanged⟩ := h.exists_fields (List.cons_ne_nil _ _)
  obtain ⟨w?, hw, hsame⟩ :=
    hchanged "op" rfl (some (.text name)) (split?_eq_some_iff.1 hsplit).1
  cases hsame with
  | same => exact split?_eq_some_iff.2 ⟨hw, rfl⟩
  | leftOut hslot hdefault =>
    cases hslot
    cases hdefault
  | inside hslot hpart =>
    cases hslot
    cases hpart

/-- The fields of an operation are read as if its kind stood among them. -/
theorem Restyled.extends_withoutKind {read : List (String × Json) → Option α}
    (h : Restyled (.kind name) (.object fields) (.object fields')) (hop : "op" ∉ names)
    (hnames : ∀ field ∈ names, ((kind name).slot? field).isSome = true)
    (hread : ∀ known known' : List (String × Json),
      (∀ field ∈ names, Changed (.kind name) field (known.lookup field) (known'.lookup field)) →
        Extends (read known) (read known')) :
    Extends (((withoutKind fields).toFields? names).bind read)
      (((withoutKind fields').toFields? names).bind read) := by
  rw [withoutKind, withoutKind, Json.toFields?_filter_ne hop, Json.toFields?_filter_ne hop]
  exact h.extends_record (List.cons_ne_nil _ _) hnames hread

/-- An operation is decoded as before if this holds once its kind is known. -/
theorem Restyled.extends_split {read : String × Json → Option α} (h : Restyled .operation v v')
    (hread : ∀ name fields fields', Restyled (.kind name) (.object fields) (.object fields') →
      Extends (read (name, withoutKind fields)) (read (name, withoutKind fields'))) :
    Extends ((Operation.split? v).bind read) ((Operation.split? v').bind read) := by
  intro a ha
  obtain ⟨⟨name, body⟩, hsplit, ha⟩ := Option.bind_eq_some_iff.1 ha
  have hkind := h.to_kind hsplit
  obtain ⟨fields, fields', rfl, rfl, _⟩ := hkind.exists_fields (List.cons_ne_nil _ _)
  obtain ⟨_, rfl⟩ := split?_eq_some_iff.1 hsplit
  exact Option.bind_eq_some_iff.2
    ⟨_, hkind.split? hsplit, hread name fields fields' hkind a ha⟩

theorem extends_call (h : Restyled (.kind "call") (.object fields) (.object fields')) :
    Extends (Call.ofJson? (withoutKind fields)) (Call.ofJson? (withoutKind fields')) := by
  refine h.extends_withoutKind (by decide) (by decide) fun known known' hchanged => ?_
  refine .bind ?callee fun _ => .bind ?args fun _ => .refl _
  case callee =>
    exact (hchanged "callee" (by decide)).field? rfl rfl (by rintro _ ⟨⟩; exact keeps_callee)
  case args =>
    exact (hchanged "args" (by decide)).fieldOr? rfl (by rintro _ ⟨⟩; rfl)
      (by rintro _ ⟨⟩; exact keeps_list keeps_operand)

theorem keeps_operation : Keeps .operation Operation.ofJson? := by
  intro v v' h
  refine h.extends_split fun name fields fields' h => ?_
  -- One case for each kind; those without fields are the same for every object.
  split
  · next hfield =>
    cases hfield
    exact .refl _
  · next hfield =>
    cases hfield
    exact .bind (extends_call h) fun _ => .refl _
  · next hfield =>
    cases hfield
    refine h.extends_withoutKind (by decide) (by decide) fun known known' hchanged => ?_
    refine .bind ?opcode fun _ => .refl _
    case opcode => exact (hchanged "opcode" (by decide)).field? rfl rfl nofun
  · next hfield =>
    cases hfield
    refine h.extends_withoutKind (by decide) (by decide) fun known known' hchanged => ?_
    refine .bind ?targets fun _ => .refl _
    case targets =>
      exact (hchanged "targets" (by decide)).fieldOr? rfl (by rintro _ ⟨⟩; rfl) nofun
  · next hfield =>
    cases hfield
    exact .refl _
  · next hfield =>
    cases hfield
    exact .refl _
  · exact nofun

theorem Ignored.isSound (h : Ignored v) (depth : Nat) : v.isSound depth = true := by
  cases h with
  | word w => exact Json.isSound_nat w.toNat_lt
  | _ => simp [Json.isSound]

/-- Nothing that is added makes a value unsound. -/
theorem Restyled.isSound (h : Restyled part v v') {depth : Nat} (hv : v.isSound depth = true) :
    v'.isSound depth = true := by
  induction h generalizing depth with
  | reorder h =>
    obtain ⟨inner, rfl, hall⟩ := Json.isSound_object_iff.1 hv
    refine Json.isSound_object_iff.2 ⟨inner, rfl, fun field hfield => ?_⟩
    exact hall field (h.mem_iff.2 hfield)
  | leaveOut hslot hdefault =>
    obtain ⟨inner, rfl, hall⟩ := Json.isSound_object_iff.1 hv
    rw [List.forall_mem_append, List.forall_mem_cons] at hall
    exact Json.isSound_object_iff.2 ⟨inner, rfl, List.forall_mem_append.2 ⟨hall.1, hall.2.2⟩⟩
  | add hopen hname hadded =>
    obtain ⟨inner, rfl, hall⟩ := Json.isSound_object_iff.1 hv
    rw [List.forall_mem_append] at hall
    refine Json.isSound_object_iff.2 ⟨inner, rfl, ?_⟩
    rw [List.forall_mem_append, List.forall_mem_cons]
    exact ⟨hall.1, ⟨rfl, hadded.isSound inner⟩, hall.2⟩
  | inside hslot hpart h ih =>
    obtain ⟨inner, rfl, hall⟩ := Json.isSound_object_iff.1 hv
    refine Json.isSound_object_iff.2 ⟨inner, rfl, ?_⟩
    rw [List.forall_mem_append, List.forall_mem_cons] at hall ⊢
    exact ⟨hall.1, ⟨rfl, ih hall.2.1.2⟩, hall.2.2⟩
  | item h ih =>
    obtain ⟨inner, rfl, hall⟩ := Json.isSound_array_iff.1 hv
    refine Json.isSound_array_iff.2 ⟨inner, rfl, ?_⟩
    rw [List.forall_mem_append, List.forall_mem_cons] at hall ⊢
    exact ⟨hall.1, ih hall.2.1, hall.2.2⟩
  | operation hname h ih => exact ih hv

theorem keeps_soundOperation : Keeps .operation Operation.ofSound? := by
  intro v v' h op hop
  obtain ⟨_, hguard, hop⟩ := Option.bind_eq_some_iff.1 hop
  have hsound : v.isSound Operation.depthLimit = true := by simpa using hguard
  have hguard' : (guard (v'.isSound Operation.depthLimit = true) : Option Unit) = some () :=
    if_pos (h.isSound hsound)
  rw [Operation.ofSound?, hguard']
  exact keeps_operation v v' h op hop

/-! ## The outer parts -/

theorem keeps_block : Keeps .block Block.ofJson? := by
  intro v v' h
  refine h.extends_record (List.cons_ne_nil _ _) (by decide) fun known known' hchanged => ?_
  refine .bind ?label fun _ => .bind ?ops fun _ => .refl _
  case label => exact (hchanged "label" (by decide)).field? rfl rfl nofun
  case ops =>
    exact (hchanged "ops" (by decide)).fieldOr? rfl (by rintro _ ⟨⟩; rfl)
      (by rintro _ ⟨⟩; exact keeps_list keeps_soundOperation)

theorem keeps_procedure : Keeps .procedure Procedure.ofJson? := by
  intro v v' h
  refine h.extends_record (List.cons_ne_nil _ _) (by decide) fun known known' hchanged => ?_
  refine .bind ?name fun _ => .bind ?signature fun _ => .bind ?linkage fun _ =>
    .bind ?blocks fun _ => .refl _
  case name => exact (hchanged "name" (by decide)).field? rfl rfl nofun
  case signature =>
    exact (hchanged "signature" (by decide)).fieldOr? rfl
      (by rintro _ ⟨⟩; exact Signature.ofJson?_toJson {}) (by rintro _ ⟨⟩; exact keeps_signature)
  case linkage =>
    exact (hchanged "linkage" (by decide)).fieldOr? rfl
      (by rintro _ ⟨⟩; exact Linkage.ofJson?_toJson .external) nofun
  case blocks =>
    exact (hchanged "blocks" (by decide)).fieldOr? rfl (by rintro _ ⟨⟩; rfl)
      (by rintro _ ⟨⟩; exact keeps_list keeps_block)

theorem keeps_program : Keeps .program Program.ofJson? := by
  intro v v' h
  refine h.extends_record (List.cons_ne_nil _ _) (by decide) fun known known' hchanged => ?_
  refine .bind ?name fun _ => .bind ?procedures fun _ => .refl _
  case name => exact (hchanged "name" (by decide)).fieldOr? rfl (by rintro _ ⟨⟩; rfl) nofun
  case procedures =>
    exact (hchanged "procedures" (by decide)).fieldOr? rfl (by rintro _ ⟨⟩; rfl)
      (by rintro _ ⟨⟩; exact keeps_list keeps_procedure)

/-- What one change does not matter to, any number of changes does not matter to. -/
theorem Keeps.of_reflTransGen {decode : Json → Option α} (hkeeps : Keeps part decode)
    (h : Relation.ReflTransGen (Restyled part) v v') : Extends (decode v) (decode v') := by
  induction h with
  | refl => exact .refl _
  | tail _ hstep ih => exact fun a ha => hkeeps _ _ hstep a (ih a ha)

end Part

/-- However the JSON value of a program is restyled, whatever the order of its fields, whichever
defaults are left out and whatever is added, each text of it is loaded as the program. -/
theorem Program.ofText_of_restyled (p : Program) (hcheck : p.check = .ok ()) (v : Json)
    (hv : Relation.ReflTransGen (Part.Restyled .program) p.toJson v) (text : String)
    (htext : Json.Token.Written v.tokens text.toList) : ofText text = .ok p := by
  have hdecode : ofJson? v = some p := Part.keeps_program.of_reflTransGen hv p p.ofJson?_toJson
  have hload : loadJson .program ofJson? text = .ok p := by
    rw [loadJson, Json.read?_of_written htext, Option.bind_some, hdecode]
  rw [ofText, hload]
  change p.checked = .ok p
  rw [checked, hcheck]

/-- A call without operands. -/
def Operation.setup : Operation :=
  .call { callee := .direct "setup", args := [] }

/-- A program that makes this call. -/
def Program.setupOnly : Program where
  procedures :=
    [{ name := "main", blocks := [{ label := "entry", operations := [.setup, .ret] }] }]

/-- The program without its name, with the blocks in front of the other fields of the procedure, and
with the call written in a given way. -/
def Program.setupForm (call : Json) : Json :=
  .record [("procedures", .array [.record [
    ("blocks", .array [.record [
      ("label", .text "entry"), ("ops", .array [call, Operation.ret.toJson])]]),
    ("name", .text "main"), ("signature", Signature.toJson {}),
    ("linkage", Linkage.external.toJson)]])]

/-- The call without its operands. -/
def Operation.shortForm : Json :=
  .record [("op", .text "call"), ("callee", Callee.toJson (.direct "setup"))]

/-- The call without its operands, but with a field for its line. -/
def Operation.lineForm : Json :=
  .record [("op", .text "call"), ("line", .nat 7), ("callee", Callee.toJson (.direct "setup"))]

theorem Program.ofText_of_restyled_setupOnly :
    setupOnly.check = .ok () ∧
      Relation.ReflTransGen (Part.Restyled .program) setupOnly.toJson
        (setupForm Operation.lineForm) ∧
      ofText (setupForm Operation.lineForm).pretty = .ok setupOnly := by
  have hname : Part.Restyled .program setupOnly.toJson
      (.record [("procedures", .array (setupOnly.procedures.map Procedure.toJson))]) :=
    @Part.Restyled.leaveOut _ "name" _ _ [] [_] rfl rfl
  have hblocks : Part.Restyled .program
      (.record [("procedures", .array (setupOnly.procedures.map Procedure.toJson))])
      (setupForm Operation.setup.toJson) :=
    @Part.Restyled.inside .program _ "procedures" _ _ _ [] [] rfl rfl
      (@Part.Restyled.item _ _ _ [] [] (.reorder (@List.perm_append_comm _ [_, _, _] [_])))
  have hcall : ∀ v v', Part.Restyled .operation v v' →
      Part.Restyled .program (setupForm v) (setupForm v') := by
    intro v v' h
    have hops := @Part.Restyled.inside .block _ "ops" _ _ _ [(some "label", .text "entry")] []
      rfl rfl (@Part.Restyled.item _ _ _ [] [Operation.ret.toJson] h)
    have hbody := @Part.Restyled.inside .procedure _ "blocks" _ _ _ []
      [(some "name", .text "main"), (some "signature", Signature.toJson {}),
        (some "linkage", Linkage.external.toJson)]
      rfl rfl (@Part.Restyled.item _ _ _ [] [] hops)
    exact @Part.Restyled.inside .program _ "procedures" _ _ _ [] [] rfl rfl
      (@Part.Restyled.item _ _ _ [] [] hbody)
  have hargs : Part.Restyled (.kind "call") Operation.setup.toJson Operation.shortForm :=
    @Part.Restyled.leaveOut _ "args" _ _ [_, _] [] rfl rfl
  have hline : Part.Restyled (.kind "call") Operation.shortForm Operation.lineForm :=
    @Part.Restyled.add _ "line" _ [_] [_] rfl rfl (.word 7)
  have hv : Relation.ReflTransGen (Part.Restyled .program) setupOnly.toJson
      (setupForm Operation.lineForm) :=
    (((Relation.ReflTransGen.single hname).tail hblocks).tail
      (hcall _ _ (.operation List.mem_cons_self hargs))).tail
      (hcall _ _ (.operation List.mem_cons_self hline))
  have hwords : (setupForm Operation.lineForm).HasWords := by
    have hseven : 7 < UInt64.size := by decide
    simp [setupForm, Operation.lineForm, Json.HasWords, Json.itemsHaveWords_iff, Callee.toJson,
      Operation.toJson, Signature.toJson, ValueType.toJson, Linkage.toJson, hseven]
  exact ⟨rfl, hv, ofText_of_restyled setupOnly rfl _ hv _ (Json.written_pretty hwords)⟩

end LeastPrivilege
