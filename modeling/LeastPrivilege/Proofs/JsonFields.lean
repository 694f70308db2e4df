import LeastPrivilege.Json.Decode
import Mathlib.Data.List.Nodup
import Mathlib.Data.Option.Basic

/-!
# Objects by the names of their fields

A record is read off an object by name: of the fields that are known each stands at most once, and
all others are ignored. What is read therefore depends only on what stands under the known names.
-/

namespace LeastPrivilege.Json

variable {fields fields' : List (Option String × Json)} {known named : List (String × Json)}
  {names : List String} {name : String} {v : Json}

/-! ## What stands under a name -/

/-- What stands under a name in an object, for each time that the name is used. -/
def under (fields : List (Option String × Json)) (name : String) : List Json :=
  (fields.filter fun field => field.1 == some name).map Prod.snd

theorem under_append (fields fields' : List (Option String × Json)) (name : String) :
    under (fields ++ fields') name = under fields name ++ under fields' name := by
  simp [under]

theorem under_cons_self (name : String) (v : Json) (fields : List (Option String × Json)) :
    under ((some name, v) :: fields) name = v :: under fields name := by
  simp [under]

theorem under_cons_of_ne {other : String} (h : other ≠ name) (v : Json)
    (fields : List (Option String × Json)) :
    under ((some other, v) :: fields) name = under fields name := by
  simp [under, h]

theorem perm_under (h : fields.Perm fields') (name : String) :
    (under fields name).Perm (under fields' name) :=
  (h.filter _).map _

/-- Where a name stands at most once, the order of the fields does not matter. -/
theorem under_eq_of_perm (h : fields.Perm fields') {v? : Option Json}
    (hv : under fields name = v?.toList) : under fields' name = v?.toList := by
  have hperm := perm_under h name
  rw [hv] at hperm
  cases v? with
  | none => exact hperm.nil_eq.symm
  | some v => exact hperm.singleton_eq.symm

/-! ## Reading a record -/

/-- Every name in an object spells a text. -/
def HasNames (fields : List (Option String × Json)) : Prop :=
  ∀ field ∈ fields, field.1.isSome = true

@[simp] theorem hasNames_append :
    HasNames (fields ++ fields') ↔ HasNames fields ∧ HasNames fields' :=
  List.forall_mem_append

@[simp] theorem hasNames_cons_some :
    HasNames ((some name, v) :: fields) ↔ HasNames fields := by
  simp [HasNames]

theorem hasNames_iff :
    HasNames fields ↔
      ∃ named : List (String × Json), fields = named.map fun field => (some field.1, field.2) := by
  constructor
  · intro h
    induction fields with
    | nil => exact ⟨[], rfl⟩
    | cons field fields ih =>
      obtain ⟨hfield, hfields⟩ := List.forall_mem_cons.1 h
      obtain ⟨name, hname⟩ := Option.isSome_iff_exists.1 hfield
      obtain ⟨named, rfl⟩ := ih hfields
      exact ⟨(name, field.2) :: named, by rw [List.map_cons, ← hname]⟩
  · rintro ⟨named, rfl⟩ field hfield
    obtain ⟨_, _, rfl⟩ := List.mem_map.1 hfield
    rfl

/-- A field with one of the known names. -/
def known? (names : List String) (field : Option String × Json) : Option (String × Json) :=
  field.1.bind fun name => if names.contains name then some (name, field.2) else none

theorem mem_of_known? {field : Option String × Json} {found : String × Json}
    (h : known? names field = some found) : found.1 ∈ names := by
  obtain ⟨name, _, hname⟩ := Option.bind_eq_some_iff.1 h
  split at hname
  · cases hname
    simpa using ‹names.contains name = true›
  · cases hname

theorem filterMap_known?_map (names : List String) (named : List (String × Json)) :
    (named.map fun field => (some field.1, field.2)).filterMap (known? names) =
      named.filter fun field => names.contains field.1 := by
  rw [List.filterMap_map, ← List.filterMap_eq_filter]
  rfl

theorem mapM_name_eq_some_iff :
    (fields.mapM fun field => field.1.map fun name => (name, field.2)) = some named ↔
      fields = named.map fun field => (some field.1, field.2) := by
  induction fields generalizing named with
  | nil => cases named <;> simp
  | cons field fields ih =>
    obtain ⟨name?, v⟩ := field
    rw [List.mapM_cons]
    cases name? with
    | none => cases named <;> simp
    | some name =>
      simp only [Option.map_some, Option.bind_eq_bind, Option.bind_some, Option.bind_eq_some_iff,
        ih, Option.pure_def, Option.some.injEq]
      cases named with
      | nil => simp
      | cons field' named => simp [Prod.ext_iff, and_assoc, and_comm]

/-- A record can be read off an object just when the names of the object spell texts and no known
name is repeated. -/
theorem toFields?_object_eq_some_iff :
    toFields? names (.object fields) = some known ↔
      HasNames fields ∧ fields.filterMap (known? names) = known ∧
        (known.map Prod.fst).Nodup := by
  simp only [toFields?, Option.bind_eq_bind, Option.bind_eq_some_iff, mapM_name_eq_some_iff,
    Option.guard_eq_some', Option.pure_def, Option.some.injEq]
  constructor
  · rintro ⟨named, rfl, _, hnodup, rfl⟩
    exact ⟨hasNames_iff.2 ⟨named, rfl⟩, filterMap_known?_map names named, hnodup⟩
  · rintro ⟨hnames, rfl, hnodup⟩
    obtain ⟨named, rfl⟩ := hasNames_iff.1 hnames
    rw [filterMap_known?_map] at hnodup ⊢
    exact ⟨named, rfl, (), hnodup, rfl⟩

/-- A field that is not known may as well be taken off. -/
theorem toFields?_filter_ne (h : name ∉ names) (fields : List (Option String × Json)) :
    toFields? names (.object (fields.filter fun field => field.1 != some name)) =
      toFields? names (.object fields) := by
  have hnames : HasNames (fields.filter fun field => field.1 != some name) ↔ HasNames fields := by
    refine ⟨fun hfields field hfield => ?_, fun hfields field hfield =>
      hfields field (List.mem_of_mem_filter hfield)⟩
    by_cases hname : field.1 = some name
    · rw [hname]
      rfl
    · exact hfields field (List.mem_filter.2 ⟨hfield, by simpa using hname⟩)
  have hknown : (fields.filter fun field => field.1 != some name).filterMap (known? names) =
      fields.filterMap (known? names) := by
    rw [List.filterMap_filter]
    refine List.filterMap_congr fun field _ => ?_
    by_cases hname : field.1 = some name <;> simp [known?, hname, h]
  refine Option.ext fun known => ?_
  rw [toFields?_object_eq_some_iff, toFields?_object_eq_some_iff, hnames, hknown]

theorem toVariant?_eq_some_iff {body : Json} :
    v.toVariant? = some (name, body) ↔ v = .object [(some name, body)] := by
  constructor
  · intro h
    rw [toVariant?.eq_def] at h
    split at h
    · cases h
      rfl
    · cases h
  · rintro rfl
    rfl

/-! ## The known fields -/

/-- Where no two fields share a name, those with a given name are the one that is looked up. -/
theorem map_filter_eq_toList_lookup (h : (named.map Prod.fst).Nodup) (name : String) :
    (named.filter fun field => field.1 == name).map Prod.snd = (named.lookup name).toList := by
  induction named with
  | nil => rfl
  | cons field named ih =>
    obtain ⟨name', v⟩ := field
    obtain ⟨hnew, hnodup⟩ := List.nodup_cons.1 h
    by_cases hname : name' = name
    · subst hname
      have hnone : named.filter (fun field => field.1 == name') = [] := by
        rw [List.filter_eq_nil_iff]
        intro field hfield heq
        exact hnew (List.mem_map.2 ⟨field, hfield, by simpa using heq⟩)
      simp [hnone]
    · have hne : (name == name') = false := beq_false_of_ne (Ne.symm hname)
      simp [List.lookup_cons, hname, hne, ih hnodup]

theorem under_eq_map_filter (hnames : HasNames fields) (hname : name ∈ names) :
    under fields name =
      ((fields.filterMap (known? names)).filter fun field => field.1 == name).map Prod.snd := by
  obtain ⟨named, rfl⟩ := hasNames_iff.1 hnames
  have hfilter : (named.filter fun field => names.contains field.1).filter
      (fun field => field.1 == name) = named.filter fun field => field.1 == name := by
    rw [List.filter_filter]
    refine List.filter_congr fun field _ => ?_
    by_cases heq : field.1 = name <;> simp [heq, hname]
  rw [filterMap_known?_map, hfilter]
  simp [under, List.filter_map, Function.comp_def]

/-- A known field is what stands under its name. -/
theorem under_eq_toList_lookup (h : toFields? names (.object fields) = some known)
    (hname : name ∈ names) : under fields name = (known.lookup name).toList := by
  obtain ⟨hnames, rfl, hnodup⟩ := toFields?_object_eq_some_iff.1 h
  rw [under_eq_map_filter hnames hname, map_filter_eq_toList_lookup hnodup]

/-- No known name is repeated if under each stands one value at most. -/
theorem nodup_known (hnames : HasNames fields)
    (h : ∀ name ∈ names, ∃ v? : Option Json, under fields name = v?.toList) :
    ((fields.filterMap (known? names)).map Prod.fst).Nodup := by
  rw [List.nodup_iff_count_le_one]
  intro name
  by_cases hname : name ∈ names
  · obtain ⟨v?, hv⟩ := h name hname
    rw [under_eq_map_filter hnames hname] at hv
    have hlength := congrArg List.length hv
    rw [List.length_map, ← List.countP_eq_length_filter] at hlength
    rw [List.count, List.countP_map]
    calc _ = _ := hlength
      _ ≤ 1 := by cases v? <;> simp
  · rw [List.count_eq_zero_of_not_mem]
    · exact Nat.zero_le 1
    · intro hmem
      obtain ⟨field, hfield, rfl⟩ := List.mem_map.1 hmem
      obtain ⟨field', _, hknown⟩ := List.mem_filterMap.1 hfield
      exact hname (mem_of_known? hknown)

/-- If under each known name something else stands than before, but no more than one value, then a
record can still be read, and its fields have changed in the same way. -/
theorem exists_toFields?_of_forall {Changed : String → Option Json → Option Json → Prop}
    (h : toFields? names (.object fields) = some known)
    (hnames : HasNames fields → HasNames fields')
    (hchanged : ∀ name ∈ names, ∀ v? : Option Json, under fields name = v?.toList →
      ∃ w? : Option Json, under fields' name = w?.toList ∧ Changed name v? w?) :
    ∃ known', toFields? names (.object fields') = some known' ∧
      ∀ name ∈ names, Changed name (known.lookup name) (known'.lookup name) := by
  have hnames' := hnames (toFields?_object_eq_some_iff.1 h).1
  have hchanged' : ∀ name ∈ names, ∃ w? : Option Json,
      under fields' name = w?.toList ∧ Changed name (known.lookup name) w? :=
    fun name hname => hchanged name hname _ (under_eq_toList_lookup h hname)
  have hnodup := nodup_known hnames' fun name hname => by
    obtain ⟨w?, hw, _⟩ := hchanged' name hname
    exact ⟨w?, hw⟩
  have h' := toFields?_object_eq_some_iff.2 ⟨hnames', rfl, hnodup⟩
  refine ⟨_, h', fun name hname => ?_⟩
  obtain ⟨w?, hw, hchange⟩ := hchanged' name hname
  have hlookup := congrArg List.head? ((under_eq_toList_lookup h' hname).symm.trans hw)
  rw [Option.head?_toList, Option.head?_toList] at hlookup
  rwa [hlookup]

end LeastPrivilege.Json
