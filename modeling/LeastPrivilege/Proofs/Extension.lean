import LeastPrivilege.Proofs.InPlace
import LeastPrivilege.Proofs.Padding

/-!
# Programs that have been extended

A pass that only puts operations into blocks and declarations at the end extends its program. Here
the operations are listed block by block, in their order, so that each of them can be spoken of.
-/

namespace LeastPrivilege

/-- The second procedure is the first with operations put into its blocks, as listed for each. -/
structure Procedure.ExtendedBy (added : BlockRef → List Operation) (d d' : Procedure) : Prop where
  name_eq : d'.name = d.name
  signature_eq : d'.signature = d.signature
  linkage_eq : d'.linkage = d.linkage
  blocks : List.Forall₂ (fun b b' => b'.label = b.label ∧
    Interleaved b.operations (added ⟨d.name, b.label⟩) b'.operations) d.blocks d'.blocks

/-- The second program is the first with operations put into its blocks, as listed for each, and
with declarations at the end. Nothing is listed for blocks that are not there. -/
structure Program.ExtendedBy (added : BlockRef → List Operation) (declared : List Procedure)
    (p q : Program) : Prop where
  name_eq : q.name = p.name
  procedures : ∃ kept, q.procedures = kept ++ declared ∧
    List.Forall₂ (Procedure.ExtendedBy added) p.procedures kept
  declarations : ∀ e ∈ declared, e.blocks = []
  only_there : ∀ ref, p.block? ref = none → added ref = []

namespace Program

variable {p q : Program} {f : BlockRef → Block → Block} {declared : List Procedure}
  {name : String} {signature : Signature}

/-- What is known of the operations put into each block can be listed under the names of the
blocks. -/
theorem exists_extendedBy (hcheck : p.check = .ok ()) {S : BlockRef → Block → List Operation → Prop}
    (hblocks : ∀ d ∈ p.procedures, ∀ b ∈ d.blocks, (f ⟨d.name, b.label⟩ b).label = b.label ∧
      ∃ added, Interleaved b.operations added (f ⟨d.name, b.label⟩ b).operations ∧
        S ⟨d.name, b.label⟩ b added)
    (hdeclared : ∀ e ∈ declared, e.blocks = []) :
    ∃ added : BlockRef → List Operation,
      p.ExtendedBy added declared ({ p with procedures := p.procedures ++ declared }.mapBlocks f) ∧
      ∀ d ∈ p.procedures, ∀ b ∈ d.blocks, S ⟨d.name, b.label⟩ b (added ⟨d.name, b.label⟩) := by
  have hlisted : ∀ ref, ∃ added : List Operation, (p.block? ref = none → added = []) ∧
      ∀ b, p.block? ref = some b →
        Interleaved b.operations added (f ref b).operations ∧ S ref b added := by
    intro ref
    cases hb : p.block? ref with
    | none => exact ⟨[], by simp⟩
    | some b =>
      obtain ⟨d, hd, hname, hmem, hlabel⟩ := exists_procedure_of_block? hb
      obtain ⟨-, added, hadded⟩ := hblocks d hd b hmem
      rw [hname, hlabel] at hadded
      refine ⟨added, by simp, fun b' hb' => ?_⟩
      rw [← Option.some.inj hb']
      exact hadded
  choose added hnone hadded using hlisted
  have hsame : (declared.map fun e =>
      { e with blocks := e.blocks.map fun b => f ⟨e.name, b.label⟩ b }) = declared := by
    refine (List.map_congr_left fun e he => ?_).trans (List.map_id declared)
    rw [hdeclared e he, List.map_nil, ← hdeclared e he]
    rfl
  refine ⟨added, ⟨rfl, ⟨(p.mapBlocks f).procedures, ?_, ?_⟩, hdeclared, hnone⟩, ?_⟩
  · simp only [mapBlocks, List.map_append, hsame]
  · rw [mapBlocks, List.forall₂_map_right_iff]
    refine List.forall₂_same.2 fun d hd => ⟨rfl, rfl, rfl, ?_⟩
    rw [List.forall₂_map_right_iff]
    refine List.forall₂_same.2 fun b hb => ⟨(hblocks d hd b hb).1, ?_⟩
    exact (hadded _ b (block?_of_mem hcheck hd hb)).1
  · intro d hd b hb
    exact (hadded _ b (block?_of_mem hcheck hd hb)).2

/-- A procedure that may be declared is found afterwards, with the signature asked for. -/
theorem procedure?_declare (h : p.checkSignature name signature = .ok ()) :
    ∃ e, (p.declare name signature).procedure? name = some e ∧ e.signature = signature := by
  rcases p.declare_cases name signature with ⟨⟨d, hd, hname⟩, heq⟩ | ⟨hnew, heq⟩
  · rw [heq]
    cases hfound : p.procedure? name with
    | none => exact absurd hname (procedure?_eq_none.1 hfound d hd)
    | some e =>
      rw [checkSignature, hfound] at h
      refine ⟨e, rfl, ?_⟩
      by_contra hne
      simp [hne] at h
  · refine ⟨.declare name signature, ?_, rfl⟩
    rw [heq, procedure?, List.find?_append, ← procedure?, procedure?_eq_none.2 hnew]
    simp [Procedure.declare]

theorem procedure?_declare_of_some {e : Procedure} {other : String}
    (h : p.procedure? other = some e) (name : String) (signature : Signature) :
    (p.declare name signature).procedure? other = some e := by
  rcases p.declare_cases name signature with ⟨-, heq⟩ | ⟨-, heq⟩
  · rw [heq, h]
  · rw [heq, procedure?, List.find?_append, ← procedure?, h]
    rfl

theorem procedure?_declare_of_ne {other : String} (h : other ≠ name) :
    (p.declare name signature).procedure? other = p.procedure? other := by
  rcases p.declare_cases name signature with ⟨-, heq⟩ | ⟨-, heq⟩
  · rw [heq]
  · rw [heq, procedure?, List.find?_append, ← procedure?]
    simp [Procedure.declare, Ne.symm h]

theorem checkSignature_declare_of_ne {other : String} (h : other ≠ name) (expected : Signature) :
    (p.declare name signature).checkSignature other expected = p.checkSignature other expected := by
  rw [checkSignature, checkSignature, procedure?_declare_of_ne h]

end Program

theorem Program.ExtendedBy.exists_block {added : BlockRef → List Operation}
    {declared : List Procedure} {p q : Program} (h : p.ExtendedBy added declared q) {ref : BlockRef}
    {op : Operation} (hop : op ∈ added ref) :
    ∃ d ∈ p.procedures, ∃ b ∈ d.blocks, ref = ⟨d.name, b.label⟩ := by
  cases hb : p.block? ref with
  | none =>
    rw [h.only_there ref hb] at hop
    cases hop
  | some b =>
    obtain ⟨d, hd, hname, hmem, hlabel⟩ := Program.exists_procedure_of_block? hb
    exact ⟨d, hd, b, hmem, by rw [hname, hlabel]⟩

end LeastPrivilege
