import LeastPrivilege.Proofs.GraphShape

/-!
# How a call graph grows

What a graph holds depends on which steps were taken. Their order and number only show in the calls
of a node, each of which stands where it was first added.
-/

namespace LeastPrivilege.CallGraph

/-- Putting calls behind each other one by one keeps the first of equal calls. -/
theorem foldl_pushEdge (es : List CallEdge) : es.foldl pushEdge [] = es.eraseDups := by
  induction es using List.reverseRecOn with
  | nil => rfl
  | append_singleton es e ih =>
    rw [List.foldl_append, ih, List.eraseDups_append, List.cons_removeAll, List.foldl_cons,
      List.foldl_nil, pushEdge]
    by_cases he : e ∈ es <;> simp [he, List.eraseDups_cons]

/-- Every graph that steps build is regular. The calls of a node are those that the steps add to it,
in the order in which they were first added. Two sequences of the same steps, in whatever order and
however often, build the same nodes and the same calls of each. -/
theorem build_is_regular (steps : List Step) :
    (build steps).Regular ∧
    (∀ n, (build steps).callees n = (steps.filterMap (Step.edgeFrom? n)).eraseDups) ∧
    ∀ steps', (∀ s, s ∈ steps ↔ s ∈ steps') →
      (build steps).nodes = (build steps').nodes ∧
        ∀ n, ((build steps).callees n).Perm ((build steps').callees n) := by
  refine ⟨regular_build steps, fun n => ?_, fun steps' hsame => ⟨?_, fun n => ?_⟩⟩
  · rw [callees_build, foldl_pushEdge]
  · refine nodes_eq_of_mem_iff fun n => ?_
    simp only [mem_nodes_build, hsame]
  · refine (List.perm_ext_iff_of_nodup ((regular_build steps).nodup_callees n)
      ((regular_build steps').nodup_callees n)).2 fun e => ?_
    simp only [mem_callees_build, hsame]

/-- The second sequence takes the steps of the first in another order, and one of them twice. -/
theorem build_is_regular_reordered :
    (∀ s, s ∈ [Step.escape "g", .call "f" "g", .indirect "f" 4] ↔
      s ∈ [Step.indirect "f" 4, .call "f" "g", .escape "g", .call "f" "g"]) ∧
    (build [.escape "g", .call "f" "g", .indirect "f" 4]).nodes =
      (build [.indirect "f" 4, .call "f" "g", .escape "g", .call "f" "g"]).nodes ∧
    (build [.escape "g", .call "f" "g", .indirect "f" 4]).callees (.procedure "f") =
      [{ callee := .procedure "g" }, { callee := .unknownCallees, site := some 4 }] ∧
    (build [.indirect "f" 4, .call "f" "g", .escape "g", .call "f" "g"]).callees (.procedure "f") =
      [{ callee := .unknownCallees, site := some 4 }, { callee := .procedure "g" }] := by
  have hsame : ∀ s, s ∈ [Step.escape "g", .call "f" "g", .indirect "f" 4] ↔
      s ∈ [Step.indirect "f" 4, .call "f" "g", .escape "g", .call "f" "g"] := by
    intro s
    simp only [List.mem_cons, List.not_mem_nil, or_false]
    tauto
  obtain ⟨-, hcallees, hdepends⟩ := build_is_regular [.escape "g", .call "f" "g", .indirect "f" 4]
  obtain ⟨-, hcallees', -⟩ :=
    build_is_regular [.indirect "f" 4, .call "f" "g", .escape "g", .call "f" "g"]
  exact ⟨hsame, (hdepends _ hsame).1, (hcallees _).trans (by decide),
    (hcallees' _).trans (by decide)⟩

end LeastPrivilege.CallGraph
