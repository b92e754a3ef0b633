import CloudTemplate.Validation.Structural
/-! The calls in a tree, each before those in its argument and all in the order written. Checking the
references of a tree is judging its calls one after the other, so what holds of the judgement of one call
under other names is lifted to trees by their lists of calls. -/
namespace CloudTemplate

mutual

def Tree.calls : Tree → List (Intrinsic × Tree)
  | .array items => callsOfItems items
  | .object entries => (Intrinsic.detect? (.object entries)).toList ++ callsOfEntries entries
  | _ => []
termination_by structural t => t

def callsOfItems : List Tree → List (Intrinsic × Tree)
  | [] => []
  | t :: rest => t.calls ++ callsOfItems rest
termination_by structural ts => ts

def callsOfEntries : List (String × Tree) → List (Intrinsic × Tree)
  | [] => []
  | (_, t) :: rest => t.calls ++ callsOfEntries rest
termination_by structural es => es

end

namespace Rulebook

variable (spec : Specification) (references : References)

def problemsOfCall (call : Intrinsic × Tree) : List Problem :=
  argumentProblems call.1 call.2 ++ callProblems spec references call.1 call.2

theorem ownProblems_eq (tree : Tree) :
    ownProblems spec references tree = (Intrinsic.detect? tree).toList.flatMap (problemsOfCall spec references) := by
  cases h : Intrinsic.detect? tree with
  | none => simp [ownProblems, h]
  | some call => simp [ownProblems, h, problemsOfCall]

mutual

theorem referenceProblems_eq_flatMap (tree : Tree) :
    referenceProblems spec references tree = tree.calls.flatMap (problemsOfCall spec references) := by
  cases tree with
  | array items => exact referenceProblemsOfItems_eq_flatMap items
  | object entries =>
    rw [referenceProblems, Tree.calls, ownProblems_eq, List.flatMap_append,
      referenceProblemsOfEntries_eq_flatMap entries]
  | _ => rfl

theorem referenceProblemsOfItems_eq_flatMap (items : List Tree) :
    referenceProblemsOfItems spec references items =
      (callsOfItems items).flatMap (problemsOfCall spec references) := by
  cases items with
  | nil => rfl
  | cons t rest =>
    rw [referenceProblemsOfItems, callsOfItems, List.flatMap_append, referenceProblems_eq_flatMap t,
      referenceProblemsOfItems_eq_flatMap rest]

theorem referenceProblemsOfEntries_eq_flatMap (entries : List (String × Tree)) :
    referenceProblemsOfEntries spec references entries =
      (callsOfEntries entries).flatMap (problemsOfCall spec references) := by
  cases entries with
  | nil => rfl
  | cons e rest =>
    obtain ⟨key, t⟩ := e
    rw [referenceProblemsOfEntries, callsOfEntries, List.flatMap_append, referenceProblems_eq_flatMap t,
      referenceProblemsOfEntries_eq_flatMap rest]

end

variable {spec references} in
theorem severity_of_mem_referenceProblems {tree : Tree} {problem : Problem}
    (h : problem ∈ referenceProblems spec references tree) : problem.severity = .error := by
  rw [referenceProblems_eq_flatMap] at h
  obtain ⟨⟨f, argument⟩, -, h⟩ := List.mem_flatMap.1 h
  cases List.mem_append.1 h with
  | inl h =>
    rw [argumentProblems] at h
    split at h
    · rw [List.mem_singleton.1 h]
      rfl
    · contradiction
  | inr h =>
    unfold callProblems attributeProblems at h
    repeat' split at h
    all_goals first | contradiction | (rw [List.mem_singleton.1 h]; rfl)

end Rulebook

end CloudTemplate
