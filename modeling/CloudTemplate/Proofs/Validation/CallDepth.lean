import CloudTemplate.Proofs.Validation.Deferral
import Mathlib.Data.List.Chain
import Mathlib.Logic.Function.Iterate
/-! The calls that are active while a resource is judged. A machine runs them on a stack: a call says what it has to say
itself and then makes its calls one after the other, each before the next. Property types may refer to each other in any
way: an object that is looked into is always part of a value, so the stack is no deeper than objects stand inside one
another, and the machine comes to an end. -/
namespace CloudTemplate

mutual

def Tree.objectDepth : Tree → Nat
  | .array items => objectDepthOfItems items
  | .object entries => objectDepthOfEntries entries + 1
  | _ => 0
termination_by structural t => t

def objectDepthOfItems : List Tree → Nat
  | [] => 0
  | t :: rest => max t.objectDepth (objectDepthOfItems rest)
termination_by structural ts => ts

def objectDepthOfEntries : List (String × Tree) → Nat
  | [] => 0
  | (_, t) :: rest => max t.objectDepth (objectDepthOfEntries rest)
termination_by structural es => es

end

theorem objectDepth_le_of_mem {items : List Tree} {item : Tree} (h : item ∈ items) :
    item.objectDepth ≤ objectDepthOfItems items := by
  induction items with
  | nil => contradiction
  | cons t rest ih =>
    rw [objectDepthOfItems]
    obtain rfl | h := List.mem_cons.1 h
    · exact Nat.le_max_left _ _
    · exact Nat.le_trans (ih h) (Nat.le_max_right _ _)

theorem objectDepth_le_of_get? {entries : Entries Tree} {name : String} {value : Tree}
    (h : entries.get? name = some value) : value.objectDepth ≤ objectDepthOfEntries entries := by
  induction entries with
  | nil => contradiction
  | cons e rest ih =>
    obtain ⟨key, t⟩ := e
    rw [Entries.get?_cons] at h
    rw [objectDepthOfEntries]
    split at h
    · cases h
      exact Nat.le_max_left _ _
    · exact Nat.le_trans (ih h) (Nat.le_max_right _ _)

namespace Rulebook

inductive Call where
  | ofResource (dead : DeadEntries) (name : String) (resource : Resource)
  | ofProperty (scope : Scope) (name : String) (property : Property) (value : Option Tree)
  | ofValue (resourceType name : String) (shape : PropertyShape) (value : Tree)
  | nested (resourceType typeName parent : String) (type : PropertyType) (entries : Entries Tree)

def nestedCall? (resourceType typeName parent : String) (type : PropertyType) : Tree → Option Call
  | .object entries =>
    if Intrinsic.isCall (.object entries) then none else some (.nested resourceType typeName parent type entries)
  | _ => none

def nestedCalls (book : Rulebook) (resourceType typeName parent : String) (values : List Tree) : List Call :=
  match book.spec.propertyType? resourceType typeName with
  | none => []
  | some type => values.filterMap (nestedCall? resourceType typeName parent type)

namespace Call

def isNested : Call → Bool
  | .nested .. => true
  | _ => false

def objectDepth : Call → Nat
  | .ofResource _ _ resource => objectDepthOfEntries resource.properties
  | .ofProperty _ _ _ value => value.elim 0 Tree.objectDepth
  | .ofValue _ _ _ value => value.objectDepth
  | .nested _ _ _ _ entries => objectDepthOfEntries entries + 1

def problems (book : Rulebook) : Call → List Problem
  | .ofResource dead name resource => book.propertyProblems dead name resource
  | .ofProperty scope name property value =>
    book.disputes scope name property ++ Violations.presenceProblems book scope name property value
  | .ofValue resourceType name shape value => book.valueProblems resourceType name shape value
  | .nested resourceType typeName parent type entries =>
    book.nestedProblems (.inside resourceType typeName parent) type.properties entries

def own (book : Rulebook) : Call → List Problem
  | .ofResource _ _ resource => if (book.spec.resourceType? resource.resourceType).isSome then [] else [.unknownType]
  | .ofProperty scope name property none => book.disputes scope name property ++ absence scope name property
  | .ofProperty scope name property (some _) => book.disputes scope name property
  | .ofValue _ name shape value =>
    if value.isNull || Intrinsic.isCall value then []
    else
      match shape, value with
      | .map, .object _ => []
      | .map, _ => [.notMap name]
      | .list none, value => if isScalarList value then [] else [.notList name]
      | .list (some _), .array _ => []
      | .list (some _), _ => [.notList name]
      | _, _ => []
  | .nested .. => []

/-- The calls that a call makes, in order. Property types are looked up by their names, whatever types have led there. -/
def calls (book : Rulebook) : Call → List Call
  | .ofResource dead name resource =>
    match book.spec.resourceType? resource.resourceType with
    | none => []
    | some type => (live dead name type.properties).map fun e =>
        .ofProperty (.ofResource resource.resourceType) e.1 e.2 (resource.properties.get? e.1)
  | .ofProperty _ _ _ none => []
  | .ofProperty scope name property (some value) => [.ofValue scope.resourceType name property.shape value]
  | .ofValue resourceType name shape value =>
    match shape, value with
    | .list (some item), .array items => nestedCalls book resourceType item name items
    | .structured typeName, value => nestedCalls book resourceType typeName name [value]
    | _, _ => []
  | .nested resourceType typeName parent type entries =>
    type.properties.map fun e => .ofProperty (.inside resourceType typeName parent) e.1 e.2 (entries.get? e.1)

def level : Call → Nat
  | .ofResource .. => 3
  | .ofProperty .. => 2
  | .ofValue .. => 1
  | .nested .. => 0

variable {book : Rulebook} {call inner : Call}

/-- The calls for values are each for one of them, and look into an object. -/
theorem nested_of_mem_nestedCalls {resourceType typeName parent : String} {values : List Tree}
    (h : inner ∈ nestedCalls book resourceType typeName parent values) :
    inner.isNested = true ∧ inner.level = 0 ∧ ∃ value ∈ values, inner.objectDepth = value.objectDepth := by
  rw [nestedCalls] at h
  split at h
  · contradiction
  · obtain ⟨value, hvalue, hcall⟩ := List.mem_filterMap.1 h
    cases value with
    | object entries =>
      rw [nestedCall?] at hcall
      split at hcall
      · contradiction
      · cases hcall
        exact ⟨rfl, rfl, .object entries, hvalue, rfl⟩
    | _ => contradiction

theorem objectDepth_ofProperty_le (scope : Scope) (name : String) (property : Property) (entries : Entries Tree) :
    (Call.ofProperty scope name property (entries.get? name)).objectDepth ≤ objectDepthOfEntries entries := by
  rw [objectDepth]
  cases hget : entries.get? name with
  | none => exact Nat.zero_le _
  | some value => exact objectDepth_le_of_get? hget

/-- A call inside another one is for no more of the value, and where the entries of an object are under judgement it is
for what stands in the object. -/
theorem objectDepth_of_mem_calls (h : inner ∈ call.calls book) :
    inner.objectDepth + call.isNested.toNat ≤ call.objectDepth ∧ (call.isNested = false → inner.level < call.level) := by
  cases call with
  | ofResource dead name resource =>
    rw [calls] at h
    split at h
    · contradiction
    · obtain ⟨e, -, rfl⟩ := List.mem_map.1 h
      exact ⟨objectDepth_ofProperty_le (.ofResource resource.resourceType) e.1 e.2 resource.properties,
        fun _ => Nat.lt_add_one 2⟩
  | ofProperty scope name property value =>
    cases value with
    | none => contradiction
    | some value =>
      obtain rfl := List.mem_singleton.1 h
      exact ⟨Nat.le_refl _, fun _ => Nat.lt_add_one 1⟩
  | ofValue resourceType name shape value =>
    rw [calls.eq_def] at h
    dsimp only at h
    split at h
    · obtain ⟨-, hlevel, item, hitem, hdepth⟩ := nested_of_mem_nestedCalls h
      refine ⟨?_, fun _ => hlevel ▸ Nat.zero_lt_one⟩
      rw [hdepth, objectDepth, Tree.objectDepth]
      exact objectDepth_le_of_mem hitem
    · obtain ⟨-, hlevel, item, hitem, hdepth⟩ := nested_of_mem_nestedCalls h
      obtain rfl := List.mem_singleton.1 hitem
      exact ⟨Nat.le_of_eq hdepth, fun _ => hlevel ▸ Nat.zero_lt_one⟩
    · contradiction
  | nested resourceType typeName parent type entries =>
    obtain ⟨e, -, rfl⟩ := List.mem_map.1 h
    have hdepth := objectDepth_ofProperty_le (.inside resourceType typeName parent) e.1 e.2 entries
    exact ⟨Nat.succ_le_succ hdepth, fun hnested => by contradiction⟩

theorem problems_nestedCalls (resourceType typeName parent : String) (values : List Tree) :
    (nestedCalls book resourceType typeName parent values).flatMap (problems book) =
      values.flatMap (book.valueProblems resourceType parent (.structured typeName)) := by
  rw [nestedCalls]
  cases htype : book.spec.propertyType? resourceType typeName with
  | none =>
    have hvalue (value : Tree) : book.valueProblems resourceType parent (.structured typeName) value = [] := by
      cases value <;> simp [valueProblems, htype]
    simp [hvalue]
  | some type =>
    dsimp only
    rw [List.filterMap_eq_flatMap_toList, List.flatMap_assoc]
    refine List.flatMap_congr fun value _ => ?_
    cases value with
    | object entries =>
      rw [nestedCall?]
      split
      · rename_i hcall
        rw [book.valueProblems_of_isCall hcall]
        rfl
      · rename_i hcall
        rw [book.valueProblems_object (Bool.eq_false_iff.2 hcall)]
        simp [htype, problems]
    | _ => simp [nestedCall?, valueProblems]

theorem problems_ofValue (resourceType name : String) (shape : PropertyShape) (value : Tree) :
    problems book (.ofValue resourceType name shape value) = own book (.ofValue resourceType name shape value) ++
      (calls book (.ofValue resourceType name shape value)).flatMap (problems book) := by
  cases shape with
  | primitive => simp [problems, own, calls, valueProblems]
  | map => cases value <;> simp [problems, own, calls, valueProblems]
  | list item =>
    cases item with
    | none => cases value <;> simp [problems, own, calls, valueProblems]
    | some item =>
      cases value with
      | array items =>
        rw [problems, book.valueProblems_array, calls, problems_nestedCalls]
        simp [own]
      | _ => simp [problems, own, calls, valueProblems]
  | structured typeName =>
    rw [calls, problems_nestedCalls, List.flatMap_singleton]
    simp [problems, own]

/-- A call reports what it has to say itself, and then what the calls that it makes report. -/
theorem problems_eq (call : Call) :
    call.problems book = call.own book ++ (call.calls book).flatMap (problems book) := by
  cases call with
  | ofResource dead name resource =>
    rw [problems, propertyProblems, own, calls]
    cases book.spec.resourceType? resource.resourceType with
    | none => rfl
    | some type =>
      dsimp only
      rw [Violations.nestedProblems_eq, List.flatMap_map]
      rfl
  | ofProperty scope name property value =>
    cases value with
    | none => simp [problems, own, calls, Violations.presenceProblems]
    | some value => simp [problems, own, calls, Violations.presenceProblems]
  | ofValue resourceType name shape value => exact problems_ofValue resourceType name shape value
  | nested resourceType typeName parent type entries =>
    rw [problems, own, calls, Violations.nestedProblems_eq, List.flatMap_map]
    rfl

/-- Induction along the calls that a call makes: they are for less of the value, or are a step nearer to it. -/
theorem inductionOn (book : Rulebook) {motive : Call → Prop} (call : Call)
    (step : ∀ call, (∀ inner ∈ call.calls book, motive inner) → motive call) : motive call := by
  induction hmeasure : 4 * call.objectDepth + call.level using Nat.strongRecOn generalizing call with
  | ind n ih =>
    refine step call fun inner hinner => ih _ ?_ inner rfl
    obtain ⟨hdepth, hlevel⟩ := objectDepth_of_mem_calls hinner
    have hbound : inner.level ≤ 3 := by cases inner <;> simp [level]
    cases hnested : call.isNested with
    | true =>
      rw [hnested, Bool.toNat_true] at hdepth
      omega
    | false =>
      have hlevel := hlevel hnested
      rw [hnested, Bool.toNat_false] at hdepth
      omega

end Call

structure Active where
  call : Call
  pending : List Call

structure Judging where
  stack : List Active
  reported : List Problem

variable (book : Rulebook)

def enter (call : Call) : Active := ⟨call, call.calls book⟩

def begin (call : Call) : Judging := ⟨[book.enter call], call.own book⟩

/-- The innermost call makes its next call, or returns if it has made them all. -/
def advance : Judging → Judging
  | ⟨[], reported⟩ => ⟨[], reported⟩
  | ⟨⟨_, []⟩ :: stack, reported⟩ => ⟨stack, reported⟩
  | ⟨⟨call, next :: pending⟩ :: stack, reported⟩ =>
    ⟨book.enter next :: ⟨call, pending⟩ :: stack, reported ++ next.own book⟩

def Reaches (state other : Judging) : Prop := ∃ steps, book.advance^[steps] state = other

variable {book}

theorem Reaches.head {state other : Judging} (h : book.Reaches (book.advance state) other) :
    book.Reaches state other := by
  obtain ⟨steps, h⟩ := h
  exact ⟨steps + 1, by rw [Function.iterate_succ_apply, h]⟩

theorem Reaches.trans {state next other : Judging} (h : book.Reaches state next) (hnext : book.Reaches next other) :
    book.Reaches state other := by
  obtain ⟨steps, rfl⟩ := h
  obtain ⟨more, rfl⟩ := hnext
  exact ⟨more + steps, Function.iterate_add_apply _ _ _ _⟩

/-- Calls that return one by one have reported all that they report when the last one has returned. -/
theorem reaches_of_pending (call : Call) {pending : List Call} (stack : List Active) (reported : List Problem)
    (h : ∀ inner ∈ pending, ∀ stack reported, book.Reaches ⟨book.enter inner :: stack, reported ++ inner.own book⟩
      ⟨stack, reported ++ inner.problems book⟩) :
    book.Reaches ⟨⟨call, pending⟩ :: stack, reported⟩ ⟨stack, reported ++ pending.flatMap (Call.problems book)⟩ := by
  induction pending generalizing reported with
  | nil => exact ⟨1, by simp [advance]⟩
  | cons next pending ih =>
    obtain ⟨hnext, hpending⟩ := List.forall_mem_cons.1 h
    have hreturn := hnext (⟨call, pending⟩ :: stack) reported
    have hrest := ih (reported ++ next.problems book) hpending
    rw [List.append_assoc, ← List.flatMap_cons] at hrest
    exact (hreturn.trans hrest).head

/-- Every call returns, and what it has reported then are its problems. -/
theorem reaches_return (call : Call) (stack : List Active) (reported : List Problem) :
    book.Reaches ⟨book.enter call :: stack, reported ++ call.own book⟩ ⟨stack, reported ++ call.problems book⟩ := by
  induction call using Call.inductionOn book generalizing stack reported with
  | step call ih =>
    rw [call.problems_eq, ← List.append_assoc]
    exact reaches_of_pending call stack _ ih

structure Linked (book : Rulebook) (stack : List Active) : Prop where
  chain : (stack.map Active.call).IsChain fun inner outer => inner ∈ outer.calls book
  pending : ∀ active ∈ stack, active.pending ⊆ active.call.calls book

theorem Linked.advance {state : Judging} (h : Linked book state.stack) : Linked book (book.advance state).stack := by
  obtain ⟨stack, reported⟩ := state
  obtain ⟨hchain, hpending⟩ := h
  cases stack with
  | nil => exact ⟨hchain, hpending⟩
  | cons active stack =>
    obtain ⟨call, pending⟩ := active
    cases pending with
    | nil => exact ⟨hchain.tail, fun active hactive => hpending active (List.mem_cons_of_mem _ hactive)⟩
    | cons next pending =>
      obtain ⟨hcall, hstack⟩ := List.forall_mem_cons.1 hpending
      obtain ⟨hnext, hrest⟩ := List.cons_subset.1 hcall
      refine ⟨List.isChain_cons_cons.2 ⟨hnext, hchain⟩, ?_⟩
      exact List.forall_mem_cons.2 ⟨List.Subset.refl _, List.forall_mem_cons.2 ⟨hrest, hstack⟩⟩

theorem linked_iterate (call : Call) (steps : Nat) : Linked book (book.advance^[steps] (book.begin call)).stack := by
  induction steps with
  | zero => exact ⟨List.isChain_singleton _, List.forall_mem_singleton.2 (List.Subset.refl _)⟩
  | succ steps ih =>
    rw [Function.iterate_succ_apply']
    exact ih.advance

theorem Call.isNested_le_objectDepth (call : Call) : call.isNested.toNat ≤ call.objectDepth := by
  cases call with
  | nested => exact Nat.succ_le_succ (Nat.zero_le _)
  | _ => exact Nat.zero_le _

theorem countP_isNested_cons (call : Call) (calls : List Call) :
    (call :: calls).countP Call.isNested = calls.countP Call.isNested + call.isNested.toNat := by
  rw [List.countP_cons]
  cases call.isNested <;> rfl

/-- Down a chain of calls, each that looks into an object takes one off the depth that is left. -/
theorem objectDepth_of_isChain {inner outer : Call} {between : List Call}
    (h : (inner :: (between ++ [outer])).IsChain fun inner outer => inner ∈ outer.calls book) :
    inner.objectDepth + (between ++ [outer]).countP Call.isNested ≤ outer.objectDepth := by
  induction between generalizing inner with
  | nil =>
    obtain ⟨hcall, -⟩ := List.isChain_cons_cons.1 h
    rw [List.nil_append, countP_isNested_cons, List.countP_nil, Nat.zero_add]
    exact (Call.objectDepth_of_mem_calls hcall).1
  | cons next between ih =>
    obtain ⟨hcall, hchain⟩ := List.isChain_cons_cons.1 h
    have hdepth := (Call.objectDepth_of_mem_calls hcall).1
    have hrest := ih hchain
    rw [List.cons_append, countP_isNested_cons]
    omega

theorem Linked.countP_le {above below : List Active} {active : Active} (h : Linked book (above ++ active :: below)) :
    (above ++ [active]).countP (fun a => a.call.isNested) ≤ active.call.objectDepth := by
  have hchain := h.chain
  rw [List.append_cons, List.map_append] at hchain
  have hchain := hchain.left_of_append
  have hcalls : (above ++ [active]).countP (fun a => a.call.isNested) =
      ((above ++ [active]).map Active.call).countP Call.isNested := by
    rw [List.countP_map]
    rfl
  rw [hcalls]
  cases above with
  | nil =>
    rw [List.nil_append, List.map_singleton, countP_isNested_cons, List.countP_nil, Nat.zero_add]
    exact active.call.isNested_le_objectDepth
  | cons first above =>
    rw [List.map_append, List.map_cons, List.cons_append, List.map_singleton] at hchain ⊢
    have hdepth := objectDepth_of_isChain hchain
    have hfirst := first.call.isNested_le_objectDepth
    rw [countP_isNested_cons]
    omega

/-- Judging comes to an end, however property types refer to each other. Of the calls that are active inside another one at
any time, no more look into objects than objects stand inside one another in what that one is for. -/
theorem judging_ends (book : Rulebook) :
    (∀ call : Call, ∃ steps, book.advance^[steps] (book.begin call) = ⟨[], call.problems book⟩) ∧
    (∀ (call : Call) (steps : Nat) (above : List Active) (active : Active) (below : List Active),
      (book.advance^[steps] (book.begin call)).stack = above ++ active :: below →
      (above ++ [active]).countP (fun a => a.call.isNested) ≤ active.call.objectDepth) ∧
    ∀ (dead : DeadEntries) (references : References) (name : String) (resource : Resource),
      book.resourceProblems dead references name resource =
        (Call.ofResource dead name resource).problems book ++ book.resourceCallProblems dead references name resource := by
  refine ⟨fun call => ?_, fun call steps above active below hstack => ?_, fun dead references name resource => ?_⟩
  · exact reaches_return call [] []
  · exact Linked.countP_le (hstack ▸ linked_iterate call steps)
  · exact book.resourceProblems_eq_append dead name references resource

def chainBook : Rulebook where
  spec := ⟨"1", [("Tree.Node", ⟨none, [("Next", { Property.blank with shape := .structured "Node" })]⟩)],
    [("Tree", ⟨none, [], [("Root", { Property.blank with shape := .structured "Node" })]⟩)]⟩
  disagreements := []

def chain : Resource :=
  { Resource.blank with resourceType := "Tree", properties := [("Root", .object [("Next", .object [])])] }

/-- A type may refer to itself: two nodes make two calls active inside the one for their property, and then judging ends. -/
theorem judging_ends_chain :
    let run := chainBook.advance^[6] (chainBook.begin (.ofResource .none "T" chain))
    run.stack = run.stack.take 5 ++ run.stack[5] :: run.stack.drop 6 ∧
      (run.stack[5].call.objectDepth = 2 ∧ (run.stack.take 5 ++ [run.stack[5]]).countP (fun a => a.call.isNested) = 2) ∧
      (run.stack.take 5 ++ [run.stack[5]]).countP (fun a => a.call.isNested) ≤ run.stack[5].call.objectDepth :=
  ⟨rfl, ⟨rfl, rfl⟩, (judging_ends chainBook).2.1 (.ofResource .none "T" chain) 6 _ _ _ rfl⟩

end Rulebook

end CloudTemplate
