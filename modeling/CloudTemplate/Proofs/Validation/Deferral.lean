import CloudTemplate.Proofs.Validation.Judgement
import Mathlib.Data.List.Flatten
/-! Values that are left to calls. What a call will give is not known yet, so nothing is held against it, and where it
stands in a list or an object it is no reason to judge the rest in another way. -/
namespace CloudTemplate

/-- A tree and the same tree with a call in place of one of its parts. -/
inductive Tree.Defers : Tree → Tree → Prop
  | call {value call : Tree} (hcall : Intrinsic.isCall call = true) : Defers value call
  | item {before after : List Tree} {value other : Tree} (h : Defers value other) :
      Defers (.array (before ++ value :: after)) (.array (before ++ other :: after))
  | entry {before after : Entries Tree} {key : String} {value other : Tree} (h : Defers value other) :
      Defers (.object (before ++ (key, value) :: after)) (.object (before ++ (key, other) :: after))

inductive Resource.Defers (resource : Resource) : Resource → Prop
  | property {before after : Entries Tree} {name : String} {value other : Tree}
      (hproperties : resource.properties = before ++ (name, value) :: after) (h : value.Defers other) :
      Defers resource { resource with properties := before ++ (name, other) :: after }

theorem Entries.get?_append_cons {α : Type} (before after : Entries α) (key : String) (value other : α) (name : String) :
    Entries.get? (before ++ (key, other) :: after) name = Entries.get? (before ++ (key, value) :: after) name ∨
      Entries.get? (before ++ (key, value) :: after) name = some value ∧
        Entries.get? (before ++ (key, other) :: after) name = some other := by
  induction before with
  | nil =>
    simp only [List.nil_append, get?_cons]
    by_cases hkey : key = name
    · exact .inr ⟨if_pos hkey, if_pos hkey⟩
    · exact .inl ((if_neg hkey).trans (if_neg hkey).symm)
  | cons e before ih =>
    simp only [List.cons_append, get?_cons]
    by_cases hkey : e.1 = name
    · exact .inl ((if_pos hkey).trans (if_pos hkey).symm)
    · simpa only [if_neg hkey] using ih

/-- Whether an object is a call is up to its keys. -/
theorem Intrinsic.isCall_append_cons (before after : Entries Tree) (key : String) (value other : Tree) :
    Intrinsic.isCall (.object (before ++ (key, other) :: after)) =
      Intrinsic.isCall (.object (before ++ (key, value) :: after)) := by
  cases before with
  | nil =>
    cases after with
    | nil =>
      simp only [isCall, detect?, List.nil_append]
      split <;> rfl
    | cons e after => rfl
  | cons e before => cases before <;> rfl

namespace Tree

theorem Defers.isScalar_or_isCall {value other : Tree} (h : value.Defers other)
    (hvalue : (isScalar value || Intrinsic.isCall value) = true) : (isScalar other || Intrinsic.isCall other) = true := by
  cases h with
  | call hcall => rw [hcall, Bool.or_true]
  | item h => cases hvalue
  | entry h => exact (Intrinsic.isCall_append_cons _ _ _ _ _).trans hvalue

theorem Defers.isScalarList {before after : List Tree} {value other : Tree} (h : value.Defers other)
    (hlist : CloudTemplate.isScalarList (.array (before ++ value :: after)) = true) :
    CloudTemplate.isScalarList (.array (before ++ other :: after)) = true := by
  simp only [CloudTemplate.isScalarList, List.all_append, List.all_cons, Bool.and_eq_true] at hlist ⊢
  obtain ⟨-, hbefore, hvalue, hafter⟩ := hlist
  exact ⟨by simp, hbefore, h.isScalar_or_isCall hvalue, hafter⟩

end Tree

namespace Rulebook

variable (book : Rulebook)

theorem valueProblems_of_isCall {value : Tree} (hcall : Intrinsic.isCall value = true) (resourceType name : String)
    (shape : PropertyShape) : book.valueProblems resourceType name shape value = [] := by
  unfold valueProblems
  rw [hcall, Bool.or_true, if_pos rfl]

theorem itemProblems_eq_flatMap {resourceType item : String} {type : PropertyType}
    (htype : book.spec.propertyType? resourceType item = some type) (name : String) (items : List Tree) :
    book.itemProblems resourceType name item type items =
      items.flatMap (book.valueProblems resourceType name (.structured item)) := by
  induction items with
  | nil => rw [itemProblems, List.flatMap_nil]
  | cons value items ih =>
    rw [List.flatMap_cons, ← ih]
    cases value with
    | object entries =>
      rw [itemProblems, valueProblems]
      simp only [Tree.isNull, Bool.false_or, htype]
    | _ => simp [itemProblems, valueProblems]

/-- Where a list is expected to hold structured values, it is judged value by value. -/
theorem valueProblems_array (resourceType name : String) (shape : PropertyShape) (items : List Tree) :
    book.valueProblems resourceType name shape (.array items) =
      match shape with
      | .primitive | .structured _ => []
      | .map => [.notMap name]
      | .list none => if isScalarList (.array items) then [] else [.notList name]
      | .list (some item) => items.flatMap (book.valueProblems resourceType name (.structured item)) := by
  have hknown : ((Tree.array items).isNull || Intrinsic.isCall (.array items)) = false := rfl
  rw [valueProblems.eq_def, hknown]
  cases shape with
  | list item =>
    cases item with
    | none => rfl
    | some item =>
      simp only [Bool.false_eq_true, if_false]
      cases htype : book.spec.propertyType? resourceType item with
      | none =>
        have hvalue (value : Tree) : book.valueProblems resourceType name (.structured item) value = [] := by
          cases value <;> simp [valueProblems, htype]
        simp [hvalue]
      | some type => exact book.itemProblems_eq_flatMap htype name items
  | _ => rfl

/-- An object that is no call is judged by the type that is named for it. -/
theorem valueProblems_object {entries : Entries Tree} (hcall : Intrinsic.isCall (.object entries) = false)
    (resourceType name : String) (shape : PropertyShape) :
    book.valueProblems resourceType name shape (.object entries) =
      match shape with
      | .primitive | .map => []
      | .list _ => [.notList name]
      | .structured typeName => ((book.spec.propertyType? resourceType typeName).elim [] fun type =>
          book.nestedProblems (.inside resourceType typeName name) type.properties entries) := by
  have hknown : ((Tree.object entries).isNull || Intrinsic.isCall (.object entries)) = false := hcall
  rw [valueProblems.eq_def, hknown]
  cases shape with
  | list item => cases item <;> rfl
  | structured typeName => cases htype : book.spec.propertyType? resourceType typeName <;> simp [htype]
  | _ => rfl

/-- Where a value is replaced, what is held against the entries changes with what is held against that value. -/
theorem nestedProblems_sublist {value other : Tree}
    (h : ∀ resourceType name shape, (book.valueProblems resourceType name shape other).Sublist
      (book.valueProblems resourceType name shape value))
    (scope : Scope) (properties : Entries Property) (before after : Entries Tree) (key : String) :
    (book.nestedProblems scope properties (before ++ (key, other) :: after)).Sublist
      (book.nestedProblems scope properties (before ++ (key, value) :: after)) := by
  rw [Violations.nestedProblems_eq, Violations.nestedProblems_eq]
  refine List.Sublist.flatMap_right properties fun e _ => (List.Sublist.refl _).append ?_
  obtain hget | ⟨hvalue, hother⟩ := Entries.get?_append_cons before after key value other e.1
  · rw [hget]
  · rw [hvalue, hother]
    exact h scope.resourceType e.1 e.2.shape

/-- A call in a value takes away what is held against the value there, and adds nothing. -/
theorem valueProblems_sublist {value other : Tree} (h : value.Defers other) (resourceType name : String)
    (shape : PropertyShape) : (book.valueProblems resourceType name shape other).Sublist
      (book.valueProblems resourceType name shape value) := by
  induction h generalizing resourceType name shape with
  | call hcall =>
    rw [book.valueProblems_of_isCall hcall]
    exact List.nil_sublist _
  | @item before after value other h ih =>
    -- A list is judged item by item, unless scalars are expected: then a call will do for one of them.
    rw [valueProblems_array, valueProblems_array]
    cases shape with
    | list item =>
      cases item with
      | none =>
        dsimp only
        split
        · exact List.nil_sublist _
        · rename_i hother
          rw [if_neg (mt h.isScalarList hother)]
      | some item =>
        simp only [List.flatMap_append, List.flatMap_cons]
        exact (List.Sublist.refl _).append ((ih resourceType name (.structured item)).append (List.Sublist.refl _))
    | _ => exact List.Sublist.refl _
  | @entry before after key value other h ih =>
    -- The keys are the same, so the object is looked into after the replacement only if it was before.
    have hsame := Intrinsic.isCall_append_cons before after key value other
    cases hcall : Intrinsic.isCall (.object (before ++ (key, value) :: after)) with
    | true =>
      rw [book.valueProblems_of_isCall (hsame.trans hcall)]
      exact List.nil_sublist _
    | false =>
      rw [book.valueProblems_object (hsame.trans hcall), book.valueProblems_object hcall]
      cases shape with
      | structured typeName =>
        dsimp only
        cases book.spec.propertyType? resourceType typeName with
        | none => exact List.Sublist.refl _
        | some type =>
          let scope : Scope := .inside resourceType typeName name
          exact book.nestedProblems_sublist ih scope type.properties before after key
      | _ => exact List.Sublist.refl _

/-- What the specification holds against a resource: its type, or the properties that it lacks and the shapes of their
values. -/
def propertyProblems (dead : DeadEntries) (name : String) (resource : Resource) : List Problem :=
  match book.spec.resourceType? resource.resourceType with
  | none => [.unknownType]
  | some type =>
    book.nestedProblems (.ofResource resource.resourceType) (live dead name type.properties) resource.properties

def resourceCallProblems (dead : DeadEntries) (references : References) (name : String) (resource : Resource) :
    List Problem :=
  match book.spec.resourceType? resource.resourceType with
  | none => []
  | some _ => (live dead name resource.properties).flatMap fun e => referenceProblems book.spec references e.2

def propertyErrors (dead : DeadEntries) (name : String) (resource : Resource) : List String :=
  Violations.errorTexts (book.propertyProblems dead name resource)

def callErrors (dead : DeadEntries) (references : References) (name : String) (resource : Resource) : List String :=
  Violations.errorTexts (book.resourceCallProblems dead references name resource)

variable (dead : DeadEntries) (name : String) {resource other : Resource}

theorem resourceProblems_eq_append (references : References) (resource : Resource) :
    book.resourceProblems dead references name resource =
      book.propertyProblems dead name resource ++ book.resourceCallProblems dead references name resource := by
  rw [resourceProblems, propertyProblems, resourceCallProblems]
  cases book.spec.resourceType? resource.resourceType <;> rfl

theorem errors_judge_eq_append (references : References) (resource : Resource) :
    (book.judge dead references name resource).errors =
      book.propertyErrors dead name resource ++ book.callErrors dead references name resource := by
  rw [Violations.errors_judge, propertyErrors, callErrors, ← Violations.errorTexts_append, resourceProblems,
    propertyProblems, resourceCallProblems]
  cases book.spec.resourceType? resource.resourceType <;> rfl

/-- Where the type of a resource is known, these errors are the violations of its properties. -/
theorem ofEntries_propertyErrors {type : ResourceType} (htype : book.spec.resourceType? resource.resourceType = some type) :
    Violations.OfEntries book.spec resource.resourceType none (live dead name type.properties) resource.properties
      (book.propertyErrors dead name resource) := by
  rw [propertyErrors, propertyProblems, htype]
  exact (Violations.ofEntries_iff book (.ofResource resource.resourceType) _ _ _).2 rfl

theorem propertyProblems_sublist (h : resource.Defers other) :
    (book.propertyProblems dead name other).Sublist (book.propertyProblems dead name resource) := by
  obtain ⟨hproperties, h⟩ := h
  rw [propertyProblems, propertyProblems, hproperties]
  dsimp only
  cases book.spec.resourceType? resource.resourceType with
  | none => exact List.Sublist.refl _
  | some type => exact book.nestedProblems_sublist (book.valueProblems_sublist h) _ _ _ _ _

theorem propertyErrors_sublist (h : resource.Defers other) :
    (book.propertyErrors dead name other).Sublist (book.propertyErrors dead name resource) :=
  ((book.propertyProblems_sublist dead name h).filter _).map _

/-- The errors of a resource are the violations of its properties and then what is wrong with the calls in it. Where a call
is put in place of a value, at any depth, there are no other violations than before, and they come in the same order. -/
theorem errors_judge_of_defers (references : References) (h : resource.Defers other) :
    (∀ judged : Resource,
      (book.judge dead references name judged).errors =
        book.propertyErrors dead name judged ++ book.callErrors dead references name judged ∧
      ∀ type, book.spec.resourceType? judged.resourceType = some type →
        Violations.OfEntries book.spec judged.resourceType none (live dead name type.properties) judged.properties
          (book.propertyErrors dead name judged)) ∧
    (book.propertyErrors dead name other).Sublist (book.propertyErrors dead name resource) := by
  refine ⟨fun judged => ⟨?_, fun type htype => ?_⟩, book.propertyErrors_sublist dead name h⟩
  · exact book.errors_judge_eq_append dead name references judged
  · exact book.ofEntries_propertyErrors dead name htype

def queueMatching (value : Tree) : Resource :=
  { Resource.blank with
    resourceType := "Queue"
    properties := [("Rules", .array [.object [("Match", value)], .object []])] }

def queueBook : Rulebook where
  spec := ⟨"1", [("Queue.Rule", ⟨none, [("Match", { Property.blank with required := true, shape := .map })]⟩)],
    [("Queue", ⟨none, [], [("Rules", { Property.blank with shape := .list (some "Rule") })]⟩)]⟩
  disagreements := []

theorem propertyProblems_queueMatching (value : Tree) : queueBook.propertyProblems .none "Q" (queueMatching value) =
    queueBook.valueProblems "Queue" "Match" .map value ++ [.missingIn "Match" "Rules"] := by
  have htop : queueBook.propertyProblems .none "Q" (queueMatching value) =
      queueBook.valueProblems "Queue" "Rules" (.list (some "Rule")) (.array [.object [("Match", value)], .object []]) :=
    (Violations.nestedProblems_eq _ _ _ _).trans (List.append_nil _)
  have hitem (entries : Entries Tree) (hcall : Intrinsic.isCall (.object entries) = false) :
      queueBook.valueProblems "Queue" "Rules" (.structured "Rule") (.object entries) =
        Violations.presenceProblems queueBook (.inside "Queue" "Rule" "Rules") "Match"
          { Property.blank with required := true, shape := .map } (entries.get? "Match") := by
    rw [valueProblems_object _ hcall]
    exact (Violations.nestedProblems_eq _ _ _ _).trans (List.append_nil _)
  rw [htop, valueProblems_array]
  dsimp only
  rw [List.flatMap_cons, List.flatMap_singleton, hitem _ rfl, hitem _ rfl]
  rfl

/-- What the first rule matches is judged until it is left to a call; what the second one lacks is missed all along. -/
theorem propertyErrors_queueMatching :
    (queueMatching (.string "a")).Defers (queueMatching (.object [("Ref", .string "Filter")])) ∧
    queueBook.propertyErrors .none "Q" (queueMatching (.string "a")) =
      ["Match must be a Map", "Match is required in Rules"] ∧
    queueBook.propertyErrors .none "Q" (queueMatching (.object [("Ref", .string "Filter")])) =
      ["Match is required in Rules"] ∧
    ["Match is required in Rules"].Sublist ["Match must be a Map", "Match is required in Rules"] := by
  let call : Tree := .object [("Ref", .string "Filter")]
  have hrule : (Tree.object [("Match", .string "a")]).Defers (.object [("Match", call)]) :=
    @Tree.Defers.entry [] [] "Match" _ _ (.call rfl)
  have hrules : (Tree.array [.object [("Match", .string "a")], .object []]).Defers
      (.array [.object [("Match", call)], .object []]) :=
    @Tree.Defers.item [] [.object []] _ _ hrule
  have hdefers : (queueMatching (.string "a")).Defers (queueMatching call) :=
    @Resource.Defers.property _ [] [] "Rules" _ _ rfl hrules
  have hbefore : queueBook.propertyErrors .none "Q" (queueMatching (.string "a")) =
      ["Match must be a Map", "Match is required in Rules"] := by
    rw [propertyErrors, propertyProblems_queueMatching, valueProblems.eq_def]
    rfl
  have hafter : queueBook.propertyErrors .none "Q" (queueMatching call) = ["Match is required in Rules"] := by
    rw [propertyErrors, propertyProblems_queueMatching, valueProblems_of_isCall _ rfl]
    rfl
  have hsublist := (queueBook.errors_judge_of_defers .none "Q" (.of .blank) hdefers).2
  rw [hbefore, hafter] at hsublist
  exact ⟨hdefers, hbefore, hafter, hsublist⟩

end Rulebook

end CloudTemplate
