import CloudTemplate.Proofs.Validation.Calls
import CloudTemplate.Proofs.Validation.Judgement
import Mathlib.Data.List.TakeWhile
/-! What the calls in the values of a resource get wrong: their number of arguments, and the names that they
refer to. A tree has one list of such errors, and the judgement of a resource ends with those of its live
properties, in the order written. -/
namespace CloudTemplate

namespace CallErrors

def IsCall (value : Tree) (f : Intrinsic) (argument : Tree) : Prop :=
  value = .object [(f.longName, argument)] ∧ f ≠ .condition

/-- The resource that an attribute is asked of, and the attribute if its name is written: the first two items
of a list, or a text before and behind its first point. -/
inductive Target : Tree → String → Option String → Prop
  | alone {resource : String} : Target (.array [.string resource]) resource none
  | pair {resource name : String} {rest : List Tree} :
      Target (.array (.string resource :: .string name :: rest)) resource (some name)
  | computed {resource : String} {name : Tree} {rest : List Tree} (h : ∀ s, name ≠ .string s) :
      Target (.array (.string resource :: name :: rest)) resource none
  | whole {resource : String} (h : '.' ∉ resource.toList) : Target (.string resource) resource none
  | text {resource name : String} (h : '.' ∉ resource.toList) :
      Target (.string (resource ++ "." ++ name)) resource (some name)

inductive Own (spec : Specification) (template : Template) : Intrinsic → Tree → String → Prop
  | unknownTarget {name : String} (hparameter : name ∉ template.parameters.keys) (hresource : name ∉ template.resources.keys)
      (hplatform : ¬"AWS::".toList <+: name.toList) :
      Own spec template .ref (.string name) ("Ref " ++ name ++ " does not name a parameter or resource")
  | unknownMapping {name : String} {rest : List Tree} (h : name ∉ template.mappings.keys) :
      Own spec template .findInMap (.array (.string name :: rest))
        ("Mapping " ++ name ++ " referenced by Fn::FindInMap does not exist")
  | unknownResource {argument : Tree} {resource : String} {name : Option String} (htarget : Target argument resource name)
      (h : resource ∉ template.resources.keys) :
      Own spec template .getAtt argument ("Fn::GetAtt target " ++ resource ++ " does not name a resource")
  | unknownAttribute {argument : Tree} {resource name : String} {declared : Resource} {type : ResourceType}
      (htarget : Target argument resource (some name)) (hresource : template.resources.get? resource = some declared)
      (htype : spec.resourceTypes.get? declared.resourceType = some type) (h : name ∉ type.attrs.keys)
      (houtputs : ¬"Outputs.".toList <+: name.toList) :
      Own spec template .getAtt argument (resource ++ " has no attribute " ++ name ++ " for Fn::GetAtt")

inductive AtMostOne (p : String → Prop) : List String → Prop
  | none (h : ∀ text, ¬p text) : AtMostOne p []
  | one {text : String} (h : p text) : AtMostOne p [text]

def OfArguments (f : Intrinsic) (argument : Tree) (text : String) : Prop :=
  ∃ fault, f.arityFault? argument = some fault ∧ text = fault.message f

mutual

inductive OfTree (spec : Specification) (template : Template) : Tree → List String → Prop
  | scalar {value : Tree} (harray : ∀ items, value ≠ .array items) (hobject : ∀ entries, value ≠ .object entries) :
      OfTree spec template value []
  | call {value argument : Tree} {f : Intrinsic} {first own inner : List String} (h : IsCall value f argument)
      (hfirst : AtMostOne (OfArguments f argument) first) (hown : AtMostOne (Own spec template f argument) own)
      (hinner : OfTree spec template argument inner) : OfTree spec template value (first ++ own ++ inner)
  | array {items : List Tree} {errors : List String} (h : OfTrees spec template items errors) :
      OfTree spec template (.array items) errors
  | object {entries : Entries Tree} {errors : List String} (hcall : ∀ f argument, ¬IsCall (.object entries) f argument)
      (h : OfTrees spec template (entries.map Prod.snd) errors) : OfTree spec template (.object entries) errors

inductive OfTrees (spec : Specification) (template : Template) : List Tree → List String → Prop
  | nil : OfTrees spec template [] []
  | cons {value : Tree} {rest : List Tree} {errors others : List String} (h : OfTree spec template value errors)
      (hrest : OfTrees spec template rest others) : OfTrees spec template (value :: rest) (errors ++ others)

end

theorem isCall_iff {value argument : Tree} {f : Intrinsic} :
    IsCall value f argument ↔ Intrinsic.detect? value = some (f, argument) := by
  constructor
  · rintro ⟨rfl, hf⟩
    cases f <;> first | rfl | contradiction
  · intro h
    unfold Intrinsic.detect? at h
    split at h
    · rename_i key inner
      split at h
      · contradiction
      · rename_i g hcondition hname
        cases h
        have hkey : f.longName = key := by simpa using List.find?_some hname
        exact ⟨by rw [hkey], hcondition⟩
      · contradiction
    · contradiction

theorem atMostOne_iff {p : String → Prop} {texts errors : List String} (h : ∀ text, p text ↔ text ∈ texts)
    (hlength : texts.length ≤ 1) : AtMostOne p errors ↔ errors = texts := by
  cases texts with
  | nil =>
    constructor
    · rintro (_ | h')
      · rfl
      · exact absurd ((h _).1 h') List.not_mem_nil
    · rintro rfl
      exact .none fun text h' => absurd ((h text).1 h') List.not_mem_nil
  | cons text rest =>
    obtain rfl : rest = [] := List.eq_nil_of_length_eq_zero (by simpa using hlength)
    constructor
    · rintro (hnone | h')
      · exact absurd ((h text).2 List.mem_cons_self) (hnone text)
      · rw [List.mem_singleton.1 ((h _).1 h')]
    · rintro rfl
      exact .one ((h text).2 List.mem_cons_self)

theorem ofArguments_iff {f : Intrinsic} {argument : Tree} {errors : List String} :
    AtMostOne (OfArguments f argument) errors ↔
      errors = Violations.errorTexts (Rulebook.argumentProblems f argument) := by
  rw [Rulebook.argumentProblems]
  cases h : f.arityFault? argument with
  | none => exact atMostOne_iff (by simp [OfArguments, h, Violations.errorTexts]) (by simp [Violations.errorTexts])
  | some fault =>
    have htexts : Violations.errorTexts [.arguments f fault] = [fault.message f] := rfl
    exact atMostOne_iff (by simp [OfArguments, h, htexts]) (by simp [htexts])

theorem toList_text (resource name : String) :
    (resource ++ "." ++ name).toList = resource.toList ++ '.' :: name.toList := by
  simp

/-- A text with a point in it is what stands before its first point, the point and what stands behind. -/
theorem exists_text {s : String} (h : s.toList.contains '.' = true) :
    ∃ resource name : String, '.' ∉ resource.toList ∧ s = resource ++ "." ++ name ∧
      String.ofList (s.toList.takeWhile (· != '.')) = resource ∧
      String.ofList ((s.toList.dropWhile (· != '.')).drop 1) = name := by
  have hsplit := List.takeWhile_append_dropWhile (p := (· != '.')) (l := s.toList)
  have hfree : '.' ∉ s.toList.takeWhile (· != '.') := fun hmem => by simpa using List.mem_takeWhile_imp hmem
  cases hdrop : s.toList.dropWhile (· != '.') with
  | nil =>
    rw [hdrop, List.append_nil] at hsplit
    rw [hsplit] at hfree
    exact absurd (List.contains_iff_mem.1 h) hfree
  | cons c rest =>
    have hpoint : c = '.' := by
      have hhead := List.head?_dropWhile_not (· != '.') s.toList
      rw [hdrop] at hhead
      simpa using hhead
    rw [hdrop, hpoint] at hsplit
    refine ⟨_, String.ofList rest, by rwa [String.toList_ofList], ?_, rfl, rfl⟩
    rw [← String.toList_inj, toList_text, String.toList_ofList, String.toList_ofList, hsplit]

theorem target_iff {argument : Tree} {resource : String} {name : Option String} :
    Target argument resource name ↔ Rulebook.attributeTarget argument = (some resource, name) := by
  constructor
  · intro h
    cases h with
    | alone => rfl
    | pair => rfl
    | @computed _ name _ h =>
      cases name with
      | string s => exact absurd rfl (h s)
      | _ => rfl
    | whole h => simp [Rulebook.attributeTarget, h]
    | @text _ name h =>
      have hbefore : ∀ c ∈ resource.toList, (c != '.') = true := by
        intro c hc
        simpa using ne_of_mem_of_not_mem hc h
      simp only [Rulebook.attributeTarget, toList_text]
      rw [if_pos (by simp), List.takeWhile_append_of_pos hbefore, List.dropWhile_append_of_pos hbefore]
      simp
  · intro h
    -- A list with a name in it, a list without one, or a text with or without a point.
    unfold Rulebook.attributeTarget at h
    split at h
    · rename_i first second rest
      obtain ⟨hfirst, hsecond⟩ := Prod.mk.inj h
      cases first with
      | string s =>
        cases hfirst
        cases second with
        | string n =>
          cases hsecond
          exact .pair
        | _ =>
          cases hsecond
          exact .computed (by simp)
      | _ => contradiction
    · rename_i first
      obtain ⟨hfirst, hsecond⟩ := Prod.mk.inj h
      cases first with
      | string s =>
        cases hfirst
        cases hsecond
        exact .alone
      | _ => contradiction
    · rename_i s
      dsimp only at h
      split at h
      · rename_i hpoint
        obtain ⟨hfirst, hsecond⟩ := Prod.mk.inj h
        cases hfirst
        cases hsecond
        obtain ⟨before, after, hfree, hs, hbefore, hafter⟩ := exists_text hpoint
        rw [hbefore, hafter, hs]
        exact .text hfree
      · rename_i hpoint
        cases h
        exact .whole (by simpa using hpoint)
    · simp at h

theorem resourceType?_of (template : Template) (name : String) :
    (References.of template).resourceType? name = (template.resources.get? name).map Resource.resourceType := by
  simp only [References.resourceType?, References.of, Entries.get?, List.find?_map, Option.map_map]
  rfl

theorem isReferable_of_eq_false_iff {template : Template} {name : String} :
    (References.of template).isReferable name = false ↔
      name ∉ template.parameters.keys ∧ name ∉ template.resources.keys ∧ ¬"AWS::".toList <+: name.toList := by
  have hplatform : References.isPseudo name = false ↔ ¬"AWS::".toList <+: name.toList := by
    rw [References.isPseudo, Bool.eq_false_iff, ne_eq, List.isPrefixOf_iff_prefix]
  have hparameters : (References.of template).parameters.contains name = false ↔ name ∉ template.parameters.keys := by
    rw [Bool.eq_false_iff, ne_eq, List.contains_iff_mem]
    rfl
  have hresources : (References.of template).resources.contains name = false ↔ name ∉ template.resources.keys := by
    rw [Bool.eq_false_iff, ne_eq, Entries.contains_iff_mem_keys]
    simp only [References.of, Entries.keys, List.map_map]
    rfl
  rw [References.isReferable, Bool.or_eq_false_iff, Bool.or_eq_false_iff, hplatform, hparameters, hresources]
  tauto

section

variable {spec : Specification} {template : Template} {argument : Tree}

def ownTexts (spec : Specification) (template : Template) (f : Intrinsic) (argument : Tree) : List String :=
  Violations.errorTexts (Rulebook.callProblems spec (.of template) f argument)

theorem own_ref_iff {text : String} : Own spec template .ref argument text ↔ text ∈ ownTexts spec template .ref argument := by
  constructor
  · intro h
    cases h with
    | @unknownTarget name hparameter hresource hplatform =>
      have hnot := isReferable_of_eq_false_iff.2 ⟨hparameter, hresource, hplatform⟩
      simp only [ownTexts, Rulebook.callProblems, hnot]
      exact List.mem_singleton.2 rfl
  · intro h
    cases argument with
    | string name =>
      cases hnot : (References.of template).isReferable name with
      | true =>
        simp only [ownTexts, Rulebook.callProblems, hnot] at h
        contradiction
      | false =>
        simp only [ownTexts, Rulebook.callProblems, hnot] at h
        rw [List.mem_singleton.1 h]
        obtain ⟨hparameter, hresource, hplatform⟩ := isReferable_of_eq_false_iff.1 hnot
        exact .unknownTarget hparameter hresource hplatform
    | _ => contradiction

theorem own_findInMap_iff {text : String} :
    Own spec template .findInMap argument text ↔ text ∈ ownTexts spec template .findInMap argument := by
  have hmapping (name : String) : (References.of template).hasMapping name = false ↔ name ∉ template.mappings.keys := by
    rw [References.hasMapping, Bool.eq_false_iff, ne_eq, List.contains_iff_mem]
    rfl
  constructor
  · intro h
    cases h with
    | @unknownMapping name rest hname =>
      simp only [ownTexts, Rulebook.callProblems, Rulebook.mappingName, (hmapping name).2 hname]
      exact List.mem_singleton.2 rfl
  · intro h
    cases hnamed : Rulebook.mappingName argument with
    | none =>
      simp only [ownTexts, Rulebook.callProblems, hnamed] at h
      contradiction
    | some name =>
      obtain ⟨rest, rfl⟩ : ∃ rest, argument = .array (.string name :: rest) := by
        unfold Rulebook.mappingName at hnamed
        split at hnamed
        · cases hnamed
          exact ⟨_, rfl⟩
        · contradiction
      cases hhas : (References.of template).hasMapping name with
      | true =>
        simp only [ownTexts, Rulebook.callProblems, hnamed, hhas] at h
        contradiction
      | false =>
        simp only [ownTexts, Rulebook.callProblems, hnamed, hhas] at h
        rw [List.mem_singleton.1 h]
        exact .unknownMapping ((hmapping name).1 hhas)

theorem own_getAtt_iff {text : String} :
    Own spec template .getAtt argument text ↔ text ∈ ownTexts spec template .getAtt argument := by
  have hunknown (resource : String) :
      (References.of template).resourceType? resource = none ↔ resource ∉ template.resources.keys := by
    rw [resourceType?_of, Option.map_eq_none_iff, Entries.get?_eq_none_iff]
  constructor
  · intro h
    cases h with
    | @unknownResource _ resource name htarget hresource =>
      simp only [ownTexts, Rulebook.callProblems, Rulebook.attributeProblems, target_iff.1 htarget, (hunknown resource).2 hresource]
      exact List.mem_singleton.2 rfl
    | @unknownAttribute _ resource name declared type htarget hresource htype hname houtputs =>
      have hstack : Rulebook.isStackOutput name = false := by
        rwa [Rulebook.isStackOutput, Bool.eq_false_iff, ne_eq, List.isPrefixOf_iff_prefix]
      have htype? : (References.of template).resourceType? resource = some declared.resourceType := by
        rw [resourceType?_of, hresource]
        rfl
      have hattribute : type.attrs.contains name = false := by
        rwa [Bool.eq_false_iff, ne_eq, Entries.contains_iff_mem_keys]
      have hspec : spec.resourceType? declared.resourceType = some type := htype
      simp only [ownTexts, Rulebook.callProblems, Rulebook.attributeProblems, target_iff.1 htarget, htype?, hstack, hspec,
        Specification.hasAttribute, Option.isSome_some, Option.any_some, hattribute]
      exact List.mem_singleton.2 rfl
  · intro h
    obtain ⟨target, name, htarget⟩ : ∃ target name, Rulebook.attributeTarget argument = (target, name) := ⟨_, _, rfl⟩
    simp only [ownTexts, Rulebook.callProblems, Rulebook.attributeProblems, htarget] at h
    -- The resource is looked up first; an attribute of a stack that is an output needs no entry in the specification.
    cases target with
    | none => contradiction
    | some resource =>
      have htarget := target_iff.2 htarget
      dsimp only at h
      cases htype : (References.of template).resourceType? resource with
      | none =>
        rw [htype] at h
        rw [List.mem_singleton.1 h]
        exact .unknownResource htarget ((hunknown resource).1 htype)
      | some resourceType =>
        rw [htype] at h
        cases name with
        | none => contradiction
        | some name =>
          dsimp only at h
          split at h
          · contradiction
          · rename_i hstack
            split at h
            · rename_i hattribute
              rw [resourceType?_of] at htype
              obtain ⟨declared, hresource, rfl⟩ := Option.map_eq_some_iff.1 htype
              obtain ⟨hspec, hname⟩ := Bool.and_eq_true_iff.1 hattribute
              obtain ⟨type, hspec⟩ := Option.isSome_iff_exists.1 hspec
              have hname : type.attrs.contains name = false := by
                simpa [Specification.hasAttribute, hspec] using hname
              rw [List.mem_singleton.1 h]
              refine .unknownAttribute htarget hresource hspec ?_ ?_
              · rwa [Bool.eq_false_iff, ne_eq, Entries.contains_iff_mem_keys] at hname
              · rwa [Rulebook.isStackOutput, List.isPrefixOf_iff_prefix] at hstack
            · contradiction

theorem length_ownTexts_le (f : Intrinsic) : (ownTexts spec template f argument).length ≤ 1 := by
  have htexts (problems : List Problem) (h : problems.length ≤ 1) : (Violations.errorTexts problems).length ≤ 1 := by
    rw [Violations.errorTexts, List.length_map]
    exact Nat.le_trans (List.length_filter_le _ _) h
  refine htexts _ ?_
  unfold Rulebook.callProblems Rulebook.attributeProblems
  repeat' split
  all_goals simp

theorem own_iff {f : Intrinsic} {errors : List String} :
    AtMostOne (Own spec template f argument) errors ↔ errors = ownTexts spec template f argument := by
  refine atMostOne_iff (fun text => ?_) (length_ownTexts_le f)
  cases f with
  | ref => exact own_ref_iff
  | findInMap => exact own_findInMap_iff
  | getAtt => exact own_getAtt_iff
  | _ =>
    constructor
    · intro h
      cases h
    · intro h
      exact absurd h List.not_mem_nil

def treeTexts (spec : Specification) (template : Template) (value : Tree) : List String :=
  Violations.errorTexts (Rulebook.referenceProblems spec (.of template) value)

theorem treeTexts_eq_flatMap (value : Tree) :
    treeTexts spec template value = value.calls.flatMap fun call =>
      Violations.errorTexts (Rulebook.argumentProblems call.1 call.2) ++ ownTexts spec template call.1 call.2 := by
  rw [treeTexts, Rulebook.referenceProblems_eq_flatMap, Violations.errorTexts_flatMap]
  exact List.flatMap_congr fun call _ => Violations.errorTexts_append _ _

theorem calls_eq_of_isCall {value argument : Tree} {f : Intrinsic} (h : IsCall value f argument) :
    value.calls = (f, argument) :: argument.calls := by
  have hdetect := isCall_iff.1 h
  rw [h.1] at hdetect ⊢
  simp only [Tree.calls, callsOfEntries, hdetect, List.append_nil]
  rfl

theorem callsOfItems_eq_flatMap (items : List Tree) : callsOfItems items = items.flatMap Tree.calls := by
  induction items with
  | nil => rfl
  | cons t rest ih => rw [callsOfItems, List.flatMap_cons, ih]

theorem callsOfEntries_eq (entries : Entries Tree) : callsOfEntries entries = callsOfItems (entries.map Prod.snd) := by
  induction entries with
  | nil => rfl
  | cons e rest ih => rw [callsOfEntries, List.map_cons, callsOfItems, ih]

theorem calls_eq_of_not_isCall {entries : Entries Tree} (h : ∀ f argument, ¬IsCall (.object entries) f argument) :
    (Tree.object entries).calls = callsOfItems (entries.map Prod.snd) := by
  have hdetect : Intrinsic.detect? (.object entries) = none := by
    rw [Option.eq_none_iff_forall_ne_some]
    exact fun call hcall => h call.1 call.2 (isCall_iff.2 hcall)
  rw [Tree.calls, hdetect, callsOfEntries_eq]
  rfl

theorem ofTrees_iff {values : List Tree} {errors : List String}
    (h : ∀ value ∈ values, ∀ errors, OfTree spec template value errors ↔ errors = treeTexts spec template value) :
    OfTrees spec template values errors ↔ errors = values.flatMap (treeTexts spec template) := by
  induction values generalizing errors with
  | nil =>
    constructor
    · rintro ⟨⟩
      rfl
    · rintro rfl
      exact .nil
  | cons value rest ih =>
    have hvalue := h value List.mem_cons_self
    have hrest (others : List String) : OfTrees spec template rest others ↔
        others = rest.flatMap (treeTexts spec template) :=
      ih fun other hother => h other (List.mem_cons_of_mem value hother)
    constructor
    · rintro (_ | ⟨hfirst, hothers⟩)
      rw [(hvalue _).1 hfirst, (hrest _).1 hothers, List.flatMap_cons]
    · rintro rfl
      exact .cons ((hvalue _).2 rfl) ((hrest _).2 rfl)

theorem treeTexts_of_isCall {value : Tree} {f : Intrinsic} (h : IsCall value f argument) :
    treeTexts spec template value =
      Violations.errorTexts (Rulebook.argumentProblems f argument) ++ ownTexts spec template f argument ++
        treeTexts spec template argument := by
  rw [treeTexts_eq_flatMap, calls_eq_of_isCall h, List.flatMap_cons, ← treeTexts_eq_flatMap]

theorem flatMap_treeTexts (values : List Tree) :
    values.flatMap (treeTexts spec template) = (callsOfItems values).flatMap fun call =>
      Violations.errorTexts (Rulebook.argumentProblems call.1 call.2) ++ ownTexts spec template call.1 call.2 := by
  rw [callsOfItems_eq_flatMap, List.flatMap_assoc]
  exact List.flatMap_congr fun value _ => treeTexts_eq_flatMap value

theorem sizeOf_lt_of_mem_values {entries : Entries Tree} {value : Tree} (h : value ∈ entries.map Prod.snd) :
    sizeOf value < sizeOf entries := by
  obtain ⟨⟨key, value⟩, he, rfl⟩ := List.mem_map.1 h
  have hsize := List.sizeOf_lt_of_mem he
  simp only [Prod.mk.sizeOf_spec] at hsize ⊢
  omega

/-- A value has the errors that it is judged to have, and no others. -/
theorem ofTree_iff (value : Tree) (errors : List String) :
    OfTree spec template value errors ↔ errors = treeTexts spec template value := by
  -- The argument of a call is judged as a value of its own, and so are the parts of what is no call: all are smaller.
  have hcalls (f : Intrinsic) (argument : Tree) (hcall : IsCall value f argument) (errors : List String) :
      OfTree spec template argument errors ↔ errors = treeTexts spec template argument := by
    have hsize : sizeOf argument < sizeOf value := by
      rw [hcall.1]
      simp only [Tree.object.sizeOf_spec, List.cons.sizeOf_spec, Prod.mk.sizeOf_spec]
      omega
    exact ofTree_iff argument errors
  by_cases hcall : ∃ f argument, IsCall value f argument
  · obtain ⟨f, argument, hcall⟩ := hcall
    rw [treeTexts_of_isCall hcall]
    constructor
    · intro h
      cases h with
      | scalar _ hobject => exact absurd hcall.1 (hobject _)
      | @call _ other g first own inner hcall' hfirst hown hinner =>
        obtain ⟨rfl, rfl⟩ := Prod.mk.inj (Option.some.inj ((isCall_iff.1 hcall).symm.trans (isCall_iff.1 hcall')))
        rw [ofArguments_iff.1 hfirst, own_iff.1 hown, (hcalls f argument hcall _).1 hinner]
      | array => exact absurd hcall.1 (by simp)
      | object hno => exact absurd hcall (hno f argument)
    · rintro rfl
      exact .call hcall (ofArguments_iff.2 rfl) (own_iff.2 rfl) ((hcalls f argument hcall _).2 rfl)
  · have hcall (f : Intrinsic) (argument : Tree) : ¬IsCall value f argument := fun h => hcall ⟨f, argument, h⟩
    cases value with
    | array items =>
      have hitems : ∀ item ∈ items, ∀ errors, OfTree spec template item errors ↔ errors = treeTexts spec template item := by
        intro item hitem errors
        have hsize : sizeOf item < sizeOf (Tree.array items) := by
          have := List.sizeOf_lt_of_mem hitem
          rw [Tree.array.sizeOf_spec]
          omega
        exact ofTree_iff item errors
      have htexts : treeTexts spec template (.array items) = items.flatMap (treeTexts spec template) := by
        rw [flatMap_treeTexts, treeTexts_eq_flatMap, Tree.calls]
      rw [htexts, ← ofTrees_iff hitems]
      constructor
      · intro h
        cases h with
        | scalar harray => exact absurd rfl (harray items)
        | call hcall' => exact absurd hcall' (hcall _ _)
        | array h => exact h
      · exact .array
    | object entries =>
      have hvalues : ∀ item ∈ entries.map Prod.snd, ∀ errors,
          OfTree spec template item errors ↔ errors = treeTexts spec template item := by
        intro item hitem errors
        have hsize : sizeOf item < sizeOf (Tree.object entries) := by
          have := sizeOf_lt_of_mem_values hitem
          rw [Tree.object.sizeOf_spec]
          omega
        exact ofTree_iff item errors
      have htexts : treeTexts spec template (.object entries) = (entries.map Prod.snd).flatMap (treeTexts spec template) := by
        rw [flatMap_treeTexts, treeTexts_eq_flatMap, calls_eq_of_not_isCall hcall]
      rw [htexts, ← ofTrees_iff hvalues]
      constructor
      · intro h
        cases h with
        | scalar _ hobject => exact absurd rfl (hobject entries)
        | call hcall' => exact absurd hcall' (hcall _ _)
        | object _ h => exact h
      · exact .object hcall
    | _ =>
      constructor
      · intro h
        cases h with
        | scalar => rfl
        | call hcall' => exact absurd hcall' (hcall _ _)
      · rintro rfl
        exact .scalar (by simp) (by simp)
termination_by sizeOf value
decreasing_by all_goals assumption

/-- Whether the errors of a validation are those of the declared properties, and then those of the calls in the
values of its resource, one live property after the other. -/
def Reported (book : Rulebook) (template : Template) (dead : DeadEntries) (entry : String × Resource)
    (judged : ResourceValidation) : Prop :=
  judged.resource = entry.1 ∧ judged.resourceType = entry.2.resourceType ∧
    ∀ type, book.spec.resourceType? entry.2.resourceType = some type → ∃ declared errors,
      Violations.OfEntries book.spec entry.2.resourceType none
        (type.properties.filter fun e => !dead.isDeadProperty entry.1 e.1) entry.2.properties declared ∧
      judged.errors = declared ++ errors ∧
      ∀ others, OfTrees book.spec template
        ((entry.2.properties.filter fun e => !dead.isDeadProperty entry.1 e.1).map Prod.snd) others ↔ others = errors

/-- The live resources of a template are reported in their order, each with exactly the errors of the calls in its
live properties. -/
theorem reported_calls (book : Rulebook) (template : Template) (dead : DeadEntries) :
    List.Forall₂ (Reported book template dead)
      (template.resources.filter fun e => !dead.isDeadResource e.1) (book.judgeTemplate template dead) := by
  rw [Rulebook.judgeTemplate, List.forall₂_map_right_iff, List.forall₂_same]
  intro entry _
  refine ⟨rfl, rfl, fun type htype => ?_⟩
  let live := Rulebook.live dead entry.1 entry.2.properties
  refine ⟨Violations.errorTexts (book.nestedProblems (.ofResource entry.2.resourceType)
    (Rulebook.live dead entry.1 type.properties) entry.2.properties),
    (live.map Prod.snd).flatMap (treeTexts book.spec template), ?_, ?_, fun others => ?_⟩
  · exact (Violations.ofEntries_iff book (.ofResource entry.2.resourceType) _ _ _).2 rfl
  · rw [Violations.errors_judge, Rulebook.resourceProblems, htype]
    rw [Violations.errorTexts_append, Violations.errorTexts_flatMap, List.flatMap_map]
    rfl
  · exact ofTrees_iff fun value _ => ofTree_iff value

end

end CallErrors

end CloudTemplate
