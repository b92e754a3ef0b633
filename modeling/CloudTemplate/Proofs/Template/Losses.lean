import CloudTemplate.Proofs.Template.Reconciliation
/-! Dead entries. A walk marks a resource for what its body is and a property for what its value has lost, and it marks
nothing else. What stands beside the properties of resources makes no difference to the marks. -/
namespace CloudTemplate

namespace Tree

def Maps (tree : Tree) (key : String) (value : Tree) : Prop :=
  ∃ entries, tree = .object entries ∧ (key, value) ∈ entries

def IsVoid (body : Tree) : Prop := body = .null ∨ body.Maps "Properties" .null

def IsLost (value : Tree) : Prop := value = .null ∨ value.HasStray

def HasVoidResource (tree : Tree) (name : String) : Prop :=
  ∃ resources, tree.Maps "Resources" resources ∧ ∃ body, resources.Maps name body ∧ body.IsVoid

def HasLostProperty (tree : Tree) (name property : String) : Prop :=
  ∃ resources, tree.Maps "Resources" resources ∧ ∃ body, resources.Maps name body ∧
    ∃ properties, body.Maps "Properties" properties ∧ ∃ value, properties.Maps property value ∧ value.IsLost

def restrict (keep : String → Bool) (f : Tree → Tree) : Tree → Tree
  | .object entries => .object ((entries.filter fun e => keep e.1).map fun e => (e.1, f e.2))
  | value => value

def onlyProperties : Tree → Tree :=
  restrict (· == "Resources") (restrict (fun _ => true) (restrict (· == "Properties") id))

theorem maps_object_iff {entries : Entries Tree} {key : String} {value : Tree} :
    (Tree.object entries).Maps key value ↔ (key, value) ∈ entries := by
  simp [Maps]

theorem maps_mapObject_iff {f : String → Tree → Tree} {tree : Tree} {key : String} {value : Tree} :
    (mapObject f tree).Maps key value ↔ ∃ old, tree.Maps key old ∧ f key old = value := by
  cases tree with
  | object entries =>
    simp only [mapObject, maps_object_iff, List.mem_map, Prod.mk.injEq]
    constructor
    · rintro ⟨⟨_, old⟩, hmem, rfl, rfl⟩
      exact ⟨old, hmem, rfl⟩
    · rintro ⟨old, hmem, rfl⟩
      exact ⟨(key, old), hmem, rfl, rfl⟩
  | _ => simp [mapObject, Maps]

theorem mapObject_eq_null_iff {f : String → Tree → Tree} {tree : Tree} : mapObject f tree = .null ↔ tree = .null := by
  cases tree <;> simp [mapObject]

theorem isVoid_pruneResource_iff {body : Tree} : (pruneResource body).IsVoid ↔ body.IsVoid := by
  rw [IsVoid, IsVoid, pruneResource, mapObject_eq_null_iff, maps_mapObject_iff]
  simp only [if_true, mapObject_eq_null_iff, exists_eq_right]

/-- Pruning makes no resource void and leaves none that was not. -/
theorem hasVoidResource_pruneRoot_iff {tree : Tree} {name : String} :
    (pruneRoot tree).HasVoidResource name ↔ tree.HasVoidResource name := by
  simp only [HasVoidResource, pruneRoot, maps_mapObject_iff, exists_exists_and_eq_and, if_true, isVoid_pruneResource_iff]

theorem isLost_iff {value : Tree} : value.IsLost ↔ (value.isNull || decide (0 < value.strays)) = true := by
  have hstrays : 0 < value.strays ↔ value.HasStray := by
    rw [Nat.pos_iff_ne_zero, Ne, strays_eq_zero_iff, not_not]
  rw [IsLost, Bool.or_eq_true, isNull_iff, decide_eq_true_iff, hstrays]

end Tree

namespace DeadEntries

theorem isDeadResource_markResource {dead : DeadEntries} {resource name : String} :
    (dead.markResource resource).isDeadResource name = true ↔ dead.isDeadResource name = true ∨ resource = name := by
  rw [markResource, isDeadResource, isDeadResource, List.contains_iff_mem, List.contains_iff_mem, List.mem_insert_iff,
    or_comm, eq_comm]

theorem isDeadProperty_markProperty {dead : DeadEntries} {resource property name other : String} :
    (dead.markProperty resource property).isDeadProperty name other = true ↔
      dead.isDeadProperty name other = true ∨ property = other ∧ resource = name := by
  rw [markProperty, isDeadProperty, isDeadProperty, List.contains_iff_mem, List.contains_iff_mem, List.mem_insert_iff,
    or_comm, Prod.mk.injEq, and_comm, eq_comm, eq_comm (a := name)]

end DeadEntries

open CloudTemplate.Tree

/-- A walk over entries has marked what was marked before, and what the entry of one key marks. -/
theorem marked_foldl_iff (marked : DeadEntries → Prop) {walk : Reconciliation → String × Tree → Reconciliation}
    {key : String} {marks : Tree → Prop}
    (h : ∀ r other value, marked (walk r (other, value)).dead ↔ marked r.dead ∨ other = key ∧ marks value)
    (r : Reconciliation) (entries : Entries Tree) : marked (entries.foldl walk r).dead ↔
      marked r.dead ∨ ∃ value, (Tree.object entries).Maps key value ∧ marks value := by
  simp only [maps_object_iff]
  induction entries generalizing r with
  | nil => simp
  | cons e rest ih =>
    have hfirst : (e.1 = key ∧ marks e.2) ↔ ∃ value, (key, value) = e ∧ marks value := by
      simp only [Prod.ext_iff, and_assoc, exists_and_left, exists_eq_left, eq_comm (a := key)]
    rw [List.foldl_cons, ih, h, hfirst, or_assoc, ← exists_or]
    simp only [List.mem_cons, or_and_right]

structure WalkMarks (marked : DeadEntries → Prop) (name : String) (ofNull : Prop) (ofProperties : Tree → Prop) : Prop where
  null : ∀ dead resource, marked (dead.markResource resource) ↔ marked dead ∨ resource = name ∧ ofNull
  attr : ∀ resource r attr value, marked (reconcileAttribute resource r (attr, value)).dead ↔
    marked r.dead ∨ attr = "Properties" ∧ resource = name ∧ ofProperties value

section

variable {marked : DeadEntries → Prop} {name : String} {ofNull : Prop} {ofProperties : Tree → Prop}

theorem WalkMarks.resource (h : WalkMarks marked name ofNull ofProperties) (r : Reconciliation)
    (resource : String) (body : Tree) :
    marked (reconcileResource r (resource, body)).dead ↔ marked r.dead ∨ resource = name ∧
      (body = .null ∧ ofNull ∨ ∃ properties, body.Maps "Properties" properties ∧ ofProperties properties) := by
  cases body with
  | null => simpa [reconcileResource, Maps] using h.null r.dead resource
  | object attrs =>
    rw [reconcileResource, marked_foldl_iff marked (h.attr resource) r attrs]
    simp only [reduceCtorEq, false_and, false_or, and_left_comm (b := resource = name), exists_and_left]
  | _ => simp [reconcileResource, Maps]

theorem WalkMarks.inSection (h : WalkMarks marked name ofNull ofProperties) (r : Reconciliation) (key : String)
    (value : Tree) :
    marked (reconcileSection r (key, value)).dead ↔ marked r.dead ∨ key = "Resources" ∧
      ∃ body, value.Maps name body ∧
        (body = .null ∧ ofNull ∨ ∃ properties, body.Maps "Properties" properties ∧ ofProperties properties) := by
  by_cases hkey : key = "Resources"
  · rw [reconcileSection, if_neg (by simp [hkey])]
    cases value with
    | object resources =>
      simp only [hkey, true_and]
      exact marked_foldl_iff marked h.resource r resources
    | _ => simp [Maps]
  · rw [reconcileSection, if_pos (by simp [hkey])]
    simp [hkey, Reconciliation.remove]

theorem WalkMarks.inTree (h : WalkMarks marked name ofNull ofProperties) (hnone : ¬ marked .none) (tree : Tree) :
    marked (reconcile tree).2.dead ↔ ∃ resources, tree.Maps "Resources" resources ∧ ∃ body, resources.Maps name body ∧
      (body = .null ∧ ofNull ∨ ∃ properties, body.Maps "Properties" properties ∧ ofProperties properties) := by
  cases tree with
  | object root =>
    have hwalk := marked_foldl_iff marked h.inSection .nothing root
    exact hwalk.trans (or_iff_right hnone)
  | _ => exact iff_of_false hnone (by simp [Maps])

end

section

variable {name property : String} (r : Reconciliation)

theorem isDeadProperty_reconcileProperty (resource key : String) (value : Tree) :
    (reconcileProperty resource r (key, value)).dead.isDeadProperty name property = true ↔
      r.dead.isDeadProperty name property = true ∨ key = property ∧ resource = name ∧ value.IsLost := by
  rw [reconcileProperty, isLost_iff]
  split
  · rename_i hlost
    rw [DeadEntries.isDeadProperty_markProperty, hlost]
    simp
  · rename_i hkept
    rw [Bool.not_eq_true] at hkept
    rw [hkept]
    simp

theorem isDeadProperty_reconcileAttribute (resource attr : String) (value : Tree) :
    (reconcileAttribute resource r (attr, value)).dead.isDeadProperty name property = true ↔
      r.dead.isDeadProperty name property = true ∨
        attr = "Properties" ∧ ∃ lost, value.Maps property lost ∧ resource = name ∧ lost.IsLost := by
  by_cases h : attr = "Properties"
  · rw [reconcileAttribute, if_neg (by simp [h])]
    cases value with
    | object properties =>
      simp only [h, true_and]
      exact marked_foldl_iff (fun dead => dead.isDeadProperty name property = true)
        (fun r => isDeadProperty_reconcileProperty r resource) r properties
    | _ => simp [Maps, DeadEntries.isDeadProperty, DeadEntries.markResource]
  · rw [reconcileAttribute, if_pos (by simp [h])]
    simp [h, Reconciliation.remove]

theorem dead_reconcileProperty_resources (resource : String) (e : String × Tree) :
    (reconcileProperty resource r e).dead.resources = r.dead.resources := by
  rw [reconcileProperty]
  split <;> rfl

theorem dead_foldl_reconcileProperty_resources (resource : String) (properties : Entries Tree) :
    (properties.foldl (reconcileProperty resource) r).dead.resources = r.dead.resources := by
  induction properties generalizing r with
  | nil => rfl
  | cons e rest ih => rw [List.foldl_cons, ih, dead_reconcileProperty_resources]

theorem isDeadResource_reconcileAttribute (resource attr : String) (value : Tree) :
    (reconcileAttribute resource r (attr, value)).dead.isDeadResource name = true ↔
      r.dead.isDeadResource name = true ∨ attr = "Properties" ∧ resource = name ∧ value = .null := by
  by_cases h : attr = "Properties"
  · rw [reconcileAttribute, if_neg (by simp [h])]
    cases value with
    | null => simp [h, DeadEntries.isDeadResource_markResource]
    | object properties => simp [DeadEntries.isDeadResource, dead_foldl_reconcileProperty_resources]
    | _ => simp
  · rw [reconcileAttribute, if_pos (by simp [h])]
    simp [h, Reconciliation.remove]

end

theorem walkMarks_isDeadResource (name : String) :
    WalkMarks (fun dead => dead.isDeadResource name = true) name True (· = .null) where
  null _ _ := by rw [DeadEntries.isDeadResource_markResource, and_true]
  attr resource r key value := isDeadResource_reconcileAttribute r resource key value

theorem walkMarks_isDeadProperty (name property : String) :
    WalkMarks (fun dead => dead.isDeadProperty name property = true) name False
      fun properties => ∃ value, properties.Maps property value ∧ value.IsLost where
  null _ _ := by rw [and_false, or_false]; rfl
  attr resource r key value := by
    rw [isDeadProperty_reconcileAttribute]
    simp only [and_left_comm (b := resource = name), exists_and_left]

theorem isDeadResource_reconcile_iff {tree : Tree} {name : String} :
    (reconcile tree).2.dead.isDeadResource name = true ↔ tree.HasVoidResource name := by
  rw [(walkMarks_isDeadResource name).inTree Bool.false_ne_true]
  simp only [and_true, exists_eq_right, HasVoidResource, IsVoid]

theorem isDeadProperty_reconcile_iff {tree : Tree} {name property : String} :
    (reconcile tree).2.dead.isDeadProperty name property = true ↔ tree.HasLostProperty name property := by
  rw [(walkMarks_isDeadProperty name property).inTree Bool.false_ne_true]
  simp only [and_false, false_or, HasLostProperty]

namespace Tree

section

variable {keep : String → Bool} {f : Tree → Tree} {tree : Tree}

theorem maps_restrict_iff {key : String} {value : Tree} :
    (restrict keep f tree).Maps key value ↔ keep key = true ∧ ∃ old, tree.Maps key old ∧ f old = value := by
  cases tree with
  | object entries =>
    simp only [restrict, maps_object_iff, List.mem_map, List.mem_filter, Prod.mk.injEq]
    constructor
    · rintro ⟨⟨_, old⟩, ⟨hmem, hkeep⟩, rfl, rfl⟩
      exact ⟨hkeep, old, hmem, rfl⟩
    · rintro ⟨hkeep, old, hmem, rfl⟩
      exact ⟨(key, old), ⟨hmem, hkeep⟩, rfl, rfl⟩
  | _ => simp [restrict, Maps]

theorem restrict_eq_null_iff : restrict keep f tree = .null ↔ tree = .null := by
  cases tree <;> simp [restrict]

end

theorem isVoid_restrict_iff {body : Tree} : (restrict (· == "Properties") id body).IsVoid ↔ body.IsVoid := by
  simp only [IsVoid, restrict_eq_null_iff, maps_restrict_iff, beq_self_eq_true, true_and, id, exists_eq_right]

theorem hasVoidResource_onlyProperties_iff {tree : Tree} {name : String} :
    tree.onlyProperties.HasVoidResource name ↔ tree.HasVoidResource name := by
  simp only [HasVoidResource, onlyProperties, maps_restrict_iff, beq_self_eq_true, true_and, exists_exists_and_eq_and,
    isVoid_restrict_iff]

theorem hasLostProperty_onlyProperties_iff {tree : Tree} {name property : String} :
    tree.onlyProperties.HasLostProperty name property ↔ tree.HasLostProperty name property := by
  simp only [HasLostProperty, onlyProperties, maps_restrict_iff, beq_self_eq_true, true_and, exists_exists_and_eq_and, id]

end Tree

/-- A walk marks a resource if it is void, which it is after the walk if it was before, and a property if its value is lost.
A template with nothing but the properties of its resources has the same dead entries. -/
theorem reconcile_marks_dead (tree : Tree) :
    (∀ name, ((reconcile tree).2.dead.isDeadResource name = true ↔ tree.HasVoidResource name) ∧
      ((reconcile tree).2.dead.isDeadResource name = true ↔ (reconcile tree).1.HasVoidResource name)) ∧
    (∀ name property, (reconcile tree).2.dead.isDeadProperty name property = true ↔ tree.HasLostProperty name property) ∧
    ∀ name property,
      (reconcile tree.onlyProperties).2.dead.isDeadResource name = (reconcile tree).2.dead.isDeadResource name ∧
      (reconcile tree.onlyProperties).2.dead.isDeadProperty name property =
        (reconcile tree).2.dead.isDeadProperty name property := by
  refine ⟨fun name => ⟨isDeadResource_reconcile_iff, ?_⟩, fun _ _ => isDeadProperty_reconcile_iff, fun name property => ?_⟩
  · have htree : (reconcile tree).1 = pruneRoot tree := rfl
    rw [isDeadResource_reconcile_iff, htree, hasVoidResource_pruneRoot_iff]
  · constructor
    · rw [Bool.eq_iff_iff, isDeadResource_reconcile_iff, isDeadResource_reconcile_iff]
      exact hasVoidResource_onlyProperties_iff
    · rw [Bool.eq_iff_iff, isDeadProperty_reconcile_iff, isDeadProperty_reconcile_iff]
      exact hasLostProperty_onlyProperties_iff

end CloudTemplate
