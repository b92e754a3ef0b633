import CloudTemplate.Proofs.Template.Strays
/-! Reconciling a tree. The walk over sections, resources and properties prunes what it comes to and nothing else, what
it counts are the nulls that the tree has lost, and after one walk there is nothing left to do. -/
namespace CloudTemplate

namespace Tree

inductive MapsTo (r : String → Tree → Tree → Prop) : Tree → Tree → Prop
  | object {entries changed : Entries Tree}
      (h : List.Forall₂ (fun e f => e.1 = f.1 ∧ r e.1 e.2 f.2) entries changed) :
      MapsTo r (.object entries) (.object changed)
  | other {value : Tree} (h : ∀ entries, value ≠ .object entries) : MapsTo r value value

def ReconcilesResource : Tree → Tree → Prop :=
  MapsTo fun attr value changed =>
    if attr = "Properties" then MapsTo (fun _ => PrunesTo) value changed else value.PrunesTo changed

/-- A template is pruned in its sections; its resources are reconciled each by itself, if they are a mapping. -/
def Reconciles : Tree → Tree → Prop :=
  MapsTo fun name value changed =>
    if name = "Resources" then MapsTo (fun _ => ReconcilesResource) value changed else value.PrunesTo changed

def sumEntries (count : String → Tree → Nat) : Tree → Nat
  | .object entries => (entries.map fun e => count e.1 e.2).sum
  | _ => 0

def resourceStrays : Tree → Nat :=
  sumEntries fun attr value => if attr = "Properties" then sumEntries (fun _ => strays) value else value.strays

def reachedStrays : Tree → Nat :=
  sumEntries fun name value =>
    if name = "Resources" then sumEntries (fun _ => resourceStrays) value else value.strays

structure IsPruning (f : Tree → Tree) (count : Tree → Nat) (r : Tree → Tree → Prop) : Prop where
  iff_eq : ∀ tree changed, r tree changed ↔ changed = f tree
  nulls_eq : ∀ tree, (f tree).nulls + count tree = tree.nulls
  idempotent : ∀ tree, f (f tree) = f tree

section

variable {f : String → Tree → Tree}

theorem mapsTo_iff {r : String → Tree → Tree → Prop} (h : ∀ key value changed, r key value changed ↔ changed = f key value)
    (tree changed : Tree) : MapsTo r tree changed ↔ changed = mapObject f tree := by
  have hentries (entries others : Entries Tree) :
      List.Forall₂ (fun e f => e.1 = f.1 ∧ r e.1 e.2 f.2) entries others ↔
        others = entries.map fun e => (e.1, f e.1 e.2) := by
    refine forall₂_iff_eq_map fun e _ other => ?_
    rw [h, Prod.ext_iff, eq_comm]
  constructor
  · intro hmaps
    cases hmaps with
    | object hforall => rw [(hentries _ _).1 hforall, mapObject]
    | other hother =>
      cases tree with
      | object entries => exact absurd rfl (hother entries)
      | _ => rfl
  · rintro rfl
    cases tree with
    | object entries => exact .object ((hentries _ _).2 rfl)
    | _ => exact .other nofun

theorem nulls_mapObject {count : String → Tree → Nat}
    (h : ∀ key value, (f key value).nulls + count key value = value.nulls) (tree : Tree) :
    (mapObject f tree).nulls + sumEntries count tree = tree.nulls := by
  cases tree with
  | object entries =>
    simp only [mapObject, sumEntries, nulls]
    induction entries with
    | nil => rfl
    | cons e rest ih =>
      have hvalue := h e.1 e.2
      simp only [List.map_cons, List.sum_cons, nullsOfEntries]
      omega
  | _ => rfl

theorem mapObject_mapObject (h : ∀ key value, f key (f key value) = f key value) (tree : Tree) :
    mapObject f (mapObject f tree) = mapObject f tree := by
  cases tree with
  | object entries =>
    rw [mapObject, mapObject, List.map_map]
    exact congrArg _ (List.map_congr_left fun e _ => Prod.ext rfl (h e.1 e.2))
  | _ => rfl

end

theorem isPruning_prune : IsPruning prune strays PrunesTo := ⟨fun _ _ => prunesTo_iff, nulls_prune, prune_prune⟩

theorem IsPruning.mapObject {f : String → Tree → Tree} {count : String → Tree → Nat} {r : String → Tree → Tree → Prop}
    (h : ∀ key, IsPruning (f key) (count key) (r key)) : IsPruning (mapObject f) (sumEntries count) (MapsTo r) where
  iff_eq := mapsTo_iff fun key => (h key).iff_eq
  nulls_eq := nulls_mapObject fun key => (h key).nulls_eq
  idempotent := mapObject_mapObject fun key => (h key).idempotent

theorem isPruning_pruneResource : IsPruning pruneResource resourceStrays ReconcilesResource := by
  refine .mapObject fun attr => ?_
  by_cases h : attr = "Properties"
  · simp only [if_pos h]
    exact .mapObject fun _ => isPruning_prune
  · simp only [if_neg h]
    exact isPruning_prune

theorem isPruning_pruneRoot : IsPruning pruneRoot reachedStrays Reconciles := by
  refine .mapObject fun name => ?_
  by_cases h : name = "Resources"
  · simp only [if_pos h]
    exact .mapObject fun _ => isPruning_pruneResource
  · simp only [if_neg h]
    exact isPruning_prune

theorem reachedStrays_pruneRoot (tree : Tree) : (pruneRoot tree).reachedStrays = 0 := by
  have hnulls := isPruning_pruneRoot.nulls_eq (pruneRoot tree)
  rw [isPruning_pruneRoot.idempotent] at hnulls
  omega

end Tree

open CloudTemplate.Tree

theorem removed_foldl {walk : Reconciliation → String × Tree → Reconciliation} (count : String → Tree → Nat)
    (h : ∀ r key value, (walk r (key, value)).removed = r.removed + count key value) (r : Reconciliation)
    (entries : Entries Tree) : (entries.foldl walk r).removed = r.removed + sumEntries count (.object entries) := by
  induction entries generalizing r with
  | nil => rfl
  | cons e rest ih =>
    rw [List.foldl_cons, ih, h, sumEntries, sumEntries, List.map_cons, List.sum_cons, Nat.add_assoc]

theorem removed_reconcileProperty (resource : String) (r : Reconciliation) (property : String) (value : Tree) :
    (reconcileProperty resource r (property, value)).removed = r.removed + value.strays := by
  cases hstrays : value.strays with
  | zero =>
    rw [reconcileProperty, hstrays]
    split <;> rfl
  | succ n =>
    rw [reconcileProperty, if_pos (by simp [hstrays]), hstrays]
    rfl

theorem removed_reconcileAttribute (resource : String) (r : Reconciliation) (attr : String) (value : Tree) :
    (reconcileAttribute resource r (attr, value)).removed =
      r.removed + if attr = "Properties" then sumEntries (fun _ => strays) value else value.strays := by
  by_cases h : attr = "Properties"
  · rw [reconcileAttribute, if_neg (by simp [h]), if_pos h]
    cases value with
    | object properties => exact removed_foldl (fun _ => strays) (removed_reconcileProperty resource) r properties
    | _ => rfl
  · rw [reconcileAttribute, if_pos (by simp [h]), if_neg h]
    rfl

theorem removed_reconcileResource (r : Reconciliation) (name : String) (body : Tree) :
    (reconcileResource r (name, body)).removed = r.removed + body.resourceStrays := by
  cases body with
  | object attrs => exact removed_foldl _ (removed_reconcileAttribute name) r attrs
  | _ => rfl

theorem removed_reconcileSection (r : Reconciliation) (name : String) (value : Tree) :
    (reconcileSection r (name, value)).removed =
      r.removed + if name = "Resources" then sumEntries (fun _ => resourceStrays) value else value.strays := by
  by_cases h : name = "Resources"
  · rw [reconcileSection, if_neg (by simp [h]), if_pos h]
    cases value with
    | object resources => exact removed_foldl (fun _ => resourceStrays) removed_reconcileResource r resources
    | _ => rfl
  · rw [reconcileSection, if_pos (by simp [h]), if_neg h]
    rfl

/-- A walk counts the strays that it comes to. -/
theorem removed_reconcile (tree : Tree) : (reconcile tree).2.removed = tree.reachedStrays := by
  cases tree with
  | object root =>
    have hremoved := removed_foldl _ removed_reconcileSection .nothing root
    exact hremoved.trans (Nat.zero_add _)
  | _ => rfl

theorem Reconciliation.isSome_notice_iff (r : Reconciliation) : r.notice.isSome = true ↔ 0 < r.removed := by
  rw [Reconciliation.notice]
  split
  · rename_i h
    simp [h]
  · rename_i h
    refine iff_of_true ?_ (Nat.pos_of_ne_zero h)
    split <;> rfl

end CloudTemplate
