import CloudTemplate.Proofs.Tree.Parts
import CloudTemplate.Template.Reconcile
import Mathlib.Algebra.GroupWithZero.Nat
import Mathlib.Data.List.Forall2
/-! Trees without their stray nulls. What pruning makes of a tree is said by a relation of its own; the nulls that a
tree has lost are its strays, and a pruned tree has none and is not changed again. -/
namespace CloudTemplate

namespace Tree

/-- What a tree is without its stray nulls: an array that holds something beside its nulls holds them no longer, at any
depth, and all else stands as it stood. -/
inductive PrunesTo : Tree → Tree → Prop
  | leaf {tree : Tree} (harray : ∀ items, tree ≠ .array items) (hobject : ∀ entries, tree ≠ .object entries) :
      PrunesTo tree tree
  | nulls {items : List Tree} (h : ∀ item ∈ items, item = .null) : PrunesTo (.array items) (.array items)
  | mixed {items pruned : List Tree} (h : ∃ item ∈ items, item ≠ .null)
      (hitems : List.Forall₂ PrunesTo (items.filter fun item => !item.isNull) pruned) :
      PrunesTo (.array items) (.array pruned)
  | object {entries pruned : Entries Tree} (hkeys : pruned.keys = entries.keys)
      (hvalues : List.Forall₂ PrunesTo (entries.map Prod.snd) (pruned.map Prod.snd)) :
      PrunesTo (.object entries) (.object pruned)

/-- Whether some array in a tree holds a null beside something else. -/
def HasStray (tree : Tree) : Prop :=
  ∃ items, tree.Holds (.array items) ∧ (∃ item ∈ items, item = .null) ∧ ∃ item ∈ items, item ≠ .null

mutual

def nulls : Tree → Nat
  | .null => 1
  | .array items => nullsOfItems items
  | .object entries => nullsOfEntries entries
  | _ => 0
termination_by structural t => t

def nullsOfItems : List Tree → Nat
  | [] => 0
  | t :: rest => t.nulls + nullsOfItems rest
termination_by structural ts => ts

def nullsOfEntries : List (String × Tree) → Nat
  | [] => 0
  | (_, t) :: rest => t.nulls + nullsOfEntries rest
termination_by structural es => es

end

theorem holdsValue_iff {items : List Tree} : holdsValue items = true ↔ ∃ item ∈ items, item ≠ .null := by
  simp [holdsValue, ← isNull_iff]

theorem holdsValue_eq_false_iff {items : List Tree} : holdsValue items = false ↔ ∀ item ∈ items, item = .null := by
  simp [holdsValue, ← isNull_iff]

theorem isNull_prune (tree : Tree) : tree.prune.isNull = tree.isNull := by
  cases tree <;> rfl

theorem pruneItems_eq_map (drop : Bool) (items : List Tree) :
    pruneItems drop items = (items.filter fun item => !(drop && item.isNull)).map prune := by
  induction items with
  | nil => rfl
  | cons item rest ih =>
    rw [pruneItems, List.filter_cons, ih]
    cases drop && item.isNull <;> rfl

theorem pruneEntries_eq_map (entries : Entries Tree) :
    pruneEntries entries = entries.map fun e => (e.1, e.2.prune) := by
  induction entries with
  | nil => rfl
  | cons e rest ih => rw [pruneEntries, ih, List.map_cons]

theorem straysOfItems_eq_sum (items : List Tree) : straysOfItems items = (items.map strays).sum := by
  induction items with
  | nil => rfl
  | cons item rest ih => rw [straysOfItems, ih, List.map_cons, List.sum_cons]

theorem straysOfEntries_eq_sum (entries : Entries Tree) :
    straysOfEntries entries = (entries.map fun e => e.2.strays).sum := by
  induction entries with
  | nil => rfl
  | cons e rest ih => rw [straysOfEntries, ih, List.map_cons, List.sum_cons]

theorem forall₂_iff_eq_map {α β : Type} {r : α → β → Prop} {f : α → β} {xs : List α} {ys : List β}
    (h : ∀ x ∈ xs, ∀ y, r x y ↔ y = f x) : List.Forall₂ r xs ys ↔ ys = xs.map f := by
  induction xs generalizing ys with
  | nil => rw [List.forall₂_nil_left_iff, List.map_nil]
  | cons x xs ih =>
    rw [List.forall_mem_cons] at h
    rw [List.forall₂_cons_left_iff, List.map_cons]
    constructor
    · rintro ⟨y, ys, hy, hys, rfl⟩
      rw [(h.1 y).1 hy, (ih h.2).1 hys]
    · rintro rfl
      exact ⟨f x, xs.map f, (h.1 _).2 rfl, (ih h.2).2 rfl, rfl⟩

theorem entries_eq_map_iff {entries changed : Entries Tree} {f : Tree → Tree} :
    changed = entries.map (fun e => (e.1, f e.2)) ↔
      changed.keys = entries.keys ∧ changed.map Prod.snd = (entries.map Prod.snd).map f := by
  constructor
  · rintro rfl
    simp [Entries.keys, Function.comp_def]
  · rintro ⟨hkeys, hvalues⟩
    rw [List.zip_of_prod hkeys hvalues, Entries.keys, List.map_map, List.zip_map']
    rfl

theorem prunesTo_nulls_iff {items : List Tree} {changed : Tree} (hnulls : ∀ item ∈ items, item = .null) :
    (Tree.array items).PrunesTo changed ↔ changed = .array items := by
  constructor
  · intro h
    cases h with
    | leaf harray => exact absurd rfl (harray items)
    | nulls => rfl
    | mixed h =>
      obtain ⟨item, hitem, hne⟩ := h
      exact absurd (hnulls item hitem) hne
  · rintro rfl
    exact .nulls hnulls

theorem prunesTo_mixed_iff {items : List Tree} {changed : Tree} (hmixed : ∃ item ∈ items, item ≠ .null) :
    (Tree.array items).PrunesTo changed ↔
      ∃ pruned, List.Forall₂ PrunesTo (items.filter fun item => !item.isNull) pruned ∧ changed = .array pruned := by
  constructor
  · intro h
    cases h with
    | leaf harray => exact absurd rfl (harray items)
    | nulls h =>
      obtain ⟨item, hitem, hne⟩ := hmixed
      exact absurd (h item hitem) hne
    | mixed _ h => exact ⟨_, h, rfl⟩
  · rintro ⟨pruned, h, rfl⟩
    exact .mixed hmixed h

theorem prunesTo_object_iff {entries : Entries Tree} {changed : Tree} :
    (Tree.object entries).PrunesTo changed ↔ ∃ pruned : Entries Tree, pruned.keys = entries.keys ∧
      List.Forall₂ PrunesTo (entries.map Prod.snd) (pruned.map Prod.snd) ∧ changed = .object pruned := by
  constructor
  · intro h
    cases h with
    | leaf _ hobject => exact absurd rfl (hobject entries)
    | object hkeys hvalues => exact ⟨_, hkeys, hvalues, rfl⟩
  · rintro ⟨pruned, hkeys, hvalues, rfl⟩
    exact .object hkeys hvalues

/-- Pruning is what the relation says. -/
theorem prunesTo_iff {tree changed : Tree} : tree.PrunesTo changed ↔ changed = tree.prune := by
  induction tree using Tree.induct generalizing changed with
  | null | bool value | number value | string value =>
    constructor
    · intro h
      cases h
      rfl
    · rintro rfl
      exact .leaf nofun nofun
  | array items ih =>
    rw [prune, pruneItems_eq_map]
    cases hvalue : holdsValue items with
    | false =>
      have hnulls := holdsValue_eq_false_iff.1 hvalue
      have hprune : items.map prune = items := by
        refine (List.map_congr_left fun item hitem => ?_).trans (List.map_id items)
        rw [hnulls item hitem]
        rfl
      simp only [prunesTo_nulls_iff hnulls, Bool.false_and, Bool.not_false, List.filter_true, hprune]
    | true =>
      have hitems {pruned : List Tree} : List.Forall₂ PrunesTo (items.filter fun item => !item.isNull) pruned ↔
          pruned = (items.filter fun item => !item.isNull).map prune :=
        forall₂_iff_eq_map fun item hitem _ => ih item (List.mem_of_mem_filter hitem)
      simp only [prunesTo_mixed_iff (holdsValue_iff.1 hvalue), hitems, Bool.true_and, exists_eq_left]
  | object entries ih =>
    have hvalues {pruned : Entries Tree} : List.Forall₂ PrunesTo (entries.map Prod.snd) (pruned.map Prod.snd) ↔
        pruned.map Prod.snd = (entries.map Prod.snd).map prune := by
      refine forall₂_iff_eq_map fun value hvalue _ => ?_
      obtain ⟨e, he, rfl⟩ := List.mem_map.1 hvalue
      exact ih e.1 e.2 he
    rw [prune, pruneEntries_eq_map, prunesTo_object_iff]
    simp only [hvalues, ← and_assoc, ← entries_eq_map_iff, exists_eq_left]

theorem nulls_pruneItems {drop : Bool} {items : List Tree} (h : ∀ item ∈ items, item.prune.nulls + item.strays = item.nulls) :
    nullsOfItems (pruneItems drop items) + ((if drop then items.countP isNull else 0) + straysOfItems items) =
      nullsOfItems items := by
  induction items with
  | nil => cases drop <;> rfl
  | cons item rest ih =>
    rw [List.forall_mem_cons] at h
    have hrest := ih h.2
    have hitem := h.1
    cases hdrop : drop && item.isNull with
    | true =>
      obtain ⟨rfl, hnull⟩ := Bool.and_eq_true_iff.1 hdrop
      obtain rfl := isNull_iff.1 hnull
      have hprune : pruneItems true (.null :: rest) = pruneItems true rest := rfl
      have hcount : (Tree.null :: rest).countP isNull = rest.countP isNull + 1 := List.countP_cons_of_pos rfl
      simp only [if_true] at hrest
      simp only [hprune, hcount, if_true, straysOfItems, nullsOfItems, nulls, strays]
      omega
    | false =>
      have hcount : (if drop then (item :: rest).countP isNull else 0) = if drop then rest.countP isNull else 0 := by
        cases drop with
        | false => rfl
        | true => rw [List.countP_cons_of_neg (by simpa using hdrop)]
      rw [pruneItems, hdrop, hcount]
      simp only [Bool.false_eq_true, if_false, straysOfItems, nullsOfItems]
      omega

theorem nulls_pruneEntries {entries : Entries Tree}
    (h : ∀ key tree, (key, tree) ∈ entries → tree.prune.nulls + tree.strays = tree.nulls) :
    nullsOfEntries (pruneEntries entries) + straysOfEntries entries = nullsOfEntries entries := by
  induction entries with
  | nil => rfl
  | cons e rest ih =>
    have hvalue := h e.1 e.2 List.mem_cons_self
    have hrest := ih fun key tree hmem => h key tree (List.mem_cons_of_mem e hmem)
    simp only [pruneEntries, nullsOfEntries, straysOfEntries]
    omega

/-- What pruning takes out of a tree are nulls. -/
theorem nulls_prune (tree : Tree) : tree.prune.nulls + tree.strays = tree.nulls := by
  induction tree using Tree.induct with
  | null | bool value | number value | string value => rfl
  | array items ih => exact nulls_pruneItems ih
  | object entries ih => exact nulls_pruneEntries ih

/-- Of items that were pruned none is dropped any more: those that are null stand beside nulls only. -/
theorem pruneItems_pruneItems (items : List Tree) :
    pruneItems (holdsValue (pruneItems (holdsValue items) items)) (pruneItems (holdsValue items) items) =
      (pruneItems (holdsValue items) items).map prune := by
  rw [pruneItems_eq_map _ (pruneItems _ _)]
  -- An item that is null was kept only because no item of the array was anything else.
  refine congrArg _ (List.filter_eq_self.2 fun item hitem => ?_)
  rw [pruneItems_eq_map] at hitem
  obtain ⟨kept, hkept, rfl⟩ := List.mem_map.1 hitem
  obtain ⟨hmem, hkept⟩ := List.mem_filter.1 hkept
  cases hnull : kept.isNull with
  | false => simp [isNull_prune, hnull]
  | true =>
    have hvalue : holdsValue items = false := by simpa [hnull] using hkept
    have hnulls : holdsValue (pruneItems (holdsValue items) items) = false := by
      rw [hvalue, pruneItems_eq_map]
      simpa [holdsValue, isNull_prune] using hvalue
    simp [hnulls]

theorem prune_prune (tree : Tree) : tree.prune.prune = tree.prune := by
  induction tree using Tree.induct with
  | null | bool value | number value | string value => rfl
  | array items ih =>
    rw [prune, prune, pruneItems_pruneItems, pruneItems_eq_map, List.map_map]
    exact congrArg _ (List.map_congr_left fun item hitem => ih item (List.mem_of_mem_filter hitem))
  | object entries ih =>
    rw [prune, prune, pruneEntries_eq_map, pruneEntries_eq_map, List.map_map]
    exact congrArg _ (List.map_congr_left fun e he => Prod.ext rfl (ih e.1 e.2 he))

theorem strays_prune (tree : Tree) : tree.prune.strays = 0 := by
  have hnulls := nulls_prune tree.prune
  rw [prune_prune] at hnulls
  omega

theorem hasStray_array_iff {items : List Tree} :
    (Tree.array items).HasStray ↔
      ((∃ item ∈ items, item = .null) ∧ ∃ item ∈ items, item ≠ .null) ∨ ∃ item ∈ items, item.HasStray := by
  constructor
  · rintro ⟨others, hholds, hstray⟩
    cases hholds with
    | self => exact .inl hstray
    | item hmem h => exact .inr ⟨_, hmem, others, h, hstray⟩
  · rintro (hstray | ⟨item, hmem, others, hholds, hstray⟩)
    · exact ⟨items, .self, hstray⟩
    · exact ⟨others, .item hmem hholds, hstray⟩

theorem hasStray_object_iff {entries : Entries Tree} :
    (Tree.object entries).HasStray ↔ ∃ e ∈ entries, e.2.HasStray := by
  constructor
  · rintro ⟨others, hholds, hstray⟩
    cases hholds with
    | entry hmem h => exact ⟨_, hmem, others, h, hstray⟩
  · rintro ⟨e, hmem, others, hholds, hstray⟩
    exact ⟨others, .entry hmem hholds, hstray⟩

/-- Strays are counted wherever there is one. -/
theorem strays_eq_zero_iff {tree : Tree} : tree.strays = 0 ↔ ¬ tree.HasStray := by
  induction tree using Tree.induct with
  | null | bool value | number value | string value =>
    refine iff_of_true rfl ?_
    rintro ⟨items, hholds, -⟩
    cases hholds
  | array items ih =>
    have hown : (if holdsValue items then items.countP isNull else 0) = 0 ↔
        ¬ ((∃ item ∈ items, item = .null) ∧ ∃ item ∈ items, item ≠ .null) := by
      rw [← holdsValue_iff]
      cases holdsValue items with
      | false => simp
      | true => simp only [if_true, and_true, List.countP_eq_zero, isNull_iff, not_exists, not_and]
    have hitems : straysOfItems items = 0 ↔ ∀ item ∈ items, ¬ item.HasStray := by
      rw [straysOfItems_eq_sum, List.sum_eq_zero_iff_forall_eq_nat, List.forall_mem_map]
      exact forall₂_congr fun item hitem => ih item hitem
    rw [strays, Nat.add_eq_zero_iff, hown, hitems, hasStray_array_iff, not_or]
    exact and_congr_right' (by simp)
  | object entries ih =>
    rw [strays, straysOfEntries_eq_sum, List.sum_eq_zero_iff_forall_eq_nat, List.forall_mem_map, hasStray_object_iff, not_exists]
    exact forall_congr' fun e => by rw [not_and]; exact forall_congr' fun he => ih e.1 e.2 he

theorem not_hasStray_prune (tree : Tree) : ¬ tree.prune.HasStray := strays_eq_zero_iff.1 (strays_prune tree)

end Tree

end CloudTemplate
