import CloudTemplate.Tree
/-! The parts of a tree: the tree itself and whatever stands in it at any depth. What goes from the items and entries
of a tree to the tree holds of all trees. -/
namespace CloudTemplate

namespace Tree

inductive Holds : Tree → Tree → Prop
  | self {tree : Tree} : Holds tree tree
  | item {items : List Tree} {tree part : Tree} (hmem : tree ∈ items) (h : Holds tree part) : Holds (.array items) part
  | entry {entries : Entries Tree} {key : String} {tree part : Tree} (hmem : (key, tree) ∈ entries)
      (h : Holds tree part) : Holds (.object entries) part

theorem isNull_iff {tree : Tree} : tree.isNull = true ↔ tree = .null := by
  cases tree <;> simp [isNull]

theorem sizeOf_lt_of_mem_entries {entries : Entries Tree} {key : String} {tree : Tree} (h : (key, tree) ∈ entries) :
    sizeOf tree < sizeOf entries := by
  have hmem := List.sizeOf_lt_of_mem h
  simp only [Prod.mk.sizeOf_spec] at hmem
  omega

/-- Induction on a tree, with all items and all values of entries at once. -/
@[elab_as_elim]
theorem induct {motive : Tree → Prop} (null : motive .null) (bool : ∀ value, motive (.bool value))
    (number : ∀ value, motive (.number value)) (string : ∀ value, motive (.string value))
    (array : ∀ items, (∀ tree ∈ items, motive tree) → motive (.array items))
    (object : ∀ entries, (∀ key tree, (key, tree) ∈ entries → motive tree) → motive (.object entries)) :
    (tree : Tree) → motive tree
  | .null => null
  | .bool value => bool value
  | .number value => number value
  | .string value => string value
  | .array items => array items fun tree _ => induct null bool number string array object tree
  | .object entries => object entries fun _ tree _ => induct null bool number string array object tree
termination_by tree => sizeOf tree
decreasing_by
  · rename_i hmem
    have hlt := List.sizeOf_lt_of_mem hmem
    simp only [Tree.array.sizeOf_spec]
    omega
  · rename_i hmem
    have hlt := sizeOf_lt_of_mem_entries hmem
    simp only [Tree.object.sizeOf_spec]
    omega

def HasDistinctKeys (tree : Tree) : Prop := ∀ entries, tree.Holds (.object entries) → (Entries.keys entries).Nodup

theorem HasDistinctKeys.keys {entries : Entries Tree} (h : (Tree.object entries).HasDistinctKeys) :
    entries.keys.Nodup :=
  h entries .self

theorem HasDistinctKeys.entry {entries : Entries Tree} {key : String} {tree : Tree}
    (h : (Tree.object entries).HasDistinctKeys) (hmem : (key, tree) ∈ entries) : tree.HasDistinctKeys :=
  fun others hothers => h others (.entry hmem hothers)

end Tree

end CloudTemplate
