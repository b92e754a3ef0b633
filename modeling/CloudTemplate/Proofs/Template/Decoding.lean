import CloudTemplate.Proofs.Json.Records
import CloudTemplate.Template.Read
/-! The trees that texts write. Entries are taken in one after the other, and a key that is written again replaces what
was written under it, so no object of such a tree has a key twice. -/
namespace CloudTemplate

open CloudTemplate.Tree

namespace Json

mutual

theorem hasDistinctKeys_tree {depth : Nat} {tree : Tree} :
    (node : Node) → node.tree depth = .ok tree → tree.HasDistinctKeys
  | .null _ _, h | .bool _ _ _, h => by
    cases h
    nofun
  | .number _ _ _, h | .string _ _ _, h => by
    obtain ⟨value, -, rfl⟩ := map_eq_ok_iff.1 h
    nofun
  | .array _ items _, h => by
    rw [Node.tree] at h
    split at h
    · cases h
    · obtain ⟨trees, htrees, h⟩ := bind_eq_ok_iff.1 h
      obtain ⟨_, -, h⟩ := bind_eq_ok_iff.1 h
      cases h
      exact hasDistinctKeys_array (hasDistinctKeys_treeItems items htrees)
  | .object _ entries _, h => by
    rw [Node.tree] at h
    split at h
    · cases h
    · obtain ⟨trees, htrees, h⟩ := bind_eq_ok_iff.1 h
      obtain ⟨_, -, h⟩ := bind_eq_ok_iff.1 h
      cases h
      exact (entriesAreDistinct_treeEntries entries .nil htrees).object
  | .broken _ _, h => by cases h
termination_by structural node => node

theorem hasDistinctKeys_treeItems {depth : Nat} {trees : List Tree} :
    (items : List Node) → treeItems depth items = .ok trees → ∀ tree ∈ trees, tree.HasDistinctKeys
  | [], h => by
    cases h
    exact fun _ h => absurd h List.not_mem_nil
  | node :: rest, h => by
    obtain ⟨tree, htree, h⟩ := bind_eq_ok_iff.1 h
    obtain ⟨trees, htrees, h⟩ := bind_eq_ok_iff.1 h
    cases h
    exact List.forall_mem_cons.2 ⟨hasDistinctKeys_tree node htree, hasDistinctKeys_treeItems rest htrees⟩
termination_by structural items => items

theorem entriesAreDistinct_treeEntries {depth : Nat} {seen trees : Entries Tree} :
    (entries : List (Label × Node)) → EntriesAreDistinct seen → treeEntries depth seen entries = .ok trees →
      EntriesAreDistinct trees
  | [], hseen, h => by
    cases h
    exact hseen
  | (label, node) :: rest, hseen, h => by
    obtain ⟨name, -, h⟩ := bind_eq_ok_iff.1 h
    obtain ⟨tree, htree, h⟩ := bind_eq_ok_iff.1 h
    exact entriesAreDistinct_treeEntries rest (hseen.insert name (hasDistinctKeys_tree node htree)) h
termination_by structural entries => entries

end

theorem hasDistinctKeys_readTree {text : String} {tree : Tree} (h : readTree text = .ok tree) : tree.HasDistinctKeys := by
  obtain ⟨node, hnode⟩ := exists_of_readWith h
  exact hasDistinctKeys_tree _ hnode

end Json

namespace Yaml

mutual

theorem hasDistinctKeys_toTree {tree : Tree} : (value : Value) → value.toTree = .ok tree → tree.HasDistinctKeys
  | .null, h | .bool _, h | .string _, h => by
    cases h
    nofun
  | .number n, h => by
    cases h
    cases n <;> nofun
  | .sequence items, h => by
    obtain ⟨trees, htrees, rfl⟩ := map_eq_ok_iff.1 h
    exact hasDistinctKeys_array (hasDistinctKeys_itemsToTree items htrees)
  | .mapping entries, h => by
    obtain ⟨trees, htrees, rfl⟩ := map_eq_ok_iff.1 h
    exact (entriesAreDistinct_entriesToTree entries .nil htrees).object
  | .tagged tag value, h => by
    obtain ⟨inner, hinner, rfl⟩ := map_eq_ok_iff.1 h
    exact (EntriesAreDistinct.nil.insert ("!" ++ tag) (hasDistinctKeys_toTree value hinner)).object
termination_by structural value => value

theorem hasDistinctKeys_itemsToTree {trees : List Tree} :
    (items : List Value) → itemsToTree items = .ok trees → ∀ tree ∈ trees, tree.HasDistinctKeys
  | [], h => by
    cases h
    exact fun _ h => absurd h List.not_mem_nil
  | value :: rest, h => by
    obtain ⟨tree, htree, h⟩ := bind_eq_ok_iff.1 h
    obtain ⟨trees, htrees, h⟩ := bind_eq_ok_iff.1 h
    cases h
    exact List.forall_mem_cons.2 ⟨hasDistinctKeys_toTree value htree, hasDistinctKeys_itemsToTree rest htrees⟩
termination_by structural items => items

theorem entriesAreDistinct_entriesToTree {seen trees : Entries Tree} :
    (entries : List (Value × Value)) → EntriesAreDistinct seen → entriesToTree seen entries = .ok trees →
      EntriesAreDistinct trees
  | [], hseen, h => by
    cases h
    exact hseen
  | (key, value) :: rest, hseen, h => by
    obtain ⟨name, -, h⟩ := bind_eq_ok_iff.1 h
    obtain ⟨tree, htree, h⟩ := bind_eq_ok_iff.1 h
    exact entriesAreDistinct_entriesToTree rest (hseen.insert name (hasDistinctKeys_toTree value htree)) h
termination_by structural entries => entries

end

end Yaml

/-- A decoded tree has no key twice in an object. -/
theorem Format.hasDistinctKeys_decode {format : Format} {text : String} {tree : Tree}
    (h : format.decode text = .ok tree) : tree.HasDistinctKeys := by
  cases format with
  | json =>
    rw [Format.decode] at h
    split at h
    · rename_i hread
      cases h
      exact Json.hasDistinctKeys_readTree hread
    · cases h
  | yaml =>
    rw [Format.decode] at h
    split at h
    · cases h
    · split at h
      · rename_i htree
        cases h
        exact Yaml.hasDistinctKeys_toTree _ htree
      · cases h

end CloudTemplate
