import CloudTemplate.Proofs.Template.Decoding
import CloudTemplate.Proofs.Template.Reconciliation
import CloudTemplate.Proofs.Template.WellFormed
/-! Templates that are accepted. Where the walk over a tree leaves something out, because it is no mapping, the tree is no
template either. So the tree of a template that has been read holds no stray null at all. -/
namespace CloudTemplate

namespace Tree

def IsResource : Tree → Prop := IsMapping fun attr value => attr = "Properties" → value.IsMapping fun _ _ => True

def IsTemplate : Tree → Prop :=
  IsMapping fun name value => name = "Resources" → value.IsMapping fun _ body => body.IsResource

theorem not_hasStray_mapObject {f : String → Tree → Tree} {p : String → Tree → Prop}
    (h : ∀ key value, p key value → ¬ (f key value).HasStray) {tree : Tree} (htree : tree.IsMapping p) :
    ¬ (mapObject f tree).HasStray := by
  obtain rfl | ⟨entries, rfl, hentries⟩ := htree
  · exact strays_eq_zero_iff.1 rfl
  · rw [mapObject, hasStray_object_iff]
    rintro ⟨_, hmem, hstray⟩
    obtain ⟨e, he, rfl⟩ := List.mem_map.1 hmem
    exact h e.1 e.2 (hentries e he) hstray

theorem IsResource.not_hasStray {tree : Tree} (h : tree.IsResource) : ¬ (pruneResource tree).HasStray := by
  refine not_hasStray_mapObject (fun attr value hvalue => ?_) h
  split
  · rename_i hattr
    exact not_hasStray_mapObject (fun _ property _ => not_hasStray_prune property) (hvalue hattr)
  · exact not_hasStray_prune value

theorem IsTemplate.not_hasStray {tree : Tree} (h : tree.IsTemplate) : ¬ (pruneRoot tree).HasStray := by
  refine not_hasStray_mapObject (fun name value hvalue => ?_) h
  split
  · rename_i hname
    exact not_hasStray_mapObject (fun _ body hbody => hbody.not_hasStray) (hvalue hname)
  · exact not_hasStray_prune value

end Tree

open CloudTemplate.Tree

namespace Template

/-- What is read as a template is one in its resources and their properties. -/
theorem isTemplate_of_ofTree {tree : Tree} {template : Template} (hkeys : tree.HasDistinctKeys)
    (h : ofTree tree = .ok template) : tree.IsTemplate := by
  obtain ⟨root, rfl, hsections⟩ := (exists_ofTree_iff hkeys.namesOnce).1 ⟨template, h⟩
  refine .inr ⟨root, rfl, fun e he hname => ((hsections e he).resources hname).imp fun _ body hbody => ?_⟩
  exact hbody.imp fun attr value hvalue hattr => hvalue.properties hattr

theorem nodup_keys_of_ofTree {tree : Tree} {template : Template} (hkeys : tree.HasDistinctKeys)
    (h : ofTree tree = .ok template) : template.resources.keys.Nodup := by
  rw [(reflects_of_ofTree hkeys.namesOnce h).keys_resources]
  exact (hkeys.valueAt "Resources").object_entries.keys

end Template

theorem hasDistinctKeys_mapObject {f : String → Tree → Tree}
    (h : ∀ key value, value.HasDistinctKeys → (f key value).HasDistinctKeys) {tree : Tree}
    (htree : tree.HasDistinctKeys) : (mapObject f tree).HasDistinctKeys := by
  cases tree with
  | object entries =>
    refine EntriesAreDistinct.object ⟨?_, List.forall_mem_map.2 fun e he => h e.1 e.2 (htree.entry he)⟩
    rw [Entries.keys, List.map_map]
    exact htree.keys
  | _ => exact htree

theorem hasDistinctKeys_prune {tree : Tree} (h : tree.HasDistinctKeys) : tree.prune.HasDistinctKeys := by
  induction tree using Tree.induct with
  | null | bool value | number value | string value => exact h
  | array items ih =>
    rw [prune, pruneItems_eq_map]
    refine hasDistinctKeys_array (List.forall_mem_map.2 fun item hitem => ?_)
    have hmem := List.mem_of_mem_filter hitem
    exact ih item hmem fun entries hholds => h entries (.item hmem hholds)
  | object entries ih =>
    have hkeys : Entries.keys (entries.map fun e => (e.1, e.2.prune)) = Entries.keys entries := by
      rw [Entries.keys, List.map_map]
      rfl
    rw [prune, pruneEntries_eq_map]
    refine EntriesAreDistinct.object ⟨hkeys ▸ h.keys, List.forall_mem_map.2 fun e he => ?_⟩
    exact ih e.1 e.2 he (h.entry he)

theorem hasDistinctKeys_pruneRoot {tree : Tree} (h : tree.HasDistinctKeys) : (pruneRoot tree).HasDistinctKeys := by
  refine hasDistinctKeys_mapObject (fun name value hvalue => ?_) h
  split
  · refine hasDistinctKeys_mapObject (fun _ body hbody => ?_) hvalue
    refine hasDistinctKeys_mapObject (fun attr value hvalue => ?_) hbody
    split
    · exact hasDistinctKeys_mapObject (fun _ _ => hasDistinctKeys_prune) hvalue
    · exact hasDistinctKeys_prune hvalue
  · exact hasDistinctKeys_prune hvalue

/-- A template that has been read comes from a decoded tree. -/
theorem Parsed.exists_of_read {options : Shorthand.Options} {format : Format} {source : List UInt8} {parsed : Parsed}
    (h : Parsed.read options format source = .ok parsed) : ∃ tree : Tree, tree.HasDistinctKeys ∧
      parsed.tree = pruneRoot tree ∧ Template.ofTree parsed.tree = .ok parsed.template := by
  obtain ⟨text, -, h⟩ := bind_eq_ok_iff.1 h
  obtain ⟨tree, htree, h⟩ := bind_eq_ok_iff.1 h
  obtain ⟨template, htemplate, h⟩ := bind_eq_ok_iff.1 h
  cases h
  exact ⟨tree, Format.hasDistinctKeys_decode htree, rfl, htemplate⟩

theorem Parsed.not_hasStray_of_read {options : Shorthand.Options} {format : Format} {source : List UInt8}
    {parsed : Parsed} (h : Parsed.read options format source = .ok parsed) : ¬ parsed.tree.HasStray := by
  obtain ⟨tree, hkeys, htree, htemplate⟩ := Parsed.exists_of_read h
  have haccepted : (pruneRoot tree).IsTemplate :=
    Template.isTemplate_of_ofTree (hasDistinctKeys_pruneRoot hkeys) (htree ▸ htemplate)
  rw [htree, ← isPruning_pruneRoot.idempotent]
  exact haccepted.not_hasStray

/-- Resources that have been read have a name each. -/
theorem Parsed.nodup_keys_of_read {options : Shorthand.Options} {format : Format} {source : List UInt8}
    {parsed : Parsed} (h : Parsed.read options format source = .ok parsed) :
    parsed.template.resources.keys.Nodup := by
  obtain ⟨tree, hkeys, htree, htemplate⟩ := Parsed.exists_of_read h
  exact Template.nodup_keys_of_ofTree (hasDistinctKeys_pruneRoot hkeys) (htree ▸ htemplate)

/-- Reconciling takes out of a tree what is stray where it walks and nothing else, counts what it takes out, gives
notice of it, and has nothing more to do after that. The tree of a template that has been read holds nothing stray. -/
theorem reconcile_takes_strays :
    (∀ tree : Tree, (∀ changed, tree.Reconciles changed ↔ changed = (reconcile tree).1) ∧
      tree.nulls = (reconcile tree).1.nulls + (reconcile tree).2.removed ∧
      ((reconcile tree).2.notice.isSome = true ↔ 0 < (reconcile tree).2.removed) ∧
      (reconcile (reconcile tree).1).1 = (reconcile tree).1 ∧ (reconcile (reconcile tree).1).2.removed = 0) ∧
    ∀ options format source parsed, Parsed.read options format source = .ok parsed → ¬ parsed.tree.HasStray := by
  refine ⟨fun tree => ?_, fun options format source parsed h => Parsed.not_hasStray_of_read h⟩
  have hnulls := isPruning_pruneRoot.nulls_eq tree
  have htree : (reconcile tree).1 = pruneRoot tree := rfl
  refine ⟨isPruning_pruneRoot.iff_eq tree, ?_, Reconciliation.isSome_notice_iff _, ?_, ?_⟩
  · rw [removed_reconcile, htree, hnulls]
  · exact isPruning_pruneRoot.idempotent tree
  · rw [removed_reconcile, htree, reachedStrays_pruneRoot]

def zonesText : String := "\x7b\"Metadata\":\x7b\"Zones\":[null,\"a\"]\x7d\x7d"

def zonesKept : Tree := .object [("Zones", .array [.string "a"])]

/-- The zones are read as a template; one null is taken out of them, and none is left. -/
theorem takes_stray_zone : ∃ parsed, Parsed.read .standard .json (Text.octets zonesText) = .ok parsed ∧
    parsed.tree = .object [("Metadata", zonesKept)] ∧ parsed.reconciliation.removed = 1 ∧ ¬ parsed.tree.HasStray := by
  have hchars : Text.readUtf8 (Text.octets zonesText) = .ok zonesText.toList := by decide +kernel
  have htext : Parsed.textOf (Text.octets zonesText) = .ok zonesText := by
    rw [Parsed.textOf, hchars]
    exact congrArg Except.ok String.ofList_toList
  let zones : Tree := .object [("Metadata", .object [("Zones", .array [.null, .string "a"])])]
  have htree : Json.readTree zonesText = .ok zones := rfl
  have htemplate : Template.ofTree (.object [("Metadata", zonesKept)]) =
      .ok { Template.blank with metadata := some zonesKept } := by
    rw [Template.ofTree_object]
    rfl
  have hread : Parsed.read .standard .json (Text.octets zonesText) =
      .ok ⟨.json, { Template.blank with metadata := some zonesKept }, .object [("Metadata", zonesKept)], ⟨1, .none⟩⟩ := by
    refine bind_eq_ok_iff.2 ⟨zonesText, bind_eq_ok_iff.2 ⟨zonesText, htext, rfl⟩,
      bind_eq_ok_iff.2 ⟨zones, ?_, ?_⟩⟩
    · rw [Format.decode, htree]
    · exact bind_eq_ok_iff.2 ⟨_, htemplate, rfl⟩
  exact ⟨_, hread, rfl, rfl, reconcile_takes_strays.2 _ _ _ _ hread⟩

end CloudTemplate
