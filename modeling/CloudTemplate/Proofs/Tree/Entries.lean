import CloudTemplate.Template.Basic
import CloudTemplate.Proofs.Tree.Parts
import Mathlib.Data.List.Nodup
import Mathlib.Data.List.Perm.Basic
/-! Entries with distinct keys, as they arise when one is put in after the other. -/
namespace CloudTemplate

namespace Entries

variable {α : Type}

theorem mem_insert {entries : Entries α} {key : String} {value : α} {e : String × α}
    (h : e ∈ entries.insert key value) : e = (key, value) ∨ e ∈ entries := by
  induction entries with
  | nil => exact .inl (List.mem_singleton.1 h)
  | cons first rest ih =>
    rw [insert] at h
    split at h
    · exact (List.mem_cons.1 h).imp_right (List.mem_cons_of_mem first)
    · cases h with
      | head => exact .inr List.mem_cons_self
      | tail _ h => exact (ih h).imp_right (List.mem_cons_of_mem first)

theorem nodup_keys_insert {entries : Entries α} (h : entries.keys.Nodup) (key : String) (value : α) :
    (entries.insert key value).keys.Nodup := by
  rw [keys_insert]
  cases hmem : entries.contains key with
  | true => exact h
  | false =>
    have hfresh : key ∉ entries.keys := by rw [← contains_iff_mem_keys, hmem]; exact Bool.false_ne_true
    rw [if_neg Bool.false_ne_true, ← List.concat_eq_append]
    exact h.concat hfresh

theorem insert_of_not_mem {entries : Entries α} {key : String} (h : key ∉ entries.keys) (value : α) :
    entries.insert key value = entries ++ [(key, value)] := by
  induction entries with
  | nil => rfl
  | cons e rest ih =>
    rw [keys, List.map_cons, List.mem_cons, not_or] at h
    rw [insert, if_neg (by simpa using Ne.symm h.1), ih h.2, List.cons_append]

/-- With distinct keys every entry is the one of its key. -/
theorem get?_of_mem {entries : Entries α} (hnodup : entries.keys.Nodup) {key : String} {value : α}
    (h : (key, value) ∈ entries) : entries.get? key = some value := by
  induction entries with
  | nil => exact absurd h List.not_mem_nil
  | cons e rest ih =>
    rw [keys, List.map_cons, List.nodup_cons] at hnodup
    rw [get?_cons]
    cases h with
    | head => rw [if_pos rfl]
    | tail _ h =>
      have hne : e.1 ≠ key := fun heq => hnodup.1 (List.mem_map.2 ⟨_, h, heq.symm⟩)
      rw [if_neg hne]
      exact ih hnodup.2 h

theorem mem_of_get? {entries : Entries α} {key : String} {value : α} (h : entries.get? key = some value) :
    (key, value) ∈ entries := by
  obtain ⟨⟨name, found⟩, hfind, rfl⟩ := Option.map_eq_some_iff.1 h
  have hname : name = key := by simpa using List.find?_some hfind
  exact hname ▸ List.mem_of_find?_eq_some hfind

theorem get?_eq_some_iff {entries : Entries α} (h : entries.keys.Nodup) {key : String} {value : α} :
    entries.get? key = some value ↔ (key, value) ∈ entries :=
  ⟨mem_of_get?, get?_of_mem h⟩

theorem forall_get?_iff {entries : Entries α} (h : entries.keys.Nodup) {key : String} {p : α → Prop} :
    (∀ value, entries.get? key = some value → p value) ↔ ∀ e ∈ entries, e.1 = key → p e.2 := by
  simp only [get?_eq_some_iff h]
  constructor
  · rintro hp ⟨_, value⟩ hmem rfl
    exact hp value hmem
  · exact fun hp value hmem => hp (key, value) hmem rfl

theorem erase_of_not_mem {entries : Entries α} {key : String} (h : key ∉ entries.keys) : entries.erase key = entries := by
  refine List.filter_eq_self.2 fun e he => ?_
  exact bne_iff_ne.2 fun heq => h (List.mem_map.2 ⟨e, he, heq⟩)

/-- Where the entry of a key was, another one stands for it. -/
theorem perm_replace {entries : Entries α} (hnodup : entries.keys.Nodup) {key : String} (hmem : key ∈ entries.keys)
    (other : String × α) :
    (entries.map fun e => if e.1 == key then other else e).Perm (other :: entries.erase key) := by
  induction entries with
  | nil => exact absurd hmem List.not_mem_nil
  | cons e rest ih =>
    rw [keys, List.map_cons] at hnodup hmem
    obtain ⟨hfresh, hrest⟩ := List.nodup_cons.1 hnodup
    by_cases h : e.1 = key
    · have hkept : (rest.map fun e => if e.1 == key then other else e) = rest := by
        refine (List.map_congr_left fun f hf => if_neg ?_).trans (List.map_id rest)
        exact fun heq => hfresh (List.mem_map.2 ⟨f, hf, (beq_iff_eq.1 heq).trans h.symm⟩)
      have herase : erase (e :: rest) key = rest := by
        rw [erase, List.filter_cons_of_neg (by simp [h])]
        exact erase_of_not_mem (h ▸ hfresh)
      rw [List.map_cons, if_pos (beq_iff_eq.2 h), hkept, herase]
    · have hmem : key ∈ keys rest := (List.mem_cons.1 hmem).resolve_left (Ne.symm h)
      have herase : erase (e :: rest) key = e :: erase rest key := List.filter_cons_of_pos (bne_iff_ne.2 h)
      rw [List.map_cons, if_neg (by simpa using h), herase]
      exact ((ih hrest hmem).cons e).trans (.swap other e _)

theorem swapErase_of_not_mem {entries : Entries α} {key : String} (h : key ∉ entries.keys) :
    entries.swapErase key = entries := by
  rw [swapErase]
  cases hlast : entries.getLast? with
  | none => exact (List.getLast?_eq_none_iff.1 hlast).symm
  | some last =>
    have hcontains : entries.contains key = false := by
      rw [Bool.eq_false_iff, Ne, contains_iff_mem_keys]
      exact h
    dsimp only
    rw [hcontains]
    rfl

/-- What is left when an entry is taken out are the other entries, in some order. -/
theorem swapErase_perm {entries : Entries α} (h : entries.keys.Nodup) (key : String) :
    (entries.swapErase key).Perm (entries.erase key) := by
  by_cases hmem : key ∈ entries.keys
  · obtain rfl | ⟨front, last, rfl⟩ := List.eq_nil_or_concat entries
    · exact absurd hmem List.not_mem_nil
    rw [List.concat_eq_append] at h hmem ⊢
    have hcontains := (contains_iff_mem_keys _ _).2 hmem
    rw [keys, List.map_append, List.map_singleton] at h hmem
    obtain ⟨hfront, -, hlast⟩ := List.nodup_append.1 h
    rw [swapErase, List.getLast?_concat, List.dropLast_concat]
    simp only [hcontains, Bool.not_true, Bool.false_eq_true, if_false]
    by_cases hkey : last.1 = key
    · have hfresh : key ∉ keys front := fun hmem => hlast key hmem last.1 (List.mem_singleton_self _) hkey.symm
      have herase : erase (front ++ [last]) key = front := by
        rw [erase, List.filter_append, List.filter_cons_of_neg (by simp [hkey]), List.filter_nil, List.append_nil]
        exact erase_of_not_mem hfresh
      rw [if_pos (beq_iff_eq.2 hkey), herase]
    · have hmem : key ∈ keys front :=
        (List.mem_append.1 hmem).resolve_right fun hmem => hkey (List.mem_singleton.1 hmem).symm
      have herase : erase (front ++ [last]) key = erase front key ++ [last] := by
        rw [erase, List.filter_append, List.filter_cons_of_pos (by simpa using hkey), List.filter_nil]
        rfl
      rw [if_neg (by simpa using hkey), herase]
      exact (perm_replace hfront hmem last).trans (List.perm_append_singleton last _).symm
  · rw [swapErase_of_not_mem hmem, erase_of_not_mem hmem]

theorem nodup_keys_swapErase {entries : Entries α} (h : entries.keys.Nodup) (key : String) :
    (entries.swapErase key).keys.Nodup :=
  ((swapErase_perm h key).map Prod.fst).nodup_iff.2 (h.sublist (List.filter_sublist.map Prod.fst))

theorem mem_swapErase_iff {entries : Entries α} (h : entries.keys.Nodup) {key : String} {e : String × α} :
    e ∈ entries.swapErase key ↔ e ∈ entries ∧ e.1 ≠ key := by
  rw [(swapErase_perm h key).mem_iff, erase, List.mem_filter, bne_iff_ne]

def dropNull (entries : Entries Tree) (key : String) : Entries Tree :=
  if Tree.isNullAt entries key then entries.swapErase key else entries

section

variable {entries : Entries Tree} {names : List String}

theorem nodup_keys_dropNull (h : entries.keys.Nodup) (key : String) : (entries.dropNull key).keys.Nodup := by
  rw [dropNull]
  split
  · exact nodup_keys_swapErase h key
  · exact h

theorem mem_dropNull_iff (h : entries.keys.Nodup) {key : String} {e : String × Tree} :
    e ∈ entries.dropNull key ↔ e ∈ entries ∧ (e.1 = key → e.2 ≠ .null) := by
  have hnull (he : e ∈ entries) (hkey : e.1 = key) : Tree.isNullAt entries key = true ↔ e.2 = .null := by
    rw [Tree.isNullAt, ← hkey, get?_of_mem h he, Option.any_some, Tree.isNull_iff]
  rw [dropNull]
  split
  · rename_i hdrop
    rw [mem_swapErase_iff h]
    refine and_congr_right fun he => ⟨fun hne hkey => absurd hkey hne, fun hkeep hkey => ?_⟩
    exact hkeep hkey ((hnull he hkey).1 hdrop)
  · rename_i hdrop
    exact ⟨fun he => ⟨he, fun hkey hvalue => hdrop ((hnull he hkey).2 hvalue)⟩, And.left⟩

theorem nodup_keys_foldl_dropNull (h : entries.keys.Nodup) : (names.foldl dropNull entries).keys.Nodup := by
  induction names generalizing entries with
  | nil => exact h
  | cons name names ih => exact ih (nodup_keys_dropNull h name)

theorem mem_foldl_dropNull_iff (h : entries.keys.Nodup) {e : String × Tree} :
    e ∈ names.foldl dropNull entries ↔ e ∈ entries ∧ (e.1 ∈ names → e.2 ≠ .null) := by
  induction names generalizing entries with
  | nil => simp
  | cons name names ih =>
    rw [List.foldl_cons, ih (nodup_keys_dropNull h name), mem_dropNull_iff h, and_assoc, List.mem_cons, or_imp]

/-- Where a null is read like an absence, taking nulls out makes no difference. -/
theorem getD_get?_foldl_dropNull (names : List String) (h : entries.keys.Nodup) (key : String) :
    ((names.foldl dropNull entries).get? key).getD .null = (entries.get? key).getD .null := by
  have hkept : (names.foldl dropNull entries).keys.Nodup := nodup_keys_foldl_dropNull h
  have hget (x : Tree) : (names.foldl dropNull entries).get? key = some x ↔
      entries.get? key = some x ∧ (key ∈ names → x ≠ .null) := by
    rw [get?_eq_some_iff hkept, get?_eq_some_iff h, mem_foldl_dropNull_iff h]
  cases hkeep : (names.foldl dropNull entries).get? key with
  | some x => rw [((hget x).1 hkeep).1]
  | none =>
    cases hdrop : entries.get? key with
    | none => rfl
    | some x =>
      have hnull : x = .null := by
        by_contra hvalue
        rw [(hget x).2 ⟨hdrop, fun _ => hvalue⟩] at hkeep
        cases hkeep
      rw [hnull]
      rfl

end

end Entries

namespace Tree

theorem hasDistinctKeys_array {items : List Tree} (h : ∀ item ∈ items, item.HasDistinctKeys) :
    (Tree.array items).HasDistinctKeys := by
  intro entries hholds
  cases hholds with
  | item hmem hholds => exact h _ hmem entries hholds

structure EntriesAreDistinct (entries : Entries Tree) : Prop where
  keys : entries.keys.Nodup
  values : ∀ e ∈ entries, e.2.HasDistinctKeys

theorem EntriesAreDistinct.nil : EntriesAreDistinct [] := ⟨List.nodup_nil, fun _ h => absurd h List.not_mem_nil⟩

theorem EntriesAreDistinct.cons {entries : Entries Tree} {key : String} {value : Tree} (hkey : key ∉ entries.keys)
    (hvalue : value.HasDistinctKeys) (h : EntriesAreDistinct entries) : EntriesAreDistinct ((key, value) :: entries) where
  keys := List.nodup_cons.2 ⟨hkey, h.keys⟩
  values := List.forall_mem_cons.2 ⟨hvalue, h.values⟩

theorem EntriesAreDistinct.insert {entries : Entries Tree} (h : EntriesAreDistinct entries) (key : String) {value : Tree}
    (hvalue : value.HasDistinctKeys) : EntriesAreDistinct (entries.insert key value) where
  keys := Entries.nodup_keys_insert h.keys key value
  values := fun e he => by
    obtain rfl | he := Entries.mem_insert he
    · exact hvalue
    · exact h.values e he

theorem EntriesAreDistinct.object {entries : Entries Tree} (h : EntriesAreDistinct entries) :
    (Tree.object entries).HasDistinctKeys := by
  intro others hholds
  cases hholds with
  | self => exact h.keys
  | entry hmem hholds => exact h.values _ hmem others hholds

end Tree

end CloudTemplate
