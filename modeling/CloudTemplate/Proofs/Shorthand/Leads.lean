import CloudTemplate.Proofs.Shorthand.LayoutParts
import Mathlib.Data.List.TakeWhile
/-! What stands before a value on a line: another value in the same place leaves it as it is. -/
namespace CloudTemplate.Shorthand

theorem opening_takeOpening {line : List Char} (h : line.drop (takeOpening line).length ≠ []) :
    Opening (takeOpening line) := by
  fun_induction takeOpening line with
  | case1 cs ih => exact .space (ih (by simpa using h))
  | case2 => simp at h
  | case3 cs ih => exact .dash (ih (by simpa using h))
  | case4 => exact .nil

theorem takeOpening_drop (line : List Char) : takeOpening (line.drop (takeOpening line).length) = [] := by
  fun_induction takeOpening line with
  | case1 cs ih => simpa using ih
  | case2 => rfl
  | case3 cs ih => simpa using ih
  | case4 cs hspace hlast hdash =>
    rw [List.length_nil, List.drop_zero, takeOpening]
    · exact hspace
    · exact hlast
    · exact hdash

/-- Nothing behind the colon of a key makes the key a marker. -/
theorem takeOpening_colon {key after : List Char} (h : takeOpening (key ++ ':' :: after) = []) (other : List Char) :
    takeOpening (key ++ ':' :: other) = [] := by
  cases key with
  | nil => rfl
  | cons c key =>
    cases key with
    | nil =>
      rw [List.cons_append, List.nil_append, takeOpening.eq_def] at h ⊢
      split at h <;> simp_all
    | cons d key =>
      rw [List.cons_append, List.cons_append, takeOpening.eq_def] at h ⊢
      split at h <;> simp_all

theorem endsKey_of_splitKeyFrom {q : Quoting} {previous : Option Char} {cs key after : List Char}
    (h : splitKeyFrom q previous cs = some (key, after)) : endsKey after = true := by
  induction cs generalizing q previous key with
  | nil => simp [splitKeyFrom] at h
  | cons c cs ih =>
    rw [splitKeyFrom] at h
    split at h
    · contradiction
    · split at h
      · rename_i hc
        cases h
        exact hc.2.2
      · obtain ⟨split, hsplit, heq⟩ := Option.map_eq_some_iff.1 h
        cases heq
        exact ih hsplit

theorem endsKey_append_cons (key : List Char) (c : Char) (cs ds : List Char) :
    endsKey (key ++ c :: cs) = endsKey (key ++ c :: ds) := by
  cases key <;> rfl

/-- A key before one text, before another. -/
theorem splitKeyFrom_colon {q : Quoting} {previous : Option Char} {key after : List Char}
    (h : splitKeyFrom q previous (key ++ ':' :: after) = some (key, after)) (other : List Char) :
    splitKeyFrom q previous (key ++ ':' :: other) =
      if endsKey other then some (key, other)
      else (splitKeyFrom .outside (some ':') other).map fun split => (key ++ ':' :: split.1, split.2) := by
  induction key generalizing q previous with
  | nil =>
    have hq : q = .outside := by
      rw [List.nil_append, splitKeyFrom, if_neg (by simp)] at h
      split at h
      · rename_i hc
        exact hc.1
      · obtain ⟨split, -, heq⟩ := Option.map_eq_some_iff.1 h
        simp at heq
    rw [List.nil_append, splitKeyFrom, if_neg (by simp), hq]
    simp only [true_and]
    rfl
  | cons c key ih =>
    rw [List.cons_append, splitKeyFrom] at h
    split at h
    · contradiction
    · rename_i hcomment
      split at h
      · cases h
      · rename_i hcolon
        obtain ⟨⟨front, back⟩, hsplit, heq⟩ := Option.map_eq_some_iff.1 h
        simp only [Prod.mk.injEq, List.cons.injEq, true_and] at heq
        rw [heq.1, heq.2] at hsplit
        rw [endsKey_append_cons key ':' after other] at hcolon
        rw [List.cons_append, splitKeyFrom, if_neg hcomment, if_neg hcolon, ih hsplit]
        split
        · rfl
        · rw [Option.map_map]
          rfl

theorem splitKey_eq_splitKeyFrom {cs key after : List Char} (h : splitKey cs = some (key, after)) (other : List Char) :
    splitKey (key ++ ':' :: other) = splitKeyFrom .outside none (key ++ ':' :: other) := by
  have hcs := splitKey_append h
  cases key with
  | nil => rfl
  | cons c key =>
    rw [List.cons_append] at hcs ⊢
    rw [← hcs, splitKey] at h
    rw [splitKey]
    split at h
    · contradiction
    · rename_i hc
      rw [if_neg hc]

theorem splitKey_colon {key after : List Char} {cs : List Char} (h : splitKey cs = some (key, after)) (other : List Char) :
    splitKey (key ++ ':' :: other) =
      if endsKey other then some (key, other)
      else (splitKeyFrom .outside (some ':') other).map fun split => (key ++ ':' :: split.1, split.2) := by
  have hcs := splitKey_append h
  have hfrom : splitKeyFrom .outside none (key ++ ':' :: after) = some (key, after) := by
    rw [← splitKey_eq_splitKeyFrom h, hcs, h]
  rw [splitKey_eq_splitKeyFrom h, splitKeyFrom_colon hfrom]

theorem splitKey_of_opensFlow {cs : List Char} (h : opensFlow cs = true) : splitKey cs = none := by
  cases cs with
  | nil => rfl
  | cons c cs =>
    simp only [opensFlow, Bool.or_eq_true, beq_iff_eq] at h
    obtain (rfl | rfl) | rfl := h <;> rfl

theorem takeOpening_of_opensFlow {cs : List Char} (h : opensFlow cs = true) : takeOpening cs = [] := by
  cases cs with
  | nil => rfl
  | cons c cs =>
    simp only [opensFlow, Bool.or_eq_true, beq_iff_eq] at h
    obtain (rfl | rfl) | rfl := h <;> rfl

theorem takeWhile_isSpace_append {gap cs : List Char} (hgap : ∀ c ∈ gap, Text.isSpace c = true)
    (h : opensFlow cs = true) : (gap ++ cs).takeWhile Text.isSpace = gap := by
  rw [List.takeWhile_append_of_pos hgap]
  cases cs with
  | nil => simp
  | cons c cs =>
    simp only [opensFlow, Bool.or_eq_true, beq_iff_eq] at h
    obtain (rfl | rfl) | rfl := h <;> simp [Text.isSpace]

namespace Layout

def Leads (lead : List Char) : Prop := ∀ cs, opensFlow cs = true → (of (lead ++ cs)).lead = lead

theorem of_opening_append {opening cs : List Char} (h : Opening opening) (hopens : opensFlow cs = true) :
    of (opening ++ cs) = ofRest opening none cs := by
  have hopening : takeOpening (opening ++ cs) = opening := by
    rw [h.takeOpening_append, takeOpening_of_opensFlow hopens, List.append_nil]
  simp only [of, hopening, List.drop_left, splitKey_of_opensFlow hopens]

theorem of_key_append {opening key gap after cs ds : List Char} (h : Opening opening)
    (hkey : splitKey cs = some (key, after)) (hstart : takeOpening cs = [])
    (hgap : ∀ c ∈ gap, Text.isSpace c = true) (hne : gap ≠ []) (hopens : opensFlow ds = true) :
    of (opening ++ (key ++ ':' :: gap) ++ ds) = ofRest opening (some (key, gap)) ds := by
  have hcs := splitKey_append hkey
  have hopening : takeOpening (opening ++ (key ++ ':' :: (gap ++ ds))) = opening := by
    rw [← hcs] at hstart
    rw [h.takeOpening_append, takeOpening_colon hstart, List.append_nil]
  have hends : endsKey (gap ++ ds) = true := by
    obtain ⟨c, gap, rfl⟩ := List.exists_cons_of_ne_nil hne
    exact hgap c List.mem_cons_self
  have htext : opening ++ (key ++ ':' :: gap) ++ ds = opening ++ (key ++ ':' :: (gap ++ ds)) := by simp
  rw [htext]
  simp only [of, hopening, List.drop_left, splitKey_colon hkey, hends, if_true, takeWhile_isSpace_append hgap hopens]

theorem leads_opening {opening : List Char} (h : Opening opening) : Leads opening := by
  intro cs hopens
  rw [of_opening_append h hopens]
  simp [ofRest, lead]

theorem leads_key {opening key gap after cs : List Char} (h : Opening opening)
    (hkey : splitKey cs = some (key, after)) (hstart : takeOpening cs = [])
    (hgap : ∀ c ∈ gap, Text.isSpace c = true) (hne : gap ≠ []) : Leads (opening ++ (key ++ ':' :: gap)) := by
  intro ds hopens
  rw [of_key_append h hkey hstart hgap hne hopens]
  simp [ofRest, lead]

/-- The key of a line with a value, and the gap behind its colon. -/
theorem parts_of {line : List Char} (h : (of line).value ≠ []) :
    Opening (of line).opening ∧ ∀ key gap, (of line).key = some (key, gap) →
      (∀ c ∈ gap, Text.isSpace c = true) ∧ gap ≠ [] ∧
        ∃ cs after, splitKey cs = some (key, after) ∧ takeOpening cs = [] := by
  generalize hrest : line.drop (takeOpening line).length = rest
  have hstart : takeOpening rest = [] := hrest ▸ takeOpening_drop line
  have hopening : rest ≠ [] → Opening (takeOpening line) := fun hne => opening_takeOpening (hrest ▸ hne)
  simp only [of, hrest] at h ⊢
  cases hkey : splitKey rest with
  | none =>
    rw [hkey] at h
    refine ⟨hopening fun hnil => ?_, fun key gap hsome => by cases hsome⟩
    rw [hnil] at h
    exact h rfl
  | some split =>
    obtain ⟨key, after⟩ := split
    rw [hkey] at h
    have hends : endsKey after = true := by
      have hfrom := hkey
      rw [← splitKey_append hkey, splitKey_eq_splitKeyFrom hkey] at hfrom
      exact endsKey_of_splitKeyFrom hfrom
    refine ⟨hopening fun hnil => ?_, fun key' gap hsome => ?_⟩
    · rw [hnil] at hkey
      contradiction
    · cases hsome
      refine ⟨fun c hc => List.mem_takeWhile_imp hc, fun hnil => ?_, rest, after, hkey, hstart⟩
      cases after with
      | nil => exact h rfl
      | cons c cs =>
        have hc : Text.isSpace c = true := hends
        simp [hc] at hnil

/-- A collection or a tag where a line has its value. -/
theorem of_lead_append {line cs : List Char} (h : (of line).value ≠ []) (hopens : opensFlow cs = true) :
    of ((of line).lead ++ cs) = ofRest (of line).opening (of line).key cs := by
  obtain ⟨hopening, hkey⟩ := parts_of h
  cases hparts : (of line).key with
  | none =>
    rw [lead, hparts, List.append_nil]
    exact of_opening_append hopening hopens
  | some parts =>
    obtain ⟨key, gap⟩ := parts
    obtain ⟨hgap, hne, cs', after, hsplit, hstart⟩ := hkey key gap hparts
    rw [lead, hparts]
    exact of_key_append hopening hsplit hstart hgap hne hopens

/-- What stands before a value on a line leads. -/
theorem leads_of {line : List Char} (h : (of line).value ≠ []) : Leads (of line).lead := by
  intro cs hopens
  rw [of_lead_append h hopens]
  rfl

end Layout

end CloudTemplate.Shorthand
