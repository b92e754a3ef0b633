import CloudTemplate.Number.Numeral
import Mathlib.Data.List.TakeWhile
import Mathlib.Tactic.ByContra
/-! The characters of numerals. -/
namespace CloudTemplate.Number

theorem isAlpha_of_toLower {c : Char} (h : c.toLower.isAlpha = true) : c.isAlpha = true := by
  by_cases hupper : 'A'.val ≤ c.val ∧ c.val ≤ 'Z'.val
  · have hisUpper : c.isUpper = true := decide_eq_true hupper
    change (c.isUpper || c.isLower) = true
    rw [hisUpper, Bool.true_or]
  · have hlower : c.toLower = c := dif_neg hupper
    rwa [hlower] at h

def isNumeralChar (c : Char) : Bool := c.isAlphanum || c == '.' || c == '+' || c == '-'

theorem isNumeralChar_of_isDigit {c : Char} (h : c.isDigit = true) : isNumeralChar c = true := by
  simp [isNumeralChar, Char.isAlphanum, h]

theorem isNumeralChar_of_takeSign {cs : List Char} (h : ∀ c ∈ (takeSign cs).2, isNumeralChar c = true) :
    ∀ c ∈ cs, isNumeralChar c = true := by
  intro c hc
  cases cs with
  | nil => exact absurd hc List.not_mem_nil
  | cons d ds =>
    by_cases hplus : d = '+'
    · subst hplus
      obtain rfl | hc := List.mem_cons.1 hc
      · rfl
      · exact h c hc
    · by_cases hminus : d = '-'
      · subst hminus
        obtain rfl | hc := List.mem_cons.1 hc
        · rfl
        · exact h c hc
      · have hsame : (takeSign (d :: ds)).2 = d :: ds := by
          rw [takeSign.eq_def]
          split <;> simp_all
        rw [hsame] at h
        exact h c hc

theorem isNumeralChar_of_readExponent {cs : List Char} (h : (readExponent cs).isSome = true) :
    ∀ c ∈ cs, isNumeralChar c = true := by
  cases cs with
  | nil => simp
  | cons e rest =>
    rw [readExponent] at h
    split at h
    · contradiction
    · rename_i hletter
      have hletter : e = 'e' ∨ e = 'E' := by
        by_contra hne
        simp_all
      cases hsign : takeSign rest with
      | mk negative digits =>
      rw [hsign] at h
      dsimp only at h
      split at h
      · contradiction
      · rename_i hdigits
        have hall : (takeSign rest).2.all Char.isDigit = true := by simp_all
        have hrest : ∀ c ∈ rest, isNumeralChar c = true :=
          isNumeralChar_of_takeSign fun c hc => isNumeralChar_of_isDigit (List.all_eq_true.1 hall c hc)
        intro c hc
        obtain rfl | hc := List.mem_cons.1 hc
        · obtain rfl | rfl := hletter <;> rfl
        · exact hrest c hc

theorem isNumeralChar_of_mem_takeWhile {cs : List Char} {c : Char} (h : c ∈ cs.takeWhile Char.isDigit) :
    isNumeralChar c = true := isNumeralChar_of_isDigit (List.mem_takeWhile_imp h)

theorem isNumeralChar_of_readDecimal {negative : Bool} {cs : List Char}
    (h : (readDecimal negative cs).isSome = true) : ∀ c ∈ cs, isNumeralChar c = true := by
  have hrest : ∀ c ∈ cs.dropWhile Char.isDigit, isNumeralChar c = true := by
    rw [readDecimal] at h
    intro c hc
    split at h
    rename_i part rest hpart
    split at h
    · contradiction
    · have hexponent := isNumeralChar_of_readExponent (by simpa using h)
      split at hpart
      · rename_i tail htail
        obtain ⟨rfl, rfl⟩ := Prod.mk.inj hpart
        rw [htail] at hc
        obtain rfl | hc := List.mem_cons.1 hc
        · rfl
        · rw [← List.takeWhile_append_dropWhile (p := Char.isDigit) (l := tail)] at hc
          obtain hc | hc := List.mem_append.1 hc
          · exact isNumeralChar_of_mem_takeWhile hc
          · exact hexponent c hc
      · obtain ⟨rfl, rfl⟩ := Prod.mk.inj hpart
        exact hexponent c hc
  intro c hc
  rw [← List.takeWhile_append_dropWhile (p := Char.isDigit) (l := cs)] at hc
  obtain hc | hc := List.mem_append.1 hc
  · exact isNumeralChar_of_mem_takeWhile hc
  · exact hrest c hc

theorem isNumeralChar_of_readNumeral {cs : List Char} (h : (readNumeral cs).isSome = true) :
    ∀ c ∈ cs, isNumeralChar c = true := by
  refine isNumeralChar_of_takeSign ?_
  rw [readNumeral] at h
  split at h
  rename_i negative rest hsign
  rw [hsign]
  split at h
  · rename_i numeral hdecimal
    exact isNumeralChar_of_readDecimal (by rw [hdecimal]; rfl)
  · have hword (word : String) (halpha : word.toList.all Char.isAlpha = true)
        (heq : String.ofList (rest.map Char.toLower) = word) : ∀ c ∈ rest, isNumeralChar c = true := by
      intro c hc
      have hmem : c.toLower ∈ word.toList := by
        rw [← heq, String.toList_ofList]
        exact List.mem_map_of_mem hc
      have hc := isAlpha_of_toLower (List.all_eq_true.1 halpha _ hmem)
      simp [isNumeralChar, Char.isAlphanum, hc]
    dsimp only at h
    split at h
    · rename_i hinfinite
      obtain heq | heq := Bool.or_eq_true_iff.1 hinfinite
      · exact hword "inf" (by decide) (of_decide_eq_true heq)
      · exact hword "infinity" (by decide) (of_decide_eq_true heq)
    · split at h
      · rename_i hundefined
        exact hword "nan" (by decide) hundefined
      · contradiction

end CloudTemplate.Number
