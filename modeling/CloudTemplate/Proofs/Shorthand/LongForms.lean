import CloudTemplate.Proofs.Shorthand.Soundness
/-! Functions by their long names and by their tags. An argument on the line is written out alike behind either. What is
left behind the argument is a fault after a long name and stays where it is after a tag: `expandLongForm_shortForm`. -/
namespace CloudTemplate.Shorthand

def shortForm (f : Intrinsic) (argument : List Char) : List Char := '!' :: (f.tag.toList ++ ' ' :: argument)

theorem expandValue_mark (cs : List Char) :
    expandValue ('!' :: cs) = (tagAt false cs).map fun (value, left) => value.fragment.expansion left := by
  have hmark : hasMark ('!' :: cs) = true := rfl
  have hopens : opensFlow ('!' :: cs) = true := rfl
  rw [expandValue_eq, hmark, hopens, flowAt_mark]
  cases tagAt false cs with
  | error fault => rfl
  | ok read => cases hfragment : read.1.fragment <;> simp [Except.map, Fragment.expansion, hfragment]

theorem tagAt_space (f : Intrinsic) {argument : List Char} (h : afterGap argument = argument) :
    tagAt false (f.tag.toList ++ ' ' :: argument) =
      if argument = [] then .ok (.opened f none, [])
      else if isBlockIndicator argument = true then .ok (.opened f (some argument), [])
      else mapRead (.call f) (flowAt false argument) := by
  refine (tagAt_name f false oneSpace_ne_nil h).trans ?_
  cases argument <;> simp [lacksArgument]

theorem afterGap_trim (cs : List Char) : afterGap (Text.trim cs) = Text.trim cs := by
  cases htrim : Text.trim cs with
  | nil => rfl
  | cons c rest =>
    obtain ⟨tail, htail⟩ := Text.prefix_trimEnd (Text.trimStart cs)
    rw [← Text.trim, htrim] at htail
    have hhead := List.head?_dropWhile_not Text.isBlank cs
    rw [← Text.trimStart, ← htail] at hhead
    have hc : Text.isBlank c = false := by simpa using hhead
    refine afterGap_cons (Bool.eq_false_iff.2 fun hgap => ?_) rest
    rw [Text.isBlank_of_isGap hgap] at hc
    contradiction

/-- Functions that wait for an argument have come to the end of the line. -/
theorem Flow.left_eq_nil_of_waiting (value : Flow) {inFlow : Bool} {cs left : List Char} {names : List String}
    {indicator : Option (List Char)} (h : flowAt inFlow cs = .ok (value, left))
    (hwaiting : value.fragment = .waiting names indicator) : left = [] := by
  cases value with
  | call f argument =>
    cases flowAt_ok h with
    | call _ _ hread =>
      rw [Flow.fragment] at hwaiting
      cases hargument : argument.fragment <;> rw [hargument] at hwaiting <;> cases hwaiting
      exact argument.left_eq_nil_of_waiting hread hargument
  | opened => cases flowAt_ok h <;> rfl
  | _ => cases hwaiting

/-- A value with a text left behind it is complete on its line. -/
theorem Flow.expansion_of_left {value : Flow} {inFlow : Bool} {cs left : List Char}
    (h : flowAt inFlow cs = .ok (value, left)) (hleft : left ≠ []) :
    value.fragment.expansion left = .inline (value.fragment.text ++ left) := by
  cases hfragment : value.fragment with
  | waiting names indicator => exact absurd (value.left_eq_nil_of_waiting h hfragment) hleft
  | _ => rfl

/-- A function by its long name becomes what it becomes by its tag. It fails where that fails, and where a text is left
behind the argument, which stays behind the call when the function is named by its tag. -/
theorem expandLongForm_shortForm (f : Intrinsic) (argument : List Char) :
    match expandLongForm f.longName argument with
    | .ok expansion => expandValue (shortForm f (Text.trim argument)) = .ok expansion
    | .error fault =>
      expandValue (shortForm f (Text.trim argument)) = .error fault ∨
        ∃ value left, flowAt false (shortForm f (Text.trim argument)) = .ok (value, left) ∧ left ≠ [] ∧
          fault = .textAfterArgument f.longName (String.ofList left) ∧
            expandValue (shortForm f (Text.trim argument)) = .ok (.inline (value.fragment.text ++ left)) := by
  have htag := tagAt_space f (afterGap_trim argument)
  rw [expandLongForm_eq, shortForm, expandValue_mark, flowAt_mark]
  generalize Text.trim argument = argument at htag
  by_cases hnil : argument = []
  · rw [if_pos hnil] at htag ⊢
    rw [htag]
    rfl
  by_cases hindicator : isBlockIndicator argument = true
  · rw [if_neg hnil, if_pos hindicator] at htag ⊢
    rw [htag]
    rfl
  rw [if_neg hnil, if_neg hindicator] at htag ⊢
  rw [htag]
  cases hargument : flowAt false argument with
  | error fault => exact .inl rfl
  | ok read =>
    obtain ⟨value, left⟩ := read
    rw [hargument, ← flowAt_mark] at htag
    dsimp only [mapRead]
    by_cases hleft : left = []
    · rw [if_pos hleft, hleft]
      rfl
    · rw [if_neg hleft]
      exact .inr ⟨.call f value, left, rfl, hleft, rfl, congrArg Except.ok (Flow.expansion_of_left htag hleft)⟩

end CloudTemplate.Shorthand
