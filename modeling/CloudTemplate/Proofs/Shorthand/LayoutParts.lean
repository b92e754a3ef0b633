import CloudTemplate.Proofs.Text.Trim
import CloudTemplate.Shorthand.Layout
/-! Lines put together from an opening, a key and a value are taken apart in the same places. -/
namespace CloudTemplate.Shorthand

inductive Opening : List Char → Prop
  | nil : Opening []
  | space {p : List Char} (h : Opening p) : Opening (' ' :: p)
  | dash {p : List Char} (h : Opening p) : Opening ('-' :: ' ' :: p)

namespace Opening

theorem append {p q : List Char} (hp : Opening p) (hq : Opening q) : Opening (p ++ q) := by
  induction hp with
  | nil => exact hq
  | space _ ih => exact .space ih
  | dash _ ih => exact .dash ih

theorem spaces (n : Nat) : Opening (Text.spaces n) := by
  induction n with
  | zero => exact .nil
  | succ n ih => exact .space ih

theorem takeOpening_append {p : List Char} (h : Opening p) (cs : List Char) :
    takeOpening (p ++ cs) = p ++ takeOpening cs := by
  induction h with
  | nil => rfl
  | space _ ih => rw [List.cons_append, takeOpening, ih]; rfl
  | dash _ ih => rw [List.cons_append, List.cons_append, takeOpening, ih]; rfl

end Opening

theorem takeOpening_cons {c : Char} (hspace : c ≠ ' ') (hdash : c ≠ '-') (cs : List Char) :
    takeOpening (c :: cs) = [] := by
  unfold takeOpening
  split <;> simp_all

theorem splitCommentFrom_eq {cs : List Char} (h : '#' ∉ cs) (q : Quoting) (atStart : Bool) :
    splitCommentFrom q atStart cs = (cs, []) := by
  induction cs generalizing q atStart with
  | nil => rfl
  | cons c cs ih =>
    obtain ⟨hc, hcs⟩ := List.ne_and_not_mem_of_not_mem_cons h
    rw [splitCommentFrom, if_neg (by simp [hc.symm]), ih hcs]

theorem splitKeyFrom_eq_none {cs : List Char} (h : ':' ∉ cs) (q : Quoting) (previous : Option Char) :
    splitKeyFrom q previous cs = none := by
  induction cs generalizing q previous with
  | nil => rfl
  | cons c cs ih =>
    obtain ⟨hc, hcs⟩ := List.ne_and_not_mem_of_not_mem_cons h
    rw [splitKeyFrom]
    split
    · rfl
    · rw [if_neg (by simp [hc.symm]), ih hcs]
      rfl

def isQuiet (c : Char) : Bool := c != '#' && c != ':' && c != '"'

theorem splitKeyFrom_quiet {key : List Char} (h : ∀ c ∈ key, isQuiet c = true) {after : List Char}
    (hafter : endsKey after = true) (previous : Option Char) :
    splitKeyFrom .outside previous (key ++ ':' :: after) = some (key, after) := by
  induction key generalizing previous with
  | nil => simp [splitKeyFrom, hafter]
  | cons c key ih =>
    have hc := h c List.mem_cons_self
    simp only [isQuiet, Bool.and_eq_true, bne_iff_ne] at hc
    obtain ⟨⟨hsharp, hcolon⟩, hquote⟩ := hc
    have hnext : Quoting.next .outside c = .outside := if_neg hquote
    rw [List.cons_append, splitKeyFrom, if_neg (by simp [hsharp]), if_neg (by simp [hcolon]), hnext,
      ih fun d hd => h d (List.mem_cons_of_mem c hd)]
    rfl

theorem balanceFrom_eq_zero {cs : List Char} (h : ∀ c ∈ cs, bracketWeight c = 0) (q : Quoting) :
    balanceFrom q cs = 0 := by
  induction cs generalizing q with
  | nil => rfl
  | cons c cs ih =>
    rw [balanceFrom, h c List.mem_cons_self, ih fun d hd => h d (List.mem_cons_of_mem c hd)]
    simp

namespace Layout

theorem ofRest_eq (opening : List Char) (key : Option (List Char × List Char)) {value : List Char}
    (hcomment : '#' ∉ value) (hend : Text.trimEnd value = value) :
    ofRest opening key value = ⟨opening, key, value, []⟩ := by
  simp [ofRest, splitCommentFrom_eq hcomment, hend]

/-- A line without a key. -/
theorem of_value {opening : List Char} (h : Opening opening) {c : Char} {cs : List Char}
    (hspace : c ≠ ' ') (hdash : c ≠ '-') (hkey : splitKey (c :: cs) = none) (hcomment : '#' ∉ c :: cs)
    (hend : Text.trimEnd (c :: cs) = c :: cs) :
    of (opening ++ c :: cs) = ⟨opening, none, c :: cs, []⟩ := by
  have hopening : takeOpening (opening ++ c :: cs) = opening := by
    rw [h.takeOpening_append, takeOpening_cons hspace hdash, List.append_nil]
  simp only [of, hopening, List.drop_left, hkey]
  exact ofRest_eq opening none hcomment hend

/-- A line with a key, and a value on the line or none. -/
theorem of_key {opening : List Char} (h : Opening opening) {key : List Char} (gap value : List Char)
    (hkey : ∀ rest, endsKey rest = true → splitKey (key ++ ':' :: rest) = some (key, rest))
    (hstart : ∀ rest, takeOpening (key ++ ':' :: rest) = [])
    (hgap : ∀ c ∈ gap, Text.isSpace c = true) (hends : endsKey (gap ++ value) = true)
    (hvalue : value.head? ≠ some ' ') (hcomment : '#' ∉ value) (hend : Text.trimEnd value = value) :
    of (opening ++ key ++ ':' :: (gap ++ value)) = ⟨opening, some (key, gap), value, []⟩ := by
  have hopening : takeOpening (opening ++ key ++ ':' :: (gap ++ value)) = opening := by
    rw [List.append_assoc, h.takeOpening_append, hstart, List.append_nil]
  have htake : (gap ++ value).takeWhile Text.isSpace = gap := by
    rw [List.takeWhile_append_of_pos hgap]
    cases value with
    | nil => simp
    | cons c cs =>
      have hc : Text.isSpace c = false := by simpa [Text.isSpace] using hvalue
      rw [List.takeWhile_cons_of_neg (by simp [hc]), List.append_nil]
  simp only [of, hopening]
  rw [List.append_assoc, List.drop_left, hkey _ hends]
  simp only [htake, List.drop_left]
  exact ofRest_eq opening _ hcomment hend

/-- A comment on a line of its own. -/
theorem of_comment (n : Nat) (cs : List Char) :
    of (Text.spaces n ++ '#' :: cs) = ⟨Text.spaces n, none, [], '#' :: cs⟩ := by
  have hopening : takeOpening (Text.spaces n ++ '#' :: cs) = Text.spaces n := by
    rw [(Opening.spaces n).takeOpening_append, takeOpening_cons (by decide) (by decide), List.append_nil]
  simp only [of, hopening, List.drop_left]
  rfl

end Layout

end CloudTemplate.Shorthand
