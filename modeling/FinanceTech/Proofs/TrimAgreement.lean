import Mathlib.Data.List.Basic
import Mathlib.Algebra.Order.Ring.Nat
import FinanceTech.StringUtilities
import FinanceTech.Library.Trimming

/-! The trims against the text without its leading and trailing blanks. Where the
string has something else in it they agree; where it has not, the two that count
an end position below zero leave the string. -/

namespace FinanceTech.Proofs.TrimAgreement

open Strings StringUtilities Library.Loops Library.Trimming

theorem minus_eq {width first second : Nat} (le : second ≤ first) : minus width first second = first - second := if_pos le

theorem plus_eq {width first second : Nat} (fits : first + second < 2 ^ width) : plus width first second = first + second := if_pos fits

/-- Below zero the size type gives its greatest value. -/
theorem minus_wraps : minus 64 0 1 = npos := by decide

section Cursors

variable {blank : UInt8 → Bool} {str front run back : Text}

theorem readAt_run {position : Nat} (split : str = front ++ run ++ back) (blanks : ∀ c ∈ run, blank c = true)
    (low : front.length ≤ position) (high : position < front.length + run.length) :
    ∃ c, readAt str position = some c ∧ blank c = true := by
  have inside : position < str.length := by
    rw [split, List.length_append, List.length_append]
    omega
  have place : position - front.length < run.length := by omega
  refine ⟨str[position], readAt_inside inside, ?_⟩
  apply blanks
  have same : str[position] = run[position - front.length] := by
    simp only [split, List.append_assoc]
    rw [List.getElem_append_right low, List.getElem_append_left place]
  rw [same]
  exact List.getElem_mem place

theorem readAt_item {item : UInt8} (split : str = front ++ item :: back) : readAt str front.length = some item := by
  have inside : front.length < str.length := by
    rw [split, List.length_append, List.length_cons]
    omega
  rw [readAt_inside inside]
  simp [split]

/-- The cursor from the front stops at the first character that is not blank. -/
theorem skipLeading_stops {item : UInt8} (split : str = run ++ item :: back) (blanks : ∀ c ∈ run, blank c = true)
    (bright : blank item = false) : skipLeading blank str str.length = some run.length := by
  have length : str.length = run.length + (back.length + 1) := by rw [split, List.length_append, List.length_cons]
  apply repeatWhile_trace (fun turn => turn)
  · intro turn less
    have whole : str = [] ++ run ++ (item :: back) := split
    obtain ⟨c, read, isBlank⟩ := readAt_run whole blanks (Nat.zero_le turn) (by simpa using less)
    constructor
    · rw [if_pos (by omega), read]
      exact congrArg some isBlank
    · rfl
  · rw [if_pos (by omega), readAt_item split]
    exact congrArg some bright
  · omega

theorem skipLeading_all (blanks : ∀ c ∈ str, blank c = true) : skipLeading blank str str.length = some str.length := by
  apply repeatWhile_trace (fun turn => turn)
  · intro turn less
    have whole : str = [] ++ str ++ [] := (List.append_nil str).symm
    obtain ⟨c, read, isBlank⟩ := readAt_run whole blanks (Nat.zero_le turn) (by simpa using less)
    constructor
    · rw [if_pos less, read]
      exact congrArg some isBlank
    · rfl
  · rw [if_neg (by omega)]
    rfl
  · omega

/-- The cursor from the back stops at the last character that is not blank. -/
theorem skipTrailing_stops {item : UInt8} (split : str = front ++ item :: run) (blanks : ∀ c ∈ run, blank c = true)
    (bright : blank item = false) : skipTrailing blank str (str.length - 1) = some front.length := by
  have length : str.length = front.length + (run.length + 1) := by rw [split, List.length_append, List.length_cons]
  have whole : str = (front ++ [item]) ++ run ++ [] := by rw [split]; simp
  have ended : str.length - 1 - run.length = front.length := by omega
  rw [← ended]
  apply repeatWhile_trace (fun turn => str.length - 1 - turn)
  · intro turn less
    obtain ⟨c, read, isBlank⟩ := @readAt_run blank str (front ++ [item]) run [] (str.length - 1 - turn) whole blanks
      (by rw [List.length_append, List.length_singleton]; omega) (by rw [List.length_append, List.length_singleton]; omega)
    constructor
    · rw [if_pos (by omega), read]
      exact congrArg some isBlank
    · rw [Nat.sub_sub]
  · rw [ended]
    by_cases zero : front.length = 0
    · rw [if_neg (by omega)]
      rfl
    · rw [if_pos zero, readAt_item split]
      exact congrArg some bright
  · omega

private theorem skipTrailing_all (blanks : ∀ c ∈ str, blank c = true) : skipTrailing blank str (str.length - 1) = some 0 := by
  have whole : str = [] ++ str ++ [] := (List.append_nil str).symm
  rw [← Nat.sub_self (str.length - 1)]
  apply repeatWhile_trace (fun turn => str.length - 1 - turn)
  · intro turn less
    obtain ⟨c, read, isBlank⟩ := @readAt_run blank str [] str [] (str.length - 1 - turn) whole blanks
      (Nat.zero_le _) (by rw [List.length_nil]; omega)
    constructor
    · rw [if_pos (by omega), read]
      exact congrArg some isBlank
    · rw [Nat.sub_sub]
  · rw [Nat.sub_self]
    rfl
  · omega

/-- From the end of an empty string the cursor wraps to a position outside it. -/
theorem skipTrailing_outside {last : Nat} (outside : str.length < last) : skipTrailing blank str last = none := by
  apply repeatWhile_fails
  rw [if_pos (by omega), readAt_outside outside]
  rfl

end Cursors

/-! The string operations at the positions the cursors stop at. -/

theorem erase_front (front rest : Text) : erase (front ++ rest) 0 front.length = some rest := by
  simp [erase]

private theorem erase_back {front run : Text} (count : Nat) (enough : run.length ≤ count) :
    erase (front ++ run) front.length count = some front := by
  have gone : (front ++ run).drop (front.length + count) = [] := by
    apply List.drop_eq_nil_of_le
    rw [List.length_append]
    omega
  simp [erase, gone]

private theorem erase_all {str : Text} : erase str 0 str.length = some [] := by
  simp [erase]

section Shapes

variable {blank : UInt8 → Bool} {str lead core trail : Text}

/-- What the cursors of a string find: where its core starts and where it ends. -/
theorem leading_core (shape : Shape blank str lead core trail) : skipLeading blank str str.length = some lead.length := by
  obtain ⟨first, rest, isFirst, bright⟩ := shape.first
  apply skipLeading_stops _ shape.leading bright
  · exact rest ++ trail
  · rw [shape.split, isFirst, List.append_assoc, List.cons_append]

theorem trailing_core (shape : Shape blank str lead core trail) :
    skipTrailing blank str (str.length - 1) = some (lead.length + core.length - 1) := by
  obtain ⟨rest, last, isLast, bright⟩ := shape.last
  have split : str = (lead ++ rest) ++ last :: trail := by rw [shape.split, isLast]; simp
  have place : lead.length + core.length - 1 = (lead ++ rest).length := by rw [isLast]; simp
  rw [place]
  exact skipTrailing_stops split shape.trailing bright

theorem core_length (shape : Shape blank str lead core trail) : 0 < core.length := by
  obtain ⟨first, rest, isFirst, _⟩ := shape.first
  rw [isFirst]
  exact Nat.succ_pos _

theorem shape_length (shape : Shape blank str lead core trail) : str.length = lead.length + core.length + trail.length := by
  rw [shape.split, List.length_append, List.length_append]

private theorem core_shape (shape : Shape blank str lead core trail) : Shape blank (core ++ trail) [] core trail :=
  { split := rfl
    leading := fun _ member => absurd member List.not_mem_nil
    trailing := shape.trailing
    first := shape.first
    last := shape.last }

/-- Both ends are erased where there is something between them. -/
theorem eraseBlanks_core (shape : Shape blank str lead core trail) (fits : str.length < 2 ^ 64) :
    eraseBlanks blank str = some core := by
  have positive := core_length shape
  have length := shape_length shape
  have split : str = lead ++ (core ++ trail) := by rw [shape.split, List.append_assoc]
  have erased : erase str 0 lead.length = some (core ++ trail) := by rw [split, erase_front]
  have last := trailing_core (core_shape shape)
  rw [List.length_append, List.length_nil, Nat.zero_add] at last
  have rest : minus 64 str.length lead.length = core.length + trail.length := by rw [minus_eq (by omega)]; omega
  have before : minus 64 (core.length + trail.length) 1 = core.length + trail.length - 1 := minus_eq (by omega)
  have behind : plus 64 (core.length - 1) 1 = core.length := by rw [plus_eq (by omega)]; omega
  have count : minus 64 (core.length + trail.length) (core.length - 1) = core.length + trail.length - (core.length - 1) :=
    minus_eq (by omega)
  simp only [eraseBlanks, leading_core shape, erased, rest, before, last, behind, count, Option.bind_eq_bind, Option.bind_some]
  apply erase_back
  omega

/-- Where everything is blank, the end position wraps and is read. -/
theorem eraseBlanks_all (blanks : ∀ c ∈ str, blank c = true) : eraseBlanks blank str = none := by
  have nothing : minus 64 str.length str.length = 0 := by rw [minus_eq (Nat.le_refl _), Nat.sub_self]
  have outside : skipTrailing blank ([] : Text) npos = none := skipTrailing_outside (by decide)
  simp only [eraseBlanks, skipLeading_all blanks, erase_all, nothing, minus_wraps, outside, Option.bind_eq_bind, Option.bind_some,
    Option.bind_none]

end Shapes

def isSpace (c : UInt8) : Bool := c == space

theorem blank_or_shape (blank : UInt8 → Bool) (str : Text) :
    (∀ c ∈ str, blank c = true) ∨ ∃ lead core trail, Shape blank str lead core trail := by
  by_cases bright : ∃ c ∈ str, blank c = false
  · exact Or.inr (shape_exists bright)
  · left
    intro c member
    cases isBlank : blank c with
    | true => rfl
    | false => exact absurd ⟨c, member, isBlank⟩ bright

private theorem stepBack_stops {str front run : Text} {item : UInt8} (split : str = front ++ item :: run) (blanks : ∀ c ∈ run, isSpace c = true)
    (bright : isSpace item = false) : stepBack str str.length = some front.length := by
  have whole : str = (front ++ [item]) ++ run ++ [] := by rw [split]; simp
  have steps : ∀ count ≤ run.length, stepBack str (front.length + 1 + count) = some front.length := by
    intro count less
    induction count with
    | zero =>
      have other : ¬ item = space := by simpa [isSpace] using bright
      simp only [stepBack, readAt_item split, Option.bind_eq_bind, Option.bind_some, if_neg other, Option.pure_def]
    | succ count ih =>
      obtain ⟨c, read, isBlank⟩ := @readAt_run isSpace str (front ++ [item]) run [] (front.length + 1 + count) whole blanks
        (by rw [List.length_append, List.length_singleton]; omega) (by rw [List.length_append, List.length_singleton]; omega)
      have same : c = space := by simpa [isSpace] using isBlank
      rw [← Nat.add_assoc, stepBack, read]
      simp only [Option.bind_eq_bind, Option.bind_some, if_pos same]
      exact ih (by omega)
  have length : str.length = front.length + 1 + run.length := by rw [split, List.length_append, List.length_cons]; omega
  rw [length]
  exact steps run.length (Nat.le_refl _)

private theorem stepBack_all {str : Text} (blanks : ∀ c ∈ str, isSpace c = true) : stepBack str str.length = some 0 := by
  have whole : str = [] ++ str ++ [] := (List.append_nil str).symm
  have steps : ∀ count ≤ str.length, stepBack str count = some 0 := by
    intro count less
    induction count with
    | zero => rfl
    | succ count ih =>
      obtain ⟨c, read, isBlank⟩ := readAt_run whole blanks (Nat.zero_le count) (by rw [List.length_nil]; omega)
      have same : c = space := by simpa [isSpace] using isBlank
      rw [stepBack, read]
      simp only [Option.bind_eq_bind, Option.bind_some, if_pos same]
      exact ih (by omega)
  exact steps str.length (Nat.le_refl _)

section Trims

variable {str lead core trail : Text}

private theorem substr_core (split : str = lead ++ core ++ trail) : substr str lead.length core.length = some core := by
  have inside : lead.length ≤ str.length := by rw [split, List.append_assoc, List.length_append]; omega
  rw [substr, if_pos inside, split, List.append_assoc]
  simp

private theorem trim_1_core (shape : Shape isSpace str lead core trail) (fits : str.length < 2 ^ 64) : trim_1 str = some core := by
  obtain ⟨rest, last, isLast, bright⟩ := shape.last
  have length := shape_length shape
  have split : str = (lead ++ rest) ++ last :: trail := by rw [shape.split, isLast]; simp
  have stop := stepBack_stops split shape.trailing bright
  have place : (lead ++ rest).length = lead.length + (core.length - 1) := by rw [isLast]; simp
  have positive := core_length shape
  have difference : minus 64 (lead.length + (core.length - 1)) lead.length = core.length - 1 := by rw [minus_eq (by omega)]; omega
  have count : plus 64 (core.length - 1) 1 = core.length := by rw [plus_eq (by omega)]; omega
  have beg : skipLeading (fun c => c == space) str str.length = some lead.length := leading_core shape
  rw [place] at stop
  simp only [trim_1, beg, stop, difference, count, Option.bind_eq_bind, Option.bind_some]
  exact substr_core shape.split

private theorem trim_1_all (blanks : ∀ c ∈ str, isSpace c = true) : trim_1 str = some [] := by
  have beg : skipLeading (fun c => c == space) str str.length = some str.length := skipLeading_all blanks
  simp only [trim_1, beg, stepBack_all blanks, Option.bind_eq_bind, Option.bind_some]
  simp [substr]

private theorem findFirstNotOf_item {run back : Text} {item : UInt8} (blanks : ∀ c ∈ run, isSpace c = true) (bright : isSpace item = false) :
    findFirstNotOf (run ++ item :: back) space = run.length := by
  have other : (item != space) = true := by simpa [isSpace] using bright
  have none : run.findIdx? (fun c => c != space) = .none := by
    apply List.findIdx?_eq_none_iff.mpr
    intro c member
    simpa [isSpace] using blanks c member
  simp [findFirstNotOf, List.findIdx?_append, none, List.findIdx?_cons, other]

private theorem findFirstNotOf_all (blanks : ∀ c ∈ str, isSpace c = true) : findFirstNotOf str space = npos := by
  have none : str.findIdx? (fun c => c != space) = .none := by
    apply List.findIdx?_eq_none_iff.mpr
    intro c member
    simpa [isSpace] using blanks c member
  simp [findFirstNotOf, none]

/-- Blanks in front are erased up to the first other character. -/
theorem erase_leading {run : Text} (blanks : ∀ c ∈ run, isSpace c = true) (bright : ∃ item rest, core = item :: rest ∧ isSpace item = false) :
    erase (run ++ core) 0 (findFirstNotOf (run ++ core) space) = some core := by
  obtain ⟨item, rest, rfl, isBright⟩ := bright
  rw [findFirstNotOf_item blanks isBright]
  exact erase_front run _

private theorem trim_2_core (shape : Shape isSpace str lead core trail) : trim_2 str = some core := by
  obtain ⟨first, rest, isFirst, bright⟩ := shape.first
  obtain ⟨before, last, isLast, dark⟩ := shape.last
  have split : str = lead ++ (core ++ trail) := by rw [shape.split, List.append_assoc]
  have front : erase str 0 (findFirstNotOf str space) = some (core ++ trail) := by
    rw [split]
    exact erase_leading shape.leading ⟨first, rest ++ trail, by rw [isFirst]; rfl, bright⟩
  have back : erase (core ++ trail).reverse 0 (findFirstNotOf (core ++ trail).reverse space) = some core.reverse := by
    rw [List.reverse_append]
    apply erase_leading
    · intro c member
      exact shape.trailing c (List.mem_reverse.mp member)
    · exact ⟨last, before.reverse, by rw [isLast]; simp, dark⟩
  simp only [trim_2, front, back, Option.bind_eq_bind, Option.bind_some, Option.pure_def, List.reverse_reverse]

theorem erase_npos (fits : str.length ≤ npos) : erase str 0 npos = some [] := by
  have gone : str.drop npos = [] := List.drop_eq_nil_of_le fits
  rw [erase, if_pos (Nat.zero_le _), Nat.zero_add, gone]
  rfl

theorem trim_2_all (blanks : ∀ c ∈ str, isSpace c = true) (fits : str.length ≤ npos) : trim_2 str = some [] := by
  have front : erase str 0 (findFirstNotOf str space) = some [] := by rw [findFirstNotOf_all blanks, erase_npos fits]
  have back : erase [] 0 (findFirstNotOf [] space) = some [] := erase_npos (Nat.zero_le _)
  simp only [trim_2, front, List.reverse_nil, back, Option.bind_eq_bind, Option.bind_some, Option.pure_def]

theorem trim_core (shape : Shape isSpace str lead core trail) (fits : str.length < 2 ^ 64) : trim str = some core := by
  have length := shape_length shape
  have positive := core_length shape
  have before : minus 64 str.length 1 = str.length - 1 := minus_eq (by omega)
  have last : skipTrailing (fun c => c == space) str (str.length - 1) = some (lead.length + core.length - 1) := trailing_core shape
  have difference : minus 64 (lead.length + core.length - 1) lead.length = core.length - 1 := by rw [minus_eq (by omega)]; omega
  have count : plus 64 (core.length - 1) 1 = core.length := by rw [plus_eq (by omega)]; omega
  have start : skipLeading (fun c => c == space) str str.length = some lead.length := leading_core shape
  simp only [trim, start, before, last, difference, count, Option.bind_eq_bind, Option.bind_some]
  rw [view, if_pos (by omega), shape.split, List.append_assoc]
  simp

/-- The view of a blank string starts at its end and is one less than nothing long, unless it is a single blank. -/
theorem trim_all (blanks : ∀ c ∈ str, isSpace c = true) (fits : str.length < 2 ^ 64) :
    trim str = some [] ↔ str.length = 1 := by
  have start : skipLeading (fun c => c == space) str str.length = some str.length := skipLeading_all blanks
  by_cases empty : str.length = 0
  · have outside : skipTrailing (fun c => c == space) str npos = none := by
      apply skipTrailing_outside
      rw [empty]
      decide
    have before : minus 64 str.length 1 = npos := by rw [empty, minus_wraps]
    have nothing : trim str = none := by
      simp only [trim, start, before, outside, Option.bind_eq_bind, Option.bind_some, Option.bind_none]
    rw [nothing, empty]
    simp
  · have before : minus 64 str.length 1 = str.length - 1 := minus_eq (by omega)
    have last : skipTrailing (fun c => c == space) str (str.length - 1) = some 0 := skipTrailing_all blanks
    have difference : minus 64 0 str.length = 2 ^ 64 - str.length := by
      rw [minus, if_neg (by omega), Nat.zero_add]
    simp only [trim, start, before, last, difference, Option.bind_eq_bind, Option.bind_some]
    by_cases single : str.length = 1
    · rw [single]
      have wrapped : plus 64 (2 ^ 64 - 1) 1 = 0 := by decide
      rw [wrapped, view, if_pos (by omega)]
      simp
    · have long : plus 64 (2 ^ 64 - str.length) 1 = 2 ^ 64 - str.length + 1 := plus_eq (by omega)
      rw [long, view, if_neg (by omega)]
      simp [single]

end Trims

/-- All four give this text. -/
structure AllTrim (str text : Text) : Prop where
  trim_1 : trim_1 str = some text
  trim_2 : trim_2 str = some text
  trim_3 : trim_3 str = some text
  trim : trim str = some text

theorem allTrim_core {str lead core trail : Text} (shape : Shape isSpace str lead core trail) (fits : str.length < 2 ^ 64) :
    AllTrim str core :=
  { trim_1 := trim_1_core shape fits
    trim_2 := trim_2_core shape
    trim_3 := eraseBlanks_core shape fits
    trim := trim_core shape fits }

/-- The four agree exactly where something in the string is not blank. The first two are right
everywhere, the last one on a single blank as well. -/
theorem trims_agree_iff (str : Text) (fits : str.length ≤ maxSize) :
    (AllTrim str (trimmed isSpace str) ↔ ∃ c ∈ str, c ≠ space) ∧
      trim_1 str = some (trimmed isSpace str) ∧ trim_2 str = some (trimmed isSpace str) ∧
      (trim_3 str = some (trimmed isSpace str) ↔ ∃ c ∈ str, c ≠ space) ∧
      (trim str = some (trimmed isSpace str) ↔ (∃ c ∈ str, c ≠ space) ∨ str.length = 1) := by
  have small : str.length < 2 ^ 64 := by unfold maxSize at fits; omega
  rcases blank_or_shape isSpace str with blanks | ⟨lead, core, trail, shape⟩
  · have none : ¬ ∃ c ∈ str, c ≠ space := by
      rintro ⟨c, member, other⟩
      apply other
      simpa [isSpace] using blanks c member
    have failed : trim_3 str = .none := eraseBlanks_all blanks
    rw [trimmed_blank blanks]
    refine ⟨⟨?_, fun some => absurd some none⟩, trim_1_all blanks, trim_2_all blanks (Nat.le_of_lt_succ small), ?_, ?_⟩
    · intro all
      exact absurd (failed.symm.trans all.trim_3) (by simp)
    · simp [failed, none]
    · simp only [none, false_or]
      exact trim_all blanks small
  · have some : ∃ c ∈ str, c ≠ space := by
      obtain ⟨first, rest, isFirst, bright⟩ := shape.first
      refine ⟨first, ?_, by simpa [isSpace] using bright⟩
      rw [shape.split, isFirst]
      simp
    have all := allTrim_core shape small
    rw [shape.trimmed_eq]
    exact ⟨⟨fun _ => some, fun _ => all⟩, all.trim_1, all.trim_2, ⟨fun _ => some, fun _ => all.trim_3⟩, ⟨fun _ => Or.inl some, fun _ => all.trim⟩⟩

theorem trims_agree_iff_word :
    AllTrim ([' ', 'a', ' ', 'b', ' '].map Char.toUInt8) (trimmed isSpace ([' ', 'a', ' ', 'b', ' '].map Char.toUInt8)) :=
  (trims_agree_iff _ (by decide)).1.mpr (by decide)

theorem trims_two_blanks : ¬ ∀ str : Text, str.length ≤ maxSize → AllTrim str (trimmed isSpace str) := by
  intro all
  have failed : trim_3 [space, space] = none := by decide
  have trims := (all [space, space] (by decide)).trim_3
  exact absurd (failed.symm.trans trims) (by simp)

end FinanceTech.Proofs.TrimAgreement
