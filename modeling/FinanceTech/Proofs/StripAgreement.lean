import FinanceTech.Proofs.TrimAgreement

/-! The plain and the fast strip. Both leave the text without its leading and
trailing white space where it has something else in it; the fast one also where
it is white space only, and neither where it is empty. -/

namespace FinanceTech.Proofs.StripAgreement

open Strings StringUtilities Library.Loops Library.Trimming TrimAgreement

def isBlank (c : UInt8) : Bool := symbols.any (fun symbol => symbol == c)

private theorem TBL_eq {c : UInt8} (sevenBit : c < 128) : TBL c = some (isBlank c) := by
  have same : (['\t', '\n', '\r', ' '].map Char.toUInt8).contains c = isBlank c := by
    rw [Bool.eq_iff_iff]
    simp only [isBlank, symbols, List.map_cons, List.map_nil, List.contains_iff_mem, List.mem_cons, List.not_mem_nil, List.any_cons,
      List.any_nil, Bool.or_eq_true, beq_iff_eq, eq_comm (a := c)]
    tauto
  rw [TBL, if_pos sevenBit, same]

/-! The first two loops of `strip_fast`, on a string the table covers. -/

section Cursors

variable {str lead core trail : Text}

theorem table_read {position : Nat} {c : UInt8} (sevenBit : ∀ c ∈ str, c < 128) (read : str[position]? = some c) :
    readAt str position = some c ∧ TBL c = some (isBlank c) := by
  obtain ⟨inside, same⟩ := List.getElem?_eq_some_iff.mp read
  constructor
  · rw [readAt_inside inside, same]
  · exact TBL_eq (sevenBit c (same ▸ List.getElem_mem inside))

theorem leftGoes_at {right left : Nat} {c : UInt8} (sevenBit : ∀ c ∈ str, c < 128) (within : left ≤ right) (read : str[left]? = some c) :
    leftGoes str right left = some (isBlank c) := by
  obtain ⟨reads, table⟩ := table_read sevenBit read
  rw [leftGoes, if_pos within, reads]
  exact table

theorem rightGoes_at {right left : Nat} {c : UInt8} (sevenBit : ∀ c ∈ str, c < 128) (within : left ≤ right) (read : str[right]? = some c) :
    rightGoes str left right = some (isBlank c) := by
  obtain ⟨reads, table⟩ := table_read sevenBit read
  rw [rightGoes, if_pos within, reads]
  exact table

private theorem left_core (shape : Shape isBlank str lead core trail) (sevenBit : ∀ c ∈ str, c < 128) (fits : str.length < 2 ^ 31) :
    repeatWhile (leftGoes str (str.length - 1)) (fun left => some (plus 32 left 1)) (str.length + 1) 0 = some lead.length := by
  obtain ⟨first, rest, isFirst, bright⟩ := shape.first
  have length := shape_length shape
  have positive := core_length shape
  have split : str = lead ++ first :: (rest ++ trail) := by rw [shape.split, isFirst]; simp
  apply repeatWhile_trace (fun turn => turn)
  · intro turn less
    have read : str[turn]? = some lead[turn] := by rw [split, List.getElem?_append_left less, List.getElem?_eq_getElem less]
    constructor
    · rw [leftGoes_at sevenBit (by omega) read, shape.leading _ (List.getElem_mem less)]
    · exact congrArg some (plus_eq (by omega))
  · have read : str[lead.length]? = some first := by rw [split]; simp
    rw [leftGoes_at sevenBit (by omega) read, bright]
  · omega

private theorem left_all (blanks : ∀ c ∈ str, isBlank c = true) (nonempty : 0 < str.length) (sevenBit : ∀ c ∈ str, c < 128)
    (fits : str.length < 2 ^ 31) :
    repeatWhile (leftGoes str (str.length - 1)) (fun left => some (plus 32 left 1)) (str.length + 1) 0 = some str.length := by
  apply repeatWhile_trace (fun turn => turn)
  · intro turn less
    constructor
    · rw [leftGoes_at sevenBit (by omega) (List.getElem?_eq_getElem less), blanks _ (List.getElem_mem less)]
    · exact congrArg some (plus_eq (by omega))
  · rw [leftGoes, if_neg (by omega)]
    rfl
  · omega

private theorem right_core (shape : Shape isBlank str lead core trail) (sevenBit : ∀ c ∈ str, c < 128) :
    repeatWhile (rightGoes str lead.length) (fun right => some (minus 32 right 1)) (str.length + 1) (str.length - 1) =
      some (lead.length + core.length - 1) := by
  obtain ⟨rest, last, isLast, bright⟩ := shape.last
  have length := shape_length shape
  have positive := core_length shape
  have ended : str.length - 1 - trail.length = lead.length + core.length - 1 := by omega
  rw [← ended]
  apply repeatWhile_trace (fun turn => str.length - 1 - turn)
  · intro turn less
    have place : str.length - 1 - turn - (lead ++ core).length < trail.length := by rw [List.length_append]; omega
    have read : str[str.length - 1 - turn]? = some trail[str.length - 1 - turn - (lead ++ core).length] := by
      rw [← List.getElem?_eq_getElem place, ← List.getElem?_append_right (by rw [List.length_append]; omega), ← shape.split]
    constructor
    · rw [rightGoes_at sevenBit (by omega) read, shape.trailing _ (List.getElem_mem place)]
    · rw [minus_eq (by omega), Nat.sub_sub]
  · have place : str.length - 1 - trail.length = (lead ++ rest).length := by
      rw [ended, isLast, List.length_append, List.length_append, List.length_singleton]
      omega
    have read : str[str.length - 1 - trail.length]? = some last := by
      rw [place, shape.split, isLast]
      simp
    rw [rightGoes_at sevenBit (by omega) read, bright]
  · omega

end Cursors

/-! The last loop copies the core to the front, never ahead of what it still has to read. -/

section Copy

variable {str lead core trail : Text}

def copied (str lead core : Text) (turn : Nat) : Cursors :=
  { str := core.take turn ++ str.drop turn, left := lead.length + turn, idx := turn }

private theorem copyOne_copied (split : str = lead ++ core ++ trail) (fits : str.length < 2 ^ 31) {turn : Nat} (less : turn < core.length) :
    copyOne (copied str lead core turn) = some (copied str lead core (turn + 1)) := by
  have length : str.length = lead.length + core.length + trail.length := by rw [split, List.length_append, List.length_append]
  have front : (core.take turn).length = turn := by rw [List.length_take]; omega
  have inside : lead.length + turn < (core.take turn ++ str.drop turn).length := by
    rw [List.length_append, front, List.length_drop]
    omega
  have symbol : (core.take turn ++ str.drop turn)[lead.length + turn] = core[turn] := by
    rw [List.getElem_append_right (by omega), List.getElem_drop]
    have place : turn + (lead.length + turn - (core.take turn).length) = lead.length + turn := by omega
    simp only [place, split, List.append_assoc]
    rw [List.getElem_append_right (by omega), List.getElem_append_left (by omega)]
    simp
  have behind : turn < str.length := by omega
  have written : writeAt (core.take turn ++ str.drop turn) turn core[turn] = some (core.take (turn + 1) ++ str.drop (turn + 1)) := by
    have write := writeAt_append (core.take turn) (str.drop (turn + 1)) str[turn] core[turn]
    rw [front, List.getElem_cons_drop] at write
    rw [write, ← List.take_append_getElem less, List.append_assoc]
    rfl
  simp only [copyOne, copied, readAt_inside inside, symbol, written, Option.bind_eq_bind, Option.bind_some, Option.pure_def]
  rw [plus_eq (by omega), plus_eq (by omega)]
  rfl

private theorem copy_core (split : str = lead ++ core ++ trail) (positive : 0 < core.length) (fits : str.length < 2 ^ 31) :
    repeatWhile (fun cursors => some (decide (cursors.left ≤ lead.length + core.length - 1))) copyOne (str.length + 1)
      { str, left := lead.length, idx := 0 } = some (copied str lead core core.length) := by
  have length : str.length = lead.length + core.length + trail.length := by rw [split, List.length_append, List.length_append]
  apply repeatWhile_trace (copied str lead core)
  · intro turn less
    have within : (copied str lead core turn).left ≤ lead.length + core.length - 1 := by simp only [copied]; omega
    exact ⟨congrArg some (decide_eq_true within), copyOne_copied split fits less⟩
  · have beyond : ¬ (copied str lead core core.length).left ≤ lead.length + core.length - 1 := by simp only [copied]; omega
    exact congrArg some (decide_eq_false beyond)
  · omega

/-- The cursors enclose the core, which is copied to the front. -/
theorem strip_fast_core (shape : Shape isBlank str lead core trail) (sevenBit : ∀ c ∈ str, c < 128) (fits : str.length < 2 ^ 31) :
    strip_fast str = some core := by
  have length := shape_length shape
  have positive := core_length shape
  have right : minus 64 str.length 1 % 2 ^ 32 = str.length - 1 := by
    rw [minus_eq (by omega)]
    exact Nat.mod_eq_of_lt (by omega)
  have left := left_core shape sevenBit fits
  have back := right_core shape sevenBit
  have copy := copy_core shape.split positive fits
  have done : resize (core.take core.length ++ str.drop core.length) core.length = core := by
    rw [List.take_length, resize, List.take_left, Nat.sub_eq_zero_of_le (by rw [List.length_append]; omega)]
    simp
  simp only [strip_fast, right, left, back, copy, Option.bind_eq_bind, Option.bind_some, Option.pure_def, copied, done]

/-- White space only: both cursors pass each other at once. -/
theorem strip_fast_all (blanks : ∀ c ∈ str, isBlank c = true) (nonempty : 0 < str.length) (sevenBit : ∀ c ∈ str, c < 128)
    (fits : str.length < 2 ^ 31) : strip_fast str = some [] := by
  have right : minus 64 str.length 1 % 2 ^ 32 = str.length - 1 := by
    rw [minus_eq nonempty]
    exact Nat.mod_eq_of_lt (by omega)
  have left := left_all blanks nonempty sevenBit fits
  have back : repeatWhile (rightGoes str str.length) (fun right => some (minus 32 right 1)) (str.length + 1) (str.length - 1) =
      some (str.length - 1) := by
    apply repeatWhile_ends
    rw [rightGoes, if_neg (by omega)]
    rfl
  have copy : repeatWhile (fun cursors => some (decide (cursors.left ≤ str.length - 1))) copyOne (str.length + 1)
      { str, left := str.length, idx := 0 } = some { str, left := str.length, idx := 0 } := by
    apply repeatWhile_ends
    exact congrArg some (decide_eq_false (by simp only; omega))
  simp only [strip_fast, right, left, back, copy, Option.bind_eq_bind, Option.bind_some, Option.pure_def]
  simp [resize]

/-- The empty string: the cursor from the back starts where it wraps to. -/
theorem strip_fast_nil : strip_fast [] = none := by decide

end Copy

theorem strip_fast_iff (str : Text) (sevenBit : ∀ c ∈ str, c < 128) (fits : str.length < 2 ^ 31) :
    strip_fast str = some (trimmed isBlank str) ↔ str ≠ [] := by
  constructor
  · rintro ran rfl
    rw [strip_fast_nil] at ran
    simp at ran
  · intro nonempty
    rcases blank_or_shape isBlank str with blanks | ⟨lead, core, trail, shape⟩
    · rw [trimmed_blank blanks]
      exact strip_fast_all blanks (List.length_pos_iff.mpr nonempty) sevenBit fits
    · rw [shape.trimmed_eq]
      exact strip_fast_core shape sevenBit fits

/-- The plain strip is right on the strings that are not all white space. -/
theorem strip_iff (str : Text) (fits : str.length < 2 ^ 31) :
    strip str = some (trimmed isBlank str) ↔ ∃ c ∈ str, isBlank c = false := by
  rcases blank_or_shape isBlank str with blanks | ⟨lead, core, trail, shape⟩
  · have failed : strip str = none := eraseBlanks_all blanks
    rw [failed]
    constructor
    · intro absurd
      simp at absurd
    · rintro ⟨c, member, bright⟩
      rw [blanks c member] at bright
      simp at bright
  · rw [shape.trimmed_eq]
    have ran : strip str = some core := eraseBlanks_core shape (by omega)
    obtain ⟨first, rest, isFirst, bright⟩ := shape.first
    have member : first ∈ str := by rw [shape.split, isFirst]; simp
    exact ⟨fun _ => ⟨first, member, bright⟩, fun _ => ran⟩

/-- The two leave the same text, the one without its white space at both ends, exactly where the string has something else in it. -/
theorem strips_agree_iff (str : Text) (sevenBit : ∀ c ∈ str, c < 128) (fits : str.length < 2 ^ 31) :
    (strip str = some (trimmed isBlank str) ∧ strip_fast str = some (trimmed isBlank str)) ↔ ∃ c ∈ str, isBlank c = false := by
  constructor
  · intro both
    exact (strip_iff str fits).mp both.1
  · rintro ⟨c, member, bright⟩
    exact ⟨(strip_iff str fits).mpr ⟨c, member, bright⟩, (strip_fast_iff str sevenBit fits).mpr (List.ne_nil_of_mem member)⟩

set_option maxRecDepth 4000 in
theorem strips_agree_iff_word :
    strip (['\t', 'a', ' '].map Char.toUInt8) = some (trimmed isBlank (['\t', 'a', ' '].map Char.toUInt8)) ∧
      strip_fast (['\t', 'a', ' '].map Char.toUInt8) = some (trimmed isBlank (['\t', 'a', ' '].map Char.toUInt8)) :=
  (strips_agree_iff _ (by decide) (by decide)).mpr (by decide)

theorem strips_empty : ¬ ∀ str : Text, (∀ c ∈ str, c < 128) → str.length < 2 ^ 31 →
    strip str = some (trimmed isBlank str) ∧ strip_fast str = some (trimmed isBlank str) := by
  intro all
  have failed : strip [] = none := by decide
  have ran := (all [] (by simp) (by decide)).1
  exact absurd (failed.symm.trans ran) (by simp)

end FinanceTech.Proofs.StripAgreement
