import Mathlib.Data.List.Basic
import Mathlib.Data.Nat.Bitwise
import FinanceTech.Library.Base64
import FinanceTech.Encodings

/-! The loops of the encoder regroup the bits of the string by six. The symbols
they write are the standard ones; the padding is not where the length is a
multiple of three. -/

namespace FinanceTech.Proofs.Base64Encoding

open Strings FinanceTech.Base64 Library.BitGroups

/-- The encoder while it holds some bits of a group. -/
def holding (result : Text) (waiting : List Bool) : Encoder :=
  { result, bitToSet := 6 - waiting.length, encodedByte := value (Library.Base64.fill waiting) }

private theorem holding_nil : holding [] [] = {} := by decide

theorem table_symbol {group : List Bool} (bound : group.length ≤ 6) :
    ENCODING_TABLE[value (Library.Base64.fill group)]? = some (Library.Base64.symbol group) := by
  have same : ENCODING_TABLE = Library.Base64.alphabet := by decide
  have small := value_lt (Library.Base64.fill group)
  rw [Library.Base64.fill_length bound] at small
  have inside : value (Library.Base64.fill group) < Library.Base64.alphabet.length := small
  rw [same, Library.Base64.symbol, List.getD_eq_getElem?_getD, List.getElem?_eq_getElem inside, Option.getD_some]

/-- Setting the bit that is next in a group appends it to the bits held. -/
theorem value_set (waiting : List Bool) (bit : Bool) (room : waiting.length < 6) :
    (if bit then value (Library.Base64.fill waiting) ||| (1 <<< (6 - waiting.length - 1)) else value (Library.Base64.fill waiting)) =
      value (Library.Base64.fill (waiting ++ [bit])) := by
  obtain ⟨left, isLeft⟩ : ∃ left, 6 - waiting.length = left + 1 := ⟨6 - waiting.length - 1, by omega⟩
  have after : 6 - (waiting ++ [bit]).length = left := by
    rw [List.length_append, List.length_singleton]
    omega
  unfold Library.Base64.fill
  rw [isLeft, after, value_filled, value_filled, value_concat, Nat.add_sub_cancel, Nat.pow_succ, Nat.add_mul]
  have shifted : value waiting * (2 ^ left * 2) = 2 * value waiting * 2 ^ left := by
    rw [Nat.mul_comm (2 ^ left), ← Nat.mul_assoc, Nat.mul_comm _ 2]
  rw [shifted]
  cases bit with
  | false => simp
  | true =>
    have low : 2 ^ left < 2 ^ (left + 1) := Nat.pow_lt_pow_right (by decide) (Nat.lt_succ_self left)
    have disjoint := Nat.shiftLeft_add_eq_or_of_lt low (value waiting)
    rw [Nat.shiftLeft_eq, Nat.pow_succ, Nat.mul_comm (2 ^ left), ← Nat.mul_assoc, Nat.mul_comm _ 2] at disjoint
    simpa [Nat.shiftLeft_eq] using disjoint.symm

theorem testBit_and (number i : Nat) : (number &&& (1 <<< i) ≠ 0) ↔ number.testBit i = true := by
  rw [Nat.one_shiftLeft]
  have := Nat.and_two_pow number i
  cases bit : number.testBit i <;> simp [Nat.and_two_pow, bit]

private theorem takeBit_spec (byte : UInt8) (i : Nat) (result : Text) (waiting : List Bool) (bound : waiting.length ≤ 6) :
    Encoder.takeBit byte (holding result waiting) i =
      some (if waiting.length = 6 then holding (result ++ [Library.Base64.symbol waiting]) [byte.toNat.testBit i]
        else holding result (waiting ++ [byte.toNat.testBit i])) := by
  by_cases full : waiting.length = 6
  · have empty : (holding result waiting).bitToSet ≤ 0 := by simp [holding, full]
    have flushed : (holding result waiting).flush = some (holding (result ++ [Library.Base64.symbol waiting]) []) := by
      rw [Encoder.flush, if_pos empty]
      simp only [holding, table_symbol bound]
      rfl
    have set := value_set [] (byte.toNat.testBit i) (by decide)
    rw [if_pos full, Encoder.takeBit, flushed]
    simp only [testBit_and, Option.bind_eq_bind, Option.bind_some, Option.pure_def]
    exact congrArg some (by simp only [holding] at set ⊢; rw [set]; rfl)
  · have room : ¬ (holding result waiting).bitToSet ≤ 0 := by simp only [holding]; omega
    have set := value_set waiting (byte.toNat.testBit i) (by omega)
    rw [if_neg full, Encoder.takeBit, Encoder.flush, if_neg room]
    simp only [testBit_and, Option.bind_eq_bind, Option.bind_some, Option.pure_def]
    apply congrArg some
    simp only [holding] at set ⊢
    rw [set, List.length_append, List.length_singleton, Nat.sub_sub]

/-- Groups written and bits still held after some more bits, against the cut of all of them. -/
structure Regroups (bits waiting : List Bool) (written : List (List Bool)) (last : List Bool) : Prop where
  bound : last.length ≤ 6
  cuts : ∀ more, cutFrom 6 (bits ++ more) waiting = written ++ cutFrom 6 more last
  holds : waiting ≠ [] ∨ bits ≠ [] → last ≠ []

theorem Regroups.refl {waiting : List Bool} (bound : waiting.length ≤ 6) : Regroups [] waiting [] waiting :=
  { bound
    cuts := fun _ => rfl
    holds := fun some => some.resolve_right (fun absurd => absurd rfl) }

theorem Regroups.append {bits more waiting middle last : List Bool} {written later : List (List Bool)}
    (first : Regroups bits waiting written middle) (second : Regroups more middle later last) :
    Regroups (bits ++ more) waiting (written ++ later) last where
  bound := second.bound
  cuts := by
    intro rest
    rw [List.append_assoc, first.cuts, second.cuts, List.append_assoc]
  holds := by
    intro nonempty
    apply second.holds
    by_cases empty : bits = []
    · by_cases held : waiting = []
      · exact Or.inr (by simpa [empty, held] using nonempty)
      · exact Or.inl (first.holds (Or.inl held))
    · exact Or.inl (first.holds (Or.inr empty))

theorem Regroups.bit (bit : Bool) {waiting : List Bool} (bound : waiting.length ≤ 6) :
    Regroups [bit] waiting (if waiting.length = 6 then [waiting] else []) (if waiting.length = 6 then [bit] else waiting ++ [bit]) where
  bound := by
    split
    · exact Nat.succ_le_of_lt (by decide)
    · rw [List.length_append, List.length_singleton]
      omega
  cuts := by
    intro more
    rw [List.singleton_append, cutFrom]
    split <;> rfl
  holds := by
    intro _
    split <;> simp

private theorem takeBits_spec (byte : UInt8) (positions : List Nat) (result : Text) (waiting : List Bool) (bound : waiting.length ≤ 6) :
    ∃ written last, positions.foldlM (Encoder.takeBit byte) (holding result waiting) =
        some (holding (result ++ written.map Library.Base64.symbol) last) ∧
      Regroups (positions.map byte.toNat.testBit) waiting written last := by
  induction positions generalizing result waiting with
  | nil => exact ⟨[], waiting, by simp, Regroups.refl bound⟩
  | cons i rest ih =>
    have here := Regroups.bit (byte.toNat.testBit i) bound
    obtain ⟨written, last, ran, later⟩ := ih (result ++ (if waiting.length = 6 then [waiting] else []).map Library.Base64.symbol) _ here.bound
    refine ⟨_, last, ?_, here.append later⟩
    rw [List.foldlM_cons, takeBit_spec byte i result waiting bound, List.map_append, ← List.append_assoc, ← ran]
    split <;> simp

private theorem takeBytes_spec (str result : Text) (waiting : List Bool) (bound : waiting.length ≤ 6) :
    ∃ written last, str.foldlM Encoder.takeByte (holding result waiting) =
        some (holding (result ++ written.map Library.Base64.symbol) last) ∧
      Regroups (Library.Base64.bytesToBits str) waiting written last := by
  induction str generalizing result waiting with
  | nil => exact ⟨[], waiting, by simp, Regroups.refl bound⟩
  | cons byte rest ih =>
    obtain ⟨written, middle, took, here⟩ := takeBits_spec byte [7, 6, 5, 4, 3, 2, 1, 0] result waiting bound
    obtain ⟨more, last, ran, later⟩ := ih (result ++ written.map Library.Base64.symbol) middle here.bound
    refine ⟨written ++ more, last, ?_, here.append later⟩
    rw [List.foldlM_cons, Encoder.takeByte, took, List.map_append, ← List.append_assoc]
    exact ran

theorem base64Encode_eq (str : Text) (nonempty : str ≠ []) :
    base64Encode str = some (Library.Base64.symbols str ++ List.replicate (if 2 = str.length % 3 then 1 else 2) Library.Base64.padding) := by
  obtain ⟨written, last, ran, groups⟩ := takeBytes_spec str [] [] (by decide)
  rw [holding_nil] at ran
  have bits : Library.Base64.bytesToBits str ≠ [] := by
    apply List.ne_nil_of_length_pos
    have some := List.length_pos_iff.mpr nonempty
    rw [Library.Base64.bytesToBits_length]
    omega
  have held := groups.holds (Or.inr bits)
  have whole := groups.cuts []
  have ends : cutFrom 6 [] last = [last] := by simp [cutFrom, held]
  rw [List.append_nil, ends] at whole
  have symbols : Library.Base64.symbols str = written.map Library.Base64.symbol ++ [Library.Base64.symbol last] := by
    rw [Library.Base64.symbols, cut, whole, List.map_append]
    rfl
  unfold base64Encode
  rw [ran, symbols]
  simp only [Option.bind_eq_bind, Option.bind_some, holding, table_symbol groups.bound]
  rfl

/-- A text a standard decoder takes back to the string it was made from. -/
structure Standard (str text : Text) : Prop where
  encoded : text = Library.Base64.encode str
  length : text.length = 4 * ((str.length + 2) / 3)
  padded : text.count '='.toUInt8 = (3 - str.length % 3) % 3
  decoded : Library.Base64.decode text = some str

private theorem standard_encode (str : Text) : Standard str (Library.Base64.encode str) :=
  { encoded := rfl
    length := Library.Base64.encode_length str
    padded := Library.Base64.count_padding str
    decoded := Library.Base64.decode_encode str }

theorem base64Encode_standard {str : Text} (condition : str.length % 3 ≠ 0) : base64Encode str = some (Library.Base64.encode str) := by
  have nonempty : str ≠ [] := by
    intro empty
    simp [empty] at condition
  have count : (if 2 = str.length % 3 then 1 else 2) = (3 - str.length % 3) % 3 := by split <;> omega
  rw [base64Encode_eq str nonempty, count]
  rfl

/-- Two symbols of padding are too many where the length is a multiple of three. -/
theorem base64Encode_padding {str : Text} (whole : str.length % 3 = 0) :
    base64Encode str ≠ some (Library.Base64.encode str) := by
  intro same
  by_cases empty : str = []
  · subst empty
    exact absurd same (by decide)
  · have count : (if 2 = str.length % 3 then 1 else 2) = 2 := if_neg (by omega)
    have none : (3 - str.length % 3) % 3 = 0 := by omega
    rw [base64Encode_eq str empty, count, Library.Base64.encode, none] at same
    have lengths := congrArg List.length (Option.some.inj same)
    simp at lengths

theorem base64Encode_length (str : Text) : ∃ text, base64Encode str = some text ∧
    (text.length % 4 = 0 ↔ str.length % 3 ≠ 0) ∧ (text.length = 3 ↔ str = []) := by
  by_cases empty : str = []
  · subst empty
    exact ⟨['A', '=', '='].map Char.toUInt8, by decide, by decide, by decide⟩
  · refine ⟨_, base64Encode_eq str empty, ?_⟩
    rw [List.length_append, Library.Base64.symbols_length, List.length_replicate]
    constructor
    · split <;> omega
    · have some := List.length_pos_iff.mpr empty
      simp only [empty, iff_false]
      split <;> omega

private theorem base64Encode_injective : Function.Injective base64Encode := by
  intro str other same
  obtain ⟨text, ran, standard, short⟩ := base64Encode_length str
  obtain ⟨text', ran', standard', short'⟩ := base64Encode_length other
  obtain rfl : text = text' := Option.some.inj (ran.symm.trans (same.trans ran'))
  have kind : str.length % 3 ≠ 0 ↔ other.length % 3 ≠ 0 := standard.symm.trans standard'
  have empty : str = [] ↔ other = [] := short.symm.trans short'
  by_cases whole : str.length % 3 = 0
  · have alsoWhole : other.length % 3 = 0 := by
      by_contra not
      exact kind.mpr not whole
    by_cases none : str = []
    · rw [none, empty.mp none]
    · -- the texts differ from the standard ones by the same padding
      rw [base64Encode_eq str none, base64Encode_eq other (fun absurd => none (empty.mpr absurd)), whole, alsoWhole] at same
      have symbols := List.append_cancel_right (Option.some.inj same)
      apply Library.Base64.encode_injective
      rw [Library.Base64.encode, Library.Base64.encode, symbols, whole, alsoWhole]
  · rw [base64Encode_standard whole, base64Encode_standard (kind.mp whole)] at same
    exact Library.Base64.encode_injective (Option.some.inj same)

/-- The text is the standard one, and no other string's, exactly where the length is no multiple of three. -/
theorem base64Encode_standard_iff (str : Text) :
    (∃ text, base64Encode str = some text ∧ Standard str text ∧ ∀ other, base64Encode other = some text → other = str) ↔
      str.length % 3 ≠ 0 := by
  constructor
  · rintro ⟨text, ran, standard, _⟩ whole
    exact base64Encode_padding whole (ran.trans (congrArg some standard.encoded))
  · intro condition
    have ran := base64Encode_standard condition
    refine ⟨_, ran, standard_encode str, ?_⟩
    intro other same
    exact base64Encode_injective (same.trans ran.symm)

theorem base64Encode_three_letters : ¬ ∀ str : Text, ∃ text, base64Encode str = some text ∧ Standard str text := by
  intro all
  obtain ⟨text, ran, standard⟩ := all (['M', 'a', 'n'].map Char.toUInt8)
  have written : base64Encode (['M', 'a', 'n'].map Char.toUInt8) = some (['T', 'W', 'F', 'u', '=', '='].map Char.toUInt8) := by decide
  have length := standard.length
  rw [← Option.some.inj (written.symm.trans ran)] at length
  exact absurd length (by decide)

end FinanceTech.Proofs.Base64Encoding
