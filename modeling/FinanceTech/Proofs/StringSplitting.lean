import FinanceTech.StringUtilities
import FinanceTech.Proofs.TrimAgreement
import Mathlib.Data.List.TakeWhile

/-! The functions that cut a string against the parts that joining puts together
again. A delimiter of no characters is found where the search starts, so the loop
over it never ends. -/

namespace FinanceTech.Proofs.StringSplitting
open List Strings StringUtilities Library.Splitting TrimAgreement

variable {str before text part rest delimiter : Text} {parts : List Text}

theorem find_here (split : str = before ++ text) :
    find str delimiter before.length = (occurrence delimiter text).elim npos (before.length + ·) := by
  unfold find
  rw [split, if_pos (by rw [length_append]; omega), drop_left]
  cases occurrence delimiter text <;> rfl

theorem find_none (split : str = before ++ text) (free : ¬ delimiter <:+: text) : find str delimiter before.length = npos := by
  rw [find_here split, occurrence_eq_none.mpr free]
  rfl

theorem find_some (split : str = before ++ (part ++ delimiter ++ rest)) (ended : Ended delimiter part) :
    find str delimiter before.length = before.length + part.length := by
  rw [find_here split, occurrence_eq_some.mpr ⟨part, rest, rfl, rfl, ended⟩]
  rfl

private theorem find_empty {position : Nat} (inside : position ≤ str.length) : find str [] position = position := by
  have whole : str = str.take position ++ str.drop position := (take_append_drop position str).symm
  have length : (str.take position).length = position := length_take_of_le inside
  have here := @find_some str (str.take position) [] (str.drop position) [] whole fun place early => absurd early (Nat.not_lt_zero place)
  rw [length] at here
  exact here

private theorem findFirstOf_none (split : str = before ++ text) (free : ∀ symbol ∈ text, delimiter.contains symbol = false) :
    findFirstOf str delimiter before.length = npos := by
  unfold findFirstOf
  rw [split, drop_left, findIdx?_eq_none_iff.mpr free]

private theorem findFirstOf_some {symbol : UInt8} (split : str = before ++ (part ++ symbol :: rest))
    (free : ∀ other ∈ part, delimiter.contains other = false) (here : delimiter.contains symbol = true) :
    findFirstOf str delimiter before.length = before.length + part.length := by
  have found : (part ++ symbol :: rest).findIdx? (fun other => delimiter.contains other) = some part.length := by
    rw [findIdx?_append, findIdx?_eq_none_iff.mpr free, findIdx?_cons, here]
    simp
  unfold findFirstOf
  rw [split, drop_left, found]

/-- What both kinds of pieces are. -/
def Cuts (piece : Text → Nat → Nat → Option Text) : Prop :=
  ∀ before text count, count ≤ text.length → piece (before ++ text) before.length count = some (text.take count)

theorem substr_cuts : Cuts substr := fun before text count _ => substr_append before text count

private theorem view_cuts : Cuts view := by
  intro before text count inside
  unfold view
  rw [length_append, if_pos (by omega), drop_left]

theorem length_lt_npos (short : str.length ≤ maxSize) : str.length < npos := lt_of_le_of_lt short (by decide)

theorem piecesFrom_parts {piece : Text → Nat → Nat → Option Text} (cuts : Cuts piece) (short : str.length ≤ maxSize)
    (cut : Parts delimiter text parts) {fuel : Nat} (enough : parts.length ≤ fuel) (split : str = before ++ text) (taken : List Text) :
    piecesFrom piece str delimiter fuel before.length taken = some (taken ++ parts) := by
  have bounded := length_lt_npos short
  have wide : npos < 2 ^ 64 := by decide
  induction cut generalizing before taken fuel with
  | @last part free =>
    obtain ⟨fuel, rfl⟩ := Nat.exists_eq_add_of_lt enough
    have length : str.length = before.length + part.length := by rw [split, length_append]
    have last : piece str before.length (minus 64 str.length before.length) = some part := by
      rw [minus_eq (by omega), length, Nat.add_sub_cancel_left, split, cuts before part part.length (Nat.le_refl _), take_length]
    simp only [piecesFrom, find_none split free, last, ne_eq, not_true_eq_false, if_false, Option.bind_eq_bind, Option.bind_some]
    rfl
  | @next part rest parts ended others ih =>
    obtain ⟨more, rfl⟩ : ∃ more, fuel = more + 1 := ⟨fuel - 1, by rw [length_cons] at enough; omega⟩
    have length : str.length = before.length + (part.length + delimiter.length + rest.length) := by
      rw [split, length_append, length_append, length_append]
    have position := find_some split ended
    have other : before.length + part.length ≠ npos := by omega
    have taking : piece str before.length (minus 64 (before.length + part.length) before.length) = some part := by
      rw [minus_eq (by omega), Nat.add_sub_cancel_left, split,
        cuts before _ part.length (by rw [length_append, length_append]; omega), append_assoc, take_left]
    have behind : plus 64 (before.length + part.length) delimiter.length = (before ++ (part ++ delimiter)).length := by
      rw [plus_eq (by omega), length_append, length_append, Nat.add_assoc]
    have whole : str = before ++ (part ++ delimiter) ++ rest := by rw [split, append_assoc before]
    have deeper := ih (Nat.le_of_succ_le_succ enough) whole (taken ++ [part])
    simp only [piecesFrom, position, if_pos other, taking, Option.bind_eq_bind, Option.bind_some, behind, deeper]
    rw [append_assoc, singleton_append]

/-- No delimiter moves the search on. -/
theorem piecesFrom_empty (piece : Text → Nat → Nat → Option Text) (short : str.length ≤ maxSize) (fuel : Nat) {prev : Nat}
    (inside : prev ≤ str.length) (taken : List Text) : piecesFrom piece str [] fuel prev taken = none := by
  have bounded := length_lt_npos short
  have wide : npos < 2 ^ 64 := by decide
  induction fuel generalizing taken with
  | zero => rfl
  | succ fuel ih =>
    have other : prev ≠ npos := by omega
    have stays : plus 64 prev ([] : Text).length = prev := plus_eq (by rw [length_nil]; omega)
    simp only [piecesFrom, find_empty inside, if_pos other, stays, Option.bind_eq_bind]
    cases piece str prev (minus 64 prev prev) with
    | none => rfl
    | some part => exact ih (taken ++ [part])

theorem piecesFrom_iff {piece : Text → Nat → Nat → Option Text} (cuts : Cuts piece) (short : str.length ≤ maxSize) :
    piecesFrom piece str delimiter (str.length + 1) 0 [] = some parts ↔ Parts delimiter str parts := by
  constructor
  · intro returned
    by_cases nonempty : delimiter = []
    · subst nonempty
      cases (piecesFrom_empty piece short _ (Nat.zero_le _) []).symm.trans returned
    · obtain ⟨others, cut⟩ := parts_exist nonempty str
      have pieces := @piecesFrom_parts str [] str delimiter others piece cuts short cut _ cut.length_le rfl []
      cases pieces.symm.trans returned
      exact cut
  · intro cut
    exact @piecesFrom_parts str [] str delimiter parts piece cuts short cut _ cut.length_le rfl []

/-- Both functions return the one list of parts that the delimiter joins to the
string again where each is ended by its first occurrence and the last has none.
There is one for every delimiter but the empty one, for which neither returns. -/
theorem split_iff (str delimiter : Text) (partsExpected : Nat) (old : List Text) (short : str.length ≤ maxSize) :
    (∀ parts, split str partsExpected delimiter = some parts ↔ delimiter.intercalate parts = str ∧
      ∃ front last, parts = front ++ [last] ∧ (∀ part ∈ front, Ended delimiter part) ∧ ¬ delimiter <:+: last) ∧
    split_to str old delimiter = split str partsExpected delimiter ∧
    ((split str partsExpected delimiter).isSome ↔ delimiter ≠ []) ∧
    (delimiter = [] → ∀ fuel, piecesFrom substr str delimiter fuel 0 [] = none ∧ piecesFrom view str delimiter fuel 0 [] = none) := by
  refine ⟨fun parts => (piecesFrom_iff substr_cuts short).trans parts_iff_join, ?_, ?_, ?_⟩
  · apply Option.ext
    intro parts
    exact (piecesFrom_iff view_cuts short).trans (piecesFrom_iff substr_cuts short).symm
  · constructor
    · intro returned
      obtain ⟨parts, same⟩ := Option.isSome_iff_exists.mp returned
      exact ((piecesFrom_iff substr_cuts short).mp same).nonempty
    · intro nonempty
      obtain ⟨parts, cut⟩ := parts_exist nonempty str
      exact Option.isSome_iff_exists.mpr ⟨parts, (piecesFrom_iff substr_cuts short).mpr cut⟩
  · rintro rfl fuel
    exact ⟨piecesFrom_empty substr short fuel (Nat.zero_le _) [], piecesFrom_empty view short fuel (Nat.zero_le _) []⟩

/-- Occurrences overlap in a run of the same character. -/
theorem split_iff_overlap : split "aaa".toUTF8.data.toList 10 "aa".toUTF8.data.toList = some [[], "a".toUTF8.data.toList] :=
  ((split_iff [97, 97, 97] [97, 97] 10 [] (by decide)).1 [[], [97]]).mpr
    ⟨rfl, [[]], [97], rfl, fun _ member => by cases mem_singleton.mp member; exact nofun, by decide⟩

private theorem first_symbol (delimiter text : Text) : (∀ symbol ∈ text, delimiter.contains symbol = false) ∨
    ∃ part symbol rest, text = part ++ symbol :: rest ∧ (∀ other ∈ part, delimiter.contains other = false) ∧
      delimiter.contains symbol = true := by
  induction text with
  | nil => exact .inl fun _ member => absurd member not_mem_nil
  | cons first text ih =>
    cases here : delimiter.contains first with
    | true => exact .inr ⟨[], first, text, rfl, fun _ member => absurd member not_mem_nil, here⟩
    | false =>
      rcases ih with free | ⟨part, symbol, rest, rfl, free, found⟩
      · exact .inl (forall_mem_cons.mpr ⟨here, free⟩)
      · exact .inr ⟨first :: part, symbol, rest, rfl, forall_mem_cons.mpr ⟨here, free⟩, found⟩

/-- The pieces between the characters that are not empty. -/
def tokens (delimiter text : Text) : List Text := (text.splitOnP fun symbol => delimiter.contains symbol).filter (· ≠ [])

private theorem tokens_nil (delimiter : Text) : tokens delimiter [] = [] := rfl

private theorem tokens_free (nonempty : text ≠ []) (free : ∀ symbol ∈ text, delimiter.contains symbol = false) :
    tokens delimiter text = [text] := by
  rw [tokens, splitOnP_eq_singleton free]
  simp [nonempty]

private theorem tokens_next {symbol : UInt8} (free : ∀ other ∈ part, delimiter.contains other = false)
    (here : delimiter.contains symbol = true) :
    tokens delimiter (part ++ symbol :: rest) = (if part ≠ [] then [part] else []) ++ tokens delimiter rest := by
  rw [tokens, splitOnP_append_cons_of_forall_mem free symbol here]
  by_cases empty : part = []
  · subst empty
    rfl
  · have kept : (decide (part ≠ [])) = true := decide_eq_true empty
    rw [if_pos empty, filter_cons, kept]
    rfl

theorem tokensFrom_eq (short : str.length ≤ maxSize) (delimiter : Text) {fuel : Nat} (enough : text.length < fuel)
    (split : str = before ++ text) (output : List Text) :
    tokensFrom str delimiter fuel before.length output = some (output ++ tokens delimiter text) := by
  have bounded := length_lt_npos short
  have wide : npos < 2 ^ 64 := by decide
  induction fuel generalizing before text output with
  | zero => omega
  | succ fuel ih =>
    have length : str.length = before.length + text.length := by rw [split, length_append]
    by_cases empty : text = []
    · have ended : ¬ before.length < str.length := by
        rw [length, empty, length_nil]
        omega
      rw [tokensFrom, if_neg ended, empty, tokens_nil, append_nil]
    have positive := length_pos_iff.mpr empty
    have inside : before.length < str.length := by omega
    rcases first_symbol delimiter text with free | ⟨part, symbol, rest, rfl, free, here⟩
    · have nowhere := findFirstOf_none split free
      have other : before.length ≠ npos := by omega
      have taking : emplaceToken str before.length npos output = some (output ++ [text]) := by
        rw [emplaceToken, if_pos other, minus_eq (by omega), split, substr_append, take_of_length_le (by omega)]
        rfl
      simp only [tokensFrom, if_pos inside, nowhere, taking, Option.bind_eq_bind, Option.bind_some, if_true, tokens_free empty free]
      rfl
    · have second := findFirstOf_some split free here
      have stands : before.length + part.length ≠ npos := by
        rw [length_append, length_cons] at length
        omega
      have taking : emplaceToken str before.length (before.length + part.length) output =
          some (output ++ if part ≠ [] then [part] else []) := by
        cases part with
        | nil => simp [emplaceToken]
        | cons first part =>
          have apart : before.length ≠ before.length + (first :: part).length := by
            rw [length_cons]
            omega
          rw [emplaceToken, if_pos apart, minus_eq (by omega), Nat.add_sub_cancel_left, split, substr_append, take_left,
            if_pos (cons_ne_nil _ _)]
          rfl
      have behind : plus 64 (before.length + part.length) 1 = (before ++ (part ++ [symbol])).length := by
        rw [length_append, length_cons] at length
        rw [plus_eq (by omega), length_append, length_append, length_singleton, Nat.add_assoc]
      have whole : str = before ++ (part ++ [symbol]) ++ rest := by rw [split]; simp
      have shorter : rest.length < fuel := by
        rw [length_append, length_cons] at enough
        omega
      have deeper := ih shorter whole (output ++ if part ≠ [] then [part] else [])
      simp only [tokensFrom, if_pos inside, second, taking, Option.bind_eq_bind, Option.bind_some, if_neg stands, behind, deeper,
        tokens_next free here]
      rw [append_assoc]

theorem split_eq_splitOn (short : str.length ≤ maxSize) (partsExpected : Nat) (symbol : UInt8) :
    split str partsExpected [symbol] = some (str.splitOn symbol) := by
  obtain ⟨parts, cut⟩ := parts_exist (cons_ne_nil symbol []) str
  have joined := (parts_iff_join.mp cut).1
  have same : str.splitOn symbol = parts := joined ▸ splitOn_intercalate symbol cut.free cut.nonnil
  rw [same]
  exact (piecesFrom_iff substr_cuts short).mpr cut

/-- The split at characters returns the nonempty pieces between them, in order: at one
character those of the split at the string of that character. -/
theorem split_view_tokens (input delimiter : Text) (short : input.length ≤ maxSize) :
    split_view input delimiter = some (tokens delimiter input) ∧
      ∀ symbol partsExpected, split_view input [symbol] = (split input partsExpected [symbol]).map (filter (· ≠ [])) := by
  have tokenized (delimiter : Text) : split_view input delimiter = some (tokens delimiter input) :=
    @tokensFrom_eq input [] input short delimiter _ (Nat.lt_succ_self _) rfl []
  refine ⟨tokenized delimiter, fun symbol partsExpected => ?_⟩
  have same : (fun other => [symbol].contains other) = fun other => other == symbol := by
    funext other
    rw [contains_cons, contains_nil, Bool.or_false]
  rw [tokenized, split_eq_splitOn short, tokens, same]
  rfl

/-- Two spaces in a row and one at the end. -/
theorem split_view_tokens_spaces : split_view [97, 32, 32, 98, 32] [32] = some [[97], [98]] :=
  (split_view_tokens [97, 32, 32, 98, 32] [32] (by decide)).1

/-- Where the loop is after so many turns. -/
structure Chunked (str : Text) (chunkSize : Int) (turns : Nat) (state : Chunks) : Prop where
  behind : state.prev ≤ turns
  joined : state.chunks.flatten = str.take state.prev
  sizes : 0 < chunkSize → ∀ chunk ∈ state.chunks, (chunk.length : Int) = chunkSize
  pending : 0 < chunkSize → (turns : Int) - state.prev ≤ chunkSize
  started : 0 < chunkSize → 0 < turns → state.prev < turns

theorem Chunked.step {chunkSize : Int} {turns : Nat} {state : Chunks} (chunked : Chunked str chunkSize turns state)
    (inside : turns < str.length) : Chunked str chunkSize (turns + 1) (chunkAt str chunkSize state turns) := by
  obtain ⟨behind, joined, sizes, pending, started⟩ := chunked
  unfold chunkAt
  split
  next due =>
    refine ⟨Nat.le_succ _, ?_, fun positive => ?_, fun positive => ?_, fun _ _ => Nat.lt_succ_self _⟩
    · have grown : turns = state.prev + (turns - state.prev) := by omega
      rw [flatten_append, joined, flatten_singleton, grown, take_add, Nat.add_sub_cancel_left]
    · refine forall_mem_append.mpr ⟨sizes positive, fun chunk member => ?_⟩
      rw [mem_singleton.mp member, length_take, length_drop]
      omega
    · show ((turns + 1 : Nat) : Int) - (turns : Nat) ≤ chunkSize
      omega
  next early =>
    refine ⟨Nat.le_succ_of_le behind, joined, sizes, fun positive => ?_, fun positive _ => Nat.lt_succ_of_le behind⟩
    have waiting := pending positive
    rw [Int.natCast_add]
    omega

theorem chunked_range (str : Text) (chunkSize : Int) {turns : Nat} (inside : turns ≤ str.length) :
    Chunked str chunkSize turns ((range turns).foldl (chunkAt str chunkSize) { chunks := [], prev := 0 }) := by
  induction turns with
  | zero =>
    refine ⟨Nat.le_refl 0, rfl, fun _ _ member => absurd member not_mem_nil, fun positive => ?_, fun _ absurd => absurd⟩
    simpa using Int.le_of_lt positive
  | succ turns ih =>
    rw [range_succ, foldl_append]
    exact (ih (Nat.le_of_succ_le inside)).step inside

theorem stringToChunks_spec (str : Text) (chunkSize : Int) : (stringToChunks str chunkSize).flatten = str ∧
    (0 < chunkSize → ∃ front last, stringToChunks str chunkSize = front ++ [last] ∧
      (∀ chunk ∈ front, (chunk.length : Int) = chunkSize) ∧ (last.length : Int) ≤ chunkSize ∧ (str ≠ [] → last ≠ [])) := by
  obtain ⟨behind, joined, sizes, pending, started⟩ := chunked_range str chunkSize (Nat.le_refl _)
  refine ⟨?_, fun positive => ⟨_, _, rfl, sizes positive, ?_, fun nonempty => ?_⟩⟩
  · rw [stringToChunks, flatten_append, joined, flatten_singleton, take_append_drop]
  · have waiting := pending positive
    rw [length_drop]
    omega
  · have early := started positive (length_pos_iff.mpr nonempty)
    exact ne_nil_of_length_pos (by rw [length_drop]; omega)

end FinanceTech.Proofs.StringSplitting
