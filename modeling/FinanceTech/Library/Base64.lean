import Mathlib.Data.List.Basic
import FinanceTech.Library.BitGroups

/-! Base 64 as it is standardized: the bits of the input regrouped by six, each
group a symbol of the alphabet, the last one filled up with zeros and the text
with `=` to whole groups of four symbols. -/

namespace FinanceTech.Library.Base64

open BitGroups

def alphabet : List UInt8 :=
  "ABCDEFGHIJKLMNOPQRSTUVWXYZabcdefghijklmnopqrstuvwxyz0123456789+/".toList.map Char.toUInt8

def padding : UInt8 := '='.toUInt8

def bytesToBits (bytes : List UInt8) : List Bool := bytes.flatMap (fun byte => bitsOf 8 byte.toNat)

def fill (group : List Bool) : List Bool := group ++ List.replicate (6 - group.length) false

def symbol (group : List Bool) : UInt8 := alphabet.getD (value (fill group)) 0

def symbols (bytes : List UInt8) : List UInt8 := (cut 6 (bytesToBits bytes)).map symbol

def encode (bytes : List UInt8) : List UInt8 :=
  symbols bytes ++ List.replicate ((3 - bytes.length % 3) % 3) padding

/-- A text of whole groups of four symbols, the last two of which may be padding;
bits behind the last whole byte are dropped. -/
def decode (text : List UInt8) : Option (List UInt8) :=
  let body := text.takeWhile (· != padding)
  let rest := text.dropWhile (· != padding)
  if text.length % 4 = 0 ∧ rest.length ≤ 2 ∧ rest.all (· == padding) then do
    let numbers ← body.mapM (fun digit => alphabet.idxOf? digit)
    let groups := cut 8 (numbers.flatMap (bitsOf 6))
    return (groups.filter (fun group => group.length == 8)).map (fun group => UInt8.ofNat (value group))
  else
    .none

example : (encode ("fooba".toList.map Char.toUInt8)) = "Zm9vYmE=".toList.map Char.toUInt8 := by decide

theorem fill_length {group : List Bool} (bound : group.length ≤ 6) : (fill group).length = 6 := by
  simp only [fill, List.length_append, List.length_replicate]
  omega

set_option maxRecDepth 4000 in
/-- A group of bits is read back from its symbol, which is no padding. -/
theorem symbol_spec {group : List Bool} (bound : group.length ≤ 6) :
    alphabet.idxOf? (symbol group) = some (value (fill group)) ∧ (symbol group != padding) = true := by
  have all : ∀ number < 64, alphabet.idxOf? (alphabet.getD number 0) = some number ∧ (alphabet.getD number 0 != padding) = true := by decide
  have small := value_lt (fill group)
  rw [fill_length bound] at small
  exact all _ small

theorem bytesToBits_length (bytes : List UInt8) : (bytesToBits bytes).length = 8 * bytes.length := by
  induction bytes with
  | nil => rfl
  | cons byte rest ih =>
    rw [bytesToBits, List.flatMap_cons, List.length_append, bitsOf_length, List.length_cons]
    unfold bytesToBits at ih
    omega

theorem cutFrom_bound {size : Nat} (bits waiting : List Bool) (positive : 0 < size) (bound : waiting.length ≤ size) :
    ∀ group ∈ cutFrom size bits waiting, group.length ≤ size := by
  induction bits generalizing waiting with
  | nil =>
    intro group member
    cases waiting with
    | nil => simp [cutFrom] at member
    | cons first rest =>
      have same : group = first :: rest := by simpa [cutFrom] using member
      exact same ▸ bound
  | cons bit rest ih =>
    intro group member
    rw [cutFrom] at member
    by_cases full : waiting.length = size
    · rw [if_pos full] at member
      rcases List.mem_cons.mp member with same | later
      · exact same ▸ bound
      · exact ih [bit] positive group later
    · rw [if_neg full] at member
      exact ih (waiting ++ [bit]) (by simp; omega) group member

theorem symbols_group {bytes : List UInt8} {group : List Bool} (member : group ∈ cut 6 (bytesToBits bytes)) : group.length ≤ 6 :=
  cutFrom_bound _ [] (by decide) (by decide) group member

theorem symbols_length (bytes : List UInt8) : (symbols bytes).length = (8 * bytes.length + 5) / 6 := by
  rw [symbols, List.length_map, cut_length (by decide), bytesToBits_length]
  rfl

theorem encode_length (bytes : List UInt8) : (encode bytes).length = 4 * ((bytes.length + 2) / 3) := by
  rw [encode, List.length_append, List.length_replicate, symbols_length]
  omega

theorem symbols_not_padding (bytes : List UInt8) : ∀ digit ∈ symbols bytes, (digit != padding) = true := by
  intro digit member
  obtain ⟨group, inside, rfl⟩ := List.mem_map.mp member
  exact (symbol_spec (symbols_group inside)).2

theorem count_padding (bytes : List UInt8) : (encode bytes).count padding = (3 - bytes.length % 3) % 3 := by
  have none : (symbols bytes).count padding = 0 := by
    apply List.count_eq_zero.mpr
    intro member
    simpa using symbols_not_padding bytes padding member
  rw [encode, List.count_append, none, List.count_replicate_self, Nat.zero_add]

/-- The body of an encoded text is its symbols. -/
theorem encode_split (bytes : List UInt8) :
    (encode bytes).takeWhile (· != padding) = symbols bytes ∧
      (encode bytes).dropWhile (· != padding) = List.replicate ((3 - bytes.length % 3) % 3) padding := by
  have stops : ∀ count, (List.replicate count padding).takeWhile (· != padding) = [] ∧
      (List.replicate count padding).dropWhile (· != padding) = List.replicate count padding := by
    intro count
    cases count <;> simp [List.replicate_succ]
  unfold encode
  rw [List.takeWhile_append_of_pos (symbols_not_padding bytes), List.dropWhile_append_of_pos (symbols_not_padding bytes)]
  rw [(stops _).1, (stops _).2, List.append_nil]
  exact ⟨rfl, rfl⟩

theorem symbols_numbers (groups : List (List Bool)) (bound : ∀ group ∈ groups, group.length ≤ 6) :
    (groups.map symbol).mapM (fun digit => alphabet.idxOf? digit) = some (groups.map (fun group => value (fill group))) := by
  induction groups with
  | nil => rfl
  | cons group rest ih =>
    have here := (symbol_spec (bound group List.mem_cons_self)).1
    have later := ih (fun other member => bound other (List.mem_cons_of_mem _ member))
    rw [List.map_cons, List.mapM_cons, here, later]
    rfl

/-- The bits of the symbols are those of the bytes and fewer than six zeros. -/
theorem numbers_bits (bytes : List UInt8) : ∃ spare, spare < 6 ∧
    ((cut 6 (bytesToBits bytes)).map (fun group => value (fill group))).flatMap (bitsOf 6) =
      bytesToBits bytes ++ List.replicate spare false := by
  obtain ⟨spare, less, same⟩ := cutFrom_filled false (bytesToBits bytes) [] (by decide) (by decide : 0 < 6)
  refine ⟨spare, less, ?_⟩
  rw [List.flatMap_map, ← List.nil_append (bytesToBits bytes), ← same, List.nil_append]
  apply List.flatMap_congr
  intro group member
  have back := bitsOf_value (fill group)
  rwa [fill_length (symbols_group member)] at back

/-- Bytes are read back from their bits, whatever less than a byte stands behind them. -/
theorem bytes_of_bits (bytes : List UInt8) (spare : List Bool) (less : spare.length < 8) :
    ((cut 8 (bytesToBits bytes ++ spare)).filter (fun group => group.length == 8)).map (fun group => UInt8.ofNat (value group)) =
      bytes := by
  induction bytes with
  | nil =>
    cases spare with
    | nil => rfl
    | cons bit rest =>
      have alone : cut 8 (bit :: rest) = [bit :: rest] := cut_short _ (by simp) (Nat.le_of_lt less)
      have short : (rest.length + 1 == 8) = false := by simpa using Nat.ne_of_lt less
      simp [bytesToBits, alone, short]
  | cons byte rest ih =>
    have byteBack : UInt8.ofNat (value (bitsOf 8 byte.toNat)) = byte := by
      rw [value_bitsOf byte.toNat_lt, UInt8.ofNat_toNat]
    rw [bytesToBits, List.flatMap_cons, List.append_assoc, cut_append _ _ (bitsOf_length 8 _) (by decide)]
    rw [List.filter_cons_of_pos (by simp), List.map_cons, byteBack]
    exact congrArg _ ih

theorem decode_encode (bytes : List UInt8) : decode (encode bytes) = some bytes := by
  obtain ⟨body, rest⟩ := encode_split bytes
  have length := encode_length bytes
  obtain ⟨spare, less, bits⟩ := numbers_bits bytes
  have wellFormed : (encode bytes).length % 4 = 0 ∧ (List.replicate ((3 - bytes.length % 3) % 3) padding).length ≤ 2 ∧
      (List.replicate ((3 - bytes.length % 3) % 3) padding).all (· == padding) := by
    refine ⟨by omega, by rw [List.length_replicate]; omega, ?_⟩
    rw [List.all_eq_true]
    intro symbol member
    simp [List.eq_of_mem_replicate member]
  have numbers := symbols_numbers (cut 6 (bytesToBits bytes)) (fun group member => symbols_group member)
  have back := bytes_of_bits bytes (List.replicate spare false) (by rw [List.length_replicate]; omega)
  simp only [decode, body, rest]
  rw [if_pos wellFormed, symbols, numbers]
  simp only [Option.bind_eq_bind, Option.bind_some, Option.pure_def, bits, back]

theorem encode_injective {bytes other : List UInt8} (same : encode bytes = encode other) : bytes = other := by
  have back := decode_encode bytes
  rw [same, decode_encode other] at back
  exact (Option.some.inj back).symm

end FinanceTech.Library.Base64
