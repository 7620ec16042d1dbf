import FinanceTech.Strings
import FinanceTech.Library.Loops

/-! The functions that take blanks off both ends of a string and those that cut
it into pieces. Positions are unsigned: below zero they wrap. A function that
touches a position outside the string has no result. -/

namespace FinanceTech.StringUtilities

open Strings Library.Loops

/-- Unsigned addition and subtraction of numbers of a width. -/
def plus (width first second : Nat) : Nat :=
  if first + second < 2 ^ width then first + second else first + second - 2 ^ width

def minus (width first second : Nat) : Nat :=
  if second ≤ first then first - second else first + 2 ^ width - second

def space : UInt8 := ' '.toUInt8

/-- `while (length > start && blank(str[start])) ++start` -/
def skipLeading (blank : UInt8 → Bool) (str : Text) (length : Nat) : Option Nat :=
  repeatWhile (fun start => if length > start then do return blank (← readAt str start) else return false)
    (fun start => some (start + 1)) (str.length + 1) 0

/-- `while (end && blank(str[end])) --end` -/
def skipTrailing (blank : UInt8 → Bool) (str : Text) (last : Nat) : Option Nat :=
  repeatWhile (fun last => if last ≠ 0 then do return blank (← readAt str last) else return false)
    (fun last => some (last - 1)) (str.length + 1) last

/-- What `strip` and `trim_3` both do: the text is erased in front, then at the end. -/
def eraseBlanks (blank : UInt8 → Bool) (str : Text) : Option Text := do
  let length := str.length
  let start ← skipLeading blank str length
  let str ← erase str 0 start
  let last ← skipTrailing blank str (minus 64 (minus 64 length start) 1)
  erase str (plus 64 last 1) (minus 64 (minus 64 length start) last)

def symbols : List UInt8 := [' ', '\t', '\n', '\r', '\n'].map Char.toUInt8

def strip (str : Text) : Option Text := eraseBlanks (fun c => symbols.any (fun symbol => symbol == c)) str

/-- A character of the upper half is a negative index. -/
def TBL (c : UInt8) : Option Bool :=
  if c < 128 then some ((['\t', '\n', '\r', ' '].map Char.toUInt8).contains c) else none

/-- The variables of the last loop of `strip_fast`. -/
structure Cursors where
  str : Text
  left : Nat
  idx : Nat
deriving DecidableEq, Repr

/-- The tests of the first two loops, `left <= right && 1 == TBL[str[left]]` and its mirror. -/
def leftGoes (str : Text) (right left : Nat) : Option Bool :=
  if left ≤ right then do TBL (← readAt str left) else return false

def rightGoes (str : Text) (left right : Nat) : Option Bool :=
  if right ≥ left then do TBL (← readAt str right) else return false

/-- One turn of the last loop. -/
def copyOne (cursors : Cursors) : Option Cursors := do
  let symbol ← readAt cursors.str cursors.left
  let str ← writeAt cursors.str cursors.idx symbol
  return { str, left := plus 32 cursors.left 1, idx := plus 32 cursors.idx 1 }

def strip_fast (str : Text) : Option Text := do
  let right := minus 64 str.length 1 % 2 ^ 32
  let left ← repeatWhile (leftGoes str right) (fun left => some (plus 32 left 1)) (str.length + 1) 0
  let right ← repeatWhile (rightGoes str left) (fun right => some (minus 32 right 1)) (str.length + 1) right
  let cursors ← repeatWhile (fun cursors => some (decide (cursors.left ≤ right))) copyOne (str.length + 1)
    { str, left, idx := 0 }
  return resize cursors.str cursors.idx

/-- `for (; end > 0 && str[--end] == ' ';) {}`: the test itself steps back. -/
def stepBack (str : Text) : Nat → Option Nat
  | 0 => some 0
  | stop + 1 => do
    if (← readAt str stop) = space then stepBack str stop else return stop

def trim_1 (str : Text) : Option Text := do
  let beg ← skipLeading (fun c => c == space) str str.length
  let stop ← stepBack str str.length
  substr str beg (plus 64 (minus 64 stop beg) 1)

def trim_2 (str : Text) : Option Text := do
  let str ← erase str 0 (findFirstNotOf str space)
  let str := str.reverse
  let str ← erase str 0 (findFirstNotOf str space)
  return str.reverse

def trim_3 (str : Text) : Option Text := eraseBlanks (fun c => c == space) str

def trim (str : Text) : Option Text := do
  let start ← skipLeading (fun c => c == space) str str.length
  let last ← skipTrailing (fun c => c == space) str (minus 64 str.length 1)
  view str start (plus 64 (minus 64 last start) 1)

/-! ### Pieces -/

/-- `if (first != second)` there is a token between them. -/
def emplaceToken (input : Text) (first second : Nat) (output : List Text) : Option (List Text) :=
  if first ≠ second then do return output ++ [← substr input first (minus 64 second first)] else return output

/-- The turns of the loop of `split` over a view, from a position on. -/
def tokensFrom (input delimiter : Text) : Nat → Nat → List Text → Option (List Text)
  | 0, _, _ => none
  | fuel + 1, first, output =>
    if first < input.length then do
      let second := findFirstOf input delimiter first
      let output ← emplaceToken input first second output
      if second = npos then return output else tokensFrom input delimiter fuel (plus 64 second 1) output
    else some output

/-- The `split` of a view, at any of the characters. -/
def split_view (input delimiter : Text) : Option (List Text) := tokensFrom input delimiter (input.length + 1) 0 []

/-- What both functions do that split at a string: a piece ends where it stands next. -/
def piecesFrom (piece : Text → Nat → Nat → Option Text) (str delimiter : Text) : Nat → Nat → List Text → Option (List Text)
  | 0, _, _ => none
  | fuel + 1, prev, parts =>
    let pos := find str delimiter prev
    if pos ≠ npos then do
      let part ← piece str prev (minus 64 pos prev)
      piecesFrom piece str delimiter fuel (plus 64 pos delimiter.length) (parts ++ [part])
    else do
      let part ← piece str prev (minus 64 str.length prev)
      return parts ++ [part]

/-- The number of parts to expect is for the allocation only. -/
def split (str : Text) (_partsExpected : Nat) (delimiter : Text) : Option (List Text) :=
  piecesFrom substr str delimiter (str.length + 1) 0 []

/-- The parts are cleared first. -/
def split_to (str : Text) (_parts : List Text) (delimiter : Text) : Option (List Text) :=
  piecesFrom view str delimiter (str.length + 1) 0 []

structure Chunks where
  chunks : List Text
  prev : Nat
deriving DecidableEq, Repr

/-- One turn of the loop of `stringToChunks`; its numbers are signed. -/
def chunkAt (str : Text) (chunkSize : Int) (state : Chunks) (idx : Nat) : Chunks :=
  if chunkSize = (idx : Int) - state.prev then
    { chunks := state.chunks ++ [(str.drop state.prev).take (idx - state.prev)], prev := idx }
  else state

def stringToChunks (str : Text) (chunkSize : Int) : List Text :=
  let state := (List.range str.length).foldl (chunkAt str chunkSize) { chunks := [], prev := 0 }
  state.chunks ++ [str.drop state.prev]

end FinanceTech.StringUtilities
