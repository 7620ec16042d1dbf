import FinanceTech.Proofs.StringSplitting
import FinanceTech.SimpleOrderBook
import Mathlib.Data.Nat.Digits.Defs

/-! The lines of an order file. One parser takes a line with fields to spare and the
other one with fields missing; between them they take every line, and the same order
from a line of seven. An order that is written down is read back by both. -/

namespace FinanceTech.Proofs.OrderLines
open List Library Strings StringUtilities Library.Splitting StringSplitting TrimAgreement
open DaVinchiTest hiding split parseOrder
open TestAssignmentLocal (splitOrder splitOrderFrom SimpleOrderBook)

variable {Price : Type} {line before text : Text} {parts : List Text}

/-- What stands between the semicolons of a line. -/
def fields (line : Text) : List Text := line.splitOn semicolon

theorem split_fields (short : line.length ≤ maxSize) : DaVinchiTest.split line = some (fields line) :=
  split_eq_splitOn short 7 semicolon

private theorem store_free (taken : List Text) (part : Text) (free : Nat) :
    Slots.store (taken ++ replicate (free + 1) []) taken.length part = some (taken ++ part :: replicate free []) := by
  rw [replicate_succ]
  exact Slots.store_middle taken (replicate free []) [] part

private theorem store_full (taken : List Text) (part : Text) : Slots.store (taken ++ replicate 0 []) taken.length part = none := by
  rw [replicate_zero, append_nil]
  exact if_neg (Nat.lt_irrefl _)

/-- By induction on the cut: each part takes one of the places that are free. -/
theorem splitOrderFrom_parts (short : line.length ≤ maxSize) (cut : Parts [semicolon] text parts) {fuel : Nat}
    (enough : parts.length ≤ fuel) (split : line = before ++ text) (taken : List Text) (free : Nat) :
    splitOrderFrom line fuel before.length taken.length (taken ++ replicate free []) =
      if parts.length ≤ free then some (taken ++ parts ++ replicate (free - parts.length) []) else none := by
  have bounded := length_lt_npos short
  have wide : npos < 2 ^ 64 := by decide
  induction cut generalizing before taken free fuel with
  | @last part unmarked =>
    obtain ⟨fuel, rfl⟩ := Nat.exists_eq_add_of_lt enough
    have length : line.length = before.length + part.length := by rw [split, length_append]
    have last : substr line before.length (minus 64 line.length before.length) = some part := by
      rw [minus_eq (by omega), length, Nat.add_sub_cancel_left, split, substr_append, take_length]
    simp only [splitOrderFrom, find_none split unmarked, last, ne_eq, not_true_eq_false, if_false, Option.bind_eq_bind, Option.bind_some]
    cases free with
    | zero => exact (store_full taken part).trans (if_neg (by simp)).symm
    | succ free =>
      rw [store_free, length_singleton, if_pos (by omega), append_assoc, singleton_append]
      rfl
  | @next part rest parts ended others ih =>
    obtain ⟨more, rfl⟩ : ∃ more, fuel = more + 1 := ⟨fuel - 1, by rw [length_cons] at enough; omega⟩
    have length : line.length = before.length + (part.length + 1 + rest.length) := by
      rw [split, length_append, length_append, length_append, length_singleton]
    have position := find_some split ended
    have other : before.length + part.length ≠ npos := by omega
    have taking : substr line before.length (minus 64 (before.length + part.length) before.length) = some part := by
      rw [minus_eq (by omega), Nat.add_sub_cancel_left, split, substr_append, append_assoc, take_left]
    have behind : plus 64 (before.length + part.length) 1 = (before ++ (part ++ [semicolon])).length := by
      rw [plus_eq (by omega), length_append, length_append, length_singleton, Nat.add_assoc]
    have whole : line = before ++ (part ++ [semicolon]) ++ rest := by rw [split, append_assoc before]
    simp only [splitOrderFrom, position, if_pos other, taking, Option.bind_eq_bind, Option.bind_some, behind]
    cases free with
    | zero =>
      rw [store_full, if_neg (by simp)]
      rfl
    | succ free =>
      have grown : taken.length + 1 = (taken ++ [part]).length := by rw [length_append, length_singleton]
      have moved : taken ++ part :: replicate free ([] : Text) = taken ++ [part] ++ replicate free [] := append_cons _ _ _
      rw [store_free, Option.bind_some, moved, grown, ih (Nat.le_of_succ_le_succ enough) whole (taken ++ [part]) free, length_cons]
      by_cases room : parts.length ≤ free
      · rw [if_pos room, if_pos (Nat.succ_le_succ room), append_assoc taken, singleton_append, Nat.succ_sub_succ]
      · rw [if_neg room, if_neg (by omega)]

theorem splitOrder_fields (short : line.length ≤ maxSize) :
    splitOrder line = if (fields line).length ≤ 7 then some (fields line ++ replicate (7 - (fields line).length) []) else none := by
  have cut : Parts [semicolon] line (fields line) := (piecesFrom_iff substr_cuts short).mp (split_fields short)
  exact @splitOrderFrom_parts line [] line (fields line) short cut _ cut.length_le rfl [] 7

theorem orderFrom_isSome (toPrice : Text → Price) (params : List Text) :
    (orderFrom toPrice params).isSome ↔ 7 ≤ params.length ∧ params[3]? ≠ some [] := by
  constructor
  · intro returned
    obtain ⟨order, read⟩ := Option.isSome_iff_exists.mp returned
    simp only [orderFrom, getOperation, Option.bind_eq_bind, Option.bind_eq_some_iff] at read
    obtain ⟨-, -, -, -, -, -, -, -, price, present, method, third, operation, first, -⟩ := read
    refine ⟨(List.getElem?_eq_some_iff.mp present).1, ?_⟩
    rw [third]
    rintro ⟨⟩
    cases first
  · rintro ⟨enough, named⟩
    obtain ⟨a, b, c, d, e, f, g, rest, rfl⟩ : ∃ a b c d e f g rest, params = a :: b :: c :: d :: e :: f :: g :: rest := by
      match params, enough with
      | a :: b :: c :: d :: e :: f :: g :: rest, _ => exact ⟨a, b, c, d, e, f, g, rest, rfl⟩
    cases d with
    | nil => exact absurd rfl named
    | cons symbol rest => rfl

/-- The two functions for the price make the only difference between two orders that
are read from the same fields. -/
theorem orderFrom_price (fromChars strtof : Text → Price) {params : List Text} {price : Text} (last : params[6]? = some price) :
    orderFrom strtof params = (orderFrom fromChars params).map (Option.map fun order => { order with price := strtof price }) := by
  simp only [orderFrom, last, Option.bind_eq_bind, Option.bind_some, Option.map_bind, Option.pure_def, Function.comp_def,
    Option.map_some, Option.map_map]

/-- The parser that collects the fields in a vector needs seven of them, the one with the
array has room for seven; both need a character for the operation. From a line of
seven fields they read the same but for the price, which each has from a function of
its own. -/
theorem parseOrder_lines (fromChars strtof : Text → Price) (line : Text) (short : line.length ≤ maxSize) :
    ((DaVinchiTest.parseOrder fromChars line).isSome ↔ 7 ≤ (fields line).length ∧ (fields line)[3]? ≠ some []) ∧
    ((TestAssignmentLocal.parseOrder strtof line).isSome ↔ (fields line).length ≤ 7 ∧ ((fields line)[3]?.getD []) ≠ []) ∧
    ∀ price, (fields line).length = 7 → (fields line)[6]? = some price →
      TestAssignmentLocal.parseOrder strtof line =
        (DaVinchiTest.parseOrder fromChars line).map (Option.map fun order => { order with price := strtof price }) ∧
      (fromChars price = strtof price → DaVinchiTest.parseOrder fromChars line = TestAssignmentLocal.parseOrder strtof line) := by
  have vector (toPrice : Text → Price) : DaVinchiTest.parseOrder toPrice line = orderFrom toPrice (fields line) := by
    unfold DaVinchiTest.parseOrder
    rw [split_fields short]
    rfl
  have array (toPrice : Text → Price) : TestAssignmentLocal.parseOrder toPrice line =
      if (fields line).length ≤ 7 then orderFrom toPrice (fields line ++ replicate (7 - (fields line).length) []) else none := by
    unfold TestAssignmentLocal.parseOrder
    rw [splitOrder_fields short]
    split
    · rfl
    · rfl
  refine ⟨?_, ?_, fun price seven last => ?_⟩
  · rw [vector]
    exact orderFrom_isSome fromChars (fields line)
  · rw [array]
    by_cases room : (fields line).length ≤ 7
    · have full : (fields line ++ replicate (7 - (fields line).length) ([] : Text)).length = 7 := by
        rw [length_append, length_replicate]
        omega
      rw [if_pos room, orderFrom_isSome, full]
      refine ⟨fun accepted => ⟨room, ?_⟩, fun accepted => ⟨Nat.le_refl 7, ?_⟩⟩
      · have named := accepted.2
        cases third : (fields line)[3]? with
        | none =>
          have absent := getElem?_eq_none_iff.mp third
          rw [getElem?_append_right absent, getElem?_replicate, if_pos (by omega)] at named
          exact absurd rfl named
        | some method =>
          rw [getElem?_append_left (List.getElem?_eq_some_iff.mp third).1, third] at named
          exact fun empty => named (congrArg some empty)
      · have named := accepted.2
        cases third : (fields line)[3]? with
        | none =>
          rw [third] at named
          exact absurd rfl named
        | some method =>
          rw [third] at named
          rw [getElem?_append_left (List.getElem?_eq_some_iff.mp third).1, third]
          exact fun empty => named (Option.some.inj empty)
    · rw [if_neg room]
      exact ⟨nofun, fun accepted => absurd accepted.1 room⟩
  · have same : TestAssignmentLocal.parseOrder strtof line = orderFrom strtof (fields line) := by
      rw [array, if_pos (Nat.le_of_eq seven), seven, Nat.sub_self, replicate_zero, append_nil]
    rw [same, vector]
    refine ⟨orderFrom_price fromChars strtof last, fun alike => ?_⟩
    rw [orderFrom_price fromChars fromChars last, alike]
    exact (orderFrom_price fromChars strtof last).symm

/-- A line without its price, which only one of them reads, and one with a price that
both functions read alike, although the second one passes over blanks. -/
theorem parseOrder_lines_six :
    let fromChars : Text → Nat := fun text => (extractUInt32 text).toNat
    let strtof : Text → Nat := fun text => (extractUInt32 (text.dropWhile (· = 32))).toNat
    DaVinchiTest.parseOrder fromChars [116, 59, 83, 59, 49, 59, 73, 59, 66, 85, 89, 59, 57] = none ∧
      (TestAssignmentLocal.parseOrder strtof [116, 59, 83, 59, 49, 59, 73, 59, 66, 85, 89, 59, 57]).isSome ∧
      DaVinchiTest.parseOrder fromChars [116, 59, 83, 59, 49, 59, 73, 59, 66, 85, 89, 59, 57, 59, 53] =
        TestAssignmentLocal.parseOrder strtof [116, 59, 83, 59, 49, 59, 73, 59, 66, 85, 89, 59, 57, 59, 53] := by
  intro fromChars strtof
  obtain ⟨vector, array, -⟩ := parseOrder_lines fromChars strtof [116, 59, 83, 59, 49, 59, 73, 59, 66, 85, 89, 59, 57] (by decide)
  obtain ⟨-, -, seven⟩ :=
    parseOrder_lines fromChars strtof [116, 59, 83, 59, 49, 59, 73, 59, 66, 85, 89, 59, 57, 59, 53] (by decide)
  refine ⟨Option.not_isSome_iff_eq_none.mp fun accepted => ?_, array.mpr (by decide), (seven [53] (by decide) (by decide)).2 rfl⟩
  exact absurd (vector.mp accepted).1 (by decide)

def sell : Text := ['S', 'E', 'L', 'L'].map Char.toUInt8

def sideText : OrderSide → Text
  | .buy => buy
  | .sell => sell

def operationSymbol : Operation → UInt8
  | .insert => 'I'.toUInt8
  | .cancel => 'C'.toUInt8
  | .amend => 'A'.toUInt8

/-- The decimal digits of a number. -/
def decimal (number : Nat) : Text := (Nat.digits 10 number).reverse.map fun digit => UInt8.ofNat (digit + '0'.toNat)

/-- The fields of the line of an order, with a text for its price. -/
def orderFields (priceText : Price → Text) (order : Order Price) : List Text :=
  [order.timestamp, order.symbol, order.id, [operationSymbol order.operation], sideText order.side, decimal order.volume.toNat,
    priceText order.price]

def orderLine (priceText : Price → Text) (order : Order Price) : Text := [semicolon].intercalate (orderFields priceText order)

def orderFile (priceText : Price → Text) (orders : List (Order Price)) : Text :=
  (orders.map fun order => orderLine priceText order ++ [newline]).flatten

/-- A text that neither ends a field nor a line. -/
def Plain (text : Text) : Prop := semicolon ∉ text ∧ newline ∉ text

instance (text : Text) : Decidable (Plain text) := inferInstanceAs (Decidable (_ ∧ _))

/-- An order that can be written, with a price that the function reads back. -/
structure Writable (priceText : Price → Text) (toPrice : Text → Price) (order : Order Price) : Prop where
  timestamp : Plain order.timestamp
  symbol : Plain order.symbol
  id : Plain order.id
  price : Plain (priceText order.price)
  reads : toPrice (priceText order.price) = order.price

theorem digit_symbol {digit : Nat} (small : digit < 10) :
    isDigit (UInt8.ofNat (digit + '0'.toNat)) = true ∧ (UInt8.ofNat (digit + '0'.toNat)).toNat - '0'.toNat = digit ∧
      UInt8.ofNat (digit + '0'.toNat) ≠ semicolon ∧ UInt8.ofNat (digit + '0'.toNat) ≠ newline := by
  have all : ∀ digit : Fin 10, isDigit (UInt8.ofNat (digit.val + '0'.toNat)) = true ∧
      (UInt8.ofNat (digit.val + '0'.toNat)).toNat - '0'.toNat = digit.val ∧
      UInt8.ofNat (digit.val + '0'.toNat) ≠ semicolon ∧ UInt8.ofNat (digit.val + '0'.toNat) ≠ newline := by decide
  exact all ⟨digit, small⟩

theorem decimal_member {number : Nat} {symbol : UInt8} (member : symbol ∈ decimal number) :
    ∃ digit < 10, symbol = UInt8.ofNat (digit + '0'.toNat) := by
  obtain ⟨digit, inside, rfl⟩ := mem_map.mp member
  exact ⟨digit, Nat.digits_lt_base (by decide) (mem_reverse.mp inside), rfl⟩

private theorem decimal_plain (number : Nat) : Plain (decimal number) := by
  constructor
  · intro member
    obtain ⟨digit, small, same⟩ := decimal_member member
    exact (digit_symbol small).2.2.1 same.symm
  · intro member
    obtain ⟨digit, small, same⟩ := decimal_member member
    exact (digit_symbol small).2.2.2 same.symm

private theorem decimal_value (number : Nat) :
    (decimal number).foldl (fun value symbol => 10 * value + (symbol.toNat - '0'.toNat)) 0 = number := by
  have digits (places : List Nat) (small : ∀ digit ∈ places, digit < 10) :
      (places.reverse.map fun digit => UInt8.ofNat (digit + '0'.toNat)).foldl
        (fun value symbol => 10 * value + (symbol.toNat - '0'.toNat)) 0 = Nat.ofDigits 10 places := by
    induction places with
    | nil => rfl
    | cons digit places ih =>
      obtain ⟨here, rest⟩ := forall_mem_cons.mp small
      rw [reverse_cons, map_append, foldl_append, ih rest, Nat.ofDigits_cons, Nat.add_comm]
      exact congrArg (10 * Nat.ofDigits 10 places + ·) (digit_symbol here).2.1
  exact (digits _ fun _ member => Nat.digits_lt_base (by decide) member).trans (Nat.ofDigits_digits 10 number)

theorem extractUInt32_decimal (volume : UInt32) : extractUInt32 (decimal volume.toNat) = volume := by
  have whole : (decimal volume.toNat).takeWhile isDigit = decimal volume.toNat := by
    refine takeWhile_eq_self_iff.mpr fun symbol member => ?_
    obtain ⟨digit, small, rfl⟩ := decimal_member member
    exact (digit_symbol small).1
  unfold extractUInt32
  rw [whole, decimal_value, if_pos volume.toNat_lt]
  exact UInt32.ofNat_toNat

private theorem ofChar_symbol (operation : Operation) : Operation.ofChar (operationSymbol operation) = some operation := by
  cases operation <;> rfl

private theorem getSide_text (side : OrderSide) : getSide (sideText side) = side := by
  cases side <;> decide

theorem orderFrom_fields {priceText : Price → Text} {toPrice : Text → Price} {order : Order Price}
    (reads : toPrice (priceText order.price) = order.price) : orderFrom toPrice (orderFields priceText order) = some (some order) := by
  have built : orderFrom toPrice (orderFields priceText order) =
      some ((Operation.ofChar (operationSymbol order.operation)).map fun operation =>
        { order with
          volume := extractUInt32 (decimal order.volume.toNat)
          price := toPrice (priceText order.price)
          operation
          side := getSide (sideText order.side) }) := rfl
  rw [built, ofChar_symbol, extractUInt32_decimal, reads, getSide_text]
  rfl

theorem orderFields_plain {priceText : Price → Text} {toPrice : Text → Price} {order : Order Price}
    (writable : Writable priceText toPrice order) : ∀ field ∈ orderFields priceText order, Plain field := by
  have operation : Plain [operationSymbol order.operation] := by
    cases order.operation <;> decide
  have side : Plain (sideText order.side) := by
    cases order.side <;> decide
  intro field member
  simp only [orderFields, mem_cons, not_mem_nil, or_false] at member
  rcases member with rfl | rfl | rfl | rfl | rfl | rfl | rfl
  · exact writable.timestamp
  · exact writable.symbol
  · exact writable.id
  · exact operation
  · exact side
  · exact decimal_plain _
  · exact writable.price

private theorem fields_orderLine {priceText : Price → Text} {toPrice : Text → Price} {order : Order Price}
    (writable : Writable priceText toPrice order) : fields (orderLine priceText order) = orderFields priceText order :=
  splitOn_intercalate semicolon (fun field member => (orderFields_plain writable field member).1) (cons_ne_nil _ _)

private theorem mem_intercalate {delimiter item : UInt8} {texts : List Text} (member : item ∈ [delimiter].intercalate texts) :
    item = delimiter ∨ ∃ text ∈ texts, item ∈ text := by
  induction texts with
  | nil => cases member
  | cons first texts ih =>
    by_cases empty : texts = []
    · subst empty
      rw [intercalate_singleton] at member
      exact .inr ⟨first, mem_cons_self, member⟩
    · rw [intercalate_cons_of_ne_nil empty, append_assoc, mem_append, mem_append, mem_singleton] at member
      rcases member with inside | here | later
      · exact .inr ⟨first, mem_cons_self, inside⟩
      · exact .inl here
      · exact (ih later).imp_right fun ⟨text, among, inside⟩ => ⟨text, mem_cons_of_mem _ among, inside⟩

private theorem newline_notMem {priceText : Price → Text} {toPrice : Text → Price} {order : Order Price}
    (writable : Writable priceText toPrice order) : newline ∉ orderLine priceText order := by
  intro member
  rcases mem_intercalate member with same | ⟨field, among, inside⟩
  · exact absurd same (by decide)
  · exact (orderFields_plain writable field among).2 inside

private theorem readLines_flatten {lines : List Text} (whole : ∀ line ∈ lines, newline ∉ line) :
    readLines (lines.map fun line => line ++ [newline]).flatten = lines := by
  have joined : (lines.map fun line => line ++ [newline]).flatten = [newline].intercalate (lines ++ [[]]) := by
    induction lines with
    | nil => rfl
    | cons line lines ih =>
      rw [cons_append, intercalate_cons_of_ne_nil (by simp), map_cons, flatten_cons,
        ih fun other member => whole other (mem_cons_of_mem _ member)]
  have cut : (lines.map fun line => line ++ [newline]).flatten.splitOn newline = lines ++ [[]] := by
    rw [joined]
    refine splitOn_intercalate newline (fun line member => ?_) (by simp)
    rcases mem_append.mp member with member | last
    · exact whole line member
    · exact mem_singleton.mp last ▸ not_mem_nil
  unfold readLines
  rw [cut, if_pos (getLast?_concat), dropLast_concat]

private theorem orderLine_length {priceText : Price → Text} {orders : List (Order Price)} {order : Order Price} (member : order ∈ orders) :
    (orderLine priceText order).length ≤ (orderFile priceText orders).length := by
  have piece : orderLine priceText order ++ [newline] ∈ orders.map fun order => orderLine priceText order ++ [newline] :=
    mem_map_of_mem member
  have shorter := (sublist_flatten_of_mem piece).length_le
  rw [length_append] at shorter
  exact Nat.le_of_add_right_le shorter

private theorem parseOrder_orderLine {priceText : Price → Text} {toPrice : Text → Price} {order : Order Price}
    (writable : Writable priceText toPrice order) (short : (orderLine priceText order).length ≤ maxSize) :
    DaVinchiTest.parseOrder toPrice (orderLine priceText order) = some (some order) ∧
      TestAssignmentLocal.parseOrder toPrice (orderLine priceText order) = some (some order) := by
  have params := fields_orderLine writable
  have seven : (orderFields priceText order).length ≤ 7 := Nat.le_refl 7
  refine ⟨?_, ?_⟩
  · unfold DaVinchiTest.parseOrder
    rw [split_fields short, params]
    exact orderFrom_fields writable.reads
  · unfold TestAssignmentLocal.parseOrder
    rw [splitOrder_fields short, params, if_pos seven]
    exact orderFrom_fields writable.reads

theorem foldlM_written {Book Line : Type} {process : Book → Order Price → Option Book} {processLine : Book → Line → Option Book}
    {write : Order Price → Line} {orders : List (Order Price)}
    (reads : ∀ order ∈ orders, ∀ book, processLine book (write order) = process book order) (book : Book) :
    (orders.map write).foldlM processLine book = orders.foldlM process book := by
  induction orders generalizing book with
  | nil => rfl
  | cons order orders ih =>
    rw [map_cons, foldlM_cons, foldlM_cons, reads order mem_cons_self]
    exact congrArg _ (funext fun next => ih (fun other member => reads other (mem_cons_of_mem _ member)) next)

section Files

variable [LinearOrder Price]

/-- Reading the file of some orders does to either book what processing the orders does,
failures included. -/
theorem orderFile_read (priceText : Number Price → Text) (fromChars : Text → Number Price) (orders : List (Order (Number Price)))
    (book : DaVinchiTest.Book Price) (other : SimpleOrderBook (Number Price))
    (writable : ∀ order ∈ orders, Writable priceText fromChars order) (short : (orderFile priceText orders).length ≤ maxSize) :
    book.readOrders fromChars (orderFile priceText orders) = orders.foldlM DaVinchiTest.Book.processRawOrder2 book ∧
      other.readAndProcessOrders fromChars (orderFile priceText orders) = orders.foldlM SimpleOrderBook.processOrder other := by
  have lines : readLines (orderFile priceText orders) = orders.map (orderLine priceText) := by
    have whole : ∀ line ∈ orders.map (orderLine priceText), newline ∉ line := by
      intro line member
      obtain ⟨order, among, rfl⟩ := mem_map.mp member
      exact newline_notMem (writable order among)
    have read := readLines_flatten whole
    rwa [map_map] at read
  have parsed (order : Order (Number Price)) (member : order ∈ orders) :=
    parseOrder_orderLine (writable order member) ((orderLine_length member).trans short)
  unfold DaVinchiTest.Book.readOrders SimpleOrderBook.readAndProcessOrders
  rw [lines]
  refine ⟨foldlM_written (fun order member book => ?_) book, foldlM_written (fun order member book => ?_) other⟩
  · unfold DaVinchiTest.Book.processLine
    rw [(parsed order member).1]
    rfl
  · unfold SimpleOrderBook.processLine
    rw [(parsed order member).2]
    rfl

end Files

/-- An order of the volume 10 for the symbol T. -/
def someOrder (id : UInt8) (price : Nat) (operation : Operation) (side : OrderSide) : Order (Number Nat) :=
  { timestamp := [49], symbol := [84], id := [id], volume := 10, price := some price, operation, side }

def someOrders : List (Order (Number Nat)) :=
  [someOrder 55 5 .insert .buy, someOrder 56 7 .insert .sell, someOrder 55 6 .amend .buy, someOrder 56 7 .cancel .sell]

def wholePrice (price : Number Nat) : Text := price.elim [110, 97, 110] decimal

theorem orderFile_read_four :
    ({} : DaVinchiTest.Book Nat).readOrders (fun text => some (extractUInt32 text).toNat) (orderFile wholePrice someOrders) =
        someOrders.foldlM DaVinchiTest.Book.processRawOrder2 {} ∧
      ({} : SimpleOrderBook (Number Nat)).readAndProcessOrders (fun text => some (extractUInt32 text).toNat)
        (orderFile wholePrice someOrders) = someOrders.foldlM SimpleOrderBook.processOrder {} := by
  have writable : ∀ order ∈ someOrders, Writable wholePrice (fun text => some (extractUInt32 text).toNat) order := by
    intro order member
    have price (volume : UInt32) : some (extractUInt32 (decimal volume.toNat)).toNat = some volume.toNat :=
      congrArg (fun volume : UInt32 => some volume.toNat) (extractUInt32_decimal volume)
    simp only [someOrders, mem_cons, not_mem_nil, or_false] at member
    rcases member with rfl | rfl | rfl | rfl
    · exact ⟨by decide, by decide, by decide, by decide, price 5⟩
    · exact ⟨by decide, by decide, by decide, by decide, price 7⟩
    · exact ⟨by decide, by decide, by decide, by decide, price 6⟩
    · exact ⟨by decide, by decide, by decide, by decide, price 7⟩
  exact orderFile_read wholePrice _ someOrders {} {} writable (by decide)

end FinanceTech.Proofs.OrderLines
