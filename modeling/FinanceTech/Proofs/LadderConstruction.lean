import FinanceTech.PriceLadder
import Mathlib.Data.List.Range

/-! What the constructor of the ladder builds. Its loops run over every tick
between the bounds and end, unless a bound is the last tick there is on its side
and the counter wraps. -/

namespace FinanceTech.Proofs.LadderConstruction
open List PriceLevelStorage

variable {S T : Type} {last : Price} {body : S → Price → Option S} {fuel price count : Nat} {state : S}

theorem ofNat_le (small : price < 2 ^ 64) : UInt64.ofNat price ≤ last ↔ price ≤ last.toNat := by
  rw [UInt64.le_iff_toNat_le, UInt64.toNat_ofNat_of_lt' small]

theorem le_ofNat (small : price < 2 ^ 64) : UInt64.ofNat price ≥ last ↔ last.toNat ≤ price := by
  rw [ge_iff_le, UInt64.le_iff_toNat_le, UInt64.toNat_ofNat_of_lt' small]

private theorem ascending_eq (ends : price + count = last.toNat + 1) (inside : last.toNat + 1 < 2 ^ 64) (enough : count < fuel) :
    ascending last body fuel (UInt64.ofNat price) state = ((range' price count).map UInt64.ofNat).foldlM body state := by
  induction count generalizing fuel price state with
  | zero =>
    obtain ⟨rest, rfl⟩ := Nat.exists_eq_succ_of_ne_zero (Nat.ne_of_gt enough)
    rw [ascending, if_neg ((ofNat_le (by omega)).not.mpr (by omega))]
    rfl
  | succ count ih =>
    obtain ⟨rest, rfl⟩ := Nat.exists_eq_succ_of_ne_zero (Nat.ne_of_gt (Nat.zero_lt_of_lt enough))
    have fewer : count < rest := by omega
    rw [ascending, if_pos ((ofNat_le (by omega)).mpr (by omega)), range'_succ, map_cons, foldlM_cons]
    refine bind_congr fun state => ?_
    rw [← ih (by omega) fewer, UInt64.ofNat_add]
    rfl

/-- A loop down to a tick that is not the lowest visits every tick once. -/
theorem descending_eq (ends : price + 1 = last.toNat + count) (inside : 0 < last.toNat) (small : price < 2 ^ 64) (enough : count < fuel) :
    descending last body fuel (UInt64.ofNat price) state =
      ((range' last.toNat count).reverse.map UInt64.ofNat).foldlM body state := by
  induction count generalizing fuel price state with
  | zero =>
    obtain ⟨rest, rfl⟩ := Nat.exists_eq_succ_of_ne_zero (Nat.ne_of_gt enough)
    rw [descending, if_neg ((le_ofNat (by omega)).not.mpr (by omega))]
    rfl
  | succ count ih =>
    obtain ⟨rest, rfl⟩ := Nat.exists_eq_succ_of_ne_zero (Nat.ne_of_gt (Nat.zero_lt_of_lt enough))
    obtain ⟨price, rfl⟩ := Nat.exists_eq_succ_of_ne_zero (Nat.ne_of_gt (by omega : 0 < price))
    have fewer : count < rest := by omega
    have top : last.toNat + count = price + 1 := by omega
    have below : UInt64.ofNat (price + 1) - 1 = UInt64.ofNat price := by
      rw [UInt64.ofNat_add]
      exact UInt64.add_sub_cancel _ _
    rw [descending, if_pos ((le_ofNat (by omega)).mpr (by omega)), range'_1_concat, reverse_append, reverse_singleton,
      singleton_append, map_cons, foldlM_cons, top]
    refine bind_congr fun state => ?_
    rw [← ih top.symm (by omega) fewer, below]

private theorem ascending_never (fuel : Nat) (price : Price) (state : S) : ascending 18446744073709551615 body fuel price state = none := by
  induction fuel generalizing price state with
  | zero => rfl
  | succ fuel ih =>
    have within : price ≤ 18446744073709551615 := UInt64.le_iff_toNat_le.mpr (Nat.le_of_lt_succ price.toNat_lt)
    rw [ascending, if_pos within]
    cases body state price with
    | none => rfl
    | some state => exact ih _ _

private theorem descending_never (fuel : Nat) (price : Price) (state : S) : descending 0 body fuel price state = none := by
  induction fuel generalizing price state with
  | zero => rfl
  | succ fuel ih =>
    have within : price ≥ 0 := UInt64.le_iff_toNat_le.mpr (Nat.zero_le _)
    rw [descending, if_pos within]
    cases body state price with
    | none => rfl
    | some state => exact ih _ _

private theorem foldlM_collect {body : List T → Price → Option (List T)} {value : Price → T} {prices : List Price}
    (collects : ∀ price ∈ prices, ∀ items, body items price = some (items ++ [value price])) (items : List T) :
    prices.foldlM body items = some (items ++ prices.map value) := by
  induction prices generalizing items with
  | nil => exact congrArg some (append_nil items).symm
  | cons price rest ih =>
    rw [foldlM_cons, collects price mem_cons_self]
    refine (ih (fun other member => collects other (mem_cons_of_mem _ member)) _).trans ?_
    rw [append_assoc]
    rfl

/-- One level for every tick between the bounds, from the lowest on, and the two
directions through them. -/
structure Shape (ladder : PriceLadder) : Prop where
  ticks : ∀ place level, ladder.levels[place]? = some level → level.priceTick.toNat = ladder.minPriceTick.toNat + place
  bounds : ∀ tick : Price, ladder.minPriceTick ≤ tick → tick ≤ ladder.maxPriceTick →
    tick.toNat < ladder.minPriceTick.toNat + ladder.levels.length
  bids : ladder.bidLevels = (range ladder.levels.length).reverse
  asks : ladder.askLevels = range ladder.levels.length

structure Vacant (ladder : PriceLadder) : Prop where
  levels : ∀ level ∈ ladder.levels, level.totalVolume = 0 ∧ level.head = none ∧ level.tail = none
  index : ladder.orderIndex = ∅

variable {low high : Price} {ladder : PriceLadder}

/-- The levels of the ticks from `low` on. -/
def levelsFrom (low : Price) (count : Nat) : List PriceLevel :=
  (range' low.toNat count).map fun tick => { priceTick := UInt64.ofNat tick }

private theorem levelAt_eq {tick : Nat} (small : low.toNat + count < 2 ^ 64) (inside : tick ∈ range' low.toNat count) :
    levelAt (levelsFrom low count) (UInt64.ofNat tick - low) = some (tick - low.toNat) := by
  obtain ⟨lower, upper⟩ := mem_range'_1.mp inside
  have fits : tick < 2 ^ 64 := by omega
  have place : (UInt64.ofNat tick - low).toNat = tick - low.toNat := by
    rw [UInt64.toNat_sub_of_le _ _ ((le_ofNat fits).mpr lower), UInt64.toNat_ofNat_of_lt' fits]
  rw [levelAt, place, levelsFrom, length_map, length_range', if_pos (by omega)]

theorem places_eq (low count : Nat) : (range' low count).map (fun tick => tick - low) = range count := by
  rw [map_sub_range' (Nat.le_refl low), Nat.sub_self, range_eq_range']

private theorem places_reverse_eq (low count : Nat) : (range' low count).reverse.map (fun tick => tick - low) = (range count).reverse := by
  rw [map_reverse, places_eq]

private theorem collect_new (low : Price) (count : Nat) :
    ((range' low.toNat count).map UInt64.ofNat).foldlM
      (fun (levels : List PriceLevel) price => some (levels ++ [{ priceTick := price }])) [] = some (levelsFrom low count) := by
  rw [foldlM_collect fun _ _ _ => rfl, map_map]
  rfl

theorem collect_levels {ticks : List Nat} (small : low.toNat + count < 2 ^ 64) (inside : ticks ⊆ range' low.toNat count) :
    (ticks.map UInt64.ofNat).foldlM (fun pointers price =>
      (levelAt (levelsFrom low count) (price - low)).map fun level => pointers ++ [level]) [] =
      some (ticks.map fun tick => tick - low.toNat) := by
  have collects : ∀ price ∈ ticks.map UInt64.ofNat, ∀ pointers : List LevelAddress,
      (levelAt (levelsFrom low count) (price - low)).map (fun level => pointers ++ [level]) =
        some (pointers ++ [price.toNat - low.toNat]) := by
    intro price member pointers
    obtain ⟨tick, held, rfl⟩ := mem_map.mp member
    obtain ⟨-, upper⟩ := mem_range'_1.mp (inside held)
    have fits : tick < 2 ^ 64 := by omega
    rw [levelAt_eq small (inside held), UInt64.toNat_ofNat_of_lt' fits]
    rfl
  rw [foldlM_collect collects, nil_append, map_map]
  refine congrArg some (map_congr_left fun tick held => ?_)
  obtain ⟨-, upper⟩ := mem_range'_1.mp (inside held)
  have fits : tick < 2 ^ 64 := by omega
  rw [Function.comp_apply, UInt64.toNat_ofNat_of_lt' fits]

theorem new_eq (ordered : low ≤ high) (lowest : 0 < low.toNat) (highest : high.toNat + 1 < 2 ^ 64) :
    PriceLadder.new low high = some ⟨low, high, high - low + 1, levelsFrom low (high.toNat + 1 - low.toNat),
      (range (high.toNat + 1 - low.toNat)).reverse, range (high.toNat + 1 - low.toNat), ∅⟩ := by
  have ordered := UInt64.le_iff_toNat_le.mp ordered
  have turns : (high - low + 1).toNat = high.toNat + 1 - low.toNat := by
    rw [UInt64.toNat_add, UInt64.toNat_sub_of_le _ _ (UInt64.le_iff_toNat_le.mpr ordered), UInt64.toNat_one]
    omega
  obtain ⟨count, counted⟩ : ∃ count, count = high.toNat + 1 - low.toNat := ⟨_, rfl⟩
  have up {S : Type} (body : S → Price → Option S) (state : S) :
      ascending high body (count + 1) low state = ((range' low.toNat count).map UInt64.ofNat).foldlM body state := by
    have run := @ascending_eq S high body (count + 1) low.toNat count state (by omega) highest (Nat.lt_succ_self count)
    rwa [UInt64.ofNat_toNat] at run
  have down {S : Type} (body : S → Price → Option S) (state : S) :
      descending low body (count + 1) high state = ((range' low.toNat count).reverse.map UInt64.ofNat).foldlM body state := by
    have run := @descending_eq S low body (count + 1) high.toNat count state (by omega) lowest high.toNat_lt (Nat.lt_succ_self count)
    rwa [UInt64.ofNat_toNat] at run
  have levels := collect_new low count
  have asks := @collect_levels count low (range' low.toNat count) (by omega) fun _ => id
  have bids := @collect_levels count low (range' low.toNat count).reverse (by omega) fun _ => mem_reverse.mp
  rw [places_reverse_eq] at bids
  rw [places_eq] at asks
  simp only [PriceLadder.new, turns, ← counted, up, down, levels, bids, asks, Option.bind_eq_bind, Option.bind_some]
  rfl

private theorem new_eq_empty (crossed : high < low) :
    PriceLadder.new low high = some ⟨low, high, high - low + 1, [], [], [], ∅⟩ := by
  have none {S : Type} (body : S → Price → Option S) (fuel : Nat) (state : S) : ascending high body (fuel + 1) low state = some state := by
    rw [ascending, if_neg (UInt64.not_le.mpr crossed)]
  have neither {S : Type} (body : S → Price → Option S) (fuel : Nat) (state : S) : descending low body (fuel + 1) high state = some state := by
    rw [descending, if_neg (UInt64.not_le.mpr crossed)]
  simp only [PriceLadder.new, none, neither, Option.bind_eq_bind, Option.bind_some]
  rfl

/-- From the lowest tick there is, or up to the highest, nothing is built. -/
theorem new_eq_none (ordered : low ≤ high) (extreme : low = 0 ∨ high = 18446744073709551615) : PriceLadder.new low high = none := by
  rcases extreme with rfl | rfl
  · simp only [PriceLadder.new, descending_never, Option.bind_eq_bind]
    cases ascending high (fun levels price => some (levels ++ [({ priceTick := price } : PriceLevel)])) ((high - 0 + 1).toNat + 1) 0 [] with
    | none => rfl
    | some levels => rfl
  · simp only [PriceLadder.new, ascending_never, Option.bind_eq_bind, Option.bind_none]

theorem new_cases (built : PriceLadder.new low high = some ladder) :
    high < low ∨ low ≤ high ∧ 0 < low.toNat ∧ high.toNat + 1 < 2 ^ 64 := by
  by_cases ordered : low ≤ high
  · refine Or.inr ⟨ordered, ?_, ?_⟩
    · apply Nat.pos_of_ne_zero
      intro zero
      have lowest : low = 0 := UInt64.toNat_inj.mp zero
      rw [new_eq_none ordered (Or.inl lowest)] at built
      cases built
    · by_contra above
      have top : high = 18446744073709551615 := UInt64.toNat_inj.mp (by
        have small := high.toNat_lt
        change high.toNat = 18446744073709551615
        omega)
      rw [new_eq_none ordered (Or.inr top)] at built
      cases built
  · exact Or.inl (UInt64.not_le.mp ordered)

theorem new_shape (built : PriceLadder.new low high = some ladder) : Shape ladder ∧ Vacant ladder := by
  rcases new_cases built with crossed | ⟨ordered, lowest, highest⟩
  · rw [new_eq_empty crossed] at built
    obtain rfl := Option.some.inj built
    refine ⟨⟨fun _ _ held => ?_, fun tick lower upper => ?_, rfl, rfl⟩, fun _ member => ?_, rfl⟩
    · cases held
    · exact absurd (UInt64.le_trans lower upper) (UInt64.not_le.mpr crossed)
    · cases member
  · rw [new_eq ordered lowest highest] at built
    obtain rfl := Option.some.inj built
    have length : (levelsFrom low (high.toNat + 1 - low.toNat)).length = high.toNat + 1 - low.toNat := by
      rw [levelsFrom, length_map, length_range']
    refine ⟨⟨fun place level held => ?_, fun tick lower upper => ?_, ?_, ?_⟩, fun level member => ?_, rfl⟩
    · have held : (levelsFrom low (high.toNat + 1 - low.toNat))[place]? = some level := held
      rw [levelsFrom, getElem?_map, Option.map_eq_some_iff] at held
      obtain ⟨tick, there, rfl⟩ := held
      obtain ⟨inside, rfl⟩ := List.getElem?_eq_some_iff.mp there
      rw [length_range'] at inside
      have fits : low.toNat + place < 2 ^ 64 := by omega
      rw [getElem_range', Nat.one_mul, UInt64.toNat_ofNat_of_lt' fits]
    · have upper : tick.toNat ≤ high.toNat := UInt64.le_iff_toNat_le.mp upper
      have ordered := UInt64.le_iff_toNat_le.mp ordered
      simp only [length]
      omega
    · simp only [length]
    · simp only [length]
    · obtain ⟨tick, -, rfl⟩ := mem_map.mp member
      exact ⟨rfl, rfl, rfl⟩

/-- The turns that a loop takes: with as many it has not yet seen that it is
over, and with one more it has. -/
def EndsAfter (loop : Nat → Option S) (turns : Nat) (result : S) : Prop := loop turns = none ∧ loop (turns + 1) = some result

/-- With no more turns than ticks a loop is still running. -/
theorem ascending_unfinished (ends : price + count = last.toNat + 1) (inside : last.toNat + 1 < 2 ^ 64) (few : fuel ≤ count) :
    ascending last body fuel (UInt64.ofNat price) state = none := by
  induction fuel generalizing price count state with
  | zero => rfl
  | succ fuel ih =>
    rw [ascending, if_pos ((ofNat_le (by omega)).mpr (by omega))]
    cases body state (UInt64.ofNat price) with
    | none => rfl
    | some state =>
      have next := @ih (price + 1) (count - 1) state (by omega) (by omega)
      rwa [UInt64.ofNat_add] at next

private theorem descending_unfinished (ends : price + 1 = last.toNat + count) (inside : 0 < last.toNat) (small : price < 2 ^ 64)
    (few : fuel ≤ count) : descending last body fuel (UInt64.ofNat price) state = none := by
  induction fuel generalizing price count state with
  | zero => rfl
  | succ fuel ih =>
    rw [descending, if_pos ((le_ofNat small).mpr (by omega))]
    cases body state (UInt64.ofNat price) with
    | none => rfl
    | some state =>
      obtain ⟨lower, rfl⟩ := Nat.exists_eq_succ_of_ne_zero (Nat.ne_of_gt (by omega : 0 < price))
      have next := @ih lower (count - 1) state (by omega) (by omega) (by omega)
      have below : UInt64.ofNat (lower + 1) - 1 = UInt64.ofNat lower := by
        rw [UInt64.ofNat_add]
        exact UInt64.add_sub_cancel _ _
      rwa [← below] at next

def pushLevel (levels : List PriceLevel) (price : Price) : Option (List PriceLevel) := some (levels ++ [{ priceTick := price }])

def pushPointer (low : Price) (levels : List PriceLevel) (pointers : List LevelAddress) (price : Price) : Option (List LevelAddress) :=
  (levelAt levels (price - low)).map fun level => pointers ++ [level]

/-- The three loops of the constructor end after one turn for every tick, with
every access inside the levels. -/
structure BuiltInTime (low high : Price) (ladder : PriceLadder) : Prop where
  built : PriceLadder.new low high = some ladder
  levels : EndsAfter (fun fuel => ascending high pushLevel fuel low []) (high.toNat - low.toNat + 1) ladder.levels
  bids : EndsAfter (fun fuel => descending low (pushPointer low ladder.levels) fuel high []) (high.toNat - low.toNat + 1) ladder.bidLevels
  asks : EndsAfter (fun fuel => ascending high (pushPointer low ladder.levels) fuel low []) (high.toNat - low.toNat + 1) ladder.askLevels
  inside : ∀ price, low ≤ price → price ≤ high → (price - low).toNat < ladder.levels.length

private theorem builtInTime (ordered : low ≤ high) (lowest : 0 < low.toNat) (highest : high.toNat + 1 < 2 ^ 64) :
    ∃ ladder, BuiltInTime low high ladder := by
  obtain ⟨count, counted⟩ : ∃ count, count = high.toNat + 1 - low.toNat := ⟨_, rfl⟩
  have steps := UInt64.le_iff_toNat_le.mp ordered
  have turns : high.toNat - low.toNat + 1 = count := by omega
  have length : (levelsFrom low count).length = count := by rw [levelsFrom, length_map, length_range']
  have up {S : Type} {body : S → Price → Option S} {state result : S}
      (run : ((range' low.toNat count).map UInt64.ofNat).foldlM body state = some result) :
      EndsAfter (fun fuel => ascending high body fuel low state) count result := by
    have short := @ascending_unfinished S high body count low.toNat count state (by omega) highest (Nat.le_refl count)
    have long := @ascending_eq S high body (count + 1) low.toNat count state (by omega) highest (Nat.lt_succ_self count)
    rw [UInt64.ofNat_toNat] at short long
    exact ⟨short, long.trans run⟩
  have down {S : Type} {body : S → Price → Option S} {state result : S}
      (run : ((range' low.toNat count).reverse.map UInt64.ofNat).foldlM body state = some result) :
      EndsAfter (fun fuel => descending low body fuel high state) count result := by
    have short := @descending_unfinished S low body count high.toNat count state (by omega) lowest high.toNat_lt (Nat.le_refl count)
    have long := @descending_eq S low body (count + 1) high.toNat count state (by omega) lowest high.toNat_lt (Nat.lt_succ_self count)
    rw [UInt64.ofNat_toNat] at short long
    exact ⟨short, long.trans run⟩
  have asks := @collect_levels count low (range' low.toNat count) (by omega) fun _ => id
  have bids := @collect_levels count low (range' low.toNat count).reverse (by omega) fun _ => mem_reverse.mp
  rw [places_eq] at asks
  rw [places_reverse_eq] at bids
  refine ⟨_, new_eq ordered lowest highest, ?_, ?_, ?_, ?_⟩
  · rw [turns, ← counted]
    exact up (collect_new low count)
  · rw [turns, ← counted]
    exact down bids
  · rw [turns, ← counted]
    exact up asks
  · intro price lower upper
    have upper := UInt64.le_iff_toNat_le.mp upper
    rw [← counted, length, UInt64.toNat_sub_of_le _ _ lower]
    have lower := UInt64.le_iff_toNat_le.mp lower
    omega

/-- The constructor ends in time exactly when the bounds leave a tick on either
side. -/
theorem construction_ends_iff (ordered : low ≤ high) :
    (∃ ladder, BuiltInTime low high ladder) ↔ 0 < low ∧ high < 18446744073709551615 := by
  rw [UInt64.lt_iff_toNat_lt, UInt64.lt_iff_toNat_lt]
  constructor
  · rintro ⟨ladder, inTime⟩
    rcases new_cases inTime.built with crossed | ⟨-, lowest, highest⟩
    · exact absurd ordered (UInt64.not_le.mpr crossed)
    · exact ⟨lowest, Nat.lt_of_succ_lt_succ highest⟩
  · rintro ⟨lowest, highest⟩
    exact builtInTime ordered lowest (Nat.succ_lt_succ highest)

theorem construction_ends_iff_ten :
    (10000 : Price) ≤ 20000 ∧ ((∃ ladder, BuiltInTime 10000 20000 ladder) ↔ (0 : Price) < 10000 ∧ (20000 : Price) < 18446744073709551615) :=
  ⟨by decide, construction_ends_iff (by decide)⟩

/-- From tick zero the loop over the bids never ends, and one step further it
would read in front of the levels. -/
theorem construction_from_zero :
    (0 : Price) ≤ 5 ∧ (¬ ∃ ladder, BuiltInTime 0 5 ladder) ∧
      (∀ (levels : List PriceLevel) fuel, descending 0 (pushPointer 0 levels) fuel 5 [] = none) ∧
      levelAt (levelsFrom 0 6) ((0 : Price) - 1 - 0) = none := by
  refine ⟨by decide, ?_, fun levels fuel => descending_never fuel 5 [], by decide⟩
  rintro ⟨ladder, inTime⟩
  have never := new_eq_none (by decide : (0 : Price) ≤ 5) (Or.inl rfl)
  rw [inTime.built] at never
  cases never

variable {place other : LevelAddress} {level another : PriceLevel} {tick : Price}

theorem Shape.same_tick (shape : Shape ladder) (there : ladder.levels[place]? = some level)
    (elsewhere : ladder.levels[other]? = some another) (same : another.priceTick = level.priceTick) : other = place := by
  have first := shape.ticks place level there
  have second := shape.ticks other another elsewhere
  rw [same, first] at second
  exact (Nat.add_left_cancel second).symm

theorem Shape.getLevel_eq (shape : Shape ladder) (lower : ladder.minPriceTick ≤ tick) (upper : tick ≤ ladder.maxPriceTick) :
    ∃ place level, ladder.getLevel tick = some place ∧ ladder.levels[place]? = some level ∧ level.priceTick = tick := by
  have inside := shape.bounds tick lower upper
  have place : (tick - ladder.minPriceTick).toNat = tick.toNat - ladder.minPriceTick.toNat := UInt64.toNat_sub_of_le _ _ lower
  have lower := UInt64.le_iff_toNat_le.mp lower
  have within : (tick - ladder.minPriceTick).toNat < ladder.levels.length := by omega
  have there : ladder.levels[(tick - ladder.minPriceTick).toNat]? = some ladder.levels[(tick - ladder.minPriceTick).toNat] :=
    getElem?_eq_getElem within
  refine ⟨_, _, if_pos within, there, UInt64.toNat_inj.mp ?_⟩
  rw [shape.ticks _ _ there]
  omega

theorem set_cases {levels : List PriceLevel} {changed : PriceLevel}
    (there : (levels.set place changed)[other]? = some another) :
    other = place ∧ another = changed ∨ other ≠ place ∧ levels[other]? = some another := by
  by_cases same : other = place
  · subst same
    rw [List.getElem?_set, if_pos rfl] at there
    split at there
    · exact Or.inl ⟨rfl, (Option.some.inj there).symm⟩
    · cases there
  · rw [List.getElem?_set_ne (Ne.symm same)] at there
    exact Or.inr ⟨same, there⟩

theorem Shape.set (shape : Shape ladder) (there : ladder.levels[place]? = some level) {changed : PriceLevel}
    (same : changed.priceTick = level.priceTick) (orderIndex : Finmap fun _ : OrderId => Address) :
    Shape { ladder with levels := ladder.levels.set place changed, orderIndex } where
  ticks other another held := by
    rcases set_cases held with ⟨rfl, rfl⟩ | ⟨-, held⟩
    · rw [same]
      exact shape.ticks _ level there
    · exact shape.ticks other another held
  bounds tick lower upper := by
    have inside := shape.bounds tick lower upper
    rwa [← @length_set _ ladder.levels place changed] at inside
  bids := shape.bids.trans (by rw [length_set])
  asks := shape.asks.trans (by rw [length_set])

end FinanceTech.Proofs.LadderConstruction
