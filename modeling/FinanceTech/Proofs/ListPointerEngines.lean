import FinanceTech.Library.FiniteMap
import FinanceTech.MatchingListPtr
import FinanceTech.Proofs.SimplePointers

/-! The list-pointer engine is a book of lists. Its level maps and its lists are what the
levels of the book are, read through pointers; every pointer kept with an order leads to
the one list that has the node. -/

namespace FinanceTech.Proofs.ListPointerEngines
open List Library Matching Matching.ListPtr ListedLinks ListedRepresentation
open Library.FiniteMap (Mapped)
open Iterator (Lists PriceLevelMap OrderIdMap)

/-- What a book of lists keeps of a reference. -/
def plain (block : Iterator.ReferencesBlock) : Listed.ReferencesBlock := ⟨block.orderIter, block.priceOrderIter⟩

def Shows (lists : Lists) (pointers : PriceLevelMap) (levels : Simple.PriceLevelMap) : Prop :=
  SortedMap.mapValues lists.dlookup pointers = SortedMap.mapValues some levels

section Shows

variable {lists next : Lists} {pointers : PriceLevelMap} {levels : Simple.PriceLevelMap}

theorem Shows.keys (shows' : Shows lists pointers levels) : pointers.map Sigma.fst = levels.map Sigma.fst := by
  rw [← SortedMap.mapValues_keys lists.dlookup pointers, shows', SortedMap.mapValues_keys]

theorem Shows.dlookup (shows' : Shows lists pointers levels) (price : Price) :
    (pointers.dlookup price).map lists.dlookup = (levels.dlookup price).map some := by
  rw [← SortedMap.dlookup_mapValues, shows', SortedMap.dlookup_mapValues]

theorem Shows.allocated (shows' : Shows lists pointers levels) {entry : (_ : Price) × Address} (member : entry ∈ pointers) :
    ∃ list, lists.dlookup entry.2 = some list := by
  have image : (⟨entry.1, lists.dlookup entry.2⟩ : (_ : Price) × Option Simple.PriceOrderList) ∈
      SortedMap.mapValues lists.dlookup pointers := mem_map_of_mem member
  rw [shows'] at image
  obtain ⟨level, -, same⟩ := mem_map.mp image
  injection same with _ read
  exact ⟨level.2, read.symm⟩

theorem Shows.pointer (shows' : Shows lists pointers levels) {level : (_ : Price) × Simple.PriceOrderList}
    (member : level ∈ levels) : ∃ address, ⟨level.1, address⟩ ∈ pointers ∧ lists.dlookup address = some level.2 := by
  have image : (⟨level.1, some level.2⟩ : (_ : Price) × Option Simple.PriceOrderList) ∈
      SortedMap.mapValues some levels := mem_map_of_mem member
  rw [← shows'] at image
  obtain ⟨entry, present, same⟩ := mem_map.mp image
  injection same with key read
  refine ⟨entry.2, ?_, read⟩
  rw [← key]
  exact present

theorem Shows.change (shows' : Shows lists pointers levels) (edit : Simple.PriceOrderList → Simple.PriceOrderList)
    (edits : ∀ entry ∈ pointers, next.dlookup entry.2 = (lists.dlookup entry.2).map edit) :
    Shows next pointers (SortedMap.mapValues edit levels) := by
  have through : SortedMap.mapValues next.dlookup pointers =
      SortedMap.mapValues (Option.map edit) (SortedMap.mapValues lists.dlookup pointers) := by
    simp only [SortedMap.mapValues, map_map]
    apply map_congr_left
    intro entry member
    simp only [Function.comp_apply, edits entry member]
  rw [Shows, through, shows']
  simp only [SortedMap.mapValues, map_map, Function.comp_def, Option.map_some]

/-- Lists that no pointer leads to may change. -/
theorem Shows.frame (shows' : Shows lists pointers levels)
    (same : ∀ entry ∈ pointers, next.dlookup entry.2 = lists.dlookup entry.2) : Shows next pointers levels := by
  have kept := shows'.change id fun entry member => (same entry member).trans Option.map_id_apply.symm
  have unchanged : SortedMap.mapValues id levels = levels := map_id levels
  rwa [unchanged] at kept

private theorem shows_cons {price : Price} {address : Address} {list : Simple.PriceOrderList} :
    Shows lists (⟨price, address⟩ :: pointers) (⟨price, list⟩ :: levels) ↔
      lists.dlookup address = some list ∧ Shows lists pointers levels := by
  simp [Shows, SortedMap.mapValues]

/-- A walk passes the same levels on both sides and starts at the same one. -/
theorem Shows.passed (shows' : Shows lists pointers levels) (passes : Price → Bool) :
    Shows lists (pointers.takeWhile fun entry => passes entry.1) (levels.takeWhile fun entry => passes entry.1) := by
  have cut {V W : Type} (read : V → W) (entries : SortedMap.Entries Price V) :
      SortedMap.mapValues read (entries.takeWhile fun entry => passes entry.1) =
        (SortedMap.mapValues read entries).takeWhile fun entry => passes entry.1 := by
    rw [SortedMap.mapValues, SortedMap.mapValues, takeWhile_map]
    rfl
  rw [Shows, cut, shows', cut]

theorem Shows.walked (shows' : Shows lists pointers levels) (side : OrderSide) (price : Price) :
    Shows lists (SortedMap.lowerBound (Simple.before side) price pointers)
      (SortedMap.lowerBound (Simple.before side) price levels) := by
  rw [Shows, ← SortedMap.lowerBound_mapValues, shows', SortedMap.lowerBound_mapValues]

theorem Shows.append {more : PriceLevelMap} {others : Simple.PriceLevelMap} (one : Shows lists pointers levels)
    (two : Shows lists more others) : Shows lists (pointers ++ more) (levels ++ others) := by
  rw [Shows, SortedMap.mapValues, SortedMap.mapValues, map_append, map_append]
  exact congrArg₂ (· ++ ·) one two

end Shows

/-- Steps that link no node: what is still indexed or still in a list was there
before. -/
structure Narrowed (lists next : Lists) (index left : OrderIdMap) : Prop where
  index : ∀ id block, left.lookup id = some block → index.lookup id = some block
  lists : ∀ address list, next.dlookup address = some list → ∃ old, lists.dlookup address = some old ∧ list ⊆ old

theorem Narrowed.refl (lists : Lists) (index : OrderIdMap) : Narrowed lists lists index index :=
  ⟨fun _ _ found => found, fun _ list found => ⟨list, found, fun _ => id⟩⟩

theorem Narrowed.trans {first second third : Lists} {one two three : OrderIdMap} (early : Narrowed first second one two)
    (late : Narrowed second third two three) : Narrowed first third one three where
  index id block found := early.index id block (late.index id block found)
  lists address list found := by
    obtain ⟨middle, there, sub⟩ := late.lists address list found
    obtain ⟨old, before, more⟩ := early.lists address middle there
    exact ⟨old, before, fun _ member => more (sub member)⟩

theorem Narrowed.write {lists : Lists} (index : OrderIdMap) {address : Address} {old list : Simple.PriceOrderList}
    (found : lists.dlookup address = some old) (sub : list ⊆ old) :
    Narrowed lists (Cells.modify lists address fun _ => list) index index where
  index _ _ found := found
  lists other left read := by
    rw [Cells.dlookup_modify] at read
    split at read
    next same =>
      rw [same, found] at read
      cases read
      exact ⟨old, same ▸ found, sub⟩
    next => exact ⟨left, read, fun _ => id⟩

/-- The loops of the two engines before the same order. -/
structure Beside (first : Simple.MatchState Listed.ReferencesBlock) (second : Iterator.MatchState) : Prop where
  order : second.order = first.order
  orders : second.orders = first.orders
  trades : second.trades = first.trades
  index : Mapped plain second.orderByIDMap first.orderByIDMap

theorem matchOrderList_follows {first next : Simple.MatchState Listed.ReferencesBlock} {second : Iterator.MatchState} {nodes kept : Simple.PriceOrderList}
    (beside : Beside first second) (ran : first.matchOrderList nodes = some (next, kept)) :
    ∃ after, second.matchOrderList nodes = some (after, kept) ∧ Beside next after ∧ after.lists = second.lists ∧
      kept ⊆ nodes ∧ ∀ id block, after.orderByIDMap.lookup id = some block → second.orderByIDMap.lookup id = some block := by
  induction nodes generalizing first second with
  | nil =>
    cases ran
    exact ⟨second, rfl, beside, rfl, fun _ => id, fun _ _ found => found⟩
  | cons node rest ih =>
    obtain ⟨order, orders, index, trades⟩ := first
    obtain ⟨taker, owned, lists, references, recorded⟩ := second
    obtain ⟨rfl, rfl, rfl, mapped⟩ := beside
    rw [Simple.MatchState.matchOrderList, Option.bind_eq_bind, Option.bind_eq_some_iff] at ran
    obtain ⟨matched, found, ran⟩ := ran
    rw [Iterator.MatchState.matchOrderList, found]
    simp only [Option.bind_eq_bind, Option.bind_some]
    dsimp only [Simple.MatchState.addTrade, Iterator.MatchState.addTrade] at ran ⊢
    split at ran
    next fits =>
      let filled : Iterator.MatchState := ⟨{ taker with quantity := taker.quantity - matched.quantity },
        Cells.modify owned node.orderIter fun order => { order with quantity := 0 }, lists,
        references.erase matched.orderId, recorded ++ [Trade.between taker matched]⟩
      obtain ⟨after, followed, ends, same, sub, fewer⟩ := @ih _ filled ⟨rfl, rfl, rfl, mapped.erase matched.orderId⟩ ran
      refine ⟨after, (if_pos fits).trans followed, ends, same, fun _ member => mem_cons_of_mem _ (sub member), ?_⟩
      exact fun id block held => FiniteMap.lookup_of_erase (fewer id block held)
    next larger =>
      cases ran
      exact ⟨_, if_neg larger, ⟨rfl, rfl, rfl, mapped⟩, rfl, fun _ => id, fun _ _ held => held⟩

theorem matchLevels_follows {first next : Simple.MatchState Listed.ReferencesBlock} {second : Iterator.MatchState} {pointers : PriceLevelMap}
    {levels kept : Simple.PriceLevelMap} (beside : Beside first second) (shows' : Shows second.lists pointers levels)
    (distinct : (pointers.map Sigma.snd).Nodup) (ran : first.matchLevels levels = some (next, kept)) :
    ∃ after, matchLevels second pointers = some after ∧ Beside next after ∧ Shows after.lists pointers kept ∧
      (∀ address, address ∉ pointers.map Sigma.snd → after.lists.dlookup address = second.lists.dlookup address) ∧
      after.lists.keys = second.lists.keys ∧
      Narrowed second.lists after.lists second.orderByIDMap after.orderByIDMap := by
  induction levels generalizing first second pointers kept with
  | nil =>
    cases ran
    cases map_eq_nil_iff.mp shows'.keys
    exact ⟨second, rfl, beside, rfl, fun _ _ => rfl, rfl, Narrowed.refl _ _⟩
  | cons level rest ih =>
    obtain ⟨price, list⟩ := level
    cases pointers with
    | nil => cases shows'.keys
    | cons entry more =>
      obtain ⟨key, address⟩ := entry
      obtain ⟨rfl, -⟩ := cons.inj shows'.keys
      obtain ⟨found, later⟩ := shows_cons.mp shows'
      obtain ⟨alone, apart⟩ := nodup_cons.mp distinct
      rw [Simple.MatchState.matchLevels] at ran
      rw [matchLevels, beside.order]
      split at ran
      next runs =>
        rw [if_pos runs]
        obtain ⟨⟨middle, left⟩, walked, ran⟩ := Option.bind_eq_some_iff.mp ran
        obtain ⟨⟨final, others⟩, went, ran⟩ := Option.bind_eq_some_iff.mp ran
        cases ran
        obtain ⟨there, followed, ends, same, sub, fewer⟩ := matchOrderList_follows beside walked
        let written : Lists := Cells.modify there.lists address fun _ => left
        have elsewhere : ∀ other, other ≠ address → written.dlookup other = second.lists.dlookup other := by
          intro other different
          rw [← same]
          exact Cells.dlookup_modify_ne different _ _
        have here : written.dlookup address = some left := by
          rw [Cells.dlookup_modify, if_pos rfl, same, found, Option.map_some]
        have narrow : Narrowed second.lists written second.orderByIDMap there.orderByIDMap := by
          refine ⟨fewer, ?_⟩
          rw [← same] at found ⊢
          exact (Narrowed.write there.orderByIDMap found sub).lists
        have ahead : Shows written more rest := by
          refine later.frame fun entry member => elsewhere entry.2 ?_
          exact fun equal => alone (mem_map.mpr ⟨entry, member, equal⟩)
        let stored : Iterator.MatchState := { there with lists := written }
        obtain ⟨after, went, meets, shown, frame, keys, narrowed⟩ :=
          @ih _ stored _ _ ⟨ends.order, ends.orders, ends.trades, ends.index⟩ ahead apart went
        refine ⟨after, ?_, meets, shows_cons.mpr ⟨?_, shown⟩, ?_, ?_, narrow.trans narrowed⟩
        · simp only [found, followed, Option.bind_eq_bind, Option.bind_some]
          exact went
        · exact (frame address alone).trans here
        · intro other absent
          rw [map_cons, mem_cons, not_or] at absent
          exact (frame other absent.2).trans (elsewhere other absent.1)
        · rw [keys, Cells.modify_keys, same]
      next stops =>
        rw [if_neg stops]
        cases ran
        exact ⟨second, rfl, beside, shows', fun _ _ => rfl, rfl, Narrowed.refl _ _⟩

/-- The list-pointer engine holds what the book of lists holds. Whatever list has
the node of an indexed order is the one its pointer leads to. -/
structure Mirrors (first : Listed.OrderMatchingEngine) (second : OrderMatchingEngine) : Prop where
  levels : ∀ side, Shows second.lists (second.levels side) (first.levels side)
  orders : second.orders = first.orders
  trades : second.trades = first.trades
  fresh : second.fresh = first.fresh
  index : Mapped plain second.orderByIDMap first.orderByIDMap
  apart : ((second.buyOrders ++ second.sellOrders).map Sigma.snd).Nodup
  allocated : ∀ address ∈ second.lists.keys, address < second.freshList
  bounded : ∀ address list, second.lists.dlookup address = some list → ∀ node ∈ list, node.iter < second.fresh
  named : ∀ id block, second.orderByIDMap.lookup id = some block → block.priceOrderIter < second.fresh
  leads : ∀ id block, second.orderByIDMap.lookup id = some block → ∀ address list, second.lists.dlookup address = some list →
    (∃ node ∈ list, node.iter = block.priceOrderIter) → address = block.priceLevelOrderList

private theorem initial_mirrors : Mirrors {} {} := by
  refine ⟨?_, rfl, rfl, rfl, ?_, nodup_nil, ?_, ?_, ?_, ?_⟩
  · intro side
    cases side <;> rfl
  · intro id
    rfl
  · intro address member
    cases member
  · intro address list found
    cases found
  · intro id block found
    rw [Finmap.lookup_empty] at found
    cases found
  · intro id block found
    rw [Finmap.lookup_empty] at found
    cases found

section Mirrors

variable {first : Listed.OrderMatchingEngine} {second : OrderMatchingEngine}

theorem Mirrors.sides (mirrors : Mirrors first second) (side : OrderSide) :
    ((second.levels side).map Sigma.snd ++ (second.levels side.opposite).map Sigma.snd).Nodup := by
  have apart := mirrors.apart
  rw [map_append] at apart
  cases side with
  | buy => exact apart
  | sell => exact perm_append_comm.nodup_iff.mp apart

private theorem sides_apart {engine : OrderMatchingEngine} (side : OrderSide)
    (apart : ((engine.levels side).map Sigma.snd ++ (engine.levels side.opposite).map Sigma.snd).Nodup) :
    ((engine.buyOrders ++ engine.sellOrders).map Sigma.snd).Nodup := by
  rw [map_append]
  cases side with
  | buy => exact apart
  | sell => exact perm_append_comm.nodup_iff.mp apart

theorem shows_setLevels {lists : Lists} {pointers : OrderSide → PriceLevelMap} {next : Listed.OrderMatchingEngine}
    {levels : Simple.PriceLevelMap} (side : OrderSide) (replaced : ∀ which, next.levels which = (first.setLevels levels side).levels which)
    (own : Shows lists (pointers side) levels) (other : Shows lists (pointers side.opposite) (first.levels side.opposite)) :
    ∀ which, Shows lists (pointers which) (next.levels which) := by
  intro which
  rw [replaced]
  cases side <;> cases which <;> assumption

/-- What is kept when nothing is linked. -/
theorem Mirrors.narrow (mirrors : Mirrors first second) {lists : Lists} {index : OrderIdMap}
    (narrowed : Narrowed second.lists lists second.orderByIDMap index) :
    (∀ address list, lists.dlookup address = some list → ∀ node ∈ list, node.iter < second.fresh) ∧
      ∀ id block, index.lookup id = some block → ∀ address list, lists.dlookup address = some list →
        (∃ node ∈ list, node.iter = block.priceOrderIter) → address = block.priceLevelOrderList := by
  constructor
  · intro address list found node member
    obtain ⟨old, there, sub⟩ := narrowed.lists address list found
    exact mirrors.bounded address old there node (sub member)
  · rintro id block held address list found ⟨node, member, names⟩
    obtain ⟨old, there, sub⟩ := narrowed.lists address list found
    exact mirrors.leads id block (narrowed.index id block held) address old there ⟨node, sub member, names⟩

private theorem matchOrder_mirrors (mirrors : Mirrors first second) {order taker : Order} {next : Listed.OrderMatchingEngine}
    (ran : first.matchOrder order = some (taker, next)) :
    ∃ after, second.matchOrder order = some (taker, after) ∧ Mirrors next after := by
  let side := order.side.opposite
  rw [Listed.OrderMatchingEngine.matchOrder] at ran
  obtain ⟨⟨state, kept⟩, walked, ran⟩ := Option.bind_eq_some_iff.mp ran
  cases ran
  have shows' := mirrors.levels side
  have sub : SortedMap.lowerBound (Simple.before side) order.price (second.levels side) <:+ second.levels side :=
    dropWhile_suffix _
  have apart := mirrors.sides side
  have inside := (nodup_append.mp apart).1
  obtain ⟨after, followed, ends, shown, frame, keys, narrowed⟩ := @matchLevels_follows
    ⟨order, first.orders, first.orderByIDMap, first.trades⟩ state
    ⟨order, second.orders, second.lists, second.orderByIDMap, second.trades⟩ _ _ kept
    ⟨rfl, mirrors.orders, mirrors.trades, mirrors.index⟩ (shows'.walked side order.price)
    (inside.sublist (sub.sublist.map _)) walked
  obtain ⟨bounded, leads⟩ := mirrors.narrow narrowed
  let passes : Price → Bool := fun price => Simple.before side price order.price
  have whole : (second.levels side).takeWhile (fun entry => passes entry.1) ++
      SortedMap.lowerBound (Simple.before side) order.price (second.levels side) = second.levels side :=
    takeWhile_append_dropWhile
  -- the walk writes the lists behind its own pointers only
  have own : Shows after.lists (second.levels side) ((first.levels side).takeWhile (fun entry => passes entry.1) ++ kept) := by
    rw [← whole] at inside ⊢
    rw [map_append] at inside
    refine ((shows'.passed passes).frame fun entry member => frame entry.2 ?_).append shown
    exact fun there => (nodup_append.mp inside).2.2 _ (mem_map_of_mem member) _ there rfl
  have other : Shows after.lists (second.levels side.opposite) (first.levels side.opposite) := by
    refine (mirrors.levels side.opposite).frame fun entry member => frame entry.2 ?_
    intro there
    exact (nodup_append.mp apart).2.2 _ (map_subset _ sub.subset there) _ (mem_map_of_mem member) rfl
  let reached : OrderMatchingEngine := { second with
    orders := after.orders, lists := after.lists, orderByIDMap := after.orderByIDMap, trades := after.trades }
  refine ⟨reached, ?_, ?_, ends.orders, ends.trades, ?_, ends.index, mirrors.apart, ?_, bounded, ?_, leads⟩
  · rw [OrderMatchingEngine.matchOrder, followed, Option.bind_eq_bind, Option.bind_some, ends.order]
    rfl
  · refine @shows_setLevels first _ second.levels _ _ side (fun which => ?_) own other
    cases which <;> rfl
  · rw [setLevels_fresh]
    exact mirrors.fresh
  · intro address member
    exact mirrors.allocated address (keys ▸ member)
  · exact fun id block held => mirrors.named id block (narrowed.index id block held)

private theorem pointer_setLevels_levels (engine : OrderMatchingEngine) (levels : PriceLevelMap) (side which : OrderSide) :
    (engine.setLevels levels side).levels which = if which = side then levels else engine.levels which := by
  cases side <;> cases which <;> rfl

private theorem Mirrors.pointer_allocated (mirrors : Mirrors first second) (side : OrderSide) {entry : (_ : Price) × Address}
    (member : entry ∈ second.levels side) : entry.2 ∈ second.lists.keys := by
  obtain ⟨list, found⟩ := (mirrors.levels side).allocated member
  exact mem_keys_of_mem (of_mem_dlookup found)

/-- A new level is empty, and no other pointer leads to its list. -/
theorem createLevel_mirrors (mirrors : Mirrors first second) (side : OrderSide) {price : Price}
    (absent : (second.levels side).dlookup price = none) :
    Mirrors (first.setLevels (SortedMap.insert (Simple.before side) price [] (first.levels side)) side)
      { second.setLevels (SortedMap.insert (Simple.before side) price second.freshList (second.levels side)) side with
        lists := second.lists ++ [⟨second.freshList, []⟩], freshList := second.freshList + 1 } := by
  have unused : second.freshList ∉ second.lists.keys := fun member => Nat.lt_irrefl _ (mirrors.allocated _ member)
  let inserted := SortedMap.insert (Simple.before side) price second.freshList (second.levels side)
  let opened : OrderMatchingEngine := { second.setLevels inserted side with
    lists := second.lists ++ [⟨second.freshList, []⟩], freshList := second.freshList + 1 }
  have levels : ∀ which, opened.levels which = if which = side then inserted else second.levels which := by
    intro which
    rw [← pointer_setLevels_levels]
    cases which <;> rfl
  have own : opened.levels side = inserted := (levels side).trans (if_pos rfl)
  have other : opened.levels side.opposite = second.levels side.opposite :=
    (levels side.opposite).trans (if_neg (opposite_ne side))
  have kept : ∀ address list, second.lists.dlookup address = some list → opened.lists.dlookup address = some list :=
    fun address list found => Cells.dlookup_append_some found _
  have still : ∀ which, Shows opened.lists (second.levels which) (first.levels which) := by
    intro which
    refine (mirrors.levels which).frame fun entry member => ?_
    obtain ⟨list, found⟩ := (mirrors.levels which).allocated member
    rw [found, kept entry.2 list found]
  have held : ∀ address list, opened.lists.dlookup address = some list → list = [] ∨ second.lists.dlookup address = some list := by
    intro address list found
    have read : dlookup address (second.lists ++ [⟨second.freshList, []⟩]) = some list := found
    rw [dlookup_append] at read
    cases there : second.lists.dlookup address with
    | some old =>
      rw [there] at read
      exact .inr read
    | none =>
      rw [there, Option.none_or] at read
      cases mem_singleton.mp (of_mem_dlookup read)
      exact .inl rfl
  refine ⟨@shows_setLevels first _ opened.levels _ _ side (fun _ => rfl) ?_ ?_, ?_, ?_, ?_, ?_, ?_, ?_, ?_, ?_, ?_⟩
  · rw [own, Shows, ← SortedMap.insert_mapValues, still side, ← SortedMap.insert_mapValues]
    exact congrArg (SortedMap.insert (Simple.before side) price · _) (Cells.dlookup_append_self unused [])
  · rw [other]
    exact still side.opposite
  · cases side <;> exact mirrors.orders
  · cases side <;> exact mirrors.trades
  · cases side <;> exact mirrors.fresh
  · cases side <;> exact mirrors.index
  · apply sides_apart side
    rw [own, other]
    have perm := SortedMap.insert_perm (Simple.before side) second.freshList (dlookup_eq_none.mp absent)
    refine (((perm.map Sigma.snd).append_right _).nodup_iff).mpr (nodup_cons.mpr ⟨?_, mirrors.sides side⟩)
    intro taken
    rcases mem_append.mp taken with taken | taken
    all_goals
      obtain ⟨entry, member, same⟩ := mem_map.mp taken
      have present := mirrors.pointer_allocated _ member
      rw [same] at present
      exact unused present
  · intro address member
    rcases mem_append.mp (keys_append ▸ member) with member | member
    · exact Nat.lt_succ_of_lt (mirrors.allocated address member)
    · cases mem_singleton.mp member
      exact Nat.lt_succ_self _
  · intro address list found
    rcases held address list found with rfl | there
    · intro node member
      cases member
    · cases side <;> exact mirrors.bounded address list there
  · cases side <;> exact mirrors.named
  · rintro id block present address list found ⟨node, member, names⟩
    rcases held address list found with rfl | there
    · cases member
    · cases side <;> exact mirrors.leads id block present address list there ⟨node, member, names⟩

section Plain

variable (engine : Listed.OrderMatchingEngine) (levels : Simple.PriceLevelMap) (side : OrderSide)

private theorem plain_setLevels_orders : (engine.setLevels levels side).orders = engine.orders := by cases side <;> rfl

private theorem plain_setLevels_trades : (engine.setLevels levels side).trades = engine.trades := by cases side <;> rfl

private theorem plain_setLevels_index : (engine.setLevels levels side).orderByIDMap = engine.orderByIDMap := by cases side <;> rfl

private theorem setLevels_twice (more : Simple.PriceLevelMap) :
    (engine.setLevels levels side).setLevels more side = engine.setLevels more side := by cases side <;> rfl

private theorem plain_setLevels_self : engine.setLevels (engine.levels side) side = engine := by cases side <;> rfl

end Plain

/-- Where a new order goes: a list that the book would find under the
price. -/
theorem getOrderPriceList_mirrors (valid : Valid first) (mirrors : Mirrors first second) (side : OrderSide) (price : Price) :
    (((second.getOrderPriceList side price).1.levels side).dlookup price = some (second.getOrderPriceList side price).2) ∧
      Mirrors (first.setLevels (SortedMap.insert (Simple.before side) price
        (Simple.OrderMatchingEngine.priceLevelOrderList (first.levels side) price) (first.levels side)) side)
        (second.getOrderPriceList side price).1 := by
  have same := (mirrors.levels side).dlookup price
  rw [OrderMatchingEngine.getOrderPriceList, Simple.OrderMatchingEngine.priceLevelOrderList]
  cases found : (second.levels side).dlookup price with
  | some address =>
    rw [found] at same
    obtain ⟨list, there, -⟩ := Option.map_eq_some_iff.mp same.symm
    refine ⟨found, ?_⟩
    rw [there, Option.getD_some, (valid.sorted side).insert_self (Simple.before side) there, plain_setLevels_self]
    exact mirrors
  | none =>
    rw [found, Option.map_none] at same
    rw [Option.map_eq_none_iff.mp same.symm, Option.getD_none]
    refine ⟨?_, createLevel_mirrors mirrors side found⟩
    have inserted := SortedMap.dlookup_insert_self (Simple.before side) price second.freshList (second.levels side)
    cases side <;> exact inserted

private theorem shows_append {lists : Lists} {pointers : PriceLevelMap} {levels : Simple.PriceLevelMap} {side : OrderSide} {price : Price}
    {address : Address} {list : Simple.PriceOrderList} (sorted : SortedMap.Sorted (Simple.before side) levels)
    (shows' : Shows lists pointers levels) (distinct : (pointers.map Sigma.snd).Nodup)
    (found : pointers.dlookup price = some address) (there : levels.dlookup price = some list) (node : Simple.PriceOrder) :
    Shows (Cells.modify lists address fun list => list ++ [node]) pointers
      (SortedMap.insert (Simple.before side) price (list ++ [node]) levels) := by
  have ordered : SortedMap.Sorted (Simple.before side) pointers := sorted.of_keys _ (shows'.keys ▸ Sublist.refl _)
  have keyed {V W : Type} (read : V → W) {entries : SortedMap.Entries Price V} (sorted : SortedMap.Sorted (Simple.before side) entries) :
      SortedMap.Sorted (Simple.before side) (SortedMap.mapValues read entries) :=
    sorted.of_keys _ (SortedMap.mapValues_keys read entries ▸ Sublist.refl _)
  apply (keyed _ ordered).ext _ (keyed _ (sorted.insert _ _ _))
  intro key
  have same := shows'.dlookup key
  rw [SortedMap.dlookup_mapValues, SortedMap.dlookup_mapValues, SortedMap.dlookup_insert]
  split
  next here =>
    rw [here, found, there] at same
    have read : lists.dlookup address = some list := Option.some.inj same
    rw [here, found, Option.map_some, Option.map_some, Cells.dlookup_modify, if_pos rfl, read, Option.map_some]
  next elsewhere =>
    rw [← same]
    apply Option.map_congr
    intro other held
    apply Cells.dlookup_modify_ne
    intro equal
    have entries := inj_on_of_nodup_map distinct (of_mem_dlookup held) (of_mem_dlookup found) equal
    exact elsewhere (congrArg Sigma.fst entries)

theorem mem_linked {lists : Lists} {address other : Address} {list : Simple.PriceOrderList} {node linked : Simple.PriceOrder}
    (read : (Cells.modify lists address fun list => list ++ [node]).dlookup other = some list) (member : linked ∈ list) :
    (∃ old, lists.dlookup other = some old ∧ linked ∈ old) ∨ (other = address ∧ linked = node) := by
  rw [Cells.dlookup_modify] at read
  split at read
  next same =>
    obtain ⟨old, before, rfl⟩ := Option.map_eq_some_iff.mp read
    rcases mem_append.mp member with member | member
    · exact .inl ⟨old, before, member⟩
    · exact .inr ⟨same, mem_singleton.mp member⟩
  next => exact .inl ⟨list, read, member⟩

private theorem link_mirrors (mirrors : Mirrors first second) {order : Order} {address : Address} {list : Simple.PriceOrderList}
    (sorted : SortedMap.Sorted (Simple.before order.side) (first.levels order.side))
    (found : (second.levels order.side).dlookup order.price = some address)
    (there : (first.levels order.side).dlookup order.price = some list) :
    Mirrors { first.setLevels (SortedMap.insert (Simple.before order.side) order.price (list ++ [⟨first.fresh + 1, first.fresh⟩])
        (first.levels order.side)) order.side with
      orders := first.orders ++ [⟨first.fresh, order⟩]
      orderByIDMap := first.orderByIDMap.insert order.orderId ⟨first.fresh, first.fresh + 1⟩
      fresh := first.fresh + 2 } { second with
      orders := second.orders ++ [⟨second.fresh, order⟩]
      lists := Cells.modify second.lists address fun list => list ++ [⟨second.fresh + 1, second.fresh⟩]
      orderByIDMap := second.orderByIDMap.insert order.orderId ⟨second.fresh, second.fresh + 1, address⟩
      fresh := second.fresh + 2 } := by
  let side := order.side
  have apart := mirrors.sides side
  have own := shows_append sorted (mirrors.levels side) (nodup_append.mp apart).1 found there ⟨second.fresh + 1, second.fresh⟩
  have other : Shows (Cells.modify second.lists address fun list => list ++ [⟨second.fresh + 1, second.fresh⟩])
      (second.levels side.opposite) (first.levels side.opposite) := by
    refine (mirrors.levels side.opposite).frame fun entry member => Cells.dlookup_modify_ne ?_ _ _
    intro equal
    have reached := mem_map_of_mem (f := Sigma.snd) (of_mem_dlookup found)
    exact (nodup_append.mp apart).2.2 _ reached _ (mem_map_of_mem member) equal.symm
  rw [← mirrors.fresh]
  refine ⟨@shows_setLevels first _ second.levels _ _ side (fun which => ?_) own other, ?_, ?_, rfl,
    mirrors.index.insert order.orderId ⟨second.fresh, second.fresh + 1, address⟩, mirrors.apart, ?_, ?_, ?_, ?_⟩
  · cases which <;> rfl
  · exact congrArg (· ++ [_]) mirrors.orders
  · exact mirrors.trades.trans (plain_setLevels_trades _ _ _).symm
  · rw [Cells.modify_keys]
    exact mirrors.allocated
  · intro other list read linked member
    rcases mem_linked read member with ⟨old, before, inside⟩ | ⟨-, rfl⟩
    · exact (mirrors.bounded other old before linked inside).trans (Nat.lt_add_of_pos_right Nat.two_pos)
    · exact Nat.lt_succ_self _
  · intro id block present
    rcases FiniteMap.lookup_of_insert present with ⟨-, rfl⟩ | before
    · exact Nat.lt_succ_self _
    · exact (mirrors.named id block before).trans (Nat.lt_add_of_pos_right Nat.two_pos)
  · rintro id block present other list read ⟨linked, member, names⟩
    rcases mem_linked read member with ⟨old, before, inside⟩ | ⟨same, rfl⟩
    · have low := mirrors.bounded other old before linked inside
      rcases FiniteMap.lookup_of_insert present with ⟨-, rfl⟩ | earlier
      · rw [names] at low
        exact absurd low (Nat.not_lt_of_le (Nat.le_succ _))
      · exact mirrors.leads id block earlier other old before ⟨linked, inside, names⟩
    · rcases FiniteMap.lookup_of_insert present with ⟨-, rfl⟩ | earlier
      · exact same
      · have low := mirrors.named id block earlier
        rw [← names] at low
        exact absurd low (Nat.not_lt_of_le (Nat.le_succ _))

private theorem insertOrder_mirrors (valid : Valid first) (mirrors : Mirrors first second) (order : Order) :
    Mirrors (first.insertOrder order) (second.insertOrder order) := by
  let side := order.side
  let list := Simple.OrderMatchingEngine.priceLevelOrderList (first.levels side) order.price
  let shown := SortedMap.insert (Simple.before side) order.price list (first.levels side)
  obtain ⟨found, created⟩ := getOrderPriceList_mirrors valid mirrors side order.price
  have own : (first.setLevels shown side).levels side = shown := (setLevels_levels _ _ _ _).trans (if_pos rfl)
  have sorted : SortedMap.Sorted (Simple.before side) ((first.setLevels shown side).levels side) := by
    rw [own]
    exact (valid.sorted side).insert _ _ _
  have there : ((first.setLevels shown side).levels side).dlookup order.price = some list := by
    rw [own]
    exact SortedMap.dlookup_insert_self _ _ _ _
  have linked := link_mirrors created sorted found there
  rw [own, SortedMap.insert_insert] at linked
  have replaced : first.insertOrder order = { (first.setLevels shown side).setLevels (SortedMap.insert (Simple.before side) order.price
      (list ++ [⟨first.fresh + 1, first.fresh⟩]) (first.levels side)) side with
      orders := first.orders ++ [⟨first.fresh, order⟩]
      orderByIDMap := first.orderByIDMap.insert order.orderId ⟨first.fresh, first.fresh + 1⟩
      fresh := first.fresh + 2 } := by
    rw [Listed.OrderMatchingEngine.insertOrder, setLevels_twice]
  rw [setLevels_fresh, plain_setLevels_orders, plain_setLevels_index] at linked
  rw [replaced]
  exact linked

theorem handleOrderNew_mirrors (valid : Valid first) (mirrors : Mirrors first second) {order : Order}
    {next : Listed.OrderMatchingEngine} (ran : first.handleOrderNew order = some next) :
    ∃ after, second.handleOrderNew order = some after ∧ Mirrors next after := by
  rw [Listed.OrderMatchingEngine.handleOrderNew] at ran
  obtain ⟨⟨taker, middle⟩, matched, ran⟩ := Option.bind_eq_some_iff.mp ran
  obtain ⟨there, followed, meets⟩ := matchOrder_mirrors mirrors matched
  obtain ⟨left, reached, run⟩ := matchOrder_matches valid order
  cases matched.symm.trans run.ran
  rw [OrderMatchingEngine.handleOrderNew, followed]
  simp only [Option.bind_eq_bind, Option.bind_some, ← meets.index.mem taker.orderId]
  dsimp only at ran
  split at ran
  next filled =>
    cases ran
    exact ⟨there, if_pos filled, meets⟩
  next open' =>
    rw [if_neg open']
    split at ran
    next taken =>
      cases ran
      exact ⟨there, if_pos taken, meets⟩
    next free =>
      cases ran
      exact ⟨_, if_neg free, insertOrder_mirrors run.valid meets taker⟩

structure Leads (second : OrderMatchingEngine) (id : OrderID) (block : Iterator.ReferencesBlock) (side : OrderSide)
    (level : (_ : Price) × Simple.PriceOrderList) (order : Order) : Prop where
  linked : ⟨block.priceOrderIter, block.orderIter⟩ ∈ level.2
  distinct : (level.2.map Simple.PriceOrder.iter).Nodup
  pointed : ⟨level.1, block.priceLevelOrderList⟩ ∈ second.levels side
  list : second.lists.dlookup block.priceLevelOrderList = some level.2
  found : second.orders.dlookup block.orderIter = some order
  named : order.orderId = id
  placed : order.side = side ∧ order.price = level.1

theorem Mirrors.reference (valid : Valid first) (mirrors : Mirrors first second) {id : OrderID} {block : Iterator.ReferencesBlock}
    (held : second.orderByIDMap.lookup id = some block) : ∃ side, ∃ level ∈ first.levels side, ∃ order, Leads second id block side level order := by
  have same := mirrors.index id
  rw [held] at same
  obtain ⟨side, level, order, located⟩ := valid.located same
  obtain ⟨address, pointed, found⟩ := (mirrors.levels side).pointer located.present
  obtain rfl := mirrors.leads id block held address level.2 found ⟨_, located.linked, rfl⟩
  refine ⟨side, level, located.present, order, located.linked, located.distinct, pointed, found, ?_, located.named, located.sided, located.priced⟩
  rw [mirrors.orders]
  exact located.found

/-- Erasing the node of an indexed order removes it from the one list that has it. -/
theorem handleOrderCancel_mirrors (valid : Valid first) (mirrors : Mirrors first second) (order : Order) :
    ∃ after, second.handleOrderCancel order = some after ∧ Mirrors (first.handleOrderCancel order) after := by
  have same := mirrors.index order.orderId
  rw [OrderMatchingEngine.handleOrderCancel, Listed.OrderMatchingEngine.handleOrderCancel, same]
  cases held : second.orderByIDMap.lookup order.orderId with
  | none => exact ⟨second, rfl, mirrors⟩
  | some block =>
    obtain ⟨side, level, present, resting, leads⟩ := mirrors.reference valid held
    let left := level.2.filter fun node => node.iter ≠ block.priceOrderIter
    have erased : Iterator.OrderMatchingEngine.eraseNode level.2 block.priceOrderIter = some left := by
      rw [Iterator.OrderMatchingEngine.eraseNode, if_pos (any_eq_true.mpr ⟨_, leads.linked, decide_eq_true rfl⟩),
        eraseP_eq_filter leads.distinct]
    let lists : Lists := Cells.modify second.lists block.priceLevelOrderList fun _ => left
    have narrowed : Narrowed second.lists lists second.orderByIDMap (second.orderByIDMap.erase order.orderId) := by
      refine ⟨fun _ _ found => FiniteMap.lookup_of_erase found, ?_⟩
      exact (Narrowed.write second.orderByIDMap leads.list (filter_subset_self _)).lists
    obtain ⟨bounded, leading⟩ := mirrors.narrow narrowed
    have shown : ∀ which, Shows lists (second.levels which) (Listed.unlink block.priceOrderIter (first.levels which)) := by
      intro which
      apply (mirrors.levels which).change fun list => list.filter fun node => node.iter ≠ block.priceOrderIter
      intro entry member
      by_cases pointed : entry.2 = block.priceLevelOrderList
      · rw [pointed, Cells.dlookup_modify, if_pos rfl, leads.list]
        rfl
      · obtain ⟨list, found⟩ := (mirrors.levels which).allocated member
        rw [Cells.dlookup_modify_ne pointed, found, Option.map_some]
        apply congrArg some
        symm
        apply filter_eq_self.mpr
        intro node inside
        exact decide_eq_true fun names => pointed (mirrors.leads _ block held entry.2 list found ⟨node, inside, names⟩)
    simp only [leads.list, erased, Option.bind_eq_bind, Option.bind_some]
    refine ⟨_, rfl, ?_, ?_, mirrors.trades, mirrors.fresh, mirrors.index.erase order.orderId, mirrors.apart, ?_, bounded, ?_, leading⟩
    · intro which
      cases which with
      | buy => exact shown .buy
      | sell => exact shown .sell
    · exact congrArg (kerase block.orderIter) mirrors.orders
    · rw [Cells.modify_keys]
      exact mirrors.allocated
    · exact fun id other found => mirrors.named id other (FiniteMap.lookup_of_erase found)

private theorem handleOrderAmend_mirrors (valid : Valid first) (mirrors : Mirrors first second) {order : Order}
    {next : Listed.OrderMatchingEngine} (ran : first.handleOrderAmend order = some next) :
    ∃ after, second.handleOrderAmend order = some after ∧ Mirrors next after := by
  rw [Listed.OrderMatchingEngine.handleOrderAmend, mirrors.index order.orderId] at ran
  rw [OrderMatchingEngine.handleOrderAmend]
  cases held : second.orderByIDMap.lookup order.orderId with
  | none =>
    rw [held] at ran
    cases ran
    exact ⟨second, rfl, mirrors⟩
  | some block =>
    obtain ⟨side, level, present, resting, leads⟩ := mirrors.reference valid held
    have read : first.orders.dlookup block.orderIter = some resting := by
      rw [← mirrors.orders]
      exact leads.found
    simp only [held, Option.map_some, plain, read, Option.bind_eq_bind, Option.bind_some] at ran
    simp only [leads.found, Option.bind_eq_bind, Option.bind_some]
    split at ran
    next other =>
      cases ran
      exact ⟨second, if_pos other, mirrors⟩
    next same =>
      rw [if_neg same]
      split at ran
      next moved =>
        obtain ⟨cancelled, gone, meets⟩ := handleOrderCancel_mirrors valid mirrors order
        obtain ⟨after, entered, holds⟩ := handleOrderNew_mirrors (handleOrderCancel_valid valid order) meets ran
        refine ⟨after, ?_, holds⟩
        rw [if_pos moved, gone, Option.bind_some, entered]
      next stays =>
        cases ran
        refine ⟨_, if_neg stays, mirrors.levels, ?_, mirrors.trades, mirrors.fresh, mirrors.index, mirrors.apart,
          mirrors.allocated, mirrors.bounded, mirrors.named, mirrors.leads⟩
        rw [mirrors.orders]

private theorem processOrder_mirrors (valid : Valid first) (mirrors : Mirrors first second) (order : Order) :
    ∃ next after, first.processOrder order = some next ∧ second.processOrder order = some after ∧
      Valid next ∧ Mirrors next after := by
  obtain ⟨next, ran, kept⟩ := processOrder_valid valid order
  rw [ran, OrderMatchingEngine.processOrder]
  rw [Listed.OrderMatchingEngine.processOrder] at ran
  cases action : order.action with
  | new =>
    rw [action] at ran
    obtain ⟨after, followed, meets⟩ := handleOrderNew_mirrors valid mirrors ran
    exact ⟨next, after, rfl, followed, kept, meets⟩
  | cancel =>
    rw [action] at ran
    cases ran
    obtain ⟨after, followed, meets⟩ := handleOrderCancel_mirrors valid mirrors order
    exact ⟨_, after, rfl, followed, kept, meets⟩
  | amend =>
    rw [action] at ran
    obtain ⟨after, followed, meets⟩ := handleOrderAmend_mirrors valid mirrors ran
    exact ⟨next, after, rfl, followed, kept, meets⟩
  | recovery | recoveryEnd =>
    rw [action] at ran
    cases ran
    exact ⟨_, second, rfl, rfl, kept, mirrors⟩

/-- The pointer kept with an order is the one of its level, and the references of the
order lead to it. -/
structure Sound (engine : OrderMatchingEngine) : Prop where
  pointed : ∀ id block, engine.orderByIDMap.lookup id = some block → ∃ order, engine.orders.dlookup block.orderIter = some order ∧
    (engine.levels order.side).dlookup order.price = some block.priceLevelOrderList
  consistent : ∀ id block, engine.orderByIDMap.lookup id = some block → engine.consistent id block = true

/-- The two engines hold and have traded the same. -/
structure Agree (first : Simple.OrderMatchingEngine) (second : OrderMatchingEngine) : Prop where
  orders : second.orders = first.orders
  trades : second.trades = first.trades
  levels : ∀ side, second.listed side = SortedMap.mapValues some (first.levels side)
  index : ∀ id, (first.orderByIDMap.lookup id).map SimplePointers.plain = (second.orderByIDMap.lookup id).map plain

theorem Leads.consistent {id : OrderID} {block : Iterator.ReferencesBlock} {side : OrderSide}
    {level : (_ : Price) × Simple.PriceOrderList} {order : Order} (leads : Leads second id block side level order) :
    second.consistent id block = true := by
  have node : level.2.find? (fun node => node.iter = block.priceOrderIter) = some ⟨block.priceOrderIter, block.orderIter⟩ := by
    cases search : level.2.find? (fun node => node.iter = block.priceOrderIter) with
    | none => exact absurd (decide_eq_true rfl) (find?_eq_none.mp search _ leads.linked)
    | some node =>
      have names : node.iter = block.priceOrderIter := by simpa using find?_some search
      rw [inj_on_of_nodup_map leads.distinct (mem_of_find?_eq_some search) leads.linked names]
  simp [OrderMatchingEngine.consistent, leads.list, leads.found, leads.named, node]

theorem Mirrors.sound (valid : Valid first) (mirrors : Mirrors first second) : Sound second := by
  refine ⟨?_, ?_⟩
  all_goals
    intro id block held
    obtain ⟨side, level, present, order, leads⟩ := mirrors.reference valid held
  · obtain ⟨rfl, priced⟩ := leads.placed
    refine ⟨order, leads.found, ?_⟩
    rw [priced]
    have ordered : SortedMap.Sorted (Simple.before order.side) (second.levels order.side) :=
      (valid.sorted order.side).of_keys _ ((mirrors.levels order.side).keys ▸ Sublist.refl _)
    exact (mem_dlookup_iff (ordered.nodupKeys (Simple.before order.side))).mpr leads.pointed
  · exact leads.consistent

theorem Mirrors.agree {engine : Simple.OrderMatchingEngine} (follows : SimplePointers.Follows engine first)
    (mirrors : Mirrors first second) : Agree engine second := by
  refine ⟨mirrors.orders.trans follows.orders.symm, mirrors.trades.trans follows.trades.symm, fun side => ?_, fun id => ?_⟩
  · rw [follows.levels]
    exact mirrors.levels side
  · exact (follows.index id).symm.trans (mirrors.index id)

end Mirrors

/-- Over every sequence of orders the list-pointer engine follows no pointer to
nothing. The engine that points into the vectors of its level maps stays with it
until an order is taken out whose pointer is not the place of its level. -/
theorem engines_agree (grow : Nat → Nat) (orders : List Order) : ∃ second,
    OrderMatchingEngine.processOrders {} orders = some second ∧ Sound second ∧
      ∀ first, Simple.OrderMatchingEngine.processOrders grow {} orders = some first → Agree first second ∧
        ∀ order, first.processOrder grow order = none ↔ SimplePointers.Dangles first order := by
  obtain ⟨listed, second, ran, followed, valid, mirrors⟩ := @Runs.foldlM_simulates _ _ _ Listed.OrderMatchingEngine.processOrder
    OrderMatchingEngine.processOrder (fun first second => Valid first ∧ Mirrors first second)
    (fun _ _ order related => processOrder_mirrors related.1 related.2 order) orders {} {} ⟨initial, initial_mirrors⟩
  refine ⟨second, followed, mirrors.sound valid, fun first reached => ?_⟩
  obtain ⟨book, same, follows, -⟩ := SimplePointers.processOrders_follows reached
  cases same.symm.trans ran
  refine ⟨mirrors.agree follows, fun order => ?_⟩
  obtain ⟨fails, succeeds⟩ := SimplePointers.processOrder_follows grow valid follows order
  refine ⟨fun failed => ?_, fails⟩
  by_contra sound
  obtain ⟨after, -, taken, -⟩ := succeeds sound
  cases failed.symm.trans taken

/-- Three prices; the last order is taken out, and the first one is left with a pointer
that dangles. -/
theorem engines_agree_three : ∃ first second, Simple.OrderMatchingEngine.processOrders SimplePointers.growth {}
      [⟨.buy, .new, 1, 100, 5⟩, ⟨.buy, .new, 2, 101, 5⟩, ⟨.buy, .new, 3, 102, 5⟩, ⟨.buy, .cancel, 3, 102, 5⟩] = some first ∧
    Agree first second ∧ SimplePointers.Dangles first ⟨.buy, .cancel, 1, 100, 5⟩ := by
  obtain ⟨second, -, -, agree⟩ := engines_agree SimplePointers.growth
    [⟨.buy, .new, 1, 100, 5⟩, ⟨.buy, .new, 2, 101, 5⟩, ⟨.buy, .new, 3, 102, 5⟩, ⟨.buy, .cancel, 3, 102, 5⟩]
  obtain ⟨same, fails⟩ := agree _ rfl
  exact ⟨_, second, rfl, same, (fails _).mp rfl⟩

end FinanceTech.Proofs.ListPointerEngines
