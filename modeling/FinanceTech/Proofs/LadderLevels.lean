import FinanceTech.Library.LinkedList
import FinanceTech.PriceLadder
import Mathlib.Data.Finset.Card

/-! One level of the ladder. Its orders form a doubly linked list in memory and
its total is the sum of their volumes; linking an order in, taking one out and
changing a volume keep this and write nothing else. -/

namespace FinanceTech.Proofs.LadderLevels
open List Library LinkedList PriceLevelStorage

/-- An order that rests on the ladder, as its owner knows it. -/
structure Resting where
  address : Address
  orderId : OrderId
  priceTick : Price
  volume : Volume
  side : OrderSide
deriving DecidableEq, Repr

def Resting.of (address : Address) (order : Order) : Resting :=
  ⟨address, order.orderId, order.priceTick, order.volume, order.side⟩

def Resting.reference (held : Resting) : (_ : OrderId) × Address := ⟨held.orderId, held.address⟩

/-- Resting orders as they arrived. -/
abbrev Book := List Resting

def prevOf (memory : Memory) (address : Address) : Option Address := (memory.lookup address).bind fun order => order.prev

def nextOf (memory : Memory) (address : Address) : Option Address := (memory.lookup address).bind fun order => order.next

def addresses (book : Book) : List Address := book.map Resting.address

def references (book : Book) : List ((_ : OrderId) × Address) := book.map Resting.reference

/-- The sum of the volumes, without a bound. -/
def tally (book : Book) : Nat := (book.map fun held => held.volume.toNat).sum

/-- What memory has of a resting order, which leads back to its level. -/
def Stored (memory : Memory) (place : LevelAddress) (held : Resting) : Prop :=
  ∃ order, memory.lookup held.address = some order ∧ Resting.of held.address order = held ∧ order.level = some place

/-- A level with exactly these orders. -/
structure LevelHolds (memory : Memory) (book : Book) (place : LevelAddress) (level : PriceLevel) : Prop where
  linked : Linked (prevOf memory) (nextOf memory) level.head level.tail (addresses book)
  stored : ∀ held ∈ book, Stored memory place held
  total : level.totalVolume = UInt64.ofNat (tally book)

variable {memory : Memory} {address : Address} {order : Order} {book front back : Book} {place : LevelAddress} {level : PriceLevel}
  {held : Resting}

private theorem prevOf_eq (found : memory.lookup address = some order) : prevOf memory address = order.prev := by
  rw [prevOf, found, Option.bind_some]

theorem nextOf_eq (found : memory.lookup address = some order) : nextOf memory address = order.next := by
  rw [nextOf, found, Option.bind_some]

theorem addresses_append (first second : Book) : addresses (first ++ second) = addresses first ++ addresses second :=
  map_append

theorem mem_addresses : address ∈ addresses book ↔ ∃ held ∈ book, held.address = address := mem_map

theorem tally_append (first second : Book) : tally (first ++ second) = tally first + tally second := by
  rw [tally, map_append, sum_append_nat]
  rfl

theorem apart (distinct : (addresses (front ++ held :: back)).Nodup) {other : Resting} (member : other ∈ front ++ back) :
    other.address ≠ held.address := by
  rw [addresses_append] at distinct
  have single := (nodup_cons.mp (nodup_middle.mp distinct)).1
  intro same
  rw [← same, ← addresses, ← addresses_append] at single
  exact single (mem_addresses.mpr ⟨other, member, rfl⟩)

/-- An order adds its volume wherever it stands. -/
private theorem tally_insert (front back : Book) (held : Resting) :
    UInt64.ofNat (tally (front ++ back)) + held.volume = UInt64.ofNat (tally (front ++ held :: back)) := by
  have whole : tally (front ++ held :: back) = tally (front ++ back) + held.volume.toNat := by
    rw [tally_append, tally_append, tally, tally, tally, map_cons, sum_cons]
    omega
  rw [whole, UInt64.ofNat_add, UInt64.ofNat_toNat]

private theorem tally_remove (front back : Book) (held : Resting) :
    UInt64.ofNat (tally (front ++ held :: back)) - held.volume = UInt64.ofNat (tally (front ++ back)) := by
  rw [← tally_insert]
  exact UInt64.add_sub_cancel _ _

theorem modify_eq (found : memory.lookup address = some order) (change : Order → Order) :
    memory.modify address change = some (memory.insert address (change order)) := by
  rw [Memory.modify, found]
  rfl

private theorem relink_eq {pointer : Option Address} (leads : ∀ address, pointer = some address → ∃ order, memory.lookup address = some order)
    (change : Order → Order) (kept replaced : Option Address) :
    ∃ after, memory.relink pointer change kept replaced = some (if pointer = none then replaced else kept, after) ∧
      ∀ other, after.lookup other = (memory.lookup other).map fun held => if pointer = some other then change held else held := by
  cases pointer with
  | none =>
    refine ⟨memory, rfl, fun other => ?_⟩
    simp
  | some address =>
    obtain ⟨order, found⟩ := leads address rfl
    refine ⟨memory.insert address (change order), ?_, fun other => ?_⟩
    · rw [Memory.relink, modify_eq found]
      rfl
    · by_cases same : other = address
      · subst same
        rw [Finmap.lookup_insert, found, Option.map_some, if_pos rfl]
      · rw [Finmap.lookup_insert_of_ne _ same]
        simp [Ne.symm same]

theorem LevelHolds.frame (holds : LevelHolds memory book place level) {after : Memory}
    (same : ∀ held ∈ book, after.lookup held.address = memory.lookup held.address) : LevelHolds after book place level := by
  have links : ∀ address ∈ addresses book, prevOf after address = prevOf memory address ∧ nextOf after address = nextOf memory address := by
    intro address member
    obtain ⟨held, present, rfl⟩ := mem_addresses.mp member
    exact ⟨congrArg (Option.bind · _) (same held present), congrArg (Option.bind · _) (same held present)⟩
  refine ⟨⟨holds.linked.head, holds.linked.tail, holds.linked.threaded.congr links, holds.linked.distinct⟩, ?_, holds.total⟩
  intro held member
  rw [Stored, same held member]
  exact holds.stored held member

theorem LevelHolds.found (holds : LevelHolds memory book place level) (member : address ∈ addresses book) :
    ∃ order, memory.lookup address = some order := by
  obtain ⟨held, present, rfl⟩ := mem_addresses.mp member
  obtain ⟨order, found, -⟩ := holds.stored held present
  exact ⟨order, found⟩

private theorem Stored.relinked {after : Memory} {change : Order → Order} (stored : Stored memory place held)
    (written : after.lookup held.address = (memory.lookup held.address).map change)
    (same : ∀ order, Resting.of held.address (change order) = Resting.of held.address order ∧ (change order).level = order.level) :
    Stored after place held := by
  obtain ⟨order, found, here, leads⟩ := stored
  rw [found, Option.map_some] at written
  exact ⟨change order, written, (same order).1.trans here, (same order).2.trans leads⟩

/-- What `addOrder` writes. -/
private theorem addOrder_eq (holds : LevelHolds memory book place level) (found : memory.lookup address = some order)
    (fresh : address ∉ addresses book) :
    ∃ after, level.addOrder place memory address = some ({ level with
        head := if level.tail = none then some address else level.head
        tail := some address
        totalVolume := level.totalVolume + order.volume }, after) ∧
      after.lookup address = some { order with level := some place, prev := level.tail, next := none } ∧
      ∀ other, other ≠ address → after.lookup other = (memory.lookup other).map fun held =>
        { held with next := if level.tail = some other then some address else held.next } := by
  have last : ∀ other, level.tail = some other → other ∈ addresses book := fun other same =>
    mem_of_getLast? (holds.linked.tail.symm.trans same)
  have ends : level.tail ≠ some address := fun same => fresh (last _ same)
  have leads : ∀ other, level.tail = some other → ∃ held,
      (memory.insert address { order with level := some place, prev := level.tail, next := none }).lookup other = some held := by
    intro other same
    have apart : other ≠ address := fun equal => ends (equal ▸ same)
    rw [Finmap.lookup_insert_of_ne _ apart]
    exact holds.found (last other same)
  obtain ⟨after, relinked, reads⟩ := relink_eq leads (fun tail => { tail with next := some address }) level.head (some address)
  have own : after.lookup address = some { order with level := some place, prev := level.tail, next := none } := by
    rw [reads, Finmap.lookup_insert, Option.map_some, if_neg ends]
  refine ⟨after, ?_, own, ?_⟩
  · simp only [PriceLevel.addOrder, modify_eq found, relinked, own, Option.bind_eq_bind, Option.bind_some]
    rfl
  · intro other apart
    rw [reads, Finmap.lookup_insert_of_ne _ apart]
    cases memory.lookup other with
    | none => rfl
    | some held =>
      rw [Option.map_some, Option.map_some]
      split
      · rfl
      · rfl

theorem LevelHolds.add (holds : LevelHolds memory book place level) (found : memory.lookup address = some order)
    (fresh : address ∉ addresses book) :
    ∃ next after, level.addOrder place memory address = some (next, after) ∧ next.priceTick = level.priceTick ∧
      (after.lookup address).map Order.orderId = some order.orderId ∧ LevelHolds after (book ++ [Resting.of address order]) place next ∧
      ∀ other, other ≠ address → other ∉ addresses book → after.lookup other = memory.lookup other := by
  obtain ⟨after, added, own, reads⟩ := addOrder_eq holds found fresh
  have apart : ∀ other ∈ addresses book, other ≠ address := fun other member same => fresh (same ▸ member)
  have others : ∀ other ∈ addresses book, prevOf after other = prevOf memory other ∧
      nextOf after other = if level.tail = some other then some address else nextOf memory other := by
    intro other member
    obtain ⟨held, there⟩ := holds.found member
    have written := reads other (apart other member)
    rw [there, Option.map_some] at written
    rw [prevOf_eq written, nextOf_eq written, prevOf_eq there, nextOf_eq there]
    exact ⟨rfl, rfl⟩
  refine ⟨_, after, added, rfl, by rw [own]; rfl, ⟨?_, ?_, ?_⟩, ?_⟩
  · rw [addresses_append]
    exact holds.linked.append fresh ⟨prevOf_eq own, nextOf_eq own⟩ others
  · intro held member
    rcases mem_append.mp member with before | last
    · have resting : held.address ∈ addresses book := mem_addresses.mpr ⟨held, before, rfl⟩
      exact (holds.stored held before).relinked (reads _ (apart _ resting)) fun _ => ⟨rfl, rfl⟩
    · obtain rfl := mem_singleton.mp last
      exact ⟨_, own, rfl, rfl⟩
  · have total := tally_insert book [] (Resting.of address order)
    rw [append_nil, ← holds.total] at total
    exact total
  · intro other different outside
    have behind : level.tail ≠ some other := fun last => outside (mem_of_getLast? (holds.linked.tail.symm.trans last))
    rw [reads other different]
    cases memory.lookup other with
    | none => rfl
    | some held => rw [Option.map_some, if_neg behind]

private theorem LevelHolds.neighbours (holds : LevelHolds memory (front ++ held :: back) place level)
    (found : memory.lookup held.address = some order) {other : Address} (near : order.prev = some other ∨ order.next = some other) :
    other ∈ addresses (front ++ held :: back) ∧ other ≠ held.address := by
  have split : addresses (front ++ held :: back) = addresses front ++ held.address :: addresses back := addresses_append _ _
  obtain ⟨before, behind⟩ := holds.linked.threaded _ _ _ split
  have distinct := holds.linked.distinct
  rw [split] at distinct ⊢
  obtain ⟨single, -⟩ := nodup_cons.mp (nodup_middle.mp distinct)
  rw [prevOf_eq found] at before
  rw [nextOf_eq found] at behind
  rcases near with same | same
  · have ahead : other ∈ addresses front := mem_of_getLast? (before.symm.trans same)
    exact ⟨mem_append_left _ ahead, fun equal => single (mem_append_left _ (equal ▸ ahead))⟩
  · have after : other ∈ addresses back := mem_of_head? (behind.symm.trans same)
    exact ⟨mem_append_right _ (mem_cons_of_mem _ after), fun equal => single (mem_append_right _ (equal ▸ after))⟩

private theorem removeOrder_eq (holds : LevelHolds memory (front ++ held :: back) place level)
    (found : memory.lookup held.address = some order) :
    ∃ after, level.removeOrder memory held.address = some ({ level with
        head := if order.prev = none then order.next else level.head
        tail := if order.next = none then order.prev else level.tail
        totalVolume := level.totalVolume - order.volume }, after) ∧
      after.lookup held.address = some { order with level := none, prev := none, next := none } ∧
      ∀ other, other ≠ held.address → after.lookup other = (memory.lookup other).map fun held => { held with
        prev := if order.next = some other then order.prev else held.prev
        next := if order.prev = some other then order.next else held.next } := by
  have ownPrev : order.prev ≠ some held.address := fun same => (holds.neighbours found (Or.inl same)).2 rfl
  have ownNext : order.next ≠ some held.address := fun same => (holds.neighbours found (Or.inr same)).2 rfl
  have leads : ∀ other, order.prev = some other → ∃ held, memory.lookup other = some held := fun other same =>
    holds.found (holds.neighbours found (Or.inl same)).1
  obtain ⟨first, relinked, reads⟩ := relink_eq leads (fun prev => { prev with next := order.next }) level.head order.next
  have ownFirst : first.lookup held.address = some order := by rw [reads, found, Option.map_some, if_neg ownPrev]
  have leadsNext : ∀ other, order.next = some other → ∃ held, first.lookup other = some held := by
    intro other same
    obtain ⟨there, known⟩ := holds.found (holds.neighbours found (Or.inr same)).1
    exact ⟨_, (reads other).trans (congrArg (Option.map _) known)⟩
  obtain ⟨second, relinkedNext, readsNext⟩ := relink_eq leadsNext (fun next => { next with prev := order.prev }) level.tail order.prev
  have ownSecond : second.lookup held.address = some order := by rw [readsNext, ownFirst, Option.map_some, if_neg ownNext]
  refine ⟨second.insert held.address { order with level := none, prev := none, next := none }, ?_, Finmap.lookup_insert _, ?_⟩
  · simp only [PriceLevel.removeOrder, found, relinked, ownFirst, relinkedNext, ownSecond, modify_eq ownSecond, Option.bind_eq_bind,
      Option.bind_some]
    rfl
  · intro other apart
    rw [Finmap.lookup_insert_of_ne _ apart, readsNext, reads]
    cases memory.lookup other with
    | none => rfl
    | some held =>
      rw [Option.map_some, Option.map_some, Option.map_some]
      split
      · split
        · rfl
        · rfl
      · split
        · rfl
        · rfl

theorem LevelHolds.remove (holds : LevelHolds memory (front ++ held :: back) place level) :
    ∃ next after, level.removeOrder memory held.address = some (next, after) ∧ next.priceTick = level.priceTick ∧
      (after.lookup held.address).map Order.orderId = some held.orderId ∧ LevelHolds after (front ++ back) place next ∧
      ∀ other, other ∉ addresses (front ++ held :: back) → after.lookup other = memory.lookup other := by
  obtain ⟨order, found, here, leads⟩ := holds.stored held mem_append_cons_self
  obtain ⟨after, removed, own, reads⟩ := removeOrder_eq holds found
  have split : addresses (front ++ held :: back) = addresses front ++ held.address :: addresses back := addresses_append _ _
  have linked := holds.linked
  rw [split] at linked
  have within : front ++ back <+ front ++ held :: back := (sublist_cons_self held back).append_left front
  have different : ∀ other ∈ addresses (front ++ back), other ≠ held.address := by
    intro other member
    obtain ⟨another, present, rfl⟩ := mem_addresses.mp member
    exact apart holds.linked.distinct present
  have others : ∀ other ∈ addresses (front ++ back),
      prevOf after other = (if nextOf memory held.address = some other then prevOf memory held.address else prevOf memory other) ∧
      nextOf after other = if prevOf memory held.address = some other then nextOf memory held.address else nextOf memory other := by
    intro other member
    obtain ⟨there, known⟩ := holds.found ((within.map _).subset member)
    have written := reads other (different other member)
    rw [known, Option.map_some] at written
    rw [prevOf_eq written, nextOf_eq written, prevOf_eq known, nextOf_eq known, prevOf_eq found, nextOf_eq found]
    exact ⟨rfl, rfl⟩
  refine ⟨_, after, removed, rfl, by rw [own, ← here]; rfl, ⟨?_, ?_, ?_⟩, ?_⟩
  · rw [addresses_append] at others ⊢
    rw [← prevOf_eq found, ← nextOf_eq found]
    exact linked.unlink others
  · intro other member
    exact (holds.stored other (within.subset member)).relinked (reads _ (apart holds.linked.distinct member)) fun _ => ⟨rfl, rfl⟩
  · have volume : order.volume = held.volume := congrArg Resting.volume here
    rw [holds.total, volume]
    exact tally_remove front back held
  · intro other outside
    have elsewhere : other ≠ held.address := fun same => outside (mem_addresses.mpr ⟨held, mem_append_cons_self, same.symm⟩)
    have noPrev : order.prev ≠ some other := fun same => outside (holds.neighbours found (Or.inl same)).1
    have noNext : order.next ≠ some other := fun same => outside (holds.neighbours found (Or.inr same)).1
    rw [reads other elsewhere]
    cases memory.lookup other with
    | none => rfl
    | some held => rw [Option.map_some, if_neg noNext, if_neg noPrev]

/-- A write of the volume alone. -/
theorem LevelHolds.resize (holds : LevelHolds memory (front ++ held :: back) place level) (found : memory.lookup held.address = some order)
    (volume : Volume) :
    LevelHolds (memory.insert held.address { order with volume }) (front ++ { held with volume } :: back) place
      { level with totalVolume := level.totalVolume - order.volume + volume } := by
  have same : addresses (front ++ { held with volume } :: back) = addresses (front ++ held :: back) := by
    rw [addresses_append, addresses_append]
    rfl
  obtain ⟨stored, known, here, leads⟩ := holds.stored held mem_append_cons_self
  obtain rfl := Option.some.inj (found.symm.trans known)
  have own : (memory.insert held.address { order with volume }).lookup held.address = some { order with volume } :=
    Finmap.lookup_insert _
  have links : ∀ address ∈ addresses (front ++ held :: back),
      prevOf (memory.insert held.address { order with volume }) address = prevOf memory address ∧
        nextOf (memory.insert held.address { order with volume }) address = nextOf memory address := by
    intro address _
    by_cases written : address = held.address
    · rw [written, prevOf_eq own, nextOf_eq own, prevOf_eq found, nextOf_eq found]
      exact ⟨rfl, rfl⟩
    · rw [prevOf, nextOf, Finmap.lookup_insert_of_ne _ written]
      exact ⟨rfl, rfl⟩
  have others : ∀ other ∈ front ++ back, Stored (memory.insert held.address { order with volume }) place other := by
    intro other member
    have still : other ∈ front ++ held :: back := ((sublist_cons_self held back).append_left front).subset member
    rw [Stored, Finmap.lookup_insert_of_ne _ (apart holds.linked.distinct member)]
    exact holds.stored other still
  have total : level.totalVolume - order.volume + volume = UInt64.ofNat (tally (front ++ { held with volume } :: back)) := by
    have old : order.volume = held.volume := congrArg Resting.volume here
    rw [holds.total, old, tally_remove]
    exact tally_insert front back { held with volume }
  refine ⟨?_, ?_, total⟩
  · rw [same]
    exact ⟨holds.linked.head, holds.linked.tail, holds.linked.threaded.congr links, holds.linked.distinct⟩
  · intro other member
    rcases mem_append.mp member with ahead | further
    · exact others other (mem_append_left _ ahead)
    · rcases mem_cons.mp further with rfl | behind
      · exact ⟨_, own, congrArg (fun held : Resting => { held with volume }) here, leads⟩
      · exact others other (mem_append_right _ behind)

def isOfSide (memory : Memory) (side : OrderSide) (address : Address) : Bool :=
  (memory.lookup address).any fun order => order.side = side

private theorem anyOfSide_eq (holds : LevelHolds memory book place level) (side : OrderSide) {fuel : Nat} (enough : (addresses book).length ≤ fuel) :
    PriceLevel.anyOfSide memory side fuel level.head = some ((addresses book).any (isOfSide memory side)) := by
  rw [holds.linked.head]
  refine holds.linked.threaded.walk (motive := fun start nodes => ∀ fuel, nodes.length ≤ fuel →
    PriceLevel.anyOfSide memory side fuel start = some (nodes.any (isOfSide memory side))) ?_ ?_ fuel enough
  · intro fuel _
    cases fuel with
    | zero => rfl
    | succ fuel => rfl
  · intro node rest member follows behind fuel enough
    obtain ⟨order, found⟩ := holds.found member
    cases fuel with
    | zero => cases enough
    | succ fuel =>
      have later := behind fuel (Nat.le_of_succ_le_succ enough)
      rw [← follows, nextOf_eq found] at later
      simp only [PriceLevel.anyOfSide, found, Option.bind_eq_bind, Option.bind_some, later, any_cons, isOfSide, Option.any_some]
      by_cases same : order.side = side
      · rw [if_pos same, decide_eq_true same, Bool.true_or]
        rfl
      · rw [if_neg same, decide_eq_false same, Bool.false_or]

/-- The walk from the head ends and tells whether the level has an order of the
side. -/
theorem LevelHolds.hasOrdersOfSide_eq (holds : LevelHolds memory book place level) (side : OrderSide) :
    level.hasOrdersOfSide memory side = some (book.any fun held => held.side = side) := by
  have enough : (addresses book).length ≤ memory.keys.card := by
    rw [← toFinset_card_of_nodup holds.linked.distinct]
    apply Finset.card_le_card
    intro address member
    obtain ⟨order, found⟩ := holds.found (mem_toFinset.mp member)
    exact Finmap.mem_keys.mpr (Finmap.mem_of_lookup_eq_some found)
  rw [PriceLevel.hasOrdersOfSide, anyOfSide_eq holds side enough, addresses, any_map]
  congr 1
  rw [Bool.eq_iff_iff, any_eq_true, any_eq_true]
  apply exists_congr
  intro held
  apply and_congr_right
  intro member
  obtain ⟨order, found, here, -⟩ := holds.stored held member
  rw [Function.comp_apply, isOfSide, found, Option.any_some, ← here]
  rfl

end FinanceTech.Proofs.LadderLevels
