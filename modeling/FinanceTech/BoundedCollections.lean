import FinanceTech.Library.BoundedMap
import FinanceTech.MarketDepthBook

/-! The collections of bounded size: a sorted array of fixed capacity without
values, and the maps that a function keeps from growing. An access outside the
array, and the last element of a map without any, have no result. -/

namespace FinanceTech

/-! ### The sorted array -/

namespace StaticSortedArray
open Library MarketDepth

/-- The order of the array is one of the two of the flat map. -/
structure SortedArray (Ty : Type) (ordering : SortOrder) where
  size : Nat := 0
  capacity : Nat
  data : List Ty
deriving DecidableEq, Repr

namespace SortedArray

variable {Ty : Type} {ordering : SortOrder}

/-- `make_unique` gives every slot the default value. -/
def new [Inhabited Ty] (capacity : Nat) : SortedArray Ty ordering := { capacity, data := List.replicate capacity default }

/-- The live items. -/
def items (array : SortedArray Ty ordering) : List Ty := array.data.take array.size

variable [LinearOrder Ty]

def compare (ordering : SortOrder) (a b : Ty) : Bool :=
  match ordering with
  | .descending => decide (a ≥ b)
  | .ascending => decide (a ≤ b)

/-- `_size > 0 && item > _data[_size - 1]`, in both orders. -/
def isAbove (array : SortedArray Ty ordering) (item : Ty) : Option Bool :=
  if 0 < array.size then array.data[uint32 (array.size + (2 ^ 32 - 1))]?.map fun last => decide (item > last) else some false

def findInsertIndex (array : SortedArray Ty ordering) (item : Ty) : Option Nat :=
  Slots.search (fun left right => uint32 (left + right) / 2) (fun held => compare ordering item held) array.data
    (array.size + 1) 0 array.size

def push (array : SortedArray Ty ordering) (item : Ty) : Option (SortedArray Ty ordering × Bool) := do
  let above ← array.isAbove item
  if above then
    if array.size = array.capacity then some (array, false)
    else do
      let data ← Slots.store array.data array.size item
      some ({ array with size := uint32 (array.size + 1), data }, true)
  else do
    let idxInsert ← array.findInsertIndex item
    if array.capacity = idxInsert then some (array, false)
    else do
      let found ← array.data[idxInsert]?
      if item = found then some (array, false)
      else do
        let size := if array.capacity = array.size then array.size else uint32 (array.size + 1)
        let data ← Slots.shiftUp idxInsert (uint32 (size + (2 ^ 32 - 1))) array.data
        let data ← Slots.store data idxInsert item
        some ({ array with size, data }, true)

end SortedArray
end StaticSortedArray

/-! ### The maps of constant size -/

namespace MapWithConstantSize
open Library.SortedMap

/-- `std::map`, `boost::container::flat_map` and `std::flat_map`, which are all
sorted by `std::less`. -/
abbrev Container (K V : Type) [LinearOrder K] := Map K V (· < ·)

variable {K V : Type} [LinearOrder K]

/-- `erase` of the place before `end()`. -/
def eraseLast (map : Container K V) : Option (Container K V) :=
  map.last?.map fun _ => ⟨map.entries.dropLast, map.sorted.sublist _ (List.dropLast_sublist _)⟩

/-- `MaxSize == size && key >= map.rbegin()->first` -/
def isBeyond (maxSize : Nat) (map : Container K V) (key : K) : Option Bool :=
  if maxSize = map.entries.length then map.last?.map fun last => decide (key ≥ last.1) else some false

/-- One function for each container, and one more in the validation of the
sorted array; the only difference is how they name the last element. -/
def push (maxSize : Nat) (map : Container K V) (key : K) (value : V) : Option (Container K V × Bool) := do
  let size := map.entries.length
  let beyond ← isBeyond maxSize map key
  if beyond then some (map, false)
  else do
    let map := map.emplace key value
    if maxSize = size then do
      let map ← eraseLast map
      some (map, true)
    else some (map, true)

end MapWithConstantSize
end FinanceTech
