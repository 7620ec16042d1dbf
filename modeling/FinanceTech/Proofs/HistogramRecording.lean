import FinanceTech.Library.Runs
import FinanceTech.Proofs.MetricsSteps
import Mathlib.Order.Bounds.Basic

/-! What a histogram holds while calls record values in it and nobody resets it.
A call that has left one of its two loops has found or left a minimum, or a
maximum, no worse than its value, and later exchanges only improve it; so at rest
nothing is lost, whichever exchanges have failed. -/

namespace FinanceTech.Proofs.HistogramRecording
open Library Threads Metrics MetricsSteps

/-- What a call knows of the slot at its place. -/
def Knows (slot : MetricSlot) (call : Call) : Prop :=
  match call.place with
  | .exchangeMin oldMin => call.value < oldMin
  | .loadMax => slot.min ≤ call.value
  | .exchangeMax oldMax => slot.min ≤ call.value ∧ oldMax < call.value
  | .finished => slot.min ≤ call.value ∧ call.value ≤ slot.max
  | _ => True

/-- The minimum has only gone down and the maximum up. -/
structure Widens (before after : MetricSlot) : Prop where
  min : after.min ≤ before.min
  max : before.max ≤ after.max

theorem Widens.same {before after : MetricSlot} (min : after.min = before.min) (max : after.max = before.max) :
    Widens before after := ⟨min ▸ UInt64.le_refl _, max ▸ UInt64.le_refl _⟩

section Call

variable {slot after : MetricSlot} {call : Call}

theorem Knows.widen (knows : Knows slot call) (widens : Widens slot after) : Knows after call := by
  unfold Knows at knows ⊢
  cases place : call.place with
  | exchangeMin oldMin =>
    rw [place] at knows
    exact knows
  | loadMax =>
    rw [place] at knows
    exact UInt64.le_trans widens.min knows
  | exchangeMax oldMax =>
    rw [place] at knows
    exact ⟨UInt64.le_trans widens.min knows.1, knows.2⟩
  | finished =>
    rw [place] at knows
    exact ⟨UInt64.le_trans widens.min knows.1, UInt64.le_trans knows.2 widens.max⟩
  | addCount | addSum | loadMin => trivial

private theorem knows_lowers (slot : MetricSlot) (call : Call) : Knows slot { call with place := call.lowers slot.min } := by
  rw [Call.lowers]
  split
  next below => exact below
  next reached => exact UInt64.not_lt.mp reached

private theorem knows_raises (low : slot.min ≤ call.value) : Knows slot { call with place := call.raises slot.max } := by
  rw [Call.raises]
  split
  next above => exact ⟨low, above⟩
  next reached => exact ⟨low, UInt64.not_lt.mp reached⟩

/-- What the step of a call leaves: its place is right, the bounds are the old
ones or its value, and they are no worse. -/
structure Leaves (slot : MetricSlot) (call : Call) (after : MetricSlot) (place : Place) : Prop where
  knows : Knows after { call with place }
  widens : Widens slot after
  min : after.min = slot.min ∨ after.min = call.value
  max : after.max = slot.max ∨ after.max = call.value

private theorem advance_leaves (knows : Knows slot call) (spurious : Bool) :
    Leaves slot call (call.advance slot spurious).1 (call.advance slot spurious).2 := by
  have same : Widens slot slot := Widens.same rfl rfl
  rw [Call.advance]
  unfold Knows at knows
  split <;> rename_i place <;> rw [place] at knows
  case h_1 => exact ⟨trivial, Widens.same rfl rfl, .inl rfl, .inl rfl⟩
  case h_2 => exact ⟨trivial, Widens.same rfl rfl, .inl rfl, .inl rfl⟩
  case h_3 => exact ⟨knows_lowers slot call, same, .inl rfl, .inl rfl⟩
  case h_4 oldMin =>
    split
    next swapped =>
      have lower : call.value ≤ slot.min := swapped.1 ▸ UInt64.le_of_lt knows
      exact ⟨UInt64.le_refl call.value, ⟨lower, UInt64.le_refl _⟩, .inr rfl, .inl rfl⟩
    next => exact ⟨knows_lowers slot call, same, .inl rfl, .inl rfl⟩
  case h_5 => exact ⟨knows_raises knows, same, .inl rfl, .inl rfl⟩
  case h_6 oldMax =>
    split
    next swapped =>
      have higher : slot.max ≤ call.value := swapped.1 ▸ UInt64.le_of_lt knows.2
      exact ⟨⟨knows.1, UInt64.le_refl call.value⟩, ⟨UInt64.le_refl _, higher⟩, .inl rfl, .inr rfl⟩
    next => exact ⟨knows_raises knows.1, same, .inl rfl, .inl rfl⟩
  case h_7 => exact ⟨knows, same, .inl rfl, .inl rfl⟩

end Call

/-- A call on this slot has taken its first step with this value. -/
def Started (calls : List Call) (slot : Nat) (value : UInt64) : Prop :=
  ∃ call ∈ calls, call.slot = slot ∧ call.place ≠ .addCount ∧ call.value = value

theorem Started.append {calls : List Call} {slot : Nat} {value : UInt64} (started : Started calls slot value) (more : List Call) :
    Started (calls ++ more) slot value := by
  obtain ⟨call, called, on⟩ := started
  exact ⟨call, List.mem_append_left more called, on⟩

theorem Started.mem {calls : List Call} {slot : Nat} {value : UInt64} (started : Started calls slot value) :
    value ∈ valuesOn calls slot := by
  obtain ⟨call, called, on, -, rfl⟩ := started
  exact List.mem_map_of_mem (List.mem_filter.mpr ⟨called, decide_eq_true on⟩)

section Started

variable {calls : List Call} {index : Nat} {call : Call} {place : Place}

theorem started_set (called : calls[index]? = some call) (counted : place ≠ .addCount) :
    Started (calls.set index { call with place }) call.slot call.value := by
  obtain ⟨front, back, rfl, moved⟩ := split_at called
  rw [moved]
  exact ⟨_, List.mem_append_right front List.mem_cons_self, rfl, counted, rfl⟩

theorem Started.set {slot : Nat} {value : UInt64} (started : Started calls slot value) (called : calls[index]? = some call)
    (counted : place ≠ .addCount) : Started (calls.set index { call with place }) slot value := by
  obtain ⟨other, present, on, begun, same⟩ := started
  obtain ⟨front, back, rfl, moved⟩ := split_at called
  obtain before | here := List.mem_append.mp present
  · rw [moved]
    exact ⟨other, List.mem_append_left _ before, on, begun, same⟩
  obtain rfl | after := List.mem_cons.mp here
  · obtain rfl := on
    obtain rfl := same
    exact started_set called counted
  · rw [moved]
    exact ⟨other, List.mem_append_right front (List.mem_cons_of_mem _ after), on, begun, same⟩

end Started

/-- What the slot at `index` holds of the calls on it. -/
structure Recorded (index : Nat) (metric : Metric) (system : System) : Prop where
  found : system.registry.metrics[index]? = some metric
  totals : ∀ sampled : Sampled, (sampled.read metric.slot).toNat = tally (sampled.amount index) system.calls % 2 ^ 64
  min : metric.slot.min = InitialMinValue ∨ Started system.calls index metric.slot.min
  max : metric.slot.max = 0 ∨ Started system.calls index metric.slot.max
  knows : ∀ call ∈ system.calls, call.slot = index → Knows metric.slot call

section Turn

variable {system next : System} {index : Nat} {metric : Metric}

theorem Recorded.empty {registry : MetricRegistry} (found : registry.metrics[index]? = some metric) (empty : metric.slot = {}) :
    Recorded index metric { registry } := by
  refine ⟨found, fun sampled => ?_, .inl (congrArg MetricSlot.min empty), .inl (congrArg MetricSlot.max empty), ?_⟩
  · cases sampled <;> rw [empty] <;> rfl
  · intro call called
    cases called

theorem Recorded.entered (recorded : Recorded index metric system) (slot : Nat) (value : UInt64) :
    Recorded index metric { system with calls := system.calls ++ [{ slot, value }] } := by
  refine ⟨recorded.found, fun sampled => ?_, ?_, ?_, fun call called on => ?_⟩
  · rw [recorded.totals sampled, tally_append, Sampled.amount_entered, Nat.add_zero]
  · exact recorded.min.imp_right fun started => started.append _
  · exact recorded.max.imp_right fun started => started.append _
  · obtain earlier | new := List.mem_append.mp called
    · exact recorded.knows call earlier on
    · obtain rfl := List.mem_singleton.mp new
      trivial

theorem Recorded.valued (recorded : Recorded index metric system) (valued : Valued system next) :
    ∃ value, Recorded index { metric with slot := { metric.slot with value } } next := by
  obtain ⟨⟨slot, old, value, present, metrics⟩, calls, -, -⟩ := valued
  refine ⟨if slot = index then value else metric.slot.value, ?_, ?_, ?_, ?_, ?_⟩
  · rw [metrics, set_at present recorded.found]
    split
    next same =>
      obtain rfl := same
      obtain rfl := Option.some.inj (present.symm.trans recorded.found)
      rfl
    next => rfl
  · intro sampled
    rw [calls, ← recorded.totals]
    cases sampled <;> rfl
  · rw [calls]
    exact recorded.min
  · rw [calls]
    exact recorded.max
  · intro call called on
    rw [calls] at called
    exact (recorded.knows call called on).widen (.same rfl rfl)

section Advanced

variable {turned : Nat} {spurious : Bool} {call : Call} {held : Metric}

/-- A step of a call on this slot. -/
private theorem Recorded.advanced_here (recorded : Recorded call.slot metric system)
    (moved : Advanced system turned spurious call metric next) :
    Recorded call.slot { metric with slot := (call.advance metric.slot spurious).1 } next := by
  have called := moved.called
  have counted := Sampled.advance_counted call metric.slot spurious
  have left := advance_leaves (recorded.knows call (List.mem_of_getElem? called) rfl) spurious
  refine ⟨?_, fun sampled => ?_, ?_, ?_, fun other present on => ?_⟩
  · rw [moved.metrics, set_at moved.found recorded.found, if_pos rfl]
  · rw [Sampled.read_advance, recorded.totals, moved.amount, Nat.mod_add_mod]
  · rw [moved.calls]
    obtain kept | new := left.min
    · rw [kept]
      exact recorded.min.imp_right fun started => started.set called counted
    · rw [new]
      exact .inr (started_set called counted)
  · rw [moved.calls]
    obtain kept | new := left.max
    · rw [kept]
      exact recorded.max.imp_right fun started => started.set called counted
    · rw [new]
      exact .inr (started_set called counted)
  · obtain old | rfl := moved.mem present
    · exact (recorded.knows other old on).widen left.widens
    · exact left.knows

private theorem Recorded.advanced_elsewhere (recorded : Recorded index metric system) (apart : call.slot ≠ index)
    (moved : Advanced system turned spurious call held next) : Recorded index metric next := by
  have called := moved.called
  have counted := Sampled.advance_counted call held.slot spurious
  refine ⟨?_, fun sampled => ?_, ?_, ?_, fun other present on => ?_⟩
  · rw [moved.metrics, set_at moved.found recorded.found, if_neg apart]
  · rw [moved.amount, sampled.increment_elsewhere apart]
    exact recorded.totals sampled
  · rw [moved.calls]
    exact recorded.min.imp_right fun started => started.set called counted
  · rw [moved.calls]
    exact recorded.max.imp_right fun started => started.set called counted
  · obtain old | rfl := moved.mem present
    · exact recorded.knows other old on
    · exact absurd on apart

end Advanced

private theorem step_recorded {turn : Turn} (ran : system.step turn = some next) (recording : turn ≠ .exporterThread)
    (recorded : Recorded index metric system) : ∃ after : MetricSlot, Recorded index { metric with slot := after } next := by
  cases step_stepped ran with
  | ignored outside => exact ⟨metric.slot, recorded⟩
  | entered outside slot value => exact ⟨metric.slot, recorded.entered slot value⟩
  | valued outside valued =>
    obtain ⟨value, after⟩ := recorded.valued valued
    exact ⟨_, after⟩
  | @advanced _ _ call held _ moved =>
    by_cases here : call.slot = index
    · obtain rfl := here
      obtain rfl := Option.some.inj (moved.found.symm.trans recorded.found)
      exact ⟨_, recorded.advanced_here moved⟩
    · exact ⟨metric.slot, recorded.advanced_elsewhere here moved⟩
  | exporter => exact absurd rfl recording

end Turn

section Run

variable {system : System} {index : Nat} {metric : Metric}

private theorem le_initial (value : UInt64) : value ≤ InitialMinValue :=
  UInt64.le_iff_toNat_le.mpr (Nat.le_of_lt_succ (UInt64.toNat_lt value))

theorem Recorded.low (recorded : Recorded index metric system) {low : UInt64}
    (below : ∀ value, Started system.calls index value → low ≤ value) : low ≤ metric.slot.min := by
  obtain initial | started := recorded.min
  · rw [initial]
    exact le_initial low
  · exact below _ started

theorem Recorded.high (recorded : Recorded index metric system) {high : UInt64}
    (above : ∀ value, Started system.calls index value → value ≤ high) : metric.slot.max ≤ high := by
  obtain initial | started := recorded.max
  · rw [initial]
    exact UInt64.zero_le
  · exact above _ started

variable (recorded : Recorded index metric system)
  (finished : ∀ call ∈ system.calls, call.slot = index → call.place = .finished)

include recorded finished

private theorem Recorded.totals_finished (sampled : Sampled) :
    sampled.read metric.slot = UInt64.ofNat ((valuesOn system.calls index).map sampled.worth).sum := by
  apply UInt64.toNat_inj.mp
  rw [recorded.totals, tally_finished finished, UInt64.toNat_ofNat']

theorem Recorded.bounds_finished {value : UInt64} (member : value ∈ valuesOn system.calls index) :
    metric.slot.min ≤ value ∧ value ≤ metric.slot.max := by
  obtain ⟨call, kept, rfl⟩ := List.mem_map.mp member
  obtain ⟨called, on⟩ := List.mem_filter.mp kept
  have knows := recorded.knows call called (of_decide_eq_true on)
  rw [Knows, finished call called (of_decide_eq_true on)] at knows
  exact knows

private theorem Recorded.min_finished (any : valuesOn system.calls index ≠ []) :
    IsLeast {value | value ∈ valuesOn system.calls index} metric.slot.min := by
  refine ⟨?_, fun value member => (recorded.bounds_finished finished member).1⟩
  obtain initial | started := recorded.min
  · obtain ⟨value, member⟩ := List.exists_mem_of_ne_nil _ any
    have below := (recorded.bounds_finished finished member).1
    have same : metric.slot.min = value := UInt64.le_antisymm below (initial ▸ le_initial value)
    exact same ▸ member
  · exact started.mem

private theorem Recorded.max_finished (any : valuesOn system.calls index ≠ []) :
    IsGreatest {value | value ∈ valuesOn system.calls index} metric.slot.max := by
  refine ⟨?_, fun value member => (recorded.bounds_finished finished member).2⟩
  obtain initial | started := recorded.max
  · obtain ⟨value, member⟩ := List.exists_mem_of_ne_nil _ any
    have above := (recorded.bounds_finished finished member).2
    have same : metric.slot.max = value := UInt64.le_antisymm (initial ▸ UInt64.zero_le) above
    exact same ▸ member
  · exact started.mem

end Run

theorem run_recorded {system final : System} {index : Nat} {metric : Metric} {turns : List Turn}
    (recording : .exporterThread ∉ turns) (ran : system.run turns = some final) (recorded : Recorded index metric system) :
    ∃ slot : MetricSlot, Recorded index { metric with slot } final := by
  let invariant := fun system => ∃ slot : MetricSlot, Recorded index { metric with slot } system
  apply Runs.foldlM_preserves invariant ?_ ran ⟨metric.slot, recorded⟩
  intro system turn next present stepped earlier
  obtain ⟨slot, before⟩ := earlier
  have after := step_recorded stepped (fun exporter => recording (exporter ▸ present)) before
  exact after

/-- A histogram that starts empty and is not reset holds bounds that no value
recorded so far contradicts, and when all calls have finished, their number,
their sum and the least and the greatest of their values. -/
theorem histogram_exact {registry : MetricRegistry} {index : Nat} {name : String} {turns : List Turn} {state : System}
    (empty : registry.metrics[index]? = some { name, type := .histogram }) (recording : .exporterThread ∉ turns)
    (ran : System.run { registry } turns = some state) :
    ∃ slot : MetricSlot, state.registry.metrics[index]? = some { name, type := .histogram, slot } ∧
      (∀ low, (∀ value, Started state.calls index value → low ≤ value) → low ≤ slot.min) ∧
      (∀ high, (∀ value, Started state.calls index value → value ≤ high) → slot.max ≤ high) ∧
      ((∀ call ∈ state.calls, call.slot = index → call.place = .finished) →
        let values := valuesOn state.calls index
        slot.count = UInt64.ofNat values.length ∧ (values.length < 2 ^ 64 → slot.count.toNat = values.length) ∧
          slot.sum = UInt64.ofNat (values.map UInt64.toNat).sum ∧
          (values ≠ [] →
            IsLeast {value | value ∈ values} slot.min ∧ IsGreatest {value | value ∈ values} slot.max)) := by
  obtain ⟨slot, recorded⟩ := run_recorded recording ran (.empty empty rfl)
  refine ⟨slot, recorded.found, fun low => recorded.low, fun high => recorded.high, ?_⟩
  intro finished values
  have count : slot.count = UInt64.ofNat values.length := by
    have totals := recorded.totals_finished finished .count
    rw [Sampled.worth_count] at totals
    exact totals
  refine ⟨count, fun fits => ?_, recorded.totals_finished finished .sum, fun any => ?_⟩
  · rw [count]
    exact UInt64.toNat_ofNat_of_lt' fits
  · exact ⟨recorded.min_finished finished any, recorded.max_finished finished any⟩

/-- What `initMetrics` registers. -/
def registered : MetricRegistry where
  metrics :=
    [⟨"orders.processed", .counter, {}⟩, ⟨"latency.processing_us", .histogram, {}⟩, ⟨"queue.size", .gauge, {}⟩]
  initialized := true

example : initMetrics.map (·.1) = some registered := rfl

/-- Two calls, one of either controller, race for the minimum, and an exchange of the
maximum fails. -/
def race : List Turn :=
  let latency : MetricHandle := ⟨1, .histogram, some 1⟩
  [.recordHistogram latency 5, .record latency 3, .advance 0 false, .advance 1 false, .advance 0 false, .advance 1 false,
    .advance 0 false, .advance 1 false, .advance 1 false, .advance 0 false, .advance 0 false, .advance 0 true, .advance 0 false,
    .advance 1 false]

theorem histogram_exact_race : ∃ state slot, System.run { registry := registered } race = some state ∧
    state.registry.metrics[1]? = some ⟨"latency.processing_us", .histogram, slot⟩ ∧
      slot.count = 2 ∧ slot.sum = 8 ∧
      IsLeast {value | value ∈ [5, 3]} slot.min ∧ IsGreatest {value | value ∈ [5, 3]} slot.max := by
  have ran : ∃ state, System.run { registry := registered } race = some state ∧
      state.calls = [⟨1, 5, .finished⟩, ⟨1, 3, .finished⟩] :=
    ⟨_, rfl, rfl⟩
  obtain ⟨state, ran, calls⟩ := ran
  have empty : registered.metrics[1]? = some { name := "latency.processing_us", type := .histogram } := rfl
  obtain ⟨slot, found, -, -, rest⟩ := histogram_exact empty (by decide) ran
  have values : valuesOn state.calls 1 = [5, 3] := (run_valuesOn ran 1).trans rfl
  have finished : ∀ call ∈ state.calls, call.slot = 1 → call.place = .finished := by
    rw [calls]
    decide
  obtain ⟨count, -, sum, bounds⟩ := rest finished
  rw [values] at count sum bounds
  exact ⟨state, slot, ran, found, count, sum, bounds (List.cons_ne_nil _ _)⟩

end FinanceTech.Proofs.HistogramRecording
