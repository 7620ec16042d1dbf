import FinanceTech.Library.Runs
import FinanceTech.Library.Threads
import FinanceTech.MetricsController

/-! What one turn of the metric threads can do. Outside the exporter, only the
step of a call writes to the fields of a histogram, and what it adds to the count
and to the sum is what the call counts for from then on. -/

namespace FinanceTech.Proofs.MetricsSteps
open Library Threads Metrics

theorem modifySlot_some {registry next : MetricRegistry} {slot : Nat} {change : MetricSlot → MetricSlot}
    (wrote : registry.modifySlot slot change = some next) : ∃ metric, registry.metrics[slot]? = some metric ∧
      next.metrics = registry.metrics.set slot { metric with slot := change metric.slot } := by
  rw [MetricRegistry.modifySlot] at wrote
  cases found : registry.metrics[slot]? with
  | none =>
    rw [found] at wrote
    cases wrote
  | some metric =>
    rw [found] at wrote
    obtain rfl := Option.some.inj wrote
    exact ⟨metric, rfl, rfl⟩

theorem set_at {metrics : List Metric} {slot index : Nat} {old metric : Metric} (written : metrics[slot]? = some old)
    (found : metrics[index]? = some metric) (new : Metric) :
    (metrics.set slot new)[index]? = some (if slot = index then new else metric) := by
  obtain ⟨inside, -⟩ := List.getElem?_eq_some_iff.mp written
  by_cases same : slot = index
  · rw [if_pos same, List.getElem?_set, if_pos same, if_pos inside]
  · rw [if_neg same, List.getElem?_set, if_neg same]
    exact found

/-- A call has taken its next step. -/
structure Advanced (system : System) (index : Nat) (spurious : Bool) (call : Call) (metric : Metric) (next : System) : Prop where
  called : system.calls[index]? = some call
  found : system.registry.metrics[call.slot]? = some metric
  metrics : next.registry.metrics =
    system.registry.metrics.set call.slot { metric with slot := (call.advance metric.slot spurious).1 }
  calls : next.calls = system.calls.set index { call with place := (call.advance metric.slot spurious).2 }
  exporter : next.exporter = system.exporter
  exported : next.exported = system.exported

/-- A value has been written to a counter or a gauge. -/
structure Valued (system : System) (next : System) : Prop where
  metrics : ∃ slot metric value, system.registry.metrics[slot]? = some metric ∧
    next.registry.metrics = system.registry.metrics.set slot { metric with slot := { metric.slot with value } }
  calls : next.calls = system.calls
  exporter : next.exporter = system.exporter
  exported : next.exported = system.exported

inductive Stepped (system : System) : Turn → System → Prop
  | ignored {turn : Turn} (outside : ∀ index spurious, turn ≠ .advance index spurious) : Stepped system turn system
  | entered {turn : Turn} (outside : ∀ index spurious, turn ≠ .advance index spurious) (slot : Nat) (value : UInt64) :
    Stepped system turn { system with calls := system.calls ++ [{ slot, value }] }
  | valued {turn : Turn} {next : System} (outside : ∀ index spurious, turn ≠ .advance index spurious)
    (valued : Valued system next) : Stepped system turn next
  | advanced {index : Nat} {spurious : Bool} {call : Call} {metric : Metric} {next : System}
    (moved : Advanced system index spurious call metric next) : Stepped system (.advance index spurious) next
  | exporter {next : System} (ran : system.exporterThread = some next) : Stepped system .exporterThread next

variable {system next : System}

theorem enter_some {handle : MetricHandle} {value : UInt64} (ran : system.enter handle value = some next) :
    ∃ slot, next = { system with calls := system.calls ++ [{ slot, value }] } := by
  rw [System.enter] at ran
  split at ran
  next => cases ran
  next slot _ => exact ⟨slot, (Option.some.inj ran).symm⟩

private theorem modifyValue_valued {handle : MetricHandle} {change : UInt64 → UInt64}
    (ran : system.modifyValue handle change = some next) : Valued system next := by
  rw [System.modifyValue] at ran
  split at ran
  next => cases ran
  next slot _ =>
    obtain ⟨registry, wrote, same⟩ := Option.bind_eq_some_iff.mp ran
    obtain rfl := Option.some.inj same
    obtain ⟨metric, found, metrics⟩ := modifySlot_some wrote
    exact ⟨⟨slot, metric, _, found, metrics⟩, rfl, rfl, rfl⟩

theorem advance_advanced {index : Nat} {spurious : Bool} (ran : system.advance index spurious = some next) :
    ∃ call metric, Advanced system index spurious call metric next := by
  rw [System.advance] at ran
  split at ran
  next => cases ran
  next call called =>
    split at ran
    next => cases ran
    next metric found =>
      obtain ⟨registry, wrote, same⟩ := Option.bind_eq_some_iff.mp ran
      obtain rfl := Option.some.inj same
      obtain ⟨old, present, metrics⟩ := modifySlot_some wrote
      obtain rfl := Option.some.inj (found.symm.trans present)
      exact ⟨call, metric, called, found, metrics, rfl, rfl, rfl⟩

/-- What a turn can do. -/
theorem step_stepped {turn : Turn} (ran : system.step turn = some next) : Stepped system turn next := by
  cases turn with
  | recordHistogram handle value =>
    rw [System.step, System.recordHistogram] at ran
    split at ran
    · exact Option.some.inj ran ▸ .ignored fun _ _ => Turn.noConfusion
    · obtain ⟨slot, rfl⟩ := enter_some ran
      exact .entered (fun _ _ => Turn.noConfusion) slot value
  | record handle value =>
    rw [System.step, System.record] at ran
    split at ran
    · exact Option.some.inj ran ▸ .ignored fun _ _ => Turn.noConfusion
    · obtain ⟨slot, rfl⟩ := enter_some ran
      exact .entered (fun _ _ => Turn.noConfusion) slot value
  | increment handle delta =>
    rw [System.step, System.increment] at ran
    split at ran
    · exact Option.some.inj ran ▸ .ignored fun _ _ => Turn.noConfusion
    · exact .valued (fun _ _ => Turn.noConfusion) (modifyValue_valued ran)
  | setGauge handle value =>
    rw [System.step, System.setGauge] at ran
    split at ran
    · exact Option.some.inj ran ▸ .ignored fun _ _ => Turn.noConfusion
    · exact .valued (fun _ _ => Turn.noConfusion) (modifyValue_valued ran)
  | advance index spurious =>
    obtain ⟨call, metric, moved⟩ := advance_advanced ran
    exact .advanced moved
  | exporterThread => exact .exporter ran

/-- The slot and the value that a turn begins to record. -/
def recording : Turn → Option (Nat × UInt64)
  | .recordHistogram handle value => if handle.type = .histogram then handle.slot.map (·, value) else none
  | .record handle value => if handle.isValid ∧ handle.type = .histogram then handle.slot.map (·, value) else none
  | _ => none

/-- The slots and the values of the calls that have begun. -/
def begun (system : System) : List (Nat × UInt64) := system.calls.map fun call => (call.slot, call.value)

private theorem enter_begun {handle : MetricHandle} {value : UInt64} (ran : system.enter handle value = some next) :
    begun next = begun system ++ (handle.slot.map (·, value)).toList := by
  rw [System.enter] at ran
  split at ran
  next => cases ran
  next slot pointer =>
    cases ran
    rw [begun, pointer, List.map_append]
    rfl

private theorem exporterThread_calls (ran : system.exporterThread = some next) : next.calls = system.calls := by
  unfold System.exporterThread at ran
  split at ran
  case h_1 | h_3 =>
    cases ran
    rfl
  case h_2 =>
    split at ran
    case isTrue =>
      split at ran
      case h_1 => cases ran
      case h_2 =>
        split at ran
        all_goals
          cases ran
          rfl
    case isFalse =>
      cases ran
      rfl
  case h_4 =>
    split at ran
    case isTrue =>
      split at ran
      case h_1 => cases ran
      case h_2 =>
        split at ran
        case h_1 =>
          split at ran
          all_goals
            cases ran
            rfl
        all_goals
          obtain ⟨registry, -, same⟩ := Option.bind_eq_some_iff.mp ran
          cases same
          rfl
    case isFalse =>
      cases ran
      rfl

private theorem step_begun {turn : Turn} (ran : system.step turn = some next) : begun next = begun system ++ (recording turn).toList := by
  unfold begun
  cases turn with
  | recordHistogram handle value =>
    rw [System.step, System.recordHistogram] at ran
    split at ran
    next other =>
      cases ran
      rw [recording, if_neg other]
      exact (List.append_nil _).symm
    next histogram =>
      rw [recording, if_pos (not_not.mp histogram)]
      exact enter_begun ran
  | record handle value =>
    rw [System.step, System.record] at ran
    split at ran
    next other =>
      cases ran
      rw [recording, if_neg fun both => other.elim (fun invalid => Bool.false_ne_true (invalid.symm.trans both.1)) (· both.2)]
      exact (List.append_nil _).symm
    next histogram =>
      obtain ⟨valid, histogram⟩ := not_or.mp histogram
      rw [recording, if_pos ⟨eq_true_of_ne_false valid, not_not.mp histogram⟩]
      exact enter_begun ran
  | increment handle delta =>
    refine Eq.trans ?_ (List.append_nil _).symm
    rw [System.step, System.increment] at ran
    split at ran
    next => rw [Option.some.inj ran]
    next => rw [(modifyValue_valued ran).calls]
  | setGauge handle value =>
    refine Eq.trans ?_ (List.append_nil _).symm
    rw [System.step, System.setGauge] at ran
    split at ran
    next => rw [Option.some.inj ran]
    next => rw [(modifyValue_valued ran).calls]
  | advance index spurious =>
    refine Eq.trans ?_ (List.append_nil _).symm
    obtain ⟨call, metric, moved⟩ := advance_advanced ran
    obtain ⟨front, back, whole, set⟩ := split_at moved.called
    rw [moved.calls, set, whole, List.map_append, List.map_append]
    rfl
  | exporterThread =>
    rw [exporterThread_calls ran]
    exact (List.append_nil _).symm

/-- The calls that have begun are those of the recording turns, in their order. -/
private theorem run_begun {registry : MetricRegistry} {turns : List Turn} {state : System}
    (ran : System.run { registry } turns = some state) : begun state = turns.filterMap recording := by
  refine @Runs.foldlM_records _ _ _ _ (fun before state => begun state = before.filterMap recording) turns state
    (fun before turn middle next _ held stepped => ?_) rfl ran
  rw [step_begun stepped, held, List.filterMap_append]
  cases known : recording turn <;> simp [known]

/-- The two fields that calls add to. -/
inductive Sampled where
  | sum | count

namespace Sampled

def field : Sampled → Field
  | .sum => .sum
  | .count => .count

def read : Sampled → MetricSlot → UInt64
  | .sum, slot => slot.sum
  | .count, slot => slot.count

/-- What a call has added so far to this field of a slot. -/
def amount (slot : Nat) : Sampled → Call → Nat
  | .sum, call => if call.slot = slot ∧ call.place ≠ .addCount ∧ call.place ≠ .addSum then call.value.toNat else 0
  | .count, call => if call.slot = slot ∧ call.place ≠ .addCount then 1 else 0

/-- What the next step of a call adds to it. -/
def increment (slot : Nat) : Sampled → Call → Nat
  | .sum, call => if call.slot = slot ∧ call.place = .addSum then call.value.toNat else 0
  | .count, call => if call.slot = slot ∧ call.place = .addCount then 1 else 0

theorem amount_entered (sampled : Sampled) (slot at' : Nat) (value : UInt64) : sampled.amount slot ⟨at', value, .addCount⟩ = 0 := by
  cases sampled <;> simp [amount]

variable (call : Call)

private theorem lowers_after (oldMin : UInt64) : call.lowers oldMin ≠ .addCount ∧ call.lowers oldMin ≠ .addSum := by
  rw [Call.lowers]
  split <;> exact ⟨Place.noConfusion, Place.noConfusion⟩

private theorem raises_after (oldMax : UInt64) : call.raises oldMax ≠ .addCount ∧ call.raises oldMax ≠ .addSum := by
  rw [Call.raises]
  split <;> exact ⟨Place.noConfusion, Place.noConfusion⟩

theorem advance_counted (held : MetricSlot) (spurious : Bool) : (call.advance held spurious).2 ≠ .addCount := by
  rw [Call.advance]
  split
  next => exact Place.noConfusion
  next => exact Place.noConfusion
  next => exact (lowers_after call held.min).1
  next =>
    split
    · exact Place.noConfusion
    · exact (lowers_after call held.min).1
  next => exact (raises_after call held.max).1
  next =>
    split
    · exact Place.noConfusion
    · exact (raises_after call held.max).1
  next => exact Place.noConfusion

private theorem amount_advance (slot : Nat) (sampled : Sampled) (held : MetricSlot) (spurious : Bool) :
    sampled.amount slot { call with place := (call.advance held spurious).2 } =
      sampled.amount slot call + sampled.increment slot call := by
  obtain ⟨at', value, place⟩ := call
  by_cases here : at' = slot
  · cases place with
    | exchangeMin oldMin | exchangeMax oldMax =>
      cases sampled <;> simp only [Call.advance] <;> split <;> simp [amount, increment, here, lowers_after, raises_after]
    | addCount | addSum | loadMin | loadMax | finished =>
      cases sampled <;> simp [Call.advance, amount, increment, here, lowers_after, raises_after]
  · cases sampled <;> simp [amount, increment, here]

variable {call} in
private theorem increment_none {slot : Nat} (sampled : Sampled) (count : call.place ≠ .addCount) (sum : call.place ≠ .addSum) :
    sampled.increment slot call = 0 := by
  cases sampled
  · exact if_neg fun adds => sum adds.2
  · exact if_neg fun adds => count adds.2

variable {call} in
theorem increment_elsewhere {slot : Nat} (sampled : Sampled) (apart : call.slot ≠ slot) : sampled.increment slot call = 0 := by
  cases sampled <;> exact if_neg fun adds => apart adds.1

theorem read_advance (sampled : Sampled) (held : MetricSlot) (spurious : Bool) :
    (sampled.read (call.advance held spurious).1).toNat =
      ((sampled.read held).toNat + sampled.increment call.slot call) % 2 ^ 64 := by
  have kept : (sampled.read held).toNat = ((sampled.read held).toNat + 0) % 2 ^ 64 := (Nat.mod_eq_of_lt (UInt64.toNat_lt _)).symm
  obtain ⟨slot, value, place⟩ := call
  cases place with
  | addCount =>
    cases sampled <;> simp only [increment, reduceCtorEq, and_false, and_self, if_false, if_true]
    · exact kept
    · exact UInt64.toNat_add _ _
  | addSum =>
    cases sampled <;> simp only [increment, reduceCtorEq, and_false, and_self, if_false, if_true]
    · exact UInt64.toNat_add _ _
    · exact kept
  | exchangeMin oldMin | exchangeMax oldMax =>
    rw [increment_none sampled Place.noConfusion Place.noConfusion]
    cases sampled <;> simp only [Call.advance] <;> split <;> exact kept
  | loadMin | loadMax | finished =>
    rw [increment_none sampled Place.noConfusion Place.noConfusion]
    cases sampled <;> exact kept

def worth : Sampled → UInt64 → Nat
  | .sum, value => value.toNat
  | .count, _ => 1

theorem worth_count (values : List UInt64) : (values.map count.worth).sum = values.length := by
  have ones : values.map count.worth = List.replicate values.length 1 := List.map_const'
  rw [ones, List.sum_replicate_nat, Nat.mul_one]

end Sampled

theorem Advanced.amount {index : Nat} {spurious : Bool} {call : Call} {metric : Metric}
    (moved : Advanced system index spurious call metric next) (slot : Nat) (sampled : Sampled) : tally (sampled.amount slot) next.calls =
      tally (sampled.amount slot) system.calls + sampled.increment slot call := by
  have changed := tally_set (sampled.amount slot) moved.called { call with place := (call.advance metric.slot spurious).2 }
  rw [← moved.calls, Sampled.amount_advance] at changed
  omega

theorem Advanced.mem {index : Nat} {spurious : Bool} {call other : Call} {metric : Metric}
    (moved : Advanced system index spurious call metric next) (present : other ∈ next.calls) :
    other ∈ system.calls ∨ other = { call with place := (call.advance metric.slot spurious).2 } :=
  List.mem_or_eq_of_mem_set (moved.calls ▸ present)

/-- The values of the calls on this slot. -/
def valuesOn (calls : List Call) (slot : Nat) : List UInt64 := (calls.filter fun call => call.slot = slot).map (·.value)

theorem run_valuesOn {registry : MetricRegistry} {turns : List Turn} {state : System}
    (ran : System.run { registry } turns = some state) (slot : Nat) :
    valuesOn state.calls slot = ((turns.filterMap recording).filter (·.1 = slot)).map (·.2) := by
  rw [← run_begun ran, begun, List.filter_map, List.map_map]
  rfl

theorem tally_finished {calls : List Call} {slot : Nat}
    (finished : ∀ call ∈ calls, call.slot = slot → call.place = .finished) (sampled : Sampled) :
    tally (sampled.amount slot) calls = ((valuesOn calls slot).map sampled.worth).sum := by
  have whole : ∀ call ∈ calls, sampled.amount slot call =
      if decide (call.slot = slot) = true then sampled.worth call.value else 0 := by
    intro call called
    by_cases on : call.slot = slot
    · cases sampled <;> simp [Sampled.amount, Sampled.worth, on, finished call called on]
    · cases sampled <;> simp [Sampled.amount, on]
  calc tally (sampled.amount slot) calls
    _ = _ := tally_congr whole
    _ = ((calls.filter fun call => call.slot = slot).map fun call => sampled.worth call.value).sum :=
      tally_filter (fun call => sampled.worth call.value) (fun call => decide (call.slot = slot)) calls
    _ = ((valuesOn calls slot).map sampled.worth).sum := by rw [valuesOn, List.map_map, Function.comp_def]

end FinanceTech.Proofs.MetricsSteps
