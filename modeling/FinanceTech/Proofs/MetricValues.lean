import FinanceTech.Proofs.MetricsExport

/-! The values of counters and gauges. The exporter resets histograms only, so a
counter goes on from one report to the next, and each report shows a value that the
metric has had, one after the other. -/

namespace FinanceTech.Proofs.MetricValues
open List Library Metrics MetricsSteps HistogramRecording MetricsExport

def written (slot : Nat) (value : UInt64) : Turn → UInt64
  | .increment handle delta => if handle.type = .counter ∧ handle.slot = some slot then value + delta else value
  | .setGauge handle new => if handle.type = .gauge ∧ handle.slot = some slot then new else value
  | _ => value

def Has (slot : Nat) (name : String) (type : MetricType) (value : UInt64) (registry : MetricRegistry) : Prop :=
  ∃ held : MetricSlot, registry.metrics[slot]? = some ⟨name, type, held⟩ ∧ held.value = value

/-- What a report shows of a slot. -/
def entry (slot : Nat) (report : List MetricSnapshot) : Option (String × MetricType × UInt64) :=
  report[slot]?.map fun snap => (snap.name, snap.type, snap.value)

def loaded (slot : Nat) : Exporter → List (Option (String × MetricType × UInt64))
  | .loading _ i result snap field =>
    if slot < i then [entry slot result]
    else if slot = i ∧ field ≠ .value then [some (snap.name, snap.type, snap.value)]
    else []
  | .printing result => [entry slot result]
  | _ => []

/-- All that the exporter has loaded of the slot. -/
def reported (slot : Nat) (system : System) : List (Option (String × MetricType × UInt64)) :=
  system.exported.map (entry slot) ++ loaded slot system.exporter

section Step

variable {system next : System} {slot : Nat} {name : String} {type : MetricType} {value : UInt64}

theorem Has.write {registry after : MetricRegistry} (has : Has slot name type value registry) {i : Nat} {metric : Metric}
    {new : MetricSlot} (present : registry.metrics[i]? = some metric)
    (metrics : after.metrics = registry.metrics.set i { metric with slot := new })
    {change : UInt64 → UInt64} (changed : new.value = change metric.slot.value) :
    Has slot name type (if i = slot then change value else value) after := by
  obtain ⟨held, found, rfl⟩ := has
  have now := set_at present found { metric with slot := new }
  rw [← metrics] at now
  by_cases same : i = slot
  · subst same
    obtain rfl := Option.some.inj (present.symm.trans found)
    rw [if_pos rfl] at now ⊢
    exact ⟨_, now, changed⟩
  · rw [if_neg same] at now ⊢
    exact ⟨held, now, rfl⟩

theorem Has.kept {registry after : MetricRegistry} (has : Has slot name type value registry) {i : Nat} {metric : Metric}
    {new : MetricSlot} (present : registry.metrics[i]? = some metric)
    (metrics : after.metrics = registry.metrics.set i { metric with slot := new }) (same : new.value = metric.slot.value) :
    Has slot name type value after := by
  have kept : Has slot name type (if i = slot then id value else value) after := has.write present metrics same
  rw [id, ite_self] at kept
  exact kept

private theorem change_has (has : Has slot name type value system.registry) {handle : MetricHandle} {kind : MetricType}
    (kinds : kind ≠ .none) {change : UInt64 → UInt64}
    (ran : (if handle.isValid = false ∨ handle.type ≠ kind then some system else system.modifyValue handle change) = some next) :
    Has slot name type (if handle.type = kind ∧ handle.slot = some slot then change value else value) next.registry ∧
      reported slot next = reported slot system := by
  by_cases other : handle.isValid = false ∨ handle.type ≠ kind
  · rw [if_pos other] at ran
    obtain rfl := Option.some.inj ran
    have unchanged : ¬ (handle.type = kind ∧ handle.slot = some slot) := fun ⟨same, points⟩ => by
      obtain invalid | differs := other
      · simp [MetricHandle.isValid, points, same, kinds] at invalid
      · exact differs same
    rw [if_neg unchanged]
    exact ⟨has, rfl⟩
  · rw [if_neg other, System.modifyValue] at ran
    have same : handle.type = kind := Decidable.not_not.mp fun differs => other (.inr differs)
    cases points : handle.slot with
    | none =>
      rw [points] at ran
      cases ran
    | some place =>
      rw [points] at ran
      obtain ⟨registry, wrote, after⟩ := Option.bind_eq_some_iff.mp ran
      obtain rfl := Option.some.inj after
      obtain ⟨metric, present, metrics⟩ := modifySlot_some wrote
      have modified : Has slot name type (if place = slot then change value else value) registry := has.write present metrics rfl
      refine ⟨?_, rfl⟩
      simp only [same, true_and, Option.some.injEq]
      exact modified

private theorem advance_value (call : Call) (held : MetricSlot) (spurious : Bool) : (call.advance held spurious).1.value = held.value := by
  rw [Call.advance]
  split <;> first | rfl | (split <;> rfl)

private theorem entry_append {result : List MetricSnapshot} (inside : slot < result.length) (snap : MetricSnapshot) :
    entry slot (result ++ [snap]) = entry slot result := by
  rw [entry, entry, getElem?_append_left inside]

section Exporting

variable {registry : MetricRegistry} {calls : List Call} {exported : List (List MetricSnapshot)} {count i : Nat} {field : Field}

private theorem loading_reports {result : List MetricSnapshot} {snap : MetricSnapshot}
    (placed : Placed registry.metrics.length (.loading count i result snap field)) (has : Has slot name type value registry)
    (same : system = ⟨registry, calls, .loading count i result snap field, exported⟩) (ran : system.exporterThread = some next) :
    Has slot name type value next.registry ∧
      (reported slot next = reported slot system ∨ reported slot next = reported slot system ++ [some (name, type, value)]) := by
  subst same
  obtain ⟨counted, bound, filled⟩ := placed
  obtain ⟨held, found, rfl⟩ := has
  by_cases inside : i < count
  · simp only [System.exporterThread, if_pos inside] at ran
    cases here : registry.metrics[i]? with
    | none =>
      rw [here] at ran
      cases ran
    | some metric =>
      rw [here] at ran
      cases field with
      | value =>
        obtain rfl := Option.some.inj ran
        refine ⟨⟨held, found, rfl⟩, ?_⟩
        by_cases same : slot = i
        · subst same
          obtain rfl := Option.some.inj (found.symm.trans here)
          exact .inr (by simp [reported, loaded])
        · exact .inl (by simp [reported, loaded, same])
      | sum | count | min =>
        obtain rfl := Option.some.inj ran
        exact ⟨⟨held, found, rfl⟩, .inl (by simp [reported, loaded])⟩
      | max =>
        obtain rfl := Option.some.inj ran
        refine ⟨⟨held, found, rfl⟩, .inl ?_⟩
        obtain before | same | after := Nat.lt_trichotomy slot i
        · simp only [reported, loaded, if_pos before, if_pos (Nat.lt_succ_of_lt before), entry_append (filled ▸ before)]
        · subst same
          simp [reported, loaded, entry, ← filled]
        · have beyond : ¬ slot < i + 1 := by omega
          simp [reported, loaded, beyond, Nat.not_lt.mpr after.le, after.ne']
  · simp only [System.exporterThread, if_neg inside] at ran
    obtain rfl := Option.some.inj ran
    obtain ⟨within, -⟩ := List.getElem?_eq_some_iff.mp found
    have total : count = registry.metrics.length := counted
    have behind : slot < i := by omega
    refine ⟨⟨held, found, rfl⟩, .inl ?_⟩
    simp only [reported, loaded, if_pos behind]

private theorem resetting_reports (has : Has slot name type value registry)
    (same : system = ⟨registry, calls, .resetting count i field, exported⟩) (ran : system.exporterThread = some next) :
    Has slot name type value next.registry ∧ reported slot next = reported slot system := by
  subst same
  by_cases inside : i < count
  · simp only [System.exporterThread, if_pos inside] at ran
    cases here : registry.metrics[i]? with
    | none =>
      rw [here] at ran
      cases ran
    | some metric =>
      rw [here] at ran
      cases field with
      | value =>
        by_cases resets : metric.type = .histogram
        · obtain rfl := Option.some.inj ((if_pos resets).symm.trans ran)
          exact ⟨has, rfl⟩
        · obtain rfl := Option.some.inj ((if_neg resets).symm.trans ran)
          exact ⟨has, rfl⟩
      | sum | count | min | max =>
        obtain ⟨written, wrote, same⟩ := Option.bind_eq_some_iff.mp ran
        obtain rfl := Option.some.inj same
        obtain ⟨metric, present, metrics⟩ := modifySlot_some wrote
        exact ⟨has.kept present metrics rfl, rfl⟩
  · simp only [System.exporterThread, if_neg inside] at ran
    obtain rfl := Option.some.inj ran
    exact ⟨has, rfl⟩

end Exporting

/-- A step of the exporter leaves the values alone, and loads at most the value of
this slot. -/
theorem exporter_reports (placed : Placed system.registry.metrics.length system.exporter)
    (has : Has slot name type value system.registry) (ran : system.exporterThread = some next) :
    Has slot name type value next.registry ∧
      (reported slot next = reported slot system ∨ reported slot next = reported slot system ++ [some (name, type, value)]) := by
  obtain ⟨registry, calls, exporter, exported⟩ := system
  cases exporter with
  | sleeping =>
    obtain rfl := Option.some.inj ran
    refine ⟨has, .inl ?_⟩
    simp [reported, loaded]
  | loading count i result snap field => exact loading_reports placed has rfl ran
  | printing result =>
    obtain rfl := Option.some.inj ran
    refine ⟨has, .inl ?_⟩
    simp [reported, loaded]
  | resetting count i field =>
    obtain ⟨kept, same⟩ := resetting_reports has rfl ran
    exact ⟨kept, .inl same⟩

private theorem step_values (placed : Placed system.registry.metrics.length system.exporter)
    (has : Has slot name type value system.registry) {turn : Turn} (ran : system.step turn = some next) :
    Has slot name type (written slot value turn) next.registry ∧
      (reported slot next = reported slot system ∨ reported slot next = reported slot system ++ [some (name, type, value)]) := by
  cases turn with
  | recordHistogram handle sample =>
    rw [System.step, System.recordHistogram] at ran
    split at ran
    · exact Option.some.inj ran ▸ ⟨has, .inl rfl⟩
    · obtain ⟨place, rfl⟩ := enter_some ran
      exact ⟨has, .inl rfl⟩
  | record handle sample =>
    rw [System.step, System.record] at ran
    split at ran
    · exact Option.some.inj ran ▸ ⟨has, .inl rfl⟩
    · obtain ⟨place, rfl⟩ := enter_some ran
      exact ⟨has, .inl rfl⟩
  | increment handle delta =>
    obtain ⟨changed, same⟩ := change_has has (by decide) ran
    exact ⟨changed, .inl same⟩
  | setGauge handle new =>
    obtain ⟨changed, same⟩ := change_has has (by decide) ran
    exact ⟨changed, .inl same⟩
  | advance index spurious =>
    obtain ⟨call, metric, moved⟩ := advance_advanced ran
    refine ⟨has.kept moved.found moved.metrics (advance_value call metric.slot spurious), .inl ?_⟩
    rw [reported, reported, moved.exporter, moved.exported]
  | exporterThread => exact exporter_reports placed has ran

end Step

private theorem step_placed {system next : System} (placed : Placed system.registry.metrics.length system.exporter) {turn : Turn}
    (ran : system.step turn = some next) : Placed next.registry.metrics.length next.exporter := by
  cases step_stepped ran with
  | ignored outside => exact placed
  | entered outside => exact placed
  | valued outside valued =>
    obtain ⟨place, metric, value, -, metrics⟩ := valued.metrics
    rw [metrics, length_set, valued.exporter]
    exact placed
  | advanced moved =>
    rw [moved.metrics, length_set, moved.exporter]
    exact placed
  | exporter ran =>
    obtain ⟨same | ⟨i, change, wrote⟩, after⟩ := exporter_placed placed ran
    · rw [same]
      exact after
    · obtain ⟨metric, -, metrics⟩ := modifySlot_some wrote
      rw [metrics, length_set]
      exact after

def valueAfter (slot : Nat) (turns : List Turn) : UInt64 := turns.foldl (written slot) 0

/-- What the exporter has loaded so far are values that the metric had at moments of
the run, one after the other. -/
structure Followed (slot : Nat) (name : String) (type : MetricType) (turns : List Turn) (system : System) : Prop where
  placed : Placed system.registry.metrics.length system.exporter
  has : Has slot name type (valueAfter slot turns) system.registry
  moments : ∃ moments : List Nat, moments.Pairwise (· ≤ ·) ∧ (∀ moment ∈ moments, moment ≤ turns.length) ∧
    reported slot system = moments.map fun moment => some (name, type, valueAfter slot (turns.take moment))

theorem Followed.step {slot : Nat} {name : String} {type : MetricType} {turns : List Turn} {system next : System}
    (followed : Followed slot name type turns system) {turn : Turn} (ran : system.step turn = some next) :
    Followed slot name type (turns ++ [turn]) next := by
  obtain ⟨has, more⟩ := step_values followed.placed followed.has ran
  obtain ⟨moments, sorted, within, same⟩ := followed.moments
  have kept : ∀ earlier : List Nat, (∀ moment ∈ earlier, moment ≤ turns.length) →
      (earlier.map fun moment => some (name, type, valueAfter slot ((turns ++ [turn]).take moment))) =
        earlier.map fun moment => some (name, type, valueAfter slot (turns.take moment)) := fun earlier inside =>
    map_congr_left fun moment present => by rw [take_append_of_le_length (inside moment present)]
  refine ⟨step_placed followed.placed ran, ?_, ?_⟩
  · rw [valueAfter, foldl_concat]
    exact has
  · obtain unchanged | loaded := more
    · refine ⟨moments, sorted, fun moment present => ?_, ?_⟩
      · rw [length_append]
        exact Nat.le_add_right_of_le (within moment present)
      · rw [unchanged, same, kept moments within]
    · -- the value loaded is the one before this turn
      have inside : ∀ moment ∈ moments ++ [turns.length], moment ≤ turns.length := by
        intro moment present
        obtain earlier | last := mem_append.mp present
        · exact within moment earlier
        · exact (mem_singleton.mp last).le
      refine ⟨moments ++ [turns.length], pairwise_append.mpr ⟨sorted, pairwise_singleton _ _, ?_⟩, fun moment present => ?_, ?_⟩
      · intro earlier present last here
        rw [mem_singleton.mp here]
        exact within earlier present
      · rw [length_append]
        exact Nat.le_add_right_of_le (inside moment present)
      · rw [kept _ inside, loaded, same, map_append, map_singleton, take_length]

private theorem run_followed {registry : MetricRegistry} {slot : Nat} {name : String} {type : MetricType}
    (fresh : registry.metrics[slot]? = some { name, type }) {turns : List Turn} {final : System}
    (ran : System.run { registry } turns = some final) : Followed slot name type turns final := by
  induction turns using List.reverseRecOn generalizing final with
  | nil =>
    obtain rfl := Option.some.inj ran
    exact ⟨trivial, ⟨{}, fresh, rfl⟩, [], .nil, fun _ none => absurd none not_mem_nil, rfl⟩
  | append_singleton turns turn ih =>
    obtain ⟨middle, before, last⟩ := Runs.foldlM_append_some ran
    exact (ih before).step ((Runs.foldlM_concat_some before turn).symm.trans ran)

/-- In every run from a registry with a fresh slot, the value of the slot is what
the increments and sets through its handles make of zero, one after the other,
whatever else is recorded, exported and reset; and each report shows the name, the
type and a value that it had at a moment of the run, in the order of these moments. -/
theorem values_reported {registry : MetricRegistry} {slot : Nat} {name : String} {type : MetricType}
    (fresh : registry.metrics[slot]? = some { name, type }) {turns : List Turn} {final : System}
    (ran : System.run { registry } turns = some final) :
    (∃ held : MetricSlot, final.registry.metrics[slot]? = some ⟨name, type, held⟩ ∧ held.value = valueAfter slot turns) ∧
    ∃ moments : List Nat, moments.Pairwise (· ≤ ·) ∧ (∀ moment ∈ moments, moment ≤ turns.length) ∧
      final.exported.map (entry slot) = moments.map fun moment => some (name, type, valueAfter slot (turns.take moment)) := by
  obtain ⟨-, has, moments, sorted, within, same⟩ := run_followed fresh ran
  refine ⟨has, moments.take final.exported.length, sorted.sublist (take_sublist _ _), ?_, ?_⟩
  · exact fun moment present => within moment (mem_of_mem_take present)
  · have shown := congrArg (take final.exported.length) same
    rw [reported, take_left' (length_map _), map_take.symm] at shown
    exact shown

/-- Two orders, a report, and three more orders. -/
def orders : List Turn :=
  .increment ⟨0, .counter, some 0⟩ 2 :: List.replicate 18 .exporterThread ++ [.increment ⟨0, .counter, some 0⟩ 3]

theorem values_reported_orders : ∃ final, System.run { registry := registered } orders = some final ∧
    (∃ held : MetricSlot, final.registry.metrics[0]? = some ⟨"orders.processed", .counter, held⟩ ∧ held.value = 5) ∧
    ∃ moments : List Nat, moments.Pairwise (· ≤ ·) ∧ (∀ moment ∈ moments, moment ≤ orders.length) ∧
      [some ("orders.processed", MetricType.counter, (2 : UInt64))] =
        moments.map fun moment => some ("orders.processed", .counter, valueAfter 0 (orders.take moment)) := by
  have ran : ∃ final, System.run { registry := registered } orders = some final ∧
      final.exported.map (entry 0) = [some ("orders.processed", .counter, 2)] := ⟨_, rfl, rfl⟩
  obtain ⟨final, ran, shown⟩ := ran
  have fresh : registered.metrics[0]? = some { name := "orders.processed", type := .counter } := rfl
  obtain ⟨has, moments, sorted, within, same⟩ := values_reported fresh ran
  exact ⟨final, ran, has, moments, sorted, within, shown.symm.trans same⟩

/-- Register metrics one after the other. -/
def registerAll (metrics : List (MetricType × String)) : Option (MetricRegistry × List MetricHandle) :=
  metrics.foldlM (fun (registry, handles) (type, name) => do
    let (registry, handle) ← registry.registerMetric type name
    return (registry, handles ++ [handle])) ({}, [])

def handleFor (index : Nat) (metric : MetricType × String) : MetricHandle := ⟨index.toUInt16, metric.1, some index⟩

/-- Registering goes through as long as there are slots, and gives each metric a
slot of its own. -/
theorem registerAll_eq (metrics : List (MetricType × String)) : registerAll metrics =
    if metrics.length ≤ MaxMetrics then
      some ({ metrics := metrics.map fun metric => { name := metric.2, type := metric.1 } }, metrics.mapIdx handleFor)
    else none := by
  induction metrics using List.reverseRecOn with
  | nil => rfl
  | append_singleton metrics metric ih =>
    rw [registerAll] at ih ⊢
    rw [foldlM_append, ih, length_append, length_singleton]
    by_cases fits : metrics.length ≤ MaxMetrics
    · rw [if_pos fits]
      by_cases room : metrics.length + 1 ≤ MaxMetrics
      · have open_ : ¬ MaxMetrics ≤ metrics.length := by omega
        simp [MetricRegistry.registerMetric, open_, room, handleFor, mapIdx_append]
      · have full : MaxMetrics ≤ metrics.length := by omega
        simp [MetricRegistry.registerMetric, full, room]
    · have beyond : ¬ metrics.length + 1 ≤ MaxMetrics := by omega
      rw [if_neg fits, if_neg beyond]
      rfl

def handleOf : Turn → Option MetricHandle
  | .recordHistogram handle _ | .record handle _ | .increment handle _ | .setGauge handle _ => some handle
  | _ => none

def added (handle : MetricHandle) : Turn → Nat
  | .increment used delta => if used = handle then delta.toNat else 0
  | _ => 0

def total (handle : MetricHandle) (turns : List Turn) : Nat := (turns.map (added handle)).sum

theorem total_take_le (handle : MetricHandle) (turns : List Turn) {first second : Nat} (ordered : first ≤ second) :
    total handle (turns.take first) ≤ total handle (turns.take second) := by
  obtain ⟨more, rfl⟩ := Nat.exists_eq_add_of_le ordered
  rw [take_add, total, total, map_append, sum_append]
  exact Nat.le_add_right _ _

section Registered

variable {metrics : List (MetricType × String)} {index : Nat} {name : String} {turns : List Turn}

theorem eq_handleFor (counter : metrics[index]? = some (.counter, name)) {handle : MetricHandle}
    (issued : handle ∈ metrics.mapIdx handleFor) (points : handle.slot = some index) : handle = handleFor index (.counter, name) := by
  obtain ⟨place, inside, rfl⟩ := mem_mapIdx.mp issued
  obtain rfl : place = index := Option.some.inj points
  obtain ⟨below, same⟩ := List.getElem?_eq_some_iff.mp counter
  rw [same]

private theorem written_counter (counter : metrics[index]? = some (.counter, name)) {turn : Turn}
    (issued : ∀ handle, handleOf turn = some handle → handle ∈ metrics.mapIdx handleFor) (value : UInt64) :
    written index value turn = value + UInt64.ofNat (added (handleFor index (.counter, name)) turn) := by
  have zero : value = value + UInt64.ofNat 0 := (UInt64.add_zero value).symm
  cases turn with
  | increment handle delta =>
    by_cases points : handle.slot = some index
    · obtain rfl := eq_handleFor counter (issued handle rfl) points
      simp [written, added, handleFor]
    · have other : handle ≠ handleFor index (.counter, name) := fun same => points (same ▸ rfl)
      simp [written, added, points, other]
  | setGauge handle new =>
    by_cases points : handle.slot = some index
    · obtain rfl := eq_handleFor counter (issued handle rfl) points
      simp [written, added, handleFor]
    · simp [written, added, points]
  | recordHistogram | record | advance | exporterThread => exact zero

private theorem valueAfter_counter (counter : metrics[index]? = some (.counter, name))
    (issued : ∀ turn ∈ turns, ∀ handle, handleOf turn = some handle → handle ∈ metrics.mapIdx handleFor) :
    valueAfter index turns = UInt64.ofNat (total (handleFor index (.counter, name)) turns) := by
  induction turns using List.reverseRecOn with
  | nil => rfl
  | append_singleton turns turn ih =>
    have before := ih fun earlier inside => issued earlier (mem_append_left _ inside)
    have last := issued turn (mem_append_right _ (mem_singleton_self turn))
    rw [valueAfter, foldl_concat, ← valueAfter, before, written_counter counter last, total, total, map_append, sum_append,
      UInt64.ofNat_add, map_singleton, sum_singleton]

end Registered

/-- What a report shows as the value of a slot. -/
def valueShown (slot : Nat) (report : List MetricSnapshot) : Nat := (entry slot report).elim 0 fun shown => shown.2.2.toNat

/-- However many threads use the handles that registering gave out: the value of a
counter is the sum of what was added through its handle, and while this sum fits
into the value, the reports of the exporter show values that only grow and never
more than was added. -/
theorem counters_add_up {metrics : List (MetricType × String)} {registry : MetricRegistry} {handles : List MetricHandle}
    (registered : registerAll metrics = some (registry, handles)) {turns : List Turn} {final : System}
    (ran : System.run { registry := registry.finalize } turns = some final)
    (issued : ∀ turn ∈ turns, ∀ handle, handleOf turn = some handle → handle ∈ handles)
    {index : Nat} {name : String} (counter : metrics[index]? = some (.counter, name)) :
    ∃ handle, handles[index]? = some handle ∧ final.registry.value handle = UInt64.ofNat (total handle turns) ∧
      (total handle turns < 2 ^ 64 → (final.exported.map (valueShown index)).Pairwise (· ≤ ·) ∧
        ∀ shown ∈ final.exported.map (valueShown index), shown ≤ total handle turns) := by
  rw [registerAll_eq] at registered
  split at registered
  next fits =>
    obtain ⟨rfl, rfl⟩ := Prod.mk.inj (Option.some.inj registered)
    have fresh : (metrics.map fun metric : MetricType × String => ({ name := metric.2, type := metric.1 } : Metric))[index]? =
        some { name, type := .counter } := by rw [getElem?_map, counter]; rfl
    have sums : ∀ moment, valueAfter index (turns.take moment) =
        UInt64.ofNat (total (handleFor index (.counter, name)) (turns.take moment)) := fun moment =>
      valueAfter_counter counter fun turn inside => issued turn (mem_of_mem_take inside)
    obtain ⟨⟨held, found, value⟩, moments, sorted, within, same⟩ := values_reported fresh ran
    refine ⟨handleFor index (.counter, name), ?_, ?_, fun fits => ?_⟩
    · rw [getElem?_mapIdx, counter]
      rfl
    · have all := sums turns.length
      rw [take_length] at all
      simp only [MetricRegistry.value, handleFor, MetricHandle.isValid, Option.bind_some, found]
      exact value.trans all
    · have most : ∀ moment, total (handleFor index (.counter, name)) (turns.take moment) ≤
          total (handleFor index (.counter, name)) turns := fun moment => by
        have whole := total_take_le (handleFor index (.counter, name)) turns (Nat.le_max_left moment turns.length)
        rw [take_of_length_le (Nat.le_max_right moment turns.length)] at whole
        exact whole
      have shown : final.exported.map (valueShown index) =
          moments.map fun moment => total (handleFor index (.counter, name)) (turns.take moment) := by
        have views := congrArg (map fun shown => shown.elim 0 fun shown => shown.2.2.toNat) same
        rw [map_map, map_map] at views
        refine views.trans (map_congr_left fun moment _ => ?_)
        simp only [Function.comp_apply, Option.elim_some, sums moment, UInt64.toNat_ofNat']
        exact Nat.mod_eq_of_lt (Nat.lt_of_le_of_lt (most moment) fits)
      rw [shown]
      refine ⟨pairwise_map.mpr (sorted.imp fun ordered => total_take_le _ turns ordered), fun value present => ?_⟩
      obtain ⟨moment, -, rfl⟩ := mem_map.mp present
      exact most moment
  next => cases registered

theorem counters_add_up_orders : ∃ final, System.run { registry := registered } orders = some final ∧
    final.registry.value ⟨0, .counter, some 0⟩ = 5 ∧ (final.exported.map (valueShown 0)).Pairwise (· ≤ ·) ∧
      ∀ shown ∈ final.exported.map (valueShown 0), shown ≤ 5 := by
  have ran : ∃ final, System.run { registry := registered } orders = some final := ⟨_, rfl⟩
  obtain ⟨final, ran⟩ := ran
  have listed : registerAll [(.counter, "orders.processed"), (.histogram, "latency.processing_us"), (.gauge, "queue.size")] =
      some ({ registered with initialized := false }, [⟨0, .counter, some 0⟩, ⟨1, .histogram, some 1⟩, ⟨2, .gauge, some 2⟩]) := rfl
  have issued : ∀ turn ∈ orders, ∀ handle, handleOf turn = some handle →
      handle ∈ [(⟨0, .counter, some 0⟩ : MetricHandle), ⟨1, .histogram, some 1⟩, ⟨2, .gauge, some 2⟩] := by
    have all : ∀ turn ∈ orders, turn = .increment ⟨0, .counter, some 0⟩ 2 ∨ turn = .exporterThread ∨
        turn = .increment ⟨0, .counter, some 0⟩ 3 := by decide
    intro turn inside handle used
    obtain rfl | rfl | rfl := all turn inside
    · exact Option.some.inj used ▸ mem_cons_self
    · cases used
    · exact Option.some.inj used ▸ mem_cons_self
  have counter : [(MetricType.counter, "orders.processed"), (.histogram, "latency.processing_us"), (.gauge, "queue.size")][0]? =
      some (.counter, "orders.processed") := rfl
  obtain ⟨handle, which, value, reports⟩ := counters_add_up listed ran issued counter
  obtain rfl := Option.some.inj which
  exact ⟨final, ran, value, reports (by decide)⟩

end FinanceTech.Proofs.MetricValues
