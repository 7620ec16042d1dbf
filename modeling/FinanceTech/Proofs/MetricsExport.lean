import FinanceTech.Library.Drain
import FinanceTech.Library.Runs
import FinanceTech.Proofs.HistogramRecording

/-! What the exporter shows of a histogram. Each field that calls add to drains
into the snapshots: the exporter loads it, prints what it has loaded, and resets
it. A step of a call between the load and the reset adds what the reset throws
away, so the snapshots show every value exactly when no step falls there. -/

namespace FinanceTech.Proofs.MetricsExport
open Library Threads Metrics MetricsSteps HistogramRecording

def rank : Field → Nat
  | .value => 0
  | .sum => 1
  | .count => 2
  | .min => 3
  | .max => 4

/-- The exporter has loaded this field of the slot and not reset it yet. -/
def taken (exporter : Exporter) (slot : Nat) (sampled : Sampled) : Bool :=
  match exporter with
  | .sleeping => false
  | .loading _ i _ _ field => slot < i ∨ slot = i ∧ rank sampled.field < rank field
  | .printing _ => true
  | .resetting _ i field => i < slot ∨ i = slot ∧ rank field ≤ rank sampled.field

def snapped : Sampled → MetricSnapshot → Nat
  | .sum, snap => snap.sum.toNat
  | .count, snap => snap.count.toNat

/-- What a snapshot shows of this field of the slot. -/
def shown (slot : Nat) (sampled : Sampled) (result : List MetricSnapshot) : Nat :=
  match result[slot]? with
  | some snap => snapped sampled snap
  | none => 0

/-- What the exporter has loaded of it and not printed yet. -/
def pending (exporter : Exporter) (slot : Nat) (sampled : Sampled) : Nat :=
  match exporter with
  | .loading _ i result snap field =>
    if slot < i then shown slot sampled result
    else if slot = i ∧ rank sampled.field < rank field then snapped sampled snap
    else 0
  | .printing result => shown slot sampled result
  | _ => 0

def slotAt (registry : MetricRegistry) (slot : Nat) : MetricSlot :=
  match registry.metrics[slot]? with
  | some metric => metric.slot
  | none => {}

/-- A field of a slot as a register that the exporter drains. -/
def drainOf (slot : Nat) (sampled : Sampled) (system : System) : Drain where
  register := (sampled.read (slotAt system.registry slot)).toNat
  pending := pending system.exporter slot sampled
  loaded := taken system.exporter slot sampled
  handed := (system.exported.map (shown slot sampled)).sum
  added := tally (sampled.amount slot) system.calls

/-- The exporter is where its loops can be. -/
def Placed (metrics : Nat) : Exporter → Prop
  | .sleeping => True
  | .loading count i result _ _ => count = metrics ∧ i ≤ count ∧ result.length = i
  | .printing result => result.length = metrics
  | .resetting count i _ => count = metrics ∧ i ≤ count

structure Exporting (slot : Nat) (system : System) : Prop where
  found : ∃ name held, system.registry.metrics[slot]? = some ⟨name, .histogram, held⟩
  placed : Placed system.registry.metrics.length system.exporter

section Views

variable {slot i count : Nat} {result : List MetricSnapshot} {snap : MetricSnapshot} {field : Field} (sampled : Sampled)

private theorem shown_append (inside : slot < result.length) (more : List MetricSnapshot) :
    shown slot sampled (result ++ more) = shown slot sampled result := by
  rw [shown, shown, List.getElem?_append_left inside]

private theorem shown_last (last : result.length = slot) : shown slot sampled (result ++ [snap]) = snapped sampled snap := by
  rw [shown, ← last, List.getElem?_concat_length]

theorem pending_open (unloaded : taken (.loading count i result snap field) slot sampled = false) :
    pending (.loading count i result snap field) slot sampled = 0 := by
  have neither := of_decide_eq_false unloaded
  rw [not_or] at neither
  rw [pending, if_neg neither.1, if_neg neither.2]

theorem taken_ahead (ahead : i < slot) : taken (.loading count i result snap field) slot sampled = false := by
  apply decide_eq_false
  omega

theorem taken_here : taken (.loading count slot result snap field) slot sampled = decide (rank sampled.field < rank field) := by
  simp [taken]

theorem pending_here : pending (.loading count slot result snap field) slot sampled =
    if rank sampled.field < rank field then snapped sampled snap else 0 := by
  simp [pending]

theorem taken_resetting : taken (.resetting count slot field) slot sampled = decide (rank field ≤ rank sampled.field) := by
  simp [taken]

end Views

/-- What a step of the exporter does to a drain: nothing, or one event of the
draining party. Only handing out prints a snapshot. -/
inductive Drains (slot : Nat) (sampled : Sampled) (system next : System) : Prop
  | quiet (same : drainOf slot sampled next = drainOf slot sampled system) (exported : next.exported = system.exported)
  | event (event : Drain.Event) (drains : ∀ amount, event ≠ .add amount)
    (ordered : (drainOf slot sampled system).Ordered event)
    (stepped : drainOf slot sampled next = (drainOf slot sampled system).step (2 ^ 64) event)
    (exported : event = .hand ∨ next.exported = system.exported)

section Exporter

variable {system next : System} {slot : Nat} (sampled : Sampled)

theorem drains_moved {exporter : Exporter} (still : pending exporter slot sampled = pending system.exporter slot sampled)
    (same : taken exporter slot sampled = taken system.exporter slot sampled) :
    Drains slot sampled system { system with exporter } := by
  refine .quiet ?_ rfl
  rw [drainOf, still, same]
  rfl

private theorem drains_loaded {exporter : Exporter} (none : pending system.exporter slot sampled = 0)
    (before : taken system.exporter slot sampled = false)
    (loads : pending exporter slot sampled = (sampled.read (slotAt system.registry slot)).toNat)
    (after : taken exporter slot sampled = true) : Drains slot sampled system { system with exporter } := by
  refine .event .load (fun _ => Drain.Event.noConfusion) ⟨before, none⟩ ?_ (.inr rfl)
  rw [drainOf, loads, after]
  rfl

section Loading

variable {registry : MetricRegistry} {calls : List Call} {exported : List (List MetricSnapshot)} {count i j : Nat}
  {result after : List MetricSnapshot} {snap later : MetricSnapshot} {field turned : Field}

private theorem drains_past (past : slot < i) (beyond : slot < j) (kept : shown slot sampled after = shown slot sampled result) :
    Drains slot sampled ⟨registry, calls, .loading count i result snap field, exported⟩
      ⟨registry, calls, .loading count j after later turned, exported⟩ := by
  apply drains_moved
  · exact (if_pos beyond).trans (kept.trans (if_pos past).symm)
  · exact (decide_eq_true (.inl beyond)).trans (decide_eq_true (.inl past)).symm

theorem drains_open (before : taken (.loading count i result snap field) slot sampled = false)
    (still : taken (.loading count j after later turned) slot sampled = false) :
    Drains slot sampled ⟨registry, calls, .loading count i result snap field, exported⟩
      ⟨registry, calls, .loading count j after later turned, exported⟩ := by
  apply drains_moved
  · exact (pending_open sampled still).trans (pending_open sampled before).symm
  · exact still.trans before.symm

private theorem drains_here (before : rank sampled.field < rank field) (beyond : rank sampled.field < rank turned)
    (kept : snapped sampled later = snapped sampled snap) :
    Drains slot sampled ⟨registry, calls, .loading count slot result snap field, exported⟩
      ⟨registry, calls, .loading count slot result later turned, exported⟩ := by
  apply drains_moved
  · rw [pending_here, pending_here, if_pos before, if_pos beyond, kept]
  · rw [taken_here, taken_here, decide_eq_true before, decide_eq_true beyond]

private theorem here_drains {name : String} {type : MetricType} {held : MetricSlot}
    (loading : system = ⟨registry, calls, .loading count slot result snap field, exported⟩) (inside : slot < count)
    (filled : result.length = slot) (found : registry.metrics[slot]? = some ⟨name, type, held⟩)
    (ran : system.exporterThread = some next) : Drains slot sampled system next := by
  subst loading
  have holds : slotAt registry slot = held := by rw [slotAt, found]
  simp only [System.exporterThread, if_pos inside, found] at ran
  cases field with
  | value =>
    obtain rfl := Option.some.inj ran
    cases sampled <;> exact drains_open _ (taken_here _) (taken_here _)
  | sum =>
    obtain rfl := Option.some.inj ran
    cases sampled with
    | sum => exact drains_loaded _ (pending_here _) (taken_here _) (holds ▸ pending_here _) (taken_here _)
    | count => exact drains_open _ (taken_here _) (taken_here _)
  | count =>
    obtain rfl := Option.some.inj ran
    cases sampled with
    | sum => exact drains_here _ (by decide) (by decide) rfl
    | count => exact drains_loaded _ (pending_here _) (taken_here _) (holds ▸ pending_here _) (taken_here _)
  | min =>
    obtain rfl := Option.some.inj ran
    cases sampled <;> exact drains_here _ (by decide) (by decide) rfl
  | max =>
    obtain rfl := Option.some.inj ran
    have past : slot < slot + 1 := Nat.lt_succ_self slot
    have before : rank sampled.field < rank .max := by cases sampled <;> decide
    apply drains_moved
    · rw [pending_here, if_pos before]
      refine (if_pos past).trans ((shown_last sampled filled).trans ?_)
      cases sampled <;> rfl
    · exact (decide_eq_true (.inl past)).trans ((taken_here _).trans (decide_eq_true before)).symm

private theorem loading_drains (loading : system = ⟨registry, calls, .loading count i result snap field, exported⟩)
    (exporting : Exporting slot system) (ran : system.exporterThread = some next) : Drains slot sampled system next := by
  obtain ⟨⟨histogram, held, found⟩, placed⟩ := exporting
  have same := loading
  subst loading
  obtain ⟨counted, bound, filled⟩ := placed
  by_cases inside : i < count
  · obtain past | rfl | ahead := Nat.lt_trichotomy slot i
    · simp only [System.exporterThread, if_pos inside] at ran
      split at ran
      next => cases ran
      next name type metric here =>
        cases field with
        | value | sum | count | min =>
          obtain rfl := Option.some.inj ran
          exact drains_past sampled past past rfl
        | max =>
          obtain rfl := Option.some.inj ran
          exact drains_past sampled past (Nat.lt_succ_of_lt past) (shown_append sampled (filled ▸ past) _)
    · exact here_drains sampled rfl inside filled found ran
    · simp only [System.exporterThread, if_pos inside] at ran
      split at ran
      next => cases ran
      next name type metric here =>
        cases field with
        | value | sum | count | min =>
          obtain rfl := Option.some.inj ran
          exact drains_open sampled (taken_ahead sampled ahead) (taken_ahead sampled ahead)
        | max =>
          obtain rfl := Option.some.inj ran
          refine drains_open sampled (taken_ahead sampled ahead) (decide_eq_false ?_)
          simp only [rank]
          omega
  · simp only [System.exporterThread, if_neg inside] at ran
    obtain rfl := Option.some.inj ran
    obtain ⟨within, -⟩ := List.getElem?_eq_some_iff.mp found
    have past : slot < i := Nat.lt_of_lt_of_le (counted ▸ within) (Nat.not_lt.mp inside)
    exact drains_moved sampled (if_pos past).symm (decide_eq_true (.inl past)).symm

end Loading

section Resetting

variable {registry written : MetricRegistry} {calls : List Call} {exported : List (List MetricSnapshot)} {count i j : Nat}
  {field turned : Field} {change : MetricSlot → MetricSlot}

private theorem slotAt_modifySlot (wrote : registry.modifySlot i change = some written) :
    slotAt written slot = if i = slot then change (slotAt registry slot) else slotAt registry slot := by
  obtain ⟨metric, found, metrics⟩ := modifySlot_some wrote
  rw [slotAt, slotAt, metrics]
  by_cases same : i = slot
  · obtain rfl := same
    obtain ⟨inside, -⟩ := List.getElem?_eq_some_iff.mp found
    rw [if_pos rfl, found, List.getElem?_set_self inside]
  · rw [if_neg same, List.getElem?_set_ne same]

theorem drains_kept (wrote : registry.modifySlot i change = some written)
    (kept : i = slot → ∀ held, sampled.read (change held) = sampled.read held)
    (same : taken (.resetting count j turned) slot sampled = taken (.resetting count i field) slot sampled) :
    Drains slot sampled ⟨registry, calls, .resetting count i field, exported⟩
      ⟨written, calls, .resetting count j turned, exported⟩ := by
  have read : sampled.read (slotAt written slot) = sampled.read (slotAt registry slot) := by
    rw [slotAt_modifySlot wrote]
    split
    next here => exact kept here _
    next => rfl
  refine .quiet ?_ rfl
  rw [drainOf, same, read]
  rfl

private theorem drains_reset (wrote : registry.modifySlot slot change = some written) (cleared : ∀ held, sampled.read (change held) = 0)
    (before : taken (.resetting count slot field) slot sampled = true)
    (after : taken (.resetting count slot turned) slot sampled = false) :
    Drains slot sampled ⟨registry, calls, .resetting count slot field, exported⟩
      ⟨written, calls, .resetting count slot turned, exported⟩ := by
  refine .event .reset (fun _ => Drain.Event.noConfusion) ⟨before, rfl⟩ ?_ (.inr rfl)
  rw [drainOf, slotAt_modifySlot wrote, if_pos rfl, cleared, after]
  rfl

/-- A store of zero to a field that calls add to is the reset of that field, and
passes over the other one. -/
theorem drains_cleared (cleared : Sampled) (next : rank turned = rank cleared.field + 1)
    (wrote : registry.modifySlot i change = some written) (clears : ∀ held, cleared.read (change held) = 0)
    (keeps : ∀ other, other ≠ cleared → ∀ held, other.read (change held) = other.read held) :
    Drains slot sampled ⟨registry, calls, .resetting count i cleared.field, exported⟩
      ⟨written, calls, .resetting count i turned, exported⟩ := by
  by_cases here : i = slot
  · obtain rfl := here
    by_cases same : sampled = cleared
    · obtain rfl := same
      refine drains_reset sampled wrote clears ?_ ?_
      · exact (taken_resetting sampled).trans (decide_eq_true (Nat.le_refl _))
      · exact (taken_resetting sampled).trans (decide_eq_false (by omega))
    · have apart : rank sampled.field ≠ rank cleared.field := by
        intro equal
        cases sampled <;> cases cleared <;> first | exact same rfl | cases equal
      refine drains_kept sampled wrote (fun _ => keeps sampled same) ?_
      rw [taken_resetting, taken_resetting]
      exact decide_eq_decide.mpr (by omega)
  · exact drains_kept sampled wrote (fun at' => absurd at' here) (by simp [taken, here])

private theorem resetting_drains (resetting : system = ⟨registry, calls, .resetting count i field, exported⟩)
    (exporting : Exporting slot system) (ran : system.exporterThread = some next) : Drains slot sampled system next := by
  obtain ⟨⟨histogram, held, found⟩, placed⟩ := exporting
  subst resetting
  obtain ⟨counted, bound⟩ := placed
  by_cases inside : i < count
  · cases present : registry.metrics[i]? with
    | none =>
      simp only [System.exporterThread, if_pos inside, present] at ran
      cases ran
    | some metric =>
      simp only [System.exporterThread, if_pos inside, present] at ran
      cases field with
      | value =>
        by_cases resets : metric.type = .histogram
        · obtain rfl := Option.some.inj ((if_pos resets).symm.trans ran)
          refine drains_moved sampled rfl (decide_eq_decide.mpr ?_)
          cases sampled <;> simp [rank, Sampled.field]
        · have elsewhere : i ≠ slot := by
            rintro rfl
            obtain rfl := Option.some.inj (present.symm.trans found)
            exact resets rfl
          obtain rfl := Option.some.inj ((if_neg resets).symm.trans ran)
          refine drains_moved sampled rfl (decide_eq_decide.mpr ?_)
          simp only [rank]
          omega
      | sum =>
        obtain ⟨written, wrote, same⟩ := Option.bind_eq_some_iff.mp ran
        obtain rfl := Option.some.inj same
        refine drains_cleared sampled .sum rfl wrote (fun _ => rfl) fun other apart held => ?_
        cases other <;> first | exact absurd rfl apart | rfl
      | count =>
        obtain ⟨written, wrote, same⟩ := Option.bind_eq_some_iff.mp ran
        obtain rfl := Option.some.inj same
        refine drains_cleared sampled .count rfl wrote (fun _ => rfl) fun other apart held => ?_
        cases other <;> first | exact absurd rfl apart | rfl
      | min =>
        obtain ⟨written, wrote, same⟩ := Option.bind_eq_some_iff.mp ran
        obtain rfl := Option.some.inj same
        refine drains_kept sampled wrote (fun _ _ => by cases sampled <;> rfl) (decide_eq_decide.mpr ?_)
        cases sampled <;> simp [rank, Sampled.field]
      | max =>
        obtain ⟨written, wrote, same⟩ := Option.bind_eq_some_iff.mp ran
        obtain rfl := Option.some.inj same
        refine drains_kept sampled wrote (fun _ _ => by cases sampled <;> rfl) (decide_eq_decide.mpr ?_)
        cases sampled <;> simp only [rank, Sampled.field] <;> omega
  · simp only [System.exporterThread, if_neg inside] at ran
    obtain rfl := Option.some.inj ran
    obtain ⟨within, -⟩ := List.getElem?_eq_some_iff.mp found
    refine drains_moved sampled rfl (decide_eq_false ?_).symm
    have : slot < count := counted ▸ within
    omega

end Resetting

theorem exporter_drains (exporting : Exporting slot system) (ran : system.exporterThread = some next) :
    Drains slot sampled system next := by
  obtain ⟨registry, calls, exporter, exported⟩ := system
  cases exporter with
  | sleeping =>
    obtain rfl := Option.some.inj ran
    exact drains_moved sampled (pending_open sampled (by simp [taken, rank])) (by simp [taken, rank])
  | loading count i result snap field => exact loading_drains sampled rfl exporting ran
  | printing result =>
    obtain rfl := Option.some.inj ran
    refine .event .hand (fun _ => Drain.Event.noConfusion) rfl ?_ (.inl rfl)
    have sum : ((exported ++ [result]).map (shown slot sampled)).sum =
        (exported.map (shown slot sampled)).sum + shown slot sampled result := by
      rw [List.map_append, List.sum_append, List.map_singleton, List.sum_singleton]
    have still : taken (.resetting registry.metrics.length 0 .value) slot sampled = true := by
      apply decide_eq_true
      simp only [rank]
      omega
    rw [drainOf, sum, still]
    rfl
  | resetting count i field => exact resetting_drains sampled rfl exporting ran

end Exporter

section Turns

variable {system next : System} {slot : Nat}

theorem Exporting.write {i : Nat} {metric : Metric} {new : MetricSlot} (exporting : Exporting slot system)
    (present : system.registry.metrics[i]? = some metric)
    (metrics : next.registry.metrics = system.registry.metrics.set i { metric with slot := new })
    (placed : Placed system.registry.metrics.length next.exporter) : Exporting slot next := by
  obtain ⟨name, held, found⟩ := exporting.found
  refine ⟨⟨name, if i = slot then new else held, ?_⟩, ?_⟩
  · rw [metrics, set_at present found]
    split
    next same =>
      obtain rfl := same
      obtain rfl := Option.some.inj (present.symm.trans found)
      rfl
    next => rfl
  · rw [metrics, List.length_set]
    exact placed

theorem exporter_placed (placed : Placed system.registry.metrics.length system.exporter)
    (ran : system.exporterThread = some next) :
    (next.registry = system.registry ∨ ∃ i change, system.registry.modifySlot i change = some next.registry) ∧
      Placed system.registry.metrics.length next.exporter := by
  obtain ⟨registry, calls, exporter, exported⟩ := system
  cases exporter with
  | sleeping =>
    obtain rfl := Option.some.inj ran
    exact ⟨.inl rfl, rfl, Nat.zero_le _, rfl⟩
  | loading count i result snap field =>
    obtain ⟨counted, bound, filled⟩ := placed
    by_cases inside : i < count
    · simp only [System.exporterThread, if_pos inside] at ran
      split at ran
      next => cases ran
      next =>
        cases field with
        | value | sum | count | min =>
          obtain rfl := Option.some.inj ran
          exact ⟨.inl rfl, counted, bound, filled⟩
        | max =>
          obtain rfl := Option.some.inj ran
          exact ⟨.inl rfl, counted, inside, List.length_append.trans (congrArg (· + 1) filled)⟩
    · simp only [System.exporterThread, if_neg inside] at ran
      obtain rfl := Option.some.inj ran
      have whole : i = count := Nat.le_antisymm bound (Nat.not_lt.mp inside)
      exact ⟨.inl rfl, filled.trans (whole.trans counted)⟩
  | printing result =>
    obtain rfl := Option.some.inj ran
    exact ⟨.inl rfl, rfl, Nat.zero_le _⟩
  | resetting count i field =>
    obtain ⟨counted, bound⟩ := placed
    by_cases inside : i < count
    · simp only [System.exporterThread, if_pos inside] at ran
      split at ran
      next => cases ran
      next metric present =>
        cases field with
        | value =>
          by_cases resets : metric.type = .histogram
          · obtain rfl := Option.some.inj ((if_pos resets).symm.trans ran)
            exact ⟨.inl rfl, counted, bound⟩
          · obtain rfl := Option.some.inj ((if_neg resets).symm.trans ran)
            exact ⟨.inl rfl, counted, inside⟩
        | sum | count | min | max =>
          obtain ⟨written, wrote, same⟩ := Option.bind_eq_some_iff.mp ran
          obtain rfl := Option.some.inj same
          exact ⟨.inr ⟨i, _, wrote⟩, counted, by assumption⟩
    · simp only [System.exporterThread, if_neg inside] at ran
      obtain rfl := Option.some.inj ran
      exact ⟨.inl rfl, trivial⟩

theorem step_exporting {turn : Turn} (exporting : Exporting slot system) (ran : system.step turn = some next) :
    Exporting slot next := by
  cases step_stepped ran with
  | ignored outside => exact exporting
  | entered outside => exact ⟨exporting.found, exporting.placed⟩
  | valued outside valued =>
    obtain ⟨at', metric, value, present, metrics⟩ := valued.metrics
    exact exporting.write present metrics (valued.exporter ▸ exporting.placed)
  | advanced moved => exact exporting.write moved.found moved.metrics (moved.exporter ▸ exporting.placed)
  | exporter ran =>
    obtain ⟨same | ⟨i, change, wrote⟩, placed⟩ := exporter_placed exporting.placed ran
    · exact ⟨same ▸ exporting.found, same ▸ placed⟩
    · obtain ⟨metric, present, metrics⟩ := modifySlot_some wrote
      exact exporting.write present metrics placed

/-- The step adds to this field of the slot what no snapshot shows: the exporter
has loaded the field already and is about to reset it, or it overflows. -/
def Losing (slot : Nat) (sampled : Sampled) (system : System) : Turn → Prop
  | .advance index _ => ∃ call, system.calls[index]? = some call ∧ 0 < sampled.increment slot call ∧
      (taken system.exporter slot sampled = true ∨
        2 ^ 64 ≤ (sampled.read (slotAt system.registry slot)).toNat + sampled.increment slot call)
  | _ => False

/-- A turn is an event of the drain, and loses what the event loses. -/
structure Event (slot : Nat) (sampled : Sampled) (system : System) (turn : Turn) (next : System)
    (event : Drain.Event) : Prop where
  ordered : (drainOf slot sampled system).Ordered event
  stepped : drainOf slot sampled next = (drainOf slot sampled system).step (2 ^ 64) event
  loses : (drainOf slot sampled system).Loses (2 ^ 64) event ↔ Losing slot sampled system turn

variable {turn : Turn} (sampled : Sampled)

theorem register_fits (slot : Nat) (system : System) : (drainOf slot sampled system).register < 2 ^ 64 := UInt64.toNat_lt _

theorem event_quiet (outside : ∀ index spurious, turn ≠ .advance index spurious)
    (same : drainOf slot sampled next = drainOf slot sampled system) : Event slot sampled system turn next (.add 0) := by
  refine ⟨trivial, same.trans (Drain.step_none (register_fits sampled slot system)).symm, fun loses => ?_, fun losing => ?_⟩
  · exact absurd loses.1 (Nat.lt_irrefl 0)
  · cases turn with
    | advance index spurious => exact absurd rfl (outside index spurious)
    | recordHistogram | record | increment | setGauge | exporterThread => exact losing.elim

theorem slotAt_some {registry : MetricRegistry} {metric : Metric} (found : registry.metrics[slot]? = some metric) :
    slotAt registry slot = metric.slot := by
  rw [slotAt, found]

private theorem entered_same (at' : Nat) (value : UInt64) :
    drainOf slot sampled { system with calls := system.calls ++ [⟨at', value, .addCount⟩] } =
      drainOf slot sampled system := by
  rw [drainOf, tally_append, Sampled.amount_entered]
  rfl

private theorem valued_same (exporting : Exporting slot system) (valued : Valued system next) :
    drainOf slot sampled next = drainOf slot sampled system := by
  obtain ⟨⟨at', metric, value, present, metrics⟩, calls, exporter, exported⟩ := valued
  obtain ⟨name, held, found⟩ := exporting.found
  have read : sampled.read (slotAt next.registry slot) = sampled.read (slotAt system.registry slot) := by
    rw [slotAt, metrics, set_at present found, slotAt_some found]
    by_cases same : at' = slot
    · obtain rfl := same
      obtain rfl := Option.some.inj (present.symm.trans found)
      cases sampled <;> simp [Sampled.read]
    · simp [same]
  rw [drainOf, read, calls, exporter, exported]
  rfl

private theorem advanced_event {index : Nat} {spurious : Bool} {call : Call} {metric : Metric} (exporting : Exporting slot system)
    (moved : Advanced system index spurious call metric next) :
    Event slot sampled system (.advance index spurious) next (.add (sampled.increment slot call)) := by
  obtain ⟨name, held, found⟩ := exporting.found
  have register : (sampled.read (slotAt next.registry slot)).toNat =
      ((sampled.read (slotAt system.registry slot)).toNat + sampled.increment slot call) % 2 ^ 64 := by
    rw [slotAt, moved.metrics, set_at moved.found found, slotAt_some found]
    by_cases same : call.slot = slot
    · obtain rfl := same
      obtain rfl := Option.some.inj (moved.found.symm.trans found)
      simpa using sampled.read_advance call held spurious
    · rw [if_neg same, sampled.increment_elsewhere same]
      exact (Nat.mod_eq_of_lt (UInt64.toNat_lt _)).symm
  refine ⟨trivial, ?_, fun loses => ⟨call, moved.called, loses⟩, fun losing => ?_⟩
  · rw [drainOf, register, moved.amount, moved.exporter, moved.exported]
    rfl
  · obtain ⟨other, called, loses⟩ := losing
    obtain rfl := Option.some.inj (called.symm.trans moved.called)
    exact loses

theorem step_event (exporting : Exporting slot system) (ran : system.step turn = some next) :
    ∃ event, Event slot sampled system turn next event := by
  cases step_stepped ran with
  | ignored outside => exact ⟨_, event_quiet sampled outside rfl⟩
  | entered outside at' value => exact ⟨_, event_quiet sampled outside (entered_same sampled at' value)⟩
  | valued outside valued => exact ⟨_, event_quiet sampled outside (valued_same sampled exporting valued)⟩
  | advanced moved => exact ⟨_, advanced_event sampled exporting moved⟩
  | exporter ran =>
    cases exporter_drains sampled exporting ran with
    | quiet same => exact ⟨_, event_quiet sampled (fun _ _ => Turn.noConfusion) same⟩
    | event event drains ordered stepped =>
      refine ⟨event, ordered, stepped, fun loses => ?_, fun losing => losing.elim⟩
      cases event with
      | add amount => exact absurd rfl (drains amount)
      | load | hand | reset => exact loses.elim

end Turns

section Runs

variable {system state final : System} {slot : Nat} (sampled : Sampled)

structure Draining (slot : Nat) (sampled : Sampled) (system : System) : Prop where
  exporting : Exporting slot system
  within : (drainOf slot sampled system).Within

private theorem run_exact_iff {turns : List Turn} (exporting : Exporting slot system) (exactly : (drainOf slot sampled system).Exact)
    (ran : system.run turns = some final) : (drainOf slot sampled final).Exact ↔
      ∀ before turn after middle, turns = before ++ turn :: after → system.run before = some middle →
        ¬ Losing slot sampled middle turn := by
  have initial : Draining slot sampled system ∧ (drainOf slot sampled system).Exact :=
    ⟨⟨exporting, Nat.le_of_eq exactly⟩, exactly⟩
  apply Runs.foldlM_final_iff (fun system => (drainOf slot sampled system).Exact) initial ?_ ?_ ?_ ran
  · rintro state turn next stepped ⟨exporting, within⟩
    obtain ⟨event, turned⟩ := step_event sampled exporting stepped
    refine ⟨step_exporting exporting stepped, ?_⟩
    rw [turned.stepped]
    exact Drain.step_within turned.ordered within
  · rintro state turn next ⟨exporting, -⟩ stepped exactly
    obtain ⟨event, turned⟩ := step_event sampled exporting stepped
    rw [turned.stepped, Drain.step_exact (register_fits sampled slot state) turned.ordered exactly, turned.loses]
  · rintro state turn next ⟨exporting, within⟩ stepped inexact
    obtain ⟨event, turned⟩ := step_event sampled exporting stepped
    rw [turned.stepped]
    exact Drain.step_behind turned.ordered within inexact

/-- What the exporter alone keeps, until it has printed a snapshot. -/
structure Rounds (slot : Nat) (sampled : Sampled) (state system : System) : Prop where
  exporting : Exporting slot system
  added : (drainOf slot sampled system).added = (drainOf slot sampled state).added
  kept : (drainOf slot sampled system).handed + (drainOf slot sampled system).held =
    (drainOf slot sampled state).handed + (drainOf slot sampled state).held
  none : state.exported.length < system.exported.length → (drainOf slot sampled system).held = 0

private theorem rounds_kept {rounds : Nat} (exporting : Exporting slot state)
    (ran : state.run (List.replicate rounds .exporterThread) = some final) : Rounds slot sampled state final := by
  have start : Rounds slot sampled state state := ⟨exporting, rfl, rfl, fun more => absurd more (Nat.lt_irrefl _)⟩
  apply Runs.foldlM_preserves (Rounds slot sampled state) ?_ ran start
  intro system turn next present stepped earlier
  obtain rfl := List.eq_of_mem_replicate present
  have exporting := step_exporting earlier.exporting stepped
  cases exporter_drains sampled earlier.exporting stepped with
  | quiet same exported =>
    refine ⟨exporting, same ▸ earlier.added, same ▸ earlier.kept, fun more => ?_⟩
    rw [same]
    exact earlier.none (exported ▸ more)
  | event event drains ordered after exported =>
    obtain ⟨kept, added⟩ := Drain.step_keeps ordered drains
    refine ⟨exporting, ?_, ?_, fun more => ?_⟩
    · rw [after, added, earlier.added]
    · rw [after, kept, earlier.kept]
    · rw [after]
      by_cases hands : event = .hand
      · obtain rfl := hands
        exact Drain.hand_held ordered
      · rw [Drain.step_held ordered drains hands]
        exact earlier.none (exported.resolve_left hands ▸ more)

end Runs

/-- What the snapshots show of a field in the end, once a snapshot follows the
last call. -/
theorem shown_iff {registry : MetricRegistry} {slot : Nat} {name : String} {turns : List Turn} {rounds : Nat}
    {state final : System} (empty : registry.metrics[slot]? = some { name, type := .histogram })
    (ran : System.run { registry } turns = some state)
    (finished : ∀ call ∈ state.calls, call.slot = slot → call.place = .finished)
    (last : state.run (List.replicate rounds .exporterThread) = some final)
    (printed : state.exported.length < final.exported.length) (sampled : Sampled) :
    (final.exported.map (shown slot sampled)).sum = ((valuesOn state.calls slot).map sampled.worth).sum ↔
      ∀ before turn after middle, turns = before ++ turn :: after → System.run { registry } before = some middle →
        ¬ Losing slot sampled middle turn := by
  have exporting : Exporting slot { registry } := ⟨⟨name, {}, empty⟩, trivial⟩
  have start : (drainOf slot sampled { registry }).Exact := by
    have nothing : (sampled.read (slotAt registry slot)).toNat = 0 := by
      rw [slotAt_some empty]
      cases sampled <;> rfl
    rw [Drain.Exact, Drain.held_open rfl, drainOf, nothing]
    rfl
  have reached : Exporting slot state :=
    Runs.foldlM_preserves (Exporting slot) (fun _ _ _ _ stepped exporting => step_exporting exporting stepped) ran exporting
  have after := rounds_kept sampled reached last
  have all : (drainOf slot sampled state).added = ((valuesOn state.calls slot).map sampled.worth).sum :=
    tally_finished finished sampled
  have handed : (final.exported.map (shown slot sampled)).sum =
      (drainOf slot sampled state).handed + (drainOf slot sampled state).held := by
    have kept := after.kept
    rw [after.none printed] at kept
    exact kept
  rw [← run_exact_iff sampled exporting start ran, Drain.Exact, handed, all]

/-- The snapshots show each recorded value once exactly when no step of a call
falls between the load and the reset of what it adds to, and no field overflows. -/
theorem exported_iff {registry : MetricRegistry} {slot : Nat} {name : String} {turns : List Turn} {rounds : Nat}
    {state final : System} (empty : registry.metrics[slot]? = some { name, type := .histogram })
    (ran : System.run { registry } turns = some state)
    (finished : ∀ call ∈ state.calls, call.slot = slot → call.place = .finished)
    (last : state.run (List.replicate rounds .exporterThread) = some final)
    (printed : state.exported.length < final.exported.length) :
    ((final.exported.map (shown slot .count)).sum = (valuesOn state.calls slot).length ∧
        (final.exported.map (shown slot .sum)).sum = ((valuesOn state.calls slot).map UInt64.toNat).sum) ↔
      ∀ before turn after middle, turns = before ++ turn :: after → System.run { registry } before = some middle →
        ∀ sampled, ¬ Losing slot sampled middle turn := by
  have counts := shown_iff empty ran finished last printed .count
  have sums := shown_iff empty ran finished last printed .sum
  rw [Sampled.worth_count] at counts
  constructor
  · rintro ⟨count, sum⟩ before turn after middle split reached sampled
    cases sampled with
    | sum => exact sums.mp sum before turn after middle split reached
    | count => exact counts.mp count before turn after middle split reached
  · intro none
    constructor
    · exact counts.mpr fun before turn after middle split reached => none before turn after middle split reached .count
    · exact sums.mpr fun before turn after middle split reached => none before turn after middle split reached .sum

theorem exported_iff_race : ∃ final,
    System.run { registry := registered } (race ++ List.replicate 26 .exporterThread) = some final ∧
      (final.exported.map (shown 1 .count)).sum = 2 ∧ (final.exported.map (shown 1 .sum)).sum = 8 ∧
      ∀ before turn after middle, race = before ++ turn :: after →
        System.run { registry := registered } before = some middle → ∀ sampled, ¬ Losing 1 sampled middle turn := by
  have given : ∃ state final, System.run { registry := registered } race = some state ∧
      state.run (List.replicate 26 .exporterThread) = some final ∧
        (∀ call ∈ state.calls, call.slot = 1 → call.place = .finished) ∧ state.exported.length < final.exported.length ∧
          (final.exported.map (shown 1 .count)).sum = 2 ∧ (final.exported.map (shown 1 .sum)).sum = 8 :=
    ⟨_, _, rfl, rfl, by decide, by decide, rfl, rfl⟩
  obtain ⟨state, final, ran, last, finished, printed, count, sum⟩ := given
  have values : valuesOn state.calls 1 = [5, 3] := (run_valuesOn ran 1).trans rfl
  have empty : registered.metrics[1]? = some { name := "latency.processing_us", type := .histogram } := rfl
  refine ⟨final, ?_, count, sum, (exported_iff empty ran finished last printed).mp ⟨?_, ?_⟩⟩
  · rw [System.run, List.foldlM_append]
    exact (congrArg (· >>= _) ran).trans last
  · rw [values, count]
    rfl
  · rw [values, sum]
    rfl

/-- The exporter prints a snapshot, a call records 5, and the exporter resets. -/
def late : List Turn :=
  List.replicate 18 .exporterThread ++ .recordHistogram ⟨1, .histogram, some 1⟩ 5 :: List.replicate 6 (.advance 0 false) ++
    List.replicate 8 .exporterThread

/-- The value is in no snapshot. -/
theorem late_value_lost : ∃ state final, System.run { registry := registered } late = some state ∧
    (∀ call ∈ state.calls, call.place = .finished) ∧ state.exporter = .sleeping ∧
    state.run (List.replicate 18 .exporterThread) = some final ∧ state.exported.length < final.exported.length ∧
    valuesOn state.calls 1 = [5] ∧ (final.exported.map (shown 1 .count)).sum = 0 ∧
    (final.exported.map (shown 1 .sum)).sum = 0 :=
  ⟨_, _, rfl, by decide, rfl, rfl, by decide, rfl, rfl, rfl⟩

end FinanceTech.Proofs.MetricsExport
