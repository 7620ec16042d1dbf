import Mathlib.Data.List.Induction

/-! Runs of a system that takes one event at a time, as folds of its step
function. An invariant is proved for one step and holds after every run; for a
step that can fail, it also shows that no run does. -/

namespace FinanceTech.Library.Runs

universe u v

variable {σ : Type u} {ε : Type v}

theorem foldl_preserves {step : σ → ε → σ} {invariant : σ → Prop}
    (preserves : ∀ state event, invariant state → invariant (step state event))
    (events : List ε) {state : σ} (initial : invariant state) : invariant (events.foldl step state) := by
  induction events generalizing state with
  | nil => exact initial
  | cons event rest ih => exact ih (preserves state event initial)

/-- The same of a system that skips the events it cannot take. -/
theorem foldl_getD_preserves {step : σ → ε → Option σ} {invariant : σ → Prop}
    (preserves : ∀ state event next, invariant state → step state event = some next → invariant next)
    (events : List ε) {state : σ} (initial : invariant state) :
    invariant (events.foldl (fun state event => (step state event).getD state) state) := by
  refine foldl_preserves (fun state event kept => ?_) events initial
  cases taken : step state event with
  | none => exact kept
  | some next => exact preserves state event next kept taken

/-- Two systems that stay related step by step stay related over every run. -/
theorem foldl_simulates {τ : Type*} {step : σ → ε → σ} {spec : τ → ε → τ} {related : σ → τ → Prop}
    (simulates : ∀ state abstract event, related state abstract → related (step state event) (spec abstract event))
    (events : List ε) {state : σ} {abstract : τ} (initial : related state abstract) :
    related (events.foldl step state) (events.foldl spec abstract) := by
  induction events generalizing state abstract with
  | nil => exact initial
  | cons event rest ih => exact ih (simulates state abstract event initial)

theorem foldlM_succeeds {step : σ → ε → Option σ} {invariant : σ → Prop}
    (progress : ∀ state event, invariant state → ∃ next, step state event = some next ∧ invariant next)
    (events : List ε) {state : σ} (initial : invariant state) :
    ∃ final, events.foldlM step state = some final ∧ invariant final := by
  induction events generalizing state with
  | nil => exact ⟨state, rfl, initial⟩
  | cons event rest ih =>
    obtain ⟨next, moved, kept⟩ := progress state event initial
    obtain ⟨final, reached, holds⟩ := ih kept
    refine ⟨final, ?_, holds⟩
    rw [List.foldlM_cons, moved]
    exact reached

/-- Two systems that step together from related states run together. -/
theorem foldlM_simulates {τ : Type u} {step : σ → ε → Option σ} {spec : τ → ε → Option τ} {related : σ → τ → Prop}
    (simulates : ∀ state abstract event, related state abstract →
      ∃ next after, step state event = some next ∧ spec abstract event = some after ∧ related next after)
    (events : List ε) {state : σ} {abstract : τ} (initial : related state abstract) :
    ∃ final last, events.foldlM step state = some final ∧ events.foldlM spec abstract = some last ∧ related final last := by
  induction events generalizing state abstract with
  | nil => exact ⟨state, abstract, rfl, rfl, initial⟩
  | cons event rest ih =>
    obtain ⟨next, after, moved, followed, kept⟩ := simulates state abstract event initial
    obtain ⟨final, last, reached, arrived, holds⟩ := ih kept
    refine ⟨final, last, ?_, ?_, holds⟩
    · rw [List.foldlM_cons, moved]
      exact reached
    · rw [List.foldlM_cons, followed]
      exact arrived

/-- A run of steps that can fail follows a total specification. -/
theorem foldlM_follows {τ : Type*} {step : σ → ε → Option σ} {spec : τ → ε → τ} {related : σ → τ → Prop}
    (simulates : ∀ state abstract event, related state abstract →
      ∃ next, step state event = some next ∧ related next (spec abstract event))
    (events : List ε) {state : σ} {abstract : τ} (initial : related state abstract) :
    ∃ final, events.foldlM step state = some final ∧ related final (events.foldl spec abstract) := by
  induction events generalizing state abstract with
  | nil => exact ⟨state, rfl, initial⟩
  | cons event rest ih =>
    obtain ⟨next, moved, kept⟩ := simulates state abstract event initial
    obtain ⟨final, reached, holds⟩ := ih kept
    refine ⟨final, ?_, holds⟩
    rw [List.foldlM_cons, moved]
    exact reached

/-- A run that got to the end got through every part of it. -/
theorem foldlM_append_some {step : σ → ε → Option σ} {before after : List ε} {state final : σ}
    (ran : (before ++ after).foldlM step state = some final) :
    ∃ middle, before.foldlM step state = some middle ∧ after.foldlM step middle = some final := by
  rw [List.foldlM_append, Option.bind_eq_bind, Option.bind_eq_some_iff] at ran
  exact ran

/-- The last step of a run. -/
theorem foldlM_concat_some {step : σ → ε → Option σ} {before : List ε} {state middle : σ}
    (ran : before.foldlM step state = some middle) (event : ε) : (before ++ [event]).foldlM step state = step middle event := by
  rw [List.foldlM_append, ran]
  exact (Option.bind_some _ _).trans (bind_pure _)

theorem concat_prefix_iff {before events : List ε} {event : ε} :
    before ++ [event] <+: events ↔ ∃ after, events = before ++ event :: after := by
  refine exists_congr fun after => ?_
  rw [List.append_assoc, List.singleton_append, eq_comm]

/-! ### What holds at each step of a run -/

/-- What holds of every event at the state it is applied to. -/
def AtEveryStep (step : σ → ε → σ) (holds : σ → ε → Prop) (state : σ) : List ε → Prop
  | [] => True
  | event :: rest => holds state event ∧ AtEveryStep step holds (step state event) rest

variable {step : σ → ε → σ} {holds : σ → ε → Prop} {state : σ}

instance AtEveryStep.decidable [∀ state event, Decidable (holds state event)] (state : σ) :
    (events : List ε) → Decidable (AtEveryStep step holds state events)
  | [] => .isTrue trivial
  | event :: rest =>
    have := decidable (step state event) rest
    inferInstanceAs (Decidable (_ ∧ _))

theorem atEveryStep_iff (events : List ε) : AtEveryStep step holds state events ↔
    ∀ before event after, events = before ++ event :: after → holds (before.foldl step state) event := by
  induction events generalizing state with
  | nil =>
    refine ⟨fun _ before event after split => ?_, fun _ => trivial⟩
    simp at split
  | cons first rest ih =>
    constructor
    · rintro ⟨now, later⟩ before event after split
      cases before with
      | nil =>
        obtain ⟨rfl, -⟩ := List.cons.inj split
        exact now
      | cons head tail =>
        obtain ⟨rfl, remains⟩ := List.cons.inj split
        exact ih.mp later tail event after remains
    · intro everywhere
      refine ⟨everywhere [] first rest rfl, ih.mpr fun before event after split => ?_⟩
      exact everywhere (first :: before) event after (congrArg (first :: ·) split)

theorem atEveryStep_append (first second : List ε) : AtEveryStep step holds state (first ++ second) ↔
    AtEveryStep step holds state first ∧ AtEveryStep step holds (first.foldl step state) second := by
  induction first generalizing state with
  | nil => exact ⟨fun all => ⟨trivial, all⟩, fun both => both.2⟩
  | cons event rest ih =>
    constructor
    · rintro ⟨now, later⟩
      obtain ⟨left, right⟩ := ih.mp later
      exact ⟨⟨now, left⟩, right⟩
    · rintro ⟨⟨now, left⟩, right⟩
      exact ⟨now, ih.mpr ⟨left, right⟩⟩

theorem AtEveryStep.of_prefix {before events : List ε} (every : AtEveryStep step holds state events) (inside : before <+: events) :
    AtEveryStep step holds state before := by
  obtain ⟨rest, rfl⟩ := inside
  exact ((atEveryStep_append before rest).mp every).1

/-- An invariant that the guarded steps keep holds after every guarded run. -/
theorem guarded_preserves (invariant : σ → Prop)
    (preserves : ∀ state event, invariant state → holds state event → invariant (step state event))
    {events : List ε} (guarded : AtEveryStep step holds state events) (initial : invariant state) :
    invariant (events.foldl step state) := by
  induction events generalizing state with
  | nil => exact initial
  | cons event rest ih => exact ih guarded.2 (preserves state event initial guarded.1)

/-- An invariant that a step keeps exactly when a guard holds of its event
holds throughout a run exactly when the guard holds at every step. -/
theorem throughout_iff (invariant : σ → Prop)
    (exact : ∀ state event, invariant state → (invariant (step state event) ↔ holds state event))
    (events : List ε) (initial : invariant state) :
    (∀ before, before <+: events → invariant (before.foldl step state)) ↔ AtEveryStep step holds state events := by
  constructor
  · intro always
    apply (atEveryStep_iff events).mpr
    rintro before event after rfl
    have here := always before (List.prefix_append _ _)
    have next := always (before ++ [event]) ⟨after, by rw [List.append_assoc, List.singleton_append]⟩
    rw [List.foldl_append] at next
    exact (exact _ event here).mp next
  · intro guarded before inside
    refine guarded_preserves invariant ?_ (guarded.of_prefix inside) initial
    exact fun state event holding guard => (exact state event holding).mpr guard

/-! ### Runs of a step that can fail -/

section Fails

variable {step : σ → ε → Option σ} {holds : σ → ε → Prop} {state : σ}

/-- What holds of every event at the state it is applied to, as far as a run
gets. -/
def AtEveryStepM (step : σ → ε → Option σ) (holds : σ → ε → Prop) (state : σ) : List ε → Prop
  | [] => True
  | event :: rest => holds state event ∧ (step state event).elim True fun next => AtEveryStepM step holds next rest

instance AtEveryStepM.decidable [∀ state event, Decidable (holds state event)] (state : σ) :
    (events : List ε) → Decidable (AtEveryStepM step holds state events)
  | [] => .isTrue trivial
  | event :: rest =>
    have : Decidable ((step state event).elim True fun next => AtEveryStepM step holds next rest) :=
      match step state event with
      | none => .isTrue trivial
      | some next => decidable next rest
    inferInstanceAs (Decidable (_ ∧ _))

theorem atEveryStepM_iff (events : List ε) : AtEveryStepM step holds state events ↔
    ∀ before event after middle, events = before ++ event :: after → before.foldlM step state = some middle →
      holds middle event := by
  induction events generalizing state with
  | nil =>
    refine ⟨fun _ before event after middle split => ?_, fun _ => trivial⟩
    simp at split
  | cons first rest ih =>
    constructor
    · rintro ⟨now, later⟩ before event after middle split reached
      cases before with
      | nil =>
        obtain ⟨rfl, -⟩ := List.cons.inj split
        exact Option.some.inj reached ▸ now
      | cons head tail =>
        obtain ⟨rfl, remains⟩ := List.cons.inj split
        rw [List.foldlM_cons, Option.bind_eq_bind, Option.bind_eq_some_iff] at reached
        obtain ⟨next, moved, continued⟩ := reached
        rw [moved] at later
        exact ih.mp later tail event after middle remains continued
    · intro everywhere
      refine ⟨everywhere [] first rest state rfl rfl, ?_⟩
      cases moved : step state first with
      | none => trivial
      | some next =>
        refine ih.mpr fun before event after middle split reached => ?_
        refine everywhere (first :: before) event after middle (congrArg (first :: ·) split) ?_
        rw [List.foldlM_cons, moved]
        exact reached

theorem atEveryStepM_concat {before : List ε} {event : ε} {middle : σ} (ran : before.foldlM step state = some middle) :
    AtEveryStepM step holds state (before ++ [event]) ↔ AtEveryStepM step holds state before ∧ holds middle event := by
  induction before generalizing state with
  | nil =>
    cases ran
    constructor
    · exact fun both => ⟨trivial, both.1⟩
    · refine fun both => ⟨both.2, ?_⟩
      cases step middle event <;> trivial
  | cons first rest ih =>
    rw [List.foldlM_cons, Option.bind_eq_bind, Option.bind_eq_some_iff] at ran
    obtain ⟨next, moved, continued⟩ := ran
    simp only [List.cons_append, AtEveryStepM, moved, Option.elim_some, ih continued, and_assoc]

theorem AtEveryStepM.of_prefix {before events : List ε} (every : AtEveryStepM step holds state events)
    (inside : before <+: events) : AtEveryStepM step holds state before := by
  obtain ⟨rest, rfl⟩ := inside
  rw [atEveryStepM_iff] at every ⊢
  rintro first event after middle rfl reached
  exact every first event (after ++ rest) middle (List.append_assoc _ _ _) reached

theorem AtEveryStepM.imp {other : σ → ε → Prop} {invariant : σ → Prop}
    (implies : ∀ state event, invariant state → holds state event → other state event)
    (progress : ∀ state event next, invariant state → holds state event → step state event = some next → invariant next)
    {events : List ε} (every : AtEveryStepM step holds state events) (initial : invariant state) :
    AtEveryStepM step other state events := by
  induction events generalizing state with
  | nil => trivial
  | cons event rest ih =>
    obtain ⟨now, later⟩ := every
    refine ⟨implies state event initial now, ?_⟩
    cases moved : step state event with
    | none => trivial
    | some next =>
      rw [moved] at later
      exact ih later (progress state event next initial now moved)

/-- Guarded steps that succeed and keep an invariant make a run that does. -/
theorem guardedM_succeeds {invariant : σ → Prop}
    (progress : ∀ state event, invariant state → holds state event → ∃ next, step state event = some next ∧ invariant next)
    {events : List ε} (guarded : AtEveryStepM step holds state events) (initial : invariant state) :
    ∃ final, events.foldlM step state = some final ∧ invariant final := by
  induction events generalizing state with
  | nil => exact ⟨state, rfl, initial⟩
  | cons event rest ih =>
    obtain ⟨now, later⟩ := guarded
    obtain ⟨next, moved, kept⟩ := progress state event initial now
    rw [moved] at later
    obtain ⟨final, reached, last⟩ := ih later kept
    refine ⟨final, ?_, last⟩
    rw [List.foldlM_cons, moved]
    exact reached

/-! ### Invariants that know what came -/

section History

variable {guard : σ → ε → Prop} {invariant : List ε → σ → Prop} {events : List ε}

/-- Guarded steps that keep an invariant of the events so far and the state. -/
theorem history_holds
    (keeps : ∀ before event middle, before ++ [event] <+: events → before.foldlM step state = some middle → invariant before middle →
      guard middle event → ∃ next, step middle event = some next ∧ invariant (before ++ [event]) next)
    (guarded : AtEveryStepM step guard state events) (initial : invariant [] state) :
    ∀ before, before <+: events → ∃ final, before.foldlM step state = some final ∧ invariant before final := by
  intro before
  induction before using List.reverseRecOn with
  | nil => exact fun _ => ⟨state, rfl, initial⟩
  | append_singleton before event ih =>
    intro inside
    obtain ⟨middle, ran, kept⟩ := ih ((List.prefix_append before [event]).trans inside)
    obtain ⟨after, split⟩ := concat_prefix_iff.mp inside
    have now := (atEveryStepM_iff events).mp guarded before event after middle split ran
    obtain ⟨next, moved, holding⟩ := keeps before event middle inside ran kept now
    exact ⟨next, (foldlM_concat_some ran event).trans moved, holding⟩

/-- What every step that succeeds keeps, knowing the steps before it. -/
theorem foldlM_records {final : σ}
    (keeps : ∀ before event middle next, before.foldlM step state = some middle → invariant before middle →
      step middle event = some next → invariant (before ++ [event]) next)
    (initial : invariant [] state) (ran : events.foldlM step state = some final) : invariant events final := by
  induction events using List.reverseRecOn generalizing final with
  | nil => exact Option.some.inj ran ▸ initial
  | append_singleton before event ih =>
    obtain ⟨middle, here, -⟩ := foldlM_append_some ran
    rw [foldlM_concat_some here] at ran
    exact keeps before event middle final here (ih here) ran

/-- When the first event that the guard fails of shows, everything that a run
returns is good exactly when the guard holds at every step. -/
theorem history_iff (good : List ε → Option σ → Prop) (shows : ∀ before middle, invariant before middle → good before (some middle))
    (keeps : ∀ before event middle, before ++ [event] <+: events → before.foldlM step state = some middle → invariant before middle →
      guard middle event → ∃ next, step middle event = some next ∧ invariant (before ++ [event]) next)
    (tells : ∀ before event middle, before ++ [event] <+: events → before.foldlM step state = some middle → invariant before middle →
      good (before ++ [event]) (step middle event) → guard middle event)
    (initial : invariant [] state) :
    (∀ before, before <+: events → good before (before.foldlM step state)) ↔ AtEveryStepM step guard state events := by
  constructor
  · intro always
    have told : ∀ before event middle, before ++ [event] <+: events → before.foldlM step state = some middle →
        invariant before middle → guard middle event := by
      intro before event middle inside ran kept
      have outcome := always _ inside
      rw [foldlM_concat_some ran] at outcome
      exact tells before event middle inside ran kept outcome
    have reached : ∀ before middle, before <+: events → before.foldlM step state = some middle → invariant before middle := by
      intro before
      induction before using List.reverseRecOn with
      | nil => exact fun middle _ ran => Option.some.inj ran ▸ initial
      | append_singleton before event ih =>
        intro final inside ran
        obtain ⟨middle, here, -⟩ := foldlM_append_some ran
        have kept := ih middle ((List.prefix_append before [event]).trans inside) here
        obtain ⟨next, moved, holding⟩ := keeps before event middle inside here kept (told before event middle inside here kept)
        have same := ran.symm.trans ((foldlM_concat_some here event).trans moved)
        exact Option.some.inj same ▸ holding
    refine (atEveryStepM_iff events).mpr fun before event after middle split ran => ?_
    have inside := concat_prefix_iff.mpr ⟨after, split⟩
    exact told before event middle inside ran (reached before middle ((List.prefix_append before [event]).trans inside) ran)
  · intro guarded before inside
    obtain ⟨final, ran, kept⟩ := history_holds keeps guarded initial before inside
    rw [ran]
    exact shows before final kept

end History

/-- What the invariant shows is there throughout an allowed run, which always goes
on, exactly when the guard holds at every step. -/
theorem guardedM_shown_iff {invariant : σ → Prop} (shown : σ → Prop) {guard : σ → ε → Prop}
    (shows : ∀ state, invariant state → shown state)
    (progress : ∀ state event, invariant state → holds state event →
      ∃ next, step state event = some next ∧ (guard state event → invariant next) ∧ (shown next → guard state event))
    {events : List ε} (allowed : AtEveryStepM step holds state events) (initial : invariant state) :
    (∀ before middle, before <+: events → before.foldlM step state = some middle → shown middle) ↔
      AtEveryStepM step guard state events := by
  have onwards : ∀ before event middle, before ++ [event] <+: events → before.foldlM step state = some middle → invariant middle →
      ∃ next, step middle event = some next ∧ (guard middle event → invariant next) ∧ (shown next → guard middle event) := by
    intro before event middle inside ran kept
    obtain ⟨after, split⟩ := concat_prefix_iff.mp inside
    exact progress middle event kept ((atEveryStepM_iff events).mp allowed before event after middle split ran)
  rw [← @history_iff _ _ step state guard (fun _ => invariant) events (fun _ result => ∀ middle, result = some middle → shown middle)]
  · exact ⟨fun always before inside middle => always before middle inside, fun always before middle inside => always before inside middle⟩
  · intro _ middle kept final same
    exact Option.some.inj same ▸ shows middle kept
  · intro before event middle inside ran kept guarding
    obtain ⟨next, moved, keeps, -⟩ := onwards before event middle inside ran kept
    exact ⟨next, moved, keeps guarding⟩
  · intro before event middle inside ran kept good
    obtain ⟨next, moved, -, tells⟩ := onwards before event middle inside ran kept
    exact tells (good next moved)
  · exact initial

/-- Inside a background that allowed steps keep, an invariant that they keep
exactly when a guard holds of their event holds throughout an allowed run
exactly when the guard holds at every step. -/
theorem guardedM_throughout_iff {background : σ → Prop} (invariant : σ → Prop) {guard : σ → ε → Prop}
    (progress : ∀ state event, background state → holds state event →
      ∃ next, step state event = some next ∧ background next ∧ (invariant state → (invariant next ↔ guard state event)))
    {events : List ε} (guarded : AtEveryStepM step holds state events) (start : background state) (initial : invariant state) :
    (∀ before middle, before <+: events → before.foldlM step state = some middle → invariant middle) ↔
      AtEveryStepM step guard state events := by
  have shows : ∀ state, background state ∧ invariant state → invariant state := fun _ both => both.2
  refine guardedM_shown_iff invariant shows (fun state event both now => ?_) guarded ⟨start, initial⟩
  obtain ⟨next, moved, kept, exact⟩ := progress state event both.1 now
  exact ⟨next, moved, fun guarding => ⟨kept, (exact both.2).mpr guarding⟩, (exact both.2).mp⟩

end Fails

/-- Inside a background that every reached state is in, an invariant that a step
keeps exactly when a guard holds of its event holds throughout a run exactly when
the guard holds at every step. -/
theorem foldlM_throughout_iff {step : σ → ε → Option σ} {background : σ → Prop} (invariant : σ → Prop) {guard : σ → ε → Prop}
    {events : List ε} {state : σ} (initial : invariant state)
    (reached : ∀ before, before <+: events → ∃ middle, before.foldlM step state = some middle ∧ background middle)
    (exact : ∀ state event next, background state → background next → step state event = some next →
      invariant state → (invariant next ↔ guard state event)) :
    (∀ before middle, before <+: events → before.foldlM step state = some middle → invariant middle) ↔
      ∀ before event after middle, events = before ++ event :: after → before.foldlM step state = some middle →
        guard middle event := by
  have onwards : ∀ before event middle, before ++ [event] <+: events → before.foldlM step state = some middle →
      ∃ next, step middle event = some next ∧ background next := by
    intro before event middle inside ran
    obtain ⟨next, last, outside⟩ := reached _ inside
    exact ⟨next, (foldlM_concat_some ran event).symm.trans last, outside⟩
  rw [← atEveryStepM_iff, ← @history_iff _ _ step state guard (fun _ middle => background middle ∧ invariant middle) events
    (fun _ result => ∀ middle, result = some middle → invariant middle)]
  · exact ⟨fun always before inside middle => always before middle inside, fun always before middle inside => always before inside middle⟩
  · intro _ middle kept final same
    exact Option.some.inj same ▸ kept.2
  · intro before event middle inside ran kept guarding
    obtain ⟨next, moved, outside⟩ := onwards before event middle inside ran
    exact ⟨next, moved, outside, (exact middle event next kept.1 outside moved kept.2).mpr guarding⟩
  · intro before event middle inside ran kept good
    obtain ⟨next, moved, outside⟩ := onwards before event middle inside ran
    exact (exact middle event next kept.1 outside moved kept.2).mp (good next moved)
  · obtain ⟨middle, ran, inside⟩ := reached [] List.nil_prefix
    exact ⟨Option.some.inj ran ▸ inside, initial⟩

theorem foldlM_preserves {step : σ → ε → Option σ} {events : List ε} {state final : σ} (invariant : σ → Prop)
    (preserves : ∀ state event next, event ∈ events → step state event = some next → invariant state → invariant next)
    (ran : events.foldlM step state = some final) (initial : invariant state) : invariant final := by
  induction events generalizing state with
  | nil => exact Option.some.inj ran ▸ initial
  | cons event rest ih =>
    rw [List.foldlM_cons, Option.bind_eq_bind, Option.bind_eq_some_iff] at ran
    obtain ⟨next, moved, later⟩ := ran
    refine ih ?_ later (preserves state event next List.mem_cons_self moved initial)
    exact fun state event next member => preserves state event next (List.mem_cons_of_mem _ member)

/-- When a lost invariant never comes back, it holds at the end of a run exactly
when every step keeps it. -/
theorem foldlM_final_iff {step : σ → ε → Option σ} {background : σ → Prop} (invariant : σ → Prop) {guard : σ → ε → Prop}
    {events : List ε} {state final : σ} (initial : background state ∧ invariant state)
    (kept : ∀ state event next, step state event = some next → background state → background next)
    (exact : ∀ state event next, background state → step state event = some next → invariant state →
      (invariant next ↔ guard state event))
    (gone : ∀ state event next, background state → step state event = some next → ¬ invariant state → ¬ invariant next)
    (ran : events.foldlM step state = some final) :
    invariant final ↔ ∀ before event after middle, events = before ++ event :: after → before.foldlM step state = some middle →
      guard middle event := by
  have within : ∀ (before : List ε) (middle : σ), before.foldlM step state = some middle → background middle := fun before middle reached =>
    foldlM_preserves background (fun state event next _ => kept state event next) reached initial.1
  rw [← foldlM_throughout_iff invariant initial.2 ?_ fun state event next inside _ => exact state event next inside]
  · constructor
    · rintro last before middle ⟨after, rfl⟩ reached
      obtain ⟨same, here, there⟩ := foldlM_append_some ran
      obtain rfl := Option.some.inj (reached.symm.trans here)
      by_contra broken
      have stays := foldlM_preserves (fun state => background state ∧ ¬ invariant state)
        (fun state event next _ moved both => ⟨kept state event next moved both.1, gone state event next both.1 moved both.2⟩)
        there ⟨within before middle reached, broken⟩
      exact stays.2 last
    · exact fun always => always events final (List.prefix_refl _) ran
  · rintro before ⟨after, rfl⟩
    obtain ⟨middle, here, -⟩ := foldlM_append_some ran
    exact ⟨middle, here, within before middle here⟩

end FinanceTech.Library.Runs
