import FinanceTech.Library.Runs
import FinanceTech.ExchangeBookKeeper

/-! The pointers that the connector hands to the keeper of the books. The keeper
gets each message once and in order exactly as long as it is never a whole round of
buffers behind when the connector clears the next one. -/

namespace FinanceTech.Proofs.BufferHandOver
open List Library RingWindow TradingSystem

variable {μ Price Quantity : Type} [LinearOrder Price] [Zero Quantity] [DecidableEq Quantity]

abbrev rounds : Nat := bufferSize.toNat

private theorem bufferOf_eq (counter : Nat) : bufferOf counter = counter % rounds := by
  have power : PowerOfTwo bufferSize := by decide
  have masked := toNat_mask power counter.toUInt32
  rw [bufferOf, fast_modulo, ← mask, masked, Nat.toUInt32, UInt32.toNat_ofNat', Nat.mod_mod_of_dvd _ (by decide)]

/-- Where the messages in the buffers are that have not been parsed. -/
structure Valid (pipeline : Pipeline μ Price Quantity) : Prop where
  buffers : pipeline.buffers.length = rounds
  behind : pipeline.parsed.length ≤ pipeline.received.length
  counter : pipeline.counter = pipeline.received.length
  pointers : pipeline.dataWrapper.toList ++ pipeline.queue = (range' pipeline.parsed.length pipeline.lag).map bufferOf
  filled : ∀ message, pipeline.connector = .filled message → pipeline.buffers[bufferOf pipeline.counter]? = some (some message)

/-- The messages that the keeper has still to parse are in their buffers. -/
def Intact (pipeline : Pipeline μ Price Quantity) : Prop :=
  Window rounds pipeline.buffers (pipeline.received.map some) pipeline.parsed.length

/-- The keeper has parsed the messages in order, each once. -/
structure UpToDate (decode : μ → Option (Payload Price Quantity)) (pipeline : Pipeline μ Price Quantity) : Prop where
  intact : Intact pipeline
  near : pipeline.connector ≠ .outside → pipeline.lag < rounds
  parsed : pipeline.parsed = (pipeline.received.take pipeline.parsed.length).map some
  keeper : pipeline.keeper = (pipeline.received.take pipeline.parsed.length).foldlM
    (fun keeper message => keeper.process (decode message)) ExchangeBookKeeper.create

variable {decode : μ → Option (Payload Price Quantity)} {pipeline : Pipeline μ Price Quantity}

omit [Zero Quantity] [DecidableEq Quantity] in
theorem initial_valid : Valid ({} : Pipeline μ Price Quantity) :=
  ⟨length_replicate, Nat.le_refl 0, rfl, rfl, fun _ filled => by cases filled⟩

private theorem initial_upToDate : UpToDate decode ({} : Pipeline μ Price Quantity) where
  intact position item _ present := by cases present
  near outside := absurd rfl outside
  parsed := rfl
  keeper := rfl

inductive Stepped (decode : μ → Option (Payload Price Quantity)) (pipeline : Pipeline μ Price Quantity) :
    Turn μ → Pipeline μ Price Quantity → Prop
  | nothing {turn : Turn μ} (other : turn = .clear → pipeline.connector = .outside → pipeline.keeper = none) :
    Stepped decode pipeline turn pipeline
  | clear (outside : pipeline.connector = .outside) (there : pipeline.keeper.isSome) : Stepped decode pipeline .clear
    { pipeline with buffers := pipeline.buffers.set (bufferOf pipeline.counter) none, connector := .cleared }
  | read (message : μ) (cleared : pipeline.connector = .cleared) : Stepped decode pipeline (.read (some message))
    { pipeline with buffers := pipeline.buffers.set (bufferOf pipeline.counter) (some message), connector := .filled message }
  | thrown (cleared : pipeline.connector = .cleared) :
    Stepped decode pipeline (.read none) { pipeline with connector := .outside }
  | push (message : μ) (filled : pipeline.connector = .filled message) : Stepped decode pipeline .push
    { pipeline with
      queue := pipeline.queue ++ [bufferOf pipeline.counter]
      counter := pipeline.counter + 1
      connector := .outside
      received := pipeline.received ++ [message] }
  | pop (pointer : Nat) (queue : List Nat) (free : pipeline.dataWrapper = none) (front : pipeline.queue = pointer :: queue) :
    Stepped decode pipeline .pop { pipeline with queue, dataWrapper := some pointer }
  | parse (pointer : Nat) (holds : pipeline.dataWrapper = some pointer) : Stepped decode pipeline .parse
    { pipeline with
      dataWrapper := none
      keeper := pipeline.keeper.bind (·.process (pipeline.buffers[pointer]?.join.bind decode))
      parsed := pipeline.parsed ++ [pipeline.buffers[pointer]?.join] }

theorem step_stepped (decode : μ → Option (Payload Price Quantity)) (pipeline : Pipeline μ Price Quantity) (turn : Turn μ) :
    Stepped decode pipeline turn (pipeline.step decode turn) := by
  obtain ⟨buffers, counter, connector, queue, dataWrapper, keeper, received, parsed⟩ := pipeline
  cases keeper with
  | none => exact .nothing fun _ _ => rfl
  | some keeper =>
    cases turn with
    | clear =>
      cases connector with
      | outside => exact .clear rfl rfl
      | cleared | filled => exact .nothing fun _ outside => by cases outside
    | read message =>
      cases connector with
      | cleared =>
        cases message with
        | none => exact .thrown rfl
        | some message => exact .read message rfl
      | outside | filled => cases message <;> exact .nothing fun clear => by cases clear
    | push =>
      cases connector with
      | filled message => exact .push message rfl
      | outside | cleared => exact .nothing fun clear => by cases clear
    | pop =>
      cases dataWrapper with
      | some pointer => exact .nothing fun clear => by cases clear
      | none =>
        cases queue with
        | nil => exact .nothing fun clear => by cases clear
        | cons pointer queue => exact .pop pointer queue rfl rfl
    | parse =>
      cases dataWrapper with
      | none => exact .nothing fun clear => by cases clear
      | some pointer => exact .parse pointer rfl

omit [Zero Quantity] [DecidableEq Quantity] in
theorem Valid.held (valid : Valid pipeline) {pointer : Nat} (holds : pipeline.dataWrapper = some pointer) :
    pipeline.parsed.length < pipeline.received.length ∧ pointer = bufferOf pipeline.parsed.length ∧
      pipeline.queue = (range' (pipeline.parsed.length + 1) (pipeline.lag - 1)).map bufferOf := by
  have pointers := valid.pointers
  rw [holds] at pointers
  cases behind : pipeline.lag with
  | zero =>
    rw [behind] at pointers
    cases pointers
  | succ more =>
    rw [behind, range'_succ, map_cons] at pointers
    obtain ⟨first, rest⟩ := cons.inj pointers
    rw [Pipeline.lag] at behind
    exact ⟨by omega, first, rest⟩

theorem Valid.step (valid : Valid pipeline) {turn : Turn μ} {next : Pipeline μ Price Quantity}
    (stepped : Stepped decode pipeline turn next) : Valid next := by
  cases stepped with
  | nothing other => exact valid
  | clear outside there =>
    exact ⟨length_set.trans valid.buffers, valid.behind, valid.counter, valid.pointers, fun _ filled => by cases filled⟩
  | read message cleared =>
    refine ⟨length_set.trans valid.buffers, valid.behind, valid.counter, valid.pointers, fun other filled => ?_⟩
    obtain rfl := Connector.filled.inj filled
    refine getElem?_set_self ?_
    rw [bufferOf_eq, valid.buffers]
    exact Nat.mod_lt _ (by decide)
  | thrown cleared => exact ⟨valid.buffers, valid.behind, valid.counter, valid.pointers, fun _ filled => by cases filled⟩
  | push message filled =>
    have behind := valid.behind
    refine ⟨valid.buffers, ?_, ?_, ?_, fun _ filled => by cases filled⟩
    · exact Nat.le_trans behind (by simp)
    · simp [valid.counter]
    · have more : (pipeline.received ++ [message]).length - pipeline.parsed.length = pipeline.lag + 1 := by
        rw [Pipeline.lag, length_append, length_singleton]
        omega
      simp only [Pipeline.lag] at more ⊢
      rw [more, range'_1_concat, map_append, ← append_assoc, valid.pointers, valid.counter, ← Pipeline.lag]
      have last : pipeline.parsed.length + pipeline.lag = pipeline.received.length := by
        rw [Pipeline.lag]
        omega
      rw [last]
      rfl
  | pop pointer queue free front =>
    have pointers := valid.pointers
    rw [free, front] at pointers
    exact ⟨valid.buffers, valid.behind, valid.counter, pointers, valid.filled⟩
  | parse pointer holds =>
    obtain ⟨there, -, rest⟩ := valid.held holds
    refine ⟨valid.buffers, ?_, valid.counter, ?_, valid.filled⟩
    · rw [length_append, length_singleton]
      exact there
    · simp only [Pipeline.lag, length_append, length_singleton] at rest ⊢
      rw [Nat.sub_add_eq]
      exact rest

/-- The keeper is not a whole round behind when a buffer is cleared. -/
def KeepsUp (pipeline : Pipeline μ Price Quantity) (turn : Turn μ) : Prop :=
  turn = .clear → pipeline.connector = .outside → pipeline.keeper.isSome → pipeline.lag < rounds

omit [Zero Quantity] [DecidableEq Quantity] in
theorem keepsUp_of_ne {turn : Turn μ} (other : turn ≠ .clear) : KeepsUp pipeline turn := fun clear => absurd clear other

omit [Zero Quantity] [DecidableEq Quantity] in
/-- Writing to the next buffer leaves the unparsed messages alone. -/
theorem Valid.written (valid : Valid pipeline) (intact : Intact pipeline) (near : pipeline.lag < rounds) (contents : Option μ) :
    Window rounds (pipeline.buffers.set (bufferOf pipeline.counter) contents) (pipeline.received.map some)
      pipeline.parsed.length := by
  rw [bufferOf_eq, valid.counter]
  refine intact.set (fun position reached before same => ?_) contents
  rw [length_map] at before
  rw [Pipeline.lag] at near
  exact slot_ne before (by omega) same.symm

private theorem step_clear (outside : pipeline.connector = .outside) (there : pipeline.keeper.isSome) : pipeline.step decode .clear =
    { pipeline with buffers := pipeline.buffers.set (bufferOf pipeline.counter) none, connector := .cleared } := by
  obtain ⟨buffers, counter, connector, queue, dataWrapper, keeper, received, parsed⟩ := pipeline
  obtain rfl : connector = .outside := outside
  cases keeper with
  | none => cases there
  | some keeper => rfl

omit [Zero Quantity] [DecidableEq Quantity] in
private theorem Valid.wiped (valid : Valid pipeline) (far : rounds ≤ pipeline.lag) :
    ¬ Window rounds (pipeline.buffers.set (bufferOf pipeline.counter) none) (pipeline.received.map some)
      pipeline.parsed.length := by
  intro window
  have behind := valid.behind
  rw [Pipeline.lag] at far
  have some_ : 0 < rounds := by decide
  obtain ⟨message, found⟩ : ∃ message, pipeline.received[pipeline.received.length - rounds]? = some message :=
    ⟨_, getElem?_eq_getElem (by omega)⟩
  have there := window (pipeline.received.length - rounds) (some message) (by omega) (by rw [getElem?_map, found]; rfl)
  have slot : (pipeline.received.length - rounds) % rounds = bufferOf pipeline.counter := by
    rw [bufferOf_eq, valid.counter, ← Nat.mod_eq_sub_mod (by omega)]
  rw [slot, getElem?_set] at there
  simp only [if_true] at there
  split at there <;> cases there

theorem UpToDate.next (valid : Valid pipeline) (upToDate : UpToDate decode pipeline) {pointer : Nat}
    (holds : pipeline.dataWrapper = some pointer) : ∃ message,
      pipeline.received.take (pipeline.parsed.length + 1) = pipeline.received.take pipeline.parsed.length ++ [message] ∧
      pipeline.buffers[pointer]?.join = some message := by
  obtain ⟨there, rfl, -⟩ := valid.held holds
  refine ⟨pipeline.received[pipeline.parsed.length], take_succ_eq_append_getElem there, ?_⟩
  have kept := upToDate.intact pipeline.parsed.length (some pipeline.received[pipeline.parsed.length]) (Nat.le_refl _)
    (by rw [getElem?_map, getElem?_eq_getElem there]; rfl)
  rw [bufferOf_eq, kept]
  rfl

private theorem upToDate_step_iff (valid : Valid pipeline) (upToDate : UpToDate decode pipeline) {turn : Turn μ}
    {next : Pipeline μ Price Quantity} (stepped : Stepped decode pipeline turn next) :
    UpToDate decode next ↔ KeepsUp pipeline turn := by
  cases stepped with
  | nothing other =>
    refine ⟨fun _ clear outside there => ?_, fun _ => upToDate⟩
    rw [other clear outside] at there
    cases there
  | clear outside there =>
    constructor
    · intro after _ _ _
      by_contra far
      exact valid.wiped (Nat.le_of_not_lt far) after.intact
    · intro keeps
      have near := keeps rfl outside there
      exact ⟨valid.written upToDate.intact near none, fun _ => near, upToDate.parsed, upToDate.keeper⟩
  | read message cleared =>
    have near := upToDate.near fun outside => by cases cleared.symm.trans outside
    refine iff_of_true ?_ (keepsUp_of_ne nofun)
    exact ⟨valid.written upToDate.intact near (some message), fun _ => near, upToDate.parsed, upToDate.keeper⟩
  | thrown cleared =>
    refine iff_of_true ?_ (keepsUp_of_ne nofun)
    exact ⟨upToDate.intact, fun outside => absurd rfl outside, upToDate.parsed, upToDate.keeper⟩
  | push message filled =>
    refine iff_of_true ?_ (keepsUp_of_ne nofun)
    have same : (pipeline.received ++ [message]).take pipeline.parsed.length = pipeline.received.take pipeline.parsed.length :=
      take_append_of_le_length valid.behind
    refine ⟨?_, fun outside => absurd rfl outside, ?_, ?_⟩
    · rw [Intact, map_append]
      refine Window.append upToDate.intact ?_
      have stored := valid.filled message filled
      rw [bufferOf_eq, valid.counter] at stored
      rw [length_map]
      exact stored
    · rw [same]
      exact upToDate.parsed
    · rw [same]
      exact upToDate.keeper
  | pop pointer queue free front =>
    refine iff_of_true ?_ (keepsUp_of_ne nofun)
    exact ⟨upToDate.intact, upToDate.near, upToDate.parsed, upToDate.keeper⟩
  | parse pointer holds =>
    refine iff_of_true ?_ (keepsUp_of_ne nofun)
    obtain ⟨message, taken, found⟩ := upToDate.next valid holds
    refine ⟨?_, fun outside => ?_, ?_, ?_⟩
    · simp only [Intact, length_append, length_singleton]
      exact upToDate.intact.drop (Nat.le_succ _)
    · have near := upToDate.near outside
      simp only [Pipeline.lag, length_append, length_singleton] at near ⊢
      omega
    · simp only [length_append, length_singleton]
      rw [taken, map_append, ← upToDate.parsed, found]
      rfl
    · simp only [length_append, length_singleton]
      rw [taken, foldlM_append, ← upToDate.keeper, found]
      cases pipeline.keeper with
      | none => rfl
      | some keeper => exact (bind_pure _).symm

private theorem run_valid (decode : μ → Option (Payload Price Quantity)) (turns : List (Turn μ)) : Valid (Pipeline.run decode turns) :=
  Runs.foldl_preserves (fun pipeline turn (valid : Valid pipeline) => valid.step (step_stepped decode pipeline turn)) turns
    initial_valid

theorem throughout_upToDate_iff (decode : μ → Option (Payload Price Quantity)) (turns : List (Turn μ)) :
    (∀ before, before <+: turns → UpToDate decode (Pipeline.run decode before)) ↔
      Runs.AtEveryStep (Pipeline.step decode) KeepsUp {} turns := by
  have exact_ : ∀ (pipeline : Pipeline μ Price Quantity) (turn : Turn μ), Valid pipeline ∧ UpToDate decode pipeline →
      (Valid (pipeline.step decode turn) ∧ UpToDate decode (pipeline.step decode turn) ↔ KeepsUp pipeline turn) := by
    intro pipeline turn ⟨valid, upToDate⟩
    have stepped := step_stepped decode pipeline turn
    exact (and_iff_right (valid.step stepped)).trans (upToDate_step_iff valid upToDate stepped)
  have through := Runs.throughout_iff (fun pipeline => Valid pipeline ∧ UpToDate decode pipeline) exact_ turns
    ⟨initial_valid, initial_upToDate⟩
  refine Iff.trans ?_ through
  exact forall₂_congr fun before _ => (and_iff_right (run_valid decode before)).symm

/-- The messages that wait to be parsed stay in their buffers throughout a run
exactly when the keeper is never 1024 messages behind as the connector clears the
next buffer. The keeper has then parsed the messages received so far in order, each
once, up to those that wait, and its books are what processing them one after the
other makes of them. -/
theorem messages_handed_over (decode : μ → Option (Payload Price Quantity)) (turns : List (Turn μ)) :
    ((∀ before, before <+: turns → Intact (Pipeline.run decode before)) ↔
      Runs.AtEveryStep (Pipeline.step decode) KeepsUp {} turns) ∧
    (Runs.AtEveryStep (Pipeline.step decode) KeepsUp {} turns →
      let pipeline := Pipeline.run decode turns
      let done := pipeline.received.take pipeline.parsed.length
      pipeline.parsed = done.map some ∧
      pipeline.keeper = done.foldlM (fun keeper message => keeper.process (decode message)) ExchangeBookKeeper.create) := by
  refine ⟨⟨fun always => ?_, fun keeps before inside => ?_⟩, fun keeps => ?_⟩
  · apply (Runs.atEveryStep_iff turns).mpr
    intro before turn after split clear outside there
    subst clear
    by_contra far
    have next := always (before ++ [.clear]) ⟨after, by rw [split, append_assoc, singleton_append]⟩
    rw [Pipeline.run, foldl_concat, step_clear outside there] at next
    exact (run_valid decode before).wiped (Nat.le_of_not_lt far) next
  · exact ((throughout_upToDate_iff decode turns).mpr keeps before inside).intact
  · have upToDate := (throughout_upToDate_iff decode turns).mpr keeps turns (prefix_refl turns)
    exact ⟨upToDate.parsed, upToDate.keeper⟩

end FinanceTech.Proofs.BufferHandOver
