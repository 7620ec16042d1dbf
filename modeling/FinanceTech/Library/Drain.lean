import Mathlib.Data.Nat.Basic

/-! A bounded register that many parties add to and one party drains: it loads
the register, hands out what it has loaded, and resets the register. What is
added between a load and its reset is lost, and so is what does not fit. Nothing
lost comes back, so all is handed out in the end exactly when no step lost. -/

namespace FinanceTech.Library

/-- `pending` has been loaded and not been handed out; `loaded` holds from a load
to the reset after it. -/
structure Drain where
  register : Nat := 0
  pending : Nat := 0
  loaded : Bool := false
  handed : Nat := 0
  added : Nat := 0

namespace Drain

inductive Event where
  | add (amount : Nat)
  | load
  | hand
  | reset

variable (modulus : Nat)

def step (drain : Drain) : Event → Drain
  | .add amount => { drain with register := (drain.register + amount) % modulus, added := drain.added + amount }
  | .load => { drain with pending := drain.register, loaded := true }
  | .hand => { drain with pending := 0, handed := drain.handed + drain.pending }
  | .reset => { drain with register := 0, loaded := false }

/-- The register is loaded again only after its reset, and reset only after what
was loaded has been handed out. -/
def Ordered (drain : Drain) : Event → Prop
  | .add _ => True
  | .load => drain.loaded = false ∧ drain.pending = 0
  | .hand => drain.loaded = true
  | .reset => drain.loaded = true ∧ drain.pending = 0

/-- The event adds something that is never handed out. -/
def Loses (drain : Drain) : Event → Prop
  | .add amount => 0 < amount ∧ (drain.loaded = true ∨ modulus ≤ drain.register + amount)
  | _ => False

/-- What is still to be handed out. -/
def held (drain : Drain) : Nat := drain.pending + if drain.loaded then 0 else drain.register

/-- Everything that was added has been handed out or is still held. -/
def Exact (drain : Drain) : Prop := drain.handed + drain.held = drain.added

def Within (drain : Drain) : Prop := drain.handed + drain.held ≤ drain.added

variable {modulus} {drain : Drain}

theorem held_loaded (loaded : drain.loaded = true) : drain.held = drain.pending := by
  rw [held, loaded, if_pos rfl, Nat.add_zero]

theorem held_open (unloaded : drain.loaded = false) : drain.held = drain.pending + drain.register := by
  rw [held, unloaded, if_neg Bool.false_ne_true]

theorem step_none (fits : drain.register < modulus) : drain.step modulus (.add 0) = drain := by
  rw [step, Nat.add_zero, Nat.mod_eq_of_lt fits, Nat.add_zero]

/-- A step of the draining party neither loses nor finds anything. -/
theorem step_keeps {event : Event} (ordered : drain.Ordered event) (drains : ∀ amount, event ≠ .add amount) :
    (drain.step modulus event).handed + (drain.step modulus event).held = drain.handed + drain.held ∧
      (drain.step modulus event).added = drain.added := by
  cases event with
  | add amount => exact absurd rfl (drains amount)
  | load =>
    obtain ⟨unloaded, none⟩ := ordered
    rw [held_open unloaded, none, held_loaded rfl, Nat.zero_add]
    exact ⟨rfl, rfl⟩
  | hand =>
    have after : (drain.step modulus .hand).held = 0 := held_loaded ordered
    rw [after, held_loaded ordered]
    exact ⟨rfl, rfl⟩
  | reset =>
    obtain ⟨loaded, none⟩ := ordered
    have after : (drain.step modulus .reset).held = drain.pending + 0 := held_open rfl
    rw [after, held_loaded loaded]
    exact ⟨rfl, rfl⟩

theorem hand_held (ordered : drain.Ordered .hand) : (drain.step modulus .hand).held = 0 := held_loaded ordered

/-- Loading and resetting leave what is held. -/
theorem step_held {event : Event} (ordered : drain.Ordered event) (drains : ∀ amount, event ≠ .add amount)
    (waits : event ≠ .hand) :
    (drain.step modulus event).held = drain.held := by
  have kept := (@step_keeps modulus drain event ordered drains).1
  cases event with
  | add amount => exact absurd rfl (drains amount)
  | hand => exact absurd rfl waits
  | load | reset => exact Nat.add_left_cancel kept

theorem add_handed (amount : Nat) : (drain.step modulus (.add amount)).handed = drain.handed := rfl

theorem add_added (amount : Nat) : (drain.step modulus (.add amount)).added = drain.added + amount := rfl

theorem add_held (amount : Nat) : (drain.step modulus (.add amount)).held =
    if drain.loaded then drain.held else drain.pending + (drain.register + amount) % modulus := by
  cases loaded : drain.loaded with
  | true =>
    rw [if_pos rfl, held_loaded loaded]
    exact held_loaded loaded
  | false =>
    rw [if_neg Bool.false_ne_true]
    exact held_open loaded

theorem step_within {event : Event} (ordered : drain.Ordered event) (within : drain.Within) :
    (drain.step modulus event).Within := by
  cases event with
  | add amount =>
    rw [Within] at within ⊢
    rw [add_held, add_handed, add_added]
    split
    next => omega
    next unloaded =>
      rw [held_open (Bool.not_eq_true _ ▸ unloaded)] at within
      have less := Nat.mod_le (drain.register + amount) modulus
      omega
  | load | hand | reset =>
    obtain ⟨kept, added⟩ := @step_keeps modulus drain _ ordered fun amount => Event.noConfusion
    rw [Within, kept, added]
    exact within

/-- A step keeps a drain exact unless it loses. -/
theorem step_exact {event : Event} (fits : drain.register < modulus) (ordered : drain.Ordered event) (exactly : drain.Exact) :
    (drain.step modulus event).Exact ↔ ¬ drain.Loses modulus event := by
  cases event with
  | add amount =>
    have loses : drain.Loses modulus (.add amount) ↔
        0 < amount ∧ (drain.loaded = true ∨ modulus ≤ drain.register + amount) := Iff.rfl
    rw [Exact] at exactly ⊢
    rw [add_held, add_handed, add_added, loses]
    split
    next loaded =>
      simp only [loaded, true_or, and_true]
      omega
    next unloaded =>
      rw [held_open (Bool.not_eq_true _ ▸ unloaded)] at exactly
      rw [or_iff_right unloaded]
      by_cases wraps : modulus ≤ drain.register + amount
      · have less : (drain.register + amount) % modulus < modulus := Nat.mod_lt _ (Nat.zero_lt_of_lt fits)
        omega
      · rw [Nat.mod_eq_of_lt (Nat.not_le.mp wraps)]
        omega
  | load | hand | reset =>
    obtain ⟨kept, added⟩ := @step_keeps modulus drain _ ordered fun amount => Event.noConfusion
    rw [Exact, kept, added]
    exact ⟨fun _ loses => loses, fun _ => exactly⟩

/-- What was lost stays lost. -/
theorem step_behind {event : Event} (ordered : drain.Ordered event) (within : drain.Within) (inexact : ¬ drain.Exact) :
    ¬ (drain.step modulus event).Exact := by
  rw [Exact] at inexact ⊢
  rw [Within] at within
  cases event with
  | add amount =>
    rw [add_held, add_handed, add_added]
    split
    next => omega
    next unloaded =>
      rw [held_open (Bool.not_eq_true _ ▸ unloaded)] at within inexact
      have less := Nat.mod_le (drain.register + amount) modulus
      omega
  | load | hand | reset =>
    obtain ⟨kept, added⟩ := @step_keeps modulus drain _ ordered fun amount => Event.noConfusion
    rw [kept, added]
    exact inexact

end Drain
end FinanceTech.Library
