/-! Loops whose test and body may fail. A loop that has not ended when the fuel
is used up counts as failed, so a result says that the loop ends. -/

namespace FinanceTech.Library.Loops

universe u

variable {σ : Type u} {condition : σ → Option Bool} {body : σ → Option σ}

def repeatWhile (condition : σ → Option Bool) (body : σ → Option σ) : Nat → σ → Option σ
  | 0, _ => none
  | fuel + 1, state =>
    match condition state with
    | .none => none
    | .some false => some state
    | .some true => (body state).bind (repeatWhile condition body fuel)

theorem repeatWhile_ends {state : σ} (stops : condition state = some false) (fuel : Nat) :
    repeatWhile condition body (fuel + 1) state = some state := by
  simp [repeatWhile, stops]

theorem repeatWhile_turn {state next : σ} (goes : condition state = some true) (moved : body state = some next) (fuel : Nat) :
    repeatWhile condition body (fuel + 1) state = repeatWhile condition body fuel next := by
  simp [repeatWhile, goes, moved]

/-- A test that cannot be made fails the loop. -/
theorem repeatWhile_fails {state : σ} (fails : condition state = none) (fuel : Nat) : repeatWhile condition body fuel state = none := by
  cases fuel with
  | zero => rfl
  | succ fuel => simp [repeatWhile, fails]

/-- The states of each turn given, the loop ends in the last of them. -/
theorem repeatWhile_trace (states : Nat → σ) (turns : Nat)
    (goes : ∀ turn < turns, condition (states turn) = some true ∧ body (states turn) = some (states (turn + 1)))
    (stops : condition (states turns) = some false) {fuel : Nat} (enough : turns < fuel) :
    repeatWhile condition body fuel (states 0) = some (states turns) := by
  induction turns generalizing states fuel with
  | zero =>
    obtain ⟨fuel, rfl⟩ := Nat.exists_eq_add_of_lt enough
    exact repeatWhile_ends stops _
  | succ turns ih =>
    obtain ⟨rest, rfl⟩ : ∃ rest, fuel = rest + 1 := ⟨fuel - 1, by omega⟩
    obtain ⟨first, moved⟩ := goes 0 (Nat.succ_pos turns)
    rw [repeatWhile_turn first moved]
    exact ih (fun turn => states (turn + 1)) (fun turn less => goes (turn + 1) (Nat.succ_lt_succ less)) stops (Nat.lt_of_succ_lt_succ enough)

end FinanceTech.Library.Loops
