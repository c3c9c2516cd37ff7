import Mathlib.Tactic.Common

/-! Computations that stop at the first check that fails. -/

namespace Effects

variable {ε α β : Type}

def checkThrow (p : Prop) [Decidable p] (mes : ε) : Except ε Unit := if p then .ok () else .error mes

theorem bind_eq_ok {x : Except ε α} {f : α → Except ε β} {b : β} :
    (x >>= f) = .ok b ↔ ∃ a, x = .ok a ∧ f a = .ok b := by
  cases x with
  | error e =>
    apply iff_of_false
    · intro h
      cases h
    · rintro ⟨a, ha, -⟩
      cases ha
  | ok a =>
    constructor
    · exact fun h => ⟨a, rfl, h⟩
    · rintro ⟨a', ha, h⟩
      cases ha
      exact h

theorem bind_eq_error {x : Except ε α} {f : α → Except ε β} {e : ε} :
    (x >>= f) = .error e ↔ x = .error e ∨ ∃ a, x = .ok a ∧ f a = .error e := by
  cases x with
  | error e' =>
    constructor
    · intro h
      cases h
      exact .inl rfl
    · rintro (h | ⟨a, ha, -⟩)
      · cases h
        rfl
      · cases ha
  | ok a =>
    constructor
    · exact fun h => .inr ⟨a, rfl, h⟩
    · rintro (h | ⟨a', ha, h⟩)
      · cases h
      · cases ha
        exact h

theorem checkThrow_eq_ok {p : Prop} [Decidable p] {mes : ε} {u : Unit} : checkThrow p mes = .ok u ↔ p := by
  rw [checkThrow]
  split_ifs with h <;> simp [h]

theorem checkThrow_bind {p : Prop} [Decidable p] {mes : ε} {f : Unit → Except ε α} {a : α} :
    (checkThrow p mes >>= f) = .ok a ↔ p ∧ f () = .ok a := by
  rw [bind_eq_ok]
  constructor
  · rintro ⟨u, hu, h⟩
    exact ⟨checkThrow_eq_ok.mp hu, h⟩
  · rintro ⟨hp, h⟩
    exact ⟨(), checkThrow_eq_ok.mpr hp, h⟩

theorem forM_eq_ok {g : α → Except ε Unit} {l : List α} {u : Unit} :
    forM l g = .ok u ↔ ∀ x ∈ l, g x = .ok () := by
  induction l with
  | nil => exact iff_of_true rfl (List.forall_mem_nil _)
  | cons x l ih =>
    rw [List.forM_cons, bind_eq_ok, List.forall_mem_cons, ← ih]
    constructor
    · rintro ⟨v, hx, hl⟩
      exact ⟨hx, hl⟩
    · rintro ⟨hx, hl⟩
      exact ⟨(), hx, hl⟩

theorem forM_bind {g : α → Except ε Unit} {l : List α} {f : Unit → Except ε β} {b : β} :
    (forM l g >>= f) = .ok b ↔ (∀ x ∈ l, g x = .ok ()) ∧ f () = .ok b := by
  rw [bind_eq_ok]
  constructor
  · rintro ⟨u, hu, h⟩
    exact ⟨forM_eq_ok.mp hu, h⟩
  · rintro ⟨hl, h⟩
    exact ⟨(), forM_eq_ok.mpr hl, h⟩

theorem pure_eq_ok {a b : α} : (pure a : Except ε α) = .ok b ↔ a = b := Except.ok.injEq a b ▸ Iff.rfl

end Effects
