/-! Computations that can be refused: how a chain of steps in `Except` succeeds. A chain
succeeds exactly when each step does, so a successful operation can be taken apart step by
step with `obtain`. -/

namespace Except

variable {ε α β : Type} {x : Except ε α} {f : α → Except ε β}

@[simp] theorem ok_bind (a : α) : (Except.ok a >>= f) = f a := rfl

@[simp] theorem error_bind (e : ε) : (Except.error e >>= f) = Except.error e := rfl

@[simp] theorem throw_eq_error (e : ε) : (throw e : Except ε α) = Except.error e := rfl

@[simp] theorem pure_eq_ok (a : α) : (pure a : Except ε α) = Except.ok a := rfl

@[simp] theorem error_ne_ok (e : ε) (a : α) : (Except.error e : Except ε α) ≠ Except.ok a := by
  intro same
  cases same

theorem bind_eq_ok {b : β} : (x >>= f) = Except.ok b ↔ ∃ a, x = Except.ok a ∧ f a = Except.ok b := by
  cases x with
  | error e => simp
  | ok a => simp

theorem ok_of_toOption_map {γ : Type} {g : α → γ} {c : γ} (mapped : x.toOption.map g = some c) :
    ∃ a, x = Except.ok a ∧ g a = c := by
  cases x with
  | error e => cases mapped
  | ok a => exact ⟨a, rfl, Option.some.inj mapped⟩

theorem foldlM_induction {γ : Type} {P : α → Prop} {g : α → γ → Except ε α}
    (step : ∀ a x a', P a → g a x = Except.ok a' → P a') :
    ∀ (l : List γ) (a r : α), P a → l.foldlM g a = Except.ok r → P r
  | [], a, r, start, run => by
    cases run
    exact start
  | x :: l, a, r, start, run => by
    rw [List.foldlM_cons, bind_eq_ok] at run
    obtain ⟨a', first, rest⟩ := run
    exact foldlM_induction step l a' r (step a x a' start first) rest

theorem bind_eq_error {e : ε} :
    (x >>= f) = Except.error e ↔ x = Except.error e ∨ ∃ a, x = Except.ok a ∧ f a = Except.error e := by
  cases x with
  | error e' => simp [eq_comm]
  | ok a => simp

theorem foldlM_error {γ : Type} {Q : ε → Prop} {g : α → γ → Except ε α}
    (step : ∀ a x e, g a x = Except.error e → Q e) :
    ∀ (l : List γ) (a : α) {e : ε}, l.foldlM g a = Except.error e → Q e
  | [], _, _, run => by cases run
  | x :: l, a, e, run => by
    rw [List.foldlM_cons, bind_eq_error] at run
    rcases run with first | ⟨a', -, rest⟩
    · exact step a x e first
    · exact foldlM_error step l a' rest

end Except
