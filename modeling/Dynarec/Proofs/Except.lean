/-!
# Computations that may fail

A computation in steps has a result if every step has one.
-/

namespace Dynarec

variable {ε α β : Type} {second : α → Except ε β}

theorem of_bind_eq_ok (done : first >>= second = .ok result) :
    ∃ value, first = .ok value ∧ second value = .ok result := by
  cases first with
  | error => cases done
  | ok value => exact ⟨value, rfl, done⟩

theorem bind_eq_of_eq_ok (done : first = .ok value) (second : α → Except ε β) :
    first >>= second = second value := by
  rw [done]
  rfl

theorem of_bind_eq_error (failed : first >>= second = .error error) :
    first = .error error ∨ ∃ value, first = .ok value ∧ second value = .error error := by
  cases first with
  | error known =>
    cases failed
    exact .inl rfl
  | ok value => exact .inr ⟨value, rfl, failed⟩

theorem of_any_toOption {outcome : Except ε α} (passes : outcome.toOption.any check) :
    ∃ value, outcome = .ok value ∧ check value = true := by
  cases outcome with
  | error => cases passes
  | ok value => exact ⟨value, rfl, passes⟩

@[simp] theorem mapError_ok {ε' : Type} (change : ε → ε') (value : α) :
    (Except.ok value : Except ε α).mapError change = .ok value := rfl

@[simp] theorem mapError_error {ε' : Type} (change : ε → ε') (error : ε) :
    (Except.error error : Except ε α).mapError change = .error (change error) := rfl

end Dynarec
