/-!
# Results that may be errors
-/

namespace LoopDirectives

theorem exists_of_bind_eq_ok {Cause First Last : Type} {first : Except Cause First}
    {rest : First → Except Cause Last} {last : Last} (h : first >>= rest = .ok last) :
    ∃ value, first = .ok value ∧ rest value = .ok last := by
  cases first with
  | error cause => cases h
  | ok value => exact ⟨value, rfl, h⟩

theorem error_of_bind_eq_error {Cause First Last : Type} {first : Except Cause First}
    {rest : First → Except Cause Last} {cause : Cause} (h : first >>= rest = .error cause) :
    first = .error cause ∨ ∃ value, rest value = .error cause := by
  cases first with
  | error other =>
    cases h
    exact Or.inl rfl
  | ok value => exact Or.inr ⟨value, h⟩

theorem exists_of_any_toOption {Cause Value : Type} {result : Except Cause Value}
    {test : Value → Bool} (h : result.toOption.any test) :
    ∃ value, result = .ok value ∧ test value := by
  cases result with
  | error cause => cases h
  | ok value => exact ⟨value, rfl, h⟩

end LoopDirectives
