/-!
# Actions

How a sequence of two actions with a state ends, from how its parts end, and what is made of a
result. Results are compared by computing both.
-/

namespace ExternalTerm

instance decidableEqResult {ε σ α : Type} [DecidableEq ε] [DecidableEq σ] [DecidableEq α] :
    DecidableEq (EStateM.Result ε σ α)
  | .ok a s, .ok b t => decidable_of_iff (a = b ∧ s = t) (by simp)
  | .error e s, .error f t => decidable_of_iff (e = f ∧ s = t) (by simp)
  | .ok .., .error .. => isFalse (by rintro ⟨⟩)
  | .error .., .ok .. => isFalse (by rintro ⟨⟩)

section
variable {ε σ α β : Type} {m : EStateM ε σ α} {f : α → EStateM ε σ β} {s s' : σ}

theorem bind_ok {a : α} (h : m s = .ok a s') : (m >>= f) s = f a s' := by
  simp only [bind, EStateM.bind, h]

theorem bind_error {e : ε} (h : m s = .error e s') : (m >>= f) s = .error e s' := by
  simp only [bind, EStateM.bind, h]

theorem throw_bind (e : ε) (f : α → EStateM ε σ β) : (throw e >>= f) = throw e := rfl

theorem bind_eq_ok_iff {b : β} :
    (m >>= f) s = .ok b s' ↔ ∃ a s₁, m s = .ok a s₁ ∧ f a s₁ = .ok b s' := by
  refine ⟨fun h => ?_, fun h => ?_⟩
  · cases hm : m s with
    | ok a s₁ => exact ⟨a, s₁, rfl, by rwa [bind_ok hm] at h⟩
    | error e s₁ => rw [bind_error hm] at h; cases h
  · obtain ⟨a, s₁, hm, hf⟩ := h
    rwa [bind_ok hm]

end

section
variable {ε α β : Type} {x : Except ε α} {f : α → β} {e : ε} {b : β}

/-- What is made of a result fails as the result does. -/
theorem map_eq_error_iff : (x >>= fun a => pure (f a)) = .error e ↔ x = .error e := by
  cases x with
  | error e' =>
    show Except.error e' = (Except.error e : Except ε β) ↔ _
    simp
  | ok a => exact iff_of_false nofun nofun

theorem map_eq_ok_iff : (x >>= fun a => pure (f a)) = .ok b ↔ ∃ a, x = .ok a ∧ f a = b := by
  cases x with
  | error e => exact iff_of_false nofun fun ⟨_, h, _⟩ => nomatch h
  | ok a =>
    show Except.ok (f a) = Except.ok b ↔ _
    simp

end

end ExternalTerm
