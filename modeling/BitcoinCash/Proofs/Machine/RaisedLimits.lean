import BitcoinCash.Proofs.Machine.Permits

namespace BitcoinCash

/-- What is authorized under some limits is authorized after any of them have been raised. -/
theorem evaluate_of_raisedLimits {env : Environment} {limits : Limits} {unlocking locking : Script}
    (hl : env.limits.Within limits) (h : evaluate env unlocking locking = .ok ()) :
    evaluate { env with limits } unlocking locking = .ok () := by
  have lax : Environment.Permits { env with limits } env :=
    { flags := .refl _
      limits := hl
      context := rfl
      input := rfl
      verify_eq := fun _ _ _ _ _ ↦ rfl }
  exact evaluate_of_permits lax h

theorem evaluate_of_raisedLimits_tight :
    let limits : Limits := ⟨5, 5, 9, 4, 1, 0, 1⟩
    let env : Environment := { flags := .monolith, limits }
    let locking : Script := ⟨[0x81, 0x54, 0x80, 0x81, 0x00, 0x00, 0x51, 0x51, 0xae]⟩
    limits.Within {} ∧ evaluate env ⟨[4, 1, 0, 0, 0]⟩ locking = .ok () ∧
      evaluate { env with limits := {} } ⟨[4, 1, 0, 0, 0]⟩ locking = .ok () := by
  intro limits env locking
  have hl : limits.Within {} := by
    constructor <;> decide
  have h : evaluate env ⟨[4, 1, 0, 0, 0]⟩ locking = .ok () := verifies_iff.1 (by decide +kernel)
  exact ⟨hl, h, @evaluate_of_raisedLimits env _ _ _ hl h⟩

end BitcoinCash
