import BitcoinCash.Proofs.Machine.Permits
import BitcoinCash.Transaction.Verify

namespace BitcoinCash

open Run (Below)

/-- The answers depend on the rules in force through the fork id alone. -/
def Context.SeesOnlyForkId (ctx : Context) : Prop :=
  ∀ sig key code input (f g : Flags), f.has .forkId = g.has .forkId →
    ctx.verify sig key code input f = ctx.verify sig key code input g

/-- `lax` is `env` with some restrictions dropped, in a context that cannot tell. -/
structure Environment.Relaxes (lax env : Environment) : Prop where
  flags : lax.flags.Relaxes env.flags
  limits : lax.limits = env.limits
  context : lax.context = env.context
  input : lax.input = env.input
  seesOnlyForkId : ∀ ctx, env.context = some ctx → ctx.SeesOnlyForkId

section Relaxing

variable {lax env : Environment} (h : lax.Relaxes env)
include h

theorem Environment.Relaxes.permits : lax.Permits env where
  flags := h.flags
  limits := h.limits ▸ .refl _
  context := h.context
  input := h.input
  verify_eq ctx hc _ _ _ := h.seesOnlyForkId ctx hc _ _ _ _ _ _ h.flags.has_forkId

theorem Program.below_run (program : Program) (data : Stack) :
    Below (program.run env data) (program.run lax data) :=
  program.below_run_of_permits h.permits data

namespace Spend

variable {unlocking locking : Script} {s : Spend}

theorem Prepared.of_relaxes (hs : s.Prepared env unlocking locking) :
    { s with p2sh := lax.has .p2sh && locking.isP2sh }.Prepared lax unlocking locking :=
  hs.of_permits h.permits

theorem Ends.of_relaxes {saved left : Stack} (hs : s.Prepared env unlocking locking)
    (he : s.Ends env saved left) :
    { s with p2sh := lax.has .p2sh && locking.isP2sh }.Ends lax saved left :=
  .of_permits h.permits hs he

end Spend

end Relaxing

theorem Transaction.context_seesOnlyForkId (tx : Transaction) (satoshis : UInt64) :
    (tx.context satoshis).SeesOnlyForkId := by
  intro sig key code input f g h
  simp only [context, verifySignature, checkedHash, h]

/-- What is authorized under some rules is authorized after restrictions have been dropped. -/
theorem evaluate_of_relaxes {env : Environment} {f : Flags} {unlocking locking : Script}
    (hf : f.Relaxes env.flags) (hc : ∀ ctx, env.context = some ctx → ctx.SeesOnlyForkId)
    (h : evaluate env unlocking locking = .ok ()) :
    evaluate { env with flags := f } unlocking locking = .ok () := by
  have lax : Environment.Relaxes { env with flags := f } env := ⟨hf, rfl, rfl, rfl, hc⟩
  obtain ⟨s, saved, left, hs, hu, hl, he⟩ := evaluate_eq_ok_iff.1 h
  rw [Spend.prepare_eq_ok_iff] at hs
  exact evaluate_eq_ok_iff.2 ⟨_, saved, left, Spend.prepare_eq_ok_iff.2 (hs.of_relaxes lax),
    s.unlocking.below_run lax [] _ hu, ⟨s.locking.below_run lax saved _ hl.run_eq, hl.result⟩,
    Spend.Ends.of_relaxes lax hs he⟩

theorem evaluate_of_relaxes_lockTime :
    let input : TxInput := ⟨⟨List.replicate 32 0, rfl⟩, 0, 0, .empty, none⟩
    let tx : Transaction := ⟨1, [input], [], 100⟩
    let env : Environment := { flags := .standard, context := some (tx.context 0) }
    let dropped : Flags := .checkLockTimeVerify ||| .discourageUpgradableNops
    evaluate { env with flags := Flags.standard.remove dropped } ⟨[]⟩
      ⟨[1, 100, 0xb1, 0x75, 0x51]⟩ = .ok () := by
  intro input tx env dropped
  have h : evaluate env ⟨[]⟩ ⟨[1, 100, 0xb1, 0x75, 0x51]⟩ = .ok () :=
    verifies_iff.1 (by decide +kernel)
  refine evaluate_of_relaxes ⟨⟨dropped, ?_, rfl⟩, ?_, ?_, ?_⟩ (fun ctx hc ↦ ?_) h
  · decide
  · decide
  · decide
  · decide
  · cases hc
    exact tx.context_seesOnlyForkId 0

end BitcoinCash
