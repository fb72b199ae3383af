import BitcoinCash.Machine.Evaluate
import BitcoinCash.Proofs.Machine.Run

namespace BitcoinCash

variable {env : Environment} {unlocking locking : Script}

open Fallible (bind_eq_ok pure_eq_ok)

theorem verifies_iff :
    verifies env unlocking locking ↔ evaluate env unlocking locking = .ok () := by
  unfold verifies
  cases evaluate env unlocking locking <;> simp [Except.isOk, Except.toBool]

theorem Spend.acceptScript_eq_ok {role : ScriptRole} {s : Script} {u : Unit} :
    acceptScript env role s = .ok u ↔ s.length ≤ env.limits.scriptSize :=
  require_eq_ok

structure Spend.Prepared (env : Environment) (unlocking locking : Script) (s : Spend) : Prop where
  cleanStack : ¬ env.has .cleanStack ∨ env.has .p2sh
  unlocking_length : unlocking.length ≤ env.limits.scriptSize
  locking_length : locking.length ≤ env.limits.scriptSize
  unlocking_eq : Program.ofScript unlocking = .ok s.unlocking
  locking_eq : Program.ofScript locking = .ok s.locking
  p2sh_eq : s.p2sh = (env.has .p2sh && locking.isP2sh)
  pushOnly : ¬ env.has .pushOnly ∨ s.unlocking.isPushOnly
  pushOnly_p2sh : ¬ s.p2sh ∨ s.unlocking.isPushOnly

theorem Spend.prepare_eq_ok_iff {s : Spend} :
    prepare env unlocking locking = .ok s ↔ s.Prepared env unlocking locking := by
  simp only [prepare, bind_eq_ok, pure_eq_ok, acceptScript_eq_ok, require_eq_ok]
  constructor
  · rintro ⟨-, hc, -, hu, -, hl, u, hpu, l, hpl, -, ho, -, hp, rfl⟩
    exact ⟨hc, hu, hl, hpu, hpl, rfl, ho, hp⟩
  · rintro ⟨hc, hu, hl, hpu, hpl, hs, ho, hp⟩
    obtain ⟨u, l, p⟩ := s
    subst hs
    exact ⟨(), hc, (), hu, (), hl, u, hpu, l, hpl, (), ho, (), hp, rfl⟩

theorem Stack.checkClean_eq_ok {s : Stack} {u : Unit} :
    s.checkClean env = .ok u ↔ (env.has .cleanStack → s.length = 1) := by
  simp only [checkClean, require_eq_ok, Decidable.imp_iff_not_or]

theorem Stack.takeRedeem_eq_ok {x : Bytes} {s t : Stack} {q : Program} :
    takeRedeem env (x :: s) = .ok (q, t) ↔
      x.length ≤ env.limits.scriptSize ∧ Program.ofScript ⟨x⟩ = .ok q ∧ t = s := by
  simp only [takeRedeem, bind_eq_ok, pure_eq_ok, Spend.acceptScript_eq_ok, Prod.mk.injEq]
  constructor
  · rintro ⟨_, hl, _, hq, rfl, rfl⟩
    exact ⟨hl, hq, rfl⟩
  · rintro ⟨hl, hq, rfl⟩
    exact ⟨(), hl, q, hq, rfl, rfl⟩

/-- The program runs to its end on `data` and leaves `left`, with a true element on top. -/
structure Program.Passes (env : Environment) (p : Program) (data left : Stack) : Prop where
  run_eq : p.run env data = .ok left
  result : left.checkResult = .ok ()

/-- The rest of a spend once the locking script has passed: for a script hash, the redeem script
passes on the stack that the unlocking script has left. -/
def Spend.Ends (env : Environment) (s : Spend) (saved left : Stack) : Prop :=
  if s.p2sh then
    ∃ redeem rest last, saved.takeRedeem env = .ok (redeem, rest) ∧
      redeem.Passes env rest last ∧ last.checkClean env = .ok ()
  else left.checkClean env = .ok ()

theorem evaluate_eq_ok_iff :
    evaluate env unlocking locking = .ok () ↔
      ∃ s saved left, Spend.prepare env unlocking locking = .ok s ∧
        s.unlocking.run env [] = .ok saved ∧ s.locking.Passes env saved left ∧
        s.Ends env saved left := by
  simp only [evaluate, bind_eq_ok]
  constructor
  · rintro ⟨s, hs, saved, hu, left, hl, _, hr, he⟩
    refine ⟨s, saved, left, hs, hu, ⟨hl, hr⟩, ?_⟩
    unfold Spend.Ends
    split at he
    next hp =>
      obtain ⟨⟨redeem, rest⟩, ht, he⟩ := bind_eq_ok.1 he
      obtain ⟨last, hlast, he⟩ := bind_eq_ok.1 he
      obtain ⟨_, hres, he⟩ := bind_eq_ok.1 he
      exact if_pos hp ▸ ⟨redeem, rest, last, ht, ⟨hlast, hres⟩, he⟩
    next hp => exact if_neg hp ▸ he
  · rintro ⟨s, saved, left, hs, hu, ⟨hl, hr⟩, he⟩
    refine ⟨s, hs, saved, hu, left, hl, (), hr, ?_⟩
    unfold Spend.Ends at he
    split at he
    next hp =>
      obtain ⟨redeem, rest, last, ht, ⟨hlast, hres⟩, he⟩ := he
      rw [if_pos hp]
      exact bind_eq_ok.2 ⟨(redeem, rest), ht, bind_eq_ok.2 ⟨last, hlast,
        bind_eq_ok.2 ⟨(), hres, he⟩⟩⟩
    next hp =>
      rw [if_neg hp]
      exact he

end BitcoinCash
