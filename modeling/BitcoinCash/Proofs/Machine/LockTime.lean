import Mathlib.Data.Nat.Bitwise
import BitcoinCash.Machine.Execute
import BitcoinCash.Proofs.Machine.Number
import BitcoinCash.Proofs.Machine.Stack

namespace BitcoinCash

open Fallible (bind_eq_ok pure_eq_ok)

namespace LockTime

variable {env : Environment} {here : Place} {i : Instruction} {f g : Frame} {s : Stack} {u : Unit}
  {n : ℕ}

structure Reads (env : Environment) (x : Bytes) (n : ℕ) : Prop where
  length_le : x.length ≤ env.limits.lockTimeLength
  isMinimal : env.has .minimalData → Number.isMinimal x
  value_eq : Number.value x = n

/-- The transaction cannot be in a chain before the lock time `n`, a height or a time. -/
structure Unlocks (ctx : Context) (input n : ℕ) : Prop where
  sameKind : ctx.lockTime.toNat < 500000000 ↔ n < 500000000
  le_lockTime : n ≤ ctx.lockTime.toNat
  notFinal : ctx.sequence input ≠ 0xffffffff

/-- The input cannot be spent before its output has the age `n`: bit 31 says that there is no age
to wait for, bit 22 whether it is counted in blocks, and the lowest 16 bits how old it is. -/
structure Ages (ctx : Context) (input n : ℕ) : Prop where
  version : 2 ≤ ctx.version
  enabled : (ctx.sequence input).toNat.testBit 31 = false
  sameUnit : n.testBit 22 = (ctx.sequence input).toNat.testBit 22
  mod_le : n % 2 ^ 16 ≤ (ctx.sequence input).toNat % 2 ^ 16

theorem operand_eq_ok (hlimit : env.limits.lockTimeLength ≤ 8) {m : ℤ} :
    operand env s = .ok m ↔ ∃ x rest n, s = x :: rest ∧ Reads env x n ∧ m = n := by
  have hhead {x : Bytes} : s[0]? = some x ↔ ∃ rest, s = x :: rest := by
    cases s <;> simp
  simp only [operand, Stack.peekNumber, bind_eq_ok, pure_eq_ok, require_eq_ok, Stack.peek_eq_ok,
    Number.decode_eq_ok, hhead]
  constructor
  · rintro ⟨m, ⟨x, ⟨rest, rfl⟩, ⟨hlen, -⟩, hminimal, hvalue⟩, _, hm, rfl⟩
    obtain ⟨n, rfl⟩ := Int.eq_ofNat_of_zero_le hm
    exact ⟨x, rest, n, rfl, ⟨hlen, hminimal, hvalue⟩, rfl⟩
  · rintro ⟨x, rest, n, rfl, hx, rfl⟩
    have hlen : x.length ≤ 8 := hx.length_le.trans hlimit
    exact ⟨n, ⟨x, ⟨rest, rfl⟩, ⟨hx.length_le, hlen⟩, hx.isMinimal, hx.value_eq⟩, (),
      Int.natCast_nonneg n, rfl⟩

theorem contextFor_eq_ok {op : Opcode} {ctx : Context} :
    contextFor env op = .ok ctx ↔ env.context = some ctx := by
  unfold contextFor
  cases env.context <;> simp [reject_ne_ok]

theorem compare_eq_ok {transaction bound required : ℤ} :
    compare transaction bound required = .ok u ↔
      (transaction < bound ↔ required < bound) ∧ required ≤ transaction := by
  simp only [compare, bind_eq_ok, require_eq_ok, exists_const]

theorem unlocks_iff {ctx : Context} {input : ℕ} :
    compare ctx.lockTime.toNat threshold n = .ok u ∧ ctx.sequence input ≠ 0xffffffff ↔
      Unlocks ctx input n := by
  rw [compare_eq_ok, threshold]
  constructor
  · rintro ⟨⟨hkind, hle⟩, hfinal⟩
    exact ⟨by omega, by omega, hfinal⟩
  · rintro ⟨hkind, hle, hfinal⟩
    exact ⟨⟨by omega, by omega⟩, hfinal⟩

theorem and_mask (n : ℕ) : n &&& mask = 2 ^ 22 * (n.testBit 22).toNat + n % 2 ^ 16 := by
  have hlow : n % 2 ^ 16 < 2 ^ 22 := (Nat.mod_lt n (by decide)).trans (by decide)
  have hmask : mask = 2 ^ 22 ||| 2 ^ 16 - 1 := by decide
  rw [hmask, Nat.and_or_distrib_left, Nat.and_two_pow, Nat.and_two_pow_sub_one_eq_mod, Nat.mul_comm,
    Nat.two_pow_add_eq_or_of_lt hlow]

theorem compare_masked_eq_ok {k : ℕ} :
    compare (k &&& mask : ℕ) timeBit (n &&& mask : ℕ) = .ok u ↔
      n.testBit 22 = k.testBit 22 ∧ n % 2 ^ 16 ≤ k % 2 ^ 16 := by
  have hn : n % 2 ^ 16 < 2 ^ 16 := Nat.mod_lt n (by decide)
  have hk : k % 2 ^ 16 < 2 ^ 16 := Nat.mod_lt k (by decide)
  rw [compare_eq_ok, timeBit, and_mask, and_mask]
  cases n.testBit 22 <;> cases k.testBit 22
  all_goals
    simp only [Bool.toNat_false, Bool.toNat_true, reduceCtorEq, eq_self, false_and, true_and,
      iff_false]
    omega

theorem ages_iff {ctx : Context} {input : ℕ} :
    (2 ≤ ctx.version ∧ ¬ (ctx.sequence input).toNat.testBit disabledBit ∧
      compare ((ctx.sequence input).toNat &&& mask : ℕ) timeBit (n &&& mask : ℕ) = .ok u) ↔
      Ages ctx input n := by
  rw [compare_masked_eq_ok, Bool.not_eq_true]
  exact ⟨fun ⟨hversion, henabled, hunit, hle⟩ ↦ ⟨hversion, henabled, hunit, hle⟩,
    fun ⟨hversion, henabled, hunit, hle⟩ ↦ ⟨hversion, henabled, hunit, hle⟩⟩

theorem checkLockTime_eq_ok (hlimit : env.limits.lockTimeLength ≤ 8)
    (hflag : env.has .checkLockTimeVerify) :
    checkLockTime env s = .ok u ↔ ∃ x rest n, s = x :: rest ∧ Reads env x n ∧
      ∃ ctx, env.context = some ctx ∧ Unlocks ctx env.input n := by
  rw [checkLockTime, if_pos hflag]
  simp only [bind_eq_ok, operand_eq_ok hlimit, contextFor_eq_ok, require_eq_ok]
  constructor
  · rintro ⟨_, ⟨x, rest, n, hs, hx, rfl⟩, ctx, hctx, _, hcompare, hfinal⟩
    exact ⟨x, rest, n, hs, hx, ctx, hctx, unlocks_iff.1 ⟨hcompare, hfinal⟩⟩
  · rintro ⟨x, rest, n, hs, hx, ctx, hctx, h⟩
    obtain ⟨hcompare, hfinal⟩ := unlocks_iff.2 h
    exact ⟨n, ⟨x, rest, n, hs, hx, rfl⟩, ctx, hctx, (), hcompare, hfinal⟩

theorem checkSequence_eq_ok (hlimit : env.limits.lockTimeLength ≤ 8)
    (hflag : env.has .checkSequenceVerify) :
    checkSequence env s = .ok u ↔ ∃ x rest n, s = x :: rest ∧ Reads env x n ∧
      (n.testBit 31 ∨ ∃ ctx, env.context = some ctx ∧ Ages ctx env.input n) := by
  rw [checkSequence, if_pos hflag]
  simp only [bind_eq_ok, operand_eq_ok hlimit]
  constructor
  · rintro ⟨_, ⟨x, rest, n, hs, hx, rfl⟩, h⟩
    refine ⟨x, rest, n, hs, hx, ?_⟩
    by_cases hbit : n.testBit 31
    · exact .inl hbit
    · have hconsults := Run.onlyIf_eq_ok.1 h (by simpa [disabledBit] using hbit)
      obtain ⟨ctx, hctx, h⟩ := bind_eq_ok.1 hconsults
      right
      simp only [bind_eq_ok, require_eq_ok, exists_const, ages_iff] at h
      exact ⟨ctx, contextFor_eq_ok.1 hctx, h⟩
  · rintro ⟨x, rest, n, hs, hx, h⟩
    refine ⟨n, ⟨x, rest, n, hs, hx, rfl⟩, Run.onlyIf_eq_ok.2 ?_⟩
    intro hbit
    obtain ⟨ctx, hctx, h⟩ := h.resolve_left (by simpa [disabledBit] using hbit)
    refine bind_eq_ok.2 ⟨ctx, contextFor_eq_ok.2 hctx, ?_⟩
    simp only [bind_eq_ok, require_eq_ok, exists_const]
    exact ages_iff.2 h

theorem check_frame_eq_ok {check : Run Unit} :
    (do check; return f) = .ok g ↔ g = f ∧ check = .ok () := by
  simp only [bind_eq_ok, pure_eq_ok]
  constructor
  · rintro ⟨_, hcheck, rfl⟩
    exact ⟨rfl, hcheck⟩
  · rintro ⟨rfl, hcheck⟩
    exact ⟨(), hcheck, rfl⟩

/-- Under its flag, a check of a lock time comes to its end exactly if the top of the stack is a
number that its rule lets pass, where an age that bit 31 disables asks for nothing; and with or
without its flag it leaves both stacks as they are. -/
theorem run_lockTimes_eq_ok (hlimit : env.limits.lockTimeLength ≤ 8) :
    (env.has .checkLockTimeVerify →
      ((Operation.ofOpcode .checkLockTimeVerify).run env here i f = .ok g ↔
        g = f ∧ ∃ x rest n, f.data = x :: rest ∧ Reads env x n ∧
          ∃ ctx, env.context = some ctx ∧ Unlocks ctx env.input n)) ∧
    (env.has .checkSequenceVerify →
      ((Operation.ofOpcode .checkSequenceVerify).run env here i f = .ok g ↔
        g = f ∧ ∃ x rest n, f.data = x :: rest ∧ Reads env x n ∧
          (n.testBit 31 ∨ ∃ ctx, env.context = some ctx ∧ Ages ctx env.input n))) ∧
    ∀ op : Opcode, op = .checkLockTimeVerify ∨ op = .checkSequenceVerify →
      (Operation.ofOpcode op).run env here i f = .ok g → g.data = f.data ∧ g.alt = f.alt := by
  refine ⟨?_, ?_, ?_⟩
  · intro hflag
    rw [← checkLockTime_eq_ok (u := ()) hlimit hflag]
    exact check_frame_eq_ok
  · intro hflag
    rw [← checkSequence_eq_ok (u := ()) hlimit hflag]
    exact check_frame_eq_ok
  · intro op hop h
    have hframe : g = f := by
      rcases hop with rfl | rfl <;> exact (check_frame_eq_ok.1 h).1
    rw [hframe]
    exact ⟨rfl, rfl⟩

theorem run_lockTimes_eq_ok_reached :
    let ctx : Context := ⟨fun _ _ _ _ _ ↦ .ok false, 500000000, 2, fun _ ↦ 0x7f401234⟩
    let env : Environment :=
      { flags := .checkLockTimeVerify ||| .checkSequenceVerify ||| .minimalData
        context := some ctx }
    let time : Frame := .start [[0x00, 0x65, 0xcd, 0x1d]]
    let age : Frame := .start [[0x34, 0x12, 0xff, 0x7f, 0x7f]]
    env.limits.lockTimeLength ≤ 8 ∧ env.has .checkLockTimeVerify ∧ env.has .checkSequenceVerify ∧
      (Operation.ofOpcode .checkLockTimeVerify).run env ⟨[], 0⟩ ⟨0xb1, []⟩ time = .ok time ∧
      (Operation.ofOpcode .checkSequenceVerify).run env ⟨[], 0⟩ ⟨0xb2, []⟩ age = .ok age := by
  intro ctx env time age
  have hlimit : env.limits.lockTimeLength ≤ 8 := by decide
  have hlock : env.has .checkLockTimeVerify := by decide
  have hsequence : env.has .checkSequenceVerify := by decide
  have htime : Reads env [0x00, 0x65, 0xcd, 0x1d] 500000000 :=
    ⟨by decide, fun _ ↦ by decide, rfl⟩
  have hage : Reads env [0x34, 0x12, 0xff, 0x7f, 0x7f] 0x7f7fff1234 :=
    ⟨by decide, fun _ ↦ by decide, rfl⟩
  refine ⟨hlimit, hlock, hsequence, ?_, ?_⟩
  · exact ((run_lockTimes_eq_ok hlimit).1 hlock).2
      ⟨rfl, _, _, _, rfl, htime, ctx, rfl, by decide, by decide, by decide⟩
  · exact ((run_lockTimes_eq_ok hlimit).2.1 hsequence).2
      ⟨rfl, _, _, _, rfl, hage, .inr ⟨ctx, rfl, by decide, by decide, by decide, by decide⟩⟩

end LockTime

end BitcoinCash
