import Mathlib.Data.Nat.Notation
import BitcoinCash.Machine.Evaluate
import BitcoinCash.Proofs.Machine.Perform

namespace BitcoinCash

open Fallible (bind_eq_ok pure_eq_ok)

variable {env : Environment} {i : Instruction} {f g : Frame}

namespace Program

variable {p q rest : Program} {offset : ℕ} {data s : Stack}

theorem runFrom_append (xs ys : Program) :
    p.runFrom env offset (xs ++ ys) f =
      p.runFrom env offset xs f >>= p.runFrom env (offset + xs.length) ys := by
  induction xs generalizing offset f with
  | nil => rfl
  | cons i xs ih =>
    simp only [List.cons_append, runFrom, ih, List.length_cons, bind_assoc,
      Nat.add_assoc, Nat.add_comm 1]

theorem isPushOnly_cons : isPushOnly (i :: rest) ↔ i.op ≤ Opcode.sixteen ∧ isPushOnly rest := by
  simp [isPushOnly]

theorem isPushOnly_append : isPushOnly (p ++ q) ↔ isPushOnly p ∧ isPushOnly q := by
  simp [isPushOnly]

/-- Pushes only pile up, one element for each, and whatever program they are part of. -/
theorem runFrom_pushOnly (h : rest.isPushOnly)
    (hr : p.runFrom env offset rest (.start data) = .ok g) (q : Program) (k : ℕ) :
    q.runFrom env k rest (.start data) = .ok g ∧
      ∃ s, g = .start s ∧ s.length = data.length + rest.length := by
  induction rest generalizing data offset k with
  | nil =>
    cases hr
    exact ⟨rfl, data, rfl, rfl⟩
  | cons i rest ih =>
    obtain ⟨hi, h⟩ := isPushOnly_cons.1 h
    obtain ⟨f, hp, hr⟩ := bind_eq_ok.1 hr
    obtain ⟨hl, hs, hsize, x, hx, rfl⟩ := (Instruction.perform_push_eq_ok hi rfl).1 hp
    obtain ⟨hq, s, rfl, hlen⟩ := ih h hr (k + 1)
    refine ⟨bind_eq_ok.2 ⟨_, ?_, hq⟩, s, rfl, ?_⟩
    · exact (Instruction.perform_push_eq_ok hi rfl).2 ⟨hl, hs, hsize, x, hx, rfl⟩
    · rw [hlen, List.length_cons]
      simp only [Frame.start, List.length_cons]
      omega

theorem run_pushOnly_eq_ok (h : p.isPushOnly) :
    p.run env data = .ok s ↔ p.runFrom env 0 p (.start data) = .ok (.start s) := by
  simp only [run, bind_eq_ok, pure_eq_ok]
  constructor
  · rintro ⟨f, hf, _, -, rfl⟩
    obtain ⟨-, s, rfl, -⟩ := runFrom_pushOnly h hf p 0
    exact hf
  · intro hf
    exact ⟨_, hf, (), rfl, rfl⟩

theorem length_of_run_pushOnly (h : p.isPushOnly) (hr : p.run env data = .ok s) :
    s.length = data.length + p.length := by
  obtain ⟨-, t, ht, hlen⟩ := runFrom_pushOnly h ((run_pushOnly_eq_ok h).1 hr) p 0
  cases ht
  exact hlen

theorem run_concat_push (h : p.isPushOnly) (hi : i.op ≤ Opcode.sixteen) {t : Stack} :
    (p ++ [i]).run env data = .ok t ↔
      ∃ s x, p.run env data = .ok s ∧ i.data.length ≤ env.limits.elementSize ∧
        i.IsShortest env ∧ s.length < env.limits.stackSize ∧ i.pushed? = some x ∧ t = x :: s := by
  rw [run_pushOnly_eq_ok (isPushOnly_append.2 ⟨h, isPushOnly_cons.2 ⟨hi, rfl⟩⟩), runFrom_append]
  constructor
  · intro hr
    obtain ⟨f, hf, hlast⟩ := bind_eq_ok.1 hr
    obtain ⟨hp, s, rfl, -⟩ := runFrom_pushOnly h hf p 0
    obtain ⟨f, hlast, hnil⟩ := bind_eq_ok.1 hlast
    cases hnil
    obtain ⟨hl, hs, hsize, x, hx, ht⟩ := (Instruction.perform_push_eq_ok hi rfl).1 hlast
    exact ⟨s, x, (run_pushOnly_eq_ok h).2 hp, hl, hs, hsize, hx, congrArg Frame.data ht⟩
  · rintro ⟨s, x, hp, hl, hs, hsize, hx, rfl⟩
    have hf := (runFrom_pushOnly h ((run_pushOnly_eq_ok h).1 hp) (p ++ [i]) 0).1
    refine bind_eq_ok.2 ⟨_, hf, bind_eq_ok.2 ⟨_, ?_, rfl⟩⟩
    exact (Instruction.perform_push_eq_ok hi rfl).2 ⟨hl, hs, hsize, x, hx, rfl⟩

theorem exists_last_of_run (h : p.isPushOnly) {x : Bytes} (hr : p.run env [] = .ok (x :: s)) :
    ∃ q i, p = q ++ [i] ∧ i.pushed? = some x := by
  obtain rfl | ⟨q, i, rfl⟩ := List.eq_nil_or_concat p
  · cases hr
  rw [List.concat_eq_append] at h hr ⊢
  obtain ⟨hq, hi⟩ := isPushOnly_append.1 h
  obtain ⟨hi, -⟩ := isPushOnly_cons.1 hi
  obtain ⟨t, y, -, -, -, -, hy, ht⟩ := (run_concat_push hq hi).1 hr
  cases ht
  exact ⟨q, i, rfl, hy⟩

end Program

def Script.PushesLast (s : Script) (x : Bytes) : Prop :=
  ∃ p i, Program.ofScript s = .ok (p ++ [i]) ∧ i.pushed? = some x

end BitcoinCash
