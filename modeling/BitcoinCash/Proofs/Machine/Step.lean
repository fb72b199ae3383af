import Mathlib.Data.Nat.Notation
import BitcoinCash.Proofs.Machine.Perform
import BitcoinCash.Proofs.Machine.Stack

namespace BitcoinCash

open Fallible (bind_eq_ok pure_eq_ok)

variable {env : Environment} {here : Place} {i : Instruction} {f g : Frame}

theorem isTrue_ofBool (v : Bool) : isTrue (ofBool v) = v := by
  cases v <;> rfl

theorem Frame.verifyTop_eq_ok {op : VerifyOp} :
    f.verifyTop op = .ok g ↔ ∃ x s, f.data = x :: s ∧ isTrue x ∧ g = f.withData s := by
  simp only [verifyTop, Stack.popBool, bind_eq_ok, pure_eq_ok, require_eq_ok, Stack.pop_eq_ok,
    Prod.exists, Prod.mk.injEq]
  constructor
  · rintro ⟨_, _, ⟨x, s, hs, rfl, rfl⟩, _, hv, rfl⟩
    exact ⟨x, s, hs, hv, rfl⟩
  · rintro ⟨x, s, hs, hv, rfl⟩
    exact ⟨_, s, ⟨x, s, hs, rfl, rfl⟩, (), hv, rfl⟩

namespace Operation

/-- The operation leaves one of the stacks in `R` for the stack of `f`, and nothing else changes. -/
def Acts (env : Environment) (here : Place) (i : Instruction) (f : Frame) (R : Stack → Prop)
    (o : Operation) : Prop :=
  ∀ g, o.run env here i f = .ok g ↔ ∃ t, R t ∧ g = f.withData t

theorem acts_dup : (dup 1).Acts env here i f fun t ↦ ∃ x s, f.data = x :: s ∧ t = x :: x :: s := by
  intro g
  simp only [run, Frame.onData, Stack.dupTop_eq, bind_eq_ok, pure_eq_ok, Stack.need_eq_ok]
  constructor
  · rintro ⟨_, ⟨_, hlen, rfl⟩, rfl⟩
    obtain ⟨x, s, hs⟩ := List.exists_cons_of_length_pos hlen
    exact ⟨_, ⟨x, s, hs, by rw [hs]; rfl⟩, rfl⟩
  · rintro ⟨_, ⟨x, s, hs, rfl⟩, rfl⟩
    exact ⟨_, ⟨(), by rw [hs]; exact Nat.succ_pos _, rfl⟩, by rw [hs]; rfl⟩

theorem acts_digest {k : DigestKind} :
    (digest k).Acts env here i f fun t ↦ ∃ x s, f.data = x :: s ∧ t = k.apply x :: s := by
  intro g
  simp only [run, bind_eq_ok, pure_eq_ok, Stack.pop_eq_ok, Prod.exists]
  constructor
  · rintro ⟨x, s, hs, rfl⟩
    exact ⟨_, ⟨x, s, hs, rfl⟩, rfl⟩
  · rintro ⟨_, ⟨x, s, hs, rfl⟩, rfl⟩
    exact ⟨x, s, hs, rfl⟩

theorem acts_equal :
    (equal .kept).Acts env here i f fun t ↦
      ∃ x y s, f.data = y :: x :: s ∧ t = ofBool (x == y) :: s := by
  intro g
  simp only [run, Frame.onData, Frame.settle, Splice.equal, bind_eq_ok, pure_eq_ok,
    Stack.pop_eq_ok, Prod.exists, Except.ok.injEq]
  constructor
  · rintro ⟨_, ⟨_, ⟨y, _, hs, x, s, rfl, rfl⟩, rfl⟩, rfl⟩
    exact ⟨_, ⟨x, y, s, hs, rfl⟩, rfl⟩
  · rintro ⟨_, ⟨x, y, s, hs, rfl⟩, rfl⟩
    exact ⟨_, ⟨_, ⟨y, x :: s, hs, x, s, rfl, rfl⟩, rfl⟩, rfl⟩

theorem acts_equalVerify :
    (equal .verified).Acts env here i f fun t ↦ ∃ x, f.data = x :: x :: t := by
  intro g
  have hrun : (equal .verified).run env here i f =
      (equal .kept).run env here i f >>= fun f ↦ f.verifyTop .equal := by
    simp only [run, bind_assoc]
    rfl
  rw [hrun, bind_eq_ok]
  constructor
  · rintro ⟨_, hkept, htrue⟩
    obtain ⟨_, ⟨x, y, s, hs, rfl⟩, rfl⟩ := (acts_equal _).1 hkept
    obtain ⟨_, _, htop, hv, rfl⟩ := Frame.verifyTop_eq_ok.1 htrue
    cases htop
    rw [isTrue_ofBool, beq_iff_eq] at hv
    exact ⟨s, ⟨x, by rw [hs, hv]⟩, rfl⟩
  · rintro ⟨t, ⟨x, hs⟩, rfl⟩
    refine ⟨_, (acts_equal _).2 ⟨_, ⟨x, x, t, hs, rfl⟩, rfl⟩, Frame.verifyTop_eq_ok.2 ?_⟩
    exact ⟨_, t, rfl, by rw [isTrue_ofBool, beq_self_eq_true], rfl⟩

end Operation

def Frame.after (k : ℕ) (s : Stack) : Frame := { Frame.start s with opCount := k }

namespace Instruction

variable {k : ℕ} {s : Stack} {h : Bytes} {op : Opcode} {R : Stack → Prop}
  (hlim : env.limits = {})
include hlim

theorem perform_eq_ok_of_acts (hi : Opcode.sixteen < op)
    (he : isDisabled env.flags ⟨op, []⟩ = false) (hk : k < 201)
    (hop : (Operation.ofOpcode op).Acts env here ⟨op, []⟩ (.after (k + 1) s) R) :
    perform env here ⟨op, []⟩ (.after k s) = .ok g ↔
      ∃ t, R t ∧ t.length ≤ 1000 ∧ g = .after (k + 1) t := by
  rw [perform_counted_eq_ok hi rfl, hlim]
  constructor
  · rintro ⟨-, -, -, hg, hsize⟩
    obtain ⟨t, ht, rfl⟩ := (hop g).1 hg
    exact ⟨t, ht, hsize, rfl⟩
  · rintro ⟨t, ht, hsize, rfl⟩
    exact ⟨Nat.zero_le _, hk, he, (hop _).2 ⟨t, ht, rfl⟩, hsize⟩

theorem perform_of_acts (hi : Opcode.sixteen < op)
    (he : isDisabled env.flags ⟨op, []⟩ = false) (hk : k < 201)
    (hop : (Operation.ofOpcode op).Acts env here ⟨op, []⟩ (.after (k + 1) s) R) {t : Stack}
    (ht : R t) (hsize : t.length ≤ 1000) :
    perform env here ⟨op, []⟩ (.after k s) = .ok (.after (k + 1) t) :=
  (perform_eq_ok_of_acts hlim hi he hk hop).2 ⟨t, ht, hsize, rfl⟩

theorem perform_pushHash_eq_ok (hh : h.length = 20) :
    perform env here ⟨20, h⟩ (.after k s) = .ok g ↔ s.length ≤ 999 ∧ g = .after k (h :: s) := by
  have small : (20 : Opcode) ≤ Opcode.sixteen := by decide
  have hshort : shortestPush h = 20 := by
    rw [shortestPush_of_length (by rw [hh]; decide) (by rw [hh]; decide), hh]
    rfl
  rw [perform_push_eq_ok small rfl, hlim]
  constructor
  · rintro ⟨-, -, hsize, x, hx, rfl⟩
    cases hx
    exact ⟨Nat.le_of_lt_succ hsize, rfl⟩
  · rintro ⟨hs, rfl⟩
    refine ⟨by rw [hh]; decide, ?_, Nat.lt_succ_of_le hs, h, rfl, rfl⟩
    exact fun _ _ ↦ require_eq_ok.2 hshort.symm

end Instruction

end BitcoinCash
