import BitcoinCash.Proofs.Machine.PushOnly
import BitcoinCash.Proofs.Machine.Spend

namespace BitcoinCash

variable {env : Environment} {i : Instruction} {f : Frame} {α β : Type}

/-- The rejection says that a script has not only pushes, or a push not its shortest form. -/
def Rejection.concernsPushes (r : Rejection) : Bool :=
  r.code = .notPushOnly || r.code = .minimalData

namespace Run

/-- The run is not rejected for what the script pushes or how. -/
def SparesPushes (x : Run α) : Prop := ∀ r, x = reject r → r.concernsPushes = false

theorem SparesPushes.ok (a : α) : SparesPushes (.ok a : Run α) := nofun

theorem SparesPushes.of_eq_ok {x : Run α} {a : α} (h : x = .ok a) : x.SparesPushes := h ▸ .ok a

theorem SparesPushes.reject {r : Rejection} (h : r.concernsPushes = false) :
    SparesPushes (reject r : Run α) := by
  intro s hs
  cases hs
  exact h

theorem SparesPushes.require {c : Prop} [Decidable c] {r : Rejection}
    (h : r.concernsPushes = false) : (require c r).SparesPushes := by
  unfold BitcoinCash.require
  split
  · exact .ok ()
  · exact .reject h

theorem SparesPushes.bind {x : Run α} {g : α → Run β} (hx : x.SparesPushes)
    (hg : ∀ a, x = .ok a → (g a).SparesPushes) : (x >>= g).SparesPushes := by
  intro r h
  cases hrun : x with
  | ok a =>
    rw [hrun] at h
    exact hg a hrun r h
  | error e =>
    rw [hrun] at h
    cases h
    exact hx r hrun

theorem SparesPushes.check {c : Prop} [Decidable c] {r : Rejection} {g : Unit → Run β}
    (h : r.concernsPushes = false) (hg : (g ()).SparesPushes) :
    (BitcoinCash.require c r >>= g).SparesPushes :=
  (SparesPushes.require h).bind fun _ _ ↦ hg

end Run

open Run (SparesPushes)

namespace Instruction

theorem sparesPushes_accept : (i.accept env f).SparesPushes :=
  .check rfl (.check rfl (.check rfl (.ok _)))

theorem sparesPushes_run {here : Place} (hi : i.op ≤ Opcode.sixteen) :
    ((Operation.ofOpcode i.op).run env here i f).SparesPushes := by
  rcases Operation.ofOpcode_of_le_sixteen hi with h | ⟨n, h⟩ | h
  all_goals rw [h]
  · exact .ok _
  · exact .ok _
  · exact .reject rfl

theorem sparesPushes_perform {here : Place} (hi : i.op ≤ Opcode.sixteen)
    (hshort : i.isPush → i.checkShortest = .ok ()) : (i.perform env here f).SparesPushes := by
  refine SparesPushes.bind (sparesPushes_accept.bind fun g _ ↦ ?_) fun _ _ ↦ .check rfl (.ok _)
  split
  · exact .ok _
  · split
    next h =>
      simp only [Bool.and_eq_true] at h
      exact (SparesPushes.of_eq_ok (hshort h.1.2)).bind fun _ _ ↦ sparesPushes_run hi
    next => exact sparesPushes_run hi

end Instruction

namespace Program

variable {p q rest : Program}

/-- The program consists of pushes, and a push of data has the shortest form. -/
structure KeepsPushPolicy (p : Program) : Prop where
  isPushOnly : p.isPushOnly
  checkShortest : ∀ i ∈ p, i.isPush → i.checkShortest = .ok ()

theorem keepsPushPolicy_cons :
    KeepsPushPolicy (i :: rest) ↔
      (i.op ≤ Opcode.sixteen ∧ (i.isPush → i.checkShortest = .ok ())) ∧ rest.KeepsPushPolicy := by
  constructor
  · rintro ⟨hpush, hshort⟩
    obtain ⟨hi, hrest⟩ := isPushOnly_cons.1 hpush
    obtain ⟨hishort, hshort⟩ := List.forall_mem_cons.1 hshort
    exact ⟨⟨hi, hishort⟩, hrest, hshort⟩
  · rintro ⟨⟨hi, hishort⟩, hrest, hshort⟩
    exact ⟨isPushOnly_cons.2 ⟨hi, hrest⟩, List.forall_mem_cons.2 ⟨hishort, hshort⟩⟩

theorem keepsPushPolicy_append :
    (p ++ q).KeepsPushPolicy ↔ p.KeepsPushPolicy ∧ q.KeepsPushPolicy := by
  constructor
  · rintro ⟨hpush, hshort⟩
    obtain ⟨hp, hq⟩ := isPushOnly_append.1 hpush
    obtain ⟨hpshort, hqshort⟩ := List.forall_mem_append.1 hshort
    exact ⟨⟨hp, hpshort⟩, hq, hqshort⟩
  · rintro ⟨⟨hp, hpshort⟩, hq, hqshort⟩
    exact ⟨isPushOnly_append.2 ⟨hp, hq⟩, List.forall_mem_append.2 ⟨hpshort, hqshort⟩⟩

theorem KeepsPushPolicy.sparesPushes_runFrom (h : rest.KeepsPushPolicy) (p : Program) (k : ℕ) :
    (p.runFrom env k rest f).SparesPushes := by
  induction rest generalizing k f with
  | nil => exact .ok _
  | cons i rest ih =>
    obtain ⟨⟨hi, hshort⟩, hrest⟩ := keepsPushPolicy_cons.1 h
    exact (i.sparesPushes_perform hi hshort).bind fun g _ ↦ ih hrest (k + 1)

theorem KeepsPushPolicy.sparesPushes_run (h : p.KeepsPushPolicy) {data : Stack} :
    (p.run env data).SparesPushes :=
  (h.sparesPushes_runFrom p 0).bind fun _ _ ↦ .check rfl (.ok _)

theorem sparesPushes_ofScript (s : Script) : (ofScript s).SparesPushes := by
  unfold ofScript
  split
  · exact .ok _
  · exact .reject rfl

end Program

def Spend.unlock (env : Environment) (unlocking locking : Script) : Run Stack := do
  let spend ← prepare env unlocking locking
  spend.unlocking.run env []

theorem evaluate_of_unlock_eq_error {unlocking locking : Script} {e : Halt}
    (h : Spend.unlock env unlocking locking = .error e) :
    evaluate env unlocking locking = .error e := by
  unfold Spend.unlock at h
  unfold evaluate
  cases hs : Spend.prepare env unlocking locking with
  | error e' =>
    rw [hs] at h
    cases h
    rfl
  | ok spend =>
    rw [hs, Fallible.ok_bind] at h
    rw [Fallible.ok_bind, h]
    rfl

theorem sparesPushes_prepare {unlocking locking : Script} {p : Program}
    (hp : Program.ofScript unlocking = .ok p) (h : p.isPushOnly) :
    (Spend.prepare env unlocking locking).SparesPushes := by
  refine .check rfl (.check rfl (.check rfl ?_))
  refine (Program.sparesPushes_ofScript unlocking).bind fun u hu ↦ ?_
  refine (Program.sparesPushes_ofScript locking).bind fun _ _ ↦ ?_
  obtain rfl : p = u := Except.ok.inj (hp.symm.trans hu)
  exact (SparesPushes.of_eq_ok (require_of (.inr h))).bind fun _ _ ↦
    (SparesPushes.of_eq_ok (require_of (.inr h))).bind fun _ _ ↦ .ok _

/-- Before the locking script is run, no rule on pushes is broken. -/
theorem Program.KeepsPushPolicy.sparesPushes_unlock {unlocking locking : Script} {p : Program}
    (h : p.KeepsPushPolicy) (hp : ofScript unlocking = .ok p) :
    (Spend.unlock env unlocking locking).SparesPushes := by
  refine (sparesPushes_prepare hp h.isPushOnly).bind fun spend hspend ↦ ?_
  have hread := (Spend.prepare_eq_ok_iff.1 hspend).unlocking_eq
  obtain rfl : p = spend.unlocking := Except.ok.inj (hp.symm.trans hread)
  exact h.sparesPushes_run

end BitcoinCash
