import BitcoinCash.Proofs.Machine.Run

namespace BitcoinCash

variable {α β : Type}

/-- A value that the run yields has `Q`, and the run is at fault only under the condition `c`. -/
inductive Run.Meets (c : Prop) (Q : α → Prop) : Run α → Prop
  | ok {a : α} : Q a → Meets c Q (.ok a)
  | rejected {r : Rejection} : Meets c Q (.error (.rejected r))
  | fault {e : Fault} : c → Meets c Q (.error (.fault e))

namespace Run.Meets

variable {c : Prop} {P Q : α → Prop} {R : β → Prop} {x y : Run α} {a : α}

theorem of_ok (h : Meets c Q x) (hx : x = .ok a) : Q a := by
  subst hx
  cases h with
  | ok ha => exact ha

/-- A run that goes no further is of any type. -/
theorem of_error {e : Halt} (h : Meets c P x) (hx : x = .error e) :
    Meets c R (.error e : Run β) := by
  subst hx
  cases h with
  | rejected => exact .rejected
  | fault h => exact .fault h

theorem not_fault (h : Meets c Q x) (hc : ¬ c) (e : Fault) : x ≠ .error (.fault e) := by
  intro hx
  subst hx
  cases h with
  | fault h => exact hc h

theorem ok_or_rejected (h : Meets c Q x) (hc : ¬ c) :
    (∃ a, x = .ok a) ∨ ∃ r, x = .error (.rejected r) := by
  cases h with
  | ok => exact .inl ⟨_, rfl⟩
  | rejected => exact .inr ⟨_, rfl⟩
  | fault h => exact absurd h hc

theorem mono (h : Meets c P x) (hPQ : ∀ a, P a → Q a) : Meets c Q x := by
  cases h with
  | ok ha => exact .ok (hPQ _ ha)
  | rejected => exact .rejected
  | fault h => exact .fault h

theorem any (x : Run α) : Meets True (fun _ ↦ True) x := by
  match x with
  | .ok _ => exact .ok trivial
  | .error (.rejected _) => exact .rejected
  | .error (.fault _) => exact .fault trivial

theorem pure (h : Q a) : Meets c Q (Pure.pure a : Run α) := .ok h

theorem bind {g : α → Run β} (h : Meets c P x) (hg : ∀ a, P a → Meets c R (g a)) :
    Meets c R (x >>= g) := by
  cases h with
  | ok ha => exact hg _ ha
  | rejected => exact .rejected
  | fault h => exact .fault h

theorem ite {d : Prop} [Decidable d] (hx : d → Meets c Q x) (hy : ¬ d → Meets c Q y) :
    Meets c Q (if d then x else y) := by
  split
  next hd => exact hx hd
  next hd => exact hy hd

theorem checkIf {d : Prop} [Decidable d] {y : Run Unit} {g : Unit → Run α}
    (hy : d → Meets c (fun _ ↦ True) y) (hg : Meets c Q (g ())) :
    Meets c Q (if d then y >>= g else g ()) :=
  ite (fun hd ↦ (hy hd).bind fun _ _ ↦ hg) fun _ ↦ hg

end Run.Meets

open Run (Meets)

variable {c d : Prop} [Decidable d] {Q : α → Prop} {r : Rejection}

theorem meets_require : Meets c (fun _ ↦ d) (require d r) := by
  unfold require
  split
  next hd => exact .ok hd
  next => exact .rejected

theorem meets_check : Meets c (fun _ ↦ True) (require d r) := meets_require.mono fun _ _ ↦ trivial

theorem meets_require_bind {g : Unit → Run α} (hg : d → Meets c Q (g ())) :
    Meets c Q (require d r >>= g) :=
  meets_require.bind fun _ hd ↦ hg hd

end BitcoinCash
