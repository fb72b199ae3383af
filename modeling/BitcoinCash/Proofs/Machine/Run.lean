import BitcoinCash.Machine.Halt
import BitcoinCash.Proofs.Fallible

namespace BitcoinCash

open Fallible (bind_eq_ok)

variable {α β : Type}

namespace Run

theorem onlyIf_eq_ok {c : Prop} [Decidable c] {x : Run Unit} {u : Unit} :
    (if c then x else pure ()) = .ok u ↔ (c → x = .ok ()) := by
  split
  next hc => exact ⟨fun h _ ↦ h, fun h ↦ h hc⟩
  next hc => exact ⟨fun _ h ↦ absurd h hc, fun _ ↦ rfl⟩

theorem checkIf_eq_ok {c : Prop} [Decidable c] {x : Run Unit} {g : Unit → Run β} {b : β} :
    (if c then x >>= g else g ()) = .ok b ↔ (c → x = .ok ()) ∧ g () = .ok b := by
  split
  next hc =>
    rw [bind_eq_ok]
    exact ⟨fun ⟨(), hx, hg⟩ ↦ ⟨fun _ ↦ hx, hg⟩, fun ⟨hx, hg⟩ ↦ ⟨(), hx hc, hg⟩⟩
  next hc => exact ⟨fun hg ↦ ⟨fun h ↦ absurd h hc, hg⟩, And.right⟩

/-- Whatever `x` yields `y` yields too. -/
def Below (x y : Run α) : Prop := ∀ a, x = .ok a → y = .ok a

theorem Below.refl (x : Run α) : Below x x := fun _ h ↦ h

theorem Below.of_eq {x y : Run α} (h : x = y) : Below x y := h ▸ .refl x

theorem Below.bind {x y : Run α} {g k : α → Run β} (h : Below x y) (hk : ∀ a, Below (g a) (k a)) :
    Below (x >>= g) (y >>= k) := by
  intro b hb
  obtain ⟨a, ha, hb⟩ := bind_eq_ok.1 hb
  exact bind_eq_ok.2 ⟨a, h a ha, hk a b hb⟩

theorem Below.ite {c : Prop} [Decidable c] {x y u v : Run α} (h : Below x y) (k : Below u v) :
    Below (if c then x else u) (if c then y else v) := by
  split
  · exact h
  · exact k

theorem Below.onlyIf {c d : Bool} {x y : Run Unit} (h : d → c) (hx : Below x y) :
    Below (if c then x else .ok ()) (if d then y else .ok ()) := by
  intro a ha
  split
  next hd =>
    rw [if_pos (h hd)] at ha
    exact hx a ha
  next => rfl

theorem Below.checkIf {c d : Bool} {x y : Run Unit} {g k : Unit → Run β} (h : d → c)
    (hx : Below x y) (hk : Below (g ()) (k ())) :
    Below (if c then x >>= g else g ()) (if d then y >>= k else k ()) := by
  intro b hb
  have kb : k () = .ok b := by
    refine hk b ?_
    split at hb
    · exact (bind_eq_ok.1 hb).choose_spec.2
    · exact hb
  split
  next hd =>
    rw [if_pos (h hd)] at hb
    obtain ⟨a, ha, -⟩ := bind_eq_ok.1 hb
    exact bind_eq_ok.2 ⟨a, hx a ha, kb⟩
  next => exact kb

end Run

theorem reject_ne_ok {r : Rejection} {a : α} : reject r ≠ .ok a := nofun

theorem require_eq_ok {c : Prop} [Decidable c] {r : Rejection} {u : Unit} :
    require c r = .ok u ↔ c := by
  simp [require, reject_ne_ok]

theorem require_of {c : Prop} [Decidable c] {r : Rejection} (h : c) : require c r = .ok () :=
  if_pos h

theorem require_of_not {c : Prop} [Decidable c] {r : Rejection} (h : ¬ c) :
    require c r = reject r :=
  if_neg h

theorem require_bind_congr {c : Prop} [Decidable c] {r : Rejection} {x y : Unit → Run α}
    (h : c → x () = y ()) : require c r >>= x = require c r >>= y := by
  by_cases hc : c
  · rw [require_of hc]
    exact h hc
  · rw [require_of_not hc]
    rfl

theorem Run.below_require {c d : Prop} [Decidable c] [Decidable d] {r s : Rejection} (h : c → d) :
    Below (require c r) (require d s) :=
  fun _ hc ↦ require_eq_ok.2 (h (require_eq_ok.1 hc))

end BitcoinCash
