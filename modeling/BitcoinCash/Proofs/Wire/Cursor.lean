import BitcoinCash.Proofs.Wire.Reader
import BitcoinCash.Wire.Cursor

namespace BitcoinCash

section Sequencing

variable {ε ε' α β : Type} {f : ε → ε'} {b : Bytes} {k m : ℕ}

/-- From place `k` of `b` a read by place comes to the same as one off the front. The function says
how the errors of the latter are reported by the former, which has no faults of its own. -/
inductive Cursor.Agrees (f : ε → ε') (b : Bytes) (k : ℕ) :
    EStateM.Result ε' Cursor α → EStateM.Result ε Bytes α → Prop
  | ok {a : α} {m : ℕ} (hk : k ≤ m) (hm : m ≤ b.length) :
    Agrees f b k (.ok a ⟨b, m⟩) (.ok a (b.drop m))
  | error {e : ε} {m : ℕ} (hk : k ≤ m) (hm : m ≤ b.length) :
    Agrees f b k (.error (f e) ⟨b, m⟩) (.error e (b.drop m))

theorem Cursor.Agrees.mono {x : EStateM.Result ε' Cursor α} {y : EStateM.Result ε Bytes α}
    (h : Agrees f b m x y) (hk : k ≤ m) : Agrees f b k x y := by
  cases h with
  | ok hm hlen => exact .ok (Nat.le_trans hk hm) hlen
  | error hm hlen => exact .error (Nat.le_trans hk hm) hlen

def Follows (f : ε → ε') (x : EStateM ε' Cursor α) (y : EStateM ε Bytes α) : Prop :=
  ∀ b k, k ≤ b.length → Cursor.Agrees f b k (x ⟨b, k⟩) (y (b.drop k))

namespace Follows

variable {x : EStateM ε' Cursor α} {y : EStateM ε Bytes α}

theorem pure (f : ε → ε') (a : α) : Follows f (Pure.pure a) (Pure.pure a) :=
  fun _ k hk ↦ .ok (Nat.le_refl k) hk

theorem bind_of {g : α → EStateM ε' Cursor β} {h : α → EStateM ε Bytes β} (hx : Follows f x y)
    (hg : ∀ {a b rest}, y b = .ok a rest → Follows f (g a) (h a)) :
    Follows f (x >>= g) (y >>= h) := by
  intro b k hk
  have hfirst := hx b k hk
  change Cursor.Agrees f b k (EStateM.bind x g ⟨b, k⟩) (EStateM.bind y h (b.drop k))
  unfold EStateM.bind
  generalize x ⟨b, k⟩ = r at hfirst ⊢
  generalize hy : y (b.drop k) = s at hfirst ⊢
  cases hfirst with
  | @ok a m hm hlen => exact (hg hy b m hlen).mono hm
  | error hm hlen => exact .error hm hlen

theorem bind {g : α → EStateM ε' Cursor β} {h : α → EStateM ε Bytes β} (hx : Follows f x y)
    (hg : ∀ a, Follows f (g a) (h a)) : Follows f (x >>= g) (y >>= h) :=
  hx.bind_of fun {a _ _} _ ↦ hg a

theorem bind_pure (hx : Follows f x y) (v : α → β) :
    Follows f (x >>= fun a ↦ Pure.pure (v a)) (y >>= fun a ↦ Pure.pure (v a)) :=
  hx.bind fun a ↦ .pure f (v a)

theorem ite {c : Prop} [Decidable c] {x' : EStateM ε' Cursor α} {y' : EStateM ε Bytes α}
    (hx : Follows f x y) (hx' : Follows f x' y') :
    Follows f (if c then x else x') (if c then y else y') := by
  split
  · exact hx
  · exact hx'

/-- A field that is taken off the front is read in the middle of a string, with the place before it
and then right after it. -/
theorem of_takes (hx : Follows f x y) {w : Bytes} {a : α} (hy : Takes y w a) (s t : Bytes) :
    x ⟨s ++ w ++ t, s.length⟩ = .ok a ⟨s ++ w ++ t, (s ++ w).length⟩ := by
  have hread := hx (s ++ w ++ t) s.length (by simp)
  have hdrop : (s ++ w ++ t).drop s.length = w ++ t := by simp
  rw [hdrop] at hread
  generalize hr : x ⟨s ++ w ++ t, s.length⟩ = r at hread ⊢
  generalize hz : y (w ++ t) = z at hread
  rw [hy t] at hz
  cases hread with
  | @ok a' m _ hm =>
    injection hz with ha ht
    have hlen := congrArg List.length ht
    simp only [List.length_drop, List.length_append] at hlen hm ⊢
    obtain rfl : m = s.length + w.length := by omega
    rw [ha]
  | error => cases hz

end Follows

end Sequencing

namespace CursorReader

open CursorError (wire)

theorem slice_of_le {b : Bytes} {k n : ℕ} (h : k + n ≤ b.length) :
    Cursor.slice ⟨b, k⟩ k (k + n) = .ok ((b.drop k).take n) := by
  simp [Cursor.slice, h]

theorem follows_bytes (n : ℕ) : Follows wire (bytes n) (Reader.bytes n) := by
  intro b k hk
  by_cases hlen : b.length < k + n
  · have hrest : (b.drop k).length < n := by
      rw [List.length_drop]
      omega
    rw [Reader.bytes_of_lt hrest, bytes, if_pos hlen]
    exact .error (Nat.le_refl k) hk
  · have hle : k + n ≤ b.length := Nat.le_of_not_lt hlen
    have hrest : n ≤ (b.drop k).length := by
      rw [List.length_drop]
      omega
    rw [Reader.bytes_of_le hrest, bytes, if_neg hlen, slice_of_le hle, List.drop_drop]
    exact .ok (Nat.le_add_right k n) hle

theorem array_eq_bytes (n : ℕ) : array n = bytes n := by
  funext c
  cases h : bytes n c with
  | error e c' => exact Reader.bind_of_error h
  | ok b c' =>
    have hlen : b.length = n := by
      unfold bytes at h
      split at h
      · cases h
      · next hn =>
        rw [Cursor.slice, if_pos ⟨Nat.le_add_right _ _, Nat.le_of_not_lt hn⟩] at h
        cases h
        rw [List.length_take, List.length_drop]
        omega
    rw [array, Reader.bind_of_ok h, if_pos hlen]
    rfl

theorem follows_array (n : ℕ) : Follows wire (array n) (Reader.bytes n) := by
  rw [array_eq_bytes]
  exact follows_bytes n

theorem follows_natLE (width : ℕ) : Follows wire (natLE width) (Reader.natLE width) :=
  (follows_array width).bind_pure Bytes.toNatLE

theorem follows_u8 : Follows wire u8 Reader.u8 := (follows_natLE 1).bind_pure UInt8.ofNat

theorem follows_u16 : Follows wire u16 Reader.u16 := (follows_natLE 2).bind_pure UInt16.ofNat

theorem follows_u32 : Follows wire u32 Reader.u32 := (follows_natLE 4).bind_pure UInt32.ofNat

theorem follows_u64 : Follows wire u64 Reader.u64 := (follows_natLE 8).bind_pure UInt64.ofNat

theorem follows_compactSize : Follows wire compactSize Reader.compactSize := by
  refine follows_u8.bind fun tag ↦ .ite follows_u64 ?_
  refine .ite (follows_u32.bind_pure UInt32.toUInt64) ?_
  exact .ite (follows_u16.bind_pure UInt16.toUInt64) (.pure wire tag.toUInt64)

theorem follows_varBytes : Follows wire varBytes Reader.varBytes :=
  follows_compactSize.bind fun n ↦ follows_bytes n.toNat

end CursorReader

end BitcoinCash
