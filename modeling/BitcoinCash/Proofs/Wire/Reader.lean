import Mathlib.Data.Nat.Notation
import BitcoinCash.Proofs.Bytes.Digits
import BitcoinCash.Wire.Reader
import BitcoinCash.Wire.Writer

namespace BitcoinCash

namespace Reader

variable {ε σ α β : Type} {x : EStateM ε σ α} {g : α → EStateM ε σ β} {s s' : σ}

theorem bind_of_ok {a : α} (h : x s = .ok a s') : (x >>= g) s = g a s' := by
  change EStateM.bind x g s = _
  rw [EStateM.bind, h]

theorem bind_of_error {e : ε} (h : x s = .error e s') : (x >>= g) s = .error e s' := by
  change EStateM.bind x g s = _
  rw [EStateM.bind, h]

theorem bind_eq_ok {c : β} :
    (x >>= g) s = .ok c s' ↔ ∃ a t, x s = .ok a t ∧ g a t = .ok c s' := by
  cases h : x s with
  | ok a t => simp [bind_of_ok h]
  | error e t => simp [bind_of_error h]

theorem bind_eq_error {e : ε} :
    (x >>= g) s = .error e s' ↔
      x s = .error e s' ∨ ∃ a t, x s = .ok a t ∧ g a t = .error e s' := by
  cases h : x s with
  | ok a t => simp [bind_of_ok h]
  | error e' t => simp [bind_of_error h]

theorem pure_eq_ok {a b : α} : (pure a : EStateM ε σ α) s = .ok b s' ↔ a = b ∧ s = s' := by
  simp [pure, EStateM.pure]

end Reader

/-- The reader takes `w` off the front, whatever follows it, and makes `a` of it. -/
def Takes {ε α : Type} (x : EStateM ε Bytes α) (w : Bytes) (a : α) : Prop :=
  ∀ rest, x (w ++ rest) = .ok a rest

namespace Takes

variable {ε α β : Type} {x : EStateM ε Bytes α} {g : α → EStateM ε Bytes β} {w v : Bytes} {a b : α}
  {c : β}

theorem pure (a : α) : Takes (Pure.pure a : EStateM ε Bytes α) [] a := fun _ ↦ rfl

theorem bind (h : Takes x w a) (hg : Takes (g a) v c) : Takes (x >>= g) (w ++ v) c := by
  intro rest
  rw [List.append_assoc, Reader.bind_of_ok (h (v ++ rest))]
  exact hg rest

theorem bind_pure (h : Takes x w a) (k : α → β) :
    Takes (x >>= fun a ↦ Pure.pure (k a)) w (k a) := by
  have hlast : Takes (x >>= fun a ↦ Pure.pure (k a)) (w ++ []) (k a) := h.bind (.pure (k a))
  rwa [List.append_nil] at hlast

/-- Two fields that one reader takes are told apart by what they say, whatever follows them. -/
theorem inj {s t : Bytes} (hw : Takes x w a) (hv : Takes x v b) (h : w ++ s = v ++ t) :
    a = b ∧ s = t := by
  have heq := hw s
  rw [h, hv t] at heq
  cases heq
  exact ⟨rfl, rfl⟩

theorem unique (hw : Takes x w a) (hv : Takes x w b) : a = b :=
  (hw.inj hv (rfl : w ++ [] = w ++ [])).1

theorem map_inj {γ : Type} {f : γ → Bytes} {k : γ → α} {xs ys : List γ} (hne : ∀ z, f z ≠ [])
    (hxs : ∀ z ∈ xs, Takes x (f z) (k z)) (hys : ∀ z ∈ ys, Takes x (f z) (k z))
    (h : xs.flatMap f = ys.flatMap f) : xs.map k = ys.map k := by
  induction xs generalizing ys with
  | nil =>
    cases ys with
    | nil => rfl
    | cons y ys =>
      have hy : f y = [] := (List.append_eq_nil_iff.1 h.symm).1
      exact absurd hy (hne y)
  | cons z xs ih =>
    cases ys with
    | nil =>
      have hz : f z = [] := (List.append_eq_nil_iff.1 h).1
      exact absurd hz (hne z)
    | cons y ys =>
      obtain ⟨hz, hxs⟩ := List.forall_mem_cons.1 hxs
      obtain ⟨hy, hys⟩ := List.forall_mem_cons.1 hys
      obtain ⟨hhead, htail⟩ := hz.inj hy h
      rw [List.map_cons, List.map_cons, hhead, ih hxs hys htail]

end Takes

namespace Reader

theorem bytes_of_le {n : ℕ} {b : Bytes} (h : n ≤ b.length) :
    bytes n b = .ok (b.take n) (b.drop n) :=
  if_pos (List.length_take_of_le h)

theorem bytes_of_lt {n : ℕ} {b : Bytes} (h : b.length < n) :
    bytes n b = .error .endOfData b := by
  have hlen : (b.take n).length ≠ n := by
    rw [List.length_take]
    omega
  exact if_neg hlen

theorem takes_bytes {n : ℕ} {b : Bytes} (h : b.length = n) : Takes (bytes n) b b := by
  intro rest
  subst h
  simp [bytes]

theorem takes_natLE {width n : ℕ} (h : n < 256 ^ width) :
    Takes (natLE width) (Bytes.ofNatLE width n) n := by
  have hread := (takes_bytes (Bytes.length_ofNatLE width n)).bind_pure Bytes.toNatLE
  rwa [Bytes.toNatLE_ofNatLE h] at hread

theorem takes_u8 (v : UInt8) : Takes u8 (Wire.u8 v) v := by
  have hlt : v.toNat < 256 ^ 1 := v.toNat_lt
  have hread := (takes_natLE hlt).bind_pure UInt8.ofNat
  have hbyte : Bytes.ofNatLE 1 v.toNat = Wire.u8 v := by simp [Bytes.ofNatLE, Wire.u8]
  rwa [UInt8.ofNat_toNat, hbyte] at hread

theorem takes_u16 (v : UInt16) : Takes u16 (Bytes.ofNatLE 2 v.toNat) v := by
  have hlt : v.toNat < 256 ^ 2 := v.toNat_lt
  have hread := (takes_natLE hlt).bind_pure UInt16.ofNat
  rwa [UInt16.ofNat_toNat] at hread

theorem takes_u32 (v : UInt32) : Takes u32 (Wire.u32 v) v := by
  have hlt : v.toNat < 256 ^ 4 := v.toNat_lt
  have hread := (takes_natLE hlt).bind_pure UInt32.ofNat
  rwa [UInt32.ofNat_toNat] at hread

theorem takes_u64 (v : UInt64) : Takes u64 (Wire.u64 v) v := by
  have hlt : v.toNat < 256 ^ 8 := v.toNat_lt
  have hread := (takes_natLE hlt).bind_pure UInt64.ofNat
  rwa [UInt64.ofNat_toNat] at hread

section Results

variable {rest rest' : Bytes}

theorem bytes_eq_ok {n : ℕ} {b a : Bytes} :
    bytes n b = .ok a rest ↔ a.length = n ∧ b = a ++ rest := by
  constructor
  · intro h
    simp only [bytes] at h
    split at h
    · next hlen =>
      cases h
      exact ⟨hlen, (List.take_append_drop n b).symm⟩
    · cases h
  · intro h
    rw [h.2]
    exact takes_bytes h.1 rest

theorem natLE_eq_ok {width n : ℕ} {b : Bytes} :
    natLE width b = .ok n rest ↔ n < 256 ^ width ∧ b = Bytes.ofNatLE width n ++ rest := by
  constructor
  · intro h
    obtain ⟨a, t, ha, hn⟩ := bind_eq_ok.1 h
    obtain ⟨hlen, hb⟩ := bytes_eq_ok.1 ha
    obtain ⟨rfl, rfl⟩ := pure_eq_ok.1 hn
    subst hlen
    exact ⟨Bytes.toNatLE_lt a, by rw [hb, Bytes.ofNatLE_toNatLE]⟩
  · intro h
    rw [h.2]
    exact takes_natLE h.1 rest

theorem eq_of_natLE {α : Type} {width : ℕ} {k : ℕ → α} {f : α → ℕ} {a : α} {b : Bytes}
    (hk : ∀ n < 256 ^ width, f (k n) = n)
    (h : (natLE width >>= fun n ↦ pure (k n)) b = .ok a rest) :
    b = Bytes.ofNatLE width (f a) ++ rest := by
  obtain ⟨n, t, hn, ha⟩ := bind_eq_ok.1 h
  obtain ⟨hlt, hb⟩ := natLE_eq_ok.1 hn
  obtain ⟨rfl, rfl⟩ := pure_eq_ok.1 ha
  rw [hb, hk n hlt]

theorem u8_eq_ok {b : Bytes} {v : UInt8} : u8 b = .ok v rest ↔ b = Wire.u8 v ++ rest := by
  constructor
  · intro h
    rw [eq_of_natLE (f := UInt8.toNat) (fun n hn ↦ UInt8.toNat_ofNat_of_lt' hn) h]
    simp [Bytes.ofNatLE, Wire.u8]
  · intro h
    rw [h]
    exact takes_u8 v rest

theorem u16_eq_ok {b : Bytes} {v : UInt16} :
    u16 b = .ok v rest ↔ b = Bytes.ofNatLE 2 v.toNat ++ rest := by
  constructor
  · exact eq_of_natLE fun n hn ↦ UInt16.toNat_ofNat_of_lt' hn
  · intro h
    rw [h]
    exact takes_u16 v rest

theorem u32_eq_ok {b : Bytes} {v : UInt32} : u32 b = .ok v rest ↔ b = Wire.u32 v ++ rest := by
  constructor
  · exact eq_of_natLE fun n hn ↦ UInt32.toNat_ofNat_of_lt' hn
  · intro h
    rw [h]
    exact takes_u32 v rest

theorem u64_eq_ok {b : Bytes} {v : UInt64} : u64 b = .ok v rest ↔ b = Wire.u64 v ++ rest := by
  constructor
  · exact eq_of_natLE fun n hn ↦ UInt64.toNat_ofNat_of_lt' hn
  · intro h
    rw [h]
    exact takes_u64 v rest

end Results

end Reader

end BitcoinCash
