import BitcoinCash.Machine.Execute
import BitcoinCash.Proofs.Machine.ShortestNumber

namespace BitcoinCash

open Fallible (ok_bind)

variable {b e : Bytes} {last : UInt8} {size : ℕ} {n : ℤ}

def Run.RejectedAs {α : Type} (x : Run α) (code : RejectCode) : Prop :=
  ∃ r, x = reject r ∧ r.code = code

theorem Run.rejectedAs_reject {α : Type} {r : Rejection} {code : RejectCode} :
    RejectedAs (reject r : Run α) code ↔ r.code = code := by
  constructor
  · rintro ⟨_, heq, hcode⟩
    cases heq
    exact hcode
  · exact fun hcode ↦ ⟨r, rfl, hcode⟩

theorem Run.not_rejectedAs_ok {α : Type} {a : α} {code : RejectCode} :
    ¬ RejectedAs (.ok a : Run α) code := by
  rintro ⟨_, heq, -⟩
  cases heq

namespace Frame

variable {f : Frame} {g : Stack → Run Stack} {s t : Stack}

theorem onData_ok (hf : f.data = s) (h : g s = .ok t) : f.onData g = .ok (f.withData t) := by
  rw [onData, hf, h]
  rfl

theorem onData_error {x : Halt} (hf : f.data = s) (h : g s = .error x) : f.onData g = .error x := by
  rw [onData, hf, h]
  rfl

end Frame

namespace Number

theorem and_sign_and_magnitude : last &&& 0x80 &&& 0x7f = 0 := by
  rw [UInt8.and_assoc]
  exact UInt8.and_zero

theorem and_magnitude_or_and_sign : (last &&& 0x7f) ||| (last &&& 0x80) = last := by
  apply UInt8.eq_of_toBitVec_eq
  rw [UInt8.toBitVec_or, UInt8.toBitVec_and, UInt8.toBitVec_and, ← BitVec.and_or_distrib_left]
  exact BitVec.and_allOnes

theorem value_append_zeros (hlast : last &&& 0x7f = 0) (b : Bytes) (k : ℕ) :
    value (b ++ List.replicate k 0 ++ [last]) = value (b ++ [last]) := by
  induction k with
  | zero => rw [List.replicate_zero, List.append_nil]
  | succ k ih =>
    rw [List.replicate_succ', ← List.append_assoc, value_concat_zero_concat hlast, ih]

/-- The sign may be taken out of the last byte and put behind any number of zeros. -/
theorem value_widened (b : Bytes) (last : UInt8) (k : ℕ) :
    value (b ++ [last &&& 0x7f] ++ List.replicate k 0 ++ [last &&& 0x80]) =
      value (b ++ [last]) := by
  rw [value_append_zeros and_sign_and_magnitude,
    ← value_concat_or and_sign_and_magnitude and_magnitude_and_sign, and_magnitude_or_and_sign]

end Number

namespace Splice

variable {env : Environment} {s : Stack}

theorem exists_widen (h : b.length ≤ size) :
    ∃ c, widen b size = .ok c ∧ c.length = size ∧ Number.value c = Number.value b := by
  by_cases heq : b.length = size
  · exact ⟨b, if_pos heq, heq, rfl⟩
  rw [widen, if_neg heq, Checked.minus_of_le (by omega), ok_bind]
  induction b using List.reverseRecOn with
  | nil =>
    rw [List.length_nil] at heq
    refine ⟨_, rfl, ?_, ?_⟩
    · rw [List.length_append, List.length_replicate, List.length_singleton]
      omega
    · have hzero : (0 : UInt8) &&& 0x7f = 0 := rfl
      exact Number.value_append_zeros hzero [] (size - 1)
  | append_singleton b last =>
    rw [List.length_append, List.length_singleton] at h heq ⊢
    rw [List.getLast?_concat, List.dropLast_concat]
    refine ⟨_, rfl, ?_, ?_⟩
    · simp only [List.length_append, List.length_cons, List.length_replicate, List.length_nil]
      omega
    · rw [← Number.value_widened b last (size - 1 - (b.length + 1))]
      simp

theorem exists_of_length_iff :
    (∃ c : Bytes, c.length = size ∧ Number.value c = Number.value b) ↔
      (Number.shorten b).length ≤ size := by
  constructor
  · rintro ⟨c, rfl, hvalue⟩
    rcases Number.eq_or_length_lt_of_value hvalue with rfl | hlt
    · exact Nat.le_refl _
    · exact Nat.le_of_lt hlt
  · intro hle
    obtain ⟨c, -, hlength, hvalue⟩ := exists_widen hle
    exact ⟨c, hlength, hvalue.trans (Number.shorten_spec b).1⟩

theorem toBinary_eq (hn : Number.decode env.numbers e = .ok n) :
    toBinary env (e :: b :: s) = (do
      require (0 ≤ n ∧ n ≤ env.limits.elementSize) (.requestedSize n env.limits.elementSize)
      require ((Number.shorten b).length ≤ n.toNat)
        (.encodingSize (Number.shorten b).length n.toNat)
      return (← widen (Number.shorten b) n.toNat) :: s) := by
  have htake : Stack.takeNumber env.numbers (e :: b :: s) = .ok (n, b :: s) := by
    rw [Stack.takeNumber, Stack.popNumber, hn]
    rfl
  have hpop : Stack.pop (b :: s) = .ok (b, s) := rfl
  simp only [toBinary, htake, hpop, Number.trim_eq, ok_bind]

theorem toNumber_of_le (h : (Number.shorten b).length ≤ env.limits.numberLength) :
    toNumber env (b :: s) = .ok (Number.shorten b :: s) := by
  have hpop : Stack.pop (b :: s) = .ok (b, s) := rfl
  rw [toNumber, hpop, ok_bind]
  dsimp only
  rw [Number.trim_eq, ok_bind, require_of h]
  rfl

theorem toNumber_of_lt (h : env.limits.numberLength < (Number.shorten b).length) :
    toNumber env (b :: s) = reject (.binaryNumberLength env.limits.numberLength) := by
  have hpop : Stack.pop (b :: s) = .ok (b, s) := rfl
  rw [toNumber, hpop, ok_bind]
  dsimp only
  rw [Number.trim_eq, ok_bind, require_of_not (Nat.not_le_of_lt h)]
  rfl

/-- The three ends of drawing out a number: the length is out of bounds, or it is too short, or the
number is held by as many bytes. -/
theorem toBinary_cases (hn : Number.decode env.numbers e = .ok n) :
    (n < 0 ∨ env.limits.elementSize < n) ∧
        toBinary env (e :: b :: s) = reject (.requestedSize n env.limits.elementSize) ∨
      (0 ≤ n ∧ n ≤ env.limits.elementSize) ∧ n.toNat < (Number.shorten b).length ∧
        toBinary env (e :: b :: s) =
          reject (.encodingSize (Number.shorten b).length n.toNat) ∨
      (0 ≤ n ∧ n ≤ env.limits.elementSize) ∧ (Number.shorten b).length ≤ n.toNat ∧
        ∃ c, toBinary env (e :: b :: s) = .ok (c :: s) ∧ c.length = n.toNat ∧
          Number.value c = Number.value b := by
  rw [toBinary_eq hn]
  by_cases hbounds : 0 ≤ n ∧ n ≤ env.limits.elementSize
  · rw [require_of hbounds, ok_bind]
    by_cases hlength : (Number.shorten b).length ≤ n.toNat
    · obtain ⟨c, hc, hsize, hvalue⟩ := exists_widen hlength
      refine .inr (.inr ⟨hbounds, hlength, c, ?_, hsize, hvalue.trans (Number.shorten_spec b).1⟩)
      rw [require_of hlength, ok_bind, hc]
      rfl
    · refine .inr (.inl ⟨hbounds, Nat.lt_of_not_le hlength, ?_⟩)
      rw [require_of_not hlength]
      rfl
  · refine .inl ⟨by omega, ?_⟩
    rw [require_of_not hbounds]
    rfl

variable {here : Place} {i : Instruction} {f : Frame}

theorem run_toNumber (hf : f.data = b :: s) :
    let shortened : Run Frame := (Operation.ofOpcode 0x81).run env here i f
    ((Number.shorten b).length ≤ env.limits.numberLength →
      shortened = .ok (f.withData (Number.shorten b :: s))) ∧
    (env.limits.numberLength < (Number.shorten b).length → shortened.RejectedAs .numberTooBig) := by
  refine ⟨fun hlength ↦ Frame.onData_ok hf (toNumber_of_le hlength), fun hlength ↦ ?_⟩
  exact ⟨_, Frame.onData_error hf (toNumber_of_lt hlength), rfl⟩

/-- Opcode 80 draws a number out to as many bytes as are asked for: it fails for the size exactly if
that is out of bounds, fails for the encoding exactly if otherwise no string of that size holds the
number, and else leaves such a string. Opcode 81 makes of that what the number is shortened to,
which fails exactly if it is longer than an operand may be. -/
theorem toBinary_exact (hn : Number.decode env.numbers e = .ok n) (hf : f.data = e :: b :: s) :
    let widened : Run Frame := (Operation.ofOpcode 0x80).run env here i f
    let Holds (c : Bytes) : Prop := (c.length : ℤ) = n ∧ Number.value c = Number.value b
    (widened.RejectedAs .elementTooBig ↔ n < 0 ∨ env.limits.elementSize < n) ∧
    (widened.RejectedAs .impossibleEncoding ↔
      (0 ≤ n ∧ n ≤ env.limits.elementSize) ∧ ¬ ∃ c, Holds c) ∧
    (0 ≤ n → n ≤ env.limits.elementSize → (∃ c, Holds c) →
      ∃ c m, widened = .ok (f.withData (c :: s)) ∧ Holds c ∧ Number.trim b = .ok m ∧
        ∀ (there : Place) (j : Instruction) (g : Frame) (t : Stack), g.data = c :: t →
          let shortened : Run Frame := (Operation.ofOpcode 0x81).run env there j g
          (m.length ≤ env.limits.numberLength → shortened = .ok (g.withData (m :: t))) ∧
          (env.limits.numberLength < m.length → shortened.RejectedAs .numberTooBig)) := by
  intro widened Holds
  have hexists (h0 : 0 ≤ n) : (∃ c, Holds c) ↔ (Number.shorten b).length ≤ n.toNat := by
    rw [← exists_of_length_iff]
    refine exists_congr fun c ↦ and_congr_left fun _ ↦ ?_
    omega
  rcases toBinary_cases (b := b) (s := s) hn with
    ⟨hbounds, h⟩ | ⟨hbounds, hlt, h⟩ | ⟨hbounds, hle, c, h, hsize, hvalue⟩
  · have hwidened : widened = reject (.requestedSize n env.limits.elementSize) :=
      Frame.onData_error hf h
    rw [hwidened, Run.rejectedAs_reject, Run.rejectedAs_reject]
    refine ⟨⟨fun _ ↦ hbounds, fun _ ↦ rfl⟩, ⟨nofun, ?_⟩, ?_⟩
    · rintro ⟨hin, -⟩
      omega
    · intro h0 hlimit
      omega
  · have hwidened : widened = reject (.encodingSize (Number.shorten b).length n.toNat) :=
      Frame.onData_error hf h
    have hnone : ¬ ∃ c, Holds c := mt (hexists hbounds.1).1 (Nat.not_le_of_lt hlt)
    rw [hwidened, Run.rejectedAs_reject, Run.rejectedAs_reject]
    refine ⟨⟨nofun, by omega⟩, ⟨fun _ ↦ ⟨hbounds, hnone⟩, fun _ ↦ rfl⟩, ?_⟩
    exact fun _ _ hsome ↦ absurd hsome hnone
  · have hwidened : widened = .ok (f.withData (c :: s)) := Frame.onData_ok hf h
    have hsome : ∃ c, Holds c := (hexists hbounds.1).2 hle
    have hshort : Number.shorten c = Number.shorten b := Number.shorten_congr hvalue
    rw [hwidened]
    refine ⟨⟨fun h ↦ absurd h Run.not_rejectedAs_ok, by omega⟩,
      ⟨fun h ↦ absurd h Run.not_rejectedAs_ok, fun h ↦ absurd hsome h.2⟩, fun _ _ _ ↦ ?_⟩
    refine ⟨c, Number.shorten b, rfl, ⟨by omega, hvalue⟩, Number.trim_eq b, ?_⟩
    rw [← hshort]
    exact fun there j g t hg ↦ run_toNumber hg

theorem toBinary_exact_padded :
    let env : Environment := { flags := .monolith }
    let b : Bytes := 5 :: List.replicate 30 0 ++ [0x80]
    let f : Frame := .start [[3], b]
    Number.decode env.numbers [3] = .ok 3 ∧ f.data = [3] :: b :: [] ∧
      ∃ c, (Operation.ofOpcode 0x80).run env ⟨[], 0⟩ ⟨0x80, []⟩ f = .ok (f.withData [c]) ∧
        c.length = 3 ∧ Number.value c = -5 ∧
        (Operation.ofOpcode 0x81).run env ⟨[], 0⟩ ⟨0x81, []⟩ (f.withData [c]) =
          .ok (f.withData [[0x85]]) := by
  intro env b f
  have hn : Number.decode env.numbers [3] = .ok 3 :=
    Number.decode_eq_ok.2 ⟨by decide, fun _ ↦ rfl, rfl⟩
  have hf : f.data = [3] :: b :: [] := rfl
  obtain ⟨-, -, h⟩ := @toBinary_exact _ _ _ env [] ⟨[], 0⟩ ⟨0x80, []⟩ f hn hf
  obtain ⟨c, m, hwidened, ⟨hlength, hvalue⟩, hm, hshortened⟩ :=
    h (by decide) (by decide) ⟨[5, 0, 0x80], rfl, rfl⟩
  obtain rfl : [0x85] = m := Except.ok.inj hm
  exact ⟨hn, hf, c, hwidened, Int.ofNat.inj hlength, hvalue,
    (hshortened _ _ (f.withData [c]) [] rfl).1 (by decide)⟩

end Splice

end BitcoinCash
