import BitcoinCash.Machine.Execute
import BitcoinCash.Proofs.Machine.Meets
import BitcoinCash.Proofs.Machine.NumberWidth
import BitcoinCash.Proofs.Machine.Stack

namespace BitcoinCash

open Run (Meets)

variable {c : Prop} {N : ℕ} {s : Stack} {x : Bytes} {rule : NumberRule}

/-- The number has at most as many bytes as the rule allows, and no more than eight. -/
def NumberRule.Admits (rule : NumberRule) (n : ℤ) : Prop :=
  2 * n.natAbs < 256 ^ min rule.maxLength 8

theorem NumberRule.Admits.lt {n : ℤ} (h : rule.Admits n) : 2 * n.natAbs < 256 ^ 8 :=
  Nat.lt_of_lt_of_le h (Nat.pow_le_pow_right (by decide) (Nat.min_le_right _ _))

theorem NumberRule.Admits.lt_of_short {n : ℤ} (h : rule.Admits n) (hrule : ¬ 7 < rule.maxLength) :
    2 * n.natAbs < 256 ^ 7 := by
  refine Nat.lt_of_lt_of_le h (Nat.pow_le_pow_right (by decide) ?_)
  omega

namespace Number

theorem meets_decode (x : Bytes) : Meets c (fun n ↦ rule.Admits n) (decode rule x) := by
  rw [decode_eq]
  refine meets_require_bind fun hlen ↦ .checkIf (fun _ ↦ meets_check) ?_
  refine .pure (Nat.lt_of_lt_of_le (two_mul_natAbs_value_lt x) ?_)
  exact Nat.pow_le_pow_right (by decide) (Nat.le_min.2 hlen)

theorem meets_trim (b : Bytes) : Meets c (fun t ↦ t.length ≤ b.length) (trim b) := by
  rw [trim_eq]
  exact .ok (length_shorten_le b)

theorem meets_fit {n : ℤ} (h : ¬ c → 2 * n.natAbs < 256 ^ 8) :
    Meets c (fun m ↦ (encode m).length ≤ 9) (fit n) := by
  unfold fit
  split
  next hn =>
    refine .ok (length_encode_le ?_)
    have hwidth : 2 * 0x8000000000000000 < 256 ^ 9 := by decide
    omega
  next hn =>
    refine .fault ?_
    by_contra hc
    have hwidth : 256 ^ 8 = 2 * 0x8000000000000000 := by decide
    have hfit := h hc
    omega

theorem meets_write {n : ℤ} {k : ℕ} (h : (encode n).length ≤ k) :
    Meets c (fun x ↦ x.length ≤ k) (write n) := by
  rw [write_eq]
  exact .ok h

variable {a b : ℤ}

theorem meets_quotient (hb : b ≠ 0) (ha : 2 * a.natAbs < 256 ^ 8) :
    Meets c (fun m ↦ (encode m).length ≤ 9) (quotient a b) := by
  rw [quotient, if_neg hb]
  refine meets_fit fun _ ↦ ?_
  rw [Int.natAbs_tdiv]
  have hle : a.natAbs.div b.natAbs ≤ a.natAbs := Nat.div_le_self _ _
  omega

theorem meets_remainder (hb : b ≠ 0) (ha : 2 * a.natAbs < 256 ^ 8) :
    Meets c (fun m ↦ (encode m).length ≤ 9) (remainder a b) := by
  refine (meets_quotient hb ha).bind fun _ _ ↦ .pure (length_encode_le ?_)
  rw [Int.natAbs_tmod]
  have hle := Nat.mod_le a.natAbs b.natAbs
  have hwidth : 256 ^ 8 < 256 ^ 9 := by decide
  omega

end Number

theorem length_ofBool_le (v : Bool) : (ofBool v).length ≤ 1 := by
  cases v <;> decide

def Stack.Fits (N : ℕ) (s : Stack) : Prop := ∀ x ∈ s, x.length ≤ N

namespace Stack

variable {t : Stack} {n depth : ℕ}

theorem fits_nil : Fits N [] := nofun

theorem fits_cons : Fits N (x :: s) ↔ x.length ≤ N ∧ s.Fits N := List.forall_mem_cons

theorem Fits.cons (hx : x.length ≤ N) (hs : s.Fits N) : Fits N (x :: s) := fits_cons.2 ⟨hx, hs⟩

theorem Fits.append (hs : s.Fits N) (ht : t.Fits N) : Fits N (s ++ t) :=
  List.forall_mem_append.2 ⟨hs, ht⟩

theorem Fits.take (hs : s.Fits N) (n : ℕ) : Fits N (s.take n) :=
  fun x hx ↦ hs x (List.mem_of_mem_take hx)

theorem Fits.drop (hs : s.Fits N) (n : ℕ) : Fits N (s.drop n) :=
  fun x hx ↦ hs x (List.mem_of_mem_drop hx)

theorem Fits.eraseIdx (hs : s.Fits N) (n : ℕ) : Fits N (s.eraseIdx n) :=
  fun x hx ↦ hs x (List.mem_of_mem_eraseIdx hx)

theorem meets_underflow {α : Type} {Q : α → Prop} : Meets c Q (underflow n depth) := .rejected

theorem meets_need : Meets c (fun _ ↦ n ≤ s.length) (s.need n) := by
  unfold need
  exact .ite (fun h ↦ .ok h) fun _ ↦ meets_underflow

theorem meets_need_bind {α : Type} {Q : α → Prop} {g : Unit → Run α}
    (hg : n ≤ s.length → Meets c Q (g ())) : Meets c Q (s.need n >>= g) :=
  meets_need.bind fun _ h ↦ hg h

theorem meets_pop (hs : s.Fits N) :
    Meets c (fun p ↦ p.1.length ≤ N ∧ p.2.Fits N) s.pop := by
  cases s with
  | nil => exact meets_underflow
  | cons x s => exact .ok (fits_cons.1 hs)

theorem meets_popBool (hs : s.Fits N) : Meets c (fun p ↦ p.2.Fits N) s.popBool :=
  (meets_pop hs).bind fun _ h ↦ .pure h.2

theorem meets_takeNumber (hs : s.Fits N) :
    Meets c (fun p ↦ rule.Admits p.1 ∧ p.2.Fits N) (s.takeNumber rule) := by
  cases s with
  | nil => exact meets_underflow
  | cons x s => exact (Number.meets_decode x).bind fun n hn ↦ .pure ⟨hn, (fits_cons.1 hs).2⟩

theorem meets_peek : Meets c (· ∈ s) (s.peek depth) := by
  unfold peek
  split
  next x hx => exact .ok (List.mem_of_getElem? hx)
  next => exact meets_underflow

theorem meets_peekNumber :
    Meets c (fun n ↦ rule.Admits n) (s.peekNumber rule depth) :=
  meets_peek.bind fun x _ ↦ Number.meets_decode x

section Moves

variable (hs : s.Fits N)
include hs

theorem meets_removeAt : Meets c (Fits N) (s.removeAt depth) :=
  meets_need_bind fun _ ↦ .pure (hs.eraseIdx depth)

theorem meets_dropTop : Meets c (Fits N) (s.dropTop n) :=
  meets_need_bind fun _ ↦ .pure (hs.drop n)

theorem meets_dupTop : Meets c (Fits N) (s.dupTop n) := by
  rw [dupTop_eq]
  exact meets_need_bind fun _ ↦ .pure ((hs.take n).append hs)

theorem meets_copyBelow : Meets c (Fits N) (s.copyBelow n) := by
  rw [copyBelow_eq]
  exact meets_need_bind fun _ ↦ .pure (((hs.drop n).take n).append hs)

theorem meets_rotate : Meets c (Fits N) (s.rotate n) := by
  rw [rotate_eq]
  exact meets_need_bind fun _ ↦
    .pure ((((hs.drop (2 * n)).take n).append (hs.take _)).append (hs.drop _))

theorem meets_swapPairs : Meets c (Fits N) (s.swapPairs n) := by
  rw [swapPairs_eq]
  exact meets_need_bind fun _ ↦ .pure ((((hs.drop n).take n).append (hs.take n)).append (hs.drop _))

theorem meets_tuck : Meets c (Fits N) s.tuck := by
  match s, hs with
  | [], _ => exact meets_underflow
  | [_], _ => exact meets_underflow
  | x :: y :: s, hs =>
    obtain ⟨hx, hs⟩ := fits_cons.1 hs
    obtain ⟨hy, hs⟩ := fits_cons.1 hs
    exact .ok (.cons hx (.cons hy (.cons hx hs)))

theorem meets_pick : Meets c (Fits N) (s.pick depth) :=
  meets_peek.bind fun x hx ↦ .pure (.cons (hs x hx) hs)

theorem meets_roll : Meets c (Fits N) (s.roll depth) :=
  meets_peek.bind fun x hx ↦ .pure (.cons (hs x hx) (hs.eraseIdx depth))

end Moves

end Stack

namespace Splice

variable {env : Environment} (hN : env.limits.elementSize ≤ N) (hs : s.Fits N)

include hN hs in
theorem meets_cat : Meets c (Stack.Fits N) (cat env s) := by
  refine (Stack.meets_pop hs).bind fun (b, s) hs ↦ (Stack.meets_pop hs.2).bind fun (a, s) hs ↦ ?_
  refine meets_require_bind fun hsize ↦ .pure (.cons ?_ hs.2)
  rw [List.length_append]
  exact hsize.trans hN

include hs in
theorem meets_split : Meets c (Stack.Fits N) (split env s) := by
  refine (Stack.meets_takeNumber hs).bind fun (n, s) hs ↦ ?_
  refine (Stack.meets_pop hs.2).bind fun (x, s) hs ↦ meets_require_bind fun hn ↦ ?_
  rw [Checked.splitAt_of_le (by omega), Fallible.ok_bind]
  refine .pure (.cons ?_ (.cons ?_ hs.2))
  · exact (List.drop_sublist _ _).length_le.trans hs.1
  · exact (List.take_sublist _ _).length_le.trans hs.1

theorem meets_widen {b : Bytes} {size : ℕ} (h : b.length ≤ size) :
    Meets c (fun w ↦ w.length = size) (widen b size) := by
  obtain ⟨w, hw, hlength, -⟩ := exists_widen h
  rw [hw]
  exact .ok hlength

include hN hs in
theorem meets_toBinary : Meets c (Stack.Fits N) (toBinary env s) := by
  refine (Stack.meets_takeNumber hs).bind fun (n, s) hs ↦ meets_require_bind fun hn ↦ ?_
  refine (Stack.meets_pop hs.2).bind fun (x, s) hs ↦ (Number.meets_trim x).bind fun b _ ↦ ?_
  refine meets_require_bind fun hb ↦ (meets_widen hb).bind fun w hw ↦ .pure (.cons ?_ hs.2)
  omega

include hs in
theorem meets_toNumber : Meets c (Stack.Fits N) (toNumber env s) := by
  refine (Stack.meets_pop hs).bind fun (x, s) hs ↦ (Number.meets_trim x).bind fun b hb ↦ ?_
  exact meets_require_bind fun _ ↦ .pure (.cons (hb.trans hs.1) hs.2)

include hs in
theorem meets_bitwise (f : Bitwise) : Meets c (Stack.Fits N) (bitwise f s) := by
  refine (Stack.meets_pop hs).bind fun (b, s) hs ↦ (Stack.meets_pop hs.2).bind fun (a, s) hs ↦ ?_
  refine meets_require_bind fun _ ↦ .pure (.cons ?_ hs.2)
  rw [List.length_zipWith]
  exact (Nat.min_le_left _ _).trans hs.1

include hs in
theorem meets_equal (h1 : 1 ≤ N) : Meets c (Stack.Fits N) (equal s) := by
  refine (Stack.meets_pop hs).bind fun (b, s) hs ↦ (Stack.meets_pop hs.2).bind fun (a, s) hs ↦ ?_
  exact .pure (.cons ((length_ofBool_le _).trans h1) hs.2)

end Splice

namespace Arithmetic

variable (h9 : 9 ≤ N) (hs : s.Fits N)

include h9 hs

theorem meets_unary (rule : NumberRule) (f : Unary) :
    Meets (7 < rule.maxLength) (Stack.Fits N) (unary rule f s) := by
  refine (Stack.meets_takeNumber hs).bind fun (a, s) hs ↦ ?_
  have hfit (hc : ¬ 7 < rule.maxLength) : 2 * (f.apply a).natAbs < 256 ^ 8 := by
    have ha := hs.1.lt_of_short hc
    cases f <;> simp only [Unary.apply] <;> (try split) <;> omega
  refine (Number.meets_fit hfit).bind fun m hm ↦ (Number.meets_write hm).bind fun x hx ↦ ?_
  exact .pure (.cons (hx.trans h9) hs.2)

theorem meets_binary (rule : NumberRule) (f : Binary) :
    Meets (7 < rule.maxLength) (Stack.Fits N) (binary rule f s) := by
  refine (Stack.meets_takeNumber hs).bind fun (b, s) hb ↦ ?_
  refine (Stack.meets_takeNumber hb.2).bind fun (a, s) ha ↦ ?_
  have hfit (hc : ¬ 7 < rule.maxLength) : 2 * (f.apply a b).natAbs < 256 ^ 8 := by
    have ha := ha.1.lt_of_short hc
    have hb := hb.1.lt_of_short hc
    cases f <;> simp only [Binary.apply] <;> omega
  refine (Number.meets_fit hfit).bind fun m hm ↦ (Number.meets_write hm).bind fun x hx ↦ ?_
  exact .pure (.cons (hx.trans h9) ha.2)

theorem meets_relation (r : Relation) : Meets c (Stack.Fits N) (relation rule r s) := by
  refine (Stack.meets_takeNumber hs).bind fun (b, s) hb ↦ ?_
  refine (Stack.meets_takeNumber hb.2).bind fun (a, s) ha ↦ ?_
  have hbool := length_ofBool_le (r.holds a b)
  exact .pure (.cons (by omega) ha.2)

theorem meets_divide : Meets c (Stack.Fits N) (divide rule s) := by
  refine (Stack.meets_takeNumber hs).bind fun (b, s) hb ↦ ?_
  refine (Stack.meets_takeNumber hb.2).bind fun (a, s) ha ↦ meets_require_bind fun hne ↦ ?_
  refine (Number.meets_quotient hne ha.1.lt).bind fun m hm ↦ ?_
  exact (Number.meets_write hm).bind fun x hx ↦ .pure (.cons (hx.trans h9) ha.2)

theorem meets_remainder : Meets c (Stack.Fits N) (remainder rule s) := by
  refine (Stack.meets_takeNumber hs).bind fun (b, s) hb ↦ ?_
  refine (Stack.meets_takeNumber hb.2).bind fun (a, s) ha ↦ meets_require_bind fun hne ↦ ?_
  refine (Number.meets_remainder hne ha.1.lt).bind fun m hm ↦ ?_
  exact (Number.meets_write hm).bind fun x hx ↦ .pure (.cons (hx.trans h9) ha.2)

theorem meets_within : Meets c (Stack.Fits N) (within rule s) := by
  refine (Stack.meets_takeNumber hs).bind fun (high, s) hs ↦ ?_
  refine (Stack.meets_takeNumber hs.2).bind fun (low, s) hs ↦ ?_
  refine (Stack.meets_takeNumber hs.2).bind fun (x, s) hs ↦ ?_
  have hbool := length_ofBool_le (low ≤ x && x < high)
  exact .pure (.cons (by omega) hs.2)

omit h9 in
theorem meets_takeDepth : Meets c (fun p ↦ p.2.Fits N) (takeDepth rule s) :=
  (Stack.meets_takeNumber hs).bind fun _ hs ↦ meets_require_bind fun _ ↦ .pure hs.2

end Arithmetic

theorem DigestKind.length_apply_le (k : DigestKind) (x : Bytes) : (k.apply x).length ≤ 32 := by
  cases k <;> simp only [apply, length_ripemd160, length_sha1, length_sha256, length_hash160,
    length_sha256d] <;> decide

end BitcoinCash
