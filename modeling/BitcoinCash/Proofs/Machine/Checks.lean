import BitcoinCash.Machine.LockTime
import BitcoinCash.Machine.SignatureCheck
import BitcoinCash.Proofs.Machine.Elements

namespace BitcoinCash

open Fallible (ok_bind)
open Run (Meets)

variable {c : Prop} {N : ℕ} {env : Environment} {here : Place} {f : Frame}

namespace Checked

variable {α : Type} {xs : List α} {i n : ℕ}

theorem meets_item (h : i < xs.length) : Meets c (fun _ ↦ True) (item xs i) := by
  rw [item_of_lt h]
  exact .ok trivial

theorem meets_minus {a b : ℕ} (h : b ≤ a) : Meets c (fun k ↦ k = a - b) (minus a b) := by
  rw [minus_of_le h]
  exact .ok rfl

end Checked

namespace Encoding

open Checked (meets_item meets_minus)

variable {b : Bytes}

theorem meets_checkInteger {n : ℕ} {first : UInt8} {second : Run UInt8} {negative padded : DerRule}
    (h : 1 < n → Meets c (fun _ ↦ True) second) :
    Meets c (fun _ ↦ True) (checkDer.checkInteger n first second negative padded) := by
  refine meets_require_bind fun _ ↦ .ite (fun hn ↦ ?_) fun _ ↦ .pure trivial
  exact (h hn.1).bind fun _ _ ↦ meets_check

theorem meets_checkDer (b : Bytes) : Meets c (fun _ ↦ True) (checkDer b) := by
  refine meets_require_bind fun h8 ↦ meets_require_bind fun _ ↦ ?_
  refine (meets_item (by omega)).bind fun _ _ ↦ meets_require_bind fun _ ↦ ?_
  refine (meets_item (by omega)).bind fun _ _ ↦ ?_
  rw [Checked.minus_of_le (by omega), Fallible.ok_bind]
  refine meets_require_bind fun _ ↦ (meets_item (by omega)).bind fun r _ ↦ ?_
  refine meets_require_bind fun hr ↦ (meets_item (by omega)).bind fun s _ ↦ ?_
  -- from here on the lengths of the two integers add up to that of the string
  refine meets_require_bind fun hs ↦ (meets_item (by omega)).bind fun _ _ ↦ ?_
  refine meets_require_bind fun _ ↦ meets_require_bind fun _ ↦ ?_
  refine (meets_item (by omega)).bind fun _ _ ↦ ?_
  refine (meets_checkInteger fun _ ↦ meets_item (by omega)).bind fun _ _ ↦ ?_
  refine (meets_item (by omega)).bind fun _ _ ↦ meets_require_bind fun _ ↦ ?_
  refine meets_require_bind fun hs0 ↦ (meets_item (by omega)).bind fun _ _ ↦ ?_
  exact meets_checkInteger fun _ ↦ meets_item (by omega)

theorem meets_hasLowS (b : Bytes) : Meets c (fun _ ↦ True) (hasLowS b) := by
  have hbody : Meets c (fun _ ↦ True) (sBody? b) := by
    unfold sBody?
    split
    · refine (meets_minus (by omega)).bind fun _ _ ↦ ?_
      split
      · exact .pure trivial
      · exact .pure trivial
    · exact .pure trivial
  refine hbody.bind fun s? _ ↦ ?_
  split
  · dsimp only
    rw [Checked.splitAt_takeWhile, Fallible.ok_bind]
    exact .pure trivial
  · exact .pure trivial

theorem meets_checkBareSignature (flags : Flags) (b : Bytes) :
    Meets c (fun _ ↦ True) (checkBareSignature flags b) := by
  refine .ite (fun _ ↦ ?_) fun _ ↦ .pure trivial
  refine .checkIf (fun _ ↦ meets_checkDer b) (.ite (fun _ ↦ ?_) fun _ ↦ .pure trivial)
  exact (meets_hasLowS b).bind fun _ _ ↦ meets_check

theorem meets_checkHashType (flags : Flags) (t : UInt8) :
    Meets c (fun _ ↦ True) (checkHashType flags t) := by
  refine meets_require_bind fun _ ↦ .ite (fun _ ↦ ?_) fun _ ↦ ?_
  · exact meets_check
  · exact meets_check

theorem meets_checkSignature (flags : Flags) (b : Bytes) :
    Meets c (fun _ ↦ True) (checkSignature flags b) := by
  unfold checkSignature
  split
  · exact .ok trivial
  · refine (meets_checkBareSignature flags _).bind fun _ _ ↦ ?_
    exact .ite (fun _ ↦ meets_checkHashType flags _) fun _ ↦ .pure trivial

theorem meets_checkKey (flags : Flags) (b : Bytes) : Meets c (fun _ ↦ True) (checkKey flags b) :=
  .ite (fun _ ↦ meets_check) fun _ ↦ .ok trivial

end Encoding

namespace LockTime

theorem meets_operand (s : Stack) : Meets c (fun _ ↦ True) (operand env s) :=
  Stack.meets_peekNumber.bind fun _ _ ↦ meets_require_bind fun _ ↦ .pure trivial

theorem meets_upgradable (op : Opcode) : Meets c (fun _ ↦ True) (upgradable env op) :=
  meets_check

theorem meets_contextFor (op : Opcode) : Meets c (fun _ ↦ True) (contextFor env op) := by
  unfold contextFor
  split
  · exact .ok trivial
  · exact .rejected

theorem meets_compare (t bound required : ℤ) : Meets c (fun _ ↦ True) (compare t bound required) :=
  meets_require_bind fun _ ↦ meets_check

theorem meets_checkLockTime (s : Stack) : Meets c (fun _ ↦ True) (checkLockTime env s) := by
  refine .ite (fun _ ↦ ?_) fun _ ↦ meets_upgradable _
  refine (meets_operand s).bind fun _ _ ↦ (meets_contextFor _).bind fun ctx _ ↦ ?_
  exact (meets_compare _ _ _).bind fun _ _ ↦ meets_check

theorem meets_checkSequence (s : Stack) : Meets c (fun _ ↦ True) (checkSequence env s) := by
  refine .ite (fun _ ↦ ?_) fun _ ↦ meets_upgradable _
  refine (meets_operand s).bind fun _ _ ↦ .ite (fun _ ↦ ?_) fun _ ↦ .pure trivial
  refine (meets_contextFor _).bind fun ctx _ ↦ meets_require_bind fun _ ↦ ?_
  exact meets_require_bind fun _ ↦ meets_compare _ _ _

end LockTime

theorem Program.meets_toScript (p : Program) : Meets c (fun _ ↦ True) p.toScript := by
  unfold toScript
  split
  · exact .ok trivial
  · exact .rejected

/-- The script code starts inside the script. -/
theorem Place.meets_code (h : f.codeStart ≤ here.program.length) :
    Meets c (fun _ ↦ True) (here.code f) := by
  rw [code, if_pos h]
  exact Program.meets_toScript _

namespace Environment

theorem meets_scriptStep (e : Except ScriptError Script) :
    Meets c (fun _ ↦ True) (scriptStep e) := by
  unfold scriptStep
  split
  · exact .ok trivial
  · exact .rejected

theorem meets_codeFor (base : Script) (sig : Bytes) :
    Meets c (fun _ ↦ True) (env.codeFor base sig) := by
  refine .ite (fun _ ↦ .pure trivial) fun _ ↦ ?_
  exact (meets_scriptStep _).bind fun _ _ ↦ meets_scriptStep _

theorem meets_ask (q : Question) : Meets c (fun _ ↦ True) (env.ask q) := by
  unfold ask
  split
  · exact .rejected
  · split <;> exact .ok trivial

end Environment

namespace SignatureCheck

theorem meets_attempt (base : Script) (sig key : Bytes) :
    Meets c (fun _ ↦ True) (attempt env base sig key) := by
  refine (Encoding.meets_checkSignature _ _).bind fun _ _ ↦ ?_
  refine (Encoding.meets_checkKey _ _).bind fun _ _ ↦ .ite (fun _ ↦ .pure trivial) fun _ ↦ ?_
  exact (Environment.meets_codeFor _ _).bind fun _ _ ↦ Environment.meets_ask _

/-- There are never more signatures left than keys. -/
theorem meets_matchKeysBy {attempt : ℕ → Bytes → Bytes → Run Bool}
    (hattempt : ∀ n sig key, Meets c (fun _ ↦ True) (attempt n sig key)) {keys sigs : List Bytes}
    (h : sigs.length ≤ keys.length) :
    Meets c (fun _ ↦ True) (matchKeysBy attempt keys sigs) := by
  induction keys generalizing sigs with
  | nil =>
    obtain rfl := List.length_eq_zero_iff.1 (Nat.le_zero.1 h)
    exact .ok trivial
  | cons key keys ih =>
    cases sigs with
    | nil => exact .ok trivial
    | cons sig sigs =>
      refine (hattempt _ sig key).bind fun valid _ ↦ ?_
      exact .ite (fun _ ↦ .pure trivial) fun hle ↦ ih (Nat.le_of_not_lt hle)

theorem meets_matchKeys (base : Script) {keys sigs : List Bytes} (h : sigs.length ≤ keys.length) :
    Meets c (fun _ ↦ True) (matchKeys env base keys sigs) :=
  meets_matchKeysBy (fun _ sig key ↦ meets_attempt base sig key) h

theorem meets_stripAll (code : Script) (sigs : List Bytes) :
    Meets c (fun _ ↦ True) (stripAll env code sigs) := by
  induction sigs generalizing code with
  | nil => exact .ok trivial
  | cons sig sigs ih =>
    exact .ite (fun _ ↦ ih _) fun _ ↦ (Environment.meets_scriptStep _).bind fun _ _ ↦ ih _

theorem meets_peekRange (s : Stack) (depth n : ℕ) :
    Meets c (fun xs ↦ xs.length = n) (peekRange s depth n) := by
  induction n generalizing depth with
  | zero => exact .ok rfl
  | succ n ih =>
    refine Stack.meets_peek.bind fun x _ ↦ (ih (depth + 1)).bind fun xs hxs ↦ ?_
    exact .pure (congrArg Nat.succ hxs)

section Bodies

open Checked (item item_append item_zero minus_of_le slice slice_append slice_of_le)

variable {b rest : Bytes} {tag : UInt8} {n : ℕ}

theorem ite_eq_ok_ite {α ε : Type} {p q : Prop} [Decidable p] [Decidable q] {e : ε}
    {x : Run (Except ε α)} {y : Except ε α} (hpq : p ↔ q) (h : ¬ q → x = .ok y) :
    (if p then pure (.error e) else x) = .ok (if q then .error e else y) := by
  by_cases hq : q
  · rw [if_pos hq, if_pos (hpq.2 hq)]
    rfl
  · rw [if_neg hq, if_neg (mt hpq.1 hq), h hq]

theorem eq_of_header (hlen : 2 ≤ b.length) (h : Der.header b = (tag, n, rest)) :
    ∃ x, b = tag :: x :: rest ∧ x.toNat = n := by
  match b, hlen with
  | _ :: x :: _, _ =>
    cases h
    exact ⟨x, rfl, rfl⟩

/-- A signature on the stack is read place by place to what it is read to as a whole. -/
theorem readBodies_eq (b : Bytes) : readBodies b = .ok (Der.bodies b) := by
  obtain ⟨tag, n, rest, hb⟩ : ∃ tag n t, Der.header b = (tag, n, t) := ⟨_, _, _, rfl⟩
  obtain ⟨rTag, r, rest', hr⟩ : ∃ tag r t, Der.header (rest.take n) = (tag, r, t) := ⟨_, _, _, rfl⟩
  obtain ⟨sTag, s, t, hs⟩ : ∃ tag s t, Der.header (rest'.drop r) = (tag, s, t) := ⟨_, _, _, rfl⟩
  simp only [Der.bodies, hb, hr, hs]
  refine ite_eq_ok_ite Iff.rfl fun h8 ↦ ?_
  obtain ⟨x, rfl, rfl⟩ := eq_of_header (by omega) hb
  refine ite_eq_ok_ite Iff.rfl fun _ ↦ ?_
  refine ite_eq_ok_ite (by simp only [List.length_cons]; omega) fun hlength ↦ ?_
  have hbody : (rest.take x.toNat).length = x.toNat := by
    rw [List.length_take]
    omega
  obtain ⟨y, hbody', rfl⟩ := eq_of_header (by omega) hr
  have hall : slice (tag :: x :: rest) 0 (x.toNat + 2) = .ok (tag :: x :: rTag :: y :: rest') := by
    rw [slice_of_le (by simp only [List.length_cons]; omega), ← hbody']
    rfl
  rw [hall, ok_bind]
  rw [hbody', List.length_cons, List.length_cons] at hbody
  refine ite_eq_ok_ite Iff.rfl fun _ ↦ ?_
  change Checked.minus (x.toNat + 2) 3 >>= _ = _
  rw [minus_of_le (by omega), ok_bind]
  refine ite_eq_ok_ite (by omega) fun hrLength ↦ ?_
  obtain ⟨z, hdrop, rfl⟩ := eq_of_header (by rw [List.length_drop]; omega) hs
  -- what follows the first integer stands behind four bytes and its body
  obtain ⟨rBody, rfl, hy⟩ : ∃ rBody, rest' = rBody ++ sTag :: z :: t ∧ rBody.length = y.toNat := by
    refine ⟨rest'.take y.toNat, ?_, by rw [List.length_take]; omega⟩
    rw [← hdrop, List.take_append_drop]
  have htake : (rBody ++ sTag :: z :: t).take y.toNat = rBody := List.take_left' hy
  have hfirst : slice (tag :: x :: rTag :: y :: (rBody ++ sTag :: z :: t)) 4 y.toNat =
      .ok rBody := by
    rw [slice_of_le (by simp only [List.length_cons, List.length_append]; omega)]
    exact congrArg Except.ok htake
  rw [List.length_append, List.length_cons, List.length_cons] at hbody
  let front := tag :: x :: rTag :: y :: rBody
  have hfront : front.length = 4 + y.toNat := by
    rw [← hy, Nat.add_comm]
    rfl
  have hitem (k : ℕ) : item (tag :: x :: rTag :: y :: (rBody ++ sTag :: z :: t))
      (4 + y.toNat + k) = item (sTag :: z :: t) k := by
    rw [← hfront]
    exact item_append front _ k
  have hsecond (h : z.toNat ≤ t.length) :
      slice (tag :: x :: rTag :: y :: (rBody ++ sTag :: z :: t)) (6 + y.toNat) z.toNat =
        .ok (t.take z.toNat) := by
    have hslice : slice (front ++ sTag :: z :: t) (front.length + 2) z.toNat = _ :=
      slice_append front _ 2 _
    rw [hfront, Nat.add_right_comm 4 y.toNat 2] at hslice
    refine hslice.trans ?_
    rw [slice_of_le (by simp only [List.length_cons]; omega)]
    rfl
  rw [hfirst, ok_bind, htake, ← Nat.add_zero (4 + y.toNat), hitem 0]
  refine ite_eq_ok_ite Iff.rfl fun _ ↦ ?_
  rw [Nat.add_right_comm 4 1 y.toNat, hitem 1]
  refine ite_eq_ok_ite (by omega) fun hsLength ↦ ?_
  rw [hsecond (by omega), ok_bind, item_zero (by omega) 0, ok_bind,
    item_zero (by rw [List.length_take]; omega) 0, ok_bind]
  exact ite_eq_ok_ite Iff.rfl fun _ ↦ rfl

end Bodies

theorem meets_verifyMessage (sig message key : Bytes) :
    Meets c (fun _ ↦ True) (verifyMessage sig message key) := by
  rw [verifyMessage, readBodies_eq, Fallible.ok_bind]
  refine .ite (fun _ ↦ .pure trivial) fun _ ↦ ?_
  split
  · split <;> exact .pure trivial
  · exact .pure trivial

end SignatureCheck

end BitcoinCash
