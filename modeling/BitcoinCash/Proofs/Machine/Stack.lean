import Mathlib.Data.Int.Notation
import Mathlib.Data.Nat.Notation
import BitcoinCash.Machine.Stack
import BitcoinCash.Proofs.Machine.Checked
import BitcoinCash.Proofs.Machine.Run

namespace BitcoinCash.Stack

open Fallible (bind_eq_ok ok_bind)

variable {s rest : Stack} {depth n : ℕ} {x : Bytes} {u : Unit}

theorem need_eq_ok : s.need n = .ok u ↔ n ≤ s.length := by
  simp [need, underflow, reject_ne_ok]

theorem need_of_le (h : n ≤ s.length) : s.need n = .ok () := need_eq_ok.2 h

theorem need_of_lt (h : s.length < n) : s.need n = underflow n s.length :=
  if_neg (Nat.not_le_of_lt h)

theorem need_bind_congr {α : Type} {x y : Unit → Run α} (h : n ≤ s.length → x () = y ()) :
    s.need n >>= x = s.need n >>= y := by
  by_cases hn : n ≤ s.length
  · rw [need_of_le hn, ok_bind, ok_bind, h hn]
  · rw [need_of_lt (Nat.lt_of_not_le hn)]
    rfl

theorem dupTop_eq : s.dupTop n = (do s.need n; return s.take n ++ s) :=
  need_bind_congr fun h ↦ by rw [Checked.splitAt_of_le h, ok_bind]

theorem copyBelow_eq : s.copyBelow n = (do s.need (2 * n); return (s.drop n).take n ++ s) := by
  refine need_bind_congr fun h ↦ ?_
  rw [Checked.splitAt_of_le (by omega), ok_bind]
  dsimp only
  rw [Checked.splitAt_drop (by omega), ok_bind]

theorem rotate_eq : s.rotate n = (do
    s.need (3 * n)
    return (s.drop (2 * n)).take n ++ s.take (2 * n) ++ s.drop (3 * n)) := by
  refine need_bind_congr fun h ↦ ?_
  rw [Checked.splitAt_of_le (by omega), ok_bind]
  dsimp only
  rw [Checked.splitAt_drop (by omega), ok_bind, Nat.succ_mul 2 n]

theorem swapPairs_eq : s.swapPairs n = (do
    s.need (2 * n)
    return (s.drop n).take n ++ s.take n ++ s.drop (2 * n)) := by
  refine need_bind_congr fun h ↦ ?_
  rw [Checked.splitAt_of_le (by omega), ok_bind]
  dsimp only
  rw [Checked.splitAt_drop (by omega), ok_bind, Nat.two_mul]

theorem pop_eq_ok : s.pop = .ok (x, rest) ↔ s = x :: rest := by
  cases s <;> simp [pop, underflow, reject_ne_ok]

theorem peek_eq_ok : s.peek depth = .ok x ↔ s[depth]? = some x := by
  unfold peek
  cases s[depth]? <;> simp [underflow, reject_ne_ok]

theorem drop_of_peek (h : s.peek depth = .ok x) : s.drop depth = x :: s.drop (depth + 1) := by
  obtain ⟨hlt, rfl⟩ := List.getElem?_eq_some_iff.1 (peek_eq_ok.1 h)
  exact List.drop_eq_getElem_cons hlt

theorem drop_of_peekNumber {rule : NumberRule} {n : ℤ} (h : s.peekNumber rule depth = .ok n) :
    ∃ x, s.drop depth = x :: s.drop (depth + 1) ∧ Number.decode rule x = .ok n := by
  obtain ⟨x, hx, hn⟩ := bind_eq_ok.1 h
  exact ⟨x, drop_of_peek hx, hn⟩

-- Stacks with known groups on top

variable {above below a b c : Stack}

theorem removeAt_append (h : above.length = depth) :
    removeAt (above ++ x :: below) depth = .ok (above ++ below) := by
  have hlen : depth + 1 ≤ (above ++ x :: below).length := by
    rw [List.length_append, List.length_cons]
    omega
  rw [removeAt, need_of_le hlen, ok_bind, Checked.eraseIdx_append_cons h]
  rfl

theorem dropTop_append (h : a.length = n) : dropTop (a ++ below) n = .ok below := by
  rw [dropTop, need_of_le (by simp [h]), ok_bind, List.drop_left' h]
  rfl

theorem dupTop_append (h : a.length = n) : dupTop (a ++ below) n = .ok (a ++ (a ++ below)) := by
  rw [dupTop_eq, need_of_le (by simp [h]), ok_bind, List.take_left' h]
  rfl

theorem copyBelow_append (hb : b.length = n) (ha : a.length = n) :
    copyBelow (b ++ (a ++ below)) n = .ok (a ++ (b ++ (a ++ below))) := by
  have hlen : 2 * n ≤ (b ++ (a ++ below)).length := by
    simp only [List.length_append]
    omega
  rw [copyBelow_eq, need_of_le hlen, ok_bind, List.drop_left' hb, List.take_left' ha]
  rfl

theorem swapPairs_append (hb : b.length = n) (ha : a.length = n) :
    swapPairs (b ++ (a ++ below)) n = .ok (a ++ (b ++ below)) := by
  have hlen : (b ++ a).length = 2 * n := by
    rw [List.length_append]
    omega
  rw [swapPairs_eq, need_of_le (by simp only [List.length_append] at hlen ⊢; omega), ok_bind,
    List.drop_left' hb, List.take_left' ha, List.take_left' hb, ← List.append_assoc b,
    List.drop_left' hlen, List.append_assoc]
  rfl

theorem rotate_append (hc : c.length = n) (hb : b.length = n) (ha : a.length = n) :
    rotate (c ++ (b ++ (a ++ below))) n = .ok (a ++ (c ++ (b ++ below))) := by
  have htwo : (c ++ b).length = 2 * n := by
    rw [List.length_append]
    omega
  have hthree : (c ++ b ++ a).length = 3 * n := by
    rw [List.length_append]
    omega
  have hlen : 3 * n ≤ (c ++ b ++ (a ++ below)).length := by
    simp only [List.length_append] at hthree ⊢
    omega
  rw [← List.append_assoc, rotate_eq, need_of_le hlen, ok_bind, List.drop_left' htwo,
    List.take_left' ha, List.take_left' htwo, ← List.append_assoc (c ++ b), List.drop_left' hthree,
    List.append_assoc, List.append_assoc]
  rfl

theorem peek_append (h : above.length = depth) : peek (above ++ x :: below) depth = .ok x := by
  rw [peek_eq_ok, List.getElem?_append_right (Nat.le_of_eq h), h, Nat.sub_self]
  rfl

theorem pick_append (h : above.length = depth) :
    pick (above ++ x :: below) depth = .ok (x :: (above ++ x :: below)) := by
  rw [pick, peek_append h]
  rfl

theorem roll_append (h : above.length = depth) :
    roll (above ++ x :: below) depth = .ok (x :: (above ++ below)) := by
  rw [roll, peek_append h, ok_bind, Checked.eraseIdx_append_cons h]
  rfl

end BitcoinCash.Stack
