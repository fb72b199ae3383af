import BitcoinCash.Machine.InPlace
import BitcoinCash.Proofs.Machine.Stack
import BitcoinCash.Proofs.Wire.Reader

namespace BitcoinCash

open Fallible (ok_bind)
open Reader (bind_of_ok bind_of_error)

section Groups

variable {s : List Bytes} {n depth : ℕ}

theorem exists_append (h : n ≤ s.length) :
    ∃ below above : List Bytes, s = below ++ above ∧ above.length = n := by
  refine ⟨s.take (s.length - n), s.drop (s.length - n), (List.take_append_drop _ s).symm, ?_⟩
  rw [List.length_drop]
  omega

theorem exists_append_cons (h : depth + 1 ≤ s.length) :
    ∃ below x, ∃ above : List Bytes, s = below ++ x :: above ∧ above.length = depth := by
  obtain ⟨below, above, rfl, hlen⟩ := exists_append h
  obtain ⟨x, above, rfl⟩ := List.exists_cons_of_length_eq_add_one hlen
  exact ⟨below, x, above, rfl, Nat.succ.inj hlen⟩

theorem exists_append_two (h : 2 * n ≤ s.length) :
    ∃ below a b : List Bytes, s = below ++ (a ++ b) ∧ a.length = n ∧ b.length = n := by
  obtain ⟨rest, b, rfl, hb⟩ := exists_append (show n ≤ s.length by omega)
  rw [List.length_append] at h
  obtain ⟨below, a, rfl, ha⟩ := exists_append (show n ≤ rest.length by omega)
  exact ⟨below, a, b, List.append_assoc _ _ _, ha, hb⟩

theorem exists_append_three (h : 3 * n ≤ s.length) :
    ∃ below a b c : List Bytes,
      s = below ++ (a ++ (b ++ c)) ∧ a.length = n ∧ b.length = n ∧ c.length = n := by
  obtain ⟨rest, b, c, rfl, hb, hc⟩ := exists_append_two (show 2 * n ≤ s.length by omega)
  simp only [List.length_append] at h
  obtain ⟨below, a, rfl, ha⟩ := exists_append (show n ≤ rest.length by omega)
  exact ⟨below, a, b, c, List.append_assoc _ _ _, ha, hb, hc⟩

end Groups

namespace InPlace

variable {s below above a b c : List Bytes} {x y : Bytes} {k n depth : ℕ}

def tooShallow (n : ℕ) (s : List Bytes) : Halt :=
  .rejected (.stackUnderflow (min n 0xffffffffffffffff) s.length)

theorem startOf_of_lt (h : s.length < n) : startOf n s = .error (tooShallow n s) s := by
  change (if n ≤ s.length then _ else _ : InPlace ℕ) s = _
  rw [if_neg (Nat.not_le_of_lt h)]
  rfl

theorem startOf_append (h : above.length = n) :
    startOf n (below ++ above) = .ok below.length (below ++ above) := by
  change (if n ≤ (below ++ above).length then _ else _ : InPlace ℕ) _ = _
  subst h
  rw [if_pos (by simp), List.length_append, Nat.add_sub_cancel]
  rfl

theorem position_eq_startOf : position depth = startOf (depth + 1) := rfl

theorem position_append (h : above.length = depth) :
    position depth (below ++ x :: above) = .ok below.length (below ++ x :: above) := by
  rw [position_eq_startOf]
  exact startOf_append (by rw [List.length_cons, h])

theorem times_of_lt (h : k * n < 2 ^ 64) : times k n s = .ok (k * n) s := by
  rw [times, if_pos (Nat.le_of_lt_succ h)]
  rfl

theorem times_two_of_lt (h : 3 * n < 2 ^ 64) : times 2 n s = .ok (2 * n) s :=
  times_of_lt (by omega)

theorem item_append : item below.length (below ++ x :: above) = .ok x (below ++ x :: above) := by
  have hitem : Checked.item (below ++ x :: above) below.length = .ok x :=
    Checked.item_append below (x :: above) 0
  change ofRun (Checked.item (below ++ x :: above) below.length) _ = _
  rw [hitem]
  rfl

theorem extend_append (h : a.length = n) :
    extend below.length n (below ++ (a ++ b)) = .ok () (below ++ (a ++ b) ++ a) := by
  have hslice : Checked.slice (below ++ (a ++ b)) below.length n = .ok a := by
    have hlen : below.length + n ≤ (below ++ (a ++ b)).length := by
      simp only [List.length_append]
      omega
    rw [Checked.slice_of_le hlen, List.drop_left, ← h, List.take_left]
  change (ofRun (Checked.slice (below ++ (a ++ b)) below.length n) >>= _) _ = _
  rw [hslice]
  rfl

theorem insert_append : insert below.length x (below ++ above) = .ok () (below ++ x :: above) := by
  change (ofRun (Checked.splitAt (below ++ above) below.length) >>= _) _ = _
  rw [Checked.splitAt_append]
  rfl

theorem rotateLeft_append (h : a.length = n) :
    rotateLeft below.length n (below ++ (a ++ b)) = .ok () (below ++ (b ++ a)) := by
  subst h
  change (ofRun (Checked.splitAt (below ++ (a ++ b)) below.length) >>= _) _ = _
  rw [Checked.splitAt_append]
  change (ofRun (Checked.splitAt (a ++ b) a.length) >>= _) _ = _
  rw [Checked.splitAt_append]
  rfl

theorem take_append (h : above.length = depth) :
    take depth (below ++ x :: above) = .ok x (below ++ above) := by
  rw [take, bind_of_ok (position_append h), remove, bind_of_ok item_append]
  change EStateM.Result.ok x ((below ++ x :: above).eraseIdx below.length) = _
  rw [Checked.eraseIdx_append_cons rfl]

theorem removeAt_append (h : above.length = depth) :
    removeAt depth (below ++ x :: above) = .ok () (below ++ above) := by
  rw [removeAt, bind_of_ok (take_append h)]
  rfl

theorem dropTop_append (h : a.length = n) : dropTop n (below ++ a) = .ok () below := by
  rw [dropTop, bind_of_ok (startOf_append h)]
  change EStateM.Result.ok () ((below ++ a).take below.length) = _
  rw [List.take_left]

theorem dupTop_append (h : a.length = n) : dupTop n (below ++ a) = .ok () (below ++ a ++ a) := by
  have hextend : extend below.length n (below ++ (a ++ [])) = _ := extend_append h
  rw [List.append_nil] at hextend
  rw [dupTop, bind_of_ok (startOf_append h)]
  change extend below.length ((below ++ a).length - below.length) (below ++ a) = _
  rw [List.length_append, Nat.add_sub_cancel_left, h, hextend]

theorem copyBelow_append (hn : 3 * n < 2 ^ 64) (ha : a.length = n) (hb : b.length = n) :
    copyBelow n (below ++ (a ++ b)) = .ok () (below ++ (a ++ b) ++ a) := by
  have hlen : (a ++ b).length = 2 * n := by
    rw [List.length_append]
    omega
  rw [copyBelow, bind_of_ok (times_two_of_lt hn), bind_of_ok (startOf_append hlen), extend_append ha]

theorem rotate_append (hn : 3 * n < 2 ^ 64) (ha : a.length = n) (hb : b.length = n)
    (hc : c.length = n) :
    rotate n (below ++ (a ++ (b ++ c))) = .ok () (below ++ (b ++ (c ++ a))) := by
  have hlen : (a ++ (b ++ c)).length = 3 * n := by
    simp only [List.length_append]
    omega
  rw [rotate, bind_of_ok (times_of_lt hn), bind_of_ok (startOf_append hlen), rotateLeft_append ha,
    List.append_assoc]

theorem swapPairs_append (hn : 3 * n < 2 ^ 64) (ha : a.length = n) (hb : b.length = n) :
    swapPairs n (below ++ (a ++ b)) = .ok () (below ++ (b ++ a)) := by
  have hlen : (a ++ b).length = 2 * n := by
    rw [List.length_append]
    omega
  rw [swapPairs, bind_of_ok (times_two_of_lt hn), bind_of_ok (startOf_append hlen),
    rotateLeft_append ha]

theorem tuck_append : tuck (below ++ [x, y]) = .ok () (below ++ [y, x, y]) := by
  have hstart : startOf 2 (below ++ [x, y]) = .ok below.length (below ++ [x, y]) :=
    startOf_append rfl
  have hlast : item (below ++ [x]).length (below ++ [x] ++ [y]) = .ok y _ := item_append
  have hitem : item (below.length + 1) (below ++ [x, y]) = .ok y (below ++ [x, y]) := by
    simpa using hlast
  rw [tuck, bind_of_ok hstart, bind_of_ok hitem]
  exact insert_append

theorem pick_append (h : above.length = depth) :
    pick depth (below ++ x :: above) = .ok () (below ++ x :: above ++ [x]) := by
  have hpeek : peek depth (below ++ x :: above) = .ok x (below ++ x :: above) := by
    rw [peek, bind_of_ok (position_append h), item_append]
  rw [pick, bind_of_ok hpeek]
  rfl

theorem roll_append (h : above.length = depth) :
    roll depth (below ++ x :: above) = .ok () (below ++ (above ++ [x])) := by
  rw [roll, bind_of_ok (take_append h), ← List.append_assoc]
  rfl

def repeated (x : InPlace Unit) : ℕ → InPlace Unit
  | 0 => pure ()
  | k + 1 => do
    x
    repeated x k

theorem repeated_succ_of_ok {x : InPlace Unit} {t : List Bytes} (h : x s = .ok () t) :
    repeated x (k + 1) s = repeated x k t :=
  bind_of_ok h

theorem repeated_roll_append (h : (a ++ b).length = depth + 1) :
    repeated (roll depth) a.length (below ++ (a ++ b)) = .ok () (below ++ (b ++ a)) := by
  induction a generalizing b with
  | nil =>
    rw [List.nil_append, List.append_nil]
    rfl
  | cons x a ih =>
    rw [List.cons_append, List.length_cons, Nat.add_right_cancel_iff] at h
    -- the lowest element comes up over the others, and stays there while those above it are rolled
    have hroll : roll depth (below ++ x :: (a ++ b)) = .ok () (below ++ (a ++ b ++ [x])) :=
      roll_append h
    have hrest : (a ++ (b ++ [x])).length = depth + 1 := by
      rw [← List.append_assoc, List.length_append, h]
      rfl
    rw [List.cons_append, List.length_cons, repeated_succ_of_ok hroll, List.append_assoc, ih hrest,
      List.append_assoc]
    rfl

theorem repeated_swapPairs (hn : 3 * n < 2 ^ 64) (h : 2 * n ≤ s.length) :
    repeated (swapPairs n) 2 s = .ok () s := by
  obtain ⟨below, a, b, rfl, ha, hb⟩ := exists_append_two h
  rw [repeated_succ_of_ok (swapPairs_append hn ha hb),
    repeated_succ_of_ok (swapPairs_append hn hb ha)]
  rfl

theorem repeated_rotate (hn : 3 * n < 2 ^ 64) (h : 3 * n ≤ s.length) :
    repeated (rotate n) 3 s = .ok () s := by
  obtain ⟨below, a, b, c, rfl, ha, hb, hc⟩ := exists_append_three h
  rw [repeated_succ_of_ok (rotate_append hn ha hb hc),
    repeated_succ_of_ok (rotate_append hn hb hc ha),
    repeated_succ_of_ok (rotate_append hn hc ha hb)]
  rfl

theorem repeated_roll (h : n + 1 ≤ s.length) : repeated (roll n) (n + 1) s = .ok () s := by
  obtain ⟨below, a, rfl, hlen⟩ := exists_append h
  have hroll := @repeated_roll_append below a [] n (by rwa [List.append_nil])
  rwa [hlen, List.append_nil, List.nil_append] at hroll

/-- An operation on the same elements with the top first. One that fails leaves them as they
were. -/
def outcome (s : List Bytes) : Run Stack → EStateM.Result Halt (List Bytes) Unit
  | .ok t => .ok () t.reverse
  | .error e => .error e s

end InPlace

/-- The operations on a stack, those on groups with the size of a group, the others with the number
of elements above the one they are about. -/
inductive Move
  | removeAt (depth : ℕ)
  | dropTop (n : ℕ)
  | dupTop (n : ℕ)
  | copyBelow (n : ℕ)
  | rotate (n : ℕ)
  | swapPairs (n : ℕ)
  | tuck
  | pick (depth : ℕ)
  | roll (depth : ℕ)
  deriving DecidableEq, Repr

namespace Move

def inPlace : Move → InPlace Unit
  | removeAt depth => InPlace.removeAt depth
  | dropTop n => InPlace.dropTop n
  | dupTop n => InPlace.dupTop n
  | copyBelow n => InPlace.copyBelow n
  | rotate n => InPlace.rotate n
  | swapPairs n => InPlace.swapPairs n
  | tuck => InPlace.tuck
  | pick depth => InPlace.pick depth
  | roll depth => InPlace.roll depth

def apply : Move → Stack → Run Stack
  | removeAt depth, s => s.removeAt depth
  | dropTop n, s => s.dropTop n
  | dupTop n, s => s.dupTop n
  | copyBelow n, s => s.copyBelow n
  | rotate n, s => s.rotate n
  | swapPairs n, s => s.swapPairs n
  | tuck, s => s.tuck
  | pick depth, s => s.pick depth
  | roll depth, s => s.roll depth

def size : Move → ℕ
  | removeAt n | dropTop n | dupTop n | copyBelow n | rotate n | swapPairs n | pick n | roll n => n
  | tuck => 0

def needs : Move → ℕ
  | dropTop n | dupTop n => n
  | copyBelow n | swapPairs n => 2 * n
  | rotate n => 3 * n
  | tuck => 2
  | removeAt depth | pick depth | roll depth => depth + 1

/-- What an operation makes of a stack, the bottom first. -/
inductive Effect : Move → List Bytes → List Bytes → Prop
  | removeAt {depth : ℕ} {below above : List Bytes} {x : Bytes} : above.length = depth →
      Effect (.removeAt depth) (below ++ x :: above) (below ++ above)
  | dropTop {n : ℕ} {below a : List Bytes} : a.length = n →
      Effect (.dropTop n) (below ++ a) below
  | dupTop {n : ℕ} {below a : List Bytes} : a.length = n →
      Effect (.dupTop n) (below ++ a) (below ++ a ++ a)
  | copyBelow {n : ℕ} {below a b : List Bytes} : a.length = n → b.length = n →
      Effect (.copyBelow n) (below ++ (a ++ b)) (below ++ (a ++ b) ++ a)
  | rotate {n : ℕ} {below a b c : List Bytes} : a.length = n → b.length = n → c.length = n →
      Effect (.rotate n) (below ++ (a ++ (b ++ c))) (below ++ (b ++ (c ++ a)))
  | swapPairs {n : ℕ} {below a b : List Bytes} : a.length = n → b.length = n →
      Effect (.swapPairs n) (below ++ (a ++ b)) (below ++ (b ++ a))
  | tuck {below : List Bytes} {x y : Bytes} :
      Effect .tuck (below ++ [x, y]) (below ++ [y, x, y])
  | pick {depth : ℕ} {below above : List Bytes} {x : Bytes} : above.length = depth →
      Effect (.pick depth) (below ++ x :: above) (below ++ x :: above ++ [x])
  | roll {depth : ℕ} {below above : List Bytes} {x : Bytes} : above.length = depth →
      Effect (.roll depth) (below ++ x :: above) (below ++ (above ++ [x]))

open InPlace (outcome repeated startOf_of_lt times_of_lt times_two_of_lt tooShallow)

variable {m : Move} {s t : List Bytes}

theorem Effect.inPlace_eq (h : Effect m s t) (hsize : 3 * m.size < 2 ^ 64) :
    m.inPlace s = .ok () t := by
  cases h with
  | removeAt h => exact InPlace.removeAt_append h
  | dropTop h => exact InPlace.dropTop_append h
  | dupTop h => exact InPlace.dupTop_append h
  | copyBelow ha hb => exact InPlace.copyBelow_append hsize ha hb
  | rotate ha hb hc => exact InPlace.rotate_append hsize ha hb hc
  | swapPairs ha hb => exact InPlace.swapPairs_append hsize ha hb
  | tuck => exact InPlace.tuck_append
  | pick h => exact InPlace.pick_append h
  | roll h => exact InPlace.roll_append h

theorem exists_effect (h : m.needs ≤ s.length) : ∃ t, m.Effect s t := by
  cases m with
  | removeAt depth =>
    obtain ⟨below, x, above, rfl, hlen⟩ := exists_append_cons h
    exact ⟨_, .removeAt hlen⟩
  | dropTop n =>
    obtain ⟨below, a, rfl, hlen⟩ := exists_append h
    exact ⟨_, .dropTop hlen⟩
  | dupTop n =>
    obtain ⟨below, a, rfl, hlen⟩ := exists_append h
    exact ⟨_, .dupTop hlen⟩
  | copyBelow n =>
    obtain ⟨below, a, b, rfl, ha, hb⟩ := exists_append_two h
    exact ⟨_, .copyBelow ha hb⟩
  | rotate n =>
    obtain ⟨below, a, b, c, rfl, ha, hb, hc⟩ := exists_append_three h
    exact ⟨_, .rotate ha hb hc⟩
  | swapPairs n =>
    obtain ⟨below, a, b, rfl, ha, hb⟩ := exists_append_two h
    exact ⟨_, .swapPairs ha hb⟩
  | tuck =>
    obtain ⟨below, x, above, rfl, hlen⟩ := exists_append_cons (show 1 + 1 ≤ s.length from h)
    obtain ⟨y, rfl⟩ := List.length_eq_one_iff.1 hlen
    exact ⟨_, .tuck⟩
  | pick depth =>
    obtain ⟨below, x, above, rfl, hlen⟩ := exists_append_cons h
    exact ⟨_, .pick hlen⟩
  | roll depth =>
    obtain ⟨below, x, above, rfl, hlen⟩ := exists_append_cons h
    exact ⟨_, .roll hlen⟩

theorem inPlace_of_lt (h : s.length < m.needs) (hsize : 3 * m.size < 2 ^ 64) :
    m.inPlace s = .error (tooShallow m.needs s) s := by
  cases m with
  | removeAt depth => exact bind_of_error (bind_of_error (startOf_of_lt h))
  | dropTop n => exact bind_of_error (startOf_of_lt h)
  | dupTop n => exact bind_of_error (startOf_of_lt h)
  | copyBelow n =>
    exact (bind_of_ok (times_two_of_lt hsize)).trans (bind_of_error (startOf_of_lt h))
  | rotate n => exact (bind_of_ok (times_of_lt hsize)).trans (bind_of_error (startOf_of_lt h))
  | swapPairs n =>
    exact (bind_of_ok (times_two_of_lt hsize)).trans (bind_of_error (startOf_of_lt h))
  | tuck => exact bind_of_error (startOf_of_lt h)
  | pick depth => exact bind_of_error (bind_of_error (startOf_of_lt h))
  | roll depth => exact bind_of_error (bind_of_error (startOf_of_lt h))

theorem apply_of_lt {s : Stack} (h : s.length < m.needs) :
    m.apply s = .error (tooShallow m.needs s) := by
  have hneed {n : ℕ} {g : Unit → Run Stack} (h : s.length < n) :
      (s.need n >>= g) = .error (tooShallow n s) := by
    rw [Stack.need_of_lt h]
    rfl
  have hpeek {n : ℕ} {g : Bytes → Run Stack} (h : s.length < n + 1) :
      (s.peek n >>= g) = .error (tooShallow (n + 1) s) := by
    rw [Stack.peek, List.getElem?_eq_none (by omega)]
    rfl
  cases m with
  | removeAt depth => exact hneed h
  | dropTop n => exact hneed h
  | dupTop n => exact hneed h
  | copyBelow n => exact hneed h
  | rotate n => exact hneed h
  | swapPairs n => exact hneed h
  | tuck =>
    match s, h with
    | [], _ => rfl
    | [_], _ => rfl
  | pick depth => exact hpeek h
  | roll depth => exact hpeek h

theorem Effect.apply_eq (h : m.Effect s t) : m.apply s.reverse = .ok t.reverse := by
  cases h <;> simp only [List.reverse_append, List.reverse_cons, List.reverse_nil,
    List.append_assoc, List.cons_append, List.nil_append]
  case removeAt h => exact Stack.removeAt_append (by rwa [List.length_reverse])
  case dropTop h => exact Stack.dropTop_append (by rwa [List.length_reverse])
  case dupTop h => exact Stack.dupTop_append (by rwa [List.length_reverse])
  case copyBelow ha hb =>
    exact Stack.copyBelow_append (by rwa [List.length_reverse]) (by rwa [List.length_reverse])
  case rotate ha hb hc =>
    exact Stack.rotate_append (by rwa [List.length_reverse]) (by rwa [List.length_reverse])
      (by rwa [List.length_reverse])
  case swapPairs ha hb =>
    exact Stack.swapPairs_append (by rwa [List.length_reverse]) (by rwa [List.length_reverse])
  case tuck => rfl
  case pick h => exact Stack.pick_append (by rwa [List.length_reverse])
  case roll h => exact Stack.roll_append (by rwa [List.length_reverse])

/-- An operation works on as many elements as it needs, and the others lie below its result. -/
theorem Effect.exists_below (h : m.Effect s t) :
    ∃ below top left, s = below ++ top ∧ top.length = m.needs ∧ t = below ++ left := by
  cases h with
  | removeAt h => exact ⟨_, _, _, rfl, congrArg (· + 1) h, rfl⟩
  | dropTop h => exact ⟨_, _, [], rfl, h, (List.append_nil _).symm⟩
  | dupTop h => exact ⟨_, _, _, rfl, h, List.append_assoc _ _ _⟩
  | copyBelow ha hb =>
    refine ⟨_, _, _, rfl, ?_, List.append_assoc _ _ _⟩
    rw [List.length_append, needs]
    omega
  | rotate ha hb hc =>
    refine ⟨_, _, _, rfl, ?_, rfl⟩
    rw [List.length_append, List.length_append, needs]
    omega
  | swapPairs ha hb =>
    refine ⟨_, _, _, rfl, ?_, rfl⟩
    rw [List.length_append, needs]
    omega
  | tuck => exact ⟨_, _, _, rfl, rfl, rfl⟩
  | pick h => exact ⟨_, _, _, rfl, congrArg (· + 1) h, List.append_assoc _ _ _⟩
  | roll h => exact ⟨_, _, _, rfl, congrArg (· + 1) h, rfl⟩

theorem inPlace_eq_outcome (hsize : 3 * m.size < 2 ^ 64) :
    m.inPlace s = outcome s (m.apply s.reverse) := by
  rcases Nat.lt_or_ge s.length m.needs with hlt | hle
  · have hrev : s.reverse.length < m.needs := by rwa [List.length_reverse]
    rw [inPlace_of_lt hlt hsize, apply_of_lt hrev, outcome, tooShallow, tooShallow,
      List.length_reverse]
  · obtain ⟨t, ht⟩ := exists_effect hle
    rw [ht.inPlace_eq hsize, ht.apply_eq, outcome, List.reverse_reverse]

theorem effect_of_inPlace (hsize : 3 * m.size < 2 ^ 64) (h : m.inPlace s = .ok () t) :
    m.Effect s t := by
  rcases Nat.lt_or_ge s.length m.needs with hlt | hle
  · rw [inPlace_of_lt hlt hsize] at h
    cases h
  · obtain ⟨t', ht⟩ := exists_effect hle
    rw [ht.inPlace_eq hsize] at h
    cases h
    exact ht

theorem inPlace_eq_error_iff (hsize : 3 * m.size < 2 ^ 64) {e : Halt} :
    m.inPlace s = .error e t ↔ s.length < m.needs ∧ e = tooShallow m.needs s ∧ t = s := by
  rcases Nat.lt_or_ge s.length m.needs with hlt | hle
  · rw [inPlace_of_lt hlt hsize]
    simp [hlt, eq_comm]
  · obtain ⟨t', ht⟩ := exists_effect hle
    rw [ht.inPlace_eq hsize]
    simp [Nat.not_lt.2 hle]

theorem Effect.exists_copies {n : ℕ} (h : m.Effect s t) (hm : m = .copyBelow n ∨ m = .pick n) :
    ∃ copies, copies <:+: s ∧ t = s ++ copies := by
  rcases hm with rfl | rfl
  · cases h with
    | @copyBelow _ below a b ha hb => exact ⟨a, ⟨below, b, List.append_assoc _ _ _⟩, rfl⟩
  · cases h with
    | @pick _ below above x h => exact ⟨[x], ⟨below, above, List.append_assoc _ _ _⟩, rfl⟩

/-- On a stack that is deep enough an operation has its effect, and what lies below the elements it
needs stays; any other stack it rejects and leaves as it is. Copies are only put on top, and groups
that are exchanged, turned or rolled often enough are back where they were. -/
theorem inPlace_exact :
    (∀ (m : Move) (s : List Bytes), 3 * m.size < 2 ^ 64 →
      ((∃ e t, m.inPlace s = .error e t) ↔ s.length < m.needs) ∧
        (∀ e t, m.inPlace s = .error e t →
          t = s ∧ ∃ r, e = .rejected r ∧ r.code = .invalidStackOperation) ∧
        (∀ t, m.inPlace s = .ok () t → m.Effect s t ∧
          (∃ below top left, s = below ++ top ∧ top.length = m.needs ∧ t = below ++ left) ∧
          ∀ n, m = .copyBelow n ∨ m = .pick n → ∃ copies, copies <:+: s ∧ t = s ++ copies) ∧
        m.inPlace s = outcome s (m.apply s.reverse)) ∧
      ∀ (n : ℕ) (s : List Bytes), 3 * n < 2 ^ 64 →
        (2 * n ≤ s.length → repeated (InPlace.swapPairs n) 2 s = .ok () s) ∧
          (3 * n ≤ s.length → repeated (InPlace.rotate n) 3 s = .ok () s) ∧
          (n + 1 ≤ s.length → repeated (InPlace.roll n) (n + 1) s = .ok () s) := by
  refine ⟨fun m s hsize ↦ ⟨⟨?_, ?_⟩, ?_, ?_, inPlace_eq_outcome hsize⟩, fun n s hn ↦
    ⟨InPlace.repeated_swapPairs hn, InPlace.repeated_rotate hn, InPlace.repeated_roll⟩⟩
  · rintro ⟨e, t, h⟩
    exact ((inPlace_eq_error_iff hsize).1 h).1
  · intro hlt
    exact ⟨_, _, inPlace_of_lt hlt hsize⟩
  · intro e t h
    obtain ⟨-, rfl, rfl⟩ := (inPlace_eq_error_iff hsize).1 h
    exact ⟨rfl, _, rfl, rfl⟩
  · intro t h
    have heffect := effect_of_inPlace hsize h
    exact ⟨heffect, heffect.exists_below, fun n hm ↦ heffect.exists_copies hm⟩

theorem inPlace_exact_groups :
    (rotate 2).inPlace [[1], [2], [3], [4], [5], [6]] = .ok () [[3], [4], [5], [6], [1], [2]] ∧
      repeated (InPlace.rotate 2) 3 [[1], [2], [3], [4], [5], [6]] =
        .ok () [[1], [2], [3], [4], [5], [6]] ∧
      ∃ e, (rotate 2).inPlace [[1], [2], [3], [4], [5]] = .error e [[1], [2], [3], [4], [5]] := by
  have herror := (inPlace_exact.1 (rotate 2) [[1], [2], [3], [4], [5]] (by decide)).1.2 (by decide)
  obtain ⟨e, t, h⟩ := herror
  have hsame := ((inPlace_exact.1 (rotate 2) _ (by decide)).2.1 e t h).1
  have hback := (inPlace_exact.2 2 [[1], [2], [3], [4], [5], [6]] (by decide)).2.1 (by decide)
  exact ⟨rfl, hback, e, hsame ▸ h⟩

end Move

end BitcoinCash
