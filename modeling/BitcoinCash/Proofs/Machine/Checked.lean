import Mathlib.Data.Nat.Notation
import BitcoinCash.Machine.Checked
import BitcoinCash.Proofs.Fallible

namespace BitcoinCash.Checked

variable {α : Type} {xs : List α} {x y : α} {i n : ℕ}

theorem item_eq_ok : item xs i = .ok x ↔ xs[i]? = some x := by
  unfold item
  cases xs[i]? <;> simp

theorem item_of_lt (h : i < xs.length) : item xs i = .ok xs[i] :=
  item_eq_ok.2 (List.getElem?_eq_getElem h)

theorem item_append (xs ys : List α) (k : ℕ) : item (xs ++ ys) (xs.length + k) = item ys k := by
  rw [item, List.getElem?_append_right (Nat.le_add_right _ _), Nat.add_sub_cancel_left]
  rfl

theorem item_zero (h : 0 < xs.length) (d : α) : item xs 0 = .ok (xs.headD d) := by
  match xs, h with
  | _ :: _, _ => rfl

theorem put_of_lt (h : i < xs.length) : put xs i x = .ok (xs.set i x) := if_pos h

theorem splitAt_of_le (h : n ≤ xs.length) : splitAt xs n = .ok (xs.take n, xs.drop n) := if_pos h

theorem splitAt_drop {k : ℕ} (h : n + k ≤ xs.length) :
    splitAt (xs.drop n) k = .ok ((xs.drop n).take k, xs.drop (n + k)) := by
  rw [splitAt_of_le (by rw [List.length_drop]; omega), List.drop_drop]

theorem splitAt_append (xs ys : List α) : splitAt (xs ++ ys) xs.length = .ok (xs, ys) := by
  rw [splitAt_of_le (by simp), List.take_left, List.drop_left]

theorem splitAt_takeWhile {p : α → Bool} :
    splitAt xs (xs.takeWhile p).length = .ok (xs.takeWhile p, xs.dropWhile p) := by
  have h := splitAt_append (xs.takeWhile p) (xs.dropWhile p)
  rwa [List.takeWhile_append_dropWhile] at h

theorem slice_of_le (h : i + n ≤ xs.length) : slice xs i n = .ok ((xs.drop i).take n) := if_pos h

theorem slice_append (xs ys : List α) (i n : ℕ) :
    slice (xs ++ ys) (xs.length + i) n = slice ys i n := by
  simp only [slice, List.length_append, Nat.add_assoc, Nat.add_le_add_iff_left,
    List.drop_length_add_append]

theorem minus_of_le {a b : ℕ} (h : b ≤ a) : minus a b = .ok (a - b) := if_pos h

theorem splitAt_set (h : i < xs.length) :
    splitAt (xs.set i x) (i + 1) = .ok (xs.take i ++ [x], xs.drop (i + 1)) := by
  have hlen : i + 1 ≤ (xs.set i x).length := by rwa [List.length_set]
  have htake : (xs.set i x).take (i + 1) = xs.take i ++ [x] := by
    rw [List.take_succ_eq_append_getElem hlen, List.take_set_of_le (Nat.le_refl i),
      List.getElem_set_self]
  rw [splitAt_of_le hlen, htake, List.drop_set_of_lt (Nat.lt_succ_self i)]

theorem minus_length_concat : minus (xs ++ [x]).length 1 = .ok xs.length := by
  rw [minus_of_le (by simp), List.length_append]
  rfl

theorem put_concat : put (xs ++ [x]) xs.length y = .ok (xs ++ [y]) := by
  rw [put_of_lt (by simp)]
  simp

theorem minus_length_concat_two : minus (xs ++ [x] ++ [y]).length 2 = .ok xs.length := by
  rw [minus_of_le (by simp)]
  simp

theorem item_concat : item (xs ++ [x]) xs.length = .ok x :=
  item_eq_ok.2 List.getElem?_concat_length

theorem item_concat_two : item (xs ++ [x] ++ [y]) xs.length = .ok x := by
  rw [item_eq_ok, List.append_assoc, List.getElem?_append_right (Nat.le_refl _), Nat.sub_self]
  rfl

theorem eraseIdx_append_cons (h : xs.length = n) (x : α) (ys : List α) :
    (xs ++ x :: ys).eraseIdx n = xs ++ ys := by
  rw [List.eraseIdx_append_of_length_le (Nat.le_of_eq h), h, Nat.sub_self, List.eraseIdx_cons_zero]

end BitcoinCash.Checked
