import BitcoinCash.Text.Blank

namespace BitcoinCash

variable {c : Char} {w word t : List Char} {ws : List (List Char)}

def Solid (w : List Char) : Prop := ∀ c ∈ w, isBlank c = false

theorem isBlank_eq_false (hlow : 0x21 ≤ c.toNat) (hhigh : c.toNat ≤ 0x7e) : isBlank c = false := by
  simp only [isBlank, List.any_eq_false, Bool.and_eq_true, decide_eq_true_eq]
  intro r hr
  have hout : r.2 < 0x21 ∨ 0x7e < r.1 := by
    revert r
    decide
  omega

theorem wordsFrom_append (h : Solid w) : wordsFrom word (w ++ t) = wordsFrom (w.reverse ++ word) t := by
  induction w generalizing word with
  | nil => rfl
  | cons c w ih =>
    obtain ⟨hc, hw⟩ := List.forall_mem_cons.1 h
    have hstep : wordsFrom word (c :: (w ++ t)) = wordsFrom (c :: word) (w ++ t) := by
      rw [wordsFrom, hc]
      rfl
    rw [List.cons_append, hstep, ih hw, List.reverse_cons, List.append_assoc]
    rfl

theorem words_of_solid (hne : w ≠ []) (h : Solid w) : words w = [w] := by
  have hword : wordsFrom [] (w ++ []) = wordsFrom (w.reverse ++ []) [] := wordsFrom_append h
  rw [List.append_nil, List.append_nil] at hword
  rw [words, hword, wordsFrom]
  simp [hne]

theorem words_append_blank (hne : w ≠ []) (h : Solid w) (hc : isBlank c = true) (t : List Char) :
    words (w ++ c :: t) = w :: words t := by
  rw [words, wordsFrom_append h, List.append_nil, wordsFrom, hc]
  simp [hne, words]

theorem words_intercalate (h : ∀ w ∈ ws, w ≠ [] ∧ Solid w) : words ([' '].intercalate ws) = ws := by
  induction ws with
  | nil => rfl
  | cons w ws ih =>
    obtain ⟨⟨hne, hsolid⟩, hws⟩ := List.forall_mem_cons.1 h
    cases ws with
    | nil =>
      rw [List.intercalate_singleton]
      exact words_of_solid hne hsolid
    | cons v ws =>
      rw [List.intercalate_cons_cons, List.append_assoc, List.singleton_append,
        words_append_blank hne hsolid rfl, ih hws]

end BitcoinCash
