import BitcoinCash.Proofs.Transaction.Scan
import BitcoinCash.Proofs.Transaction.Spelling

namespace BitcoinCash

open Reader (bind_eq_ok bind_of_ok bind_of_error bind_eq_error)

namespace TxReader

variable {α β : Type}

/-- The only failure is that a field finds too few bytes. -/
def Reports (x : TxReader α) : Prop :=
  ∀ b e rest, x b = .error e rest → ∃ name, e = .reading name .endOfData

namespace Reports

variable {x : TxReader α} {g : α → TxReader β}

theorem pure (a : α) : Reports (Pure.pure a) := by
  intro b e rest h
  cases h

theorem field (name : TxField) (x : Reader α) : Reports (field name x) := by
  intro b e rest h
  unfold TxReader.field at h
  split at h
  · cases h
  · cases h
    exact ⟨name, rfl⟩

theorem bind (hx : Reports x) (hg : ∀ a, Reports (g a)) : Reports (x >>= g) := by
  intro b e rest h
  rcases bind_eq_error.1 h with h | ⟨a, t, -, h⟩
  · exact hx b e rest h
  · exact hg a t e rest h

theorem count (hx : Reports x) (n : ℕ) : Reports (count x n) := by
  induction n with
  | zero => exact pure []
  | succ n ih => exact hx.bind fun a ↦ ih.bind fun as ↦ pure (a :: as)

end Reports

inductive Runs (item : TxReader α) : Bytes → List α → Bytes → Prop
  | nil (b : Bytes) : Runs item b [] b
  | cons {a : α} {as : List α} {b t rest : Bytes} :
    item b = .ok a t → Runs item t as rest → Runs item b (a :: as) rest

/-- A loop over `n` items, of which each takes at least `size` bytes, reads what fits. If this is
less than announced the loop ends as the next item does. -/
def StopsAtFirst (item : TxReader α) (size : ℕ) : Prop :=
  ∀ n b, ∃ as rest, Runs item b as rest ∧ size * as.length + rest.length ≤ b.length ∧
    (as.length = n ∧ count item n b = .ok as rest ∨
      as.length < n ∧ ∃ e t, item rest = .error e t ∧ count item n b = .error e t)

theorem stopsAtFirst {item : TxReader α} {size : ℕ}
    (hsize : ∀ {b a rest}, item b = .ok a rest → size + rest.length ≤ b.length) :
    StopsAtFirst item size := by
  intro n b
  induction n generalizing b with
  | zero => exact ⟨[], b, .nil b, by simp, .inl ⟨rfl, rfl⟩⟩
  | succ n ih =>
    cases hitem : item b with
    | error e t =>
      exact ⟨[], b, .nil b, by simp, .inr ⟨Nat.succ_pos n, e, t, hitem, bind_of_error hitem⟩⟩
    | ok a t =>
      obtain ⟨as, rest, hruns, hlen, hcases⟩ := ih t
      have hfirst := hsize hitem
      refine ⟨a :: as, rest, .cons hitem hruns, ?_, ?_⟩
      · rw [List.length_cons, Nat.mul_succ]
        omega
      · rcases hcases with ⟨hn, hread⟩ | ⟨hn, e, u, hnext, hread⟩
        · exact .inl ⟨congrArg (· + 1) hn, (bind_of_ok hitem).trans (bind_of_ok hread)⟩
        · exact .inr ⟨Nat.succ_lt_succ hn, e, u, hnext,
            (bind_of_ok hitem).trans (bind_of_error hread)⟩

end TxReader

open TxReader (Reports StopsAtFirst stopsAtFirst)

theorem TxOutput.stopsAtFirst_reader : StopsAtFirst TxOutput.reader 9 := by
  refine stopsAtFirst fun {b o rest} h ↦ ?_
  obtain ⟨w, -, rfl⟩ := exists_width h
  have hw := w.length_pos
  rw [List.length_append, length_toBytesIn]
  omega

theorem TxInput.stopsAtFirst_reader : StopsAtFirst TxInput.reader 41 := by
  refine stopsAtFirst fun {b input rest} h ↦ ?_
  obtain ⟨w, -, rfl⟩ := exists_width h
  have hw := w.length_pos
  rw [List.length_append, length_toBytesIn]
  omega

theorem TxOutput.reports_reader : Reports TxOutput.reader :=
  (Reports.field _ _).bind fun _ ↦ (Reports.field _ _).bind fun _ ↦ .pure _

theorem TxInput.reports_reader : Reports TxInput.reader :=
  (Reports.field _ _).bind fun _ ↦ (Reports.field _ _).bind fun _ ↦
    (Reports.field _ _).bind fun _ ↦ (Reports.field _ _).bind fun _ ↦ .pure _

namespace Transaction

variable {b : Bytes} {tx : Transaction}

theorem reports_reader : Reports reader := by
  refine (Reports.field _ _).bind fun _ ↦ (Reports.field _ _).bind fun n ↦ ?_
  refine (TxInput.reports_reader.count _).bind fun _ ↦ (Reports.field _ _).bind fun m ↦ ?_
  exact (TxOutput.reports_reader.count _).bind fun _ ↦ (Reports.field _ _).bind fun _ ↦ .pure _

theorem reader_append {rest : Bytes} (h : reader b = .ok tx rest) (s : Bytes) :
    reader (b ++ s) = .ok tx (rest ++ s) := by
  obtain ⟨spelling, hs, rfl⟩ := exists_spelling h
  have hread := takes_toBytesIn hs
  rw [hread rest] at h
  injection h with htx
  rw [List.append_assoc, hread (rest ++ s), htx]

/-- A string is read, breaks off within a field or goes on after the transaction. -/
theorem ofBytes_cases (b : Bytes) :
    (∃ tx, reader b = .ok tx [] ∧ ofBytes b = .ok tx) ∨
      (∃ tx rest, rest ≠ [] ∧ reader b = .ok tx rest ∧ ofBytes b = .error (.trailing rest.length)) ∨
      ∃ name rest, reader b = .error (.reading name .endOfData) rest ∧
        ofBytes b = .error (.reading name .endOfData) := by
  unfold ofBytes
  cases h : reader b with
  | ok tx rest =>
    cases rest with
    | nil => exact .inl ⟨tx, rfl, rfl⟩
    | cons x rest => exact .inr (.inl ⟨tx, _, List.cons_ne_nil x rest, rfl, rfl⟩)
  | error e rest =>
    obtain ⟨name, rfl⟩ := reports_reader b e rest h
    exact .inr (.inr ⟨name, rest, rfl, rfl⟩)

theorem ofBytes_append {s : Bytes} (h : ofBytes b = .ok tx) (hs : s ≠ []) :
    ofBytes (b ++ s) = .error (.trailing s.length) := by
  have hread := reader_append (ofBytes_eq_ok.1 h) s
  rw [List.nil_append] at hread
  rw [ofBytes, hread]
  cases s with
  | nil => exact absurd rfl hs
  | cons x s => rfl

theorem ofBytes_of_append {p s : Bytes} (h : ofBytes (p ++ s) = .ok tx) (hs : s ≠ []) :
    ∃ name, ofBytes p = .error (.reading name .endOfData) := by
  have hwhole := ofBytes_eq_ok.1 h
  have hcut {tx' : Transaction} {rest : Bytes} (hread : reader p = .ok tx' rest) : False := by
    have hlong := reader_append hread s
    rw [hwhole] at hlong
    injection hlong with _ hrest
    exact hs (List.append_eq_nil_iff.1 hrest.symm).2
  rcases ofBytes_cases p with ⟨tx', hread, -⟩ | ⟨tx', rest, -, hread, -⟩ | ⟨name, rest, -, herror⟩
  · exact (hcut hread).elim
  · exact (hcut hread).elim
  · exact ⟨name, herror⟩

/-- A string that is read as a transaction is neither cut short nor continued by another. Reading
by place never leaves the string, and a loop over announced items, however many, ends with the first
that does not fit. -/
theorem ofBytes_delimited :
    (∀ {b tx}, ofBytes b = .ok tx →
      (∀ p, p <+: b → p ≠ b → ∃ name, ofBytes p = .error (.reading name .endOfData)) ∧
        ∀ q, b <+: q → q ≠ b → ofBytes q = .error (.trailing (q.length - b.length))) ∧
      (∀ b, scan b = ofBytes b ∧ ∀ f, scan b ≠ .error (.fault f)) ∧
      StopsAtFirst TxInput.reader 41 ∧ StopsAtFirst TxOutput.reader 9 := by
  refine ⟨fun {b tx} h ↦ ⟨?_, ?_⟩, fun b ↦ ⟨scan_eq_ofBytes b, ?_⟩, TxInput.stopsAtFirst_reader,
    TxOutput.stopsAtFirst_reader⟩
  · rintro p ⟨s, rfl⟩ hne
    exact ofBytes_of_append h (by simpa using hne)
  · rintro q ⟨s, rfl⟩ hne
    rw [ofBytes_append h (by simpa using hne), List.length_append, Nat.add_sub_cancel_left]
  · intro f hf
    rw [scan_eq_ofBytes] at hf
    rcases ofBytes_cases b with ⟨tx, -, h⟩ | ⟨tx, rest, -, -, h⟩ | ⟨name, rest, -, h⟩ <;>
      rw [h] at hf <;> cases hf

theorem ofBytes_delimited_output :
    let b : Bytes := [1, 0, 0, 0, 0, 1, 7, 0, 0, 0, 0, 0, 0, 0, 2, 0x51, 0x51, 9, 0, 0, 0]
    ofBytes b = .ok { outputs := [⟨7, ⟨[0x51, 0x51]⟩⟩], lockTime := 9 } ∧
      (∃ name, ofBytes (b.take 20) = .error (.reading name .endOfData)) ∧
      ofBytes (b ++ [9, 9]) = .error (.trailing 2) := by
  intro b
  have hread : ofBytes b = .ok { outputs := [⟨7, ⟨[0x51, 0x51]⟩⟩], lockTime := 9 } := rfl
  obtain ⟨hcut, hmore⟩ := ofBytes_delimited.1 hread
  exact ⟨hread, hcut _ (List.take_prefix 20 b) (by decide),
    hmore _ (List.prefix_append b [9, 9]) (by decide)⟩

end Transaction

end BitcoinCash
