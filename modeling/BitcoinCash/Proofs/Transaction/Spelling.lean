import BitcoinCash.Proofs.Transaction.Wire

namespace BitcoinCash

open Reader (bind_eq_ok pure_eq_ok u32_eq_ok u64_eq_ok compactSize_eq_ok varBytes_eq_ok)

namespace TxReader

variable {α κ : Type} {b rest : Bytes}

theorem field_eq_ok {name : TxField} {x : Reader α} {a : α} :
    field name x b = .ok a rest ↔ x b = .ok a rest := by
  unfold field
  cases x b <;> simp

/-- Items that are read one after the other, each from a form of its own. -/
theorem exists_of_count {item : TxReader α} {R : α → κ → Prop} {f : α → κ → Bytes}
    (hitem : ∀ {b a rest}, item b = .ok a rest → ∃ w, R a w ∧ b = f a w ++ rest) {n : ℕ}
    {as : List α} (h : count item n b = .ok as rest) :
    as.length = n ∧ ∃ ws, List.Forall₂ R as ws ∧ b = (List.zipWith f as ws).flatten ++ rest := by
  induction n generalizing b as with
  | zero =>
    obtain ⟨rfl, rfl⟩ := pure_eq_ok.1 h
    exact ⟨rfl, [], .nil, rfl⟩
  | succ n ih =>
    obtain ⟨a, t, ha, hrest⟩ := bind_eq_ok.1 h
    obtain ⟨as', t', has, hpure⟩ := bind_eq_ok.1 hrest
    obtain ⟨rfl, rfl⟩ := pure_eq_ok.1 hpure
    obtain ⟨w, hw, hb⟩ := hitem ha
    obtain ⟨hlen, ws, hws, ht⟩ := ih has
    refine ⟨congrArg (· + 1) hlen, w :: ws, .cons hw hws, ?_⟩
    rw [hb, ht, List.zipWith_cons_cons, List.flatten_cons, List.append_assoc]

end TxReader

open TxReader (field_eq_ok exists_of_count)

theorem TxId.reader_eq_ok {b rest : Bytes} {id : TxId} :
    TxId.reader b = .ok id rest ↔ b = id.bytes ++ rest := by
  constructor
  · intro h
    unfold reader at h
    split at h
    · cases h
      exact (List.take_append_drop 32 b).symm
    · cases h
  · intro h
    rw [h]
    exact id.takes_reader rest

namespace TxOutput

theorem exists_width {b rest : Bytes} {o : TxOutput} (h : TxOutput.reader b = .ok o rest) :
    ∃ w : CompactWidth, o.lockingScript.length < w.bound ∧ b = o.toBytesIn w ++ rest := by
  simp only [reader, bind_eq_ok, pure_eq_ok, field_eq_ok, u64_eq_ok, varBytes_eq_ok] at h
  obtain ⟨satoshis, t, hb, script, t', ⟨w, hw, ht⟩, rfl, rfl⟩ := h
  refine ⟨w, hw, ?_⟩
  simp only [hb, ht, toBytesIn, List.append_assoc]
  rfl

end TxOutput

namespace TxInput

theorem exists_width {b rest : Bytes} {input : TxInput} (h : TxInput.reader b = .ok input rest) :
    ∃ w : CompactWidth, input.unlockingScript.length < w.bound ∧ b = input.toBytesIn w ++ rest := by
  simp only [reader, bind_eq_ok, pure_eq_ok, field_eq_ok, u32_eq_ok, varBytes_eq_ok,
    TxId.reader_eq_ok] at h
  obtain ⟨id, t, hb, index, t', ht, script, u, ⟨w, hw, ht'⟩, sequence, u', hu, rfl, rfl⟩ := h
  refine ⟨w, hw, ?_⟩
  simp only [hb, ht, ht', hu, toBytesIn, outpoint, List.append_assoc]
  rfl

end TxInput

namespace CompactWidth

variable {α : Type} {size rest : α → ℕ} {f : α → CompactWidth → Bytes} {as : List α}
  {ws : List CompactWidth}

/-- Lengths in their least widths make items no longer, and shorter if one of them was wider. -/
theorem length_least_items_le (hf : ∀ a w, (f a w).length = rest a + w.length)
    (h : List.Forall₂ (fun a w ↦ size a < w.bound) as ws) :
    (List.zipWith f as (as.map fun a ↦ least (size a))).flatten.length ≤
        (List.zipWith f as ws).flatten.length ∧
      ((List.zipWith f as ws).flatten.length ≤
          (List.zipWith f as (as.map fun a ↦ least (size a))).flatten.length →
        ws = as.map fun a ↦ least (size a)) := by
  induction h with
  | nil => exact ⟨Nat.le_refl 0, fun _ ↦ rfl⟩
  | @cons a w as ws hw h ih =>
    obtain ⟨hle, heq⟩ := ih
    have hleast := length_least_le hw
    simp only [List.map_cons, List.zipWith_cons_cons, List.flatten_cons, List.length_append, hf]
    constructor
    · omega
    · intro hlen
      rw [(eq_least_iff hw).2 (by omega), heq (by omega)]

end CompactWidth

namespace Transaction

variable {b : Bytes} {tx : Transaction} {s : Spelling}

theorem exists_spelling {rest : Bytes} (h : reader b = .ok tx rest) :
    ∃ s : Spelling, s.Suits tx ∧ b = tx.toBytesIn s ++ rest := by
  simp only [reader, bind_eq_ok, pure_eq_ok, field_eq_ok, u32_eq_ok, compactSize_eq_ok] at h
  obtain ⟨version, t, hb, n, t', ⟨wn, hn, ht⟩, inputs, u, hinputs, m, u', ⟨wm, hm, hu⟩, outputs, v,
    houtputs, lockTime, v', hv, rfl, rfl⟩ := h
  obtain ⟨hlen, ws, hws, ht'⟩ := exists_of_count TxInput.exists_width hinputs
  obtain ⟨hlen', ws', hws', hu'⟩ := exists_of_count TxOutput.exists_width houtputs
  rw [← hlen] at hn ht
  rw [← hlen'] at hm hu
  refine ⟨⟨wn, ws, wm, ws'⟩, ⟨hn, hws, hm, hws'⟩, ?_⟩
  simp only [hb, ht, ht', hu, hu', hv, toBytesIn, List.append_assoc]

theorem ofBytes_eq_ok : ofBytes b = .ok tx ↔ reader b = .ok tx [] := by
  unfold ofBytes
  split <;> simp_all

theorem ofBytes_eq_ok_iff :
    ofBytes b = .ok tx ↔ tx.forgetSources = tx ∧ ∃ s : Spelling, s.Suits tx ∧ b = tx.toBytesIn s := by
  rw [ofBytes_eq_ok]
  constructor
  · intro h
    obtain ⟨s, hs, hb⟩ := exists_spelling h
    have hread := takes_toBytesIn hs []
    rw [← hb, h] at hread
    rw [List.append_nil] at hb
    injection hread with htx
    exact ⟨htx.symm, s, hs, hb⟩
  · intro ⟨htx, s, hs, hb⟩
    have hread := takes_toBytesIn hs []
    rwa [List.append_nil, ← hb, htx] at hread

theorem sized_of_suits (h : s.Suits tx) : tx.Sized where
  inputs := CompactWidth.lt_of_lt_bound h.inputCount
  outputs := CompactWidth.lt_of_lt_bound h.outputCount
  unlocking := by
    have hboth := h.unlocking.imp fun _ _ hw ↦ And.intro (CompactWidth.lt_of_lt_bound hw) hw
    exact ((List.forall₂_and_left _ _).1 hboth).1
  locking := by
    have hboth := h.locking.imp fun _ _ hw ↦ And.intro (CompactWidth.lt_of_lt_bound hw) hw
    exact ((List.forall₂_and_left _ _).1 hboth).1

theorem bytes_id (tx : Transaction) : tx.id.bytes = sha256d tx.toBytes := rfl

theorem length_toBytesIn_least_le (h : s.Suits tx) :
    (tx.toBytesIn (.least tx)).length ≤ (tx.toBytesIn s).length ∧
      ((tx.toBytesIn s).length ≤ (tx.toBytesIn (.least tx)).length → s = .least tx) := by
  obtain ⟨hinputs, hunlocking⟩ :=
    CompactWidth.length_least_items_le TxInput.length_toBytesIn h.unlocking
  obtain ⟨houtputs, hlocking⟩ :=
    CompactWidth.length_least_items_le TxOutput.length_toBytesIn h.locking
  have hn := CompactWidth.length_least_le h.inputCount
  have hm := CompactWidth.length_least_le h.outputCount
  simp only [toBytesIn, List.length_append, CompactWidth.length_write, Spelling.least]
  constructor
  · omega
  · intro hlen
    ext1
    · exact (CompactWidth.eq_least_iff h.inputCount).2 (by omega)
    · exact hunlocking (by omega)
    · exact (CompactWidth.eq_least_iff h.outputCount).2 (by omega)
    · exact hlocking (by omega)

/-- Reading and writing gives back the same string just when it has every count and length in the
least width, and a shorter one otherwise. -/
theorem toBytes_eq_iff_least (h : ofBytes b = .ok tx) :
    ∃ s : Spelling, s.Suits tx ∧ b = tx.toBytesIn s ∧ tx.toBytes.length ≤ b.length ∧
      (tx.toBytes = b ↔ s = .least tx) ∧ (s = .least tx → tx.id.bytes = sha256d b) := by
  obtain ⟨-, s, hs, hb⟩ := ofBytes_eq_ok_iff.1 h
  obtain ⟨hle, hleast⟩ := length_toBytesIn_least_le hs
  have hbytes := toBytesIn_least (sized_of_suits hs)
  rw [hbytes] at hle hleast
  have hiff : tx.toBytes = b ↔ s = .least tx := by
    constructor
    · intro he
      apply hleast
      rw [← hb, he]
    · intro he
      rw [hb, he, hbytes]
  refine ⟨s, hs, hb, hb ▸ hle, hiff, ?_⟩
  intro he
  rw [bytes_id, hiff.2 he]

/-- A count of no inputs in three bytes: what is written has two bytes less, and another id. -/
theorem ofBytes_wide_count :
    let b : Bytes := [1, 0, 0, 0, 0xfd, 0, 0, 0, 0, 0, 0, 0]
    ofBytes b = .ok {} ∧ toBytes {} ≠ b ∧ (id {}).bytes ≠ sha256d b := by
  intro b
  exact ⟨rfl, by decide, by decide +kernel⟩

theorem toBytes_eq_iff_least_wide_length :
    let b : Bytes := [1, 0, 0, 0, 0, 1, 7, 0, 0, 0, 0, 0, 0, 0, 0xfe, 0, 0, 0, 0, 0, 0, 0, 0]
    let tx : Transaction := { outputs := [⟨7, .empty⟩] }
    ofBytes b = .ok tx ∧
      ∃ s : Spelling, s.Suits tx ∧ b = tx.toBytesIn s ∧ tx.toBytes.length ≤ b.length ∧
        (tx.toBytes = b ↔ s = .least tx) ∧ (s = .least tx → tx.id.bytes = sha256d b) := by
  intro b tx
  have hread : ofBytes b = .ok tx := rfl
  exact ⟨hread, toBytes_eq_iff_least hread⟩

end Transaction

end BitcoinCash
