import BitcoinCash.Proofs.Fallible
import BitcoinCash.Proofs.Transaction.Coverage
import BitcoinCash.Proofs.Transaction.Wire

namespace BitcoinCash

open Fallible (ok_bind)

namespace Transaction.Legacy

variable {t : SighashType} {code code' : Bytes} {o o' : TxInput}

/-- An input as it is covered. Only the signed one keeps a script, the script code. -/
def maskInput (t : SighashType) (code : Bytes) (signed : Bool) (o : TxInput) : TxInput :=
  if signed then { o with unlockingScript := ⟨code⟩, source := none }
  else
    { o with
      unlockingScript := .empty
      sequence := if t.coverage = .all then o.sequence else 0
      source := none }

theorem maskInput_eq_iff {signed : Bool} :
    maskInput t code signed o = maskInput t code' signed o' ↔
      o.spends = o'.spends ∧ (t.coverage = .all → o.sequence = o'.sequence) ∧
        (signed → code = code' ∧ o.sequence = o'.sequence) := by
  cases signed with
  | true =>
    simp [maskInput, TxInput.spends]
    tauto
  | false =>
    by_cases h : t.coverage = .all
    · simp [maskInput, TxInput.spends, h]
      tauto
    · simp [maskInput, TxInput.spends, h]

/-- The transaction that the older layout writes. -/
def masked (tx : Transaction) (i : ℕ) (code : Bytes) (t : SighashType) : Transaction where
  version := tx.version
  inputs :=
    if t.anyoneCanPay then (tx.inputs[i]?.map (maskInput t code true)).toList
    else tx.inputs.mapIdx fun j o ↦ maskInput t code (j = i) o
  outputs :=
    (if t.coverage = .single then List.replicate i ⟨0xffffffffffffffff, .empty⟩ else []) ++
      tx.covered i t
  lockTime := tx.lockTime

variable {tx : Transaction} {i : ℕ}

theorem inputsBytes_eq {input : TxInput} (h : tx.inputs[i]? = some input) :
    inputsBytes tx i input code t =
      Wire.size (masked tx i code t).inputs.length ++
        (masked tx i code t).inputs.flatMap TxInput.toBytes := by
  unfold inputsBytes masked
  cases t.anyoneCanPay with
  | true => simp [h, maskInput, TxInput.toBytes, TxInput.toBytesWith, TxInput.outpoint]
  | false =>
    have hmask (j : ℕ) (o : TxInput) (hj : tx.inputs[j]? = some o) :
        (if j = i then input.toBytesWith code input.sequence
          else o.toBytesWith [] (if t.coverage = .all then o.sequence else 0)) =
            (maskInput t code (j = i) o).toBytes := by
      by_cases hji : j = i
      · subst hji
        obtain rfl : o = input := Option.some.inj (hj.symm.trans h)
        simp [maskInput, TxInput.toBytes, TxInput.toBytesWith, TxInput.outpoint]
      · simp [maskInput, hji, TxInput.toBytes, TxInput.toBytesWith, TxInput.outpoint, Script.empty]
    simp only [Bool.false_eq_true, if_false, List.length_mapIdx, List.flatMap_def]
    congr 2
    apply List.ext_getElem?
    intro j
    rw [List.getElem?_map, List.getElem?_mapIdx, List.getElem?_mapIdx]
    cases hj : tx.inputs[j]? with
    | none => rfl
    | some o => exact congrArg some (hmask j o hj)

theorem outputsBytes_eq (h : t.Applies i tx) :
    outputsBytes tx i t =
      .ok (Wire.size (masked tx i code t).outputs.length ++
        (masked tx i code t).outputs.flatMap TxOutput.toBytes) := by
  unfold outputsBytes masked
  cases hc : t.coverage with
  | none =>
    rw [covered_of_none hc]
    rfl
  | all =>
    rw [covered, hc]
    rfl
  | single =>
    obtain ⟨hsingle, hcovered⟩ := covered_of_single hc (h.output hc)
    have hblank : (TxOutput.mk 0xffffffffffffffff .empty).toBytes = blankOutput := rfl
    simp [hsingle, hcovered, List.flatMap_append, List.flatMap_replicate, hblank]

theorem preimage_eq (h : t.Applies i tx) :
    tx.legacyPreimage i code t = .ok ((masked tx i code t).toBytes ++ Wire.u32 t.bits) := by
  obtain ⟨input, hi⟩ := h.exists_input
  rw [legacyPreimage, input_eq hi, ok_bind, outputsBytes_eq h, ok_bind, inputsBytes_eq hi]
  simp only [toBytes, List.append_assoc]
  rfl

theorem exists_of_mem_masked {o : TxInput} (h : o ∈ (masked tx i code t).inputs) :
    ∃ signed o', o = maskInput t code signed o' := by
  unfold masked at h
  cases hacp : t.anyoneCanPay with
  | true =>
    simp only [hacp, if_true, Option.mem_toList, Option.map_eq_some_iff] at h
    obtain ⟨o', -, rfl⟩ := h
    exact ⟨true, o', rfl⟩
  | false =>
    simp only [hacp, Bool.false_eq_true, if_false, List.mem_mapIdx] at h
    obtain ⟨j, hj, rfl⟩ := h
    exact ⟨_, _, rfl⟩

theorem forgetSources_masked : (masked tx i code t).forgetSources = masked tx i code t := by
  have hforget : (masked tx i code t).inputs.map TxInput.forget = (masked tx i code t).inputs := by
    refine (List.map_congr_left fun o ho ↦ ?_).trans (List.map_id' _)
    obtain ⟨signed, o', rfl⟩ := exists_of_mem_masked ho
    cases signed with
    | true => rfl
    | false => rfl
  rw [forgetSources, hforget]

theorem sized_masked (h : tx.Sized) (ht : t.Applies i tx) (hcode : code.length < 2 ^ 64) :
    (masked tx i code t).Sized where
  inputs := by
    unfold masked
    cases t.anyoneCanPay with
    | true => simp [ht.input]
    | false => simpa using h.inputs
  outputs := by
    unfold masked
    cases hc : t.coverage with
    | none => simp [covered_of_none hc]
    | all => simpa [covered, hc] using h.outputs
    | single =>
      have hlt : i < tx.outputs.length := ht.output hc
      have hsize := h.outputs
      simp only [if_true, (covered_of_single hc hlt).2, List.length_append, List.length_replicate,
        List.length_singleton]
      omega
  unlocking o ho := by
    obtain ⟨signed, o', rfl⟩ := exists_of_mem_masked ho
    cases signed with
    | true => exact hcode
    | false => exact Nat.two_pow_pos 64
  locking o ho := by
    obtain hblank | ho := List.mem_append.1 ho
    · split at hblank
      · rw [List.eq_of_mem_replicate hblank]
        exact Nat.two_pow_pos 64
      · cases hblank
    · exact h.locking o (mem_outputs_of_mem_covered ho)

theorem map_maskInput_eq_iff {signed : Bool} {a a' : Option TxInput} :
    a.map (maskInput t code signed) = a'.map (maskInput t code' signed) ↔
      a.map TxInput.spends = a'.map TxInput.spends ∧
        (t.coverage = .all → a.map TxInput.sequence = a'.map TxInput.sequence) ∧
        (signed → a.isSome → code = code' ∧ a.map TxInput.sequence = a'.map TxInput.sequence) := by
  cases a with
  | none => cases a' <;> simp
  | some o => cases a' <;> simp [maskInput_eq_iff]

theorem inputs_masked_eq_iff {tx' : Transaction} (h : i < tx.inputs.length) :
    (masked tx i code t).inputs = (masked tx' i code' t).inputs ↔
      code = code' ∧ tx.inputs[i]?.map TxInput.spends = tx'.inputs[i]?.map TxInput.spends ∧
        tx.inputs[i]?.map TxInput.sequence = tx'.inputs[i]?.map TxInput.sequence ∧
        (t.anyoneCanPay = false →
          tx.inputs.map TxInput.spends = tx'.inputs.map TxInput.spends) ∧
        (t.anyoneCanPay = false → t.coverage = .all →
          tx.inputs.map TxInput.sequence = tx'.inputs.map TxInput.sequence) := by
  have hsome : tx.inputs[i]?.isSome := by simp [h]
  unfold masked
  cases t.anyoneCanPay with
  | true =>
    have htoList {a b : Option TxInput} : a.toList = b.toList ↔ a = b := by
      cases a <;> cases b <;> simp
    rw [if_pos rfl, if_pos rfl, htoList, map_maskInput_eq_iff]
    constructor
    · rintro ⟨hspends, -, hsigned⟩
      obtain ⟨hcode, hsequence⟩ := hsigned rfl hsome
      exact ⟨hcode, hspends, hsequence, nofun, nofun⟩
    · rintro ⟨hcode, hspends, hsequence, -, -⟩
      exact ⟨hspends, fun _ ↦ hsequence, fun _ _ ↦ ⟨hcode, hsequence⟩⟩
  | false =>
    simp only [Bool.false_eq_true, if_false, List.ext_getElem?_iff, List.getElem?_mapIdx,
      map_maskInput_eq_iff, List.getElem?_map]
    constructor
    · intro hall
      obtain ⟨hspends, -, hsigned⟩ := hall i
      obtain ⟨hcode, hsequence⟩ := hsigned (decide_eq_true rfl) hsome
      exact ⟨hcode, hspends, hsequence, fun _ j ↦ (hall j).1, fun _ hc j ↦ (hall j).2.1 hc⟩
    · rintro ⟨hcode, -, hsequence, hspends, hsequences⟩ j
      refine ⟨hspends trivial j, fun hc ↦ hsequences trivial hc j, fun hj _ ↦ ⟨hcode, ?_⟩⟩
      rw [of_decide_eq_true hj]
      exact hsequence

theorem outputs_masked_eq_iff {tx' : Transaction} :
    (masked tx i code t).outputs = (masked tx' i code' t).outputs ↔
      (t.coverage = .single → tx.outputs[i]? = tx'.outputs[i]?) ∧
        (t.coverage = .all → tx.outputs = tx'.outputs) := by
  unfold masked
  rw [List.append_cancel_left_eq, covered_eq_iff]

theorem masked_eq_iff {tx' : Transaction} (h : t.Applies i tx) :
    masked tx i code t = masked tx' i code' t ↔ code = code' ∧ t.Agree i tx tx' := by
  rw [Transaction.mk.injEq, inputs_masked_eq_iff h.input, outputs_masked_eq_iff]
  constructor
  · rintro ⟨hversion, ⟨hcode, hspend, hsequence, hspends, hsequences⟩, ⟨hsingle, houtputs⟩, hlock⟩
    exact ⟨hcode, hversion, hlock, hspend, hsequence, hspends, hsequences, hsingle, houtputs⟩
  · rintro ⟨hcode, h⟩
    exact ⟨h.version, ⟨hcode, h.signed_spends, h.signed_sequence, h.spends, h.sequences⟩,
      ⟨h.single, h.outputs⟩, h.lockTime⟩

end Transaction.Legacy

/-- The older layout commits to the type, to the script code and to what the type covers, and to
nothing else. -/
theorem Transaction.legacyPreimage_commits {tx tx' : Transaction} {i : ℕ} {code code' : Bytes}
    {t t' : SighashType} (h : t.Applies i tx) (h' : t'.Applies i tx') (hsize : tx.Sized)
    (hsize' : tx'.Sized) (hcode : code.length < 2 ^ 64) (hcode' : code'.length < 2 ^ 64) :
    ∃ b b', tx.legacyPreimage i code t = .ok b ∧ tx'.legacyPreimage i code' t' = .ok b' ∧
      (b = b' ↔ t = t' ∧ code = code' ∧ t.Agree i tx tx') := by
  refine ⟨_, _, Legacy.preimage_eq h, Legacy.preimage_eq h', ?_⟩
  constructor
  · intro heq
    have hlen : (Wire.u32 t.bits).length = (Wire.u32 t'.bits).length := by simp [Wire.u32]
    obtain ⟨hbytes, hbits⟩ := List.append_inj' heq hlen
    have ht : t.bits = t'.bits := (Reader.takes_u32 _).unique (hbits ▸ Reader.takes_u32 t'.bits)
    obtain rfl : t = t' := congrArg SighashType.mk ht
    have hread := takes_reader (Legacy.sized_masked hsize h hcode)
    have hread' := takes_reader (Legacy.sized_masked hsize' h' hcode')
    rw [Legacy.forgetSources_masked] at hread hread'
    exact ⟨rfl, (Legacy.masked_eq_iff h).1 (hread.unique (hbytes ▸ hread'))⟩
  · rintro ⟨rfl, rfl, hagree⟩
    rw [(Legacy.masked_eq_iff h).2 ⟨rfl, hagree⟩]

theorem Transaction.legacyPreimage_commits_outputs :
    let input (n : UInt32) : TxInput := ⟨⟨List.replicate 32 7, rfl⟩, 0, n, .empty, none⟩
    let tx : Transaction := ⟨1, [input 1, input 2], [], 0⟩
    let tx' : Transaction := ⟨1, [input 1, input 3], [⟨5, .empty⟩], 0⟩
    (∃ b, tx.legacyPreimage 0 [0xac] ⟨2⟩ = .ok b ∧ tx'.legacyPreimage 0 [0xac] ⟨2⟩ = .ok b) ∧
      ∃ b b', tx.legacyPreimage 0 [0xac] ⟨1⟩ = .ok b ∧ tx'.legacyPreimage 0 [0xac] ⟨1⟩ = .ok b' ∧
        b ≠ b' := by
  intro input tx tx'
  have hsize : tx.Sized := ⟨by decide, by decide, by decide, by decide⟩
  have hsize' : tx'.Sized := ⟨by decide, by decide, by decide, by decide⟩
  have hcode : ([0xac] : Bytes).length < 2 ^ 64 := by decide
  have hnone : SighashType.Applies ⟨2⟩ 0 tx := ⟨by decide, by decide⟩
  have hnone' : SighashType.Applies ⟨2⟩ 0 tx' := ⟨by decide, by decide⟩
  have hall : SighashType.Applies ⟨1⟩ 0 tx := ⟨by decide, by decide⟩
  have hall' : SighashType.Applies ⟨1⟩ 0 tx' := ⟨by decide, by decide⟩
  constructor
  · obtain ⟨b, b', hb, hb', hiff⟩ := legacyPreimage_commits hnone hnone' hsize hsize' hcode hcode
    have hagree : SighashType.Agree ⟨2⟩ 0 tx tx' :=
      ⟨rfl, rfl, rfl, rfl, fun _ ↦ rfl, by decide, by decide, by decide⟩
    exact ⟨b, hb, hiff.2 ⟨rfl, rfl, hagree⟩ ▸ hb'⟩
  · obtain ⟨b, b', hb, hb', hiff⟩ := legacyPreimage_commits hall hall' hsize hsize' hcode hcode
    refine ⟨b, b', hb, hb', fun heq ↦ ?_⟩
    have houtputs := (hiff.1 heq).2.2.outputs (by decide)
    cases houtputs

end BitcoinCash
