import Mathlib.Data.List.Induction
import Mathlib.Data.Nat.Notation
import BitcoinCash.Proofs.Machine.PushOnly
import BitcoinCash.Proofs.Script.WellFormed

namespace BitcoinCash

variable {env : Environment} {i : Instruction} {c : Chunk} {x : Bytes}

namespace Instruction

/-- An instruction has data only if its opcode is a push that carries some. -/
def IsParsed (i : Instruction) : Prop := i.op.carriesData ∨ i.data = []

theorem isParsed_ofChunk (hc : c.data.isSome = c.op.carriesData) : (ofChunk c).IsParsed := by
  obtain ⟨op, data⟩ := c
  cases data with
  | none => exact .inr rfl
  | some d => exact .inl hc.symm

theorem toChunk_ofChunk (hc : c.data.isSome = c.op.carriesData) : (ofChunk c).toChunk = c := by
  obtain ⟨op, data⟩ := c
  dsimp only at hc
  cases data <;> simp [ofChunk, toChunk, ← hc]

theorem carriesData_of_opcode? {op : Opcode} (h : Push.opcode? x = some op) :
    op.carriesData = false := by
  rw [← Chunk.isSome_lengthWidth?, Push.lengthWidth?_of_opcode? h]
  rfl

theorem eq_pushing_of_carriesData (hc : i.op.carriesData) (hop : i.op = shortestPush i.data) :
    i = pushing i.data := by
  have hnone : Push.opcode? i.data = none := by
    rw [Option.eq_none_iff_forall_ne_some]
    intro own hown
    have heq : i.op = own := by rw [hop, shortestPush_of_opcode? hown]
    rw [heq, carriesData_of_opcode? hown] at hc
    cases hc
  rw [pushing, hnone, ← hop]
  rfl

theorem eq_pushing_of_bare {op : Opcode} (hop : op ≤ Opcode.sixteen)
    (hbare : op.carriesData = false) (hx : pushed? ⟨op, []⟩ = some x) : ⟨op, []⟩ = pushing x := by
  have hlt : op.toNat < 97 := Nat.lt_succ_of_le (UInt8.le_iff_toNat_le.1 hop)
  have all : op.carriesData = false →
      ∀ y ∈ pushed? ⟨op, []⟩, (⟨op, []⟩ : Instruction) = pushing y := by
    clear hx hbare hop
    refine Bytes.of_toNat_lt hlt ?_
    decide +kernel
  exact all hbare x hx

theorem eq_pushing (hi : i.op ≤ Opcode.sixteen) (hparsed : i.IsParsed)
    (hx : i.pushed? = some x) (hshort : i.isPush → i.checkShortest = .ok ()) :
    i = pushing x := by
  by_cases hc : i.op.carriesData
  · have hpush : i.isPush := by
      rw [Opcode.carriesData, Bool.and_eq_true] at hc
      exact hc.2
    rw [pushed?_of_isPush hpush] at hx
    cases hx
    exact eq_pushing_of_carriesData hc (require_eq_ok.1 (hshort hpush))
  · obtain ⟨op, data⟩ := i
    obtain rfl : data = [] := hparsed.resolve_left hc
    exact eq_pushing_of_bare hi (Bool.not_eq_true _ ▸ hc) hx

end Instruction

namespace Program

variable {s t : Script} {p : Program}

theorem isParsed_of_ofScript (h : ofScript s = .ok p) (hi : i ∈ p) : i.IsParsed := by
  obtain ⟨cs, hcs, rfl⟩ := ofScript_eq_ok.1 h
  obtain ⟨c, hc, rfl⟩ := List.mem_map.1 hi
  exact Instruction.isParsed_ofChunk (Chunk.data_of_decode hcs hc)

theorem toScript_of_ofScript (h : ofScript s = .ok p) : p.toScript = .ok s := by
  obtain ⟨cs, hcs, rfl⟩ := ofScript_eq_ok.1 h
  have hmap : (cs.map Instruction.ofChunk).map Instruction.toChunk = cs := by
    rw [List.map_map]
    refine (List.map_congr_left fun c hc ↦ ?_).trans (List.map_id cs)
    exact Instruction.toChunk_ofChunk (Chunk.data_of_decode hcs hc)
  have hall : Chunk.encodeAll cs = .ok s.bytes := Chunk.encodeAll_decode hcs
  rw [toScript, hmap, Script.ofChunks, hall]
  rfl

theorem ofScript_inj (hs : ofScript s = .ok p) (ht : ofScript t = .ok p) : s = t :=
  Except.ok.inj ((toScript_of_ofScript hs).symm.trans (toScript_of_ofScript ht))

/-- Scripts correspond to the lists of well-formed chunks, and a script without chunks has a push
that runs past its end. -/
theorem chunks_correspond :
    (∀ (s : Script) (cs : List Chunk), s.chunks = .ok cs →
      (∀ c ∈ cs, c.WellFormed) ∧ Script.ofChunks cs = .ok s ∧
        ∃ p, ofScript s = .ok p ∧ toScript p = .ok s) ∧
    (∀ cs : List Chunk, (∀ c ∈ cs, c.WellFormed) →
      ∃ s, Script.ofChunks cs = .ok s ∧ s.chunks = .ok cs) ∧
    ∀ s : Script, ((∃ cs, s.chunks = .ok cs) ∨ s.chunks = .error .dataTooSmall) ∧
      (s.chunks = .error .dataTooSmall ↔ ∃ cs front rest, (∀ c ∈ cs, Chunk.WellFormed c) ∧
        Script.ofChunks cs = .ok front ∧ s.bytes = front.bytes ++ rest ∧ Chunk.Overruns rest) := by
  refine ⟨?_, ?_, ?_⟩
  · intro s cs hcs
    have hp : ofScript s = .ok (cs.map Instruction.ofChunk) := ofScript_eq_ok.2 ⟨cs, hcs, rfl⟩
    exact ⟨Chunk.wellFormed_of_decode hcs, Script.ofChunks_eq_ok.2 (Chunk.encodeAll_decode hcs), _,
      hp, toScript_of_ofScript hp⟩
  · intro cs hcs
    obtain ⟨b, hb, hdecode⟩ := Chunk.exists_encodeAll hcs
    exact ⟨⟨b⟩, Script.ofChunks_eq_ok.2 hb, hdecode⟩
  · intro s
    constructor
    · cases hs : s.chunks with
      | ok cs => exact .inl ⟨cs, rfl⟩
      | error e =>
        obtain ⟨rfl, -⟩ := Chunk.decode_eq_error_iff.1 hs
        exact .inr rfl
    · simp only [Script.chunks, Chunk.decode_eq_error_iff, Script.ofChunks_eq_ok, true_and]
      constructor
      · intro h
        obtain ⟨cs, front, rest, h⟩ := h
        exact ⟨cs, ⟨front⟩, rest, h⟩
      · intro h
        obtain ⟨cs, front, rest, h⟩ := h
        exact ⟨cs, front.bytes, rest, h⟩

theorem chunks_correspond_long :
    let s : Script := ⟨[0x4c, 0, 0x76, 0x4d, 1, 0, 7, 2, 0xab, 0xcd, 0]⟩
    let cs : List Chunk := [⟨Opcode.pushData1, some []⟩, ⟨Opcode.dup, none⟩,
      ⟨Opcode.pushData2, some [7]⟩, ⟨2, some [0xab, 0xcd]⟩, ⟨0, none⟩]
    s.chunks = .ok cs ∧ ((∀ c ∈ cs, c.WellFormed) ∧ Script.ofChunks cs = .ok s ∧
      ∃ p, ofScript s = .ok p ∧ toScript p = .ok s) ∧
      ∃ t, Script.ofChunks cs = .ok t ∧ t.chunks = .ok cs := by
  intro s cs
  have hread : s.chunks = .ok cs := by decide +kernel
  have hscript := chunks_correspond.1 s cs hread
  exact ⟨hread, hscript, chunks_correspond.2.1 cs hscript.1⟩

theorem eq_map_pushing {saved : Stack} (hparsed : ∀ i ∈ p, i.IsParsed) (hpush : p.isPushOnly)
    (hmin : env.has .minimalData) (hrun : p.run env [] = .ok saved) :
    p = saved.reverse.map Instruction.pushing := by
  induction p using List.reverseRecOn generalizing saved with
  | nil =>
    cases hrun
    rfl
  | append_singleton p i ih =>
    obtain ⟨hp, hi⟩ := isPushOnly_append.1 hpush
    obtain ⟨hi, -⟩ := isPushOnly_cons.1 hi
    obtain ⟨rest, x, hrest, -, hshort, -, hx, rfl⟩ := (run_concat_push hp hi).1 hrun
    have hlast := Instruction.eq_pushing hi (hparsed i (by simp)) hx fun h ↦ hshort h hmin
    have hinit := ih (fun j hj ↦ hparsed j (by simp [hj])) hp hrest
    rw [List.reverse_cons, List.map_append, ← hinit, List.map_singleton, ← hlast]

theorem isPushOnly_map_pushing (xs : List Bytes) : isPushOnly (xs.map Instruction.pushing) := by
  simp [isPushOnly, Instruction.pushing_op_le]

theorem run_map_pushing {xs : List Bytes} {s : Stack}
    (hlen : xs.length + s.length ≤ env.limits.stackSize)
    (hsize : ∀ x ∈ xs, x.length ≤ env.limits.elementSize) :
    Program.run env (xs.map Instruction.pushing) s = .ok (xs.reverse ++ s) := by
  induction xs using List.reverseRecOn with
  | nil => rfl
  | append_singleton xs x ih =>
    have hpushes : isPushOnly (xs.map Instruction.pushing) := isPushOnly_map_pushing xs
    rw [List.length_append, List.length_singleton] at hlen
    have hrest := ih (by omega) fun y hy ↦ hsize y (List.mem_append_left _ hy)
    have hx : x.length ≤ env.limits.elementSize := hsize x (List.mem_append_right _ (by simp))
    rw [List.map_append, List.map_singleton, List.reverse_append, List.reverse_singleton]
    refine (run_concat_push hpushes (Instruction.pushing_op_le x)).2
      ⟨xs.reverse ++ s, x, hrest, ?_, ?_, ?_, Instruction.pushed?_pushing x, rfl⟩
    · exact Nat.le_trans (Instruction.length_data_pushing x) hx
    · exact fun h _ ↦ Instruction.checkShortest_pushing h
    · rw [List.length_append, List.length_reverse]
      omega

end Program

end BitcoinCash
