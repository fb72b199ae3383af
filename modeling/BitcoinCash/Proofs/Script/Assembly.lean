import BitcoinCash.Proofs.Bytes.Hex
import BitcoinCash.Proofs.Script.Name
import BitcoinCash.Proofs.Script.Pieces
import BitcoinCash.Proofs.Script.Shortest

namespace BitcoinCash

open Fallible (bind_eq_ok)

namespace Opcode

/-- Digits of data do not begin as names do. -/
theorem ofName?_encode (d : Bytes) : ofName? (Hex.encode d) = none := by
  by_contra hsome
  obtain ⟨op, hop⟩ := Option.ne_none_iff_exists'.1 hsome
  obtain ⟨hhead, -⟩ := spelling (ofName?_eq_some hop).2
  rw [Hex.encode, String.toList_ofList] at hhead
  obtain ⟨n, hn, hdigit⟩ := Hex.mem_encodeChars (List.mem_of_head? hhead)
  have hrange := Hex.digit_range hn
  rw [← hdigit] at hrange
  revert hrange
  decide

end Opcode

namespace Chunk

variable {c : Chunk} {cs : List Chunk}

theorem asm_cases (hdata : c.data.isSome = c.op.carriesData) (h : c.IsShortest) :
    c.asm = c.op.name ∧ c.op.carriesData = false ∧ c.encode = .ok [c.op] ∨
      ∃ d, c.asm = Hex.encode d ∧ d ≠ [] ∧ c.encode = Push.data d := by
  cases hd : c.data with
  | none =>
    left
    rw [hd] at hdata
    refine ⟨?_, hdata.symm, ?_⟩
    · rw [asm, hd]
    · rw [encode, hd]
  | some d =>
    right
    have hop : c.op.carriesData = true := by
      rw [← hdata, hd]
      rfl
    obtain ⟨b, hencode, hpush⟩ := h.exists_push hd
    refine ⟨d, ?_, h.ne_nil hop hd, hencode.trans hpush.symm⟩
    rw [asm, hd]
    exact if_pos hop

theorem word_asm (hdata : c.data.isSome = c.op.carriesData) (h : c.IsShortest) :
    c.asm.toList ≠ [] ∧ Solid c.asm.toList := by
  rcases asm_cases hdata h with ⟨hasm, -, -⟩ | ⟨d, hasm, hne, -⟩
  · rw [hasm]
    exact ⟨Opcode.name_ne_nil c.op, Opcode.solid_name c.op⟩
  · rw [hasm, Hex.encode, String.toList_ofList]
    exact ⟨Hex.encodeChars_ne_nil hne, Hex.solid_encodeChars d⟩

theorem wordBytes_asm (hdata : c.data.isSome = c.op.carriesData) (h : c.IsShortest) :
    Script.wordBytes c.asm.toList = c.encode := by
  rw [Script.wordBytes, String.ofList_toList]
  rcases asm_cases hdata h with ⟨hasm, hop, hencode⟩ | ⟨d, hasm, -, hencode⟩
  · rw [hasm, Opcode.ofName?_name hop, hencode]
  · rw [hasm, Opcode.ofName?_encode d, Hex.encode, String.toList_ofList,
      Hex.decodeChars_encodeChars, hencode]

theorem wordsBytes_asm (hdata : ∀ c ∈ cs, c.data.isSome = c.op.carriesData)
    (h : ∀ c ∈ cs, c.IsShortest) :
    Script.wordsBytes (cs.map (·.asm.toList)) = encodeAll cs := by
  induction cs with
  | nil => rfl
  | cons c cs ih =>
    obtain ⟨hc, hcs⟩ := List.forall_mem_cons.1 h
    obtain ⟨hcdata, hcsdata⟩ := List.forall_mem_cons.1 hdata
    rw [List.map_cons, Script.wordsBytes, wordBytes_asm hcdata hc, ih hcsdata hcs]
    rfl

end Chunk

namespace Script

variable {s : Script} {text : String} {w : List Char} {ws : List (List Char)} {b : Bytes}

open Chunk (Reads)

/-- A word stands for one chunk, and its data under the shortest header if it has some. -/
theorem exists_reads_of_wordBytes (h : wordBytes w = .ok b) : ∃ c, Reads b c ∧ c.IsShortest := by
  unfold wordBytes at h
  split at h
  next op hop =>
    cases h
    obtain ⟨hbare, -⟩ := Opcode.ofName?_eq_some hop
    exact ⟨⟨op, none⟩, Chunk.decode_bare (Chunk.lengthWidth?_of_bare hbare),
      Chunk.isShortest_of_bare rfl⟩
  next =>
    split at h
    next d hd =>
      by_cases hne : d = []
      · subst hne
        cases h
        exact ⟨⟨0, none⟩, Chunk.decode_bare rfl, Chunk.isShortest_of_bare rfl⟩
      · have hread : Reads b ⟨b.headD 0, some d⟩ := Push.decode_data_of_ne_nil hne h
        exact ⟨_, hread, Chunk.isShortest_of_push rfl hread.encode_eq h⟩
    next => cases h

theorem decode_of_wordsBytes (h : wordsBytes ws = .ok b) :
    ∃ cs, Chunk.decode b = .ok cs ∧ ∀ c ∈ cs, c.IsShortest := by
  induction ws generalizing b with
  | nil =>
    cases h
    exact ⟨[], Chunk.decode_nil, by simp⟩
  | cons w ws ih =>
    obtain ⟨x, hx, h⟩ := bind_eq_ok.1 h
    obtain ⟨y, hy, h⟩ := bind_eq_ok.1 h
    cases h
    obtain ⟨c, hread, hc⟩ := exists_reads_of_wordBytes hx
    obtain ⟨cs, hdecode, hcs⟩ := ih hy
    exact ⟨c :: cs, Chunk.decode_append hread hdecode, List.forall_mem_cons.2 ⟨hc, hcs⟩⟩

theorem chunks_of_ofAsm (h : ofAsm text = .ok s) :
    ∃ cs, s.chunks = .ok cs ∧ ∀ c ∈ cs, c.IsShortest := by
  obtain ⟨b, hb, h⟩ := bind_eq_ok.1 h
  cases h
  exact decode_of_wordsBytes hb

theorem words_toAsm {cs : List Chunk} (hs : s.chunks = .ok cs) (h : ∀ c ∈ cs, c.IsShortest) :
    words s.toAsm.toList = cs.map (·.asm.toList) := by
  have hword : ∀ w ∈ cs.map (·.asm.toList), w ≠ [] ∧ Solid w := by
    intro w hw
    obtain ⟨c, hc, rfl⟩ := List.mem_map.1 hw
    exact Chunk.word_asm (Chunk.data_of_decode hs hc) (h c hc)
  rw [toAsm, hs]
  simp only [String.toList_intercalate, List.map_map, Function.comp_def]
  exact words_intercalate hword

theorem ofAsm_toAsm_of_isShortest {cs : List Chunk} (hs : s.chunks = .ok cs)
    (h : ∀ c ∈ cs, c.IsShortest) : ofAsm s.toAsm = .ok s := by
  have hdata : ∀ c ∈ cs, c.data.isSome = c.op.carriesData := by
    intro c hc
    exact Chunk.data_of_decode hs hc
  rw [ofAsm, words_toAsm hs h, Chunk.wordsBytes_asm hdata h, Chunk.encodeAll_decode hs]
  rfl

/-- The scripts that are found again from their texts. All that texts stand for are among them. -/
theorem ofAsm_toAsm (s : Script) :
    (ofAsm s.toAsm = .ok s ↔ ∃ cs, s.chunks = .ok cs ∧ ∀ c ∈ cs, c.IsShortest) ∧
      ∀ text, ofAsm text = .ok s → ofAsm s.toAsm = .ok s := by
  refine ⟨⟨chunks_of_ofAsm, ?_⟩, ?_⟩
  · intro h
    obtain ⟨cs, hs, h⟩ := h
    exact ofAsm_toAsm_of_isShortest hs h
  · intro text htext
    obtain ⟨cs, hs, h⟩ := chunks_of_ofAsm htext
    exact ofAsm_toAsm_of_isShortest hs h

theorem ofAsm_toAsm_aliases :
    ofAsm "OP_FALSE\t0A0b  OP_NOP2" = .ok ⟨[0x00, 0x02, 0x0a, 0x0b, 0xb1]⟩ ∧
      toAsm ⟨[0x00, 0x02, 0x0a, 0x0b, 0xb1]⟩ = "OP_0 0a0b OP_CHECKLOCKTIMEVERIFY" ∧
      ofAsm (toAsm ⟨[0x00, 0x02, 0x0a, 0x0b, 0xb1]⟩) = .ok ⟨[0x00, 0x02, 0x0a, 0x0b, 0xb1]⟩ := by
  have htext : ofAsm "OP_FALSE\t0A0b  OP_NOP2" = .ok ⟨[0x00, 0x02, 0x0a, 0x0b, 0xb1]⟩ := by
    decide +kernel
  have hwritten : toAsm ⟨[0x00, 0x02, 0x0a, 0x0b, 0xb1]⟩ = "OP_0 0a0b OP_CHECKLOCKTIMEVERIFY" := by
    decide +kernel
  exact ⟨htext, hwritten, (ofAsm_toAsm _).2 _ htext⟩

/-- A length field that is not needed is lost. -/
example : ofAsm (toAsm ⟨[0x4c, 0x01, 0x07]⟩) = .ok ⟨[0x01, 0x07]⟩ := by decide +kernel

end Script

end BitcoinCash
