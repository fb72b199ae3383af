import BitcoinCash.Proofs.Machine.Perform
import BitcoinCash.Proofs.Machine.ScriptCode

namespace BitcoinCash

open List (Forall₂)

variable {x : Bytes} {i : Instruction} {c : Chunk} {p : Program} {xs : List Bytes}

theorem Chunk.WellFormed.length_lt (h : c.WellFormed) {d : Bytes} (hd : c.data = some d) :
    d.length < 2 ^ 32 := by
  cases h with
  | bare => cases hd
  | direct h1 h75 hlen =>
    cases hd
    omega
  | sized hfield hlen =>
    cases hd
    cases hfield <;> omega

theorem Program.Cut.forall₂ (h : p.Cut xs) :
    Forall₂ (fun x i ↦ Program.ofScript ⟨x⟩ = .ok [i]) xs p := by
  obtain ⟨cs, hreads, rfl⟩ := h
  refine List.forall₂_map_right_iff.2 (hreads.imp fun x c hx ↦ ?_)
  exact Program.ofScript_eq_ok.2 ⟨[c], hx, rfl⟩

namespace Instruction

theorem le_sixteen_of_isPush (h : i.isPush) : i.op ≤ Opcode.sixteen :=
  UInt8.le_trans (of_decide_eq_true h) (by decide)

theorem length_data_lt (h : Program.ofScript ⟨x⟩ = .ok [i]) : i.data.length < 2 ^ 32 := by
  obtain ⟨cs, hcs, hmap⟩ := Program.ofScript_eq_ok.1 h
  obtain ⟨c, rfl, rfl⟩ := List.map_eq_singleton_iff.1 hmap
  have hc : c.WellFormed := Chunk.wellFormed_of_decode hcs c List.mem_cons_self
  cases hd : c.data with
  | none => simp [ofChunk, hd]
  | some d =>
    have hdata : (ofChunk c).data = d := by simp [ofChunk, hd]
    rw [hdata]
    exact hc.length_lt hd

/-- A push of data passes the rule exactly if it is written as the shortest push of its data. -/
theorem checkShortest_iff_minimal (h : Program.ofScript ⟨x⟩ = .ok [i]) (hi : i.isPush) :
    i.checkShortest = .ok () ↔ Push.minimal i.data = .ok x := by
  constructor
  · intro hshort
    have hparsed : i.IsParsed := Program.isParsed_of_ofScript h List.mem_cons_self
    have hpushing : i = pushing i.data :=
      eq_pushing (le_sixteen_of_isPush hi) hparsed (pushed?_of_isPush hi) fun _ ↦ hshort
    obtain ⟨b, hb⟩ := Push.minimal_eq_ok (length_data_lt h)
    have hread := Program.ofScript_minimal hb
    rw [← hpushing] at hread
    obtain rfl : b = x := congrArg Script.bytes (Program.ofScript_inj hread h)
    exact hb
  · intro hmin
    have hread := Program.ofScript_minimal hmin
    obtain ⟨hpushing, -⟩ := List.cons.inj (Except.ok.inj (h.symm.trans hread))
    rw [hpushing] at hi ⊢
    exact checkShortest_pushing hi

/-- Where instructions are run, the shortest push of `d` puts `d` on the stack and does nothing
else. -/
theorem execute_pushing {env : Environment} {here : Place} {f : Frame} {d : Bytes}
    (hf : f.running) (hd : d.length ≤ env.limits.elementSize) :
    (pushing d).execute env here f = .ok { f with data := d :: f.data } := by
  refine (execute_push_eq_ok (pushing_op_le d) hf).2 ⟨?_, ?_, d, pushed?_pushing d, rfl⟩
  · exact (length_data_pushing d).trans hd
  · exact fun hpush _ ↦ checkShortest_pushing hpush

end Instruction

/-- The shortest push of a string is one instruction, which puts the string on the stack and does
nothing else, whatever rules are in force. And every script is cut into the written forms of its
instructions, of which a push of data passes the rule on pushes exactly if it is written as the
shortest push of these data. -/
theorem Program.shortest_pushes_agree :
    (∀ d : Bytes, d.length < 2 ^ 32 →
      ∃ b i, Push.minimal d = .ok b ∧ ofScript ⟨b⟩ = .ok [i] ∧
        ∀ (env : Environment) (here : Place) (f : Frame), f.running →
          d.length ≤ env.limits.elementSize →
            i.execute env here f = .ok { f with data := d :: f.data }) ∧
    ∀ (s : Script) (p : Program), ofScript s = .ok p →
      ∃ xs : List Bytes, s.bytes = xs.flatten ∧
        Forall₂ (fun x i ↦ ofScript ⟨x⟩ = .ok [i] ∧ (i.op ≤ Opcode.pushData4 →
          (i.checkShortest = .ok () ↔ Push.minimal i.data = .ok x))) xs p := by
  constructor
  · intro d hd
    obtain ⟨b, hb⟩ := Push.minimal_eq_ok hd
    refine ⟨b, Instruction.pushing d, hb, ofScript_minimal hb, ?_⟩
    intro env here f hf hsize
    exact Instruction.execute_pushing hf hsize
  · intro s p hp
    obtain ⟨xs, hs, hcut⟩ := Cut.exists_of_ofScript hp
    refine ⟨xs, hs, hcut.forall₂.imp fun x i hi ↦ ⟨hi, fun hop ↦ ?_⟩⟩
    exact Instruction.checkShortest_iff_minimal hi (decide_eq_true hop)

theorem Program.shortest_pushes_agree_spellings :
    let s : Script := ⟨[1, 7, 0x4d, 1, 0, 7, 0x57, 0x4c, 0]⟩
    let p : Program := [⟨1, [7]⟩, ⟨Opcode.pushData2, [7]⟩, ⟨0x57, []⟩, ⟨Opcode.pushData1, []⟩]
    ofScript s = .ok p ∧ (∃ b i, Push.minimal [7] = .ok b ∧ ofScript ⟨b⟩ = .ok [i] ∧
        ∀ (env : Environment) (here : Place) (f : Frame), f.running →
          [7].length ≤ env.limits.elementSize →
            i.execute env here f = .ok { f with data := [7] :: f.data }) ∧
      ∃ xs : List Bytes, s.bytes = xs.flatten ∧
        Forall₂ (fun x i ↦ ofScript ⟨x⟩ = .ok [i] ∧ (i.op ≤ Opcode.pushData4 →
          (i.checkShortest = .ok () ↔ Push.minimal i.data = .ok x))) xs p := by
  intro s p
  have hread : ofScript s = .ok p := by decide +kernel
  exact ⟨hread, shortest_pushes_agree.1 [7] (by decide), shortest_pushes_agree.2 s p hread⟩

end BitcoinCash
