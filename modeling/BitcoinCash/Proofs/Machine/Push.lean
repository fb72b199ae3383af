import BitcoinCash.Machine.Number
import BitcoinCash.Machine.Operation
import BitcoinCash.Proofs.Bytes.Digits
import BitcoinCash.Proofs.Machine.Run
import BitcoinCash.Proofs.Script.Push

namespace BitcoinCash

namespace Instruction

variable {d : Bytes} {op : Opcode} {n : Nat}

/-- The rule on pushes asks for the opcodes that the shortest pushes are written with. -/
theorem shortestPush_eq (d : Bytes) :
    shortestPush d = (Push.opcode? d).getD (pushOfLength d.length) := by
  have hsmall (x : UInt8) : Opcode.one + x - 1 = 0x50 + x := by grind [Opcode.one]
  match d with
  | [] => rfl
  | [x] =>
    simp only [shortestPush, Push.opcode?, hsmall]
    repeat' split
    all_goals rfl
  | _ :: _ :: _ => rfl

theorem shortestPush_of_opcode? (h : Push.opcode? d = some op) : shortestPush d = op := by
  rw [shortestPush_eq, h]
  rfl

theorem shortestPush_of_none (h : Push.opcode? d = none) :
    shortestPush d = pushOfLength d.length := by
  rw [shortestPush_eq, h]
  rfl

theorem pushOfLength_le : pushOfLength n ≤ Opcode.pushData4 := by
  unfold pushOfLength
  split
  next h75 =>
    rw [UInt8.le_iff_toNat_le, UInt8.toNat_ofNat']
    exact Nat.le_trans (Nat.mod_le _ _) (Nat.le_trans h75 (by decide))
  next =>
    repeat' split
    all_goals decide

end Instruction

namespace Push

variable {d b : Bytes}

theorem headD_data (h : data d = .ok b) : b.headD 0 = Instruction.pushOfLength d.length := by
  obtain ⟨field, hheader, h⟩ := Fallible.bind_eq_ok.1 h
  cases h
  unfold Instruction.pushOfLength
  unfold header at hheader
  repeat' split at hheader
  all_goals cases hheader
  all_goals simp [*]

theorem decode_data (hop : opcode? d = none) (h : data d = .ok b) :
    Chunk.decode b = .ok [⟨Instruction.shortestPush d, some d⟩] := by
  rw [decode_data_of_ne_nil (data_ne_nil hop) h, headD_data h,
    Instruction.shortestPush_of_none hop]

end Push

namespace Instruction

def pushed? (i : Instruction) : Option Bytes :=
  match Operation.ofOpcode i.op with
  | .pushData => some i.data
  | .pushNumber n => some (Number.encode n)
  | _ => none

def pushing (d : Bytes) : Instruction :=
  ⟨shortestPush d, if (Push.opcode? d).isSome then [] else d⟩

theorem pushed?_of_isPush {i : Instruction} (h : i.isPush) : i.pushed? = some i.data := by
  have hle : i.op ≤ Opcode.pushData4 := by simpa [isPush] using h
  have hop : Operation.ofOpcode i.op = .pushData := if_pos hle
  rw [pushed?, hop]

theorem shortestPush_of_length {d : Bytes} (h2 : 2 ≤ d.length) (h75 : d.length ≤ 75) :
    shortestPush d = UInt8.ofNat d.length := by
  rw [shortestPush_of_none (Push.opcode?_eq_none h2)]
  exact if_pos h75

theorem pushing_cases (d : Bytes) :
    (pushing d).isPush ∧ (pushing d).data = d ∨
      ∃ op, Push.opcode? d = some op ∧ pushing d = ⟨op, []⟩ := by
  unfold pushing
  cases h : Push.opcode? d with
  | none => exact .inl ⟨by simp [isPush, shortestPush_of_none h, pushOfLength_le], rfl⟩
  | some op => exact .inr ⟨op, rfl, by simp [shortestPush_of_opcode? h]⟩

theorem pushed?_pushing (d : Bytes) : (pushing d).pushed? = some d := by
  rcases pushing_cases d with ⟨hp, hd⟩ | ⟨op, hop, hi⟩
  · rw [pushed?_of_isPush hp, hd]
  · rw [hi]
    rcases Push.opcode?_eq_some hop with ⟨rfl, rfl⟩ | ⟨n, hn, h1, rfl, rfl⟩ | ⟨rfl, rfl⟩
    · rfl
    · clear hop hi
      revert n
      decide +kernel
    · decide +kernel

theorem pushing_op_le (d : Bytes) : (pushing d).op ≤ Opcode.sixteen := by
  rcases pushing_cases d with ⟨hp, -⟩ | ⟨op, hop, hi⟩
  · simp only [isPush, decide_eq_true_eq] at hp
    exact UInt8.le_trans hp (by decide)
  · rw [hi]
    rcases Push.opcode?_eq_some hop with ⟨-, rfl⟩ | ⟨n, hn, h1, -, rfl⟩ | ⟨-, rfl⟩
    · decide
    · clear hop hi
      revert n
      decide
    · decide

theorem length_data_pushing (d : Bytes) : (pushing d).data.length ≤ d.length := by
  unfold pushing
  split <;> simp

theorem checkShortest_pushing {d : Bytes} (h : (pushing d).isPush) :
    (pushing d).checkShortest = .ok () := by
  refine require_eq_ok.2 ?_
  rcases pushing_cases d with ⟨-, hd⟩ | ⟨op, hop, hi⟩
  · rw [hd]
    rfl
  · rw [hi] at h ⊢
    rcases Push.opcode?_eq_some hop with ⟨-, rfl⟩ | ⟨n, hn, h1, -, rfl⟩ | ⟨-, rfl⟩
    · rfl
    · clear hop hi
      revert n
      decide
    · cases h

end Instruction

theorem Program.ofScript_eq_ok {s : Script} {p : Program} :
    ofScript s = .ok p ↔ ∃ cs, s.chunks = .ok cs ∧ cs.map Instruction.ofChunk = p := by
  unfold ofScript
  cases s.chunks <;> simp [reject_ne_ok]

theorem Program.ofScript_append {u t : Script} {p q : Program} (hu : ofScript u = .ok p)
    (ht : ofScript t = .ok q) : ofScript (u ++ t) = .ok (p ++ q) := by
  obtain ⟨cs, hcs, rfl⟩ := ofScript_eq_ok.1 hu
  obtain ⟨ds, hds, rfl⟩ := ofScript_eq_ok.1 ht
  exact ofScript_eq_ok.2 ⟨cs ++ ds, Chunk.decode_append hcs hds, List.map_append⟩

theorem Program.ofScript_minimal {d b : Bytes} (h : Push.minimal d = .ok b) :
    Program.ofScript ⟨b⟩ = .ok [Instruction.pushing d] := by
  unfold Push.minimal at h
  simp only [Program.ofScript, Script.chunks, Instruction.pushing]
  split at h
  next op hop =>
    cases h
    rw [Chunk.decode_bare (Push.lengthWidth?_of_opcode? hop), hop]
    simp [Instruction.ofChunk, Instruction.shortestPush_of_opcode? hop]
  next hop =>
    rw [Push.decode_data hop h, hop]
    rfl

/-- A push under the shortest length field is one instruction, also where its data have an opcode of
their own. -/
theorem Program.ofScript_data {d b : Bytes} (h : Push.data d = .ok b) :
    Program.ofScript ⟨b⟩ = .ok [⟨Instruction.pushOfLength d.length, d⟩] := by
  by_cases hd : d = []
  · subst hd
    cases h
    exact ofScript_eq_ok.2 ⟨[⟨0, none⟩], Chunk.decode_bare rfl, rfl⟩
  · rw [ofScript, Script.chunks, Push.decode_data_of_ne_nil hd h, Push.headD_data h]
    rfl

end BitcoinCash
