import BitcoinCash.Proofs.Machine.PushOnly
import BitcoinCash.Proofs.Machine.Spend
import BitcoinCash.Proofs.Machine.Step
import BitcoinCash.Transaction.Lock

namespace BitcoinCash

open Fallible (bind_eq_ok)

variable {env : Environment}

namespace Lock

variable {redeem : Script} {s : Stack}

def p2shProgram (redeem : Script) : Program :=
  [⟨Opcode.hash160, []⟩, ⟨20, hash160 redeem.bytes⟩, ⟨Opcode.equal, []⟩]

theorem length_p2sh (redeem : Script) : (p2sh redeem).length = 23 := by
  simp [p2sh, Script.length, length_hash160]

theorem isP2sh_p2sh (redeem : Script) : (p2sh redeem).isP2sh := by
  have hdrop : (p2sh redeem).bytes.drop 22 = [Opcode.equal] := by
    simp [p2sh, length_hash160]
  have hlen := length_p2sh redeem
  simp only [Script.length] at hlen
  simp only [Script.isP2sh, hlen, hdrop]
  rfl

theorem ofScript_p2sh (redeem : Script) :
    Program.ofScript (p2sh redeem) = .ok (p2shProgram redeem) := by
  have hhash : Chunk.decode [Opcode.hash160] = .ok [⟨Opcode.hash160, none⟩] :=
    Chunk.decode_bare rfl
  have hequal : Chunk.decode [Opcode.equal] = .ok [⟨Opcode.equal, none⟩] := Chunk.decode_bare rfl
  have hpush : Chunk.decode (20 :: [] ++ hash160 redeem.bytes) =
      .ok [⟨20, some (hash160 redeem.bytes)⟩] :=
    Chunk.decode_push rfl (length_hash160 redeem.bytes)
  have hall := Chunk.decode_append hhash (Chunk.decode_append hpush hequal)
  have hchunks : (p2sh redeem).chunks = _ := hall
  rw [Program.ofScript, hchunks]
  rfl

open Instruction Operation in
theorem run_p2sh (hlim : env.limits = {}) (hs : s.length ≤ 998) :
    (p2shProgram redeem).run env (redeem.bytes :: s) = .ok ([1] :: s) := by
  have size : s.length + 1 ≤ 1000 := by omega
  have hh := length_hash160 redeem.bytes
  refine bind_eq_ok.2 ⟨.after 2 ([1] :: s), ?_, rfl⟩
  refine bind_eq_ok.2 ⟨.after 1 (hash160 redeem.bytes :: s), ?_, ?_⟩
  · exact perform_of_acts hlim (by decide) rfl (by decide) acts_digest ⟨_, _, rfl, rfl⟩ size
  refine bind_eq_ok.2 ⟨.after 1 (hash160 redeem.bytes :: hash160 redeem.bytes :: s), ?_, ?_⟩
  · exact (perform_pushHash_eq_ok hlim hh).2 ⟨Nat.add_le_add_right hs 1, rfl⟩
  refine bind_eq_ok.2 ⟨.after 2 ([1] :: s), ?_, rfl⟩
  refine perform_of_acts hlim (by decide) rfl (by decide) acts_equal ⟨_, _, s, rfl, ?_⟩ size
  rw [beq_self_eq_true, ofBool, if_pos rfl]

end Lock

/-- On the stack that `p` leaves, the script `s` runs to a true top, and to a clean stack where
the rules ask for one. -/
def Program.Authorizes (env : Environment) (p : Program) (s : Script) : Prop :=
  ∃ saved q last, p.run env [] = .ok saved ∧ ofScript s = .ok q ∧ q.Passes env saved last ∧
    last.checkClean env = .ok ()

section Spends

variable {u redeem : Script} {p : Program} {push : Bytes}

theorem evaluate_direct_iff (hp2sh : env.has .p2sh) (hu : Program.ofScript u = .ok p)
    (hpush : p.isPushOnly) (hlen : u.length ≤ env.limits.scriptSize)
    (hr : redeem.length ≤ env.limits.scriptSize) (hnot : redeem.isP2sh = false) :
    evaluate env u redeem = .ok () ↔ p.Authorizes env redeem := by
  rw [evaluate_eq_ok_iff]
  constructor
  · rintro ⟨s, saved, left, hs, hrun, hpass, he⟩
    have hs := Spend.prepare_eq_ok_iff.1 hs
    obtain rfl : p = s.unlocking := Except.ok.inj (hu.symm.trans hs.unlocking_eq)
    have direct : s.p2sh = false := by rw [hs.p2sh_eq, hnot, Bool.and_false]
    rw [Spend.Ends, direct] at he
    exact ⟨saved, s.locking, left, hrun, hs.locking_eq, hpass, he⟩
  · rintro ⟨saved, q, last, hrun, hq, hpass, hclean⟩
    refine ⟨⟨p, q, false⟩, saved, last, Spend.prepare_eq_ok_iff.2 ?_, hrun, hpass, hclean⟩
    exact ⟨.inr hp2sh, hlen, hr, hu, hq, by rw [hnot, Bool.and_false], .inr hpush, .inr hpush⟩

theorem length_saved_le {saved : Stack} (hpush : p.isPushOnly) (hlen : p.length ≤ 998)
    (hrun : p.run env [] = .ok saved) : saved.length ≤ 998 := by
  rw [Program.length_of_run_pushOnly hpush hrun, List.length_nil, Nat.zero_add]
  exact hlen

/-- The redeem script joins the stack by one more push. -/
theorem run_unlocking_iff (hlim : env.limits = {}) (hpush : p.isPushOnly) (hlen : p.length ≤ 998)
    (hr : redeem.length ≤ 520) {t : Stack} :
    (p ++ [Instruction.pushing redeem.bytes]).run env [] = .ok t ↔
      ∃ saved, p.run env [] = .ok saved ∧ t = redeem.bytes :: saved := by
  rw [Program.run_concat_push hpush (Instruction.pushing_op_le _), hlim]
  constructor
  · rintro ⟨saved, x, hrun, -, -, -, hx, rfl⟩
    cases (Instruction.pushed?_pushing redeem.bytes).symm.trans hx
    exact ⟨saved, hrun, rfl⟩
  · rintro ⟨saved, hrun, rfl⟩
    refine ⟨saved, _, hrun, Nat.le_trans (Instruction.length_data_pushing _) hr, ?_, ?_,
      Instruction.pushed?_pushing _, rfl⟩
    · exact fun hp _ ↦ Instruction.checkShortest_pushing hp
    · have hsaved := length_saved_le hpush hlen hrun
      exact Nat.lt_of_le_of_lt hsaved (Nat.lt_add_of_pos_right Nat.two_pos)

theorem evaluate_p2sh_iff (hlim : env.limits = {}) (hp2sh : env.has .p2sh)
    (hu : Program.ofScript u = .ok p) (hpush : p.isPushOnly) (hlen : p.length ≤ 998)
    (hr : redeem.length ≤ 520) (hmin : Push.minimal redeem.bytes = .ok push)
    (hsize : (u ++ ⟨push⟩).length ≤ 10000) :
    evaluate env (u ++ ⟨push⟩) (Lock.p2sh redeem) = .ok () ↔ p.Authorizes env redeem := by
  have hall := Program.ofScript_append hu (Program.ofScript_minimal hmin)
  have hpushes : (p ++ [Instruction.pushing redeem.bytes]).isPushOnly :=
    Program.isPushOnly_append.2 ⟨hpush, Program.isPushOnly_cons.2
      ⟨Instruction.pushing_op_le _, rfl⟩⟩
  have hlock := Lock.ofScript_p2sh redeem
  have hrun {t : Stack} := run_unlocking_iff (t := t) hlim hpush hlen hr
  rw [evaluate_eq_ok_iff]
  constructor
  · rintro ⟨s, t, left, hs, ht, -, he⟩
    have hs := Spend.prepare_eq_ok_iff.1 hs
    have hp : s.unlocking = p ++ [Instruction.pushing redeem.bytes] :=
      Except.ok.inj (hs.unlocking_eq.symm.trans hall)
    rw [hp] at ht
    obtain ⟨saved, hrun, rfl⟩ := hrun.1 ht
    rw [Spend.Ends, if_pos (by rw [hs.p2sh_eq, hp2sh, Lock.isP2sh_p2sh]; rfl)] at he
    obtain ⟨q, rest, last, htake, hpass, hclean⟩ := he
    obtain ⟨-, hq, rfl⟩ := Stack.takeRedeem_eq_ok.1 htake
    exact ⟨rest, q, last, hrun, hq, hpass, hclean⟩
  · rintro ⟨saved, q, last, hsaved, hq, hpass, hclean⟩
    refine ⟨⟨p ++ [Instruction.pushing redeem.bytes], Lock.p2shProgram redeem, true⟩,
      redeem.bytes :: saved, [1] :: saved, Spend.prepare_eq_ok_iff.2 ?_,
      hrun.2 ⟨saved, hsaved, rfl⟩, ⟨Lock.run_p2sh hlim ?_, rfl⟩, ?_⟩
    · refine ⟨.inr hp2sh, ?_, ?_, hall, hlock, ?_, .inr hpushes, .inr hpushes⟩
      · rw [hlim]
        exact hsize
      · rw [hlim, Lock.length_p2sh]
        decide
      · rw [hp2sh, Lock.isP2sh_p2sh]
        rfl
    · exact length_saved_le hpush hlen hsaved
    · refine ⟨q, saved, last, Stack.takeRedeem_eq_ok.2 ⟨?_, hq, rfl⟩, hpass, hclean⟩
      rw [hlim]
      exact Nat.le_trans hr (by decide)

end Spends

/-- Pushing a redeem script to an output that pays to its hash is authorized exactly if the redeem
script, as a locking script, would be unlocked without that push. -/
theorem evaluate_p2sh_iff_evaluate {unlocking redeem : Script} {cs : List Chunk}
    (hlim : env.limits = {}) (hp2sh : env.has .p2sh) (hcs : unlocking.chunks = .ok cs)
    (hpush : unlocking.isPushOnly) (hlen : cs.length ≤ 998) (hr : redeem.length ≤ 520)
    (hnot : redeem.isP2sh = false) :
    ∃ push, Push.minimal redeem.bytes = .ok push ∧
      ((unlocking ++ ⟨push⟩).length ≤ 10000 →
        (evaluate env (unlocking ++ ⟨push⟩) (Lock.p2sh redeem) = .ok () ↔
          evaluate env unlocking redeem = .ok ())) := by
  obtain ⟨push, hmin⟩ := Push.minimal_eq_ok (Nat.lt_of_le_of_lt hr (by decide))
  refine ⟨push, hmin, fun hsize ↦ ?_⟩
  have hu : Program.ofScript unlocking = .ok (cs.map Instruction.ofChunk) :=
    Program.ofScript_eq_ok.2 ⟨cs, hcs, rfl⟩
  have hpush : Program.isPushOnly (cs.map Instruction.ofChunk) := by
    rw [Script.isPushOnly, hcs] at hpush
    exact List.all_map.trans hpush
  have hlen : (cs.map Instruction.ofChunk).length ≤ 998 := by rwa [List.length_map]
  have hu_length : unlocking.length ≤ 10000 := by
    have happend : (unlocking ++ ⟨push⟩).length = unlocking.length + push.length :=
      List.length_append
    omega
  rw [evaluate_p2sh_iff hlim hp2sh hu hpush hlen hr hmin hsize,
    evaluate_direct_iff hp2sh hu hpush (hlim ▸ hu_length) (hlim ▸ Nat.le_trans hr (by decide)) hnot]

theorem evaluate_p2sh_iff_evaluate_one :
    evaluate { flags := .p2sh } ⟨[0x51, 2, 0x51, 0x87]⟩ (Lock.p2sh ⟨[0x51, 0x87]⟩) = .ok () := by
  have hlim : ({ flags := .p2sh } : Environment).limits = {} := rfl
  have hcs : (⟨[0x51]⟩ : Script).chunks = .ok [⟨0x51, none⟩] := Chunk.decode_bare rfl
  have hpush : (⟨[0x51]⟩ : Script).isPushOnly := by decide +kernel
  have hnot : (⟨[0x51, 0x87]⟩ : Script).isP2sh = false := by decide
  have hdirect : evaluate { flags := .p2sh } ⟨[0x51]⟩ ⟨[0x51, 0x87]⟩ = .ok () :=
    verifies_iff.1 (by decide +kernel)
  obtain ⟨push, hmin, h⟩ :=
    evaluate_p2sh_iff_evaluate hlim (by decide) hcs hpush (by decide) (by decide) hnot
  cases hmin
  exact (h (by decide)).2 hdirect

end BitcoinCash
