import BitcoinCash.Proofs.Machine.Encoding
import BitcoinCash.Proofs.Machine.Program
import BitcoinCash.Proofs.Machine.SingleSig
import BitcoinCash.Proofs.Machine.Spend
import BitcoinCash.Transaction.Lock

namespace BitcoinCash

open Fallible (bind_eq_ok pure_eq_ok)

variable {env : Environment}

namespace Lock

def p2pkhProgram (h : Bytes) : Program :=
  [⟨Opcode.dup, []⟩, ⟨Opcode.hash160, []⟩, ⟨20, h⟩, ⟨Opcode.equalVerify, []⟩, ⟨Opcode.checkSig, []⟩]

variable {s left : Stack} {h : Bytes}

theorem length_p2pkh (hh : h.length = 20) : (p2pkh h).length = 25 := by
  simp [p2pkh, Script.length, hh]

theorem isP2sh_p2pkh (hh : h.length = 20) : (p2pkh h).isP2sh = false := by
  have hlen := length_p2pkh hh
  rw [Script.length] at hlen
  rw [Script.isP2sh, hlen]
  rfl

theorem ofScript_p2pkh (hh : h.length = 20) :
    Program.ofScript (p2pkh h) = .ok (p2pkhProgram h) := by
  have hdup : Chunk.decode [Opcode.dup] = .ok [⟨Opcode.dup, none⟩] := Chunk.decode_bare rfl
  have hhash : Chunk.decode [Opcode.hash160] = .ok [⟨Opcode.hash160, none⟩] :=
    Chunk.decode_bare rfl
  have hpush : Chunk.decode (20 :: [] ++ h) = .ok [⟨20, some h⟩] := Chunk.decode_push rfl hh
  have hequal : Chunk.decode [Opcode.equalVerify] = .ok [⟨Opcode.equalVerify, none⟩] :=
    Chunk.decode_bare rfl
  have hcheck : Chunk.decode [Opcode.checkSig] = .ok [⟨Opcode.checkSig, none⟩] :=
    Chunk.decode_bare rfl
  have hchunks : (p2pkh h).chunks = _ := Chunk.decode_append hdup <| Chunk.decode_append hhash <|
    Chunk.decode_append hpush <| Chunk.decode_append hequal hcheck
  rw [Program.ofScript, hchunks]
  rfl

open Instruction Operation in
/-- The locking script takes a key with the right hash and a signature that is valid for it over
the locking script itself. -/
theorem passes_p2pkh_iff (hlim : env.limits = {}) (hh : h.length = 20) :
    (p2pkhProgram h).Passes env s left ↔
      ∃ key sig rest, s = key :: sig :: rest ∧ rest.length ≤ 996 ∧ hash160 key = h ∧
        SignatureCheck.attempt env (p2pkh h) sig key = .ok true ∧ left = [1] :: rest := by
  have hcode (s : Stack) : Place.code ⟨p2pkhProgram h, 4⟩ (.after 4 s) = .ok (p2pkh h) :=
    (if_pos (Nat.zero_le _)).trans (Program.toScript_of_ofScript (ofScript_p2pkh hh))
  constructor
  · rintro ⟨hrun, htop⟩
    simp only [Program.run, p2pkhProgram, Program.runFrom, bind_eq_ok, pure_eq_ok] at hrun
    obtain ⟨_, ⟨_, hdup, _, hhash, _, hpush, _, hequal, _, hcheck, hend⟩, _, -, rfl⟩ := hrun
    obtain ⟨_, ⟨key, _, rfl, rfl⟩, -, rfl⟩ :=
      (perform_eq_ok_of_acts hlim (by decide) rfl (by decide) acts_dup).1 hdup
    obtain ⟨_, ⟨_, _, hs, rfl⟩, -, rfl⟩ :=
      (perform_eq_ok_of_acts hlim (by decide) rfl (by decide) acts_digest).1 hhash
    cases hs
    obtain ⟨hsize, rfl⟩ := (perform_pushHash_eq_ok hlim hh).1 hpush
    obtain ⟨_, ⟨_, hs⟩, -, rfl⟩ :=
      (perform_eq_ok_of_acts hlim (by decide) rfl (by decide) acts_equalVerify).1 hequal
    cases hs
    obtain ⟨_, ⟨_, sig, rest, valid, hs, hattempt, -, rfl⟩, -, rfl⟩ :=
      (perform_eq_ok_of_acts hlim (by decide) rfl (by decide) (acts_checkSig (hcode _))).1 hcheck
    cases hs
    cases hend
    have hvalid : valid = true := (isTrue_ofBool valid).symm.trans (require_eq_ok.1 htop)
    cases hvalid
    have hrest : rest.length + 3 ≤ 996 + 3 := hsize
    exact ⟨key, sig, rest, rfl, Nat.le_of_add_le_add_right hrest, rfl, hattempt, rfl⟩
  · rintro ⟨key, sig, rest, rfl, hrest, rfl, hattempt, rfl⟩
    have size (n : ℕ) (hn : n ≤ 4) : rest.length + n ≤ 1000 := by omega
    refine ⟨bind_eq_ok.2 ⟨.after 4 ([1] :: rest), ?_, rfl⟩, rfl⟩
    refine bind_eq_ok.2 ⟨.after 1 (key :: key :: sig :: rest), ?_, ?_⟩
    · exact perform_of_acts hlim (by decide) rfl (by decide) acts_dup ⟨_, _, rfl, rfl⟩
        (size 3 (by decide))
    refine bind_eq_ok.2 ⟨.after 2 (hash160 key :: key :: sig :: rest), ?_, ?_⟩
    · exact perform_of_acts hlim (by decide) rfl (by decide) acts_digest ⟨_, _, rfl, rfl⟩
        (size 3 (by decide))
    refine bind_eq_ok.2 ⟨.after 2 (hash160 key :: hash160 key :: key :: sig :: rest), ?_, ?_⟩
    · exact (perform_pushHash_eq_ok hlim hh).2 ⟨Nat.add_le_add_right hrest 3, rfl⟩
    refine bind_eq_ok.2 ⟨.after 3 (key :: sig :: rest), ?_, ?_⟩
    · exact perform_of_acts hlim (by decide) rfl (by decide) acts_equalVerify ⟨_, rfl⟩
        (size 2 (by decide))
    refine bind_eq_ok.2 ⟨.after 4 ([1] :: rest), ?_, rfl⟩
    exact perform_of_acts hlim (by decide) rfl (by decide) (acts_checkSig (hcode _))
      ⟨key, sig, rest, true, rfl, hattempt, .inl rfl, rfl⟩ (size 1 (by decide))

end Lock

section Spends

variable {u : Script} {h sig key a b : Bytes} (hlim : env.limits = {})
include hlim

theorem evaluate_p2pkh_of_attempt (hclean : ¬ env.has .cleanStack ∨ env.has .p2sh)
    (ha : Push.minimal sig = .ok a) (hb : Push.minimal key = .ok b) (hsig : sig.length ≤ 520)
    (hkey : key.length ≤ 520)
    (hattempt : SignatureCheck.attempt env (Lock.p2pkh (hash160 key)) sig key = .ok true) :
    evaluate env ⟨a ++ b⟩ (Lock.p2pkh (hash160 key)) = .ok () := by
  have hh := length_hash160 key
  have hu : Program.ofScript ⟨a ++ b⟩ = .ok ([sig, key].map Instruction.pushing) :=
    Program.ofScript_append (Program.ofScript_minimal ha) (Program.ofScript_minimal hb)
  have hpush : Program.isPushOnly ([sig, key].map Instruction.pushing) :=
    Program.isPushOnly_map_pushing _
  have hrun : Program.run env ([sig, key].map Instruction.pushing) [] = .ok [key, sig] := by
    refine Program.run_map_pushing ?_ ?_ <;> simp [hlim, hsig, hkey]
  have hlen : a.length + b.length ≤ 10000 := by
    have := Push.length_minimal_le ha
    have := Push.length_minimal_le hb
    omega
  refine evaluate_eq_ok_iff.2 ⟨⟨_, Lock.p2pkhProgram (hash160 key), false⟩, [key, sig], [[1]],
    Spend.prepare_eq_ok_iff.2 ?_, hrun, ?_, Stack.checkClean_eq_ok.2 fun _ ↦ rfl⟩
  · refine ⟨hclean, ?_, ?_, hu, Lock.ofScript_p2pkh hh, ?_, .inr hpush, .inr hpush⟩
    · rw [hlim, Script.length, List.length_append]
      exact hlen
    · rw [hlim, Lock.length_p2pkh hh]
      decide
    · rw [Lock.isP2sh_p2pkh hh, Bool.and_false]
  · exact (Lock.passes_p2pkh_iff hlim hh).2 ⟨key, sig, [], rfl, Nat.zero_le _, rfl, hattempt, rfl⟩

/-- Where unlocking scripts are shortest pushes that leave a clean stack, the output is unlocked by
a signature and a key of the right hash alone. -/
theorem attempt_of_evaluate_p2pkh (hpush : env.has .pushOnly) (hmin : env.has .minimalData)
    (hclean : env.has .cleanStack) (hh : h.length = 20)
    (heval : evaluate env u (Lock.p2pkh h) = .ok ()) :
    ∃ sig key, Program.ofScript u = .ok [.pushing sig, .pushing key] ∧ hash160 key = h ∧
      SignatureCheck.attempt env (Lock.p2pkh h) sig key = .ok true := by
  obtain ⟨s, saved, left, hs, hrun, hpass, hend⟩ := evaluate_eq_ok_iff.1 heval
  have hs := Spend.prepare_eq_ok_iff.1 hs
  have hlocking : s.locking = Lock.p2pkhProgram h :=
    Except.ok.inj (hs.locking_eq.symm.trans (Lock.ofScript_p2pkh hh))
  have hdirect : s.p2sh = false := by rw [hs.p2sh_eq, Lock.isP2sh_p2pkh hh, Bool.and_false]
  rw [hlocking] at hpass
  rw [Spend.Ends, hdirect] at hend
  obtain ⟨key, sig, rest, rfl, -, hkey, hattempt, rfl⟩ := (Lock.passes_p2pkh_iff hlim hh).1 hpass
  -- Nothing may lie below the outcome, so that the two elements are all that was pushed.
  have hrest : rest = [] := by
    have hone := Stack.checkClean_eq_ok.1 hend hclean
    simpa using hone
  subst hrest
  have hp : s.unlocking = [.pushing sig, .pushing key] :=
    Program.eq_map_pushing (fun i ↦ Program.isParsed_of_ofScript hs.unlocking_eq)
      (hs.pushOnly.resolve_left (not_not_intro hpush)) hmin hrun
  exact ⟨sig, key, hp ▸ hs.unlocking_eq, hkey, hattempt⟩

end Spends

/-- Under the standard rules an output that pays to the hash `h` is spent by exactly the shortest
pushes of a signature and a key with that hash, both in strict encodings, of which the signature
is valid over the locking script. -/
theorem evaluate_p2pkh_iff (ctx : Context) (input : ℕ) (u : Script) {h : Bytes}
    (hh : h.length = 20) :
    evaluate { flags := .standard, context := some ctx, input } u (Lock.p2pkh h) = .ok () ↔
      ∃ sig key a b, Push.minimal sig = .ok a ∧ Push.minimal key = .ok b ∧ u.bytes = a ++ b ∧
        sig ≠ [] ∧ hash160 key = h ∧ Encoding.checkSignature .standard sig = .ok () ∧
        Encoding.checkKey .standard key = .ok () ∧
        ctx.verify sig key (Lock.p2pkh h) input .standard = .ok true := by
  have has {r : Flags} (hr : Flags.standard.has r) :
      Environment.has { flags := .standard, context := some ctx, input } r := hr
  have hstrict : Flags.standard.has .strictEncoding := by decide
  have haccepts {sig key : Bytes} (hs : Encoding.checkSignature .standard sig = .ok ())
      (hne : sig ≠ []) :
      SignatureCheck.Accepts { flags := .standard, context := some ctx, input } (Lock.p2pkh h)
        sig key ↔ sig ≠ [] ∧ ctx.verify sig key (Lock.p2pkh h) input .standard = .ok true :=
    SignatureCheck.accepts_iff rfl
      (Environment.usesForkId_of_checkSignature (has (by decide)) hstrict hs hne)
  constructor
  · intro heval
    obtain ⟨sig, key, hu, hkey, hattempt⟩ :=
      attempt_of_evaluate_p2pkh rfl (has (by decide)) (has (by decide)) (has (by decide)) hh heval
    obtain ⟨hs, hk, hvalid⟩ := SignatureCheck.attempt_eq_ok_true.1 hattempt
    have hsig := Encoding.length_le_of_checkSignature hstrict hs
    have hlen := Encoding.length_le_of_checkKey hstrict hk
    obtain ⟨a, ha⟩ := Push.minimal_eq_ok (hsig.trans_lt (by decide))
    obtain ⟨b, hb⟩ := Push.minimal_eq_ok (hlen.trans_lt (by decide))
    have hsame : u = ⟨a⟩ ++ ⟨b⟩ := Program.ofScript_inj hu <|
      Program.ofScript_append (Program.ofScript_minimal ha) (Program.ofScript_minimal hb)
    obtain ⟨hne, hverify⟩ := (haccepts hs hvalid.1).1 hvalid
    exact ⟨sig, key, a, b, ha, hb, congrArg Script.bytes hsame, hne, hkey, hs, hk, hverify⟩
  · rintro ⟨sig, key, a, b, ha, hb, hu, hne, rfl, hs, hk, hverify⟩
    obtain rfl : u = ⟨a ++ b⟩ := by rw [← hu]
    have hsig := Encoding.length_le_of_checkSignature hstrict hs
    have hlen := Encoding.length_le_of_checkKey hstrict hk
    refine evaluate_p2pkh_of_attempt rfl (.inr (has (by decide))) ha hb (hsig.trans (by decide))
      (hlen.trans (by decide)) (SignatureCheck.attempt_eq_ok_true.2 ⟨hs, hk, ?_⟩)
    exact (haccepts hs hne).2 ⟨hne, hverify⟩

theorem evaluate_p2pkh_iff_smallest :
    let sig : Bytes := [0x30, 6, 2, 1, 1, 2, 1, 1, 0x41]
    let key : Bytes := 2 :: List.replicate 32 1
    let ctx : Context := ⟨fun _ _ _ _ _ ↦ .ok true, 0, 1, fun _ ↦ 0⟩
    (hash160 key).length = 20 ∧
      evaluate { flags := .standard, context := some ctx, input := 0 } ⟨9 :: sig ++ 33 :: key⟩
        (Lock.p2pkh (hash160 key)) = .ok () := by
  intro sig key ctx
  have hh := length_hash160 key
  refine ⟨hh, (evaluate_p2pkh_iff ctx 0 ⟨9 :: sig ++ 33 :: key⟩ hh).2 ?_⟩
  exact ⟨sig, key, 9 :: sig, 33 :: key, rfl, rfl, rfl, by decide, rfl, rfl, rfl, rfl⟩

end BitcoinCash
