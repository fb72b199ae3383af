import BitcoinCash.Machine.SignatureCheck
import BitcoinCash.Proofs.Machine.Program
import BitcoinCash.Proofs.Machine.Stack
import BitcoinCash.Proofs.Script.Pieces

namespace BitcoinCash

open Chunk (Reads)
open Fallible (ok_bind)
open List (Forall₂)

variable {env : Environment} {here : Place} {f : Frame} {s : Script} {xs : List Bytes}

/-- `xs` are the written forms of the instructions of `p`, one after the other. -/
def Program.Cut (p : Program) (xs : List Bytes) : Prop :=
  ∃ cs, Forall₂ Reads xs cs ∧ cs.map Instruction.ofChunk = p

namespace Program.Cut

variable {p : Program}

theorem exists_of_ofScript (h : ofScript s = .ok p) : ∃ xs, s.bytes = xs.flatten ∧ p.Cut xs := by
  obtain ⟨cs, hcs, hp⟩ := ofScript_eq_ok.1 h
  obtain ⟨xs, hxs, hreads⟩ := Chunk.exists_pieces hcs
  exact ⟨xs, hxs, cs, hreads, hp⟩

theorem drop (h : p.Cut xs) (n : ℕ) : Cut (p.drop n) (xs.drop n) := by
  obtain ⟨cs, hcs, rfl⟩ := h
  exact ⟨cs.drop n, List.forall₂_drop n hcs, List.map_drop⟩

theorem ofScript_eq (h : p.Cut xs) : ofScript ⟨xs.flatten⟩ = .ok p := by
  obtain ⟨cs, hcs, hp⟩ := h
  exact ofScript_eq_ok.2 ⟨cs, Chunk.decode_flatten hcs, hp⟩

end Program.Cut

theorem Place.code_eq (h : here.program.Cut xs) (hn : f.codeStart ≤ here.program.length) :
    here.code f = .ok ⟨(xs.drop f.codeStart).flatten⟩ := by
  rw [code, if_pos hn]
  exact Program.toScript_of_ofScript (h.drop f.codeStart).ofScript_eq

/-- The part of a script that counts has the pieces `xs`, and `code` is what the signature `sig` is
for: all of it under the replay-protected digest, else the pieces other than the shortest push of
`sig` and code separators. -/
def Environment.IsCodeFor (env : Environment) (sig : Bytes) (xs : List Bytes) (code : Script) :
    Prop :=
  if env.usesForkId sig then code.bytes = xs.flatten
  else ∃ push, Push.data sig = .ok push ∧
    code.bytes = (xs.filter fun x ↦ x ≠ push ∧ x ≠ [Opcode.codeSeparator]).flatten

theorem Environment.codeFor_flatten {p : Program} {sig : Bytes} (h : p.Cut xs) (hsig : sig ≠ [])
    (hfits : env.usesForkId sig ∨ sig.length < 2 ^ 32) :
    ∃ code, env.codeFor ⟨xs.flatten⟩ sig = .ok code ∧ env.IsCodeFor sig xs code := by
  unfold codeFor IsCodeFor
  split
  next => exact ⟨_, rfl, rfl⟩
  next hforkId =>
    obtain ⟨cs, hcs, -⟩ := h
    obtain ⟨push, hpush⟩ := Push.data_eq_ok (hfits.resolve_left hforkId)
    obtain ⟨ds, hds, hfirst⟩ := Script.removePushes_flatten hsig hpush hcs
    have hboth : (xs.filter (· ≠ push)).filter (· ≠ [Opcode.codeSeparator]) =
        xs.filter fun x ↦ x ≠ push ∧ x ≠ [Opcode.codeSeparator] := by
      simp [List.filter_filter, Bool.and_comm]
    refine ⟨_, ?_, push, hpush, congrArg List.flatten hboth⟩
    rw [hfirst, scriptStep, ok_bind, Script.removeCodeSeparators_flatten hds]
    rfl

/-- No length field holds the length of such a signature, so there is no push of it to look for. -/
theorem Environment.codeFor_eq_reject {sig : Bytes}
    (h : ¬ (env.usesForkId sig ∨ sig.length < 2 ^ 32)) (base : Script) :
    env.codeFor base sig = reject (.scriptCode .dataTooBig) := by
  obtain ⟨hforkId, hlen⟩ := not_or.1 h
  rw [codeFor, if_neg hforkId, Script.removePushes, Push.header_eq_error hlen]
  rfl

namespace SignatureCheck

variable {key sig : Bytes} {rest : Stack} {base : Script}

theorem question_eq_codeFor (hdata : f.data = key :: sig :: rest) (hsig : sig ≠ [])
    (hsignature : Encoding.checkSignature env.flags sig = .ok ())
    (hkey : Encoding.checkKey env.flags key = .ok ()) (hbase : here.code f = .ok base) :
    question env here f =
      env.codeFor base sig >>= fun code ↦ .ok (sig, some ⟨sig, key, code⟩) := by
  have hpeek : f.data.peek 0 = .ok key ∧ f.data.peek 1 = .ok sig := by
    rw [hdata]
    exact ⟨rfl, rfl⟩
  have hne : sig.isEmpty = false := List.isEmpty_eq_false_iff.2 hsig
  simp only [question, hpeek, hsignature, hkey, ok_bind, hne, hbase]
  rfl

end SignatureCheck

end BitcoinCash
