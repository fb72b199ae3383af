import Mathlib.Data.List.Forall2
import BitcoinCash.Proofs.Script.Codec
import BitcoinCash.Proofs.Script.Push
import BitcoinCash.Script.Basic

namespace BitcoinCash

open Fallible (bind_eq_ok)
open List (Forall₂)

namespace Chunk

variable {x b : Bytes} {c : Chunk} {cs : List Chunk} {xs : List Bytes}

/-- `x` is the written form of the chunk `c`. -/
def Reads (x : Bytes) (c : Chunk) : Prop := decode x = .ok [c]

theorem Reads.encode_eq (h : Reads x c) : c.encode = .ok x := by
  obtain ⟨y, hy, h⟩ := bind_eq_ok.1 (encodeAll_decode h)
  cases h
  rwa [List.append_nil]

theorem reads_of_read {op : Opcode} {rest rest' : Bytes} (h : read op rest = .ok (c, rest')) :
    ∃ x, Reads x c ∧ op :: rest = x ++ rest' := by
  cases hw : lengthWidth? op with
  | none =>
    rw [read_of_bare hw] at h
    cases h
    exact ⟨[op], decode_bare hw, rfl⟩
  | some w =>
    obtain ⟨field, data, rfl, hf, hd, rfl⟩ := (read_eq_ok_iff hw).1 h
    subst hf
    exact ⟨op :: field ++ data, decode_push hw hd, by simp⟩

theorem exists_pieces (h : decode b = .ok cs) : ∃ xs, b = xs.flatten ∧ Forall₂ Reads xs cs := by
  induction cs generalizing b with
  | nil =>
    cases b with
    | nil => exact ⟨[], rfl, .nil⟩
    | cons op rest =>
      obtain ⟨_, _, _, -, -, h⟩ := decode_cons_eq_ok.1 h
      cases h
  | cons c cs ih =>
    cases b with
    | nil => simp at h
    | cons op rest =>
      obtain ⟨_, rest', _, hread, hrest, h⟩ := decode_cons_eq_ok.1 h
      cases h
      obtain ⟨x, hx, hbytes⟩ := reads_of_read hread
      obtain ⟨xs, rfl, hxs⟩ := ih hrest
      exact ⟨x :: xs, hbytes, .cons hx hxs⟩

theorem decode_flatten (h : Forall₂ Reads xs cs) : decode xs.flatten = .ok cs := by
  induction h with
  | nil => exact decode_nil
  | cons hx _ ih => exact decode_append hx ih

/-- The shortest push of `d` is the only written form of its chunk. -/
theorem Reads.eq_push_iff {d push : Bytes} (h : Reads x c) (hd : d ≠ [])
    (hpush : Push.data d = .ok push) :
    x = push ↔ c.op = push.headD 0 ∧ c.data = some d := by
  have hread : Reads push ⟨push.headD 0, some d⟩ := Push.decode_data_of_ne_nil hd hpush
  constructor
  · rintro rfl
    obtain ⟨rfl, -⟩ := List.cons.inj (Except.ok.inj (h.symm.trans hread))
    exact ⟨rfl, rfl⟩
  · rintro ⟨hop, hdata⟩
    have hc : c = ⟨push.headD 0, some d⟩ := by
      rw [← hop, ← hdata]
    exact Except.ok.inj (h.encode_eq.symm.trans (hc ▸ hread.encode_eq))

theorem Reads.eq_codeSeparator_iff (h : Reads x c) :
    x = [Opcode.codeSeparator] ↔ c.op = Opcode.codeSeparator := by
  have hread : Reads [Opcode.codeSeparator] ⟨Opcode.codeSeparator, none⟩ := decode_bare rfl
  constructor
  · rintro rfl
    obtain ⟨rfl, -⟩ := List.cons.inj (Except.ok.inj (h.symm.trans hread))
    rfl
  · intro hop
    have hdata : c.data = none := by
      have hbare : c.data.isSome = c.op.carriesData := data_of_decode h List.mem_cons_self
      rw [hop] at hbare
      exact Option.not_isSome_iff_eq_none.1 (Bool.not_eq_true _ ▸ hbare)
    have hc : c = ⟨Opcode.codeSeparator, none⟩ := by
      rw [← hop, ← hdata]
    exact Except.ok.inj (h.encode_eq.symm.trans (hc ▸ hread.encode_eq))

end Chunk

namespace Script

variable {xs : List Bytes} {cs : List Chunk}

open Chunk (Reads)

/-- Keeping the chunks of which `keep` holds is keeping the pieces of which `p` holds, if these two
say the same of a chunk and its written form. -/
theorem filterChunks_flatten {keep : Chunk → Bool} {p : Bytes → Bool} (h : Forall₂ Reads xs cs)
    (hp : ∀ x c, Reads x c → (p x ↔ keep c)) :
    Forall₂ Reads (xs.filter p) (cs.filter keep) ∧
      (⟨xs.flatten⟩ : Script).filterChunks keep = .ok ⟨(xs.filter p).flatten⟩ := by
  have hfilter : Forall₂ Reads (xs.filter p) (cs.filter keep) :=
    List.rel_filter (fun {x c} hx ↦ hp x c hx) h
  refine ⟨hfilter, ?_⟩
  have hencode := Chunk.encodeAll_decode (Chunk.decode_flatten hfilter)
  rw [filterChunks, chunks, Chunk.decode_flatten h, Fallible.ok_bind, ofChunks, hencode]
  rfl

theorem removePushes_flatten {d push : Bytes} (hd : d ≠ []) (hpush : Push.data d = .ok push)
    (h : Forall₂ Reads xs cs) :
    ∃ ds, Forall₂ Reads (xs.filter (· ≠ push)) ds ∧
      (⟨xs.flatten⟩ : Script).removePushes d = .ok ⟨(xs.filter (· ≠ push)).flatten⟩ := by
  obtain ⟨header, hheader, hdata⟩ := bind_eq_ok.1 hpush
  have hhead : header.headD 0 = push.headD 0 := by
    cases hdata
    unfold Push.header at hheader
    repeat' split at hheader
    all_goals cases hheader
    all_goals rfl
  rw [removePushes, hheader, Fallible.ok_bind, hhead]
  refine ⟨_, filterChunks_flatten h fun x c hx ↦ ?_⟩
  simp [hx.eq_push_iff hd hpush]

theorem removeCodeSeparators_flatten (h : Forall₂ Reads xs cs) :
    (⟨xs.flatten⟩ : Script).removeCodeSeparators =
      .ok ⟨(xs.filter (· ≠ [Opcode.codeSeparator])).flatten⟩ := by
  refine (filterChunks_flatten h fun x c hx ↦ ?_).2
  simp [hx.eq_codeSeparator_iff]

end Script

end BitcoinCash
