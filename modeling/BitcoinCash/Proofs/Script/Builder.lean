import Mathlib.Data.List.Infix
import BitcoinCash.Script.Builder

namespace BitcoinCash.Builder

/-- Whatever script it begins with, the construction goes on from that script, or it fails and
leaves that script as it is. -/
def AllOrNothing (b : Builder Unit) : Prop :=
  ∀ s, match b.run s with
    | .ok _ t => s.bytes <+: t.bytes
    | .error _ t => t = s

/-- What is to be appended to `s` has been, or it cannot be and `left` has been in its place. -/
def appended (s : Script) (left : Bytes) :
    Except ScriptError Bytes → EStateM.Result ScriptError Script Unit
  | .ok x => .ok () ⟨s.bytes ++ x⟩
  | .error e => .error e ⟨s.bytes ++ left⟩

inductive Call
  | push (d : Bytes)
  | minimalPush (d : Bytes)
  | pushHex (text : String)
  | opcodes (ops : List Opcode)
  | chunk (c : Chunk)

namespace Call

def toBuilder : Call → Builder Unit
  | push d => Builder.push d
  | minimalPush d => Builder.minimalPush d
  | pushHex text => Builder.pushHex text
  | opcodes ops => Builder.opcodes ops
  | chunk c => Builder.chunk c

def written : Call → Except ScriptError Bytes
  | push d => Push.data d
  | minimalPush d => Push.minimal d
  | pushHex text =>
    match Hex.decode text with
    | .ok d => Push.data d
    | .error e => .error (.hex e)
  | opcodes ops =>
    match ops.find? Opcode.carriesData with
    | some op => .error (.bareOpcode op)
    | none => .ok ops
  | chunk c => c.encode

def leftover : Call → Bytes
  | chunk c => [c.op]
  | _ => []

end Call

variable (s : Script)

theorem mk_append_eq_self_iff {left : Bytes} : (⟨s.bytes ++ left⟩ : Script) = s ↔ left = [] := by
  obtain ⟨b⟩ := s
  simp

/-- What is computed before anything is appended leaves nothing when it fails. -/
theorem run_append_ofExcept (e : Except ScriptError Bytes) :
    (ofExcept e >>= append).run s = appended s [] e := by
  cases e with
  | ok x => rfl
  | error e =>
    rw [appended, (mk_append_eq_self_iff s).2 rfl]
    rfl

theorem run_push (d : Bytes) : (push d).run s = appended s [] (Push.data d) :=
  run_append_ofExcept s _

theorem run_pushHex (text : String) :
    (pushHex text).run s = appended s [] (Call.pushHex text).written := by
  rw [pushHex, Call.written]
  cases Hex.decode text with
  | ok d => exact run_push s d
  | error e => exact run_append_ofExcept s (.error (.hex e))

theorem run_opcodes (ops : List Opcode) :
    (opcodes ops).run s = appended s [] (Call.opcodes ops).written := by
  rw [opcodes, Call.written]
  cases ops.find? Opcode.carriesData with
  | none => rfl
  | some op => exact run_append_ofExcept s (.error (.bareOpcode op))

/-- The opcode of a chunk is there before the length of its data is looked at. -/
theorem run_chunk (c : Chunk) : (chunk c).run s = appended s [c.op] c.encode := by
  obtain ⟨op, data⟩ := c
  cases data with
  | none => rfl
  | some d =>
    rw [chunk, Chunk.encode]
    dsimp only
    cases Chunk.lengthField op d.length with
    | error e => rfl
    | ok field =>
      have hbytes : s.bytes ++ [op] ++ field ++ d = s.bytes ++ op :: (field ++ d) := by simp
      exact congrArg (fun x ↦ EStateM.Result.ok () (Script.mk x)) hbytes

theorem run_call (call : Call) :
    call.toBuilder.run s = appended s call.leftover call.written := by
  cases call with
  | push d => exact run_push s d
  | minimalPush d => exact run_append_ofExcept s _
  | pushHex text => exact run_pushHex s text
  | opcodes ops => exact run_opcodes s ops
  | chunk c => exact run_chunk s c

/-- Each call appends what it stands for. One that fails leaves the script as it was, unless it is
to append a chunk: then the opcode of the chunk stays. -/
theorem calls_allOrNothing (call : Call) :
    (call.toBuilder.AllOrNothing ↔ call.leftover = [] ∨ ∃ x, call.written = .ok x) ∧
      ∀ s, call.toBuilder.run s = appended s call.leftover call.written := by
  refine ⟨?_, fun s ↦ run_call s call⟩
  simp only [AllOrNothing, run_call]
  cases call.written with
  | ok x => exact iff_of_true (fun s ↦ List.prefix_append _ _) (.inr ⟨x, rfl⟩)
  | error e =>
    constructor
    · exact fun h ↦ .inl ((mk_append_eq_self_iff .empty).1 (h .empty))
    · exact fun h s ↦ (mk_append_eq_self_iff s).2 (h.resolve_right nofun)

/-- A push of two bytes that is given one leaves its opcode in the script. -/
theorem not_forall_allOrNothing : ¬ ∀ call : Call, call.toBuilder.AllOrNothing := by
  intro h
  have hrun : (Builder.chunk ⟨2, some [1]⟩).run .empty = .error (.directPush 2 1) ⟨[2]⟩ := rfl
  have hsame := h (.chunk ⟨2, some [1]⟩) .empty
  rw [Call.toBuilder, hrun] at hsame
  cases hsame

end BitcoinCash.Builder
