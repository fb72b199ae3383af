import BitcoinCash.Proofs.Machine.Flags
import BitcoinCash.Proofs.Machine.Spend

namespace BitcoinCash

open Run (Below)

structure Limits.Within (low high : Limits) : Prop where
  ops : low.ops ≤ high.ops
  stackSize : low.stackSize ≤ high.stackSize
  scriptSize : low.scriptSize ≤ high.scriptSize
  elementSize : low.elementSize ≤ high.elementSize
  numberLength : low.numberLength ≤ high.numberLength
  lockTimeLength : low.lockTimeLength ≤ high.lockTimeLength
  publicKeys : low.publicKeys ≤ high.publicKeys

theorem Limits.Within.refl (limits : Limits) : limits.Within limits :=
  ⟨Nat.le_refl _, Nat.le_refl _, Nat.le_refl _, Nat.le_refl _, Nat.le_refl _, Nat.le_refl _,
    Nat.le_refl _⟩

theorem Run.below_bound {n low high : Nat} {r s : Rejection} (h : low ≤ high) :
    Below (require (n ≤ low) r) (require (n ≤ high) s) :=
  below_require fun hn ↦ Nat.le_trans hn h

/-- `lax` is `env` with some restrictions dropped and some limits raised. The context of `env`
cannot tell its flags from those of `lax`. -/
structure Environment.Permits (lax env : Environment) : Prop where
  flags : lax.flags.Relaxes env.flags
  limits : env.limits.Within lax.limits
  context : lax.context = env.context
  input : lax.input = env.input
  verify_eq : ∀ ctx, env.context = some ctx → ∀ sig key code,
    ctx.verify sig key code env.input lax.flags = ctx.verify sig key code env.input env.flags

structure NumberRule.Permits (lax rule : NumberRule) : Prop where
  maxLength : rule.maxLength ≤ lax.maxLength
  minimal : lax.minimal → rule.minimal

section Numbers

variable {lax rule : NumberRule} (h : lax.Permits rule)
include h

theorem Number.below_decode (b : Bytes) : Below (decode rule b) (decode lax b) := by
  refine .bind (Run.below_require (And.imp_left fun hb ↦ Nat.le_trans hb h.maxLength)) fun _ ↦ ?_
  exact .checkIf h.minimal (.refl _) (.refl _)

theorem Stack.below_takeNumber (s : Stack) : Below (s.takeNumber rule) (s.takeNumber lax) := by
  cases s with
  | nil => exact .refl _
  | cons x s => exact .bind (Number.below_decode h x) fun _ ↦ .refl _

theorem Stack.below_peekNumber (s : Stack) (depth : Nat) :
    Below (s.peekNumber rule depth) (s.peekNumber lax depth) :=
  .bind (.refl _) fun _ ↦ Number.below_decode h _

namespace Arithmetic

theorem below_unary (f : Unary) (s : Stack) : Below (unary rule f s) (unary lax f s) :=
  .bind (s.below_takeNumber h) fun _ ↦ .refl _

theorem below_binary (f : Binary) (s : Stack) : Below (binary rule f s) (binary lax f s) :=
  .bind (s.below_takeNumber h) fun _ ↦ .bind (Stack.below_takeNumber h _) fun _ ↦ .refl _

theorem below_relation (r : Relation) (s : Stack) : Below (relation rule r s) (relation lax r s) :=
  .bind (s.below_takeNumber h) fun _ ↦ .bind (Stack.below_takeNumber h _) fun _ ↦ .refl _

theorem below_divide (s : Stack) : Below (divide rule s) (divide lax s) :=
  .bind (s.below_takeNumber h) fun _ ↦ .bind (Stack.below_takeNumber h _) fun _ ↦ .refl _

theorem below_remainder (s : Stack) : Below (remainder rule s) (remainder lax s) :=
  .bind (s.below_takeNumber h) fun _ ↦ .bind (Stack.below_takeNumber h _) fun _ ↦ .refl _

theorem below_within (s : Stack) : Below (within rule s) (within lax s) :=
  .bind (s.below_takeNumber h) fun _ ↦ .bind (Stack.below_takeNumber h _) fun _ ↦
    .bind (Stack.below_takeNumber h _) fun _ ↦ .refl _

theorem below_takeDepth (s : Stack) : Below (takeDepth rule s) (takeDepth lax s) :=
  .bind (s.below_takeNumber h) fun _ ↦ .refl _

end Arithmetic

end Numbers

namespace Environment.Permits

variable {lax env : Environment} (h : lax.Permits env)
include h

theorem has_mono {r : Flags} (hr : lax.has r) : env.has r := h.flags.has_mono hr

theorem numbers : lax.numbers.Permits env.numbers := ⟨h.limits.numberLength, h.has_mono⟩

theorem lockTimes : lax.lockTimes.Permits env.lockTimes := ⟨h.limits.lockTimeLength, h.has_mono⟩

theorem usesForkId (sig : Bytes) : lax.usesForkId sig = env.usesForkId sig := by
  simp only [Environment.usesForkId, Environment.has, h.flags.has_forkId]

theorem codeFor (base : Script) (sig : Bytes) : lax.codeFor base sig = env.codeFor base sig := by
  simp only [Environment.codeFor, h.usesForkId]

theorem ask (q : Question) : lax.ask q = env.ask q := by
  simp only [Environment.ask, h.context]
  cases hc : env.context with
  | none => rfl
  | some ctx => simp only [h.input, h.verify_eq ctx hc]

end Environment.Permits

namespace Encoding

variable {f g : Flags} (h : f.Relaxes g)
include h

theorem hasAny_mono {rs : List Flags} (hf : f.hasAny rs) : g.hasAny rs := by
  simp only [Flags.hasAny, List.any_eq_true] at hf ⊢
  obtain ⟨r, hr, hf⟩ := hf
  exact ⟨r, hr, h.has_mono hf⟩

theorem below_checkBareSignature (b : Bytes) :
    Below (checkBareSignature g b) (checkBareSignature f b) := by
  unfold checkBareSignature
  split
  · exact .checkIf (hasAny_mono h) (.refl _) (.onlyIf h.has_mono (.refl _))
  · exact .refl _

theorem below_checkHashType (t : UInt8) : Below (checkHashType g t) (checkHashType f t) := by
  simp only [checkHashType, h.has_forkId]
  exact .refl _

theorem below_checkSignature (b : Bytes) : Below (checkSignature g b) (checkSignature f b) := by
  unfold checkSignature
  split
  · exact .refl _
  · exact .bind (below_checkBareSignature h _) fun _ ↦ .onlyIf h.has_mono (below_checkHashType h _)

theorem below_checkKey (b : Bytes) : Below (checkKey g b) (checkKey f b) :=
  .onlyIf h.has_mono (.refl _)

end Encoding

namespace LockTime

variable {lax env : Environment} (h : lax.Permits env)
include h

theorem below_operand (s : Stack) : Below (operand env s) (operand lax s) :=
  .bind (Stack.below_peekNumber h.lockTimes s 0) fun _ ↦ .refl _

theorem below_upgradable (op : Opcode) : Below (upgradable env op) (upgradable lax op) :=
  Run.below_require h.flags.not_has_mono

/-- An opcode whose rule is dropped does nothing; it is not discouraged, for then the rule would
have been kept. -/
theorem below_rule {rule : Flags} {op : Opcode} {x y : Run Unit}
    (kept : lax.has .discourageUpgradableNops → env.has rule → lax.has rule) (hxy : Below x y) :
    Below (if env.has rule then x else upgradable env op)
      (if lax.has rule then y else upgradable lax op) := by
  intro u hu
  split
  next hl =>
    rw [if_pos (h.has_mono hl)] at hu
    exact hxy u hu
  next hl =>
    by_cases he : env.has rule
    · exact require_eq_ok.2 fun hd ↦ hl (kept hd he)
    · rw [if_neg he] at hu
      exact below_upgradable h op u hu

theorem contextFor_eq (op : Opcode) : contextFor lax op = contextFor env op := by
  simp only [contextFor, h.context]

theorem below_checkLockTime (s : Stack) : Below (checkLockTime env s) (checkLockTime lax s) := by
  refine below_rule h h.flags.lockTime_of_discourage (.bind (below_operand h s) fun _ ↦ ?_)
  exact .of_eq (by rw [contextFor_eq h, h.input])

theorem below_checkSequence (s : Stack) : Below (checkSequence env s) (checkSequence lax s) := by
  refine below_rule h h.flags.sequence_of_discourage (.bind (below_operand h s) fun _ ↦ ?_)
  exact .of_eq (by rw [contextFor_eq h, h.input])

end LockTime

namespace SignatureCheck

variable {lax env : Environment} (h : lax.Permits env)
include h

theorem below_nullFail (valid empty : Bool) (r : Rejection) :
    Below (require (valid ∨ ¬ env.has .nullFail ∨ empty) r)
      (require (valid ∨ ¬ lax.has .nullFail ∨ empty) r) :=
  Run.below_require (Or.imp_right (Or.imp_left h.flags.not_has_mono))

theorem below_question (here : Place) (f : Frame) :
    Below (question env here f) (question lax here f) := by
  refine .bind (.refl _) fun key ↦ .bind (.refl _) fun sig ↦ ?_
  refine .bind (Encoding.below_checkSignature h.flags sig) fun _ ↦ ?_
  refine .bind (Encoding.below_checkKey h.flags key) fun _ ↦ ?_
  exact .of_eq (by simp only [h.codeFor])

theorem below_checkOne (here : Place) (f : Frame) :
    Below (checkOne env here f) (checkOne lax here f) := by
  refine .bind (below_question h here f) fun ⟨sig, q?⟩ ↦ ?_
  have rest (valid : Bool) := below_nullFail h valid sig.isEmpty .checkSigNotNull
  cases q? with
  | none => exact .bind (.refl _) fun valid ↦ .bind (rest valid) fun _ ↦ .refl _
  | some q => exact .bind (.of_eq (h.ask q).symm) fun valid ↦ .bind (rest valid) fun _ ↦ .refl _

theorem stripAll_eq (code : Script) (sigs : List Bytes) :
    stripAll lax code sigs = stripAll env code sigs := by
  induction sigs generalizing code with
  | nil => rfl
  | cons sig sigs ih => simp only [stripAll, h.usesForkId, ih]

theorem below_ballot (here : Place) (f : Frame) :
    Below (ballot env here f) (ballot lax here f) := by
  refine .bind (Stack.below_peekNumber h.numbers _ _) fun n ↦ ?_
  have hkeys : (env.limits.publicKeys : Int) ≤ lax.limits.publicKeys :=
    Int.ofNat_le.2 h.limits.publicKeys
  refine .bind (Run.below_require (And.imp_right fun hn ↦ Int.le_trans hn hkeys)) fun _ ↦ ?_
  refine .bind (Run.below_bound h.limits.ops) fun _ ↦ ?_
  refine .bind (Stack.below_peekNumber h.numbers _ _) fun m ↦ .bind (.refl _) fun _ ↦ ?_
  exact .of_eq (by simp only [stripAll_eq h])

theorem below_attempt (base : Script) (sig key : Bytes) :
    Below (attempt env base sig key) (attempt lax base sig key) := by
  refine .bind (Encoding.below_checkSignature h.flags sig) fun _ ↦ ?_
  refine .bind (Encoding.below_checkKey h.flags key) fun _ ↦ ?_
  exact .of_eq (by simp only [h.codeFor, h.ask])

theorem below_matchKeys (base : Script) (keys sigs : List Bytes) :
    Below (matchKeys env base keys sigs) (matchKeys lax base keys sigs) := by
  induction keys generalizing sigs with
  | nil => cases sigs <;> exact .refl _
  | cons key keys ih =>
    cases sigs with
    | nil => exact .refl _
    | cons sig sigs =>
      refine .bind (below_attempt h base sig key) fun valid ↦ ?_
      exact .ite (.refl _) (ih _)

theorem below_checkMany (here : Place) (f : Frame) :
    Below (checkMany env here f) (checkMany lax here f) := by
  refine .bind (below_ballot h here f) fun ⟨b, f⟩ ↦ ?_
  refine .bind (below_matchKeys h b.base b.keys b.signatures) fun valid ↦ ?_
  refine .bind (below_nullFail h _ _ _) fun _ ↦ .bind (.refl _) fun data ↦ ?_
  refine .bind (.refl _) fun ⟨dummy, rest⟩ ↦ ?_
  exact .bind (Run.below_require (Or.imp_left h.flags.not_has_mono)) fun _ ↦ .refl _

theorem below_checkMessage (f : Frame) : Below (checkMessage env f) (checkMessage lax f) := by
  refine .bind (.refl _) fun key ↦ .bind (.refl _) fun message ↦ .bind (.refl _) fun sig ↦ ?_
  refine .bind (Encoding.below_checkBareSignature h.flags sig) fun _ ↦ ?_
  refine .bind (Encoding.below_checkKey h.flags key) fun _ ↦ .bind (.refl _) fun valid ↦ ?_
  exact .bind (below_nullFail h _ _ _) fun _ ↦ .refl _

end SignatureCheck

section Execution

variable {lax env : Environment} (h : lax.Permits env)
include h

namespace Splice

theorem below_cat (s : Stack) : Below (cat env s) (cat lax s) := by
  refine .bind (.refl _) fun ⟨b, s⟩ ↦ .bind (.refl _) fun ⟨a, s⟩ ↦ ?_
  exact .bind (Run.below_bound h.limits.elementSize) fun _ ↦ .refl _

theorem below_split (s : Stack) : Below (split env s) (split lax s) :=
  .bind (s.below_takeNumber h.numbers) fun _ ↦ .refl _

theorem below_toBinary (s : Stack) : Below (toBinary env s) (toBinary lax s) := by
  have hsize : (env.limits.elementSize : Int) ≤ lax.limits.elementSize :=
    Int.ofNat_le.2 h.limits.elementSize
  refine .bind (s.below_takeNumber h.numbers) fun ⟨n, s⟩ ↦ ?_
  exact .bind (Run.below_require (And.imp_right fun hn ↦ Int.le_trans hn hsize)) fun _ ↦ .refl _

theorem below_toNumber (s : Stack) : Below (toNumber env s) (toNumber lax s) := by
  refine .bind (.refl _) fun ⟨x, s⟩ ↦ .bind (.refl _) fun b ↦ ?_
  exact .bind (Run.below_bound h.limits.numberLength) fun _ ↦ .refl _

end Splice

omit h in
theorem Frame.below_onData {g k : Stack → Run Stack} (f : Frame)
    (hgk : ∀ s, Below (g s) (k s)) : Below (f.onData g) (f.onData k) :=
  .bind (hgk _) fun _ ↦ .refl _

theorem Operation.below_run (here : Place) (i : Instruction) (f : Frame) (o : Operation) :
    Below (o.run env here i f) (o.run lax here i f) := by
  have numbers := h.numbers
  cases o with
  | checkLockTime => exact .bind (LockTime.below_checkLockTime h _) fun _ ↦ .refl _
  | checkSequence => exact .bind (LockTime.below_checkSequence h _) fun _ ↦ .refl _
  | upgradableNop => exact .bind (LockTime.below_upgradable h _) fun _ ↦ .refl _
  | pick => exact .bind (Arithmetic.below_takeDepth numbers _) fun _ ↦ .refl _
  | roll => exact .bind (Arithmetic.below_takeDepth numbers _) fun _ ↦ .refl _
  | cat => exact f.below_onData (Splice.below_cat h)
  | split => exact f.below_onData (Splice.below_split h)
  | toBinary => exact f.below_onData (Splice.below_toBinary h)
  | toNumber => exact f.below_onData (Splice.below_toNumber h)
  | unary g => exact f.below_onData (Arithmetic.below_unary numbers g)
  | binary g => exact f.below_onData (Arithmetic.below_binary numbers g)
  | relation r o =>
    exact .bind (f.below_onData (Arithmetic.below_relation numbers r)) fun _ ↦ .refl _
  | divide => exact f.below_onData (Arithmetic.below_divide numbers)
  | remainder => exact f.below_onData (Arithmetic.below_remainder numbers)
  | within => exact f.below_onData (Arithmetic.below_within numbers)
  | checkSig o => exact .bind (SignatureCheck.below_checkOne h here f) fun _ ↦ .refl _
  | checkMultiSig o => exact .bind (SignatureCheck.below_checkMany h here f) fun _ ↦ .refl _
  | checkDataSig o =>
    simp only [Operation.run, Environment.has, h.flags.has_checkDataSig]
    exact .ite (.bind (SignatureCheck.below_checkMessage h f) fun _ ↦ .refl _) (.refl _)
  -- neither a rule nor a limit has a say in the others
  | _ => exact .refl _

namespace Instruction

omit h in
theorem isDisabled_eq {f g : Flags} (h : f.Relaxes g) (i : Instruction) :
    i.isDisabled f = i.isDisabled g := by
  simp only [isDisabled, h.has_monolith]

theorem below_accept (i : Instruction) (f : Frame) : Below (i.accept env f) (i.accept lax f) := by
  refine .bind (Run.below_bound h.limits.elementSize) fun _ ↦ ?_
  refine .bind (Run.below_require (Or.imp_right fun hops ↦ Nat.le_trans hops h.limits.ops)) fun _ ↦ ?_
  exact .of_eq (by rw [isDisabled_eq h.flags])

theorem below_execute (here : Place) (i : Instruction) (f : Frame) :
    Below (i.execute env here f) (i.execute lax here f) := by
  refine .bind (below_accept h i f) fun f ↦ .ite (.refl _) ?_
  refine .checkIf (fun hl ↦ ?_) (.refl _) (Operation.below_run h here i f _)
  simp only [Bool.and_eq_true] at hl ⊢
  exact ⟨hl.1, h.has_mono hl.2⟩

theorem below_perform (here : Place) (i : Instruction) (f : Frame) :
    Below (i.perform env here f) (i.perform lax here f) := by
  refine .bind (below_execute h here i f) fun _ ↦ ?_
  exact .bind (Run.below_bound h.limits.stackSize) fun _ ↦ .refl _

end Instruction

namespace Program

theorem below_runFrom (program : Program) (offset : Nat) (rest : Program) (f : Frame) :
    Below (program.runFrom env offset rest f) (program.runFrom lax offset rest f) := by
  induction rest generalizing offset f with
  | nil => exact .refl _
  | cons i rest ih => exact .bind (Instruction.below_perform h _ i f) fun f ↦ ih _ f

theorem below_run_of_permits (program : Program) (data : Stack) :
    Below (program.run env data) (program.run lax data) :=
  .bind (below_runFrom h program 0 program _) fun _ ↦ .refl _

theorem Passes.of_permits {program : Program} {data left : Stack}
    (hp : program.Passes env data left) : program.Passes lax data left :=
  ⟨program.below_run_of_permits h data _ hp.run_eq, hp.result⟩

end Program

theorem Stack.below_takeRedeem (s : Stack) : Below (s.takeRedeem env) (s.takeRedeem lax) := by
  cases s with
  | nil => exact .refl _
  | cons x s =>
    exact .bind (Run.below_bound h.limits.scriptSize) fun _ ↦ .refl _

theorem Stack.below_checkClean (s : Stack) : Below (s.checkClean env) (s.checkClean lax) :=
  Run.below_require (Or.imp_left h.flags.not_has_mono)

namespace Spend

variable {unlocking locking : Script} {s : Spend}

theorem Prepared.of_permits (hs : s.Prepared env unlocking locking) :
    { s with p2sh := lax.has .p2sh && locking.isP2sh }.Prepared lax unlocking locking where
  cleanStack := by
    by_cases hc : lax.has .cleanStack
    · exact .inr (h.flags.p2sh_of_cleanStack hc (hs.cleanStack.resolve_left (· (h.has_mono hc))))
    · exact .inl hc
  unlocking_length := Nat.le_trans hs.unlocking_length h.limits.scriptSize
  locking_length := Nat.le_trans hs.locking_length h.limits.scriptSize
  unlocking_eq := hs.unlocking_eq
  locking_eq := hs.locking_eq
  p2sh_eq := rfl
  pushOnly := hs.pushOnly.imp_left h.flags.not_has_mono
  pushOnly_p2sh := by
    refine hs.pushOnly_p2sh.imp_left fun hn hp ↦ hn ?_
    simp only [hs.p2sh_eq, Bool.and_eq_true] at hp ⊢
    exact ⟨h.has_mono hp.1, hp.2⟩

/-- If the redeem script is not run any more, the stack need not be clean either. -/
theorem Ends.of_permits {saved left : Stack} (hs : s.Prepared env unlocking locking)
    (he : s.Ends env saved left) :
    { s with p2sh := lax.has .p2sh && locking.isP2sh }.Ends lax saved left := by
  unfold Ends at he ⊢
  split
  next hp =>
    simp only [Bool.and_eq_true] at hp
    rw [if_pos (by rw [hs.p2sh_eq, h.has_mono hp.1, hp.2]; rfl)] at he
    obtain ⟨redeem, rest, last, ht, hpass, hc⟩ := he
    exact ⟨redeem, rest, last, saved.below_takeRedeem h _ ht, hpass.of_permits h,
      last.below_checkClean h _ hc⟩
  next hp =>
    refine Stack.checkClean_eq_ok.2 fun hc ↦ ?_
    have henv := h.has_mono hc
    have hps := h.flags.p2sh_of_cleanStack hc (hs.cleanStack.resolve_left (· henv))
    have direct : s.p2sh = false := by
      rw [hs.p2sh_eq]
      simp only [Environment.has, hps, Bool.true_and, Bool.not_eq_true] at hp
      rw [hp, Bool.and_false]
    rw [direct, if_neg Bool.false_ne_true] at he
    exact Stack.checkClean_eq_ok.1 he henv

end Spend

theorem evaluate_of_permits {unlocking locking : Script}
    (he : evaluate env unlocking locking = .ok ()) : evaluate lax unlocking locking = .ok () := by
  obtain ⟨s, saved, left, hs, hu, hl, he⟩ := evaluate_eq_ok_iff.1 he
  rw [Spend.prepare_eq_ok_iff] at hs
  exact evaluate_eq_ok_iff.2 ⟨_, saved, left, Spend.prepare_eq_ok_iff.2 (hs.of_permits h),
    s.unlocking.below_run_of_permits h [] _ hu, hl.of_permits h, Spend.Ends.of_permits h hs he⟩

end Execution

end BitcoinCash
