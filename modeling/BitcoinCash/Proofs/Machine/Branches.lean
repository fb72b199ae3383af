import BitcoinCash.Proofs.Bytes.Digits
import BitcoinCash.Proofs.Machine.Perform

namespace BitcoinCash

open Fallible (bind_eq_ok pure_eq_ok)

variable {env : Environment} {here : Place} {i : Instruction} {f g : Frame}

def Frame.withBranches (f : Frame) (branches : List Bool) : Frame := { f with branches }

/-- The computation gives the same whatever conditionals are open, and leaves them alone. -/
def IgnoresBranches (k : Frame → Run Frame) : Prop :=
  ∀ f bs, k (f.withBranches bs) = (·.withBranches bs) <$> k f

namespace IgnoresBranches

variable {k l : Frame → Run Frame}

theorem bind (hk : IgnoresBranches k) (hl : IgnoresBranches l) :
    IgnoresBranches fun f ↦ k f >>= l := by
  intro f bs
  dsimp only
  rw [hk, map_bind, bind_map_left]
  exact congrArg (k f >>= ·) (funext fun g ↦ hl g bs)

theorem ite {c : Prop} [Decidable c] (hk : IgnoresBranches k) (hl : IgnoresBranches l) :
    IgnoresBranches fun f ↦ if c then k f else l f := by
  intro f bs
  split
  · exact hk f bs
  · exact hl f bs

theorem after {x : Run Unit} (hk : IgnoresBranches k) : IgnoresBranches fun f ↦ x >>= fun _ ↦ k f := by
  intro f bs
  rw [map_bind]
  exact congrArg (x >>= ·) (funext fun _ ↦ hk f bs)

theorem branches_eq (hk : IgnoresBranches k) (h : k f = .ok g) : g.branches = f.branches := by
  have hself : k f = (·.withBranches f.branches) <$> k f := hk f f.branches
  rw [h] at hself
  have hg : g = g.withBranches f.branches := Except.ok.inj hself
  rw [hg]
  rfl

theorem bind_congr {α : Type} {x y : Frame → Run α} (hk : IgnoresBranches k)
    (h : ∀ g, g.branches = f.branches → x g = y g) : k f >>= x = k f >>= y := by
  cases hf : k f with
  | error e => rfl
  | ok g => exact h g (hk.branches_eq hf)

end IgnoresBranches

namespace Frame

theorem ignoresBranches_onData (k : Stack → Run Stack) : IgnoresBranches (onData · k) := by
  intro f bs
  simp only [onData, map_bind, map_pure]
  rfl

theorem ignoresBranches_settle (o : Outcome) (op : VerifyOp) :
    IgnoresBranches (settle · o op) := by
  intro f bs
  cases o with
  | kept => rfl
  | verified =>
    simp only [settle, verifyTop, map_bind, map_pure]
    rfl

def checkSize (env : Environment) (f : Frame) : Run Frame := do
  require (f.size ≤ env.limits.stackSize) (.stackOverflow f.size env.limits.stackSize)
  return f

theorem ignoresBranches_checkSize (env : Environment) : IgnoresBranches (checkSize env) := by
  intro f bs
  simp only [checkSize, map_bind, map_pure]
  rfl

end Frame

namespace SignatureCheck

theorem ignoresBranches_checkOne : IgnoresBranches (checkOne env here) := by
  intro f bs
  simp only [checkOne, map_bind]
  refine congrArg (question env here f >>= ·) (funext fun asked ↦ ?_)
  obtain ⟨sig, q?⟩ := asked
  cases q? <;> simp only [map_bind, map_pure] <;> rfl

theorem ignoresBranches_checkMany : IgnoresBranches (checkMany env here) := by
  intro f bs
  simp only [checkMany_eq, ballot, map_bind, map_pure, bind_assoc, pure_bind]
  rfl

theorem ignoresBranches_checkMessage : IgnoresBranches (checkMessage env) := by
  intro f bs
  simp only [checkMessage, map_bind, map_pure]
  rfl

end SignatureCheck

def Operation.isStraight : Operation → Bool
  | .branch _ | .otherwise | .endBranch => false
  | _ => true

theorem Operation.ignoresBranches_run {o : Operation} (ho : o.isStraight) :
    IgnoresBranches fun f ↦ o.run env here i f := by
  have settled {k : Frame → Run Frame} (hk : IgnoresBranches k) (c : Outcome) (op : VerifyOp) :=
    hk.bind (Frame.ignoresBranches_settle c op)
  intro f bs
  cases o with
  | branch | otherwise | endBranch => cases ho
  | equal c => exact settled (Frame.ignoresBranches_onData _) c _ f bs
  | relation r c => exact settled (Frame.ignoresBranches_onData _) c _ f bs
  | checkSig c => exact settled SignatureCheck.ignoresBranches_checkOne c _ f bs
  | checkMultiSig c => exact settled SignatureCheck.ignoresBranches_checkMany c _ f bs
  | checkDataSig c =>
    have hreject : IgnoresBranches fun _ ↦ reject (.invalidOpcode i.op) := fun _ _ ↦ rfl
    exact (settled SignatureCheck.ignoresBranches_checkMessage c _).ite hreject f bs
  | verify => exact Frame.ignoresBranches_settle .verified .verify f bs
  | dupIfTrue =>
    simp only [run, map_bind, map_pure, apply_ite (Frame.withBranches · bs)]
    rfl
  | drop | dup | copyBelow | rotate | swap | nip | tuck | cat | split | toBinary | toNumber
  | bitwise | unary | binary | divide | remainder | within =>
    simp only [run]
    exact Frame.ignoresBranches_onData _ f bs
  | upgradableNop => simp only [run, map_bind, map_pure]
  | checkLockTime | checkSequence | toAlt | fromAlt | depth | pick | roll | size | digest =>
    simp only [run, Frame.toAlt, Frame.fromAlt, map_bind, map_pure]
    rfl
  | _ => rfl

theorem Operation.isStraight_ofOpcode {op : Opcode} (h : ¬ (Opcode.ifOp ≤ op ∧ op ≤ Opcode.endIf)) :
    (ofOpcode op).isStraight := by
  revert h
  refine Bytes.of_toNat_lt op.toNat_lt ?_
  decide +kernel

namespace Instruction

theorem ignoresBranches_accept : IgnoresBranches (i.accept env) := by
  intro f bs
  unfold accept
  cases i.isCounted <;> simp only [map_bind, map_pure] <;> rfl

def enact (env : Environment) (here : Place) (i : Instruction) (f : Frame) : Run Frame := do
  let f ← i.accept env f
  if i.isPush && env.has .minimalData then i.checkShortest
  let f ← (Operation.ofOpcode i.op).run env here i f
  f.checkSize env

def pass (env : Environment) (i : Instruction) (f : Frame) : Run Frame := do
  let f ← i.accept env f
  f.checkSize env

theorem ignoresBranches_pass : IgnoresBranches (i.pass env) :=
  ignoresBranches_accept.bind (Frame.ignoresBranches_checkSize env)

theorem isStraight_of_not_conditional (hi : i.isConditional = false) :
    (Operation.ofOpcode i.op).isStraight :=
  Operation.isStraight_ofOpcode fun h ↦ by simp [isConditional, h] at hi

theorem ignoresBranches_enact (hi : i.isConditional = false) :
    IgnoresBranches (i.enact env here) := by
  have hrun : IgnoresBranches fun f ↦ (Operation.ofOpcode i.op).run env here i f :=
    Operation.ignoresBranches_run (isStraight_of_not_conditional hi)
  refine ignoresBranches_accept.bind ?_
  have hrest := hrun.bind (Frame.ignoresBranches_checkSize env)
  exact hrest.after.ite hrest

theorem perform_of_running (hf : f.running) : i.perform env here f = i.enact env here f := by
  rw [perform_eq, execute_eq, bind_assoc]
  refine ignoresBranches_accept.bind_congr fun g hg ↦ ?_
  have hg : g.running := by rwa [Frame.running, hg]
  simp only [hg, Bool.not_true, Bool.false_and, Bool.true_and, Bool.false_eq_true, if_false]
  split
  · rw [bind_assoc]
    rfl
  · rfl

theorem perform_of_skipped (hi : i.isConditional = false) (hf : f.running = false) :
    i.perform env here f = i.pass env f := by
  rw [perform_eq, execute_eq, bind_assoc]
  refine ignoresBranches_accept.bind_congr fun g hg ↦ ?_
  have hg : g.running = false := by rwa [Frame.running, hg]
  simp only [hg, hi, Bool.not_false, Bool.and_true, if_true]
  rfl

theorem isPush_of_conditional (hi : i.isConditional) : i.isPush = false := by
  have hle : Opcode.ifOp ≤ i.op := by
    simp only [isConditional, Bool.and_eq_true, decide_eq_true_eq] at hi
    exact hi.1
  have hlt : Opcode.pushData4 < i.op := UInt8.lt_of_lt_of_le (by decide) hle
  simpa [isPush] using hlt

/-- A conditional is looked at whether its branch is run or not. -/
theorem perform_of_conditional (hi : i.isConditional) :
    i.perform env here f = (do
      let f ← i.accept env f
      let f ← (Operation.ofOpcode i.op).run env here i f
      f.checkSize env) := by
  rw [perform_eq, execute_eq, bind_assoc]
  simp only [hi, isPush_of_conditional hi, Bool.not_true, Bool.and_false, Bool.false_and,
    Bool.false_eq_true, if_false]
  rfl

def opening (negated : Bool) : Instruction := ⟨if negated then 0x64 else Opcode.ifOp, []⟩

def otherwise : Instruction := ⟨0x67, []⟩

def closing : Instruction := ⟨Opcode.endIf, []⟩

theorem isConditional_opening (negated : Bool) : (opening negated).isConditional := by
  cases negated <;> rfl

theorem ofOpcode_opening (negated : Bool) :
    Operation.ofOpcode (opening negated).op = .branch negated := by
  cases negated <;> rfl

theorem perform_opening_of_skipped {negated : Bool} (hf : f.running = false) :
    (opening negated).perform env here f =
      (·.withBranches (false :: f.branches)) <$> (opening negated).pass env f := by
  rw [perform_of_conditional (isConditional_opening negated), ofOpcode_opening, pass, map_bind]
  refine ignoresBranches_accept.bind_congr fun g hg ↦ ?_
  have hg' : g.running = false := by rwa [Frame.running, hg]
  rw [Operation.run, Frame.openBranch, hg', ← hg]
  exact Frame.ignoresBranches_checkSize env g _

theorem perform_opening_of_running {negated : Bool} (hf : f.running) :
    (opening negated).perform env here f = (do
      let f ← (opening negated).accept env f
      let (v, data) ← f.data.popBool
      (·.withBranches ((v != negated) :: f.branches)) <$> (f.withData data).checkSize env) := by
  rw [perform_of_conditional (isConditional_opening negated), ofOpcode_opening]
  refine ignoresBranches_accept.bind_congr fun g hg ↦ ?_
  have hg' : g.running := by rwa [Frame.running, hg]
  rw [Operation.run, Frame.openBranch, if_pos hg', bind_assoc]
  exact congrArg (g.data.popBool >>= ·) (funext fun popped ↦
    Frame.ignoresBranches_checkSize env (g.withData popped.2) _)

theorem perform_otherwise {b : Bool} {bs : List Bool} :
    otherwise.perform env here (f.withBranches (b :: bs)) =
      (·.withBranches ((!b) :: bs)) <$> otherwise.pass env f := by
  rw [perform_of_conditional rfl, ignoresBranches_accept, bind_map_left, pass, map_bind]
  exact congrArg (otherwise.accept env f >>= ·) (funext fun g ↦
    Frame.ignoresBranches_checkSize env g _)

theorem perform_closing {b : Bool} {bs : List Bool} :
    closing.perform env here (f.withBranches (b :: bs)) =
      (·.withBranches bs) <$> closing.pass env f := by
  rw [perform_of_conditional rfl, ignoresBranches_accept, bind_map_left, pass, map_bind]
  exact congrArg (closing.accept env f >>= ·) (funext fun g ↦
    Frame.ignoresBranches_checkSize env g _)

theorem checkSize_eq_ok {env : Environment} {f g : Frame} (h : f.checkSize env = .ok g) : g = f := by
  obtain ⟨-, -, h⟩ := bind_eq_ok.1 h
  exact (pure_eq_ok.1 h).symm

/-- What performing an instruction does to the open conditionals. -/
inductive Turns (i : Instruction) : List Bool → List Bool → Prop
  | straight {bs : List Bool} : i.isConditional = false → Turns i bs bs
  | opened {bs : List Bool} (negated v : Bool) : i.op = (opening negated).op → Turns i bs (v :: bs)
  | turned {b : Bool} {bs : List Bool} : i.op = otherwise.op → Turns i (b :: bs) ((!b) :: bs)
  | closed {b : Bool} {bs : List Bool} : i.op = closing.op → Turns i (b :: bs) bs

theorem op_cases_of_conditional (hi : i.isConditional) :
    (∃ negated, i.op = (opening negated).op) ∨ (i.op = 0x65 ∨ i.op = 0x66) ∨ i.op = otherwise.op ∨
      i.op = closing.op := by
  simp only [isConditional, Bool.and_eq_true, decide_eq_true_eq] at hi
  revert hi
  refine Bytes.of_toNat_lt i.op.toNat_lt ?_
  decide +kernel

theorem perform_reserved (hi : i.op = 0x65 ∨ i.op = 0x66) : i.perform env here f ≠ .ok g := by
  intro h
  have hc : i.isConditional := by
    rcases hi with h | h <;> rw [isConditional, h] <;> rfl
  have hop : Operation.ofOpcode i.op = .invalid := by
    rcases hi with h | h <;> rw [h] <;> rfl
  rw [perform_of_conditional hc, hop] at h
  obtain ⟨a, _, hrest⟩ := bind_eq_ok.1 h
  obtain ⟨b, hrun, _⟩ := bind_eq_ok.1 hrest
  exact reject_ne_ok hrun

theorem turns_of_perform (h : i.perform env here f = .ok g) : i.Turns f.branches g.branches := by
  by_cases hi : i.isConditional
  · rcases op_cases_of_conditional hi with ⟨negated, hop⟩ | hop | hop | hop
    case inr.inl => exact absurd h (perform_reserved hop)
    all_goals
      rw [perform_of_conditional hi, hop] at h
      obtain ⟨a, ha, h⟩ := bind_eq_ok.1 h
      obtain ⟨r, hr, h⟩ := bind_eq_ok.1 h
      rw [checkSize_eq_ok h, ← ignoresBranches_accept.branches_eq ha]
    · rw [ofOpcode_opening] at hr
      change a.openBranch negated = .ok r at hr
      unfold Frame.openBranch at hr
      split at hr
      · obtain ⟨⟨v, data⟩, _, hr⟩ := bind_eq_ok.1 hr
        cases hr
        exact .opened negated _ hop
      · cases hr
        exact .opened negated _ hop
    · change a.turnBranch _ = .ok r at hr
      unfold Frame.turnBranch at hr
      split at hr
      next b bs hbs =>
        cases hr
        rw [hbs]
        exact .turned hop
      · cases hr
    · change a.closeBranch _ = .ok r at hr
      unfold Frame.closeBranch at hr
      split at hr
      next b bs hbs =>
        cases hr
        rw [hbs]
        exact .closed hop
      · cases hr
  · rw [Bool.not_eq_true] at hi
    have heq : g.branches = f.branches := by
      cases hf : f.running with
      | true => exact (ignoresBranches_enact hi).branches_eq (perform_of_running hf ▸ h)
      | false => exact ignoresBranches_pass.branches_eq (perform_of_skipped hi hf ▸ h)
    rw [heq]
    exact .straight hi

end Instruction

end BitcoinCash
