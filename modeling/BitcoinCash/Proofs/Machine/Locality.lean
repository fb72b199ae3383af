import Mathlib.Data.Nat.Notation
import BitcoinCash.Proofs.Machine.Counters
import BitcoinCash.Proofs.Machine.Permits
import BitcoinCash.Proofs.Machine.Stack

namespace BitcoinCash

open Fallible (bind_eq_ok ok_bind pure_eq_ok)
open Run (Below)

section Carries

variable {α β γ δ : Type} {φ : α → β} {ψ : γ → δ}

/-- Whatever `x` yields `y` yields in the form that `φ` gives it. -/
def Run.Carries (φ : α → β) (x : Run α) (y : Run β) : Prop := ∀ a, x = .ok a → y = .ok (φ a)

namespace Run.Carries

theorem ok (a : α) : Carries φ (.ok a) (.ok (φ a)) := by
  intro b hb
  cases hb
  rfl

theorem rejected {r : Rejection} {y : Run β} : Carries φ (reject r) y := nofun

theorem bind {x : Run α} {y : Run β} {g : α → Run γ} {k : β → Run δ} (h : Carries φ x y)
    (hk : ∀ a, Carries ψ (g a) (k (φ a))) : Carries ψ (x >>= g) (y >>= k) := by
  intro c hc
  obtain ⟨a, ha, hc⟩ := bind_eq_ok.1 hc
  exact bind_eq_ok.2 ⟨φ a, h a ha, hk a c hc⟩

theorem read {x y : Run α} {g : α → Run γ} {k : α → Run δ} (h : Below x y)
    (hk : ∀ a, Carries ψ (g a) (k a)) : Carries ψ (x >>= g) (y >>= k) :=
  bind (show Carries id x y from h) hk

theorem ite {c : Prop} [Decidable c] {x u : Run α} {y v : Run β} (h : Carries φ x y)
    (k : Carries φ u v) : Carries φ (if c then x else u) (if c then y else v) := by
  split
  · exact h
  · exact k

theorem checkIf {c : Prop} [Decidable c] {x : Run Unit} {g : Unit → Run γ} {k : Unit → Run δ}
    (hk : Carries ψ (g ()) (k ())) :
    Carries ψ (if c then x >>= g else g ()) (if c then x >>= k else k ()) :=
  ite (read (.refl x) fun _ ↦ hk) hk

end Run.Carries

end Carries

open Run (Carries)

namespace Stack

variable (s below : Stack)

/-- Elements put below the stack are below what the operation leaves of it. -/
def Local (k : Stack → Run Stack) : Prop := ∀ s below, Carries (· ++ below) (k s) (k (s ++ below))

theorem carries_pop : Carries (Prod.map id (· ++ below)) s.pop (s ++ below).pop := by
  cases s with
  | nil => exact .rejected
  | cons x s => exact .ok _

theorem carries_popBool : Carries (Prod.map id (· ++ below)) s.popBool (s ++ below).popBool :=
  .bind (s.carries_pop below) fun _ ↦ .ok _

theorem carries_takeNumber (rule : NumberRule) :
    Carries (Prod.map id (· ++ below)) (s.takeNumber rule) ((s ++ below).takeNumber rule) := by
  cases s with
  | nil => exact .rejected
  | cons x s => exact .read (.refl _) fun n ↦ .ok _

theorem below_peek_append (depth : ℕ) : Below (s.peek depth) ((s ++ below).peek depth) := by
  intro x hx
  have hx : s[depth]? = some x := peek_eq_ok.1 hx
  rw [peek_eq_ok, List.getElem?_append_left (List.getElem?_eq_some_iff.1 hx).1, hx]

theorem below_peekNumber_append (rule : NumberRule) (depth : ℕ) :
    Below (s.peekNumber rule depth) ((s ++ below).peekNumber rule depth) :=
  .bind (s.below_peek_append below depth) fun _ ↦ .refl _

theorem local_need {n : ℕ} {k : Stack → Stack}
    (hk : ∀ s below : Stack, n ≤ s.length → k (s ++ below) = k s ++ below) :
    Local fun s ↦ (do s.need n; return k s) := by
  intro s below t ht
  obtain ⟨_, hn, ht⟩ := bind_eq_ok.1 ht
  rw [need_eq_ok] at hn
  have hlen : n ≤ (s ++ below).length := by
    rw [List.length_append]
    omega
  dsimp only
  rw [need_of_le hlen, ok_bind, hk s below hn, ← pure_eq_ok.1 ht]
  rfl

theorem local_removeAt (depth : ℕ) : Local (removeAt · depth) :=
  local_need fun _ below h ↦ List.eraseIdx_append_of_lt_length h below

theorem local_dropTop (n : ℕ) : Local (dropTop · n) :=
  local_need fun _ _ h ↦ List.drop_append_of_le_length h

theorem local_dupTop (n : ℕ) : Local (dupTop · n) := by
  simp only [dupTop_eq]
  refine local_need fun s below h ↦ ?_
  rw [List.take_append_of_le_length h, List.append_assoc]

theorem take_drop_append {s : Stack} {m n : ℕ} (h : m + n ≤ s.length) :
    ((s ++ below).drop m).take n = (s.drop m).take n := by
  rw [List.drop_append_of_le_length (by omega),
    List.take_append_of_le_length (by rw [List.length_drop]; omega)]

theorem local_copyBelow (n : ℕ) : Local (copyBelow · n) := by
  simp only [copyBelow_eq]
  refine local_need fun s below h ↦ ?_
  rw [take_drop_append below (by omega), List.append_assoc]

theorem local_rotate (n : ℕ) : Local (rotate · n) := by
  simp only [rotate_eq]
  refine local_need fun s below h ↦ ?_
  rw [take_drop_append below (by omega), List.take_append_of_le_length (by omega),
    List.drop_append_of_le_length h, ← List.append_assoc]

theorem local_swapPairs (n : ℕ) : Local (swapPairs · n) := by
  simp only [swapPairs_eq]
  refine local_need fun s below h ↦ ?_
  rw [take_drop_append below (by omega), List.take_append_of_le_length (by omega),
    List.drop_append_of_le_length h, ← List.append_assoc]

theorem local_tuck : Local tuck := by
  intro s below
  match s with
  | [] | [_] => exact .rejected
  | _ :: _ :: _ => exact .ok _

theorem local_pick (depth : ℕ) : Local (pick · depth) :=
  fun s below ↦ .read (s.below_peek_append below depth) fun _ ↦ .ok _

theorem local_roll (depth : ℕ) : Local (roll · depth) := by
  intro s below t ht
  obtain ⟨x, hx, ht⟩ := bind_eq_ok.1 ht
  have hlt : depth < s.length := (List.getElem?_eq_some_iff.1 (peek_eq_ok.1 hx)).1
  dsimp only
  rw [roll, s.below_peek_append below depth x hx, ok_bind, ← pure_eq_ok.1 ht,
    List.eraseIdx_append_of_lt_length hlt]
  rfl

end Stack

namespace Splice

variable (env : Environment)

theorem local_cat : Stack.Local (cat env) :=
  fun s below ↦ .bind (s.carries_pop below) fun (_, s) ↦ .bind (s.carries_pop below) fun _ ↦
    .read (.refl _) fun _ ↦ .ok _

theorem local_split : Stack.Local (split env) :=
  fun s below ↦ .bind (s.carries_takeNumber below _) fun (_, s) ↦
    .bind (Stack.carries_pop s below) fun _ ↦ .read (.refl _) fun _ ↦ .read (.refl _) fun _ ↦ .ok _

theorem local_toBinary : Stack.Local (toBinary env) :=
  fun s below ↦ .bind (s.carries_takeNumber below _) fun (_, s) ↦ .read (.refl _) fun _ ↦
    .bind (Stack.carries_pop s below) fun _ ↦ .read (.refl _) fun _ ↦ .read (.refl _) fun _ ↦
      .read (.refl _) fun _ ↦ .ok _

theorem local_toNumber : Stack.Local (toNumber env) :=
  fun s below ↦ .bind (s.carries_pop below) fun _ ↦ .read (.refl _) fun _ ↦
    .read (.refl _) fun _ ↦ .ok _

theorem local_bitwise (f : Bitwise) : Stack.Local (bitwise f) :=
  fun s below ↦ .bind (s.carries_pop below) fun (_, s) ↦ .bind (s.carries_pop below) fun _ ↦
    .read (.refl _) fun _ ↦ .ok _

theorem local_equal : Stack.Local equal :=
  fun s below ↦ .bind (s.carries_pop below) fun (_, s) ↦ .bind (s.carries_pop below) fun _ ↦ .ok _

end Splice

namespace Arithmetic

variable (rule : NumberRule)

theorem local_unary (f : Unary) : Stack.Local (unary rule f) :=
  fun s below ↦ .bind (s.carries_takeNumber below rule) fun _ ↦ .read (.refl _) fun _ ↦
    .read (.refl _) fun _ ↦ .ok _

theorem local_binary (f : Binary) : Stack.Local (binary rule f) :=
  fun s below ↦ .bind (s.carries_takeNumber below rule) fun (_, s) ↦
    .bind (Stack.carries_takeNumber s below rule) fun _ ↦ .read (.refl _) fun _ ↦
      .read (.refl _) fun _ ↦ .ok _

theorem local_relation (r : Relation) : Stack.Local (relation rule r) :=
  fun s below ↦ .bind (s.carries_takeNumber below rule) fun (_, s) ↦
    .bind (Stack.carries_takeNumber s below rule) fun _ ↦ .ok _

theorem local_divide : Stack.Local (divide rule) :=
  fun s below ↦ .bind (s.carries_takeNumber below rule) fun (_, s) ↦
    .bind (Stack.carries_takeNumber s below rule) fun _ ↦ .read (.refl _) fun _ ↦
      .read (.refl _) fun _ ↦ .read (.refl _) fun _ ↦ .ok _

theorem local_remainder : Stack.Local (remainder rule) :=
  fun s below ↦ .bind (s.carries_takeNumber below rule) fun (_, s) ↦
    .bind (Stack.carries_takeNumber s below rule) fun _ ↦ .read (.refl _) fun _ ↦
      .read (.refl _) fun _ ↦ .read (.refl _) fun _ ↦ .ok _

theorem local_within : Stack.Local (within rule) :=
  fun s below ↦ .bind (s.carries_takeNumber below rule) fun (_, s) ↦
    .bind (Stack.carries_takeNumber s below rule) fun (_, s) ↦
      .bind (Stack.carries_takeNumber s below rule) fun _ ↦ .ok _

theorem carries_takeDepth (s below : Stack) :
    Carries (Prod.map id (· ++ below)) (takeDepth rule s) (takeDepth rule (s ++ below)) :=
  .bind (s.carries_takeNumber below rule) fun _ ↦ .read (.refl _) fun _ ↦ .ok _

end Arithmetic

namespace Frame

def above (f : Frame) (below : Stack) : Frame := f.withData (f.data ++ below)

/-- Elements put below the data stack are below what the computation leaves of it, and change
nothing else. -/
def Local (k : Frame → Run Frame) : Prop :=
  ∀ f below, Carries (·.above below) (k f) (k (f.above below))

theorem local_onData {k : Stack → Run Stack} (hk : Stack.Local k) : Local (onData · k) :=
  fun f below ↦ .bind (hk f.data below) fun _ ↦ .ok _

theorem local_verifyTop (op : VerifyOp) : Local (verifyTop · op) :=
  fun f below ↦ .bind (f.data.carries_popBool below) fun _ ↦ .read (.refl _) fun _ ↦ .ok _

theorem Local.settle {k : Frame → Run Frame} (hk : Local k) (o : Outcome) (op : VerifyOp) :
    Local fun f ↦ k f >>= fun g ↦ g.settle o op := by
  intro f below
  refine .bind (hk f below) fun g ↦ ?_
  cases o with
  | kept => exact .ok g
  | verified => exact local_verifyTop op g below

theorem local_openBranch (negated : Bool) : Local (openBranch · negated) :=
  fun f below ↦ .ite (.bind (f.data.carries_popBool below) fun _ ↦ .ok _) (.ok _)

theorem local_turnBranch (op : Opcode) : Local (turnBranch · op) := by
  rintro ⟨data, alt, branches, opCount, codeStart⟩ below
  cases branches with
  | nil => exact .rejected
  | cons b bs => exact .ok _

theorem local_closeBranch (op : Opcode) : Local (closeBranch · op) := by
  rintro ⟨data, alt, branches, opCount, codeStart⟩ below
  cases branches with
  | nil => exact .rejected
  | cons b bs => exact .ok _

end Frame

namespace LockTime

variable (env : Environment) (s below : Stack)

theorem below_operand_append : Below (operand env s) (operand env (s ++ below)) :=
  .bind (s.below_peekNumber_append below _ 0) fun _ ↦ .refl _

theorem below_checkLockTime_append :
    Below (checkLockTime env s) (checkLockTime env (s ++ below)) :=
  .ite (.bind (below_operand_append env s below) fun _ ↦ .refl _) (.refl _)

theorem below_checkSequence_append :
    Below (checkSequence env s) (checkSequence env (s ++ below)) :=
  .ite (.bind (below_operand_append env s below) fun _ ↦ .refl _) (.refl _)

end LockTime

namespace SignatureCheck

variable (env : Environment) (here : Place)

theorem below_question_above (f : Frame) (below : Stack) :
    Below (question env here f) (question env here (f.above below)) :=
  .bind (f.data.below_peek_append below 0) fun _ ↦
    .bind (f.data.below_peek_append below 1) fun _ ↦ .refl _

theorem local_checkOne : Frame.Local (checkOne env here) := by
  intro f below
  refine .read (below_question_above env here f below) fun (sig, q?) ↦ ?_
  have rest (n : ℕ) := Stack.local_dropTop n f.data below
  cases q? <;> exact .read (.refl _) fun _ ↦ .read (.refl _) fun _ ↦ .bind (rest 2) fun _ ↦ .ok _

theorem below_peekRange_append (s below : Stack) (depth n : ℕ) :
    Below (peekRange s depth n) (peekRange (s ++ below) depth n) := by
  induction n generalizing depth with
  | zero => exact .refl _
  | succ n ih => exact .bind (s.below_peek_append below depth) fun _ ↦ .bind (ih _) fun _ ↦ .refl _

/-- A ballot is read from the top; how deep depends on two of the elements read. -/
theorem carries_ballot (f : Frame) (below : Stack) :
    Carries (Prod.map id (·.above below)) (ballot env here f)
      (ballot env here (f.above below)) := by
  have number (depth : ℕ) := f.data.below_peekNumber_append below env.numbers depth
  have range (depth n : ℕ) := below_peekRange_append f.data below depth n
  refine .read (number 0) fun n ↦ .read (.refl _) fun _ ↦ .read (.refl _) fun _ ↦ ?_
  refine .read (number (1 + n.toNat)) fun m ↦ .read (.refl _) fun _ ↦ ?_
  refine .read (range 1 n.toNat) fun keys ↦ .read (range (2 + n.toNat) m.toNat) fun signatures ↦ ?_
  exact .read (.refl _) fun code ↦ .read (.refl _) fun base ↦ .ok _

theorem local_checkMany : Frame.Local (checkMany env here) := by
  intro f below
  refine .bind (carries_ballot env here f below) fun (b, g) ↦ .read (.refl _) fun valid ↦ ?_
  refine .read (.refl _) fun _ ↦ .bind (Stack.local_dropTop _ g.data below) fun data ↦ ?_
  exact .bind (data.carries_pop below) fun _ ↦ .read (.refl _) fun _ ↦ .ok _

theorem local_checkMessage : Frame.Local (checkMessage env) := by
  intro f below
  have element (depth : ℕ) := f.data.below_peek_append below depth
  refine .read (element 0) fun key ↦ .read (element 1) fun message ↦ .read (element 2) fun sig ↦ ?_
  refine .read (.refl _) fun _ ↦ .read (.refl _) fun _ ↦ .read (.refl _) fun valid ↦ ?_
  exact .read (.refl _) fun _ ↦ .bind (Stack.local_dropTop 3 f.data below) fun _ ↦ .ok _

end SignatureCheck

section Execution

variable {env : Environment} {here : Place} {i : Instruction} {f g : Frame} {below : Stack}

theorem Operation.local_run {o : Operation} (ho : o ≠ .depth) :
    Frame.Local fun f ↦ o.run env here i f := by
  intro f below
  cases o with
  | depth => exact absurd rfl ho
  | pushData | pushNumber | nop | codeSeparator => exact .ok _
  | returnEarly | invalid => exact .rejected
  | branch negated => exact f.local_openBranch negated below
  | otherwise => exact f.local_turnBranch i.op below
  | endBranch => exact f.local_closeBranch i.op below
  | verify => exact f.local_verifyTop .verify below
  | checkLockTime =>
    exact .read (LockTime.below_checkLockTime_append env f.data below) fun _ ↦ .ok _
  | checkSequence =>
    exact .read (LockTime.below_checkSequence_append env f.data below) fun _ ↦ .ok _
  | upgradableNop => exact .read (.refl _) fun _ ↦ .ok _
  | toAlt => exact .bind (f.data.carries_pop below) fun _ ↦ .ok _
  | fromAlt => exact .read (.refl _) fun _ ↦ .ok _
  | drop n => exact Frame.local_onData (Stack.local_dropTop n) f below
  | dup n => exact Frame.local_onData (Stack.local_dupTop n) f below
  | copyBelow n => exact Frame.local_onData (Stack.local_copyBelow n) f below
  | rotate n => exact Frame.local_onData (Stack.local_rotate n) f below
  | swap n => exact Frame.local_onData (Stack.local_swapPairs n) f below
  | nip => exact Frame.local_onData (Stack.local_removeAt 1) f below
  | tuck => exact Frame.local_onData Stack.local_tuck f below
  | pick =>
    refine .bind (Arithmetic.carries_takeDepth env.numbers f.data below) fun (n, s) ↦ ?_
    exact .bind (Stack.local_pick n s below) fun _ ↦ .ok _
  | roll =>
    refine .bind (Arithmetic.carries_takeDepth env.numbers f.data below) fun (n, s) ↦ ?_
    exact .bind (Stack.local_roll n s below) fun _ ↦ .ok _
  | dupIfTrue =>
    refine .read (f.data.below_peek_append below 0) fun x ↦ ?_
    cases isTrue x
    · exact .ok f
    · exact .ok (f.push x)
  | size =>
    exact .read (f.data.below_peek_append below 0) fun _ ↦ .read (.refl _) fun _ ↦ .ok _
  | cat => exact Frame.local_onData (Splice.local_cat env) f below
  | split => exact Frame.local_onData (Splice.local_split env) f below
  | toBinary => exact Frame.local_onData (Splice.local_toBinary env) f below
  | toNumber => exact Frame.local_onData (Splice.local_toNumber env) f below
  | bitwise h => exact Frame.local_onData (Splice.local_bitwise h) f below
  | equal o => exact (Frame.local_onData Splice.local_equal).settle o .equal f below
  | unary h => exact Frame.local_onData (Arithmetic.local_unary _ h) f below
  | binary h => exact Frame.local_onData (Arithmetic.local_binary _ h) f below
  | relation r o =>
    exact (Frame.local_onData (Arithmetic.local_relation _ r)).settle o .numEqual f below
  | divide => exact Frame.local_onData (Arithmetic.local_divide _) f below
  | remainder => exact Frame.local_onData (Arithmetic.local_remainder _) f below
  | within => exact Frame.local_onData (Arithmetic.local_within _) f below
  | digest k => exact .bind (f.data.carries_pop below) fun _ ↦ .ok _
  | checkSig o => exact (SignatureCheck.local_checkOne env here).settle o .checkSig f below
  | checkMultiSig o =>
    exact (SignatureCheck.local_checkMany env here).settle o .checkMultiSig f below
  | checkDataSig o =>
    exact .ite ((SignatureCheck.local_checkMessage env).settle o .checkDataSig f below) .rejected

theorem Operation.ofOpcode_eq_depth {op : Opcode} : ofOpcode op = .depth ↔ op = 0x74 := by
  refine Bytes.of_toNat_lt op.toNat_lt ?_
  decide +kernel

namespace Instruction

theorem local_accept : Frame.Local (i.accept env) := by
  intro f below g hg
  obtain ⟨hdata, hops, henabled, rfl⟩ := accept_eq_ok.1 hg
  exact accept_eq_ok.2 ⟨hdata, hops, henabled, rfl⟩

theorem local_execute (hi : i.op ≠ 0x74) : Frame.Local (i.execute env here) := by
  intro f below
  refine .bind (local_accept f below) fun f ↦ .ite (.ok f) (.checkIf ?_)
  exact Operation.local_run (fun h ↦ hi (Operation.ofOpcode_eq_depth.1 h)) f below

theorem size_of_perform (h : i.perform env here f = .ok g) : g.size ≤ env.limits.stackSize := by
  obtain ⟨a, -, h⟩ := bind_eq_ok.1 h
  obtain ⟨_, hsize, h⟩ := bind_eq_ok.1 h
  obtain rfl := pure_eq_ok.1 h
  exact require_eq_ok.1 hsize

/-- The elements below may be too many for the bound on the stacks, and are no other hindrance. -/
theorem perform_above (hi : i.op ≠ 0x74) (h : i.perform env here f = .ok g) :
    i.perform env here (f.above below) = (g.above below).checkSize env := by
  obtain ⟨a, ha, h⟩ := bind_eq_ok.1 h
  obtain rfl := checkSize_eq_ok h
  rw [perform_eq, local_execute hi f below g ha]
  rfl

end Instruction

namespace Frame

theorem size_above (f : Frame) (below : Stack) : (f.above below).size = f.size + below.length := by
  simp only [size, above, withData, List.length_append]
  omega

theorem checkSize_of_le (h : f.size ≤ env.limits.stackSize) : f.checkSize env = .ok f := by
  rw [checkSize, require_of h]
  rfl

theorem checkSize_of_lt (h : env.limits.stackSize < f.size) :
    f.checkSize env = reject (.stackOverflow f.size env.limits.stackSize) := by
  rw [checkSize, require_of_not (Nat.not_le_of_lt h)]
  rfl

end Frame

def Environment.withRoom (env : Environment) (n : ℕ) : Environment :=
  { env with limits := { env.limits with stackSize := env.limits.stackSize + n } }

theorem Environment.permits_withRoom (env : Environment) (n : ℕ) :
    (env.withRoom n).Permits env where
  flags := .refl _
  limits := { Limits.Within.refl env.limits with stackSize := Nat.le_add_right _ n }
  context := rfl
  input := rfl
  verify_eq _ _ _ _ _ := rfl

namespace Program

variable {program rest : Program} {offset : ℕ}

theorem runFrom_withRoom (hrest : ∀ i ∈ rest, i.op ≠ 0x74)
    (h : program.runFrom env offset rest f = .ok g) :
    program.runFrom (env.withRoom below.length) offset rest (f.above below) =
      .ok (g.above below) := by
  induction rest generalizing offset f with
  | nil =>
    cases h
    rfl
  | cons i rest ih =>
    obtain ⟨hi, hrest⟩ := List.forall_mem_cons.1 hrest
    obtain ⟨a, ha, h⟩ := bind_eq_ok.1 h
    have hroom := i.below_perform (env.permits_withRoom below.length) _ f a ha
    have hsize : (a.above below).size ≤ (env.withRoom below.length).limits.stackSize := by
      rw [a.size_above]
      exact Nat.add_le_add_right (Instruction.size_of_perform ha) _
    rw [runFrom, Instruction.perform_above hi hroom, Frame.checkSize_of_le hsize, ok_bind]
    exact ih hrest h

/-- Without more room the elements below can be too many after some instruction. -/
theorem runFrom_above (hrest : ∀ i ∈ rest, i.op ≠ 0x74)
    (h : program.runFrom env offset rest f = .ok g) :
    program.runFrom env offset rest (f.above below) = .ok (g.above below) ∨
      ∃ n, env.limits.stackSize < n ∧ n ≤ env.limits.stackSize + below.length ∧
        program.runFrom env offset rest (f.above below) =
          reject (.stackOverflow n env.limits.stackSize) := by
  induction rest generalizing offset f with
  | nil =>
    cases h
    exact .inl rfl
  | cons i rest ih =>
    obtain ⟨hi, hrest⟩ := List.forall_mem_cons.1 hrest
    obtain ⟨a, ha, h⟩ := bind_eq_ok.1 h
    rw [runFrom, Instruction.perform_above hi ha]
    by_cases hfits : (a.above below).size ≤ env.limits.stackSize
    · rw [Frame.checkSize_of_le hfits, ok_bind]
      exact ih hrest h
    · have hover : env.limits.stackSize < (a.above below).size := Nat.lt_of_not_le hfits
      refine .inr ⟨_, hover, ?_, by rw [Frame.checkSize_of_lt hover]; rfl⟩
      rw [a.size_above]
      exact Nat.add_le_add_right (Instruction.size_of_perform ha) _

end Program

end Execution

/-- An instruction other than the one that asks for the depth of the stack, where it succeeds, does
the same on top of any more elements and leaves these below. So does a sequence of such instructions
if the bound on the stacks is raised by the number of the elements; under the same bound it does so
or the stacks overflow. -/
theorem elements_below_stay (env : Environment) (below : Stack) :
    (∀ (here : Place) (i : Instruction) (f g : Frame), i.op ≠ 0x74 →
      i.execute env here f = .ok g →
        i.execute env here (f.above below) = .ok (g.above below)) ∧
    ∀ (program rest : Program) (offset : ℕ) (f g : Frame), (∀ i ∈ rest, i.op ≠ 0x74) →
      program.runFrom env offset rest f = .ok g →
        program.runFrom (env.withRoom below.length) offset rest (f.above below) =
          .ok (g.above below) ∧
        (program.runFrom env offset rest (f.above below) = .ok (g.above below) ∨
          ∃ n, env.limits.stackSize < n ∧ n ≤ env.limits.stackSize + below.length ∧
            program.runFrom env offset rest (f.above below) =
              reject (.stackOverflow n env.limits.stackSize)) := by
  refine ⟨?_, ?_⟩
  · intro here i f g hi h
    exact Instruction.local_execute hi f below g h
  · intro program rest offset f g hrest h
    exact ⟨Program.runFrom_withRoom hrest h, Program.runFrom_above hrest h⟩

theorem elements_below_stay_moved :
    let program : Program :=
      [⟨0x71, []⟩, ⟨0x7d, []⟩, ⟨0x53, []⟩, ⟨0x7a, []⟩, ⟨0xae, []⟩, ⟨0x6b, []⟩]
    let env : Environment := { flags := .none, limits := { stackSize := 8 } }
    let below : Stack := [[0x74], [2]]
    let f : Frame := .start [[1], [], [3], [4], [], [1]]
    let g : Frame := ⟨[[3], [4]], [[]], [], 6, 0⟩
    let roll : Instruction := ⟨0x7a, []⟩
    let deep : Frame := .start [[3], [], [1], [], [1], [], [3], [4]]
    let rolled : Frame := ⟨[[1], [], [1], [], [], [3], [4]], [], [], 1, 0⟩
    (roll.op ≠ 0x74 ∧ roll.execute env ⟨program, 3⟩ deep = .ok rolled ∧
      roll.execute env ⟨program, 3⟩ (deep.above below) = .ok (rolled.above below)) ∧
    (∀ i ∈ program, i.op ≠ 0x74) ∧ program.runFrom env 0 program f = .ok g ∧
      program.runFrom (env.withRoom 2) 0 program (f.above below) = .ok (g.above below) ∧
      ∃ n, 8 < n ∧ n ≤ 10 ∧
        program.runFrom env 0 program (f.above below) = reject (.stackOverflow n 8) := by
  intro program env below f g roll deep rolled
  have hroll : roll.op ≠ 0x74 := by decide
  have hrolled : roll.execute env ⟨program, 3⟩ deep = .ok rolled := by decide +kernel
  have hprogram : ∀ i ∈ program, i.op ≠ 0x74 := by decide
  have hrun : program.runFrom env 0 program f = .ok g := by decide +kernel
  obtain ⟨hstep, hruns⟩ := elements_below_stay env below
  obtain ⟨hroom, htight⟩ := hruns program program 0 f g hprogram hrun
  have hmany : program.runFrom env 0 program (f.above below) ≠ .ok (g.above below) := by
    decide +kernel
  exact ⟨⟨hroll, hrolled, hstep ⟨program, 3⟩ roll deep rolled hroll hrolled⟩, hprogram, hrun, hroom,
    htight.resolve_left hmany⟩

end BitcoinCash
