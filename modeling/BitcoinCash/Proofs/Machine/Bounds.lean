import BitcoinCash.Machine.Evaluate
import BitcoinCash.Proofs.Bytes.Digits
import BitcoinCash.Proofs.Machine.Checks

namespace BitcoinCash

open Run (Meets)

variable {c : Prop} {env : Environment} {N k : ℕ} {here : Place} {i : Instruction} {f : Frame}

structure Environment.Suffices (env : Environment) (N : ℕ) : Prop where
  digest : 32 ≤ N
  element : env.limits.elementSize ≤ N
  depth : 2 * env.limits.stackSize < 256 ^ N

/-- The bounds on a frame that has come to place `k`. -/
structure Frame.Bounded (env : Environment) (N k : ℕ) (f : Frame) : Prop where
  data : f.data.Fits N
  alt : f.alt.Fits N
  opCount : f.opCount ≤ env.limits.ops
  branches : f.branches.length ≤ f.opCount
  codeStart : f.codeStart ≤ k

namespace Frame

theorem bounded_start {s : Stack} (hs : s.Fits N) : (start s).Bounded env N k where
  data := hs
  alt := Stack.fits_nil
  opCount := Nat.zero_le _
  branches := Nat.le_refl 0
  codeStart := Nat.zero_le k

namespace Bounded

theorem next (h : f.Bounded env N k) : f.Bounded env N (k + 1) :=
  { h with codeStart := Nat.le_succ_of_le h.codeStart }

theorem withData {s : Stack} (h : f.Bounded env N k) (hs : s.Fits N) :
    (f.withData s).Bounded env N k :=
  { h with data := hs }

theorem push {x : Bytes} (h : f.Bounded env N k) (hx : x.length ≤ N) :
    (f.push x).Bounded env N k :=
  h.withData (.cons hx h.data)

end Bounded

variable (h : f.Bounded env N k)
include h

theorem meets_verifyTop (op : VerifyOp) : Meets c (Bounded env N k) (f.verifyTop op) :=
  (Stack.meets_popBool h.data).bind fun _ hs ↦ meets_require_bind fun _ ↦ .pure (h.withData hs)

theorem meets_settle (o : Outcome) (op : VerifyOp) : Meets c (Bounded env N k) (f.settle o op) := by
  cases o with
  | kept => exact .ok h
  | verified => exact meets_verifyTop h op

theorem meets_withData {x : Run Stack} (hx : Meets c (Stack.Fits N) x) :
    Meets c (Bounded env N k) (x >>= fun s ↦ pure (f.withData s)) :=
  hx.bind fun _ hs ↦ .pure (h.withData hs)

end Frame

namespace SignatureCheck

variable (h : f.Bounded env N k) (hcode : f.codeStart ≤ here.program.length) (h1 : 1 ≤ N)

include hcode in
theorem meets_question : Meets c (fun _ ↦ True) (question env here f) := by
  refine Stack.meets_peek.bind fun key _ ↦ Stack.meets_peek.bind fun sig _ ↦ ?_
  refine (Encoding.meets_checkSignature _ _).bind fun _ _ ↦ ?_
  refine (Encoding.meets_checkKey _ _).bind fun _ _ ↦ .ite (fun _ ↦ .pure trivial) fun _ ↦ ?_
  refine (Place.meets_code hcode).bind fun code _ ↦ ?_
  exact (Environment.meets_codeFor _ _).bind fun _ _ ↦ .pure trivial

include h hcode h1 in
theorem meets_checkOne : Meets c (Frame.Bounded env N k) (checkOne env here f) := by
  have rest (sig : Bytes) (valid : Bool) : Meets c (Frame.Bounded env N k) (do
      require (valid ∨ ¬ env.has .nullFail ∨ sig.isEmpty) .checkSigNotNull
      return f.withData (ofBool valid :: (← f.data.dropTop 2))) := by
    refine meets_require_bind fun _ ↦ (Stack.meets_dropTop h.data).bind fun s hs ↦ ?_
    exact .pure (h.withData (.cons ((length_ofBool_le valid).trans h1) hs))
  refine (meets_question hcode).bind fun (sig, q?) _ ↦ ?_
  cases q? with
  | none => exact rest sig false
  | some q => exact (Environment.meets_ask q).bind fun valid _ ↦ rest sig valid

include h hcode in
theorem meets_ballot :
    Meets c (fun p ↦ p.1.signatures.length ≤ p.1.keys.length ∧ p.2.Bounded env N k)
      (ballot env here f) := by
  refine Stack.meets_peekNumber.bind fun n _ ↦ meets_require_bind fun hn ↦ ?_
  refine meets_require_bind fun hops ↦ Stack.meets_peekNumber.bind fun m _ ↦ ?_
  refine meets_require_bind fun hm ↦ (meets_peekRange _ _ _).bind fun keys hkeys ↦ ?_
  refine (meets_peekRange _ _ _).bind fun sigs hsigs ↦ (Place.meets_code hcode).bind fun _ _ ↦ ?_
  refine (meets_stripAll _ _).bind fun base _ ↦ .pure ⟨?_, ?_⟩
  · dsimp only
    omega
  · exact { h with
      opCount := hops
      branches := h.branches.trans (Nat.le_add_right _ _) }

include h hcode h1 in
theorem meets_checkManyBy {isValid : Ballot → Run Bool}
    (hvalid : ∀ b, b.signatures.length ≤ b.keys.length → Meets c (fun _ ↦ True) (isValid b)) :
    Meets c (Frame.Bounded env N k) (checkManyBy isValid env here f) := by
  refine (meets_ballot h hcode).bind fun (b, f) ⟨hle, h⟩ ↦ ?_
  refine (hvalid b hle).bind fun valid _ ↦ meets_require_bind fun _ ↦ ?_
  refine (Stack.meets_dropTop h.data).bind fun s hs ↦ (Stack.meets_pop hs).bind fun (x, s) hs ↦ ?_
  refine meets_require_bind fun _ ↦ .pure (h.withData (.cons ?_ hs.2))
  exact (length_ofBool_le valid).trans h1

include h hcode h1 in
theorem meets_checkMany : Meets c (Frame.Bounded env N k) (checkMany env here f) :=
  meets_checkManyBy h hcode h1 fun b hle ↦ meets_matchKeys b.base hle

include h h1 in
theorem meets_checkMessage : Meets c (Frame.Bounded env N k) (checkMessage env f) := by
  refine Stack.meets_peek.bind fun key _ ↦ Stack.meets_peek.bind fun message _ ↦ ?_
  refine Stack.meets_peek.bind fun sig _ ↦ (Encoding.meets_checkBareSignature _ _).bind fun _ _ ↦ ?_
  refine (Encoding.meets_checkKey _ _).bind fun _ _ ↦ ?_
  refine (meets_verifyMessage _ _ _).bind fun _ _ ↦ meets_require_bind fun _ ↦ ?_
  refine (Stack.meets_dropTop h.data).bind fun s hs ↦ .pure (h.withData (.cons ?_ hs))
  exact (length_ofBool_le _).trans h1

end SignatureCheck

theorem two_mul_lt_pow (N : ℕ) : 2 * N < 256 ^ N := by
  induction N with
  | zero => exact Nat.one_pos
  | succ N ih =>
    rw [Nat.pow_succ]
    omega

namespace Operation

/-- What the opcode alone says about an operation. -/
def Suits (op : Opcode) : Operation → Prop
  | .pushNumber n => n.natAbs < 128
  | .branch _ => Opcode.sixteen < op
  | _ => True

instance (op : Opcode) (o : Operation) : Decidable (o.Suits op) := by
  unfold Suits
  split <;> infer_instance

theorem suits_ofOpcode (op : Opcode) : (ofOpcode op).Suits op := by
  refine Bytes.of_toNat_lt op.toNat_lt ?_
  decide +kernel

theorem meets_run (hN : env.Suffices N) (h : f.Bounded env N here.offset)
    (hsize : f.size ≤ env.limits.stackSize) (hplace : here.offset < here.program.length)
    (hi : i.data.length ≤ N) (hcount : i.isCounted → f.branches.length < f.opCount) :
    Meets (7 < env.limits.numberLength) (Frame.Bounded env N (here.offset + 1))
      ((ofOpcode i.op).run env here i f) := by
  have hcode : f.codeStart ≤ here.program.length := h.codeStart.trans (Nat.le_of_lt hplace)
  have h1 : 1 ≤ N := Nat.le_trans (by decide) hN.digest
  have h9 : 9 ≤ N := Nat.le_trans (by decide) hN.digest
  have hsuits := suits_ofOpcode i.op
  have hn := h.next
  have settled {x : Run Frame} (hx : Meets (7 < env.limits.numberLength)
      (Frame.Bounded env N (here.offset + 1)) x) (o : Outcome) (op : VerifyOp) :=
    hx.bind fun _ hg ↦ Frame.meets_settle (c := 7 < env.limits.numberLength) hg o op
  generalize ofOpcode i.op = o at hsuits
  cases o with
  | pushData => exact .ok (hn.push hi)
  | pushNumber n =>
    have hlen : (Number.encode n).length ≤ 1 := Number.length_encode_le (by
      have : n.natAbs < 128 := hsuits
      omega)
    exact .ok (hn.push (hlen.trans h1))
  | nop => exact .ok hn
  | branch negated =>
    have hlt : f.branches.length < f.opCount := hcount (decide_eq_true hsuits)
    refine .ite (fun _ ↦ ?_) fun _ ↦ .ok { hn with branches := hlt }
    exact (Stack.meets_popBool h.data).bind fun _ hs ↦
      .pure { hn with data := hs, branches := hlt }
  | otherwise =>
    change Meets _ _ (f.turnBranch i.op)
    unfold Frame.turnBranch
    split
    next hb => exact .ok { hn with branches := by have := h.branches; rwa [hb] at this }
    · exact .rejected
  | endBranch =>
    change Meets _ _ (f.closeBranch i.op)
    unfold Frame.closeBranch
    split
    next hb =>
      have hle := h.branches
      rw [hb, List.length_cons] at hle
      exact .ok { hn with branches := Nat.le_of_succ_le hle }
    · exact .rejected
  | verify => exact Frame.meets_verifyTop hn _
  | returnEarly => exact .rejected
  | checkLockTime => exact (LockTime.meets_checkLockTime _).bind fun _ _ ↦ .pure hn
  | checkSequence => exact (LockTime.meets_checkSequence _).bind fun _ _ ↦ .pure hn
  | toAlt =>
    exact (Stack.meets_pop h.data).bind fun _ hs ↦
      .pure { hn with data := hs.2, alt := .cons hs.1 h.alt }
  | fromAlt =>
    exact (Stack.meets_pop h.alt).bind fun _ hs ↦
      .pure { hn with data := .cons hs.1 h.data, alt := hs.2 }
  | drop n => exact Frame.meets_withData hn (Stack.meets_dropTop h.data)
  | dup n => exact Frame.meets_withData hn (Stack.meets_dupTop h.data)
  | copyBelow n => exact Frame.meets_withData hn (Stack.meets_copyBelow h.data)
  | rotate n => exact Frame.meets_withData hn (Stack.meets_rotate h.data)
  | swap n => exact Frame.meets_withData hn (Stack.meets_swapPairs h.data)
  | dupIfTrue =>
    refine Stack.meets_peek.bind fun x hx ↦ .pure ?_
    split
    · exact hn.push (h.data x hx)
    · exact hn
  | depth =>
    have hlen : (Number.encode f.data.length).length ≤ N := Number.length_encode_le (by
      have hdepth := hN.depth
      unfold Frame.size at hsize
      omega)
    exact (Number.meets_write hlen).bind fun _ hx ↦ .pure (hn.push hx)
  | nip => exact Frame.meets_withData hn (Stack.meets_removeAt h.data)
  | pick =>
    exact (Arithmetic.meets_takeDepth h.data).bind fun _ hs ↦
      Frame.meets_withData hn (Stack.meets_pick hs)
  | roll =>
    exact (Arithmetic.meets_takeDepth h.data).bind fun _ hs ↦
      Frame.meets_withData hn (Stack.meets_roll hs)
  | tuck => exact Frame.meets_withData hn (Stack.meets_tuck h.data)
  | cat => exact Frame.meets_withData hn (Splice.meets_cat hN.element h.data)
  | split => exact Frame.meets_withData hn (Splice.meets_split h.data)
  | toBinary => exact Frame.meets_withData hn (Splice.meets_toBinary hN.element h.data)
  | toNumber => exact Frame.meets_withData hn (Splice.meets_toNumber h.data)
  | size =>
    refine Stack.meets_peek.bind fun x hx ↦ ?_
    have hlen : (Number.encode x.length).length ≤ N := Number.length_encode_le (by
      have hx := h.data x hx
      have hlt := two_mul_lt_pow N
      omega)
    exact (Number.meets_write hlen).bind fun _ hx ↦ .pure (hn.push hx)
  | bitwise g => exact Frame.meets_withData hn (Splice.meets_bitwise h.data g)
  | equal o => exact settled (Frame.meets_withData hn (Splice.meets_equal h.data h1)) o _
  | unary g => exact Frame.meets_withData hn (Arithmetic.meets_unary h9 h.data env.numbers g)
  | binary g => exact Frame.meets_withData hn (Arithmetic.meets_binary h9 h.data env.numbers g)
  | relation r o =>
    exact settled (Frame.meets_withData hn (Arithmetic.meets_relation h9 h.data r)) o _
  | divide => exact Frame.meets_withData hn (Arithmetic.meets_divide h9 h.data)
  | remainder => exact Frame.meets_withData hn (Arithmetic.meets_remainder h9 h.data)
  | within => exact Frame.meets_withData hn (Arithmetic.meets_within h9 h.data)
  | digest d =>
    exact (Stack.meets_pop h.data).bind fun _ hs ↦
      .pure (hn.withData (.cons ((d.length_apply_le _).trans hN.digest) hs.2))
  | codeSeparator => exact .ok { h with codeStart := Nat.le_refl _ }
  | checkSig o => exact settled (SignatureCheck.meets_checkOne hn hcode h1) o _
  | checkMultiSig o => exact settled (SignatureCheck.meets_checkMany hn hcode h1) o _
  | checkDataSig o =>
    exact .ite (fun _ ↦ settled (SignatureCheck.meets_checkMessage hn h1) o _) fun _ ↦ .rejected
  | upgradableNop => exact (LockTime.meets_upgradable _).bind fun _ _ ↦ .pure hn
  | invalid => exact .rejected

end Operation

namespace Instruction

theorem meets_accept (h : f.Bounded env N k) :
    Meets c (fun g ↦ g.Bounded env N k ∧ g.size = f.size ∧
      i.data.length ≤ env.limits.elementSize ∧ (i.isCounted → g.branches.length < g.opCount))
      (i.accept env f) := by
  refine meets_require_bind fun hi ↦ meets_require_bind fun hops ↦ meets_require_bind fun _ ↦ ?_
  cases hc : i.isCounted with
  | false => exact .pure ⟨h, rfl, hi, nofun⟩
  | true =>
    rw [hc, if_pos rfl] at hops
    have hcount : f.branches.length < f.opCount + 1 := Nat.lt_succ_of_le h.branches
    refine .pure ⟨{ h with opCount := ?_, branches := Nat.le_of_lt hcount }, rfl, hi, fun _ ↦ hcount⟩
    simpa using hops

section By

variable {run : Operation → Frame → Run Frame}

/-- What is to be shown of the operations: they are run on frames in bounds. -/
def Keeps (run : Operation → Frame → Run Frame) (env : Environment) (N k : ℕ) (i : Instruction) :
    Prop :=
  ∀ g, g.Bounded env N k → g.size ≤ env.limits.stackSize → i.data.length ≤ N →
    (i.isCounted → g.branches.length < g.opCount) →
    Meets (7 < env.limits.numberLength) (Frame.Bounded env N (k + 1)) (run (.ofOpcode i.op) g)

theorem meets_executeBy (hrun : Keeps run env N k i) (hN : env.Suffices N)
    (h : f.Bounded env N k) (hsize : f.size ≤ env.limits.stackSize) :
    Meets (7 < env.limits.numberLength) (Frame.Bounded env N (k + 1)) (i.executeBy run env f) := by
  refine (meets_accept h).bind fun g ⟨hg, hgsize, hi, hcount⟩ ↦ ?_
  refine .ite (fun _ ↦ .pure hg.next) fun _ ↦ .checkIf (fun _ ↦ meets_check) ?_
  exact hrun g hg (hgsize.trans_le hsize) (hi.trans hN.element) hcount

theorem meets_performBy (hrun : Keeps run env N k i) (hN : env.Suffices N)
    (h : f.Bounded env N k) (hsize : f.size ≤ env.limits.stackSize) :
    Meets (7 < env.limits.numberLength)
      (fun g ↦ g.Bounded env N (k + 1) ∧ g.size ≤ env.limits.stackSize)
      (i.performBy run env f) :=
  (meets_executeBy hrun hN h hsize).bind fun _ hg ↦ meets_require_bind fun hgsize ↦
    .pure ⟨hg, hgsize⟩

end By

/-- One instruction, at its place in the program. -/
theorem meets_perform (hN : env.Suffices N) (h : f.Bounded env N here.offset)
    (hsize : f.size ≤ env.limits.stackSize) (hplace : here.offset < here.program.length) :
    Meets (7 < env.limits.numberLength)
      (fun g ↦ g.Bounded env N (here.offset + 1) ∧ g.size ≤ env.limits.stackSize)
      (i.perform env here f) :=
  meets_performBy (fun _ hg hgsize hi hcount ↦ Operation.meets_run hN hg hgsize hplace hi hcount)
    hN h hsize

end Instruction

end BitcoinCash
