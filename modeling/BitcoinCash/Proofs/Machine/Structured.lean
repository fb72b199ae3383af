import BitcoinCash.Proofs.Machine.Branches
import BitcoinCash.Proofs.Machine.Program

namespace BitcoinCash

open Fallible (bind_eq_ok)

theorem Instruction.IsParsed.eq_of_op {i j : Instruction} (hi : i.IsParsed) (hop : i.op = j.op)
    (hbare : j.op.carriesData = false) (hj : j.data = []) : i = j := by
  obtain ⟨op, data⟩ := i
  obtain ⟨op', data'⟩ := j
  dsimp only at hop hbare hj
  subst hop hj
  have hdata : data = [] := hi.resolve_left (by simp [hbare])
  rw [hdata]

mutual

/-- A balanced sequence of instructions. -/
inductive Block
  | nil
  | op (i : Instruction) (plain : i.isConditional = false) (next : Block)
  | branch (negated : Bool) (arms : Arms) (next : Block)

inductive Arms
  | last (body : Block)
  | more (body : Block) (rest : Arms)

end

mutual

def Block.flatten : Block → Program
  | .nil => []
  | .op i _ next => i :: next.flatten
  | .branch negated arms next => .opening negated :: (arms.flatten ++ next.flatten)

def Arms.flatten : Arms → Program
  | .last body => body.flatten ++ [.closing]
  | .more body rest => body.flatten ++ .otherwise :: rest.flatten

end

/-- Passes over instructions that are not run, conditionals among them. -/
def Program.skip (env : Environment) (p : Program) (f : Frame) : Run Frame :=
  p.foldlM (fun f i ↦ i.pass env f) f

mutual

def Block.eval (env : Environment) (program : Program) :
    Block → (offset : ℕ) → Frame → Run Frame
  | .nil, _, f => .ok f
  | .op i _ next, offset, f => do
    let f ← i.enact env ⟨program, offset⟩ f
    next.eval env program (offset + 1) f
  | .branch negated arms next, offset, f => do
    let f ← (Instruction.opening negated).accept env f
    let (v, data) ← f.data.popBool
    let f ← (f.withData data).checkSize env
    let f ← arms.eval env program (v != negated) (offset + 1) f
    next.eval env program (offset + 1 + arms.flatten.length) f

/-- Runs every other block, the first of them if it is `taken`. -/
def Arms.eval (env : Environment) (program : Program) :
    Arms → (taken : Bool) → (offset : ℕ) → Frame → Run Frame
  | .last body, taken, offset, f =>
    (if taken then body.eval env program offset f else body.flatten.skip env f) >>=
      Instruction.closing.pass env
  | .more body rest, taken, offset, f =>
    (if taken then body.eval env program offset f else body.flatten.skip env f) >>= fun f ↦ do
      let f ← Instruction.otherwise.pass env f
      rest.eval env program (!taken) (offset + body.flatten.length + 1) f

end

variable {env : Environment} {program : Program} {f g : Frame}

namespace Program

theorem skip_cons {i : Instruction} {p : Program} :
    skip env (i :: p) f = i.pass env f >>= skip env p := rfl

theorem skip_append {p q : Program} : skip env (p ++ q) f = skip env p f >>= skip env q :=
  List.foldlM_append

theorem ignoresBranches_skip (p : Program) : IgnoresBranches (skip env p) := by
  induction p with
  | nil => exact fun _ _ ↦ rfl
  | cons i p ih => exact Instruction.ignoresBranches_pass.bind ih

end Program

mutual

theorem Block.runFrom_of_skipped (b : Block) (offset : ℕ) (f : Frame) (hf : f.running = false) :
    program.runFrom env offset b.flatten f = b.flatten.skip env f := by
  match b with
  | .nil => rfl
  | .op i plain next =>
    rw [Block.flatten, Program.runFrom, Program.skip_cons,
      Instruction.perform_of_skipped plain hf]
    refine Instruction.ignoresBranches_pass.bind_congr fun g hg ↦ ?_
    exact next.runFrom_of_skipped _ g (by rwa [Frame.running, hg])
  | .branch negated arms next =>
    rw [Block.flatten, Program.runFrom, Program.skip_cons,
      Instruction.perform_opening_of_skipped hf, bind_map_left]
    refine Instruction.ignoresBranches_pass.bind_congr fun g hg ↦ ?_
    have hg' : g.running = false := by rwa [Frame.running, hg]
    rw [Program.runFrom_append, Program.skip_append, ← hg, arms.runFrom_of_skipped _ _ g hg']
    refine (Program.ignoresBranches_skip _).bind_congr fun h hh ↦ ?_
    exact next.runFrom_of_skipped _ h (by rwa [Frame.running, hh])

theorem Arms.runFrom_of_skipped (arms : Arms) (v : Bool) (offset : ℕ) (f : Frame)
    (hf : f.running = false) :
    program.runFrom env offset arms.flatten (f.withBranches (v :: f.branches)) =
      arms.flatten.skip env f := by
  -- whatever the entry for this conditional says, one further out forbids the body
  have hv : (f.withBranches (v :: f.branches)).running = false := by
    cases v
    · rfl
    · exact hf
  match arms with
  | .last body =>
    rw [Arms.flatten, Program.runFrom_append, Program.skip_append, body.runFrom_of_skipped _ _ hv,
      Program.ignoresBranches_skip, bind_map_left]
    refine (Program.ignoresBranches_skip _).bind_congr fun g hg ↦ ?_
    rw [Program.runFrom, Instruction.perform_closing, Program.skip_cons, bind_map_left, ← hg]
    exact Instruction.ignoresBranches_pass.bind_congr fun h hh ↦ by rw [← hh]; rfl
  | .more body rest =>
    rw [Arms.flatten, Program.runFrom_append, Program.skip_append, body.runFrom_of_skipped _ _ hv,
      Program.ignoresBranches_skip, bind_map_left]
    refine (Program.ignoresBranches_skip _).bind_congr fun g hg ↦ ?_
    rw [Program.runFrom, Instruction.perform_otherwise, Program.skip_cons, bind_map_left, ← hg]
    refine Instruction.ignoresBranches_pass.bind_congr fun h hh ↦ ?_
    rw [← hh]
    exact rest.runFrom_of_skipped _ _ h (by rwa [Frame.running, hh, hg])

end

theorem Block.ignoresBranches_of_taken {body : Block} {taken : Bool} {offset : ℕ}
    (h : IgnoresBranches (body.eval env program offset)) :
    IgnoresBranches fun f ↦
      if taken then body.eval env program offset f else body.flatten.skip env f :=
  h.ite (Program.ignoresBranches_skip _)

mutual

theorem Block.ignoresBranches_eval (b : Block) (offset : ℕ) :
    IgnoresBranches (b.eval env program offset) := by
  match b with
  | .nil => exact fun _ _ ↦ rfl
  | .op i plain next =>
    exact (Instruction.ignoresBranches_enact plain).bind (next.ignoresBranches_eval _)
  | .branch negated arms next =>
    refine Instruction.ignoresBranches_accept.bind fun f bs ↦ ?_
    rw [map_bind]
    refine congrArg (f.data.popBool >>= ·) (funext fun (v, data) ↦ ?_)
    have hrest := (arms.ignoresBranches_eval (v != negated) (offset + 1)).bind
      (next.ignoresBranches_eval (offset + 1 + arms.flatten.length))
    exact (Frame.ignoresBranches_checkSize env).bind hrest (f.withData data) bs

theorem Arms.ignoresBranches_eval (arms : Arms) (taken : Bool) (offset : ℕ) :
    IgnoresBranches (arms.eval env program taken offset) := by
  match arms with
  | .last body =>
    exact (Block.ignoresBranches_of_taken (body.ignoresBranches_eval offset)).bind
      Instruction.ignoresBranches_pass
  | .more body rest =>
    exact (Block.ignoresBranches_of_taken (body.ignoresBranches_eval offset)).bind
      (Instruction.ignoresBranches_pass.bind (rest.ignoresBranches_eval _ _))

end

/-- One of the blocks of a conditional, inside which the machine has the entry `taken` for it. -/
theorem Block.runFrom_of_taken {body : Block} {taken : Bool} {offset : ℕ} (hf : f.running)
    (h : ∀ g : Frame, g.running →
      program.runFrom env offset body.flatten g = body.eval env program offset g) :
    program.runFrom env offset body.flatten (f.withBranches (taken :: f.branches)) =
      (·.withBranches (taken :: f.branches)) <$>
        if taken then body.eval env program offset f else body.flatten.skip env f := by
  cases taken with
  | true =>
    rw [h (f.withBranches (true :: f.branches)) hf]
    exact body.ignoresBranches_eval _ f _
  | false =>
    rw [body.runFrom_of_skipped _ _ rfl]
    exact Program.ignoresBranches_skip _ f _

mutual

theorem Block.runFrom_eq_eval (b : Block) (offset : ℕ) (f : Frame) (hf : f.running) :
    program.runFrom env offset b.flatten f = b.eval env program offset f := by
  match b with
  | .nil => rfl
  | .op i plain next =>
    rw [Block.flatten, Program.runFrom, Block.eval, Instruction.perform_of_running hf]
    refine (Instruction.ignoresBranches_enact plain).bind_congr fun g hg ↦ ?_
    exact next.runFrom_eq_eval _ g (by rwa [Frame.running, hg])
  | .branch negated arms next =>
    rw [Block.flatten, Program.runFrom, Block.eval, Instruction.perform_opening_of_running hf,
      bind_assoc]
    refine Instruction.ignoresBranches_accept.bind_congr fun g hg ↦ ?_
    rw [bind_assoc]
    refine congrArg (g.data.popBool >>= ·) (funext fun (v, data) ↦ ?_)
    dsimp only
    rw [bind_map_left]
    refine (Frame.ignoresBranches_checkSize env).bind_congr fun h hh ↦ ?_
    have hh : h.branches = f.branches := hh.trans hg
    have hh' : h.running := by rwa [Frame.running, hh]
    rw [Program.runFrom_append, hg, ← hh, arms.runFrom_eq_eval _ _ h hh']
    refine (arms.ignoresBranches_eval _ _).bind_congr fun k hk ↦ ?_
    exact next.runFrom_eq_eval _ k (by rwa [Frame.running, hk])

theorem Arms.runFrom_eq_eval (arms : Arms) (taken : Bool) (offset : ℕ) (f : Frame)
    (hf : f.running) :
    program.runFrom env offset arms.flatten (f.withBranches (taken :: f.branches)) =
      arms.eval env program taken offset f := by
  match arms with
  | .last body =>
    rw [Arms.flatten, Program.runFrom_append, Arms.eval,
      Block.runFrom_of_taken hf fun g hg ↦ body.runFrom_eq_eval offset g hg, bind_map_left]
    refine (Block.ignoresBranches_of_taken (body.ignoresBranches_eval offset)).bind_congr fun g hg ↦ ?_
    rw [Program.runFrom, Instruction.perform_closing, bind_map_left, ← hg]
    refine Eq.trans ?_ (bind_pure _)
    exact Instruction.ignoresBranches_pass.bind_congr fun h hh ↦ by rw [← hh]; rfl
  | .more body rest =>
    rw [Arms.flatten, Program.runFrom_append, Arms.eval,
      Block.runFrom_of_taken hf fun g hg ↦ body.runFrom_eq_eval offset g hg, bind_map_left]
    refine (Block.ignoresBranches_of_taken (body.ignoresBranches_eval offset)).bind_congr fun g hg ↦ ?_
    rw [Program.runFrom, Instruction.perform_otherwise, bind_map_left, ← hg]
    refine Instruction.ignoresBranches_pass.bind_congr fun h hh ↦ ?_
    rw [← hh, rest.runFrom_eq_eval _ _ h (by rwa [Frame.running, hh, hg])]

end

/-- The program ends `depth` conditionals and is balanced apart from that. -/
def Program.Closes : (depth : ℕ) → Program → Prop
  | 0, p => ∃ b : Block, p = b.flatten
  | depth + 1, p => ∃ (arms : Arms) (rest : Program), p = arms.flatten ++ rest ∧ Closes depth rest

def Arms.mapFirst (k : Block → Block) : Arms → Arms
  | .last body => .last (k body)
  | .more body rest => .more (k body) rest

theorem Arms.flatten_mapFirst {k : Block → Block} {q : Program}
    (hk : ∀ b, (k b).flatten = q ++ b.flatten) (arms : Arms) :
    (arms.mapFirst k).flatten = q ++ arms.flatten := by
  cases arms <;> simp only [mapFirst, flatten, hk, List.append_assoc]

namespace Program

variable {depth offset : ℕ} {p q rest : Program}

theorem Closes.prepend {k : Block → Block} (hk : ∀ b, (k b).flatten = q ++ b.flatten)
    (h : Closes depth p) : Closes depth (q ++ p) := by
  cases depth with
  | zero =>
    obtain ⟨b, rfl⟩ := h
    exact ⟨k b, (hk b).symm⟩
  | succ depth =>
    obtain ⟨arms, rest, rfl, h⟩ := h
    exact ⟨arms.mapFirst k, rest, by rw [Arms.flatten_mapFirst hk, List.append_assoc], h⟩

theorem Closes.opening {negated : Bool} (h : Closes (depth + 1) p) :
    Closes depth (.opening negated :: p) := by
  obtain ⟨arms, rest, rfl, h⟩ := h
  exact h.prepend (k := .branch negated arms) (q := .opening negated :: arms.flatten) fun b ↦ rfl

theorem Closes.otherwise (h : Closes (depth + 1) p) : Closes (depth + 1) (.otherwise :: p) := by
  obtain ⟨arms, rest, rfl, h⟩ := h
  exact ⟨.more .nil arms, rest, rfl, h⟩

theorem Closes.closing (h : Closes depth p) : Closes (depth + 1) (.closing :: p) :=
  ⟨.last .nil, p, rfl, h⟩

theorem closes_of_runFrom (hparsed : ∀ i ∈ rest, i.IsParsed)
    (h : program.runFrom env offset rest f = .ok g) (hg : g.branches = []) :
    Closes f.branches.length rest := by
  induction rest generalizing offset f with
  | nil =>
    cases h
    rw [hg]
    exact ⟨.nil, rfl⟩
  | cons i rest ih =>
    obtain ⟨a, ha, h⟩ := bind_eq_ok.1 h
    have hrest := ih (fun j hj ↦ hparsed j (List.mem_cons_of_mem i hj)) h
    have hi := hparsed i List.mem_cons_self
    have hturns := Instruction.turns_of_perform ha
    generalize f.branches = bs, a.branches = cs at hrest hturns
    cases hturns with
    | straight plain => exact hrest.prepend (k := .op i plain) (q := [i]) fun b ↦ rfl
    | opened negated v hop =>
      rw [hi.eq_of_op hop (by cases negated <;> rfl) rfl]
      exact hrest.opening
    | turned hop =>
      rw [hi.eq_of_op hop rfl rfl]
      exact hrest.otherwise
    | closed hop =>
      rw [hi.eq_of_op hop rfl rfl]
      exact hrest.closing

theorem exists_block_of_run {s : Script} {data left : Stack} (hs : ofScript s = .ok p)
    (h : p.run env data = .ok left) : ∃ b : Block, p = b.flatten := by
  obtain ⟨g, hg, h⟩ := bind_eq_ok.1 h
  obtain ⟨_, hclosed, _⟩ := bind_eq_ok.1 h
  have hempty : g.branches = [] := List.isEmpty_iff.1 (require_eq_ok.1 hclosed)
  exact closes_of_runFrom (fun i hi ↦ isParsed_of_ofScript hs hi) hg hempty

/-- The conditionals of a script are structured branching: the flat machine runs a block as the
tree says and leaves the open conditionals as they were, a script that runs to its end is a block,
and the two reserved conditionals fail. -/
theorem conditionals_structured (env : Environment) (program : Program) :
    (∀ (b : Block) (offset : ℕ) (f : Frame), f.running →
      program.runFrom env offset b.flatten f = b.eval env program offset f ∧
        ∀ g, program.runFrom env offset b.flatten f = .ok g → g.branches = f.branches) ∧
    (∀ (s : Script) (data left : Stack), ofScript s = .ok program →
      program.run env data = .ok left → ∃ b : Block, program = b.flatten) ∧
    ∀ (here : Place) (i : Instruction) (f g : Frame), i.op = 0x65 ∨ i.op = 0x66 →
      i.perform env here f ≠ .ok g := by
  refine ⟨fun b offset f hf ↦ ?_, fun s data left ↦ exists_block_of_run, fun here i f g hi ↦ ?_⟩
  · have heq : program.runFrom env offset b.flatten f = b.eval env program offset f :=
      b.runFrom_eq_eval offset f hf
    refine ⟨heq, fun g hg ↦ ?_⟩
    rw [heq] at hg
    exact (b.ignoresBranches_eval offset).branches_eq hg
  · exact Instruction.perform_reserved hi

theorem conditionals_structured_nested :
    let inner : Block := .branch true (.last .nil) .nil
    let b : Block := .op ⟨0x51, []⟩ rfl
      (.branch false (.more .nil (.more inner (.last (.op ⟨0x52, []⟩ rfl .nil)))) .nil)
    let s : Script := ⟨[0x51, 0x63, 0x67, 0x64, 0x68, 0x67, 0x52, 0x68]⟩
    let env : Environment := { flags := .standard }
    ofScript s = .ok b.flatten ∧ b.flatten.run env [] = .ok [[2]] ∧
      (∃ c : Block, b.flatten = c.flatten) ∧
      b.flatten.runFrom env 0 b.flatten (.start []) = b.eval env b.flatten 0 (.start []) := by
  intro inner b s env
  have hs : ofScript s = .ok b.flatten := by decide +kernel
  have hrun : b.flatten.run env [] = .ok [[2]] := by decide +kernel
  have h := conditionals_structured env b.flatten
  exact ⟨hs, hrun, h.2.1 s [] [[2]] hs hrun, (h.1 b 0 (.start []) rfl).1⟩

end Program

end BitcoinCash
