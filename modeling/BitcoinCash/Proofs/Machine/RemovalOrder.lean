import BitcoinCash.Proofs.Machine.PayToMultiSig
import BitcoinCash.Proofs.Machine.ScriptCode
import BitcoinCash.Proofs.Script.Removal

namespace BitcoinCash

open Fallible (bind_eq_ok ok_bind pure_eq_ok)
open Script (Keeps)

variable {env : Environment} {here : Place} {f g : Frame} {s code : Script} {cs : List Chunk}

theorem Place.exists_chunks_of_code (hs : Program.ofScript s = .ok here.program)
    (h : here.code f = .ok code) : ∃ cs, code.chunks = .ok cs := by
  obtain ⟨xs, -, hcut⟩ := Program.Cut.exists_of_ofScript hs
  have hstart : f.codeStart ≤ here.program.length := by
    by_contra hlt
    rw [Place.code, if_neg hlt] at h
    cases h
  rw [code_eq hcut hstart] at h
  cases h
  obtain ⟨cs, hcs, -⟩ := hcut.drop f.codeStart
  exact ⟨cs, Chunk.decode_flatten hcs⟩

theorem Environment.keeps_scriptStep {f : Script → Except ScriptError Script} {p : Chunk → Bool}
    (hf : Keeps f p) : Keeps (fun s ↦ scriptStep (f s)) p := by
  intro s cs hs
  obtain ⟨t, ht, hct⟩ := hf s cs hs
  exact ⟨t, congrArg scriptStep ht, hct⟩

namespace SignatureCheck

variable {sig : Bytes} {sigs sigs' : List Bytes} {b : Ballot} {p : Chunk → Bool}

def strip (env : Environment) (sig : Bytes) (code : Script) : Run Script :=
  if env.usesForkId sig then pure code else Environment.scriptStep (code.removePushes sig)

theorem stripAll_cons :
    stripAll env code (sig :: sigs) = strip env sig code >>= (stripAll env · sigs) := by
  rw [stripAll, strip]
  split <;> rfl

/-- A signature is too long to be pushed, or its pushes are removed from any script. -/
theorem strip_cases (env : Environment) (sig : Bytes) :
    (∀ code, strip env sig code = reject (.scriptCode .dataTooBig)) ∨
      ∃ p, Keeps (strip env sig) p := by
  unfold strip
  split
  next => exact .inr ⟨_, Keeps.pure⟩
  next =>
    by_cases hlen : sig.length < 2 ^ 32
    · obtain ⟨header, -, hkeeps⟩ := Script.keeps_removePushes hlen
      exact .inr ⟨_, Environment.keeps_scriptStep hkeeps⟩
    · refine .inl fun code ↦ ?_
      rw [Script.removePushes, Push.header_eq_error hlen]
      rfl

theorem strip_comm (hs : code.chunks = .ok cs) (x y : Bytes) :
    (strip env x code >>= strip env y) = (strip env y code >>= strip env x) := by
  -- a signature that is too long fails after the other one as it does before
  have fails {x y : Bytes} {p : Chunk → Bool} (hx : Keeps (strip env x) p)
      (hy : ∀ code, strip env y code = reject (.scriptCode .dataTooBig)) :
      (strip env x code >>= strip env y) = (strip env y code >>= strip env x) := by
    obtain ⟨t, ht, -⟩ := hx code cs hs
    rw [ht, ok_bind, hy, hy]
    rfl
  rcases strip_cases env x with hx | ⟨p, hx⟩ <;> rcases strip_cases env y with hy | ⟨q, hy⟩
  · rw [hx, hy]
    rfl
  · exact (fails hy hx).symm
  · exact fails hx hy
  · exact hx.comm hy hs

theorem stripAll_perm (hs : code.chunks = .ok cs) (h : sigs.Perm sigs') :
    stripAll env code sigs = stripAll env code sigs' := by
  induction h generalizing code cs with
  | nil => rfl
  | cons x _ ih =>
    rw [stripAll_cons, stripAll_cons]
    rcases strip_cases env x with hfail | ⟨p, hkeeps⟩
    · rw [hfail]
      rfl
    · obtain ⟨t, ht, hct⟩ := hkeeps code cs hs
      rw [ht, ok_bind, ok_bind, ih hct]
  | swap x y l =>
    simp only [stripAll_cons, ← bind_assoc]
    rw [strip_comm hs]
  | trans _ _ ih ih' => exact (ih hs).trans (ih' hs)

theorem limits_of_ballot (h : ballot env here f = .ok (b, g)) :
    b.signatures.length ≤ b.keys.length ∧ b.keys.length ≤ env.limits.publicKeys ∧
      f.opCount + b.keys.length ≤ env.limits.ops := by
  simp only [ballot, bind_eq_ok, pure_eq_ok, require_eq_ok, Prod.mk.injEq] at h
  obtain ⟨n, -, _, ⟨hn0, hnkeys⟩, _, hops, m, -, _, ⟨hm0, hmn⟩, keys, hk, sigs, hs, code, -, base,
    -, rfl, rfl⟩ := h
  obtain ⟨-, hkeys⟩ := drop_of_peekRange hk
  obtain ⟨-, hsigs⟩ := drop_of_peekRange hs
  dsimp only
  omega

/-- A ballot is read with its signatures in any order, and the script code prepared for it is the
same. -/
theorem ballot_perm (hs : Program.ofScript s = .ok here.program)
    (h : ballot env here f = .ok (b, g)) (hsigs : sigs.Perm b.signatures) :
    ∃ n m below, f.data = n :: b.keys ++ m :: b.signatures ++ below ∧
      ballot env here (f.withData (n :: b.keys ++ m :: sigs ++ below)) =
        .ok ({ b with signatures := sigs }, g.withData (n :: b.keys ++ m :: sigs ++ below)) := by
  obtain ⟨⟨⟨n, m, hdata, hn, hm⟩, code, hcode, hbase⟩, rfl⟩ := ballot_spec h
  obtain ⟨hle, hkeys, hops⟩ := limits_of_ballot h
  obtain ⟨cs, hcs⟩ := Place.exists_chunks_of_code hs hcode
  refine ⟨n, m, _, hdata, ?_⟩
  have hlen : sigs.length = b.signatures.length := hsigs.length_eq
  refine ballot_of_readFrom (b := { b with signatures := sigs })
    ⟨⟨n, m, rfl, hn, ?_⟩, code, hcode, ?_⟩ (hlen ▸ hle) hkeys hops
  · rw [hm, hlen]
  · rw [stripAll_perm hcs hsigs, hbase]

end SignatureCheck

/-- Pushes of strings and code separators can be removed from a script that has chunks, in any order
and more than once, with the same outcome. The script code that is prepared for a check of several
signatures in a script does not depend on their order. -/
theorem removals_commute (hs : s.chunks = .ok cs) :
    (∀ r r' : Script.Removal, r.Fits → r'.Fits → ∃ a b c, r.apply s = .ok a ∧ r'.apply s = .ok b ∧
      r'.apply a = .ok c ∧ r.apply b = .ok c ∧ r.apply a = .ok a) ∧
    ∀ (env : Environment) (here : Place) (f g : Frame) (b : SignatureCheck.Ballot)
      (sigs : List Bytes), Program.ofScript s = .ok here.program →
      SignatureCheck.ballot env here f = .ok (b, g) → sigs.Perm b.signatures →
      ∃ n m below, f.data = n :: b.keys ++ m :: b.signatures ++ below ∧
        SignatureCheck.ballot env here (f.withData (n :: b.keys ++ m :: sigs ++ below)) =
          .ok ({ b with signatures := sigs }, g.withData (n :: b.keys ++ m :: sigs ++ below)) := by
  refine ⟨?_, fun _ _ _ _ _ _ ↦ SignatureCheck.ballot_perm⟩
  intro r r' hr hr'
  obtain ⟨p, hp⟩ := Script.Removal.exists_keeps hr
  obtain ⟨q, hq⟩ := Script.Removal.exists_keeps hr'
  obtain ⟨a, ha, hca⟩ := hp s cs hs
  obtain ⟨b, hb, -⟩ := hq s cs hs
  obtain ⟨c, hc, -⟩ := hq a _ hca
  have hcomm := hp.comm hq hs
  have hidem := hp.idem hs
  rw [ha, hb, ok_bind, ok_bind] at hcomm
  rw [ha, ok_bind] at hidem
  exact ⟨a, b, c, ha, hb, hc, hcomm ▸ hc, hidem⟩

theorem removals_commute_two_signatures :
    let s : Script := ⟨[2, 0xaa, 0xab, 0xab, 2, 0x01, 0xbb, 1, 0xbb, 0xae]⟩
    let program : Program :=
      [⟨2, [0xaa, 0xab]⟩, ⟨0xab, []⟩, ⟨2, [0x01, 0xbb]⟩, ⟨1, [0xbb]⟩, ⟨0xae, []⟩]
    let env : Environment := { flags := .none }
    let frame (sigs : List Bytes) : Frame := .start ([2] :: [7] :: [8] :: [2] :: sigs ++ [[]])
    let outcome (sigs : List Bytes) :=
      ((⟨[[7], [8]], sigs, ⟨[0xab, 1, 0xbb, 0xae]⟩⟩ : SignatureCheck.Ballot),
        { frame sigs with opCount := 2 })
    s.chunks = .ok [⟨2, some [0xaa, 0xab]⟩, ⟨0xab, none⟩, ⟨2, some [0x01, 0xbb]⟩, ⟨1, some [0xbb]⟩,
        ⟨0xae, none⟩] ∧
      (∃ a b c, s.removePushes [0xaa, 0xab] = .ok a ∧ s.removeCodeSeparators = .ok b ∧
        a.removeCodeSeparators = .ok c ∧ b.removePushes [0xaa, 0xab] = .ok c ∧
        a.removePushes [0xaa, 0xab] = .ok a) ∧
      Program.ofScript s = .ok program ∧
      SignatureCheck.ballot env ⟨program, 4⟩ (frame [[0xaa, 0xab], [0x01, 0xbb]]) =
        .ok (outcome [[0xaa, 0xab], [0x01, 0xbb]]) ∧
      SignatureCheck.ballot env ⟨program, 4⟩ (frame [[0x01, 0xbb], [0xaa, 0xab]]) =
        .ok (outcome [[0x01, 0xbb], [0xaa, 0xab]]) := by
  intro s program env frame outcome
  have hs : s.chunks = .ok [⟨2, some [0xaa, 0xab]⟩, ⟨0xab, none⟩, ⟨2, some [0x01, 0xbb]⟩,
      ⟨1, some [0xbb]⟩, ⟨0xae, none⟩] := by decide +kernel
  have hprogram : Program.ofScript s = .ok program := by decide +kernel
  have hballot : SignatureCheck.ballot env ⟨program, 4⟩ (frame [[0xaa, 0xab], [0x01, 0xbb]]) =
      .ok (outcome [[0xaa, 0xab], [0x01, 0xbb]]) := by decide +kernel
  obtain ⟨hpairs, hsignatures⟩ := removals_commute hs
  have hpair := hpairs (.pushes [0xaa, 0xab]) .codeSeparators
    (show 2 < 2 ^ 32 by decide) trivial
  obtain ⟨n, m, below, hdata, hperm⟩ :=
    hsignatures env ⟨program, 4⟩ _ _ _ [[0x01, 0xbb], [0xaa, 0xab]] hprogram hballot (.swap _ _ _)
  obtain ⟨rfl, rfl, rfl⟩ : [2] = n ∧ [2] = m ∧ [[]] = below := by
    simpa [frame, Frame.start] using hdata
  exact ⟨hs, hpair, hprogram, hballot, hperm⟩

end BitcoinCash
