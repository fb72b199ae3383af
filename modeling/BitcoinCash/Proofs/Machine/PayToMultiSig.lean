import BitcoinCash.Proofs.Key.Encoding
import BitcoinCash.Proofs.Machine.Encoding
import BitcoinCash.Proofs.Machine.Number
import BitcoinCash.Proofs.Machine.PayToScriptHash
import BitcoinCash.Proofs.Machine.Program
import BitcoinCash.Proofs.Machine.SingleSig

namespace BitcoinCash

open List (SublistForall₂)
open Fallible (bind_eq_ok ok_bind pure_eq_ok)

variable {env : Environment}

namespace SignatureCheck

variable {base code : Script} {keys sigs : List Bytes} {here : Place} {f : Frame} {s rest : Stack}
  {depth : ℕ}

/-- Under the replay-protected digest an attempt fails for want of an encoding only. -/
theorem exists_attempt {ctx : Context} {sig key : Bytes} (hctx : env.context = some ctx)
    (hforkId : env.usesForkId sig) (hsig : Encoding.checkSignature env.flags sig = .ok ())
    (hkey : Encoding.checkKey env.flags key = .ok ()) :
    ∃ valid, attempt env base sig key = .ok valid := by
  have hcode : env.codeFor base sig = .ok base := if_pos hforkId
  simp only [attempt, hsig, hkey, hcode, ok_bind]
  split
  · exact ⟨false, rfl⟩
  · unfold Environment.ask
    rw [hctx]
    dsimp only
    split <;> exact ⟨_, rfl⟩

theorem exists_matchKeys (hlen : sigs.length ≤ keys.length)
    (h : ∀ sig ∈ sigs, ∀ key ∈ keys, ∃ valid, attempt env base sig key = .ok valid) :
    ∃ valid, matchKeys env base keys sigs = .ok valid := by
  induction keys generalizing sigs with
  | nil =>
    obtain rfl := List.length_eq_zero_iff.1 (Nat.le_zero.1 hlen)
    exact ⟨true, rfl⟩
  | cons key keys ih =>
    cases sigs with
    | nil => exact ⟨true, rfl⟩
    | cons sig sigs =>
      obtain ⟨valid, hvalid⟩ := h sig (.head _) key (.head _)
      have hleft : (if valid then sigs else sig :: sigs) ⊆ sig :: sigs := by
        split
        · exact List.subset_cons_self sig sigs
        · exact List.Subset.refl _
      rw [matchKeys_cons, hvalid, ok_bind]
      dsimp only
      generalize (if valid then sigs else sig :: sigs) = left at hleft ⊢
      split
      next => exact ⟨false, rfl⟩
      next hle =>
        exact ih (Nat.not_lt.1 hle) fun x hx y hy ↦ h x (hleft hx) y (.tail _ hy)

/-- The keys of the signers stand in order among all keys; both are read from the last on. -/
theorem matchKeys_reverse {ctx : Context} {signed : List Bytes} (hctx : env.context = some ctx)
    (hforkId : ∀ sig ∈ sigs, env.usesForkId sig)
    (hkeys : ∀ key ∈ keys, Encoding.checkKey env.flags key = .ok ())
    (hsub : signed.Sublist keys)
    (h : List.Forall₂ (fun sig key ↦ attempt env base sig key = .ok true) sigs signed) :
    matchKeys env base keys.reverse sigs.reverse = .ok true := by
  have haccepts : SublistForall₂ (Accepts env base) sigs.reverse keys.reverse := by
    refine List.sublistForall₂_iff.2 ⟨signed.reverse, List.forall₂_reverse_iff.2 ?_, hsub.reverse⟩
    exact h.imp fun sig key hvalid ↦ (attempt_eq_ok_true.1 hvalid).2.2
  have hsigs : ∀ sig ∈ sigs, Encoding.checkSignature env.flags sig = .ok () :=
    ((List.forall₂_and_left sigs signed).1 <|
      h.imp fun sig key hvalid ↦ ⟨(attempt_eq_ok_true.1 hvalid).1, hvalid⟩).1
  obtain ⟨valid, hvalid⟩ : ∃ valid, matchKeys env base keys.reverse sigs.reverse = .ok valid := by
    refine exists_matchKeys (length_le_of_sublistForall₂ haccepts) fun sig hsig key hkey ↦ ?_
    rw [List.mem_reverse] at hsig hkey
    exact exists_attempt hctx (hforkId sig hsig) (hsigs sig hsig) (hkeys key hkey)
  rw [hvalid, (matchKeys_spec hvalid).2 haccepts]

theorem stripAll_of_usesForkId (h : ∀ sig ∈ sigs, env.usesForkId sig) :
    stripAll env code sigs = .ok code := by
  induction sigs with
  | nil => rfl
  | cons sig sigs ih =>
    rw [stripAll, if_pos (h sig (.head _))]
    exact ih fun x hx ↦ h x (.tail _ hx)

theorem peek_of_drop {x : Bytes} (h : s.drop depth = x :: rest) : s.peek depth = .ok x := by
  rw [Stack.peek_eq_ok, ← List.head?_drop, h]
  rfl

theorem peekRange_of_drop {xs : List Bytes} (h : s.drop depth = xs ++ rest) :
    peekRange s depth xs.length = .ok xs := by
  induction xs generalizing depth with
  | nil => rfl
  | cons x xs ih =>
    have htail : s.drop (depth + 1) = xs ++ rest := by
      rw [← List.tail_drop, h]
      rfl
    rw [List.length_cons, peekRange, peek_of_drop h, ok_bind, ih htail]
    rfl

theorem ballot_of_readFrom {b : Ballot} {below : Stack} (h : b.ReadFrom env here f below)
    (hle : b.signatures.length ≤ b.keys.length) (hkeys : b.keys.length ≤ env.limits.publicKeys)
    (hops : f.opCount + b.keys.length ≤ env.limits.ops) :
    ballot env here f = .ok (b, { f with opCount := f.opCount + b.keys.length }) := by
  obtain ⟨⟨n, m, hdata, hn, hm⟩, code, hcode, hbase⟩ := h
  obtain ⟨keys, sigs, base⟩ := b
  dsimp only at *
  have hfrom : f.data.drop 1 = keys ++ m :: (sigs ++ below) := by
    rw [hdata]
    simp
  have hafter : f.data.drop (1 + keys.length) = m :: (sigs ++ below) := by
    rw [← List.drop_drop, hfrom, List.drop_left]
  have hbelow : f.data.drop (2 + keys.length) = sigs ++ below := by
    rw [Nat.add_right_comm 1 1, ← List.tail_drop, hafter]
    rfl
  have hkeyCount : f.data.peekNumber env.numbers 0 = .ok (keys.length : ℤ) :=
    bind_eq_ok.2 ⟨n, by rw [hdata]; rfl, hn⟩
  have hsigCount : f.data.peekNumber env.numbers (1 + keys.length) = .ok (sigs.length : ℤ) :=
    bind_eq_ok.2 ⟨m, peek_of_drop hafter, hm⟩
  rw [ballot, hkeyCount, ok_bind]
  refine bind_eq_ok.2 ⟨(), require_eq_ok.2 ⟨by omega, by omega⟩, ?_⟩
  rw [Int.toNat_natCast]
  refine bind_eq_ok.2 ⟨(), require_eq_ok.2 hops, ?_⟩
  rw [hsigCount, ok_bind]
  refine bind_eq_ok.2 ⟨(), require_eq_ok.2 ⟨by omega, by omega⟩, ?_⟩
  rw [Int.toNat_natCast, peekRange_of_drop hfrom, ok_bind, peekRange_of_drop hbelow, ok_bind]
  exact bind_eq_ok.2 ⟨code, hcode, bind_eq_ok.2 ⟨base, hbase, rfl⟩⟩

theorem checkMany_of_readFrom {b : Ballot} (h : b.ReadFrom env here f ([] :: rest))
    (hle : b.signatures.length ≤ b.keys.length) (hkeys : b.keys.length ≤ env.limits.publicKeys)
    (hops : f.opCount + b.keys.length ≤ env.limits.ops)
    (hmatch : matchKeys env b.base b.keys b.signatures = .ok true) :
    checkMany env here f =
      .ok { f with data := [1] :: rest, opCount := f.opCount + b.keys.length } := by
  obtain ⟨⟨n, m, hdata, -, -⟩, -⟩ := id h
  rw [checkMany_eq, ballot_of_readFrom h hle hkeys hops, ok_bind]
  dsimp only
  rw [hmatch, ok_bind]
  have hdrop : f.data.dropTop (2 + b.keys.length + b.signatures.length) = .ok ([] :: rest) := by
    have hlength : (n :: b.keys ++ m :: b.signatures).length =
        2 + b.keys.length + b.signatures.length := by
      simp only [List.length_append, List.length_cons]
      omega
    rw [Stack.dropTop, hdata, ← hlength, Stack.need_of_le (by simp), ok_bind, List.drop_left]
    rfl
  refine bind_eq_ok.2 ⟨(), require_eq_ok.2 (.inl rfl), ?_⟩
  rw [hdrop, ok_bind, Stack.pop, ok_bind]
  exact bind_eq_ok.2 ⟨(), require_eq_ok.2 (.inr rfl), rfl⟩

end SignatureCheck

open Instruction in
theorem Instruction.perform_checkMultiSig {here : Place} {script : Script} {keys sigs : List Bytes}
    (hlim : env.limits = {})
    (hcode : here.code (.after 1 (Number.encode keys.length :: keys ++
      Number.encode sigs.length :: sigs ++ [[]])) = .ok script)
    (hle : sigs.length ≤ keys.length) (hmax : keys.length ≤ 20)
    (hforkId : ∀ sig ∈ sigs, env.usesForkId sig)
    (hmatch : SignatureCheck.matchKeys env script keys sigs = .ok true) :
    perform env here ⟨Opcode.checkMultiSig, []⟩
        (.start (Number.encode keys.length :: keys ++ Number.encode sigs.length :: sigs ++ [[]])) =
      .ok (.after (1 + keys.length) [[1]]) := by
  have hcount {k : ℕ} (hk : k ≤ 20) : Number.decode env.numbers (Number.encode k) = .ok k := by
    refine Number.decode_encode (k := 1) (by omega) ?_ (by decide)
    rw [Environment.numbers, hlim]
    exact (by decide : 1 ≤ 4)
  have hread : SignatureCheck.Ballot.ReadFrom env here
      (.after 1 (Number.encode keys.length :: keys ++ Number.encode sigs.length :: sigs ++ [[]]))
      ⟨keys, sigs, script⟩ [[]] :=
    { data_eq := ⟨_, _, rfl, hcount hmax, hcount (hle.trans hmax)⟩
      base_eq := ⟨script, hcode, SignatureCheck.stripAll_of_usesForkId hforkId⟩ }
  have hcheck : SignatureCheck.checkMany env here _ = .ok (.after (1 + keys.length) [[1]]) :=
    SignatureCheck.checkMany_of_readFrom hread hle (by rw [hlim]; exact hmax)
      (by rw [hlim]; exact Nat.le_trans (Nat.add_le_add_left hmax 1) (by decide)) hmatch
  refine (perform_counted_eq_ok (by decide) rfl).2 ⟨Nat.zero_le _, ?_, rfl, ?_, ?_⟩
  · rw [hlim]
    exact (by decide : 0 < 201)
  · exact bind_eq_ok.2 ⟨_, hcheck, rfl⟩
  · rw [hlim]
    exact (by decide : 1 ≤ 1000)

namespace Lock

variable {ds keys sigs : List Bytes} {b : Bytes} {required : ℕ} {pubs : List PublicKey}
  {script : Script}

theorem pushes_cons_eq_ok {d : Bytes} :
    pushes (d :: ds) = .ok b ↔ ∃ x y, Push.data d = .ok x ∧ pushes ds = .ok y ∧ x ++ y = b := by
  simp only [pushes, bind_eq_ok, pure_eq_ok, exists_and_left]

theorem exists_pushes (h : ∀ d ∈ ds, d.length ≤ 520) : ∃ b, pushes ds = .ok b := by
  induction ds with
  | nil => exact ⟨[], rfl⟩
  | cons d ds ih =>
    obtain ⟨hd, hds⟩ := List.forall_mem_cons.1 h
    obtain ⟨x, hx⟩ := Push.data_eq_ok (Nat.lt_of_le_of_lt hd (by decide))
    obtain ⟨y, hy⟩ := ih hds
    exact ⟨x ++ y, pushes_cons_eq_ok.2 ⟨x, y, hx, hy, rfl⟩⟩

theorem length_pushes_le {k : ℕ} (h75 : k ≤ 75) (h : pushes ds = .ok b)
    (hk : ∀ d ∈ ds, d.length ≤ k) : b.length ≤ ds.length * (k + 1) := by
  induction ds generalizing b with
  | nil =>
    cases h
    exact Nat.zero_le _
  | cons d ds ih =>
    obtain ⟨hd, hds⟩ := List.forall_mem_cons.1 hk
    obtain ⟨x, y, hx, hy, rfl⟩ := pushes_cons_eq_ok.1 h
    have hx := Push.length_data_of_length_le (hd.trans h75) hx
    have hy := ih hy hds
    rw [List.length_append, List.length_cons, Nat.succ_mul]
    omega

theorem ofScript_pushes (h : pushes ds = .ok b) (h2 : ∀ d ∈ ds, 2 ≤ d.length) :
    Program.ofScript ⟨b⟩ = .ok (ds.map Instruction.pushing) := by
  induction ds generalizing b with
  | nil =>
    cases h
    rw [Program.ofScript_eq_ok]
    exact ⟨[], Chunk.decode_nil, rfl⟩
  | cons d ds ih =>
    obtain ⟨hd, hds⟩ := List.forall_mem_cons.1 h2
    obtain ⟨x, y, hx, hy, rfl⟩ := pushes_cons_eq_ok.1 h
    rw [← Push.minimal_eq_data hd] at hx
    exact Program.ofScript_append (Program.ofScript_minimal hx) (ih hy hds)

def multisigProgram (required : ℕ) (keys : List Bytes) : Program :=
  (Number.encode required :: (keys ++ [Number.encode keys.length])).map Instruction.pushing ++
    [⟨Opcode.checkMultiSig, []⟩]

theorem multisigScript_eq_ok :
    multisigScript required pubs = .ok script ↔ ∃ m ks n,
      Push.minimal (Number.encode required) = .ok m ∧ pushes (pubs.map PublicKey.toBytes) = .ok ks ∧
      Push.minimal (Number.encode pubs.length) = .ok n ∧
      ⟨m ++ ks ++ n ++ [Opcode.checkMultiSig]⟩ = script := by
  simp only [multisigScript, bind_eq_ok, pure_eq_ok, exists_and_left]

theorem multisig_eq_ok :
    multisig required pubs = .ok script ↔
      (pubs.length ≤ 20 ∧ 1 ≤ required ∧ required ≤ pubs.length) ∧
        multisigScript required pubs = .ok script := by
  constructor
  · intro h
    unfold multisig at h
    split at h
    next => cases h
    next hkeys =>
      split at h
      next => cases h
      next hrequired =>
        simp only [not_or, maxKeys] at hkeys hrequired
        split at h
        next hscript =>
          cases h
          exact ⟨⟨by omega, by omega, by omega⟩, hscript⟩
        next => cases h
  · rintro ⟨⟨hmax, hpos, hle⟩, hscript⟩
    have hkeys : ¬ (pubs.isEmpty ∨ maxKeys < pubs.length) := by
      rw [not_or, List.isEmpty_iff_length_eq_zero, maxKeys]
      omega
    have hrequired : ¬ (required = 0 ∨ pubs.length < required) := by omega
    rw [multisig, if_neg hkeys, if_neg hrequired, hscript]

theorem length_of_mem_keys {d : Bytes} (hd : d ∈ pubs.map PublicKey.toBytes) :
    d.length = 33 ∨ d.length = 65 := by
  obtain ⟨pub, -, rfl⟩ := List.mem_map.1 hd
  exact pub.length_toBytes

theorem length_count_le {k : ℕ} (hk : k ≤ 20) : (Number.encode k).length ≤ 1 :=
  Number.length_encode_le (by omega)

theorem exists_multisig (hmax : pubs.length ≤ 20) (hpos : 1 ≤ required)
    (hle : required ≤ pubs.length) : ∃ script, multisig required pubs = .ok script := by
  have hcount {k : ℕ} (hk : k ≤ 20) : ∃ b, Push.minimal (Number.encode k) = .ok b :=
    Push.minimal_eq_ok (Nat.lt_of_le_of_lt (length_count_le hk) (by decide))
  obtain ⟨m, hm⟩ := hcount (hle.trans hmax)
  obtain ⟨n, hn⟩ := hcount hmax
  obtain ⟨ks, hks⟩ : ∃ ks, pushes (pubs.map PublicKey.toBytes) = .ok ks := by
    refine exists_pushes fun d hd ↦ ?_
    have hlength := length_of_mem_keys hd
    omega
  exact ⟨_, multisig_eq_ok.2 ⟨⟨hmax, hpos, hle⟩, multisigScript_eq_ok.2
    ⟨m, ks, n, hm, hks, hn, rfl⟩⟩⟩

section Script

variable (h : multisig required pubs = .ok script)
include h

theorem ofScript_multisig :
    Program.ofScript script = .ok (multisigProgram required (pubs.map PublicKey.toBytes)) := by
  obtain ⟨-, h⟩ := multisig_eq_ok.1 h
  obtain ⟨m, ks, n, hm, hks, hn, rfl⟩ := multisigScript_eq_ok.1 h
  have hkeys : ∀ d ∈ pubs.map PublicKey.toBytes, 2 ≤ d.length := by
    intro d hd
    have hlength := length_of_mem_keys hd
    omega
  have hcheck : Chunk.decode [Opcode.checkMultiSig] = .ok [⟨Opcode.checkMultiSig, none⟩] :=
    Chunk.decode_bare rfl
  have hlast : Program.ofScript ⟨[Opcode.checkMultiSig]⟩ = .ok [⟨Opcode.checkMultiSig, []⟩] :=
    Program.ofScript_eq_ok.2 ⟨_, hcheck, rfl⟩
  have hall := Program.ofScript_append (Program.ofScript_append (Program.ofScript_append
    (Program.ofScript_minimal hm) (ofScript_pushes hks hkeys)) (Program.ofScript_minimal hn)) hlast
  refine Eq.trans hall ?_
  simp [multisigProgram]

theorem length_multisig_le : script.length ≤ 1500 := by
  obtain ⟨⟨hmax, -, hle⟩, h⟩ := multisig_eq_ok.1 h
  obtain ⟨m, ks, n, hm, hks, hn, rfl⟩ := multisigScript_eq_ok.1 h
  have hm := (Push.length_minimal_le hm).trans
    (Nat.add_le_add_right (length_count_le (hle.trans hmax)) 5)
  have hn := (Push.length_minimal_le hn).trans (Nat.add_le_add_right (length_count_le hmax) 5)
  have hks : ks.length ≤ pubs.length * (65 + 1) := by
    have hlength : (pubs.map PublicKey.toBytes).length = pubs.length := List.length_map _
    rw [← hlength]
    refine length_pushes_le (by decide) hks fun d hd ↦ ?_
    have hlength := length_of_mem_keys hd
    omega
  simp only [Script.length, List.length_append, List.length_singleton]
  omega

theorem minimal_multisig : Push.minimal script.bytes = Push.data script.bytes := by
  obtain ⟨-, h⟩ := multisig_eq_ok.1 h
  obtain ⟨m, ks, n, -, -, -, rfl⟩ := multisigScript_eq_ok.1 h
  have hnone : Push.opcode? (m ++ ks ++ n ++ [Opcode.checkMultiSig]) = none := by
    cases m ++ ks ++ n with
    | nil => rfl
    | cons x b => exact Push.opcode?_eq_none (by simp)
  rw [Push.minimal, hnone]

theorem isP2sh_multisig : script.isP2sh = false := by
  obtain ⟨-, h⟩ := multisig_eq_ok.1 h
  obtain ⟨m, ks, n, -, -, -, rfl⟩ := multisigScript_eq_ok.1 h
  rw [Script.isP2sh, Bool.and_eq_false_iff, Bool.and_eq_false_iff, decide_eq_false_iff_not,
    decide_eq_false_iff_not, decide_eq_false_iff_not]
  by_cases hlen : (m ++ ks ++ n).length = 22
  · right
    rw [← hlen, List.drop_left]
    decide
  · left
    left
    rw [List.length_append, List.length_singleton]
    omega

theorem passes_multisig (hlim : env.limits = {}) (hsigs : sigs.length = required)
    (hforkId : ∀ sig ∈ sigs, env.usesForkId sig)
    (hmatch : SignatureCheck.matchKeys env script (pubs.map PublicKey.toBytes).reverse
      sigs.reverse = .ok true) :
    (multisigProgram required (pubs.map PublicKey.toBytes)).Passes env (sigs.reverse ++ [[]])
      [[1]] := by
  obtain ⟨⟨hmax, -, hle⟩, -⟩ := multisig_eq_ok.1 h
  have hscript := Program.toScript_of_ofScript (ofScript_multisig h)
  have hlength : (pubs.map PublicKey.toBytes).length = pubs.length := List.length_map _
  have hkeys : ∀ d ∈ pubs.map PublicKey.toBytes, d.length ≤ 520 := by
    intro d hd
    have hlength := length_of_mem_keys hd
    omega
  generalize pubs.map PublicKey.toBytes = keys at *
  rw [← hlength] at hmax hle
  let xs := Number.encode required :: (keys ++ [Number.encode keys.length])
  have hpushes : Program.run env (xs.map Instruction.pushing) (sigs.reverse ++ [[]]) =
      .ok (xs.reverse ++ (sigs.reverse ++ [[]])) := by
    rw [Program.run_map_pushing]
    · simp only [xs, hlim, List.length_cons, List.length_append, List.length_reverse,
        List.length_nil]
      omega
    · have hm := length_count_le (hle.trans hmax)
      have hn := length_count_le hmax
      simp only [xs, hlim, List.forall_mem_cons, List.forall_mem_append, List.not_mem_nil]
      exact ⟨by omega, hkeys, by omega, nofun⟩
  have hdata : xs.reverse ++ (sigs.reverse ++ [[]]) =
      Number.encode keys.reverse.length :: keys.reverse ++
        Number.encode sigs.reverse.length :: sigs.reverse ++ [[]] := by
    simp [xs, hsigs]
  rw [hdata] at hpushes
  have hpushOnly := Program.isPushOnly_map_pushing xs
  have hfrom := Program.runFrom_pushOnly hpushOnly
    ((Program.run_pushOnly_eq_ok hpushOnly).1 hpushes) (multisigProgram required keys) 0
  refine ⟨bind_eq_ok.2 ⟨.after (1 + keys.reverse.length) [[1]], ?_, rfl⟩, rfl⟩
  refine (Program.runFrom_append (xs.map Instruction.pushing) [⟨Opcode.checkMultiSig, []⟩]).trans ?_
  refine bind_eq_ok.2 ⟨_, hfrom.1, bind_eq_ok.2 ⟨_, ?_, rfl⟩⟩
  refine Instruction.perform_checkMultiSig hlim ?_ (by simpa [hsigs] using hle) (by simpa using hmax)
    (fun sig hsig ↦ hforkId sig (List.mem_reverse.1 hsig)) hmatch
  exact (if_pos (Nat.zero_le _)).trans hscript

end Script

end Lock

section Spends

variable {ctx : Context} {script : Script} {pubs : List PublicKey} {sigs signed : List Bytes}
  {a push : Bytes}

/-- As many signatures as the script asks for, each valid for its key in `signed`; these keys stand
in order among all keys. -/
structure MultiSigned (env : Environment) (script : Script) (pubs : List PublicKey)
    (sigs signed : List Bytes) : Prop where
  lock_eq : Lock.multisig sigs.length pubs = .ok script
  length : ∀ sig ∈ sigs, 2 ≤ sig.length ∧ sig.length ≤ 73
  usesForkId : ∀ sig ∈ sigs, env.usesForkId sig
  sublist : signed.Sublist (pubs.map PublicKey.toBytes)
  attempts : List.Forall₂ (fun sig key ↦ SignatureCheck.attempt env script sig key = .ok true)
    sigs signed

namespace MultiSigned

variable (h : MultiSigned env script pubs sigs signed)
include h

theorem length_le : sigs.length ≤ 20 := by
  obtain ⟨⟨hmax, -, hle⟩, -⟩ := Lock.multisig_eq_ok.1 h.lock_eq
  exact hle.trans hmax

theorem ofScript_unlocking (ha : Lock.pushes sigs = .ok a) :
    Program.ofScript ⟨0 :: a⟩ = .ok (([] :: sigs).map Instruction.pushing) := by
  have hnull : Program.ofScript ⟨[0]⟩ = .ok [Instruction.pushing []] := Program.ofScript_minimal rfl
  exact Program.ofScript_append hnull (Lock.ofScript_pushes ha fun sig hsig ↦ (h.length sig hsig).1)

theorem length_unlocking_le (ha : Lock.pushes sigs = .ok a) :
    (⟨0 :: a⟩ : Script).length ≤ 1561 := by
  have hlength := Lock.length_pushes_le (by decide) ha fun sig hsig ↦ (h.length sig hsig).2
  have hmax := h.length_le
  rw [Script.length, List.length_cons]
  omega

theorem authorizes (hlim : env.limits = {}) (hctx : env.context = some ctx) :
    Program.Authorizes env (([] :: sigs).map Instruction.pushing) script := by
  have hmax := h.length_le
  have hpushes : Program.run env (([] :: sigs).map Instruction.pushing) [] =
      .ok (sigs.reverse ++ [[]]) := by
    rw [Program.run_map_pushing]
    · simp
    · simp only [hlim, List.length_cons, List.length_nil]
      omega
    · rw [hlim, List.forall_mem_cons]
      exact ⟨Nat.zero_le _, fun sig hsig ↦ (h.length sig hsig).2.trans (by decide)⟩
  have hkeys : ∀ key ∈ pubs.map PublicKey.toBytes, Encoding.checkKey env.flags key = .ok () := by
    intro key hkey
    obtain ⟨pub, -, rfl⟩ := List.mem_map.1 hkey
    exact Encoding.checkKey_toBytes pub
  have hmatch : SignatureCheck.matchKeys env script (pubs.map PublicKey.toBytes).reverse
      sigs.reverse = .ok true :=
    SignatureCheck.matchKeys_reverse hctx h.usesForkId hkeys h.sublist h.attempts
  exact ⟨_, _, [[1]], hpushes, Lock.ofScript_multisig h.lock_eq,
    Lock.passes_multisig h.lock_eq hlim rfl h.usesForkId hmatch,
    Stack.checkClean_eq_ok.2 fun _ ↦ rfl⟩

theorem evaluate_bare (hlim : env.limits = {}) (hctx : env.context = some ctx)
    (hp2sh : env.has .p2sh) (ha : Lock.pushes sigs = .ok a) :
    evaluate env ⟨0 :: a⟩ script = .ok () := by
  have hunlocking := h.length_unlocking_le ha
  have hscript := Lock.length_multisig_le h.lock_eq
  refine (evaluate_direct_iff hp2sh (h.ofScript_unlocking ha) (Program.isPushOnly_map_pushing _)
    ?_ ?_ (Lock.isP2sh_multisig h.lock_eq)).2 (h.authorizes hlim hctx)
  · rw [hlim]
    exact hunlocking.trans (by decide)
  · rw [hlim]
    exact hscript.trans (by decide)

theorem evaluate_p2sh (hlim : env.limits = {}) (hctx : env.context = some ctx)
    (hp2sh : env.has .p2sh) (ha : Lock.pushes sigs = .ok a) (hscript : script.length ≤ 520)
    (hpush : Push.data script.bytes = .ok push) :
    evaluate env ⟨0 :: (a ++ push)⟩ (Lock.p2sh script) = .ok () := by
  have hunlocking := h.length_unlocking_le ha
  have hlength : push.length ≤ 525 :=
    (Push.length_data_le hpush).trans (Nat.add_le_add_right hscript 5)
  rw [← Lock.minimal_multisig h.lock_eq] at hpush
  refine (evaluate_p2sh_iff hlim hp2sh (h.ofScript_unlocking ha)
    (Program.isPushOnly_map_pushing _) ?_ hscript hpush ?_).2 (h.authorizes hlim hctx)
  · have hmax := h.length_le
    rw [List.length_map, List.length_cons]
    omega
  · change (0 :: a ++ push).length ≤ 10000
    rw [Script.length] at hunlocking
    rw [List.length_append]
    dsimp only at hunlocking
    omega

end MultiSigned

end Spends

end BitcoinCash
