import BitcoinCash.Proofs.Machine.NumberCodec
import BitcoinCash.Proofs.Machine.PayToMultiSig

namespace BitcoinCash

variable {k : ℕ} {b : Bytes} {required total last : Chunk} {keys : List Chunk}

theorem Number.encode_of_lt_sign (h0 : 0 < k) (hk : k < 128) :
    encode (k : ℤ) = [UInt8.ofNat k] := by
  have htoNat : (UInt8.ofNat k).toNat = k := UInt8.toNat_ofNat_of_lt' (hk.trans (by decide))
  have hne : UInt8.ofNat k ≠ 0 := by
    intro hzero
    rw [hzero] at htoNat
    exact h0.ne htoNat
  have hdigits : Bytes.digitsLE (k : ℤ).natAbs = [] ++ [UInt8.ofNat k] := by
    have h := Bytes.digitsLE_toNatLE_concat (b := []) hne
    simpa [Bytes.toNatLE, htoNat] using h
  have hsign : UInt8.ofNat k &&& 0x80 = 0 := by
    rw [Bytes.and_sign_eq_zero, htoNat]
    exact hk
  rw [encode_of_digits hdigits]
  simp [hsign]

theorem Push.opcode?_of_lt_sign (h0 : 0 < k) (hk : k < 128) :
    opcode? [UInt8.ofNat k] = if k ≤ 16 then some (UInt8.ofNat (0x50 + k)) else none := by
  have htoNat : (UInt8.ofNat k).toNat = k := UInt8.toNat_ofNat_of_lt' (hk.trans (by decide))
  have hsmall : (1 ≤ UInt8.ofNat k ∧ UInt8.ofNat k ≤ 16) ↔ k ≤ 16 := by
    rw [UInt8.le_iff_toNat_le, UInt8.le_iff_toNat_le, htoNat]
    exact and_iff_right h0
  have hnegative : UInt8.ofNat k ≠ 0x81 := by
    intro h
    rw [h] at htoNat
    exact absurd htoNat.symm (Nat.ne_of_lt (hk.trans (by decide)))
  rw [opcode?, if_neg hnegative, UInt8.ofNat_add]
  exact if_congr hsmall rfl rfl

namespace Chunk

def ofCount (k : ℕ) : Chunk :=
  if k ≤ 16 then ⟨UInt8.ofNat (0x50 + k), none⟩ else ⟨1, some [UInt8.ofNat k]⟩

def direct (d : Bytes) : Chunk := ⟨UInt8.ofNat d.length, some d⟩

theorem decode_direct {d : Bytes} (hd : d ≠ []) (h75 : d.length ≤ 75) (h : Push.data d = .ok b) :
    decode b = .ok [direct d] := by
  have hread := Push.decode_data_of_ne_nil hd h
  rw [Push.data_of_length_le h75] at h
  cases h
  exact hread

theorem decode_count (h0 : 0 < k) (hk : k < 128) (h : Push.minimal (Number.encode k) = .ok b) :
    decode b = .ok [ofCount k] := by
  have hop := Push.opcode?_of_lt_sign h0 hk
  rw [Number.encode_of_lt_sign h0 hk, Push.minimal] at h
  unfold ofCount
  by_cases h16 : k ≤ 16
  · rw [if_pos h16] at hop ⊢
    rw [hop] at h
    cases h
    exact decode_bare (Push.lengthWidth?_of_opcode? hop)
  · rw [if_neg h16] at hop ⊢
    rw [hop] at h
    exact decode_direct (Push.data_ne_nil hop) (by simp) h

theorem decode_pushes {ds : List Bytes} (h : Lock.pushes ds = .ok b)
    (hds : ∀ d ∈ ds, d ≠ [] ∧ d.length ≤ 75) : decode b = .ok (ds.map direct) := by
  induction ds generalizing b with
  | nil =>
    cases h
    exact decode_nil
  | cons d ds ih =>
    obtain ⟨⟨hne, h75⟩, hds⟩ := List.forall_mem_cons.1 hds
    obtain ⟨x, y, hx, hy, rfl⟩ := Lock.pushes_cons_eq_ok.1 h
    exact decode_append (decode_direct hne h75 hx) (ih hy hds)

theorem smallNumber?_ofCount (h0 : 0 < k) :
    Opcode.smallNumber? (ofCount k).op = if k ≤ 16 then some k else none := by
  unfold ofCount
  split
  next h16 =>
    have htoNat : (UInt8.ofNat (0x50 + k)).toNat = 0x50 + k :=
      UInt8.toNat_ofNat_of_lt' (Nat.lt_of_le_of_lt (Nat.add_le_add_left h16 0x50) (by decide))
    have hone : Opcode.one ≤ UInt8.ofNat (0x50 + k) := by
      rw [UInt8.le_iff_toNat_le, htoNat]
      exact Nat.add_le_add_left h0 0x50
    have hsixteen : UInt8.ofNat (0x50 + k) ≤ Opcode.sixteen := by
      rw [UInt8.le_iff_toNat_le, htoNat]
      exact Nat.add_le_add_left h16 0x50
    have hne : UInt8.ofNat (0x50 + k) ≠ 0 := by
      intro hzero
      rw [hzero] at hone
      exact absurd hone (by decide)
    rw [Opcode.smallNumber?, if_neg hne, if_pos ⟨hone, hsixteen⟩, htoNat, Nat.add_sub_cancel_left]
  next => rfl

end Chunk

namespace Script

theorem isMultisigChunks_eq_true :
    isMultisigChunks (required :: (keys ++ [total, last])) ↔
      ∃ m, Opcode.smallNumber? required.op = some m ∧
        Opcode.smallNumber? total.op = some keys.length ∧ 1 ≤ m ∧ m ≤ keys.length ∧
        (∀ c ∈ keys, c.data.any (!·.isEmpty)) ∧ last.op = Opcode.checkMultiSig := by
  have hreverse : (keys ++ [total, last]).reverse = last :: total :: keys.reverse := by simp
  rw [isMultisigChunks, hreverse]
  dsimp only
  cases Opcode.smallNumber? required.op with
  | none => simp
  | some m =>
    cases Opcode.smallNumber? total.op with
    | none => simp
    | some n =>
      simp only [List.all_reverse, Bool.and_eq_true, List.all_eq_true, decide_eq_true_eq,
        List.length_reverse, Option.some.injEq, exists_eq_left']
      constructor
      · rintro ⟨⟨⟨⟨hkeys, hpos⟩, hle⟩, rfl⟩, hlast⟩
        exact ⟨rfl, hpos, hle, hkeys, hlast⟩
      · rintro ⟨rfl, hpos, hle, hkeys, hlast⟩
        exact ⟨⟨⟨⟨hkeys, hpos⟩, hle⟩, rfl⟩, hlast⟩

end Script

namespace Lock

variable {required : ℕ} {pubs : List PublicKey} {script : Script}

def multisigChunks (required : ℕ) (pubs : List PublicKey) : List Chunk :=
  Chunk.ofCount required :: ((pubs.map fun pub ↦ Chunk.direct pub.toBytes) ++
    [Chunk.ofCount pubs.length, ⟨Opcode.checkMultiSig, none⟩])

theorem chunks_multisig (h : multisig required pubs = .ok script) :
    script.chunks = .ok (multisigChunks required pubs) := by
  obtain ⟨⟨hmax, hpos, hle⟩, h⟩ := multisig_eq_ok.1 h
  obtain ⟨m, ks, n, hm, hks, hn, rfl⟩ := multisigScript_eq_ok.1 h
  have hkeys : ∀ d ∈ pubs.map PublicKey.toBytes, d ≠ [] ∧ d.length ≤ 75 := by
    intro d hd
    have hlength := length_of_mem_keys hd
    refine ⟨?_, by omega⟩
    rintro rfl
    simp at hlength
  have hm := Chunk.decode_count hpos (by omega) hm
  have hn := Chunk.decode_count (by omega) (by omega) hn
  have hlast : Chunk.decode [Opcode.checkMultiSig] = .ok [⟨Opcode.checkMultiSig, none⟩] :=
    Chunk.decode_bare rfl
  have hall := Chunk.decode_append (Chunk.decode_append (Chunk.decode_append hm
    (Chunk.decode_pushes hks hkeys)) hn) hlast
  refine Eq.trans hall ?_
  simp [multisigChunks, Function.comp_def]

theorem isMultisigChunks_multisigChunks (hpos : 1 ≤ required) (hle : required ≤ pubs.length) :
    Script.isMultisigChunks (multisigChunks required pubs) ↔ pubs.length ≤ 16 := by
  have hkeys : ∀ c ∈ pubs.map fun pub ↦ Chunk.direct pub.toBytes, c.data.any (!·.isEmpty) := by
    intro c hc
    obtain ⟨pub, -, rfl⟩ := List.mem_map.1 hc
    have hlength := pub.length_toBytes
    have hne : pub.toBytes ≠ [] := by
      intro hnil
      simp [hnil] at hlength
    simpa [Chunk.direct] using hne
  rw [multisigChunks, Script.isMultisigChunks_eq_true, Chunk.smallNumber?_ofCount hpos,
    Chunk.smallNumber?_ofCount (hpos.trans hle)]
  constructor
  · rintro ⟨m, -, hn, -⟩
    by_contra h16
    rw [if_neg h16] at hn
    cases hn
  · intro h16
    rw [List.length_map]
    exact ⟨required, if_pos (hle.trans h16), if_pos h16, hpos, hle, hkeys, rfl⟩

theorem isMultisig_iff (h : multisig required pubs = .ok script) :
    script.isMultisig ↔ pubs.length ≤ 16 := by
  obtain ⟨⟨-, hpos, hle⟩, -⟩ := multisig_eq_ok.1 h
  rw [Script.isMultisig, chunks_multisig h]
  exact isMultisigChunks_multisigChunks hpos hle

/-- For one to twenty keys there is an output that asks for the signatures of some. It consists of
the two counts, the keys in their order and the check, and is known by that up to sixteen keys. -/
theorem multisig_recognized (required : ℕ) (pubs : List PublicKey) :
    ((∃ script, multisig required pubs = .ok script) ↔
      pubs.length ≤ 20 ∧ 1 ≤ required ∧ required ≤ pubs.length) ∧
      ∀ script, multisig required pubs = .ok script →
        script.chunks = .ok (multisigChunks required pubs) ∧
          (script.isMultisig ↔ pubs.length ≤ 16) := by
  refine ⟨⟨?_, ?_⟩, fun script h ↦ ⟨chunks_multisig h, isMultisig_iff h⟩⟩
  · rintro ⟨script, h⟩
    exact (multisig_eq_ok.1 h).1
  · rintro ⟨hmax, hpos, hle⟩
    exact exists_multisig hmax hpos hle

theorem multisig_recognized_one_of_two :
    let pub : PublicKey := ⟨_, _, true, Secp256k1.Point.g_onCurve⟩
    let script : Script := ⟨0x51 :: 33 :: (pub.toBytes ++ 33 :: (pub.toBytes ++ [0x52, 0xae]))⟩
    multisig 1 [pub, pub] = .ok script ∧ script.isMultisig ∧
      script.chunks = .ok
        [⟨0x51, none⟩, ⟨33, some pub.toBytes⟩, ⟨33, some pub.toBytes⟩, ⟨0x52, none⟩,
          ⟨0xae, none⟩] := by
  intro pub script
  have hlock : multisig 1 [pub, pub] = .ok script := Fallible.toOption_eq_some.1 (by decide +kernel)
  obtain ⟨-, hscript⟩ := multisig_recognized 1 [pub, pub]
  obtain ⟨hchunks, hknown⟩ := hscript script hlock
  refine ⟨hlock, hknown.2 (by decide), hchunks.trans ?_⟩
  rfl

/-- An output to seventeen holders is not known for one. -/
theorem not_forall_isMultisig :
    ¬ ∀ (required : ℕ) (pubs : List PublicKey) (script : Script),
      multisig required pubs = .ok script → script.isMultisig := by
  intro h
  let pub : PublicKey := ⟨_, _, true, Secp256k1.Point.g_onCurve⟩
  obtain ⟨script, hscript⟩ : ∃ script, multisig 1 (List.replicate 17 pub) = .ok script :=
    exists_multisig (by decide) le_rfl (by decide)
  have hfew := (isMultisig_iff hscript).1 (h _ _ _ hscript)
  exact absurd hfew (by decide)

end Lock

end BitcoinCash
