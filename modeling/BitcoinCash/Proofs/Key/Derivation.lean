import BitcoinCash.Proofs.Key.Canonical

namespace BitcoinCash.PrivateKey

open Secp256k1

variable {b : Bytes} {key : PrivateKey}

theorem scalar_of_ofBytes (h : ofBytes b = .ok key) : key.scalar = Integer.ofBytes b .big := by
  rw [ofBytes] at h
  dsimp only at h
  split_ifs at h with hlen hpos hlt
  cases h
  rfl

theorem ofBytes_toBytes (key : PrivateKey) :
    ofBytes key.toBytes = .ok { key with compressed := true } := by
  have hscalar : Integer.ofBytes key.toBytes .big = key.scalar :=
    Integer.ofBytes_ofNatBE key.pos.le (key.lt.trans (by decide))
  have hlen : key.toBytes.length = 32 := Bytes.length_ofNatBE 32 _
  rw [ofBytes, if_neg (not_not.2 hlen)]
  dsimp only
  simp only [hscalar]
  rw [dif_neg (not_not.2 key.pos), dif_neg (not_not.2 key.lt)]

theorem exists_publicKey (key : PrivateKey) :
    ∃ x y pub, Point.g.mul key.scalar = .affine x y ∧ Point.check (.affine x y) = .ok () ∧
      key.publicKey = .ok pub ∧ pub.point = .affine x y ∧ pub.compressed = key.compressed := by
  obtain ⟨pub, hpub, -, hcompressed⟩ := key.publicKey_eq_ok
  have hpoint : Point.g.mul key.scalar = pub.point := (PublicKey.ofPoint_eq_ok_iff.1 hpub).1
  exact ⟨pub.x, pub.y, pub, hpoint, pub.check_point, hpub, rfl, hcompressed⟩

/-- The generator has exactly the order of the group: the multiples by scalars in range differ. -/
theorem scalar_eq_of_point_eq {k l : PrivateKey} {a b : PublicKey} (ha : k.publicKey = .ok a)
    (hb : l.publicKey = .ok b) (h : a.point = b.point) : k.scalar = l.scalar := by
  obtain ⟨a', ha', hak, -⟩ := k.publicKey_eq_ok
  obtain ⟨b', hb', hbl, -⟩ := l.publicKey_eq_ok
  cases ha.symm.trans ha'
  cases hb.symm.trans hb'
  rw [PublicKey.point_inj, hak, hbl] at h
  have hcast := smul_left_injective Fn generator_ne_zero h
  exact (Scalar.cast_eq_iff ⟨k.pos.le, k.lt⟩ ⟨l.pos.le, l.lt⟩).1 hcast

/-- Every private key that is read has a public key in either encoding, the multiple of the
generator by its scalar. Keys with different scalars have different public keys, also as they are
written. -/
theorem publicKey_total_injective :
    (∀ b read, ofBytes b = .ok read → ∀ key ∈ [read, read.uncompressed],
      ∃ x y pub, Point.g.mul (Integer.ofBytes b .big) = .affine x y ∧
        Point.check (.affine x y) = .ok () ∧ key.publicKey = .ok pub ∧ pub.point = .affine x y ∧
        pub.compressed = key.compressed) ∧
      ∀ k l : PrivateKey, k.scalar ≠ l.scalar →
        ∃ a b, k.publicKey = .ok a ∧ l.publicKey = .ok b ∧ a.point ≠ b.point ∧
          (a == b) = false ∧ a.toBytes ≠ b.toBytes := by
  constructor
  · intro b read hread
    rw [← scalar_of_ofBytes hread]
    exact List.forall_mem_cons.2
      ⟨read.exists_publicKey, List.forall_mem_singleton.2 read.uncompressed.exists_publicKey⟩
  · intro k l hne
    obtain ⟨a, ha, -⟩ := k.publicKey_eq_ok
    obtain ⟨b, hb, -⟩ := l.publicKey_eq_ok
    have hpoint : a.point ≠ b.point := fun h ↦ hne (scalar_eq_of_point_eq ha hb h)
    refine ⟨a, b, ha, hb, hpoint, ?_, ?_⟩
    · rw [Bool.eq_false_iff, Ne, PublicKey.beq_iff, ← PublicKey.point_inj]
      exact hpoint
    · intro hbytes
      have hread := a.ofBytes_toBytes
      rw [hbytes, b.ofBytes_toBytes] at hread
      exact hpoint (by rw [Except.ok.inj hread])

theorem publicKey_total_injective_opposite :
    let k : PrivateKey := ⟨1, true, by decide, by decide⟩
    let l : PrivateKey := ⟨n - 1, true, by decide, by decide⟩
    (ofBytes l.toBytes = .ok l ∧ l.uncompressed ∈ [l, l.uncompressed] ∧
      ∃ x y pub, Point.g.mul (Integer.ofBytes l.toBytes .big) = .affine x y ∧
        Point.check (.affine x y) = .ok () ∧ l.uncompressed.publicKey = .ok pub ∧
        pub.point = .affine x y ∧ pub.compressed = false) ∧
      k.scalar ≠ l.scalar ∧
        ∃ a b, k.publicKey = .ok a ∧ l.publicKey = .ok b ∧ a.point ≠ b.point ∧
          (a == b) = false ∧ a.toBytes ≠ b.toBytes := by
  intro k l
  have hl : ofBytes l.toBytes = .ok l := l.ofBytes_toBytes
  have hmem : l.uncompressed ∈ [l, l.uncompressed] := .tail _ (.head _)
  have hne : k.scalar ≠ l.scalar := by decide
  exact ⟨⟨hl, hmem, publicKey_total_injective.1 _ l hl _ hmem⟩, hne,
    publicKey_total_injective.2 k l hne⟩

end BitcoinCash.PrivateKey
