import BitcoinCash.Ecdsa.Recover
import BitcoinCash.Ecdsa.Verify
import BitcoinCash.Proofs.Bytes.Digits
import BitcoinCash.Proofs.Ecdsa.Equation
import BitcoinCash.Proofs.Fallible
import BitcoinCash.Proofs.Secp256k1.Decompress

namespace BitcoinCash

open Secp256k1
open Fallible (bind_eq_ok ok_bind)

namespace Ecdsa

def pointId (x y : ℤ) : UInt8 := (if y % 2 = 1 then 1 else 0) + (if n ≤ x then 2 else 0)

/-- `P` has `x` coordinate `r` modulo `n`, and `id` tells it from the other points that do. -/
def Selects (r : ℤ) (id : UInt8) (P : curve.Point) : Prop :=
  ∃ x y, Point.ofGroup P = .affine x y ∧ x % n = r ∧ id = pointId x y

variable {r x y : ℤ} {id j : UInt8} {P Q : curve.Point}

theorem pointId_le_three (x y : ℤ) : pointId x y ≤ 3 := by
  unfold pointId
  split <;> split <;> decide

@[elab_as_elim]
theorem of_le_three {motive : UInt8 → Prop} (hid : id ≤ 3)
    (h : ∀ k < 4, motive (UInt8.ofNat k)) : motive id :=
  Bytes.of_toNat_lt (Nat.lt_succ_of_le (UInt8.le_iff_toNat_le.1 hid)) h

theorem eq_pointId_iff (hid : id ≤ 3) :
    id = pointId x y ↔ (y % 2 = 1 ↔ id &&& 1 = 1) ∧ (n ≤ x ↔ id &&& 2 ≠ 0) := by
  have bits (a b : Bool) : id = (if a then 1 else 0) + (if b then 2 else 0) ↔
      (a ↔ id &&& 1 = 1) ∧ (b ↔ id &&& 2 ≠ 0) := by
    revert a b
    exact of_le_three hid (by decide)
  simpa only [pointId, decide_eq_true_eq] using bits (y % 2 = 1) (n ≤ x)

theorem Selects.hasX (h : Selects r id P) : HasX P r := by
  obtain ⟨x, y, hP, hx, -⟩ := h
  exact ⟨x, y, hP, hx⟩

theorem exists_selects (h : HasX P r) : ∃ id, Selects r id P := by
  obtain ⟨x, y, hP, hx⟩ := h
  exact ⟨_, x, y, hP, hx, rfl⟩

theorem Selects.le_three (h : Selects r id P) : id ≤ 3 := by
  obtain ⟨x, y, -, -, rfl⟩ := h
  exact pointId_le_three x y

theorem Selects.unique (h : Selects r id P) (k : Selects r j P) : id = j := by
  obtain ⟨x, y, hP, -, rfl⟩ := h
  obtain ⟨u, v, hP', -, rfl⟩ := k
  cases hP.symm.trans hP'
  rfl

theorem pointId_p_sub (x y : ℤ) : pointId x (p - y) = pointId x y ^^^ 1 := by
  have hodd := p_sub_parity y
  unfold pointId
  by_cases hy : y % 2 = 1
  · rw [if_neg fun h ↦ hodd.1 h hy, if_pos hy]
    split <;> decide
  · rw [if_pos (hodd.2 hy), if_neg hy]
    split <;> decide

theorem Selects.neg (h : Selects r id P) : Selects r (id ^^^ 1) (-P) := by
  obtain ⟨x, y, hP, hx, rfl⟩ := h
  have hc := Point.onCurve_of_ofGroup hP
  have hneg := hc.negate
  refine ⟨x, p - y, ?_, hx, (pointId_p_sub x y).symm⟩
  rw [← Point.negate_ofGroup, hP, Point.negate, Int.emod_eq_of_lt hneg.2.1.1 hneg.2.1.2]

/-- A coordinate is below twice the order, so that its residue leaves two candidates. -/
theorem eq_candidate_iff (hr : InRange r) (hx : Reduced x) :
    x = (if id &&& 2 = 0 then r else r + n) ↔ x % n = r ∧ (n ≤ x ↔ id &&& 2 ≠ 0) := by
  have hp : p < 2 * n := by decide
  obtain ⟨h0, hlt⟩ := hx
  obtain ⟨hr0, hrn⟩ := hr
  have hmod : x % n = if n ≤ x then x - n else x := by
    split
    · next hn => rw [← Int.sub_emod_right, Int.emod_eq_of_lt (by omega) (by omega)]
    · next hn => exact Int.emod_eq_of_lt h0 (by omega)
  rw [hmod]
  by_cases hbit : id &&& 2 = 0
  · simp only [hbit, if_true, ne_eq, not_true, iff_false]
    split <;> omega
  · simp only [hbit, if_false, ne_eq, not_false_eq_true, iff_true]
    split <;> omega

def candidate (r : ℤ) (id : UInt8) : Except CryptoError Point :=
  Point.ofX (id &&& 1 = 1) (if id &&& 2 = 0 then r else r + n)

theorem candidate_eq_ok_iff (hr : InRange r) (hid : id ≤ 3) {a : Point} :
    candidate r id = .ok a ↔ ∃ P, a = Point.ofGroup P ∧ Selects r id P := by
  rw [candidate, Point.ofX_eq_ok_iff]
  constructor
  · rintro ⟨y, rfl, hc, hy⟩
    obtain ⟨hx, hbit⟩ := (eq_candidate_iff hr hc.1).1 rfl
    refine ⟨Point.toGroup hc, (Point.ofGroup_toGroup hc).symm, _, y, Point.ofGroup_toGroup hc, hx,
      (eq_pointId_iff hid).2 ⟨?_, hbit⟩⟩
    simpa using hy
  · rintro ⟨P, rfl, x, y, hP, hx, hxy⟩
    have hc := Point.onCurve_of_ofGroup hP
    obtain ⟨hy, hbit⟩ := (eq_pointId_iff hid).1 hxy
    obtain rfl := (eq_candidate_iff hr hc.1).2 ⟨hx, hbit⟩
    exact ⟨y, hP, hc, by simpa using hy⟩

def solve (e : ℤ) (sig : Signature) (R : Point) : Except CryptoError Point := do
  let w ← inverse sig.r
  return Point.mulAdd (-e * w % n) (sig.s * w % n) R

noncomputable def keyPoint (e : ℤ) (sig : Signature) (P : curve.Point) : curve.Point :=
  (-(e : Fn) / sig.r) • Point.generator + ((sig.s : Fn) / sig.r) • P

theorem solve_ofGroup {e : ℤ} (sig : Signature) (hr : InRange sig.r) (P : curve.Point) :
    solve e sig (Point.ofGroup P) = .ok (Point.ofGroup (keyPoint e sig P)) := by
  obtain ⟨w, hw, -, hwc⟩ := inverse_eq_ok hr
  rw [solve, hw, ok_bind, Point.mulAdd_residues, keyPoint, Int.cast_mul, Int.cast_mul, Int.cast_neg,
    hwc, div_eq_mul_inv, div_eq_mul_inv]
  rfl

/-- The equation of verification, solved for the key. -/
theorem noncePoint_eq_iff {e : ℤ} {sig : Signature} (hr : InRange sig.r) (hs : InRange sig.s) :
    noncePoint e sig Q = P ↔ keyPoint e sig P = Q := by
  have hr0 := cast_ne_zero hr
  have hs0 := cast_ne_zero hs
  have hsr : (sig.s : Fn) / sig.r * ((sig.r : Fn) / sig.s) = 1 := by field_simp
  have hrs : (sig.r : Fn) / sig.s * ((sig.s : Fn) / sig.r) = 1 := by field_simp
  have hse : (sig.s : Fn) / sig.r * ((e : Fn) / sig.s) = -(-(e : Fn) / sig.r) := by field_simp
  have hre : (sig.r : Fn) / sig.s * (-(e : Fn) / sig.r) = -((e : Fn) / sig.s) := by field_simp
  rw [noncePoint, keyPoint]
  constructor
  · rintro rfl
    rw [smul_add, smul_smul, smul_smul, hsr, hse]
    module
  · rintro rfl
    rw [smul_add, smul_smul, smul_smul, hrs, hre]
    module

variable {digest h : Bytes} {o : ByteOrder} {sig : Signature} {key : PublicKey}

/-- With everything in range, recovery is its start and its end: the check between them lets all
points pass. -/
theorem recover_of_inRange (hd : digest? digest o = some h) (sig : Signature) (hid : id ≤ 3)
    (hr : InRange sig.r) (hs : InRange sig.s) :
    recover digest sig id o =
      candidate sig.r id >>= fun R ↦
        solve (Integer.ofBytes h .big) sig R >>= fun Q ↦ PublicKey.ofPoint Q true := by
  simp only [recover, UInt8.not_lt.2 hid, hd, hr, hs, and_self, not_true, if_false]
  cases hstart : candidate sig.r id with
  | error e =>
    rw [candidate] at hstart
    rw [hstart]
    rfl
  | ok a =>
    obtain ⟨P, rfl, -⟩ := (candidate_eq_ok_iff hr hid).1 hstart
    rw [candidate] at hstart
    rw [hstart]
    simp only [ok_bind, Point.mul_n_ofGroup, Point.isInfinity, not_true, if_false, solve]
    cases inverse sig.r <;> rfl

theorem recover_eq_of_inRange (hd : digest? digest o = some h) (hid : id ≤ 3)
    (hr : InRange sig.r) (hs : InRange sig.s) :
    recover digest sig id o = .ok key ↔ ∃ P, Selects sig.r id P ∧ key.compressed ∧
      keyPoint (Integer.ofBytes h .big) sig P = key.toGroup := by
  have hkey (P : curve.Point) :
      PublicKey.ofPoint (Point.ofGroup (keyPoint (Integer.ofBytes h .big) sig P)) true = .ok key ↔
        key.compressed ∧ keyPoint (Integer.ofBytes h .big) sig P = key.toGroup := by
    rw [PublicKey.ofPoint_eq_ok_iff, ← key.ofGroup_toGroup, Point.ofGroup_injective.eq_iff,
      and_comm]
  rw [recover_of_inRange hd sig hid hr hs]
  simp only [bind_eq_ok, candidate_eq_ok_iff hr hid]
  constructor
  · rintro ⟨_, ⟨P, rfl, hP⟩, a, ha, hrest⟩
    rw [solve_ofGroup sig hr, Except.ok.injEq] at ha
    subst ha
    exact ⟨P, hP, (hkey P).1 hrest⟩
  · rintro ⟨P, hP, hrest⟩
    exact ⟨_, ⟨P, rfl, hP⟩, _, solve_ofGroup sig hr P, (hkey P).2 hrest⟩

theorem recover_of_large_id (hid : 3 < id) :
    recover digest sig id o = .error (.recoveryId id) := by
  simp only [recover, hid, if_true]
  rfl

theorem recover_of_digest_eq_none (hid : id ≤ 3) (hd : digest? digest o = none) :
    recover digest sig id o = .error .recoveredDigestLength := by
  simp only [recover, UInt8.not_lt.2 hid, hd, if_false]
  rfl

theorem recover_of_not_inRange (hid : id ≤ 3) (hd : digest? digest o = some h)
    (hin : ¬(InRange sig.r ∧ InRange sig.s)) :
    recover digest sig id o = .error .componentsOutOfRange := by
  simp only [recover, UInt8.not_lt.2 hid, hd, hin, not_false_iff, if_true, if_false]
  rfl

theorem inRange_of_recover (hrec : recover digest sig id o = .ok key) :
    id ≤ 3 ∧ (∃ h, digest? digest o = some h) ∧ InRange sig.r ∧ InRange sig.s := by
  by_cases hid : id ≤ 3
  · cases hd : digest? digest o with
    | none => cases (recover_of_digest_eq_none hid hd).symm.trans hrec
    | some h =>
      by_cases hin : InRange sig.r ∧ InRange sig.s
      · exact ⟨hid, ⟨h, rfl⟩, hin⟩
      · cases (recover_of_not_inRange hid hd hin).symm.trans hrec
  · cases (recover_of_large_id (UInt8.not_le.1 hid)).symm.trans hrec

/-- Recovery yields the key whose equation the selected point satisfies. -/
theorem recover_eq_ok_iff (hd : digest? digest o = some h) :
    recover digest sig id o = .ok key ↔ InRange sig.r ∧ InRange sig.s ∧ key.compressed ∧
      Selects sig.r id (noncePoint (Integer.ofBytes h .big) sig key.toGroup) := by
  constructor
  · intro hrec
    obtain ⟨hid, -, hr, hs⟩ := inRange_of_recover hrec
    obtain ⟨P, hP, hc, hkey⟩ := (recover_eq_of_inRange hd hid hr hs).1 hrec
    rw [(noncePoint_eq_iff hr hs).2 hkey]
    exact ⟨hr, hs, hc, hP⟩
  · rintro ⟨hr, hs, hc, hP⟩
    exact (recover_eq_of_inRange hd hP.le_three hr hs).2
      ⟨_, hP, hc, (noncePoint_eq_iff hr hs).1 rfl⟩

/-- Recovery with `id` finds `key`, in whatever encoding. -/
def Recovers (digest : Bytes) (sig : Signature) (o : ByteOrder) (key : PublicKey) (id : UInt8) :
    Prop :=
  ∃ found, recover digest sig id o = .ok found ∧ found == key

theorem recovers_iff (hd : digest? digest o = some h) :
    Recovers digest sig o key id ↔ InRange sig.r ∧ InRange sig.s ∧
      Selects sig.r id (noncePoint (Integer.ofBytes h .big) sig key.toGroup) := by
  constructor
  · rintro ⟨found, hfound, hkey⟩
    obtain ⟨hr, hs, -, hP⟩ := (recover_eq_ok_iff hd).1 hfound
    rw [PublicKey.beq_iff.1 hkey] at hP
    exact ⟨hr, hs, hP⟩
  · rintro ⟨hr, hs, hP⟩
    refine ⟨{ key with compressed := true }, (recover_eq_ok_iff hd).2 ⟨hr, hs, rfl, hP⟩, ?_⟩
    exact PublicKey.beq_iff.2 rfl

theorem Recovers.le_three (hk : Recovers digest sig o key id) : id ≤ 3 := by
  obtain ⟨found, hfound, -⟩ := hk
  exact (inRange_of_recover hfound).1

theorem Recovers.unique (hk : Recovers digest sig o key id) (hj : Recovers digest sig o key j) :
    id = j := by
  obtain ⟨-, ⟨h, hd⟩, -⟩ := inRange_of_recover hk.choose_spec.1
  exact ((recovers_iff hd).1 hk).2.2.unique ((recovers_iff hd).1 hj).2.2

theorem verify_eq_ok_iff_recovers :
    verify digest sig key o = .ok () ↔ ∃ id, Recovers digest sig o key id := by
  cases hd : digest? digest o with
  | none =>
    have hverify : verify digest sig key o = .error .malformedDigest := by rw [verify, hd]
    rw [hverify]
    refine iff_of_false (by rintro ⟨⟩) ?_
    rintro ⟨id, found, hfound, -⟩
    obtain ⟨-, ⟨h, hd'⟩, -⟩ := inRange_of_recover hfound
    cases hd.symm.trans hd'
  | some h =>
    rw [verify_eq_ok_iff hd]
    constructor
    · rintro ⟨hr, hs, hx⟩
      obtain ⟨id, hid⟩ := exists_selects hx
      exact ⟨id, (recovers_iff hd).2 ⟨hr, hs, hid⟩⟩
    · rintro ⟨id, hk⟩
      obtain ⟨hr, hs, hP⟩ := (recovers_iff hd).1 hk
      exact ⟨hr, hs, hP.hasX⟩

theorem mem_ids (hid : id ≤ 3) : id ∈ ([0, 1, 2, 3] : List UInt8) :=
  of_le_three hid (by decide)

variable (digest sig key o) in
/-- What the search among the ids finds: one at most leads back to the key. -/
theorem recoveryId_spec :
    (∃ id, recoveryId digest sig key o = .ok id ∧ Recovers digest sig o key id) ∨
      recoveryId digest sig key o = .error .noRecoveryFactor ∧
        ∀ id, ¬ Recovers digest sig o key id := by
  unfold recoveryId
  extract_lets leads
  have hleads (j : UInt8) : leads j ↔ Recovers digest sig o key j := by
    unfold Recovers leads
    cases recover digest sig j o <;> simp
  cases hfind : [0, 1, 2, 3].find? leads with
  | some id => exact .inl ⟨id, rfl, (hleads id).1 (List.find?_some hfind)⟩
  | none =>
    refine .inr ⟨rfl, fun id hk ↦ ?_⟩
    exact List.find?_eq_none.1 hfind id (mem_ids hk.le_three) ((hleads id).2 hk)

theorem recoveryId_eq_ok_iff :
    recoveryId digest sig key o = .ok id ↔ Recovers digest sig o key id := by
  rcases recoveryId_spec digest o sig key with ⟨j, hj, hk⟩ | ⟨herr, hnone⟩
  · rw [hj, Except.ok.injEq]
    constructor
    · rintro rfl
      exact hk
    · exact hk.unique
  · rw [herr]
    exact ⟨nofun, fun hk ↦ absurd hk (hnone id)⟩

theorem recoveryId_eq_error_iff :
    recoveryId digest sig key o = .error .noRecoveryFactor ↔
      ∀ id, ¬ Recovers digest sig o key id := by
  rcases recoveryId_spec digest o sig key with ⟨j, hj, hk⟩ | ⟨herr, hnone⟩
  · rw [hj]
    exact ⟨nofun, fun hnone ↦ absurd hk (hnone j)⟩
  · exact iff_of_true herr hnone

variable (digest sig key o)

/-- Verification and recovery agree: a signature is accepted for a key exactly if one of the four
ids leads back to that key, and then only one does, which is the id that is calculated; a
signature that is rejected leads back to the key under no id. -/
theorem verify_iff_existsUnique_recovers :
    (verify digest sig key o = .ok () ↔ ∃! id, id ≤ 3 ∧ Recovers digest sig o key id) ∧
      (verify digest sig key o ≠ .ok () ↔ ∀ id ≤ 3, ¬ Recovers digest sig o key id) ∧
      (verify digest sig key o ≠ .ok () ↔
        recoveryId digest sig key o = .error .noRecoveryFactor) ∧
      ∀ id, recoveryId digest sig key o = .ok id ↔ id ≤ 3 ∧ Recovers digest sig o key id := by
  have hrejected : verify digest sig key o ≠ .ok () ↔ ∀ id, ¬ Recovers digest sig o key id := by
    rw [Ne, verify_eq_ok_iff_recovers, not_exists]
  refine ⟨?_, ?_, ?_, fun id ↦ ?_⟩
  · rw [verify_eq_ok_iff_recovers]
    constructor
    · rintro ⟨id, hk⟩
      exact ⟨id, ⟨hk.le_three, hk⟩, fun j hj ↦ hj.2.unique hk⟩
    · rintro ⟨id, ⟨-, hk⟩, -⟩
      exact ⟨id, hk⟩
  · rw [hrejected]
    exact ⟨fun hnone id _ ↦ hnone id, fun hnone id hk ↦ hnone id hk.le_three hk⟩
  · rw [hrejected, recoveryId_eq_error_iff]
  · rw [recoveryId_eq_ok_iff, and_iff_right_of_imp Recovers.le_three]

end Ecdsa

end BitcoinCash
