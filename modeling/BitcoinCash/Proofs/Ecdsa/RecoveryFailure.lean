import BitcoinCash.Proofs.Ecdsa.Recover

namespace BitcoinCash

open Secp256k1
open Fallible (ok_bind error_bind)

theorem Secp256k1.Point.mul_n_of_check {a : Point} (h : a.check = .ok ()) :
    a.mul n = .infinity := by
  obtain ⟨P, rfl⟩ := valid_iff.1 (.inr h)
  exact mul_n_ofGroup P

theorem Secp256k1.Point.ofX_ne_notOfGroupOrder (odd : Bool) (x : ℤ) :
    ofX odd x ≠ .error (.point .notOfGroupOrder) := by
  intro h
  have he := (ofX_eq_error_iff.1 h).2
  split at he <;> cases he

namespace Ecdsa

variable {digest h : Bytes} {o : ByteOrder} {sig : Signature} {id : UInt8} {e : CryptoError}

theorem recover_eq_error_iff (hd : digest? digest o = some h) (hid : id ≤ 3) (hr : InRange sig.r)
    (hs : InRange sig.s) :
    recover digest sig id o = .error e ↔ candidate sig.r id = .error e ∨
      ∃ R, candidate sig.r id = .ok R ∧
        solve (Integer.ofBytes h .big) sig R = .ok .infinity ∧ e = .point .atInfinity := by
  rw [recover_of_inRange hd sig hid hr hs]
  cases hstart : candidate sig.r id with
  | error flaw =>
    rw [error_bind]
    simp
  | ok R =>
    obtain ⟨P, rfl, -⟩ := (candidate_eq_ok_iff hr hid).1 hstart
    rw [ok_bind, solve_ofGroup sig hr, ok_bind, PublicKey.ofPoint_ofGroup_eq_error_iff]
    simp [solve_ofGroup sig hr]

theorem recover_ne_notOfGroupOrder (digest : Bytes) (sig : Signature) (id : UInt8)
    (o : ByteOrder) : recover digest sig id o ≠ .error (.point .notOfGroupOrder) := by
  intro hrec
  by_cases hid : id ≤ 3
  · cases hd : digest? digest o with
    | none => cases (recover_of_digest_eq_none hid hd).symm.trans hrec
    | some h =>
      by_cases hin : InRange sig.r ∧ InRange sig.s
      · rcases (recover_eq_error_iff hd hid hin.1 hin.2).1 hrec with hstart | ⟨_, -, -, he⟩
        · exact Point.ofX_ne_notOfGroupOrder _ _ hstart
        · cases he
      · cases (recover_of_not_inRange hid hd hin).symm.trans hrec
  · cases (recover_of_large_id (UInt8.not_le.1 hid)).symm.trans hrec

/-- A valid point times the order of the group is infinity, so that no recovery is turned away for
its point's order. With everything in range it fails only because its id selects no point, or
because it ends at infinity. -/
theorem recover_failures :
    (∀ a : Point, a.check = .ok () → a.mul n = .infinity) ∧
      ∀ (digest : Bytes) (sig : Signature) (id : UInt8) (o : ByteOrder),
        recover digest sig id o ≠ .error (.point .notOfGroupOrder) ∧
          (digest.length = 32 → InRange sig.r → InRange sig.s → id ≤ 3 → ∀ e,
            (recover digest sig id o = .error e ↔ candidate sig.r id = .error e ∨
              ∃ R, candidate sig.r id = .ok R ∧
                solve (Integer.ofBytes digest o) sig R = .ok .infinity ∧
                e = .point .atInfinity)) := by
  refine ⟨fun a ↦ Point.mul_n_of_check, fun digest sig id o ↦ ⟨?_, ?_⟩⟩
  · exact recover_ne_notOfGroupOrder digest sig id o
  · intro hlen hr hs hid e
    have hd : digest? digest o = some (o.arrange digest) := if_pos hlen
    exact recover_eq_error_iff hd hid hr hs

theorem recover_failures_infinity :
    let digest : Bytes := Bytes.ofNatBE 32 1
    let sig : Signature :=
      { r := 0x79be667ef9dcbbac55a06295ce870b07029bfcdb2dce28d959f2815b16f81798, s := 1 }
    (Point.g.check = .ok () ∧ Point.g.mul n = .infinity) ∧
      (digest.length = 32 ∧ InRange sig.r ∧ InRange sig.s ∧ (0 : UInt8) ≤ 3) ∧
      recover digest sig 0 = .error (.point .atInfinity) := by
  intro digest sig
  have hg : Point.g.check = .ok () := Point.check_affine_eq_ok.2 Point.g_onCurve
  have hin : digest.length = 32 ∧ InRange sig.r ∧ InRange sig.s ∧ (0 : UInt8) ≤ 3 := by decide
  have hstart : candidate sig.r 0 = .ok .g :=
    Point.ofX_eq_ok_iff.2 ⟨_, rfl, Point.g_onCurve, by decide⟩
  have hend : solve (Integer.ofBytes digest .big) sig .g = .ok .infinity :=
    Fallible.toOption_eq_some.1 (by decide +kernel)
  refine ⟨⟨hg, recover_failures.1 .g hg⟩, hin, ?_⟩
  obtain ⟨hlen, hr, hs, hid⟩ := hin
  exact ((recover_failures.2 digest sig 0 .big).2 hlen hr hs hid _).2 (.inr ⟨_, hstart, hend, rfl⟩)

end Ecdsa

end BitcoinCash
