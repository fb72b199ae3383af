import BitcoinCash.Proofs.Integer.Modular
import BitcoinCash.Secp256k1.Jacobian
import Mathlib.NumberTheory.LucasPrimality
import Mathlib.Tactic.NormNum.Prime

namespace BitcoinCash.Secp256k1

open BitcoinCash.Modular

theorem natCast_pow_eq_one_iff {q : ℕ} (hq : 1 < q) (a e : ℕ) :
    (a : ZMod q) ^ e = 1 ↔ powNat a e q = 1 := by
  rw [powNat_eq, ← Nat.cast_pow, ← Nat.cast_one (R := ZMod q), ZMod.natCast_eq_natCast_iff',
    Nat.mod_eq_of_lt hq]

/-- Lucas's test: `a` has order `q - 1` modulo `q`, seen at the prime divisors of `q - 1`. -/
theorem prime_of_powers {q : ℕ} (a : ℕ) (divisors : List ℕ) (hprime : ∀ d ∈ divisors, d.Prime)
    (hprod : divisors.prod = q - 1) (hq : 1 < q) (hone : powNat a (q - 1) q = 1)
    (hne : ∀ d ∈ divisors, powNat a ((q - 1) / d) q ≠ 1) : q.Prime := by
  refine lucas_primality q a ((natCast_pow_eq_one_iff hq a _).2 hone) ?_
  intro d hd hdvd
  rw [← hprod] at hdvd
  obtain ⟨c, hc, hdc⟩ := (Prime.dvd_prod_iff hd.prime).1 hdvd
  have he : d = c := (Nat.prime_dvd_prime_iff_eq hd (hprime c hc)).1 hdc
  rw [Ne, natCast_pow_eq_one_iff hq, he]
  exact hne c hc

theorem prime_p : p.toNat.Prime := by
  have h27 : Nat.Prime 107590001 :=
    prime_of_powers 3 [2, 2, 2, 2, 5, 5, 5, 5, 7, 29, 53] (by norm_num) (by decide) (by decide)
      (by decide +kernel) (by decide +kernel)
  have h58 : Nat.Prime 173378833005251801 :=
    prime_of_powers 6 [2, 2, 2, 5, 5, 2621, 24809, 13331831] (by norm_num) (by decide)
      (by decide) (by decide +kernel) (by decide +kernel)
  have h75 : Nat.Prime 22149492674086928081353 :=
    prime_of_powers 5 [173378833005251801, 2, 2, 2, 3, 5323]
      (List.forall_mem_cons.2 ⟨h58, by norm_num⟩) (by decide) (by decide) (by decide +kernel)
      (by decide +kernel)
  have h77 : Nat.Prime 132896956044521568488119 :=
    prime_of_powers 6 [22149492674086928081353, 2, 3]
      (List.forall_mem_cons.2 ⟨h75, by norm_num⟩) (by decide) (by decide) (by decide +kernel)
      (by decide +kernel)
  have h128 : Nat.Prime 255515944373312847190720520512484175977 :=
    prime_of_powers 3 [107590001, 2, 2, 2, 7, 7, 11, 1627, 2657, 4423, 41201, 96557, 7240687]
      (List.forall_mem_cons.2 ⟨h27, by norm_num⟩) (by decide) (by decide) (by decide +kernel)
      (by decide +kernel)
  have h237 :
      Nat.Prime 205115282021455665897114700593932402728804164701536103180137503955397371 :=
    prime_of_powers 10 [132896956044521568488119, 255515944373312847190720520512484175977, 2, 3,
      5, 29, 29, 31, 7723]
      (List.forall_mem_cons.2 ⟨h77, List.forall_mem_cons.2 ⟨h128, by norm_num⟩⟩) (by decide)
      (by decide) (by decide +kernel) (by decide +kernel)
  exact prime_of_powers 3
    [205115282021455665897114700593932402728804164701536103180137503955397371, 2, 3, 7, 13441]
    (List.forall_mem_cons.2 ⟨h237, by norm_num⟩) (by decide) (by decide) (by decide +kernel)
    (by decide +kernel)

theorem prime_n : n.toNat.Prime := by
  have h30 : Nat.Prime 545358713 :=
    prime_of_powers 5 [2, 2, 2, 41, 59, 28181] (by norm_num) (by decide) (by decide)
      (by decide +kernel) (by decide +kernel)
  have h39 : Nat.Prime 297159362677 :=
    prime_of_powers 2 [2, 2, 3, 3, 11, 461, 1627771] (by norm_num) (by decide)
      (by decide) (by decide +kernel) (by decide +kernel)
  have h57 : Nat.Prime 107361793816595537 :=
    prime_of_powers 3 [2, 2, 2, 2, 16699, 85831, 4681609] (by norm_num) (by decide)
      (by decide) (by decide +kernel) (by decide +kernel)
  have h68 : Nat.Prime 174723607534414371449 :=
    prime_of_powers 3 [2, 2, 2, 17, 59, 4051, 120233, 44706919] (by norm_num) (by decide)
      (by decide) (by decide +kernel) (by decide +kernel)
  have h95 : Nat.Prime 29047611873442575647497758179 :=
    prime_of_powers 2 [545358713, 297159362677, 2, 293, 305873]
      (List.forall_mem_cons.2 ⟨h30, List.forall_mem_cons.2 ⟨h39, by norm_num⟩⟩) (by decide)
      (by decide) (by decide +kernel) (by decide +kernel)
  have h109 : Nat.Prime 341948486974166000522343609283189 :=
    prime_of_powers 2 [29047611873442575647497758179, 2, 2, 3, 3, 3, 109]
      (List.forall_mem_cons.2 ⟨h95, by norm_num⟩) (by decide) (by decide) (by decide +kernel)
      (by decide +kernel)
  exact prime_of_powers 7 [107361793816595537, 174723607534414371449,
    341948486974166000522343609283189, 2, 2, 2, 2, 2, 2, 3, 149, 631]
    (List.forall_mem_cons.2 ⟨h57, List.forall_mem_cons.2 ⟨h68, List.forall_mem_cons.2
      ⟨h109, by norm_num⟩⟩⟩) (by decide) (by decide) (by decide +kernel) (by decide +kernel)

end BitcoinCash.Secp256k1
