import Mathlib.Data.List.Forall2
import Mathlib.Data.List.NodupEquivFin
import BitcoinCash.Machine.SignatureCheck
import BitcoinCash.Proofs.Machine.Stack

namespace BitcoinCash

open List (SublistForall₂)
open Fallible (bind_eq_ok pure_eq_ok)

section Matching

variable {α β : Type} {R : α → β → Prop} {x : α} {xs : List α} {y : β} {ys : List β}

theorem sublistForall₂_iff_exists_strictMono :
    SublistForall₂ R xs ys ↔
      ∃ a : Fin xs.length → Fin ys.length, StrictMono a ∧ ∀ i, R (xs.get i) (ys.get (a i)) := by
  rw [List.sublistForall₂_iff]
  constructor
  · rintro ⟨l, hl, hs⟩
    obtain ⟨f, hf⟩ := List.sublist_iff_exists_fin_orderEmbedding_get_eq.1 hs
    obtain ⟨hlen, hR⟩ := List.forall₂_iff_get.1 hl
    refine ⟨fun i ↦ f (i.cast hlen), fun i j hij ↦ f.strictMono hij, fun i ↦ ?_⟩
    rw [← hf]
    exact hR i i.2 (hlen ▸ i.2)
  · rintro ⟨a, ha, hR⟩
    refine ⟨List.ofFn fun i ↦ ys.get (a i), List.forall₂_iff_get.2 ⟨by simp, ?_⟩, ?_⟩
    · intro i h₁ h₂
      rw [List.get_ofFn]
      exact hR ⟨i, h₁⟩
    · exact List.sublist_iff_exists_fin_orderEmbedding_get_eq.2
        ⟨.ofStrictMono (fun i ↦ a (i.cast (by simp))) fun i j hij ↦ ha hij, List.get_ofFn _⟩

theorem sublistForall₂_of_cons (h : SublistForall₂ R (x :: xs) ys) : SublistForall₂ R xs ys := by
  induction ys with
  | nil => cases h
  | cons y ys ih =>
    cases h with
    | cons _ h => exact .cons_right h
    | cons_right h => exact .cons_right (ih h)

/-- The exchange: a key that can take the first signature may as well take it. -/
theorem sublistForall₂_cons_cons (h : R x y) :
    SublistForall₂ R (x :: xs) (y :: ys) ↔ SublistForall₂ R xs ys := by
  refine ⟨fun hm ↦ ?_, .cons h⟩
  cases hm with
  | cons _ hm => exact hm
  | cons_right hm => exact sublistForall₂_of_cons hm

theorem sublistForall₂_cons_cons_of_not (h : ¬ R x y) :
    SublistForall₂ R (x :: xs) (y :: ys) ↔ SublistForall₂ R (x :: xs) ys := by
  refine ⟨fun hm ↦ ?_, .cons_right⟩
  cases hm with
  | cons hxy _ => exact absurd hxy h
  | cons_right hm => exact hm

theorem length_le_of_sublistForall₂ (h : SublistForall₂ R xs ys) : xs.length ≤ ys.length := by
  obtain ⟨l, hl, hs⟩ := List.sublistForall₂_iff.1 h
  exact hl.length_eq ▸ hs.length_le

end Matching

namespace SignatureCheck

variable {env : Environment} {base : Script}

/-- The signature is not empty, and valid for the key over the script code prepared for it. -/
def Accepts (env : Environment) (base : Script) (sig key : Bytes) : Prop :=
  sig ≠ [] ∧ ∃ ctx code, env.context = some ctx ∧ env.codeFor base sig = .ok code ∧
    ctx.verify sig key code env.input env.flags = .ok true

/-- An order-preserving way to give each signature a key that accepts it. -/
def Ballot.HasMatching (env : Environment) (b : Ballot) : Prop :=
  ∃ a : Fin b.signatures.length → Fin b.keys.length, StrictMono a ∧
    ∀ i, Accepts env b.base (b.signatures.get i) (b.keys.get (a i))

theorem ask_eq_ok_true {q : Question} :
    env.ask q = .ok true ↔ ∃ ctx, env.context = some ctx ∧
      ctx.verify q.signature q.key q.code env.input env.flags = .ok true := by
  unfold Environment.ask
  cases env.context with
  | none => simp [reject_ne_ok]
  | some ctx => cases hv : ctx.verify q.signature q.key q.code env.input env.flags <;> simp [hv]

theorem attempt_spec {sig key : Bytes} {valid : Bool} (h : attempt env base sig key = .ok valid) :
    valid ↔ Accepts env base sig key := by
  simp only [attempt, bind_eq_ok] at h
  obtain ⟨_, _, _, _, h⟩ := h
  unfold Accepts
  split at h
  next he =>
    obtain rfl := pure_eq_ok.1 h
    simp [List.isEmpty_iff.1 he]
  next he =>
    obtain ⟨code, hcode, h⟩ := bind_eq_ok.1 h
    have asked : valid = true ↔ env.ask ⟨sig, key, code⟩ = .ok true := by rw [h]; simp
    rw [asked, ask_eq_ok_true]
    simp_all

/-- The invariant of the search: what is left can be matched exactly if all could. -/
theorem matchKeys_spec {keys sigs : List Bytes} {valid : Bool}
    (h : matchKeys env base keys sigs = .ok valid) :
    valid ↔ SublistForall₂ (Accepts env base) sigs keys := by
  induction keys generalizing sigs with
  | nil =>
    cases sigs with
    | nil => cases h; simp [SublistForall₂.nil]
    | cons sig sigs => cases h
  | cons key keys ih =>
    cases sigs with
    | nil => cases h; simp [SublistForall₂.nil]
    | cons sig sigs =>
      obtain ⟨took, ht, h⟩ := bind_eq_ok.1 h
      have step : SublistForall₂ (Accepts env base) (sig :: sigs) (key :: keys) ↔
          SublistForall₂ (Accepts env base) (if took then sigs else sig :: sigs) keys := by
        have accepts := attempt_spec ht
        -- a key that accepts is exchanged into any matching, one that does not is part of none
        cases took with
        | true => exact sublistForall₂_cons_cons (accepts.1 rfl)
        | false => exact sublistForall₂_cons_cons_of_not fun ha ↦ Bool.false_ne_true (accepts.2 ha)
      rw [step]
      dsimp only at h
      generalize (if took then sigs else sig :: sigs) = left at h ⊢
      split at h
      next hlen =>
        obtain rfl := pure_eq_ok.1 h
        simp only [Bool.false_eq_true, false_iff]
        exact fun hm ↦ absurd (length_le_of_sublistForall₂ hm) (Nat.not_le.2 hlen)
      next => exact ih h

theorem matchKeys_iff_hasMatching {b : Ballot} {valid : Bool}
    (h : matchKeys env b.base b.keys b.signatures = .ok valid) : valid ↔ b.HasMatching env :=
  (matchKeys_spec h).trans sublistForall₂_iff_exists_strictMono

variable {here : Place} {f f' : Frame} {b : Ballot}

theorem drop_of_peekRange {s : Stack} {depth n : ℕ} {xs : List Bytes}
    (h : peekRange s depth n = .ok xs) :
    s.drop depth = xs ++ s.drop (depth + n) ∧ xs.length = n := by
  induction n generalizing depth xs with
  | zero =>
    cases h
    exact ⟨rfl, rfl⟩
  | succ n ih =>
    obtain ⟨x, hx, h⟩ := bind_eq_ok.1 h
    obtain ⟨ys, hys, h⟩ := bind_eq_ok.1 h
    obtain rfl := pure_eq_ok.1 h
    obtain ⟨hd, rfl⟩ := ih hys
    refine ⟨?_, rfl⟩
    rw [Stack.drop_of_peek hx, hd, List.cons_append]
    congr 3
    omega

/-- The counts and the elements between them, as they lie on the stack from the top down. -/
structure Ballot.ReadFrom (env : Environment) (here : Place) (f : Frame) (b : Ballot)
    (below : Stack) : Prop where
  data_eq : ∃ n m, f.data = n :: b.keys ++ m :: b.signatures ++ below ∧
    Number.decode env.numbers n = .ok b.keys.length ∧
    Number.decode env.numbers m = .ok b.signatures.length
  base_eq : ∃ code, here.code f = .ok code ∧ stripAll env code b.signatures = .ok b.base

theorem ballot_spec (h : ballot env here f = .ok (b, f')) :
    b.ReadFrom env here f (f.data.drop (2 + b.keys.length + b.signatures.length)) ∧
      f' = { f with opCount := f.opCount + b.keys.length } := by
  simp only [ballot, bind_eq_ok, pure_eq_ok, require_eq_ok, Prod.mk.injEq] at h
  obtain ⟨n, hn, _, ⟨hn0, -⟩, _, -, m, hm, _, ⟨hm0, -⟩, keys, hk, sigs, hs, code, hc, base, hb,
    rfl, rfl⟩ := h
  obtain ⟨x, hx, hxn⟩ := Stack.drop_of_peekNumber hn
  obtain ⟨hkeys, hkn⟩ := drop_of_peekRange hk
  obtain ⟨y, hy, hym⟩ := Stack.drop_of_peekNumber hm
  obtain ⟨hsigs, hsm⟩ := drop_of_peekRange hs
  have hn : n = keys.length := by omega
  have hm : m = sigs.length := by omega
  refine ⟨⟨⟨x, y, ?_, hn ▸ hxn, hm ▸ hym⟩, code, hc, hb⟩, by rw [hkn]⟩
  calc f.data = x :: f.data.drop 1 := hx
    _ = x :: (keys ++ y :: f.data.drop (2 + n.toNat)) := by
      rw [hkeys, hy, Nat.add_right_comm 1 n.toNat 1]
    _ = x :: keys ++ y :: sigs ++ f.data.drop (2 + keys.length + sigs.length) := by
      rw [hsigs, hkn, hsm]
      simp

/-- A check that comes to an end leaves in place of what it has read whether the signatures can be
given to the keys in order. -/
theorem checkMany_eq_ok (h : checkMany env here f = .ok f') :
    ∃ (b : Ballot) (dummy : Bytes) (rest : Stack) (valid : Bool),
      b.ReadFrom env here f (dummy :: rest) ∧ (valid ↔ b.HasMatching env) ∧
      f' = { f with data := ofBool valid :: rest, opCount := f.opCount + b.keys.length } := by
  simp only [checkMany_eq, Stack.dropTop, bind_eq_ok, pure_eq_ok, Stack.pop_eq_ok, Prod.exists] at h
  obtain ⟨b, g, hb, valid, hv, _, -, data, ⟨_, -, rfl⟩, dummy, rest, hp, _, -, rfl⟩ := h
  obtain ⟨hread, rfl⟩ := ballot_spec hb
  exact ⟨b, dummy, rest, valid, hp ▸ hread, matchKeys_iff_hasMatching hv, rfl⟩

theorem checkMany_eq_ok_two_of_three :
    let ctx : Context := ⟨fun sig key _ _ _ ↦ .ok (sig.head? = key.head?), 0, 1, fun _ ↦ 0⟩
    let env : Environment := { flags := .forkId, context := some ctx }
    let f : Frame := .start [[3], [7], [8], [9], [2], [7, 0x41], [9, 0x41], []]
    ∃ (b : Ballot) (dummy : Bytes) (rest : Stack) (valid : Bool),
      b.ReadFrom env ⟨[], 0⟩ f (dummy :: rest) ∧ (valid ↔ b.HasMatching env) ∧
        { f with data := [[1]], opCount := 3 } =
          { f with data := ofBool valid :: rest, opCount := f.opCount + b.keys.length } := by
  dsimp only
  exact checkMany_eq_ok rfl

end SignatureCheck

end BitcoinCash
