import Mathlib.Data.Nat.Bitwise
import BitcoinCash.Digest.Hmac

namespace BitcoinCash

namespace Digest

variable {σ : Type} {f : σ → Array UInt32 → σ}

theorem foldl_absorb_of_lt (words : List UInt32) (s : σ) {block : Array UInt32}
    (h : block.size + words.length < 16) :
    words.foldl (Progress.absorb f) ⟨s, block⟩ = ⟨s, block ++ words.toArray⟩ := by
  induction words generalizing block with
  | nil => simp
  | cons w words ih =>
    rw [List.length_cons] at h
    rw [List.foldl_cons, Progress.absorb, if_neg (by simp; omega), ih (by simp; omega)]
    simp

theorem foldl_absorb_of_eq (words : List UInt32) (w : UInt32) (s : σ)
    (h : words.length + 1 = 16) :
    (words ++ [w]).foldl (Progress.absorb f) ⟨s, #[]⟩ = ⟨f s (words ++ [w]).toArray, #[]⟩ := by
  rw [List.foldl_append, foldl_absorb_of_lt words s (by simp; omega), List.foldl_cons,
    Progress.absorb, if_pos (by simpa using h), List.foldl_nil]
  simp

theorem foldBlocks_append {block : List UInt32} (h : block.length = 16) (s : σ)
    (rest : List UInt32) :
    foldBlocks f s (block ++ rest) = foldBlocks f (f s block.toArray) rest := by
  obtain rfl | ⟨words, w, rfl⟩ := block.eq_nil_or_concat
  · cases h
  · rw [List.concat_eq_append] at h ⊢
    rw [List.length_append, List.length_singleton] at h
    rw [foldBlocks, List.foldl_append, foldl_absorb_of_eq words w s h, foldBlocks]

theorem foldBlocks_of_length_lt (s : σ) {words : List UInt32} (h : words.length < 16) :
    foldBlocks f s words = s := by
  rw [foldBlocks, foldl_absorb_of_lt words s (by simpa using h)]

theorem wordsBE_append {k : ℕ} {a : Bytes} (h : a.length = 4 * k) (b : Bytes) :
    wordsBE (a ++ b) = wordsBE a ++ wordsBE b := by
  induction k generalizing a with
  | zero => rw [List.eq_nil_of_length_eq_zero h]; rfl
  | succ k ih =>
    match a, h with
    | x :: y :: z :: t :: a, h =>
      exact congrArg (word x y z t :: ·) (ih (by simp only [List.length_cons] at h; omega))

theorem length_wordsBE {k : ℕ} {a : Bytes} (h : a.length = 4 * k) : (wordsBE a).length = k := by
  induction k generalizing a with
  | zero => rw [List.eq_nil_of_length_eq_zero h]; rfl
  | succ k ih =>
    match a, h with
    | x :: y :: z :: t :: a, h =>
      exact congrArg (· + 1) (ih (by simp only [List.length_cons] at h; omega))

def blocks : List UInt32 → List (List UInt32)
  | a :: b :: c :: d :: e :: f :: g :: h :: i :: j :: k :: l :: m :: n :: o :: p :: rest =>
    [a, b, c, d, e, f, g, h, i, j, k, l, m, n, o, p] :: blocks rest
  | _ => []

theorem blocks_append {k : ℕ} {words : List UInt32} (h : words.length = 16 * k)
    (rest : List UInt32) : blocks (words ++ rest) = blocks words ++ blocks rest := by
  induction k generalizing words with
  | zero => rw [List.eq_nil_of_length_eq_zero h]; rfl
  | succ k ih =>
    match words, h with
    | a :: b :: c :: d :: e :: f :: g :: h :: i :: j :: k :: l :: m :: n :: o :: p :: words, hlen =>
      exact congrArg ([a, b, c, d, e, f, g, h, i, j, k, l, m, n, o, p] :: ·)
        (ih (by simp only [List.length_cons] at hlen; omega))

theorem blocks_wordsBE_append {k : ℕ} {a : Bytes} (h : a.length = 64 * k) (b : Bytes) :
    blocks (wordsBE (a ++ b)) = blocks (wordsBE a) ++ blocks (wordsBE b) := by
  have h : a.length = 4 * (16 * k) := by omega
  rw [wordsBE_append h, blocks_append (length_wordsBE h)]

theorem blocks_wordsBE_zeros (n : ℕ) :
    blocks (wordsBE (List.replicate (64 * n) 0)) = List.replicate n (List.replicate 16 0) := by
  induction n with
  | zero => rfl
  | succ n ih =>
    rw [Nat.mul_succ, Nat.add_comm, ← List.replicate_append_replicate,
      blocks_wordsBE_append (k := 1) rfl, ih]
    rfl

end Digest

namespace Sha256

open Digest

variable {α : Type}

/-- Gives `f` the number `n` once it is a numeral, so that it is evaluated only once. -/
def force (n : ℕ) (f : ℕ → α) : α := Nat.rec (f 0) (fun m _ ↦ f (m + 1)) n

theorem force_eq (n : ℕ) (f : ℕ → α) : force n f = f n := by cases n <;> rfl

/-- Two copies of a word in a row hold its rotations. -/
def rotated (x i : ℕ) : ℕ := ((x.mul 0x100000001).shiftRight i).mod 0x100000000

theorem toNat_rotateRight (x : UInt32) {n : UInt32} (h0 : 0 < n.toNat) (hn : n.toNat < 32) :
    (rotateRight x n).toNat = rotated x.toNat n.toNat := by
  have hx : x.toNat < 2 ^ 32 := x.toNat_lt
  have hleft : (32 - n).toNat % 32 = 32 - n.toNat := by
    rw [UInt32.toNat_sub_of_le _ _ (UInt32.le_iff_toNat_le.2 hn.le)]
    exact Nat.mod_eq_of_lt (Nat.sub_lt (by decide) h0)
  have hcopies : x.toNat.mul 0x100000001 = 2 ^ 32 * x.toNat + x.toNat := by
    change x.toNat * _ = _
    omega
  rw [rotated, hcopies, rotateRight, UInt32.toNat_or, UInt32.toNat_shiftRight,
    UInt32.toNat_shiftLeft, Nat.mod_eq_of_lt hn, hleft]
  generalize n.toNat = i at *
  refine Nat.eq_of_testBit_eq fun j ↦ ?_
  change _ = Nat.testBit (((2 ^ 32 * x.toNat + x.toNat) >>> i) % 2 ^ 32) j
  rw [Nat.testBit_or, Nat.testBit_mod_two_pow, Nat.testBit_mod_two_pow, Nat.testBit_shiftRight,
    Nat.testBit_shiftRight, Nat.testBit_shiftLeft, Nat.testBit_two_pow_mul_add _ hx]
  have hhigh {k : ℕ} (hk : 32 ≤ k) : x.toNat.testBit k = false :=
    Nat.testBit_lt_two_pow (hx.trans_le (Nat.pow_le_pow_right (by decide) hk))
  by_cases hj : j < 32
  · by_cases hij : i + j < 32
    · simp [hj, hij, show ¬ 32 ≤ j + i by omega]
    · have hback : j - (32 - i) = i + j - 32 := by omega
      simp [hj, hij, hhigh (Nat.not_lt.1 hij), hback, show 32 ≤ j + i by omega]
  · simp [hj, hhigh (Nat.le_add_left_of_le (Nat.not_lt.1 hj))]

/-- A value that is made of the words of a chain. -/
abbrev Reading (α : Type) := (a b c d e f g h : ℕ) → α

def Chain.read (s : Chain) (next : Reading α) : α :=
  next s.a.toNat s.b.toNat s.c.toNat s.d.toNat s.e.toNat s.f.toNat s.g.toNat s.h.toNat

def roundBy (k : ℕ) (next : Reading α) : Reading α := fun a b c d e f g h ↦
  force (((h.add (((rotated e 6).xor (rotated e 11)).xor (rotated e 25))).add
    ((e.land f).xor ((Nat.sub 0xffffffff e).land g))).add k) fun t ↦
  force ((t.add ((((rotated a 2).xor (rotated a 13)).xor (rotated a 22)).add
    (((a.land b).xor (a.land c)).xor (b.land c)))).mod 0x100000000) fun a' ↦
  force ((d.add t).mod 0x100000000) fun e' ↦
  next a' a b c e' e f g

theorem roundBy_eq (k : ℕ) (next : Reading α) (a b c d e f g h : ℕ) :
    roundBy k next a b c d e f g h =
      let t := h + (rotated e 6 ^^^ rotated e 11 ^^^ rotated e 25) +
        ((e &&& f) ^^^ ((0x100000000 - 1 - e) &&& g)) + k
      let u := (rotated a 2 ^^^ rotated a 13 ^^^ rotated a 22) +
        ((a &&& b) ^^^ (a &&& c) ^^^ (b &&& c))
      next ((t + u) % 2 ^ 32) a b c ((d + t) % 2 ^ 32) e f g := by
  simp only [roundBy, force_eq]
  rfl

theorem read_round (s : Chain) (k : UInt32) (next : Reading α) :
    (round s k).read next = s.read (roundBy k.toNat next) := by
  rw [Chain.read, Chain.read, roundBy_eq]
  simp (disch := decide) only [round, UInt32.toNat_add, UInt32.toNat_xor, UInt32.toNat_and,
    UInt32.toNat_not, UInt32.size, toNat_rotateRight, UInt32.reduceToNat]
  congr 1
  · omega
  · omega

def compressBy (ks : List ℕ) (next : Reading α) : Reading α := fun a b c d e f g h ↦
  ks.foldr roundBy (fun a' b' c' d' e' f' g' h' ↦
    force ((a.add a').mod 0x100000000) fun a ↦ force ((b.add b').mod 0x100000000) fun b ↦
    force ((c.add c').mod 0x100000000) fun c ↦ force ((d.add d').mod 0x100000000) fun d ↦
    force ((e.add e').mod 0x100000000) fun e ↦ force ((f.add f').mod 0x100000000) fun f ↦
    force ((g.add g').mod 0x100000000) fun g ↦ force ((h.add h').mod 0x100000000) fun h ↦
    next a b c d e f g h) a b c d e f g h

theorem read_foldl_round (s : Chain) (ks : List UInt32) (next : Reading α) :
    (ks.foldl round s).read next = s.read ((ks.map UInt32.toNat).foldr roundBy next) := by
  induction ks generalizing s with
  | nil => rfl
  | cons k ks ih => rw [List.foldl_cons, ih, read_round, List.map_cons, List.foldr_cons]

abbrev Window (α : Type) := (a b c d e f g h i j k l m n o p : ℕ) → α

/-- Moves the window on by `t` words. Behind it lie the words `out`, the newest first. -/
def slideBy (next : List ℕ → α) : (t : ℕ) → (out : List ℕ) → Window α
  | 0, out => fun a b c d e f g h i j k l m n o p ↦
    next (out.reverse ++ [a, b, c, d, e, f, g, h, i, j, k, l, m, n, o, p])
  | t + 1, out => fun a b c d e f g h i j k l m n o p ↦
    force ((((a.add (((rotated b 7).xor (rotated b 18)).xor (b.shiftRight 3))).add j).add
      (((rotated o 17).xor (rotated o 19)).xor (o.shiftRight 10))).mod 0x100000000) fun q ↦
    slideBy next t (a :: out) b c d e f g h i j k l m n o p q

theorem repeat_succ {β : Type} (f : β → β) (n : ℕ) (x : β) :
    Nat.repeat f (n + 1) x = Nat.repeat f n (f x) := by
  induction n with
  | zero => rfl
  | succ n ih => exact congrArg f ih

theorem toNat_getD (w : Array UInt32) (i : ℕ) :
    (w.getD i 0).toNat = (w.toList.map UInt32.toNat).getD i 0 := by
  rw [List.getD_eq_getElem?_getD, List.getElem?_map, Array.getElem?_toList,
    Array.getD_eq_getD_getElem?]
  cases w[i]? <;> rfl

theorem add_mod_add_mod (x y z t : ℕ) :
    (((x + y) % 2 ^ 32 + z) % 2 ^ 32 + t) % 2 ^ 32 = (x + y + z + t) % 0x100000000 := by
  omega

theorem slideBy_eq (next : List ℕ → α) (t : ℕ) {w : Array UInt32} {out : List ℕ}
    {a b c d e f g h i j k l m n o p : ℕ}
    (hw : w.toList.map UInt32.toNat =
      out.reverse ++ [a, b, c, d, e, f, g, h, i, j, k, l, m, n, o, p]) :
    slideBy next t out a b c d e f g h i j k l m n o p =
      next ((Nat.repeat extend t w).toList.map UInt32.toNat) := by
  induction t generalizing w out a b c d e f g h i j k l m n o p with
  | zero => exact congrArg next hw.symm
  | succ t ih =>
    have hsize : w.size = out.length + 16 := by simpa using congrArg List.length hw
    -- the word `16 - x` places before the end is that at place `x` of the window
    have hword (x : ℕ) (hx : x < 16) : (w.getD (w.size - (16 - x)) 0).toNat =
        [a, b, c, d, e, f, g, h, i, j, k, l, m, n, o, p].getD x 0 := by
      rw [toNat_getD, hw, hsize, List.getD_append_right _ _ _ _ (by simp; omega)]
      congr 1
      simp
      omega
    simp only [slideBy, force_eq, repeat_succ]
    refine ih ?_
    have ha : (w.getD (w.size - 16) 0).toNat = a := hword 0 (by decide)
    have hb : (w.getD (w.size - 15) 0).toNat = b := hword 1 (by decide)
    have hj : (w.getD (w.size - 7) 0).toNat = j := hword 9 (by decide)
    have ho : (w.getD (w.size - 2) 0).toNat = o := hword 14 (by decide)
    rw [extend, Array.toList_push, List.map_append, hw, List.reverse_cons, List.append_assoc,
      List.append_assoc]
    refine congrArg (out.reverse ++ ·) ?_
    simp (disch := decide) only [List.map_cons, List.map_nil, UInt32.toNat_add, UInt32.toNat_xor,
      UInt32.toNat_shiftRight, toNat_rotateRight, UInt32.reduceToNat, ha, hb, hj, ho]
    exact congrArg (fun q ↦ [a, b, c, d, e, f, g, h, i, j, k, l, m, n, o, p, q])
      (add_mod_add_mod _ _ _ _)

def sums (block : List UInt32) : List ℕ :=
  match block.map UInt32.toNat with
  | [a, b, c, d, e, f, g, h, i, j, k, l, m, n, o, p] =>
    slideBy (List.zipWith (fun k x ↦ (k.add x).mod 0x100000000) (constants.map UInt32.toNat)) 48 []
      a b c d e f g h i j k l m n o p
  | _ => []

theorem sums_eq {block : List UInt32} (h : block.length = 16) :
    sums block =
      (List.zipWith (· + ·) constants (schedule block.toArray).toList).map UInt32.toNat := by
  match block, h with
  | [a, b, c, d, e, f, g, h, i, j, k, l, m, n, o, p], _ =>
    refine (slideBy_eq (w := #[a, b, c, d, e, f, g, h, i, j, k, l, m, n, o, p]) _ 48 rfl).trans ?_
    rw [List.map_zipWith, List.zipWith_map]
    simp only [UInt32.toNat_add]
    rfl

theorem read_compress (s : Chain) {block : List UInt32} (h : block.length = 16)
    (next : Reading α) :
    (compress s block.toArray).read next =
      s.read (compressBy (sums block) next) := by
  have hrounds := read_foldl_round s
    (List.zipWith (· + ·) constants (schedule block.toArray).toList) fun a' b' c' d' e' f' g' h' ↦
    next ((s.a.toNat + a') % 2 ^ 32) ((s.b.toNat + b') % 2 ^ 32) ((s.c.toNat + c') % 2 ^ 32)
      ((s.d.toNat + d') % 2 ^ 32) ((s.e.toNat + e') % 2 ^ 32) ((s.f.toNat + f') % 2 ^ 32)
      ((s.g.toNat + g') % 2 ^ 32) ((s.h.toNat + h') % 2 ^ 32)
  rw [Chain.read, Chain.read] at hrounds ⊢
  simp only [compressBy, force_eq, sums_eq h]
  refine Eq.trans ?_ hrounds
  simp only [compress, UInt32.toNat_add]

def digestBy (next : Reading α) (blocks : List (List UInt32)) : Reading α :=
  blocks.foldr (fun block ↦ compressBy (sums block)) next

theorem read_foldBlocks (next : Reading α) (s : Chain) (words : List UInt32) :
    (foldBlocks compress s words).read next = s.read (digestBy next (blocks words)) := by
  fun_induction blocks words generalizing s with
  | case1 a b c d e f g h i j k l m n o p rest ih =>
    have hblock : [a, b, c, d, e, f, g, h, i, j, k, l, m, n, o, p].length = 16 := rfl
    rw [digestBy, List.foldr_cons, ← read_compress s hblock]
    exact (congrArg (Chain.read · next) (foldBlocks_append hblock s rest)).trans (ih _)
  | case2 words hshort =>
    have hlength : words.length < 16 := by
      by_contra hle
      have hblock : (words.take 16).length = 16 := List.length_take_of_le (Nat.not_lt.1 hle)
      have hwords : words = words.take 16 ++ words.drop 16 := (List.take_append_drop 16 words).symm
      generalize words.take 16 = block at hblock hwords
      match block, hblock with
      | [a, b, c, d, e, f, g, h, i, j, k, l, m, n, o, p], _ =>
        exact hshort _ _ _ _ _ _ _ _ _ _ _ _ _ _ _ _ _ hwords
    exact congrArg (Chain.read · next) (foldBlocks_of_length_lt s hlength)

end Sha256

open Sha256 in
def sha256ByBlocks (blocks : List (List UInt32)) : Bytes :=
  Chain.start.read (digestBy (fun a b c d e f g h ↦ Chain.toBytes
    ⟨.ofNat a, .ofNat b, .ofNat c, .ofNat d, .ofNat e, .ofNat f, .ofNat g, .ofNat h⟩) blocks)

open Digest Sha256

theorem sha256_eq (b : Bytes) :
    sha256 b = sha256ByBlocks (blocks (wordsBE (pad (Bytes.ofNatBE 8) b))) := by
  rw [sha256ByBlocks, ← read_foldBlocks, Chain.read]
  simp only [UInt32.ofNat_toNat]
  rfl

/-- The blocks within a run of zeros are all the same. -/
theorem sha256_append_zeros {a b : Bytes} {k m n : ℕ} (ha : a.length = 64 * k)
    (hm : m = 64 * k + (64 * n + b.length)) :
    sha256 (a ++ (List.replicate (64 * n) 0 ++ b)) =
      sha256ByBlocks (blocks (wordsBE a) ++ (List.replicate n (List.replicate 16 0) ++ blocks (wordsBE
        (b ++ 0x80 :: (List.replicate ((119 - m % 64) % 64) 0 ++ Bytes.ofNatBE 8 (8 * m)))))) := by
  have hlength : (a ++ (List.replicate (64 * n) 0 ++ b)).length = m := by
    rw [List.length_append, List.length_append, List.length_replicate, ha, hm]
  rw [sha256_eq, pad, hlength, List.append_assoc, List.append_assoc, blocks_wordsBE_append ha,
    blocks_wordsBE_append List.length_replicate, blocks_wordsBE_zeros]

def hmacByBlocks (key message : Bytes) : Bytes :=
  let k := Hmac.blockKey key
  let digest b := sha256ByBlocks (blocks (wordsBE (pad (Bytes.ofNatBE 8) b)))
  digest (k.map (· ^^^ 0x5c) ++ digest (k.map (· ^^^ 0x36) ++ message))

theorem hmacSha256_eq : hmacSha256 = hmacByBlocks := by
  funext key message
  rw [hmacSha256, sha256_eq, sha256_eq]
  rfl

end BitcoinCash
