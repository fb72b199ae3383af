import Mathlib.Data.List.Forall2
import BitcoinCash.Proofs.Wire.CompactSize
import BitcoinCash.Proofs.Wire.Cursor
import BitcoinCash.Wire.Sequence

namespace BitcoinCash

open CursorError (wire)
open List (Forall₂)

/-- The calls that read a value back. Bytes are read by their number, and also as a hash if there
are 32 of them. -/
inductive WireKind.Matches : WireKind → WireValue → Prop
  | same (v : WireValue) : Matches v.kind v
  | hash {b : Bytes} : b.length = 32 → Matches .hash (.bytes b)

def WireValue.Fits : WireValue → Prop
  | .varBytes b => b.length < 2 ^ 64
  | _ => True

/-- The number of bytes that a call asks for does not depend on them. -/
def WireKind.IsFixed : WireKind → Prop
  | .compactSize | .varBytes => False
  | _ => True

theorem Wire.written_eq_flatMap (vs : List WireValue) : written vs = vs.flatMap WireValue.encode :=
  List.flatMap_eq_foldl.symm

namespace WireKind

variable {k : WireKind} {v : WireValue} {ks : List WireKind} {vs : List WireValue}

theorem takes_read (hk : k.Matches v) (hv : v.Fits) : Takes k.read v.encode v := by
  cases hk with
  | hash hlen => exact (Reader.takes_bytes hlen).bind_pure WireValue.bytes
  | same =>
    cases v with
    | bytes b => exact (Reader.takes_bytes rfl).bind_pure WireValue.bytes
    | u8 v => exact (Reader.takes_u8 v).bind_pure WireValue.u8
    | u16 v => exact (Reader.takes_u16 v).bind_pure WireValue.u16
    | u32 v => exact (Reader.takes_u32 v).bind_pure WireValue.u32
    | u64 v => exact (Reader.takes_u64 v).bind_pure WireValue.u64
    | compactSize v => exact (Reader.takes_compactSize v).bind_pure WireValue.compactSize
    | varBytes b => exact (Reader.takes_varBytes hv).bind_pure WireValue.varBytes

theorem follows_readAt (k : WireKind) : Follows wire k.readAt k.read := by
  cases k with
  | bytes n => exact (CursorReader.follows_bytes n).bind_pure WireValue.bytes
  | u8 => exact CursorReader.follows_u8.bind_pure WireValue.u8
  | u16 => exact CursorReader.follows_u16.bind_pure WireValue.u16
  | u32 => exact CursorReader.follows_u32.bind_pure WireValue.u32
  | u64 => exact CursorReader.follows_u64.bind_pure WireValue.u64
  | hash => exact (CursorReader.follows_array 32).bind_pure WireValue.bytes
  | compactSize => exact CursorReader.follows_compactSize.bind_pure WireValue.compactSize
  | varBytes => exact CursorReader.follows_varBytes.bind_pure WireValue.varBytes

theorem readEach_flatMap (h : Forall₂ Matches ks vs) (hv : ∀ v ∈ vs, v.Fits) (s t : Bytes) :
    readEach ks ⟨s ++ vs.flatMap WireValue.encode ++ t, s.length⟩ =
      .ok vs ⟨s ++ vs.flatMap WireValue.encode ++ t,
        (s ++ vs.flatMap WireValue.encode).length⟩ := by
  induction h generalizing s with
  | nil => simp [readEach, pure, EStateM.pure]
  | @cons k v ks vs hk _ ih =>
    obtain ⟨hfirst, hrest⟩ := List.forall_mem_cons.1 hv
    -- for the first call the other values are a part of what follows, for the others the first is
    -- a part of what stands before
    have hread := (follows_readAt k).of_takes (takes_read hk hfirst) s
      (vs.flatMap WireValue.encode ++ t)
    have hreads := ih hrest (s ++ v.encode)
    simp only [List.append_assoc, List.flatMap_cons] at hread hreads ⊢
    rw [readEach, Reader.bind_of_ok hread, Reader.bind_of_ok hreads]
    rfl

end WireKind

namespace CursorReader

variable {α β : Type} {x : CursorReader α}

def Keeps (x : CursorReader α) : Prop := ∀ c c' e, x c = .error e c' → c' = c

theorem Keeps.bind_pure (h : Keeps x) (f : α → β) : Keeps (x >>= fun a ↦ pure (f a)) := by
  intro c c' e he
  rcases Reader.bind_eq_error.1 he with hx | ⟨a, t, -, hf⟩
  · exact h c c' e hx
  · cases hf

theorem keeps_bytes (n : ℕ) : Keeps (bytes n) := by
  intro c c' e h
  unfold bytes at h
  split at h
  · cases h
    rfl
  · split at h <;> cases h
    rfl

theorem keeps_natLE (width : ℕ) : Keeps (natLE width) := by
  rw [natLE, array_eq_bytes]
  exact (keeps_bytes width).bind_pure Bytes.toNatLE

end CursorReader

theorem WireKind.keeps_readAt {k : WireKind} (h : k.IsFixed) : CursorReader.Keeps k.readAt := by
  cases k with
  | bytes n => exact (CursorReader.keeps_bytes n).bind_pure WireValue.bytes
  | u8 => exact ((CursorReader.keeps_natLE 1).bind_pure UInt8.ofNat).bind_pure WireValue.u8
  | u16 => exact ((CursorReader.keeps_natLE 2).bind_pure UInt16.ofNat).bind_pure WireValue.u16
  | u32 => exact ((CursorReader.keeps_natLE 4).bind_pure UInt32.ofNat).bind_pure WireValue.u32
  | u64 => exact ((CursorReader.keeps_natLE 8).bind_pure UInt64.ofNat).bind_pure WireValue.u64
  | hash =>
    rw [readAt, CursorReader.array_eq_bytes]
    exact (CursorReader.keeps_bytes 32).bind_pure WireValue.bytes
  | compactSize => exact h.elim
  | varBytes => exact h.elim

namespace Cursor

variable {b : Bytes} {i : ℕ}

theorem remaining_of_le (h : i ≤ b.length) : remaining ⟨b, i⟩ = .ok (b.length - i) := if_pos h

/-- One call moves the place on, and not past the end. -/
theorem exists_after (h : i ≤ b.length) (k : WireKind) :
    ∃ j, after ⟨b, i⟩ k = ⟨b, j⟩ ∧ i ≤ j ∧ j ≤ b.length := by
  have hread := WireKind.follows_readAt k b i h
  unfold after
  generalize k.readAt ⟨b, i⟩ = r at hread ⊢
  generalize k.read (b.drop i) = s at hread
  cases hread with
  | @ok a j hij hj => exact ⟨j, rfl, hij, hj⟩
  | @error e j hij hj => exact ⟨j, rfl, hij, hj⟩

/-- Any calls, of which some may fail, leave less and less to be read. -/
theorem remaining_visits (h : i ≤ b.length) (ks : List WireKind) :
    ∃ left : List ℕ, (visits ⟨b, i⟩ ks).map remaining = left.map .ok ∧
      left.Pairwise (· ≥ ·) ∧ ∀ n ∈ left, n ≤ b.length - i := by
  induction ks generalizing i with
  | nil => exact ⟨[b.length - i], by simp [visits, remaining_of_le h], by simp, by simp⟩
  | cons k ks ih =>
    obtain ⟨j, hafter, hij, hj⟩ := exists_after h k
    obtain ⟨left, hleft, hsorted, hbound⟩ := ih hj
    have hle (n : ℕ) (hn : n ∈ left) : n ≤ b.length - i :=
      (hbound n hn).trans (Nat.sub_le_sub_left hij _)
    refine ⟨(b.length - i) :: left, ?_, List.pairwise_cons.2 ⟨hle, hsorted⟩, ?_⟩
    · rw [visits, hafter, List.map_cons, List.map_cons, hleft, remaining_of_le h]
    · exact List.forall_mem_cons.2 ⟨le_rfl, hle⟩

end Cursor

/-- Values that are written one after the other are read back by the calls that match them, and what
follows them is left. Of any string and through any calls, failing ones among them, no more is left
than before, a failing call of fixed width does not move, and reading by place is reading off the
front. -/
theorem reads_undo_writes :
    (∀ {ks vs}, Forall₂ WireKind.Matches ks vs → (∀ v ∈ vs, v.Fits) → ∀ rest,
      WireKind.readEach ks ⟨Wire.written vs ++ rest, 0⟩ =
        .ok vs ⟨Wire.written vs ++ rest, (Wire.written vs).length⟩) ∧
      (∀ b ks, ∃ left : List ℕ,
        (Cursor.visits ⟨b, 0⟩ ks).map Cursor.remaining = left.map .ok ∧
          left.Pairwise (· ≥ ·) ∧ ∀ n ∈ left, n ≤ b.length) ∧
      (∀ {k : WireKind} {c c' e}, k.IsFixed → k.readAt c = .error e c' → c' = c) ∧
      ∀ (k : WireKind) (b i), i ≤ b.length →
        Cursor.Agrees wire b i (k.readAt ⟨b, i⟩) (k.read (b.drop i)) := by
  refine ⟨fun {ks vs} h hv rest ↦ ?_, fun b ks ↦ Cursor.remaining_visits (Nat.zero_le _) ks,
    fun {k c c' e} h ↦ WireKind.keeps_readAt h c c' e, WireKind.follows_readAt⟩
  rw [Wire.written_eq_flatMap]
  exact WireKind.readEach_flatMap h hv [] rest

theorem reads_undo_writes_hash :
    let vs : List WireValue :=
      [.u8 0x42, .u32 0xdeadbeef, .varBytes [0x68, 0x65], .bytes (List.replicate 32 7)]
    let b := Wire.written vs ++ [8, 9]
    WireKind.readEach [.u8, .u32, .varBytes, .hash] ⟨b, 0⟩ = .ok vs ⟨b, 40⟩ ∧
      ∃ e c, WireKind.u32.readAt ⟨b, 40⟩ = .error e c ∧ c = ⟨b, 40⟩ := by
  intro vs b
  have hmatch : Forall₂ WireKind.Matches [.u8, .u32, .varBytes, .hash] vs :=
    .cons (.same (.u8 0x42)) (.cons (.same (.u32 0xdeadbeef))
      (.cons (.same (.varBytes [0x68, 0x65])) (.cons (.hash rfl) .nil)))
  have hfits : ∀ v ∈ vs, v.Fits := by simp [vs, WireValue.Fits]
  have herror : ∃ e c, WireKind.u32.readAt ⟨b, 40⟩ = .error e c := ⟨_, _, rfl⟩
  obtain ⟨e, c, hc⟩ := herror
  exact ⟨reads_undo_writes.1 hmatch hfits [8, 9], e, c, hc,
    reads_undo_writes.2.2.1 (k := .u32) trivial hc⟩

end BitcoinCash
