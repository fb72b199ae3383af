import BitcoinCash.Proofs.Script.Pieces
import BitcoinCash.Proofs.Script.WellFormed

namespace BitcoinCash.Script

open Chunk (Reads)
open Fallible (bind_eq_ok ok_bind)
open List (Forall₂)

variable {ε : Type} {s t : Script} {cs : List Chunk} {xs : List Bytes} {d push : Bytes}
  {f g : Script → Except ε Script} {p q : Chunk → Bool}

/-- Of a script that has chunks `f` leaves those of which `p` holds. -/
def Keeps (f : Script → Except ε Script) (p : Chunk → Bool) : Prop :=
  ∀ s cs, s.chunks = .ok cs → ∃ t, f s = .ok t ∧ t.chunks = .ok (cs.filter p)

theorem eq_of_chunks (hs : s.chunks = .ok cs) (ht : t.chunks = .ok cs) : s = t := by
  obtain ⟨b⟩ := s
  obtain ⟨c⟩ := t
  have heq : Except.ok b = .ok c := (Chunk.encodeAll_decode hs).symm.trans (Chunk.encodeAll_decode ht)
  exact congrArg _ (Except.ok.inj heq)

namespace Keeps

theorem filterChunks (p : Chunk → Bool) : Keeps (·.filterChunks p) p := by
  intro s cs hs
  have hkept : ∀ c ∈ cs.filter p, c.WellFormed := fun c hc ↦
    Chunk.wellFormed_of_decode hs c (List.mem_of_mem_filter hc)
  obtain ⟨b, hb, hdecode⟩ := Chunk.exists_encodeAll hkept
  refine ⟨⟨b⟩, ?_, hdecode⟩
  dsimp only
  rw [Script.filterChunks, hs, ok_bind]
  exact ofChunks_eq_ok.2 hb

theorem pure : Keeps (Pure.pure : Script → Except ε Script) fun _ ↦ true := by
  intro s cs hs
  exact ⟨s, rfl, by rwa [List.filter_true]⟩

theorem bind (hf : Keeps f p) (hg : Keeps g q) :
    Keeps (fun s ↦ f s >>= g) fun c ↦ p c && q c := by
  intro s cs hs
  obtain ⟨a, ha, hca⟩ := hf s cs hs
  obtain ⟨t, ht, hct⟩ := hg a _ hca
  rw [List.filter_filter] at hct
  refine ⟨t, bind_eq_ok.2 ⟨a, ha, ht⟩, ?_⟩
  simpa only [Bool.and_comm] using hct

theorem comm (hf : Keeps f p) (hg : Keeps g q) (hs : s.chunks = .ok cs) :
    (f s >>= g) = (g s >>= f) := by
  obtain ⟨t, ht, hct⟩ := hf.bind hg s cs hs
  obtain ⟨u, hu, hcu⟩ := hg.bind hf s cs hs
  simp only [Bool.and_comm] at hcu
  exact ht.trans (hu.trans (congrArg _ (eq_of_chunks hcu hct))).symm

theorem idem (hf : Keeps f p) (hs : s.chunks = .ok cs) : (f s >>= f) = f s := by
  obtain ⟨t, ht, hct⟩ := hf s cs hs
  obtain ⟨u, hu, hcu⟩ := hf.bind hf s cs hs
  simp only [Bool.and_self] at hcu
  exact hu.trans (ht.trans (congrArg _ (eq_of_chunks hct hcu))).symm

end Keeps

theorem keeps_removePushes (hd : d.length < 2 ^ 32) :
    ∃ header, Push.header d.length = .ok header ∧
      Keeps (·.removePushes d) fun c ↦ !(c.op == header.headD 0 && c.data == some d) := by
  obtain ⟨header, hheader⟩ := Push.header_eq_ok hd
  refine ⟨header, hheader, fun s cs hs ↦ ?_⟩
  simp only [removePushes, hheader, ok_bind]
  exact Keeps.filterChunks _ s cs hs

theorem keeps_removeCodeSeparators :
    Keeps removeCodeSeparators fun c ↦ c.op != Opcode.codeSeparator :=
  Keeps.filterChunks _

inductive Removal
  | pushes (d : Bytes)
  | codeSeparators

namespace Removal

def apply : Removal → Script → Except ScriptError Script
  | pushes d, s => s.removePushes d
  | codeSeparators, s => s.removeCodeSeparators

def Fits : Removal → Prop
  | pushes d => d.length < 2 ^ 32
  | codeSeparators => True

theorem exists_keeps {r : Removal} (h : r.Fits) : ∃ p, Keeps r.apply p := by
  cases r with
  | pushes d =>
    obtain ⟨header, -, hkeeps⟩ := keeps_removePushes h
    exact ⟨_, hkeeps⟩
  | codeSeparators => exact ⟨_, keeps_removeCodeSeparators⟩

end Removal

/-- No chunk carries the empty string: the opcode that pushes it has no data. -/
theorem removePushes_nil (hs : s.chunks = .ok cs) : s.removePushes [] = .ok s := by
  obtain ⟨header, hheader, hkeeps⟩ := keeps_removePushes (d := []) (by decide)
  cases hheader
  obtain ⟨t, ht, hct⟩ := hkeeps s cs hs
  have hall : cs.filter (fun c ↦ !(c.op == 0 && c.data == some [])) = cs := by
    refine List.filter_eq_self.2 fun c hc ↦ ?_
    have hdata : c.data.isSome = c.op.carriesData := Chunk.data_of_decode hs hc
    by_cases hop : c.op = 0
    · rw [hop] at hdata
      have hnone : c.data = none := Option.not_isSome_iff_eq_none.1 (by rw [hdata]; decide)
      simp [hnone]
    · simp [hop]
  have hst : s = t := eq_of_chunks hs (hct.trans (congrArg _ hall))
  exact hst ▸ ht

theorem flatten_filter_ne_eq_iff (h : Forall₂ Reads xs cs) :
    (xs.filter (· ≠ push)).flatten = xs.flatten ↔ push ∉ xs := by
  constructor
  · intro heq
    have hfilter : Forall₂ Reads (xs.filter (· ≠ push)) (cs.filter (·.encode ≠ .ok push)) :=
      List.rel_filter (fun x c hx ↦ by simp [hx.encode_eq]) h
    have hchunks : cs.filter (·.encode ≠ .ok push) = cs := by
      have hdecode := Chunk.decode_flatten hfilter
      rw [heq, Chunk.decode_flatten h] at hdecode
      exact (Except.ok.inj hdecode).symm
    have hlen : (xs.filter (· ≠ push)).length = xs.length := by
      rw [hfilter.length_eq, hchunks, h.length_eq]
    simpa using fun hmem ↦ List.length_filter_eq_length_iff.1 hlen push hmem
  · intro hmem
    rw [List.filter_eq_self.2]
    intro x hx
    simpa using ne_of_mem_of_not_mem hx hmem

/-- To remove the pushes of `d` is to remove, of the chunks as they are written, those that are what
a push of `d` writes. It does not hold of the empty string, whose push is an opcode without data:
nothing is removed for it. -/
theorem removePushes_exact (hs : s.chunks = .ok cs) (hd : d.length < 2 ^ 32) :
    ∃ xs push t, Forall₂ (fun c x ↦ c.encode = .ok x) cs xs ∧ s.bytes = xs.flatten ∧
      Push.data d = .ok push ∧ s.removePushes d = .ok t ∧
      (t.bytes = (xs.filter (· ≠ push)).flatten ↔ d ≠ [] ∨ push ∉ xs) ∧ (d = [] → t = s) := by
  obtain ⟨xs, hxs, hreads⟩ := Chunk.exists_pieces hs
  obtain ⟨push, hpush⟩ := Push.data_eq_ok hd
  have hencode : Forall₂ (fun c x ↦ c.encode = .ok x) cs xs :=
    hreads.flip.imp fun _ _ hx ↦ Reads.encode_eq hx
  by_cases hempty : d = []
  · refine ⟨xs, push, s, hencode, hxs, hpush, ?_, ?_, fun _ ↦ rfl⟩
    · rw [hempty]
      exact removePushes_nil hs
    · rw [hxs, eq_comm, flatten_filter_ne_eq_iff hreads]
      simp [hempty]
  · obtain ⟨_, -, hremove⟩ := removePushes_flatten hempty hpush hreads
    rw [← hxs] at hremove
    exact ⟨xs, push, _, hencode, hxs, hpush, hremove, by simp [hempty], fun h ↦ absurd h hempty⟩

theorem removePushes_exact_spelled :
    let d : Bytes := [0x30, 1, 2]
    let s : Script := ⟨[3, 0x30, 1, 2, 0x76, 0x4c, 3, 0x30, 1, 2, 0xac]⟩
    s.chunks = .ok [⟨3, some d⟩, ⟨0x76, none⟩, ⟨0x4c, some d⟩, ⟨0xac, none⟩] ∧
      d.length < 2 ^ 32 ∧ s.removePushes d = .ok ⟨[0x76, 0x4c, 3, 0x30, 1, 2, 0xac]⟩ := by
  intro d s
  have hdirect : Reads (3 :: [] ++ d) ⟨3, some d⟩ := Chunk.decode_push rfl rfl
  have hsized : Reads (0x4c :: [3] ++ d) ⟨0x4c, some d⟩ := Chunk.decode_push rfl rfl
  have hs : s.chunks = .ok [⟨3, some d⟩, ⟨0x76, none⟩, ⟨0x4c, some d⟩, ⟨0xac, none⟩] :=
    Chunk.decode_flatten (.cons hdirect
      (.cons (Chunk.decode_bare rfl) (.cons hsized (.cons (Chunk.decode_bare rfl) .nil))))
  have hd : d.length < 2 ^ 32 := by decide
  obtain ⟨xs, push, t, hencode, -, hpush, hremove, hexact, -⟩ := removePushes_exact hs hd
  obtain rfl : 3 :: d = push := Except.ok.inj hpush
  obtain rfl : xs = [3 :: d, [0x76], 0x4c :: 3 :: d, [0xac]] := by
    rcases hencode with _ | ⟨h1, _ | ⟨h2, _ | ⟨h3, _ | ⟨h4, _ | _⟩⟩⟩⟩
    cases h1
    cases h2
    cases h3
    cases h4
    rfl
  refine ⟨hs, hd, hremove.trans (congrArg Except.ok ?_)⟩
  exact congrArg Script.mk (hexact.2 (.inl (List.cons_ne_nil _ _)))

/-- The opcode that pushes the empty string stays where its pushes are removed. -/
theorem not_forall_removePushes_eq :
    ¬ ∀ (s : Script) (cs : List Chunk) (d push : Bytes) (xs : List Bytes), s.chunks = .ok cs →
      d.length < 2 ^ 32 → Push.data d = .ok push →
      Forall₂ (fun c x ↦ c.encode = .ok x) cs xs →
      s.removePushes d = .ok ⟨(xs.filter (· ≠ push)).flatten⟩ := by
  intro h
  have hchunks : (⟨[0]⟩ : Script).chunks = .ok [⟨0, none⟩] := Chunk.decode_bare rfl
  have hclaim := h ⟨[0]⟩ [⟨0, none⟩] [] [0] [[0]] hchunks (by decide) rfl (.cons rfl .nil)
  rw [removePushes_nil hchunks] at hclaim
  cases hclaim

end BitcoinCash.Script
