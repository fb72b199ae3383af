import BitcoinCash.Proofs.Text.Blank
import BitcoinCash.Script.Opcode
import Mathlib.Data.List.GetD
import Mathlib.Data.List.Nodup

namespace BitcoinCash.Opcode

variable {op : Opcode} {s : String}

def aliases : List String := ["OP_FALSE", "OP_TRUE", "OP_NOP2", "OP_NOP3"]

def key (w : List Char) : Nat := w.foldl (fun n c ↦ 128 * n + c.toNat) 0

theorem nodup_of_residues {l : List Nat} {m : Nat} (hm : 0 < m)
    (h : ∀ r < m, (l.filter (· % m = r)).Nodup) : l.Nodup := by
  rw [List.nodup_iff_count_le_one]
  intro n
  have hcount := List.nodup_iff_count_le_one.1 (h (n % m) (Nat.mod_lt n hm)) n
  rwa [List.count_filter (by simp)] at hcount

theorem nodup_key : (((aliases ++ names).map String.toList).map key).Nodup := by
  -- numbers of different residues need not be compared
  apply nodup_of_residues (m := 16) (by decide)
  simp only [aliases, names, assignedNames, List.map_append, List.map_map, Function.comp_def,
    List.map_cons, List.map_nil, String.toList_append, String.reduceToList, Nat.toString_eq_repr,
    Nat.toList_repr]
  decide +kernel

theorem nodup_aliases_names : (aliases ++ names).Nodup := nodup_key.of_map.of_map

theorem length_names : names.length = 256 := by
  simp [names, assignedNames]

/-- A word of visible characters that begins with an `O`, which is no digit. -/
def isSpelling (w : List Char) : Bool :=
  w.head? = some 'O' && w.all fun c ↦ 0x21 ≤ c.toNat && c.toNat ≤ 0x7e

theorem all_isSpelling : ((aliases ++ names).map String.toList).all isSpelling := by
  simp only [aliases, names, assignedNames, List.map_append, List.map_map, Function.comp_def,
    List.map_cons, List.map_nil, String.toList_append, String.reduceToList, Nat.toString_eq_repr,
    Nat.toList_repr]
  decide +kernel

theorem spelling (h : s ∈ aliases ++ names) :
    s.toList.head? = some 'O' ∧ ∀ c ∈ s.toList, 0x21 ≤ c.toNat ∧ c.toNat ≤ 0x7e := by
  have hs : isSpelling s.toList := List.all_eq_true.1 all_isSpelling _ (List.mem_map_of_mem h)
  simpa [isSpelling] using hs

theorem name_eq_getElem (op : Opcode) :
    ∃ h : op.toNat < names.length, op.name = names[op.toNat] := by
  have h : op.toNat < names.length := length_names ▸ op.toNat_lt
  exact ⟨h, List.getD_eq_getElem _ _ h⟩

theorem name_mem (op : Opcode) : op.name ∈ names := by
  obtain ⟨h, hname⟩ := name_eq_getElem op
  rw [hname]
  exact List.getElem_mem h

theorem findIdx?_name (op : Opcode) : names.findIdx? (· = op.name) = some op.toNat := by
  obtain ⟨h, hname⟩ := name_eq_getElem op
  refine List.findIdx?_eq_some_iff_getElem.2 ⟨h, by simp [hname], ?_⟩
  intro j hj heq
  rw [decide_eq_true_eq, hname, nodup_aliases_names.of_append_right.getElem_inj_iff] at heq
  exact Nat.ne_of_lt hj heq

theorem ofName?_name (h : op.carriesData = false) : ofName? op.name = some op := by
  have hne {t : String} (ht : t ∈ aliases) : op.name ≠ t := by
    rintro rfl
    exact List.disjoint_of_nodup_append nodup_aliases_names ht (name_mem op)
  rw [ofName?, if_neg (hne (by simp [aliases])), if_neg (hne (by simp [aliases])),
    if_neg (hne (by simp [aliases])), if_neg (hne (by simp [aliases])), findIdx?_name]
  simp [h]

theorem ofName?_eq_some (h : ofName? s = some op) :
    op.carriesData = false ∧ s ∈ aliases ++ names := by
  unfold ofName? at h
  split_ifs at h with h1 h2 h3 h4
  case neg =>
    split at h
    next i hi =>
      obtain ⟨hlt, hs, -⟩ := List.findIdx?_eq_some_iff_getElem.1 hi
      split_ifs at h with hdata
      cases h
      have hmem := List.getElem_mem hlt
      rw [of_decide_eq_true hs] at hmem
      exact ⟨Bool.eq_false_iff.2 hdata, List.mem_append_right _ hmem⟩
    next => cases h
  all_goals
    cases h
    refine ⟨rfl, List.mem_append_left _ ?_⟩
    simp [aliases, *]

theorem solid_name (op : Opcode) : Solid op.name.toList := by
  intro c hc
  obtain ⟨hlow, hhigh⟩ := (spelling (List.mem_append_right _ (name_mem op))).2 c hc
  exact isBlank_eq_false hlow hhigh

theorem name_ne_nil (op : Opcode) : op.name.toList ≠ [] := by
  intro h
  have hhead := (spelling (List.mem_append_right _ (name_mem op))).1
  rw [h] at hhead
  cases hhead

end BitcoinCash.Opcode
