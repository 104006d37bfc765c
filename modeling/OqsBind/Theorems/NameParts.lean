import OqsBind.Dns.NameLabels
import OqsBind.Theorems.NameTree

/-! Parts of absolute names, seen as paths: the name above with some labels is the start of the path, and a wildcard
    goes on from it by one label. -/

namespace OqsBind.Dns
open Isc Lib List Function Name

variable {n : Name}

theorem Name.path_eq (h : n.absolute) : n.path = [] :: (n.labels.map fun l => foldLabel l.bytes).reverse := by
  simp [path, stack, h, foldLabel, map_reverse, comp_def]

theorem Name.nlabels_eq (h : n.absolute) : n.nlabels = n.labels.length + 1 := by
  simp [nlabels, rootWire, h]

@[simp] theorem length_foldLabel (l : Bytes) : (foldLabel l).length = l.length := length_map _

theorem Name.length_eq_path (h : n.absolute) : n.length = (n.path.map (·.length + 1)).sum := by
  have hwire : ∀ ls : List Label, (labelsWire ls).length = (ls.map (·.bytes.length + 1)).sum := by
    intro ls
    induction ls with
    | nil => rfl
    | cons l ls ih => rw [labelsWire_cons, length_append, ih, Label.wire_length, map_cons, sum_cons]
  rw [n.path_eq h, n.length_eq, hwire]
  simp [rootWire, h, comp_def, Nat.add_comm]

theorem Name.length_pos_of_mem (h : n.absolute) {p rest : List (List Nat)} {l : List Nat}
    (hp : p ≠ []) (hpath : n.path = p ++ l :: rest) : 0 < l.length := by
  obtain ⟨x, p, rfl⟩ := exists_cons_of_ne_nil hp
  rw [n.path_eq h, cons_append, cons.injEq] at hpath
  have hmem : l ∈ (n.labels.map fun l => foldLabel l.bytes).reverse := by
    rw [hpath.2]
    simp
  rw [mem_reverse, mem_map] at hmem
  obtain ⟨label, -, rfl⟩ := hmem
  rw [length_foldLabel]
  exact label.length_pos

theorem Name.path_suffix (h : n.absolute) {k : Nat} (hpos : 0 < k) (hle : k ≤ n.nlabels) :
    (n.suffix k).path = n.path.take k ∧ (n.suffix k).absolute := by
  have hsum : n.nlabels - k + k = n.nlabels := Nat.sub_add_cancel hle
  have habs : (n.suffix k).absolute := by simp [Name.suffix, getlabelsequence, hsum, hpos, h]
  refine ⟨?_, habs⟩
  rw [n.nlabels_eq h] at hle hsum
  obtain ⟨k, rfl⟩ : ∃ j, k = j + 1 := ⟨k - 1, by omega⟩
  have hlabels : (n.suffix (k + 1)).labels = n.labels.drop (n.labels.length - k) := by
    have hdrop : n.labels.length + 1 - (k + 1) = n.labels.length - k := by omega
    change (n.labels.drop (n.nlabels - (k + 1))).take (k + 1) = _
    rw [n.nlabels_eq h, hdrop]
    exact take_of_length_le (by rw [length_drop]; omega)
  rw [path_eq habs, n.path_eq h, hlabels, take_succ_cons, take_reverse, map_drop, length_map]

/-- The label of a wildcard. -/
def star : List Nat := foldLabel [0x2a]

theorem Name.concatenate_wildcard {c q : Name} (hc : c.absolute) (hq : q.absolute) (hpre : c.path <+: q.path)
    (hne : c.path ≠ q.path) :
    ∃ wild, wildcardname.concatenate c = some wild ∧ wild.path = c.path ++ [star] ∧ wild.absolute := by
  have hlen : (labelsWire (wildcardname.labels ++ c.labels) ++ rootWire c.absolute).length ≤ NAME_MAXWIRE := by
    obtain ⟨rest, hrest⟩ := hpre
    have hbelow : rest ≠ [] := by
      rintro rfl
      exact hne (by rw [← hrest, append_nil])
    obtain ⟨l, rest, rfl⟩ := exists_cons_of_ne_nil hbelow
    have hpos := q.length_pos_of_mem hq (by rw [c.path_eq hc]; simp) hrest.symm
    have hqlen : q.length ≤ NAME_MAXWIRE := q.length_le
    have hclen : c.length = (labelsWire c.labels ++ rootWire c.absolute).length := rfl
    rw [q.length_eq_path hq, ← hrest, map_append, sum_append, ← c.length_eq_path hc, map_cons,
      sum_cons] at hqlen
    rw [labelsWire_append, append_assoc, length_append]
    have hwild : (labelsWire wildcardname.labels).length = 2 := rfl
    omega
  refine ⟨⟨wildcardname.labels ++ c.labels, c.absolute, hlen⟩, dif_pos hlen, ?_, hc⟩
  rw [path_eq (n := ⟨wildcardname.labels ++ c.labels, c.absolute, hlen⟩) hc, c.path_eq hc]
  simp [wildcardname, star]

variable {m : Name}

theorem Name.issubdomain_iff : n.issubdomain m ↔ m.path <+: n.path := by
  have hsub := fullcompare_subdomain (n := n) (m := m)
  have heq := fullcompare_equal (n := n) (m := m)
  unfold issubdomain
  split
  · rename_i h
    simp [(hsub.mp h).1]
  · rename_i h
    simp [heq.mp h]
  · rename_i h h'
    refine iff_of_false Bool.false_ne_true fun hpre => ?_
    by_cases hpath : m.path = n.path
    · exact h' (heq.mpr hpath.symm)
    · exact h (hsub.mpr ⟨hpre, hpath⟩)

theorem Name.equal_iff_path (h : n.absolute = m.absolute) : n.equal m ↔ n.path = m.path := by
  rw [n.equal_iff m h, ← n.compare_order m, (n.compare_compares m).eq_eq]

theorem Name.path_eq_nil_iff : n.path = [] ↔ n.nlabels = 0 := by
  rw [← n.length_path, length_eq_zero_iff]

@[simp] theorem foldLabel_tolower (l : Bytes) : foldLabel (l.map tolower) = foldLabel l := by
  simp [foldLabel, comp_def]

@[simp] theorem Name.absolute_downcase (n : Name) : n.downcase.absolute = n.absolute := rfl

@[simp] theorem Name.path_downcase (n : Name) : n.downcase.path = n.path := by
  cases h : n.absolute <;> simp [path, stack, downcase, h, comp_def]

@[simp] theorem Name.nlabels_downcase (n : Name) : n.downcase.nlabels = n.nlabels := by
  rw [← length_path, n.path_downcase, length_path]

@[simp] theorem Name.downcase_downcase (n : Name) : n.downcase.downcase = n.downcase := by
  simp [downcase, comp_def]

theorem Name.downcase_suffix (h : n.downcase = n) (k : Nat) : (n.suffix k).downcase = n.suffix k := by
  rw [← h]
  simp [Name.suffix, getlabelsequence, downcase, map_drop, map_take, comp_def]

theorem Name.downcase_eq_of_path (hn : n.absolute) (hm : m.absolute) (h : n.path = m.path) : n.downcase = m.downcase := by
  rw [n.path_eq hn, m.path_eq hm, cons.injEq] at h
  have hinj : Injective fun l : Label => l.bytes.map UInt8.toNat := by
    intro l l' hl
    have hbytes := map_injective_iff.mpr (fun _ _ => UInt8.toNat_inj.mp) hl
    cases l
    cases l'
    simpa using hbytes
  have hlabels : n.downcase.labels = m.downcase.labels := by
    refine map_injective_iff.mpr hinj ?_
    simpa [downcase, foldLabel, comp_def] using h.2
  have habs : n.downcase.absolute = m.downcase.absolute := by rw [n.absolute_downcase, m.absolute_downcase, hn, hm]
  generalize n.downcase = n' at hlabels habs ⊢
  generalize m.downcase = m' at hlabels habs ⊢
  cases n'
  cases m'
  simpa using ⟨hlabels, habs⟩

end OqsBind.Dns
