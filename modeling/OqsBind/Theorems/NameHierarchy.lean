import OqsBind.Theorems.NameParts

/-! The order of names and their hierarchy. Names that are all absolute, or all relative, are ordered as their paths are,
    names above come first, and a wildcard stands for what is below the name that it starts below. -/

namespace OqsBind.Dns
open Isc Lib

namespace Name

theorem iswildcard_labels {w : Name} (h : w.iswildcard) : ∃ l ls, w.labels = l :: ls := by
  cases hlabels : w.labels with
  | cons l ls => exact ⟨l, ls, rfl⟩
  | nil =>
    cases habs : w.absolute <;> simp [iswildcard, length, ndata, hlabels, habs, rootWire, labelsWire] at h

theorem path_tail {w : Name} {l : Label} {ls : List Label} (h : w.labels = l :: ls) :
    (w.getlabelsequence 1 (w.nlabels - 1)).path = w.path.dropLast := by
  have hlast : w.path = (w.getlabelsequence 1 (w.nlabels - 1)).path ++ [foldLabel l.bytes] := by
    cases habs : w.absolute
    · have hnlabels : w.nlabels = ls.length + 1 := by simp [nlabels, h, habs, rootWire]
      simp [path, stack, getlabelsequence, h, habs, hnlabels]
    · have hnlabels : w.nlabels = ls.length + 2 := by simp [nlabels, h, habs, rootWire]
      simp [path, stack, getlabelsequence, h, habs, hnlabels, Nat.add_comm 1]
  simp [hlast]

theorem matcheswildcard_iff {n w : Name} (h : w.iswildcard) :
    n.matcheswildcard w ↔ w.path.dropLast <+: n.path ∧ w.path.dropLast ≠ n.path := by
  obtain ⟨l, ls, hlabels⟩ := iswildcard_labels h
  rw [matcheswildcard, beq_iff_eq, fullcompare_subdomain, path_tail hlabels]

theorem compare_le_zero_iff {n m : Name} : n.compare m ≤ 0 ↔ n.path ≤ m.path := by
  rw [← not_lt, compare_pos_iff, not_lt]

theorem sign_compare (n m : Name) : (n.compare m).sign = -(m.compare n).sign := by
  rcases lt_trichotomy n.path m.path with h | h | h
  · rw [Int.sign_eq_neg_one_of_neg (compare_neg_iff.mpr h), Int.sign_eq_one_of_pos (compare_pos_iff.mpr h)]
  · rw [compare_eq_zero_iff.mpr h, compare_eq_zero_iff.mpr h.symm]
    rfl
  · rw [Int.sign_eq_one_of_pos (compare_pos_iff.mpr h), Int.sign_eq_neg_one_of_neg (compare_neg_iff.mpr h)]
    rfl

/-- Names of one class: their order is the order of paths, and says the same as `dns_name_equal`; the relation and the
    number of labels are what the paths have in common; a wildcard matches what is below its name. -/
theorem fullcompare_hierarchy (n m k : Name) (hnm : n.absolute = m.absolute) :
    ((n.fullcompare n).order = 0 ∧ (n.fullcompare m).order.sign = -(m.fullcompare n).order.sign ∧
        ((n.fullcompare m).order ≤ 0 → (m.fullcompare k).order ≤ 0 → (n.fullcompare k).order ≤ 0) ∧
        ((n.fullcompare m).order = 0 ↔ n.equal m) ∧ ((n.fullcompare m).order < 0 ↔ n.path < m.path)) ∧
      (((n.fullcompare m).namereln = .equal ↔ n.path = m.path) ∧
        ((n.fullcompare m).namereln = .subdomain ↔ m.path <+: n.path ∧ m.path ≠ n.path) ∧
        ((n.fullcompare m).namereln = .contains ↔ n.path <+: m.path ∧ n.path ≠ m.path) ∧
        ((n.fullcompare m).namereln = .commonancestor ↔
          ¬ n.path <+: m.path ∧ ¬ m.path <+: n.path ∧ ∃ l, [l] <+: n.path ∧ [l] <+: m.path)) ∧
      IsGreatest {j | ∃ p, p.length = j ∧ p <+: n.path ∧ p <+: m.path} (n.fullcompare m).nlabels ∧
      (m.iswildcard → (n.matcheswildcard m ↔ m.path.dropLast <+: n.path ∧ m.path.dropLast ≠ n.path)) := by
  have htrans : n.compare m ≤ 0 → m.compare k ≤ 0 → n.compare k ≤ 0 := by
    simp only [compare_le_zero_iff]
    exact le_trans
  have hequal : n.compare m = 0 ↔ n.equal m := by rw [compare_eq_zero_iff, equal_iff_path hnm]
  refine ⟨⟨compare_eq_zero_iff.mpr rfl, sign_compare n m, htrans, hequal, compare_neg_iff⟩,
    ⟨fullcompare_equal, fullcompare_subdomain, fullcompare_contains, fullcompare_commonancestor⟩, ?_, matcheswildcard_iff⟩
  rw [fullcompare_nlabels]
  exact common_isGreatest ..

theorem fullcompare_hierarchy_tlds :
    (tld 0x21).absolute = (tld 0x2a).absolute ∧ (tld 0x2a).iswildcard ∧ (tld 0x21).matcheswildcard (tld 0x2a) ∧
      ((tld 0x21).fullcompare (tld 0x61)).order ≤ 0 := by
  obtain ⟨⟨-, -, htrans, -⟩, -, -, hwild⟩ := fullcompare_hierarchy (tld 0x21) (tld 0x2a) (tld 0x61) rfl
  exact ⟨rfl, rfl, (hwild rfl).mpr (by decide), htrans (by decide) (by decide)⟩

end Name

end OqsBind.Dns
