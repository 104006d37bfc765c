import OqsBind.Theorems.NameOrder
import OqsBind.Lib.PathOrder

/-! Names as paths of the tree of names. `dns_name_fullcompare` tells how two paths are ordered, how much they have in
    common, and whether one is below the other. -/

namespace OqsBind.Dns
open Isc Lib List

/-- The folded octets of a label. -/
def foldLabel (l : Bytes) : List Nat := l.map fun b => (tolower b).toNat

/-- The way from the root to a name. -/
def Name.path (n : Name) : List (List Nat) := n.stack.map foldLabel

@[simp] theorem Name.length_path (n : Name) : n.path.length = n.nlabels := by
  rw [Name.path, length_map, n.stack_length]

theorem labelOrder_compares : ∀ as bs : Bytes, (labelOrder as bs).Compares (foldLabel as) (foldLabel bs)
  | [], [] => rfl
  | [], _ :: _ => nil_lt ..
  | _ :: _, [] => nil_lt ..
  | a :: as, b :: bs => by
    have hoctet : (Ord.compare (tolower a).toNat (tolower b).toNat).Compares (tolower a).toNat (tolower b).toNat := by
      rw [← cmp_eq_compare]
      exact cmp_compares ..
    exact compares_cons hoctet (labelOrder_compares as bs)

theorem stackOrder_compares : ∀ as bs : List Bytes, (stackOrder as bs).Compares (as.map foldLabel) (bs.map foldLabel)
  | [], [] => rfl
  | [], _ :: _ => nil_lt ..
  | _ :: _, [] => nil_lt ..
  | a :: as, b :: bs => compares_cons (labelOrder_compares a b) (stackOrder_compares as bs)

theorem Name.compare_compares (n m : Name) : (Ord.compare (n.compare m) 0).Compares n.path m.path := by
  rw [Name.compare_order]
  exact stackOrder_compares ..

variable {n m : Name}

theorem Name.compare_neg_iff : n.compare m < 0 ↔ n.path < m.path := by
  rw [← (n.compare_compares m).eq_lt, Int.compare_eq_lt]

theorem Name.compare_eq_zero_iff : n.compare m = 0 ↔ n.path = m.path := by
  rw [← (n.compare_compares m).eq_eq, Int.compare_eq_eq]

theorem Name.compare_pos_iff : 0 < n.compare m ↔ m.path < n.path := by
  rw [← (n.compare_compares m).eq_gt, Int.compare_eq_gt]

theorem foldLabel_eq_iff (as bs : Bytes) :
    foldLabel as = foldLabel bs ↔
      lowercmp (as.take (if (as.length : Int) - bs.length < 0 then as.length else bs.length))
          (bs.take (if (as.length : Int) - bs.length < 0 then as.length else bs.length)) = 0 ∧
        (as.length : Int) - bs.length = 0 := by
  have hcount : (if (as.length : Int) - bs.length < 0 then as.length else bs.length) = min as.length bs.length := by
    split_ifs <;> omega
  rw [← (labelOrder_compares as bs).eq_eq, labelOrder_eq as bs _ hcount, Ordering.then_eq_eq, Int.compare_eq_eq,
    Int.compare_eq_eq]

/-- How two names are related, by what their paths have in common. -/
def reln (ldiff : Int) (l nlabels common : Nat) : NameReln :=
  if common = l then if ldiff < 0 then .contains else if ldiff > 0 then .subdomain else .equal
  else if nlabels + common > 0 then .commonancestor else .none

theorem fullcompareLoop_common (n m : Name) (ldiff : Int) {l o1 o2 : Nat} (nlabels : Nat) (hl : l = min o1 o2)
    (h1 : o1 ≤ n.nlabels) (h2 : o2 ≤ m.nlabels) :
    (n.fullcompareLoop m ldiff l o1 o2 nlabels).nlabels =
        nlabels + common (n.path.drop (n.nlabels - o1)) (m.path.drop (m.nlabels - o2)) ∧
      (n.fullcompareLoop m ldiff l o1 o2 nlabels).namereln =
        reln ldiff l nlabels (common (n.path.drop (n.nlabels - o1)) (m.path.drop (m.nlabels - o2))) := by
  induction l generalizing o1 o2 nlabels with
  | zero =>
    have hnil : common (n.path.drop (n.nlabels - o1)) (m.path.drop (m.nlabels - o2)) = 0 := by
      rcases Nat.le_total o1 o2 with h | h
      · rw [drop_of_length_le (by simp; omega), common_nil_left]
      · rw [common_comm, drop_of_length_le (by simp; omega), common_nil_left]
    rw [hnil]
    exact ⟨rfl, rfl⟩
  | succ l ih =>
    obtain ⟨o1, rfl⟩ : ∃ k, o1 = k + 1 := ⟨o1 - 1, by omega⟩
    obtain ⟨o2, rfl⟩ : ∃ k, o2 = k + 1 := ⟨o2 - 1, by omega⟩
    have hn : n.path.drop (n.nlabels - (o1 + 1)) = foldLabel (n.label o1) :: n.path.drop (n.nlabels - o1) := by
      rw [Name.path, ← map_drop, n.stack_drop h1, map_cons, map_drop]
    have hm : m.path.drop (m.nlabels - (o2 + 1)) = foldLabel (m.label o2) :: m.path.drop (m.nlabels - o2) := by
      rw [Name.path, ← map_drop, m.stack_drop h2, map_cons, map_drop]
    have hsame := foldLabel_eq_iff (n.label o1) (m.label o2)
    rw [hn, hm, common_cons, Name.fullcompareLoop]
    simp only [Nat.add_sub_cancel]
    generalize lowercmp _ _ = diff at hsame ⊢
    by_cases hlabel : foldLabel (n.label o1) = foldLabel (m.label o2)
    · obtain ⟨hdiff, hcdiff⟩ := hsame.mp hlabel
      obtain ⟨ih1, ih2⟩ := ih (nlabels + 1) (by omega) (by omega : o1 ≤ n.nlabels) (by omega : o2 ≤ m.nlabels)
      rw [if_neg (not_not.mpr hdiff), if_neg (not_not.mpr hcdiff), if_pos hlabel, ih2]
      refine ⟨by omega, ?_⟩
      simp [reln]
    · rw [if_neg hlabel]
      by_cases hdiff : diff = 0
      · rw [if_neg (not_not.mpr hdiff), if_pos fun hcdiff => hlabel (hsame.mpr ⟨hdiff, hcdiff⟩)]
        exact ⟨rfl, rfl⟩
      · rw [if_pos hdiff]
        exact ⟨rfl, rfl⟩

theorem Name.fullcompare_common (n m : Name) :
    (n.fullcompare m).nlabels = common n.path m.path ∧
      (n.fullcompare m).namereln =
        reln ((n.nlabels : Int) - m.nlabels) (min n.nlabels m.nlabels) 0 (common n.path m.path) := by
  have hmin : (if m.nlabels > n.nlabels then n.nlabels else m.nlabels) = min n.nlabels m.nlabels := by
    split_ifs <;> omega
  have h := fullcompareLoop_common n m ((n.nlabels : Int) - m.nlabels) 0 rfl (le_refl n.nlabels) (le_refl m.nlabels)
  simpa [Name.fullcompare, hmin] using h

theorem Name.fullcompare_nlabels (n m : Name) : (n.fullcompare m).nlabels = common n.path m.path :=
  (n.fullcompare_common m).1

theorem Name.reln_cases (n m : Name) {r : NameReln} :
    (n.fullcompare m).namereln = r ↔
      match r with
      | .none => common n.path m.path = 0 ∧ 0 < n.nlabels ∧ 0 < m.nlabels
      | .contains => common n.path m.path = n.nlabels ∧ n.nlabels < m.nlabels
      | .subdomain => common n.path m.path = m.nlabels ∧ m.nlabels < n.nlabels
      | .equal => common n.path m.path = n.nlabels ∧ n.nlabels = m.nlabels
      | .commonancestor => 0 < common n.path m.path ∧ common n.path m.path < n.nlabels ∧
          common n.path m.path < m.nlabels := by
  have hleft := common_le_left n.path m.path
  have hright := common_le_right n.path m.path
  rw [Name.length_path] at hleft hright
  rw [(n.fullcompare_common m).2, reln]
  split_ifs <;> cases r <;> simp <;> omega

theorem Name.fullcompare_subdomain : (n.fullcompare m).namereln = .subdomain ↔ m.path <+: n.path ∧ m.path ≠ n.path := by
  rw [n.reln_cases, properPrefix_iff_common, common_comm m.path, m.length_path, n.length_path]

theorem Name.fullcompare_contains : (n.fullcompare m).namereln = .contains ↔ n.path <+: m.path ∧ n.path ≠ m.path := by
  rw [n.reln_cases, properPrefix_iff_common, n.length_path, m.length_path]

theorem Name.fullcompare_equal : (n.fullcompare m).namereln = .equal ↔ n.path = m.path := by
  rw [n.reln_cases, eq_iff_common, n.length_path, m.length_path]

theorem Name.fullcompare_commonancestor : (n.fullcompare m).namereln = .commonancestor ↔
      ¬ n.path <+: m.path ∧ ¬ m.path <+: n.path ∧ ∃ l, [l] <+: n.path ∧ [l] <+: m.path := by
  have hleft := common_le_left n.path m.path
  have hright := common_le_right n.path m.path
  have hshared : (∃ l, [l] <+: n.path ∧ [l] <+: m.path) ↔ 0 < common n.path m.path := by
    cases n.path <;> cases m.path <;> simp [common_cons, cons_prefix_cons]; split_ifs <;> simp_all
  rw [hshared, n.reln_cases, prefix_iff_common, prefix_iff_common, common_comm m.path, n.length_path, m.length_path]
  rw [Name.length_path] at hleft hright
  omega

end OqsBind.Dns
