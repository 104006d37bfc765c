import OqsBind.Dns.TypeBitmap
import Mathlib.Data.List.GetD

/-! The bitmap of a set of types has the bits of these types and no others. -/

namespace OqsBind.Dns.Bitmap
open Isc List UInt8

theorem octetBit_testBit {i j : Nat} (hj : j < 8) :
    (ofNat (1 <<< i)).toNat.testBit j = decide (i = j) := by
  rw [toNat_ofNat', Nat.testBit_mod_two_pow, Nat.one_shiftLeft, Nat.testBit_two_pow, decide_eq_true hj,
    Bool.true_and]

theorem getD_set {l : Bytes} {i j : Nat} {b : UInt8} (hi : i < l.length) :
    (l.set i b).getD j 0 = if i = j then b else l.getD j 0 := by
  by_cases hij : i = j
  · subst hij
    simp [hi]
  · simp [hij, getD]

theorem isset_setbit {array : Bytes} {t u : RdataType} (h : array.length = 8192) :
    isset (setbit array t) u.toNat = (decide (u = t) || isset array u.toNat) := by
  have ht : t.toNat / 8 < array.length := by
    have := t.toNat_lt
    omega
  unfold isset setbit
  rw [getD_set ht]
  by_cases hoctet : t.toNat / 8 = u.toNat / 8
  · rw [if_pos hoctet, UInt8.toNat_or, Nat.testBit_or, hoctet, octetBit_testBit (by omega), Bool.or_comm]
    congr 1
    rw [decide_eq_decide, ← UInt16.toNat_inj]
    omega
  · rw [if_neg hoctet, decide_eq_false fun heq => hoctet (by rw [heq]), Bool.false_or]

theorem isset_foldl (types : List RdataType) {raw : Bytes} (h : raw.length = 8192) (u : RdataType) :
    isset (types.foldl setbit raw) u.toNat = (decide (u ∈ types) || isset raw u.toNat) := by
  induction types generalizing raw with
  | nil => simp
  | cons t types ih =>
    rw [foldl_cons, ih (by simpa [setbit] using h), isset_setbit h]
    by_cases hut : u = t <;> simp [hut]

theorem length_foldl_setbit (types : List RdataType) (raw : Bytes) : (types.foldl setbit raw).length = raw.length := by
  induction types generalizing raw with
  | nil => rfl
  | cons t types ih => rw [foldl_cons, ih, setbit, length_set]

theorem isset_of_getD {raw : Bytes} {u : Nat} (h : raw.getD (u / 8) 0 = 0) : isset raw u = false := by
  rw [isset, h]
  exact Nat.zero_testBit _

theorem isset_drop (raw : Bytes) (u : Nat) : isset (raw.drop 32) u = isset raw (u + 256) := by
  have hdiv : (u + 256) / 8 = 32 + u / 8 := by omega
  have hmod : (u + 256) % 8 = u % 8 := by omega
  simp only [isset, getD, getElem?_drop, hdiv, hmod]

theorem isset_take_append {raw rest : Bytes} {n u : Nat} (hn : n ≤ raw.length) (hu : u < n * 8) :
    isset (raw.take n ++ rest) u = isset raw u := by
  have hlt : u / 8 < n := by omega
  simp only [isset, getD]
  rw [getElem?_append_left (by rw [length_take]; omega), getElem?_take, if_pos hlt]

theorem lastOctet_none {raw : Bytes} {n : Nat} (h : lastOctet raw n = none) : ∀ i < n, raw.getD i 0 = 0 := by
  induction n with
  | zero => exact fun i hi => absurd hi (Nat.not_lt_zero i)
  | succ n ih =>
    rw [lastOctet] at h
    split at h
    · cases h
    · rename_i hzero
      intro i hi
      rcases Nat.lt_succ_iff_lt_or_eq.mp hi with hi | rfl
      · exact ih h i hi
      · exact not_not.mp hzero

theorem lastOctet_some {raw : Bytes} {n k : Nat} (h : lastOctet raw n = some k) :
    k < n ∧ raw.getD k 0 ≠ 0 ∧ ∀ i, k < i → i < n → raw.getD i 0 = 0 := by
  induction n with
  | zero => cases h
  | succ n ih =>
    rw [lastOctet] at h
    split at h
    · rename_i hne
      obtain rfl := Option.some.inj h
      exact ⟨Nat.lt_succ_self _, hne, fun i hi hlt => by omega⟩
    · rename_i hzero
      obtain ⟨hk, hne, hrest⟩ := ih h
      refine ⟨Nat.lt_succ_of_lt hk, hne, fun i hki hi => ?_⟩
      rcases Nat.lt_succ_iff_lt_or_eq.mp hi with hi | rfl
      · exact hrest i hki hi
      · exact not_not.mp hzero

theorem typepresentLoop_nil (type : RdataType) (fuel : Nat) : typepresentLoop type fuel [] = .ok false := by
  cases fuel <;> rfl

theorem typepresentLoop_window {type : RdataType} {window octet fuel : Nat} {raw rest : Bytes} (hwindow : window < 256)
    (hoctet : octet < 32) (hlen : octet + 1 ≤ raw.length) (hzero : ∀ i, octet < i → i < 32 → raw.getD i 0 = 0) :
    typepresentLoop type (fuel + 1)
        (ofNat window :: ofNat (octet + 1) :: (raw.take (octet + 1) ++ rest)) =
      if type.toNat < window * 256 then .ok false
      else if (window + 1) * 256 ≤ type.toNat then typepresentLoop type fuel rest
      else .ok (isset raw (type.toNat - window * 256)) := by
  have hw : (ofNat window).toNat = window := toNat_ofNat_of_lt' hwindow
  have ho : (ofNat (octet + 1)).toNat = octet + 1 := toNat_ofNat_of_lt' (lt_of_le_of_lt hoctet (by decide))
  have hpos : ¬(ofNat (octet + 1) = 0 ∨ 32 < (ofNat (octet + 1)).toNat) := by
    rw [← UInt8.toNat_inj]
    simp only [UInt8.toNat_zero]
    omega
  have hdrop : (raw.take (octet + 1) ++ rest).drop (octet + 1) = rest :=
    drop_left' (by rw [length_take]; omega)
  rw [typepresentLoop, if_neg hpos, hw, ho, hdrop, if_neg (by simp; omega)]
  by_cases hbefore : type.toNat < window * 256
  · rw [if_pos hbefore, if_pos hbefore]
  by_cases hafter : (window + 1) * 256 ≤ type.toNat
  · rw [if_pos hafter, if_pos hafter]
  have hmod : type.toNat % 256 = type.toNat - window * 256 := by omega
  rw [hmod]
  by_cases hin : type.toNat < window * 256 + (octet + 1) * 8
  · rw [decide_eq_true hin, Bool.true_and, isset_take_append hlen (by omega)]
  · rw [decide_eq_false hin, Bool.false_and, isset_of_getD (hzero _ (by omega) (by omega))]

theorem getD_of_length_le {l : Bytes} {i : Nat} (h : l.length ≤ i) : l.getD i 0 = 0 := by
  simp [getD, getElem?_eq_none h]

theorem typepresentLoop_compressLoop {maxType : Nat} (type : RdataType) {windows window : Nat} {raw : Bytes} {fuel : Nat}
    (hwindows : window + windows ≤ 256) (hmax : ∀ u, isset raw u → window * 256 + u ≤ maxType)
    (hend : type.toNat < (window + windows) * 256)
    (hfuel : (compressLoop maxType windows window raw).length ≤ fuel) :
    typepresentLoop type fuel (compressLoop maxType windows window raw) =
      .ok (decide (window * 256 ≤ type.toNat) && isset raw (type.toNat - window * 256)) := by
  induction windows generalizing window raw fuel with
  | zero =>
    rw [Nat.add_zero] at hend
    rw [compressLoop, typepresentLoop_nil, decide_eq_false (not_le.mpr hend), Bool.false_and]
  | succ windows ih =>
    have hnext : window + 1 + windows = window + (windows + 1) := Nat.add_right_comm ..
    -- a type after this window is looked up in the rest
    have hrest : ∀ fuel, (compressLoop maxType windows (window + 1) (raw.drop 32)).length ≤ fuel →
        typepresentLoop type fuel (compressLoop maxType windows (window + 1) (raw.drop 32)) =
          .ok (decide ((window + 1) * 256 ≤ type.toNat) && isset raw (type.toNat - window * 256)) := by
      intro fuel hfuel
      have hmax' : ∀ u, isset (raw.drop 32) u → (window + 1) * 256 + u ≤ maxType := by
        intro u hu
        rw [isset_drop] at hu
        have := hmax _ hu
        rw [Nat.add_mul, Nat.add_assoc, Nat.add_comm 256]
        exact this
      rw [ih (hnext ▸ hwindows) hmax' (hnext ▸ hend) hfuel]
      by_cases hlt : (window + 1) * 256 ≤ type.toNat
      · have hsub : type.toNat - (window + 1) * 256 + 256 = type.toNat - window * 256 := by
          omega
        rw [isset_drop, hsub]
      · simp [hlt]
    rw [compressLoop] at hfuel ⊢
    by_cases hbreak : window * 256 > maxType
    · rw [if_pos hbreak, typepresentLoop_nil]
      have hnone : isset raw (type.toNat - window * 256) = false := by
        by_contra hset
        have := hmax _ (by simpa using hset)
        exact absurd (lt_of_lt_of_le hbreak ((Nat.le_add_right ..).trans this)) (lt_irrefl _)
      rw [hnone, Bool.and_false]
    rw [if_neg hbreak] at hfuel ⊢
    cases hlast : lastOctet raw 32 with
    | none =>
      simp only [hlast] at hfuel
      simp only [hrest fuel hfuel]
      refine congrArg Except.ok ?_
      have hzero := lastOctet_none hlast
      by_cases hin : (window + 1) * 256 ≤ type.toNat
      · simp [hin, (Nat.mul_le_mul_right 256 (Nat.le_succ window)).trans hin]
      · rw [decide_eq_false hin, Bool.false_and]
        have hnone : isset raw (type.toNat - window * 256) = false := by
          refine isset_of_getD (hzero _ ?_)
          omega
        rw [hnone, Bool.and_false]
    | some octet =>
      simp only [hlast, length_cons, length_append] at hfuel
      obtain ⟨hoctet, hne, hzero⟩ := lastOctet_some hlast
      have hlen : octet + 1 ≤ raw.length := by
        by_contra hle
        exact hne (getD_of_length_le (by omega))
      obtain ⟨fuel, rfl⟩ : ∃ k, fuel = k + 1 := ⟨fuel - 1, by omega⟩
      rw [typepresentLoop_window (by omega) hoctet hlen hzero, hrest fuel (by omega)]
      by_cases hbefore : type.toNat < window * 256
      · rw [if_pos hbefore, decide_eq_false (not_le.mpr hbefore), Bool.false_and]
      rw [if_neg hbefore, decide_eq_true (not_lt.mp hbefore), Bool.true_and]
      by_cases hafter : (window + 1) * 256 ≤ type.toNat
      · rw [if_pos hafter, decide_eq_true hafter, Bool.true_and]
      · rw [if_neg hafter]

theorem le_foldl_max {types : List RdataType} {t : RdataType} (ht : t ∈ types) (m : Nat) :
    t.toNat ≤ types.foldl (fun m t => max m t.toNat) m := by
  have hstart : ∀ (types : List RdataType) (m : Nat), m ≤ types.foldl (fun m t => max m t.toNat) m := by
    intro types
    induction types with
    | nil => exact fun m => le_rfl
    | cons u types ih => exact fun m => (le_max_left ..).trans (ih _)
  induction types generalizing m with
  | nil => cases ht
  | cons u types ih =>
    rcases mem_cons.mp ht with rfl | ht
    · exact (le_max_right ..).trans (hstart types _)
    · exact ih ht _

/-- The bitmap of a set of types tells whether a type is one of them. -/
theorem typepresent_ofTypes (types : List RdataType) (type : RdataType) :
    typepresent (ofTypes types) type = .ok (decide (type ∈ types)) := by
  have hraw : ∀ u : RdataType, isset (types.foldl setbit (replicate 8192 0)) u.toNat = decide (u ∈ types) := by
    intro u
    have hnone : isset (replicate 8192 0) u.toNat = false := by
      unfold isset
      generalize 8192 = n
      simp
    rw [isset_foldl types length_replicate, hnone, Bool.or_false]
  have hlen : (types.foldl setbit (replicate 8192 0)).length = 8192 := by
    rw [length_foldl_setbit, length_replicate]
  unfold typepresent ofTypes compressbitmap
  rw [typepresentLoop_compressLoop type (by simp) ?_ ?_ le_rfl]
  · simp only [Nat.zero_mul, Nat.zero_le, decide_true, Bool.true_and, Nat.sub_zero, hraw]
  · intro u hu
    have hlt : u < 65536 := by
      by_contra hge
      rw [isset_of_getD (getD_of_length_le (by omega))] at hu
      cases hu
    have hu' : (UInt16.ofNat u).toNat = u := UInt16.toNat_ofNat_of_lt' hlt
    rw [← hu', hraw, decide_eq_true_eq] at hu
    rw [Nat.zero_add]
    exact hu' ▸ le_foldl_max hu 0
  · exact type.toNat_lt

end OqsBind.Dns.Bitmap
