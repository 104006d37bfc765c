import Mathlib.Data.Nat.Bitwise
import OqsBind.Isc.Base32

/-! Base 32 text is canonical. What the decoder has read is, digit by digit, the encoding of the octets it has written
    (`Read`), where a NUL is read as padding. -/

namespace OqsBind.Isc.Base32
open List

theorem and_mask (a i k : Nat) : a <<< i &&& (2 ^ k - 1) <<< i = a % 2 ^ k * 2 ^ i := by
  rw [← Nat.shiftLeft_and_distrib, Nat.and_two_pow_sub_one_eq_mod, Nat.shiftLeft_eq]

theorem mul_or {a b i : Nat} (h : b < 2 ^ i) : a * 2 ^ i ||| b = a * 2 ^ i + b := by
  rw [← Nat.shiftLeft_eq, Nat.shiftLeft_add_eq_or_of_lt h]

theorem octets_lt (source : Bytes) {s : Nat → Nat} (h : s = fun i => (source.map UInt8.toNat).getD i 0) :
    s 0 < 256 ∧ s 1 < 256 ∧ s 2 < 256 ∧ s 3 < 256 ∧ s 4 < 256 := by
  have hs : ∀ i, s i < 256 := fun i => by
    have heq : s i = (source.getD i 0).toNat := by rw [h]; exact getD_map source 0 UInt8.toNat
    exact heq ▸ UInt8.toNat_lt _
  exact ⟨hs 0, hs 1, hs 2, hs 3, hs 4⟩

theorem digits_eq (source : Bytes) :
    let s := fun i => (source.map UInt8.toNat).getD i 0
    digits source = [s 0 / 8, s 0 % 8 * 4 + s 1 / 64, s 1 / 2 % 32, s 1 % 2 * 16 + s 2 / 16, s 2 % 16 * 2 + s 3 / 128,
      s 3 / 4 % 32, s 3 % 4 * 8 + s 4 / 32, s 4 % 32] := by
  intro s
  have : s 0 < 256 ∧ _ := octets_lt source rfl
  have hmasked : digits source = [s 0 / 2 ^ 3 &&& (2 ^ 5 - 1), (s 0 <<< 2 &&& (2 ^ 3 - 1) <<< 2) ||| (s 1 / 2 ^ 6 &&& (2 ^ 2 - 1)),
      s 1 / 2 ^ 1 &&& (2 ^ 5 - 1), (s 1 <<< 4 &&& (2 ^ 1 - 1) <<< 4) ||| (s 2 / 2 ^ 4 &&& (2 ^ 4 - 1)),
      (s 2 <<< 1 &&& (2 ^ 4 - 1) <<< 1) ||| (s 3 / 2 ^ 7 &&& (2 ^ 1 - 1)), s 3 / 2 ^ 2 &&& (2 ^ 5 - 1),
      (s 3 <<< 3 &&& (2 ^ 2 - 1) <<< 3) ||| (s 4 / 2 ^ 5 &&& (2 ^ 3 - 1)), s 4 &&& (2 ^ 5 - 1)] := by
    simp only [digits, Nat.shiftRight_eq_div_pow]
    rfl
  rw [hmasked]
  simp only [and_mask, Nat.and_two_pow_sub_one_eq_mod]
  rw [mul_or (by omega), mul_or (by omega), mul_or (by omega), mul_or (by omega)]
  simp only [cons.injEq, and_true]
  omega

theorem group_eq {v0 v1 v2 v3 v4 v5 v6 v7 : Nat} (h : ∀ v ∈ [v0, v1, v2, v3, v4, v5, v6, v7], v < 32) :
    (group [v0, v1, v2, v3, v4, v5, v6, v7]).map UInt8.toNat =
      [v0 * 8 + v1 / 4, v1 % 4 * 64 + v2 * 2 + v3 / 16, v3 % 16 * 16 + v4 / 2, v4 % 2 * 128 + v5 * 4 + v6 / 8,
        v6 % 8 * 32 + v7] := by
  simp only [forall_mem_cons] at h
  simp only [group, getD_cons_zero, getD_cons_succ, map_cons, map_nil, UInt8.toNat_ofNat', Nat.lor_assoc,
    Nat.shiftRight_eq_div_pow, Nat.shiftLeft_eq]
  rw [mul_or (by omega), mul_or (i := 1) (by omega), mul_or (by omega), mul_or (by omega), mul_or (i := 2) (by omega), mul_or (by omega),
    mul_or (by omega)]
  simp only [cons.injEq, and_true]
  omega

/-- The digits of a group with its padding. -/
def cell (source : Bytes) : List Nat :=
  (digits source).take (written source.length) ++ replicate (8 - written source.length) 32

theorem cell_take {val : List Nat} {n : Nat} (h8 : val.length = 8) (hval : ∀ v ∈ val, v < 32) (hn : n ≤ 5)
    (hlow : val.getD (written n - 1) 0 % 2 ^ (5 * written n - 8 * n) = 0) :
    cell ((group val).take n) = val.take (written n) ++ replicate (8 - written n) 32 := by
  obtain ⟨v0, v1, v2, v3, v4, v5, v6, v7, rfl⟩ : ∃ v0 v1 v2 v3 v4 v5 v6 v7, val = [v0, v1, v2, v3, v4, v5, v6, v7] := by
    match val, h8 with
    | [v0, v1, v2, v3, v4, v5, v6, v7], _ => exact ⟨v0, v1, v2, v3, v4, v5, v6, v7, rfl⟩
  have hlen : (group [v0, v1, v2, v3, v4, v5, v6, v7]).length = 5 := rfl
  have hn' : min n 5 = n := by omega
  simp only [cell, digits_eq, map_take, group_eq hval, length_take, hlen, hn']
  simp only [forall_mem_cons] at hval
  obtain rfl | rfl | rfl | rfl | rfl | rfl : n = 0 ∨ n = 1 ∨ n = 2 ∨ n = 3 ∨ n = 4 ∨ n = 5 := by omega
  all_goals
    simp [written] at hlow ⊢
    try omega

theorem significant_eq_some {val : List Nat} {n : Nat} (h : significant val = some n) :
    0 < n ∧ n < 5 ∧ 0 < written n ∧ val.length = written n ∧ val.getD (written n - 1) 0 % 2 ^ (5 * written n - 8 * n) = 0 := by
  have hmask := fun x k => Nat.and_two_pow_sub_one_eq_mod x k
  unfold significant at h
  split at h
  case h_5 => cases h
  all_goals
    split_ifs at h with hlow
    cases h
    simp [written]
    rw [not_not] at hlow
  · exact (hmask _ 2).symm.trans hlow
  · exact (hmask _ 4).symm.trans hlow
  · exact (hmask _ 1).symm.trans hlow
  · exact (hmask _ 3).symm.trans hlow

/-- The digits of all groups. -/
def encode : Bytes → List Nat
  | [] => []
  | a :: b :: c :: d :: e :: source => cell [a, b, c, d, e] ++ encode source
  | source => cell source

theorem encode_short {source : Bytes} (hpos : 0 < source.length) (hlt : source.length < 5) : encode source = cell source := by
  match source, hpos, hlt with
  | [_], _, _ | [_, _], _, _ | [_, _, _], _, _ | [_, _, _, _], _, _ => rfl

/-- What has been read, as values, and the state of the decoder. -/
inductive Read : List Nat → Ctx → Prop
  | digits {done val : List Nat} {target : Bytes} : (∀ l, encode (target ++ l) = done ++ encode l) → (∀ v ∈ val, v < 32) →
    val.length < 8 → Read (done ++ val) ⟨val, false, 0, target⟩
  | padding {done val : List Nat} {target : Bytes} {n k : Nat} : (∀ l, encode (target ++ l) = done ++ encode l) →
    (∀ v ∈ val, v < 32) → significant val = some n → val.length + k < 8 →
    Read (done ++ (val ++ replicate k 32)) ⟨val ++ replicate k 0, false, n, target⟩
  | ended {target : Bytes} {n : Nat} : Read (encode target) ⟨[], true, n, target⟩

section
variable {done val : List Nat} {target : Bytes} {n k v : Nat}

section
variable (hdone : ∀ l, encode (target ++ l) = done ++ encode l) (hval : ∀ v ∈ val, v < 32)
include hdone hval

theorem Read.digit (h8 : val.length < 8)
    (hv : v < 32) : Read (done ++ val ++ [v]) (push ⟨val, false, 0, target⟩ 0 v) := by
  have hval' : ∀ w ∈ val ++ [v], w < 32 := by simpa [or_imp, forall_and, hv] using hval
  unfold push
  by_cases hfull : val.length + 1 = 8
  · have hcell : cell (group (val ++ [v])) = val ++ [v] := by
      have h8' : (val ++ [v]).length = 8 := by simpa using hfull
      exact (cell_take (n := 5) h8' hval' le_rfl (Nat.mod_one _)).trans (by simp [written, take_of_length_le h8'.le])
    rw [if_pos hfull]
    refine append_nil (done ++ val ++ [v]) ▸ @Read.digits _ [] _ (fun l => ?_) (by simp) (by simp)
    calc encode (target ++ group (val ++ [v]) ++ l)
      _ = done ++ encode (group (val ++ [v]) ++ l) := by rw [append_assoc, hdone]
      _ = done ++ (cell (group (val ++ [v])) ++ encode l) := rfl
      _ = done ++ val ++ [v] ++ encode l := by simp [hcell]
  · rw [if_neg hfull, append_assoc]
    exact .digits hdone hval' (by simp; omega)

theorem Read.pad
    (hn : significant val = some n) (h8 : val.length + k < 8) (seen32 : Nat) :
    Read (done ++ (val ++ replicate k 32) ++ [32]) (push ⟨val ++ replicate k 0, false, seen32, target⟩ n 0) := by
  obtain ⟨hpos, hlt, hwritten, hlen, hlow⟩ := significant_eq_some hn
  have hmore : ∀ x : Nat, val ++ replicate k x ++ [x] = val ++ replicate (k + 1) x := by simp [replicate_succ']
  unfold push
  simp only [append_assoc done, hmore]
  by_cases hfull : (val ++ replicate k 0).length + 1 = 8
  · have hk : val.length + (k + 1) = 8 := by simpa [Nat.add_assoc] using hfull
    have hlen' : (val ++ replicate (k + 1) 0).length = 8 := by simpa using hk
    have hcell := cell_take hlen' (by simpa [or_imp, forall_and] using hval) hlt.le
      (by rwa [getD_append _ _ _ _ (by omega)])
    have hshort : ((group (val ++ replicate (k + 1) 0)).take n).length = n := by simp [group]; omega
    rw [if_pos hfull, if_pos hpos.ne', decide_eq_true hpos.ne']
    convert Read.ended using 1
    rw [hdone, encode_short (by omega) (by omega), hcell, ← hlen, take_left, show 8 - val.length = k + 1 by omega]
  · rw [if_neg hfull]
    exact .padding hdone hval hn (by simp at hfull; omega)

end

variable {base : Bytes} {pad : Bool} {vs : List Nat} {ctx ctx' : Ctx}

theorem Read.accept (h : Read vs ctx) (hv : v ≤ 32) (hend : ¬ctx.seenEnd) (hstep : accept pad ctx v = some ctx') :
    Read (vs ++ [v]) ctx' ∧ (pad = false → v ≠ 32) := by
  unfold Base32.accept at hstep
  by_cases hpad : v = 32
  · subst hpad
    cases pad
    · cases hstep
    refine ⟨?_, nofun⟩
    cases h with
    | @digits done val target hdone hval h8 =>
      cases hn : significant val with
      | none => simp [hn] at hstep
      | some n =>
        simp only [hn] at hstep
        cases hstep
        simpa using Read.pad (k := 0) hdone hval hn h8 0
    | padding hdone hval hn h8 =>
      simp only [(significant_eq_some hn).1.ne'] at hstep
      cases hstep
      exact Read.pad hdone hval hn h8 _
    | ended => exact absurd rfl hend
  · rw [if_pos hpad] at hstep
    refine ⟨?_, fun _ => hpad⟩
    cases h with
    | digits hdone hval h8 =>
      cases hstep
      exact Read.digit hdone hval h8 (by omega)
    | padding hdone hval hn h8 => simp [(significant_eq_some hn).1.ne'] at hstep
    | ended => exact absurd rfl hend

theorem Read.eq_encode (h : Read vs ctx) (hval : ctx.val = []) : vs = encode ctx.target := by
  cases h with
  | @digits done val target hdone =>
    obtain rfl : val = [] := hval
    simpa [encode] using (hdone []).symm
  | @padding done val target n k _ _ hn =>
    obtain ⟨rfl, -⟩ := append_eq_nil_iff.mp hval
    cases hn
  | ended => rfl

/-- A NUL is read as padding, and the case of letters does not count. -/
def readAs (c : UInt8) : UInt8 := if c = 0 then 0x3d else tolower c

theorem index_spec (hbase : base ∈ [base32, base32hex]) {c : UInt8} (h : index base c = some v) :
    v ≤ 32 ∧ tolower (base.getD v 0) = readAs c := by
  obtain ⟨i, hi, rfl⟩ := Option.map_eq_some_iff.mp h
  obtain ⟨hlt, hc, -⟩ := findIdx?_eq_some_iff_getElem.mp hi
  have hall : ∀ base ∈ [base32, base32hex], (base ++ [0]).length = 66 ∧ ∀ i < 66, (if 32 < i then i - 33 else i) ≤ 32 ∧
      tolower (base.getD (if 32 < i then i - 33 else i) 0) = readAs ((base ++ [0]).getD i 0) := by decide
  obtain ⟨hlen, hall⟩ := hall base hbase
  have := hall i (hlen ▸ hlt)
  rwa [getD_eq_getElem _ _ hlt, of_decide_eq_true hc] at this

theorem Read.run (hbase : base ∈ [base32, base32hex]) {r : Bytes} (h : Read vs ctx)
    (hrun : r.foldlM (decodeChar base pad) ctx = some ctx') :
    ∃ vs', Read (vs ++ vs') ctx' ∧ r.map (index base) = vs'.map some ∧ (pad = false → 32 ∉ vs') := by
  induction r generalizing vs ctx with
  | nil =>
    cases hrun
    exact ⟨[], by simpa using h, rfl, by simp⟩
  | cons c r ih =>
    obtain ⟨ctx1, hstep, hrun⟩ := Option.bind_eq_some_iff.mp hrun
    unfold decodeChar at hstep
    split_ifs at hstep with hend
    obtain ⟨v, hv, hstep⟩ := Option.bind_eq_some_iff.mp hstep
    obtain ⟨hread, hpad⟩ := h.accept (index_spec hbase hv).1 hend hstep
    obtain ⟨vs', hread', hr, hpad'⟩ := ih hread hrun
    refine ⟨v :: vs', by simpa using hread', by simp [hv, hr], fun h => ?_⟩
    simpa [Ne.symm (hpad h)] using hpad' h

/-- A digit as text, or what stands for padding. -/
def char (base : Bytes) (pad : UInt8) (v : Nat) : Bytes :=
  if v = 32 then [pad].takeWhile (· ≠ 0) else [base.getD v 0]

theorem digits_lt {source : Bytes} (hv : v ∈ digits source) : v < 32 := by
  have := octets_lt source rfl
  rw [digits_eq] at hv
  simp only [mem_cons, not_mem_nil, or_false] at hv
  omega

theorem buf_eq (hbase : base ∈ [base32, base32hex]) (pad : UInt8) (source : Bytes) :
    buf base pad source = (cell source).flatMap (char base pad) := by
  have hnul : ∀ base ∈ [base32, base32hex], ∀ v < 32, base.getD v 0 ≠ 0 := by decide
  have hdigits : ∀ v ∈ (digits source).take (written source.length), v < 32 := fun v hv => digits_lt (mem_of_mem_take hv)
  rw [buf, cell, flatMap_append, takeWhile_append_of_pos]
  · congr 1
    · rw [map_eq_flatMap]
      refine flatMap_congr fun v hv => ?_
      rw [char, if_neg (hdigits v hv).ne]
    · by_cases hpad : pad = 0 <;> simp [char, hpad, flatMap_replicate]
  · intro c hc
    obtain ⟨v, hv, rfl⟩ := mem_map.mp hc
    simpa using hnul base hbase v (hdigits v hv)

theorem totextLoop_filter (hbase : base ∈ [base32, base32hex]) {pad : UInt8} (wordlength : Int) {wordbreak : Bytes}
    {p : UInt8 → Bool} (hbreak : wordbreak.filter p = []) (hchar : ∀ v, (char base pad v).filter p = char base pad v)
    (loops : Nat) (source : Bytes) :
    (totextLoop base pad wordlength wordbreak loops source).filter p = (encode source).flatMap (char base pad) := by
  fun_induction encode source generalizing loops with
  | case1 => rfl
  | case2 a b c d e source ih =>
    rw [totextLoop]
    split_ifs <;> simp only [buf_eq hbase, filter_append, filter_flatMap, flatMap_append, hchar, hbreak, ih,
      nil_append]
  | case3 source hnil hlong => rw [totextLoop, buf_eq hbase, filter_flatMap, flatMap_congr fun v _ => hchar v] <;> assumption

theorem flatMap_char {pad : UInt8} (h : ∀ v ∈ vs, char base pad v = [base.getD v 0]) :
    vs.flatMap (char base pad) = vs.map (base.getD · 0) := by
  rw [map_eq_flatMap]
  exact flatMap_congr h

/-- The values of a text that is accepted are encoded again, digit by digit. -/
theorem decoderegion_values (hbase : base ∈ [base32, base32hex]) {r d : Bytes} (h : decoderegion base pad r = some d) :
    ∃ vs : List Nat, r.map (index base) = vs.map some ∧
      totext base (if pad then 0x3d else 0) (-1) [] d = vs.map (base.getD · 0) := by
  have hequals : ∀ base ∈ [base32, base32hex], base.getD 32 0 = 0x3d ∧ index base 0x3d = some 32 := by decide
  obtain ⟨ctx, hrun, hfinish⟩ := Option.bind_eq_some_iff.mp h
  have hempty : Read [] ⟨[], false, 0, []⟩ := @Read.digits [] [] [] (fun _ => rfl) (by simp) (by simp)
  obtain ⟨vs, hread, hr, hpad⟩ := hempty.run hbase hrun
  obtain ⟨ctx', hlast, hfinish⟩ := Option.bind_eq_some_iff.mp hfinish
  obtain ⟨hval, rfl⟩ : ctx'.val = [] ∧ ctx'.target = d := by simpa using hfinish
  rw [totext, ← filter_true (totextLoop _ _ _ _ _ _), totextLoop_filter hbase _ rfl (fun _ => filter_true _)]
  refine ⟨vs, hr, ?_⟩
  cases pad with
  | true =>
    cases hlast
    rw [← hread.eq_encode hval]
    refine flatMap_char fun v _ => ?_
    by_cases hv : v = 32
    · rw [hv, (hequals base hbase).1]
      rfl
    · rw [char, if_neg hv]
  | false =>
    -- What the decoder adds is padding, and there is no other.
    obtain ⟨vs', hread', hvs'⟩ : ∃ vs', Read (vs ++ vs') ctx' ∧ ∀ v ∈ vs', v = 32 := by
      split_ifs at hlast with hmore
      · obtain ⟨vs', hread', hadded, -⟩ := hread.run hbase hlast
        refine ⟨vs', hread', fun v hv => ?_⟩
        have : some v ∈ (replicate (8 - ctx.val.length) 0x3d).map (index base) := hadded ▸ mem_map_of_mem hv
        simp only [map_replicate, (hequals base hbase).2] at this
        exact Option.some.inj (eq_of_mem_replicate this)
      · cases hlast
        exact ⟨[], by simpa using hread, by simp⟩
    have hnone : vs'.flatMap (char base 0) = [] := flatMap_eq_nil_iff.mpr fun v hv => by simp [char, hvs' v hv]
    rw [← hread'.eq_encode hval, if_neg (by simp), flatMap_append, hnone, append_nil]
    refine flatMap_char fun v hv => ?_
    rw [char, if_neg (ne_of_mem_of_not_mem hv (hpad rfl))]

theorem map_index (hbase : base ∈ [base32, base32hex]) {r : Bytes} (h : r.map (index base) = vs.map some) :
    (vs.map (base.getD · 0)).map tolower = r.map readAs := by
  induction r generalizing vs with
  | nil => simpa using h
  | cons c r ih =>
    obtain ⟨v, vs, rfl⟩ : ∃ v vs', vs = v :: vs' := exists_cons_of_ne_nil (by rintro rfl; simp at h)
    obtain ⟨hv, h⟩ := cons.inj h
    rw [map_cons, map_cons, map_cons, (index_spec hbase hv).2, ih h]

/-- Text that is accepted is the text of what it decodes to, up to case, unless a NUL stands for padding. -/
theorem decoderegion_canonical (hbase : base ∈ [base32, base32hex]) {r d : Bytes} (h : decoderegion base pad r = some d) :
    (totext base (if pad then 0x3d else 0) (-1) [] d).map tolower = r.map tolower ↔ 0 ∉ r := by
  obtain ⟨vs, hr, htext⟩ := decoderegion_values hbase h
  rw [htext, map_index hbase hr, map_inj_left]
  refine ⟨fun h hnul => absurd (h 0 hnul) (by decide), fun h c hc => ?_⟩
  rw [readAs, if_neg (ne_of_mem_of_not_mem hc h)]

theorem decoderegion_canonical_mixed :
    (totext base32hex 0 (-1) [] [12, 226]).map tolower = [0x31, 0x6a, 0x48, 0x30].map tolower :=
  (@decoderegion_canonical base32hex false (by simp) _ _ (by decide)).mpr (by decide)

/-- Six NULs are accepted as the padding of one octet. -/
theorem hex_nuls : decoderegion base32hex true [0x30, 0x30, 0, 0, 0, 0, 0, 0] = some [0] ∧
    (totext base32hex 0x3d (-1) [] [0]).map tolower ≠ [0x30, 0x30, 0, 0, 0, 0, 0, 0].map tolower := by
  decide

end

end OqsBind.Isc.Base32
