import Mathlib.Data.List.TakeWhile
import OqsBind.Isc.Base64
import OqsBind.Theorems.Base32

/-! Base 32 and base 64 text is decoded to the octets that it was made from, with white space between its words. -/

namespace OqsBind.Isc
open List Base32

namespace Base32

theorem decodeText_eq {σ : Type} {step : σ → UInt8 → Option σ} {text : Bytes} (hnul : 0 ∉ text) (ctx : σ) :
    decodeText step text ctx = (text.filter (· ∉ white)).foldlM step ctx := by
  have hall : text.takeWhile (· ≠ 0) = text :=
    takeWhile_eq_self_iff.mpr fun c hc => decide_eq_true (ne_of_mem_of_not_mem hc hnul)
  rw [decodeText, hall, foldlM_filter]
  simp [ite_not]

variable {base target source : Bytes} {pad : Bool} {val : List Nat} {n : Nat}

section
variable (hbase : base ∈ [base32, base32hex])
include hbase

theorem decodeChar_getD {ctx : Ctx} (hend : ctx.seenEnd = false) {v : Nat} (hv : v ≤ 32) :
    decodeChar base pad ctx (base.getD v 0) = accept pad ctx v := by
  have hindex : ∀ base ∈ [base32, base32hex], ∀ v ≤ 32, index base (base.getD v 0) = some v := by decide
  rw [decodeChar, hend, hindex base hbase v hv]
  rfl

theorem decode_digits {vs : List Nat} (hvs : ∀ v ∈ vs, v < 32) {ctx : Ctx}
    (hend : ctx.seenEnd = false) (h32 : ctx.seen32 = 0) :
    (vs.map (base.getD · 0)).foldlM (decodeChar base pad) ctx = some (vs.foldl (push · 0 ·) ctx) := by
  induction vs generalizing ctx with
  | nil => rfl
  | cons v vs ih =>
    obtain ⟨hv, hvs⟩ := forall_mem_cons.mp hvs
    have haccept : accept pad ctx v = some (push ctx 0 v) := by simp [accept, hv.ne, h32]
    rw [map_cons, foldlM_cons, decodeChar_getD hbase hend hv.le, haccept]
    refine ih hvs ?_ ?_ <;> unfold push <;> split_ifs <;> simp [hend]

theorem decode_padding (hn : significant val = some n) (target : Bytes) :
    (replicate (8 - val.length) 0x3d).foldlM (decodeChar base true) ⟨val, false, 0, target⟩ =
      some ⟨[], true, n, target ++ (group (val ++ replicate (8 - val.length) 0)).take n⟩ := by
  have hequals : ∀ base ∈ [base32, base32hex], base.getD 32 0 = 0x3d := by decide
  have hstep : ∀ {ctx : Ctx}, ctx.seenEnd = false → decodeChar base true ctx 0x3d = accept true ctx 32 := fun hend => by
    rw [← hequals base hbase, decodeChar_getD hbase hend le_rfl]
  unfold significant at hn
  split at hn
  case h_5 => cases hn
  all_goals
    split_ifs at hn with hlow
    cases hn
    simp [replicate, hstep, accept, push, significant, not_not.mp hlow]

end

theorem significant_digits (hpos : 0 < source.length) (hlt : source.length < 5) :
    significant ((digits source).take (written source.length)) = some source.length := by
  have hmask := fun x k => Nat.and_two_pow_sub_one_eq_mod x k
  rw [digits_eq]
  match source, hpos, hlt with
  | [a], _, _ => simp [written, significant, hmask _ 2]
  | [a, b], _, _ => simp [written, significant, hmask _ 4]
  | [a, b, c], _, _ => simp [written, significant, hmask _ 1]
  | [a, b, c, d], _, _ => simp [written, significant, hmask _ 3]

theorem group_digits (source : Bytes) (h : source.length ≤ 5) :
    (group ((digits source).take (written source.length) ++ replicate (8 - written source.length) 0)).take source.length =
      source := by
  refine map_injective_iff.mpr (fun a b => UInt8.toNat_inj.mp) ?_
  have := octets_lt source rfl
  rw [digits_eq]
  match source, h with
  | [], _ => rfl
  | [a], _ | [a, b], _ | [a, b, c], _ | [a, b, c, d], _ | [a, b, c, d, e], _ =>
    simp [written] at this ⊢
    rw [group_eq (by simp; omega)]
    simp
    omega

theorem foldl_push_lt {vs : List Nat} (h8 : val.length + vs.length < 8) :
    vs.foldl (push · 0 ·) ⟨val, false, 0, target⟩ = ⟨val ++ vs, false, 0, target⟩ := by
  induction vs generalizing val with
  | nil => simp
  | cons v vs ih =>
    rw [length_cons] at h8
    rw [foldl_cons, push, if_neg (by simp; omega), ih (by simp; omega), append_assoc]
    rfl

theorem foldl_push {vs : List Nat} (h8 : vs.length = 8) :
    vs.foldl (push · 0 ·) ⟨[], false, 0, target⟩ = ⟨[], false, 0, target ++ group vs⟩ := by
  obtain ⟨vs, v, rfl⟩ : ∃ vs' v, vs = vs' ++ [v] :=
    ⟨_, _, (dropLast_append_getLast (ne_nil_of_length_eq_add_one h8)).symm⟩
  have hlen : vs.length + 1 = 8 := by simpa using h8
  rw [foldl_append, foldl_push_lt (by simp; omega), foldl_cons, push, if_pos (by simpa using hlen)]
  rfl

theorem take_digits_length (source : Bytes) (h : source.length ≤ 5) :
    ((digits source).take (written source.length)).length = written source.length := by
  match source, h with
  | [], _ | [_], _ | [_, _], _ | [_, _, _], _ | [_, _, _, _], _ | [_, _, _, _, _], _ => rfl

/-- The text of octets without white space is decoded to them, after those decoded before. -/
theorem decode_encode (hbase : base ∈ [base32, base32hex]) (pad : Bool) (target source : Bytes) :
    (((encode source).flatMap (char base (if pad then 0x3d else 0))).foldlM (decodeChar base pad) ⟨[], false, 0, target⟩).bind
      (decodeFinish base pad) = some (target ++ source) := by
  have hread : ∀ {source : Bytes} (n : Nat) (target : Bytes), (((digits source).take n).flatMap
      (char base (if pad then 0x3d else 0))).foldlM (decodeChar base pad) ⟨[], false, 0, target⟩ =
        some (((digits source).take n).foldl (push · 0 ·) ⟨[], false, 0, target⟩) := fun {source} n target => by
    have hlt : ∀ v ∈ (digits source).take n, v < 32 := fun v hv => digits_lt (mem_of_mem_take hv)
    rw [flatMap_char fun v hv => by rw [char, if_neg (hlt v hv).ne], decode_digits hbase hlt rfl rfl]
  fun_induction encode source generalizing target with
  | case1 => simp [decodeFinish]
  | case2 a b c d e source ih =>
    have hgroup : group ((digits [a, b, c, d, e]).take 8) = [a, b, c, d, e] := group_digits [a, b, c, d, e] le_rfl
    rw [cell, append_assoc, flatMap_append, foldlM_append, hread,
      foldl_push (take_digits_length [a, b, c, d, e] le_rfl)]
    simpa [written, hgroup] using ih (target ++ [a, b, c, d, e])
  | case3 source hnil hlong =>
    obtain ⟨hpos, hlt, hwritten, h8⟩ : 0 < source.length ∧ source.length < 5 ∧ 0 < written source.length ∧
        written source.length < 8 := by
      rcases source with _ | ⟨a, _ | ⟨b, _ | ⟨c, _ | ⟨d, _ | ⟨e, source⟩⟩⟩⟩⟩
      · exact (hnil rfl).elim
      · simp [written]
      · simp [written]
      · simp [written]
      · simp [written]
      · exact (hlong a b c d e source rfl).elim
    have hlen := take_digits_length source hlt.le
    have hend := decode_padding hbase (significant_digits hpos hlt) target
    rw [hlen, group_digits source hlt.le] at hend
    rw [cell, flatMap_append, foldlM_append, hread, foldl_push_lt (by rwa [hlen, length_nil, Nat.zero_add])]
    cases pad with
    | true =>
      have hpadding : (replicate (8 - written source.length) 32).flatMap (char base 0x3d) =
        replicate (8 - written source.length) 0x3d := by simp [flatMap_replicate, char]
      rw [if_pos rfl, hpadding]
      simp [hend, decodeFinish]
    | false =>
      -- There is no padding in the text. It is added at the end.
      have hpadding : (replicate (8 - written source.length) 32).flatMap (char base 0) = [] := by
        simp [flatMap_replicate, char]
      rw [if_neg Bool.false_ne_true, hpadding]
      simp [hlen, hend, decodeFinish, ne_nil_of_length_pos (hlen ▸ hwritten)]

theorem totextLoop_nul {pad : UInt8} {wordlength : Int} {wordbreak : Bytes} (h : 0 ∉ wordbreak) {loops : Nat} :
    0 ∉ totextLoop base pad wordlength wordbreak loops source := by
  have hbuf : ∀ {source}, 0 ∉ buf base pad source := fun hmem => absurd (mem_takeWhile_imp hmem) (by simp)
  fun_induction totextLoop base pad wordlength wordbreak loops source with
  | case1 => simp
  | case2 _ _ _ _ _ _ _ ih0 ih => split_ifs <;> simp [hbuf, h, ih0, ih]
  | case3 => exact hbuf

theorem white_break {wordbreak : Bytes} (h : ∀ c ∈ wordbreak, c ∈ white) : 0 ∉ wordbreak ∧ wordbreak.filter (· ∉ white) = [] :=
  ⟨fun hnul => absurd (h 0 hnul) (by decide), filter_eq_nil_iff.mpr fun c hc => by simpa using h c hc⟩

theorem decodestring_eq (hbase : base ∈ [base32, base32hex]) (pad : Bool) (wordlength : Int) {wordbreak : Bytes}
    (h : ∀ c ∈ wordbreak, c ∈ white) (source : Bytes) :
    decodestring base pad (totext base (if pad then 0x3d else 0) wordlength wordbreak source) = some source := by
  have hbases : ∀ base ∈ [base32, base32hex], ∀ c ∈ base, c ∉ white := by decide +kernel
  have hchar : ∀ v, (char base (if pad then 0x3d else 0) v).filter (· ∉ white) = char base (if pad then 0x3d else 0) v := by
    intro v
    unfold char
    split_ifs
    · decide
    · decide
    · rcases lt_or_ge v base.length with hv | hv
      · rw [getD_eq_getElem _ _ hv, filter_cons_of_pos (by simpa using hbases base hbase _ (getElem_mem hv))]
        rfl
      · rw [getD_eq_default _ _ hv]
        rfl
  obtain ⟨hnul, hbreak⟩ := white_break h
  rw [decodestring, totext, decodeText_eq (totextLoop_nul hnul), totextLoop_filter hbase _ hbreak hchar, decode_encode hbase]
  rfl

end Base32

namespace Base64

open Base32 (and_mask mul_or octets_lt white white_break decodeText_eq)

variable {source target : Bytes}

theorem digits_eq (source : Bytes) :
    let s := fun i => (source.map UInt8.toNat).getD i 0
    digits source = [s 0 / 4, s 0 % 4 * 16 + s 1 / 16, s 1 % 16 * 4 + s 2 / 64, s 2 % 64] := by
  intro s
  have : s 0 < 256 ∧ _ := octets_lt source rfl
  have hmasked : digits source = [s 0 / 2 ^ 2 &&& (2 ^ 6 - 1), (s 0 <<< 4 &&& (2 ^ 2 - 1) <<< 4) ||| (s 1 / 2 ^ 4 &&& (2 ^ 4 - 1)),
      (s 1 <<< 2 &&& (2 ^ 4 - 1) <<< 2) ||| (s 2 / 2 ^ 6 &&& (2 ^ 2 - 1)), s 2 &&& (2 ^ 6 - 1)] := by
    simp only [digits, Nat.shiftRight_eq_div_pow]
    rfl
  rw [hmasked]
  simp only [and_mask, Nat.and_two_pow_sub_one_eq_mod]
  rw [mul_or (by omega), mul_or (by omega)]
  simp only [cons.injEq, and_true]
  omega

theorem group_take {v0 v1 v2 v3 n : Nat} (h : v0 < 64 ∧ v1 < 64 ∧ v2 < 64 ∧ v3 < 64)
    (heq : [v0 * 4 + v1 / 16, v1 % 16 * 16 + v2 / 4, v2 % 4 * 64 + v3].take n = source.map UInt8.toNat) :
    (group v0 v1 v2 v3).take n = source := by
  refine map_injective_iff.mpr (fun a b => UInt8.toNat_inj.mp) (.trans ?_ heq)
  rw [map_take]
  congr 1
  simp only [group, map_cons, map_nil, UInt8.toNat_ofNat', Nat.shiftRight_eq_div_pow, Nat.shiftLeft_eq]
  rw [mul_or (by omega), mul_or (by omega), mul_or (by omega)]
  simp only [cons.injEq, and_true]
  omega

/-- The digits of a group with its padding. -/
def cell (source : Bytes) : List Nat := (digits source).take (source.length + 1) ++ replicate (3 - source.length) 64

theorem accept_cell (hpos : 0 < source.length) (hle : source.length ≤ 3) :
    accept target (cell source) = some ⟨[], source.length ≠ 3, target ++ source⟩ := by
  have hmask := fun x k => Nat.and_two_pow_sub_one_eq_mod x k
  have := octets_lt source rfl
  rw [cell, digits_eq]
  match source, hpos, hle with
  | [a], _, _ =>
    simp at this
    have hne : a.toNat / 4 ≠ 64 ∧ a.toNat % 4 * 16 ≠ 64 := by omega
    simp [accept, hmask _ 4, hne]
    exact group_take (by omega) (by simp; omega)
  | [a, b], _, _ =>
    simp at this
    have hne : a.toNat / 4 ≠ 64 ∧ a.toNat % 4 * 16 + b.toNat / 16 ≠ 64 ∧ b.toNat % 16 * 4 ≠ 64 := by omega
    simp [accept, hmask _ 2, hne]
    exact group_take (by omega) (by simp; omega)
  | [a, b, c], _, _ =>
    simp at this
    have hne : a.toNat / 4 ≠ 64 ∧ a.toNat % 4 * 16 + b.toNat / 16 ≠ 64 ∧ b.toNat % 16 * 4 + c.toNat / 64 ≠ 64 ∧ c.toNat % 64 ≠ 64 := by
      omega
    simp [accept, hne]
    exact group_take (n := 3) (by omega) (by simp; omega)

theorem cell_le {v : Nat} (hv : v ∈ cell source) : v ≤ 64 := by
  have := octets_lt source rfl
  rcases mem_append.mp hv with hv | hv
  · have hv := mem_of_mem_take hv
    rw [digits_eq] at hv
    simp only [mem_cons, not_mem_nil, or_false] at hv
    omega
  · exact (eq_of_mem_replicate hv).le

theorem buf_eq (source : Bytes) : buf source = (cell source).map (base64.getD · 0) := by
  have hnul : ∀ v ≤ 64, base64.getD v 0 ≠ 0 := by decide
  have hall : ((cell source).map (base64.getD · 0)).takeWhile (· ≠ 0) = (cell source).map (base64.getD · 0) :=
    takeWhile_eq_self_iff.mpr fun c hc => by
      obtain ⟨v, hv, rfl⟩ := mem_map.mp hc
      exact decide_eq_true (hnul v (cell_le hv))
  rw [← hall, cell, map_append, map_replicate]
  rfl

theorem decode_buf (source target : Bytes) (hpos : 0 < source.length) (hle : source.length ≤ 3) :
    (buf source).foldlM decodeChar ⟨[], false, target⟩ = some ⟨[], source.length ≠ 3, target ++ source⟩ := by
  have hindex : ∀ v ≤ 64, (base64 ++ [0]).findIdx? (· = base64.getD v 0) = some v := by decide
  have hchar : ∀ v ≤ 64, ∀ val, decodeChar ⟨val, false, target⟩ (base64.getD v 0) = accept target (val ++ [v]) := fun v hv val => by
    rw [decodeChar, hindex v hv]
    rfl
  rw [buf_eq, ← accept_cell hpos hle]
  obtain ⟨v0, v1, v2, v3, hcell⟩ : ∃ v0 v1 v2 v3, cell source = [v0, v1, v2, v3] := by
    match source, hpos, hle with
    | [_], _, _ | [_, _], _, _ | [_, _, _], _, _ => exact ⟨_, _, _, _, rfl⟩
  have hle : ∀ v ∈ cell source, v ≤ 64 := fun v => cell_le
  rw [hcell] at hle ⊢
  simp [hchar, hle, accept, -getD_eq_getElem?_getD]

theorem decode_totextLoop {wordlength : Int} {wordbreak : Bytes} (h : 0 ∉ wordbreak ∧ wordbreak.filter (· ∉ white) = [])
    (loops : Nat) (source target : Bytes) : 0 ∉ totextLoop wordlength wordbreak loops source ∧
      ∃ e, ((totextLoop wordlength wordbreak loops source).filter (· ∉ white)).foldlM decodeChar ⟨[], false, target⟩ =
        some ⟨[], e, target ++ source⟩ := by
  have hchars : ∀ v ≤ 64, base64.getD v 0 ∉ 0 :: white := by decide
  have hbuf : ∀ source, ∀ c ∈ buf source, c ∉ 0 :: white := fun source c hc => by
    rw [buf_eq] at hc
    obtain ⟨v, hv, rfl⟩ := mem_map.mp hc
    exact hchars v (cell_le hv)
  have hnul : ∀ source, 0 ∉ buf source := fun source hc => hbuf source 0 hc (.head _)
  have hfilter : ∀ source, (buf source).filter (· ∉ white) = buf source := fun source =>
    filter_eq_self.mpr fun c hc => decide_eq_true fun hwhite => hbuf source c hc (.tail _ hwhite)
  fun_induction totextLoop wordlength wordbreak loops source generalizing target with
  | case1 => exact ⟨by simp, false, by simp⟩
  | case2 loops a b c source ih0 ih =>
    have hgroup := decode_buf [a, b, c] target (by simp) le_rfl
    rw [filter_append, hfilter, foldlM_append, hgroup]
    split_ifs
    · rw [filter_append, h.2]
      simpa [hnul, h.1] using ih0 (target ++ [a, b, c])
    · simpa [hnul] using ih (target ++ [a, b, c])
  | case3 loops source hnil hlong =>
    refine ⟨hnul source, source.length ≠ 3, ?_⟩
    rw [hfilter]
    match source, hnil, hlong with
    | [a], _, _ | [a, b], _, _ => exact decode_buf _ target (by simp) (by simp)
    | a :: b :: c :: source, _, hlong => exact (hlong a b c source rfl).elim

end Base64

/-- Base 64 and base 32 text, with white space between its words, is decoded to the octets that it was made from. -/
theorem decodestring_totext (wordlength : Int) (wordbreak source : Bytes) (h : ∀ c ∈ wordbreak, c ∈ white) :
    Base64.decodestring (Base64.totext wordlength wordbreak source) = some source ∧
    decodestring base32 true (totext base32 0x3d wordlength wordbreak source) = some source ∧
    decodestring base32hex true (totext base32hex 0x3d wordlength wordbreak source) = some source ∧
    decodestring base32hex false (hexnpTotext wordlength wordbreak source) = some source := by
  refine ⟨?_, decodestring_eq (by simp) true wordlength h source,
    decodestring_eq (by simp) true wordlength h source, decodestring_eq (by simp) false wordlength h source⟩
  obtain ⟨hnul, e, hrun⟩ := Base64.decode_totextLoop (white_break h) 0 source []
  rw [Base64.decodestring, Base64.totext, decodeText_eq hnul, hrun]
  rfl

theorem decodestring_totext_lines :
    Base64.decodestring (Base64.totext 4 [0x0d, 0x0a] [0xff, 0, 0x2a, 7]) = some [0xff, 0, 0x2a, 7] :=
  (decodestring_totext 4 [0x0d, 0x0a] [0xff, 0, 0x2a, 7] (by simp [white])).1

end OqsBind.Isc
