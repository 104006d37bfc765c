import OqsBind.Theorems.NameRead

/-! Compressed names in a message. A chain is a sequence of labels that ends with the root label or goes on
    at an earlier place through a pointer; `dns_name_fromwire` reads exactly the chains. -/

namespace OqsBind.Dns
open Isc Compress UInt8

variable {src : Bytes}

theorem or_192 : ∀ k < 64, (0xC0 ||| k) = 192 + k := by decide

theorem pointer_hi {p : Nat} (hp : p < 0x4000) : (ofNat (0xC0 ||| p / 256)).toNat = 192 + p / 256 := by
  rw [or_192 _ (by omega), toNat_ofNat']
  omega

theorem pointer_lo (p : Nat) : (ofNat (p % 256)).toNat = p % 256 := by
  rw [toNat_ofNat']
  omega

theorem pointer_inj {p q : Nat} (hp : p < 0x4000) (hq : q < 0x4000) (h : pointer p = pointer q) : p = q := by
  simp only [pointer, List.cons.injEq, and_true] at h
  have h1 := congrArg toNat h.1
  have h2 := congrArg toNat h.2
  rw [pointer_hi hp, pointer_hi hq] at h1
  rw [pointer_lo, pointer_lo] at h2
  omega

/-- The labels `ls` can be read from `pos` on with pointers below `marker`, and the first segment ends
    before `stop`. -/
inductive Chain (src : Bytes) : Nat → Nat → List Label → Nat → Prop
  | root {marker pos : Nat} (h : At src pos [0]) : Chain src marker pos [] (pos + 1)
  | label {marker pos stop : Nat} {ls : List Label} (l : Label) (h : At src pos l.wire)
      (rest : Chain src marker (pos + l.wire.length) ls stop) : Chain src marker pos (l :: ls) stop
  | ptr {marker pos p stop : Nat} {ls : List Label} (hpos : 0 < p) (hlt : p < 0x4000) (hback : p < marker)
      (h : At src pos (pointer p)) (rest : Chain src p p ls stop) : Chain src marker pos ls (pos + 2)

namespace Chain
variable {marker pos stop : Nat} {ls : List Label}

section
variable (h : Chain src marker pos ls stop)
include h

theorem append (ext : Bytes) : Chain (src ++ ext) marker pos ls stop := by
  induction h with
  | root h => exact root (h.append ext (by simp))
  | label l h rest ih => exact label l (h.append ext (by simp [Label.wire])) ih
  | ptr hpos hlt hback h rest ih => exact ptr hpos hlt hback (h.append ext (by simp [pointer])) ih

theorem mono : ∀ {marker' : Nat}, marker ≤ marker' → Chain src marker' pos ls stop := by
  induction h with
  | root h => exact fun _ => root h
  | label l h rest ih => exact fun hle => label l h (ih hle)
  | ptr hpos hlt hback h rest ih => exact fun hle => ptr hpos hlt (by omega) h rest

theorem lt_length : pos < src.length := by
  cases h with
  | root h => exact h.length_le (by simp)
  | label l h rest =>
    have := h.length_le (by simp [Label.wire])
    have := l.wire_length
    omega
  | ptr hpos hlt hback h rest =>
    have := h.length_le (by simp [pointer])
    simp [pointer] at this
    omega

theorem cases_octet {b : UInt8} (hb : src[pos]? = some b) : (b = 0 ∧ ls = []) ∨
    (∃ l ls', ls = l :: ls' ∧ b.toNat = l.bytes.length ∧ At src pos l.wire ∧
      Chain src marker (pos + l.wire.length) ls' stop) ∨
    (192 ≤ b.toNat ∧ ∃ p stop', 0 < p ∧ p < 0x4000 ∧ At src pos (pointer p) ∧ Chain src p p ls stop') := by
  cases h with
  | root h =>
    have := h.getElem? (j := 0) (by simp)
    rw [Nat.add_zero, hb] at this
    exact .inl ⟨Option.some.inj this, rfl⟩
  | label l h rest =>
    have := h.getElem? (j := 0) (by simp [Label.wire])
    rw [Nat.add_zero, hb] at this
    refine .inr (.inl ⟨l, _, rfl, ?_, h, rest⟩)
    rw [Option.some.inj this]
    exact l.length_octet
  | ptr hpos hlt hback h rest =>
    have := h.getElem? (j := 0) (by simp [pointer])
    rw [Nat.add_zero, hb] at this
    refine .inr (.inr ⟨?_, _, _, hpos, hlt, h, rest⟩)
    rw [Option.some.inj this]
    show 192 ≤ (ofNat (0xC0 ||| _ / 256)).toNat
    rw [pointer_hi hlt]
    omega

theorem label_of_length {n : Nat} (hn : 0 < n) (hn63 : n ≤ 63) (hb : src[pos]? = some (ofNat n)) :
    ∃ l ls', ls = l :: ls' ∧ l.bytes.length = n ∧ At src pos l.wire ∧ Chain src marker (pos + l.wire.length) ls' stop := by
  have hnat : (ofNat n).toNat = n := by
    rw [toNat_ofNat']
    omega
  rcases h.cases_octet hb with ⟨h0, -⟩ | ⟨l, ls', hls, hlen, hat, hrest⟩ | ⟨hge, -⟩
  · have := congrArg toNat h0
    exact absurd this (by simp; omega)
  · exact ⟨l, ls', hls, by rw [← hlen, hnat], hat, hrest⟩
  · omega

end

end Chain

theorem Chain.sequence {marker pos stop : Nat} {ls : List Label} (h : Chain src marker pos ls stop) :
    Sequence src true marker pos ls stop := by
  induction h with
  | root h => exact .root h
  | label l h rest ih => exact .label l h ih
  | @ptr marker pos p stop ls hpos hlt hback h rest ih =>
    have hplace : place (ofNat (0xC0 ||| p / 256)) (ofNat (p % 256)) = p := by
      rw [place, pointer_hi hlt, pointer_lo]
      omega
    have hhi : 192 ≤ (ofNat (0xC0 ||| p / 256)).toNat := by
      rw [pointer_hi hlt]
      omega
    rw [← hplace] at hback ih
    exact .pointer _ _ rfl hhi h hback ih

theorem Chain.unique {marker pos stop : Nat} {ls : List Label} (h : Chain src marker pos ls stop) {marker' stop' : Nat}
    {ls' : List Label} (h' : Chain src marker' pos ls' stop') : ls' = ls := (h.sequence.unique h'.sequence).1

end OqsBind.Dns
