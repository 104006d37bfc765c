import Mathlib.Algebra.Order.Ring.Nat
import Mathlib.Data.Char
import Mathlib.Data.List.Forall2
import Mathlib.Data.List.Lex
import Mathlib.Tactic.Linarith

/-! Decimal text. Among texts of digits with one length, the order of the alphabet is the order of the numbers. -/

namespace OqsBind.Decimal

def value (text : List Char) : Nat := Nat.ofDigitChars 10 text 0

/-- What `%0wd` prints for a number that is not negative. -/
def zeroPad (w n : Nat) : List Char :=
  List.replicate (w - (Nat.toDigits 10 n).length) '0' ++ Nat.toDigits 10 n

def AllDigits (text : List Char) : Prop := ∀ c ∈ text, c.isDigit = true

theorem value_append (a b : List Char) : value (a ++ b) = 10 ^ b.length * value a + value b := by
  unfold value
  rw [Nat.ofDigitChars_append, Nat.ofDigitChars_eq_ofDigitChars_zero]

theorem value_cons (c : Char) (text : List Char) : value (c :: text) = 10 ^ text.length * (c.toNat - 48) + value text := by
  have hone : value [c] = c.toNat - 48 := by simp [value, Nat.ofDigitChars_cons]
  rw [← List.singleton_append, value_append, hone]

theorem value_zeroPad (w n : Nat) : value (zeroPad w n) = n := by
  have hzeros (k : Nat) : value (List.replicate k '0') = 0 := by simp [value, Nat.ofDigitChars_replicate_zero]
  rw [zeroPad, value_append, hzeros, Nat.mul_zero, Nat.zero_add]
  exact Nat.ofDigitChars_ten_toDigits

theorem length_zeroPad {w n : Nat} (hw : 0 < w) (h : n < 10 ^ w) : (zeroPad w n).length = w := by
  have := (Nat.length_toDigits_le_iff (by omega) hw).mpr h
  simp [zeroPad]
  omega

theorem allDigits_zeroPad (w n : Nat) : AllDigits (zeroPad w n) := by
  intro c hc
  rcases List.mem_append.mp hc with hc | hc
  · rw [(List.mem_replicate.mp hc).2]
    decide
  · exact Nat.isDigit_of_mem_toDigits (by omega) (by omega) hc

/-- The first digits decide, unless they are the same. -/
theorem mul_add_lt_iff {p x y a b : Nat} (ha : a < p) (hb : b < p) : p * x + a < p * y + b ↔ x < y ∨ x = y ∧ a < b := by
  rcases Nat.lt_trichotomy x y with h | rfl | h
  · exact iff_of_true (by nlinarith) (.inl h)
  · simp
  · exact iff_of_false (by nlinarith) (by omega)

theorem value_lt {text : List Char} (h : AllDigits text) : value text < 10 ^ text.length := by
  induction text with
  | nil => simp [value]
  | cons c text ih =>
    have hc : c.toNat ≤ 57 := (Char.isDigit_iff_toNat.mp (h c (by simp))).2
    have htext := ih fun d hd => h d (List.mem_cons_of_mem c hd)
    rw [value_cons, List.length_cons, Nat.pow_succ]
    exact (mul_add_lt_iff htext (Nat.zero_lt_of_lt htext)).mpr (.inl (show c.toNat - 48 < 10 by omega))

theorem lt_iff_value_lt {a b : List Char} (ha : AllDigits a) (hb : AllDigits b) (hlen : a.length = b.length) :
    a < b ↔ value a < value b := by
  induction a generalizing b with
  | nil =>
    cases b with
    | nil => simp
    | cons d b => simp at hlen
  | cons c a ih =>
    cases b with
    | nil => simp at hlen
    | cons d b =>
      have hc : 48 ≤ c.toNat := (Char.isDigit_iff_toNat.mp (ha c (by simp))).1
      have hd : 48 ≤ d.toNat := (Char.isDigit_iff_toNat.mp (hb d (by simp))).1
      have ha' : AllDigits a := fun e he => ha e (List.mem_cons_of_mem c he)
      have hb' : AllDigits b := fun e he => hb e (List.mem_cons_of_mem d he)
      have hlen' : a.length = b.length := by simpa using hlen
      have hlt : c < d ↔ c.toNat - 48 < d.toNat - 48 := (show c < d ↔ c.toNat < d.toNat from Iff.rfl).trans (by omega)
      have heq : c = d ↔ c.toNat - 48 = d.toNat - 48 := Char.toNat_inj.symm.trans (by omega)
      rw [List.cons_lt_cons_iff, ih ha' hb' hlen', value_cons, value_cons, hlen',
        mul_add_lt_iff (hlen' ▸ value_lt ha') (value_lt hb'), hlt, heq]

theorem zeroPad_value {text : List Char} (h : AllDigits text) (hne : text ≠ []) : zeroPad text.length (value text) = text := by
  have hpad := allDigits_zeroPad text.length (value text)
  have hlen := length_zeroPad (List.length_pos_iff.mpr hne) (value_lt h)
  have hvalue := value_zeroPad text.length (value text)
  apply le_antisymm
  · exact not_lt.mp (mt (lt_iff_value_lt h hpad hlen.symm).mp hvalue.not_gt)
  · exact not_lt.mp (mt (lt_iff_value_lt hpad h hlen).mp hvalue.not_lt)

/-! Numbers one after the other, each with its own width. -/

def printFields : List Nat → List Nat → List Char
  | w :: ws, n :: ns => zeroPad w n ++ printFields ws ns
  | _, _ => []

def scanFields : List Nat → List Char → List Nat
  | [], _ => []
  | w :: ws, text => value (text.take w) :: scanFields ws (text.drop w)

def Fits (ws ns : List Nat) : Prop := List.Forall₂ (fun w n => 0 < w ∧ n < 10 ^ w) ws ns

variable {ws ns ms : List Nat}

theorem allDigits_printFields (ws ns : List Nat) : AllDigits (printFields ws ns) := by
  fun_induction printFields ws ns with
  | case1 w ws n ns ih => exact List.forall_mem_append.mpr ⟨allDigits_zeroPad w n, ih⟩
  | case2 => simp [AllDigits]

theorem Fits.length_print (h : Fits ws ns) : (printFields ws ns).length = ws.sum := by
  induction h with
  | nil => rfl
  | cons hfit _ ih => rw [printFields, List.length_append, length_zeroPad hfit.1 hfit.2, ih, List.sum_cons]

theorem Fits.scan_print (h : Fits ws ns) : scanFields ws (printFields ws ns) = ns := by
  induction h with
  | nil => rfl
  | cons hfit _ ih =>
    have hlen := length_zeroPad hfit.1 hfit.2
    rw [printFields, scanFields, List.take_left' hlen, List.drop_left' hlen, value_zeroPad, ih]

theorem print_scan {text : List Char} (hpos : ∀ w ∈ ws, 0 < w) (hdigits : AllDigits text) (hlen : text.length = ws.sum) :
    printFields ws (scanFields ws text) = text := by
  induction ws generalizing text with
  | nil => exact (List.length_eq_zero_iff.mp hlen).symm
  | cons w ws ih =>
    rw [List.sum_cons] at hlen
    have hw := hpos w (by simp)
    have htake : (text.take w).length = w := by
      rw [List.length_take]
      omega
    have hfirst : zeroPad w (value (text.take w)) = text.take w := by
      have := zeroPad_value (fun c hc => hdigits c (List.mem_of_mem_take hc)) (List.ne_nil_of_length_pos (htake.symm ▸ hw))
      rwa [htake] at this
    rw [scanFields, printFields, hfirst, ih (fun v hv => hpos v (List.mem_cons_of_mem w hv))
      (fun c hc => hdigits c (List.mem_of_mem_drop hc)) (by rw [List.length_drop]; omega), List.take_append_drop]

theorem Fits.lt_iff (h : Fits ws ns) (h' : Fits ws ms) : printFields ws ns < printFields ws ms ↔ ns < ms := by
  induction h generalizing ms with
  | nil =>
    cases h'
    simp [printFields]
  | cons hfit h ih =>
    cases h' with
    | cons hfit' h' =>
      have hlen : (printFields _ _).length = _ := (length_print h).trans (length_print h').symm
      rw [lt_iff_value_lt (allDigits_printFields _ _) (allDigits_printFields _ _)
        ((length_print (.cons hfit h)).trans (length_print (.cons hfit' h')).symm), List.cons_lt_cons_iff, ← ih h',
        lt_iff_value_lt (allDigits_printFields _ _) (allDigits_printFields _ _) hlen, printFields, printFields, value_append,
        value_append, value_zeroPad, value_zeroPad, hlen,
        mul_add_lt_iff (hlen ▸ value_lt (allDigits_printFields _ _)) (value_lt (allDigits_printFields _ _))]

end OqsBind.Decimal
