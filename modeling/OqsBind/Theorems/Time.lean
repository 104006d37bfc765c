import OqsBind.Dns.Time
import OqsBind.Lib.Checked
import Mathlib.Tactic.IntervalCases

/-! A time and its text tell each other, and the text keeps the order. -/

namespace OqsBind.Dns.Time
open Isc Decimal

/-- The first second of a year in the proleptic Gregorian calendar, counted from 1970. -/
def newYear (y : Nat) : Int := 86400 * (365 * y + (y + 3) / 4 - (y + 99) / 100 + (y + 399) / 400 - 719528)

theorem isLeap_iff {y : Nat} : isLeap y = true ↔ (y % 4 = 0 ∧ y % 100 ≠ 0) ∨ y % 400 = 0 := by
  simp [isLeap]

theorem newYear_succ (y : Nat) : newYear (y + 1) = newYear y + yearSecs y := by
  unfold newYear yearSecs
  split
  case isTrue h =>
    have := isLeap_iff.mp h
    push_cast
    omega
  case isFalse h =>
    have := mt isLeap_iff.mpr h
    push_cast
    omega

theorem newYear_1970 : newYear (70 + 1900) = 0 := by decide

theorem newYear_mono {a b : Nat} (h : a ≤ b) : newYear a ≤ newYear b := by
  unfold newYear
  omega

/-- The seconds from the start of the year to the start of a month, which is counted from zero. -/
def monthStart (y mon : Nat) : Nat := ((days.take mon).sum + if isLeap y ∧ 1 < mon then 1 else 0) * 86400

def monthDays (y mon : Nat) : Nat := days.getD mon 0 + if mon == 1 && isLeap y then 1 else 0

theorem monthStart_succ (y : Nat) {mon : Nat} (h : mon < 12) :
    monthStart y (mon + 1) = monthStart y mon + monthDays y mon * 86400 := by
  unfold monthStart monthDays
  cases isLeap y <;> interval_cases mon <;> rfl

theorem monthStart_mono (y : Nat) {a b : Nat} (h : a ≤ b) (hb : b ≤ 12) : monthStart y a ≤ monthStart y b := by
  induction b, h using Nat.le_induction with
  | base => rfl
  | succ b _ ih =>
    rw [monthStart_succ y (by omega)]
    have := ih (by omega)
    omega

theorem monthStart_twelve (y : Nat) : monthStart y 12 = yearSecs y := by
  unfold monthStart yearSecs
  cases isLeap y <;> rfl

theorem monthDays_le (y : Nat) {mon : Nat} (h : mon < 12) : monthDays y mon ≤ 31 := by
  unfold monthDays
  cases isLeap y <;> interval_cases mon <;> decide

/-! Adding up. -/

theorem foldl_months (l : List Nat) (v : Int) :
    l.foldl (fun (v : Int) (d : Nat) => v + d * 86400) v = v + (l.sum * 86400 : Nat) := by
  induction l generalizing v with
  | nil => simp
  | cons d l ih =>
    rw [List.foldl_cons, ih, List.sum_cons]
    push_cast
    omega

theorem foldr_years (y n : Nat) (v : Int) :
    (List.range' y n).foldr (fun (i : Nat) (v : Int) => v - yearSecs i) v = v + newYear y - newYear (y + n) := by
  induction n generalizing y with
  | zero => simp
  | succ n ih =>
    rw [List.range'_succ, List.foldr_cons, ih, newYear_succ, show y + (n + 1) = y + 1 + n by omega]
    omega

theorem foldl_years (y n : Nat) (v : Int) :
    (List.range' y n).foldl (fun (v : Int) (i : Nat) => v + yearSecs i) v = v + newYear (y + n) - newYear y := by
  induction n generalizing y v with
  | zero => simp
  | succ n ih =>
    rw [List.range'_succ, List.foldl_cons, ih, newYear_succ, show y + (n + 1) = y + 1 + n by omega]
    omega

/-- Both loops over the years come to the first second of the year. -/
theorem years_eq (y : Nat) (v : Int) :
    (if y < 1970 then (List.range' y (1970 - y)).foldr (fun (i : Nat) (v : Int) => v - yearSecs i) v
      else (List.range' 1970 (y - 1970)).foldl (fun (v : Int) (i : Nat) => v + yearSecs i) v) = v + newYear y := by
  split
  case isTrue h =>
    rw [foldr_years, show y + (1970 - y) = 70 + 1900 by omega, newYear_1970]
    omega
  case isFalse h =>
    rw [foldl_years, show 1970 + (y - 1970) = y by omega, show newYear 1970 = 0 from newYear_1970]
    omega

theorem Fields.seconds_eq (s : Fields) :
    s.seconds = newYear s.year + monthStart s.year (s.month - 1) +
      (s.second + 60 * s.minute + 3600 * s.hour + (s.day - 1) * 86400) := by
  have hleap : (isLeap s.year && s.month > 2) = true ↔ isLeap s.year ∧ 1 < s.month - 1 := by
    simp
    omega
  unfold Fields.seconds monthStart
  simp only [years_eq, foldl_months, hleap]
  split
  all_goals
    push_cast
    omega

/-- The fields stand for the time. -/
structure Fields.Of (s : Fields) (t : Int) : Prop where
  range : s.inRange = true
  year : 1900 ≤ s.year
  second : s.second < 60
  instant : s.seconds = t

theorem Fields.inRange_iff {s : Fields} : s.inRange = true ↔ s.year ≤ 9999 ∧ (1 ≤ s.month ∧ s.month ≤ 12) ∧
    (1 ≤ s.day ∧ s.day ≤ monthDays s.year (s.month - 1)) ∧ s.hour ≤ 23 ∧ s.minute ≤ 59 ∧ s.second ≤ 60 := by
  have hmonth : 1 ≤ s.month → (s.month - 1 == 1) = (s.month == 2) := by
    intro h
    rw [Bool.eq_iff_iff, beq_iff_eq, beq_iff_eq]
    omega
  simp only [Fields.inRange, Bool.and_eq_true, decide_eq_true_eq, monthDays]
  grind

/-! Breaking a time down. -/

theorem backYears_checked (year : Nat) (t : Int) :
    Checked (fun e => e = .range ∧ newYear (year + 1900) + t < newYear 1900) (backYears year t) fun r =>
      r.1 ≤ year ∧ newYear (r.1 + 1900) + r.2 = newYear (year + 1900) + t := by
  induction year generalizing t with
  | zero =>
    rw [backYears]
    refine .ite (fun ht => ?_) fun ht => ⟨Nat.le_refl 0, by dsimp only; omega⟩
    simpa [Checked] using ht
  | succ year ih =>
    have hnext : newYear (year + 1 + 1900) = newYear (year + 1900) + yearSecs (year + 1900) := by
      rw [Nat.add_right_comm, newYear_succ]
    rw [backYears]
    refine .ite (fun ht => ?_) fun ht => ⟨Nat.le_refl _, by dsimp only [Nat.succ_eq_add_one]; omega⟩
    exact ((ih _).weaken fun _ h => ⟨h.1, by omega⟩).mono fun r hr => ⟨by omega, by omega⟩

theorem forwardYears_checked {year : Nat} (hyear : year < 8100) (t : Nat) :
    Checked (fun e => e = .range ∧ newYear 10000 ≤ newYear (year + 1900) + t) (forwardYears year t) fun r =>
      r.1 < 8100 ∧ r.2 < yearSecs (r.1 + 1900) ∧ newYear (r.1 + 1900) + r.2 = newYear (year + 1900) + t := by
  fun_induction forwardYears year t with
  | case1 year t hsecs hlast =>
    have hnext := newYear_succ (year + 1900)
    rw [show year + 1900 + 1 = 10000 by omega] at hnext
    exact ⟨rfl, by omega⟩
  | case2 year t hsecs hlast ih =>
    have hnext := newYear_succ (year + 1900)
    rw [Nat.add_right_comm] at hnext
    exact ((ih (by omega)).weaken fun _ h => ⟨h.1, by omega⟩).mono fun r hr => ⟨hr.1, hr.2.1, by omega⟩
  | case3 year t hsecs => exact ⟨hyear, by dsimp only; omega, rfl⟩

/-- A time within the year never runs off the table. -/
theorem months_checked {y mon t : Nat} (hmon : mon < 12) (h : monthStart y mon + t < yearSecs y) :
    Checked (fun _ => False) (months y mon (days.drop mon) t) fun r =>
      r.1 < 12 ∧ r.2 < monthDays y r.1 * 86400 ∧ monthStart y r.1 + r.2 = monthStart y mon + t := by
  generalize hleft : days.drop mon = left
  induction left generalizing mon t with
  | nil =>
    have := congrArg List.length hleft
    simp [days] at this
    omega
  | cons d left ih =>
    have hlen : mon < days.length := hmon
    rw [List.drop_eq_getElem_cons hlen] at hleft
    obtain ⟨rfl, hrest⟩ := List.cons.inj hleft
    have hsecs : monthDays y mon = days[mon] + if mon == 1 && isLeap y then 1 else 0 := by
      rw [monthDays, List.getD_eq_getElem?_getD, List.getElem?_eq_getElem hlen, Option.getD_some]
    have hnext := monthStart_succ y hmon
    have htwelve := monthStart_twelve y
    rw [months, ← hsecs]
    refine .ite (fun hle => ?_) fun hgt => ⟨hmon, by dsimp only; omega, rfl⟩
    have hmon' : mon + 1 < 12 := by
      by_contra hlast
      rw [show mon + 1 = 12 by omega] at hnext
      omega
    exact (ih hmon' (by omega) hrest).mono fun r hr => ⟨hr.1, hr.2.1, by omega⟩

theorem countOff_eq {secs : Nat} (hsecs : 0 < secs) (n t : Nat) : countOff secs n t = (n + t / secs, t % secs) := by
  fun_induction countOff secs n t with
  | case1 n t h ih =>
    rw [ih, ← Nat.mod_eq_sub_mod h.2, Nat.div_eq t secs, if_pos ⟨hsecs, h.2⟩]
    exact Prod.ext (by dsimp only; omega) rfl
  | case2 n t h =>
    have : t < secs := by omega
    rw [Nat.div_eq_of_lt this, Nat.mod_eq_of_lt this, Nat.add_zero]

theorem brokenDown_checked (t : Int) :
    Checked (fun e => e = .range ∧ ¬(newYear 1900 ≤ t ∧ t < newYear 10000)) (brokenDown t) fun s => s.Of t := by
  have hback := backYears_checked 70 t
  rw [newYear_1970] at hback
  refine (hback.weaken fun _ h => ⟨h.1, by omega⟩).bind fun back hb => ?_
  refine ((forwardYears_checked (by omega) back.2).weaken fun _ h => ⟨h.1, by omega⟩).bind fun year hy => ?_
  have hzero : monthStart (year.1 + 1900) 0 = 0 := by simp [monthStart]
  refine ((months_checked (by omega) (by omega)).weaken fun _ h => h.elim).bind fun month hm => ?_
  simp only [countOff_eq, Nat.ofNat_pos]
  refine ⟨Fields.inRange_iff.mpr ?_, ?_, ?_, (Fields.seconds_eq _).trans ?_⟩
  all_goals
    simp only [Nat.add_sub_cancel]
    omega

/-! The text of the fields. -/

section Print
variable {s s' : Fields} {t u : Int}

theorem Fields.Of.bounds (h : s.Of t) : (1900 ≤ s.year ∧ s.year ≤ 9999) ∧ (1 ≤ s.month ∧ s.month ≤ 12) ∧
    (1 ≤ s.day ∧ s.day ≤ monthDays s.year (s.month - 1) ∧ s.day < 100) ∧ s.hour ≤ 23 ∧ s.minute ≤ 59 ∧ s.second < 60 := by
  have hrange := Fields.inRange_iff.mp h.range
  have hdays := monthDays_le s.year (show s.month - 1 < 12 by omega)
  have hyear := h.year
  have hsecond := h.second
  omega

theorem Fields.Of.fits (h : s.Of t) : Fits widths s.list := by
  have hbounds := h.bounds
  simp [Fits, widths, Fields.list]
  omega

theorem Fields.Of.length_print (h : s.Of t) : s.print.length = 14 := h.fits.length_print

theorem Fields.Of.lt_next_year (h : s.Of t) : t < newYear (s.year + 1) := by
  have hbounds := h.bounds
  have hmonth := monthStart_succ s.year (show s.month - 1 < 12 by omega)
  have hlast := monthStart_mono s.year (show s.month - 1 + 1 ≤ 12 by omega) le_rfl
  rw [monthStart_twelve] at hlast
  rw [newYear_succ, ← h.instant, Fields.seconds_eq]
  omega

theorem Fields.Of.years (h : s.Of t) : newYear 1900 ≤ t ∧ t < newYear 10000 := by
  have hbounds := h.bounds
  have hlow := newYear_mono hbounds.1.1
  have hhigh := newYear_mono (show s.year + 1 ≤ 10000 by omega)
  have hnext := h.lt_next_year
  have hinstant := Fields.seconds_eq s
  rw [h.instant] at hinstant
  omega

/-- The first field that differs decides. -/
theorem Fields.Of.lt_of_list_lt (h : s.Of t) (h' : s'.Of u) (hlt : s.list < s'.list) : t < u := by
  have hbounds := h.bounds
  have hbounds' := h'.bounds
  have hinstant := h.instant.symm.trans (Fields.seconds_eq s)
  have hinstant' := h'.instant.symm.trans (Fields.seconds_eq s')
  have hmonth := monthStart_succ s.year (show s.month - 1 < 12 by omega)
  simp only [Fields.list, List.cons_lt_cons_iff, List.lt_irrefl, and_false, or_false] at hlt
  rcases hlt with hyear | ⟨hyear, hmon | ⟨hmon, hrest⟩⟩
  · have hnext := newYear_mono (show s.year + 1 ≤ s'.year from hyear)
    have hlast := h.lt_next_year
    omega
  · have := monthStart_mono s.year (show s.month - 1 + 1 ≤ s'.month - 1 by omega) (by omega)
    rw [← hyear] at hinstant'
    omega
  · rw [← hyear, ← hmon] at hinstant'
    omega

theorem Fields.Of.lt_iff (h : s.Of t) (h' : s'.Of u) : t < u ↔ s.print < s'.print := by
  rw [Fields.print, Fields.print, h.fits.lt_iff h'.fits]
  rcases lt_trichotomy s.list s'.list with hlt | heq | hlt
  · exact iff_of_true (h.lt_of_list_lt h' hlt) hlt
  · have hsame : s = s' := by
      cases s
      cases s'
      simpa [Fields.list] using heq
    rw [← h.instant, ← h'.instant, hsame]
    simp
  · exact iff_of_false (h'.lt_of_list_lt h hlt).not_gt hlt.not_gt

end Print

theorem brokenDown_ok {t : Int} (h : newYear 1900 ≤ t ∧ t < newYear 10000) : ∃ s, brokenDown t = .ok s ∧ s.Of t :=
  (brokenDown_checked t).exists_ok fun _ herror => herror.2 h

theorem totext_iff {t : Int} {available : Nat} {text : List Char} :
    time64Totext t available = .ok text ↔ ∃ s : Fields, s.Of t ∧ s.print = text ∧ 14 ≤ available := by
  constructor
  · intro h
    obtain ⟨s, hs, hprint⟩ := bind_ok h
    have hof := (brokenDown_checked t).of_ok hs
    rw [hof.length_print] at hprint
    split_ifs at hprint with hspace
    cases hprint
    exact ⟨s, hof, rfl, by omega⟩
  · rintro ⟨s, hof, rfl, hspace⟩
    obtain ⟨s', hs', hof'⟩ := brokenDown_ok hof.years
    have hsame : s'.print = s.print := by
      apply le_antisymm
      · exact not_lt.mp (mt (hof.lt_iff hof').mpr (Int.lt_irrefl t))
      · exact not_lt.mp (mt (hof'.lt_iff hof).mpr (Int.lt_irrefl t))
    simp [time64Totext, hs', hsame, bind, Except.bind, pure, Except.pure, hof.length_print, Nat.not_lt.mpr hspace]

theorem Fields.Of.fromtext_print {s : Fields} {t : Int} (h : s.Of t) : time64Fromtext s.print = .ok t := by
  have hscan : sscanf s.print = some s := by
    rw [sscanf, Fields.print, h.fits.scan_print]
    rfl
  have hdigits : s.print.all Char.isDigit = true := List.all_eq_true.mpr (allDigits_printFields _ _)
  simp [time64Fromtext, h.length_print, hdigits, hscan, h.range, h.instant]

/-- A text that is read comes back from its fields. -/
theorem fromtext_ok {t : Int} {source : List Char} (h : time64Fromtext source = .ok t) :
    ∃ s, sscanf source = some s ∧ s.inRange = true ∧ s.seconds = t ∧ s.print = source := by
  unfold time64Fromtext at h
  split_ifs at h with hlen hdigits
  split at h
  · cases h
  · rename_i s hs
    split_ifs at h with hrange
    have hlist : scanFields widths source = s.list := by
      cases hs
      rfl
    refine ⟨s, hs, hrange, by cases h; rfl, ?_⟩
    rw [Fields.print, ← hlist]
    exact print_scan (by decide) (List.all_eq_true.mp (by simpa using hdigits)) (not_not.mp hlen)

/-! The 32-bit form. -/

/-- A serial that is not greater lies behind, by half the space at most. -/
theorem sub_le_of_serialGt {now value : UInt32} (h : serialGt value now = false) : (now - value).toNat ≤ 2 ^ 31 := by
  have hnow := now.toNat_lt
  have hvalue := value.toNat_lt
  have hle : ¬0 < (value - now).toBitVec.toInt := fun hlt => of_decide_eq_false h (Int32.lt_iff_toInt_lt.mpr hlt)
  have hback : (value - now).toNat = 0 ∨ 2 ^ 31 ≤ (value - now).toNat := by
    rw [BitVec.toInt_eq_toNat_cond, UInt32.toNat_toBitVec] at hle
    split at hle <;> omega
  rw [UInt32.toNat_sub] at hback ⊢
  omega

/-- A 32-bit time is taken for one of the years around the current time, and for itself up to the epoch. -/
theorem time64From32_spec (now value : UInt32) : (newYear 1900 ≤ time64From32 now value ∧ time64From32 now value < newYear 10000) ∧
    (time64From32 now value % 2 ^ 32).toNat = value.toNat := by
  have hlow : newYear 1900 = -2208988800 := by decide
  have hhigh : newYear 10000 = 253402300800 := by decide
  have hnow := now.toNat_lt
  have hvalue := value.toNat_lt
  unfold time64From32
  split
  case isTrue h =>
    rw [UInt32.toNat_sub]
    omega
  case isFalse h =>
    have := sub_le_of_serialGt (by simpa using h)
    rw [UInt32.toNat_sub] at this ⊢
    omega

theorem totext_ne_overread (t : Int) (available : Nat) : time64Totext t available ≠ .error .overread := by
  intro h
  unfold time64Totext at h
  cases hs : brokenDown t with
  | error e =>
    rw [hs] at h
    cases h
    cases ((brokenDown_checked t).of_error hs).1
  | ok s =>
    simp only [hs, bind, Except.bind] at h
    split_ifs at h
    all_goals cases h

/-- A time has a text exactly in the years from 1900 to 9999, and the table of the months is not read beyond its end. Text and
    time then tell each other, and 32-bit times come back whatever the current time is. -/
theorem time_text_exact :
    (∀ t available, (∃ text, time64Totext t available = .ok text) ↔
      (newYear 1900 ≤ t ∧ t < newYear 10000) ∧ 14 ≤ available) ∧
    (∀ t available, time64Totext t available ≠ .error .overread) ∧
    (∀ t available text, time64Totext t available = .ok text → text.length = 14 ∧ time64Fromtext text = .ok t) ∧
    (∀ t u available available' text text', time64Totext t available = .ok text → time64Totext u available' = .ok text' →
      (t < u ↔ text < text')) ∧
    (∀ source t s available, time64Fromtext source = .ok t → sscanf source = some s → 1900 ≤ s.year → s.second < 60 →
      14 ≤ available → time64Totext t available = .ok source) ∧
    (∀ now value available, 14 ≤ available →
      ∃ text, time32Totext now value available = .ok text ∧ time32Fromtext text = .ok value) := by
  refine ⟨fun t available => ⟨?_, ?_⟩, totext_ne_overread, ?_, ?_, ?_, ?_⟩
  · rintro ⟨text, htext⟩
    obtain ⟨s, hof, -, hspace⟩ := totext_iff.mp htext
    exact ⟨hof.years, hspace⟩
  · rintro ⟨hyears, hspace⟩
    obtain ⟨s, -, hof⟩ := brokenDown_ok hyears
    exact ⟨s.print, totext_iff.mpr ⟨s, hof, rfl, hspace⟩⟩
  · intro t available text htext
    obtain ⟨s, hof, rfl, -⟩ := totext_iff.mp htext
    exact ⟨hof.length_print, hof.fromtext_print⟩
  · intro t u available available' text text' ht hu
    obtain ⟨s, hof, rfl, -⟩ := totext_iff.mp ht
    obtain ⟨s', hof', rfl, -⟩ := totext_iff.mp hu
    exact hof.lt_iff hof'
  · intro source t s available hsource hs hyear hsecond hspace
    obtain ⟨s', hs', hrange, hseconds, hprint⟩ := fromtext_ok hsource
    obtain rfl := Option.some.inj (hs.symm.trans hs')
    exact totext_iff.mpr ⟨s, ⟨hrange, hyear, hsecond, hseconds⟩, hprint, hspace⟩
  · intro now value available hspace
    obtain ⟨s, -, hof⟩ := brokenDown_ok (time64From32_spec now value).1
    refine ⟨s.print, totext_iff.mpr ⟨s, hof, rfl, hspace⟩, ?_⟩
    rw [time32Fromtext, hof.fromtext_print]
    exact congrArg Except.ok (by rw [(time64From32_spec now value).2, UInt32.ofNat_toNat])

end OqsBind.Dns.Time
