import OqsBind.Isc.Histo
import Mathlib.Order.Monotone.Basic
import Mathlib.Tactic.Ring

/-! The buckets of a histogram are a partition of the 64-bit values. `lower` gives where each bucket starts, without a limit
    on the size; it is strictly increasing, and a value is in the bucket of its key. -/

namespace OqsBind.Isc.Histo

/-- The least value of a bucket. Each chunk has `c` buckets, twice as wide as those of the chunk before it. -/
def lower (c key : Nat) : Nat := if key / c = 0 then key % c else (key % c + c) * 2 ^ (key / c - 1)

/-- The first two chunks have buckets of one value. -/
def width (c key : Nat) : Nat := 2 ^ (key / c - 1)

variable {c key : Nat}

theorem mul_add_div (q : Nat) {r : Nat} (hr : r < c) : (q * c + r) / c = q := by
  rw [Nat.mul_comm, Nat.mul_add_div (by omega), Nat.div_eq_of_lt hr, Nat.add_zero]

theorem lower_mul_add (q : Nat) {r : Nat} (hr : r < c) :
    lower c (q * c + r) = if q = 0 then r else (r + c) * 2 ^ (q - 1) := by
  have hmod : (q * c + r) % c = r := by rw [Nat.mul_comm, Nat.mul_add_mod, Nat.mod_eq_of_lt hr]
  rw [lower, mul_add_div q hr, hmod]

theorem lower_succ (hc : 0 < c) (key : Nat) : lower c (key + 1) = lower c key + width c key := by
  have hkey := Nat.div_add_mod' key c
  have hr := Nat.mod_lt key hc
  unfold width
  generalize key / c = q, key % c = r at hkey hr
  subst hkey
  rw [lower_mul_add q hr]
  rcases Nat.lt_or_ge (r + 1) c with hlt | hge
  · rw [Nat.add_assoc, lower_mul_add q hlt]
    split_ifs with hq
    · simp [hq]
    · ring
  · -- the next bucket is the first one of the next chunk
    have hnext : q * c + r + 1 = (q + 1) * c + 0 := by
      rw [Nat.succ_mul]
      omega
    obtain rfl : c = r + 1 := by omega
    rw [hnext, lower_mul_add (q + 1) hc, if_neg (Nat.succ_ne_zero q)]
    cases q with
    | zero => simp
    | succ q =>
      simp only [Nat.succ_ne_zero, if_false, Nat.add_sub_cancel]
      ring

theorem lower_strictMono (hc : 0 < c) : StrictMono (lower c) :=
  strictMono_nat_of_lt_succ fun key => by
    rw [lower_succ hc]
    exact Nat.lt_add_of_pos_right (Nat.two_pow_pos _)

theorem width_mul_le (hc : 0 < c) (h : c ≤ key) : width c key * c ≤ lower c key := by
  rw [lower, if_neg (Nat.div_pos h hc).ne', width, Nat.mul_comm]
  exact Nat.mul_le_mul_right _ (Nat.le_add_left _ _)

variable (hg : Histo)

theorem chunksize_eq : hg.CHUNKSIZE = 2 ^ hg.sigbits := Nat.one_shiftLeft _

theorem chunksize_pos : 0 < hg.CHUNKSIZE := by
  rw [chunksize_eq]
  exact Nat.two_pow_pos _

theorem chunksize_le : hg.CHUNKSIZE ≤ 2 ^ 18 := by
  rw [chunksize_eq]
  exact Nat.pow_le_pow_right (by omega) hg.maxbits

theorem buckets_eq : hg.BUCKETS = (65 - hg.sigbits) * hg.CHUNKSIZE := by
  have := hg.minbits
  unfold HISTO_MINBITS at this
  unfold BUCKETS EXPONENTS DENORMALS CHUNKSIZE CHUNKS
  congr 1
  omega

theorem lower_buckets : lower hg.CHUNKSIZE hg.BUCKETS = 2 ^ 64 := by
  have hmax := hg.maxbits
  unfold HISTO_MAXBITS at hmax
  have hlower := lower_mul_add (65 - hg.sigbits) (chunksize_pos hg)
  rw [Nat.add_zero, ← buckets_eq, if_neg (by omega), Nat.zero_add, chunksize_eq, ← pow_add] at hlower
  rw [chunksize_eq, hlower]
  congr 1
  omega

theorem buckets_lt : hg.BUCKETS < 2 ^ 32 := by
  have hle : (65 - hg.sigbits) * hg.CHUNKSIZE ≤ 65 * 2 ^ 18 := Nat.mul_le_mul (Nat.sub_le _ _) (chunksize_le hg)
  rw [buckets_eq]
  omega

/-! ### From keys to values -/

theorem keyExponent_eq (hle : key ≤ hg.BUCKETS) (hchunk : hg.CHUNKSIZE ≤ key) :
    hg.keyExponent key = key / hg.CHUNKSIZE - 1 ∧ hg.keyExponent key < 64 := by
  have hdiv : key / hg.CHUNKSIZE ≤ 65 - hg.sigbits := by
    rw [buckets_eq] at hle
    exact Nat.div_le_of_le_mul (by rwa [Nat.mul_comm])
  have hpos : 0 < key / hg.CHUNKSIZE := Nat.div_pos hchunk (chunksize_pos hg)
  have hmin := hg.minbits
  unfold HISTO_MINBITS at hmin
  unfold keyExponent
  omega

theorem keyToMinval_eq (hle : key ≤ hg.BUCKETS) : hg.keyToMinval key = lower hg.CHUNKSIZE key % 2 ^ 64 := by
  have hsize := chunksize_le hg
  unfold keyToMinval lower
  simp only
  split_ifs with hlt hdiv hdiv
  · have := buckets_lt hg
    rw [Nat.mod_eq_of_lt hlt, Nat.mod_eq_of_lt (by omega)]
  · exact absurd (Nat.div_eq_of_lt hlt) hdiv
  · exact absurd hdiv (Nat.div_pos (Nat.le_of_not_lt hlt) (chunksize_pos hg)).ne'
  · have hmod := Nat.mod_lt key (chunksize_pos hg)
    rw [(keyExponent_eq hg hle (Nat.le_of_not_lt hlt)).1, Nat.mod_eq_of_lt (by omega : key % _ + _ < 2 ^ 32), Nat.shiftLeft_eq]

theorem keyToMinval_bucket (hlt : key < hg.BUCKETS) : hg.keyToMinval key = lower hg.CHUNKSIZE key := by
  have hless := lower_strictMono (chunksize_pos hg) hlt
  rw [lower_buckets] at hless
  rw [keyToMinval_eq hg hlt.le, Nat.mod_eq_of_lt hless]

/-- After the last bucket the sum is 0, from which 1 is subtracted. -/
theorem keyToMaxval_eq (hlt : key < hg.BUCKETS) : hg.keyToMaxval key + 1 = lower hg.CHUNKSIZE (key + 1) := by
  have hbuckets := buckets_lt hg
  have hpos := lower_strictMono (chunksize_pos hg) (Nat.lt_add_one key)
  have hle := (lower_strictMono (chunksize_pos hg)).monotone (Nat.add_one_le_of_lt hlt)
  rw [lower_buckets] at hle
  rw [keyToMaxval, Nat.mod_eq_of_lt (by omega : key + 1 < 2 ^ 32), keyToMinval_eq hg (Nat.add_one_le_of_lt hlt)]
  omega

/-! ### From values to keys -/

variable {v : Nat}

/-- The exponent is that of the leading bit of the value, counted from `sigbits`. -/
theorem valueExponent_spec (hv : v < 2 ^ 64) :
    hg.valueExponent v + hg.sigbits < 64 ∧ v < 2 ^ (hg.valueExponent v + hg.sigbits + 1) ∧
      (hg.valueExponent v = 0 ∨ 2 ^ (hg.valueExponent v + hg.sigbits) ≤ v) := by
  have hmax := hg.maxbits
  unfold HISTO_MAXBITS at hmax
  have hge : 2 ^ hg.sigbits ≤ v ||| hg.CHUNKSIZE := by
    rw [chunksize_eq]
    exact Nat.right_le_or
  have hne : v ||| hg.CHUNKSIZE ≠ 0 := (Nat.lt_of_lt_of_le (Nat.two_pow_pos _) hge).ne'
  have hsize : hg.CHUNKSIZE < 2 ^ 64 := Nat.lt_of_le_of_lt (chunksize_le hg) (by omega)
  have hlog : (v ||| hg.CHUNKSIZE).log2 < 64 := (Nat.log2_lt hne).mpr (Nat.or_lt_two_pow hv hsize)
  have hsig : hg.sigbits ≤ (v ||| hg.CHUNKSIZE).log2 := (Nat.le_log2 hne).mpr hge
  have hexp : hg.valueExponent v + hg.sigbits = (v ||| hg.CHUNKSIZE).log2 := by
    unfold valueExponent clzll
    omega
  rw [hexp]
  refine ⟨hlog, Nat.lt_of_le_of_lt Nat.left_le_or Nat.lt_log2_self, ?_⟩
  by_contra hcon
  push Not at hcon
  -- a leading bit above `sigbits` is that of the value
  have hbelow : hg.CHUNKSIZE < 2 ^ (v ||| hg.CHUNKSIZE).log2 := by
    rw [chunksize_eq]
    exact Nat.pow_lt_pow_right (by omega) (by rw [← chunksize_eq]; omega)
  exact absurd (Nat.or_lt_two_pow hcon.2 hbelow) (Nat.not_lt.mpr (Nat.log2_self_le hne))

theorem valueToKey_eq (hv : v < 2 ^ 64) : v / 2 ^ hg.valueExponent v < 2 * hg.CHUNKSIZE ∧
    hg.valueToKey v = hg.valueExponent v * hg.CHUNKSIZE + v / 2 ^ hg.valueExponent v := by
  obtain ⟨hexp, hless, -⟩ := valueExponent_spec hg hv
  have hsize := chunksize_le hg
  have hmul : hg.valueExponent v * hg.CHUNKSIZE ≤ 63 * 2 ^ 18 := Nat.mul_le_mul (by omega) hsize
  have hmantissa : v / 2 ^ hg.valueExponent v < 2 * hg.CHUNKSIZE := by
    rw [chunksize_eq]
    exact Nat.div_lt_of_lt_mul (hless.trans_eq (by ring))
  refine ⟨hmantissa, ?_⟩
  unfold valueToKey
  simp only [Nat.shiftRight_eq_div_pow, Nat.shiftLeft_eq]
  rw [← chunksize_eq, Nat.mod_eq_of_lt (by omega : v / 2 ^ hg.valueExponent v < 2 ^ 32), Nat.mod_eq_of_lt (by omega)]

/-- The bucket of the key has the value. -/
theorem valueToKey_spec (hv : v < 2 ^ 64) : lower hg.CHUNKSIZE (hg.valueToKey v) ≤ v ∧
    v < lower hg.CHUNKSIZE (hg.valueToKey v + 1) ∧ (hg.CHUNKSIZE ≤ v → hg.CHUNKSIZE ≤ hg.valueToKey v) := by
  obtain ⟨hmantissa, hkey⟩ := valueToKey_eq hg hv
  obtain ⟨-, -, hlead⟩ := valueExponent_spec hg hv
  rw [lower_succ (chunksize_pos hg), hkey]
  generalize hg.valueExponent v = e at hmantissa hlead
  rcases Nat.lt_or_ge (v / 2 ^ e) hg.CHUNKSIZE with hlt | hge
  · -- only values of the first chunk have a mantissa without a leading bit
    have he : e = 0 := hlead.resolve_right fun hle => by
      rw [chunksize_eq, Nat.div_lt_iff_lt_mul (Nat.two_pow_pos e), ← pow_add, Nat.add_comm] at hlt
      omega
    subst he
    rw [pow_zero, Nat.div_one] at hlt ⊢
    rw [lower_mul_add 0 hlt, width, mul_add_div 0 hlt]
    simp
  · obtain ⟨r, hr⟩ := Nat.exists_eq_add_of_le hge
    have hrlt : r < hg.CHUNKSIZE := by omega
    have hnext : e * hg.CHUNKSIZE + v / 2 ^ e = (e + 1) * hg.CHUNKSIZE + r := by rw [hr, Nat.succ_mul, Nat.add_assoc]
    rw [hnext, lower_mul_add (e + 1) hrlt, width, mul_add_div (e + 1) hrlt, if_neg (Nat.succ_ne_zero e),
      Nat.add_sub_cancel, Nat.add_comm r, ← hr, ← Nat.succ_mul]
    refine ⟨Nat.div_mul_le_self .., Nat.lt_mul_of_div_lt (Nat.lt_add_one _) (Nat.two_pow_pos e), fun _ => ?_⟩
    rw [Nat.succ_mul]
    omega

theorem valueToKey_lt (hv : v < 2 ^ 64) : hg.valueToKey v < hg.BUCKETS := by
  have hlower := (valueToKey_spec hg hv).1.trans_lt hv
  rwa [← lower_buckets, (lower_strictMono (chunksize_pos hg)).lt_iff_lt] at hlower

theorem valueToKey_eq_iff (hv : v < 2 ^ 64) :
    hg.valueToKey v = key ↔ lower hg.CHUNKSIZE key ≤ v ∧ v < lower hg.CHUNKSIZE (key + 1) := by
  obtain ⟨hle, hlt, -⟩ := valueToKey_spec hg hv
  have hmono := lower_strictMono (chunksize_pos hg)
  constructor
  · rintro rfl
    exact ⟨hle, hlt⟩
  · rintro ⟨hle', hlt'⟩
    have h1 := hmono.lt_iff_lt.mp (hle.trans_lt hlt')
    have h2 := hmono.lt_iff_lt.mp (hle'.trans_lt hlt)
    omega

/-- The buckets are a partition of the 64-bit values into ranges that follow one another, and no wider than the precision
    asked for allows. No shift is by 64 bits or more. -/
theorem buckets_partition (hg : Histo) :
    (∀ v < 2 ^ 64, ∀ key, hg.valueToKey v = key → hg.valueExponent v < 64 ∧ key < hg.BUCKETS ∧
      hg.keyToMinval key ≤ v ∧ v ≤ hg.keyToMaxval key ∧
      (2 ^ hg.sigbits ≤ v →
        (hg.keyToMaxval key + 1 - hg.keyToMinval key) * 2 ^ (hg.sigbits - 1) ≤ hg.keyToMinval key) ∧
      ∀ w < 2 ^ 64, (v ≤ w → key ≤ hg.valueToKey w) ∧
        (hg.valueToKey w = key ↔ hg.keyToMinval key ≤ w ∧ w ≤ hg.keyToMaxval key)) ∧
    hg.keyToMinval 0 = 0 ∧ hg.keyToMaxval (hg.BUCKETS - 1) = 2 ^ 64 - 1 ∧
    (∀ key, key + 1 < hg.BUCKETS → hg.keyToMaxval key + 1 = hg.keyToMinval (key + 1)) ∧
    ∀ key ≤ hg.BUCKETS, hg.CHUNKSIZE ≤ key → hg.keyExponent key < 64 := by
  have hmono := lower_strictMono (chunksize_pos hg)
  have hpos : 0 < hg.BUCKETS := Nat.zero_lt_of_lt (valueToKey_lt hg (v := 0) (by omega))
  refine ⟨?_, ?_, ?_, fun key hkey => ?_, fun key hle hchunk => (keyExponent_eq hg hle hchunk).2⟩
  · rintro v hv _ rfl
    have hkey := valueToKey_lt hg hv
    have hexp := (valueExponent_spec hg hv).1
    obtain ⟨hle, hlt, hchunk⟩ := valueToKey_spec hg hv
    have hmax := keyToMaxval_eq hg hkey
    rw [keyToMinval_bucket hg hkey]
    refine ⟨by omega, hkey, hle, by omega, fun hsig => ?_, fun w hw => ⟨fun h => ?_, ?_⟩⟩
    · rw [← chunksize_eq] at hsig
      rw [hmax, lower_succ (chunksize_pos hg), Nat.add_sub_cancel_left]
      refine (Nat.mul_le_mul_left _ ?_).trans (width_mul_le (chunksize_pos hg) (hchunk hsig))
      rw [chunksize_eq]
      exact Nat.pow_le_pow_right (by omega) (Nat.sub_le _ _)
    · exact Nat.le_of_lt_add_one (hmono.lt_iff_lt.mp (hle.trans_lt (h.trans_lt (valueToKey_spec hg hw).2.1)))
    · rw [valueToKey_eq_iff hg hw, ← hmax, Nat.lt_add_one_iff]
  · rw [keyToMinval_bucket hg hpos, lower, Nat.zero_div, if_pos rfl, Nat.zero_mod]
  · have hmax := keyToMaxval_eq hg (Nat.sub_one_lt_of_lt hpos)
    rw [Nat.sub_add_cancel hpos, lower_buckets] at hmax
    omega
  · rw [keyToMaxval_eq hg (Nat.lt_of_succ_lt hkey), keyToMinval_bucket hg hkey]

end OqsBind.Isc.Histo
