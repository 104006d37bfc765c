import OqsBind.Dst.PrivateFile

/-! Private key files are read back. The loop of `dst__privstruct_parse` sees the first `MAXFIELDS` lines only; the key elements
    are always among them, but metadata after them is lost. -/

namespace OqsBind.Dst
open Isc List

/-! ### Metadata -/

/-- A place for metadata that has a tag. -/
inductive Slot where
  | num (i : Nat)
  | time (i : Nat)
deriving DecidableEq

namespace Slot

def get (key : Key) : Slot → Option UInt32
  | num i => key.nums i
  | time i => key.times i

def set (key : Key) (value : UInt32) : Slot → Key
  | num i => key.setnum i value
  | time i => key.settime i value

def tag : Slot → String
  | num i => numerictags.getD i ""
  | time i => timetags.getD i ""

def content (value : UInt32) : Slot → Content
  | num _ => .number value
  | time _ => .time value

def line (s : Slot) (value : UInt32) : Line := ⟨s.tag, s.content value⟩

/-- Predecessor to RollPeriod, then Created to SyncDelete. -/
def all : List Slot := (range 4).map num ++ (range 9).map time

theorem nodup_all : all.Nodup := by decide

theorem get_set (key : Key) (value : UInt32) (s t : Slot) :
    get (s.set key value) t = if t = s then some value else get key t := by
  cases s <;> cases t <;> simp [set, get, Key.setnum, Key.settime, Function.update_apply]

end Slot

theorem metadata_eq (key : Key) : key.metadata = Slot.all.filterMap fun s => (s.get key).map s.line := by
  unfold Key.metadata metadataLines Slot.all
  rw [filterMap_append]
  rfl

/-! ### One line -/

section
variable {alg : Algorithm} {minor n : Nat} {r : Reading}

theorem findNumericdata_num : ∀ i < 4, (Slot.num i).tag ≠ EXTERNAL_STR ∧ findNumericdata (Slot.num i).tag = some i := by
  decide

theorem findTimedata_time : ∀ i < 9, (Slot.time i).tag ≠ EXTERNAL_STR ∧ findNumericdata (Slot.time i).tag = none ∧
    findTimedata (Slot.time i).tag = some i := by
  decide

theorem readField_slot {s : Slot} (hs : s ∈ Slot.all) (value : UInt32) :
    readField alg minor n (s.line value) r = .ok { r with key := s.set r.key value } := by
  unfold readField
  cases s with
  | num i =>
    have hi : i < 4 := by simpa [Slot.all] using hs
    obtain ⟨hext, hnum⟩ := findNumericdata_num i hi
    simp only [Slot.line, hext, if_false, hnum, Slot.content, Slot.set]
  | time i =>
    have hi : i < 9 := by simpa [Slot.all] using hs
    obtain ⟨hext, hnum, htime⟩ := findTimedata_time i hi
    simp only [Slot.line, hext, if_false, hnum, htime, Slot.content, Slot.set]

/-- The tags of key data are no other tags, and each is found for its algorithm. -/
theorem map_tags : ∀ e ∈ map, e.2 ≠ EXTERNAL_STR ∧ findNumericdata e.2 = none ∧ findTimedata e.2 = none ∧
    (map.find? fun e' => strcaseeq e.2 e'.2 && TAG_ALG e'.1 == TAG_ALG e.1) = some e := by
  decide +kernel

theorem findValue_of_findTag {value : Nat} {tag : String} (h : findTag value = some tag) (halg : TAG_ALG value = alg.number) :
    tag ≠ EXTERNAL_STR ∧ findNumericdata tag = none ∧ findTimedata tag = none ∧ findValue tag alg = some value := by
  obtain ⟨e, he, rfl⟩ := Option.map_eq_some_iff.mp h
  have hv : value = e.1 := by simpa using find?_some he
  obtain ⟨hext, hnum, htime, hfind⟩ := map_tags e (mem_of_find?_eq_some he)
  refine ⟨hext, hnum, htime, ?_⟩
  unfold findValue
  rw [← halg, hv, hfind]
  rfl

theorem readField_named {e : Element} {tag : String} (halg : TAG_ALG e.tag = alg.number) (htag : findTag e.tag = some tag) :
    readField alg minor n ⟨tag, .base64 e.data⟩ r =
      if e.data.length ≤ MAXFIELDSIZE then .ok (r.setElement n e) else .error .nospace := by
  obtain ⟨hext, hnum, htime, hvalue⟩ := findValue_of_findTag htag halg
  unfold readField
  simp only [hext, if_false, hnum, htime, hvalue]

theorem readField_element {e : Element} (halg : TAG_ALG e.tag = alg.number) (hminor : minor ≤ DST_MINOR_VERSION) :
    readField alg minor n ⟨(findTag e.tag).getD "(null)", .base64 e.data⟩ r =
      if (findTag e.tag).isSome then if e.data.length ≤ MAXFIELDSIZE then .ok (r.setElement n e) else .error .nospace
      else .error .invalidprivatekey := by
  cases htag : findTag e.tag with
  | none =>
    have hnull : ("(null)" : String) ≠ EXTERNAL_STR ∧ findNumericdata "(null)" = none ∧ findTimedata "(null)" = none ∧
        ∀ e ∈ map, strcaseeq "(null)" e.2 = false := by
      decide
    have hvalue : findValue "(null)" alg = none := by
      unfold findValue
      rw [find?_eq_none.mpr fun e he => by simp [hnull.2.2.2 e he]]
      rfl
    unfold readField
    simp only [Option.getD_none, hnull.1, if_false, hnull.2.1, hnull.2.2.1, hvalue, Nat.not_lt.mpr hminor,
      Option.isSome_none, Bool.false_eq_true]
  | some tag =>
    simp [readField_named halg htag]

/-! ### All lines -/

theorem readFields_full {lines : List Line} (h : MAXFIELDS ≤ n) : readFields alg minor n lines r = .ok r := by
  cases lines with
  | nil => rfl
  | cons line lines =>
    rw [readFields, if_neg (Nat.not_lt.mpr h)]

theorem readFields_append : ∀ {l1 l2 : List Line} {n : Nat} {r : Reading}, n + l1.length ≤ MAXFIELDS →
    readFields alg minor n (l1 ++ l2) r =
      match readFields alg minor n l1 r with
      | .error e => .error e
      | .ok r => readFields alg minor (n + l1.length) l2 r
  | [], l2, n, r, _ => rfl
  | line :: l1, l2, n, r, h => by
    rw [length_cons] at h
    have hlt : n < MAXFIELDS := by omega
    rw [cons_append, readFields, if_pos hlt, readFields, if_pos hlt]
    cases readField alg minor n line r with
    | error e => rfl
    | ok r' =>
      rw [length_cons, ← Nat.add_assoc, Nat.add_right_comm]
      exact readFields_append (by omega)

theorem readFields_take : ∀ (lines : List Line) (n : Nat) (r : Reading),
    readFields alg minor n lines r = readFields alg minor n (lines.take (MAXFIELDS - n)) r
  | [], n, r => by rw [take_nil]
  | line :: lines, n, r => by
    rcases Nat.lt_or_ge n MAXFIELDS with hlt | hge
    · obtain ⟨k, hk⟩ : ∃ k, MAXFIELDS - n = k + 1 := ⟨MAXFIELDS - n - 1, by omega⟩
      rw [hk, take_succ_cons, readFields, if_pos hlt, readFields, if_pos hlt]
      cases readField alg minor n line r with
      | error e => rfl
      | ok r' =>
        have hk' : MAXFIELDS - (n + 1) = k := by omega
        rw [← hk']
        exact readFields_take lines (n + 1) r'
    · simp [readFields_full hge]

end

/-- Metadata of `key` at the given places, written over that of another key. -/
def copySlots (key : Key) (slots : List Slot) (base : Key) : Key :=
  slots.foldl (fun k s => match s.get key with | some value => s.set k value | none => k) base

variable {alg : Algorithm}

theorem readFields_slots {minor : Nat} (key : Key) : ∀ {slots : List Slot} {n : Nat} {r : Reading},
    slots ⊆ Slot.all → n + (slots.filterMap fun s => (s.get key).map s.line).length ≤ MAXFIELDS →
    readFields alg minor n (slots.filterMap fun s => (s.get key).map s.line) r =
      .ok { r with key := copySlots key slots r.key }
  | [], _, _, _, _ => rfl
  | s :: slots, n, r, hsub, hlen => by
    obtain ⟨hs, hsub⟩ := cons_subset.mp hsub
    cases hget : s.get key with
    | none =>
      have hcopy : copySlots key (s :: slots) r.key = copySlots key slots r.key := by
        simp [copySlots, hget]
      rw [filterMap_cons_none (by rw [hget]; rfl)] at hlen ⊢
      rw [hcopy]
      exact readFields_slots key hsub hlen
    | some value =>
      have hcopy : copySlots key (s :: slots) r.key = copySlots key slots (s.set r.key value) := by
        simp [copySlots, hget]
      rw [filterMap_cons_some (b := s.line value) (by rw [hget]; rfl)] at hlen ⊢
      rw [length_cons] at hlen
      rw [readFields, if_pos (by omega), readField_slot hs, hcopy]
      exact readFields_slots key hsub (by omega)

theorem get_copySlots (key : Key) : ∀ {slots : List Slot} {base : Key} (t : Slot),
    t.get (copySlots key slots base) = if t ∈ slots then (t.get key).or (t.get base) else t.get base
  | [], base, t => by simp [copySlots]
  | s :: slots, base, t => by
    have hstep : copySlots key (s :: slots) base =
        copySlots key slots (match s.get key with | some value => s.set base value | none => base) := rfl
    rw [hstep, get_copySlots key t]
    by_cases hts : t = s
    · subst hts
      cases hget : t.get key with
      | none => simp
      | some value => simp [Slot.get_set]
    · have hmem : t ∈ s :: slots ↔ t ∈ slots := by simp [hts]
      have hsame : t.get (match s.get key with | some value => s.set base value | none => base) = t.get base := by
        cases s.get key with
        | none => rfl
        | some value => rw [Slot.get_set, if_neg hts]
      simp only [hmem, hsame]

/-- Metadata apart, the key stays as it is. -/
structure SameForm (key key' : Key) : Prop where
  alg : key'.alg = key.alg
  fmtMajor : key'.fmtMajor = key.fmtMajor
  fmtMinor : key'.fmtMinor = key.fmtMinor

theorem SameForm.refl (key : Key) : SameForm key key := ⟨rfl, rfl, rfl⟩

theorem sameForm_set (key : Key) (value : UInt32) (s : Slot) : SameForm key (s.set key value) := by
  cases s <;> exact ⟨rfl, rfl, rfl⟩

/-! ### Elements -/

variable {r : Reading} {n : Nat}

theorem used_setElement {e : Element} (hn : r.priv.nelements = n) (hlt : n < MAXFIELDS) :
    (r.setElement n e).priv.used = r.priv.used ++ [e] := by
  unfold Reading.setElement Private.used
  simp only [hn, Vector.toList_setIfInBounds]
  have hlen : n < r.priv.elements.toList.length := by simpa using hlt
  rw [take_add_one, take_set_of_le (Nat.le_refl n), getElem?_set_self hlen]
  rfl

/-- The element can be read back. -/
def Element.Readable (e : Element) : Prop := (findTag e.tag).isSome ∧ e.data.length ≤ MAXFIELDSIZE

instance (e : Element) : Decidable e.Readable := inferInstanceAs (Decidable (_ ∧ _))

def Element.text (e : Element) : Line := ⟨(findTag e.tag).getD "(null)", .base64 e.data⟩

theorem elementLines_eq : ∀ {es : List Element} {lines : List Line}, elementLines es = .ok lines → lines = es.map Element.text
  | [], _, h => by
    cases h
    rfl
  | e :: es, lines, h => by
    rw [elementLines, Element.line] at h
    split_ifs at h
    · cases hes : elementLines es with
      | error x =>
        rw [hes] at h
        cases h
      | ok rest =>
        rw [hes] at h
        cases h
        rw [elementLines_eq hes]
        rfl

theorem elementLines_ok : ∀ {es : List Element}, (∀ e ∈ es, e.data.length ≤ MAXFIELDSIZE) →
    elementLines es = .ok (es.map Element.text)
  | [], _ => rfl
  | e :: es, h => by
    have hlen : 4 * ((e.data.length + 2) / 3) ≤ MAXFIELDSIZE * 2 := by
      have := h e mem_cons_self
      unfold MAXFIELDSIZE at *
      omega
    rw [elementLines, Element.line, if_pos hlen, elementLines_ok fun e' he' => h e' (mem_cons_of_mem _ he')]
    rfl

section
variable {alg : Algorithm} {minor : Nat}

theorem readField_text {e : Element} {n : Nat} {r r' : Reading} (halg : TAG_ALG e.tag = alg.number)
    (hminor : minor ≤ DST_MINOR_VERSION) :
    readField alg minor n e.text r = .ok r' ↔ e.Readable ∧ r' = r.setElement n e := by
  unfold Element.text Element.Readable
  rw [readField_element halg hminor]
  split_ifs with hnamed hshort
  · simp [hnamed, hshort, eq_comm]
  · simp [hnamed, hshort]
  · simp [hnamed]

/-- The elements are read exactly if all of them can be, and then they are what counts. -/
theorem readFields_elements (hminor : minor ≤ DST_MINOR_VERSION) : ∀ {es : List Element} {n : Nat} {r r' : Reading},
    (∀ e ∈ es, TAG_ALG e.tag = alg.number) → r.priv.nelements = n → n + es.length ≤ MAXFIELDS →
    readFields alg minor n (es.map Element.text) r = .ok r' →
    (∀ e ∈ es, e.Readable) ∧ r'.key = r.key ∧ r'.external = r.external ∧ r'.priv.nelements = n + es.length ∧
      r'.priv.used = r.priv.used ++ es
  | [], n, r, r', _, hn, _, h => by
    cases h
    simp [hn]
  | e :: es, n, r, r', halg, hn, hlen, h => by
    rw [length_cons] at hlen
    have hlt : n < MAXFIELDS := by omega
    rw [map_cons, readFields, if_pos hlt] at h
    cases hread : readField alg minor n e.text r with
    | error x =>
      rw [hread] at h
      cases h
    | ok r1 =>
      rw [hread] at h
      obtain ⟨he, rfl⟩ := (readField_text (halg e mem_cons_self) hminor).mp hread
      obtain ⟨hes, hkey, hext, hnel, hused⟩ := readFields_elements hminor (fun e' he' => halg e' (mem_cons_of_mem _ he'))
        (by rw [← hn]; rfl) (by omega) h
      refine ⟨forall_mem_cons.mpr ⟨he, hes⟩, hkey, hext, ?_, ?_⟩
      · simp
        omega
      · simp [hused, used_setElement hn hlt]

theorem readFields_elements_ok (hminor : minor ≤ DST_MINOR_VERSION) : ∀ {es : List Element} {n : Nat} {r : Reading},
    (∀ e ∈ es, TAG_ALG e.tag = alg.number) → (∀ e ∈ es, e.Readable) → n + es.length ≤ MAXFIELDS →
    ∃ r', readFields alg minor n (es.map Element.text) r = .ok r'
  | [], _, r, _, _, _ => ⟨r, rfl⟩
  | e :: es, n, r, halg, hread, hlen => by
    rw [length_cons] at hlen
    have he := (readField_text (n := n) (r := r) (halg e mem_cons_self) hminor).mpr
      ⟨hread e mem_cons_self, rfl⟩
    rw [map_cons, readFields, if_pos (by omega), he]
    exact readFields_elements_ok hminor (fun e' he' => halg e' (mem_cons_of_mem _ he'))
      (fun e' he' => hread e' (mem_cons_of_mem _ he')) (by omega)

end

/-! ### Checks -/

theorem checkData_cases (alg : Algorithm) :
    (∃ ntags ok, ntags ≤ 16 ∧ ∀ priv old external,
      checkData priv alg old external = checkTags alg.parseAs ntags ok priv external ∧
      checkData priv alg.parseAs old external = checkTags alg.parseAs ntags ok priv external) ∨
    alg = .hmacmd5 ∨
    (alg.parseAs = alg ∧ ∀ priv old external, checkData priv alg old external = checkHmacSha priv HMAC_NTAGS alg) ∨
    ∀ priv old external, checkData priv alg old external = .unsupported := by
  have hrsa : RSA_NTAGS ≤ 16 := by decide
  have hec : ECDSA_NTAGS ≤ 16 := by decide
  have hed : EDDSA_NTAGS ≤ 16 := by decide
  have hoqs : OQS_NTAGS ≤ 16 := by decide
  cases alg
  case rsa | rsasha1 | nsec3rsasha1 | rsasha256 | rsasha512 => exact .inl ⟨RSA_NTAGS, rsaComplete, hrsa, fun _ _ _ => ⟨rfl, rfl⟩⟩
  case ecdsa256 | ecdsa384 => exact .inl ⟨ECDSA_NTAGS, ecComplete, hec, fun _ _ _ => ⟨rfl, rfl⟩⟩
  case ed25519 | ed448 => exact .inl ⟨EDDSA_NTAGS, ecComplete, hed, fun _ _ _ => ⟨rfl, rfl⟩⟩
  case falcon512 | dilithium2 | sphincssha256128s | xmss | xmssmt =>
    exact .inl ⟨OQS_NTAGS, oqsComplete, hoqs, fun _ _ _ => ⟨rfl, rfl⟩⟩
  case hmacmd5 => exact .inr (.inl rfl)
  case hmacsha1 | hmacsha224 | hmacsha256 | hmacsha384 | hmacsha512 =>
    exact .inr (.inr (.inl ⟨rfl, fun _ _ _ => rfl⟩))
  all_goals exact .inr (.inr (.inr fun _ _ _ => rfl))

theorem tagAlg_tag (alg : Algorithm) {i : Nat} (hi : i < 16) : TAG_ALG (TAG alg i) = alg.number := by
  unfold TAG_ALG TAG TAG_SHIFT
  omega

theorem ofBool_eq_ok {b : Bool} : Check.ofBool b = .ok ↔ b = true := by
  cases b <;> simp [Check.ofBool]

theorem used_length_le (priv : Private) : 0 + priv.used.length ≤ MAXFIELDS := by
  simp [Private.used]

/-- What a check says about the elements. -/
structure Checked (base : Algorithm) (priv : Private) (external : Bool) : Prop where
  tags : ∀ e ∈ priv.used, TAG_ALG e.tag = base.number
  external : external = true → priv.used.length ≤ 2

variable {base : Algorithm} {priv : Private} {external : Bool}

theorem checkTags_checked {ntags : Nat} {ok : (Nat → Bool) → Bool}
    (hn : ntags ≤ 16) (h : checkTags base ntags ok priv external = .ok) : Checked base priv external := by
  unfold checkTags at h
  cases external with
  | true =>
    have hzero : priv.nelements = 0 := by simpa [ofBool_eq_ok] using h
    have hnil : priv.used = [] := by simp [Private.used, hzero]
    refine ⟨?_, ?_⟩
    · simp [hnil]
    · simp [hnil]
  | false =>
    simp only [Bool.false_eq_true, if_false, ofBool_eq_ok, Bool.and_eq_true, all_eq_true, any_eq_true,
      mem_range, beq_iff_eq] at h
    refine ⟨fun e he => ?_, by simp⟩
    obtain ⟨i, hi, htag⟩ := h.1 e he
    rw [htag]
    exact tagAlg_tag base (by omega)

theorem hmac_checked (external : Bool) (hn : priv.nelements = 2)
    (h : ∀ i < 2, hasTag priv (TAG base i) = true) : Checked base priv external := by
  have hlen : priv.used.length ≤ 2 := by simp [Private.used, hn]
  refine ⟨fun e he => ?_, fun _ => hlen⟩
  obtain ⟨a, ha, hta⟩ := any_eq_true.mp (h 0 (by omega))
  obtain ⟨b, hb, htb⟩ := any_eq_true.mp (h 1 (by omega))
  rw [beq_iff_eq] at hta htb
  have hab : a ≠ b := by
    rintro rfl
    rw [hta] at htb
    unfold TAG at htb
    omega
  -- two elements that differ are all there are
  have hsub : [a, b] <+~ priv.used := subperm_of_subset (by simp [hab]) (by simp [ha, hb])
  have hor : e = a ∨ e = b := by simpa using (hsub.perm_of_length_le hlen).mem_iff.mpr he
  rcases hor with rfl | rfl
  · rw [hta]
    exact tagAlg_tag base (by omega)
  · rw [htb]
    exact tagAlg_tag base (by omega)

theorem checkHmacMd5_new (h : checkHmacMd5 priv false = .ok) : checkHmacSha priv HMAC_NTAGS .hmacmd5 = .ok := by
  unfold checkHmacMd5 at h
  split_ifs at h with hn
  · cases h
  · rw [not_not] at hn
    rw [checkHmacSha, hn]
    exact h

theorem checkHmacSha_checked (external : Bool)
    (h : checkHmacSha priv HMAC_NTAGS base = .ok) : Checked base priv external := by
  simp only [checkHmacSha, ofBool_eq_ok, Bool.and_eq_true, beq_iff_eq, all_eq_true, mem_range] at h
  exact hmac_checked external h.1 h.2

theorem checkData_checked (h : checkData priv alg false external = .ok) : Checked alg.parseAs priv external := by
  rcases checkData_cases alg with ⟨ntags, ok, hn, heq⟩ | rfl | ⟨hparse, heq⟩ | heq
  · rw [(heq _ _ _).1] at h
    exact checkTags_checked hn h
  · exact checkHmacSha_checked external (checkHmacMd5_new h)
  · rw [heq] at h
    rw [hparse]
    exact checkHmacSha_checked external h
  · rw [heq] at h
    cases h

/-- The same elements, counted. -/
structure SameElements (priv priv' : Private) : Prop where
  used : priv'.used = priv.used
  nelements : priv'.nelements = priv.used.length

variable {priv' : Private}

theorem SameElements.hasTag (h : SameElements priv priv') (tag : Nat) : hasTag priv' tag = hasTag priv tag := by
  unfold Dst.hasTag
  rw [h.used]

theorem checkTags_same {ntags : Nat} {ok : (Nat → Bool) → Bool}
    (hsame : SameElements priv priv') (h : checkTags base ntags ok priv external = .ok) :
    checkTags base ntags ok priv' external = .ok := by
  unfold checkTags at h ⊢
  cases external with
  | true =>
    have hzero : priv.nelements = 0 := by simpa [ofBool_eq_ok] using h
    have hzero' : priv'.nelements = 0 := by rw [hsame.nelements, Private.used, hzero, take_zero, length_nil]
    simp [hzero', Check.ofBool]
  | false =>
    simp only [hsame.hasTag, hsame.used]
    exact h

theorem checkHmacSha_same (hsame : SameElements priv priv')
    (h : checkHmacSha priv HMAC_NTAGS base = .ok) : checkHmacSha priv' HMAC_NTAGS base = .ok := by
  simp only [checkHmacSha, ofBool_eq_ok, Bool.and_eq_true, beq_iff_eq, hsame.hasTag] at h ⊢
  refine ⟨?_, h.2⟩
  rw [hsame.nelements, Private.used, h.1, length_take, Vector.length_toList]
  rfl

theorem checkData_same (hsame : SameElements priv priv')
    (h : checkData priv alg false external = .ok) : checkData priv' alg.parseAs true external = .ok := by
  rcases checkData_cases alg with ⟨ntags, ok, hn, heq⟩ | rfl | ⟨hparse, heq⟩ | heq
  · rw [(heq _ _ _).1] at h
    rw [(heq _ _ _).2]
    exact checkTags_same hsame h
  · have hnew := checkHmacSha_same hsame (checkHmacMd5_new h)
    have hn : priv'.nelements = HMAC_NTAGS := by
      simp only [checkHmacSha, ofBool_eq_ok, Bool.and_eq_true, beq_iff_eq] at hnew
      exact hnew.1
    show checkHmacMd5 priv' true = .ok
    rw [checkHmacSha, hn] at hnew
    rw [checkHmacMd5, if_neg (not_not.mpr hn)]
    exact hnew
  · rw [heq] at h
    rw [hparse, heq]
    exact checkHmacSha_same hsame h
  · rw [heq] at h
    cases h

/-! ### The round trip -/

/-- The file can be read back: no more than `MAXFIELDS` lines, and elements that have a tag and fit into a field. -/
structure Readable (key : Key) (priv : Private) : Prop where
  lines : priv.used.length + (if key.external then 1 else 0) + key.metadata.length ≤ MAXFIELDS
  elements : ∀ e ∈ priv.used, e.Readable
  external : key.external = true → priv.used = []

/-- The file is written, it is read without an error, and the elements and the metadata are the same. -/
def RoundTrips (key : Key) (priv : Private) : Prop :=
  ∃ file key' priv', privstructWritefile key priv = .ok file ∧
    privstructParse (.fresh key.alg) key.alg.parseAs file = .ok (key', priv') ∧ priv'.used = priv.used ∧
    (∀ i < 4, key'.nums i = key.nums i) ∧ ∀ i < 9, key'.times i = key.times i

/-- The lines after the first two. -/
def body (key : Key) (priv : Private) : List Line :=
  priv.used.map Element.text ++ (if key.external then [⟨EXTERNAL_STR, .nothing⟩] else []) ++ key.metadata

def start (alg : Algorithm) : Reading :=
  ⟨{ Key.fresh alg with fmtMajor := 1, fmtMinor := 3 }, ⟨0, Vector.replicate MAXFIELDS ⟨0, []⟩⟩, false⟩

variable {key : Key}

theorem privstructWritefile_eq {file : List Line} (hver : key.version = (1, 3))
    (h : privstructWritefile key priv = .ok file) :
    file = ⟨PRIVATE_KEY_STR, .version 1 3⟩ :: ⟨ALGORITHM_STR, .algorithm key.alg.number key.alg.mnemonic⟩ :: body key priv := by
  unfold privstructWritefile at h
  split at h
  · cases h
  · cases h
  · split at h
    · cases h
    · rename_i heq
      rw [hver] at h
      cases h
      rw [elementLines_eq heq]
      rfl

theorem privstructParse_eq (alg : Algorithm) (mnemonic : String) (lines : List Line) :
    privstructParse (.fresh alg) alg.parseAs
      (⟨PRIVATE_KEY_STR, .version 1 3⟩ :: ⟨ALGORITHM_STR, .algorithm alg.number mnemonic⟩ :: lines) =
      match readFields alg.parseAs 3 0 lines (start alg) with
      | .error e => .error e
      | .ok r => r.finish alg.parseAs := by
  simp only [privstructParse, ne_eq, not_true_eq_false, false_or, Key.fresh, or_self, if_false]
  rfl

theorem take_filterMap {α β : Type} (f : α → Option β) : ∀ (l : List α) (n : Nat), n < (l.filterMap f).length →
    ∃ l1 l2, l = l1 ++ l2 ∧ (l.filterMap f).take n = l1.filterMap f ∧ ∃ a ∈ l2, (f a).isSome
  | [], n, h => absurd h (Nat.not_lt_zero n)
  | a :: l, n, h => by
    cases hf : f a with
    | none =>
      rw [filterMap_cons_none hf] at h ⊢
      obtain ⟨l1, l2, rfl, htake, x, hx, hsome⟩ := take_filterMap f l n h
      exact ⟨a :: l1, l2, rfl, by rw [htake, filterMap_cons_none hf], x, hx, hsome⟩
    | some b =>
      cases n with
      | zero => exact ⟨[], a :: l, rfl, rfl, a, mem_cons_self, by rw [hf]; rfl⟩
      | succ n =>
        rw [filterMap_cons_some hf] at h ⊢
        obtain ⟨l1, l2, rfl, htake, x, hx, hsome⟩ := take_filterMap f l n (Nat.lt_of_succ_lt_succ h)
        exact ⟨a :: l1, l2, rfl, by rw [take_succ_cons, htake, filterMap_cons_some hf], x, hx, hsome⟩

theorem get_fresh (alg : Algorithm) (s : Slot) : s.get (start alg).key = none := by
  cases s <;> rfl

/-- Metadata is read back exactly if all its lines are read. -/
theorem readFields_metadata (alg : Algorithm) (hr : r.key = (start key.alg).key) (hn : n ≤ MAXFIELDS) :
    ∃ key', readFields alg 3 n key.metadata r = .ok { r with key := key' } ∧
      ((∀ s ∈ Slot.all, s.get key' = s.get key) ↔ n + key.metadata.length ≤ MAXFIELDS) := by
  rw [readFields_take, metadata_eq]
  rcases Nat.lt_or_ge (MAXFIELDS - n) (Slot.all.filterMap fun s => (s.get key).map s.line).length with hlt | hge
  · -- some place with a value is cut off, and the key that is read has nothing there
    obtain ⟨l1, l2, hall, htake, s, hs, hsome⟩ := take_filterMap (fun s : Slot => (s.get key).map s.line) Slot.all _ hlt
    have hsub : l1 ⊆ Slot.all := fun t ht => hall ▸ mem_append_left l2 ht
    have hfit : n + (l1.filterMap fun s => (s.get key).map s.line).length ≤ MAXFIELDS := by
      rw [← htake, length_take]
      omega
    rw [htake]
    refine ⟨_, readFields_slots key hsub hfit, fun h => ?_, fun h => by omega⟩
    have hnot : s ∉ l1 := by
      have := Slot.nodup_all
      rw [hall] at this
      exact fun hmem => (nodup_append.mp this).2.2 s hmem s hs rfl
    have hget := h s (hall ▸ mem_append_right l1 hs)
    rw [get_copySlots, if_neg hnot, hr, get_fresh] at hget
    rw [← hget] at hsome
    cases hsome
  · rw [take_of_length_le hge]
    refine ⟨_, readFields_slots key (Subset.refl _) (by omega), fun _ => by omega, fun _ s hs => ?_⟩
    rw [get_copySlots, if_pos hs, hr, get_fresh, Option.or_none]

theorem slots_iff {key' : Key} :
    (∀ s ∈ Slot.all, s.get key' = s.get key) ↔ (∀ i < 4, key'.nums i = key.nums i) ∧ ∀ i < 9, key'.times i = key.times i := by
  constructor
  · intro h
    exact ⟨fun i hi => h (.num i) (by simp [Slot.all, hi]), fun i hi => h (.time i) (by simp [Slot.all, hi])⟩
  · rintro ⟨hnum, htime⟩ s hs
    cases s with
    | num i => exact hnum i (by simpa [Slot.all] using hs)
    | time i => exact htime i (by simpa [Slot.all] using hs)

/-- The number of lines that tell of an external key. -/
def externalLines (key : Key) : Nat := if key.external then 1 else 0

theorem readFields_rest (alg : Algorithm) (hr : r.key = (start key.alg).key)
    (hext : r.external = false) (hn : n + externalLines key ≤ MAXFIELDS) :
    ∃ key', readFields alg 3 n ((if key.external then [⟨EXTERNAL_STR, .nothing⟩] else []) ++ key.metadata) r =
        .ok { r with key := key', external := key.external } ∧
      ((∀ s ∈ Slot.all, s.get key' = s.get key) ↔ n + externalLines key + key.metadata.length ≤ MAXFIELDS) := by
  unfold externalLines at hn ⊢
  cases hexternal : key.external with
  | true =>
    rw [hexternal, if_pos rfl] at hn
    obtain ⟨key', hread, hiff⟩ := readFields_metadata alg (r := { r with external := true }) hr hn
    refine ⟨key', ?_, hiff⟩
    rw [if_pos rfl, singleton_append, readFields, if_pos (by omega)]
    exact hread
  | false =>
    rw [hexternal, if_neg Bool.false_ne_true, Nat.add_zero] at hn
    obtain ⟨key', hread, hiff⟩ := readFields_metadata alg hr hn
    refine ⟨key', ?_, hiff⟩
    rw [if_neg Bool.false_ne_true, nil_append, hread, ← hext]

section
variable (hcheck : checkData priv key.alg false key.external = .ok)
include hcheck

theorem readFields_body (hread : ∀ e ∈ priv.used, e.Readable) :
    ∃ r, readFields key.alg.parseAs 3 0 (body key priv) (start key.alg) = .ok r ∧ r.external = key.external ∧
      SameElements priv r.priv ∧ ((∀ s ∈ Slot.all, s.get r.key = s.get key) ↔
        priv.used.length + externalLines key + key.metadata.length ≤ MAXFIELDS) := by
  have hchecked := checkData_checked hcheck
  have hlen := used_length_le priv
  have hminor : 3 ≤ DST_MINOR_VERSION := le_rfl
  obtain ⟨r1, h1⟩ := readFields_elements_ok (r := start key.alg) hminor hchecked.tags hread hlen
  have hn : (start key.alg).priv.nelements = 0 := rfl
  obtain ⟨-, hkey, hext, hnel, hused⟩ := readFields_elements hminor hchecked.tags hn hlen h1
  rw [Nat.zero_add] at hnel
  have hrest : priv.used.length + externalLines key ≤ MAXFIELDS := by
    unfold externalLines
    split_ifs with hexternal
    · have := hchecked.external hexternal
      unfold MAXFIELDS
      omega
    · omega
  obtain ⟨key', h2, hiff⟩ := readFields_rest key.alg.parseAs hkey hext hrest
  refine ⟨{ r1 with key := key', external := key.external }, ?_, rfl, ⟨hused, hnel⟩, hiff⟩
  rw [body, append_assoc, readFields_append (by rw [length_map]; exact hlen), h1, length_map, Nat.zero_add]
  exact h2

theorem readable_of_readFields
    (h : readFields key.alg.parseAs 3 0 (body key priv) (start key.alg) = .ok r) : ∀ e ∈ priv.used, e.Readable := by
  have hlen := used_length_le priv
  rw [body, append_assoc, readFields_append (by rw [length_map]; exact hlen)] at h
  cases hes : readFields key.alg.parseAs 3 0 (priv.used.map Element.text) (start key.alg) with
  | error e =>
    rw [hes] at h
    cases h
  | ok r1 =>
    have hminor : 3 ≤ DST_MINOR_VERSION := le_rfl
    have hn : (start key.alg).priv.nelements = 0 := rfl
    exact (readFields_elements hminor (checkData_checked hcheck).tags hn hlen hes).1

theorem reads_back (hver : key.version = (1, 3)) (h : Readable key priv) : RoundTrips key priv := by
  obtain ⟨r, hread, hext, hsame, hiff⟩ := readFields_body hcheck h.elements
  have hwrite : ∃ file, privstructWritefile key priv = .ok file := by
    unfold privstructWritefile
    rw [hcheck, elementLines_ok fun e he => (h.elements e he).2]
    exact ⟨_, rfl⟩
  obtain ⟨file, hwrite⟩ := hwrite
  refine ⟨file, { r.key with external := r.external }, r.priv, hwrite, ?_, hsame.used, slots_iff.mp (hiff.mpr h.lines)⟩
  obtain rfl := privstructWritefile_eq hver hwrite
  rw [privstructParse_eq, hread]
  simp only [Reading.finish]
  rw [if_neg, hext, checkData_same hsame hcheck]
  rintro ⟨hr, hne⟩
  rw [hext] at hr
  rw [hsame.nelements, h.external hr] at hne
  exact hne rfl

end

/-- A private key file is read back as it was written exactly if it has at most `MAXFIELDS` lines after the first two, every
    element has a tag with a text and fits into a field, and no key with elements is external. -/
theorem roundTrips_iff {key : Key} {priv : Private} (hcheck : checkData priv key.alg false key.external = .ok)
    (hver : key.version = (1, 3)) : RoundTrips key priv ↔ Readable key priv := by
  constructor
  · rintro ⟨file, key', priv', hwrite, hparse, -, hmeta⟩
    obtain rfl := privstructWritefile_eq hver hwrite
    rw [privstructParse_eq] at hparse
    cases hread : readFields key.alg.parseAs 3 0 (body key priv) (start key.alg) with
    | error e =>
      rw [hread] at hparse
      cases hparse
    | ok r =>
      have helements := readable_of_readFields hcheck hread
      obtain ⟨r', hr', hext, hsame, hiff⟩ := readFields_body hcheck helements
      rw [hread] at hr'
      cases hr'
      rw [hread] at hparse
      simp only [Reading.finish] at hparse
      split_ifs at hparse with hexternal
      split at hparse
      · cases hparse
      · cases hparse
      · cases hparse
        refine ⟨hiff.mp (slots_iff.mpr hmeta), helements, fun hkey => ?_⟩
        by_contra hne
        refine hexternal ⟨hext.trans hkey, fun hzero => hne ?_⟩
        rw [hsame.nelements] at hzero
        exact length_eq_zero_iff.mp hzero
  · exact reads_back hcheck hver

/-- A key with all metadata. -/
def dated (alg : Algorithm) : Key := ⟨alg, false, 1, 3, fun _ => some 7, fun _ => some 7⟩

def edElements : Private := ⟨1, Vector.replicate MAXFIELDS ⟨TAG .ed25519 0, [1]⟩⟩

theorem roundTrips_ed25519 : RoundTrips (dated .ed25519) edElements :=
  (roundTrips_iff (by decide) rfl).mpr ⟨by decide, by decide, by decide⟩

/-- The eight elements of an RSA key, of one octet each. -/
def rsaElements : Private :=
  ⟨8, Vector.ofFn fun i => if i.val < 8 then ⟨TAG .rsa i.val, [1]⟩ else ⟨0, []⟩⟩

/-- Eight elements and thirteen lines of metadata are too many: the last three are lost. -/
theorem rsa_metadata_lost : checkData rsaElements .rsasha256 false false = .ok ∧ ∃ file key' priv',
    privstructWritefile (dated .rsasha256) rsaElements = .ok file ∧
    privstructParse (.fresh .rsasha256) Algorithm.rsasha256.parseAs file = .ok (key', priv') ∧
    ∀ i ∈ [6, 7, 8], (dated .rsasha256).times i = some 7 ∧ key'.times i = none := by
  refine ⟨by decide, _, _, _, rfl, rfl, ?_⟩
  simp only [forall_mem_cons]
  exact ⟨⟨rfl, rfl⟩, ⟨rfl, rfl⟩, ⟨rfl, rfl⟩, by simp⟩

end OqsBind.Dst
