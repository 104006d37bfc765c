import OqsBind.Dst.StatefulKey
import OqsBind.Theorems.PrivateFile

/-! One-time indices and the file that keeps them. An object that was loaded before the last signature of another one signs
    with an index that is used up; as long as none of those is stored, no index is used twice. -/

namespace OqsBind.Dst
open List

theorem SameForm.trans {a b c : Key} (h : SameForm a b) (h' : SameForm b c) : SameForm a c :=
  ⟨h'.alg.trans h.alg, h'.fmtMajor.trans h.fmtMajor, h'.fmtMinor.trans h.fmtMinor⟩

variable {alg : Algorithm}

theorem readField_sameForm {minor n : Nat} {line : Line} {r r' : Reading} :
    readField alg minor n line r = .ok r' → SameForm r.key r'.key := by
  fun_cases readField <;> rintro ⟨⟩
  case case2 => exact sameForm_set r.key _ (.num _)
  case case4 => exact sameForm_set r.key _ (.time _)
  all_goals exact .refl _

theorem readFields_sameForm {minor : Nat} {lines : List Line} {n : Nat} {r r' : Reading} :
    readFields alg minor n lines r = .ok r' → SameForm r.key r'.key := by
  fun_induction readFields with
  | case1 =>
    rintro ⟨⟩
    exact .refl _
  | case2 => nofun
  | case3 _ _ _ _ _ _ hline ih => exact fun h => (readField_sameForm hline).trans (ih h)
  | case4 =>
    rintro ⟨⟩
    exact .refl _

/-- What the loop starts with. -/
def emptyReading (alg : Algorithm) (major minor : Nat) : Reading :=
  ⟨{ Key.fresh alg with fmtMajor := major, fmtMinor := minor }, ⟨0, Vector.replicate MAXFIELDS ⟨0, []⟩⟩, false⟩

theorem privstructParse_lines (alg : Algorithm) {major : Nat} (hmajor : major ≤ DST_MAJOR_VERSION) (minor : Nat)
    (mnemonic : String) (lines : List Line) :
    privstructParse (.fresh alg) alg
      (⟨PRIVATE_KEY_STR, .version major minor⟩ :: ⟨ALGORITHM_STR, .algorithm alg.number mnemonic⟩ :: lines) =
      match readFields alg minor 0 lines (emptyReading alg major minor) with
      | .error e => .error e
      | .ok r => r.finish alg := by
  simp only [privstructParse, ne_eq, not_true_eq_false, Nat.not_lt.mpr hmajor, Key.fresh, or_self, if_false]
  rfl

variable {key : Key}

theorem Reading.finish_ok {r : Reading} {priv : Private} : r.finish alg = .ok (key, priv) →
    key = { r.key with external := r.external } ∧ priv = r.priv ∧ (r.external = true → r.priv.nelements = 0) := by
  fun_cases Reading.finish <;> rintro ⟨⟩
  rename_i hexternal _
  exact ⟨rfl, rfl, fun hext => not_not.mp fun hne => hexternal ⟨hext, hne⟩⟩

theorem privstructParse_form {base : Algorithm} {file : List Line} {priv : Private} :
    privstructParse (.fresh alg) base file = .ok (key, priv) →
      key.alg = alg ∧ key.fmtMajor ≤ DST_MAJOR_VERSION ∧ (key.external = true → priv.used = []) := by
  fun_cases privstructParse
  case case6 hmajor _ _ _ _ _ _ _ hread =>
    intro h
    obtain ⟨rfl, rfl, hexternal⟩ := Reading.finish_ok h
    have hform := readFields_sameForm hread
    have hle := Nat.not_lt.mp fun hlt => hmajor (.inr hlt)
    refine ⟨hform.alg, hform.fmtMajor.trans_le hle, fun hext => ?_⟩
    rw [Private.used, hexternal hext, take_zero]
  all_goals
    intro h
    cases h

theorem version_le (h : key.fmtMajor ≤ DST_MAJOR_VERSION) : key.version.1 ≤ DST_MAJOR_VERSION := by
  unfold Key.version
  split
  · exact le_rfl
  · exact h

theorem length_metadata_le (key : Key) : key.metadata.length ≤ 13 := by
  rw [metadata_eq]
  exact length_filterMap_le _ _

namespace Stateful
open Isc

section
variable {lib : Liboqs} {stfl : Stfl} {pubkey : Public}

/-- An object as `liboqsstateful_parse` makes it, whatever its index is. -/
structure Object.WellFormed (lib : Liboqs) (stfl : Stfl) (o : Object) : Prop where
  alg : o.key.alg = stfl.alg
  external : o.key.external = false
  major : o.key.fmtMajor ≤ DST_MAJOR_VERSION
  oid : xmssKeyToOid o.pub ≠ 0
  ctx : lib stfl (xmssKeyToOid o.pub) = some o.ctx
  pub : o.pub.length = o.ctx.publicLength

variable {file : List Line} {o : Object}

theorem parse_wellFormed : parse lib stfl file = .ok o → o.WellFormed lib stfl ∧ o.signing = none := by
  fun_cases parse <;> rintro ⟨⟩
  rename_i key priv hparse sk pk hpk hsk hoid ctx hctx hlen index _
  obtain ⟨halg, hmajor, hexternal⟩ := privstructParse_form hparse
  have hfalse : key.external = false := by
    rw [← Bool.not_eq_true]
    intro hext
    rw [hexternal hext] at hsk
    cases hsk
  exact ⟨⟨halg, hfalse, hmajor, hoid, hctx, not_not.mp fun hne => hlen (.inr hne)⟩, rfl⟩

theorem keyElements_used (alg : Algorithm) (secret pub : Bytes) :
    (keyElements alg secret pub).used = [⟨TAG alg 0, secret⟩, ⟨TAG alg 1, pub⟩] := rfl

theorem checkData_stfl (stfl : Stfl) (old : Bool) {priv : Private} {secret pub : Bytes}
    (h : priv.used = [⟨TAG stfl.alg 0, secret⟩, ⟨TAG stfl.alg 1, pub⟩]) :
    checkData priv stfl.alg old false = .ok := by
  have hcheck : checkData priv stfl.alg old false = checkTags stfl.alg OQS_NTAGS oqsComplete priv false := by
    cases stfl <;> rfl
  rw [hcheck]
  unfold checkTags hasTag
  rw [h]
  cases stfl <;> rfl

theorem findTag_stfl (stfl : Stfl) : findTag (TAG stfl.alg 0) = some "PrivateKey:" ∧ findTag (TAG stfl.alg 1) = some "PublicKey:" := by
  cases stfl <;> decide

theorem readFields_keyElements (stfl : Stfl) (major minor : Nat) {key : Key} {secret pub : Bytes} {lines : List Line}
    (hsecret : secret.length ≤ MAXFIELDSIZE) (hpub : pub.length ≤ MAXFIELDSIZE) (hlines : lines = key.metadata ∨ lines = []) :
    ∃ r, readFields stfl.alg minor 0 (⟨"PrivateKey:", .base64 secret⟩ :: ⟨"PublicKey:", .base64 pub⟩ :: lines)
        (emptyReading stfl.alg major minor) = .ok r ∧ r.external = false ∧
      r.priv.used = [⟨TAG stfl.alg 0, secret⟩, ⟨TAG stfl.alg 1, pub⟩] := by
  obtain ⟨htag0, htag1⟩ := findTag_stfl stfl
  have halg0 : TAG_ALG (TAG stfl.alg 0) = stfl.alg.number := tagAlg_tag stfl.alg (by omega)
  have halg1 : TAG_ALG (TAG stfl.alg 1) = stfl.alg.number := tagAlg_tag stfl.alg (by omega)
  rw [readFields, readField_named (e := ⟨_, secret⟩) halg0 htag0, if_pos hsecret]
  dsimp only
  rw [readFields, readField_named (e := ⟨_, pub⟩) halg1 htag1, if_pos hpub]
  dsimp only
  rcases hlines with rfl | rfl
  · have hfit : 0 + 1 + 1 + (Slot.all.filterMap fun s => (s.get key).map s.line).length ≤ MAXFIELDS := by
      have := length_metadata_le key
      rw [metadata_eq] at this
      unfold MAXFIELDS
      omega
    rw [metadata_eq, readFields_slots key (Subset.refl _) hfit]
    exact ⟨_, rfl, rfl, rfl⟩
  · exact ⟨_, rfl, rfl, rfl⟩

variable {i : Nat}

theorem parse_ok {key : Key} {priv : Private} (h : o.WellFormed lib stfl)
    (hi : i ≤ o.ctx.capacity) (hparse : privstructParse (.fresh stfl.alg) stfl.alg file = .ok (key, priv))
    (hused : priv.used = [⟨TAG stfl.alg 0, o.ctx.serialize i⟩, ⟨TAG stfl.alg 1, o.pub⟩]) :
    parse lib stfl file = .ok ⟨key, o.ctx, o.pub, i, none⟩ := by
  have hsk : priv.used.reverse.find? privateTag = some ⟨TAG stfl.alg 0, o.ctx.serialize i⟩ := by
    rw [hused]
    cases stfl <;> rfl
  have hpk : priv.used.reverse.find? publicTag = some ⟨TAG stfl.alg 1, o.pub⟩ := by
    rw [hused]
    cases stfl <;> rfl
  unfold parse
  simp only [hparse, hsk, hpk, h.oid, if_false, h.ctx, o.ctx.length_serialize, h.pub, ne_eq, not_true_eq_false, or_self,
    o.ctx.deserialize_serialize i hi]

theorem keysToFile_index (h : o.WellFormed lib stfl) (hi : i ≤ o.ctx.capacity) :
    ∃ file, keysToFile o (o.ctx.serialize i) = .ok file ∧ fileIndex lib stfl file = i := by
  have hsecret : (o.ctx.serialize i).length ≤ MAXFIELDSIZE := (o.ctx.length_serialize i).trans_le o.ctx.secretLength_le
  have hpub : o.pub.length ≤ MAXFIELDSIZE := h.pub.trans_le o.ctx.publicLength_le
  have hused := keyElements_used stfl.alg (o.ctx.serialize i) o.pub
  obtain ⟨htag0, htag1⟩ := findTag_stfl stfl
  have hlines : elementLines (keyElements stfl.alg (o.ctx.serialize i) o.pub).used =
      .ok [⟨"PrivateKey:", .base64 (o.ctx.serialize i)⟩, ⟨"PublicKey:", .base64 o.pub⟩] := by
    rw [hused, elementLines_ok]
    · simp [Element.text, htag0, htag1]
    · intro e he
      rw [mem_pair] at he
      rcases he with rfl | rfl
      · exact hsecret
      · exact hpub
  obtain ⟨lines, hmeta, hwrite⟩ : ∃ lines, (lines = o.key.metadata ∨ lines = []) ∧
      keysToFile o (o.ctx.serialize i) = .ok (⟨PRIVATE_KEY_STR, .version o.key.version.1 o.key.version.2⟩ ::
        ⟨ALGORITHM_STR, .algorithm stfl.alg.number stfl.alg.mnemonic⟩ ::
        ⟨"PrivateKey:", .base64 (o.ctx.serialize i)⟩ :: ⟨"PublicKey:", .base64 o.pub⟩ :: lines) := by
    unfold keysToFile privstructWritefile
    simp only [h.alg, h.external, checkData_stfl stfl false hused, hlines]
    refine ⟨if 1 < o.key.version.1 ∨ o.key.version.1 = 1 ∧ 3 ≤ o.key.version.2 then o.key.metadata else [], ?_, rfl⟩
    split
    · exact .inl rfl
    · exact .inr rfl
  refine ⟨_, hwrite, ?_⟩
  obtain ⟨r, hread, hext, hr⟩ := readFields_keyElements stfl o.key.version.1 o.key.version.2 hsecret hpub hmeta
  have hparse := privstructParse_lines stfl.alg (version_le h.major) o.key.version.2 stfl.alg.mnemonic (⟨"PrivateKey:", .base64 (o.ctx.serialize i)⟩ :: ⟨"PublicKey:", .base64 o.pub⟩ :: lines)
  rw [hread] at hparse
  simp only [Reading.finish, hext, Bool.false_eq_true, false_and, if_false, checkData_stfl stfl true hr] at hparse
  unfold fileIndex
  rw [parse_ok h hi hparse hr]

/-- What a step can do. -/
inductive Stepped (lib : Liboqs) (stfl : Stfl) (s : State) : Op → State → Prop
  | loaded (o : Object) : parse lib stfl s.file = .ok o → Stepped lib stfl s .load { s with objects := s.objects ++ [o] }
  | refused : Stepped lib stfl s .load s
  | signed (i : Nat) (o : Object) : s.objects[i]? = some o → o.index < o.ctx.capacity →
    Stepped lib stfl s (.sign i)
      { s with objects := s.objects.set i { o with index := o.index + 1, signing := some o.index } }
  | exhausted (i : Nat) : Stepped lib stfl s (.sign i) s
  | failed (i : Nat) (o : Object) (written : Bool) : s.objects[i]? = some o →
    (written = true → ∃ e, keysToFile o (o.ctx.serialize o.index) = .error e) →
    Stepped lib stfl s (.store i written) { s with objects := s.objects.set i { o with signing := none } }
  | stored (i : Nat) (o : Object) (index : Nat) (file : List Line) : s.objects[i]? = some o → o.signing = some index →
    keysToFile o (o.ctx.serialize o.index) = .ok file →
    Stepped lib stfl s (.store i true) ⟨file, s.objects.set i { o with signing := none }, s.used ++ [index]⟩

theorem fromnamedfile_parse : fromnamedfile lib stfl pubkey file = .ok o → parse lib stfl file = .ok o := by
  fun_cases fromnamedfile <;> rintro ⟨⟩
  assumption

theorem step_stepped {s s' : State} {op : Op} : step lib stfl pubkey s op = some s' → Stepped lib stfl s op s' := by
  fun_cases step <;> rintro ⟨⟩
  case case1 => exact .refused
  case case2 hload => exact .loaded _ (fromnamedfile_parse hload)
  case case5 ho _ hlt => exact .signed _ _ ho hlt
  case case6 => exact .exhausted _
  case case9 ho _ hsigning _ _ hwrite => exact .stored _ _ _ _ ho hsigning hwrite
  case case10 ho _ _ _ _ hwrite => exact .failed _ _ _ ho fun _ => ⟨_, hwrite⟩
  case case11 ho _ _ _ hw => exact .failed _ _ _ ho fun h => absurd h hw

/-- An object that was loaded when the index in the file was at least `base`. -/
structure Held (lib : Liboqs) (stfl : Stfl) (base : Nat) (o : Object) : Prop extends o.WellFormed lib stfl where
  index : base ≤ o.index
  signing : ∀ i, o.signing = some i → o.index = i + 1 ∧ i < o.ctx.capacity ∧ base ≤ i

/-- The file is ahead of every signature, and it is ahead of the last one by one. -/
structure Inv (lib : Liboqs) (stfl : Stfl) (base : Nat) (s : State) : Prop where
  objects : ∀ o ∈ s.objects, Held lib stfl base o
  nodup : s.used.Nodup
  used : ∀ i ∈ s.used, i < fileIndex lib stfl s.file
  base_le : base ≤ fileIndex lib stfl s.file
  last : base < fileIndex lib stfl s.file → fileIndex lib stfl s.file - 1 ∈ s.used

/-- A signature is stored only if the file has not passed its index. -/
def Fresh (lib : Liboqs) (stfl : Stfl) (s : State) : Op → Prop
  | .store i true => ∀ o index, s.objects[i]? = some o → o.signing = some index → fileIndex lib stfl s.file ≤ index
  | _ => True

variable {base : Nat} {s s' : State} {op : Op}

theorem Held.unlock (h : Held lib stfl base o) : Held lib stfl base { o with signing := none } :=
  { h with signing := nofun }

theorem Held.sign (h : Held lib stfl base o) (hlt : o.index < o.ctx.capacity) :
    Held lib stfl base { o with index := o.index + 1, signing := some o.index } := by
  refine { h with index := Nat.le_succ_of_le h.index, signing := ?_ }
  rintro i ⟨⟩
  exact ⟨rfl, hlt, h.index⟩

theorem Inv.set (h : Inv lib stfl base s) (ho : Held lib stfl base o) :
    Inv lib stfl base { s with objects := s.objects.set i o } := by
  refine { h with objects := fun o' ho' => ?_ }
  rcases mem_or_eq_of_mem_set ho' with hmem | rfl
  · exact h.objects o' hmem
  · exact ho

theorem Inv.store_index (h : Inv lib stfl base s) {index : Nat}
    (ho : s.objects[i]? = some o) (hsigning : o.signing = some index)
    (hwrite : keysToFile o (o.ctx.serialize o.index) = .ok file) :
    base ≤ index ∧ fileIndex lib stfl file = index + 1 := by
  have hheld := h.objects o (mem_of_getElem? ho)
  obtain ⟨hindex, hlt, hbase⟩ := hheld.signing index hsigning
  have hle : o.index ≤ o.ctx.capacity := hindex.trans_le hlt
  obtain ⟨file', hwrite', hfile⟩ := keysToFile_index hheld.toWellFormed hle
  cases hwrite.symm.trans hwrite'
  exact ⟨hbase, hfile.trans hindex⟩

theorem Inv.step (h : Inv lib stfl base s) (hs : Stepped lib stfl s op s') (hfresh : Fresh lib stfl s op) :
    Inv lib stfl base s' ∧ fileIndex lib stfl s.file ≤ fileIndex lib stfl s'.file := by
  cases hs with
  | loaded o hparse =>
    obtain ⟨hwf, hnone⟩ := parse_wellFormed hparse
    have hheld : Held lib stfl base o :=
      ⟨hwf, h.base_le.trans_eq (by rw [fileIndex, hparse]), fun i hi => nomatch hnone.symm.trans hi⟩
    refine ⟨{ h with objects := fun o' ho' => ?_ }, le_rfl⟩
    rcases mem_append.mp ho' with hmem | hmem
    · exact h.objects o' hmem
    · rw [mem_singleton.mp hmem]
      exact hheld
  | refused => exact ⟨h, le_rfl⟩
  | signed i o ho hlt => exact ⟨h.set ((h.objects o (mem_of_getElem? ho)).sign hlt), le_rfl⟩
  | exhausted i => exact ⟨h, le_rfl⟩
  | failed i o written ho _ => exact ⟨h.set (h.objects o (mem_of_getElem? ho)).unlock, le_rfl⟩
  | stored i o index file ho hsigning hwrite =>
    obtain ⟨hbase, hfile⟩ := h.store_index ho hsigning hwrite
    have hle : fileIndex lib stfl s.file ≤ index := hfresh o index ho hsigning
    have hlt : ∀ j ∈ s.used, j < index := fun j hj => (h.used j hj).trans_le hle
    refine ⟨⟨(h.set (h.objects o (mem_of_getElem? ho)).unlock).objects, ?_, ?_, ?_, ?_⟩, ?_⟩
    · refine nodup_append.mpr ⟨h.nodup, nodup_singleton index, fun j hj k hk => ?_⟩
      rw [mem_singleton.mp hk]
      exact (hlt j hj).ne
    · intro j hj
      rw [hfile]
      rcases mem_append.mp hj with hmem | hmem
      · exact (hlt j hmem).trans (Nat.lt_succ_self index)
      · rw [mem_singleton.mp hmem]
        exact Nat.lt_succ_self index
    · rw [hfile]
      exact Nat.le_succ_of_le hbase
    · intro _
      simp [hfile]
    · rw [hfile]
      exact Nat.le_succ_of_le hle

/-- A signature whose index the file has passed is either that of the last signature, or it takes the file back. -/
theorem Inv.step_stale (h : Inv lib stfl base s) (hs : Stepped lib stfl s op s') (hstale : ¬Fresh lib stfl s op) :
    ¬(s'.used.Nodup ∧ fileIndex lib stfl s.file ≤ fileIndex lib stfl s'.file) := by
  rintro ⟨hnodup, hle⟩
  cases hs with
  | loaded | refused | signed | exhausted => exact hstale trivial
  | failed i o written ho hfailed =>
    cases written with
    | false => exact hstale trivial
    | true =>
      refine hstale fun o' index ho' hsigning => ?_
      cases ho.symm.trans ho'
      have hheld := h.objects o (mem_of_getElem? ho)
      obtain ⟨hindex, hlt, -⟩ := hheld.signing index hsigning
      obtain ⟨e, hwrite⟩ := hfailed rfl
      obtain ⟨file, hwrite', -⟩ := keysToFile_index (i := o.index) hheld.toWellFormed (hindex.trans_le hlt)
      cases hwrite.symm.trans hwrite'
  | stored i o index file ho hsigning hwrite =>
    obtain ⟨hbase, hfile⟩ := h.store_index ho hsigning hwrite
    rw [hfile] at hle
    refine hstale fun o' index' ho' hsigning' => ?_
    cases ho.symm.trans ho'
    cases hsigning.symm.trans hsigning'
    by_contra hpassed
    have hlast : fileIndex lib stfl s.file - 1 = index := by omega
    have hmem := h.last (by omega)
    rw [hlast] at hmem
    exact (nodup_append.mp hnodup).2.2 index hmem index mem_cons_self rfl

/-- No index is used twice and the index in the file never decreases, from each state of the run to the next one. -/
def Sound (lib : Liboqs) (stfl : Stfl) (pubkey : Public) (s : State) : List Op → Prop
  | [] => s.used.Nodup
  | op :: ops => s.used.Nodup ∧ ∀ s', step lib stfl pubkey s op = some s' →
    fileIndex lib stfl s.file ≤ fileIndex lib stfl s'.file ∧ Sound lib stfl pubkey s' ops

/-- Every signature that is stored is fresh. -/
def AllFresh (lib : Liboqs) (stfl : Stfl) (pubkey : Public) (s : State) : List Op → Prop
  | [] => True
  | op :: ops => ∀ s', step lib stfl pubkey s op = some s' → Fresh lib stfl s op ∧ AllFresh lib stfl pubkey s' ops

theorem Sound.nodup {ops : List Op} (h : Sound lib stfl pubkey s ops) : s.used.Nodup := by
  cases ops with
  | nil => exact h
  | cons op ops => exact h.1

theorem Inv.sound_iff (h : Inv lib stfl base s) (ops : List Op) :
    Sound lib stfl pubkey s ops ↔ AllFresh lib stfl pubkey s ops := by
  induction ops generalizing s with
  | nil => exact iff_of_true h.nodup trivial
  | cons op ops ih =>
    constructor
    · rintro ⟨-, hsound⟩ s' hs'
      obtain ⟨hle, hrest⟩ := hsound s' hs'
      have hfresh : Fresh lib stfl s op := by
        by_contra hstale
        exact h.step_stale (step_stepped hs') hstale ⟨hrest.nodup, hle⟩
      exact ⟨hfresh, (ih (h.step (step_stepped hs') hfresh).1).mp hrest⟩
    · intro hfresh
      refine ⟨h.nodup, fun s' hs' => ?_⟩
      obtain ⟨hop, hrest⟩ := hfresh s' hs'
      obtain ⟨h', hle⟩ := h.step (step_stepped hs') hop
      exact ⟨hle, (ih h').mpr hrest⟩

theorem inv_init (lib : Liboqs) (stfl : Stfl) (file : List Line) : Inv lib stfl (fileIndex lib stfl file) ⟨file, [], []⟩ where
  objects := nofun
  nodup := nodup_nil
  used := nofun
  base_le := le_rfl
  last h := absurd h (Nat.lt_irrefl _)

/-- Indices are used once, and the file only advances, in exactly the runs in which each signature is stored before the file
    passes its index. -/
theorem indices_once_iff (lib : Liboqs) (stfl : Stfl) (pubkey : Public) (file : List Line) (ops : List Op) :
    Sound lib stfl pubkey ⟨file, [], []⟩ ops ↔ AllFresh lib stfl pubkey ⟨file, [], []⟩ ops :=
  (inv_init lib stfl file).sound_iff ops

end

/-- A parameter set of height 10 whose secret key is its index. -/
def height10 : Scheme where
  capacity := 2 ^ 10
  secretLength := 2
  publicLength := 4
  serialize := be16
  deserialize b := some (get16 b)
  deserialize_serialize i hi := by
    have hlt : i < 2 ^ 16 := by omega
    rw [← append_nil (be16 i), get16_be16 hlt]
  length_serialize := length_be16
  secretLength_le := by decide
  publicLength_le := by decide

def library : Liboqs := fun _ _ => some height10

/-- A key for zones whose public key is its oid. -/
def zoneKey : Public := ⟨256, 3, [0, 0, 0, 1]⟩

/-- Its private key file. -/
def keyFile (i : Nat) : List Line :=
  [⟨PRIVATE_KEY_STR, .version 1 3⟩, ⟨ALGORITHM_STR, .algorithm 20 "XMSS"⟩, ⟨"PrivateKey:", .base64 (be16 i)⟩,
    ⟨"PublicKey:", .base64 [0, 0, 0, 1]⟩]

def object (index : Nat) (signing : Option Nat) : Object :=
  ⟨⟨.xmss, false, 1, 3, fun _ => none, fun _ => none⟩, height10, [0, 0, 0, 1], index, signing⟩

theorem privstructParse_keyFile : ∀ {i : Nat}, i ≤ 2 → privstructParse (.fresh .xmss) .xmss (keyFile i) =
    .ok ((object i none).key, keyElements .xmss (be16 i) [0, 0, 0, 1])
  | 0, _ => rfl
  | 1, _ => rfl
  | 2, _ => rfl

theorem parse_keyFile {i : Nat} (hi : i ≤ 2) : parse library .xmss (keyFile i) = .ok (object i none) := by
  have hoid : xmssKeyToOid [0, 0, 0, 1] ≠ 0 := by decide
  have hwf : (object i none).WellFormed library .xmss := ⟨rfl, rfl, le_rfl, hoid, rfl, rfl⟩
  have hcapacity : i ≤ height10.capacity := hi.trans (by decide)
  exact parse_ok hwf hcapacity (privstructParse_keyFile hi) rfl

theorem step_load {objects : List Object} {used : List Nat} :
    step library .xmss zoneKey ⟨keyFile 0, objects, used⟩ .load = some ⟨keyFile 0, objects ++ [object 0 none], used⟩ := by
  have hload : fromnamedfile library .xmss zoneKey (keyFile 0) = .ok (object 0 none) := by
    unfold fromnamedfile
    rw [parse_keyFile (Nat.zero_le 2)]
    exact if_pos rfl
  rw [step, hload]

/-- Both objects are loaded before one of them signs. When the other one signs, it uses the same index; if the first has
    signed twice by then, the file is taken back as well. -/
theorem stale_object_not_sound :
    ¬Sound library .xmss zoneKey ⟨keyFile 0, [], []⟩ [.load, .load, .sign 0, .store 0 true, .sign 1, .store 1 true] ∧
    ¬Sound library .xmss zoneKey ⟨keyFile 0, [], []⟩
      [.load, .load, .sign 0, .store 0 true, .sign 0, .store 0 true, .sign 1, .store 1 true] := by
  refine ⟨fun h => ?_, fun h => ?_⟩
  · have hlast := (((((h.2 _ step_load).2.2 _ step_load).2.2 _ rfl).2.2 _ rfl).2.2 _ rfl).2.2 _ rfl
    have hnodup : [0, 0].Nodup := hlast.2
    exact absurd hnodup (by decide)
  · have hlast := (((((((h.2 _ step_load).2.2 _ step_load).2.2 _ rfl).2.2 _ rfl).2.2 _ rfl).2.2 _ rfl).2.2 _ rfl).2.2 _ rfl
    have hle : fileIndex library .xmss (keyFile 2) ≤ fileIndex library .xmss (keyFile 1) := hlast.1
    simpa using absurd hle (by decide)

end Stateful

end OqsBind.Dst
