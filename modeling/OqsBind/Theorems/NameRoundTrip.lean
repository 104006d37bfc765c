import OqsBind.Theorems.CompressSet
import OqsBind.Theorems.NameChain

/-! Names written with compression are read back. Every entry of the hash set is the start of a chain in the
    message, a suffix is matched only with a chain of the same labels, and so each name that
    `dns_name_towire` writes is itself a chain of its labels. -/

namespace OqsBind.Dns
open Isc Compress List Name

variable {src : Bytes} {s : Bool}

/-! ### Labels up to case -/

/-- The octets as `match_wirename` compares them. -/
def foldCase (sensitive : Bool) (b : Bytes) : Bytes := if sensitive then b else b.map tolower

variable {a b : Bytes}

theorem matchWirename_iff : matchWirename a b s = true ↔ foldCase s a = foldCase s b := by
  unfold matchWirename foldCase
  cases s <;> simp [lowerequal]

theorem foldCase_append (a b : Bytes) : foldCase s (a ++ b) = foldCase s a ++ foldCase s b := by
  unfold foldCase
  cases s <;> simp

theorem foldCase_length (b : Bytes) : (foldCase s b).length = b.length := by
  unfold foldCase
  cases s <;> simp

theorem length_eq_of_foldCase (h : foldCase s a = foldCase s b) : a.length = b.length := by
  rw [← foldCase_length (s := s) a, h, foldCase_length]

theorem octet_eq_of_foldCase {x y : UInt8} (hy : y.toNat ≤ 63)
    (h : foldCase s (x :: a) = foldCase s (y :: b)) : x = y ∧ foldCase s a = foldCase s b := by
  unfold foldCase at h ⊢
  cases s with
  | true => simpa using h
  | false =>
    simp only [Bool.false_eq_true, ↓reduceIte, map_cons, cons.injEq] at h ⊢
    exact ⟨(tolower_eq_small hy).mp h.1, h.2⟩

/-- Two lists of labels that are equal as the compression context compares them. -/
def Same (sensitive : Bool) (ls ms : List Label) : Prop :=
  foldCase sensitive (labelsWire ls) = foldCase sensitive (labelsWire ms)

theorem Same.refl (ls : List Label) : Same s ls ls := rfl

variable {l : Label} {ls ms : List Label}

theorem Same.cons {m : Label} (h : foldCase s l.wire = foldCase s m.wire) (hs : Same s ls ms) :
    Same s (l :: ls) (m :: ms) := by
  unfold Same at hs ⊢
  rw [labelsWire_cons, labelsWire_cons, foldCase_append, foldCase_append, h, hs]

theorem Same.append_left (ks : List Label) (h : Same s ls ms) : Same s (ks ++ ls) (ks ++ ms) := by
  unfold Same at h ⊢
  rw [labelsWire_append, labelsWire_append, foldCase_append, foldCase_append, h]

theorem Same.length_eq (h : Same s ls ms) : (labelsWire ls).length = (labelsWire ms).length :=
  length_eq_of_foldCase h

/-! ### Matching a suffix -/

variable {marker stop : Nat}

theorem Chain.first_label {pos : Nat} (h : Chain src marker pos ls stop) (hat : At src pos b) (hb : foldCase s b = foldCase s l.wire) :
    ∃ l' ls', ls = l' :: ls' ∧ foldCase s l'.wire = foldCase s l.wire ∧ b.length = l'.wire.length ∧
      Chain src marker (pos + b.length) ls' stop := by
  cases b with
  | nil => exact absurd (length_eq_of_foldCase hb) (by simp [Label.wire])
  | cons x b =>
    have hx := (octet_eq_of_foldCase l.length_octet_le hb).1
    have h0 := hat.getElem? (j := 0) (by simp)
    rw [hx] at h0
    obtain ⟨l', ls', hls, hlen, hat', hrest⟩ := h.label_of_length l.length_pos l.length_le h0
    have hwire : l'.wire.length = (x :: b).length := by
      rw [length_eq_of_foldCase hb, Label.wire_length, Label.wire_length, hlen]
    refine ⟨l', ls', hls, ?_, hwire.symm, hwire ▸ hrest⟩
    rw [← hb, ← hat'.take_eq, hwire, hat.take_eq]

theorem Chain.of_copy : ∀ {ms : List Label} {marker pos stop : Nat} {ls : List Label} {b : Bytes},
    Chain src marker pos ls stop → At src pos b → foldCase s b = foldCase s (labelsWire ms ++ [0]) → Same s ls ms
  | [], marker, pos, stop, ls, b, h, hat, hb => by
    cases b with
    | nil => exact absurd (length_eq_of_foldCase hb) (by simp)
    | cons x b =>
      have hx := (octet_eq_of_foldCase (by simp) hb).1
      have h0 := hat.getElem? (j := 0) (by simp)
      rcases h.cases_octet h0 with ⟨-, hnil⟩ | ⟨l, ls', -, hlen, -⟩ | ⟨hge, -⟩
      · rw [hnil]
        exact Same.refl []
      · rw [hx] at hlen
        have := l.length_pos
        exact absurd hlen (by simp; omega)
      · rw [hx] at hge
        exact absurd hge (by simp)
  | m :: ms, marker, pos, stop, ls, b, h, hat, hb => by
    have hlen := length_eq_of_foldCase hb
    have hbt : b = b.take m.wire.length ++ b.drop m.wire.length := (take_append_drop _ _).symm
    have hmin : (b.take m.wire.length).length = m.wire.length := by
      simp [hlen]
    rw [hbt, labelsWire_cons, append_assoc, foldCase_append, foldCase_append (a := m.wire)] at hb
    obtain ⟨h1, h2⟩ := append_inj hb (by rw [foldCase_length, foldCase_length, hmin])
    rw [hbt, at_append_iff] at hat
    obtain ⟨l', ls', rfl, hl', -, hrest⟩ := h.first_label hat.1 h1
    exact Same.cons hl' (Chain.of_copy hrest hat.2 h2)

/-- What the compression context knows about the rest of a suffix: it is the root, or it was found before. -/
def Known (src : Bytes) (s : Bool) (coff : Nat) (ms : List Label) : Prop :=
  (coff = 0 ∧ ms = []) ∨ (coff < 0x4000 ∧ ∃ marker ls stop, Chain src marker coff ls stop ∧ Same s ls ms)

/-- `match_suffix` is sound: where it finds a suffix, the message holds a chain of the same labels. -/
theorem matchSuffix_sound {newCoff oldCoff : Nat}
    (h : matchSuffix src newCoff (labelsWire (l :: ms) ++ [0]) oldCoff s = true)
    (hchain : Chain src marker newCoff ls stop) (hold : Known src s oldCoff ms) : Same s ls (l :: ms) := by
  have hhead : ((labelsWire (l :: ms) ++ [0]).headD 0).toNat + 1 = l.wire.length := by
    simp [labelsWire_cons, Label.wire, l.length_octet]
  have htake : (labelsWire (l :: ms) ++ [0]).take l.wire.length = l.wire := by
    rw [labelsWire_cons, append_assoc, take_left]
  have hdrop : (labelsWire (l :: ms) ++ [0]).drop l.wire.length = labelsWire ms ++ [0] := by
    rw [labelsWire_cons, append_assoc, drop_left]
  unfold matchSuffix at h
  simp only [hhead, htake, hdrop] at h
  split_ifs at h with hlen hwire hnext hroot hptr
  all_goals
    have hat : At src newCoff ((src.drop newCoff).take l.wire.length) := take_prefix _ _
    simp only [Bool.not_eq_true, Bool.not_eq_false'] at hwire
    have hfull : ((src.drop newCoff).take l.wire.length).length = l.wire.length := by
      rw [length_take, length_drop]
      omega
    obtain ⟨l', ls', rfl, hl', -, hrest⟩ := hchain.first_label hat (matchWirename_iff.mp hwire)
    rw [hfull] at hrest
    refine Same.cons hl' ?_
  · -- the label is followed by the suffix found before
    rw [beq_iff_eq] at hnext
    rcases hold with ⟨h0, -⟩ | ⟨-, marker', ks, stop', hks, hsame⟩
    · omega
    · rw [hnext] at hks
      rw [hks.unique hrest]
      exact hsame
  · -- both are followed by the root label
    have hms : ms = [] := by
      cases ms with
      | nil => rfl
      | cons m ms => exact absurd hroot.2.1 (by simp [Label.wire])
    have hb : At src (newCoff + l.wire.length) [0] := by
      refine at_of_take_eq ?_
      have h0 := hroot.2.2.1
      have h1 := hroot.1
      rw [drop_drop] at h0 h1
      cases hd : src.drop (newCoff + l.wire.length) with
      | nil => rw [hd] at h1; exact absurd h1 (by simp)
      | cons x t =>
        rw [hd] at h0
        simp only [headD_cons] at h0
        simp [h0]
    rw [hms]
    exact Chain.of_copy hrest hb rfl
  · -- the label is followed by a pointer to the suffix found before
    have hp : At src (newCoff + l.wire.length) (pointer oldCoff) := by
      refine at_of_take_eq ?_
      have := hptr.2
      rw [drop_drop] at this
      exact this
    have hlt : oldCoff < 0x4000 := by
      rcases hold with ⟨h0, -⟩ | ⟨hlt, -⟩ <;> omega
    have h0 := hp.getElem? (j := 0) (by simp [pointer])
    have hhi := pointer_hi hlt
    rcases hrest.cases_octet h0 with ⟨hz, -⟩ | ⟨k, ks, -, hk, -⟩ | ⟨-, q, stop', hq0, hq, hat', hks⟩
    · have : UInt8.ofNat (0xC0 ||| oldCoff / 256) = 0 := hz
      rw [this] at hhi
      exact absurd hhi (by simp; omega)
    · have hk' : (UInt8.ofNat (0xC0 ||| oldCoff / 256)).toNat = k.bytes.length := hk
      have := k.length_le
      unfold NAME_LABELLEN at this
      omega
    · have hqo : q = oldCoff := pointer_inj hq hlt (by rw [← hat'.take_eq, ← hp.take_eq]; rfl)
      subst hqo
      rcases hold with ⟨h0, -⟩ | ⟨-, marker', ks', stop'', hks', hsame⟩
      · omega
      · rw [hks'.unique hks]
        exact hsame
  · -- the label is followed by a copy of the rest
    simp only [Bool.and_eq_true, decide_eq_true_eq] at h
    refine Chain.of_copy hrest (b := ((src.drop newCoff).drop l.wire.length).take (labelsWire ms ++ [0]).length) ?_
      (matchWirename_iff.mp h.2)
    rw [drop_drop]
    exact take_prefix _ _

/-! ### Writing a name -/

variable {name : Name}

/-- How a call of `dns_name_towire` succeeds: with a pointer to the offset saved before, or with the labels
    that were not found, followed by a pointer to those that were. -/
theorem towire_success {nocompress : Bool} {cctx : Compress} {target : Buffer} {nameCoff : Option Nat} {r : Towire}
    (hr : name.towire nocompress cctx target nameCoff = r) (h : r.result = .success) :
    (∃ coff, nameCoff = some coff ∧ coff < 0x4000 ∧
      r.cctx = cctx ∧ r.target.used = target.used ++ pointer coff ∧ r.nameCoff = nameCoff) ∨
    (∃ found : Match, (found = (cctx.name target.used name).2 ∨ found = ⟨name.length, 0⟩) ∧
      r.cctx = (cctx.name target.used name).1 ∧
      r.target.used =
        target.used ++ (name.ndata.take found.prefixLength ++ if found.coff > 0 then pointer found.coff else []) ∧
      r.nameCoff = nameCoff.map fun old =>
        if found.coff > 0 ∧ found.prefixLength = 0 then found.coff
        else if target.used.length < 0x4000 ∧ found.prefixLength > 1 then target.used.length else old) := by
  unfold towire at hr
  simp only at hr
  split at hr
  · rename_i coff hcoff
    rw [Option.filter_eq_some_iff] at hcoff
    simp only [Bool.and_eq_true, decide_eq_true_eq] at hcoff
    split_ifs at hr with hspace <;> subst hr
    · exact .inl ⟨coff, hcoff.1, hcoff.2.2, rfl, rfl, rfl⟩
    · cases h
  · right
    refine ⟨if (!nocompress && cctx.permitted) = true then (cctx.name target.used name).2 else ⟨name.length, 0⟩, ?_, ?_⟩
    · split_ifs
      · exact .inl rfl
      · exact .inr rfl
    generalize (if (!nocompress && cctx.permitted) = true then (cctx.name target.used name).2
      else ⟨name.length, 0⟩ : Match) = found at hr ⊢
    split_ifs at hr with hspace hcoff <;> subst hr
    any_goals contradiction
    all_goals
      refine ⟨rfl, by simp [Buffer.put, hcoff], ?_⟩
      cases nameCoff <;> grind [Buffer.usedlength]

theorem Chain.of_labels : ∀ {ks : List Label} {pos : Nat},
    At src pos (labelsWire ks) → Chain src marker (pos + (labelsWire ks).length) ls stop →
    Chain src marker pos (ks ++ ls) stop
  | [], _, _, h => h
  | k :: ks, pos, hat, h => by
    rw [labelsWire_cons, at_append_iff] at hat
    refine Chain.label k hat.1 (Chain.of_labels hat.2 ?_)
    rw [labelsWire_cons, length_append, ← Nat.add_assoc] at h
    exact h

/-- When the first `k` labels of a name have been appended to the message and what follows them is a chain of
    the others, each of these labels starts a chain of the rest of the name. -/
theorem Chain.of_name {k : Nat} {tail : Bytes}
    (hbase : Chain (src ++ (labelsWire (name.labels.take k) ++ tail)) src.length (src.length + name.offset k) ls stop)
    (hsame : Same s ls (name.labels.drop k)) {j : Nat} (hj : j ≤ k) :
    ∃ ls', Chain (src ++ (labelsWire (name.labels.take k) ++ tail)) src.length (src.length + name.offset j) ls' stop ∧
      Same s ls' (name.labels.drop j) := by
  have hsplit : name.labels.take k = name.labels.take j ++ (name.labels.take k).drop j := by
    have := take_append_drop j (name.labels.take k)
    rw [take_take, Nat.min_eq_left hj] at this
    exact this.symm
  have hat : At (src ++ (labelsWire (name.labels.take k) ++ tail)) src.length (labelsWire (name.labels.take k)) := by
    simp [At]
  have hoff : name.offset j + (labelsWire ((name.labels.take k).drop j)).length = name.offset k := by
    unfold offset
    conv_rhs => rw [hsplit]
    simp
  refine ⟨(name.labels.take k).drop j ++ ls, ?_, ?_⟩
  · refine Chain.of_labels ?_ (by rw [Nat.add_assoc, hoff]; exact hbase)
    conv at hat => arg 3; rw [hsplit]
    rw [labelsWire_append, at_append_iff] at hat
    exact hat.2
  · have : name.labels.drop j = (name.labels.take k).drop j ++ name.labels.drop k := by
      conv_lhs => rw [← take_append_drop k name.labels]
      rcases Nat.lt_or_ge name.labels.length j with hlt | hge
      · rw [drop_eq_nil_of_le (by simp; omega), drop_eq_nil_of_le (by simp; omega),
          drop_eq_nil_of_le (by omega)]
        rfl
      · rw [drop_append_of_le_length (by simp; omega)]
    rw [this]
    exact hsame.append_left _

/-- What `dns_compress_name` returns about a name: the labels from `l` on occur in the message at `m.coff`. -/
def Matched (src : Bytes) (s : Bool) (name : Name) (l : Nat) (m : Match) : Prop :=
  (l = name.labels.length ∧ m = ⟨name.length, 0⟩) ∨
    (l < name.labels.length ∧ m.prefixLength = name.offset l ∧ 0 < m.coff ∧ m.coff < 0x4000 ∧
      ∃ marker ≤ m.coff, ∃ ls stop, Chain src marker m.coff ls stop ∧ Same s ls (name.labels.drop l))

/-- A name can be read at an offset that has been saved for it. -/
def Placed (src : Bytes) (s : Bool) (pos : Nat) (ms : List Label) : Prop :=
  0 < pos ∧ ∃ marker ≤ pos, ∃ ls stop, Chain src marker pos ls stop ∧ Same s ls ms

theorem Placed.append {pos : Nat} (h : Placed src s pos ms) (ext : Bytes) : Placed (src ++ ext) s pos ms := by
  obtain ⟨hpos, marker, hle, ls, stop, hchain, hsame⟩ := h
  exact ⟨hpos, marker, hle, ls, stop, hchain.append ext, hsame⟩

/-- Every entry of the hash set is the start of a chain in the message. -/
def EntriesWritten (src : Bytes) (c : Compress) : Prop :=
  ∀ e ∈ c.entries, e.coff < 0x4000 ∧ ∃ marker ≤ e.coff, ∃ ls stop, Chain src marker e.coff ls stop

theorem name_matched {c : Compress} (hinv : Inv c) (hsrc : 0 < src.length) (hent : EntriesWritten src c)
    (habs : name.absolute = true) :
    ∃ l ≤ name.labels.length, Added src.length name l c (c.name src name).1 ∧
      Matched src c.flags.case name l (c.name src name).2 := by
  have hlabels : name.nlabels - 1 = name.labels.length := by simp [nlabels, rootWire, habs]
  unfold Compress.name
  rw [hlabels]
  split_ifs with hdis
  · exact ⟨_, le_rfl, Added.refl hinv, .inl ⟨rfl, rfl⟩⟩
  · refine nameLoop_spec hsrc hinv ?_ (.inl ⟨rfl, rfl⟩)
    intro l i m hm hi hu hmatch
    have hl : l < name.labels.length := by
      rcases hm with ⟨hl, -⟩ | ⟨hl, -⟩ <;> omega
    have hdrop : name.labels.drop l = name.labels[l] :: name.labels.drop (l + 1) := drop_eq_getElem_cons hl
    obtain ⟨hlt, marker, hle, ls, stop, hchain⟩ := hent _ (slot_mem_entries hi hu)
    have hknown : Known src c.flags.case m.coff (name.labels.drop (l + 1)) := by
      rcases hm with ⟨hl', rfl⟩ | ⟨-, -, -, hlt', marker', -, ls', stop', hchain', hsame'⟩
      · exact .inl ⟨rfl, drop_eq_nil_of_le (by omega)⟩
      · exact .inr ⟨hlt', marker', ls', stop', hchain', hsame'⟩
    rw [name.drop_offset, habs, hdrop] at hmatch
    have hsame := matchSuffix_sound hmatch hchain hknown
    rw [← hdrop] at hsame
    exact .inr ⟨hl, rfl, Nat.pos_of_ne_zero hu, hlt, marker, hle, ls, stop, hchain, hsame⟩

theorem Name.offset_pos (name : Name) {l : Nat} (hl : 0 < l) (hlt : l < name.labels.length) : 0 < name.offset l := by
  cases hlabels : name.labels with
  | nil =>
    rw [hlabels] at hlt
    exact absurd hlt (Nat.not_lt_zero _)
  | cons k ks =>
    obtain ⟨l, rfl⟩ : ∃ j, l = j + 1 := Nat.exists_eq_succ_of_ne_zero (by omega)
    unfold offset
    rw [hlabels, take_succ_cons, labelsWire_cons, length_append, Label.wire_length]
    omega

theorem written_shape {found : Match} {l : Nat} (habs : name.absolute = true) (hl : l ≤ name.labels.length)
    (hfound : found = ⟨name.length, 0⟩ ∨ Matched src s name l found) :
    ∃ k, l ≤ k ∧ k ≤ name.labels.length ∧ ∃ tail,
      (name.ndata.take found.prefixLength ++ if found.coff > 0 then pointer found.coff else []) =
        labelsWire (name.labels.take k) ++ tail ∧ ∃ ls,
        Chain (src ++ (labelsWire (name.labels.take k) ++ tail)) src.length (src.length + name.offset k) ls
          (src.length + (labelsWire (name.labels.take k) ++ tail).length) ∧
        Same s ls (name.labels.drop k) := by
  have hat : ∀ (k : Nat) (tail : Bytes),
      At (src ++ (labelsWire (name.labels.take k) ++ tail)) (src.length + name.offset k) tail := by
    intro k tail
    have := at_end (src ++ labelsWire (name.labels.take k)) tail []
    rw [append_nil, append_assoc, length_append] at this
    exact this
  have hcases : found = ⟨name.length, 0⟩ ∨ _ := hfound.elim .inl (Or.imp_left And.right)
  rcases hcases with rfl | ⟨hlt, hpre, hpos, hptr, marker, hle, ls, stop, hchain, hsame⟩
  · refine ⟨name.labels.length, hl, le_rfl, [0], ?_, [], ?_, ?_⟩
    · simp [Name.length, Name.ndata, rootWire, habs]
    · have : Chain _ src.length _ _ _ := Chain.root (hat name.labels.length [0])
      rw [length_append]
      exact this
    · simpa using Same.refl []
  · refine ⟨l, le_rfl, hl, pointer found.coff, ?_, ls, ?_, hsame⟩
    · rw [hpre, name.take_offset, if_pos hpos]
    · have : Chain _ src.length _ _ _ := Chain.ptr hpos hptr hchain.lt_length (hat l (pointer found.coff))
        ((hchain.mono hle).append _)
      rw [length_append]
      exact this

/-! ### Rendering a message -/

/-- A name that was written: where it starts and how many octets it took. -/
structure Written where
  start : Nat
  length : Nat
  name : Name
deriving DecidableEq

/-- The state of a message under construction. `coffs` are the offset variables of the callers, and `owner`
    tells for which name a variable has been passed. -/
structure Writer where
  cctx : Compress
  target : Buffer
  coffs : Nat → Nat
  owner : Nat → Option Name
  written : List Written

/-- A fresh context, a message with its header, and offset variables in which nothing is saved. -/
structure Writer.Start (flags : CompressFlags) (w : Writer) : Prop where
  cctx : w.cctx = init flags
  header : 12 ≤ w.target.used.length
  coffs : ∀ v, 0x4000 ≤ w.coffs v
  owner : ∀ v, w.owner v = none
  written : w.written = []

def Writer.wrote (w : Writer) (name : Name) (var : Option Nat) (r : Towire) : Writer where
  cctx := r.cctx
  target := r.target
  coffs := fun v => if var = some v then r.nameCoff.getD (w.coffs v) else w.coffs v
  owner := fun v => if var = some v then some name else w.owner v
  written := ⟨w.target.usedlength, r.target.usedlength - w.target.usedlength, name⟩ :: w.written

/-- One step: a successful `dns_name_towire`, with compression permitted or not, or raw octets. An offset
    variable is passed only for the name it belongs to. -/
inductive Writer.Step : Writer → Writer → Prop
  | towire {w : Writer} {name : Name} (permitted nocompress : Bool) (var : Option Nat) (habs : name.absolute = true)
      (hvar : ∀ v, var = some v → w.owner v = none ∨ w.owner v = some name)
      (hok : (name.towire nocompress (w.cctx.setpermitted permitted) w.target (var.map w.coffs)).result = .success) :
      Step w (w.wrote name var (name.towire nocompress (w.cctx.setpermitted permitted) w.target (var.map w.coffs)))
  | raw {w : Writer} (bytes : Bytes) (h : bytes.length ≤ w.target.availablelength) :
      Step w { w with target := w.target.put bytes h }

/-- The invariant of a message under construction. -/
structure Writer.Good (flags : CompressFlags) (w : Writer) : Prop where
  flags_eq : w.cctx.flags = flags
  inv : Inv w.cctx
  header : 12 ≤ w.target.used.length
  entries : EntriesWritten w.target.used w.cctx
  fresh : ∀ v, w.owner v = none → 0x4000 ≤ w.coffs v
  saved : ∀ v name, w.owner v = some name → w.coffs v < 0x4000 → 0 < w.coffs v ∧
    ∃ marker ≤ w.coffs v, ∃ ls stop, Chain w.target.used marker (w.coffs v) ls stop ∧ Same flags.case ls name.labels
  written : ∀ x ∈ w.written, x.name.absolute = true ∧
    ∃ ls, Chain w.target.used x.start x.start ls (x.start + x.length) ∧ Same flags.case ls x.name.labels

theorem EntriesWritten.append {c : Compress} (h : EntriesWritten src c) (ext : Bytes) : EntriesWritten (src ++ ext) c := by
  intro e he
  obtain ⟨hlt, marker, hle, ls, stop, hchain⟩ := h e he
  exact ⟨hlt, marker, hle, ls, stop, hchain.append ext⟩

namespace Writer.Good
variable {flags : CompressFlags} {w : Writer}

theorem start (h : w.Start flags) : w.Good flags := by
  refine ⟨?_, ?_, h.header, ?_, fun v _ => h.coffs v, ?_, ?_⟩
  · rw [h.cctx]
    rfl
  · rw [h.cctx]
    exact init_inv flags
  · intro e he
    rw [h.cctx, entries_init] at he
    exact absurd he (Multiset.notMem_zero e)
  · intro v name ho
    rw [h.owner] at ho
    cases ho
  · intro x hx
    rw [h.written] at hx
    cases hx

variable {w' : Writer}

theorem grow (h : w.Good flags) (ext : Bytes) (hused : w'.target.used = w.target.used ++ ext)
    (hc : w'.cctx = w.cctx) (hcoffs : w'.coffs = w.coffs) (howner : w'.owner = w.owner)
    (hwritten : w'.written = w.written) : w'.Good flags := by
  refine ⟨hc ▸ h.flags_eq, hc ▸ h.inv, ?_, ?_, ?_, ?_, ?_⟩
  · rw [hused, length_append]
    have := h.header
    omega
  · rw [hused, hc]
    exact h.entries.append ext
  · rw [howner, hcoffs]
    exact h.fresh
  · intro v name ho hlt
    rw [howner] at ho
    rw [hcoffs] at hlt ⊢
    rw [hused]
    exact Placed.append (h.saved v name ho hlt) ext
  · intro x hx
    rw [hwritten] at hx
    obtain ⟨habs, ls, hchain, hsame⟩ := h.written x hx
    rw [hused]
    exact ⟨habs, ls, hchain.append ext, hsame⟩

/-- A call of `dns_name_towire` that appends `ext` keeps the invariant, if the name can be read where `ext`
    starts and if the context and the offset variable refer to readable places. -/
theorem wrote (h : w.Good flags) {name : Name} {var : Option Nat} {r : Towire} {ext : Bytes} {ls : List Label}
    (habs : name.absolute = true) (hvar : ∀ v, var = some v → w.owner v = none ∨ w.owner v = some name)
    (hused : r.target.used = w.target.used ++ ext) (hflags : r.cctx.flags = flags) (hinv : Inv r.cctx)
    (hent : EntriesWritten r.target.used r.cctx)
    (hchain : Chain r.target.used w.target.used.length w.target.used.length ls (w.target.used.length + ext.length))
    (hsame : Same flags.case ls name.labels)
    (hcoff : ∀ v, var = some v → r.nameCoff.getD (w.coffs v) ≠ w.coffs v → r.nameCoff.getD (w.coffs v) < 0x4000 →
      Placed r.target.used flags.case (r.nameCoff.getD (w.coffs v)) name.labels) :
    (w.wrote name var r).Good flags := by
  refine ⟨hflags, hinv, ?_, hent, ?_, ?_, ?_⟩
  · show 12 ≤ r.target.used.length
    rw [hused, length_append]
    have := h.header
    omega
  · intro v ho
    simp only [Writer.wrote] at ho ⊢
    split_ifs at ho ⊢
    exact h.fresh v ho
  · intro v n ho hlt
    simp only [Writer.wrote] at ho hlt ⊢
    split_ifs at ho hlt ⊢ with hv
    · cases ho
      by_cases hold : r.nameCoff.getD (w.coffs v) = w.coffs v
      · -- the value was not changed, so it was saved for this name before
        rw [hold] at hlt ⊢
        rcases hvar v hv with hnone | hsome
        · have := h.fresh v hnone
          omega
        · rw [hused]
          exact Placed.append (h.saved v name hsome hlt) ext
      · exact hcoff v hv hold hlt
    · rw [hused]
      exact Placed.append (h.saved v n ho hlt) ext
  · intro x hx
    rcases mem_cons.mp hx with rfl | hx
    · refine ⟨habs, ls, ?_, hsame⟩
      show Chain r.target.used w.target.used.length w.target.used.length ls
        (w.target.used.length + (r.target.used.length - w.target.used.length))
      rw [show r.target.used.length - w.target.used.length = ext.length by rw [hused, length_append]; omega]
      exact hchain
    · obtain ⟨habs', ks, hks, hs⟩ := h.written x hx
      show _ ∧ ∃ ls, Chain r.target.used _ _ _ _ ∧ _
      rw [hused]
      exact ⟨habs', ks, hks.append ext, hs⟩

theorem step (h : w.Good flags) (hstep : Writer.Step w w') : w'.Good flags := by
  cases hstep with
  | raw bytes hfit => exact h.grow bytes rfl rfl rfl rfl rfl
  | @towire name permitted nocompress var habs hvar hok =>
    have hhead := h.header
    have hinv : Inv (w.cctx.setpermitted permitted) := ⟨h.inv.ordered, h.inv.count, h.inv.room⟩
    have hflags : (w.cctx.setpermitted permitted).flags = flags := h.flags_eq
    rcases towire_success rfl hok with ⟨coff, hco, hlt, hc, hused, hnc⟩ | ⟨found, hfound, hc, hused, hnc⟩
    · -- a pointer to the offset saved for this name
      obtain ⟨v, hv, rfl⟩ : ∃ v, var = some v ∧ w.coffs v = coff := by
        cases var with
        | none => cases hco
        | some v => exact ⟨v, rfl, Option.some.inj hco⟩
      have howner : w.owner v = some name := by
        rcases hvar v hv with hnone | hsome
        · have := h.fresh v hnone
          omega
        · exact hsome
      obtain ⟨hpos, marker, hle, ls, stop, hchain, hsame⟩ := h.saved v name howner hlt
      have hback := hchain.lt_length
      refine h.wrote habs hvar hused (by rw [hc]; exact hflags) (by rw [hc]; exact hinv) ?_ ?_ hsame ?_
      · rw [hused, hc]
        exact h.entries.append _
      · rw [hused]
        refine Chain.ptr hpos hlt hback ?_ ((hchain.mono hle).append _)
        have := at_end w.target.used (pointer (w.coffs v)) []
        simpa using this
      · intro v' hv' hne
        rw [hv] at hv'
        cases hv'
        rw [hnc, hv] at hne
        exact absurd rfl hne
    · -- labels, then a pointer or the root label
      generalize name.towire nocompress (w.cctx.setpermitted permitted) w.target (var.map w.coffs) = r at hc hused hnc ⊢
      obtain ⟨l, hl, hadd, hm⟩ := name_matched hinv (by omega) h.entries habs
      rw [hflags] at hm
      have hfound' : found = ⟨name.length, 0⟩ ∨ Matched w.target.used flags.case name l found := by
        rcases hfound with rfl | h0
        · exact .inr hm
        · exact .inl h0
      -- `k` labels are written out, and the entries that were added lie among them
      obtain ⟨k, hlk, hk, tail, hext, base, hbase, hbs⟩ := written_shape habs hl hfound'
      rw [hext] at hused
      obtain ⟨ls, hchain, hsame⟩ := Chain.of_name hbase hbs (Nat.zero_le k)
      rw [← hused] at hchain
      refine h.wrote habs hvar hused (by rw [hc, hadd.flags]; exact hflags) (by rw [hc]; exact hadd.inv) ?_ hchain hsame ?_
      · intro e he
        rw [hc] at he
        rcases hadd.entries e he with he | ⟨j, hj, hej, hlt⟩
        · rw [hused]
          exact h.entries.append _ e he
        · obtain ⟨ks, hks, -⟩ := Chain.of_name hbase hbs (show j ≤ k by omega)
          rw [← hused, ← hej] at hks
          exact ⟨hlt, w.target.used.length, by omega, ks, _, hks⟩
      · intro v hv hne hlt
        rw [hnc, hv] at hne hlt ⊢
        simp only [Option.map_some, Option.getD_some] at hne hlt ⊢
        split_ifs at hne hlt ⊢ with hzero hhere
        · -- the whole name was found
          rcases hfound' with rfl | ⟨-, rfl⟩ | ⟨hll, hpre, hpos, -, hplaced⟩
          · exact absurd hzero.1 (lt_irrefl _)
          · exact absurd hzero.1 (lt_irrefl _)
          · have hl0 : l = 0 := by
              by_contra hl0
              have := name.offset_pos (Nat.pos_of_ne_zero hl0) hll
              omega
            rw [hused]
            rw [hl0] at hplaced
            exact Placed.append ⟨hpos, hplaced⟩ _
        · exact ⟨by omega, _, le_rfl, ls, _, hchain, hsame⟩
        · exact absurd rfl hne

theorem run (h : w.Good flags) (hrun : Relation.ReflTransGen Writer.Step w w') : w'.Good flags := by
  induction hrun with
  | refl => exact h
  | tail _ hstep ih => exact ih.step hstep

end Writer.Good

/-- Name compression round trip: whatever is written after it, every name of a message is read back where it
    was written. The call consumes what `dns_name_towire` appended and yields an equal name, with the very
    octets of the original under `DNS_COMPRESS_CASE`. -/
theorem towire_fromwire {flags : CompressFlags} {w₀ w : Writer} (hstart : w₀.Start flags)
    (hrun : Relation.ReflTransGen Writer.Step w₀ w) {x : Written} (hx : x ∈ w.written) {dctx : Decompress}
    (hdctx : dctx.getpermitted = true) {available : Nat} (havail : x.name.length ≤ available) :
    ∃ name : Name, name.absolute = true ∧
      fromwire w.target.used x.start dctx available = .ok ⟨name.ndata, name.offsets, x.length⟩ ∧
      name.equal x.name = true ∧ (flags.case = true → name.caseequal x.name = true) := by
  obtain ⟨habs, ls, hchain, hsame⟩ := ((Writer.Good.start hstart).run hrun).written x hx
  have hlen := x.name.length_le_maxwire
  have hroot : x.name.ndata = labelsWire x.name.labels ++ [0] := by simp [Name.ndata, rootWire, habs]
  have hwire : x.name.length = (labelsWire ls).length + 1 := by
    simp [Name.length, hroot, hsame.length_eq]
  refine ⟨⟨ls, true, by simp only [rootWire, NAME_MAXWIRE]; simp; omega⟩, rfl, ?_, ?_, ?_⟩
  · rw [fromwire_of_sequence (hdctx ▸ hchain.sequence) (le_min (show _ ≤ 255 by omega) (by omega)), offsetsFrom_eq]
    simp only [Name.ndata, Name.offsets, Name.nlabels, rootWire, if_true, length_singleton, Nat.zero_add,
      Nat.add_sub_cancel_left]
    rfl
  · rw [Name.equal, Bool.and_eq_true, lowerequal_iff]
    refine ⟨by rw [hwire]; simp [Name.length, Name.ndata, rootWire], ?_⟩
    have hlower : (labelsWire ls).map tolower = (labelsWire x.name.labels).map tolower := by
      unfold Same foldCase at hsame
      split_ifs at hsame
      · rw [hsame]
      · exact hsame
    rw [hroot]
    simp [Name.ndata, rootWire, hlower]
  · intro hcase
    have heq : labelsWire ls = labelsWire x.name.labels := by
      unfold Same foldCase at hsame
      rw [if_pos hcase, if_pos hcase] at hsame
      exact hsame
    rw [Name.caseequal, Bool.and_eq_true, hwire, hroot]
    exact ⟨by simp [Name.length, Name.ndata, rootWire], by simp [Name.ndata, rootWire, heq]⟩

/-- A writer with a header of zeros. -/
def blankWriter : Writer where
  cctx := init ⟨false, false, false⟩
  target := ⟨replicate 12 0, 512, by decide⟩
  coffs := fun _ => 0xFFFF
  owner := fun _ => none
  written := []

/-- The writer after `name` has been written with compression and with offset variable 0. -/
def Writer.next (w : Writer) (name : Name) : Writer :=
  w.wrote name (some 0) (name.towire false (w.cctx.setpermitted true) w.target (some (w.coffs 0)))

/-- The name `a.`, written twice: the second time it is a pointer to the first. -/
theorem towire_fromwire_twice :
    ((blankWriter.next (tld 0x61)).next (tld 0x61)).target.used = replicate 12 0 ++ [1, 0x61, 0, 0xC0, 12] ∧
    ∃ name : Name, name.absolute = true ∧
      fromwire ((blankWriter.next (tld 0x61)).next (tld 0x61)).target.used 15 .always 255 =
        .ok ⟨name.ndata, name.offsets, 2⟩ ∧
      name.equal (tld 0x61) = true ∧ (false = true → name.caseequal (tld 0x61) = true) := by
  have hstart : blankWriter.Start ⟨false, false, false⟩ :=
    ⟨rfl, by decide, fun _ => by simp [blankWriter], fun _ => rfl, rfl⟩
  have h1 : Writer.Step blankWriter (blankWriter.next (tld 0x61)) :=
    .towire true false (some 0) rfl (fun _ _ => .inl rfl) (by decide +kernel)
  have h2 : Writer.Step (blankWriter.next (tld 0x61)) ((blankWriter.next (tld 0x61)).next (tld 0x61)) :=
    .towire true false (some 0) rfl (fun v hv => .inr (by cases hv; rfl)) (by decide +kernel)
  refine ⟨by decide +kernel, ?_⟩
  exact towire_fromwire (x := ⟨15, 2, tld 0x61⟩) hstart (.tail (.single h1) h2)
    (mem_cons.mpr (.inl (by decide +kernel))) rfl (by decide)

end OqsBind.Dns
