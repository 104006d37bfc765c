import OqsBind.Theorems.NameText

/-! Names that are written as text and read again. Each octet of a label is read back from its text, label by label. A
    relative name of the greatest length fills the room that the reader allows itself, and is refused. -/

namespace OqsBind.Dns
open Isc List

/-! ### Texts -/

/-- The text of a label. -/
def Label.text (l : Label) : Bytes := l.bytes.flatMap (octetText false)

/-- The text of some labels, each with a dot behind it. -/
def dottedText (ls : List Label) : Bytes := ls.flatMap fun l => l.text ++ [0x2e]

theorem octetText_length (principal : Bool) (c : UInt8) : (octetText principal c).length ≤ 4 := by
  unfold octetText
  split_ifs <;> simp

theorem flatMap_octetText_length (bytes : Bytes) : (bytes.flatMap (octetText false)).length ≤ 4 * bytes.length := by
  induction bytes with
  | nil => exact le_rfl
  | cons c bytes ih =>
    have hc := octetText_length false c
    rw [flatMap_cons, length_append, length_cons]
    omega

theorem dottedText_length (ls : List Label) : (dottedText ls).length ≤ 4 * (labelsWire ls).length := by
  induction ls with
  | nil => exact le_rfl
  | cons l ls ih =>
    have hl := flatMap_octetText_length l.bytes
    rw [dottedText, flatMap_cons, length_append, length_append, labelsWire_cons, length_append,
      Label.wire_length, length_singleton, Label.text]
    rw [dottedText] at ih
    omega

/-! ### Writing -/

variable {trem : Nat}

theorem totextLabel_ok {bytes : Bytes} {tdata : Bytes} (h : 4 * bytes.length ≤ trem) : totextLabel false bytes trem tdata =
      .ok (trem - (bytes.flatMap (octetText false)).length, tdata ++ bytes.flatMap (octetText false)) := by
  induction bytes generalizing trem tdata with
  | nil => simp [totextLabel]
  | cons c bytes ih =>
    have hc := octetText_length false c
    rw [length_cons] at h
    rw [totextLabel]
    simp only [flatMap_cons, length_append]
    rw [if_neg (by omega), ih (by omega), Nat.sub_sub, append_assoc]

theorem totextLoop_ok {absolute : Bool} {ls : List Label} {tdata : Bytes}
    (h : 4 * (labelsWire ls ++ rootWire absolute).length < trem) :
    totextLoop false (ls.length + (rootWire absolute).length) (labelsWire ls ++ rootWire absolute)
        (labelsWire ls ++ rootWire absolute).length trem tdata =
      .ok ⟨0, trem - (dottedText ls).length, tdata ++ dottedText ls, absolute⟩ := by
  induction ls generalizing trem tdata with
  | nil =>
    cases absolute with
    | false => simp [totextLoop, rootWire, dottedText]
    | true =>
      have htrem : 0 < trem := by omega
      simp [totextLoop, rootWire, dottedText, htrem]
  | cons l ls ih =>
    have hl := flatMap_octetText_length l.bytes
    have hlen : (labelsWire (l :: ls) ++ rootWire absolute).length =
        l.bytes.length + 1 + (labelsWire ls ++ rootWire absolute).length := by
      simp
    have hwire : labelsWire (l :: ls) ++ rootWire absolute =
        UInt8.ofNat l.bytes.length :: (l.bytes ++ (labelsWire ls ++ rootWire absolute)) := by
      simp [Label.wire]
    have hleft : l.bytes.length + 1 + (labelsWire ls ++ rootWire absolute).length - 1 - l.bytes.length =
        (labelsWire ls ++ rootWire absolute).length := by
      omega
    have htext : dottedText (l :: ls) = l.bytes.flatMap (octetText false) ++ [0x2e] ++ dottedText ls := by
      rfl
    have hpos := l.length_pos
    have hmax := l.length_le
    rw [hlen, hwire, length_cons, Nat.add_right_comm, totextLoop, if_pos ⟨by omega, by omega⟩]
    simp only [l.length_octet]
    rw [if_neg (by omega), if_neg (by omega), take_left, drop_left, hleft,
      totextLabel_ok (by omega : 4 * l.bytes.length ≤ trem)]
    simp only [bind, Except.bind]
    rw [if_neg (by omega), ih (by omega), htext]
    simp only [length_append, length_singleton, append_assoc, Nat.sub_sub, Nat.add_assoc]

/-- The text that `dns_name_totext` writes. -/
def Name.text (n : Name) : Bytes :=
  match n.labels, n.absolute with
  | [], false => [0x40]
  | [], true => [0x2e]
  | l :: ls, false => (dottedText (l :: ls)).dropLast
  | l :: ls, true => dottedText (l :: ls)

theorem Name.totextData_eq (n : Name) (h : NAME_FORMATSIZE ≤ trem) : n.totextData 0 trem = .ok n.text := by
  have hlen := n.length_le_maxwire
  have htrem : 1024 ≤ trem := h
  obtain ⟨ls, absolute, hle⟩ := n
  cases ls with
  | nil =>
    have hne : trem ≠ 0 := by omega
    cases absolute <;> simp [totextData, text, nlabels, length, ndata, rootWire, hne]
  | cons l ls =>
    have hwire : 4 * (labelsWire (l :: ls) ++ rootWire absolute).length < trem := by
      change (labelsWire (l :: ls) ++ rootWire absolute).length ≤ 255 at hlen
      omega
    have hloop : totextLoop (0 &&& NAME_PRINCIPAL ≠ 0) (nlabels ⟨l :: ls, absolute, hle⟩) (ndata ⟨l :: ls, absolute, hle⟩)
        (length ⟨l :: ls, absolute, hle⟩) trem [] =
        .ok ⟨0, trem - (dottedText (l :: ls)).length, dottedText (l :: ls), absolute⟩ := totextLoop_ok hwire
    have hlong : length ⟨l :: ls, absolute, hle⟩ ≠ 0 ∧ length ⟨l :: ls, absolute, hle⟩ ≠ 1 := by
      have hpos := l.length_pos
      rw [Name.length_eq, labelsWire_cons, length_append, Label.wire_length]
      omega
    rw [totextData, if_neg (fun hempty => hlong.1 hempty.2), if_neg (fun hroot => hlong.2 hroot.1), hloop]
    cases absolute <;> simp [bind, Except.bind, text, NAME_OMITFINALDOT]

theorem Name.text_length (n : Name) : n.text.length ≤ NAME_FORMATSIZE := by
  have hlen := n.length_le_maxwire
  obtain ⟨ls, absolute, hle⟩ := n
  have hdotted := dottedText_length ls
  have hwire : (labelsWire ls).length ≤ 255 := by
    rw [Name.length_eq] at hlen
    exact (Nat.le_add_right ..).trans hlen
  have hdotted' : (dottedText ls).length ≤ NAME_FORMATSIZE := by
    rw [NAME_FORMATSIZE, NAME_MAXTEXT]
    omega
  cases ls with
  | nil => cases absolute <;> simp [text, NAME_FORMATSIZE]
  | cons l ls =>
    cases absolute with
    | false => exact (length_dropLast .. ▸ Nat.sub_le ..).trans hdotted'
    | true => exact hdotted'

theorem Name.totext_eq (n : Name) {target : Buffer} (h : NAME_FORMATSIZE ≤ target.availablelength) :
    n.totext 0 target = .ok (target.put n.text (n.text_length.trans h)) := by
  have hadd : target.add n.text = some (target.put n.text (n.text_length.trans h)) := dif_pos _
  simp only [totext, n.totextData_eq h, bind, Except.bind, hadd]

/-! ### Reading octets -/

theorem isdigit_iff {c : UInt8} : Ft.isdigit c ↔ 48 ≤ c.toNat ∧ c.toNat ≤ 57 := by
  simp [Ft.isdigit, UInt8.le_iff_toNat_le]

theorem digit_toNat (c k : UInt8) : (0x30 + c / k % 10).toNat = 48 + c.toNat / k.toNat % 10 := by
  simp
  omega

theorem octetText_cases (c : UInt8) :
    (octetText false c = [0x5c, c] ∧ ¬ Ft.isdigit c ∧ c ≠ 0x5b) ∨
    (octetText false c = [c] ∧ c ≠ 0x2e ∧ c ≠ 0x5c ∧ c ≠ 0x40) ∨
    octetText false c = [0x5c, 0x30 + c / 100 % 10, 0x30 + c / 10 % 10, 0x30 + c % 10] := by
  by_cases hspecial : c ∈ [0x40, 0x24] ∨ c ∈ [0x22, 0x28, 0x29, 0x2e, 0x3b, 0x5c]
  · refine .inl ⟨by simp only [octetText]; rw [if_pos (by simpa using hspecial)], ?_⟩
    simp only [mem_cons, not_mem_nil, or_false] at hspecial
    rcases hspecial with (rfl | rfl) | rfl | rfl | rfl | rfl | rfl | rfl <;> decide
  · have hplain : c ≠ 0x2e ∧ c ≠ 0x5c ∧ c ≠ 0x40 := by
      refine ⟨?_, ?_, ?_⟩ <;> rintro rfl <;> exact hspecial (by decide)
    rw [octetText, if_neg (by simpa using hspecial)]
    by_cases hprint : 0x20 < c ∧ c < 0x7f
    · exact .inr (.inl ⟨if_pos hprint, hplain⟩)
    · exact .inr (.inr (if_neg hprint))

namespace Ft

variable {nmax : Nat} {ls : List Label} {bytes : Bytes} {s s' : Ft} {rest : Bytes}

theorem loop_step {downcase : Bool} {c : UInt8} (hrem : 0 < s.nrem) (hdone : s.done = false)
    (hstep : s.step downcase c rest.length = .ok s') : loop downcase (c :: rest) s = loop downcase rest s' := by
  rw [loop, if_pos ⟨hrem, by simp [hdone]⟩, hstep]
  rfl

theorem decimal_run (h : Within false nmax ls bytes s) (hstate : s.state = .escape) (hrem : 0 < s.nrem)
    (hlt : bytes.length < NAME_LABELLEN) {c d1 d2 d3 : UInt8} (h1 : isdigit d1) (h2 : isdigit d2) (h3 : isdigit d3)
    (hvalue : 10 * (10 * (d1.toNat - 0x30) + (d2.toNat - 0x30)) + (d3.toNat - 0x30) = c.toNat) (rest : Bytes) :
    ∃ s', loop false ([d1, d2, d3] ++ rest) s = loop false rest s' ∧ s'.state = .ordinary ∧ s'.nrem + 1 = s.nrem ∧
      Within false nmax ls (bytes ++ [c]) s' := by
  obtain ⟨s', hs', hend⟩ := octet_ok (h.scratch .escdecimal c.toNat 3) hrem hlt c
  refine ⟨s', ?_, hend⟩
  have hfirst : s.step false d1 ([d2, d3] ++ rest).length =
      .ok { s with state := .escdecimal, value := d1.toNat - 0x30, digits := 1 } := by
    simp [step, hstate, escape, escdecimal, h1]
  have hsecond : step false d2 ([d3] ++ rest).length { s with state := .escdecimal, value := d1.toNat - 0x30, digits := 1 } =
      .ok { s with
        state := .escdecimal
        value := 10 * (d1.toNat - 0x30) + (d2.toNat - 0x30)
        digits := 2 } := by
    simp [step, escdecimal, h2]
  have hthird : step false d3 rest.length { s with
      state := .escdecimal
      value := 10 * (d1.toNat - 0x30) + (d2.toNat - 0x30)
      digits := 2 } = .ok s' := by
    have hsmall : ¬ c.toNat > 255 := by
      have := c.toNat_lt
      omega
    simp only [step, escdecimal, h3, hvalue]
    simpa [hsmall] using hs'
  refine (loop_step hrem h.done hfirst).trans ?_
  exact (loop_step (by exact hrem) (by exact h.done) hsecond).trans (loop_step (by exact hrem) (by exact h.done) hthird)

theorem octet_run (h : Within false nmax ls bytes s) (hstate : s.state = .ordinary) (hrem : 0 < s.nrem)
    (hlt : bytes.length < NAME_LABELLEN) (c : UInt8) (rest : Bytes) :
    ∃ s', loop false (octetText false c ++ rest) s = loop false rest s' ∧ s'.state = .ordinary ∧ s'.nrem + 1 = s.nrem ∧
      Within false nmax ls (bytes ++ [c]) s' := by
  have hescape : ∀ text : Bytes, loop false (0x5c :: text) s = loop false text { s with state := .escape } := by
    intro text
    refine loop_step hrem h.done ?_
    simp [step, hstate, ordinary]
  rcases octetText_cases c with ⟨htext, hdigit, -⟩ | ⟨htext, hdot, hslash, -⟩ | htext
  · obtain ⟨s', hs', hstate', hrem', h'⟩ := octet_ok (h.scratch .escape s.value s.digits) hrem hlt c
    refine ⟨s', ?_, hstate', hrem', h'⟩
    rw [htext]
    refine (hescape _).trans (loop_step hrem h.done ?_)
    simp only [step, escape]
    rw [if_pos hdigit, hs']
  · obtain ⟨s', hs', hstate', hrem', h'⟩ := octet_ok h hrem hlt c
    refine ⟨s', ?_, hstate', hrem', h'⟩
    rw [htext]
    refine loop_step hrem h.done ?_
    simp only [step, hstate, ordinary]
    rw [if_neg hdot, if_neg hslash, hs']
  · have h100 := digit_toNat c 100
    have h10 := digit_toNat c 10
    have h1 := digit_toNat c 1
    have hc : c / 1 % 10 = c % 10 := by
      apply UInt8.toNat_inj.mp
      simp
    have hlast := c.toNat_lt
    simp only [UInt8.reduceToNat, Nat.div_one, hc] at h100 h10 h1
    obtain ⟨s', hs', hend⟩ := decimal_run (c := c) (h.scratch .escape s.value s.digits) rfl hrem hlt
      (isdigit_iff.mpr (by omega : 48 ≤ (0x30 + c / 100 % 10).toNat ∧ (0x30 + c / 100 % 10).toNat ≤ 57))
      (isdigit_iff.mpr (by omega : 48 ≤ (0x30 + c / 10 % 10).toNat ∧ (0x30 + c / 10 % 10).toNat ≤ 57))
      (isdigit_iff.mpr (by omega : 48 ≤ (0x30 + c % 10).toNat ∧ (0x30 + c % 10).toNat ≤ 57)) (by omega) rest
    refine ⟨s', ?_, hend⟩
    rw [htext]
    exact (hescape _).trans hs'

theorem octets_run {more : Bytes} : ∀ {bytes : Bytes} {s : Ft}, Within false nmax ls bytes s → s.state = .ordinary →
    more.length ≤ s.nrem → bytes.length + more.length ≤ NAME_LABELLEN →
    ∃ s', loop false (more.flatMap (octetText false) ++ rest) s = loop false rest s' ∧ s'.state = .ordinary ∧
      s'.nrem + more.length = s.nrem ∧ Within false nmax ls (bytes ++ more) s' := by
  induction more with
  | nil =>
    intro bytes s h hstate _ _
    exact ⟨s, rfl, hstate, rfl, by rwa [append_nil]⟩
  | cons c more ih =>
    intro bytes s h hstate hrem hlen
    rw [length_cons] at hrem hlen
    obtain ⟨s1, hs1, hstate1, hrem1, h₁⟩ := octet_run h hstate (by omega) (by omega) c (more.flatMap (octetText false) ++ rest)
    obtain ⟨s2, hs2, hstate2, hrem2, h₂⟩ := ih h₁ hstate1 (by omega) (by rw [length_append, length_singleton]; omega)
    refine ⟨s2, ?_, hstate2, by rw [length_cons]; omega, ?_⟩
    · simp [hs1, hs2]
    · rwa [append_assoc] at h₂

theorem open_run (h : Between false nmax ls s) (hstate : s.state = .init ∨ s.state = .start) (hrem : 2 ≤ s.nrem) (c : UInt8)
    (rest : Bytes) : loop false (octetText false c ++ rest) s = loop false (octetText false c ++ rest) s.opened := by
  have hopen : 0 < s.opened.nrem := by
    simp only [opened, put]
    omega
  have hstart : ∀ {b : UInt8} {tlen : Nat}, b ≠ 0x2e → b ≠ 0x40 → s.step false b tlen = s.start false b tlen := by
    intro b tlen hdot hat
    rcases hstate with hstate | hstate
    · simp [step, hstate, init, hdot, hat]
    · simp [step, hstate]
  -- behind the backslash, the first octet of a label is read like another one if it is no bracket
  have hescape : ∀ (b : UInt8) (text : Bytes), b ≠ 0x5b →
      loop false (0x5c :: b :: text) s = loop false (0x5c :: b :: text) s.opened := by
    intro b text hbracket
    have hs : loop false (0x5c :: b :: text) s = loop false (b :: text) { s.opened with state := .initialescape } := by
      refine loop_step (by omega) h.done ?_
      rw [hstart (by decide) (by decide)]
      simp [start]
    have hs' : loop false (0x5c :: b :: text) s.opened = loop false (b :: text) { s.opened with state := .escape } := by
      refine loop_step hopen h.done ?_
      simp [step, opened, ordinary]
    have hgo : s.opened.nrem > 0 ∧ ¬ s.opened.done := ⟨hopen, by simp [opened, put, h.done]⟩
    rw [hs, hs', loop, loop, if_pos hgo, if_pos hgo]
    simp only [step, initialescape, if_neg hbracket]
  rcases octetText_cases c with ⟨htext, -, hbracket⟩ | ⟨htext, hdot, hslash, hat⟩ | htext
  · rw [htext]
    exact hescape c rest hbracket
  · rw [htext, singleton_append, loop, loop, if_pos ⟨by omega, by simp [h.done]⟩,
      if_pos ⟨hopen, by simp [opened, put, h.done]⟩, hstart hdot hat, start, if_neg hslash, if_neg (by omega)]
    simp [step, opened]
  · rw [htext]
    refine hescape _ _ fun hbracket => ?_
    have h100 := digit_toNat c 100
    rw [hbracket] at h100
    simp only [UInt8.reduceToNat] at h100
    omega

theorem label_run (h : Between false nmax ls s) (hstate : s.state = .init ∨ s.state = .start) (l : Label)
    (hrem : l.wire.length ≤ s.nrem) (rest : Bytes) :
    ∃ s', loop false (l.text ++ rest) s = loop false rest s' ∧ s'.state = .ordinary ∧ s'.nrem + l.wire.length = s.nrem ∧
      Within false nmax ls l.bytes s' := by
  have hpos := l.length_pos
  have hle := l.length_le
  rw [Label.wire_length] at hrem ⊢
  obtain ⟨s', hs', hstate', hrem', h'⟩ : ∃ s', loop false (l.bytes.flatMap (octetText false) ++ rest) s.opened = _ ∧ _ :=
    octets_run (within_opened h (by omega)) rfl (by simp only [opened, put]; omega) (by simpa using hle)
  refine ⟨s', ?_, hstate', by simp only [opened, put] at hrem'; omega, h'⟩
  rw [← hs', Label.text]
  cases hbytes : l.bytes with
  | nil => simp [hbytes] at hpos
  | cons c bytes =>
    simpa using open_run h hstate (by omega) c _

theorem dot_run {l : Label} (h : Within false nmax ls l.bytes s) (hstate : s.state = .ordinary) (hmax : nmax ≤ NAME_MAXWIRE)
    (hrem : 0 < s.nrem) (hrest : rest ≠ []) :
    ∃ s', loop false (0x2e :: rest) s = loop false rest s' ∧ s'.state = .start ∧ s'.nrem = s.nrem ∧
      Between false nmax (ls ++ [l]) s' := by
  obtain ⟨s', hs', -, hrem', h'⟩ := endLabel_ok h hmax l.length_pos
  have hpos := l.length_pos
  refine ⟨{ s' with state := .start }, loop_step hrem h.done ?_, rfl, hrem', h'.scratch _⟩
  simp only [step, hstate, ordinary, if_pos]
  rw [if_neg (by rw [h.count]; omega), hs']
  simp [bind, Except.bind, hrest]

theorem root_run {l : Label} {n : Name} (h : Within false nmax ls l.bytes s) (hstate : s.state = .ordinary)
    (hmax : nmax ≤ NAME_MAXWIRE) (hrem : 0 < s.nrem) (habs : n.absolute) (hn : n.labels = ls ++ [l]) :
    ∃ s', loop false [0x2e] s = .ok ([], s') ∧ s'.done = true ∧ Spells n s' := by
  obtain ⟨s', hs', -, hrem', h'⟩ := endLabel_ok h hmax l.length_pos
  have hpos := l.length_pos
  refine ⟨{ s'.put 0 with labels := s'.labels + 1, done := true, state := .start }, loop_step hrem h.done ?_, rfl,
    h'.spells (congrArg rootWire habs) hn rfl rfl rfl rfl⟩
  simp only [step, hstate, ordinary, if_pos]
  rw [if_neg (by rw [h.count]; omega), hs']
  rfl

theorem dotted_run (hmax : nmax ≤ NAME_MAXWIRE) (hrest : rest ≠ []) {ms : List Label} : ∀ {ls : List Label} {s : Ft},
    Between false nmax ls s → (s.state = .init ∨ s.state = .start) → (labelsWire ms).length < s.nrem →
    ∃ s', loop false (dottedText ms ++ rest) s = loop false rest s' ∧ (s'.state = .init ∨ s'.state = .start) ∧
      s'.nrem + (labelsWire ms).length = s.nrem ∧ Between false nmax (ls ++ ms) s' := by
  induction ms with
  | nil =>
    intro ls s h hstate _
    exact ⟨s, rfl, hstate, rfl, by rwa [append_nil]⟩
  | cons l ms ih =>
    intro ls s h hstate hrem
    rw [labelsWire_cons, length_append] at hrem
    obtain ⟨s1, hs1, hstate1, hrem1, h₁⟩ := label_run h hstate l (by omega) (0x2e :: (dottedText ms ++ rest))
    have hrest' : dottedText ms ++ rest ≠ [] := fun hnil => hrest (append_eq_nil_iff.mp hnil).2
    obtain ⟨s2, hs2, hstate2, hrem2, h₂⟩ := dot_run h₁ hstate1 hmax (by omega) hrest'
    obtain ⟨s3, hs3, hstate3, hrem3, h₃⟩ := ih h₂ (.inr hstate2) (by omega)
    refine ⟨s3, ?_, hstate3, by rw [labelsWire_cons, length_append]; omega, ?_⟩
    · have htext : dottedText (l :: ms) ++ rest = l.text ++ 0x2e :: (dottedText ms ++ rest) := by
        simp [dottedText]
      rw [htext, hs1, hs2, hs3]
    · rwa [append_assoc] at h₃

end Ft

/-! ### Reading what was written -/

theorem Name.text_snoc {n : Name} {ms : List Label} {l : Label} (h : n.labels = ms ++ [l]) :
    n.text = dottedText ms ++ (l.text ++ if n.absolute then [0x2e] else []) := by
  have hdotted : dottedText (ms ++ [l]) = dottedText ms ++ l.text ++ [0x2e] := by simp [dottedText]
  obtain ⟨ls, absolute, hle⟩ := n
  cases ls with
  | nil => simp at h
  | cons m ls =>
    change m :: ls = ms ++ [l] at h
    cases absolute <;> simp [text, h, hdotted]

theorem Label.text_ne_nil (l : Label) : l.text ≠ [] := by
  have hpos := l.length_pos
  rw [Label.text]
  cases hbytes : l.bytes with
  | nil => simp [hbytes] at hpos
  | cons c bytes => rcases octetText_cases c with ⟨htext, -⟩ | ⟨htext, -⟩ | htext <;> simp [htext]

variable {available : Nat}

theorem fromtext_loop {text : Bytes} {s : Ft} (h : NAME_MAXWIRE ≤ available)
    (hloop : Ft.loop false text (Ft.new NAME_MAXWIRE) = .ok ([], s)) :
    fromtext text none 0 available = (s.finish false none 0).map fun r =>
      ⟨r.1.ndata, r.1.nused, r.1.labels, r.1.offsets, r.2, text.length⟩ := by
  have hdown : decide (0 &&& NAME_DOWNCASE ≠ 0) = false := rfl
  simp only [fromtext, hdown, min_eq_left h, hloop, bind, Except.bind, length_nil]
  cases s.finish false none 0 <;> rfl

theorem fromtext_spells {n : Name} {text : Bytes} {s s' : Ft} (h : NAME_MAXWIRE ≤ available)
    (hloop : Ft.loop false text (Ft.new NAME_MAXWIRE) = .ok ([], s)) (hfinish : s.finish false none 0 = .ok (s', n.absolute))
    (hspells : Ft.Spells n s') : ∃ r, Reads n text r ∧ fromtext text none 0 available = .ok r := by
  refine ⟨⟨s'.ndata, s'.nused, s'.labels, s'.offsets, n.absolute, text.length⟩, ?_, ?_⟩
  · exact ⟨hspells.ndata, hspells.nused, hspells.labels, hspells.offsets, rfl, rfl⟩
  · rw [fromtext_loop h hloop, hfinish]
    rfl

/-- The text of a name is read back, unless there is no room left to see that it has come to its end. -/
theorem fromtext_text (n : Name) (h : NAME_MAXWIRE ≤ available) : if n.absolute ∨ n.length < NAME_MAXWIRE then
      ∃ r, Reads n n.text r ∧ fromtext n.text none 0 available = .ok r
    else fromtext n.text none 0 available = .error .nospace := by
  have hnew := Ft.between_new false NAME_MAXWIRE
  rcases eq_nil_or_concat' n.labels with hnil | ⟨ms, l, hlabels⟩
  · cases habs : n.absolute with
    | true =>
      have htext : n.text = [0x2e] := by simp [Name.text, hnil, habs]
      have hspells : Ft.Spells n { (Ft.new NAME_MAXWIRE).put 0 with labels := 1, done := true } :=
        hnew.spells (congrArg rootWire habs) hnil rfl rfl rfl rfl
      simpa [htext] using fromtext_spells h rfl (by rw [habs]; rfl) hspells
    | false =>
      have htext : n.text = [0x40] := by simp [Name.text, hnil, habs]
      have hspells : Ft.Spells n { Ft.new NAME_MAXWIRE with state := .at_ } :=
        (hnew.scratch _).spells (congrArg rootWire habs) hnil (append_nil _).symm rfl rfl rfl
      have hlen : n.length < NAME_MAXWIRE := by simp [Name.length, Name.ndata, hnil, habs, rootWire, NAME_MAXWIRE]
      rw [if_pos (.inr hlen), htext]
      exact fromtext_spells h rfl (by rw [habs]; rfl) hspells
  · have hlen := n.length_eq
    have hle := n.length_le_maxwire
    rw [hlabels, labelsWire_append, length_append, labelsWire_cons, labelsWire_nil, append_nil] at hlen
    have hwire := l.wire_length
    have hpos := l.length_pos
    have hfirst : (Ft.new NAME_MAXWIRE).nrem = 255 := rfl
    have hrest : l.text ++ (if n.absolute then [0x2e] else []) ≠ [] := fun hnil =>
      l.text_ne_nil (append_eq_nil_iff.mp hnil).1
    obtain ⟨s1, hs1, hstate1, hrem1, h₁⟩ := Ft.dotted_run le_rfl hrest hnew (.inl rfl)
      (show (labelsWire ms).length < (Ft.new NAME_MAXWIRE).nrem by omega)
    obtain ⟨s2, hs2, hstate2, hrem2, h₂⟩ := Ft.label_run h₁ hstate1 l (by omega) (if n.absolute then [0x2e] else [])
    have hloop : Ft.loop false n.text (Ft.new NAME_MAXWIRE) = Ft.loop false (if n.absolute then [0x2e] else []) s2 := by
      rw [n.text_snoc hlabels, hs1, hs2]
    cases habs : n.absolute with
    | true =>
      simp only [habs, rootWire, if_pos, length_singleton] at hlen hloop
      obtain ⟨s3, hs3, hdone, hspells⟩ := Ft.root_run h₂ hstate2 le_rfl (by omega) habs (by simpa using hlabels)
      refine fromtext_spells h (hloop.trans hs3) ?_ hspells
      rw [Ft.finish, if_pos hdone, habs]
    | false =>
      simp only [habs, rootWire, Bool.false_eq_true, if_false, length_nil] at hlen hloop
      have hdone : ¬ s2.done := by simp [h₂.done]
      by_cases hfull : n.length < NAME_MAXWIRE
      · obtain ⟨s3, hs3, -, -, h₃⟩ := Ft.endLabel_ok h₂ le_rfl hpos
        have hrem : s2.nrem ≠ 0 := by
          unfold NAME_MAXWIRE at hfull
          omega
        rw [if_pos (.inr hfull)]
        refine fromtext_spells h hloop ?_
          (h₃.spells (congrArg rootWire habs) (by simpa using hlabels) (append_nil _).symm rfl rfl rfl)
        rw [Ft.finish, if_neg hdone, if_neg hrem, if_neg (by simp), if_neg (by simp [hstate2]), Ft.lastLabel, if_pos hstate2,
          if_neg (by rw [h₂.count]; omega), hs3, habs]
        rfl
      · have hrem : s2.nrem = 0 := by
          unfold NAME_MAXWIRE at hfull
          omega
        rw [if_neg (by simp [hfull]), fromtext_loop h hloop, Ft.finish, if_neg hdone, if_pos hrem]
        rfl

theorem fromtext_full (n : Name) (h : NAME_MAXWIRE ≤ available)
    (hfull : ¬(n.absolute ∨ n.length < NAME_MAXWIRE)) : fromtext n.text none 0 available = .error .nospace := by
  have hread := fromtext_text n h
  rwa [if_neg hfull] at hread

/-- The round trip of a name through text, with `DNS_NAME_FORMATSIZE` octets of room for the text and `DNS_NAME_MAXWIRE`
    octets for the name: the name comes back if and only if it is absolute or shorter than the longest name. -/
theorem totext_fromtext (n : Name) (target : Buffer) (name : RawName) (dest : Buffer)
    (htarget : NAME_FORMATSIZE ≤ target.availablelength) (hdest : NAME_MAXWIRE ≤ dest.availablelength) :
    ∃ (text : Bytes) (hfits : text.length ≤ target.availablelength), n.totext 0 target = .ok (target.put text hfits) ∧
      ∃ call, name.fromtext ⟨text, 0, Nat.zero_le _⟩ none 0 dest = some call ∧
        ((call.result = .ok () ∧ call.source.current = text.length ∧ call.name = n.raw name.offsets.isSome) ↔
          (n.absolute ∨ n.length < NAME_MAXWIRE)) := by
  refine ⟨n.text, n.text_length.trans htarget, n.totext_eq htarget, ?_⟩
  by_cases hshort : n.absolute ∨ n.length < NAME_MAXWIRE
  · have hread := fromtext_text n hdest
    rw [if_pos hshort] at hread
    obtain ⟨r, hr, hfromtext⟩ := hread
    have hcall : name.fromtext ⟨n.text, 0, Nat.zero_le _⟩ none 0 dest = some _ :=
      name.fromtext_reads hr (n.length_le.trans hdest) hfromtext
    exact ⟨_, hcall, iff_of_true ⟨rfl, rfl, rfl⟩ hshort⟩
  · have hcall : name.fromtext ⟨n.text, 0, Nat.zero_le _⟩ none 0 dest = some ⟨.error .nospace, name.makeEmpty, _, dest⟩ :=
      name.fromtext_error nofun (fromtext_full n hdest hshort)
    exact ⟨_, hcall, iff_of_false nofun hshort⟩

theorem totext_fromtext_tld :
    ∃ (text : Bytes) (hfits : text.length ≤ 1024),
      (Name.tld 0x61).totext 0 ⟨[], 1024, by decide⟩ = .ok (Buffer.put ⟨[], 1024, by decide⟩ text hfits) ∧
      ∃ call, RawName.fromtext ⟨[], 0, 0, false, none⟩ ⟨text, 0, Nat.zero_le _⟩ none 0 ⟨[], 255, by decide⟩ = some call ∧
        call.result = .ok () ∧ call.source.current = text.length ∧ call.name = (Name.tld 0x61).raw false := by
  obtain ⟨text, hfits, htotext, call, hcall, hiff⟩ := totext_fromtext (Name.tld 0x61) ⟨[], 1024, by decide⟩
    ⟨[], 0, 0, false, none⟩ ⟨[], 255, by decide⟩ (by decide) (by decide)
  exact ⟨text, hfits, htotext, call, hcall, hiff.mpr (.inl rfl)⟩

/-- A label of `k` octets. -/
def labelOf (k : Nat) (hpos : 0 < k) (hle : k ≤ NAME_LABELLEN) : Label := ⟨replicate k 0x61, by simpa, by simpa⟩

/-- A relative name of 255 octets. -/
def longest : Name where
  labels := [labelOf 63 (by decide) (by decide), labelOf 63 (by decide) (by decide), labelOf 63 (by decide) (by decide),
    labelOf 62 (by decide) (by decide)]
  absolute := false
  length_le := by simp [labelOf, rootWire, NAME_MAXWIRE]

/-- The text of a relative name of 255 octets is refused. -/
theorem totext_fromtext_longest :
    (longest.raw true).isvalid ∧ ∃ (text : Bytes) (hfits : text.length ≤ 1024),
      longest.totext 0 ⟨[], 1024, by decide⟩ = .ok (Buffer.put ⟨[], 1024, by decide⟩ text hfits) ∧
      ∃ call, RawName.fromtext ⟨[], 0, 0, false, none⟩ ⟨text, 0, Nat.zero_le _⟩ none 0 ⟨[], 1024, by decide⟩ = some call ∧
        call.result = .error .nospace := by
  have hlen : longest.length = NAME_MAXWIRE := by simp [Name.length_eq, longest, labelOf, rootWire, NAME_MAXWIRE]
  have hfull : ¬(longest.absolute ∨ longest.length < NAME_MAXWIRE) := by
    rw [hlen]
    simp [show longest.absolute = false from rfl]
  have hread := fromtext_full longest (show NAME_MAXWIRE ≤ 1024 by decide) hfull
  have hcall : RawName.fromtext ⟨[], 0, 0, false, none⟩ ⟨longest.text, 0, Nat.zero_le _⟩ none 0 ⟨[], 1024, by decide⟩ =
      some ⟨.error .nospace, RawName.makeEmpty ⟨[], 0, 0, false, none⟩, _, _⟩ := RawName.fromtext_error _ (by simp) hread
  exact ⟨isvalid_raw longest true, longest.text, longest.text_length, longest.totext_eq le_rfl, _, hcall, rfl⟩

end OqsBind.Dns
