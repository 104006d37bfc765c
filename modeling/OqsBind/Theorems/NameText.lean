import OqsBind.Dns.NameText
import OqsBind.Theorems.NameRead

/-! Reading names from text. The state machine of `dns_name_fromtext` has read some labels, and part of the next one; what
    it has written and counted follows from them, so no assertion fails. An origin is put behind the labels. -/

namespace OqsBind.Dns
open Isc List Label UInt8

/-! ### Tables of offsets -/

theorem offsetsFrom_snoc (start : Nat) (ls : List Label) (l : Label) :
    offsetsFrom start (ls ++ [l]) = offsetsFrom start ls ++ [start + (labelsWire (ls ++ [l])).length] := by
  induction ls generalizing start with
  | nil => simp [offsetsFrom]
  | cons m ls ih =>
    rw [cons_append, offsetsFrom, ih, offsetsFrom, cons_append, labelsWire_cons, length_append, Nat.add_assoc]

theorem take_set_succ {α : Type} {xs : List α} {k : Nat} (h : k < xs.length) (a : α) :
    (xs.set k a).take (k + 1) = xs.take k ++ [a] := by
  rw [take_add_one, take_set_of_le (le_refl k), getElem?_set_self h]
  rfl

theorem tolower_length {k : Nat} (h : k ≤ NAME_LABELLEN) : tolower (ofNat k) = ofNat k := by
  have hk : (ofNat k).toNat ≤ 63 := by
    exact (Nat.mod_le ..).trans h
  exact (tolower_eq_small hk).mp (tolower_tolower _)

namespace Ft

/-- The labels `ls` have been written, and `part` of what follows, in lower case if that is asked for. -/
structure Wrote (downcase : Bool) (ls : List Label) (part : Bytes) (s : Ft) : Prop where
  ndata : s.ndata = labelsWire ls ++ part
  nused : s.nused = s.ndata.length
  labels : s.labels = ls.length
  table : s.offsets.length = NAME_MAXLABELS
  offsets : s.offsets.take (ls.length + 1) = offsetsFrom 0 ls
  lower : downcase → ∀ b ∈ s.ndata, tolower b = b

/-- The state machine between two labels. -/
structure Between (downcase : Bool) (nmax : Nat) (ls : List Label) (s : Ft) : Prop extends Wrote downcase ls [] s where
  space : s.nused + s.nrem = nmax
  done : s.done = false

/-- The state machine in a label, of which it has read `bytes`. -/
structure Within (downcase : Bool) (nmax : Nat) (ls : List Label) (bytes : Bytes) (s : Ft) : Prop
    extends Wrote downcase ls (0 :: bytes) s where
  space : s.nused + s.nrem = nmax
  done : s.done = false
  label : s.label = some (labelsWire ls).length
  count : s.count = bytes.length
  count_le : bytes.length ≤ NAME_LABELLEN

/-- The variables hold a name. -/
structure Spells (n : Name) (s : Ft) : Prop where
  ndata : s.ndata = n.ndata
  nused : s.nused = n.length
  labels : s.labels = n.nlabels
  offsets : s.offsets.take n.nlabels = n.offsets

theorem Wrote.take_offsets {downcase : Bool} {ls : List Label} {part : Bytes} {s : Ft} (h : Wrote downcase ls part s) {k : Nat} (hk : k ≤ ls.length + 1) :
    s.offsets.take k = (offsetsFrom 0 ls).take k := by
  rw [← h.offsets, take_take, min_eq_left hk]

variable {nmax : Nat} {ls : List Label} {bytes : Bytes} {s : Ft} {downcase : Bool} {c : UInt8} {tlen : Nat}

/-- What has been read does not depend on the state, nor on the digits of an escape. -/
theorem Within.scratch (h : Within downcase nmax ls bytes s) (state : FtState) (value digits : Nat) :
    Within downcase nmax ls bytes { s with state := state, value := value, digits := digits } :=
  ⟨⟨h.ndata, h.nused, h.labels, h.table, h.offsets, h.lower⟩, h.space, h.done, h.label, h.count, h.count_le⟩

theorem Between.scratch (h : Between downcase nmax ls s) (state : FtState) : Between downcase nmax ls { s with state := state } :=
  ⟨⟨h.ndata, h.nused, h.labels, h.table, h.offsets, h.lower⟩, h.space, h.done⟩

theorem between_new (downcase : Bool) (nmax : Nat) : Between downcase nmax [] (new nmax) where
  ndata := rfl
  nused := rfl
  labels := rfl
  table := by simp [new]
  offsets := by simp [new, offsetsFrom, NAME_MAXLABELS]
  lower := nofun
  space := Nat.zero_add _
  done := rfl

theorem within_opened (h : Between downcase nmax ls s) (hrem : 0 < s.nrem) : Within downcase nmax ls [] s.opened where
  ndata := by simp [opened, put, h.ndata]
  nused := by simp [opened, put, h.nused]
  labels := h.labels
  table := h.table
  offsets := h.offsets
  lower hdown := forall_mem_append.mpr ⟨h.lower hdown, forall_mem_singleton.mpr rfl⟩
  space := by
    have := h.space
    simp only [opened, put]
    omega
  done := h.done
  label := by simp [opened, h.ndata]
  count := rfl
  count_le := Nat.zero_le _

theorem octet_ok (h : Within downcase nmax ls bytes s) (hrem : 0 < s.nrem) (hlt : bytes.length < NAME_LABELLEN) (c : UInt8) :
    ∃ s', s.octet downcase c = .ok s' ∧ s'.state = .ordinary ∧ s'.nrem + 1 = s.nrem ∧
      Within downcase nmax ls (bytes ++ [if downcase then tolower c else c]) s' := by
  have hcount : ¬ s.count ≥ NAME_LABELLEN := by
    rw [h.count]
    omega
  have hspace := h.space
  refine ⟨_, if_neg hcount, rfl, by simp only [put]; omega, ?_⟩
  refine ⟨⟨?_, ?_, h.labels, h.table, h.offsets, ?_⟩, ?_, h.done, h.label, ?_, ?_⟩
  · simp [put, h.ndata]
  · simp [put, h.nused]
  · exact fun hdown => forall_mem_append.mpr ⟨h.lower hdown, forall_mem_singleton.mpr (by rw [if_pos hdown, tolower_tolower])⟩
  · simp only [put]
    omega
  · simp [h.count]
  · rw [length_append]
    exact hlt

/-- A further label has been written. -/
theorem Wrote.next {l : Label} {part : Bytes} {s' : Ft} (h : Wrote downcase ls part s) (hndata : s'.ndata = labelsWire (ls ++ [l]))
    (hnused : s'.nused = s'.ndata.length) (hlabels : s'.labels = s.labels + 1)
    (hoffsets : s'.offsets = s.offsets.set (s.labels + 1) s'.nused) (hlower : downcase → ∀ b ∈ s'.ndata, tolower b = b)
    (hroom : s.labels + 1 < NAME_MAXLABELS) : Wrote downcase (ls ++ [l]) [] s' := by
  have htable := h.table
  have hlength : s.labels + 1 = (ls ++ [l]).length := by rw [h.labels, length_append, length_singleton]
  refine ⟨by rw [hndata, append_nil], hnused, hlabels.trans hlength, by rw [hoffsets, length_set, htable], ?_, hlower⟩
  rw [← hlength, hoffsets, take_set_succ (by omega), h.labels, h.offsets, offsetsFrom_snoc, Nat.zero_add, hnused, hndata]

theorem endLabel_ok (h : Within downcase nmax ls bytes s) (hmax : nmax ≤ NAME_MAXWIRE) (hpos : 0 < bytes.length) :
    ∃ s', s.endLabel = .ok s' ∧ s'.state = s.state ∧ s'.nrem = s.nrem ∧
      Between downcase nmax (ls ++ [⟨bytes, hpos, h.count_le⟩]) s' := by
  have hroom : s.labels + 1 < NAME_MAXLABELS := by
    have hlabels := two_mul_length_le ls
    have hspace := h.space
    rw [h.nused, h.ndata, length_append, length_cons] at hspace
    rw [h.labels]
    unfold NAME_MAXWIRE at hmax
    unfold NAME_MAXLABELS
    omega
  have hndata : s.ndata.set (labelsWire ls).length (ofNat bytes.length) =
      labelsWire (ls ++ [⟨bytes, hpos, h.count_le⟩]) := by
    simp [h.ndata, labelsWire_append, wire]
  have hend : s.endLabel = .ok { s with
      ndata := s.ndata.set (labelsWire ls).length (ofNat s.count)
      labels := s.labels + 1
      offsets := s.offsets.set (s.labels + 1) s.nused } := by
    simp only [endLabel, h.label, if_pos hroom]
  refine ⟨_, hend, rfl, rfl, h.toWrote.next ?_ ?_ rfl rfl ?_ hroom, h.space, h.done⟩
  · simp only [h.count, hndata]
  · simp [h.nused]
  · intro hdown b hb
    rcases mem_or_eq_of_mem_set hb with hb | rfl
    · exact h.lower hdown b hb
    · exact tolower_length (h.count ▸ h.count_le)

/-- After the labels the root has been written, if the name is absolute. -/
theorem Wrote.spells {n : Name} {root : Bytes} {s' : Ft} (h : Wrote downcase ls [] s) (hroot : rootWire n.absolute = root)
    (hn : n.labels = ls) (hndata : s'.ndata = s.ndata ++ root) (hnused : s'.nused = s.nused + root.length)
    (hlabels : s'.labels = s.labels + root.length) (hoffsets : s'.offsets = s.offsets) : Spells n s' := by
  subst hn hroot
  refine ⟨?_, ?_, ?_, ?_⟩
  · rw [hndata, h.ndata, append_nil, Name.ndata]
  · rw [hnused, h.nused, h.ndata, append_nil, Name.length, Name.ndata, length_append]
  · rw [hlabels, h.labels, Name.nlabels]
  · rw [hoffsets, n.offsets_eq_take, h.take_offsets (by unfold Name.nlabels rootWire; split_ifs <;> simp)]

theorem Between.exists_root (h : Between downcase nmax ls s) (hmax : nmax ≤ NAME_MAXWIRE) (hrem : 0 < s.nrem) :
    ∃ n : Name, n.absolute ∧ n.labels = ls ∧ n.length ≤ nmax := by
  have hlen : (labelsWire ls ++ rootWire true).length ≤ nmax := by
    have hspace := h.space
    rw [h.nused, h.ndata, append_nil] at hspace
    rw [length_append, rootWire, if_pos rfl, length_singleton]
    omega
  exact ⟨⟨ls, true, hlen.trans hmax⟩, rfl, rfl, hlen⟩

/-- What the state machine has read. -/
inductive Inv (downcase : Bool) (nmax : Nat) (s : Ft) : Prop
  | init (hstate : s.state = .init) (h : Between downcase nmax [] s)
  | at_ (hstate : s.state = .at_) (h : Between downcase nmax [] s)
  | start {ls : List Label} (hstate : s.state = .start) (h : Between downcase nmax ls s)
  | ordinary {ls : List Label} {bytes : Bytes} (hstate : s.state = .ordinary) (hpos : 0 < bytes.length)
      (h : Within downcase nmax ls bytes s)
  | escape {ls : List Label} {bytes : Bytes} (hstate : s.state = .initialescape ∨ s.state = .escape ∨ s.state = .escdecimal)
      (h : Within downcase nmax ls bytes s)
  | done {n : Name} (hdone : s.done = true) (habs : n.absolute) (hlen : n.length ≤ nmax) (h : Spells n s)

/-- A turn of the loop fails no assertion. -/
def Kept (downcase : Bool) (nmax tlen : Nat) (x : Except TextError Ft) : Prop :=
  Checked (· ≠ .insist) x fun s => Inv downcase nmax s ∧ (s.state = .at_ ∨ s.done → tlen = 0)

section
variable (h : Within downcase nmax ls bytes s)
include h

theorem octet_kept (hrem : 0 < s.nrem) : Kept downcase nmax tlen (s.octet downcase c) := by
  by_cases hlt : bytes.length < NAME_LABELLEN
  · obtain ⟨s', hs', hstate, -, h'⟩ := octet_ok h hrem hlt c
    rw [hs']
    exact ⟨.ordinary hstate (by simp) h', by simp [hstate, h'.done]⟩
  · rw [octet, if_pos (by rw [h.count]; omega)]
    exact nofun

theorem ordinary_kept (hmax : nmax ≤ NAME_MAXWIRE) (hrem : 0 < s.nrem) :
    Kept downcase nmax tlen (s.ordinary downcase c tlen) := by
  refine .ite (fun _ => .ite (fun _ => nofun) fun hcount => ?_) fun _ => .ite (fun _ => ?_) fun _ => octet_kept h hrem
  · obtain ⟨s', hs', -, hrem', h'⟩ := endLabel_ok h hmax (Nat.pos_of_ne_zero (h.count ▸ hcount))
    rw [hs']
    by_cases hlast : tlen = 0
    · obtain ⟨n, habs, hn, hlen⟩ := h'.exists_root hmax (hrem' ▸ hrem)
      simp only [hlast, bind, Except.bind, if_pos]
      exact ⟨.done rfl habs hlen (h'.spells (congrArg rootWire habs) hn rfl rfl rfl rfl), fun _ => trivial⟩
    · simp only [hlast, bind, Except.bind, if_false]
      exact ⟨.start rfl (h'.scratch _), by simp [h'.done]⟩
  · exact ⟨.escape (.inr (.inl rfl)) (h.scratch _ s.value s.digits), by simp [h.done]⟩

theorem escdecimal_kept (hstate : s.state = .escdecimal) (hrem : 0 < s.nrem) :
    Kept downcase nmax tlen (s.escdecimal downcase c) := by
  have h' := h.scratch s.state
  refine .ite (fun _ => nofun) fun _ => .ite (fun _ => .ite (fun _ => nofun) fun _ => ?_) fun _ => ?_
  · exact octet_kept (h' _ _) hrem
  · exact ⟨.escape (.inr (.inr hstate)) (h' _ _), by simp [hstate, h.done]⟩

theorem escape_kept (hrem : 0 < s.nrem) : Kept downcase nmax tlen (s.escape downcase c) :=
  .ite (fun _ => octet_kept h hrem) fun _ => escdecimal_kept (h.scratch .escdecimal 0 0) rfl hrem

end

theorem start_kept (h : Between downcase nmax ls s) (hmax : nmax ≤ NAME_MAXWIRE) (hrem : 0 < s.nrem) :
    Kept downcase nmax tlen (s.start downcase c tlen) := by
  have h' := within_opened h hrem
  refine .ite (fun _ => ?_) fun _ => .ite (fun _ => nofun) fun hroom => ordinary_kept h' hmax (Nat.pos_of_ne_zero hroom)
  exact ⟨.escape (.inl rfl) (h'.scratch _ _ _), by simp [h'.done]⟩

theorem init_kept (h : Between downcase nmax [] s) (hmax : nmax ≤ NAME_MAXWIRE) (hrem : 0 < s.nrem) :
    Kept downcase nmax tlen (s.init downcase c tlen) := by
  refine .ite (fun _ => .ite (fun _ => nofun) fun hlast => ?_) fun _ => .ite (fun hat => ?_) fun _ => start_kept h hmax hrem
  · obtain ⟨n, habs, hn, hlen⟩ := h.exists_root hmax hrem
    exact ⟨.done rfl habs hlen (h.spells (congrArg rootWire habs) hn rfl rfl rfl rfl), fun _ => not_not.mp hlast⟩
  · exact ⟨.at_ rfl (h.scratch _), fun _ => hat.2⟩

theorem step_kept (h : Inv downcase nmax s) (hmax : nmax ≤ NAME_MAXWIRE) (hrem : 0 < s.nrem) (hdone : ¬ s.done)
    (hat : s.state ≠ .at_) : Kept downcase nmax tlen (s.step downcase c tlen) := by
  cases h with
  | init hstate h =>
    simp only [step, hstate]
    exact init_kept h hmax hrem
  | at_ hstate h => exact absurd hstate hat
  | start hstate h =>
    simp only [step, hstate]
    exact start_kept h hmax hrem
  | ordinary hstate hpos h =>
    simp only [step, hstate]
    exact ordinary_kept h hmax hrem
  | escape hstate h =>
    rcases hstate with hstate | hstate | hstate
    · simp only [step, hstate]
      exact .ite (fun _ => nofun) fun _ => escape_kept (h.scratch .escape s.value s.digits) hrem
    · simp only [step, hstate]
      exact escape_kept h hrem
    · simp only [step, hstate]
      exact escdecimal_kept h hstate hrem
  | done hdone' _ _ _ => exact absurd hdone' hdone

/-- The whole loop. It stops before the end of the text only if there is no room left or the name is complete. -/
theorem loop_kept (hmax : nmax ≤ NAME_MAXWIRE) : ∀ {text : Bytes} {s : Ft}, Inv downcase nmax s →
    (s.state = .at_ ∨ s.done → text = []) →
    Checked (· ≠ .insist) (loop downcase text s) fun r => Inv downcase nmax r.2 ∧ (r.2.nrem > 0 ∨ r.2.done → r.1 = [])
  | [], s, h, _ => ⟨h, fun _ => rfl⟩
  | c :: text, s, h, hend => by
    have hdone : ¬ s.done := fun hdone => nomatch hend (.inr hdone)
    refine .ite (fun hgo => ?_) fun hstop => ⟨h, fun hgo => absurd ⟨hgo.resolve_right hdone, hdone⟩ hstop⟩
    have hstep : Kept downcase nmax text.length (s.step downcase c text.length) :=
      step_kept h hmax hgo.1 hdone fun hs => nomatch hend (.inl hs)
    exact hstep.bind fun s' hs' => loop_kept hmax hs'.1 fun hs => eq_nil_of_length_eq_zero (hs'.2 hs)

/-! ### After the loop -/

theorem lastLabel_ok (h : Inv downcase nmax s) (hmax : nmax ≤ NAME_MAXWIRE) (hdone : ¬ s.done)
    (hstate : ¬ (s.state ≠ .ordinary ∧ s.state ≠ .at_)) :
    ∃ s' ls, s.lastLabel = .ok s' ∧ Between downcase nmax ls s' ∧ s'.nrem = s.nrem := by
  cases h with
  | init hs h => simp [hs] at hstate
  | start hs h => simp [hs] at hstate
  | escape hs h => rcases hs with hs | hs | hs <;> simp [hs] at hstate
  | done hdone' _ _ _ => exact absurd hdone' hdone
  | at_ hs h => exact ⟨s, [], by simp [lastLabel, hs], h, rfl⟩
  | ordinary hs hpos h =>
    obtain ⟨s', hs', -, hrem, h'⟩ := endLabel_ok h hmax hpos
    refine ⟨s', _, ?_, h', hrem⟩
    rw [lastLabel, if_pos hs, if_neg (by rw [h.count]; omega), hs']

end Ft

/-- A label as it is copied: in lower case, or as it is. -/
def Label.cased (downcase : Bool) (l : Label) : Label :=
  ⟨l.bytes.map fun c => if downcase then tolower c else c, by simpa using l.length_pos, by simpa using l.length_le⟩

namespace Ft

theorem appendLoop_step (downcase : Bool) {n2 : UInt8} {octets left : Bytes} (hn2 : n2.toNat ≤ NAME_LABELLEN)
    (hoctets : octets.length = n2.toNat) (hroom : left ≠ [] → s.labels + 1 < NAME_MAXLABELS) :
    appendLoop downcase (n2 :: octets ++ left).length (n2 :: octets ++ left) s =
      if left = [] then .ok (s.copied downcase n2 octets)
      else appendLoop downcase left.length left { s.copied downcase n2 octets with
        offsets := s.offsets.set (s.labels + 1) (s.copied downcase n2 octets).nused } := by
  have hleft : (n2 :: octets ++ left).length - (n2.toNat + 1) = left.length := by
    simp [hoctets]
  have htake : (octets ++ left).take n2.toNat = octets := by rw [← hoctets, take_left]
  have hdrop : (octets ++ left).drop n2.toNat = left := by rw [← hoctets, drop_left]
  rw [appendLoop.eq_def, if_neg (by simp)]
  simp only [cons_append] at hleft ⊢
  rw [if_neg (by omega), hleft, htake, hdrop]
  cases left with
  | nil => rfl
  | cons b left =>
    exact if_pos (hroom (by simp))

theorem appendLoop_ok {ms : List Label} : ∀ {ls : List Label} {s : Ft} {n : Name}, Wrote downcase ls [] s →
    n.labels = ls ++ ms.map (cased downcase) →
    ∃ s', appendLoop downcase (labelsWire ms ++ rootWire n.absolute).length (labelsWire ms ++ rootWire n.absolute) s = .ok s' ∧
      Spells n s' := by
  induction ms with
  | nil =>
    intro ls s n h hn
    rw [map_nil, append_nil] at hn
    cases habs : n.absolute with
    | false => exact ⟨s, by rw [appendLoop.eq_def]; exact if_pos rfl, h.spells (congrArg rootWire habs) hn (append_nil _).symm rfl rfl rfl⟩
    | true =>
      refine ⟨s.copied downcase 0 [], ?_, h.spells (congrArg rootWire habs) hn rfl rfl rfl rfl⟩
      have hstep : appendLoop downcase ((0 : UInt8) :: [] ++ []).length (0 :: [] ++ []) s = .ok (s.copied downcase 0 []) :=
        appendLoop_step downcase (Nat.zero_le _) rfl nofun
      exact hstep
  | cons m ms ih =>
    intro ls s n h hn
    have hndata : (s.copied downcase (ofNat m.bytes.length) m.bytes).ndata =
        labelsWire (ls ++ [m.cased downcase]) := by
      simp [copied, h.ndata, cased, wire]
    have hnused : (s.copied downcase (ofNat m.bytes.length) m.bytes).nused =
        (s.copied downcase (ofNat m.bytes.length) m.bytes).ndata.length := by
      simp [copied, h.nused, m.length_octet]
    have hlower : downcase → ∀ b ∈ (s.copied downcase (ofNat m.bytes.length) m.bytes).ndata, tolower b = b := by
      refine fun hdown => forall_mem_append.mpr ⟨h.lower hdown, forall_mem_cons.mpr ⟨tolower_length m.length_le, ?_⟩⟩
      exact forall_mem_map.mpr fun c _ => by rw [if_pos hdown, tolower_tolower]
    have hn' : n.labels = ls ++ [m.cased downcase] ++ ms.map (cased downcase) := by
      simp [hn]
    have hroom : s.labels + 1 < NAME_MAXLABELS := by
      have hwire := two_mul_length_le n.labels
      have hle := n.length_le_maxwire
      rw [n.length_eq] at hle
      have hall := congrArg length hn'
      rw [length_append, length_append, ← h.labels, length_singleton] at hall
      unfold NAME_MAXLABELS
      omega
    have hwrote : Wrote downcase (ls ++ [m.cased downcase]) [] { s.copied downcase (ofNat m.bytes.length) m.bytes with
        offsets := s.offsets.set (s.labels + 1) (s.copied downcase (ofNat m.bytes.length) m.bytes).nused } :=
      h.next hndata hnused rfl rfl hlower hroom
    have hstep := appendLoop_step downcase m.length_octet_le m.length_octet.symm
      fun _ : labelsWire ms ++ rootWire n.absolute ≠ [] => hroom
    rw [labelsWire_cons, append_assoc]
    by_cases hmore : labelsWire ms ++ rootWire n.absolute = []
    · rw [if_pos hmore] at hstep
      -- the table has an entry less, which is not looked at
      obtain ⟨hms, hroot⟩ := append_eq_nil_iff.mp hmore
      have hms : ms = [] := by
        cases ms with
        | nil => rfl
        | cons m ms => exact absurd hms (by simp [wire])
      rw [hms, map_nil, append_nil] at hn'
      have hspells := hwrote.spells hroot hn' (append_nil _).symm rfl rfl rfl
      have hoffsets := (take_set_of_le hspells.labels.ge).symm.trans hspells.offsets
      exact ⟨_, hstep, hspells.ndata, hspells.nused, hspells.labels, hoffsets⟩
    · rw [if_neg hmore] at hstep
      obtain ⟨s', hs', hspells⟩ := ih hwrote hn'
      exact ⟨s', hstep.trans hs', hspells⟩

end Ft

theorem Name.downcase_eq_self {n : Name} (h : ∀ b ∈ n.ndata, tolower b = b) : n.downcase = n := by
  have hlabels : n.downcase.labels = n.labels := by
    refine (map_congr_left fun l hl => ?_).trans (map_id n.labels)
    have hbytes : l.bytes.map tolower = l.bytes := by
      refine (map_congr_left fun b hb => ?_).trans (map_id l.bytes)
      exact h b (mem_append_left _ (mem_flatMap.mpr ⟨l, hl, mem_cons_of_mem _ hb⟩))
    cases l
    simpa using hbytes
  cases n
  simpa [Name.downcase] using hlabels

namespace Ft

theorem Between.length_eq {downcase : Bool} {nmax : Nat} {ls : List Label} {s : Ft} (h : Between downcase nmax ls s) :
    (labelsWire ls).length + s.nrem = nmax := by
  have hspace := h.space
  rwa [h.nused, h.ndata, append_nil] at hspace

theorem append_cases {downcase : Bool} {nmax : Nat} {s : Ft} {n : Name} (h : Between downcase nmax n.labels s)
    (habs : n.absolute = false) (hmax : nmax ≤ NAME_MAXWIRE) (o : Name) :
    (nmax < n.length + o.length ∧ s.append downcase (some o) = .error .nospace) ∨
    ∃ m s', n.concatenate o = some m ∧ n.length + o.length ≤ nmax ∧ m.absolute = o.absolute ∧
      Spells (if downcase then m.downcase else m) s' ∧ s.append downcase (some o) = .ok (s', o.absolute) := by
  have hspace := h.length_eq
  have hndata : n.ndata = labelsWire n.labels := by simp [Name.ndata, rootWire, habs]
  have hlen : n.length = (labelsWire n.labels).length := by rw [Name.length, hndata]
  by_cases hfit : s.nrem < o.length
  · exact .inl ⟨by omega, if_pos hfit⟩
  · have hwire : (labelsWire (n.labels ++ o.labels) ++ rootWire o.absolute).length ≤ NAME_MAXWIRE := by
      have ho := o.length_eq
      simp
      omega
    have hlower : downcase → n.downcase = n := by
      intro hdown
      refine Name.downcase_eq_self fun b hb => h.lower hdown b ?_
      rwa [h.ndata, append_nil, ← hndata]
    obtain ⟨m, hm, hmlabels, hmabs⟩ : ∃ m, n.concatenate o = some m ∧ m.labels = n.labels ++ o.labels ∧
        m.absolute = o.absolute := ⟨_, dif_pos hwire, rfl, rfl⟩
    have hlabels : (if downcase then m.downcase else m).labels = n.labels ++ o.labels.map (cased downcase) := by
      cases downcase with
      | false => simp [hmlabels, show cased false = id from funext fun l => by simp [cased]]
      | true =>
        have hself := congrArg Name.labels (hlower rfl)
        simp only [Name.downcase] at hself
        simp [Name.downcase, cased, hmlabels, hself]
    have habs' : (if downcase then m.downcase else m).absolute = o.absolute := by
      cases downcase <;> exact hmabs
    have hwrote : Wrote downcase n.labels [] { s with nrem := s.nrem - o.length } :=
      ⟨h.ndata, h.nused, h.labels, h.table, h.offsets, h.lower⟩
    obtain ⟨s', hs', hspells⟩ := appendLoop_ok hwrote hlabels
    rw [habs'] at hs'
    refine .inr ⟨m, s', hm, by omega, hmabs, hspells, ?_⟩
    have happend : appendLoop downcase o.length o.ndata { s with nrem := s.nrem - o.length } = .ok s' := hs'
    simp only [append, if_neg hfit, happend, bind, Except.bind]

end Ft

theorem Name.length_downcase (n : Name) : n.downcase.length = n.length := by
  rw [Name.length_eq, Name.length_eq]
  exact congrArg (· + _) (Name.labelsWire_length_map (fun l => by simp) n.labels)

theorem Name.ndata_concatenate {n o m : Name} (h : n.concatenate o = some m) (habs : n.absolute = false) :
    m.ndata = n.ndata ++ o.ndata := by
  rw [Name.concatenate] at h
  split at h
  · cases h
    simp [Name.ndata, rootWire, habs]
  · cases h

/-! ### Calls -/

/-- A reading of the whole text that gave a name. -/
structure Reads (n : Name) (text : Bytes) (r : Fromtext) : Prop where
  ndata : r.ndata = n.ndata
  length : r.length = n.length
  labels : r.labels = n.nlabels
  offsets : r.offsets.take n.nlabels = n.offsets
  absolute : r.absolute = n.absolute
  tused : r.tused = text.length

theorem fromtext_cases (text : Bytes) (options available : Nat) :
    (∃ e, e ≠ .insist ∧ ∀ origin, fromtext text origin options available = .error e) ∨
    (∃ (n : Name) (r : Fromtext), n.absolute ∧ Reads n text r ∧ n.length ≤ min NAME_MAXWIRE available ∧
      ∀ origin, fromtext text origin options available = .ok r) ∨
    ∃ (n : Name) (r : Fromtext), n.absolute = false ∧ Reads n text r ∧ n.length < min NAME_MAXWIRE available ∧
      fromtext text none options available = .ok r ∧
      ∀ o : Name, (min NAME_MAXWIRE available < n.length + o.length ∧
          fromtext text (some o) options available = .error .nospace) ∨
        ∃ (m : Name) (r' : Fromtext), n.concatenate o = some m ∧ n.length + o.length ≤ min NAME_MAXWIRE available ∧
          Reads (if options &&& NAME_DOWNCASE ≠ 0 then m.downcase else m) text r' ∧
          fromtext text (some o) options available = .ok r' := by
  generalize hdown : decide (options &&& NAME_DOWNCASE ≠ 0) = downcase
  have hkept : Checked (· ≠ .insist) (Ft.loop downcase text (Ft.new (min NAME_MAXWIRE available))) _ :=
    Ft.loop_kept (min_le_left NAME_MAXWIRE available) (.init rfl (Ft.between_new downcase _)) (by simp [Ft.new])
  cases hloop : Ft.loop downcase text (Ft.new (min NAME_MAXWIRE available)) with
  | error e =>
    refine .inl ⟨e, hkept.of_error hloop, fun origin => ?_⟩
    simp only [fromtext, hdown, hloop, bind, Except.bind]
  | ok r =>
    obtain ⟨left, s⟩ := r
    obtain ⟨hinv, hleft⟩ := hkept.of_ok hloop
    have hfromtext : ∀ origin, fromtext text origin options available =
        (s.finish downcase origin left.length).map fun r =>
          ⟨r.1.ndata, r.1.nused, r.1.labels, r.1.offsets, r.2, text.length - left.length⟩ := by
      intro origin
      simp only [fromtext, hdown, hloop, bind, Except.bind]
      cases s.finish downcase origin left.length <;> rfl
    simp only [hfromtext]
    by_cases hdone : s.done
    · obtain rfl : left = [] := hleft (.inr hdone)
      cases hinv with
      | done _ habs hlen h =>
        refine .inr (.inl ⟨_, _, habs, ?_, hlen, fun origin => by rw [Ft.finish, if_pos hdone]; rfl⟩)
        exact ⟨h.ndata, h.nused, h.labels, h.offsets, habs.symm, rfl⟩
      | init _ h | at_ _ h | start _ h | ordinary _ _ h | escape _ h => exact absurd h.done (by simp [hdone])
    by_cases hrem : s.nrem = 0
    · exact .inl ⟨.nospace, nofun, fun origin => by rw [Ft.finish, if_neg hdone, if_pos hrem]; rfl⟩
    obtain rfl : left = [] := hleft (.inl (Nat.pos_of_ne_zero hrem))
    by_cases hstate : s.state ≠ .ordinary ∧ s.state ≠ .at_
    · refine .inl ⟨.unexpectedend, nofun, fun origin => ?_⟩
      rw [Ft.finish, if_neg hdone, if_neg hrem, if_pos hstate]
      rfl
    obtain ⟨s', ls, hlast, h, hrem'⟩ := Ft.lastLabel_ok hinv (min_le_left ..) hdone hstate
    have hfinish : ∀ origin, s.finish downcase origin 0 = s'.append downcase origin := by
      intro origin
      rw [Ft.finish, if_neg hdone, if_neg hrem, if_neg hstate, hlast]
      rfl
    have hlen := h.length_eq
    have hshort : (labelsWire ls ++ rootWire false).length < min NAME_MAXWIRE available := by
      rw [rootWire, if_neg Bool.false_ne_true, append_nil, ← hlen, hrem']
      exact Nat.lt_add_of_pos_right (Nat.pos_of_ne_zero hrem)
    refine .inr (.inr ⟨⟨ls, false, hshort.le.trans (min_le_left ..)⟩, _, rfl, ?_, hshort, by rw [length_nil, hfinish]; rfl, ?_⟩)
    · have hspells := h.spells (n := ⟨ls, false, hshort.le.trans (min_le_left ..)⟩) rfl rfl (append_nil _).symm rfl rfl rfl
      exact ⟨hspells.ndata, hspells.nused, hspells.labels, hspells.offsets, rfl, rfl⟩
    · intro o
      rw [length_nil, hfinish]
      rcases Ft.append_cases (n := ⟨ls, false, hshort.le.trans (min_le_left ..)⟩) h rfl (min_le_left ..) o with
        ⟨hlong, happend⟩ | ⟨m, s'', hm, hfit, hmabs, hspells, happend⟩
      · exact .inl ⟨hlong, by rw [happend]; rfl⟩
      · refine .inr ⟨m, _, hm, hfit, ?_, by rw [happend]; rfl⟩
        have hcase : (if options &&& NAME_DOWNCASE ≠ 0 then m.downcase else m) = if downcase then m.downcase else m := by
          simp [← hdown]
        rw [hcase]
        refine ⟨hspells.ndata, hspells.nused, hspells.labels, hspells.offsets, ?_, rfl⟩
        cases downcase <;> exact hmabs.symm

/-- The source, read to its end. -/
def Source.atEnd (source : Source) : Source := ⟨source.used, source.used.length, le_rfl⟩

theorem RawName.fromtext_reads (name : RawName) {source : Source} {origin : Option Name} {options : Nat} {target : Buffer}
    {n : Name} {r : Fromtext} (h : Reads n (source.used.drop source.current) r) (hfit : n.length ≤ target.availablelength)
    (hread : Dns.fromtext (source.used.drop source.current) origin options target.availablelength = .ok r) :
    name.fromtext source origin options target =
      some ⟨.ok (), n.raw name.offsets.isSome, source.atEnd, target.put n.ndata hfit⟩ := by
  have hforward : source.forward r.tused = some source.atEnd := by
    have hend : source.current + r.tused = source.used.length := by
      rw [h.tused, length_drop, Nat.add_sub_cancel' source.current_le]
    simp [Source.forward, Source.atEnd, hend]
  have hadd : target.add r.ndata = some (target.put n.ndata hfit) := by
    rw [h.ndata]
    exact dif_pos hfit
  have hraw : n.raw name.offsets.isSome =
      ⟨r.ndata, r.length, r.labels, r.absolute, name.offsets.map fun _ => r.offsets.take r.labels⟩ := by
    rw [h.ndata, h.length, h.labels, h.absolute, h.offsets]
    cases name.offsets <;> rfl
  simp [fromtext, hread, hforward, hadd, hraw]

theorem RawName.fromtext_error (name : RawName) {source : Source} {origin : Option Name} {options : Nat} {target : Buffer}
    {e : TextError} (he : e ≠ .insist)
    (hread : Dns.fromtext (source.used.drop source.current) origin options target.availablelength = .error e) :
    name.fromtext source origin options target = some ⟨.error e, name.makeEmpty, source, target⟩ := by
  rw [fromtext, hread]
  cases e <;> first | rfl | exact absurd rfl he

/-- Names read from text with an origin: no assertion fails; a text that is an absolute name is read without regard to the
    origin; and one that is a relative name is read as the concatenation with the origin if and only if that fits. -/
theorem RawName.fromtext_origin (name : RawName) (source : Source) (options : Nat) (target : Buffer) :
    (∀ origin, ∃ call, name.fromtext source origin options target = some call) ∧
      ∀ call, name.fromtext source none options target = some call → call.result = .ok () →
        ∃ r : Name, call.name = r.raw name.offsets.isSome ∧
          (r.absolute → ∀ origin, name.fromtext source origin options target = some call) ∧
          (r.absolute = false → ∀ o : Name, ∃ call', name.fromtext source (some o) options target = some call' ∧
            (call'.result = .ok () ↔ r.length + o.length ≤ min NAME_MAXWIRE target.availablelength) ∧
            (call'.result = .ok () → ∃ n, r.concatenate o = some n ∧
              call'.name = (if options &&& NAME_DOWNCASE ≠ 0 then n.downcase else n).raw name.offsets.isSome ∧
              call'.source.current = source.used.length ∧ call'.target.used = target.used ++ call'.name.ndata)) := by
  rcases fromtext_cases (source.used.drop source.current) options target.availablelength with
    ⟨e, he, hread⟩ | ⟨n, r, habs, hr, hlen, hread⟩ | ⟨n, r, habs, hr, hlen, hread, horigin⟩
  · have hcall := fun origin => fromtext_error name he (hread origin)
    refine ⟨fun origin => ⟨_, hcall origin⟩, fun call h hok => ?_⟩
    obtain rfl := Option.some.inj ((hcall none).symm.trans h)
    cases hok
  · have hcall := fun origin => fromtext_reads name hr (hlen.trans (min_le_right ..)) (hread origin)
    refine ⟨fun origin => ⟨_, hcall origin⟩, fun call h _ => ?_⟩
    obtain rfl := Option.some.inj ((hcall none).symm.trans h)
    exact ⟨n, rfl, fun _ => hcall, fun hrel => absurd habs (by simp [hrel])⟩
  · have hcall := fromtext_reads name hr (hlen.le.trans (min_le_right ..)) hread
    have hcalls : ∀ o : Name, ∃ call', name.fromtext source (some o) options target = some call' ∧
        (call'.result = .ok () ↔ n.length + o.length ≤ min NAME_MAXWIRE target.availablelength) ∧
        (call'.result = .ok () → ∃ m, n.concatenate o = some m ∧
          call'.name = (if options &&& NAME_DOWNCASE ≠ 0 then m.downcase else m).raw name.offsets.isSome ∧
          call'.source.current = source.used.length ∧ call'.target.used = target.used ++ call'.name.ndata) := by
      intro o
      rcases horigin o with ⟨hlong, hnospace⟩ | ⟨m, r', hm, hfit, hr', hread'⟩
      · exact ⟨_, fromtext_error name (e := .nospace) nofun hnospace, iff_of_false nofun (by omega), nofun⟩
      · have hlen' : (if options &&& NAME_DOWNCASE ≠ 0 then m.downcase else m).length ≤ target.availablelength := by
          have hcase : (if options &&& NAME_DOWNCASE ≠ 0 then m.downcase else m).length = m.length := by
            split
            · exact m.length_downcase
            · rfl
          rw [hcase, Name.length, Name.ndata_concatenate hm habs, length_append]
          exact hfit.trans (min_le_right ..)
        exact ⟨_, fromtext_reads name hr' hlen' hread', iff_of_true rfl hfit, fun _ => ⟨m, hm, rfl, rfl, rfl⟩⟩
    refine ⟨fun origin => ?_, fun call h _ => ?_⟩
    · cases origin with
      | none => exact ⟨_, hcall⟩
      | some o => exact (hcalls o).imp fun _ h => h.1
    · obtain rfl := Option.some.inj (hcall.symm.trans h)
      exact ⟨n, rfl, fun habs' => absurd habs' (by simp [habs]), fun _ => hcalls⟩

theorem RawName.fromtext_origin_word :
    ∃ call call', RawName.fromtext ⟨[], 0, 0, false, none⟩ ⟨[0x61], 0, by decide⟩ none 0 ⟨[], 255, by decide⟩ = some call ∧
      call.result = .ok () ∧
      RawName.fromtext ⟨[], 0, 0, false, none⟩ ⟨[0x61], 0, by decide⟩ (some (Name.tld 0x62)) 0 ⟨[], 255, by decide⟩ =
        some call' ∧
      call'.result = .ok () ∧ call'.name.ndata = [1, 0x61, 1, 0x62, 0] := by
  obtain ⟨hall, horigin⟩ :=
    RawName.fromtext_origin ⟨[], 0, 0, false, none⟩ ⟨[0x61], 0, by decide⟩ 0 ⟨[], 255, by decide⟩
  obtain ⟨call, hcall⟩ := hall none
  have hread : call.result = .ok () ∧ call.name.ndata = [1, 0x61] ∧ call.name.absolute = false := by
    cases hcall
    exact ⟨rfl, rfl, rfl⟩
  obtain ⟨r, hr, -, hrel⟩ := horigin call hcall hread.1
  have hndata : r.ndata = [1, 0x61] := by
    rw [hr] at hread
    exact hread.2.1
  have habs : r.absolute = false := by
    rw [hr] at hread
    exact hread.2.2
  obtain ⟨call', hcall', hiff, hok⟩ := hrel habs (Name.tld 0x62)
  have hresult := hiff.mpr (by rw [Name.length, hndata]; decide)
  obtain ⟨n, hn, hname, -⟩ := hok hresult
  refine ⟨call, call', hcall, hread.1, hcall', hresult, ?_⟩
  rw [hname]
  exact (Name.ndata_concatenate hn habs).trans (by rw [hndata]; rfl)

end OqsBind.Dns
