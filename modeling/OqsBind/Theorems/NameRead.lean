import OqsBind.Dns.NameRead
import OqsBind.Lib.Checked

/-! Names are read from a message exactly: a sequence of labels from the place where the reading starts, through
    pointers to earlier places, and to a root label inside the message. -/

namespace OqsBind.Dns
open Isc List RawName

variable {src : Bytes}

/-- The octets `b` stand in the message at `pos`. -/
def At (src : Bytes) (pos : Nat) (b : Bytes) : Prop := b <+: src.drop pos

instance (src : Bytes) (pos : Nat) (b : Bytes) : Decidable (At src pos b) := inferInstanceAs (Decidable (b <+: src.drop pos))

variable {pos : Nat} {b : Bytes}

theorem At.append (h : At src pos b) (ext : Bytes) (hne : b ≠ []) : At (src ++ ext) pos b := by
  have hlt : pos ≤ src.length := by
    by_contra hgt
    have hnil : src.drop pos = [] := drop_eq_nil_of_le (by omega)
    rw [At, hnil, prefix_nil] at h
    exact hne h
  rw [At, drop_append_of_le_length hlt]
  exact h.trans (prefix_append _ _)

theorem At.length_le (h : At src pos b) (hne : b ≠ []) : pos + b.length ≤ src.length := by
  have hlen := IsPrefix.length_le h
  rw [length_drop] at hlen
  have : 0 < b.length := length_pos_iff.mpr hne
  omega

theorem At.getElem? {j : Nat} (h : At src pos b) (hj : j < b.length) : src[pos + j]? = some b[j] := by
  obtain ⟨t, ht⟩ := h
  have := congrArg (fun l => l[j]?) ht
  simp only [getElem?_drop] at this
  rw [← this, getElem?_append_left hj, getElem?_eq_getElem hj]

theorem At.head_unique {b b' : UInt8} {t t' : Bytes} (h : At src pos (b :: t)) (h' : At src pos (b' :: t')) : b = b' := by
  have hb := h.getElem? (j := 0) (by simp)
  have hb' := h'.getElem? (j := 0) (by simp)
  exact Option.some.inj (hb.symm.trans hb')

theorem At.take_eq (h : At src pos b) : (src.drop pos).take b.length = b :=
  (prefix_iff_eq_take.mp h).symm

theorem at_of_take_eq (h : (src.drop pos).take b.length = b) : At src pos b :=
  prefix_iff_eq_take.mpr h.symm

theorem at_append_iff {a : Bytes} : At src pos (a ++ b) ↔ At src pos a ∧ At src (pos + a.length) b := by
  constructor
  · rintro ⟨t, ht⟩
    refine ⟨⟨b ++ t, by rw [← ht, append_assoc]⟩, ⟨t, ?_⟩⟩
    rw [← drop_drop, ← ht, append_assoc, drop_left]
  · rintro ⟨⟨t, ht⟩, ⟨u, hu⟩⟩
    refine ⟨u, ?_⟩
    rw [← drop_drop, ← ht, drop_left] at hu
    rw [← ht, ← hu, append_assoc]

theorem at_octet (h : pos < src.length) : At src pos [src[pos]] := by
  rw [At, drop_eq_getElem_cons h, cons_prefix_cons]
  exact ⟨rfl, nil_prefix⟩

theorem at_end (src b : Bytes) (ext : Bytes) : At (src ++ (b ++ ext)) src.length b := by
  simp [At]

theorem getElem_of_getElem? {i : Nat} {b : UInt8} (h : src[i]? = some b) (hi : i < src.length) : src[i] = b := by
  rw [getElem?_eq_getElem hi] at h
  exact Option.some.inj h

variable {marker : Nat}

/-- Moving the cursor over octets that stand in the message appends them to what has been copied. -/
theorem take_snoc (hle : marker ≤ pos) (h : At src pos b) :
    (src.drop marker).take (pos - marker + b.length) = (src.drop marker).take (pos - marker) ++ b := by
  rw [take_add, drop_drop, Nat.add_sub_cancel' hle, h.take_eq]

/-- The place that a pointer names. -/
def place (hi lo : UInt8) : Nat := 256 * (hi.toNat % 64) + lo.toNat

/-- The labels `ls` stand in the message from `pos` on, in the segment that starts at `segment`. A pointer ends a segment,
    and names a place before it where the next one starts. The first segment ends before `stop`. -/
inductive Sequence (src : Bytes) (permitted : Bool) : Nat → Nat → List Label → Nat → Prop
  | root {segment pos : Nat} (h : At src pos [0]) : Sequence src permitted segment pos [] (pos + 1)
  | label {segment pos stop : Nat} {ls : List Label} (l : Label) (h : At src pos l.wire)
      (rest : Sequence src permitted segment (pos + l.wire.length) ls stop) : Sequence src permitted segment pos (l :: ls) stop
  | pointer {segment pos stop : Nat} {ls : List Label} (hi lo : UInt8) (hpermitted : permitted) (hhi : 192 ≤ hi.toNat)
      (h : At src pos [hi, lo]) (hback : place hi lo < segment)
      (rest : Sequence src permitted (place hi lo) (place hi lo) ls stop) : Sequence src permitted segment pos ls (pos + 2)

namespace Sequence
variable {permitted : Bool} {segment pos stop : Nat} {ls : List Label}

theorem lt_length (h : Sequence src permitted segment pos ls stop) : pos < src.length := by
  cases h with
  | root h => exact h.length_le (by simp)
  | label l h rest =>
    have := h.length_le (by simp [Label.wire])
    have := l.wire_length
    omega
  | pointer hi lo hpermitted hhi h hback rest =>
    have := h.length_le (by simp)
    simp at this
    omega

theorem stop_le (h : Sequence src permitted segment pos ls stop) : pos ≤ stop ∧ stop ≤ src.length := by
  induction h with
  | root h => exact ⟨Nat.le_succ _, h.length_le (by simp)⟩
  | label l h rest ih => exact ⟨(Nat.le_add_right ..).trans ih.1, ih.2⟩
  | pointer hi lo hpermitted hhi h hback rest ih => exact ⟨Nat.le_add_right .., h.length_le (by simp)⟩

end Sequence

variable {permitted : Bool} {stop : Nat} {ls : List Label}

theorem Sequence.unique {permitted' : Bool} {segment : Nat} (h : Sequence src permitted segment pos ls stop) :
    ∀ {segment' stop' : Nat} {ls' : List Label}, Sequence src permitted' segment' pos ls' stop' → ls' = ls ∧ stop' = stop := by
  induction h with
  | root h =>
    intro segment' stop' ls' h'
    cases h' with
    | root _ => exact ⟨rfl, rfl⟩
    | label l h' _ =>
      have hoctet := congrArg UInt8.toNat (h.head_unique h')
      exact absurd hoctet.symm l.length_octet_pos.ne'
    | pointer hi lo _ hhi h' _ _ =>
      rw [← h.head_unique h'] at hhi
      exact absurd hhi (by decide)
  | label l h rest ih =>
    intro segment' stop' ls' h'
    cases h' with
    | root h' =>
      have hoctet := congrArg UInt8.toNat (h.head_unique h')
      exact absurd hoctet l.length_octet_pos.ne'
    | label l' h' rest' =>
      have hlen : l'.bytes.length = l.bytes.length := by
        rw [← l'.length_octet, ← l.length_octet, h.head_unique h']
      have hwire : l'.wire = l.wire := by rw [← h'.take_eq, ← h.take_eq, l'.wire_length, l.wire_length, hlen]
      obtain rfl : l' = l := by
        cases l'
        cases l
        simpa [Label.wire] using (cons.inj hwire).2
      obtain ⟨rfl, rfl⟩ := ih rest'
      exact ⟨rfl, rfl⟩
    | pointer hi lo _ hhi h' _ _ =>
      rw [← h.head_unique h'] at hhi
      exact absurd (hhi.trans l.length_octet_le) (by decide)
  | pointer hi lo _ hhi h _ rest ih =>
    intro segment' stop' ls' h'
    cases h' with
    | root h' =>
      rw [h.head_unique h'] at hhi
      exact absurd hhi (by decide)
    | label l h' _ =>
      rw [h.head_unique h'] at hhi
      exact absurd (hhi.trans l.length_octet_le) (by decide)
    | pointer hi' lo' _ _ h' _ rest' =>
      obtain ⟨rfl, rfl⟩ : hi' = hi ∧ lo' = lo := by simpa using (h'.take_eq.symm.trans h.take_eq : [hi', lo'] = [hi, lo])
      exact ⟨(ih rest').1, rfl⟩

/-- The offsets of a list of labels and the root label, from `start` on. -/
def offsetsFrom : Nat → List Label → List Nat
  | start, [] => [start]
  | start, l :: ls => start :: offsetsFrom (start + l.wire.length) ls

@[simp] theorem length_offsetsFrom (start : Nat) (ls : List Label) : (offsetsFrom start ls).length = ls.length + 1 := by
  induction ls generalizing start with
  | nil => rfl
  | cons l ls ih => rw [offsetsFrom, length_cons, ih, length_cons]

theorem getLastD_offsetsFrom (start : Nat) (ls : List Label) (d : Nat) :
    (offsetsFrom start ls).getLastD d = start + (labelsWire ls).length := by
  induction ls generalizing start d with
  | nil => rfl
  | cons l ls ih => rw [offsetsFrom, getLastD_cons, ih, labelsWire_cons, length_append, Nat.add_assoc]

theorem offsetsFrom_eq : ∀ (ls : List Label) (start : Nat),
    offsetsFrom start ls = (range (ls.length + 1)).map fun i => start + (labelsWire (ls.take i)).length
  | [], start => by simp [offsetsFrom]
  | l :: ls, start => by
    rw [offsetsFrom, offsetsFrom_eq ls, length_cons, range_succ_eq_map (n := ls.length + 1)]
    simp only [map_cons, map_map, take_zero, labelsWire_nil, length_nil, Nat.add_zero]
    congr 1
    refine map_congr_left fun i _ => ?_
    simp
    omega

/-- `dns_name_fromwire` reads a sequence to its end. `out` is what the name holds so far: the part already
    copied to `nameBuf`, and the octets from the marker to the cursor that are still to be copied. -/
theorem fromwireLoop_of_sequence {nameMax : Nat} (h : Sequence src permitted marker pos ls stop) :
    ∀ {consumed : Option Nat} {nameLen : Nat} {offsets : List Nat} {nameBuf : Bytes} (out : Bytes), marker ≤ pos →
      out = nameBuf.take (nameLen - (pos - marker)) ++ (src.drop marker).take (pos - marker) →
      pos - marker ≤ nameLen → nameLen + (labelsWire ls).length + 1 ≤ nameMax →
      fromwireLoop src permitted nameMax marker pos consumed nameLen offsets nameBuf =
        .ok ⟨out ++ (labelsWire ls ++ [0]), offsets ++ offsetsFrom nameLen ls, consumed.getD stop⟩ := by
  induction h with
  | @root marker pos h =>
    intro consumed nameLen offsets nameBuf out hle hout hcopy hmax
    have hlt : pos < src.length := h.length_le (by simp)
    have hb : src[pos] = 0 := getElem_of_getElem? (h.getElem? (j := 0) (by simp)) hlt
    rw [fromwireLoop, dif_pos hlt, hb]
    have hsnoc := take_snoc hle h
    rw [if_pos (by simp), if_neg (by simp at hmax ⊢; omega), if_pos (by simp)]
    simp only [labelsWire_nil, nil_append, offsetsFrom, UInt8.toNat_zero, Nat.add_zero]
    rw [show pos + 1 - marker = pos - marker + [(0 : UInt8)].length by simp; omega, hsnoc, hout,
      show nameLen + (0 + 1) - (pos - marker + [(0 : UInt8)].length) = nameLen - (pos - marker) by simp,
      append_assoc]
  | @label marker pos stop ls l h rest ih =>
    intro consumed nameLen offsets nameBuf out hle hout hcopy hmax
    have hwl := l.wire_length
    have hlt : pos < src.length := by
      have := h.length_le (by simp [Label.wire])
      omega
    have hb : src[pos] = UInt8.ofNat l.bytes.length :=
      getElem_of_getElem? (h.getElem? (j := 0) (by simp [Label.wire])) hlt
    have hlen : (labelsWire (l :: ls)).length = l.wire.length + (labelsWire ls).length := by simp
    rw [fromwireLoop, dif_pos hlt, hb, l.length_octet]
    rw [if_pos l.length_le, if_neg (by omega), if_neg (by have := l.length_pos; omega)]
    rw [show pos + 1 + l.bytes.length = pos + l.wire.length by omega,
      show nameLen + (l.bytes.length + 1) = nameLen + l.wire.length by omega]
    have hsnoc := take_snoc hle h
    rw [ih (out ++ l.wire) (by omega) ?_ (by omega) (by omega)]
    · simp [labelsWire_cons, offsetsFrom]
    · rw [show pos + l.wire.length - marker = pos - marker + l.wire.length by omega, hsnoc, hout,
        show nameLen + l.wire.length - (pos - marker + l.wire.length) = nameLen - (pos - marker) by omega,
        append_assoc]
  | @pointer marker pos stop ls hi lo hpermitted hhi h hback rest ih =>
    intro consumed nameLen offsets nameBuf out hle hout hcopy hmax
    have hend : pos + 2 ≤ src.length := h.length_le (by simp)
    have hlt : pos < src.length := by omega
    have hlo : pos + 1 < src.length := by omega
    have hb0 : src[pos] = hi := getElem_of_getElem? (h.getElem? (j := 0) (by simp)) hlt
    have hb1 : src[pos + 1] = lo := getElem_of_getElem? (h.getElem? (j := 1) (by simp)) hlo
    rw [fromwireLoop, dif_pos hlt, hb0, if_neg (by unfold NAME_LABELLEN; omega), if_neg (by omega),
      if_neg (by simpa using hpermitted), dif_pos hlo]
    simp only [place] at hback ih
    simp only [hb1]
    rw [dif_neg (by omega), ← hout]
    rw [ih out le_rfl ?_ (by omega) hmax]
    · simp
    · have hlen : out.length ≤ nameLen := by
        simp [hout]
        omega
      simp [take_of_length_le hlen]

theorem fromwire_of_sequence {start available : Nat} {dctx : Decompress}
    (h : Sequence src dctx.getpermitted start start ls stop) (hmax : (labelsWire ls).length + 1 ≤ min NAME_MAXWIRE available) :
    fromwire src start dctx available = .ok ⟨labelsWire ls ++ [0], offsetsFrom 0 ls, stop - start⟩ := by
  rw [fromwire, fromwireLoop_of_sequence h [] le_rfl (by simp) (by omega) (by omega)]
  simp [Except.map]

theorem exists_label (hlt : pos < src.length) (hpos : 0 < src[pos].toNat) (hle : src[pos].toNat ≤ NAME_LABELLEN)
    (hend : pos + 1 + src[pos].toNat ≤ src.length) :
    ∃ l : Label, l.wire.length = src[pos].toNat + 1 ∧ At src pos l.wire := by
  have hlen : ((src.drop (pos + 1)).take src[pos].toNat).length = src[pos].toNat := by
    simp
    omega
  refine ⟨⟨(src.drop (pos + 1)).take src[pos].toNat, by rwa [hlen], by rwa [hlen]⟩, by rw [Label.wire_length, hlen], ?_⟩
  rw [At, drop_eq_getElem_cons hlt, Label.wire, cons_prefix_cons]
  refine ⟨?_, take_prefix ..⟩
  simp [hlen]

theorem fromwireLoop_sequence {nameMax cursor : Nat} {consumed : Option Nat} {nameLen : Nat}
    {offsets : List Nat} {nameBuf : Bytes} {r : Fromwire}
    (h : fromwireLoop src permitted nameMax marker cursor consumed nameLen offsets nameBuf = .ok r) :
    ∃ ls stop, Sequence src permitted marker cursor ls stop ∧ nameLen + (labelsWire ls).length + 1 ≤ nameMax := by
  fun_induction fromwireLoop src permitted nameMax marker cursor consumed nameLen offsets nameBuf <;> try cases h
  case case2 marker cursor _ nameLen _ _ hlt labelLen _ _ _ _ hmax hzero _ =>
    refine ⟨[], _, .root ?_, ?_⟩
    · have hb : src[cursor] = 0 := UInt8.toNat_inj.mp hzero
      exact hb ▸ at_octet hlt
    · simp
      omega
  case case3 marker cursor _ nameLen _ _ hlt labelLen hle _ cursor' _ _ hzero ih =>
    obtain ⟨ls, stop, hseq, hlen⟩ := ih h
    obtain ⟨l, hl, hat⟩ := exists_label hlt (Nat.pos_of_ne_zero hzero) hle hseq.lt_length.le
    have hcursor : cursor' = cursor + l.wire.length := by
      omega
    refine ⟨l :: ls, stop, .label l hat (hcursor ▸ hseq), ?_⟩
    rw [labelsWire_cons, length_append]
    omega
  case case7 marker cursor _ nameLen _ _ hlt labelLen hle hhi hpermitted hlo pointer hback _ ih =>
    obtain ⟨ls, stop, hseq, hlen⟩ := ih h
    have hat : At src cursor [src[cursor], src[cursor + 1]] := at_append_iff.mpr ⟨at_octet hlt, at_octet hlo⟩
    exact ⟨ls, _, .pointer src[cursor] src[cursor + 1] (by simpa using hpermitted) (Nat.le_of_not_lt hhi) hat
      (Nat.lt_of_not_le hback) hseq, hlen⟩

theorem fromwire_sequence {start available : Nat} {dctx : Decompress} {r : Fromwire}
    (h : fromwire src start dctx available = .ok r) :
    ∃ ls stop, Sequence src dctx.getpermitted start start ls stop ∧
      (labelsWire ls).length + 1 ≤ min NAME_MAXWIRE available := by
  obtain ⟨r', hr', -⟩ := map_ok h
  obtain ⟨ls, stop, hseq, hlen⟩ := fromwireLoop_sequence hr'
  exact ⟨ls, stop, hseq, by omega⟩

theorem isvalidLoop_step {offsets : Option (List Nat)} {length offset nlabels : Nat} {count : UInt8} {ndata : Bytes}
    {entries : List Nat} (hcount : count.toNat ≤ NAME_LABELLEN) (hend : offset + (count.toNat + 1) ≤ length)
    (hoff : ∀ os ∈ offsets, os.drop nlabels = offset :: entries) :
    isvalidLoop offsets length (count :: ndata) offset nlabels =
      if count.toNat = 0 then some (offset + (count.toNat + 1), nlabels + 1)
      else isvalidLoop offsets length (ndata.drop count.toNat) (offset + (count.toNat + 1)) (nlabels + 1) := by
  have hentry : offsets.any (fun os => os[nlabels]? ≠ some offset) = false := by
    cases offsets with
    | none => rfl
    | some os => simp [← head?_drop, hoff os rfl]
  rw [isvalidLoop.eq_def]
  simp only [hentry]
  rw [if_neg (by omega), if_neg (by omega), if_neg Bool.false_ne_true, if_neg (by omega)]

theorem isvalidLoop_labels {offsets : Option (List Nat)} {absolute : Bool} {length : Nat}
    {offset nlabels : Nat} (hlen : offset + (labelsWire ls ++ rootWire absolute).length = length)
    (hoff : ∀ os ∈ offsets, os.drop nlabels = (offsetsFrom offset ls).take (ls.length + (rootWire absolute).length)) :
    isvalidLoop offsets length (labelsWire ls ++ rootWire absolute) offset nlabels =
      some (length, nlabels + (ls.length + (rootWire absolute).length)) := by
  induction ls generalizing offset nlabels with
  | nil =>
    cases absolute with
    | false =>
      rw [isvalidLoop.eq_def]
      simpa [rootWire] using hlen
    | true =>
      have hlen' : offset + 1 = length := hlen
      have hstep : isvalidLoop offsets length [0] offset nlabels = _ := isvalidLoop_step (by decide) hlen'.le hoff
      simpa [rootWire, hlen'] using hstep
  | cons l ls ih =>
    rw [labelsWire_cons, append_assoc, length_append, l.wire_length] at hlen
    have hcount : (l :: ls).length + (rootWire absolute).length = ls.length + (rootWire absolute).length + 1 := by
      rw [length_cons, Nat.add_right_comm]
    rw [hcount] at hoff ⊢
    have hrest : (l.bytes ++ (labelsWire ls ++ rootWire absolute)).drop l.bytes.length = labelsWire ls ++ rootWire absolute :=
      drop_left
    rw [labelsWire_cons, Label.wire, cons_append, cons_append, append_assoc,
      isvalidLoop_step l.length_octet_le (by rw [l.length_octet]; omega) hoff, if_neg l.length_octet_pos.ne',
      l.length_octet, hrest, ih (by omega) ?_]
    · simp only [Nat.add_assoc, Nat.add_comm 1]
    · intro os hos
      rw [← drop_drop, hoff os hos]
      rfl

theorem Name.offsets_eq_take (n : Name) : n.offsets = (offsetsFrom 0 n.labels).take n.nlabels := by
  have hle : n.nlabels ≤ n.labels.length + 1 := by
    rw [Name.nlabels]
    cases n.absolute <;> simp [rootWire]
  rw [offsetsFrom_eq, ← map_take, take_range, min_eq_left hle, Name.offsets]
  simp [Name.offset]

theorem offsets_eq {n : Name} (h : n.absolute) : n.offsets = offsetsFrom 0 n.labels := by
  simp [n.offsets_eq_take, Name.nlabels, rootWire, h]

theorem RawName.isvalid_iff {name : RawName} :
    name.isvalid ↔ name.length ≤ NAME_MAXWIRE ∧ name.labels ≤ NAME_MAXLABELS ∧
      isvalidLoop name.offsets name.length name.ndata 0 0 = some (name.length, name.labels) := by
  rw [isvalid]
  split
  · simp
    omega
  · rename_i hshort
    rw [not_or, not_lt, not_lt] at hshort
    simp only [hshort, true_and]
    split
    · rename_i hloop
      simp [hloop]
    · rename_i hloop
      simp [hloop, and_comm]

theorem isvalid_raw (n : Name) (offsets : Bool) : (n.raw offsets).isvalid := by
  refine isvalid_iff.mpr ⟨n.length_le, n.nlabels_le, ?_⟩
  have hloop : isvalidLoop (n.raw offsets).offsets n.length n.ndata 0 0 = some (n.length, 0 + n.nlabels) := by
    refine isvalidLoop_labels (Nat.zero_add _) fun os hos => ?_
    cases offsets with
    | false => cases hos
    | true =>
      cases hos
      exact n.offsets_eq_take
  rwa [Nat.zero_add] at hloop

/-- Reading a name from the wire is exact: the call ends, and returns a name if and only if there is a sequence of labels at
    the current place that fits, which is then what the name and the target hold. The source moves to the end of the first
    segment. If there is none, the name is empty and the buffers stay as they are. -/
theorem RawName.fromwire_exact (name : RawName) (source : Source) (dctx : Decompress) (target : Buffer) :
    ∃ call, name.fromwire source dctx target = some call ∧
      (call.result = .ok () ↔ ∃ ls stop, Sequence source.used dctx.getpermitted source.current source.current ls stop ∧
        (labelsWire ls ++ [0]).length ≤ min NAME_MAXWIRE target.availablelength) ∧
      (call.result = .ok () → ∃ n : Name, n.absolute ∧
        (∀ ls stop, Sequence source.used dctx.getpermitted source.current source.current ls stop ↔
          ls = n.labels ∧ stop = call.source.current) ∧
        call.name = n.raw name.offsets.isSome ∧ call.name.isvalid ∧ call.name.labels ≤ NAME_MAXLABELS ∧
        call.source.used = source.used ∧ call.target.used = target.used ++ n.ndata ∧ call.target.length = target.length) ∧
      (∀ e, call.result = .error e → call.name = name.makeEmpty ∧ call.source = source ∧ call.target = target) := by
  cases hread : Dns.fromwire source.used source.current dctx target.availablelength with
  | error e =>
    refine ⟨⟨.error e, name.makeEmpty, source, target⟩, by simp [fromwire, hread], ?_, (fun h => by cases h),
      fun _ _ => ⟨rfl, rfl, rfl⟩⟩
    refine iff_of_false (fun h => by cases h) ?_
    rintro ⟨ls, stop, hseq, hlen⟩
    rw [length_append] at hlen
    cases hread.symm.trans (fromwire_of_sequence hseq hlen)
  | ok r =>
    obtain ⟨ls, stop, hseq, hlen⟩ := fromwire_sequence hread
    obtain rfl := Except.ok.inj (hread.symm.trans (fromwire_of_sequence hseq hlen))
    have hmax : (labelsWire ls ++ rootWire true).length ≤ NAME_MAXWIRE := by
      rw [length_append]
      exact hlen.trans (min_le_left ..)
    have havail : (labelsWire ls ++ [0]).length ≤ target.availablelength := by
      simpa using hlen.trans (min_le_right ..)
    obtain ⟨hle, hstop⟩ := hseq.stop_le
    have hcall : name.fromwire source dctx target = some ⟨.ok (), Name.raw ⟨ls, true, hmax⟩ name.offsets.isSome,
        ⟨source.used, stop, hstop⟩, target.put _ havail⟩ := by
      have hforward : source.forward (stop - source.current) = some ⟨source.used, stop, hstop⟩ := by
        simp [Source.forward, Nat.add_sub_cancel' hle, hstop]
      have hadd : target.add (labelsWire ls ++ [0]) = some (target.put _ havail) := dif_pos havail
      have hraw : Name.raw ⟨ls, true, hmax⟩ name.offsets.isSome = ⟨labelsWire ls ++ [0], (offsetsFrom 0 ls).getLastD 0 + 1,
          (offsetsFrom 0 ls).length, true, name.offsets.map fun _ => offsetsFrom 0 ls⟩ := by
        rw [getLastD_offsetsFrom, length_offsetsFrom, ← offsets_eq (n := ⟨ls, true, hmax⟩) rfl]
        cases name.offsets <;> simp [Name.raw, Name.ndata, Name.length, Name.nlabels, rootWire]
      simp [fromwire, hread, hforward, hadd, hraw]
    refine ⟨_, hcall, iff_of_true rfl ⟨ls, stop, hseq, by rwa [length_append]⟩, fun _ => ?_, fun _ h => by cases h⟩
    refine ⟨⟨ls, true, hmax⟩, rfl, fun ls' stop' => ⟨hseq.unique, ?_⟩, rfl, isvalid_raw _ _, Name.nlabels_le _, rfl, rfl, rfl⟩
    rintro ⟨rfl, rfl⟩
    exact hseq

/-- The message of the comment in `dns_name_fromwire`: a label, and a pointer back to a label that takes the octets read so
    far for its own. -/
def dirty : Source := ⟨[4, 1, 0x61, 192, 0, 0], 1, by decide⟩

theorem RawName.fromwire_exact_dirty :
    ∃ call, fromwire ⟨[], 0, 0, false, some []⟩ dirty .always ⟨[], 255, by decide⟩ = some call ∧
      call.result = .ok () ∧ call.source.current = 5 ∧ call.target.used = [1, 0x61, 4, 1, 0x61, 192, 0, 0] := by
  have hseq : Sequence dirty.used true 1 1 [⟨[0x61], by decide, by decide⟩, ⟨[1, 0x61, 192, 0], by decide, by decide⟩] 5 :=
    .label _ (by decide) (.pointer 192 0 rfl (by decide) (by decide) (by decide)
      (.label ⟨[1, 0x61, 192, 0], by decide, by decide⟩ (by decide) (.root (by decide))))
  obtain ⟨call, hcall, hiff, hok, -⟩ :=
    fromwire_exact ⟨[], 0, 0, false, some []⟩ dirty .always ⟨[], 255, by decide⟩
  have hresult := hiff.mpr ⟨_, _, hseq, by decide⟩
  obtain ⟨n, habs, hread, -, -, -, -, hused, -⟩ := hok hresult
  obtain ⟨hlabels, hcurrent⟩ := (hread _ _).mp hseq
  refine ⟨call, hcall, hresult, hcurrent.symm, ?_⟩
  rw [hused, Name.ndata, ← hlabels, rootWire, if_pos habs]
  rfl

end OqsBind.Dns
