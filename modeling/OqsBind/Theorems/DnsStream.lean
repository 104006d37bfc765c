import OqsBind.Isc.DnsStream
import Mathlib.Order.Nat

/-! The assembler delivers the messages of a stream, wherever the stream is cut, and holds what comes after them, as long as
    the octets it holds can be counted with 32 bits. -/

namespace OqsBind.Isc.DnsStream
open List

/-! ### Streams -/

/-- A message that can be sent. -/
structure Message where
  octets : Bytes
  length_pos : 0 < octets.length
  length_lt : octets.length < 2 ^ 16

/-- A message with its length. -/
def Message.frame (m : Message) : Bytes := be16 m.octets.length ++ m.octets

def frames (ms : List Message) : Bytes := ms.flatMap Message.frame

/-- The octets are fewer than a message has that begins with them. -/
def Incomplete (t : Bytes) : Prop := t.length < 2 ∨ t.length < get16 t + 2

theorem frames_cons (m : Message) (ms : List Message) : frames (m :: ms) = m.frame ++ frames ms := rfl

theorem Message.length_frame (m : Message) : m.frame.length = m.octets.length + 2 := by
  rw [frame, length_append, length_be16, Nat.add_comm]

theorem get16_append {h : Bytes} (hlen : 2 ≤ h.length) (c : Bytes) : get16 (h ++ c) = get16 h := by
  match h, hlen with
  | a :: b :: rest, _ => rfl

theorem get16_frames (m : Message) (b : Bytes) : get16 (m.frame ++ b) = m.octets.length := by
  exact get16_be16 m.length_lt _

theorem not_incomplete_frame (m : Message) (b : Bytes) : ¬Incomplete (m.frame ++ b) := by
  have hlen := m.length_frame
  rintro (hlt | hlt)
  · rw [length_append] at hlt
    omega
  · rw [get16_frames, length_append] at hlt
    omega

theorem eq_nil_of_incomplete {ms : List Message} {t : Bytes} (h : Incomplete (frames ms ++ t)) : ms = [] := by
  cases ms with
  | nil => rfl
  | cons m ms =>
    rw [frames_cons, append_assoc] at h
    exact absurd h (not_incomplete_frame m _)

theorem length_le_frames (ms : List Message) : ms.length ≤ (frames ms).length := by
  induction ms with
  | nil => exact Nat.le_refl 0
  | cons m ms ih =>
    simp [frames_cons, m.length_frame]
    omega

theorem incomplete_of_short {m : Message} {x y b : Bytes} (h : x ++ y = m.frame ++ b) (hlt : x.length < m.frame.length) :
    Incomplete x := by
  rcases Nat.lt_or_ge x.length 2 with hshort | hlong
  · exact .inl hshort
  · have hget : get16 x = m.octets.length := by rw [← get16_append hlong y, h, get16_frames]
    exact .inr (hget ▸ hlt)

theorem frames_cut : ∀ {ms : List Message} {t x y : Bytes}, x ++ y = frames ms ++ t → Incomplete t →
    ∃ ms1 ms2 t1, ms = ms1 ++ ms2 ∧ x = frames ms1 ++ t1 ∧ Incomplete t1 ∧ t1 ++ y = frames ms2 ++ t
  | [], t, x, y, h, ht => by
    refine ⟨[], [], x, rfl, rfl, ?_, h⟩
    have ht' : Incomplete (x ++ y) := h ▸ ht
    rcases Nat.lt_or_ge x.length 2 with hshort | hlong
    · exact .inl hshort
    · unfold Incomplete at ht'
      rw [get16_append hlong, length_append] at ht'
      exact .inr (by omega)
  | m :: ms, t, x, y, h, ht => by
    rw [frames_cons, append_assoc] at h
    rcases Nat.lt_or_ge x.length m.frame.length with hlt | hge
    · refine ⟨[], m :: ms, x, rfl, rfl, incomplete_of_short h hlt, ?_⟩
      simpa [frames_cons] using h
    · obtain ⟨x', rfl⟩ : ∃ x', x = m.frame ++ x' :=
        (prefix_of_prefix_length_le ⟨_, h.symm⟩ (prefix_append x y) hge).imp fun _ hx => hx.symm
      rw [append_assoc, append_cancel_left_eq] at h
      obtain ⟨ms1, ms2, t1, rfl, rfl, ht1, hrest⟩ := frames_cut h ht
      refine ⟨m :: ms1, ms2, t1, rfl, ?_, ht1, hrest⟩
      rw [frames_cons, append_assoc]

theorem frames_join {ms1 ms2 : List Message} {t t1 x y : Bytes} (hx : x = frames ms1 ++ t1) (hy : t1 ++ y = frames ms2 ++ t) :
    x ++ y = frames (ms1 ++ ms2) ++ t := by
  simp [hx, hy, frames]

/-! ### Buffers -/

theorem Buffer.le_newLength (b : Buffer) {size : Nat} (h : b.used + size < 2 ^ 32) : b.used + size ≤ b.newLength size := by
  simp [newLength, ISC_BUFFER_INCR, UINT_MAX]
  omega

variable {data : Bytes}

theorem Buffer.putmem_ok (b : Buffer) (h : b.used + data.length < 2 ^ 32) :
    ∃ b', b.putmem data = .ok b' ∧ b'.current = b.current ∧ b'.remaining = b.remaining ++ data := by
  unfold putmem
  split
  · exact ⟨_, rfl, rfl, rfl⟩
  · rw [dif_pos (b.le_newLength h)]
    exact ⟨_, rfl, rfl, rfl⟩

/-- With 2 to 32 octets or more, the size of the new memory comes round to less than what is in the buffer. -/
theorem Buffer.putmem_overrun {b : Buffer} (hfull : b.length < b.used + data.length) (hdata : data.length < 512)
    (hused : 1024 ≤ b.used) (h : 2 ^ 32 ≤ b.used + data.length) (hlt : b.used < 2 ^ 32) : b.putmem data = .error .overrun := by
  have hnew : b.newLength data.length ≤ 1023 := by
    unfold newLength ISC_BUFFER_INCR
    omega
  unfold putmem
  rw [dif_neg (by omega), dif_neg (by omega), if_neg (by omega)]

theorem Buffer.length_putmem {b b' : Buffer} (h : b.putmem data = .ok b') : b'.length ≤ max b.length UINT_MAX := by
  unfold putmem at h
  split at h
  · cases h
    exact Nat.le_max_left _ _
  · split at h
    · cases h
      exact (Nat.min_le_right _ _).trans (Nat.le_max_right _ _)
    · cases h

theorem Buffer.remaining_trycompact (b : Buffer) : b.trycompact.remaining = b.remaining := by
  unfold trycompact
  split <;> rfl

theorem Buffer.used_trycompact_le (b : Buffer) : b.trycompact.used ≤ b.used := by
  unfold trycompact
  split
  · exact Nat.le_add_left_of_le (Nat.zero_add _).le
  · exact le_rfl

namespace Assembler
variable {cb : Callback} {a a' : Assembler}

/-! ### One message -/

/-- What the callback has been given with `ISC_R_SUCCESS`. -/
def delivered (a : Assembler) : List Bytes := a.calls.filterMap fun e => if e.result = .success then some e.region else none

/-- What is left in the current buffer. -/
def rest (a : Assembler) : Bytes := a.current.remaining

/-- The assembler goes on with the buffer it used; the other buffer is as it was. -/
structure Goes (a a' : Assembler) : Prop where
  idle : a'.callingCb = false
  direct : a'.direct.isSome = a.direct.isSome
  dnsbuf : a.direct.isSome = true → a'.dnsbuf = a.dnsbuf
  used : a'.current.used ≤ a.current.used

variable {a1 : Assembler}

theorem Goes.trans {a2 a3 : Assembler} (h : Goes a1 a2) (h' : Goes a2 a3) : Goes a1 a3 where
  idle := h'.idle
  direct := h'.direct.trans h.direct
  dnsbuf hd := (h'.dnsbuf (h.direct.trans hd)).trans (h.dnsbuf hd)
  used := h'.used.trans h.used

@[simp] theorem current_setCurrent (a : Assembler) (b : Buffer) : (a.setCurrent b).current = b := by
  unfold setCurrent current
  cases a.direct <;> rfl

@[simp] theorem calls_setCurrent (a : Assembler) (b : Buffer) : (a.setCurrent b).calls = a.calls := by
  unfold setCurrent
  cases a.direct <;> rfl

theorem goes_setCurrent (hidle : a.callingCb = false) {b : Buffer} (hused : b.used ≤ a.current.used) :
    Goes a (a.setCurrent b) := by
  obtain ⟨dnsbuf, direct, callingCb, result, calls⟩ := a
  cases direct with
  | none => exact ⟨hidle, rfl, (fun h => nomatch h), hused⟩
  | some b' => exact ⟨hidle, rfl, fun _ => rfl, hused⟩

theorem goes_callcb (a : Assembler) (result : Result) (region : Bytes) : Goes a (a.callcb cb result region).2 :=
  ⟨rfl, rfl, fun _ => rfl, le_rfl⟩

theorem delivered_append {e : Event} (h : a'.calls = a.calls ++ [e]) :
    a'.delivered = a.delivered ++ if e.result = .success then [e.region] else [] := by
  unfold delivered
  rw [h, filterMap_append]
  congr 1
  by_cases hresult : e.result = .success
  · rw [if_pos hresult]
    exact filterMap_cons_some (if_pos hresult)
  · rw [if_neg hresult]
    exact filterMap_cons_none (if_neg hresult)

theorem used_forward (b : Buffer) {n : Nat} (h : n ≤ b.remaining.length) : (b.forward n).used = b.used := by
  simp [Buffer.forward, Buffer.used]
  omega

theorem handleMessage_incomplete (cb : Callback) (hidle : a.callingCb = false) (ht : Incomplete a.rest) :
    ∃ a', a.handleMessage cb = .ok (false, a') ∧ Goes a a' ∧ a'.rest = a.rest ∧ a'.delivered = a.delivered := by
  refine ⟨(a.callcb cb .nomore []).2, ?_, goes_callcb a _ _, rfl, ?_⟩
  · unfold handleMessage Buffer.peekuint16
    rw [hidle, if_neg Bool.false_ne_true]
    rcases Nat.lt_or_ge a.rest.length 2 with hshort | hlong
    · unfold rest at hshort
      rw [if_neg (Nat.not_le.mpr hshort)]
    · have hlt : a.rest.length < get16 a.rest + 2 := ht.resolve_left (Nat.not_lt.mpr hlong)
      unfold rest at hlong hlt
      rw [if_pos hlong]
      dsimp only
      rw [if_neg (by omega), if_pos (by omega)]
  · rw [delivered_append rfl, if_neg nofun, append_nil]

variable {b : Bytes}

theorem handleMessage_frame (cb : Callback) {m : Message} (hidle : a.callingCb = false) (hrest : a.rest = m.frame ++ b) :
    ∃ a', a.handleMessage cb = .ok (cb a'.calls, a') ∧ Goes a a' ∧ a'.rest = b ∧
      a'.delivered = a.delivered ++ [m.octets] := by
  have hlen : a.current.remaining.length = m.octets.length + 2 + b.length := by
    have := congrArg length hrest
    rwa [length_append] at this
  have hget : get16 a.current.remaining = m.octets.length := by
    have := congrArg get16 hrest
    rwa [get16_frames] at this
  have hdrop : a.current.remaining.drop 2 = m.octets ++ b := by
    have := congrArg (drop 2) hrest
    exact this
  -- the length is read, the callback is called, the message is skipped
  let a1 := a.setCurrent (a.current.forward 2)
  let a2 := (a1.callcb cb .success m.octets).2
  let a3 := a2.setCurrent (a2.current.forward m.octets.length)
  have hrest1 : a1.current.remaining = m.octets ++ b := by
    rw [current_setCurrent]
    exact hdrop
  have hrest2 : a2.current.remaining = m.octets ++ b := hrest1
  have htake : a1.current.remaining.take m.octets.length = m.octets := by rw [hrest1, take_left]
  have hle2 : m.octets.length ≤ a2.current.remaining.length := by
    simp [hrest2]
  have hpos := m.length_pos
  have hgoes1 : Goes a a1 := goes_setCurrent hidle (used_forward _ (by omega)).le
  have hgoes3 : Goes a2 a3 := goes_setCurrent rfl (used_forward _ hle2).le
  have hcalls : a3.calls = a1.calls ++ [⟨.success, m.octets⟩] := calls_setCurrent _ _
  refine ⟨a3, ?_, (hgoes1.trans (goes_callcb a1 _ _)).trans hgoes3, ?_, ?_⟩
  · unfold handleMessage Buffer.peekuint16
    rw [hidle, if_neg Bool.false_ne_true, if_pos (by omega)]
    dsimp only
    rw [hget, if_neg (by omega), if_neg (by omega)]
    rw [htake, hcalls]
    exact congrArg (fun x => Except.ok (_, x)) (if_pos hle2)
  · have hcurrent : a3.current = a2.current.forward m.octets.length := current_setCurrent _ _
    unfold rest
    rw [hcurrent]
    have hforward : (a2.current.forward m.octets.length).remaining = a2.current.remaining.drop m.octets.length := rfl
    rw [hforward, hrest2, drop_left]
  · have hcalls' : a3.calls = a.calls ++ [⟨.success, m.octets⟩] := hcalls.trans (by rw [calls_setCurrent])
    rw [delivered_append hcalls', if_pos rfl]

/-! ### All messages of a buffer -/

/-- Some of the messages have been delivered: all of them, if the callback never stops. -/
structure Delivers (cb : Callback) (ms : List Message) (t : Bytes) (a a' : Assembler) : Prop where
  ex : ∃ ms₁ ms₂, ms = ms₁ ++ ms₂ ∧ a'.delivered = a.delivered ++ ms₁.map Message.octets ∧ a'.rest = frames ms₂ ++ t ∧
    ((∀ calls, cb calls = true) → ms₂ = [])

variable {t : Bytes}

theorem Delivers.after {l ms : List Message} (h : Delivers cb ms t a1 a')
    (hdel : a1.delivered = a.delivered ++ l.map Message.octets) : Delivers cb (l ++ ms) t a a' := by
  obtain ⟨ms1, ms2, rfl, hdel', hrest⟩ := h
  exact ⟨l ++ ms1, ms2, (append_assoc ..).symm, by simp [hdel', hdel], hrest⟩

theorem processing_ok (cb : Callback) (ht : Incomplete t) : ∀ {ms : List Message} {fuel : Nat} {a : Assembler},
    ms.length < fuel → a.callingCb = false → a.rest = frames ms ++ t →
    ∃ a', processing cb fuel a = .ok a' ∧ Goes a a' ∧ Delivers cb ms t a a'
  | ms, 0, a, hfuel, _, _ => absurd hfuel (Nat.not_lt_zero _)
  | [], fuel + 1, a, hfuel, hidle, hrest => by
    have hinc : Incomplete a.rest := hrest ▸ ht
    obtain ⟨a', hhandle, hgoes, hsame, hdel⟩ := handleMessage_incomplete cb hidle hinc
    refine ⟨a', ?_, hgoes, ⟨[], [], rfl, ?_, hsame.trans hrest, fun _ => rfl⟩⟩
    · rw [processing, hhandle]
    · simp [hdel]
  | m :: ms, fuel + 1, a, hfuel, hidle, hrest => by
    rw [frames_cons, append_assoc] at hrest
    obtain ⟨a1, hhandle, hgoes, hrest1, hdel⟩ := handleMessage_frame cb hidle hrest
    cases hcont : cb a1.calls with
    | false =>
      rw [hcont] at hhandle
      refine ⟨a1, ?_, hgoes, ⟨[m], ms, rfl, hdel, hrest1, fun h => nomatch hcont.symm.trans (h _)⟩⟩
      rw [processing, hhandle]
    | true =>
      rw [hcont] at hhandle
      by_cases hempty : a1.current.remaining.length = 0
      · -- nothing is left, so there were no other messages
        have hnil : a1.rest = [] := length_eq_zero_iff.mp hempty
        have hms : ms = [] := eq_nil_of_incomplete (t := t) (hrest1 ▸ hnil ▸ .inl (by decide))
        refine ⟨a1, ?_, hgoes, ⟨[m], ms, rfl, hdel, hrest1, fun _ => hms⟩⟩
        rw [processing, hhandle]
        exact if_pos hempty
      · obtain ⟨a', hproc, hgoes', hdel'⟩ := processing_ok cb ht (Nat.lt_of_succ_lt_succ hfuel) hgoes.idle hrest1
        refine ⟨a', ?_, hgoes.trans hgoes', hdel'.after (l := [m]) hdel⟩
        rw [processing, hhandle]
        exact (if_neg hempty).trans hproc

/-! ### One call -/

/-- The assembler between two calls. -/
structure Ready (a : Assembler) : Prop where
  idle : a.callingCb = false
  direct : a.direct = none

theorem Ready.current_eq (h : Ready a) : a.current = a.dnsbuf := by
  unfold current
  rw [h.direct]
  rfl

theorem Goes.ready (h : Goes a a') (ha : Ready a) : Ready a' := by
  refine ⟨h.idle, ?_⟩
  have hdirect := h.direct
  rw [ha.direct] at hdirect
  cases hsome : a'.direct with
  | none => rfl
  | some b =>
    rw [hsome] at hdirect
    cases hdirect

theorem Ready.putmem_ok (h : Ready a) (data : Bytes) (hfits : a.dnsbuf.used + data.length < 2 ^ 32) :
    ∃ a', a.putmem data = .ok a' ∧ Ready a' ∧ a'.rest = a.rest ++ data ∧ a'.delivered = a.delivered ∧
      a'.dnsbuf.used = a.dnsbuf.used + data.length := by
  obtain ⟨b, hput, hcurrent, hremaining⟩ := a.dnsbuf.putmem_ok hfits
  refine ⟨{ a with dnsbuf := b }, ?_, ⟨h.idle, h.direct⟩, ?_, rfl, ?_⟩
  · unfold putmem setCurrent
    rw [h.current_eq, hput, h.direct]
  · have hnew : ({ a with dnsbuf := b } : Assembler).current = b := by
      simp [current, h.direct]
    unfold rest
    rw [hnew, h.current_eq, hremaining]
  · unfold Buffer.used
    rw [hcurrent, hremaining, length_append, Nat.add_assoc]

theorem Ready.length_putmem (h : Ready a) {data : Bytes} (hput : a.putmem data = .ok a') :
    a'.dnsbuf.length ≤ max a.dnsbuf.length UINT_MAX := by
  unfold putmem setCurrent at hput
  rw [h.current_eq, h.direct] at hput
  split at hput
  · rename_i b hb
    cases hput
    exact Buffer.length_putmem hb
  · cases hput

/-- A call with `n` octets has ended. -/
structure Ends (n : Nat) (a a' : Assembler) : Prop extends Ready a' where
  used : a'.dnsbuf.used ≤ a.dnsbuf.used + n

theorem goes_trycompact (hidle : a.callingCb = false) : Goes a a.trycompact ∧ a.trycompact.rest = a.rest ∧
    a.trycompact.delivered = a.delivered := by
  refine ⟨goes_setCurrent hidle a.current.used_trycompact_le, ?_, ?_⟩
  · unfold rest trycompact
    rw [current_setCurrent, Buffer.remaining_trycompact]
  · simp [delivered, trycompact]

section
variable {ms : List Message} {t buf : Bytes}

theorem incomingDirect_eq (h : Ready a) {a1 : Assembler}
    (hproc : processing cb (buf.length + 1) { a with direct := some (.ofBytes buf) } = .ok a1)
    (hgoes : Goes { a with direct := some (.ofBytes buf) } a1) :
    a.incomingDirect cb buf =
        (if a1.rest.length ≠ 0 then ({ a1 with direct := none } : Assembler).putmem a1.rest else .ok { a1 with direct := none }) ∧
      Ready { a1 with direct := none } ∧ a1.dnsbuf = a.dnsbuf ∧ a1.rest.length ≤ buf.length := by
  refine ⟨?_, ⟨hgoes.idle, rfl⟩, hgoes.dnsbuf rfl, ?_⟩
  · unfold incomingDirect
    rw [h.direct, hproc]
    rfl
  · have hused : a1.current.used ≤ buf.length := hgoes.used.trans_eq (Nat.zero_add _)
    exact (Nat.le_add_left _ _).trans hused

theorem incomingDirect_ok (cb : Callback) (h : Ready a) (hempty : a.rest = []) (hbuf : buf = frames ms ++ t) (ht : Incomplete t)
    (hfits : a.dnsbuf.used + buf.length < 2 ^ 32) :
    ∃ a', a.incomingDirect cb buf = .ok a' ∧ Ends buf.length a a' ∧ Delivers cb ms t a a' := by
  have hfuel : ms.length < buf.length + 1 := by
    have := length_le_frames ms
    rw [hbuf, length_append]
    omega
  obtain ⟨a1, hproc, hgoes, hdel⟩ := processing_ok cb (a := { a with direct := some (.ofBytes buf) }) ht hfuel h.idle hbuf
  obtain ⟨heq, hready, hdnsbuf, hle⟩ := incomingDirect_eq h hproc hgoes
  have hempty2 : ({ a1 with direct := none } : Assembler).rest = [] := by
    unfold rest at hempty ⊢
    rw [h.current_eq] at hempty
    exact hdnsbuf ▸ hempty
  obtain ⟨ms1, ms2, hms, hdel1, hrest1, hall⟩ := hdel
  by_cases hzero : a1.rest.length = 0
  · refine ⟨_, heq.trans (if_neg (not_not.mpr hzero)), ⟨hready, ?_⟩, ⟨ms1, ms2, hms, hdel1, ?_, hall⟩⟩
    · exact hdnsbuf ▸ Nat.le_add_right _ _
    · rw [hempty2, ← hrest1, length_eq_zero_iff.mp hzero]
  · have hfits1 : a1.dnsbuf.used + a1.rest.length < 2 ^ 32 := by
      rw [hdnsbuf]
      omega
    obtain ⟨a', hput, hready', hrest', hdel', hused'⟩ := hready.putmem_ok a1.rest hfits1
    refine ⟨a', (heq.trans (if_pos hzero)).trans hput, ⟨hready', ?_⟩, ⟨ms1, ms2, hms, ?_, ?_, hall⟩⟩
    · rw [hused']
      exact hdnsbuf ▸ Nat.add_le_add_left hle _
    · rw [hdel']
      exact hdel1
    · rw [hrest', hempty2, nil_append, hrest1]

theorem complete_message {h : Bytes} (hlong : 2 ≤ h.length) (hbuf : h ++ buf = frames ms ++ t) (ht : Incomplete t)
    (hless : h.length < get16 h + 2) (henough : get16 h - (h.length - 2) ≤ buf.length) :
    ∃ m ms', ms = m :: ms' ∧ h ++ buf.take (get16 h - (h.length - 2)) = m.frame ∧
      buf.drop (get16 h - (h.length - 2)) = frames ms' ++ t := by
  have hlen : (h ++ buf.take (get16 h - (h.length - 2))).length = get16 h + 2 := by
    simp
    omega
  cases ms with
  | nil =>
    have hinc : Incomplete (h ++ buf) := hbuf ▸ ht
    unfold Incomplete at hinc
    rw [get16_append hlong, length_append] at hinc
    omega
  | cons m ms =>
    rw [frames_cons, append_assoc] at hbuf
    have hget : get16 h = m.octets.length := by rw [← get16_append hlong buf, hbuf, get16_frames]
    have hsplit : (h ++ buf.take (get16 h - (h.length - 2))) ++ buf.drop (get16 h - (h.length - 2)) =
        m.frame ++ (frames ms ++ t) := by rw [append_assoc, take_append_drop, hbuf]
    obtain ⟨hframe, hrest⟩ := append_inj hsplit (by rw [hlen, m.length_frame, hget])
    exact ⟨m, ms, rfl, hframe, hrest⟩

theorem peekuint16_eq (a : Assembler) :
    a.current.peekuint16 = if 2 ≤ a.rest.length then some (get16 a.rest) else none := rfl

theorem incoming_rest {cont : Bool} (h : Ready a) (hempty : a.rest = []) (hbuf : buf = frames ms ++ t) (ht : Incomplete t)
    (hfits : a.dnsbuf.used + buf.length < 2 ^ 32) (hcont : (∀ calls, cb calls = true) → cont = true) :
    ∃ a', (if cont then a.incomingDirect cb buf else a.putmem buf) = .ok a' ∧ Ends buf.length a a' ∧ Delivers cb ms t a a' := by
  cases cont with
  | true => exact incomingDirect_ok cb h hempty hbuf ht hfits
  | false =>
    obtain ⟨a', hput, hready, hrest, hdel, hused⟩ := h.putmem_ok buf hfits
    refine ⟨a', hput, ⟨hready, hused.le⟩, ⟨[], ms, rfl, ?_, ?_, fun hall => nomatch hcont hall⟩⟩
    · simp [hdel]
    · rw [hrest, hempty, nil_append, hbuf]

variable (cb) (h : Ready a) (hbuf : a.rest ++ buf = frames ms ++ t) (ht : Incomplete t)
  (hfits : a.dnsbuf.used + buf.length < 2 ^ 32)
include h hbuf ht hfits

theorem incomingGeneric_ok :
    ∃ a', a.incomingGeneric cb buf = .ok a' ∧ Ends buf.length a a' ∧ Delivers cb ms t a a' := by
  obtain ⟨a1, hput, hready, hrest, hdel1, hused1⟩ := h.putmem_ok buf hfits
  rw [hbuf] at hrest
  have hfuel : ms.length < a1.current.remaining.length + 1 := by
    have := length_le_frames ms
    unfold rest at hrest
    rw [hrest, length_append]
    omega
  obtain ⟨a2, hproc, hgoes, hdel⟩ := processing_ok cb ht hfuel hready.idle hrest
  obtain ⟨hgoes', hrest', hdel'⟩ := goes_trycompact hgoes.idle
  have hready' := (hgoes.trans hgoes').ready hready
  refine ⟨a2.trycompact, ?_, ⟨hready', ?_⟩, ?_⟩
  · simp [incomingGeneric, hput, hproc]
  · have hle := (hgoes.trans hgoes').used
    rw [hready'.current_eq, hready.current_eq, hused1] at hle
    exact hle
  · obtain ⟨ms1, ms2, hms, hdel2, hrest2, hall⟩ := hdel
    exact ⟨ms1, ms2, hms, by rw [hdel', hdel2, hdel1], hrest'.trans hrest2, hall⟩

theorem incomingDirectNonEmpty_ok :
    ∃ b a', a.incomingDirectNonEmpty cb buf = .ok (b, a') ∧
      match b with
      | false => a' = a
      | true => Ends buf.length a a' ∧ Delivers cb ms t a a' := by
  unfold incomingDirectNonEmpty
  rw [peekuint16_eq]
  rcases Nat.lt_or_ge a.rest.length 2 with hshort | hlong
  · rw [if_neg (Nat.not_le.mpr hshort)]
    exact ⟨false, a, rfl, rfl⟩
  rw [if_pos hlong]
  dsimp only
  split
  · exact ⟨false, a, rfl, rfl⟩
  rename_i hmore
  split
  · rename_i henough
    have hless : a.rest.length < get16 a.rest + 2 := by
      unfold rest at hmore ⊢
      omega
    obtain ⟨m, ms', rfl, hframe, hrest⟩ := complete_message hlong hbuf ht hless henough
    have hlength : a.current.remaining.length = a.rest.length := rfl
    rw [hlength]
    generalize get16 a.rest - (a.rest.length - 2) = n at hframe hrest ⊢
    have hlen : (buf.take n).length + (buf.drop n).length = buf.length := by rw [← length_append, take_append_drop]
    -- the message is completed and handled
    obtain ⟨a1, hput, hready1, hrest1, hdel1, hused1⟩ := h.putmem_ok (buf.take n) (by omega)
    rw [hframe, ← append_nil m.frame] at hrest1
    obtain ⟨a2, hhandle, hgoes2, hrest2, hdel2⟩ := handleMessage_frame cb hready1.idle hrest1
    obtain ⟨hgoes3, hrest3, hdel3⟩ := goes_trycompact hgoes2.idle
    have hready3 : Ready a2.trycompact := (hgoes2.trans hgoes3).ready hready1
    have hempty : a2.trycompact.rest = [] := hrest3.trans hrest2
    have hdel : a2.trycompact.delivered = a.delivered ++ [m.octets] := by rw [hdel3, hdel2, hdel1]
    have hused : a2.trycompact.dnsbuf.used ≤ a.dnsbuf.used + (buf.take n).length := by
      have hle := (hgoes2.trans hgoes3).used
      rw [hready3.current_eq, hready1.current_eq, hused1] at hle
      exact hle
    have hzero : ¬a2.trycompact.current.remaining.length ≠ 0 := not_not.mpr (length_eq_zero_iff.mpr hempty)
    rw [hput]
    dsimp only
    rw [hhandle]
    dsimp only
    rw [if_neg hzero]
    split
    · rename_i hnone
      have hnil : frames ms' ++ t = [] := hrest ▸ length_eq_zero_iff.mp hnone
      have hms : ms' = [] := eq_nil_of_incomplete (t := t) (hnil ▸ .inl (by decide))
      subst hms
      have hnothing : Delivers cb [] t a2.trycompact a2.trycompact :=
        ⟨[], [], rfl, (append_nil _).symm, hempty.trans hnil.symm, fun _ => rfl⟩
      exact ⟨true, _, rfl, ⟨hready3, by omega⟩, hnothing.after (l := [m]) hdel⟩
    · obtain ⟨a', hlast, hends, hdel'⟩ := incoming_rest hready3 hempty hrest ht (by omega) fun hall => hall _
      rw [hlast]
      have hused' := hends.used
      exact ⟨true, a', rfl, ⟨hends.toReady, by omega⟩, hdel'.after (l := [m]) hdel⟩
  · exact ⟨false, a, rfl, rfl⟩

theorem incoming_ok :
    ∃ a', a.incoming cb buf = .ok a' ∧ Ends buf.length a a' ∧ Delivers cb ms t a a' := by
  unfold incoming
  rw [h.idle, if_neg Bool.false_ne_true]
  split
  · rename_i hnone
    obtain rfl := length_eq_zero_iff.mp hnone
    exact incomingGeneric_ok cb h hbuf ht hfits
  split
  · rename_i hzero
    have hempty : a.rest = [] := by
      unfold rest
      rw [h.current_eq]
      exact length_eq_zero_iff.mp hzero
    rw [hempty] at hbuf
    exact incomingDirect_ok cb h hempty hbuf ht hfits
  obtain ⟨b, a', hdirect, hdone⟩ := incomingDirectNonEmpty_ok cb h hbuf ht hfits
  rw [hdirect]
  cases b with
  | true => exact ⟨a', rfl, hdone⟩
  | false =>
    obtain rfl := hdone
    dsimp only
    split
    · -- the second octet of the length comes first
      have hlen : (buf.take 1).length + (buf.drop 1).length = buf.length := by
        rw [← length_append, take_append_drop]
      obtain ⟨a1, hput, hready1, hrest1, hdel1, hused1⟩ := h.putmem_ok (buf.take 1) (by omega)
      have hbuf1 : a1.rest ++ buf.drop 1 = frames ms ++ t := by rw [hrest1, append_assoc, take_append_drop, hbuf]
      have hfits1 : a1.dnsbuf.used + (buf.drop 1).length < 2 ^ 32 := by omega
      rw [hput]
      dsimp only
      obtain ⟨b, a2, hdirect1, hdone1⟩ := incomingDirectNonEmpty_ok cb hready1 hbuf1 ht hfits1
      rw [hdirect1]
      cases b with
      | true =>
        have hused2 := hdone1.1.used
        exact ⟨a2, rfl, ⟨hdone1.1.toReady, by omega⟩, hdone1.2.after (l := []) (by simpa using hdel1)⟩
      | false =>
        obtain rfl := hdone1
        obtain ⟨a3, hgeneric, hends, hdel3⟩ := incomingGeneric_ok cb hready1 hbuf1 ht hfits1
        have hused3 := hends.used
        exact ⟨a3, hgeneric, ⟨hends.toReady, by omega⟩, hdel3.after (l := []) (by simpa using hdel1)⟩
    · exact incomingGeneric_ok cb h hbuf ht hfits

end

/-! ### The whole stream -/

/-- Each time the octets in the internal buffer and those that come can be counted with 32 bits. -/
def Fits (cb : Callback) (a : Assembler) : List Bytes → Prop
  | [] => True
  | buf :: bufs => a.dnsbuf.used + buf.length < 2 ^ 32 ∧ ∀ a', a.incoming cb buf = .ok a' → Fits cb a' bufs

theorem fits_of_length (cb : Callback) (ht : Incomplete t) : ∀ {bufs : List Bytes} {ms : List Message} {a : Assembler},
    Ready a → a.rest ++ bufs.flatten = frames ms ++ t → a.dnsbuf.used + bufs.flatten.length < 2 ^ 32 → Fits cb a bufs
  | [], _, _, _, _, _ => trivial
  | buf :: bufs, ms, a, h, hbufs, hlen => by
    rw [flatten_cons, length_append] at hlen
    rw [flatten_cons, ← append_assoc] at hbufs
    have hfits : a.dnsbuf.used + buf.length < 2 ^ 32 := by omega
    refine ⟨hfits, fun a' ha' => ?_⟩
    obtain ⟨ms1, ms2, t1, rfl, hcut, ht1, hlater⟩ := frames_cut hbufs ht
    obtain ⟨a1, hin, hends, ⟨ms3, ms4, rfl, -, hrest, -⟩⟩ := incoming_ok cb h hcut ht1 hfits
    cases ha'.symm.trans hin
    have hused := hends.used
    exact fits_of_length cb ht hends.toReady (frames_join hrest hlater) (by omega)

theorem incomings_ok (cb : Callback) (ht : Incomplete t) : ∀ {bufs : List Bytes} {ms : List Message} {a : Assembler},
    Ready a → a.rest ++ bufs.flatten = frames ms ++ t → Fits cb a bufs → ((∀ calls, cb calls = true) → Incomplete a.rest) →
    ∃ a', bufs.foldlM (incoming cb) a = .ok a' ∧ Ready a' ∧ Delivers cb ms t a a'
  | [], ms, a, h, hbufs, _, hall => by
    rw [flatten_nil, append_nil] at hbufs
    refine ⟨a, rfl, h, ⟨[], ms, rfl, ?_, hbufs, fun hcb => ?_⟩⟩
    · simp
    · exact eq_nil_of_incomplete (t := t) (hbufs ▸ hall hcb)
  | buf :: bufs, ms, a, h, hbufs, hfits, hall => by
    rw [flatten_cons, ← append_assoc] at hbufs
    obtain ⟨ms1, ms2, t1, rfl, hcut, ht1, hlater⟩ := frames_cut hbufs ht
    obtain ⟨a1, hin, hends1, ⟨ms3, ms4, rfl, hdel, hrest, hend⟩⟩ := incoming_ok cb h hcut ht1 hfits.1
    have hbufs1 := frames_join hrest hlater
    have hall1 : (∀ calls, cb calls = true) → Incomplete a1.rest := by
      intro hcb
      rw [hrest, hend hcb]
      exact ht1
    obtain ⟨a', hrun, hready', hdel'⟩ := incomings_ok cb ht hends1.toReady hbufs1 (hfits.2 a1 hin) hall1
    refine ⟨a', ?_, hready', append_assoc ms3 ms4 ms2 ▸ hdel'.after hdel⟩
    rw [foldlM_cons, hin]
    exact hrun

/-- However a stream is cut, the messages that are delivered are the first ones of it, and what comes after them is held. If
    the callback always wants more, these are all complete messages of what has come. -/
theorem assembles (cb : Callback) (bufs : List Bytes) (ms : List Message) (t : Bytes) (hbufs : bufs.flatten = frames ms ++ t)
    (ht : Incomplete t) (hfits : Fits cb init bufs) : ∃ a k, bufs.foldlM (incoming cb) init = .ok a ∧
      a.delivered = (ms.take k).map Message.octets ∧ a.dnsbuf.remaining = frames (ms.drop k) ++ t ∧
      ((∀ calls, cb calls = true) → ms.length ≤ k) := by
  have hready : Ready init := ⟨rfl, rfl⟩
  have hempty : Incomplete init.rest := .inl (by decide)
  obtain ⟨a, hrun, hready', ⟨ms₁, ms₂, rfl, hdel, hrest, hall⟩⟩ := incomings_ok cb ht hready hbufs hfits fun _ => hempty
  refine ⟨a, ms₁.length, hrun, ?_, ?_, fun hcb => ?_⟩
  · rw [hdel, take_left]
    rfl
  · rw [drop_left, ← hrest, rest, hready'.current_eq]
  · rw [hall hcb, append_nil]

/-- Two messages and the first octet of a third one, cut in the length of the first one and in the middle of the second. -/
theorem assembles_cut : ∃ a k, [[0], [], [1, 7, 0, 2, 8], [9, 0]].foldlM (incoming fun _ => true) init = .ok a ∧
    a.delivered = ([⟨[7], by decide, by decide⟩, ⟨[8, 9], by decide, by decide⟩].take k).map Message.octets ∧
    a.dnsbuf.remaining = frames ([⟨[7], by decide, by decide⟩, ⟨[8, 9], by decide, by decide⟩].drop k) ++ [0] ∧
    ((∀ calls : List Event, (fun _ => true) calls = true) → 2 ≤ k) := by
  have hbufs : [[0], [], [1, 7, 0, 2, 8], [9, 0]].flatten =
      frames [⟨[7], by decide, by decide⟩, ⟨[8, 9], by decide, by decide⟩] ++ [0] := by decide
  have ht : Incomplete [0] := .inl (by decide)
  have hready : Ready init := ⟨rfl, rfl⟩
  exact assembles (fun _ => true) _ _ _ hbufs ht (fits_of_length _ ht hready hbufs (by decide))

/-! ### Too much to count -/

/-- A message of one octet. -/
def one : Message := ⟨[7], by decide, by decide⟩

/-- A callback that always wants to stop. -/
def stop : Callback := fun _ => false

theorem length_frames_replicate (n : Nat) : (frames (replicate n one)).length = 3 * n := by
  induction n with
  | zero => rfl
  | succ n ih =>
    rw [replicate_succ, frames_cons, length_append, ih, one.length_frame, one]
    simp only [length_cons, length_nil]
    omega

theorem incoming_stop (hb : b.length ≠ 0) (hlen : b.length < 2 ^ 32) :
    ∃ a, init.incoming stop (one.frame ++ b) = .ok a ∧ Ready a ∧ a.rest = b ∧ a.dnsbuf.used = b.length ∧
      a.dnsbuf.length < 2 ^ 32 := by
  have hready : Ready init := ⟨rfl, rfl⟩
  obtain ⟨a1, hhandle, hgoes, hrest, -⟩ := handleMessage_frame stop (a := { init with direct := some (.ofBytes (one.frame ++ b)) })
    (m := one) (b := b) rfl rfl
  have hproc : processing stop ((one.frame ++ b).length + 1) { init with direct := some (.ofBytes (one.frame ++ b)) } = .ok a1 := by
    rw [processing, hhandle]
    rfl
  obtain ⟨heq, hready1, hdnsbuf, -⟩ := incomingDirect_eq hready hproc hgoes
  rw [hrest, if_pos hb] at heq
  have hused : ({ a1 with direct := none } : Assembler).dnsbuf.used = 0 := congrArg Buffer.used hdnsbuf
  obtain ⟨a, hput, hready', hrest', -, hused'⟩ := hready1.putmem_ok b (by omega)
  refine ⟨a, ?_, hready', ?_, by rw [hused', hused, Nat.zero_add], ?_⟩
  · have hne : (one.frame ++ b).length ≠ 0 := by
      rw [length_append]
      omega
    unfold incoming
    rw [hready.idle, if_neg Bool.false_ne_true, if_neg hne, heq, hput]
    exact if_pos rfl
  · have hempty : ({ a1 with direct := none } : Assembler).rest = [] := by
      exact congrArg Buffer.remaining hdnsbuf
    rw [hrest', hempty, nil_append]
  · have hlength : ({ a1 with direct := none } : Assembler).dnsbuf.length = 512 := congrArg Buffer.length hdnsbuf
    have hle := hready1.length_putmem hput
    unfold UINT_MAX at hle
    omega

theorem incoming_held {buf : Bytes} (h : Ready a) (hrest : a.rest = one.frame ++ b) (hbuf : buf.length ≠ 0) :
    a.incoming cb buf = a.incomingGeneric cb buf := by
  have hlen : a.rest.length = 3 + b.length := by
    rw [hrest, length_append]
    rfl
  have hget : get16 a.rest = 1 := by
    rw [hrest, get16_frames]
    rfl
  have hdirect : a.incomingDirectNonEmpty cb buf = .ok (false, a) := by
    unfold incomingDirectNonEmpty
    rw [peekuint16_eq, if_pos (by omega)]
    exact if_pos (Nat.le_sub_of_add_le (by rw [show a.current.remaining.length = a.rest.length from rfl]; omega))
  have hremaining : a.dnsbuf.remaining.length = 3 + b.length := by
    rw [← h.current_eq]
    exact hlen
  unfold incoming
  rw [h.idle, if_neg Bool.false_ne_true, if_neg hbuf, if_neg (by omega), hdirect]
  exact if_neg (by omega)

theorem incoming_overrun (cb : Callback) (h : Ready a) (hrest : a.rest = one.frame ++ b) (hused : a.dnsbuf.used = 2 ^ 32 - 4)
    (hlength : a.dnsbuf.length < 2 ^ 32) : a.incoming cb (frames [one, one]) = .error .overrun := by
  have hsix : (frames [one, one]).length = 6 := length_frames_replicate 2
  have hput : a.dnsbuf.putmem (frames [one, one]) = .error .overrun :=
    Buffer.putmem_overrun (by omega) (by omega) (by omega) (by omega) (by omega)
  rw [incoming_held h hrest (by omega)]
  unfold incomingGeneric putmem
  rw [h.current_eq, hput]

theorem incomings_overrun {n : Nat} (hn : 3 * n + 4 = 2 ^ 32) :
    [frames (replicate (n + 1) one), frames [one, one]].foldlM (incoming stop) init = .error .overrun := by
  obtain ⟨k, rfl⟩ : ∃ k, n = k + 1 := ⟨n - 1, by omega⟩
  have hlen := length_frames_replicate (k + 1)
  obtain ⟨a, hin, hready, hrest, hused, hlength⟩ := incoming_stop (b := frames (replicate (k + 1) one)) (by omega) (by omega)
  have hsecond := incoming_overrun stop hready hrest (by omega) hlength
  rw [foldlM_cons, replicate_succ, frames_cons, hin]
  show [frames [one, one]].foldlM (incoming stop) a = .error .overrun
  rw [foldlM_cons, hsecond]
  rfl

/-- Almost 4 GiB of messages are held after the first one, since the callback has stopped. Two more messages make the size of
    the new memory come round. -/
theorem held_overrun :
    [frames (replicate 1431655765 one), frames [one, one]].foldlM (incoming stop) init = .error .overrun :=
  incomings_overrun (n := 1431655764) (by decide)

end Assembler

end OqsBind.Isc.DnsStream
