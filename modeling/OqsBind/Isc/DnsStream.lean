import OqsBind.Isc.Endian

/-! The assembler of DNS messages from a stream (`dnsstream.h`), and what it needs of `isc_buffer_t`. -/

namespace OqsBind.Isc.DnsStream

def ISC_DNSSTREAM_STATIC_BUFFER_SIZE : Nat := 512
def ISC_BUFFER_INCR : Nat := 512
def UINT_MAX : Nat := 2 ^ 32 - 1

/-- A failed `INSIST` of the assembler, `ISC_R_NOMEMORY` from `isc_buffer_reserve`, or memory that is written beyond its end.
    `fuel` is for a loop that does not end. -/
inductive Fault where
  | insist | nomemory | overrun | fuel
deriving DecidableEq, Repr

structure Buffer where
  length : Nat
  current : Nat
  remaining : Bytes
  used_le : current + remaining.length ≤ length

namespace Buffer

def used (b : Buffer) : Nat := b.current + b.remaining.length

/-- `isc_buffer_init`. -/
def empty (length : Nat) : Buffer := ⟨length, 0, [], Nat.zero_le _⟩

/-- `isc_buffer_init` and `isc_buffer_add`. -/
def ofBytes (data : Bytes) : Buffer := ⟨data.length, 0, data, by omega⟩

/-- `isc_buffer_clear`. -/
def clear (b : Buffer) : Buffer := empty b.length

/-- `isc_buffer_peekuint16`. -/
def peekuint16 (b : Buffer) : Option Nat := if 2 ≤ b.remaining.length then some (get16 b.remaining) else none

/-- `isc_buffer_forward`; the callers make sure that there is as much. -/
def forward (b : Buffer) (n : Nat) : Buffer :=
  ⟨b.length, b.current + min n b.remaining.length, b.remaining.drop n, by
    have := b.used_le
    rw [List.length_drop]
    omega⟩

/-- `isc_buffer_trycompact`. -/
def trycompact (b : Buffer) : Buffer :=
  if b.remaining.length ≤ b.current then ⟨b.length, 0, b.remaining, by
    have := b.used_le
    omega⟩
  else b

/-- The new size in `isc_buffer_reserve`. The sum is one of 32-bit numbers. -/
def newLength (b : Buffer) (size : Nat) : Nat :=
  min ((((size + b.used) % 2 ^ 32) + ISC_BUFFER_INCR - 1) / ISC_BUFFER_INCR * ISC_BUFFER_INCR) UINT_MAX

/-- `isc_buffer_putmem`, for a buffer with a memory context. -/
def putmem (b : Buffer) (data : Bytes) : Except Fault Buffer :=
  if h : b.used + data.length ≤ b.length then
    .ok ⟨b.length, b.current, b.remaining ++ data, by
      rw [List.length_append]
      unfold used at h
      omega⟩
  else if h : b.used + data.length ≤ b.newLength data.length then
    .ok ⟨b.newLength data.length, b.current, b.remaining ++ data, by
      rw [List.length_append]
      unfold used at h
      omega⟩
  else .error (if b.used ≤ b.newLength data.length then .nomemory else .overrun)

end Buffer

/-- The status of a message, or `ISC_R_UNSET`. -/
inductive Result where
  | success | nomore | range | unset
deriving DecidableEq, Repr

/-- A call of the callback. -/
structure Event where
  result : Result
  region : Bytes
deriving DecidableEq, Repr

/-- What the callback answers, given all of its calls up to this one. -/
abbrev Callback := List Event → Bool

/-- `isc_dnsstream_assembler_t`. `direct` is the buffer to which `current` points if that is not `dnsbuf`. -/
structure Assembler where
  dnsbuf : Buffer
  direct : Option Buffer
  callingCb : Bool
  result : Result
  calls : List Event

namespace Assembler

/-- `isc_dnsstream_assembler_init`. -/
def init : Assembler := ⟨.empty ISC_DNSSTREAM_STATIC_BUFFER_SIZE, none, false, .unset, []⟩

def current (a : Assembler) : Buffer := a.direct.getD a.dnsbuf

def setCurrent (a : Assembler) (b : Buffer) : Assembler :=
  match a.direct with
  | none => { a with dnsbuf := b }
  | some _ => { a with direct := some b }

/-- `isc_dnsstream_assembler_clear`. -/
def clear (a : Assembler) : Assembler := { a with dnsbuf := a.dnsbuf.clear, direct := a.direct.map Buffer.clear, result := .unset }

/-- `isc_buffer_putmem(dnsasm->current, ...)`. -/
def putmem (a : Assembler) (data : Bytes) : Except Fault Assembler :=
  match a.current.putmem data with
  | .ok b => .ok (a.setCurrent b)
  | .error e => .error e

/-- `isc_buffer_trycompact(dnsasm->current)`. -/
def trycompact (a : Assembler) : Assembler := a.setCurrent a.current.trycompact

/-- `isc__dnsstream_assembler_callcb`. -/
def callcb (cb : Callback) (a : Assembler) (result : Result) (region : Bytes) : Bool × Assembler :=
  (cb (a.calls ++ [⟨result, region⟩]), { a with result, callingCb := false, calls := a.calls ++ [⟨result, region⟩] })

/-- `isc__dnsstream_assembler_handle_message`. -/
def handleMessage (cb : Callback) (a : Assembler) : Except Fault (Bool × Assembler) :=
  if a.callingCb then .error .insist
  else
    match a.current.peekuint16 with
    | none => .ok (false, (a.callcb cb .nomore []).2)
    | some dnslen =>
      if dnslen = 0 then .ok (false, (a.clear.callcb cb .range []).2)
      else if a.current.remaining.length - 2 < dnslen then .ok (false, (a.callcb cb .nomore []).2)
      else
        let a := a.setCurrent (a.current.forward 2)
        let (cont, a) := a.callcb cb .success (a.current.remaining.take dnslen)
        .ok (cont, if dnslen ≤ a.current.remaining.length then a.setCurrent (a.current.forward dnslen) else a)

/-- `isc__dnsstream_assembler_processing`. -/
def processing (cb : Callback) : (fuel : Nat) → Assembler → Except Fault Assembler
  | 0, _ => .error .fuel
  | fuel + 1, a =>
    match a.handleMessage cb with
    | .error e => .error e
    | .ok (false, a) => .ok a
    | .ok (true, a) => if a.current.remaining.length = 0 then .ok a else processing cb fuel a

/-- `isc__dnsstream_assembler_incoming_direct`. -/
def incomingDirect (cb : Callback) (a : Assembler) (buf : Bytes) : Except Fault Assembler :=
  if a.direct.isSome then .error .insist
  else
    match processing cb (buf.length + 1) { a with direct := some (.ofBytes buf) } with
    | .error e => .error e
    | .ok a' =>
      let a := { a' with direct := none }
      if a'.current.remaining.length ≠ 0 then a.putmem a'.current.remaining else .ok a

/-- `isc__dnsstream_assembler_incoming_direct_non_empty`. -/
def incomingDirectNonEmpty (cb : Callback) (a : Assembler) (buf : Bytes) : Except Fault (Bool × Assembler) :=
  match a.current.peekuint16 with
  | none => .ok (false, a)
  | some dnslen =>
    let remainingNoLen := a.current.remaining.length - 2
    if dnslen ≤ remainingNoLen then .ok (false, a)
    else
      let untilComplete := dnslen - remainingNoLen
      if untilComplete ≤ buf.length then
        match a.putmem (buf.take untilComplete) with
        | .error e => .error e
        | .ok a =>
          match a.handleMessage cb with
          | .error e => .error e
          | .ok (cont, a) =>
            let a := a.trycompact
            let unprocessed := buf.drop untilComplete
            if a.current.remaining.length ≠ 0 then .error .insist
            else if unprocessed.length = 0 then .ok (true, a)
            else
              match if cont then a.incomingDirect cb unprocessed else a.putmem unprocessed with
              | .error e => .error e
              | .ok a => .ok (true, a)
      else .ok (false, a)

def incomingGeneric (cb : Callback) (a : Assembler) (buf : Bytes) : Except Fault Assembler :=
  match a.putmem buf with
  | .error e => .error e
  | .ok a =>
    match processing cb (a.current.remaining.length + 1) a with
    | .error e => .error e
    | .ok a => .ok a.trycompact

/-- `isc_dnsstream_assembler_incoming`. To put no octets into a buffer is to do nothing. -/
def incoming (cb : Callback) (a : Assembler) (buf : Bytes) : Except Fault Assembler :=
  if a.callingCb then .error .insist
  else if buf.length = 0 then a.incomingGeneric cb []
  else if a.dnsbuf.remaining.length = 0 then a.incomingDirect cb buf
  else
    match a.incomingDirectNonEmpty cb buf with
    | .error e => .error e
    | .ok (true, a) => .ok a
    | .ok (false, a) =>
      if a.dnsbuf.remaining.length = 1 then
        match a.putmem (buf.take 1) with
        | .error e => .error e
        | .ok a =>
          match a.incomingDirectNonEmpty cb (buf.drop 1) with
          | .error e => .error e
          | .ok (true, a) => .ok a
          | .ok (false, a) => a.incomingGeneric cb (buf.drop 1)
      else a.incomingGeneric cb buf

end Assembler

end OqsBind.Isc.DnsStream
