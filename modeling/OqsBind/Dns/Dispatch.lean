import OqsBind.Isc.Endian

/-! TCP dispatches and their responses (`dispatch.c`). All dispatches of a manager share one table. Logs, statistics and the
    connect and send callbacks are left out: what is observed are the response callbacks. -/

namespace OqsBind.Dns.TcpDispatch
open Isc Function

/-- An `isc_sockaddr_t`, as `isc_sockaddr_equal` compares it. -/
structure Sockaddr where
  addr : Bytes
  port : UInt16
deriving DecidableEq, Repr

inductive Result where
  | success | timedout | unexpected | notfound | shuttingdown | canceled | eof | connectionreset | nomore | failure
deriving DecidableEq, Repr

/-- `dns_dispatchstate_t`. -/
inductive DispatchState where
  | none | connecting | connected | canceled
deriving DecidableEq, Repr

/-- `dns_dispentry_t`. Times are in microseconds, 0 is the epoch; timeouts are in milliseconds. -/
structure Dispentry where
  disp : Nat
  state : DispatchState
  bucket : Nat
  timeout : Nat
  start : Nat
  peer : Sockaddr
  port : UInt16
  id : UInt16
  reading : Bool
deriving DecidableEq, Repr

/-- `dns_dispatch_t`, for `isc_socktype_tcp`. -/
structure Dispatch where
  localaddr : Sockaddr
  localport : UInt16
  peer : Sockaddr
  state : DispatchState
  reading : Bool
  pending : List Nat
  active : List Nat
  requests : Nat
  timedout : Nat
deriving DecidableEq, Repr

/-- `dns_dispatchmgr_t` with the table of its `dns_qid_t`. Responses and dispatches are numbered as they are made. -/
structure Mgr where
  entries : Nat → Option Dispentry
  nentries : Nat
  dispatches : Nat → Option Dispatch
  ndispatches : Nat
  table : Nat → List Nat

def Mgr.init : Mgr := ⟨fun _ => none, 0, fun _ => none, 0, fun _ => []⟩

/-- A call of a response callback. -/
structure Callback where
  entry : Nat
  result : Result
  region : Bytes
deriving DecidableEq, Repr

/-- What can stop a function of the source. -/
inductive Fault where
  | invalid
  | insist
  /-- an element that is not in the list is unlinked from it -/
  | link
  | unreachable
deriving DecidableEq, Repr

def insist (fault : Fault) (c : Prop) [Decidable c] : Except Fault Unit := if c then .ok () else .error fault

namespace Mgr

def entry (m : Mgr) (e : Nat) : Except Fault Dispentry :=
  match m.entries e with
  | some resp => .ok resp
  | none => .error .invalid

def dispatch (m : Mgr) (d : Nat) : Except Fault Dispatch :=
  match m.dispatches d with
  | some disp => .ok disp
  | none => .error .invalid

def updateEntry (m : Mgr) (e : Nat) (f : Dispentry → Dispentry) : Mgr :=
  { m with entries := update m.entries e ((m.entries e).map f) }

def updateDispatch (m : Mgr) (d : Nat) (f : Dispatch → Dispatch) : Mgr :=
  { m with dispatches := update m.dispatches d ((m.dispatches d).map f) }

end Mgr

def DNS_QID_BUCKETS : Nat := 16411
def DNS_QID_INCREMENT : UInt16 := 16433

section
variable (hash : Sockaddr → UInt32)

/-- `dns_hash`, with `isc_sockaddr_hash` as a parameter. -/
def dnsHash (dest : Sockaddr) (id port : UInt16) : Nat :=
  (hash dest ^^^ ((id.toUInt32 <<< 16) ||| port.toUInt32)).toNat % DNS_QID_BUCKETS

/-- The test of `entry_search`. -/
def Dispentry.isFor (dest : Sockaddr) (id port : UInt16) (resp : Dispentry) : Bool :=
  resp.id == id && dest == resp.peer && resp.port == port

/-- `entry_search`. -/
def entrySearch (m : Mgr) (dest : Sockaddr) (id port : UInt16) (bucket : Nat) : Option Nat :=
  (m.table bucket).find? fun e => (m.entries e).any (Dispentry.isFor dest id port)

/-- `dns_dispatch_createtcp`: `localport` stays 0, as `dispatch_allocate` leaves it. -/
def createtcp (m : Mgr) (localaddr : Option Sockaddr) (destaddr : Sockaddr) : Mgr :=
  { m with
    dispatches := update m.dispatches m.ndispatches (some {
      localaddr := localaddr.getD ⟨List.replicate destaddr.addr.length 0, 0⟩
      localport := 0
      peer := destaddr
      state := .none
      reading := false
      pending := []
      active := []
      requests := 0
      timedout := 0 })
    ndispatches := m.ndispatches + 1 }

/-- The loop of `dns_dispatch_add`, with `tries` rounds left. -/
def chooseId (m : Mgr) (dest : Sockaddr) (port : UInt16) (fixedid : Bool) : (tries : Nat) → UInt16 → Option UInt16
  | 0, _ => none
  | tries + 1, id =>
    match entrySearch m dest id port (dnsHash hash dest id port) with
    | none => some id
    | some _ => if fixedid then none else chooseId m dest port fixedid tries (id + DNS_QID_INCREMENT)

/-- `dns_dispatch_add`, from the ID `*idp` with `DNS_DISPATCHOPT_FIXEDID`, or from a random one. -/
def add (m : Mgr) (d : Nat) (timeout : Nat) (dest : Sockaddr) (fixedid : Bool) (id : UInt16) :
    Except Fault (Result × Mgr) := do
  let disp ← m.dispatch d
  if disp.state = .canceled then return (.canceled, m)
  let port := disp.localaddr.port
  match chooseId hash m dest port fixedid 65 id with
  | none => return (.nomore, m)
  | some id =>
    let bucket := dnsHash hash dest id port
    let resp : Dispentry := ⟨d, .none, bucket, timeout, 0, dest, port, id, false⟩
    let m := { m with
      entries := update m.entries m.nentries (some resp)
      nentries := m.nentries + 1
      table := update m.table bucket (m.table bucket ++ [m.nentries]) }
    return (.success, m.updateDispatch d fun disp => { disp with requests := disp.requests + 1 })

/-- `tcp_dispatch_connect`. -/
def tcpDispatchConnect (m : Mgr) (e : Nat) (now : Nat) : Except Fault Mgr := do
  let resp ← m.entry e
  let disp ← m.dispatch resp.disp
  match disp.state with
  | .none =>
    return (m.updateEntry e ({ · with state := .connecting, start := now })).updateDispatch resp.disp
      fun disp => { disp with state := .connecting, pending := disp.pending ++ [e] }
  | .connecting =>
    return (m.updateEntry e ({ · with state := .connecting, start := now })).updateDispatch resp.disp
      fun disp => { disp with pending := disp.pending ++ [e] }
  | .connected =>
    -- the reading of the dispatch is restarted if it has stopped
    insist .insist (disp.reading ∨ now ≠ 0)
    return (m.updateEntry e ({ · with state := .connected, start := now, reading := true })).updateDispatch resp.disp
      fun disp => { disp with active := disp.active ++ [e], reading := true }
  | .canceled => throw .unreachable

/-- A round of the loop of `tcp_connected`. -/
def connectPending (d : Nat) (eresult : Result) (m : Mgr) (e : Nat) : Except Fault Mgr := do
  let resp ← m.entry e
  let m := m.updateDispatch d fun disp => { disp with pending := disp.pending.erase e }
  if resp.state = .canceled then return m
  else if eresult = .success then
    return (m.updateEntry e ({ · with state := .connected, reading := true })).updateDispatch d
      fun disp => { disp with active := disp.active ++ [e] }
  else return m.updateEntry e ({ · with state := .none })

/-- `tcp_connected`. -/
def tcpConnected (m : Mgr) (d : Nat) (eresult : Result) : Except Fault Mgr := do
  let disp ← m.dispatch d
  insist .insist (disp.state = .connecting)
  let m ← disp.pending.foldlM (connectPending d eresult) m
  let disp ← m.dispatch d
  if disp.active.isEmpty then return m.updateDispatch d ({ · with state := .canceled })
  else if eresult = .success then return m.updateDispatch d ({ · with state := .connected, reading := true })
  else return m.updateDispatch d ({ · with state := .none })

/-- `dispentry_runtime`, and the time that is left: it may be negative. -/
def Dispentry.remaining (resp : Dispentry) (now : Nat) : Int :=
  (resp.timeout : Int) - (if resp.start = 0 then 0 else (now - resp.start) / 1000 : Nat)

def DNS_MESSAGE_HEADERLEN : Nat := 12

def peekheader (region : Bytes) : Option (UInt16 × Bool) :=
  if region.length < DNS_MESSAGE_HEADERLEN then none
  else some (UInt16.ofNat (get16 region), get16 (region.drop 2) &&& 0x8000 ≠ 0)

def tcpRecvSuccess (m : Mgr) (disp : Dispatch) (peer : Sockaddr) (region : Bytes) : Result × Option Nat :=
  match peekheader region with
  | none => (.unexpected, none)
  | some (id, qr) =>
    if qr = false then (.unexpected, none)
    else
      match entrySearch m peer id disp.localport (dnsHash hash peer id disp.localport) with
      | none => (.notfound, none)
      | some e => if (m.entries e).any (·.reading) then (.success, some e) else (.unexpected, none)

abbrev Scheduled := List (Nat × Result)

/-- `tcp_recv_add`: the list that the response is unlinked from is that of its own dispatch. -/
def tcpRecvAdd (m : Mgr) (resps : Scheduled) (e : Nat) (result : Result) : Except Fault (Mgr × Scheduled) := do
  let resp ← m.entry e
  let disp ← m.dispatch resp.disp
  insist .link (e ∈ disp.active)
  insist .insist resp.reading
  return ((m.updateDispatch resp.disp fun disp => { disp with active := disp.active.erase e }).updateEntry e
    ({ · with reading := false }), resps ++ [(e, result)])

/-- The first phase of `tcp_recv`: the result, and the response that it is for. -/
def recvPhase1 (m : Mgr) (disp : Dispatch) (result : Result) (region : Bytes) : Result × Option Nat :=
  match result with
  | .timedout =>
    match disp.active with
    | [] => (.notfound, none)
    | e :: _ => (.timedout, some e)
  | .success => tcpRecvSuccess hash m disp disp.peer region
  | result => (result, none)

def recvPhase2 (disp : Dispatch) (result : Result) : Result × Nat :=
  if result = .notfound then
    if 0 < disp.timedout then (.notfound, disp.timedout - 1) else (.unexpected, disp.timedout)
  else (result, disp.timedout)

/-- A round of the loop of the third phase. -/
def expire (now : Nat) (s : Mgr × Scheduled) (e : Nat) : Except Fault (Mgr × Scheduled) := do
  let resp ← s.1.entry e
  if resp.remaining now ≤ 0 then tcpRecvAdd s.1 s.2 e .timedout else return s

/-- The results that do not end the reading, in the fourth phase. -/
def Result.goesOn (result : Result) : Bool := result = .success ∨ result = .timedout ∨ result = .notfound

/-- `tcp_recv_shutdown`. -/
def tcpRecvShutdown (d : Nat) (result : Result) (s : Mgr × Scheduled) : Except Fault (Mgr × Scheduled) := do
  let disp ← s.1.dispatch d
  let (m, resps) ← disp.active.foldlM (fun s e => tcpRecvAdd s.1 s.2 e result) s
  return (m.updateDispatch d ({ · with state := .canceled }), resps)

/-- The fifth phase: the reading is resumed if there are active responses. -/
def resumeReading (d now : Nat) (m : Mgr) : Except Fault Mgr := do
  let disp ← m.dispatch d
  match disp.active with
  | [] => return m
  | e :: _ =>
    let resp ← m.entry e
    insist .insist (0 < resp.remaining now)
    insist .insist (resp.start ≠ 0)
    return m.updateDispatch d ({ · with reading := true })

/-- The end of the first phase. -/
def scheduleResp (m : Mgr) (result : Result) : Option Nat → Except Fault (Mgr × Scheduled)
  | none => .ok (m, [])
  | some e => tcpRecvAdd m [] e result

def recvFinish (d now : Nat) (active : List Nat) (result : Result) (s : Mgr × Scheduled) :
    Except Fault (Mgr × Scheduled) := do
  let s ← active.foldlM (expire now) s
  let s ← if result.goesOn then .ok s else tcpRecvShutdown d result s
  let m ← resumeReading d now s.1
  return (m, s.2)

/-- `tcp_recv`. -/
def tcpRecv (m : Mgr) (d : Nat) (result : Result) (region : Bytes) (now : Nat) : Except Fault (Mgr × List Callback) := do
  let disp ← m.dispatch d
  insist .insist disp.reading
  let (result', resp) := recvPhase1 hash m disp result region
  let m := m.updateDispatch d fun disp =>
    { disp with reading := false, timedout := if result = .timedout ∧ resp.isSome then disp.timedout + 1 else disp.timedout }
  let (m, resps) ← scheduleResp m result' resp
  let disp ← m.dispatch d
  let (result, timedout) := recvPhase2 disp result'
  let (m, resps) ← recvFinish d now disp.active result (m.updateDispatch d ({ · with timedout }), resps)
  return (m, resps.map fun (e, result) => ⟨e, result, region⟩)

/-- `tcp_dispatch_getnext`. -/
def tcpDispatchGetnext (m : Mgr) (e : Nat) : Except Fault Mgr := do
  let resp ← m.entry e
  let m := if resp.reading then m
    else (m.updateEntry e ({ · with reading := true })).updateDispatch resp.disp
      fun disp => { disp with active := disp.active ++ [e] }
  return m.updateDispatch resp.disp ({ · with reading := true })

/-- `dns_dispatch_getnext`. -/
def getnext (m : Mgr) (e : Nat) (now : Nat) : Except Fault (Result × Mgr) := do
  let resp ← m.entry e
  if resp.remaining now ≤ 0 then return (.timedout, m)
  return (.success, ← tcpDispatchGetnext m e)

/-- `dns_dispatch_resume`. -/
def resume (m : Mgr) (e : Nat) : Except Fault Mgr := do
  let resp ← m.entry e
  let disp ← m.dispatch resp.disp
  insist .insist (0 < disp.timedout)
  tcpDispatchGetnext (m.updateDispatch resp.disp fun disp => { disp with timedout := disp.timedout - 1 }) e

/-- `tcp_dispentry_cancel`. -/
def tcpDispentryCancel (m : Mgr) (e : Nat) : Except Fault (Mgr × List Callback) := do
  let resp ← m.entry e
  if resp.state = .canceled then return (m, [])
  let (m, resps) ← if resp.state = .connected ∧ resp.reading then tcpRecvAdd m [] e .canceled else pure (m, [])
  insist .link (e ∈ m.table resp.bucket)
  let m := { m with table := update m.table resp.bucket ((m.table resp.bucket).erase e) }
  return (m.updateEntry e ({ · with state := .canceled }), resps.map fun (e, result) => ⟨e, result, []⟩)

/-- What happens to a manager: calls of its functions, and events of the network. -/
inductive Op where
  | createtcp (localaddr : Option Sockaddr) (destaddr : Sockaddr)
  | add (d timeout : Nat) (dest : Sockaddr) (fixedid : Bool) (id : UInt16)
  | connect (e now : Nat)
  | connected (d : Nat) (eresult : Result)
  | recv (d : Nat) (result : Result) (region : Bytes) (now : Nat)
  | getnext (e now : Nat)
  | resume (e : Nat)
  | cancel (e : Nat)

/-- A response may be connected once, and is read from only while it is connected. -/
def Mgr.hasState (m : Mgr) (e : Nat) (state : DispatchState) : Bool := (m.entries e).any (·.state = state)

/-- One step of a run. It is not possible if a function does not return, or is not called in this state. The clocks of loops
    are not at the epoch. -/
def step (m : Mgr) : Op → Option Mgr
  | .createtcp localaddr destaddr => some (createtcp m localaddr destaddr)
  | .add d timeout dest fixedid id => ((add hash m d timeout dest fixedid id).map Prod.snd).toOption
  | .connect e now => if m.hasState e .none ∧ now ≠ 0 then (tcpDispatchConnect m e now).toOption else none
  | .connected d eresult => (tcpConnected m d eresult).toOption
  | .recv d result region now => ((tcpRecv hash m d result region now).map Prod.fst).toOption
  | .getnext e now => if m.hasState e .connected then ((getnext m e now).map Prod.snd).toOption else none
  | .resume e => if m.hasState e .connected then (resume m e).toOption else none
  | .cancel e => ((tcpDispentryCancel m e).map Prod.fst).toOption

end

end OqsBind.Dns.TcpDispatch
