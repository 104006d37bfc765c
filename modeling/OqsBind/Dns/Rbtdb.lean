import Mathlib.Algebra.Group.Nat.Defs
import Mathlib.Logic.Function.Basic

/-! The versions of a zone database (`dns/rbtdb.c`, `dns/rbt-zonedb.c`). A node keeps, for each type, the headers of all
    rdatasets that some version may still read, the newest first; a version reads the first one that is not newer than
    itself. Old headers go when the last reference to their node does. Each version lists the nodes that it changed, with
    a reference to each, and hands this list on when it is closed.

    Nodes are given by their names `N`: a node without data and references is as good as deleted. What is in a slab, and
    how two slabs are merged or subtracted, is left open. -/

namespace OqsBind.Dns.Rbtdb

/-- What stops the program. -/
inductive Fault where
  | require
  | insist
  | runtimeCheck
deriving DecidableEq, Repr

inductive Result where
  | success
  | unchanged
  | notexact
  | nxrrset
  | singleton
  | nospace
  | failure
  | notfound
  | notimplemented
  | notzonetop
  | cnameandother
deriving DecidableEq, Repr

def TYPE_CNAME : Nat := 5
def TYPE_SOA : Nat := 6
def TYPE_SIG : Nat := 24
def TYPE_KEY : Nat := 25
def TYPE_RRSIG : Nat := 46
def TYPE_NSEC : Nat := 47
def TYPE_ANY : Nat := 255

/-- `dns_typepair_t` of an rdataset in a zone: type 0 has no rdata. -/
structure TypePair where
  type : Nat
  covers : Nat
  type_ne : type ≠ 0
deriving DecidableEq, Repr

variable {N S : Type}

/-- What a header holds of an rdataset. -/
structure Rdataset (S : Type) where
  ttl : Nat
  slab : S
deriving DecidableEq, Repr

/-- `dns_slabheader_t`. A header with the attribute `NONEXISTENT` has no rdataset. -/
structure Header (S : Type) where
  address : Nat
  serial : Nat
  ignore : Bool
  rdataset : Option (Rdataset S)
deriving DecidableEq, Repr

/-- A header of the list `node->data` with the ones below it. -/
structure Chain (S : Type) where
  type : TypePair
  top : Header S
  down : List (Header S)
deriving DecidableEq, Repr

def Chain.headers (c : Chain S) : List (Header S) := c.top :: c.down

/-- `dns_rbtnode_t`. -/
structure Node (S : Type) where
  references : Nat
  dirty : Bool
  data : List (Chain S)
deriving DecidableEq, Repr

/-- `rbtdb_changed_t`. -/
structure Changed (N : Type) where
  node : N
  dirty : Bool
deriving DecidableEq, Repr

/-- `dns_rbtdb_version_t`. -/
structure Version (N : Type) where
  serial : Nat
  references : Nat
  changedList : List (Changed N)
  resignedList : List N
deriving DecidableEq, Repr

/-- `dns_rbtdb_t`. Versions are told apart by their serials. -/
structure Db (N S : Type) where
  nodes : N → Node S
  currentVersion : Nat
  openVersions : List (Version N)
  futureVersion : Option (Version N)
  nextSerial : Nat
  leastSerial : Nat
  nextAddress : Nat

/-- The first header that is not newer than the version, and not ignored. -/
def visible (serial : Nat) (headers : List (Header S)) : Option (Header S) :=
  headers.find? fun h => h.serial ≤ serial && !h.ignore

def Chain.active (c : Chain S) (serial : Nat) : Option (Rdataset S) :=
  (visible serial c.headers).bind (·.rdataset)

/-- The loop of `zone_findrdataset`. -/
def findLoop (serial : Nat) (matchtype : TypePair) (sigmatchtype : Option TypePair) :
    List (Chain S) → Option (Rdataset S) → Option (Rdataset S) → Option (Rdataset S) × Option (Rdataset S)
  | [], found, foundsig => (found, foundsig)
  | c :: cs, found, foundsig =>
    match c.active serial with
    | none => findLoop serial matchtype sigmatchtype cs found foundsig
    | some rdataset =>
      if c.type = matchtype then
        if foundsig.isSome then (some rdataset, foundsig)
        else findLoop serial matchtype sigmatchtype cs (some rdataset) foundsig
      else if some c.type = sigmatchtype then
        if found.isSome then (found, some rdataset)
        else findLoop serial matchtype sigmatchtype cs found (some rdataset)
      else findLoop serial matchtype sigmatchtype cs found foundsig

/-- `zone_findrdataset`: the rdataset, and its signatures. -/
def findrdataset (db : Db N S) (node : N) (serial : Nat) (t : TypePair) :
    Except Result (Rdataset S × Option (Rdataset S)) :=
  let sigmatchtype : Option TypePair := if t.covers = 0 then some ⟨TYPE_RRSIG, t.type, by decide⟩ else none
  match findLoop serial t sigmatchtype (db.nodes node).data none none with
  | (some found, foundsig) => .ok (found, foundsig)
  | (none, _) => .error .notfound

/-- `cname_and_other_data`. -/
def cnameAndOtherData (node : Node S) (serial : Nat) : Bool :=
  let active (c : Chain S) : Bool := (c.active serial).isSome
  let isCname (c : Chain S) : Bool := c.type.type = TYPE_CNAME && c.type.covers = 0
  let isOther (c : Chain S) : Bool :=
    c.type.type != TYPE_KEY && c.type.type != TYPE_SIG && c.type.type != TYPE_NSEC && c.type.type != TYPE_RRSIG
  node.data.any (fun c => isCname c && active c) && node.data.any fun c => !isCname c && isOther c && active c

/-- `rollback_node`. -/
def rollbackNode (node : Node S) (serial : Nat) : Node S :=
  let mark (h : Header S) : Header S := if h.serial = serial then { h with ignore := true } else h
  { node with
    data := node.data.map fun c => { c with top := mark c.top, down := c.down.map mark }
    dirty := node.dirty || node.data.any fun c => c.headers.any (·.serial = serial) }

/-- The first loop of `clean_zone_node`: duplicates and ignored headers below `dparent` go. -/
def dropDuplicates (dparent : Header S) : List (Header S) → Except Fault (List (Header S))
  | [] => .ok []
  | dcurrent :: down =>
    if dparent.serial < dcurrent.serial then .error .insist
    else if dcurrent.serial = dparent.serial ∨ dcurrent.ignore = true then dropDuplicates dparent down
    else do
      let down ← dropDuplicates dcurrent down
      .ok (dcurrent :: down)

def dropOld (leastSerial : Nat) (down : List (Header S)) : Except Fault (List (Header S)) :=
  if (down.dropWhile fun h => !(h.serial < leastSerial)).any fun h => leastSerial < h.serial then .error .insist
  else .ok (down.takeWhile fun h => !(h.serial < leastSerial))

/-- The body of the loop of `clean_zone_node`, for one chain. -/
def cleanChain (leastSerial : Nat) (c : Chain S) : Except Fault (Option (Chain S)) := do
  let down ← dropDuplicates c.top c.down
  let remaining : Option (Chain S) :=
    if c.top.ignore then
      match down with
      | [] => none
      | top :: down => some { c with top := top, down := down }
    else some { c with down := down }
  match remaining with
  | none => .ok none
  | some c =>
    let down ← dropOld leastSerial c.down
    if down.isEmpty && c.top.rdataset.isNone then .ok none else .ok (some { c with down := down })

/-- The loop of `clean_zone_node`. -/
def cleanChains (leastSerial : Nat) : List (Chain S) → Except Fault (List (Chain S))
  | [] => .ok []
  | c :: cs => do
    let c ← cleanChain leastSerial c
    let cs ← cleanChains leastSerial cs
    .ok (c.toList ++ cs)

/-- `clean_zone_node`. -/
def cleanZoneNode (node : Node S) (leastSerial : Nat) : Except Fault (Node S) :=
  if leastSerial = 0 then .error .require
  else do
    let data ← cleanChains leastSerial node.data
    .ok { node with data := data, dirty := node.dirty && data.any fun c => !c.down.isEmpty }

/-- `dns__rbtdb_decref`. -/
def decref (node : Node S) (leastSerial : Nat) : Except Fault (Node S) :=
  if node.references = 0 then .error .insist
  else
    let node := { node with references := node.references - 1 }
    if node.references = 0 ∧ node.dirty = true then cleanZoneNode node leastSerial else .ok node

/-- `dns__rbtdb_newref`. -/
def newref (node : Node S) : Node S := { node with references := node.references + 1 }

/-- `dns_rdataslab_merge` and `dns_rdataslab_subtract`, with the flags that the callers below give. -/
structure Slabs (S : Type) where
  merge : TypePair → (exact force : Bool) → (old new : S) → Except Result S
  subtract : TypePair → (exact : Bool) → (old sub : S) → Except Result S

/-- `DNS_DBADD_MERGE`, `DNS_DBADD_EXACT` and `DNS_DBADD_EXACTTTL`. -/
structure AddOptions where
  merge : Bool
  exact : Bool
  exactttl : Bool
deriving DecidableEq, Repr

/-- The chain of a type. -/
def Node.chain? (node : Node S) (t : TypePair) : Option (Chain S) := node.data.find? (·.type = t)

/-- A new header is put on top of the chain of its type. -/
def pushHeader (t : TypePair) (h : Header S) : List (Chain S) → List (Chain S)
  | [] => []
  | c :: cs => if c.type = t then { c with top := h, down := c.headers } :: cs else c :: pushHeader t h cs

variable [DecidableEq N]

def Db.setNode (db : Db N S) (n : N) (node : Node S) : Db N S := { db with nodes := Function.update db.nodes n node }

/-- `add_changed`. -/
def addChanged (db : Db N S) (n : N) : Except Fault (Version N × Db N S) :=
  match db.futureVersion with
  | none => .error .require
  | some version =>
    if (db.nodes n).references = 0 then .error .insist
    else
      let version := { version with changedList := version.changedList ++ [⟨n, false⟩] }
      .ok (version, { db.setNode n (newref (db.nodes n)) with futureVersion := some version })

/-- `changed->dirty = true`, for the record that was added last. -/
def Version.markChanged (version : Version N) (n : N) : Version N :=
  { version with changedList := version.changedList.dropLast ++ [⟨n, true⟩] }

/-- `dns__zonedb_resigndelete`, when the header is in the heap. -/
def resigndelete (db : Db N S) (n : N) : Db N S :=
  { db.setNode n (newref (db.nodes n)) with
    futureVersion := db.futureVersion.map fun v => { v with resignedList := v.resignedList ++ [n] } }

def linkHeader (db : Db N S) (version : Version N) (n : N) (c : Chain S) (rdataset : Option (Rdataset S)) :
    Except Fault (Db N S) :=
  if version.serial < c.top.serial then .error .insist
  else
    let node := db.nodes n
    let header : Header S := ⟨db.nextAddress, version.serial, false, rdataset⟩
    .ok { db.setNode n { node with data := pushHeader c.type header node.data, dirty := true } with
      futureVersion := some (version.markChanged n)
      nextAddress := db.nextAddress + 1 }

/-- The end of `dns__rbtdb_add`. -/
def added (db : Db N S) (n : N) (serial : Nat) : Result :=
  if cnameAndOtherData (db.nodes n) serial then .cnameandother else .success

/-- The rdataset of `newheader`, or the union if it is wanted and both exist. -/
def mergeHeader (slabs : Slabs S) (t : TypePair) (options : AddOptions) (header newheader : Option (Rdataset S)) :
    Except Result (Option (Rdataset S)) :=
  match header, newheader with
  | some old, some new =>
    if options.merge then
      if options.exactttl ∧ new.ttl ≠ old.ttl then .error .notexact
      else do
        let slab ← slabs.merge t options.exact (new.ttl != old.ttl) old.slab new.slab
        .ok (some ⟨new.ttl, slab⟩)
    else .ok newheader
  | _, _ => .ok newheader

/-- `dns__rbtdb_add` in a zone. With `resign`, the header that is replaced is in the heap. -/
def add (slabs : Slabs S) (db : Db N S) (n : N) (t : TypePair) (newheader : Option (Rdataset S)) (options : AddOptions)
    (resign : Bool) : Except Fault (Result × Db N S) := do
  let (version, db) ← addChanged db n
  match (db.nodes n).chain? t with
  | none =>
    if newheader.isNone then .ok (.unchanged, db)
    else
      let node := db.nodes n
      let header : Header S := ⟨db.nextAddress, version.serial, false, newheader⟩
      let db := { db.setNode n { node with data := ⟨t, header, []⟩ :: node.data } with nextAddress := db.nextAddress + 1 }
      .ok (added db n version.serial, db)
  | some c =>
    match c.headers.find? (!·.ignore) with
    | none =>
      if newheader.isNone then .ok (.unchanged, db)
      else
        let db ← linkHeader db version n c newheader
        .ok (added db n version.serial, db)
    | some header =>
      if header.rdataset.isNone && newheader.isNone then .ok (.unchanged, db)
      else
        match mergeHeader slabs t options header.rdataset newheader with
        | .error result => .ok (result, db)
        | .ok rdataset =>
          let db ← linkHeader db version n c rdataset
          let db := if resign then resigndelete db n else db
          .ok (added db n version.serial, db)

/-- `dns__rbtdb_addrdataset`. -/
def addrdataset (slabs : Slabs S) (origin : N) (db : Db N S) (n : N) (t : TypePair) (rdataset : Rdataset S)
    (options : AddOptions) (resign : Bool) : Except Fault (Result × Db N S) :=
  if t.type = TYPE_SOA ∧ n ≠ origin then .ok (.notzonetop, db)
  else add slabs db n t (some rdataset) options resign

/-- `dns__rbtdb_deleterdataset`. -/
def deleterdataset (slabs : Slabs S) (db : Db N S) (n : N) (t : TypePair) : Except Fault (Result × Db N S) :=
  if t.type = TYPE_ANY then .ok (.notimplemented, db)
  else if t.type = TYPE_RRSIG ∧ t.covers = 0 then .ok (.notimplemented, db)
  else add slabs db n t none ⟨false, false, false⟩ false

/-- What is left of the rdataset of a header after a subtraction; nothing is a nonexistent header. -/
def subtractHeader (slabs : Slabs S) (t : TypePair) (exact : Bool) (header sub : Rdataset S) :
    Except Result (Option (Rdataset S)) :=
  if exact ∧ sub.ttl ≠ header.ttl then .error .notexact
  else
    match slabs.subtract t exact header.slab sub.slab with
    | .ok slab => .ok (some ⟨header.ttl, slab⟩)
    | .error .nxrrset => .ok none
    | .error result => .error result

/-- `dns__rbtdb_subtractrdataset`. -/
def subtractrdataset (slabs : Slabs S) (db : Db N S) (n : N) (t : TypePair) (rdataset : Rdataset S) (exact resign : Bool) :
    Except Fault (Result × Db N S) := do
  let (version, db) ← addChanged db n
  let absent : Result := if exact then .notexact else .unchanged
  match (db.nodes n).chain? t with
  | none => .ok (absent, db)
  | some c =>
    match (c.headers.find? (!·.ignore)).bind (·.rdataset) with
    | none => .ok (absent, db)
    | some header =>
      match subtractHeader slabs t exact header rdataset with
      | .error result => .ok (result, db)
      | .ok remaining =>
        let db ← linkHeader db version n c remaining
        let db := if resign then resigndelete db n else db
        .ok (if remaining.isSome then .success else .nxrrset, db)

/-- A version that is open: the writer, or one of the list. -/
def Db.version? (db : Db N S) (serial : Nat) : Option (Version N) :=
  (db.futureVersion.toList ++ db.openVersions).find? (·.serial = serial)

/-- Change the version with the given serial in the list. -/
def update (f : Version N → Version N) (serial : Nat) (versions : List (Version N)) : List (Version N) :=
  versions.map fun v => if v.serial = serial then f v else v

/-- `isc_refcount_increment` on a version. -/
def attach (v : Version N) : Version N := { v with references := v.references + 1 }

/-- `isc_refcount_decrement` on a version. -/
def detach (v : Version N) : Version N := { v with references := v.references - 1 }

/-- `dns__rbtdb_currentversion`. -/
def currentversion (db : Db N S) : Db N S := { db with openVersions := update attach db.currentVersion db.openVersions }

/-- `dns__rbtdb_attachversion`. -/
def attachversion (db : Db N S) (serial : Nat) : Except Fault (Db N S) :=
  match db.version? serial with
  | none => .error .insist
  | some _ =>
    .ok { db with
      openVersions := update attach serial db.openVersions
      futureVersion := db.futureVersion.map fun v => if v.serial = serial then attach v else v }

/-- `dns__rbtdb_newversion`. -/
def newversion (db : Db N S) : Except Fault (Db N S) :=
  if db.futureVersion.isSome then .error .require
  else if db.nextSerial = 0 then .error .runtimeCheck
  else
    .ok { db with
      nextSerial := (db.nextSerial + 1) % 2 ^ 32
      futureVersion := some ⟨db.nextSerial, 1, [], []⟩ }

/-- The loop over `resigned_list` at the end of `dns__rbtdb_closeversion`. -/
def releaseResigned (db : Db N S) : List N → Except Fault (Db N S)
  | [] => .ok db
  | n :: ns => do
    let node ← decref (db.nodes n) db.leastSerial
    releaseResigned (db.setNode n node) ns

def cleanup (rollback : Option Nat) (db : Db N S) : List (Changed N) → Except Fault (Db N S)
  | [] => .ok db
  | c :: cs => do
    let node :=
      match rollback with
      | some serial => rollbackNode (db.nodes c.node) serial
      | none => db.nodes c.node
    let node ← decref node db.leastSerial
    cleanup rollback (db.setNode c.node node) cs

/-- The part of `dns__rbtdb_closeversion` that commits: the new list of versions, and what is to be cleaned up. -/
def commitVersion (db : Db N S) (version : Version N) : Except Fault (Db N S × List (Changed N)) :=
  match db.openVersions.find? (·.serial = db.currentVersion) with
  | none => .error .insist
  | some cur =>
    if cur.references = 0 then .error .insist
    else if cur.references = 1 ∧ cur.serial = db.leastSerial ∧ cur.changedList ≠ [] then .error .insist
    else
      let versions :=
        if cur.references = 1 then db.openVersions.filter (·.serial ≠ cur.serial)
        else update detach cur.serial db.openVersions
      -- when nobody else uses the former current version, its list is handed on
      let handedOn := if cur.references = 1 then cur.changedList else []
      if versions.isEmpty then
        .ok ({ db with
          currentVersion := version.serial
          futureVersion := none
          leastSerial := version.serial
          openVersions := [{ version with references := 1, changedList := handedOn, resignedList := [] }] },
          version.changedList)
      else
        .ok ({ db with
          currentVersion := version.serial
          futureVersion := none
          openVersions :=
            { version with
              references := 1
              changedList := version.changedList.filter (·.dirty) ++ handedOn
              resignedList := [] } :: versions },
          version.changedList.filter (!·.dirty))

/-- `PREV(version, link)`. -/
def prev (serial : Nat) : List (Version N) → Option (Version N)
  | [] => none
  | [_] => none
  | v :: w :: vs => if w.serial = serial then some v else prev serial (w :: vs)

/-- The part of `dns__rbtdb_closeversion` for the last reference to a version that is not the writer. -/
def closeReader (db : Db N S) (version : Version N) : Except Fault (Db N S × List (Changed N)) :=
  let versions := db.openVersions.filter (·.serial ≠ version.serial)
  if version.serial ≠ db.currentVersion then
    match (prev version.serial db.openVersions).or (db.openVersions.find? (·.serial = db.currentVersion)) with
    | none => .error .insist
    | some leastGreater =>
      if leastGreater.serial ≤ version.serial then .error .insist
      else if version.serial = db.leastSerial then
        if version.changedList ≠ [] then .error .insist
        else
          -- make_least_version
          .ok ({ db with
            leastSerial := leastGreater.serial
            openVersions := update (fun v => { v with changedList := [] }) leastGreater.serial versions },
            leastGreater.changedList)
      else
        .ok ({ db with
          openVersions := update (fun v => { v with changedList := v.changedList ++ version.changedList })
            leastGreater.serial versions }, [])
  else if version.serial = db.leastSerial ∧ version.changedList ≠ [] then .error .insist
  else .ok ({ db with openVersions := versions }, [])

/-- `dns__rbtdb_closeversion`. -/
def closeversion (db : Db N S) (serial : Nat) (commit : Bool) : Except Fault (Db N S) :=
  match db.version? serial with
  | none => .error .insist
  | some version =>
    let writer := db.futureVersion.any (·.serial = serial)
    if version.references = 0 then .error .insist
    else if 1 < version.references then
      if commit ∧ writer then .error .insist
      else
        .ok { db with
          openVersions := update detach serial db.openVersions
          futureVersion := db.futureVersion.map fun v => if v.serial = serial then detach v else v }
    else if writer then
      if commit then do
        let (db, cleanupList) ← commitVersion db version
        let db ← releaseResigned db version.resignedList
        cleanup none db cleanupList
      else do
        let db ← releaseResigned { db with futureVersion := none } version.resignedList
        cleanup (some serial) db version.changedList
    else do
      let (db, cleanupList) ← closeReader db version
      cleanup none db cleanupList

/-- A database and its callers: the references to versions that they have, by serial, and those to nodes. -/
structure State (N S : Type) where
  db : Db N S
  handles : List Nat
  held : N → Nat

/-- The calls. An iterator or a bound rdataset takes its references by calls of their own. -/
inductive Op (N S : Type) where
  | currentversion
  | newversion
  | attachversion (serial : Nat)
  | closeversion (serial : Nat) (commit : Bool)
  | attachnode (n : N)
  | detachnode (n : N)
  | addrdataset (n : N) (t : TypePair) (rdataset : Rdataset S) (options : AddOptions) (resign : Bool)
  | subtractrdataset (n : N) (t : TypePair) (rdataset : Rdataset S) (exact resign : Bool)
  | deleterdataset (n : N) (t : TypePair)

/-- What a call requires of the callers: they use the references that they have, there is one writer at a time and fewer
    than `2 ^ 32` versions, and a writer that is committed has no other reference to it. -/
def Allowed (s : State N S) : Op N S → Prop
  | .currentversion => True
  | .newversion => s.db.futureVersion = none ∧ s.db.nextSerial ≠ 0
  | .attachversion serial => serial ∈ s.handles
  | .closeversion serial commit =>
    serial ∈ s.handles ∧ (commit = true → ∀ v, s.db.futureVersion = some v → v.serial = serial → v.references = 1)
  | .attachnode _ => True
  | .detachnode n => s.held n ≠ 0
  | .addrdataset n _ _ _ _ => s.held n ≠ 0 ∧ s.db.futureVersion ≠ none
  | .subtractrdataset n _ _ _ _ => s.held n ≠ 0 ∧ s.db.futureVersion ≠ none
  | .deleterdataset n _ => s.held n ≠ 0 ∧ s.db.futureVersion ≠ none

def step (slabs : Slabs S) (origin : N) (s : State N S) : Op N S → Except Fault (State N S)
  | .currentversion => .ok { s with db := currentversion s.db, handles := s.db.currentVersion :: s.handles }
  | .newversion => do .ok { s with db := ← newversion s.db, handles := s.db.nextSerial :: s.handles }
  | .attachversion serial => do .ok { s with db := ← attachversion s.db serial, handles := serial :: s.handles }
  | .closeversion serial commit => do
    .ok { s with db := ← closeversion s.db serial commit, handles := s.handles.erase serial }
  | .attachnode n =>
    .ok { s with db := s.db.setNode n (newref (s.db.nodes n)), held := Function.update s.held n (s.held n + 1) }
  | .detachnode n => do
    let node ← decref (s.db.nodes n) s.db.leastSerial
    .ok { s with db := s.db.setNode n node, held := Function.update s.held n (s.held n - 1) }
  | .addrdataset n t rdataset options resign => do
    .ok { s with db := (← addrdataset slabs origin s.db n t rdataset options resign).2 }
  | .subtractrdataset n t rdataset exact resign => do
    .ok { s with db := (← subtractrdataset slabs s.db n t rdataset exact resign).2 }
  | .deleterdataset n t => do .ok { s with db := (← deleterdataset slabs s.db n t).2 }

/-- A zone that was loaded: `dns__rbtdb_create` with the rdatasets that loading left, all of the first version. -/
def loaded (zone : N → List (TypePair × Rdataset S)) : State N S where
  db := {
    nodes := fun n => ⟨0, false, (zone n).map fun (t, rdataset) => ⟨t, ⟨0, 1, false, some rdataset⟩, []⟩⟩
    currentVersion := 1
    openVersions := [⟨1, 1, [], []⟩]
    futureVersion := none
    nextSerial := 2
    leastSerial := 1
    nextAddress := 1 }
  handles := []
  held := fun _ => 0

end OqsBind.Dns.Rbtdb
