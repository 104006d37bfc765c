import OqsBind.Theorems.RbtdbClose
import OqsBind.Theorems.RbtdbWrite

/-! Snapshot isolation of a zone database: whatever writers, readers and the cleaning of nodes do, an open version reads
    what it contained when it was committed, and the writer what it has left itself. -/

namespace OqsBind.Dns.Rbtdb

open Agents List Function Db

variable {N S : Type}

/-! ### What the database is for -/

/-- What a version contains. -/
abbrev Contents (N S : Type) := N → TypePair → Option (Rdataset S)

/-- The database without its nodes and lists: versions are known by their serials, and each has contents of its own.
    `before` is what the current version contained when the last writer was opened. -/
structure Snapshots (N S : Type) where
  contents : Nat → Contents N S
  current : Nat
  writer : Option Nat
  last : Nat
  handles : List Nat
  before : Contents N S

/-- What is found in a version: an rdataset, and its signatures. -/
def Snapshots.find (a : Snapshots N S) (n : N) (serial : Nat) (t : TypePair) :
    Except Result (Rdataset S × Option (Rdataset S)) :=
  match a.contents serial n t with
  | some found => .ok (found, (signatures t).bind (a.contents serial n))
  | none => .error .notfound

namespace Snapshots
variable [DecidableEq N]

/-- A change of the writer's contents. -/
def write (a : Snapshots N S) (n : N) (t : TypePair) (change : Change S) : Snapshots N S :=
  match a.writer with
  | none => a
  | some w =>
    let old := a.contents w
    let new := Function.update old n (Function.update (old n) t (change (old n t)))
    { a with contents := Function.update a.contents w new }

/-- A reference is given back. When it was the last one to the writer, its contents become the current ones, or are gone. -/
def close (a : Snapshots N S) (serial : Nat) (commit : Bool) : Snapshots N S :=
  { a with
    handles := a.handles.erase serial
    writer := if a.writer = some serial ∧ a.handles.count serial = 1 then none else a.writer
    current := if a.writer = some serial ∧ a.handles.count serial = 1 ∧ commit = true then serial else a.current }

def step (slabs : Slabs S) (origin : N) (a : Snapshots N S) : Op N S → Snapshots N S
  | .currentversion => { a with handles := a.current :: a.handles }
  | .newversion =>
    { a with
      contents := Function.update a.contents (a.last + 1) (a.contents a.current)
      writer := some (a.last + 1)
      last := a.last + 1
      handles := (a.last + 1) :: a.handles
      before := a.contents a.current }
  | .attachversion serial => { a with handles := serial :: a.handles }
  | .closeversion serial commit => a.close serial commit
  | .attachnode _ => a
  | .detachnode _ => a
  | .addrdataset n t rdataset options _ =>
    if t.type = TYPE_SOA ∧ n ≠ origin then a else a.write n t (adding slabs t options (some rdataset))
  | .subtractrdataset n t rdataset exact _ => a.write n t (subtracting slabs t exact rdataset)
  | .deleterdataset n t =>
    if t.type = TYPE_ANY then a
    else if t.type = TYPE_RRSIG ∧ t.covers = 0 then a
    else a.write n t fun _ => none

/-- A zone that was loaded has one version. -/
def loaded (zone : N → List (TypePair × Rdataset S)) : Snapshots N S where
  contents _ n t := ((zone n).find? (·.1 = t)).map (·.2)
  current := 1
  writer := none
  last := 1
  handles := []
  before n t := ((zone n).find? (·.1 = t)).map (·.2)

end Snapshots

/-! ### Opening a writer -/

theorem readHeader_eq_of_live {L : List (Header S)} {serial serial' : Nat} (hle : serial ≤ serial')
    (h : ∀ a ∈ live L, a.serial ≤ serial) : readHeader serial' L = readHeader serial L := by
  have hvisible : visible serial' L = visible serial L := ?_
  · unfold readHeader
    rw [hvisible]
  induction L with
  | nil => rfl
  | cons a L ih =>
    have htail : visible serial' L = visible serial L :=
      ih fun b hb => h b (mem_live.mpr ⟨.tail _ (mem_live.mp hb).1, (mem_live.mp hb).2⟩)
    rw [visible_cons, visible_cons, htail]
    rcases hi : a.ignore with _ | _
    · have ha := h a (mem_live.mpr ⟨.head _, hi⟩)
      rw [if_pos ⟨ha.trans hle, rfl⟩, if_pos ⟨ha, rfl⟩]
    · simp

/-- The new writer, from the next serial. -/
def Db.openWriter (db : Db N S) (last : Nat) : Db N S :=
  { db with nextSerial := (last + 2) % 2 ^ 32, futureVersion := some ⟨last + 1, 1, [], []⟩ }

theorem newversion_ok {last : Nat} {db : Db N S} {handles : List Nat} (h : Versions last db handles)
    (hnone : db.futureVersion = none) (hnext : db.nextSerial ≠ 0) :
    newversion db = .ok (db.openWriter last) ∧ db.nextSerial = last + 1 ∧ last + 1 < 2 ^ 32 := by
  have hlast := h.last_lt
  have hserial : db.nextSerial = last + 1 ∧ last + 1 < 2 ^ 32 := by
    have heq := h.next
    rcases Nat.lt_or_ge (last + 1) (2 ^ 32) with hlt | hge
    · exact ⟨heq.trans (Nat.mod_eq_of_lt hlt), hlt⟩
    · rw [show last + 1 = 2 ^ 32 by omega] at heq
      exact absurd heq hnext
  refine ⟨?_, hserial⟩
  unfold newversion
  rw [if_neg (by simp [hnone]), hserial.1]
  rfl

theorem Versions.openWriter {last : Nat} {db : Db N S} {handles : List Nat} (h : Versions last db handles)
    (hnone : db.futureVersion = none) (hlt : last + 1 < 2 ^ 32) :
    Versions (last + 1) (db.openWriter last) ((last + 1) :: handles) := by
  have hopen : ∀ v ∈ db.openVersions, v.serial < last + 1 := fun v hv =>
    Nat.lt_succ_of_le (h.serial_le (mem_versions.mpr (.inr hv)))
  have hversions : ∀ v, v ∈ (db.openWriter last).versions ↔ v = ⟨last + 1, 1, [], []⟩ ∨ v ∈ db.openVersions := fun v =>
    mem_cons
  refine ⟨pairwise_cons.mpr ⟨hopen, h.sorted_open⟩, h.current, h.least, h.least_pos, h.current_le.trans (Nat.le_succ _),
    fun w hw => ?_, fun v hv => ?_, fun k hk => ?_, h.resigned, rfl, hlt⟩
  · cases hw
    rfl
  · rcases (hversions v).mp hv with rfl | hv
    · have hfresh : handles.count (last + 1) = 0 := by
        refine count_eq_zero.mpr fun hmem => ?_
        obtain ⟨u, hu, heq⟩ := h.opened _ hmem
        have := h.serial_le hu
        omega
      have hne : last + 1 ≠ (db.openWriter last).currentVersion := (Nat.lt_succ_of_le h.current_le).ne'
      refine ⟨?_, Nat.one_ne_zero⟩
      rw [if_neg hne, count_cons_self, hfresh]
    · rw [count_cons_of_ne (hopen v hv).ne']
      exact h.references v (mem_versions.mpr (.inr hv))
  · rcases mem_cons.mp hk with rfl | hk
    · exact ⟨_, (hversions _).mpr (.inl rfl), rfl⟩
    · obtain ⟨v, hv, rfl⟩ := h.opened k hk
      rcases mem_versions.mp hv with hw | hv
      · rw [hnone] at hw
        cases hw
      · exact ⟨v, (hversions v).mpr (.inr hv), rfl⟩

section
variable [DecidableEq N]

variable {db : Db N S} {held : N → Nat}

theorem Nodes.openWriter {last : Nat} (hn : Nodes db last held fun _ _ => False)
    (hnone : db.futureVersion = none) : Nodes (db.openWriter last) (last + 1) held fun _ _ => False := by
  intro n
  refine (hn n).transfer rfl le_rfl (Nat.le_succ _) (fun _ => .inl (Nat.lt_succ_self _)) ?_ (fun s hs => ?_) (fun s hs => ?_)
  · simp [Db.records, Db.versions, Db.openWriter, hnone, load]
  · rcases hs with hle | (hrecorded | ⟨w, hw, -⟩) | hfalse
    · exact .inl hle
    · exact .inr (.inl (.inl hrecorded))
    · rw [hnone] at hw
      cases hw
    · exact hfalse.elim
  · rcases hs with hle | ⟨w, hw, -⟩ | hfalse
    · exact .inl hle
    · rw [hnone] at hw
      cases hw
    · exact hfalse.elim

theorem read_openWriter {last : Nat} {handles : List Nat} (h : Versions last db handles)
    (hn : Nodes db last held fun _ _ => False) (hnone : db.futureVersion = none) (n : N) (t : TypePair) :
    (db.nodes n).read (last + 1) t = (db.nodes n).read db.currentVersion t := by
  unfold Node.read
  rw [readHeader_eq_of_live (h.current_le.trans (Nat.le_succ _)) fun a ha => ?_]
  rcases (hn n).known t a ha with hle | ⟨w, hw, -⟩ | hfalse
  · exact hle
  · rw [hnone] at hw
    cases hw
  · exact hfalse.elim

/-! ### The writer's changes -/

/-- The writer with one more record, and perhaps one more re-signed node. -/
def Version.noted (w : Version N) (n : N) (dirty : Bool) (resigned : List N) : Version N :=
  { w with changedList := w.changedList ++ [⟨n, dirty⟩], resignedList := w.resignedList ++ resigned }

def Db.noted (db : Db N S) (w : Version N) (n : N) (dirty : Bool) (resigned : List N) (node : Node S) (address : Nat) : Db N S :=
  { db with
    nodes := Function.update db.nodes n node
    futureVersion := some (w.noted n dirty resigned)
    nextAddress := address }

section
variable {db : Db N S} {w : Version N} {n : N} (hw : db.futureVersion = some w)
include hw

theorem noted_recorded (m : N) (s : Nat) (dirty : Bool) (resigned : List N) (node : Node S) (address : Nat)
    (h : db.Recorded m s) : (db.noted w n dirty resigned node address).Recorded m s := by
  rcases h with hopen | ⟨w', hw', hs, hmem⟩
  · exact .inl hopen
  · rw [hw] at hw'
    cases hw'
    exact .inr ⟨_, rfl, hs, mem_append_left _ hmem⟩

theorem noted_records (m : N) (dirty : Bool) (resigned : List N) (node : Node S) (address : Nat) :
    (db.noted w n dirty resigned node address).records m = db.records m + ([n].count m + resigned.count m) := by
  simp only [records, versions, noted, Version.noted, hw, Option.toList_some, singleton_append, total_cons,
    load, map_append, count_append, map_cons, map_nil]
  omega

theorem noted_known {m : N} {s : Nat} {dirty : Bool} {resigned : List N} {node : Node S} {address : Nat}
    (h : s ≤ db.currentVersion ∨
      (∃ u, db.futureVersion = some u ∧ s = u.serial ∧ m ∈ u.changedList.map (·.node)) ∨ False) :
    s ≤ (db.noted w n dirty resigned node address).currentVersion ∨
      (∃ u, (db.noted w n dirty resigned node address).futureVersion = some u ∧ s = u.serial ∧
        m ∈ u.changedList.map (·.node)) ∨ False := by
  refine h.imp_right (Or.imp_left ?_)
  rintro ⟨u, hu, hs, hmem⟩
  rw [hw] at hu
  cases hu
  refine ⟨_, rfl, hs, ?_⟩
  rw [Version.noted, map_append]
  exact mem_append_left _ hmem

end

namespace Written
variable {last : Nat} {db db' : Db N S} {handles : List Nat} {held : N → Nat} {w : Version N} {n : N} {t : TypePair}
  {change : Change S}

section
variable (h : Written db db' w n t change)
include h

theorem versions (hw : db.futureVersion = some w) (hv : Versions last db handles) : Versions last db' handles := by
  obtain ⟨dirty, resigned, node', address, -, rfl, -⟩ := h.outcome
  have hsorted := hv.sorted
  rw [versions, hw] at hsorted
  obtain ⟨hlt, hopen⟩ := pairwise_cons.mp hsorted
  have hwv : w ∈ db.versions := mem_versions.mpr (.inl hw)
  refine ⟨pairwise_cons.mpr ⟨hlt, hopen⟩, hv.current, hv.least, hv.least_pos, hv.current_le, fun u hu => ?_, fun u hu => ?_,
    fun k hk => ?_, hv.resigned, hv.next, hv.last_lt⟩
  · cases hu
    exact hv.future w hw
  · rcases mem_cons.mp hu with rfl | hu
    · exact hv.references w hwv
    · exact hv.references u (mem_versions.mpr (.inr hu))
  · obtain ⟨u, hu, rfl⟩ := hv.opened k hk
    rcases mem_versions.mp hu with hu | hu
    · rw [hw] at hu
      cases hu
      exact ⟨_, .head _, rfl⟩
    · exact ⟨u, .tail _ hu, rfl⟩

theorem serials (hw : db.futureVersion = some w) :
    db'.futureVersion.map (·.serial) = db.futureVersion.map (·.serial) ∧ db'.currentVersion = db.currentVersion ∧
      ∀ v ∈ db'.versions, ∃ u ∈ db.versions, u.serial = v.serial := by
  obtain ⟨dirty, resigned, node', address, -, rfl, -⟩ := h.outcome
  refine ⟨by rw [hw]; rfl, rfl, fun v hv => ?_⟩
  rcases mem_cons.mp hv with rfl | hv
  · exact ⟨w, mem_versions.mpr (.inl hw), rfl⟩
  · exact ⟨v, mem_versions.mpr (.inr hv), rfl⟩

theorem headers_subset (m : N) (t' : TypePair) : (db.nodes m).headers t' ⊆ (db'.nodes m).headers t' := by
  obtain ⟨dirty, resigned, node', address, -, rfl, -, hcase⟩ := h.outcome
  by_cases hm : m = n
  · subst hm
    show _ ⊆ ((Function.update db.nodes m node') m).headers t'
    rw [update_self]
    rcases hcase with ⟨hdata, -⟩ | ⟨-, -, hpushed⟩
    · simp [Node.headers, hdata]
    · by_cases ht : t = t'
      · subst ht
        simp [hpushed.self]
      · rw [hpushed.other t' ht]
        exact Subset.refl _
  · show _ ⊆ ((Function.update db.nodes n node') m).headers t'
    rw [update_of_ne hm]
    exact Subset.refl _

theorem read_eq {serial : Nat} (hle : serial ≤ w.serial) (m : N) (t' : TypePair) : (db'.nodes m).read serial t' =
      if serial = w.serial ∧ m = n ∧ t' = t then change ((db.nodes n).read w.serial t) else (db.nodes m).read serial t' := by
  obtain ⟨dirty, resigned, node', address, -, rfl, -, hcase⟩ := h.outcome
  show ((Function.update db.nodes n node') m).read serial t' = _
  by_cases hm : m = n
  · subst hm
    rw [update_self]
    rcases hcase with ⟨hdata, -, hsame⟩ | ⟨-, -, hpushed⟩
    · have hread : node'.read = (db.nodes m).read := by
        funext serial t'
        unfold Node.read Node.headers
        rw [hdata]
      rw [hread]
      split
      · next hself =>
        obtain ⟨rfl, -, rfl⟩ := hself
        exact hsame.symm
      · rfl
    · by_cases ht : t' = t
      · subst ht
        unfold Node.read
        rw [hpushed.self]
        rcases Nat.lt_or_eq_of_le hle with hlt | rfl
        · rw [readHeader_push hlt, if_neg (fun hbad => hlt.ne hbad.1)]
        · rw [if_pos ⟨rfl, rfl, rfl⟩]
          exact readHeader_push_self rfl _
      · rw [if_neg (fun hbad => ht hbad.2.2)]
        unfold Node.read
        rw [hpushed.other t' (Ne.symm ht)]
  · rw [update_of_ne hm, if_neg (fun hbad => hm hbad.2.1)]

theorem nodes (hw : db.futureVersion = some w) (hlast : w.serial = last)
    (hn : Nodes db last held fun _ _ => False) : Nodes db' last held fun _ _ => False := by
  obtain ⟨dirty, resigned, node', address, hresigned, hdb', hrefs, hcase⟩ := h.outcome
  change db' = db.noted w n dirty resigned node' address at hdb'
  subst hdb'
  have haddress : db.nextAddress ≤ address := by omega
  intro m
  by_cases hm : m = n
  · subst hm
    obtain ⟨hshape, hreferences, hbacked, hknown⟩ := hn m
    have hself : (db.noted w m dirty resigned node' address).nodes m = node' := Function.update_self ..
    have hwriting : db.futureVersion.isSome = true := by
      rw [hw]
      rfl
    have hback : ∀ t', Backed (fun s => s ≤ db.leastSerial ∨
        (db.noted w m dirty resigned node' address).Recorded m s ∨ False) ((db.nodes m).headers t') := fun t' =>
      (hbacked t').mono fun s => Or.imp_right (Or.imp_left (noted_recorded hw m s dirty resigned node' address))
    refine ⟨?_, ?_, fun t' => ?_, fun t' a ha => ?_⟩
    · rw [hself]
      rcases hcase with ⟨hdata, -⟩ | ⟨rfl, -, hpushed⟩
      · exact (hshape.of_data hdata).weaken haddress le_rfl fun _ => .inr hwriting
      · exact (hshape.push hwriting rfl hlast rfl hpushed.types hpushed.self hpushed.other).weaken le_rfl le_rfl
          fun _ => .inr hwriting
    · rw [hself, hrefs, noted_records hw]
      rcases hresigned with rfl | rfl
      · simp
        omega
      · simp
        omega
    · rw [hself]
      rcases hcase with ⟨hdata, -⟩ | ⟨-, hdirty, hpushed⟩
      · unfold Node.headers
        rw [hdata]
        exact hback t'
      · by_cases ht : t = t'
        · subst ht
          rw [hpushed.self]
          rcases hdirty with rfl | hnil
          · exact (hback t).push (.inr (.inl (.inr ⟨_, rfl, rfl, mem_append_right _ (.head _)⟩)))
          · rw [hnil]
            intro a b hab
            have := (hab.trans filter_sublist).length_le
            simp at this
        · rw [hpushed.other t' ht]
          exact hback t'
    · rw [hself] at ha
      rcases hcase with ⟨hdata, -⟩ | ⟨-, -, hpushed⟩
      · unfold Node.headers at ha
        rw [hdata] at ha
        exact noted_known hw (hknown t' a ha)
      · by_cases ht : t = t'
        · subst ht
          rw [hpushed.self, mem_live, mem_cons] at ha
          rcases ha with ⟨rfl | ha, hignore⟩
          · exact .inr (.inl ⟨_, rfl, rfl, by simp [Version.noted]⟩)
          · exact noted_known hw (hknown t a (mem_live.mpr ⟨ha, hignore⟩))
        · rw [hpushed.other t' ht] at ha
          exact noted_known hw (hknown t' a ha)
  · refine (hn m).transfer (Function.update_of_ne hm ..) haddress le_rfl (fun _ => .inr (by rw [hw]; rfl)) ?_
      (fun s => Or.imp_right (Or.imp_left (noted_recorded hw m s dirty resigned node' address))) (fun s => noted_known hw)
    rw [noted_records hw]
    rcases hresigned with rfl | rfl <;> simp [Ne.symm hm]

end

end Written

/-! ### Runs -/

/-- The database shows what it is for: it has the same current version and writer, the open versions are the current one
    and those that callers refer to, and each of them finds what it contains. -/
structure Agrees (s : State N S) (a : Snapshots N S) : Prop where
  current : s.db.currentVersion = a.current
  writer : s.db.futureVersion.map (·.serial) = a.writer
  opened : ∀ serial, (∃ v ∈ s.db.versions, v.serial = serial) ↔ serial = a.current ∨ serial ∈ a.handles
  found : ∀ serial, serial = a.current ∨ serial ∈ a.handles → ∀ n t, findrdataset s.db n serial t = a.find n serial t

/-- A header whose rdataset an open version reads is not destroyed as long as the version is open. -/
def Survive (db db' : Db N S) : Prop :=
  ∀ v ∈ db.versions, (∃ v' ∈ db'.versions, v'.serial = v.serial) →
    ∀ n t h, readHeader v.serial ((db.nodes n).headers t) = some h → h ∈ (db'.nodes n).headers t

/-- A node that there are references to keeps its types in their order; new ones come before them. -/
def Grows (db db' : Db N S) : Prop :=
  ∀ n, (db'.nodes n).references ≠ 0 → ∃ new, (db'.nodes n).types = new ++ (db.nodes n).types

/-- The call rolls the writer back. -/
def RollsBack (a : Snapshots N S) : Op N S → Prop
  | .closeversion serial commit => a.writer = some serial ∧ a.handles.count serial = 1 ∧ commit = false
  | _ => False

/-- At every moment the database agrees with its versions. A call that is allowed stops no assertion and destroys no header
    that is visible; after a rollback the current version reads as before the writer was opened. -/
def Isolated (slabs : Slabs S) (origin : N) (s : State N S) (a : Snapshots N S) : List (Op N S) → Prop
  | [] => Agrees s a
  | op :: ops =>
    Agrees s a ∧
      (Allowed s op → ∃ s', step slabs origin s op = .ok s' ∧ Survive s.db s'.db ∧
        (RollsBack a op → ∀ n t, findrdataset s'.db n s'.db.currentVersion t =
          { a with contents := fun _ => a.before }.find n a.current t) ∧
        Isolated slabs origin s' (a.step slabs origin op) ops)

/-- What holds of a database and its versions all the time. -/
structure Inv (s : State N S) (a : Snapshots N S) : Prop where
  versions : Versions a.last s.db s.handles
  nodes : Nodes s.db a.last s.held fun _ _ => False
  reads : ∀ v ∈ s.db.versions, ∀ n t, (s.db.nodes n).read v.serial t = a.contents v.serial n t
  current : s.db.currentVersion = a.current
  writer : s.db.futureVersion.map (·.serial) = a.writer
  handles : s.handles = a.handles
  before : a.writer ≠ none → a.before = a.contents a.current

variable {s : State N S} {a : Snapshots N S}

theorem Inv.agrees (h : Inv s a) : Agrees s a := by
  have hopened : ∀ serial, (∃ v ∈ s.db.versions, v.serial = serial) ↔ serial = a.current ∨ serial ∈ a.handles := by
    intro serial
    constructor
    · rintro ⟨v, hv, rfl⟩
      obtain ⟨hrefs, hne⟩ := h.versions.references v hv
      rw [← h.current, ← h.handles]
      by_cases hcur : v.serial = s.db.currentVersion
      · exact .inl hcur
      · rw [if_neg hcur] at hrefs
        exact .inr (count_pos_iff.mp (by omega))
    · rintro (rfl | hmem)
      · obtain ⟨cur, hcur, heq⟩ := h.versions.current_mem
        exact ⟨cur, mem_versions.mpr (.inr hcur), heq.trans h.current⟩
      · exact h.versions.opened serial (h.handles ▸ hmem)
  refine ⟨h.current, h.writer, hopened, fun serial hs n t => ?_⟩
  obtain ⟨v, hv, rfl⟩ := (hopened serial).mpr hs
  have hread : (s.db.nodes n).read v.serial = a.contents v.serial n := funext (h.reads v hv n)
  rw [findrdataset_eq (h.nodes n).shape.types, hread]
  rfl

variable {db' : Db N S}

omit [DecidableEq N] in
theorem grows_of_keeps (h : ∀ n, Keeps (db.nodes n) (db'.nodes n)) : Grows db db' := fun n hrefs => ⟨[], (h n hrefs).1⟩

theorem Written.grows {w : Version N} {n : N} {t : TypePair} {change : Change S} (h : Written db db' w n t change) :
    Grows db db' := by
  intro m _
  obtain ⟨_, _, node', _, -, rfl, -, hcase⟩ := h.outcome
  by_cases hm : m = n
  · subst hm
    show ∃ new, (Function.update db.nodes m node' m).types = _
    rw [update_self]
    rcases hcase with ⟨hdata, -⟩ | ⟨-, -, hpushed⟩
    · exact ⟨[], congrArg (fun data => data.map Chain.type) hdata⟩
    · exact hpushed.grown
  · exact ⟨[], congrArg Node.types (update_of_ne hm ..)⟩

omit [DecidableEq N] in
theorem survive_of_reads (h : ∀ v ∈ db'.versions, ∀ n t,
      readHeader v.serial ((db'.nodes n).headers t) = readHeader v.serial ((db.nodes n).headers t)) : Survive db db' := by
  rintro v - ⟨v', hv', heq⟩ n t a ha
  rw [← heq, ← h v' hv' n t] at ha
  exact readHeader_mem ha

omit [DecidableEq N] in
theorem still (h : db'.nodes = db.nodes) : Survive db db' ∧ Grows db db' :=
  ⟨survive_of_reads fun _ _ _ _ => by rw [h], fun _ _ => ⟨[], by rw [h]; rfl⟩⟩

theorem Inv.write (h : Inv s a) {w : Version N} (hw : s.db.futureVersion = some w) {n : N}
    {t : TypePair} {change : Change S} (hwritten : Written s.db db' w n t change) :
    Inv { s with db := db' } (a.write n t change) ∧ Survive s.db db' ∧ Grows s.db db' := by
  have hwriter : a.writer = some w.serial := by rw [← h.writer, hw]; rfl
  obtain ⟨hfuture, hcurrent, hserials⟩ := hwritten.serials hw
  have hwv : w ∈ s.db.versions := mem_versions.mpr (.inl hw)
  have hwrite : a.write n t change = { a with contents := Function.update a.contents w.serial (Function.update
      (a.contents w.serial) n (Function.update (a.contents w.serial n) t (change (a.contents w.serial n t)))) } := by
    unfold Snapshots.write
    rw [hwriter]
  rw [hwrite]
  refine ⟨⟨hwritten.versions hw h.versions, hwritten.nodes hw (h.versions.future w hw) h.nodes, fun v hv m t' => ?_,
    hcurrent.trans h.current, hfuture.trans h.writer, h.handles, fun hne => ?_⟩, ?_, hwritten.grows⟩
  · obtain ⟨u, hu, heq⟩ := hserials v hv
    have hle : v.serial ≤ w.serial := by
      rw [h.versions.future w hw, ← heq]
      exact h.versions.serial_le hu
    dsimp only
    rw [hwritten.read_eq hle, h.reads w hwv, ← heq, h.reads u hu]
    by_cases hself : u.serial = w.serial
    · rw [hself, update_self]
      by_cases hm : m = n
      · subst hm
        rw [update_self]
        by_cases ht : t' = t
        · subst ht
          simp
        · rw [if_neg (fun hbad => ht hbad.2.2), update_of_ne ht]
      · rw [if_neg (fun hbad => hm hbad.2.1), update_of_ne hm]
    · rw [if_neg (fun hbad => hself hbad.1), update_of_ne hself]
  · have hlt : a.current ≠ w.serial := h.current ▸ (h.versions.current_lt_future hw).ne
    dsimp only at hne ⊢
    rw [update_of_ne hlt]
    exact h.before hne
  · intro v _ _ m t' b hb
    exact hwritten.headers_subset m t' (readHeader_mem hb)

theorem Inv.writable (h : Inv s a) {n : N} (hheld : s.held n ≠ 0)
    (hwriting : s.db.futureVersion ≠ none) : ∃ w, s.db.futureVersion = some w ∧ (s.db.nodes n).references ≠ 0 ∧
      ((s.db.nodes n).data.map (·.type)).Nodup ∧ ∀ t, ∀ b ∈ (s.db.nodes n).headers t, b.serial ≤ w.serial := by
  obtain ⟨w, hw⟩ := Option.ne_none_iff_exists'.mp hwriting
  obtain ⟨hshape, hrefs, -, -⟩ := h.nodes n
  refine ⟨w, hw, by omega, hshape.types, fun t b hb => ?_⟩
  rw [h.versions.future w hw]
  exact hshape.serial_le t b hb

theorem Inv.attached (h : Inv s a) {v : Version N} (hv : v ∈ s.db.versions) {serial : Nat} (hserial : v.serial = serial) :
    Inv { s with db := s.db.recount (atSerial attach serial), handles := serial :: s.handles }
      { a with handles := serial :: a.handles } := by
  subst hserial
  have hg := recounts_attach (N := N) v.serial
  refine ⟨h.versions.attach hv, h.nodes.recount hg, fun u hu n t => ?_, h.current, ?_, congrArg (cons _) h.handles,
    h.before⟩
  · rw [versions_recount] at hu
    obtain ⟨x, hx, rfl⟩ := mem_map.mp hu
    rw [hg.serial]
    exact h.reads x hx n t
  · show (s.db.futureVersion.map _).map _ = _
    rw [Option.map_map, ← h.writer]
    exact congrArg (s.db.futureVersion.map ·) (funext hg.serial)

theorem Inv.sameReads (h : Inv s a)
    (hnodes : Nodes db' a.last held fun _ _ => False) (hsame : SameReads (s.db.leastSerial ≤ ·) s.db db')
    (hgrows : Grows s.db db') : Inv { s with db := db', held := held } a ∧ Survive s.db db' ∧ Grows s.db db' := by
  have hversions : db'.versions = s.db.versions := by
    unfold Db.versions
    rw [hsame.futureVersion, hsame.openVersions]
  have hreads : ∀ v ∈ db'.versions, ∀ n t,
      readHeader v.serial ((db'.nodes n).headers t) = readHeader v.serial ((s.db.nodes n).headers t) := fun v hv =>
    hsame.reads v.serial (h.versions.least_le (hversions ▸ hv))
  refine ⟨⟨h.versions.of_sameReads hsame, hnodes, fun v hv n t => ?_, hsame.currentVersion.trans h.current, ?_, h.handles,
    h.before⟩, survive_of_reads hreads, hgrows⟩
  · rw [← h.reads v (hversions ▸ hv), Node.read, Node.read, hreads v hv]
  · simp [hsame.futureVersion, h.writer]

theorem adding_none (slabs : Slabs S) (t : TypePair) (options : AddOptions) :
    adding slabs t options none = fun _ => none := by
  funext old
  rcases old with _ | old <;> rfl

theorem Inv.stepped (slabs : Slabs S) (origin : N) (h : Inv s a) {op : Op N S} (hop : Allowed s op) :
    ∃ s', step slabs origin s op = .ok s' ∧ Inv s' (a.step slabs origin op) ∧ Survive s.db s'.db ∧ Grows s.db s'.db := by
  cases op with
  | currentversion =>
    obtain ⟨cur, hcur, heq⟩ := h.versions.current_mem
    -- the writer is not the version that is counted up
    have hwriter : s.db.futureVersion.map (atSerial attach s.db.currentVersion) = s.db.futureVersion := by
      rcases hw : s.db.futureVersion with _ | w
      · rfl
      · exact congrArg some (if_neg (h.versions.current_lt_future hw).ne')
    have hdb : currentversion s.db = s.db.recount (atSerial attach s.db.currentVersion) := by
      unfold currentversion recount
      rw [hwriter]
      rfl
    refine ⟨_, rfl, ?_, still rfl⟩
    rw [hdb, h.current]
    exact h.attached (mem_versions.mpr (.inr hcur)) (heq.trans h.current)
  | newversion =>
    obtain ⟨hnone, hnext⟩ := hop
    obtain ⟨hrun, hserial, hlt⟩ := newversion_ok h.versions hnone hnext
    refine ⟨{ s with db := s.db.openWriter a.last, handles := (a.last + 1) :: s.handles }, ?_, ?_,
      still rfl⟩
    · unfold step
      rw [hrun, hserial]
      rfl
    · have hcur : a.current ≠ a.last + 1 := h.current ▸ (Nat.lt_succ_of_le h.versions.current_le).ne
      refine ⟨h.versions.openWriter hnone hlt, h.nodes.openWriter hnone, fun v hv n t => ?_, h.current, rfl,
        congrArg (cons _) h.handles, fun _ => ?_⟩
      · rcases mem_cons.mp hv with rfl | hv
        · obtain ⟨cur, hmem, heq⟩ := h.versions.current_mem
          have hread := h.reads cur (mem_versions.mpr (.inr hmem)) n t
          rw [heq, h.current] at hread
          show (s.db.nodes n).read (a.last + 1) t = Function.update a.contents (a.last + 1) _ (a.last + 1) n t
          rw [update_self, read_openWriter h.versions h.nodes hnone, h.current, hread]
        · have hv' : v ∈ s.db.versions := mem_versions.mpr (.inr hv)
          have hne : v.serial ≠ a.last + 1 := (Nat.lt_succ_of_le (h.versions.serial_le hv')).ne
          show (s.db.nodes n).read v.serial t = Function.update a.contents (a.last + 1) _ v.serial n t
          rw [update_of_ne hne]
          exact h.reads v hv' n t
      · show a.contents a.current = Function.update a.contents (a.last + 1) _ a.current
        rw [update_of_ne hcur]
  | attachversion serial =>
    obtain ⟨v, hv, rfl⟩ := h.versions.opened serial hop
    have hrun : attachversion s.db v.serial = .ok (s.db.recount (atSerial attach v.serial)) := by
      unfold attachversion
      rw [h.versions.version?_eq hv]
      rfl
    refine ⟨_, ?_, h.attached hv rfl, still rfl⟩
    unfold step
    dsimp only
    rw [hrun]
    rfl
  | closeversion serial commit =>
    obtain ⟨db', hrun, hclosed, hroles⟩ := closeversion_spec h.versions h.nodes hop.1 hop.2
    refine ⟨{ s with db := db', handles := s.handles.erase serial }, ?_, ?_, survive_of_reads hclosed.reads,
      grows_of_keeps fun n => keeps_closeversion n hrun⟩
    · unfold step
      dsimp only
      rw [hrun]
      rfl
    · obtain ⟨hwriter, hcurrent⟩ := hroles
      rw [h.writer, h.handles] at hwriter hcurrent
      rw [h.current] at hcurrent
      refine ⟨hclosed.versions, hclosed.nodes, fun v hv n t => ?_, hcurrent, hwriter, congrArg (List.erase · serial) h.handles,
        fun hne => ?_⟩
      · obtain ⟨u, hu, heq⟩ := hclosed.kept v hv
        rw [Node.read, hclosed.reads v hv, ← heq]
        exact h.reads u hu n t
      · -- a writer that is left over has not been committed
        show a.before = a.contents (a.close serial commit).current
        have hne' : (if a.writer = some serial ∧ a.handles.count serial = 1 then none else a.writer) ≠ none := hne
        by_cases hlast : a.writer = some serial ∧ a.handles.count serial = 1
        · rw [if_pos hlast] at hne'
          exact absurd rfl hne'
        · rw [if_neg hlast] at hne'
          rw [Snapshots.close, if_neg (fun hbad => hlast ⟨hbad.1, hbad.2.1⟩)]
          exact h.before hne'
  | attachnode n =>
    have hn : NodeInv (s.db.setNode n (newref (s.db.nodes n))) a.last (s.held n + 1) (fun _ => False) n := by
      obtain ⟨hshape, hrefs, hbacked, hknown⟩ := h.nodes n
      have hself := setNode_self s.db n (newref (s.db.nodes n))
      refine ⟨?_, ?_, fun t => ?_, fun t b hb => ?_⟩
      · rw [hself]
        exact hshape.of_data rfl
      · rw [hself]
        show (s.db.nodes n).references + 1 = s.held n + 1 + s.db.records n
        omega
      · rw [hself]
        exact hbacked t
      · rw [hself] at hb
        exact hknown t b hb
    refine ⟨_, rfl, h.sameReads (h.nodes.setNode (fun _ _ _ hs => hs) hn) (.setNode fun _ _ _ => rfl) fun m _ => ?_⟩
    by_cases hm : m = n
    · subst hm
      rw [setNode_self]
      exact ⟨[], rfl⟩
    · exact ⟨[], congrArg Node.types (update_of_ne hm ..)⟩
  | detachnode n =>
    have hheld : s.held n = s.held n - 1 + 1 := (Nat.succ_pred_eq_of_ne_zero hop).symm
    obtain ⟨node', hdecref, hnodes, hsame⟩ := release s.db h.versions.least_pos h.nodes n (s.held n - 1) hheld
      (fun _ _ hs => hs)
    refine ⟨_, ?_, h.sameReads hnodes hsame (grows_of_keeps (keeps_setNode (keeps_decref hdecref)))⟩
    unfold step
    dsimp only
    rw [hdecref]
    rfl
  | addrdataset n t rdataset options resign =>
    obtain ⟨w, hw, hrefs, htypes, hserial⟩ := h.writable hop.1 hop.2
    obtain ⟨result, db', hrun, hwritten⟩ := add_spec slabs hw hrefs htypes (hserial t) (some rdataset) options resign
    unfold step addrdataset Snapshots.step
    dsimp only
    split_ifs with hsoa
    · exact ⟨s, rfl, h, still rfl⟩
    · rw [hrun]
      exact ⟨_, rfl, h.write hw hwritten⟩
  | subtractrdataset n t rdataset exact resign =>
    obtain ⟨w, hw, hrefs, htypes, hserial⟩ := h.writable hop.1 hop.2
    obtain ⟨result, db', hrun, hwritten⟩ := subtract_spec slabs hw hrefs htypes (hserial t) rdataset exact resign
    unfold step
    dsimp only
    rw [hrun]
    exact ⟨_, rfl, h.write hw hwritten⟩
  | deleterdataset n t =>
    obtain ⟨w, hw, hrefs, htypes, hserial⟩ := h.writable hop.1 hop.2
    obtain ⟨result, db', hrun, hwritten⟩ := add_spec slabs hw hrefs htypes (hserial t) none ⟨false, false, false⟩ false
    rw [adding_none] at hwritten
    unfold step deleterdataset Snapshots.step
    dsimp only
    split_ifs with hany hsig
    · exact ⟨s, rfl, h, still rfl⟩
    · exact ⟨s, rfl, h, still rfl⟩
    · rw [hrun]
      exact ⟨_, rfl, h.write hw hwritten⟩

theorem Inv.isolated {slabs : Slabs S} {origin : N} (h : Inv s a) (ops : List (Op N S)) : Isolated slabs origin s a ops := by
  induction ops generalizing s a with
  | nil => exact h.agrees
  | cons op ops ih =>
    refine ⟨h.agrees, fun hop => ?_⟩
    obtain ⟨s', hrun, hinv, hsurvive, -⟩ := h.stepped slabs origin hop
    refine ⟨s', hrun, hsurvive, fun hback n t => ?_, ih hinv⟩
    -- a rollback leaves the current version, which is what it was when the writer was opened
    rcases op with _ | _ | _ | ⟨serial, commit⟩ | _ | _ | _ | _ | _ <;> try exact hback.elim
    obtain ⟨hwriter, hcount, rfl⟩ := hback
    have hcurrent : (a.step slabs origin (.closeversion serial false)).current = a.current :=
      if_neg fun hbad => (nomatch hbad.2.2)
    rw [hinv.current, hinv.agrees.found _ (.inl rfl), hcurrent]
    rw [h.before (by simp [hwriter])]
    rfl

/-! ### A zone that was loaded -/

section
variable {zone : N → List (TypePair × Rdataset S)}

omit [DecidableEq N] in
theorem loaded_headers (zone : N → List (TypePair × Rdataset S)) (n : N) (t : TypePair) :
    ((loaded zone).db.nodes n).headers t =
      (((zone n).find? (·.1 = t)).map fun e => (⟨0, 1, false, some e.2⟩ : Header S)).toList := by
  show headersIn ((zone n).map fun e => ⟨e.1, ⟨0, 1, false, some e.2⟩, []⟩) t = _
  unfold headersIn
  rw [find?_map]
  show ((Option.map _ ((zone n).find? (·.1 = t))).map _).getD [] = _
  generalize (zone n).find? (·.1 = t) = entry
  cases entry <;> rfl

omit [DecidableEq N] in
theorem loaded_read (zone : N → List (TypePair × Rdataset S)) (n : N) (t : TypePair) :
    ((loaded zone).db.nodes n).read 1 t = ((zone n).find? (·.1 = t)).map (·.2) := by
  rw [Node.read, loaded_headers]
  generalize (zone n).find? (·.1 = t) = entry
  cases entry <;> rfl

theorem loaded_inv (hzone : ∀ n, ((zone n).map (·.1)).Nodup) : Inv (loaded zone) (.loaded zone) := by
  have hheaders : ∀ n t, ∀ b ∈ ((loaded zone).db.nodes n).headers t, b.address = 0 ∧ b.serial = 1 ∧ b.ignore = false := by
    intro n t b hb
    rw [loaded_headers, Option.mem_toList, Option.map_eq_some_iff] at hb
    obtain ⟨e, -, rfl⟩ := hb
    exact ⟨rfl, rfl, rfl⟩
  have hshort : ∀ n t, (((loaded zone).db.nodes n).headers t).length ≤ 1 := by
    intro n t
    rw [loaded_headers]
    rcases (zone n).find? (·.1 = t) with _ | e <;> simp
  refine ⟨⟨pairwise_singleton _ _, ⟨_, [], rfl, rfl⟩, ⟨[], _, rfl, rfl, rfl⟩, Nat.one_ne_zero, le_rfl,
    fun _ hw => (nomatch hw), ?_, fun _ hk => (nomatch hk), ?_, rfl, show 1 < 2 ^ 32 by decide⟩, fun n => ⟨⟨?_, fun t => ?_, fun t b hb => ?_,
    fun t b hb => ?_, fun hw => (nomatch hw)⟩, rfl, fun t b b' hb => ?_, fun t b hb => ?_⟩, ?_, rfl, rfl, rfl, fun hne => absurd rfl hne⟩
  · intro v hv
    obtain rfl := mem_singleton.mp hv
    exact ⟨rfl, Nat.one_ne_zero⟩
  · intro v hv
    obtain rfl := mem_singleton.mp hv
    rfl
  · show (((zone n).map _).map _).Nodup
    rw [map_map]
    exact hzone n
  · have hlength := hshort n t
    generalize ((loaded zone).db.nodes n).headers t = L at hlength ⊢
    rcases L with _ | ⟨b, _ | ⟨c, L⟩⟩
    · exact ⟨Pairwise.nil, fun _ ha => (nomatch ha)⟩
    · refine ⟨pairwise_singleton _ _, fun x hx y hy _ => ?_⟩
      rw [mem_singleton.mp hx, mem_singleton.mp hy]
    · simp at hlength
  · rw [(hheaders n t b hb).1]
    exact Nat.one_pos
  · exact (hheaders n t b hb).2.1.le
  · have := (hb.trans filter_sublist).length_le.trans (hshort n t)
    simp at this
  · exact .inl (hheaders n t b (mem_live.mp hb).1).2.1.le
  · intro v hv n t
    obtain rfl := mem_singleton.mp hv
    exact loaded_read zone n t

end

/-- Snapshot isolation, for every zone and every sequence of calls. -/
theorem snapshot_isolation (slabs : Slabs S) (origin : N) (zone : N → List (TypePair × Rdataset S))
    (hzone : ∀ n, ((zone n).map (·.1)).Nodup) (ops : List (Op N S)) :
    Isolated slabs origin (loaded zone) (.loaded zone) ops :=
  (loaded_inv hzone).isolated ops

end

/-- With an rdataset of type A at one node, for a writer that replaces it while a reader has the old version. -/
theorem snapshot_isolation_replaced :
    Isolated ⟨fun _ _ _ _ new => .ok new, fun _ _ old _ => .ok old⟩ () (loaded fun _ => [(⟨1, 0, by decide⟩, ⟨300, 10⟩)])
      (.loaded fun _ => [(⟨1, 0, by decide⟩, ⟨300, 10⟩)])
      [.currentversion, .newversion, .attachnode (), .addrdataset () ⟨1, 0, by decide⟩ ⟨300, 11⟩ ⟨false, false, false⟩ false,
        .detachnode (), .closeversion 2 true, .closeversion 1 false] :=
  snapshot_isolation _ _ (fun _ => [(⟨1, 0, by decide⟩, ⟨300, 10⟩)]) (fun _ => nodup_singleton _) _

/-- A writer with another reference to it stops the program when it is committed. -/
theorem commit_attached_writer : ∃ s s' : State Unit Nat,
    step ⟨fun _ _ _ _ new => .ok new, fun _ _ old _ => .ok old⟩ () (loaded fun _ => []) .newversion = .ok s ∧
      step ⟨fun _ _ _ _ new => .ok new, fun _ _ old _ => .ok old⟩ () s (.attachversion 2) = .ok s' ∧
      step ⟨fun _ _ _ _ new => .ok new, fun _ _ old _ => .ok old⟩ () s' (.closeversion 2 true) = .error .insist :=
  ⟨_, _, rfl, rfl, rfl⟩

end OqsBind.Dns.Rbtdb
