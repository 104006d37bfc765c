import Mathlib.Data.List.Count
import OqsBind.Lib.Agents
import OqsBind.Theorems.RbtdbNode

/-! The versions of a zone database, and the references to nodes that their lists hold. A header that lies on another one
    has a record in the list of a version that is at least as new, until it is not newer than the least open version. So a
    node that nobody refers to can be cleaned. -/

namespace OqsBind.Dns.Rbtdb

open Agents List

variable {N S : Type}

namespace Db

/-- The writer and the versions of the list. -/
def versions (db : Db N S) : List (Version N) := db.futureVersion.toList ++ db.openVersions

/-- Some version that is not older than `serial` has a record of a change at the node that left several headers; for a
    change of the writer it is the writer. -/
def Recorded (db : Db N S) (n : N) (serial : Nat) : Prop :=
  (∃ v ∈ db.openVersions, serial ≤ v.serial ∧ ⟨n, true⟩ ∈ v.changedList) ∨
    ∃ w, db.futureVersion = some w ∧ serial = w.serial ∧ ⟨n, true⟩ ∈ w.changedList

theorem mem_versions {db : Db N S} {v : Version N} :
    v ∈ db.versions ↔ db.futureVersion = some v ∨ v ∈ db.openVersions := by
  rw [versions, mem_append, Option.mem_toList]

end Db

/-- `db'` differs from `db` in the nodes only, and the versions with `P` read the same there. -/
structure SameReads (P : Nat → Prop) (db db' : Db N S) : Prop where
  versions : { db' with nodes := db.nodes } = db
  reads : ∀ serial, P serial → ∀ n t,
    readHeader serial ((db'.nodes n).headers t) = readHeader serial ((db.nodes n).headers t)

namespace SameReads
variable {P : Nat → Prop} {db db' db'' : Db N S}

theorem refl (P : Nat → Prop) (db : Db N S) : SameReads P db db := ⟨rfl, fun _ _ _ _ => rfl⟩

section
variable (h : SameReads P db db')
include h

theorem trans (h' : SameReads P db' db'') : SameReads P db db'' := by
  refine ⟨?_, fun serial hP n t => (h'.reads serial hP n t).trans (h.reads serial hP n t)⟩
  have := h'.versions
  rw [← h.versions, ← this]

theorem mono {Q : Nat → Prop} (hQ : ∀ serial, Q serial → P serial) : SameReads Q db db' :=
  ⟨h.versions, fun serial hs => h.reads serial (hQ serial hs)⟩

theorem leastSerial : db'.leastSerial = db.leastSerial := by rw [← h.versions]
theorem currentVersion : db'.currentVersion = db.currentVersion := by rw [← h.versions]
theorem futureVersion : db'.futureVersion = db.futureVersion := by rw [← h.versions]
theorem openVersions : db'.openVersions = db.openVersions := by rw [← h.versions]

end

end SameReads

variable [DecidableEq N]

/-- How often the lists of a version refer to a node. -/
def load (n : N) (v : Version N) : Nat := (v.changedList.map (·.node)).count n + v.resignedList.count n

/-- How often the lists of all versions refer to a node. -/
def Db.records (db : Db N S) (n : N) : Nat := total (load n) db.versions

variable {n : N}

theorem load_pos {d : Bool} {v : Version N} (h : ⟨n, d⟩ ∈ v.changedList) : 0 < load n v := by
  have : 0 < (v.changedList.map (·.node)).count n := count_pos_iff.mpr (mem_map.mpr ⟨_, h, rfl⟩)
  unfold load
  omega

variable {db : Db N S}

theorem Db.Recorded.records_pos {serial : Nat} (h : db.Recorded n serial) : 0 < db.records n := by
  obtain ⟨v, hv, hmem⟩ : ∃ v ∈ db.versions, ⟨n, true⟩ ∈ v.changedList := by
    rcases h with ⟨v, hv, -, hmem⟩ | ⟨w, hw, -, hmem⟩
    · exact ⟨v, Db.mem_versions.mpr (.inr hv), hmem⟩
    · exact ⟨w, Db.mem_versions.mpr (.inl hw), hmem⟩
  exact Nat.lt_of_lt_of_le (load_pos hmem) (le_total hv)

/-- What holds of a node in a database. `ext` counts the references to it that are in no list of a version, and `rolling`
    tells which serials are being rolled back and not yet marked there. -/
structure NodeInv (db : Db N S) (last ext : Nat) (rolling : Nat → Prop) (n : N) : Prop where
  shape : Shape db.nextAddress last (db.futureVersion.isSome = true) (db.nodes n)
  references : (db.nodes n).references = ext + db.records n
  backed : ∀ t, Backed (fun s => s ≤ db.leastSerial ∨ db.Recorded n s ∨ rolling s) ((db.nodes n).headers t)
  known : ∀ t, ∀ h ∈ live ((db.nodes n).headers t), h.serial ≤ db.currentVersion ∨
    (∃ w, db.futureVersion = some w ∧ h.serial = w.serial ∧ n ∈ w.changedList.map (·.node)) ∨ rolling h.serial

/-- What holds of all nodes. -/
def Nodes (db : Db N S) (last : Nat) (ext : N → Nat) (rolling : N → Nat → Prop) : Prop :=
  ∀ n, NodeInv db last (ext n) (rolling n) n

variable {last ext : Nat}

theorem NodeInv.mono {rolling rolling' : Nat → Prop}
    (h : NodeInv db last ext rolling n) (hr : ∀ s, rolling s → rolling' s) : NodeInv db last ext rolling' n where
  shape := h.shape
  references := h.references
  backed t := (h.backed t).mono fun _ => Or.imp_right (Or.imp_right (hr _))
  known t a ha := (h.known t a ha).imp_right (Or.imp_right (hr _))

/-- A step that leaves a node alone, and hands the records of it on. -/
theorem NodeInv.transfer {db' : Db N S} {last' ext' : Nat} {rolling rolling' : Nat → Prop}
    (h : NodeInv db last ext rolling n) (hnode : db'.nodes n = db.nodes n) (haddress : db.nextAddress ≤ db'.nextAddress)
    (hlast : last ≤ last') (hwriting : db'.futureVersion.isSome = true → last < last' ∨ db.futureVersion.isSome = true)
    (hrecords : ext + db.records n = ext' + db'.records n)
    (hbacked : ∀ s, s ≤ db.leastSerial ∨ db.Recorded n s ∨ rolling s → s ≤ db'.leastSerial ∨ db'.Recorded n s ∨ rolling' s)
    (hknown : ∀ s, s ≤ db.currentVersion ∨
        (∃ w, db.futureVersion = some w ∧ s = w.serial ∧ n ∈ w.changedList.map (·.node)) ∨ rolling s →
      s ≤ db'.currentVersion ∨
        (∃ w, db'.futureVersion = some w ∧ s = w.serial ∧ n ∈ w.changedList.map (·.node)) ∨ rolling' s) :
    NodeInv db' last' ext' rolling' n where
  shape := hnode ▸ h.shape.weaken haddress hlast hwriting
  references := by
    rw [hnode, h.references, hrecords]
  backed t := hnode ▸ (h.backed t).mono hbacked
  known t a ha := hknown _ (h.known t a (hnode ▸ ha))

variable {rolling : N → Nat → Prop}

theorem Nodes.setNode {ext : N → Nat} {rolling' : N → Nat → Prop}
    (h : Nodes db last ext rolling) {node : Node S} {k : Nat} (hother : ∀ m ≠ n, ∀ s, rolling m s → rolling' m s)
    (hn : NodeInv (db.setNode n node) last k (rolling' n) n) :
    Nodes (db.setNode n node) last (Function.update ext n k) rolling' := by
  intro m
  by_cases hm : m = n
  · subst hm
    simpa using hn
  · rw [Function.update_of_ne hm]
    have hnode : (db.setNode n node).nodes m = db.nodes m := Function.update_of_ne hm ..
    obtain ⟨hshape, hrefs, hbacked, hknown⟩ := (h m).mono (hother m hm)
    refine ⟨?_, ?_, ?_, ?_⟩
    · rw [hnode]
      exact hshape
    · rw [hnode]
      exact hrefs
    · rw [hnode]
      exact hbacked
    · rw [hnode]
      exact hknown

theorem setNode_self (db : Db N S) (n : N) (node : Node S) : (db.setNode n node).nodes n = node := Function.update_self ..

theorem SameReads.setNode {P : Nat → Prop} {node : Node S}
    (h : ∀ serial, P serial → ∀ t, readHeader serial (node.headers t) = readHeader serial ((db.nodes n).headers t)) :
    SameReads P db (db.setNode n node) := by
  refine ⟨rfl, fun serial hP m t => ?_⟩
  by_cases hm : m = n
  · subst hm
    rw [setNode_self]
    exact h serial hP t
  · rw [show (db.setNode n node).nodes m = db.nodes m from Function.update_of_ne hm ..]

theorem release (db : Db N S) {ext : N → Nat} (hleast : db.leastSerial ≠ 0)
    (h : Nodes db last ext rolling) (n : N) (k : Nat) (hk : ext n = k + 1) (hrolling : k = 0 → ∀ s, ¬ rolling n s) :
    ∃ node', decref (db.nodes n) db.leastSerial = .ok node' ∧
      Nodes (db.setNode n node') last (Function.update ext n k) rolling ∧
      SameReads (db.leastSerial ≤ ·) db (db.setNode n node') := by
  obtain ⟨hshape, hrefs, hbacked, hknown⟩ := h n
  have hsettled : k + db.records n = 0 → ∀ t, Settled db.leastSerial ((db.nodes n).headers t) := by
    intro hzero t a b hab
    rcases hbacked t a b hab with hle | hrecorded | hroll
    · exact hle
    · have := hrecorded.records_pos
      omega
    · exact absurd hroll (hrolling (by omega) _)
  obtain ⟨node', hdecref, hrefs', htidied⟩ := decref_spec hleast hshape.types hshape.stack
    (by omega : (db.nodes n).references = k + db.records n + 1) hsettled
  refine ⟨node', hdecref, h.setNode (fun _ _ _ hs => hs) ⟨?_, ?_, fun t => ?_, fun t a ha => ?_⟩, .setNode fun serial hs t => ?_⟩
  · rw [setNode_self]
    exact hshape.tidied htidied
  · rw [setNode_self]
    exact hrefs'
  · rw [setNode_self]
    exact (hbacked t).sublist (htidied.headers t)
  · rw [setNode_self] at ha
    exact hknown t a (((htidied.headers t).filter _).subset ha)
  · exact htidied.reads serial hs t

theorem releaseResigned_spec {base : N → Nat}
    (hrolling : ∀ n s, rolling n s → base n ≠ 0) : ∀ {ns : List N} (db : Db N S), db.leastSerial ≠ 0 →
    Nodes db last (fun n => base n + ns.count n) rolling →
    ∃ db', releaseResigned db ns = .ok db' ∧ Nodes db' last base rolling ∧ SameReads (db.leastSerial ≤ ·) db db'
  | [], db, _, h => ⟨db, rfl, h, .refl _ db⟩
  | m :: ns, db, hleast, h => by
    obtain ⟨node', hdecref, hnodes, hsame⟩ := release db hleast h m (base m + ns.count m)
      (by rw [count_cons_self]; omega) (fun hzero s hs => hrolling m s hs (by omega))
    have hext : Function.update (fun n => base n + (m :: ns).count n) m (base m + ns.count m) =
        fun n => base n + ns.count n := by
      funext n
      by_cases hn : n = m
      · subst hn
        simp
      · rw [Function.update_of_ne hn, count_cons_of_ne (Ne.symm hn)]
    rw [hext] at hnodes
    obtain ⟨db', hrun, hnodes', hsame'⟩ := releaseResigned_spec hrolling (db.setNode m node') hleast hnodes
    refine ⟨db', ?_, hnodes', hsame.trans hsame'⟩
    rw [releaseResigned, hdecref]
    exact hrun

theorem NodeInv.mark {r : Nat} (h : NodeInv db last ext (· = r) n) (hnone : db.futureVersion = none) :
    NodeInv (db.setNode n (rollbackNode (db.nodes n) r)) last ext (fun _ => False) n := by
  obtain ⟨hshape, hrefs, hbacked, hknown⟩ := h
  have hlive : ∀ t, ∀ a ∈ live (((db.nodes n).headers t).map (Rbtdb.mark r)), a ∈ live ((db.nodes n).headers t) ∧ a.serial ≠ r := by
    intro t a ha
    rw [live_mark, mem_filter] at ha
    exact ⟨ha.1, by simpa using ha.2⟩
  refine ⟨?_, ?_, fun t => ?_, fun t a ha => ?_⟩
  · rw [setNode_self]
    refine (hshape.rollback r).weaken le_rfl le_rfl fun hw => ?_
    rw [show (db.setNode n (rollbackNode (db.nodes n) r)).futureVersion = none from hnone] at hw
    cases hw
  · rw [setNode_self]
    exact hrefs
  · rw [setNode_self, rollbackNode_headers]
    intro a b hab
    have ha := (hlive t a (hab.subset (.head _))).2
    rcases (hbacked t).mark r a b hab with hle | hrecorded | hr
    · exact .inl hle
    · exact .inr (.inl hrecorded)
    · exact absurd hr ha
  · rw [setNode_self, rollbackNode_headers] at ha
    obtain ⟨ha, hne⟩ := hlive t a ha
    rcases hknown t a ha with hle | hw | hr
    · exact .inl hle
    · exact .inr (.inl hw)
    · exact absurd hr hne

/-- The node of a changed record as `cleanup` releases it. -/
def marked (rollback : Option Nat) (node : Node S) : Node S :=
  match rollback with
  | some serial => rollbackNode node serial
  | none => node

/-- The loop over the clean-up list; a version that is rolled back is newer than all that read. -/
theorem cleanup_spec {base : N → Nat} (rollback : Option Nat) : ∀ {cs : List (Changed N)} (db : Db N S),
    db.leastSerial ≠ 0 → (rollback.isSome = true → db.futureVersion = none) →
    Nodes db last (fun n => base n + (cs.map (·.node)).count n) (fun n s => rollback = some s ∧ n ∈ cs.map (·.node)) →
    ∃ db', cleanup rollback db cs = .ok db' ∧ Nodes db' last base (fun _ _ => False) ∧
      SameReads (fun serial => db.leastSerial ≤ serial ∧ ∀ r, rollback = some r → serial < r) db db'
  | [], db, _, _, h => ⟨db, rfl, fun n => (h n).mono fun s hs => absurd hs.2 not_mem_nil, .refl _ db⟩
  | c :: cs, db, hleast, hfuture, h => by
    -- first the headers of the node are marked, so that it has nothing left to roll back
    let node := marked rollback (db.nodes c.node)
    have hmarked : NodeInv (db.setNode c.node node) last (base c.node + ((c :: cs).map (·.node)).count c.node)
        (fun _ => False) c.node := by
      rcases rollback with _ | r
      · have hself : db.setNode c.node node = db := by
          simp [Db.setNode, node, marked]
        rw [hself]
        exact (h c.node).mono fun s hs => by cases hs.1
      · exact ((h c.node).mono fun s hs => (Option.some.inj hs.1).symm).mark (hfuture rfl)
    have hreads : SameReads (fun serial => db.leastSerial ≤ serial ∧ ∀ r, rollback = some r → serial < r) db
        (db.setNode c.node node) := by
      refine .setNode fun serial hs t => ?_
      rcases rollback with _ | r
      · rfl
      · show readHeader serial ((rollbackNode (db.nodes c.node) r).headers t) = _
        rw [rollbackNode_headers]
        exact readHeader_mark (hs.2 r rfl) _
    have hnodes : Nodes (db.setNode c.node node) last (fun n => base n + ((c :: cs).map (·.node)).count n)
        (fun n s => rollback = some s ∧ n ≠ c.node ∧ n ∈ cs.map (·.node)) := by
      have hother : ∀ m ≠ c.node, ∀ s, rollback = some s ∧ m ∈ (c :: cs).map (·.node) →
          rollback = some s ∧ m ≠ c.node ∧ m ∈ cs.map (·.node) :=
        fun m hm s hs => ⟨hs.1, hm, (mem_cons.mp hs.2).resolve_left hm⟩
      have hset := h.setNode hother (hmarked.mono fun _ hs => hs.elim)
      rwa [Function.update_eq_self] at hset
    obtain ⟨node', hdecref, hnodes', hsame⟩ := release (db.setNode c.node node) hleast hnodes c.node
      (base c.node + (cs.map (·.node)).count c.node) (by rw [map_cons, count_cons_self]; omega) (fun _ s hs => hs.2.1 rfl)
    have hext : Function.update (fun n => base n + ((c :: cs).map (·.node)).count n) c.node
        (base c.node + (cs.map (·.node)).count c.node) = fun n => base n + (cs.map (·.node)).count n := by
      funext n
      by_cases hn : n = c.node
      · subst hn
        simp
      · rw [Function.update_of_ne hn, map_cons, count_cons_of_ne (Ne.symm hn)]
    rw [hext] at hnodes'
    have hdb : (db.setNode c.node node).setNode c.node node' = db.setNode c.node node' := by
      simp [Db.setNode]
    rw [hdb] at hnodes' hsame
    obtain ⟨db', hrun, hnodes'', hsame'⟩ := cleanup_spec rollback (db.setNode c.node node') hleast hfuture
      (fun n => (hnodes' n).mono fun s hs => ⟨hs.1, hs.2.2⟩)
    have hstep : SameReads (fun serial => db.leastSerial ≤ serial ∧ ∀ r, rollback = some r → serial < r)
        (db.setNode c.node node) (db.setNode c.node node') :=
      ⟨hsame.versions, fun serial hs => hsame.reads serial hs.1⟩
    refine ⟨db', ?_, hnodes'', (hreads.trans hstep).trans hsame'⟩
    rw [setNode_self] at hdecref
    show (do
      let node' ← decref node db.leastSerial
      cleanup rollback (db.setNode c.node node') cs) = _
    rw [show decref node db.leastSerial = .ok node' from hdecref]
    exact hrun

end OqsBind.Dns.Rbtdb
