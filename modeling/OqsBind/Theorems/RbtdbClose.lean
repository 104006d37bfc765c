import OqsBind.Lib.Checked
import OqsBind.Theorems.RbtdbVersions

/-! Opening and closing versions of a zone database. A version that goes hands the records of its list on to the next newer
    one, or the nodes are released when it was the least one. -/

namespace OqsBind.Dns.Rbtdb

open Agents List Db

variable {N S : Type}

/-- Newer versions come first. -/
abbrev Descending (l : List (Version N)) : Prop := l.Pairwise fun v w => w.serial < v.serial

/-! ### The list of versions -/

/-- What holds of the versions and the references that callers have. The current version is the first of the list and the
    least one the last; `last` is the serial that was given last. -/
structure Versions (last : Nat) (db : Db N S) (handles : List Nat) : Prop where
  sorted : db.versions.Pairwise fun v w => w.serial < v.serial
  current : ∃ cur vs, db.openVersions = cur :: vs ∧ cur.serial = db.currentVersion
  least : ∃ vs v, db.openVersions = vs ++ [v] ∧ v.serial = db.leastSerial ∧ v.changedList = []
  least_pos : db.leastSerial ≠ 0
  current_le : db.currentVersion ≤ last
  future : ∀ w, db.futureVersion = some w → w.serial = last
  references : ∀ v ∈ db.versions,
    v.references = handles.count v.serial + (if v.serial = db.currentVersion then 1 else 0) ∧ v.references ≠ 0
  opened : ∀ k ∈ handles, ∃ v ∈ db.versions, v.serial = k
  resigned : ∀ v ∈ db.openVersions, v.resignedList = []
  next : db.nextSerial = (last + 1) % 2 ^ 32
  last_lt : last < 2 ^ 32

variable {v : Version N}

theorem find?_serial {l : List (Version N)} (h : Descending l) (hv : v ∈ l) :
    l.find? (·.serial = v.serial) = some v := by
  induction l with
  | nil => cases hv
  | cons u l ih =>
    obtain ⟨hu, hl⟩ := pairwise_cons.mp h
    rcases mem_cons.mp hv with rfl | hv
    · simp
    · have hne : u.serial ≠ v.serial := (hu v hv).ne'
      simpa [hne] using ih hl hv

namespace Versions
variable {last : Nat} {db : Db N S} {handles : List Nat} {v w : Version N}

section
variable (h : Versions last db handles)
include h

theorem sorted_open : Descending db.openVersions :=
  h.sorted.sublist (sublist_append_right _ _)

theorem current_mem : ∃ cur ∈ db.openVersions, cur.serial = db.currentVersion := by
  obtain ⟨cur, vs, hlist, hcur⟩ := h.current
  exact ⟨cur, hlist ▸ mem_cons_self, hcur⟩

theorem lt_future (hw : db.futureVersion = some w) (hv : v ∈ db.openVersions) : v.serial < w.serial := by
  have hsorted := h.sorted
  rw [versions, hw] at hsorted
  exact (pairwise_cons.mp hsorted).1 v hv

theorem le_current (hv : v ∈ db.openVersions) : v.serial ≤ db.currentVersion := by
  obtain ⟨cur, vs, hlist, hcur⟩ := h.current
  have hsorted := h.sorted_open
  rw [hlist] at hv hsorted
  rcases mem_cons.mp hv with rfl | hv
  · exact hcur.le
  · exact hcur ▸ ((pairwise_cons.mp hsorted).1 v hv).le

theorem current_lt_future (hw : db.futureVersion = some w) : db.currentVersion < w.serial := by
  obtain ⟨cur, hmem, hcur⟩ := h.current_mem
  exact hcur ▸ h.lt_future hw hmem

theorem least_le_open (hv : v ∈ db.openVersions) : db.leastSerial ≤ v.serial := by
  obtain ⟨vs, l, hlist, hl, -⟩ := h.least
  have hsorted := h.sorted_open
  rw [hlist] at hv hsorted
  rcases mem_append.mp hv with hv | hv
  · exact hl ▸ ((pairwise_append.mp hsorted).2.2 v hv l (.head _)).le
  · rw [mem_singleton.mp hv, hl]

theorem least_le (hv : v ∈ db.versions) : db.leastSerial ≤ v.serial := by
  rcases mem_versions.mp hv with hw | hv
  · obtain ⟨cur, hmem, -⟩ := h.current_mem
    exact (h.least_le_open hmem).trans (h.lt_future hw hmem).le
  · exact h.least_le_open hv

theorem serial_le (hv : v ∈ db.versions) : v.serial ≤ last := by
  rcases mem_versions.mp hv with hw | hv
  · exact (h.future v hw).le
  · exact (h.le_current hv).trans h.current_le

theorem unique (hv : v ∈ db.versions) (hw : w ∈ db.versions) (heq : v.serial = w.serial) : v = w := by
  have hfind := find?_serial h.sorted hw
  rw [← heq, find?_serial h.sorted hv] at hfind
  exact Option.some.inj hfind

theorem version?_eq (hv : v ∈ db.versions) : db.version? v.serial = some v :=
  find?_serial h.sorted hv

theorem changedList_least (hv : v ∈ db.openVersions) (hleast : v.serial = db.leastSerial) : v.changedList = [] := by
  obtain ⟨vs, l, hlist, hl, hnil⟩ := h.least
  have hmem : l ∈ db.openVersions := hlist ▸ mem_append_right _ (.head _)
  rw [h.unique (mem_versions.mpr (.inr hv)) (mem_versions.mpr (.inr hmem)) (hleast.trans hl.symm), hnil]

theorem of_sameReads {P : Nat → Prop} {db' : Db N S} (hsame : SameReads P db db') : Versions last db' handles := by
  have hdb : Versions last { db' with nodes := db.nodes } handles := hsame.versions ▸ h
  exact ⟨hdb.sorted, hdb.current, hdb.least, hdb.least_pos, hdb.current_le, hdb.future, hdb.references, hdb.opened,
    hdb.resigned, hdb.next, hdb.last_lt⟩

end

end Versions

/-! ### Reference counts of versions -/

/-- `g` changes no more of a version than its reference count. -/
structure Recounts (g : Version N → Version N) : Prop where
  serial : ∀ v, (g v).serial = v.serial
  changedList : ∀ v, (g v).changedList = v.changedList
  resignedList : ∀ v, (g v).resignedList = v.resignedList

/-- A change of the version with one serial. -/
def atSerial (f : Version N → Version N) (serial : Nat) (v : Version N) : Version N := if v.serial = serial then f v else v

theorem recounts_attach (serial : Nat) : Recounts (atSerial (N := N) attach serial) := by
  refine ⟨fun v => ?_, fun v => ?_, fun v => ?_⟩ <;> unfold atSerial <;> split <;> rfl

theorem recounts_detach (serial : Nat) : Recounts (atSerial (N := N) detach serial) := by
  refine ⟨fun v => ?_, fun v => ?_, fun v => ?_⟩ <;> unfold atSerial <;> split <;> rfl

def Db.recount (db : Db N S) (g : Version N → Version N) : Db N S :=
  { db with openVersions := db.openVersions.map g, futureVersion := db.futureVersion.map g }

theorem Db.versions_recount (db : Db N S) (g : Version N → Version N) : (db.recount g).versions = db.versions.map g := by
  unfold versions recount
  rcases db.futureVersion with _ | w <;> rfl

variable {last : Nat} {db : Db N S} {handles : List Nat}

theorem Versions.recount {handles' : List Nat} (h : Versions last db handles) {g : Version N → Version N} (hg : Recounts g)
    (hreferences : ∀ v ∈ db.versions, (g v).references =
      handles'.count v.serial + (if v.serial = db.currentVersion then 1 else 0) ∧ (g v).references ≠ 0)
    (hopened : ∀ k ∈ handles', ∃ v ∈ db.versions, v.serial = k) : Versions last (db.recount g) handles' where
  sorted := by
    rw [db.versions_recount]
    refine pairwise_map.mpr (h.sorted.imp fun hlt => ?_)
    rwa [hg.serial, hg.serial]
  current := by
    obtain ⟨cur, vs, hlist, hcur⟩ := h.current
    exact ⟨g cur, vs.map g, congrArg (map g) hlist, (hg.serial cur).trans hcur⟩
  least := by
    obtain ⟨vs, v, hlist, hv, hnil⟩ := h.least
    refine ⟨vs.map g, g v, ?_, (hg.serial v).trans hv, (hg.changedList v).trans hnil⟩
    exact (congrArg (map g) hlist).trans map_append
  least_pos := h.least_pos
  current_le := h.current_le
  future w hw := by
    obtain ⟨v, hv, rfl⟩ := Option.map_eq_some_iff.mp hw
    exact (hg.serial v).trans (h.future v hv)
  references v hv := by
    rw [db.versions_recount] at hv
    obtain ⟨u, hu, rfl⟩ := mem_map.mp hv
    rw [hg.serial]
    exact hreferences u hu
  opened k hk := by
    obtain ⟨v, hv, heq⟩ := hopened k hk
    exact ⟨g v, db.versions_recount g ▸ mem_map_of_mem hv, (hg.serial v).trans heq⟩
  resigned v hv := by
    obtain ⟨u, hu, rfl⟩ := mem_map.mp hv
    exact (hg.resignedList u).trans (h.resigned u hu)
  next := h.next
  last_lt := h.last_lt

theorem Versions.attach (h : Versions last db handles)
    (hv : v ∈ db.versions) : Versions last (db.recount (atSerial Rbtdb.attach v.serial)) (v.serial :: handles) := by
  refine h.recount (recounts_attach _) (fun u hu => ?_) (fun k hk => ?_)
  · obtain ⟨hrefs, hne⟩ := h.references u hu
    unfold atSerial
    split
    · next heq =>
      refine ⟨?_, Nat.succ_ne_zero _⟩
      show u.references + 1 = _
      rw [hrefs, heq, count_cons_self]
      omega
    · next hne' =>
      rw [count_cons_of_ne (Ne.symm hne')]
      exact ⟨hrefs, hne⟩
  · rcases mem_cons.mp hk with rfl | hk
    · exact ⟨v, hv, rfl⟩
    · exact h.opened k hk

theorem Versions.detach (h : Versions last db handles)
    (hv : v ∈ db.versions) (hmem : v.serial ∈ handles) (hmany : 1 < v.references) :
    Versions last (db.recount (atSerial Rbtdb.detach v.serial)) (handles.erase v.serial) := by
  refine h.recount (recounts_detach _) (fun u hu => ?_) (fun k hk => h.opened k (mem_of_mem_erase hk))
  obtain ⟨hrefs, hne⟩ := h.references u hu
  unfold atSerial
  split
  · next heq =>
    obtain rfl := h.unique hu hv heq
    have hpos := count_pos_iff.mpr hmem
    refine ⟨?_, Nat.sub_ne_zero_of_lt hmany⟩
    show u.references - 1 = _
    rw [count_erase_self]
    omega
  · next hne' =>
    rw [count_erase_of_ne hne']
    exact ⟨hrefs, hne⟩

section
variable [DecidableEq N]

theorem Nodes.recount {db : Db N S} {last : Nat} {ext : N → Nat} {rolling : N → Nat → Prop} (h : Nodes db last ext rolling)
    {g : Version N → Version N} (hg : Recounts g) : Nodes (db.recount g) last ext rolling := by
  intro n
  refine (h n).transfer rfl le_rfl le_rfl (fun hw => .inr ?_) ?_ (fun s => ?_) (fun s => ?_)
  · simpa [Db.recount] using hw
  · simp only [records, db.versions_recount, total, map_map, Function.comp_def, load, hg.changedList, hg.resignedList]
    rfl
  · refine Or.imp_right (Or.imp_left ?_)
    rintro (⟨v, hv, hle, hmem⟩ | ⟨w, hw, heq, hmem⟩)
    · exact .inl ⟨g v, mem_map_of_mem hv, (hg.serial v).symm ▸ hle, (hg.changedList v).symm ▸ hmem⟩
    · refine .inr ⟨g w, ?_, (hg.serial w).symm ▸ heq, (hg.changedList w).symm ▸ hmem⟩
      exact congrArg (Option.map g) hw
  · refine Or.imp_right (Or.imp_left ?_)
    rintro ⟨w, hw, heq, hmem⟩
    exact ⟨g w, congrArg (Option.map g) hw, (hg.serial w).symm ▸ heq, (hg.changedList w).symm ▸ hmem⟩

/-! ### Closing -/

/-- What closing a version leaves: the versions of `db'` were open before, and read what they read. -/
structure Closed (db db' : Db N S) (last : Nat) (handles : List Nat) (held : N → Nat) : Prop where
  versions : Versions last db' handles
  nodes : Nodes db' last held fun _ _ => False
  kept : ∀ v ∈ db'.versions, ∃ u ∈ db.versions, u.serial = v.serial
  reads : ∀ v ∈ db'.versions, ∀ n t,
    readHeader v.serial ((db'.nodes n).headers t) = readHeader v.serial ((db.nodes n).headers t)

/-- The end of `dns__rbtdb_closeversion`, when the list of versions is as it should be but nodes have to be released. -/
theorem closed_finish {db db1 : Db N S} {last : Nat} {handles : List Nat} {held : N → Nat} (rollback : Option Nat)
    (ns : List N) (cs : List (Changed N)) (hnodes1 : db1.nodes = db.nodes) (hv : Versions last db1 handles)
    (hkept : ∀ v ∈ db1.versions, ∃ u ∈ db.versions, u.serial = v.serial)
    (hrollback : ∀ r, rollback = some r → db1.futureVersion = none ∧ ∀ v ∈ db1.openVersions, v.serial < r)
    (hn : Nodes db1 last (fun n => held n + (cs.map (·.node)).count n + ns.count n)
      fun n s => rollback = some s ∧ n ∈ cs.map (·.node)) :
    ∃ db', (do
        let db ← releaseResigned db1 ns
        cleanup rollback db cs) = .ok db' ∧ Closed db db' last handles held ∧
      db'.futureVersion = db1.futureVersion ∧ db'.currentVersion = db1.currentVersion := by
  have hrolling : ∀ n s, rollback = some s ∧ n ∈ cs.map (·.node) → held n + (cs.map (·.node)).count n ≠ 0 := by
    intro n s hs
    have := count_pos_iff.mpr hs.2
    omega
  obtain ⟨db2, hrun2, hn2, hsame2⟩ := releaseResigned_spec hrolling db1 hv.least_pos hn
  have hfuture : rollback.isSome = true → db2.futureVersion = none := by
    intro hsome
    obtain ⟨r, hr⟩ := Option.isSome_iff_exists.mp hsome
    exact hsame2.futureVersion.trans (hrollback r hr).1
  obtain ⟨db', hrun, hn', hsame'⟩ := cleanup_spec rollback db2 (hsame2.leastSerial ▸ hv.least_pos) hfuture hn2
  have hsame : SameReads (fun serial => db1.leastSerial ≤ serial ∧ ∀ r, rollback = some r → serial < r) db1 db' :=
    (hsame2.mono fun _ hs => hs.1).trans (hsame'.mono fun _ hs => hsame2.leastSerial.symm ▸ hs)
  have hversions : db'.versions = db1.versions := by
    unfold versions
    rw [hsame.futureVersion, hsame.openVersions]
  refine ⟨db', ?_, ⟨hv.of_sameReads hsame, hn', hversions ▸ hkept, fun v hmem n t => ?_⟩, hsame.futureVersion,
    hsame.currentVersion⟩
  · rw [hrun2]
    exact hrun
  · rw [hversions] at hmem
    rw [hsame.reads v.serial ⟨hv.least_le hmem, fun r hr => ?_⟩, hnodes1]
    obtain ⟨hnone, hlt⟩ := hrollback r hr
    rcases mem_versions.mp hmem with hw | hmem
    · rw [hnone] at hw
      cases hw
    · exact hlt v hmem

end

/-! ### The last reference to a reader -/

section
variable {a b : List (Version N)} {u : Version N}

theorem ne_of_split (h : Descending (a ++ u :: b)) :
    (∀ x ∈ a, x.serial ≠ u.serial) ∧ ∀ x ∈ b, x.serial ≠ u.serial := by
  obtain ⟨-, hb, hab⟩ := pairwise_append.mp h
  exact ⟨fun x hx => (hab x hx u (.head _)).ne', fun x hx => ((pairwise_cons.mp hb).1 x hx).ne⟩

theorem filter_split (h : Descending (a ++ u :: b)) :
    (a ++ u :: b).filter (·.serial ≠ u.serial) = a ++ b := by
  obtain ⟨ha, hb⟩ := ne_of_split h
  rw [filter_append, filter_cons_of_neg (by simp), filter_eq_self.mpr fun x hx => by simpa using ha x hx,
    filter_eq_self.mpr fun x hx => by simpa using hb x hx]

theorem update_split (f : Version N → Version N) (h : Descending (a ++ u :: b)) :
    update f u.serial (a ++ u :: b) = a ++ f u :: b := by
  obtain ⟨ha, hb⟩ := ne_of_split h
  have hid : ∀ {l : List (Version N)}, (∀ x ∈ l, x.serial ≠ u.serial) →
      l.map (fun v => if v.serial = u.serial then f v else v) = l := fun hl =>
    (map_congr_left fun x hx => if_neg (hl x hx)).trans (map_id' _)
  simp [update, hid ha, hid hb]

theorem prev_split {v : Version N} (h : Descending (a ++ u :: v :: b)) :
    prev v.serial (a ++ u :: v :: b) = some u := by
  induction a with
  | nil => exact if_pos rfl
  | cons x a ih =>
    have htail := (pairwise_cons.mp h).2
    rcases a with _ | ⟨y, a⟩
    · exact (if_neg ((pairwise_cons.mp htail).1 v (.head _)).ne').trans (ih htail)
    · exact (if_neg ((pairwise_cons.mp htail).1 v (by simp)).ne').trans (ih htail)

theorem Versions.split {last : Nat} {db : Db N S} {handles : List Nat} (h : Versions last db handles) {v : Version N}
    (hv : v ∈ db.openVersions) (hne : v.serial ≠ db.currentVersion) :
    ∃ a u b, db.openVersions = a ++ u :: v :: b := by
  obtain ⟨cur, vs, hlist, hcur⟩ := h.current
  rw [hlist] at hv
  rcases mem_cons.mp hv with rfl | hv
  · exact absurd hcur hne
  · obtain ⟨p, b, rfl⟩ := append_of_mem hv
    refine ⟨(cur :: p).dropLast, (cur :: p).getLast (cons_ne_nil _ _), b, ?_⟩
    rw [hlist, ← cons_append, append_cons (cur :: p).dropLast, dropLast_append_getLast]

end

theorem ne_of_mem_erase {k m : Nat} (h : handles.count m = 1) (hk : k ∈ handles.erase m) : k ≠ m := by
  rintro rfl
  rw [← count_pos_iff, count_erase_self, h] at hk
  exact lt_irrefl 0 hk

section
variable {l l' : List (Version N)} (h : (l'.map (·.serial)).Sublist (l.map (·.serial)))
include h

theorem Descending.of_serials (hl : Descending l) : Descending l' :=
  pairwise_map.mp ((pairwise_map (R := fun m n => n < m)).mpr hl |>.sublist h)

theorem kept_of_serials : ∀ x ∈ l', ∃ y ∈ l, y.serial = x.serial := fun _ hx => mem_map.mp (h.subset (mem_map_of_mem hx))

end

/-- The lists without a version that nobody uses, where `u` has the list `cs` now. -/
def Db.dropVersion (db : Db N S) (leastSerial : Nat) (a b : List (Version N)) (u : Version N) (cs : List (Changed N)) :
    Db N S :=
  { db with leastSerial := leastSerial, openVersions := a ++ { u with changedList := cs } :: b }

theorem Versions.dropVersion (h : Versions last db handles)
    (leastSerial : Nat) (cs : List (Changed N)) {a b : List (Version N)} {u : Version N} (hlist : db.openVersions = a ++ u :: v :: b)
    (hcount : handles.count v.serial = 1)
    (hleast : ∃ vs x, a ++ { u with changedList := cs } :: b = vs ++ [x] ∧ x.serial = leastSerial ∧ x.changedList = [])
    (hpos : leastSerial ≠ 0) :
    Versions last (db.dropVersion leastSerial a b u cs) (handles.erase v.serial) ∧
      ∀ x ∈ (db.dropVersion leastSerial a b u cs).versions, ∃ y ∈ db.versions, y.serial = x.serial := by
  have hv : v ∈ db.openVersions := by simp [hlist]
  have hserials : ((db.dropVersion leastSerial a b u cs).versions.map (·.serial)).Sublist (db.versions.map (·.serial)) := by
    simp [Db.versions, Db.dropVersion, hlist]
  have hold : ∀ x ∈ a ++ { u with changedList := cs } :: b, ∃ y ∈ db.openVersions, y.serial = x.serial ∧
      y.references = x.references ∧ y.resignedList = x.resignedList ∧ y.serial ≠ v.serial := by
    have hsplit : Descending (a ++ [u] ++ v :: b) := by simpa [hlist] using h.sorted_open
    obtain ⟨ha, hb⟩ := ne_of_split hsplit
    intro x hx
    rw [hlist]
    rcases mem_append.mp hx with hx | hx
    · exact ⟨x, by simp [hx], rfl, rfl, rfl, ha x (by simp [hx])⟩
    · rcases mem_cons.mp hx with rfl | hx
      · exact ⟨u, by simp, rfl, rfl, rfl, ha u (by simp)⟩
      · exact ⟨x, by simp [hx], rfl, rfl, rfl, hb x hx⟩
  refine ⟨⟨Descending.of_serials hserials h.sorted, ?_, hleast, hpos, h.current_le, h.future, fun x hx => ?_, fun k hk => ?_,
    fun x hx => ?_, h.next, h.last_lt⟩, kept_of_serials hserials⟩
  · obtain ⟨cur, vs, hcurlist, hcur⟩ := h.current
    rw [hlist] at hcurlist
    rcases a with _ | ⟨x, a⟩
    · cases hcurlist
      exact ⟨_, b, rfl, hcur⟩
    · cases hcurlist
      exact ⟨cur, _, rfl, hcur⟩
  · rcases Db.mem_versions.mp hx with hw | hx
    · rw [count_erase_of_ne (h.lt_future hw hv).ne']
      exact h.references x (Db.mem_versions.mpr (.inl hw))
    · obtain ⟨y, hy, hserial, hrefs, -, hyv⟩ := hold x hx
      rw [← hserial, ← hrefs, count_erase_of_ne hyv]
      exact h.references y (Db.mem_versions.mpr (.inr hy))
  · have hmem := mem_map.mpr (h.opened k (mem_of_mem_erase hk))
    refine mem_map.mp ?_
    simpa [Db.versions, Db.dropVersion, hlist, ne_of_mem_erase hcount hk] using hmem
  · obtain ⟨y, hy, -, -, hresigned, -⟩ := hold x hx
    exact hresigned ▸ h.resigned y hy

variable [DecidableEq N]

variable {held : N → Nat}

/-- What is done with the records of a reader `v` that goes and of its `PREV`, which is `u`: `cs` are kept, `cl` are to be
    cleaned up. -/
structure HandedDown (db : Db N S) (a b : List (Version N)) (u v : Version N) (leastSerial : Nat) (cs cl : List (Changed N)) :
    Prop where
  least : ∃ vs x, a ++ { u with changedList := cs } :: b = vs ++ [x] ∧ x.serial = leastSerial ∧ x.changedList = []
  least_le : db.leastSerial ≤ leastSerial
  counts : ∀ n, (u.changedList.map (·.node)).count n + (v.changedList.map (·.node)).count n =
    (cl.map (·.node)).count n + (cs.map (·.node)).count n
  kept : ∀ n, ⟨n, true⟩ ∈ u.changedList ∨ ⟨n, true⟩ ∈ v.changedList → u.serial ≤ leastSerial ∨ ⟨n, true⟩ ∈ cs

/-- `PREV` takes over the records of the version, or its own nodes are released if it is the least one then. -/
theorem closeReader_eq (h : Versions last db handles) {a b : List (Version N)} {u : Version N}
    (hlist : db.openVersions = a ++ u :: v :: b) (hlt : v.serial < u.serial) (hne : v.serial ≠ db.currentVersion) :
    ∃ leastSerial cs cl, closeReader db v = .ok (db.dropVersion leastSerial a b u cs, cl) ∧
      HandedDown db a b u v leastSerial cs cl := by
  have hsorted := h.sorted_open
  rw [hlist] at hsorted
  have hfilter : (a ++ u :: v :: b).filter (·.serial ≠ v.serial) = a ++ u :: b := by
    have hsplit : Descending (a ++ [u] ++ v :: b) := by simpa using hsorted
    simpa using filter_split hsplit
  have hsorted' : Descending (a ++ u :: b) :=
    hsorted.sublist ((Sublist.refl a).append ((sublist_cons_self v b).cons_cons u))
  obtain ⟨vs, l, hl, hserial, hnil⟩ := h.least
  rw [hlist] at hl
  unfold closeReader
  rw [if_pos hne, hlist, prev_split hsorted, hfilter, Option.some_or]
  dsimp only
  rw [if_neg (Nat.not_le.mpr hlt), update_split _ hsorted', update_split _ hsorted']
  by_cases hleast : v.serial = db.leastSerial
  · -- the version was the least one: `u` is it now
    have hnil := h.changedList_least (by simp [hlist]) hleast
    obtain rfl : b = [] := by
      refine eq_nil_iff_forall_not_mem.mpr fun x hx => ?_
      have hxv : x.serial < v.serial :=
        (pairwise_cons.mp (pairwise_cons.mp (pairwise_append.mp hsorted).2.1).2).1 x hx
      have := h.least_le_open (v := x) (by simp [hlist, hx])
      omega
    rw [if_pos hleast, if_neg (by simp [hnil])]
    refine ⟨u.serial, [], u.changedList, rfl, ⟨a, _, rfl, rfl, rfl⟩, hleast ▸ hlt.le, fun n => ?_, fun n _ => .inl le_rfl⟩
    rw [hnil]
  · -- otherwise `u` takes the records
    rw [if_neg hleast]
    refine ⟨db.leastSerial, u.changedList ++ v.changedList, [], rfl, ?_, le_rfl, fun n => by simp,
      fun n hn => .inr (mem_append.mpr hn)⟩
    rcases eq_nil_or_concat' b with rfl | ⟨b, x, rfl⟩
    · have heq : (a ++ [u]) ++ [v] = vs ++ [l] := by simpa using hl
      obtain ⟨-, hvl⟩ := append_inj' heq rfl
      cases hvl
      exact absurd hserial hleast
    · have heq : (a ++ u :: v :: b) ++ [x] = vs ++ [l] := by simpa using hl
      obtain ⟨-, hxl⟩ := append_inj' heq rfl
      cases hxl
      exact ⟨a ++ { u with changedList := u.changedList ++ v.changedList } :: b, l, by simp, hserial, hnil⟩

theorem closeReader_spec (h : Versions last db handles) (hn : Nodes db last held fun _ _ => False) (hv : v ∈ db.openVersions)
    (hcount : handles.count v.serial = 1) (hne : v.serial ≠ db.currentVersion) :
    ∃ db', (do
        let (db, cleanupList) ← closeReader db v
        cleanup none db cleanupList) = .ok db' ∧ Closed db db' last (handles.erase v.serial) held ∧
      db'.futureVersion = db.futureVersion ∧ db'.currentVersion = db.currentVersion := by
  obtain ⟨a, u, b, hlist⟩ := h.split hv hne
  have hlt : v.serial < u.serial :=
    (pairwise_cons.mp (pairwise_append.mp (hlist ▸ h.sorted_open : Descending (a ++ u :: v :: b))).2.1).1 v (.head _)
  obtain ⟨leastSerial, cs, cl, hrun, hdown⟩ := closeReader_eq h hlist hlt hne
  have hpos : leastSerial ≠ 0 := fun hzero => h.least_pos (Nat.le_zero.mp (hzero ▸ hdown.least_le))
  obtain ⟨hversions, hkept⟩ := h.dropVersion _ _ hlist hcount hdown.least hpos
  rw [hrun]
  refine closed_finish none [] _ rfl hversions hkept (fun r hr => (nomatch hr)) fun n => ?_
  refine (hn n).transfer rfl le_rfl le_rfl (fun hw => .inr hw) ?_ (fun s hs => ?_) (fun s => Or.imp_right (Or.imp_right False.elim))
  · have hcounts := hdown.counts n
    have hresigned : u.resignedList = [] ∧ v.resignedList = [] :=
      ⟨h.resigned u (by simp [hlist]), h.resigned v (by simp [hlist])⟩
    simp only [records, versions, dropVersion, hlist, total_append, total_cons, load, hresigned.1, hresigned.2, count_nil]
    omega
  · rcases hs with hle | (⟨x, hx, hle, hmem⟩ | hw) | hfalse
    · exact .inl (hle.trans hdown.least_le)
    · have hu : s ≤ u.serial → ⟨n, true⟩ ∈ u.changedList ∨ ⟨n, true⟩ ∈ v.changedList →
          s ≤ leastSerial ∨ (db.dropVersion leastSerial a b u cs).Recorded n s := fun hle hmem =>
        (hdown.kept n hmem).imp hle.trans fun hcs =>
          .inl ⟨{ u with changedList := cs }, mem_append_right _ (.head _), hle, hcs⟩
      rw [hlist] at hx
      simp only [mem_append, mem_cons] at hx
      rcases hx with hx | rfl | rfl | hx
      · exact .inr (.inl (.inl ⟨x, mem_append_left _ hx, hle, hmem⟩))
      · exact (hu hle (.inl hmem)).imp_right .inl
      · exact (hu (hle.trans hlt.le) (.inr hmem)).imp_right .inl
      · exact .inr (.inl (.inl ⟨x, mem_append_right _ (.tail _ hx), hle, hmem⟩))
    · exact .inr (.inl (.inr hw))
    · exact hfalse.elim

/-! ### The last reference to the writer -/

variable {w : Version N}

theorem rollback_spec (h : Versions last db handles)
    (hn : Nodes db last held fun _ _ => False) (hw : db.futureVersion = some w)
    (hcount : handles.count w.serial = 1) :
    ∃ db', (do
        let db ← releaseResigned { db with futureVersion := none } w.resignedList
        cleanup (some w.serial) db w.changedList) = .ok db' ∧ Closed db db' last (handles.erase w.serial) held ∧
      db'.futureVersion = none ∧ db'.currentVersion = db.currentVersion := by
  have hmem : ∀ v ∈ ({ db with futureVersion := none } : Db N S).versions, v ∈ db.openVersions := fun v hv => hv
  have hversions : Versions last { db with futureVersion := none } (handles.erase w.serial) := by
    refine ⟨h.sorted_open, h.current, h.least, h.least_pos, h.current_le, (fun _ hnone => by cases hnone), fun v hv => ?_,
      fun k hk => ?_, h.resigned, h.next, h.last_lt⟩
    · rw [count_erase_of_ne (h.lt_future hw (hmem v hv)).ne]
      exact h.references v (mem_versions.mpr (.inr (hmem v hv)))
    · obtain ⟨v, hv, rfl⟩ := h.opened k (mem_of_mem_erase hk)
      rcases mem_versions.mp hv with hv | hv
      · cases hw.symm.trans hv
        exact absurd rfl (ne_of_mem_erase hcount hk)
      · exact ⟨v, hv, rfl⟩
  refine closed_finish (some w.serial) _ _ rfl hversions (fun v hv => ⟨v, mem_versions.mpr (.inr (hmem v hv)), rfl⟩)
    (fun r hr => ⟨rfl, fun v hv => Option.some.inj hr ▸ h.lt_future hw hv⟩) fun n => ?_
  refine (hn n).transfer rfl le_rfl le_rfl (fun hsome => (nomatch hsome)) ?_ (fun s hs => ?_) (fun s hs => ?_)
  · simp only [records, versions, hw, Option.toList_some, Option.toList_none, total_append, total_cons, total_nil, load]
    omega
  · rcases hs with hle | (hrecorded | ⟨w', hw', rfl, hmem'⟩) | hfalse
    · exact .inl hle
    · exact .inr (.inl (.inl hrecorded))
    · rw [hw] at hw'
      cases hw'
      exact .inr (.inr ⟨rfl, mem_map.mpr ⟨_, hmem', rfl⟩⟩)
    · exact hfalse.elim
  · rcases hs with hle | ⟨w', hw', rfl, hmem'⟩ | hfalse
    · exact .inl hle
    · rw [hw] at hw'
      cases hw'
      exact .inr (.inr ⟨rfl, hmem'⟩)
    · exact hfalse.elim

/-- The lists after a commit: the writer, now with the list `cs`, before what is left of the others. -/
def Db.pushVersion (db : Db N S) (leastSerial : Nat) (w : Version N) (cs : List (Changed N)) (rest : List (Version N)) :
    Db N S :=
  { db with
    currentVersion := w.serial
    futureVersion := none
    leastSerial := leastSerial
    openVersions := { w with references := 1, changedList := cs, resignedList := [] } :: rest }

/-- What is left of the former current version and the others. -/
inductive Remaining (cur : Version N) (vs : List (Version N)) : List (Version N) → Prop
  | dropped (h : cur.references = 1) : Remaining cur vs vs
  | detached (h : 1 < cur.references) : Remaining cur vs (detach cur :: vs)

omit [DecidableEq N] in
theorem Versions.pushVersion (h : Versions last db handles)
    (hw : db.futureVersion = some w) (hcount : handles.count w.serial = 1) {cur : Version N} {vs rest : List (Version N)}
    (hlist : db.openVersions = cur :: vs) (hcur : cur.serial = db.currentVersion) (hrest : Remaining cur vs rest)
    {leastSerial : Nat} {cs : List (Changed N)}
    (hleast : ∃ vs x, { w with references := 1, changedList := cs, resignedList := [] } :: rest = vs ++ [x] ∧
      x.serial = leastSerial ∧ x.changedList = []) (hpos : leastSerial ≠ 0) :
    Versions last (db.pushVersion leastSerial w cs rest) (handles.erase w.serial) ∧
      ∀ x ∈ (db.pushVersion leastSerial w cs rest).versions, ∃ y ∈ db.versions, y.serial = x.serial := by
  have hsorted := h.sorted
  rw [versions, hw, hlist] at hsorted
  change (w :: cur :: vs).Pairwise _ at hsorted
  obtain ⟨hwlt, hsorted'⟩ := pairwise_cons.mp hsorted
  have hcurlt := (pairwise_cons.mp hsorted').1
  have hversions : ∀ x, x ∈ db.versions ↔ x = w ∨ x = cur ∨ x ∈ vs := by
    intro x
    rw [mem_versions, hw, hlist, mem_cons, Option.some.injEq, eq_comm]
  have hserials : (rest.map (·.serial)).Sublist ((cur :: vs).map (·.serial)) := by
    cases hrest with
    | dropped _ => exact sublist_cons_self _ _
    | detached _ => exact Sublist.refl _
  -- a version that is left had the reference that the database takes away from the current one
  have hrefs : ∀ x ∈ rest, x.references = handles.count x.serial ∧ x.references ≠ 0 ∧ x.serial < w.serial ∧
      x.resignedList = [] := by
    have hold : ∀ x ∈ vs, x.references = handles.count x.serial ∧ x.references ≠ 0 ∧ x.serial < w.serial ∧
        x.resignedList = [] := by
      intro x hx
      obtain ⟨hrefs, hne⟩ := h.references x ((hversions x).mpr (.inr (.inr hx)))
      rw [if_neg (hcur ▸ (hcurlt x hx).ne)] at hrefs
      exact ⟨hrefs, hne, hwlt x (.tail _ hx), h.resigned x (hlist ▸ .tail _ hx)⟩
    cases hrest with
    | dropped _ => exact hold
    | detached hmany =>
      intro x hx
      rcases mem_cons.mp hx with rfl | hx
      · obtain ⟨hrefs, -⟩ := h.references cur ((hversions cur).mpr (.inr (.inl rfl)))
        rw [if_pos hcur] at hrefs
        exact ⟨Nat.sub_eq_of_eq_add hrefs, Nat.sub_ne_zero_of_lt hmany, hwlt cur (.head _),
          h.resigned cur (hlist ▸ .head _)⟩
      · exact hold x hx
  have hserials' : ((db.pushVersion leastSerial w cs rest).versions.map (·.serial)).Sublist (db.versions.map (·.serial)) := by
    simpa [versions, Db.pushVersion, hw, hlist] using hserials
  refine ⟨⟨Descending.of_serials hserials' h.sorted, ⟨_, rest, rfl, rfl⟩, hleast, hpos, (h.future w hw).le,
    (fun _ hnone => by cases hnone), fun x hx => ?_, fun k hk => ?_, fun x hx => ?_, h.next, h.last_lt⟩,
    kept_of_serials hserials'⟩
  · rcases mem_cons.mp hx with rfl | hx
    · refine ⟨?_, Nat.one_ne_zero⟩
      show 1 = (handles.erase w.serial).count w.serial + (if w.serial = w.serial then 1 else 0)
      rw [if_pos rfl, count_eq_zero.mpr fun hk => ne_of_mem_erase hcount hk rfl]
    · obtain ⟨hcountx, hne, hlt, -⟩ := hrefs x hx
      refine ⟨?_, hne⟩
      show _ = (handles.erase w.serial).count x.serial + (if x.serial = w.serial then 1 else 0)
      rw [if_neg hlt.ne, count_erase_of_ne hlt.ne]
      exact hcountx
  · obtain ⟨y, hy, rfl⟩ := h.opened k (mem_of_mem_erase hk)
    rcases (hversions y).mp hy with rfl | hy'
    · exact absurd rfl (ne_of_mem_erase hcount hk)
    · cases hrest with
      | detached _ =>
        rcases hy' with rfl | hy'
        · exact ⟨Rbtdb.detach y, .tail _ (.head _), rfl⟩
        · exact ⟨y, .tail _ (.tail _ hy'), rfl⟩
      | dropped hone =>
        refine ⟨y, .tail _ (hy'.resolve_left ?_), rfl⟩
        rintro rfl
        obtain ⟨hrefs, -⟩ := h.references y hy
        have := count_pos_iff.mpr (mem_of_mem_erase hk)
        rw [if_pos hcur] at hrefs
        omega
  · rcases mem_cons.mp hx with rfl | hx
    · rfl
    · exact (hrefs x hx).2.2.2

/-- What a commit does with the records of the writer and of the former current version `cur`: `cs` are kept, `cl` are to be
    cleaned up. -/
structure HandedOn (db : Db N S) (w cur : Version N) (vs rest : List (Version N)) (leastSerial : Nat)
    (cs cl : List (Changed N)) : Prop where
  remaining : Remaining cur vs rest
  least : ∃ vs x, { w with references := 1, changedList := cs, resignedList := [] } :: rest = vs ++ [x] ∧
    x.serial = leastSerial ∧ x.changedList = []
  least_le : db.leastSerial ≤ leastSerial
  counts : ∀ n, (w.changedList.map (·.node)).count n + total (load n) (cur :: vs) =
    (cl.map (·.node)).count n + (cs.map (·.node)).count n + total (load n) rest
  writer : ∀ n, ⟨n, true⟩ ∈ w.changedList → w.serial ≤ leastSerial ∨ ⟨n, true⟩ ∈ cs
  former : ∀ n, ⟨n, true⟩ ∈ cur.changedList → ⟨n, true⟩ ∈ cs ∨ detach cur ∈ rest

theorem count_dirty (l : List (Changed N)) (n : N) :
    (l.map (·.node)).count n = ((l.filter (!·.dirty)).map (·.node)).count n + ((l.filter (·.dirty)).map (·.node)).count n := by
  induction l with
  | nil => rfl
  | cons c l ih =>
    rcases hc : c.dirty with _ | _ <;> simp only [filter_cons, hc, Bool.not_false, Bool.not_true, if_true, if_false,
      map_cons, count_cons, ih, Bool.false_eq_true] <;> omega

theorem load_cur (h : Versions last db handles)
    (hv : v ∈ db.openVersions) (n : N) : load n v = (v.changedList.map (·.node)).count n := by
  simp [load, h.resigned v hv]

theorem commitVersion_spec (h : Versions last db handles)
    (hw : db.futureVersion = some w) {cur : Version N} {vs : List (Version N)} (hlist : db.openVersions = cur :: vs)
    (hcur : cur.serial = db.currentVersion) :
    ∃ rest leastSerial cs cl, commitVersion db w = .ok (db.pushVersion leastSerial w cs rest, cl) ∧
      HandedOn db w cur vs rest leastSerial cs cl := by
  have hmem : cur ∈ db.openVersions := hlist ▸ mem_cons_self
  have hsorted : Descending ([] ++ cur :: vs) := hlist ▸ h.sorted_open
  have hfind : db.openVersions.find? (·.serial = db.currentVersion) = some cur := hcur ▸ find?_serial h.sorted_open hmem
  have hrefs := (h.references cur (mem_versions.mpr (.inr hmem))).2
  have hinsist : ¬ (cur.references = 1 ∧ cur.serial = db.leastSerial ∧ cur.changedList ≠ []) := fun hbad =>
    hbad.2.2 (h.changedList_least hmem hbad.2.1)
  have hfilter : db.openVersions.filter (·.serial ≠ cur.serial) = vs := by
    rw [hlist]
    exact filter_split hsorted
  have hupdate : update detach cur.serial db.openVersions = detach cur :: vs := by
    rw [hlist]
    exact update_split detach hsorted
  have hdirty : ∀ {n : N}, ⟨n, true⟩ ∈ w.changedList → ⟨n, true⟩ ∈ w.changedList.filter (·.dirty) := fun hn =>
    mem_filter.mpr ⟨hn, rfl⟩
  obtain ⟨us, x, hus, hxleast, hxnil⟩ := h.least
  rw [hlist] at hus
  unfold commitVersion
  rw [hfind]
  dsimp only
  rw [if_neg hrefs, if_neg hinsist, hfilter, hupdate]
  by_cases hone : cur.references = 1
  · rw [if_pos hone, if_pos hone]
    rcases vs with _ | ⟨y, ys⟩
    · -- the writer is the only version now
      have hnil : cur.changedList = [] := by
        obtain ⟨-, heq⟩ := append_inj' (show [] ++ [cur] = us ++ [x] from hus) rfl
        cases heq
        exact hxnil
      refine ⟨[], w.serial, cur.changedList, w.changedList, rfl, .dropped hone, ⟨[], _, rfl, rfl, hnil⟩,
        (h.least_le_open hmem).trans (h.lt_future hw hmem).le, fun n => ?_, fun n _ => .inl le_rfl, fun n hn => .inl hn⟩
      rw [total_cons, load_cur h hmem]
      rfl
    · refine ⟨y :: ys, db.leastSerial, w.changedList.filter (·.dirty) ++ cur.changedList, w.changedList.filter (!·.dirty), rfl,
        .dropped hone, ?_, le_rfl, fun n => ?_, fun n hn => .inr (mem_append_left _ (hdirty hn)),
        fun n hn => .inl (mem_append_right _ hn)⟩
      · rcases us with _ | ⟨u, us⟩
        · cases hus
        · obtain ⟨-, hys⟩ := cons.inj hus
          exact ⟨_ :: us, x, congrArg (cons _) hys, hxleast, hxnil⟩
      · rw [total_cons _ cur, load_cur h hmem, count_dirty, map_append, count_append]
        omega
  · rw [if_neg hone, if_neg hone]
    refine ⟨detach cur :: vs, db.leastSerial, w.changedList.filter (·.dirty) ++ [], w.changedList.filter (!·.dirty), rfl,
      .detached (by omega), ?_, le_rfl, fun n => ?_, fun n hn => .inr (mem_append_left _ (hdirty hn)),
      fun n _ => .inr (.head _)⟩
    · rcases us with _ | ⟨u, us⟩
      · cases hus
        exact ⟨[_], detach cur, rfl, hxleast, hxnil⟩
      · cases hus
        exact ⟨_ :: detach cur :: us, x, rfl, hxleast, hxnil⟩
    · rw [total_cons, total_cons, count_dirty, append_nil, show load n (detach cur) = load n cur from rfl]

theorem commit_spec (h : Versions last db handles)
    (hn : Nodes db last held fun _ _ => False) (hw : db.futureVersion = some w)
    (hcount : handles.count w.serial = 1) :
    ∃ db', (do
        let (db, cleanupList) ← commitVersion db w
        let db ← releaseResigned db w.resignedList
        cleanup none db cleanupList) = .ok db' ∧ Closed db db' last (handles.erase w.serial) held ∧
      db'.futureVersion = none ∧ db'.currentVersion = w.serial := by
  obtain ⟨cur, vs, hlist, hcur⟩ := h.current
  obtain ⟨rest, leastSerial, cs, cl, hrun, hon⟩ := commitVersion_spec h hw hlist hcur
  have hpos : leastSerial ≠ 0 := fun hzero => h.least_pos (Nat.le_zero.mp (hzero ▸ hon.least_le))
  obtain ⟨hversions, hkept⟩ := h.pushVersion hw hcount hlist hcur hon.remaining hon.least hpos
  have hlt := h.current_lt_future hw
  rw [hrun]
  refine closed_finish none _ cl rfl hversions hkept (fun r hr => (nomatch hr)) fun n => ?_
  have hcounts := hon.counts n
  refine (hn n).transfer rfl le_rfl le_rfl (fun hsome => (nomatch hsome)) ?_ (fun s hs => ?_) (fun s hs => ?_)
  · simp only [records, versions, pushVersion, hw, hlist, Option.toList_some, Option.toList_none, nil_append,
      singleton_append, total_cons, load, count_nil] at hcounts ⊢
    omega
  · rcases hs with hle | (⟨v, hv, hle, hmem⟩ | ⟨w', hw', rfl, hmem⟩) | hfalse
    · exact .inl (hle.trans hon.least_le)
    · -- a record of the current version is handed on, unless someone else uses this version
      have hpush : ∀ y ∈ rest, y ∈ (db.pushVersion leastSerial w cs rest).openVersions := fun y hy => .tail _ hy
      rw [hlist] at hv
      rcases mem_cons.mp hv with rfl | hv
      · rcases hon.former n hmem with hcs | hrest
        · exact .inr (.inl (.inl ⟨_, .head _, show s ≤ w.serial by omega, hcs⟩))
        · exact .inr (.inl (.inl ⟨detach v, hpush _ hrest, hle, hmem⟩))
      · refine .inr (.inl (.inl ⟨v, hpush v ?_, hle, hmem⟩))
        cases hon.remaining with
        | dropped _ => exact hv
        | detached _ => exact .tail _ hv
    · rw [hw] at hw'
      cases hw'
      rcases hon.writer n hmem with hle | hcs
      · exact .inl hle
      · exact .inr (.inl (.inl ⟨_, .head _, le_rfl, hcs⟩))
    · exact hfalse.elim
  · rcases hs with hle | ⟨w', hw', rfl, -⟩ | hfalse
    · exact .inl (show s ≤ w.serial by omega)
    · rw [hw] at hw'
      cases hw'
      exact .inl le_rfl
    · exact hfalse.elim

/-! ### `dns__rbtdb_closeversion` -/

/-- What becomes of the writer and the current version when a version is closed. -/
structure Roles (db db' : Db N S) (handles : List Nat) (serial : Nat) (commit : Bool) : Prop where
  writer : db'.futureVersion.map (·.serial) =
    if db.futureVersion.map (·.serial) = some serial ∧ handles.count serial = 1 then none
    else db.futureVersion.map (·.serial)
  current : db'.currentVersion =
    if db.futureVersion.map (·.serial) = some serial ∧ handles.count serial = 1 ∧ commit = true then serial
    else db.currentVersion

omit [DecidableEq N] in
theorem Roles.of_same {db db' : Db N S} {serial : Nat} {commit : Bool}
    (hother : db.futureVersion.map (·.serial) = some serial → handles.count serial ≠ 1)
    (hfuture : db'.futureVersion.map (·.serial) = db.futureVersion.map (·.serial))
    (hcurrent : db'.currentVersion = db.currentVersion) : Roles db db' handles serial commit :=
  ⟨by rw [if_neg fun h => hother h.1 h.2, hfuture], by rw [if_neg fun h => hother h.1 h.2.1, hcurrent]⟩

theorem closeversion_spec (h : Versions last db handles)
    (hn : Nodes db last held fun _ _ => False) {serial : Nat} (hmem : serial ∈ handles) {commit : Bool}
    (hcommit : commit = true → ∀ v, db.futureVersion = some v → v.serial = serial → v.references = 1) :
    ∃ db', closeversion db serial commit = .ok db' ∧ Closed db db' last (handles.erase serial) held ∧
      Roles db db' handles serial commit := by
  obtain ⟨v, hv, rfl⟩ := h.opened serial hmem
  obtain ⟨hrefs, hne⟩ := h.references v hv
  have hpos := count_pos_iff.mpr hmem
  have hwriter : db.futureVersion.any (·.serial = v.serial) = true ↔ db.futureVersion = some v := by
    rw [Option.any_eq_true_iff_get, Option.eq_some_iff_get_eq]
    refine exists_congr fun hsome => ?_
    rw [decide_eq_true_iff]
    refine ⟨fun heq => h.unique (mem_versions.mpr (.inl (Option.some_get hsome).symm)) hv heq, fun heq => heq ▸ rfl⟩
  unfold closeversion
  rw [h.version?_eq hv]
  dsimp only
  rw [if_neg hne]
  -- a writer has the references of its callers only
  have hcount : db.futureVersion.map (·.serial) = some v.serial → db.futureVersion = some v ∧ v.references = handles.count v.serial := by
    intro hmap
    obtain ⟨w, hw, heq⟩ := Option.map_eq_some_iff.mp hmap
    obtain rfl := h.unique (mem_versions.mpr (.inl hw)) hv heq
    rw [if_neg (h.current_lt_future hw).ne'] at hrefs
    exact ⟨hw, hrefs⟩
  by_cases hmany : 1 < v.references
  · have hinsist : ¬ (commit = true ∧ db.futureVersion.any (·.serial = v.serial) = true) := by
      rintro ⟨hc, hw⟩
      have := hcommit hc v (hwriter.mp hw) rfl
      omega
    rw [if_pos hmany, if_neg hinsist]
    have hmap : (db.recount (atSerial detach v.serial)).futureVersion.map (·.serial) = db.futureVersion.map (·.serial) := by
      show (db.futureVersion.map _).map _ = _
      rw [Option.map_map]
      exact congrArg (db.futureVersion.map ·) (funext (recounts_detach v.serial).serial)
    refine ⟨db.recount (atSerial detach v.serial), rfl, ⟨h.detach hv hmem hmany, hn.recount (recounts_detach _), fun x hx => ?_,
      fun _ _ _ _ => rfl⟩, .of_same (fun hw => ?_) hmap rfl⟩
    · rw [db.versions_recount] at hx
      obtain ⟨y, hy, rfl⟩ := mem_map.mp hx
      exact ⟨y, hy, ((recounts_detach _).serial y).symm⟩
    · have := (hcount hw).2
      omega
  · rw [if_neg hmany]
    by_cases hw : db.futureVersion = some v
    · have hmap : db.futureVersion.map (·.serial) = some v.serial := congrArg (Option.map _) hw
      have hone : handles.count v.serial = 1 := by
        omega
      rw [if_pos (hwriter.mpr hw)]
      rcases commit with _ | _
      · obtain ⟨db', hrun, hclosed, hfuture, hcurrent⟩ := rollback_spec h hn hw hone
        refine ⟨db', hrun, hclosed, ?_, ?_⟩
        · rw [if_pos ⟨hmap, hone⟩, hfuture]
          rfl
        · simp [hcurrent]
      · obtain ⟨db', hrun, hclosed, hfuture, hcurrent⟩ := commit_spec h hn hw hone
        refine ⟨db', hrun, hclosed, ?_, ?_⟩
        · rw [if_pos ⟨hmap, hone⟩, hfuture]
          rfl
        · rw [if_pos ⟨hmap, hone, rfl⟩, hcurrent]
    · have hopen : v ∈ db.openVersions := (mem_versions.mp hv).resolve_left hw
      have hnotcur : v.serial ≠ db.currentVersion := by
        intro heq
        rw [if_pos heq] at hrefs
        omega
      obtain ⟨db', hrun, hclosed, hfuture, hcurrent⟩ := closeReader_spec h hn hopen (by omega) hnotcur
      rw [if_neg (fun hany => hw (hwriter.mp hany))]
      exact ⟨db', hrun, hclosed, .of_same (fun hmap => absurd (hcount hmap).1 hw) (congrArg _ hfuture) hcurrent⟩

/-! ### The types of a node -/

def Node.types (node : Node S) : List TypePair := node.data.map (·.type)

/-- As long as there are references to a node, it keeps its types. -/
def Keeps (node node' : Node S) : Prop := node'.references ≠ 0 → node'.types = node.types ∧ node.references ≠ 0

theorem Keeps.refl (node : Node S) : Keeps node node := fun hrefs => ⟨rfl, hrefs⟩

theorem Keeps.trans {node node' node'' : Node S} (h : Keeps node node') (h' : Keeps node' node'') : Keeps node node'' := by
  intro hrefs
  obtain ⟨htypes, hrefs'⟩ := h' hrefs
  exact ⟨htypes.trans (h hrefs').1, (h hrefs').2⟩

theorem keeps_decref {node node' : Node S} {leastSerial : Nat} (h : decref node leastSerial = .ok node') :
    Keeps node node' := by
  intro hrefs
  unfold decref at h
  dsimp only at h
  split_ifs at h with hne hlast
  · unfold cleanZoneNode at h
    split_ifs at h
    obtain ⟨data, -, hok⟩ := bind_ok h
    cases hok
    exact absurd hlast.1 hrefs
  · cases h
    exact ⟨rfl, hne⟩

theorem keeps_setNode {db : Db N S} {m : N} {node : Node S} (h : Keeps (db.nodes m) node) (n : N) :
    Keeps (db.nodes n) ((db.setNode m node).nodes n) := by
  by_cases hn : n = m
  · subst hn
    rw [setNode_self]
    exact h
  · rw [Db.setNode]
    dsimp only
    rw [Function.update_of_ne hn]
    exact .refl _

theorem keeps_releaseResigned (n : N) (ns : List N) {db db' : Db N S} (h : releaseResigned db ns = .ok db') :
    Keeps (db.nodes n) (db'.nodes n) := by
  induction ns generalizing db with
  | nil =>
    cases h
    exact .refl _
  | cons m ns ih =>
    obtain ⟨node, hdecref, hrest⟩ := bind_ok h
    exact (keeps_setNode (keeps_decref hdecref) n).trans (ih hrest)

theorem keeps_cleanup (n : N) {rollback : Option Nat} (cs : List (Changed N)) {db db' : Db N S}
    (h : cleanup rollback db cs = .ok db') : Keeps (db.nodes n) (db'.nodes n) := by
  induction cs generalizing db with
  | nil =>
    cases h
    exact .refl _
  | cons c cs ih =>
    obtain ⟨node, hdecref, hrest⟩ := bind_ok h
    refine (keeps_setNode (Keeps.trans ?_ (keeps_decref hdecref)) n).trans (ih hrest)
    rcases rollback with _ | serial
    · exact .refl _
    · exact fun hrefs => ⟨by simp [Node.types, rollbackNode], hrefs⟩

omit [DecidableEq N] in
theorem commitVersion_nodes {db db' : Db N S} {version : Version N} {cs : List (Changed N)}
    (h : commitVersion db version = .ok (db', cs)) : db'.nodes = db.nodes := by
  unfold commitVersion at h
  grind

omit [DecidableEq N] in
theorem closeReader_nodes {db db' : Db N S} {version : Version N} {cs : List (Changed N)}
    (h : closeReader db version = .ok (db', cs)) : db'.nodes = db.nodes := by
  unfold closeReader at h
  grind

theorem keeps_closeversion (n : N) {db db' : Db N S} {serial : Nat} {commit : Bool}
    (h : closeversion db serial commit = .ok db') : Keeps (db.nodes n) (db'.nodes n) := by
  unfold closeversion at h
  split at h
  · cases h
  dsimp only at h
  split_ifs at h
  · cases h
    exact .refl _
  · obtain ⟨⟨db1, cs⟩, hcommit, h⟩ := bind_ok h
    obtain ⟨db2, hresigned, h⟩ := bind_ok h
    rw [← commitVersion_nodes hcommit]
    exact (keeps_releaseResigned n _ hresigned).trans (keeps_cleanup n _ h)
  · obtain ⟨db1, hresigned, h⟩ := bind_ok h
    exact (keeps_releaseResigned n _ hresigned).trans (keeps_cleanup n _ h)
  · obtain ⟨⟨db1, cs⟩, hreader, h⟩ := bind_ok h
    rw [← closeReader_nodes hreader]
    exact keeps_cleanup n _ h

end OqsBind.Dns.Rbtdb
