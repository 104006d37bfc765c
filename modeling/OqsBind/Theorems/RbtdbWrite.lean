import OqsBind.Theorems.RbtdbVersions

/-! What the writer does to a node: `dns__rbtdb_add`, `dns__rbtdb_subtractrdataset` and `dns__rbtdb_deleterdataset` leave
    a record in its list and, unless nothing changes, a header of its serial on top of the others of the type. -/

namespace OqsBind.Dns.Rbtdb
open Node

variable {N S : Type}

/-- What the writer makes of an rdataset that it finds, or does not find, at a node. -/
abbrev Change (S : Type) := Option (Rdataset S) → Option (Rdataset S)

/-- Adding: the new rdataset, or the union; if the two cannot be merged, all stays as it is. -/
def adding (slabs : Slabs S) (t : TypePair) (options : AddOptions) (new : Option (Rdataset S)) : Change S := fun old =>
  (mergeHeader slabs t options old new).toOption.getD old

/-- Subtracting: nothing from nothing; if the subtraction is refused, all stays as it is. -/
def subtracting (slabs : Slabs S) (t : TypePair) (exact : Bool) (sub : Rdataset S) : Change S
  | none => none
  | some old => (subtractHeader slabs t exact old sub).toOption.getD (some old)

/-- `node'` has one header more than `node`, on top of those of its type. -/
structure Pushed (node node' : Node S) (t : TypePair) (new : Header S) : Prop where
  types : (node'.data.map (·.type)).Nodup
  self : node'.headers t = new :: node.headers t
  other : ∀ t', t ≠ t' → node'.headers t' = node.headers t'
  grown : ∃ new, node'.data.map (·.type) = new ++ node.data.map (·.type)

variable {node : Node S}

theorem pushed_link {node' : Node S} (htypes : (node.data.map (·.type)).Nodup) {t : TypePair} {c : Chain S}
    (hc : node.chain? t = some c) {new : Header S} (hdata : node'.data = pushHeader c.type new node.data) :
    Pushed node node' t new := by
  obtain ⟨hmem, rfl⟩ := chain?_mem hc
  refine ⟨by rw [hdata, pushHeader_types]; exact htypes, ?_, fun t' ht => ?_, [], by rw [hdata, pushHeader_types]; rfl⟩
  · unfold headers
    rw [hdata]
    exact pushHeader_self new ⟨c, hmem, rfl⟩
  · unfold headers
    rw [hdata]
    exact pushHeader_ne new ht _

theorem pushed_new {node' : Node S} (htypes : (node.data.map (·.type)).Nodup) {t : TypePair}
    (hc : node.chain? t = none) {new : Header S} (hdata : node'.data = ⟨t, new, []⟩ :: node.data) :
    Pushed node node' t new := by
  have hne : ∀ c ∈ node.data, c.type ≠ t := by simpa [chain?] using hc
  refine ⟨?_, ?_, fun t' ht => ?_, [t], by rw [hdata]; rfl⟩
  · rw [hdata, List.map_cons, List.nodup_cons]
    refine ⟨fun hmem => ?_, htypes⟩
    obtain ⟨c, hc, heq⟩ := List.mem_map.mp hmem
    exact hne c hc heq
  · unfold headers
    rw [hdata, headersIn_of_ne hne]
    exact (headersIn_cons ..).trans (if_pos rfl)
  · unfold headers
    rw [hdata]
    exact (headersIn_cons ..).trans (if_neg ht)

theorem read_writer {serial : Nat} {t : TypePair} (h : ∀ a ∈ node.headers t, a.serial ≤ serial) :
    node.read serial t = ((node.headers t).find? (!·.ignore)).bind (·.rdataset) := by
  have hvisible : visible serial (node.headers t) = (node.headers t).find? (!·.ignore) := by
    generalize node.headers t = L at h
    induction L with
    | nil => rfl
    | cons a L ih =>
      rw [visible_cons, List.find?_cons, ih fun b hb => h b (.tail _ hb)]
      cases hi : a.ignore <;> simp [h a (.head _)]
  rw [Node.read, readHeader, hvisible]
  rcases hfirst : (node.headers t).find? (!·.ignore) with _ | a
  · rw [hfirst]
    rfl
  · rw [hfirst]
    rcases hrd : a.rdataset with _ | r <;> simp [Option.filter_some, hrd]

variable [DecidableEq N]

/-- What a call of the writer `w` at node `n` leaves: a record, perhaps a header of the re-signing list, and perhaps a new
    header. The record is dirty unless the type is new at the node. -/
structure Written (db db' : Db N S) (w : Version N) (n : N) (t : TypePair) (change : Change S) : Prop where
  intro ::
  outcome : ∃ (dirty : Bool) (resigned : List N) (node' : Node S) (address : Nat),
    (resigned = [] ∨ resigned = [n]) ∧
    db' = { db with
      nodes := Function.update db.nodes n node'
      futureVersion := some { w with
        changedList := w.changedList ++ [⟨n, dirty⟩]
        resignedList := w.resignedList ++ resigned }
      nextAddress := address } ∧
    node'.references = (db.nodes n).references + 1 + resigned.length ∧
    ((node'.data = (db.nodes n).data ∧ address = db.nextAddress ∧
        change ((db.nodes n).read w.serial t) = (db.nodes n).read w.serial t) ∨
      address = db.nextAddress + 1 ∧ (dirty = true ∨ (db.nodes n).headers t = []) ∧
        Pushed (db.nodes n) node' t ⟨db.nextAddress, w.serial, false, change ((db.nodes n).read w.serial t)⟩)

/-- The writer after `add_changed`. -/
def recorded (w : Version N) (n : N) : Version N := { w with changedList := w.changedList ++ [⟨n, false⟩] }

/-- The database after `add_changed`. -/
def afterChanged (db : Db N S) (w : Version N) (n : N) : Db N S :=
  { db.setNode n (newref (db.nodes n)) with futureVersion := some (recorded w n) }

variable {db : Db N S} {w : Version N} {n : N}

theorem addChanged_ok (hw : db.futureVersion = some w)
    (hrefs : (db.nodes n).references ≠ 0) : addChanged db n = .ok (recorded w n, afterChanged db w n) := by
  unfold addChanged
  rw [hw]
  exact if_neg hrefs

theorem afterChanged_chain? (db : Db N S) (w : Version N) (n : N) (t : TypePair) :
    ((afterChanged db w n).nodes n).chain? t = (db.nodes n).chain? t := by
  simp [afterChanged, setNode_self, newref, Node.chain?]

section
variable {db : Db N S} {w : Version N} {n : N} {t : TypePair}

theorem written_unchanged {change : Change S} (hsame : change ((db.nodes n).read w.serial t) = (db.nodes n).read w.serial t) :
    Written db (afterChanged db w n) w n t change :=
  ⟨false, [], newref (db.nodes n), db.nextAddress, .inl rfl,
    by simp [afterChanged, recorded, Db.setNode], rfl, .inl ⟨rfl, rfl, hsame⟩⟩

theorem written_link {change : Change S} {rdataset : Option (Rdataset S)}
    (hchange : change ((db.nodes n).read w.serial t) = rdataset) (htypes : ((db.nodes n).data.map (·.type)).Nodup)
    {c : Chain S} (hc : (db.nodes n).chain? t = some c) (hserial : c.top.serial ≤ w.serial) :
    ∃ db', linkHeader (afterChanged db w n) (recorded w n) n c rdataset = .ok db' ∧
      ∀ resign : Bool, Written db (if resign then resigndelete db' n else db') w n t change := by
  have hle : ¬ (recorded w n).serial < c.top.serial := Nat.not_lt.mpr hserial
  unfold linkHeader
  rw [if_neg hle, ← hchange]
  refine ⟨_, rfl, fun resign => ⟨true, if resign then [n] else [],
    ⟨(db.nodes n).references + 1 + (if resign then [n] else []).length, true, pushHeader c.type _ (db.nodes n).data⟩,
    db.nextAddress + 1, ?_, ?_, rfl, .inr ⟨rfl, .inl rfl, pushed_link htypes hc rfl⟩⟩⟩
  · cases resign
    · exact .inl rfl
    · exact .inr rfl
  · cases resign <;> simp [afterChanged, recorded, Db.setNode, newref, Version.markChanged, resigndelete]

end

theorem top_serial_le {t : TypePair} {serial : Nat} (h : ∀ a ∈ node.headers t, a.serial ≤ serial)
    {c : Chain S} (hc : node.chain? t = some c) : c.top.serial ≤ serial := by
  apply h
  rw [headers_of_some hc]
  exact .head _

section
variable (slabs : Slabs S) (hw : db.futureVersion = some w) (hrefs : (db.nodes n).references ≠ 0)
include slabs hw hrefs

theorem add_spec (htypes : ((db.nodes n).data.map (·.type)).Nodup) {t : TypePair}
    (hserial : ∀ a ∈ (db.nodes n).headers t, a.serial ≤ w.serial) (new : Option (Rdataset S)) (options : AddOptions)
    (resign : Bool) :
    ∃ result db', add slabs db n t new options resign = .ok (result, db') ∧
      Written db db' w n t (adding slabs t options new) := by
  have hread := read_writer hserial
  unfold add
  rw [addChanged_ok hw hrefs]
  simp only [bind, Except.bind]
  rw [afterChanged_chain?]
  rcases hc : (db.nodes n).chain? t with _ | c
  · -- no header of the type
    rw [headers_of_none hc] at hread
    rcases new with _ | rdataset
    · exact ⟨_, _, rfl, written_unchanged (by rw [hread]; rfl)⟩
    · have hchange : adding slabs t options (some rdataset) ((db.nodes n).read w.serial t) = some rdataset := by
        rw [hread]
        rfl
      refine ⟨_, _, rfl, false, [], ⟨(db.nodes n).references + 1, (db.nodes n).dirty,
        ⟨t, ⟨db.nextAddress, w.serial, false, some rdataset⟩, []⟩ :: (db.nodes n).data⟩, db.nextAddress + 1, .inl rfl, ?_, rfl,
        .inr ⟨rfl, .inr (headers_of_none hc), ?_⟩⟩
      · simp [afterChanged, recorded, Db.setNode, newref]
      · rw [hchange]
        exact pushed_new htypes hc rfl
  · have htop := top_serial_le hserial hc
    rw [headers_of_some hc] at hread
    dsimp only
    rcases hfirst : c.headers.find? (!·.ignore) with _ | header
    · -- all headers of the type are ignored
      rw [hfirst] at hread ⊢
      rcases new with _ | rdataset
      · exact ⟨_, _, rfl, written_unchanged (by rw [hread]; rfl)⟩
      · have hchange : adding slabs t options (some rdataset) ((db.nodes n).read w.serial t) = some rdataset := by
          rw [hread]
          rfl
        obtain ⟨db', hlink, hwritten⟩ := written_link hchange htypes hc htop
        rw [hlink]
        exact ⟨_, _, rfl, hwritten false⟩
    · rw [hfirst] at hread ⊢
      dsimp only
      have hold : (db.nodes n).read w.serial t = header.rdataset := hread
      split
      · next hboth =>
        rw [Bool.and_eq_true, Option.isNone_iff_eq_none, Option.isNone_iff_eq_none] at hboth
        refine ⟨_, _, rfl, written_unchanged ?_⟩
        rw [hold, hboth.1, hboth.2]
        rfl
      · rcases hmerge : mergeHeader slabs t options header.rdataset new with result | rdataset
        · refine ⟨_, _, rfl, written_unchanged ?_⟩
          rw [hold, adding, hmerge]
          rfl
        · have hchange : adding slabs t options new ((db.nodes n).read w.serial t) = rdataset := by
            rw [hold, adding, hmerge]
            rfl
          obtain ⟨db', hlink, hwritten⟩ := written_link hchange htypes hc htop
          dsimp only
          rw [hlink]
          exact ⟨_, _, rfl, hwritten resign⟩

theorem subtract_spec (htypes : ((db.nodes n).data.map (·.type)).Nodup) {t : TypePair}
    (hserial : ∀ a ∈ (db.nodes n).headers t, a.serial ≤ w.serial) (sub : Rdataset S) (exact resign : Bool) :
    ∃ result db', subtractrdataset slabs db n t sub exact resign = .ok (result, db') ∧
      Written db db' w n t (subtracting slabs t exact sub) := by
  have hread := read_writer hserial
  unfold subtractrdataset
  rw [addChanged_ok hw hrefs]
  simp only [bind, Except.bind]
  rw [afterChanged_chain?]
  rcases hc : (db.nodes n).chain? t with _ | c
  · rw [headers_of_none hc] at hread
    exact ⟨_, _, rfl, written_unchanged (by rw [hread]; rfl)⟩
  · have htop := top_serial_le hserial hc
    rw [headers_of_some hc] at hread
    dsimp only
    rw [← hread]
    rcases hold : (db.nodes n).read w.serial t with _ | old
    · exact ⟨_, _, rfl, written_unchanged (by rw [hold]; rfl)⟩
    · dsimp only
      rcases hsub : subtractHeader slabs t exact old sub with result | rdataset
      · refine ⟨_, _, rfl, written_unchanged ?_⟩
        rw [hold, subtracting, hsub]
        rfl
      · have hchange : subtracting slabs t exact sub ((db.nodes n).read w.serial t) = rdataset := by
          rw [hold, subtracting, hsub]
          rfl
        obtain ⟨db', hlink, hwritten⟩ := written_link hchange htypes hc htop
        dsimp only
        rw [hlink]
        exact ⟨_, _, rfl, hwritten resign⟩

end

end OqsBind.Dns.Rbtdb
