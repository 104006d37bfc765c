import Mathlib.Algebra.BigOperators.Pi
import Mathlib.Algebra.BigOperators.Ring.Finset
import Mathlib.Algebra.Order.BigOperators.Group.Finset
import OqsBind.Dns.RbtdbSize
import OqsBind.Theorems.Rbtdb

/-! The totals of a version against what it contains. The records are counted exactly. The size of a transfer has the name,
    the TTL, the type and the class once for each rdataset, not for each of its RRs. -/

namespace OqsBind.Dns.Rbtdb
open Function Finset

variable {N S : Type} (stored : Stored S)

/-! ### One write -/

variable (slabs : Slabs S)

theorem firstHeader_eq (node : Node S) (t : TypePair) :
    (node.chain? t).bind (·.headers.find? (!·.ignore)) = (node.headers t).find? (!·.ignore) := by
  rcases hc : node.chain? t with _ | c
  · rw [Node.headers_of_none hc]
    rfl
  · rw [Node.headers_of_some hc]
    rfl

section
variable {node : Node S} {serial : Nat} {t : TypePair} (h : ∀ b ∈ node.headers t, b.serial ≤ serial) (namelen : Nat)
  (version : Sizes)
include h

theorem addSizes_eq (new : Option (Rdataset S)) (options : AddOptions) :
    addSizes stored slabs node t new options namelen version = version - headerSizes stored namelen (node.read serial t) +
      headerSizes stored namelen (adding slabs t options new (node.read serial t)) := by
  unfold addSizes
  rw [firstHeader_eq, read_writer h]
  rcases hfirst : (node.headers t).find? (!·.ignore) with _ | header
  · rw [hfirst]
    show version + _ = version - 0 + _
    rw [sub_zero]
    rfl
  · rw [hfirst]
    show ite _ _ _ = version - headerSizes stored namelen header.rdataset +
      headerSizes stored namelen (adding slabs t options new header.rdataset)
    split
    · next hboth =>
      rw [Bool.and_eq_true, Option.isNone_iff_eq_none, Option.isNone_iff_eq_none] at hboth
      rw [hboth.1, hboth.2]
      exact (sub_add_cancel ..).symm
    · unfold adding
      rcases mergeHeader slabs t options header.rdataset new with result | rdataset
      · exact (sub_add_cancel ..).symm
      · rfl

theorem subtractSizes_eq (sub : Rdataset S) (exact : Bool) :
    subtractSizes stored slabs node t sub exact namelen version =
      version - headerSizes stored namelen (node.read serial t) +
        headerSizes stored namelen (subtracting slabs t exact sub (node.read serial t)) := by
  unfold subtractSizes
  rw [firstHeader_eq, ← read_writer h]
  rcases node.read serial t with _ | old
  · exact (sub_add_cancel ..).symm
  · unfold subtracting
    dsimp only
    rcases subtractHeader slabs t exact old sub with result | remaining
    · exact (sub_add_cancel ..).symm
    · exact add_sub_right_comm ..

end

/-! ### Totals of contents -/

variable (namelen : N → Nat)

/-- The totals are the sum over a finite set of places outside of which there is nothing. -/
def Counted (c : Contents N S) (version : Sizes) : Prop :=
  ∃ U : Finset (N × TypePair), (∀ n t, c n t ≠ none → (n, t) ∈ U) ∧
    version = ∑ p ∈ U, headerSizes stored (namelen p.1) (c p.1 p.2)

variable [DecidableEq N]

def Contents.set (c : Contents N S) (n : N) (t : TypePair) (new : Option (Rdataset S)) : Contents N S :=
  Function.update c n (Function.update (c n) t new)

theorem Contents.set_of_ne (c : Contents N S) {n m : N} {t t' : TypePair} (new : Option (Rdataset S))
    (hne : (m, t') ≠ (n, t)) : c.set n t new m t' = c m t' := by
  by_cases hm : m = n
  · subst hm
    have ht : t' ≠ t := fun ht => hne (ht ▸ rfl)
    rw [Contents.set, update_self, update_of_ne ht]
  · rw [Contents.set, update_of_ne hm]

theorem Counted.set {c : Contents N S} {version : Sizes} (h : Counted stored namelen c version) (n : N) (t : TypePair)
    (new : Option (Rdataset S)) : Counted stored namelen (c.set n t new)
      (version - headerSizes stored (namelen n) (c n t) + headerSizes stored (namelen n) new) := by
  obtain ⟨U, hU, rfl⟩ := h
  refine ⟨insert (n, t) U, fun m t' hne => ?_, ?_⟩
  · by_cases hp : (m, t') = (n, t)
    · exact hp ▸ mem_insert_self ..
    · rw [c.set_of_ne new hp] at hne
      exact mem_insert_of_mem (hU m t' hne)
  · have hself : c.set n t new n t = new := by simp [Contents.set]
    have hwider : ∑ p ∈ insert (n, t) U, headerSizes stored (namelen p.1) (c p.1 p.2) =
        ∑ p ∈ U, headerSizes stored (namelen p.1) (c p.1 p.2) := by
      refine sum_insert_of_eq_zero_if_notMem fun hnot => ?_
      rw [not_not.mp fun hne => hnot (hU n t hne)]
      rfl
    have hrest : ∑ p ∈ (insert (n, t) U).erase (n, t), headerSizes stored (namelen p.1) (c.set n t new p.1 p.2) =
        ∑ p ∈ (insert (n, t) U).erase (n, t), headerSizes stored (namelen p.1) (c p.1 p.2) := by
      refine sum_congr rfl fun p hp => ?_
      rw [c.set_of_ne new (mem_erase.mp hp).1]
    rw [← hwider, ← add_sum_erase _ _ (mem_insert_self (n, t) U), add_sub_cancel_left, add_comm,
      ← add_sum_erase _ (fun p => headerSizes stored (namelen p.1) (c.set n t new p.1 p.2)) (mem_insert_self (n, t) U), hrest]
    rw [hself]

/-! ### Loading -/

def Load.contents (load : Load N S) : Contents N S := fun n t => ((load.zone n).find? (·.1 = t)).map (·.2)

/-- A zone that is being loaded has one rdataset of each type, and the totals of these. -/
structure Load.Sound (load : Load N S) : Prop where
  types : ∀ n, ((load.zone n).map (·.1)).Nodup
  counted : Counted stored namelen load.contents load.sizes

omit [DecidableEq N] in
theorem contents_replaced (L : List (TypePair × Rdataset S)) {t : TypePair} {old : TypePair × Rdataset S}
    (hfound : L.find? (·.1 = t) = some old) (merged : Rdataset S) :
    (fun t' => ((L.map fun e => if e.1 = t then (t, merged) else e).find? (·.1 = t')).map (·.2)) =
      Function.update (fun t' => (L.find? (·.1 = t')).map (·.2)) t (some merged) := by
  funext t'
  have hkey : ((fun e => decide (e.1 = t')) ∘ fun e : TypePair × Rdataset S => if e.1 = t then (t, merged) else e) =
      fun e => decide (e.1 = t') := by
    funext e
    by_cases he : e.1 = t <;> simp [he]
  rw [List.find?_map, hkey]
  by_cases ht : t' = t
  · subst ht
    have hold : old.1 = t' := by simpa using List.find?_some hfound
    simp [hfound, hold]
  · rw [update_of_ne ht]
    rcases hother : L.find? (·.1 = t') with _ | e
    · rw [hother]
      rfl
    · have he : e.1 = t' := by simpa using List.find?_some hother
      rw [hother]
      simp [he, ht]

variable {slabs} {origin : N} {stored} {namelen}

section
variable {load : Load N S} (h : load.Sound stored namelen) {n : N} {t : TypePair}
include h

theorem Load.Sound.set {L : List (TypePair × Rdataset S)} {new : Option (Rdataset S)} (htypes : (L.map (·.1)).Nodup)
    (hnew : (fun t' => (L.find? (·.1 = t')).map (·.2)) = Function.update (load.contents n) t new) :
    Load.Sound stored namelen
      ⟨Function.update load.zone n L, load.sizes - headerSizes stored (namelen n) (load.contents n t) +
        headerSizes stored (namelen n) new⟩ := by
  refine ⟨fun m => ?_, ?_⟩
  · by_cases hm : m = n
    · subst hm
      simpa using htypes
    · simpa [hm] using h.types m
  · have hcontents : Load.contents ⟨Function.update load.zone n L,
        load.sizes - headerSizes stored (namelen n) (load.contents n t) +
        headerSizes stored (namelen n) new⟩ = load.contents.set n t new := by
      funext m t'
      by_cases hm : m = n
      · subst hm
        rw [Contents.set, ← hnew]
        simp [Load.contents]
      · rw [Contents.set]
        simp [Load.contents, hm]
    rw [hcontents]
    exact h.counted.set stored namelen n t new

theorem Load.Sound.add (rdataset : Rdataset S) :
    (loadingAddrdataset stored slabs origin namelen load n t rdataset).Sound stored namelen := by
  unfold loadingAddrdataset
  split
  · exact h
  rcases hfound : (load.zone n).find? (·.1 = t) with _ | ⟨t', header⟩
  · have hold : load.contents n t = none := by rw [Load.contents, hfound]; rfl
    have hfresh : t ∉ (load.zone n).map (·.1) := by
      intro hmem
      obtain ⟨e, he, rfl⟩ := List.mem_map.mp hmem
      simpa using List.find?_eq_none.mp hfound e he
    have hsizes : updateRecordsandxfrsize stored true load.sizes (some rdataset) (namelen n) =
        load.sizes - headerSizes stored (namelen n) (load.contents n t) + headerSizes stored (namelen n) (some rdataset) := by
      rw [hold]
      exact congrArg (· + _) (sub_zero _).symm
    rw [hfound]
    rw [hsizes]
    refine h.set (List.nodup_cons.mpr ⟨hfresh, h.types n⟩) ?_
    funext t'
    by_cases ht : t' = t
    · subst ht
      simp
    · simp [Load.contents, ht, Ne.symm ht]
  · have hold : load.contents n t = some header := by rw [Load.contents, hfound]; rfl
    rw [hfound]
    dsimp only
    split
    · next merged _ =>
      rw [← hold]
      refine h.set ?_ (contents_replaced (load.zone n) hfound merged)
      have hkeys : ((load.zone n).map fun e => if e.1 = t then (t, merged) else e).map (·.1) = (load.zone n).map (·.1) := by
        rw [List.map_map]
        refine List.map_congr_left fun e _ => ?_
        by_cases he : e.1 = t <;> simp [he]
      rw [hkeys]
      exact h.types n
    · exact h

end

theorem loadZone_sound (input : List (N × TypePair × Rdataset S)) :
    (loadZone stored slabs origin namelen input).Sound stored namelen := by
  unfold loadZone
  have hstart : (⟨fun _ => [], 0⟩ : Load N S).Sound stored namelen :=
    ⟨fun _ => List.nodup_nil, ∅, fun _ _ hne => absurd rfl hne, rfl⟩
  generalize (⟨fun _ => [], 0⟩ : Load N S) = load at hstart
  induction input generalizing load with
  | nil => exact hstart
  | cons e input ih => exact ih _ (hstart.add ..)

/-! ### Runs -/

/-- A zone that was loaded, after calls that were allowed. -/
inductive Sized.Reached (stored : Stored S) (slabs : Slabs S) (origin : N) (namelen : N → Nat) : Sized N S → Prop
  | loaded (input : List (N × TypePair × Rdataset S)) :
    Reached stored slabs origin namelen (.loaded (loadZone stored slabs origin namelen input))
  | step {z z' : Sized N S} {op : Op N S} : Reached stored slabs origin namelen z → Allowed z.state op →
    z.step stored slabs origin namelen op = .ok z' → Reached stored slabs origin namelen z'

section
variable {z : Sized N S} {a : Snapshots N S}

section
variable (h : Inv z.state a) (hc : ∀ serial, Counted stored namelen (a.contents serial) (z.sizes serial))
include h hc

theorem counted_write
    {n : N} (hheld : z.state.held n ≠ 0) (hwriting : z.state.db.futureVersion ≠ none) {t : TypePair} {change : Change S}
    {f : Sizes → Sizes} (hf : ∀ serial, (∀ b ∈ (z.state.db.nodes n).headers t, b.serial ≤ serial) → ∀ version, f version =
      version - headerSizes stored (namelen n) ((z.state.db.nodes n).read serial t) +
        headerSizes stored (namelen n) (change ((z.state.db.nodes n).read serial t)))
    (serial : Nat) : Counted stored namelen ((a.write n t change).contents serial) (z.count f serial) := by
  obtain ⟨w, hw, -, -, hserial⟩ := h.writable hheld hwriting
  have hwriter : a.writer = some w.serial := by
    rw [← h.writer, hw]
    rfl
  unfold Snapshots.write Sized.count
  rw [hw, hwriter]
  dsimp only
  by_cases hs : serial = w.serial
  · subst hs
    rw [update_self, update_self, hf w.serial (hserial t), h.reads w (Db.mem_versions.mpr (.inl hw))]
    exact (hc w.serial).set stored namelen n t _
  · rw [update_of_ne hs, update_of_ne hs]
    exact hc serial

theorem counted_step
    {op : Op N S} (hop : Allowed z.state op) (serial : Nat) :
    Counted stored namelen ((a.step slabs origin op).contents serial) (z.sizesAfter stored slabs origin namelen op serial) := by
  cases op with
  | newversion =>
    obtain ⟨-, hserial, -⟩ := newversion_ok h.versions hop.1 hop.2
    unfold Snapshots.step Sized.sizesAfter
    dsimp only
    rw [hserial, h.current]
    by_cases hs : serial = a.last + 1
    · subst hs
      rw [update_self, update_self]
      exact hc a.current
    · rw [update_of_ne hs, update_of_ne hs]
      exact hc serial
  | addrdataset n t rdataset options resign =>
    unfold Snapshots.step Sized.sizesAfter
    dsimp only
    split
    · exact hc serial
    · exact counted_write h hc hop.1 hop.2 (fun _ hs version => addSizes_eq stored slabs hs _ version _ _) serial
  | subtractrdataset n t rdataset exact resign =>
    exact counted_write h hc hop.1 hop.2 (fun _ hs version => subtractSizes_eq stored slabs hs _ version _ _) serial
  | deleterdataset n t =>
    unfold Snapshots.step Sized.sizesAfter
    dsimp only
    split
    · exact hc serial
    split
    · exact hc serial
    · rw [← adding_none slabs t ⟨false, false, false⟩]
      exact counted_write h hc hop.1 hop.2 (fun _ hs version => addSizes_eq stored slabs hs _ version _ _) serial
  | currentversion | attachversion | closeversion | attachnode | detachnode => exact hc serial

end

theorem Sized.Reached.counted (h : z.Reached stored slabs origin namelen) :
    ∃ a, Inv z.state a ∧ ∀ serial, Counted stored namelen (a.contents serial) (z.sizes serial) := by
  induction h with
  | loaded input =>
    have hsound : (loadZone stored slabs origin namelen input).Sound stored namelen := loadZone_sound input
    exact ⟨_, loaded_inv hsound.types, fun _ => hsound.counted⟩
  | step _ hop hstep ih =>
    obtain ⟨a, hinv, hc⟩ := ih
    obtain ⟨s', hrun, hinv', -⟩ := hinv.stepped slabs origin hop
    unfold Sized.step at hstep
    rw [hrun] at hstep
    cases hstep
    exact ⟨_, hinv', counted_step hinv hc hop⟩

end

/-! ### What is reported -/

/-- The RRs that a version has of a type at a node, given by the lengths of their rdata. -/
def rrs (stored : Stored S) (db : Db N S) (serial : Nat) (p : N × TypePair) : List Nat :=
  match findrdataset db p.1 serial p.2 with
  | .ok (found, _) => stored.lengths found.slab
  | .error _ => []

theorem sum_le_sum_map {L : List Nat} (h : L ≠ []) {k : Nat} (hk : 0 < k) :
    L.sum + k ≤ (L.map (k + ·)).sum ∧ (L.sum + k = (L.map (k + ·)).sum ↔ L.length ≤ 1) := by
  have hsum : (L.map (k + ·)).sum = L.length * k + L.sum := by
    rw [List.sum_map_add]
    simp
  obtain ⟨more, hmore⟩ := Nat.exists_eq_add_of_le' (List.length_pos_iff.mpr h)
  have hzero : more * k = 0 ↔ more = 0 := Nat.mul_eq_zero.trans (or_iff_left hk.ne')
  rw [hsum, hmore, Nat.add_mul]
  omega

/-- The records that are reported for a version are the number of its RRs, and the size of a transfer is the sum of their
    sizes exactly when no type has two at a node. -/
def Reports (stored : Stored S) (namelen : N → Nat) (z : Sized N S) (serial : Nat) : Prop :=
  ∃ U : Finset (N × TypePair),
    (∀ p, p ∈ U ↔ rrs stored z.state.db serial p ≠ []) ∧
    (getsize z (some serial)).1 = ∑ p ∈ U, (rrs stored z.state.db serial p).length ∧
    ((getsize z (some serial)).2 =
        ∑ p ∈ U, ((rrs stored z.state.db serial p).map (namelen p.1 + 4 + 2 + 2 + ·)).sum ↔
      ∀ p, (rrs stored z.state.db serial p).length ≤ 1)

theorem getsize_reports {z : Sized N S} (h : z.Reached stored slabs origin namelen) {v : Version N}
    (hv : v ∈ z.state.db.versions) : Reports stored namelen z v.serial := by
  obtain ⟨a, hinv, hcounted⟩ := h.counted
  obtain ⟨U, hU, hsum⟩ := hcounted v.serial
  -- what the RRs of one type at one node count for
  let size (p : N × TypePair) : Int × Int := ((rrs stored z.state.db v.serial p).length,
    ((rrs stored z.state.db v.serial p).sum + (namelen p.1 + 4 + 2 + 2) : Nat))
  have hsize : ∀ p, (a.contents v.serial p.1 p.2 = none → rrs stored z.state.db v.serial p = []) ∧
      headerSizes stored (namelen p.1) (a.contents v.serial p.1 p.2) =
        if rrs stored z.state.db v.serial p ≠ [] then size p else 0 := by
    intro p
    unfold size rrs
    rw [hinv.agrees.found _ ((hinv.agrees.opened _).mp ⟨v, hv, rfl⟩), Snapshots.find]
    rcases a.contents v.serial p.1 p.2 with _ | rdataset
    · exact ⟨fun _ => rfl, rfl⟩
    · refine ⟨nofun, ?_⟩
      simp only [headerSizes, recordsize, if_pos (stored.lengths_ne_nil _)]
      congr 2
      omega
  have hvisible : z.sizes v.serial = ∑ p ∈ U with rrs stored z.state.db v.serial p ≠ [], size p := by
    rw [hsum, sum_filter]
    exact sum_congr rfl fun p _ => (hsize p).2
  have hmem : ∀ p, p ∈ (U.filter fun p => rrs stored z.state.db v.serial p ≠ []) ↔ rrs stored z.state.db v.serial p ≠ [] := by
    intro p
    rw [mem_filter, and_iff_right_iff_imp]
    exact fun hp => hU p.1 p.2 fun hnone => hp ((hsize p).1 hnone)
  refine ⟨_, hmem, ?_, ?_⟩
  · show (z.sizes v.serial).1 = _
    rw [hvisible, Prod.fst_sum, Nat.cast_sum]
  · have hle := fun p (hp : p ∈ U.filter _) =>
      sum_le_sum_map ((hmem p).mp hp) (k := namelen p.1 + 4 + 2 + 2) (by omega)
    show (z.sizes v.serial).2 = _ ↔ _
    rw [hvisible, Prod.snd_sum, ← Nat.cast_sum, Nat.cast_inj, sum_eq_sum_iff_of_le fun p hp => (hle p hp).1]
    refine ⟨fun heq p => ?_, fun hone p hp => (hle p hp).2.mpr (hone p)⟩
    by_cases hnil : rrs stored z.state.db v.serial p = []
    · rw [hnil]
      exact Nat.zero_le 1
    · exact (hle p ((hmem p).mpr hnil)).2.mp (heq p ((hmem p).mpr hnil))

/-- A slab given by the lengths of its rdatas. -/
abbrev Lengths := { L : List Nat // L ≠ [] }

def ofLengths : Stored Lengths := ⟨(·.1), (·.2)⟩

/-- Merging takes the lengths of both, subtracting those that the second has not. -/
def byLength : Slabs Lengths where
  merge _ _ _ old new := .ok ⟨old.1 ++ new.1, List.append_ne_nil_of_left_ne_nil old.2 _⟩
  subtract _ _ old sub := if h : old.1.filter (· ∉ sub.1) = [] then .error .nxrrset else .ok ⟨_, h⟩

/-- A zone of one rdataset, at a name of one octet. -/
def loadedLengths (rdatas : Lengths) : Sized Unit Lengths :=
  .loaded (loadZone ofLengths byLength () (fun _ => 1) [((), ⟨1, 0, by decide⟩, ⟨300, rdatas⟩)])

/-- A writer adds an rdata of 16 octets to one of 4, and subtracts the latter. -/
def replacing : List (Op Unit Lengths) :=
  [.newversion, .attachnode (),
    .addrdataset () ⟨1, 0, by decide⟩ ⟨300, [16], by decide⟩ ⟨true, false, false⟩ false,
    .subtractrdataset () ⟨1, 0, by decide⟩ ⟨300, [4], by decide⟩ false false]

theorem getsize_reports_replacing :
    ∃ z, replacing.foldlM (Sized.step ofLengths byLength () fun _ => 1) (loadedLengths ⟨[4], by decide⟩) = .ok z ∧
      Reports ofLengths (fun _ => 1) z 2 ∧ getsize z (some 1) = (1, 13) ∧ getsize z (some 2) = (1, 25) := by
  refine ⟨_, rfl, ?_, by decide, by decide⟩
  have hloaded : (loadedLengths ⟨[4], by decide⟩).Reached ofLengths byLength () fun _ => 1 := .loaded _
  have hopened := hloaded.step (show Allowed _ .newversion from ⟨rfl, by decide⟩) rfl
  have hheld := hopened.step (show Allowed _ (.attachnode ()) from trivial) rfl
  have hadded := hheld.step (show Allowed _ replacing[2] from ⟨by decide, by decide⟩) rfl
  have hsubtracted := hadded.step (show Allowed _ replacing[3] from ⟨by decide, by decide⟩) rfl
  exact getsize_reports hsubtracted List.mem_cons_self

/-- Two addresses at one name: a transfer has 13 octets for each of them. -/
theorem xfrsize_counts_name_once :
    let z := loadedLengths ⟨[4, 4], by decide⟩
    z.Reached ofLengths byLength () (fun _ => 1) ∧
      (∀ p, rrs ofLengths z.state.db 1 p = if p.2 = ⟨1, 0, by decide⟩ then [4, 4] else []) ∧
      getsize z (some 1) = (2, 17) ∧ ([4, 4].map (1 + 4 + 2 + 2 + ·)).sum = 26 := by
  refine ⟨.loaded _, fun p => ?_, by decide, by decide⟩
  obtain ⟨n, t⟩ := p
  by_cases ht : t = ⟨1, 0, by decide⟩
  · subst ht
    rfl
  · simp [rrs, findrdataset, loadedLengths, Sized.loaded, loadZone, loadingAddrdataset, loaded, findLoop, Chain.active,
      visible, Chain.headers, TYPE_SOA, TYPE_RRSIG, ht, Ne.symm ht]

end OqsBind.Dns.Rbtdb
