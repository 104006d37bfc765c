import OqsBind.Dns.RbtdbIter
import OqsBind.Theorems.Rbtdb

/-! An iterator returns each rdataset that its version has at a node once, whatever is written there meanwhile. New types
    come before all others in the list of the node, so the types that the iterator has yet to come to stay the same. -/

namespace OqsBind.Dns.Rbtdb
open List

variable {N S : Type}

/-- The rdatasets of some types, in their order. -/
def rdatasetsOf (f : TypePair → Option (Rdataset S)) (ts : List TypePair) : List (TypePair × Rdataset S) :=
  ts.filterMap fun t => (f t).map (t, ·)

/-! ### One call -/

/-- The types after the one that the iterator is at. -/
def Ahead (types : List TypePair) (current : Cursor S) (ts : List TypePair) : Prop :=
  match current with
  | none => ts = []
  | some (t, _) => ∃ done, types = done ++ t :: ts

theorem Ahead.grow {types ts : List TypePair} {current : Cursor S} (h : Ahead types current ts)
    (new : List TypePair) : Ahead (new ++ types) current ts := by
  rcases current with _ | ⟨t, header⟩
  · exact h
  · obtain ⟨done, rfl⟩ := h
    exact ⟨new ++ done, (append_assoc ..).symm⟩

/-- The iterator has come to the first rdataset of the types `ts`, and others may follow. -/
def Advanced (f : TypePair → Option (Rdataset S)) (types ts : List TypePair) (current : Cursor S) : Prop :=
  ∃ ts', Ahead types current ts' ∧ (rdatasetiterCurrent current = none → ts' = []) ∧
    rdatasetsOf f ts = (rdatasetiterCurrent current).toList ++ rdatasetsOf f ts'

section
variable {serial : Nat} {f : TypePair → Option (Rdataset S)}

theorem Advanced.results {types ts : List TypePair} {current : Cursor S} (h : Advanced f types ts current)
    {results : List (Option (TypePair × Rdataset S))} (hrest : ∀ ts', Ahead types current ts' →
      results = (range results.length).map fun k => (rdatasetsOf f ts')[k]?) :
    rdatasetiterCurrent current :: results = (range (results.length + 1)).map fun k => (rdatasetsOf f ts)[k]? := by
  obtain ⟨ts', hahead, hlast, hsplit⟩ := h
  rw [range_succ_eq_map, map_cons, map_map, hsplit]
  rcases hcurrent : rdatasetiterCurrent current with _ | found
  · obtain rfl := hlast hcurrent
    exact congrArg (none :: ·) (hrest [] hahead)
  · exact congrArg (some found :: ·) (hrest ts' hahead)

theorem iterLoop_spec {skip : Option TypePair} {cs : List (Chain S)} (hskip : ∀ c ∈ cs, some c.type ≠ skip)
    (hf : ∀ c ∈ cs, c.active serial = f c.type) : Advanced f (cs.map (·.type)) (cs.map (·.type))
      (iterLoop serial skip (cs.map fun c => (c.type, c.headers))) := by
  induction cs with
  | nil => exact ⟨[], rfl, fun _ => rfl, rfl⟩
  | cons c cs ih =>
    have hactive := hf c mem_cons_self
    rw [Chain.active_eq] at hactive
    rw [map_cons, map_cons, iterLoop, if_neg (hskip c mem_cons_self), ← readHeader]
    rcases hread : readHeader serial c.headers with _ | header
    · obtain ⟨ts', hahead, hlast, hsplit⟩ := ih (fun d hd => hskip d (.tail _ hd)) fun d hd => hf d (.tail _ hd)
      rw [hread] at hactive
      refine ⟨ts', hahead.grow [c.type], hlast, ?_⟩
      rw [← hsplit, rdatasetsOf, filterMap_cons_none (by rw [← hactive]; rfl)]
      rfl
    · obtain ⟨rdataset, hrdataset⟩ : ∃ rdataset, header.rdataset = some rdataset :=
        Option.isSome_iff_exists.mp (Option.filter_eq_some_iff.mp hread).2
      rw [hread, Option.bind_some, hrdataset] at hactive
      have hcurrent : rdatasetiterCurrent (some (c.type, header)) = some (c.type, rdataset) := by
        simp [rdatasetiterCurrent, hrdataset]
      refine ⟨cs.map (·.type), ⟨[], rfl⟩, ?_, ?_⟩
      · rw [hcurrent]
        exact fun h => by cases h
      · rw [hcurrent, rdatasetsOf, filterMap_cons_some (by rw [← hactive]; rfl)]
        rfl

theorem iterLoop_skip {t : TypePair} {above rest : List (TypePair × List (Header S))} (h : ∀ x ∈ above, x.1 = t) :
    iterLoop serial (some t) (above ++ rest) = iterLoop serial (some t) rest := by
  induction above with
  | nil => rfl
  | cons x above ih =>
    rw [cons_append, iterLoop, if_pos (congrArg some (h x mem_cons_self)), ih fun y hy => h y (.tail _ hy)]

variable {node : Node S} (htypes : node.types.Nodup) (hf : ∀ c ∈ node.data, c.active serial = f c.type)
include hf

theorem first_spec : Advanced f node.types node.types (rdatasetiterFirst node serial) :=
  iterLoop_spec (fun _ _ => nofun) hf

include htypes

theorem next_spec {ts : List TypePair} {current : Cursor S} (h : Ahead node.types current ts) :
    Advanced f node.types ts (rdatasetiterNext node serial current) := by
  rcases current with _ | ⟨t, header⟩
  · obtain rfl : ts = [] := h
    exact ⟨[], rfl, fun _ => rfl, rfl⟩
  · obtain ⟨done, hdone⟩ := h
    obtain ⟨before, after, hdata, hbefore, hafter⟩ := map_eq_append_iff.mp hdone
    obtain ⟨c, cs, rfl, rfl, rfl⟩ := map_eq_cons_iff.mp hafter
    rw [hdone, nodup_append, nodup_cons] at htypes
    have hdrop : node.data.dropWhile (·.type ≠ c.type) = c :: cs := by
      rw [hdata, dropWhile_append_of_pos fun d hd => ?_, dropWhile_cons_of_neg (by simp)]
      simpa using htypes.2.2 d.type (hbefore ▸ mem_map_of_mem hd) c.type mem_cons_self
    have hskip : ∀ d ∈ cs, some d.type ≠ some c.type := fun d hd heq =>
      htypes.2.1.1 (Option.some.inj heq ▸ mem_map_of_mem hd)
    obtain ⟨ts', hahead, hrest⟩ := iterLoop_spec hskip fun d hd => hf d (by simp [hdata, hd])
    rw [rdatasetiterNext, nexts, hdrop]
    rw [iterLoop_skip fun x hx => ?_]
    · refine ⟨ts', ?_, hrest⟩
      rw [hdone, append_cons]
      exact hahead.grow _
    · obtain ⟨i, -, rfl⟩ := mem_map.mp hx
      rfl

end

variable [DecidableEq N]

/-! ### Runs -/

theorem write_committed {a : Snapshots N S} {serial : Nat} (h : a.writer ≠ some serial) (n : N) (t : TypePair)
    (change : Change S) : (a.write n t change).contents serial = a.contents serial ∧
      (a.write n t change).writer ≠ some serial := by
  unfold Snapshots.write
  split
  · exact ⟨rfl, h⟩
  · next w hw => exact ⟨Function.update_of_ne (fun heq : serial = w => h (heq ▸ hw)) .., h⟩

section
variable {slabs : Slabs S} {origin : N} {s s' : State N S} {a : Snapshots N S}

theorem Inv.step_committed (h : Inv s a) {serial : Nat} (hopen : serial ∈ s.handles) (hcommitted : a.writer ≠ some serial)
    (op : Op N S) : (a.step slabs origin op).contents serial = a.contents serial ∧
      (a.step slabs origin op).writer ≠ some serial := by
  cases op with
  | newversion =>
    obtain ⟨v, hv, rfl⟩ := h.versions.opened serial hopen
    have hne : v.serial ≠ a.last + 1 := (Nat.lt_succ_of_le (h.versions.serial_le hv)).ne
    exact ⟨Function.update_of_ne hne .., fun heq => hne (Option.some.inj heq).symm⟩
  | addrdataset n t rdataset options _ =>
    unfold Snapshots.step
    dsimp only
    split
    · exact ⟨rfl, hcommitted⟩
    · exact write_committed hcommitted ..
  | subtractrdataset n t rdataset exact _ => exact write_committed hcommitted ..
  | deleterdataset n t =>
    unfold Snapshots.step
    dsimp only
    split_ifs
    · exact ⟨rfl, hcommitted⟩
    · exact ⟨rfl, hcommitted⟩
    · exact write_committed hcommitted ..
  | closeversion serial' _ =>
    refine ⟨rfl, ?_⟩
    show ite _ _ _ ≠ _
    split
    · exact nofun
    · exact hcommitted
  | _ => exact ⟨rfl, hcommitted⟩

theorem Inv.runs {P : State N S → Prop} (h : Inv s a) (hruns : Runs slabs origin P s s') : ∃ a', Inv s' a' := by
  induction hruns generalizing a with
  | refl => exact ⟨a, h⟩
  | step hop hstep _ _ ih =>
    obtain ⟨s', hrun, hinv, -⟩ := h.stepped slabs origin hop
    cases hrun.symm.trans hstep
    exact ih hinv

/-- What an iterator relies on at a moment: its version is open and not the writer, and has the rdatasets `f`. -/
structure Iterating (s : State N S) (n : N) (serial : Nat) (f : TypePair → Option (Rdataset S)) : Prop where
  intro ::
  outcome : ∃ a, Inv s a ∧ serial ∈ s.handles ∧ a.writer ≠ some serial ∧ a.contents serial n = f

variable {n : N} {serial : Nat} {f : TypePair → Option (Rdataset S)}

theorem Iterating.runs (h : Iterating s n serial f)
    (hruns : Runs slabs origin (fun s => serial ∈ s.handles ∧ s.held n ≠ 0) s s') : Iterating s' n serial f ∧
      ∃ new, (s'.db.nodes n).types = new ++ (s.db.nodes n).types := by
  induction hruns with
  | refl => exact ⟨h, [], rfl⟩
  | step hop hstep hkept _ ih =>
    obtain ⟨a, hinv, hopen, hcommitted, hf⟩ := h.outcome
    obtain ⟨s', hrun, hinv', -, hgrows⟩ := hinv.stepped slabs origin hop
    cases hrun.symm.trans hstep
    obtain ⟨hcontents, hwriter⟩ := hinv.step_committed hopen hcommitted _
    obtain ⟨hlater, new', hnew'⟩ := ih ⟨_, hinv', hkept.1, hwriter, hcontents ▸ hf⟩
    have hrefs := (hinv'.nodes n).references
    obtain ⟨new, hnew⟩ := hgrows n (by omega)
    exact ⟨hlater, new' ++ new, by rw [hnew', hnew, append_assoc]⟩

theorem Iterating.node (h : Iterating s n serial f) : (s.db.nodes n).types.Nodup ∧
    ∀ c ∈ (s.db.nodes n).data, c.active serial = f c.type := by
  obtain ⟨a, hinv, hopen, -, rfl⟩ := h.outcome
  obtain ⟨v, hv, rfl⟩ := hinv.versions.opened serial hopen
  have htypes := (hinv.nodes n).shape.types
  refine ⟨htypes, fun c hc => ?_⟩
  rw [Chain.active_eq, ← hinv.reads v hv, Node.read, Node.headers_chain htypes hc]

theorem Iterating.results (h : Iterating s n serial f) {current : Cursor S}
    {results : List (Option (TypePair × Rdataset S))} (hrun : Iteration slabs origin n serial s current results)
    {ts : List TypePair} (hahead : Ahead (s.db.nodes n).types current ts) :
    results = (range results.length).map fun k => (rdatasetsOf f ts)[k]? := by
  induction hrun generalizing ts with
  | stop => rfl
  | next hruns _ ih =>
    obtain ⟨h', new, hnew⟩ := h.runs hruns
    obtain ⟨htypes, hf⟩ := h'.node
    exact (next_spec htypes hf (hnew ▸ hahead.grow new)).results fun ts' hahead' => ih h' hahead'

end

theorem map_fst_rdatasetsOf (f : TypePair → Option (Rdataset S)) (ts : List TypePair) :
    (rdatasetsOf f ts).map (·.1) = ts.filter fun t => (f t).isSome := by
  induction ts with
  | nil => rfl
  | cons t ts ih => rcases hf : f t with _ | r <;> simpa [rdatasetsOf, hf] using ih

/-- The calls of an iterator on an open version that is not the writer return the rdatasets that the version has at the
    node, each once, and then nothing more, whatever calls come in between. -/
theorem iteration_complete {slabs : Slabs S} {origin n : N} {zone : N → List (TypePair × Rdataset S)}
    (hzone : ∀ n, ((zone n).map (·.1)).Nodup) {s : State N S} (hreached : Runs slabs origin (fun _ => True) (loaded zone) s)
    {serial : Nat} (hopen : serial ∈ s.handles) (hcommitted : ∀ w, s.db.futureVersion = some w → w.serial ≠ serial)
    {results : List (Option (TypePair × Rdataset S))}
    (hrun : Iteration slabs origin n serial s (rdatasetiterFirst (s.db.nodes n) serial) results) :
    ∃ found : List (TypePair × Rdataset S), (found.map (·.1)).Nodup ∧
      (∀ t rdataset, (t, rdataset) ∈ found ↔ ∃ sigs, findrdataset s.db n serial t = .ok (rdataset, sigs)) ∧
      rdatasetiterCurrent (rdatasetiterFirst (s.db.nodes n) serial) :: results =
        (range (results.length + 1)).map fun k => found[k]? := by
  obtain ⟨a, hinv⟩ := (loaded_inv hzone).runs hreached
  have hwriter : a.writer ≠ some serial := by
    rw [← hinv.writer]
    intro heq
    obtain ⟨w, hw, hs⟩ := Option.map_eq_some_iff.mp heq
    exact hcommitted w hw hs
  have h : Iterating s n serial (a.contents serial n) := ⟨a, hinv, hopen, hwriter, rfl⟩
  obtain ⟨htypes, hf⟩ := h.node
  refine ⟨rdatasetsOf (a.contents serial n) (s.db.nodes n).types, ?_, fun t rdataset => ?_, ?_⟩
  · rw [map_fst_rdatasetsOf]
    exact htypes.filter _
  · rw [hinv.agrees.found serial (.inr (hinv.handles ▸ hopen)), Snapshots.find]
    constructor
    · intro hmem
      obtain ⟨t', -, heq⟩ := mem_filterMap.mp hmem
      obtain ⟨r, hr, heq⟩ := Option.map_eq_some_iff.mp heq
      cases heq
      rw [hr]
      exact ⟨_, rfl⟩
    · rintro ⟨sigs, hfind⟩
      rcases hcontents : a.contents serial n t with _ | r
      · rw [hcontents] at hfind
        cases hfind
      · rw [hcontents] at hfind
        cases hfind
        refine mem_filterMap.mpr ⟨t, ?_, by rw [hcontents]; rfl⟩
        by_contra hnot
        obtain ⟨v, hv, rfl⟩ := hinv.versions.opened serial hopen
        have hnone := activeIn_of_ne v.serial fun c hc (heq : c.type = t) => hnot (heq ▸ mem_map_of_mem hc)
        rw [activeIn_eq_read, hinv.reads v hv, hcontents] at hnone
        cases hnone
  · exact (first_spec hf).results fun ts' hahead => h.results hrun hahead

/-- Between the first call and the second one, a writer is opened and adds an rdataset. -/
theorem iteration_complete_added : ∃ (s : State Unit Nat) (found : List (TypePair × Rdataset Nat)), s.handles = [1] ∧
    (found.map (·.1)).Nodup ∧
    (∀ t rdataset, (t, rdataset) ∈ found ↔ ∃ sigs, findrdataset s.db () 1 t = .ok (rdataset, sigs)) ∧
    [some (⟨1, 0, by decide⟩, ⟨300, 10⟩), none] = (range 2).map fun k => found[k]? := by
  let slabs : Slabs Nat := ⟨fun _ _ _ _ new => .ok new, fun _ _ old _ => .ok old⟩
  let zone : Unit → List (TypePair × Rdataset Nat) := fun _ => [(⟨1, 0, by decide⟩, ⟨300, 10⟩)]
  have hreached : Runs slabs () (fun _ => True) (loaded zone) _ :=
    .step (by exact trivial) (rfl : step slabs () _ .currentversion = .ok _) trivial
      (.step (by exact trivial) (rfl : step slabs () _ (.attachnode ()) = .ok _) trivial (.refl _))
  have hzone : ∀ n, ((zone n).map (·.1)).Nodup := fun _ => nodup_singleton _
  obtain ⟨found, hfound⟩ := iteration_complete (n := ()) hzone hreached (.head _) nofun (.next
    (.step (by exact ⟨rfl, by decide⟩) (rfl : step slabs () _ .newversion = .ok _) ⟨.tail _ (.head _), Nat.one_ne_zero⟩
      (.step (by exact ⟨Nat.one_ne_zero, nofun⟩)
        (rfl : step slabs () _ (.addrdataset () ⟨2, 0, by decide⟩ ⟨300, 20⟩ ⟨false, false, false⟩ false) = .ok _)
        ⟨.tail _ (.head _), by decide⟩ (.refl _))) (.stop _ _))
  exact ⟨_, found, rfl, hfound⟩

end OqsBind.Dns.Rbtdb
