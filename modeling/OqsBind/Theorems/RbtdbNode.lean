import Mathlib.Data.List.Nodup
import Mathlib.Order.Nat
import OqsBind.Dns.Rbtdb

/-! One node of a zone database: what the versions read at it, and what adding a header, rolling a version back and
    cleaning leave of that. Cleaning goes by the least serial alone; it is right when every header that lies on another
    one is not newer than the least open version. -/

namespace OqsBind.Dns.Rbtdb
open List

variable {N S : Type}

/-! ### Stacks of headers -/

section
variable {L : List (Header S)}

/-- The headers that are not ignored. -/
def live (L : List (Header S)) : List (Header S) := L.filter (!·.ignore)

variable {h : Header S}

theorem mem_live : h ∈ live L ↔ h ∈ L ∧ h.ignore = false := by
  simp [live]

/-- The header whose rdataset a version reads. -/
def readHeader (serial : Nat) (L : List (Header S)) : Option (Header S) :=
  (visible serial L).filter (·.rdataset.isSome)

theorem visible_cons (serial : Nat) (h : Header S) (L : List (Header S)) :
    visible serial (h :: L) = if h.serial ≤ serial ∧ h.ignore = false then some h else visible serial L := by
  unfold visible
  rw [find?_cons]
  by_cases hs : h.serial ≤ serial <;> cases hi : h.ignore <;> simp [hs]

theorem readHeader_congr {serial : Nat} {L' : List (Header S)} (h : visible serial L' = visible serial L) :
    readHeader serial L' = readHeader serial L := by
  unfold readHeader
  rw [h]

theorem readHeader_mem {serial : Nat} (hr : readHeader serial L = some h) : h ∈ L := by
  unfold readHeader at hr
  rw [Option.filter_eq_some_iff] at hr
  exact mem_of_find?_eq_some hr.1

/-- In a stack each header is at least as new as those below it, and the headers of one version are ignored together. -/
structure Stack (L : List (Header S)) : Prop where
  newer : L.Pairwise fun a b => b.serial ≤ a.serial ∧ b.address < a.address
  uniform : ∀ a ∈ L, ∀ b ∈ L, a.serial = b.serial → a.ignore = b.ignore

theorem Stack.tail (hs : Stack (h :: L)) : Stack L :=
  ⟨(pairwise_cons.mp hs.newer).2, fun a ha b hb => hs.uniform a (.tail _ ha) b (.tail _ hb)⟩

theorem Stack.sublist {L' : List (Header S)} (hs : Stack L) (h : L'.Sublist L) : Stack L' :=
  ⟨hs.newer.sublist h, fun a ha b hb => hs.uniform a (h.subset ha) b (h.subset hb)⟩

theorem Stack.push (hs : Stack L) (hnew : h.ignore = false) (hserial : ∀ a ∈ L, a.serial ≤ h.serial)
    (haddress : ∀ a ∈ L, a.address < h.address) (hlive : ∀ a ∈ L, a.serial = h.serial → a.ignore = false) :
    Stack (h :: L) := by
  refine ⟨pairwise_cons.mpr ⟨fun a ha => ⟨hserial a ha, haddress a ha⟩, hs.newer⟩, ?_⟩
  intro a ha b hb hab
  rcases mem_cons.mp ha with rfl | ha' <;> rcases mem_cons.mp hb with rfl | hb'
  · rfl
  · rw [hnew, hlive b hb' hab.symm]
  · rw [hnew, hlive a ha' hab]
  · exact hs.uniform a ha' b hb' hab

/-- `P` holds of every header, not ignored, that lies on another one. -/
def Backed (P : Nat → Prop) (L : List (Header S)) : Prop := ∀ a b, [a, b].Sublist (live L) → P a.serial

theorem Backed.mono {P Q : Nat → Prop} (h : Backed P L) (hPQ : ∀ s, P s → Q s) : Backed Q L :=
  fun a b hab => hPQ _ (h a b hab)

/-- What cleaning relies on. -/
def Settled (leastSerial : Nat) (L : List (Header S)) : Prop := Backed (· ≤ leastSerial) L

end

/-! ### Cleaning a chain -/

/-- What is left below `dparent` when duplicates have gone. -/
structure Deduplicated (dparent : Header S) (down rest : List (Header S)) : Prop where
  sublist : rest.Sublist down
  live : ∀ h ∈ rest, h.ignore = false
  strict : (dparent :: rest).Pairwise fun a b => b.serial < a.serial
  visible : ∀ serial, visible serial (dparent :: rest) = visible serial (dparent :: down)

theorem visible_skip {dparent dcurrent : Header S} {down : List (Header S)} (hs : Stack (dparent :: dcurrent :: down))
    (h : dcurrent.serial = dparent.serial ∨ dcurrent.ignore = true) (serial : Nat) :
    visible serial (dparent :: dcurrent :: down) = visible serial (dparent :: down) := by
  have hsame : dcurrent.serial = dparent.serial → dcurrent.ignore = dparent.ignore :=
    hs.uniform _ (.tail _ (.head _)) _ (.head _)
  rw [visible_cons, visible_cons, visible_cons]
  by_cases hparent : dparent.serial ≤ serial ∧ dparent.ignore = false
  · rw [if_pos hparent, if_pos hparent]
  · rw [if_neg hparent, if_neg hparent, if_neg]
    rintro ⟨hle, hlive⟩
    rcases h with heq | hignored
    · exact hparent ⟨heq ▸ hle, by rw [← hsame heq, hlive]⟩
    · rw [hignored] at hlive
      cases hlive

theorem dropDuplicates_spec : ∀ {down : List (Header S)} {dparent : Header S}, Stack (dparent :: down) →
    ∃ rest, dropDuplicates dparent down = .ok rest ∧ Deduplicated dparent down rest
  | [], dparent, hs => ⟨[], rfl, .slnil, fun h hh => (nomatch hh), pairwise_singleton _ _, fun _ => rfl⟩
  | dcurrent :: down, dparent, hs => by
    have hle := ((pairwise_cons.mp hs.newer).1 dcurrent (.head _)).1
    rw [dropDuplicates, if_neg (Nat.not_lt.mpr hle)]
    by_cases hdrop : dcurrent.serial = dparent.serial ∨ dcurrent.ignore = true
    · rw [if_pos hdrop]
      have hsub : (dparent :: down).Sublist (dparent :: dcurrent :: down) := (sublist_cons_self _ _).cons_cons _
      obtain ⟨rest, hrun, hd⟩ := dropDuplicates_spec (hs.sublist hsub)
      exact ⟨rest, hrun, hd.sublist.cons _, hd.live, hd.strict,
        fun serial => (hd.visible serial).trans (visible_skip hs hdrop serial).symm⟩
    · rw [if_neg hdrop]
      obtain ⟨hne, hlive⟩ := not_or.mp hdrop
      obtain ⟨rest, hrun, hd⟩ := dropDuplicates_spec hs.tail
      refine ⟨dcurrent :: rest, by rw [hrun]; rfl, hd.sublist.cons_cons _, ?_, ?_, fun serial => ?_⟩
      · intro h hh
        rcases mem_cons.mp hh with rfl | hh
        · exact Bool.eq_false_iff.mpr hlive
        · exact hd.live h hh
      · have hlt : dcurrent.serial < dparent.serial := Nat.lt_of_le_of_ne hle hne
        refine pairwise_cons.mpr ⟨fun h hh => ?_, hd.strict⟩
        rcases mem_cons.mp hh with rfl | hh
        · exact hlt
        · exact ((pairwise_cons.mp hd.strict).1 h hh).trans hlt
      · rw [visible_cons, hd.visible serial, ← visible_cons]

/-- What cleaning leaves of the headers of a type: all that open versions read. -/
structure Tidy (leastSerial : Nat) (L L' : List (Header S)) : Prop where
  sublist : L'.Sublist L
  reads : ∀ serial, leastSerial ≤ serial → readHeader serial L' = readHeader serial L

/-- What is left of a chain. -/
structure Cleaned (leastSerial : Nat) (c : Chain S) (r : Option (Chain S)) : Prop where
  type : ∀ c', r = some c' → c'.type = c.type
  tidy : Tidy leastSerial c.headers ((r.map Chain.headers).getD [])

variable {leastSerial : Nat} {c : Chain S}

/-- A header that is not ignored with others below it is not newer than the least serial, so that those go. -/
theorem cleanRest {top : Header S} {down : List (Header S)}
    (hsettled : Settled leastSerial c.headers) (hsub : (top :: down).Sublist c.headers)
    (hlive : ∀ h ∈ top :: down, h.ignore = false) (hstrict : (top :: down).Pairwise fun a b => b.serial < a.serial)
    (hvisible : ∀ serial, visible serial (top :: down) = visible serial c.headers) :
    ∃ r, (do
      let down ← dropOld leastSerial down
      if down.isEmpty && top.rdataset.isNone then Except.ok none
      else Except.ok (some ({ c with top := top, down := down } : Chain S)) : Except Fault (Option (Chain S))) = .ok r ∧
      Cleaned leastSerial c r := by
  have hall : live (top :: down) = top :: down := filter_eq_self.mpr fun a ha => by rw [hlive a ha]; rfl
  have hfilter : (live (top :: down)).Sublist (live c.headers) := hsub.filter _
  rw [hall] at hfilter
  have htop : ∀ h ∈ down, top.serial ≤ leastSerial := fun h hh =>
    hsettled top h (((singleton_sublist.mpr hh).cons_cons top).trans hfilter)
  have hbelow : ∀ h ∈ down, h.serial < leastSerial := fun h hh =>
    Nat.lt_of_lt_of_le ((pairwise_cons.mp hstrict).1 h hh) (htop h hh)
  have hold : dropOld leastSerial down = .ok [] := by
    unfold dropOld
    rcases down with _ | ⟨d, ds⟩
    · rfl
    · have hd := hbelow d (.head _)
      have hnone : ((d :: ds).dropWhile fun h => !(decide (h.serial < leastSerial))).any
          (fun h => decide (leastSerial < h.serial)) = false := by
        rw [any_eq_false]
        intro h hh
        have := hbelow h ((dropWhile_sublist _).subset hh)
        rw [decide_eq_true_eq]
        omega
      rw [hnone, takeWhile_cons_of_neg (by simp [hd])]
      rfl
  have hseen : ∀ serial, leastSerial ≤ serial → visible serial [top] = visible serial c.headers := by
    intro serial hserial
    rw [← hvisible serial, visible_cons, visible_cons]
    by_cases hle : top.serial ≤ serial ∧ top.ignore = false
    · rw [if_pos hle, if_pos hle]
    · -- the top is newer than the version, so it is newer than the least one and nothing is below it
      have hnil : down = [] := by
        by_contra hne
        obtain ⟨h, hh⟩ := exists_mem_of_ne_nil down hne
        exact hle ⟨(htop h hh).trans hserial, hlive top (.head _)⟩
      rw [hnil]
  rw [hold]
  rcases hrd : top.rdataset with _ | rdataset
  · refine ⟨none, rfl, fun c' h => (nomatch h), nil_sublist _, fun serial hserial => ?_⟩
    rw [← readHeader_congr (hseen serial hserial)]
    unfold readHeader
    rw [visible_cons]
    split
    · rw [Option.filter_some, hrd]
      rfl
    · rfl
  · refine ⟨_, rfl, ?_, singleton_sublist.mpr (hsub.subset (.head _)),
      fun serial hserial => readHeader_congr (hseen serial hserial)⟩
    rintro _ ⟨⟩
    rfl

theorem cleanChain_spec (hs : Stack c.headers)
    (hsettled : Settled leastSerial c.headers) : ∃ r, cleanChain leastSerial c = .ok r ∧ Cleaned leastSerial c r := by
  obtain ⟨rest, hrun, hd⟩ : ∃ rest, dropDuplicates c.top c.down = .ok rest ∧ Deduplicated c.top c.down rest :=
    dropDuplicates_spec hs
  have hsub : (c.top :: rest).Sublist c.headers := hd.sublist.cons_cons _
  unfold cleanChain
  rw [hrun]
  rcases hignore : c.top.ignore with _ | _
  · -- the top stays
    obtain ⟨r, hr, hc⟩ := cleanRest hsettled hsub (fun h hh => by
      rcases mem_cons.mp hh with rfl | hh
      · exact hignore
      · exact hd.live h hh) hd.strict hd.visible
    exact ⟨r, by simpa [hignore, bind, Except.bind] using hr, hc⟩
  · have hskip : ∀ serial, visible serial rest = visible serial c.headers := by
      intro serial
      have hv := hd.visible serial
      rwa [visible_cons, if_neg (by rw [hignore]; simp)] at hv
    rcases rest with _ | ⟨top, down⟩
    · refine ⟨none, by simp [bind, Except.bind], fun c' h => (nomatch h), nil_sublist _, ?_⟩
      exact fun serial _ => readHeader_congr (hskip serial)
    · -- the header below is pulled up
      obtain ⟨r, hr, hc⟩ := cleanRest hsettled ((sublist_cons_self _ _).trans hsub) hd.live
        (pairwise_cons.mp hd.strict).2 hskip
      exact ⟨r, by simpa [hignore, bind, Except.bind] using hr, hc⟩

/-! ### Nodes -/

/-- The headers of a type in a list of chains. -/
def headersIn (data : List (Chain S)) (t : TypePair) : List (Header S) :=
  ((data.find? (·.type = t)).map Chain.headers).getD []

theorem headersIn_cons (c : Chain S) (data : List (Chain S)) (t : TypePair) :
    headersIn (c :: data) t = if c.type = t then c.headers else headersIn data t := by
  split_ifs with h <;> simp [headersIn, h]

variable {data : List (Chain S)}

theorem headersIn_of_ne {t : TypePair} (h : ∀ c ∈ data, c.type ≠ t) : headersIn data t = [] := by
  unfold headersIn
  rw [find?_eq_none.mpr fun c hc => by simpa using h c hc]
  rfl

namespace Node
variable {node : Node S} {t : TypePair}

/-- All headers of a type, the newest first. -/
def headers (node : Node S) (t : TypePair) : List (Header S) := headersIn node.data t

/-- What a version reads. -/
def read (node : Node S) (serial : Nat) (t : TypePair) : Option (Rdataset S) :=
  (readHeader serial (node.headers t)).bind (·.rdataset)

theorem headers_of_none (h : node.chain? t = none) : node.headers t = [] := by
  rw [headers, headersIn, ← chain?, h]
  rfl

theorem headers_of_some {c : Chain S} (h : node.chain? t = some c) : node.headers t = c.headers := by
  rw [headers, headersIn, ← chain?, h]
  rfl

theorem chain?_mem {c : Chain S} (h : node.chain? t = some c) : c ∈ node.data ∧ c.type = t :=
  ⟨mem_of_find?_eq_some h, by simpa using find?_some h⟩

end Node

/-- What holds of a node at all times. Headers have addresses below `nextAddress` and serials up to `last`; those of the
    writer, if there is one, are not ignored. -/
structure Shape (nextAddress last : Nat) (writing : Prop) (node : Node S) : Prop where
  types : (node.data.map (·.type)).Nodup
  stack : ∀ t, Stack (node.headers t)
  address_lt : ∀ t, ∀ h ∈ node.headers t, h.address < nextAddress
  serial_le : ∀ t, ∀ h ∈ node.headers t, h.serial ≤ last
  writer_live : writing → ∀ t, ∀ h ∈ node.headers t, h.serial = last → h.ignore = false

theorem find?_type_unique (htypes : (data.map (·.type)).Nodup) (hc : c ∈ data) : data.find? (·.type = c.type) = some c := by
  induction data with
  | nil => cases hc
  | cons d ds ih =>
    rw [map_cons, nodup_cons] at htypes
    rcases mem_cons.mp hc with rfl | hc
    · simp
    · have hne : d.type ≠ c.type := fun h => htypes.1 (h ▸ mem_map_of_mem hc)
      simpa [hne] using ih htypes.2 hc

variable {node : Node S}

theorem Node.headers_chain (htypes : (node.data.map (·.type)).Nodup) (hc : c ∈ node.data) :
    node.headers c.type = c.headers :=
  Node.headers_of_some (find?_type_unique htypes hc)

/-! ### `zone_findrdataset` -/

theorem Chain.active_eq (c : Chain S) (serial : Nat) : c.active serial = (readHeader serial c.headers).bind (·.rdataset) := by
  unfold Chain.active readHeader
  rcases visible serial c.headers with _ | h
  · rfl
  · rcases hrd : h.rdataset with _ | r <;> simp [Option.filter_some, hrd]

/-- What is active for a type in a list of chains. -/
def activeIn (serial : Nat) (data : List (Chain S)) (t : TypePair) : Option (Rdataset S) :=
  (data.find? (·.type = t)).bind (·.active serial)

theorem activeIn_cons_self (serial : Nat) (c : Chain S) (data : List (Chain S)) :
    activeIn serial (c :: data) c.type = c.active serial := by
  simp [activeIn]

theorem activeIn_cons_ne (serial : Nat) (data : List (Chain S)) {t : TypePair} (h : c.type ≠ t) :
    activeIn serial (c :: data) t = activeIn serial data t := by
  simp [activeIn, h]

theorem activeIn_of_ne (serial : Nat) {t : TypePair} (h : ∀ c ∈ data, c.type ≠ t) : activeIn serial data t = none := by
  unfold activeIn
  rw [find?_eq_none.mpr fun c hc => by simpa using h c hc]
  rfl

theorem bind_activeIn_cons_ne (serial : Nat) (data : List (Chain S)) : ∀ {t : Option TypePair}, some c.type ≠ t →
    t.bind (activeIn serial (c :: data)) = t.bind (activeIn serial data)
  | none, _ => rfl
  | some _, h => activeIn_cons_ne serial data fun heq => h (congrArg some heq)

theorem activeIn_cons_inactive (serial : Nat) (hne : ∀ d ∈ data, d.type ≠ c.type)
    (h : c.active serial = none) (t : TypePair) : activeIn serial (c :: data) t = activeIn serial data t := by
  by_cases ht : c.type = t
  · subst ht
    rw [activeIn_cons_self, h, activeIn_of_ne serial hne]
  · exact activeIn_cons_ne serial data ht

/-- The loop collects what is active for the type and, as far as it is wanted, for its signatures. -/
theorem findLoop_eq {serial : Nat} {matchtype : TypePair} {sigmatchtype : Option TypePair}
    (hsm : sigmatchtype ≠ some matchtype) : ∀ {data : List (Chain S)}, (data.map (·.type)).Nodup →
    ∀ {found foundsig : Option (Rdataset S)}, (found = none ∨ ∀ c ∈ data, c.type ≠ matchtype) →
      (foundsig = none ∨ ∀ c ∈ data, some c.type ≠ sigmatchtype) →
      findLoop serial matchtype sigmatchtype data found foundsig =
        (found.or (activeIn serial data matchtype), foundsig.or (sigmatchtype.bind (activeIn serial data)))
  | [], _, found, foundsig, _, _ => by
    rw [findLoop]
    rcases sigmatchtype with _ | s <;> simp [activeIn]
  | c :: data, hnodup, found, foundsig, hfound, hsig => by
    rw [map_cons, nodup_cons] at hnodup
    have hother : ∀ d ∈ data, d.type ≠ c.type := fun d hd heq => hnodup.1 (heq ▸ mem_map_of_mem hd)
    have hfound' : found = none ∨ ∀ d ∈ data, d.type ≠ matchtype := hfound.imp_right fun h d hd => h d (.tail _ hd)
    have hsig' : foundsig = none ∨ ∀ d ∈ data, some d.type ≠ sigmatchtype := hsig.imp_right fun h d hd => h d (.tail _ hd)
    rw [findLoop]
    rcases hactive : c.active serial with _ | rdataset
    · have hskip := activeIn_cons_inactive serial hother hactive
      simp [findLoop_eq hsm hnodup.2 hfound' hsig', funext hskip]
    · dsimp only
      by_cases hm : c.type = matchtype
      · subst hm
        have hnone : found = none := hfound.resolve_right fun h => h c (.head _) rfl
        rw [hnone, activeIn_cons_self, hactive, bind_activeIn_cons_ne serial data hsm.symm]
        rcases foundsig with _ | sig
        · simp [findLoop_eq hsm hnodup.2 (.inr hother) (.inl rfl)]
        · simp
      · rw [if_neg hm, activeIn_cons_ne serial data hm]
        by_cases hs : some c.type = sigmatchtype
        · subst hs
          have hnone : foundsig = none := hsig.resolve_right fun h => h c (.head _) rfl
          rw [hnone, Option.bind_some, activeIn_cons_self, hactive]
          rcases found with _ | r
          · simp [findLoop_eq hsm hnodup.2 (.inl rfl) (.inr fun d hd heq => hother d hd (Option.some.inj heq))]
          · simp
        · rw [if_neg hs, findLoop_eq hsm hnodup.2 hfound' hsig', bind_activeIn_cons_ne serial data hs]

theorem activeIn_eq_read (node : Node S) (serial : Nat) (t : TypePair) : activeIn serial node.data t = node.read serial t := by
  unfold activeIn Node.read
  rcases hc : node.chain? t with _ | c
  · rw [Node.headers_of_none hc, show node.data.find? (·.type = t) = none from hc]
    rfl
  · rw [Node.headers_of_some hc, show node.data.find? (·.type = t) = some c from hc]
    exact c.active_eq serial

theorem rrsig_ne : TYPE_RRSIG ≠ 0 := by decide

/-- The signatures that belong to a type. -/
def signatures (t : TypePair) : Option TypePair := if t.covers = 0 then some ⟨TYPE_RRSIG, t.type, rrsig_ne⟩ else none

theorem findrdataset_eq [DecidableEq N] {db : Db N S} {n : N} (htypes : ((db.nodes n).data.map (·.type)).Nodup)
    (serial : Nat) (t : TypePair) :
    findrdataset db n serial t =
      match (db.nodes n).read serial t with
      | some found => .ok (found, (signatures t).bind ((db.nodes n).read serial))
      | none => .error .notfound := by
  have hsm : signatures t ≠ some t := by
    unfold signatures
    split
    · next hcovers =>
      intro h
      have hself := congrArg TypePair.covers (Option.some.inj h)
      exact t.type_ne (hself.trans hcovers)
    · exact (Option.some_ne_none t).symm
  have hloop : findLoop serial t (signatures t) (db.nodes n).data none none = _ := findLoop_eq hsm htypes (.inl rfl) (.inl rfl)
  rw [show activeIn serial (db.nodes n).data = (db.nodes n).read serial from
    funext (activeIn_eq_read _ serial)] at hloop
  dsimp only [findrdataset]
  rw [← signatures, hloop]
  rcases (db.nodes n).read serial t with _ | found <;> rfl

/-! ### Cleaning a node -/

theorem cleanChains_spec : ∀ {data : List (Chain S)}, (data.map (·.type)).Nodup →
    (∀ c ∈ data, Stack c.headers) → (∀ c ∈ data, Settled leastSerial c.headers) →
    ∃ data', cleanChains leastSerial data = .ok data' ∧ (data'.map (·.type)).Sublist (data.map (·.type)) ∧
      ∀ t, Tidy leastSerial (headersIn data t) (headersIn data' t)
  | [], _, _, _ => ⟨[], rfl, .slnil, fun t => ⟨.slnil, fun _ _ => rfl⟩⟩
  | c :: data, hnodup, hstack, hsettled => by
    rw [map_cons, nodup_cons] at hnodup
    obtain ⟨r, hr, hclean⟩ := cleanChain_spec (hstack c (.head _)) (hsettled c (.head _))
    obtain ⟨data', hrun, hsub, htidy⟩ := cleanChains_spec hnodup.2 (fun d hd => hstack d (.tail _ hd))
      (fun d hd => hsettled d (.tail _ hd))
    have hother : ∀ d ∈ data', d.type ≠ c.type := fun d hd heq =>
      hnodup.1 (heq ▸ hsub.subset (mem_map_of_mem hd))
    refine ⟨r.toList ++ data', ?_, ?_, fun t => ?_⟩
    · rw [cleanChains, hr, hrun]
      rfl
    · rcases r with _ | c'
      · exact hsub.cons _
      · rw [Option.toList_some, singleton_append, map_cons, hclean.type c' rfl]
        exact hsub.cons_cons _
    · rw [headersIn_cons]
      split_ifs with ht <;> rcases r with _ | c'
      · simpa [headersIn_of_ne (ht ▸ hother)] using hclean.tidy
      · simpa [headersIn_cons, hclean.type c' rfl, ht] using hclean.tidy
      · exact htidy t
      · simpa [headersIn_cons, hclean.type c' rfl, ht] using htidy t

/-- `node'` is what is left of `node`, all that open versions read included. -/
structure Tidied (leastSerial : Nat) (node node' : Node S) : Prop where
  types : (node'.data.map (·.type)).Sublist (node.data.map (·.type))
  headers : ∀ t, (node'.headers t).Sublist (node.headers t)
  reads : ∀ serial, leastSerial ≤ serial → ∀ t, readHeader serial (node'.headers t) = readHeader serial (node.headers t)

theorem Backed.sublist {P : Nat → Prop} {L L' : List (Header S)} (h : Backed P L) (hsub : L'.Sublist L) : Backed P L' :=
  fun a b hab => h a b (hab.trans (hsub.filter _))

section
variable (hleast : leastSerial ≠ 0) (htypes : (node.data.map (·.type)).Nodup) (hstack : ∀ t, Stack (node.headers t))
include hleast htypes hstack

theorem cleanZoneNode_spec
    (hsettled : ∀ t, Settled leastSerial (node.headers t)) :
    ∃ node', cleanZoneNode node leastSerial = .ok node' ∧ node'.references = node.references ∧
      Tidied leastSerial node node' := by
  obtain ⟨data', hrun, hsub, htidy⟩ := cleanChains_spec htypes
    (fun c hc => Node.headers_chain htypes hc ▸ hstack c.type) (fun c hc => Node.headers_chain htypes hc ▸ hsettled c.type)
  unfold cleanZoneNode
  rw [if_neg hleast, hrun]
  exact ⟨_, rfl, rfl, hsub, fun t => (htidy t).sublist, fun serial hserial t => (htidy t).reads serial hserial⟩

theorem decref_spec {refs : Nat} (hrefs : node.references = refs + 1)
    (hsettled : refs = 0 → ∀ t, Settled leastSerial (node.headers t)) :
    ∃ node', decref node leastSerial = .ok node' ∧ node'.references = refs ∧ Tidied leastSerial node node' := by
  unfold decref
  rw [hrefs, Nat.add_sub_cancel]
  by_cases hclean : refs = 0 ∧ node.dirty = true
  · rw [if_pos hclean]
    obtain ⟨node', hrun, hr, htidy⟩ : ∃ node', cleanZoneNode { node with references := refs } leastSerial = .ok node' ∧
        node'.references = refs ∧ Tidied leastSerial { node with references := refs } node' :=
      cleanZoneNode_spec hleast htypes hstack (hsettled hclean.1)
    exact ⟨node', hrun, hr, htidy.types, htidy.headers, htidy.reads⟩
  · rw [if_neg hclean]
    exact ⟨_, rfl, rfl, .refl _, fun _ => .refl _, fun _ _ _ => rfl⟩

end

/-! ### Rolling back -/

/-- What `rollback_node` does to a header. -/
def mark (serial : Nat) (h : Header S) : Header S := if h.serial = serial then { h with ignore := true } else h

section
variable {r : Nat} {L : List (Header S)}

@[simp] theorem mark_serial (r : Nat) (h : Header S) : (mark r h).serial = h.serial := by unfold mark; split <;> rfl

@[simp] theorem mark_address (r : Nat) (h : Header S) : (mark r h).address = h.address := by unfold mark; split <;> rfl

theorem mark_of_ne {h : Header S} (hne : h.serial ≠ r) : mark r h = h := if_neg hne

theorem mark_ignore (r : Nat) (h : Header S) : (mark r h).ignore = (h.ignore || decide (h.serial = r)) := by
  unfold mark
  by_cases heq : h.serial = r <;> simp [heq]

theorem Stack.mark (hs : Stack L) (r : Nat) : Stack (L.map (mark r)) := by
  refine ⟨pairwise_map.mpr (hs.newer.imp fun h => by simpa using h), ?_⟩
  simp only [mem_map]
  rintro _ ⟨a, ha, rfl⟩ _ ⟨b, hb, rfl⟩ hab
  rw [mark_serial, mark_serial] at hab
  rw [mark_ignore, mark_ignore, hs.uniform a ha b hb hab, hab]

theorem live_mark (r : Nat) (L : List (Header S)) : live (L.map (mark r)) = (live L).filter (·.serial ≠ r) := by
  induction L with
  | nil => rfl
  | cons h L ih =>
    unfold live at ih ⊢
    rw [map_cons, filter_cons, filter_cons, mark_ignore, ih]
    by_cases hr : h.serial = r
    · cases hi : h.ignore <;> simp [hr]
    · cases hi : h.ignore <;> simp [hr, mark_of_ne hr]

theorem readHeader_mark {serial : Nat} (hlt : serial < r) (L : List (Header S)) :
    readHeader serial (L.map (mark r)) = readHeader serial L := by
  apply readHeader_congr
  induction L with
  | nil => rfl
  | cons h L ih =>
    rw [map_cons, visible_cons, visible_cons, ih]
    by_cases hr : h.serial = r
    · rw [if_neg (fun hseen => by rw [mark_serial] at hseen; omega), if_neg (fun hseen => by omega)]
    · rw [mark_of_ne hr]

theorem Backed.mark {P : Nat → Prop} (h : Backed P L) (r : Nat) : Backed P (L.map (mark r)) := by
  intro a b hab
  rw [live_mark] at hab
  exact h a b (hab.trans filter_sublist)

end

theorem rollbackNode_headers (node : Node S) (r : Nat) (t : TypePair) :
    (rollbackNode node r).headers t = (node.headers t).map (mark r) := by
  show headersIn (node.data.map fun c => { c with top := mark r c.top, down := c.down.map (mark r) }) t =
    (headersIn node.data t).map (mark r)
  induction node.data with
  | nil => rfl
  | cons c data ih =>
    rw [map_cons, headersIn_cons, headersIn_cons, ih]
    split_ifs <;> rfl

/-! ### Adding headers -/

theorem pushHeader_types (t : TypePair) (h : Header S) (data : List (Chain S)) :
    (pushHeader t h data).map (·.type) = data.map (·.type) := by
  induction data with
  | nil => rfl
  | cons c data ih =>
    rw [pushHeader]
    split
    · rfl
    · simp [ih]

theorem pushHeader_self {t : TypePair} (h : Header S) : ∀ {data : List (Chain S)}, (∃ c ∈ data, c.type = t) →
    headersIn (pushHeader t h data) t = h :: headersIn data t
  | [], hex => by
    obtain ⟨c, hc, -⟩ := hex
    cases hc
  | c :: data, hex => by
    rw [pushHeader]
    by_cases ht : c.type = t
    · simp [ht, headersIn_cons, Chain.headers]
    · rw [if_neg ht, headersIn_cons, headersIn_cons, if_neg ht, if_neg ht]
      obtain ⟨d, hd, hdt⟩ := hex
      rcases mem_cons.mp hd with rfl | hd
      · exact absurd hdt ht
      · exact pushHeader_self h ⟨d, hd, hdt⟩

theorem pushHeader_ne {t t' : TypePair} (h : Header S) (hne : t ≠ t') (data : List (Chain S)) :
    headersIn (pushHeader t h data) t' = headersIn data t' := by
  induction data with
  | nil => rfl
  | cons c data ih =>
    rw [pushHeader]
    by_cases ht : c.type = t
    · simp [ht, headersIn_cons, hne]
    · simp [ht, headersIn_cons, ih]

section
variable {h : Header S}

theorem Backed.push {P : Nat → Prop} {L : List (Header S)} (hb : Backed P L) (hP : P h.serial) : Backed P (h :: L) := by
  intro a b hab
  unfold live at hab
  rw [filter_cons] at hab
  split at hab
  · rcases sublist_cons_iff.mp hab with hab | ⟨l, heq, hab⟩
    · exact hb a b hab
    · cases heq
      exact hP
  · exact hb a b hab

theorem readHeader_push {serial : Nat} (hlt : serial < h.serial) (L : List (Header S)) :
    readHeader serial (h :: L) = readHeader serial L := by
  apply readHeader_congr
  rw [visible_cons, if_neg (fun hseen => by omega)]

theorem readHeader_push_self (hnew : h.ignore = false) (L : List (Header S)) :
    (readHeader h.serial (h :: L)).bind (·.rdataset) = h.rdataset := by
  unfold readHeader
  rw [visible_cons, if_pos ⟨le_rfl, hnew⟩, Option.filter_some]
  rcases hrd : h.rdataset with _ | r
  · rfl
  · exact hrd

end

/-! ### What stays true of a node -/

namespace Shape
variable {nextAddress last : Nat} {writing : Prop} {node node' : Node S} (h : Shape nextAddress last writing node)
include h

theorem tidied {leastSerial : Nat} (ht : Tidied leastSerial node node') : Shape nextAddress last writing node' where
  types := h.types.sublist ht.types
  stack t := (h.stack t).sublist (ht.headers t)
  address_lt t a ha := h.address_lt t a ((ht.headers t).subset ha)
  serial_le t a ha := h.serial_le t a ((ht.headers t).subset ha)
  writer_live hw t a ha := h.writer_live hw t a ((ht.headers t).subset ha)

theorem of_data (hd : node'.data = node.data) : Shape nextAddress last writing node' := by
  have hh : node'.headers = node.headers := by unfold Node.headers; rw [hd]
  exact ⟨hd ▸ h.types, hh ▸ h.stack, hh ▸ h.address_lt, hh ▸ h.serial_le, hh ▸ h.writer_live⟩

theorem weaken {nextAddress' last' : Nat} {writing' : Prop}
    (ha : nextAddress ≤ nextAddress') (hl : last ≤ last') (hw : writing' → last < last' ∨ writing) :
    Shape nextAddress' last' writing' node where
  types := h.types
  stack := h.stack
  address_lt t a hm := (h.address_lt t a hm).trans_le ha
  serial_le t a hm := (h.serial_le t a hm).trans hl
  writer_live hw' t a hm heq := by
    have hle := h.serial_le t a hm
    rcases hw hw' with hlt | hw
    · omega
    · exact h.writer_live hw t a hm (by omega)

theorem rollback (r : Nat) : Shape nextAddress last False (rollbackNode node r) where
  types := by simpa [rollbackNode, Function.comp_def] using h.types
  stack t := by
    rw [rollbackNode_headers]
    exact (h.stack t).mark r
  address_lt t a ha := by
    rw [rollbackNode_headers] at ha
    obtain ⟨b, hb, rfl⟩ := mem_map.mp ha
    rw [mark_address]
    exact h.address_lt t b hb
  serial_le t a ha := by
    rw [rollbackNode_headers] at ha
    obtain ⟨b, hb, rfl⟩ := mem_map.mp ha
    rw [mark_serial]
    exact h.serial_le t b hb
  writer_live hw := hw.elim

theorem push (hw : writing) {t : TypePair} {new : Header S}
    (haddress : new.address = nextAddress) (hserial : new.serial = last) (hignore : new.ignore = false)
    (htypes : (node'.data.map (·.type)).Nodup) (hself : node'.headers t = new :: node.headers t)
    (hother : ∀ t', t ≠ t' → node'.headers t' = node.headers t') : Shape (nextAddress + 1) last writing node' := by
  have hmem : ∀ {P : Header S → Prop}, P new → (∀ t', ∀ a ∈ node.headers t', P a) →
      ∀ t', ∀ a ∈ node'.headers t', P a := by
    intro P hnew hold t' a ha
    by_cases ht : t = t'
    · subst ht
      rw [hself] at ha
      rcases mem_cons.mp ha with rfl | ha
      · exact hnew
      · exact hold t a ha
    · exact hold t' a (hother t' ht ▸ ha)
  refine ⟨htypes, fun t' => ?_, hmem (by omega) fun t' a ha => (h.address_lt t' a ha).trans (Nat.lt_succ_self _),
    hmem hserial.le h.serial_le, fun _ => hmem (fun _ => hignore) (h.writer_live hw)⟩
  by_cases ht : t = t'
  · subst ht
    rw [hself]
    exact (h.stack t).push hignore (fun a ha => hserial ▸ h.serial_le t a ha)
      (fun a ha => haddress ▸ h.address_lt t a ha) (fun a ha heq => h.writer_live hw t a ha (heq.trans hserial))
  · rw [hother t' ht]
    exact h.stack t'

end Shape

end OqsBind.Dns.Rbtdb
