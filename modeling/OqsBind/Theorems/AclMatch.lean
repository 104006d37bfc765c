import OqsBind.Theorems.AclTable

/-! Matching against access control lists is by the first entry that matches, in the order of insertion. The numbers of
    the nodes and elements carry that order; which entries have one, and when it is the position of the entry, is said
    by `Live` and `Build.numbered`. -/

namespace OqsBind.Dns.Access
open Isc Isc.Radix List Access

/-! ### Lists as they are built -/

/-- Elements that are neither addresses nor lists. -/
inductive Atom where
  | keyname (name : Name)
  | localhost
  | localnets

def Atom.type : Atom → ElementType
  | .keyname name => .keyname name
  | .localhost => .localhost
  | .localnets => .localnets

def Atom.test (env : Option AclEnv) (req : Request) : Atom → Bool
  | .keyname name => req.signer.any fun signer => signer.equal name
  | .localhost => env.any fun env => env.localhost.any fun inner => inner req > 0
  | .localnets => env.any fun env => env.localnets.any fun inner => inner req > 0

/-- How a list comes about. -/
inductive Build where
  | create
  | addPrefix (b : Build) (net : Net) (pos : Bool)
  | element (b : Build) (atom : Atom) (negative : Bool)
  | nested (b inner : Build) (negative : Bool)
  | merge (dest source : Build) (pos : Bool)

/-- The list that the code makes. -/
def Build.run : Build → Except Fault Acl
  | .create => .ok Access.create
  | .addPrefix b net pos => do Access.addPrefix (← b.run) net.addr net.bitlen pos
  | .element b atom negative => do return addElement (← b.run) atom.type negative
  | .nested b inner negative => do return addElement (← b.run) (.nestedacl (← inner.run)) negative
  | .merge dest source pos => do aclMerge (← dest.run) (← source.run) pos

/-! ### What they stand for -/

inductive Item where
  | net (n : Net)
  | other (test : Option AclEnv → Request → Bool)

/-- An entry of the list that is written out. -/
structure Entry where
  item : Item
  positive : Bool

def Entry.test (env : Option AclEnv) (req : Request) (e : Entry) : Bool :=
  match e.item with
  | .net n => n.contains (lookupAddr env req.addr)
  | .other test => test env req

/-- The position of the first entry that matches, counted from one, with its sign; zero if there is none. -/
def firstMatchFrom (env : Option AclEnv) (req : Request) (before : Nat) : List Entry → Int
  | [] => 0
  | e :: es => if e.test env req then signed e.positive (before + 1) else firstMatchFrom env req (before + 1) es

def firstMatch (env : Option AclEnv) (req : Request) (es : List Entry) : Int := firstMatchFrom env req 0 es

/-- An entry of a list that is merged: negative if the list is. -/
def Entry.merged (pos : Bool) (e : Entry) : Entry := { e with positive := e.positive && pos }

/-- The entries in the order of insertion. A list that is merged is written out at its place; one that is nested
    matches if its first match is positive. -/
def Build.entries : Build → List Entry
  | .create => []
  | .addPrefix b net pos => b.entries ++ [⟨.net net, pos⟩]
  | .element b atom negative => b.entries ++ [⟨.other fun env req => atom.test env req, !negative⟩]
  | .nested b inner negative =>
    b.entries ++ [⟨.other fun env req => 0 < firstMatch env req inner.entries, !negative⟩]
  | .merge dest source pos => dest.entries ++ source.entries.map (Entry.merged pos)

/-! ### When the code keeps to that -/

/-- The entry is for a string of bits in a family. -/
def Entry.covers (e : Entry) (k : List Bool) (i : Family) : Bool :=
  match e.item with
  | .net n => n.pfx.key = k ∧ Access.covers n.pfx i
  | .other _ => false

/-- The sign of the first entry for a string of bits. -/
def signAt (es : List Entry) (k : List Bool) (i : Family) : Option Bool :=
  (es.find? (·.covers k i)).map (·.positive)

/-- No positive entry is for a string of bits that the list to be negated has a positive entry for. -/
def keeps (dest source : List Entry) : Bool :=
  source.all fun e =>
    match e.item with
    | .net n => [Family.v4, .v6].all fun i =>
        !(signAt dest n.pfx.key i = some true ∧ signAt source n.pfx.key i = some true)
    | .other _ => true

/-- Whenever a list is merged to be negated, it has no positive prefix that the other list has too. -/
def Build.kept : Build → Bool
  | .create => true
  | .addPrefix b _ _ => b.kept
  | .element b _ _ => b.kept
  | .nested b inner _ => b.kept && inner.kept
  | .merge dest source pos => dest.kept && source.kept && (pos || keeps dest.entries source.entries)

/-- The item is not a prefix that there are entries for, in every family, already. -/
def fresh (before : List Entry) : Item → Bool
  | .net n => [Family.v4, .v6].any fun i => covers n.pfx i ∧ before.all fun e => !e.covers n.pfx.key i
  | .other _ => true

/-- No prefix is added that there is already, and no list is merged that ends in such a one. -/
def Build.numbered : Build → Bool
  | .create => true
  | .addPrefix b net _ => b.numbered && fresh b.entries (.net net)
  | .element b _ _ => b.numbered
  | .nested b _ _ => b.numbered
  | .merge dest source _ => dest.numbered && source.numbered &&
      source.entries.getLast?.all fun e => fresh source.entries.dropLast e.item

/-! ### Entries -/

variable {k : List Bool} {i : Family}

theorem Entry.covers_iff {e : Entry} : e.covers k i ↔ ∃ n, e.item = .net n ∧ n.pfx.key = k ∧ Access.covers n.pfx i := by
  unfold Entry.covers
  cases e.item with
  | net n => simp
  | other test => simp

@[simp] theorem Entry.item_merged (pos : Bool) (e : Entry) : (e.merged pos).item = e.item := rfl

theorem exists_family {p : Family → Prop} : (∃ i, p i) ↔ p .v4 ∨ p .v6 := by
  refine ⟨fun ⟨i, h⟩ => ?_, fun h => h.elim (⟨_, ·⟩) (⟨_, ·⟩)⟩
  cases i with
  | v4 => exact .inl h
  | v6 => exact .inr h

theorem fresh_net_iff {before : List Entry} {n : Net} :
    fresh before (.net n) ↔ ∃ i, covers n.pfx i ∧ ∀ e ∈ before, ¬e.covers n.pfx.key i := by
  simp [fresh, exists_family]

theorem fresh_mono {before before' : List Entry} {item : Item} (hsub : ∀ e ∈ before', ∃ e' ∈ before, e'.item = e.item)
    (h : fresh before item) : fresh before' item := by
  cases item with
  | other test => rfl
  | net n =>
    obtain ⟨i, hi, hnone⟩ := fresh_net_iff.mp h
    refine fresh_net_iff.mpr ⟨i, hi, fun e he hcovers => ?_⟩
    obtain ⟨e', he', hitem⟩ := hsub e he
    exact hnone e' he' (by rwa [Entry.covers, hitem])

/-- The entries that have a number: those that are not for what there is already. -/
def Live (es : List Entry) (j : Nat) : Prop := ∃ e, es[j]? = some e ∧ fresh (es.take j) e.item

variable {es : List Entry} {j : Nat}

theorem Live.lt (h : Live es j) : j < es.length := by
  obtain ⟨e, he, -⟩ := h
  exact (List.getElem?_eq_some_iff.mp he).1

/-- An entry that is not a prefix. -/
def IsOther (es : List Entry) (j : Nat) : Prop := ∃ e test, es[j]? = some e ∧ e.item = .other test

theorem live_other (h : IsOther es j) : Live es j := by
  obtain ⟨e, test, he, hitem⟩ := h
  exact ⟨e, he, by rw [hitem]; rfl⟩

theorem live_of_first {p : Entry → Bool} (h : es.findIdx? p = some j)
    (hfresh : ∀ e, p e → (∀ e' ∈ es.take j, ¬p e') → fresh (es.take j) e.item) : Live es j := by
  obtain ⟨hlt, hp, hbefore⟩ := findIdx?_eq_some_iff_getElem.mp h
  refine ⟨es[j], getElem?_eq_getElem hlt, hfresh _ hp fun e' he' => ?_⟩
  obtain ⟨m, hm, rfl⟩ := mem_take_iff_getElem.mp he'
  exact hbefore m (lt_of_lt_of_le hm (min_le_left ..))

theorem live_covers (h : es.findIdx? (·.covers k i) = some j) : Live es j := by
  refine live_of_first h fun e he hbefore => ?_
  obtain ⟨n, hitem, rfl, hi⟩ := Entry.covers_iff.mp he
  rw [hitem]
  exact fresh_net_iff.mpr ⟨i, hi, hbefore⟩

theorem live_iff :
    Live es j ↔ IsOther es j ∨ ∃ k i, es.findIdx? (·.covers k i) = some j := by
  constructor
  · rintro ⟨e, he, hfresh⟩
    cases hitem : e.item with
    | other test => exact .inl ⟨e, test, he, hitem⟩
    | net n =>
      rw [hitem] at hfresh
      obtain ⟨i, hi, hnone⟩ := fresh_net_iff.mp hfresh
      obtain ⟨hlt, hget⟩ := List.getElem?_eq_some_iff.mp he
      refine .inr ⟨n.pfx.key, i, findIdx?_eq_some_iff_getElem.mpr ⟨hlt, ?_, fun m hm => ?_⟩⟩
      · exact Entry.covers_iff.mpr ⟨n, hget ▸ hitem, rfl, hi⟩
      · exact hnone _ (mem_take_iff_getElem.mpr ⟨m, by omega, rfl⟩)
  · rintro (h | ⟨k, i, h⟩)
    · exact live_other h
    · exact live_covers h

theorem live_left {a b : List Entry} (h : Live (a ++ b) j) (hj : j < a.length) : Live a j := by
  obtain ⟨e, he, hfresh⟩ := h
  rw [getElem?_append_left hj] at he
  rw [take_append_of_le_length hj.le] at hfresh
  exact ⟨e, he, hfresh⟩

theorem live_right {a b : List Entry} (h : Live (a ++ b) (a.length + j)) : Live b j := by
  obtain ⟨e, he, hfresh⟩ := h
  rw [getElem?_append_right (Nat.le_add_right ..), Nat.add_sub_cancel_left] at he
  refine ⟨e, he, fresh_mono (fun e' he' => ⟨e', ?_, rfl⟩) hfresh⟩
  rw [take_length_add_append]
  exact mem_append_right _ he'

variable {pos : Bool}

theorem live_merged (h : Live (es.map (Entry.merged pos)) j) : Live es j := by
  obtain ⟨e, he, hfresh⟩ := h
  rw [getElem?_map, Option.map_eq_some_iff] at he
  obtain ⟨e, he, rfl⟩ := he
  refine ⟨e, he, fresh_mono (fun e' he' => ⟨e'.merged pos, ?_, rfl⟩) hfresh⟩
  rw [← map_take]
  exact mem_map_of_mem he'

/-! ### The table of the entries -/

/-- The data that the entries give to a string of bits, when they are numbered by `ν`. -/
def slotOf (ν : Nat → Nat) (es : List Entry) (k : List Bool) (i : Family) : Slot :=
  ⟨(es.findIdx? (·.covers k i)).map ν, signAt es k i⟩

theorem paired_slotOf (ν : Nat → Nat) (es : List Entry) (k : List Bool) (i : Family) : Paired (slotOf ν es k i) := by
  simp [Paired, slotOf, signAt, findIdx?_eq_none_iff, find?_eq_none]

theorem slotOf_of_none {ν : Nat → Nat} (h : (slotOf ν es k i).nodeNum = none) : slotOf ν es k i = ⟨none, none⟩ := by
  have hdata := (paired_slotOf ν es k i).mp h
  cases hs : slotOf ν es k i
  simp_all

/-- Numbers for a list and for one that follows it. -/
def joined (a : List Entry) (ν ν' : Nat → Nat) (j : Nat) : Nat := if j < a.length then ν j else ν' (j - a.length)

theorem joined_cases {a b : List Entry} (ν ν' : Nat → Nat) (h : Live (a ++ b) j) :
    (j < a.length ∧ Live a j ∧ joined a ν ν' j = ν j) ∨ ∃ m, j = a.length + m ∧ joined a ν ν' j = ν' m := by
  by_cases hj : j < a.length
  · exact .inl ⟨hj, live_left h hj, if_pos hj⟩
  · obtain ⟨m, rfl⟩ := Nat.exists_eq_add_of_le (not_lt.mp hj)
    exact .inr ⟨m, rfl, by simp [joined]⟩

theorem slotOf_append (ν ν' : Nat → Nat) (a b : List Entry) (k : List Bool) (i : Family) :
    slotOf (joined a ν ν') (a ++ b) k i =
      if (slotOf ν a k i).nodeNum = none then slotOf ν' b k i else slotOf ν a k i := by
  have hfind : a.find? (·.covers k i) = (a.findIdx? (·.covers k i)).bind (a[·]?) := find?_eq_bind_findIdx?_getElem?
  unfold slotOf signAt
  rw [findIdx?_append]
  cases hidx : a.findIdx? (·.covers k i) with
  | none =>
    rw [hidx] at hfind
    have hshift : joined a ν ν' ∘ (fun j => j + a.length) = ν' := by
      funext j
      simp [joined]
    simp [hfind, hshift]
  | some j =>
    have hj : j < a.length := (findIdx?_eq_some_iff_getElem.mp hidx).1
    rw [hidx] at hfind
    simp [hfind, joined, hj]

theorem mergedSlot_eq {s source : Slot} (hs : Paired s) (hsource : Paired source)
    (hkeeps : pos = true ∨ ¬(s.data = some true ∧ source.data = some true)) (count : Nat) :
    mergedSlot count pos s source =
      if s.nodeNum = none then ⟨source.nodeNum.map (count + ·), source.data.map (· && pos)⟩ else s := by
  obtain ⟨num, data⟩ := s
  obtain ⟨num', data'⟩ := source
  unfold mergedSlot Paired at *
  cases num with
  | none =>
    obtain rfl : data = none := hs.mp rfl
    cases num' with
    | none =>
      obtain rfl : data' = none := hsource.mp rfl
      simp
    | some num' => cases pos <;> rcases data' with _ | _ | _ <;> simp
  | some num =>
    cases pos with
    | true => simp
    | false => rcases data with _ | _ | _ <;> simp_all

theorem keeps_iff {dest source : List Entry} (h : keeps dest source) (k : List Bool) (i : Family) :
    ¬(signAt dest k i = some true ∧ signAt source k i = some true) := by
  rintro ⟨hdest, hsource⟩
  obtain ⟨e, he, -⟩ := Option.map_eq_some_iff.mp hsource
  have hcovers : e.covers k i := by simpa using find?_some he
  obtain ⟨n, hitem, rfl, -⟩ := Entry.covers_iff.mp hcovers
  have hnet := all_eq_true.mp h e (mem_of_find?_eq_some he)
  rw [hitem] at hnet
  have hi : i ∈ [Family.v4, .v6] := by cases i <;> simp
  simpa [hdest, hsource] using all_eq_true.mp hnet i hi

/-- The merge of tables is the table of the entries, if no positive entry would become negative. -/
theorem mergedSlot_slotOf {dest source : List Entry} (hkeeps : pos || keeps dest source)
    (ν ν' : Nat → Nat) (count : Nat) (k : List Bool) (i : Family) :
    mergedSlot count pos (slotOf ν dest k i) (slotOf ν' source k i) =
      slotOf (joined dest ν fun j => count + ν' j) (dest ++ source.map (Entry.merged pos)) k i := by
  have hkeeps' := (Bool.or_eq_true _ _ ▸ hkeeps).imp_right fun h => keeps_iff h k i
  rw [slotOf_append, mergedSlot_eq (paired_slotOf ..) (paired_slotOf ..) hkeeps']
  have hsource : slotOf (fun j => count + ν' j) (source.map (Entry.merged pos)) k i =
      ⟨(slotOf ν' source k i).nodeNum.map (count + ·), (slotOf ν' source k i).data.map (· && pos)⟩ := by
    simp only [slotOf, signAt, findIdx?_map, find?_map, Option.map_map]
    rfl
  rw [hsource]

/-! ### The elements of the entries -/

section
variable (env : Option AclEnv) (req : Request)

/-- The elements of a list are those of its entries that are not prefixes, with their numbers. -/
def Elements : (Nat → Nat) → List Entry → List Element → Prop
  | _, [], els => els = []
  | ν, e :: es, els =>
    match e.item with
    | .net _ => Elements (fun j => ν (j + 1)) es els
    | .other test => ∃ type rest, els = .mk type (!e.positive) (ν 0) :: rest ∧
        elementMatch env req type = .ok (test env req) ∧ Elements (fun j => ν (j + 1)) es rest

variable {env req}

variable {ν : Nat → Nat}

theorem Elements.append {a b : List Entry} {x y : List Element} (ha : Elements env req ν a x)
    (hb : Elements env req (fun j => ν (j + a.length)) b y) : Elements env req ν (a ++ b) (x ++ y) := by
  induction a generalizing ν x with
  | nil =>
    rw [show x = [] from ha]
    exact hb
  | cons e a ih =>
    have hb' : Elements env req (fun j => ν (j + a.length + 1)) b y := hb
    unfold Elements at ha
    simp only [cons_append]
    unfold Elements
    cases hitem : e.item with
    | net n =>
      rw [hitem] at ha
      exact ih ha hb'
    | other test =>
      rw [hitem] at ha
      obtain ⟨type, rest, rfl, hmatch, hrest⟩ := ha
      exact ⟨type, rest ++ y, rfl, hmatch, ih hrest hb'⟩

variable {es : List Entry} {els : List Element}

theorem Elements.congr {ν' : Nat → Nat} (h : Elements env req ν es els)
    (heq : ∀ j < es.length, ν j = ν' j) : Elements env req ν' es els := by
  induction es generalizing ν ν' els with
  | nil => exact h
  | cons e es ih =>
    have heq' : ∀ j < es.length, ν (j + 1) = ν' (j + 1) := fun j hj => heq (j + 1) (by simpa using hj)
    unfold Elements at h ⊢
    cases hitem : e.item with
    | net n =>
      rw [hitem] at h
      exact ih h heq'
    | other test =>
      rw [hitem] at h
      obtain ⟨type, rest, rfl, hmatch, hrest⟩ := h
      exact ⟨type, rest, by rw [heq 0 (by simp)], hmatch, ih hrest heq'⟩

theorem Elements.merged (h : Elements env req ν es els) (count : Nat) (pos : Bool) :
    Elements env req (fun j => count + ν j) (es.map (Entry.merged pos)) (els.map (mergeElement count pos)) := by
  induction es generalizing ν els with
  | nil =>
    rw [show els = [] from h]
    rfl
  | cons e es ih =>
    unfold Elements at h
    simp only [map_cons]
    unfold Elements
    simp only [Entry.item_merged]
    cases hitem : e.item with
    | net n =>
      rw [hitem] at h
      exact ih h
    | other test =>
      rw [hitem] at h
      obtain ⟨type, rest, rfl, hmatch, hrest⟩ := h
      refine ⟨type, rest.map (mergeElement count pos), ?_, hmatch, ih hrest⟩
      cases hp : e.positive <;> cases pos <;> simp [mergeElement, Entry.merged, hp, Nat.add_comm]

theorem Elements.max_le (h : Elements env req ν es els) (m : Nat) : els.foldl (fun m e => max m e.nodeNum) 0 ≤ m ↔
      ∀ j, IsOther es j → ν j ≤ m := by
  rw [foldl_max_le]
  simp only [Nat.zero_le, true_and]
  induction es generalizing ν els with
  | nil =>
    rw [show els = [] from h]
    simp [IsOther]
  | cons e es ih =>
    unfold Elements at h
    rw [← Nat.and_forall_add_one]
    cases hitem : e.item with
    | net n =>
      rw [hitem] at h
      rw [ih h]
      simp [IsOther, hitem]
    | other test =>
      rw [hitem] at h
      obtain ⟨type, rest, rfl, -, hrest⟩ := h
      rw [forall_mem_cons, ih hrest]
      simp [IsOther, hitem, Element.nodeNum]

/-! ### Matching -/

/-- The sign of an entry. -/
def positiveAt (es : List Entry) (j : Nat) : Bool := es[j]?.any (·.positive)

variable (env req) in
/-- The entry is a prefix that has the address. -/
def Entry.netTest (e : Entry) : Bool :=
  match e.item with
  | .net _ => e.test env req
  | .other _ => false

variable (env req) in
/-- The entry is an element that matches. -/
def Entry.otherTest (e : Entry) : Bool :=
  match e.item with
  | .net _ => false
  | .other test => test env req

theorem firstMatchFrom_eq (before : Nat) (es : List Entry) :
    firstMatchFrom env req before es =
      match es.findIdx? (·.test env req) with
      | none => 0
      | some j => signed (positiveAt es j) (before + j + 1) := by
  induction es generalizing before with
  | nil => rfl
  | cons e es ih =>
    unfold firstMatchFrom
    rw [findIdx?_cons, ih]
    by_cases he : e.test env req
    · simp [he, positiveAt]
    · cases hrest : es.findIdx? (·.test env req) with
      | none => simp [he]
      | some j => simp [he, positiveAt, Nat.add_right_comm, Nat.add_assoc]

theorem isOther_of_first {j : Nat} (h : es.findIdx? (·.otherTest env req) = some j) : IsOther es j := by
  obtain ⟨hlt, htest, -⟩ := findIdx?_eq_some_iff_getElem.mp h
  cases hitem : es[j].item with
  | net n => simp [Entry.otherTest, hitem] at htest
  | other test => exact ⟨es[j], test, getElem?_eq_getElem hlt, hitem⟩

/-- The loop over the elements: the first that matches counts, if its number is below that of the address. -/
theorem Elements.matchElements (h : Elements env req ν es els)
    (hinc : ∀ i j, IsOther es i → IsOther es j → i < j → ν i < ν j) (matchNum : Option Nat) (found : Int) :
    matchElements env req matchNum found els =
      .ok (match es.findIdx? (·.otherTest env req) with
        | none => found
        | some j => if matchNum.all (ν j < ·) then signed (positiveAt es j) (ν j) else found) := by
  induction es generalizing ν els with
  | nil =>
    rw [show els = [] from h]
    rfl
  | cons e es ih =>
    have hinc' : ∀ i j, IsOther es i → IsOther es j → i < j → ν (i + 1) < ν (j + 1) := fun i j hi hj hlt =>
      hinc (i + 1) (j + 1) hi hj (Nat.succ_lt_succ hlt)
    unfold Elements at h
    rw [findIdx?_cons]
    cases hitem : e.item with
    | net n =>
      rw [hitem] at h
      rw [ih h hinc', if_neg (by simp [Entry.otherTest, hitem])]
      cases es.findIdx? (·.otherTest env req) <;> simp [positiveAt]
    | other test =>
      rw [hitem] at h
      obtain ⟨type, rest, rfl, hmatch, hrest⟩ := h
      have hhere : IsOther (e :: es) 0 := ⟨e, test, rfl, hitem⟩
      have htest : e.otherTest env req = test env req := by simp [Entry.otherTest, hitem]
      unfold matchElements
      rw [hmatch, htest]
      by_cases hbreak : matchNum.any (· < ν 0)
      · -- a better match has been found: the elements that follow have greater numbers still
        rw [if_pos hbreak]
        cases matchNum with
        | none => simp at hbreak
        | some num =>
          have hlt : num < ν 0 := by simpa using hbreak
          cases hfirst : if test env req = true then some 0
              else (es.findIdx? (·.otherTest env req)).map (· + 1) with
          | none => rfl
          | some j =>
            have hfirst' : (e :: es).findIdx? (·.otherTest env req) = some j := by
              rw [findIdx?_cons, htest]
              exact hfirst
            have hle : ν 0 ≤ ν j := by
              rcases Nat.eq_zero_or_pos j with rfl | hj
              · exact le_rfl
              · exact (hinc 0 j hhere (isOther_of_first hfirst') hj).le
            simp [(hlt.le.trans hle).not_gt]
      · rw [if_neg hbreak]
        cases htrue : test env req with
        | true => simp [positiveAt, signed]
        | false =>
          rw [ih hrest hinc']
          cases es.findIdx? (·.otherTest env req) <;> simp [positiveAt]

theorem findIdx?_or {α : Type} (p q : α → Bool) (l : List α) :
    l.findIdx? (fun x => p x || q x) = Option.merge min (l.findIdx? p) (l.findIdx? q) := by
  induction l with
  | nil => rfl
  | cons x l ih =>
    rw [findIdx?_cons, findIdx?_cons, findIdx?_cons, ih]
    by_cases hp : p x <;> by_cases hq : q x <;> simp only [hp, hq, Bool.or_true, Bool.or_false, Bool.false_eq_true, if_true, if_false]
    · rfl
    · cases l.findIdx? q <;> simp [Option.merge]
    · cases l.findIdx? p <;> simp [Option.merge]
    · cases l.findIdx? p <;> cases l.findIdx? q <;> simp [Option.merge, Nat.add_min_add_right]

end

/-! ### The code's list and the entries -/

/-- A list of the code has the entries, with the numbers that `ν` gives them. -/
structure Represents (env : Option AclEnv) (req : Request) (es : List Entry) (acl : Acl) (ν : Nat → Nat) : Prop where
  wf : WF acl.iptable.head
  table : ∀ k i, slotsAt acl.iptable.head k i = slotOf ν es k i
  elements : Elements env req ν es acl.elements
  increasing : ∀ i j, Live es i → Live es j → i < j → ν i < ν j
  bounds : ∀ j, Live es j → 1 ≤ ν j ∧ ν j ≤ nodeCount acl

section
variable {env : Option AclEnv} {req : Request} {es : List Entry} {acl : Acl} {ν : Nat → Nat}

theorem netTest_iff {e : Entry} :
    e.netTest env req ↔ ∃ k, k <+: (hostPrefix (lookupAddr env req.addr)).key ∧
      e.covers k (hostPrefix (lookupAddr env req.addr)).radixFamily := by
  simp only [Entry.covers_iff]
  unfold Entry.netTest Entry.test
  cases hitem : e.item with
  | net n =>
    simp only [Net.contains_iff]
    constructor
    · rintro ⟨hcovers, hkey⟩
      exact ⟨_, hkey, n, rfl, rfl, hcovers⟩
    · rintro ⟨k, hkey, n', hn, rfl, hcovers⟩
      cases hn
      exact ⟨hcovers, hkey⟩
  | other test => simp

theorem live_netTest {j : Nat} (h : es.findIdx? (·.netTest env req) = some j) :
    ∃ k, k <+: (hostPrefix (lookupAddr env req.addr)).key ∧
      es.findIdx? (·.covers k (hostPrefix (lookupAddr env req.addr)).radixFamily) = some j := by
  obtain ⟨hlt, htest, hbefore⟩ := findIdx?_eq_some_iff_getElem.mp h
  obtain ⟨k, hk, hcovers⟩ := netTest_iff.mp htest
  refine ⟨k, hk, findIdx?_eq_some_iff_getElem.mpr ⟨hlt, hcovers, fun m hm hcov => hbefore m hm ?_⟩⟩
  exact netTest_iff.mpr ⟨k, hk, hcov⟩

theorem Represents.matchTable (h : Represents env req es acl ν) :
    matchTable acl.iptable (hostPrefix (lookupAddr env req.addr)) =
      .ok (match es.findIdx? (·.netTest env req) with
        | none => (none, 0)
        | some j => (some (ν j), signed (positiveAt es j) (ν j))) := by
  have hfound := search_spec h.wf (hostPrefix_ok (lookupAddr env req.addr))
  unfold Access.matchTable
  cases hsearch : search acl.iptable (hostPrefix (lookupAddr env req.addr)) with
  | none =>
    rw [hsearch] at hfound
    cases hfirst : es.findIdx? (·.netTest env req) with
    | none => rfl
    | some j =>
      obtain ⟨k, hk, hcovers⟩ := live_netTest hfirst
      have hnone := hfound k hk
      rw [h.table, slotOf, hcovers] at hnone
      cases hnone
  | some node =>
    rw [hsearch] at hfound
    obtain ⟨k, num, hk, hslots, hnum, hleast⟩ := hfound
    simp only [h.table] at hnum hleast
    obtain ⟨j, hj, rfl⟩ := Option.map_eq_some_iff.mp hnum
    obtain ⟨hjlt, hjcovers, -⟩ := findIdx?_eq_some_iff_getElem.mp hj
    have hjtest : es[j].netTest env req := netTest_iff.mpr ⟨k, hk, hjcovers⟩
    -- the first prefix that has the address has the least number
    have hfirst : es.findIdx? (·.netTest env req) = some j := by
      cases hfirst : es.findIdx? (·.netTest env req) with
      | none =>
        simp [findIdx?_eq_none_iff.mp hfirst _ (getElem_mem hjlt)] at hjtest
      | some m =>
        obtain ⟨k', hk', hm⟩ := live_netTest hfirst
        have hle : ν j ≤ ν m := hleast k' (ν m) hk' (by rw [slotOf, hm]; rfl)
        have hmj : m ≤ j := by
          by_contra hlt
          exact (findIdx?_eq_some_iff_getElem.mp hfirst).2.2 j (not_le.mp hlt) hjtest
        rcases hmj.lt_or_eq with hlt | rfl
        · exact absurd (h.increasing m j (live_covers hm) (live_covers hj) hlt) (not_lt.mpr hle)
        · rfl
    have hsign : signAt es k (hostPrefix (lookupAddr env req.addr)).radixFamily = some (positiveAt es j) := by
      rw [signAt, find?_eq_bind_findIdx?_getElem?, hj]
      simp [positiveAt, hjlt]
    simp only [hslots, h.table, slotOf, hj, hsign, hfirst, Option.map_some]

theorem Represents.aclMatch (h : Represents env req es acl ν) :
    Access.aclMatch env req acl =
      .ok (match es.findIdx? (·.test env req) with
        | none => 0
        | some j => signed (positiveAt es j) (ν j)) := by
  have hsplit : (fun e : Entry => e.test env req) = fun e => e.netTest env req || e.otherTest env req := by
    funext e
    unfold Entry.netTest Entry.otherTest Entry.test
    cases e.item <;> simp
  have hinc : ∀ i j, IsOther es i → IsOther es j → i < j → ν i < ν j := fun i j hi hj =>
    h.increasing i j (live_other hi) (live_other hj)
  obtain ⟨iptable, elements⟩ := acl
  have htable : Access.matchTable iptable (hostPrefix (lookupAddr env req.addr)) = _ := h.matchTable
  have helements : ∀ matchNum found, Access.matchElements env req matchNum found elements = _ :=
    h.elements.matchElements hinc
  unfold Access.aclMatch
  rw [htable, hsplit, findIdx?_or]
  cases hnet : es.findIdx? (·.netTest env req) with
  | none =>
    simp only [helements]
    cases es.findIdx? (·.otherTest env req) <;> simp [Option.merge]
  | some i =>
    simp only [helements]
    cases hother : es.findIdx? (·.otherTest env req) with
    | none => simp [Option.merge]
    | some j =>
      obtain ⟨k, -, hcovers⟩ := live_netTest hnet
      obtain ⟨e, test, he, hitem⟩ := isOther_of_first hother
      have hi : Live es i := live_covers hcovers
      have hj : Live es j := live_other ⟨e, test, he, hitem⟩
      have hne : i ≠ j := by
        rintro rfl
        obtain ⟨hlt, htest, -⟩ := findIdx?_eq_some_iff_getElem.mp hnet
        rw [getElem?_eq_getElem hlt, Option.some.injEq] at he
        simp [Entry.netTest, he, hitem] at htest
      rcases Nat.lt_or_gt_of_ne hne with hlt | hgt
      · have hnum := h.increasing i j hi hj hlt
        simp [Option.merge, hnum.le.not_gt, min_eq_left hlt.le]
      · have hnum := h.increasing j i hj hi hgt
        simp [Option.merge, hnum, min_eq_right hgt.le]

theorem sign_signed (positive : Bool) {a b : Nat} (ha : 1 ≤ a) (hb : 1 ≤ b) :
    (signed positive a).sign = (signed positive b).sign := by
  obtain ⟨a, rfl⟩ := Nat.exists_eq_add_of_le' ha
  obtain ⟨b, rfl⟩ := Nat.exists_eq_add_of_le' hb
  cases positive <;> rfl

theorem test_of_netTest {e : Entry} (h : e.netTest env req) : e.test env req := by
  unfold Entry.netTest at h
  split at h
  · exact h
  · cases h

theorem live_test {j : Nat} (h : es.findIdx? (·.test env req) = some j) : Live es j := by
  refine live_of_first h fun e he hbefore => ?_
  cases hitem : e.item with
  | other test => rfl
  | net n =>
    have hnet : e.netTest env req := by
      rw [Entry.netTest, hitem]
      exact he
    obtain ⟨k, hk, hcovers⟩ := netTest_iff.mp hnet
    obtain ⟨n', hn', rfl, hfamily⟩ := Entry.covers_iff.mp hcovers
    obtain rfl : n = n' := Item.net.inj (hitem.symm.trans hn')
    refine fresh_net_iff.mpr ⟨_, hfamily, fun e' he' hcovers' => hbefore e' he' ?_⟩
    exact test_of_netTest (netTest_iff.mpr ⟨_, hk, hcovers'⟩)

theorem Represents.first (h : Represents env req es acl ν) :
    ∃ m, Access.aclMatch env req acl = .ok m ∧ m.sign = (firstMatch env req es).sign ∧
      ((∀ j, Live es j → ν j = j + 1) → m = firstMatch env req es) := by
  refine ⟨_, h.aclMatch, ?_⟩
  rw [firstMatch, firstMatchFrom_eq]
  cases hfirst : es.findIdx? (·.test env req) with
  | none => exact ⟨rfl, fun _ => rfl⟩
  | some j =>
    have hlive := live_test hfirst
    refine ⟨sign_signed _ (h.bounds j hlive).1 (Nat.le_add_left ..), fun hnum => ?_⟩
    simp only [hnum j hlive, Nat.zero_add]

end

/-! ### Building -/

/-- The numbers are the positions, and all of them are counted. -/
def Counted (es : List Entry) (acl : Acl) (ν : Nat → Nat) : Prop :=
  (∀ j, Live es j → ν j = j + 1) ∧ nodeCount acl = es.length

section
variable {env : Option AclEnv} {req : Request} {a b : List Entry} {acl acl' : Acl} {ν ν' : Nat → Nat}

theorem Represents.append (h : Represents env req a acl ν) (hwf : WF acl'.iptable.head)
    (htable : ∀ k i, slotsAt acl'.iptable.head k i = slotOf (joined a ν ν') (a ++ b) k i)
    (helements : ∃ els, acl'.elements = acl.elements ++ els ∧ Elements env req ν' b els)
    (hcount : nodeCount acl ≤ nodeCount acl')
    (hbounds : ∀ j, Live (a ++ b) (a.length + j) → nodeCount acl < ν' j ∧ ν' j ≤ nodeCount acl')
    (hinc : ∀ i j, Live (a ++ b) (a.length + i) → Live (a ++ b) (a.length + j) → i < j → ν' i < ν' j) :
    Represents env req (a ++ b) acl' (joined a ν ν') where
  wf := hwf
  table := htable
  elements := by
    obtain ⟨els, hels, hb⟩ := helements
    rw [hels]
    refine (h.elements.congr fun j hj => (if_pos hj).symm).append (hb.congr fun j _ => ?_)
    simp
  increasing i j hi hj hlt := by
    rcases joined_cases ν ν' hi with ⟨hi1, hi2, hi3⟩ | ⟨m, rfl, hi3⟩ <;>
      rcases joined_cases ν ν' hj with ⟨hj1, hj2, hj3⟩ | ⟨m', rfl, hj3⟩ <;> rw [hi3, hj3]
    · exact h.increasing i j hi2 hj2 hlt
    · exact lt_of_le_of_lt (h.bounds i hi2).2 (hbounds m' hj).1
    · omega
    · exact hinc m m' hi hj (Nat.lt_of_add_lt_add_left hlt)
  bounds j hj := by
    rcases joined_cases ν ν' hj with ⟨-, hlive, heq⟩ | ⟨m, rfl, heq⟩ <;> rw [heq]
    · exact ⟨(h.bounds j hlive).1, (h.bounds j hlive).2.trans hcount⟩
    · exact ⟨Nat.one_le_of_lt (hbounds m hj).1, (hbounds m hj).2⟩

theorem Counted.append (h : Counted a acl ν) (hcount : nodeCount acl' = a.length + b.length)
    (hb : ∀ j, Live (a ++ b) (a.length + j) → ν' j = a.length + j + 1) :
    Counted (a ++ b) acl' (joined a ν ν') := by
  refine ⟨fun j hj => ?_, by rw [hcount, length_append]⟩
  rcases joined_cases ν ν' hj with ⟨-, hlive, heq⟩ | ⟨m, rfl, heq⟩ <;> rw [heq]
  · exact h.1 j hlive
  · exact hb m hj

variable {x : Entry}

theorem live_single {j : Nat} (h : Live (a ++ [x]) (a.length + j)) : j = 0 ∧ fresh a x.item := by
  have hlt := h.lt
  obtain ⟨e, he, hfresh⟩ := h
  obtain rfl : j = 0 := by
    simp only [length_append, length_singleton] at hlt
    omega
  obtain rfl : x = e := by simpa using he
  refine ⟨rfl, fresh_mono (fun e' he' => ⟨e', ?_, rfl⟩) hfresh⟩
  simpa using he'

theorem Represents.append_single (h : Represents env req a acl ν) (hwf : WF acl'.iptable.head)
    (htable : ∀ k i, slotsAt acl'.iptable.head k i =
      slotOf (joined a ν fun _ => nodeCount acl + 1) (a ++ [x]) k i)
    (helements : ∃ els, acl'.elements = acl.elements ++ els ∧ Elements env req (fun _ => nodeCount acl + 1) [x] els)
    (hcount : nodeCount acl' = if fresh a x.item then nodeCount acl + 1 else nodeCount acl) :
    Represents env req (a ++ [x]) acl' (joined a ν fun _ => nodeCount acl + 1) := by
  refine h.append hwf htable helements ?_ (fun j hj => ?_) fun i j hi hj hlt => ?_
  · rw [hcount]
    split <;> omega
  · rw [hcount, if_pos (live_single hj).2]
    exact ⟨Nat.lt_succ_self _, le_rfl⟩
  · rw [(live_single hi).1, (live_single hj).1] at hlt
    exact absurd hlt (lt_irrefl _)

theorem Counted.append_single (h : Counted a acl ν) (hfresh : fresh a x.item)
    (hcount : nodeCount acl' = if fresh a x.item then nodeCount acl + 1 else nodeCount acl) :
    Counted (a ++ [x]) acl' (joined a ν fun _ => nodeCount acl + 1) := by
  refine h.append ?_ fun j hj => ?_
  · rw [hcount, if_pos hfresh, h.2]
    rfl
  · rw [(live_single hj).1, h.2]

/-! ### The steps -/

theorem slotOf_snoc (ν : Nat → Nat) (a : List Entry) (x : Entry) (num : Nat) (k : List Bool) (i : Family) :
    slotOf (joined a ν fun _ => num) (a ++ [x]) k i =
      if (slotOf ν a k i).nodeNum = none ∧ x.covers k i then ⟨some num, some x.positive⟩ else slotOf ν a k i := by
  rw [slotOf_append]
  by_cases hnone : (slotOf ν a k i).nodeNum = none
  · rw [if_pos hnone, slotOf_of_none hnone]
    by_cases hx : x.covers k i <;> simp [slotOf, signAt, hx]
  · rw [if_neg hnone, if_neg fun h => hnone h.1]

theorem free_iff_fresh (h : Represents env req a acl ν) (n : Net) :
    (free n.pfx (slotsAt acl.iptable.head n.pfx.key) .v4 ∨ free n.pfx (slotsAt acl.iptable.head n.pfx.key) .v6) ↔
      fresh a (.net n) := by
  have hfree : ∀ i, free n.pfx (slotsAt acl.iptable.head n.pfx.key) i ↔
      covers n.pfx i ∧ ∀ e ∈ a, ¬e.covers n.pfx.key i := by
    intro i
    simp [free, h.table, slotOf, findIdx?_eq_none_iff]
  rw [fresh_net_iff, exists_family, hfree, hfree]

theorem Represents.addPrefix (h : Represents env req a acl ν) (n : Net) (pos : Bool) :
    ∃ acl', Access.addPrefix acl n.addr n.bitlen pos = .ok acl' ∧
      Represents env req (a ++ [⟨.net n, pos⟩]) acl' (joined a ν fun _ => nodeCount acl + 1) ∧
      nodeCount acl' = if fresh a (.net n) then nodeCount acl + 1 else nodeCount acl := by
  have hpaired : ∀ k i, Paired (slotsAt acl.iptable.head k i) := fun k i => h.table k i ▸ paired_slotOf ν a k i
  obtain ⟨tab', hadd, hwf, hslots, hcount⟩ := iptableAddprefix_spec h.wf hpaired n pos
  simp only [free_iff_fresh h] at hcount
  refine ⟨.mk tab' acl.elements, ?_, h.append_single hwf (fun k i => ?_) ⟨[], by simp [Acl.elements], rfl⟩ hcount, hcount⟩
  · unfold Access.addPrefix
    rw [hadd]
    rfl
  · rw [slotOf_snoc]
    change slotsAt tab'.head k i = _
    rw [hslots]
    by_cases hk : k = n.pfx.key
    · subst hk
      simp [addedSlots, free, h.table, Entry.covers, and_comm]
      rfl
    · rw [Function.update_of_ne hk, h.table, if_neg]
      simp [Entry.covers, Ne.symm hk]

theorem Represents.addElement (h : Represents env req a acl ν) {type : ElementType}
    (test : Option AclEnv → Request → Bool) (hmatch : elementMatch env req type = .ok (test env req)) (negative : Bool) :
    Represents env req (a ++ [⟨.other test, !negative⟩]) (addElement acl type negative)
      (joined a ν fun _ => nodeCount acl + 1) := by
  refine h.append_single h.wf (fun k i => ?_) ⟨[.mk type negative (nodeCount acl + 1)], rfl, ?_⟩ rfl
  · rw [slotOf_snoc, if_neg (by simp [Entry.covers])]
    exact h.table k i
  · exact ⟨type, [], by simp, hmatch, rfl⟩

/-- The greatest number in use. -/
def maxNumber (acl : Acl) : Nat :=
  max (acl.elements.foldl (fun m e => max m e.nodeNum) 0) (maxNode (walk acl.iptable.head))

theorem Represents.maxNumber_le (h : Represents env req a acl ν) (m : Nat) :
    maxNumber acl ≤ m ↔ ∀ j, Live a j → ν j ≤ m := by
  rw [maxNumber, Nat.max_le, h.elements.max_le, maxNode_le h.wf]
  simp only [h.table, live_iff]
  constructor
  · rintro ⟨helements, htable⟩ j (hother | ⟨k, i, hfirst⟩)
    · exact helements j hother
    · exact htable k i (ν j) (by rw [slotOf, hfirst]; rfl)
  · intro hlive
    refine ⟨fun j hother => hlive j (.inl hother), fun k i num hnum => ?_⟩
    obtain ⟨j, hfirst, rfl⟩ := Option.map_eq_some_iff.mp hnum
    exact hlive j (.inr ⟨k, i, hfirst⟩)

theorem aclMerge_eq {dest source : Acl} {pos : Bool} {tab' : RadixTree}
    (hmerge : iptableMerge dest.iptable source.iptable pos = .ok tab')
    (hcount : tab'.numAddedNode = nodeCount dest + maxNode (walk source.iptable.head)) :
    aclMerge dest source pos = .ok (.mk ⟨tab'.head, nodeCount dest + maxNumber source⟩
      (dest.elements ++ source.elements.map (mergeElement (nodeCount dest) pos))) := by
  unfold aclMerge
  rw [hmerge]
  simp only [bind, Except.bind, pure, Except.pure, hcount, maxNumber, Nat.add_max_add_left, Nat.add_comm _ (nodeCount dest)]

theorem Represents.merge {source : Acl} (h : Represents env req a acl ν) (hsource : Represents env req b source ν')
    {pos : Bool} (hkeeps : pos || keeps a b) :
    ∃ acl', aclMerge acl source pos = .ok acl' ∧
      Represents env req (a ++ b.map (Entry.merged pos)) acl' (joined a ν fun j => nodeCount acl + ν' j) ∧
      nodeCount acl' = nodeCount acl + maxNumber source := by
  obtain ⟨tab', hmerge, hwf, hcount, hslots⟩ := iptableMerge_spec h.wf hsource.wf pos
  refine ⟨_, aclMerge_eq hmerge hcount, ?_, rfl⟩
  have hlive : ∀ j, Live (a ++ b.map (Entry.merged pos)) (a.length + j) → Live b j := fun _ hj => live_merged (live_right hj)
  refine h.append hwf (fun k i => ?_) ⟨_, rfl, hsource.elements.merged (nodeCount acl) pos⟩ (Nat.le_add_right ..)
    (fun j hj => ?_) fun i j hi hj hlt => ?_
  · rw [← mergedSlot_slotOf hkeeps, ← h.table, ← hsource.table]
    exact hslots k i
  · have hle := (hsource.maxNumber_le _).mp le_rfl j (hlive j hj)
    have hpos := (hsource.bounds j (hlive j hj)).1
    exact ⟨by omega, Nat.add_le_add_left hle _⟩
  · exact Nat.add_lt_add_left (hsource.increasing i j (hlive i hi) (hlive j hj) hlt) _

theorem Counted.maxNumber (hsource : Represents env req b acl ν) (h : Counted b acl ν)
    (hlast : b.getLast?.all fun e => fresh b.dropLast e.item) : maxNumber acl = b.length := by
  refine le_antisymm ((hsource.maxNumber_le _).mpr fun j hj => ?_) ?_
  · rw [h.1 j hj]
    exact hj.lt
  · cases hb : b.getLast? with
    | none =>
      rw [getLast?_eq_none_iff.mp hb]
      exact Nat.zero_le _
    | some e =>
      have hlive : Live b (b.length - 1) := by
        refine ⟨e, by rw [← hb, getLast?_eq_getElem?], ?_⟩
        rw [← dropLast_eq_take]
        simpa [hb] using hlast
      have hle := (hsource.maxNumber_le _).mp le_rfl _ hlive
      rw [h.1 _ hlive] at hle
      omega

end

/-! ### Every list -/

/-- The code's list has the entries, and the numbers are the positions if all entries get one. -/
theorem Build.represents (env : Option AclEnv) (req : Request) (b : Build) (hkept : b.kept) :
    ∃ acl ν, b.run = .ok acl ∧ Represents env req b.entries acl ν ∧ (b.numbered → Counted b.entries acl ν) := by
  induction b with
  | create =>
    have hnone : ∀ j, ¬Live [] j := fun j hj => Nat.not_lt_zero j hj.lt
    exact ⟨_, id, rfl, ⟨trivial, fun _ _ => rfl, rfl, fun i _ hi => absurd hi (hnone i), fun j hj => absurd hj (hnone j)⟩,
      fun _ => ⟨fun j hj => absurd hj (hnone j), rfl⟩⟩
  | addPrefix b net pos ih =>
    obtain ⟨acl, ν, hrun, hrep, hcounted⟩ := ih hkept
    obtain ⟨acl', hadd, hrep', hcount⟩ := hrep.addPrefix net pos
    refine ⟨acl', _, ?_, hrep', fun hnum => ?_⟩
    · rw [Build.run, hrun]
      exact hadd
    · obtain ⟨hnum, hfresh⟩ := Bool.and_eq_true_iff.mp hnum
      exact (hcounted hnum).append_single hfresh hcount
  | element b atom negative ih =>
    obtain ⟨acl, ν, hrun, hrep, hcounted⟩ := ih hkept
    have hmatch : elementMatch env req atom.type = .ok (atom.test env req) := by
      cases atom <;> unfold Atom.type Atom.test elementMatch <;> rfl
    refine ⟨_, _, ?_, hrep.addElement _ hmatch negative, fun hnum => ?_⟩
    · rw [Build.run, hrun]
      rfl
    · exact (hcounted hnum).append_single rfl rfl
  | nested b inner negative ih ihInner =>
    obtain ⟨hkept, hkeptInner⟩ := Bool.and_eq_true_iff.mp hkept
    obtain ⟨acl, ν, hrun, hrep, hcounted⟩ := ih hkept
    obtain ⟨aclInner, νInner, hrunInner, hrepInner, -⟩ := ihInner hkeptInner
    obtain ⟨m, hm, hsign, -⟩ := hrepInner.first
    have hmatch : elementMatch env req (.nestedacl aclInner) = .ok (decide (0 < firstMatch env req inner.entries)) := by
      unfold elementMatch
      rw [hm]
      have hpos : 0 < m ↔ 0 < firstMatch env req inner.entries := by
        rw [← Int.sign_eq_one_iff_pos, hsign, Int.sign_eq_one_iff_pos]
      simp [hpos]
    refine ⟨_, _, ?_, hrep.addElement (fun env req => decide (0 < firstMatch env req inner.entries)) hmatch negative,
      fun hnum => ?_⟩
    · rw [Build.run, hrun, hrunInner]
      rfl
    · exact (hcounted hnum).append_single rfl rfl
  | merge dest source pos ihDest ihSource =>
    simp only [Build.kept, Bool.and_eq_true] at hkept
    obtain ⟨⟨hkeptDest, hkeptSource⟩, hkeeps⟩ := hkept
    obtain ⟨dacl, ν, hrun, hrep, hcounted⟩ := ihDest hkeptDest
    obtain ⟨sacl, ν', hrun', hrep', hcounted'⟩ := ihSource hkeptSource
    obtain ⟨acl, hmerge, hrepMerged, hcount⟩ := hrep.merge hrep' hkeeps
    refine ⟨acl, _, ?_, hrepMerged, fun hnum => ?_⟩
    · rw [Build.run, hrun, hrun']
      exact hmerge
    · simp only [Build.numbered, Bool.and_eq_true] at hnum
      obtain ⟨⟨hnum, hnum'⟩, hlast⟩ := hnum
      have hd := hcounted hnum
      have hs := hcounted' hnum'
      refine hd.append ?_ fun j hj => ?_
      · rw [hcount, hs.maxNumber hrep' hlast, hd.2, length_map]
      · rw [hd.2, hs.1 j (live_merged (live_right hj)), Nat.add_assoc]

/-- `dns_acl_match` answers with the sign of the first entry that matches, and with zero if there is none, for every list
    whose prefixes keep their sign when another one is merged; the number is the position of that entry, if no entry is
    for a prefix that was there already. -/
theorem aclMatch_firstMatch (b : Build) (hkept : b.kept) (env : Option AclEnv) (req : Request) :
    ∃ acl m, b.run = .ok acl ∧ aclMatch env req acl = .ok m ∧ m.sign = (firstMatch env req b.entries).sign ∧
      (b.numbered → m = firstMatch env req b.entries) := by
  obtain ⟨acl, ν, hrun, hrep, hcounted⟩ := b.represents env req hkept
  obtain ⟨m, hm, hsign, heq⟩ := hrep.first
  exact ⟨acl, m, hrun, hm, hsign, fun hnum => heq (hcounted hnum).1⟩

/-- `10.0.0.0/8`. -/
def net10 : Net := ⟨some (.inet #v[10, 0, 0, 0]), 8, rfl⟩

/-- `11.0.0.0/8`. -/
def net11 : Net := ⟨some (.inet #v[11, 0, 0, 0]), 8, rfl⟩

/-- `{ 10/8; !{ !11/8; localhost; }; { any; }; }`, with the last list nested. -/
def mixed : Build :=
  .nested (.merge (.addPrefix .create net10 true) (.element (.addPrefix .create net11 false) .localhost false) false)
    (.addPrefix .create ⟨none, 0, rfl⟩ true) false

theorem aclMatch_mixed : mixed.kept ∧ mixed.numbered ∧
    ∃ acl m, mixed.run = .ok acl ∧ aclMatch none ⟨.inet #v[12, 0, 0, 1], none⟩ acl = .ok m ∧
      m.sign = (firstMatch none ⟨.inet #v[12, 0, 0, 1], none⟩ mixed.entries).sign ∧
      (mixed.numbered → m = firstMatch none ⟨.inet #v[12, 0, 0, 1], none⟩ mixed.entries) :=
  ⟨by decide +kernel, by decide +kernel, aclMatch_firstMatch mixed (by decide +kernel) none _⟩

/-- A list that has `10/8` answers negatively once the same prefix is merged to be negated, though its own entry comes
    first; and a prefix that is added twice takes one number only. -/
theorem aclMatch_not_first :
    ((Build.merge (.addPrefix .create net10 true) (.addPrefix .create net10 true) false).run >>=
        aclMatch none ⟨.inet #v[10, 0, 0, 1], none⟩) = .ok (-1) ∧
      firstMatch none ⟨.inet #v[10, 0, 0, 1], none⟩
        (Build.merge (.addPrefix .create net10 true) (.addPrefix .create net10 true) false).entries = 1 ∧
      ((Build.addPrefix (.addPrefix (.addPrefix .create net10 true) net10 true) net11 true).run >>=
        aclMatch none ⟨.inet #v[11, 0, 0, 1], none⟩) = .ok 2 ∧
      firstMatch none ⟨.inet #v[11, 0, 0, 1], none⟩
        (Build.addPrefix (.addPrefix (.addPrefix .create net10 true) net10 true) net11 true).entries = 3 := by
  decide +kernel

end OqsBind.Dns.Access
