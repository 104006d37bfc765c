import Mathlib.Data.Finmap
import OqsBind.Theorems.HashmapTable

/-! The hash map is a finite map. Its entries are those of its two tables together; moving one from the old table to the
    new one changes nothing. That the new table never fills up while this goes on is a matter of counting: what is in
    it, together with twice what is still to come, fits. -/

namespace OqsBind.Isc.Hashmap
open Table Finmap Map

variable {V : Type} {m : Map V} {hash : Key → UInt32}

/-! ### The finite map -/

/-- What a hash map stands for: a finite map on keys as they are compared. -/
abbrev Store (V : Type) := Finmap fun _ : Bytes => V

/-- A call on a finite map. -/
def Store.step (cs : Bool) (f : Store V) : Op V → Reply V × Store V
  | .add key value =>
    if folded cs key ∈ f then (⟨.alreadyExists, none⟩, f) else (⟨.success, none⟩, f.insert (folded cs key) value)
  | .find key =>
    match f.lookup (folded cs key) with
    | some value => (⟨.success, some value⟩, f)
    | none => (⟨.notfound, none⟩, f)
  | .delete key =>
    if folded cs key ∈ f then (⟨.success, none⟩, f.erase (folded cs key)) else (⟨.notfound, none⟩, f)

def Store.run (cs : Bool) (f : Store V) : List (Op V) → List (Reply V) × Store V
  | [] => ([], f)
  | op :: ops =>
    let (reply, f) := f.step cs op
    let (replies, f) := Store.run cs f ops
    (reply :: replies, f)

variable {f : Store V}

theorem Store.erase_entries {s : Multiset (Sigma fun _ : Bytes => V)} {a : Bytes} {v : V}
    (h : f.entries = ⟨a, v⟩ ::ₘ s) : (f.erase a).entries = s := by
  have hnodup := f.nodupKeys.nodup_keys
  rw [h, Multiset.keys_cons, Multiset.nodup_cons] at hnodup
  let g : Store V := ⟨s, Multiset.nodup_keys.mp hnodup.2⟩
  have hg : a ∉ g := hnodup.1
  have hf : f = g.insert a v := ext (h.trans (entries_insert_of_notMem hg).symm)
  have herase : f.erase a = g := by
    apply ext_lookup
    intro x
    by_cases hx : x = a
    · subst hx
      rw [lookup_erase, lookup_eq_none.mpr hg]
    · rw [lookup_erase_ne hx, hf, lookup_insert_of_ne _ hx]
  rw [herase]

/-! ### Sizes -/

variable {x : Nat}

theorem approx90Percent_lt (h : 0 < x) : approx90Percent x < x := by
  simp [approx90Percent]
  omega

theorem two_mul_approx40Percent_lt (h : 0 < x) : 2 * approx40Percent x < x := by
  simp [approx40Percent]
  omega

theorem le_approx40Percent (x : Nat) : x ≤ approx40Percent (4 * x) := by
  simp [approx40Percent]
  omega

theorem two_mul_lt_of_approx20Percent {c : Nat} (h : c < approx20Percent (2 * x)) : 2 * c < x := by
  unfold approx20Percent at h
  omega

theorem Table.card_le_size (t : Table V) : t.entries.card ≤ t.size := by
  unfold entries
  rw [Multiset.card_sum]
  calc _ ≤ ∑ _s ∈ Finset.range t.size, 1 := Finset.sum_le_sum fun s _ => ?_
    _ = t.size := by simp
  rcases t.slots s with _ | node
  · exact Nat.zero_le _
  · exact (Multiset.card_singleton _).le

namespace Map

/-- The loop of `grow_bits` needs at most two rounds: a table of four times the size is not 40 percent full. -/
theorem growBits_spec (hpos : 1 ≤ m.table.hashbits) (hlt : m.table.hashbits < 32) (hcount : m.count ≤ m.table.size) :
    ∃ bits, m.growBits = .ok bits ∧ m.table.hashbits < bits ∧ bits ≤ 32 ∧ 2 * m.count ≤ 2 ^ bits ∧
      (bits < 32 → 2 * m.count < 2 ^ bits) := by
  unfold growBits
  have hfuel : 55 - m.table.hashbits = 53 - m.table.hashbits + 1 + 1 := by omega
  unfold size at hcount
  have hlast : m.count ≤ approx40Percent (2 ^ (m.table.hashbits + 1 + 1)) := by
    have := le_approx40Percent (2 ^ m.table.hashbits)
    rw [show 2 ^ (m.table.hashbits + 1 + 1) = 4 * 2 ^ m.table.hashbits by omega]
    omega
  have hsmall : ∀ bits, m.count ≤ approx40Percent (2 ^ bits) → 2 * m.count < 2 ^ bits := by
    intro bits h
    have := two_mul_approx40Percent_lt (Nat.two_pow_pos bits)
    omega
  rw [hfuel, growLoop]
  split
  · rw [growLoop, if_neg (Nat.not_lt.mpr hlast)]
    rcases Nat.lt_or_ge (m.table.hashbits + 1) 32 with hb | hb
    · refine ⟨_, rfl, ?_⟩
      rw [if_neg (by unfold maxBits; omega)]
      have := hsmall _ hlast
      exact ⟨by omega, by omega, by omega, fun _ => this⟩
    · have hbits : m.table.hashbits = 31 := by omega
      rw [hbits] at hcount ⊢
      exact ⟨32, rfl, by omega, le_rfl, by omega, fun h => by omega⟩
  · next h =>
    refine ⟨_, rfl, ?_⟩
    rw [if_neg (by unfold maxBits; omega)]
    have := hsmall _ (Nat.not_lt.mp h)
    exact ⟨by omega, by omega, by omega, fun _ => this⟩

/-! ### The invariant -/

/-- The entries of both tables. -/
def entries (m : Map V) : Multiset (Key × V) := m.table.entries + m.old.elim 0 Table.entries

theorem entries_of_old {o : Table V} (h : m.old = some o) : m.entries = m.table.entries + o.entries := by
  rw [entries, h]
  rfl

theorem entries_of_idle (h : m.old = none) : m.entries = m.table.entries := by
  rw [entries, h]
  exact add_zero _

/-- An entry as the finite map has it. -/
def tag (cs : Bool) (e : Key × V) : Sigma fun _ : Bytes => V := ⟨folded cs e.1, e.2⟩

/-- The old table `o` is emptied from its first slot on, and all it holds, with as much again, will fit into the new
    one. `slack` is what must fit on top of that. -/
structure Draining (hash : Key → UInt32) (slack : Nat) (m : Map V) (o : Table V) : Prop where
  inv : o.Inv hash
  bits_lt : o.hashbits < 32
  passed : ∀ s < m.hiter, o.slots s = none
  hiter_le : m.hiter ≤ o.size
  room : m.table.entries.card + 2 * o.entries.card + slack ≤ m.table.size
  room_lt : m.table.hashbits < 32 → m.table.entries.card + 2 * o.entries.card + slack < m.table.size

/-- The hash map holds what the finite map `f` does. -/
structure Inv (hash : Key → UInt32) (slack : Nat) (m : Map V) (f : Store V) : Prop where
  table : m.table.Inv hash
  old : ∀ o, m.old = some o → Draining hash slack m o
  idle : m.old = none → m.hiter = 0
  count : m.count = m.entries.card
  stores : m.entries.map (tag m.caseSensitive) = f.entries

variable {f : Store V}

theorem Inv.slack (h : Inv hash 1 m f) : Inv hash 0 m f := by
  refine { h with old := fun o ho => ?_ }
  obtain ⟨hinv, hbits, hpassed, hiter, hroom, hlt⟩ := h.old o ho
  exact ⟨hinv, hbits, hpassed, hiter, by omega, fun hb => by omega⟩

variable {slack : Nat}

theorem Inv.of_idle {slack' : Nat} (h : Inv hash slack m f) (hidle : m.old = none) : Inv hash slack' m f :=
  { h with old := fun _ ho => nomatch hidle.symm.trans ho }

/-- A table of 32 bits has a free slot. -/
def Roomy (m : Map V) : Prop := m.table.hashbits = 32 → m.count < 2 ^ 32

theorem table_card_le (m : Map V) : m.table.entries.card ≤ m.entries.card := by
  simp [entries]

theorem Roomy.card_lt (hroomy : m.Roomy) (h : Inv hash slack m f) :
    m.table.hashbits < 32 ∨ m.table.entries.card < m.table.size := by
  rcases Nat.lt_or_ge m.table.hashbits 32 with hlt | hge
  · exact .inl hlt
  · have hbits : m.table.hashbits = 32 := Nat.le_antisymm h.table.bits_le hge
    have hcount := hroomy hbits
    have hle := m.table_card_le
    have := h.count
    right
    unfold size
    rw [hbits]
    omega

theorem Inv.keys_nodup (h : Inv hash slack m f) : (m.entries.map fun e => folded m.caseSensitive e.1).Nodup := by
  have hnodup := f.nodupKeys.nodup_keys
  rw [← h.stores] at hnodup
  unfold Multiset.keys at hnodup
  rwa [Multiset.map_map] at hnodup

variable {t : Table V} {key : Key}

theorem has_iff {cs : Bool} : t.Has cs key ↔ ∃ e ∈ t.entries, folded cs e.1 = folded cs key := by
  constructor
  · rintro ⟨s, hs, node, hnode, hsame⟩
    exact ⟨(node.key, node.value), mem_entries.mpr ⟨s, hs, node, hnode, rfl⟩, sameKey_iff.mp hsame⟩
  · rintro ⟨e, he, hsame⟩
    obtain ⟨s, hs, node, hnode, rfl⟩ := mem_entries.mp he
    exact ⟨s, hs, node, hnode, sameKey_iff.mpr hsame⟩

theorem Inv.mem_iff (h : Inv hash slack m f) : folded m.caseSensitive key ∈ f ↔
    m.table.Has m.caseSensitive key ∨ ∃ o, m.old = some o ∧ o.Has m.caseSensitive key := by
  rw [mem_def, ← h.stores]
  unfold Multiset.keys
  rw [Multiset.map_map, Multiset.mem_map, entries, has_iff]
  cases m.old <;> simp [has_iff, tag, or_and_right, exists_or]

theorem Inv.lookup (h : Inv hash slack m f) {e : Key × V} (he : e ∈ m.entries)
    (hsame : folded m.caseSensitive e.1 = folded m.caseSensitive key) :
    f.lookup (folded m.caseSensitive key) = some e.2 := by
  rw [lookup_eq_some_iff, ← h.stores, ← hsame]
  exact Multiset.mem_map_of_mem (tag m.caseSensitive) he

theorem Inv.card_keys (h : Inv hash slack m f) : m.count = f.keys.card := by
  rw [h.count]
  show _ = (Multiset.map Sigma.fst f.entries).card
  rw [Multiset.card_map, ← h.stores, Multiset.card_map]

/-! ### Rehashing -/

theorem skipEmpty_spec : ∀ (left : Nat) {hiter : Nat}, (∀ s < hiter, t.slots s = none) →
    hiter ≤ t.skipEmpty left hiter ∧ t.skipEmpty left hiter ≤ hiter + left ∧
      (∀ s < t.skipEmpty left hiter, t.slots s = none) ∧
      (t.skipEmpty left hiter < hiter + left → ∃ node, t.slots (t.skipEmpty left hiter) = some node)
  | 0, hiter, h => ⟨le_rfl, le_rfl, h, fun hlt => absurd hlt (lt_irrefl _)⟩
  | left + 1, hiter, h => by
    rw [skipEmpty]
    split
    · next hnone =>
      have hnext : ∀ s < hiter + 1, t.slots s = none := by
        intro s hs
        rcases Nat.lt_succ_iff_lt_or_eq.mp hs with hlt | rfl
        · exact h s hlt
        · exact Option.isNone_iff_eq_none.mp hnone
      obtain ⟨hge, hle, hfree, hused⟩ := skipEmpty_spec left hnext
      exact ⟨by omega, by omega, hfree, fun hlt => hused (by omega)⟩
    · next hsome =>
      refine ⟨le_rfl, by omega, h, fun _ => ?_⟩
      exact Option.ne_none_iff_exists'.mp fun hnone => hsome (by rw [hnone]; rfl)

/-- What a call that moves an entry over leaves as it was. -/
structure Moved (hash : Key → UInt32) (m m' : Map V) (f : Store V) : Prop where
  inv : Inv hash 1 m' f
  caseSensitive : m'.caseSensitive = m.caseSensitive
  roomy : m'.Roomy
  card_lt : m'.table.entries.card < m'.table.size

theorem rehashOne_spec (hagree : Agrees m.caseSensitive hash) (h : Inv hash 0 m f) (hroomy : m.Roomy)
    {o : Table V} (ho : m.old = some o) : ∃ m', m.rehashOne = .ok m' ∧ Moved hash m m' f := by
  obtain ⟨hinv, hbits, hpassed, hiter, hroom, hlt⟩ := h.old o ho
  have hsize : o.size % 2 ^ 32 = o.size := Nat.mod_eq_of_lt (Nat.pow_lt_pow_right (by omega) hbits)
  obtain ⟨-, hle, hfree, hused⟩ := skipEmpty_spec (o.size - m.hiter) hpassed
  rw [Nat.add_sub_cancel' hiter] at hle hused
  have hentries := entries_of_old ho
  unfold rehashOne
  rw [ho]
  dsimp only
  rw [hsize]
  split
  · next heq =>
    -- every slot was passed, so the old table is empty
    have hempty : o.entries = 0 := entries_eq_zero (heq ▸ hfree)
    rw [hempty, add_zero] at hentries
    refine ⟨_, rfl, ⟨h.table, fun o' ho' => (nomatch ho'), fun _ => rfl, ?_, ?_⟩, rfl, hroomy, ?_⟩
    · rw [entries_of_idle rfl, h.count, hentries]
    · rw [entries_of_idle rfl, ← h.stores, hentries]
    · rcases hroomy.card_lt h with hb | hcard
      · dsimp only
        omega
      · exact hcard
  · next hne =>
    obtain ⟨node, hnode⟩ := hused (by omega)
    rw [hnode]
    dsimp only
    obtain ⟨o', hdelete, hremoved⟩ := deleteNode_spec hinv (by omega) hnode
    have hcard : o.entries.card = o'.entries.card + 1 := by
      simp [hremoved.entries]
    -- the key is in the old table, so it is not in the new one
    have hhas : ¬ m.table.Has m.caseSensitive node.key := by
      rw [has_iff]
      rintro ⟨e, he, hsame⟩
      have hnodup := h.keys_nodup
      rw [hentries, hremoved.entries, Multiset.map_add, Multiset.map_add] at hnodup
      have hdisj := (Multiset.nodup_add.mp hnodup).2.2
      refine Multiset.disjoint_left.mp hdisj (Multiset.mem_map_of_mem _ he) ?_
      exact Multiset.mem_add.mpr (.inr (Multiset.mem_singleton.mpr hsame))
    have hval : node.hashval = hash node.key := (hinv.sits _ (by omega) node hnode).hashval
    obtain ⟨t', hadd, hadded⟩ := add_absent h.table hagree node.value hhas (by omega)
    have hcard' : t'.entries.card = m.table.entries.card + 1 := by
      simp [hadded.entries]
    have hsize' : t'.size = m.table.size := by
      unfold size
      rw [hadded.hashbits]
    have hcount := h.count
    have hsame : t'.entries + o'.entries = m.entries := by
      rw [hentries, hremoved.entries, hadded.entries]
      abel
    have hpos : m.count - 1 + 1 = m.count := by
      rw [hentries, Multiset.card_add] at hcount
      omega
    refine ⟨{ m with
      table := t'
      old := some o'
      hiter := o.skipEmpty (o.size - m.hiter) m.hiter
      count := m.count - 1 + 1 }, ?_, ⟨hadded.inv, ?_, fun hnone => (nomatch hnone), ?_, ?_⟩, rfl, ?_, ?_⟩
    · rw [hdelete]
      show (do
        let x ← add _ node.hashval node.key node.value
        if x.1 = Result.success then .ok x.2 else .error .insist) = _
      unfold add
      rw [hval, hadd]
      rfl
    · rintro _ ⟨⟩
      refine ⟨hremoved.inv, hremoved.hashbits ▸ hbits, fun s hs => hremoved.free s (hfree s hs), ?_, ?_, ?_⟩
      · show o.skipEmpty _ _ ≤ 2 ^ o'.hashbits
        rw [hremoved.hashbits]
        exact hle
      · simp
        omega
      · intro hb
        have := hlt (hadded.hashbits ▸ hb)
        simp
        omega
    · rw [entries_of_old rfl, hsame, hpos, hcount]
    · rw [entries_of_old rfl, hsame]
      exact h.stores
    · intro hb
      simpa [hpos] using hroomy (hadded.hashbits ▸ hb)
    · simp
      omega

theorem Inv.start (h : Inv hash slack m f) (hidle : m.old = none) (hbits : m.table.hashbits < 32)
    {table : Table V} (htable : table.Inv hash) (hempty : table.entries = 0) (hroom : 2 * m.count ≤ table.size)
    (hlt : table.hashbits < 32 → 2 * m.count < table.size) : Inv hash 0 { m with table := table, old := some m.table } f := by
  have hentries : ({ m with table := table, old := some m.table } : Map V).entries = m.entries := by
    rw [entries_of_idle hidle]
    show table.entries + m.table.entries = _
    rw [hempty, zero_add]
  have hcount : m.count = m.table.entries.card := by rw [h.count, entries_of_idle hidle]
  refine ⟨htable, ?_, fun hnone => (nomatch hnone), ?_, ?_⟩
  · rintro _ ⟨⟩
    have hiter := h.idle hidle
    refine ⟨h.table, hbits, fun s hs => ?_, ?_, ?_, fun hb => ?_⟩
    · rw [show ({ m with table := table, old := some m.table } : Map V).hiter = 0 from hiter] at hs
      omega
    · show m.hiter ≤ _
      omega
    · simp [hempty]
      omega
    · have := hlt hb
      simp [hempty]
      omega
  · rw [hentries]
    exact h.count
  · rw [hentries]
    exact h.stores

theorem rehashStartGrow_spec (h : Inv hash 0 m f) (hidle : m.old = none) (hbits : m.table.hashbits < 32) :
    ∃ m', m.rehashStartGrow = .ok m' ∧ Inv hash 0 m' f ∧ m'.caseSensitive = m.caseSensitive ∧ m'.Roomy ∧
      m'.old = some m.table := by
  have hcount : m.count ≤ m.table.size := by
    rw [h.count, entries_of_idle hidle]
    exact m.table.card_le_size
  obtain ⟨bits, hgrow, hlt, hle, hroom, hroomlt⟩ := growBits_spec h.table.bits_pos hbits hcount
  obtain ⟨table, hcreate, htb, hempty, hinv, -⟩ := create_inv (V := V) hash ⟨h.table.bits_pos.trans hlt.le, hle⟩
  refine ⟨{ m with table := table, old := some m.table }, ?_,
    h.start hidle hbits hinv hempty (by unfold size; rwa [htb]) (by unfold size; rwa [htb]), rfl, fun _ => ?_, rfl⟩
  · unfold rehashStartGrow
    rw [hidle, hgrow]
    show (if m.table.hashbits < bits then _ else _) = _
    rw [if_pos hlt, hcreate]
    rfl
  · have hsize : m.table.size < 2 ^ 32 := Nat.pow_lt_pow_right (by omega) hbits
    show m.count < 2 ^ 32
    omega

theorem rehashStartShrink_spec (h : Inv hash 0 m f) (hidle : m.old = none) (hbits : m.table.hashbits < 32)
    (hunder : m.underThreshold = true) :
    ∃ m', m.rehashStartShrink = .ok m' ∧ Inv hash 0 m' f ∧ m'.caseSensitive = m.caseSensitive ∧ m'.Roomy ∧
      m'.old = some m.table := by
  unfold underThreshold minBits at hunder
  simp only [Bool.and_eq_true, bne_iff_ne, decide_eq_true_eq] at hunder
  obtain ⟨hne, hcount⟩ := hunder
  have hpos := h.table.bits_pos
  have hshrink : m.shrinkBits = m.table.hashbits - 1 := by
    unfold shrinkBits minBits
    split <;> omega
  have hdouble : 2 ^ m.table.hashbits = 2 * 2 ^ (m.table.hashbits - 1) := by
    rw [← Nat.pow_succ', Nat.succ_eq_add_one, Nat.sub_add_cancel hpos]
  rw [hdouble] at hcount
  have hroom := two_mul_lt_of_approx20Percent hcount
  have haccepted : 1 ≤ m.table.hashbits - 1 ∧ m.table.hashbits - 1 ≤ 32 := by omega
  obtain ⟨table, hcreate, htb, hempty, hinv, -⟩ := create_inv (V := V) hash haccepted
  refine ⟨{ m with table := table, old := some m.table }, ?_,
    h.start hidle hbits hinv hempty (by unfold size; rw [htb]; omega) (fun _ => by unfold size; rwa [htb]),
    rfl, fun hb => ?_, rfl⟩
  · unfold rehashStartShrink
    rw [hidle, hshrink]
    show (if m.table.hashbits - 1 < m.table.hashbits then _ else _) = _
    rw [if_pos (by omega), hcreate]
    rfl
  · have : table.hashbits = 32 := hb
    omega

theorem rehashForAdd_spec (hagree : Agrees m.caseSensitive hash) (h : Inv hash 0 m f) (hroomy : m.Roomy) :
    ∃ m', m.rehashForAdd = .ok m' ∧ Moved hash m m' f := by
  unfold rehashForAdd
  rcases hold : m.old with _ | o
  · simp only [Option.isSome_none, Bool.false_eq_true, if_false]
    split
    · next hover =>
      unfold overThreshold maxBits at hover
      simp only [Bool.and_eq_true, bne_iff_ne] at hover
      have hle := h.table.bits_le
      obtain ⟨m1, hstart, hinv, hcs, hroomy1, hold1⟩ := rehashStartGrow_spec h hold (by omega)
      obtain ⟨m2, hone, hmoved⟩ := rehashOne_spec (hcs ▸ hagree) hinv hroomy1 hold1
      refine ⟨m2, ?_, hmoved.inv, hmoved.caseSensitive.trans hcs, hmoved.roomy, hmoved.card_lt⟩
      rw [hstart]
      exact hone
    · next hover =>
      refine ⟨m, rfl, h.of_idle hold, rfl, hroomy, ?_⟩
      rcases hroomy.card_lt h with hb | hcard
      · unfold overThreshold maxBits at hover
        simp only [Bool.and_eq_true, bne_iff_ne, decide_eq_true_eq, not_and, Nat.not_lt] at hover
        have := approx90Percent_lt (Nat.two_pow_pos m.table.hashbits)
        have := h.count
        have := m.table_card_le
        unfold size
        omega
      · exact hcard
  · exact rehashOne_spec hagree h hroomy hold

/-- A deletion must not begin to shrink a table of 32 bits, which would be freed with all that it holds. -/
theorem rehashForDelete_spec (hagree : Agrees m.caseSensitive hash) (h : Inv hash 0 m f) (hroomy : m.Roomy)
    (hshrink : m.old = none → m.underThreshold = true → m.table.hashbits < 32) :
    ∃ m', m.rehashForDelete = .ok m' ∧ Inv hash 0 m' f ∧ m'.caseSensitive = m.caseSensitive ∧ m'.Roomy := by
  unfold rehashForDelete
  rcases hold : m.old with _ | o
  · simp only [Option.isSome_none, Bool.false_eq_true, if_false]
    split
    · next hunder =>
      obtain ⟨m1, hstart, hinv, hcs, hroomy1, hold1⟩ := rehashStartShrink_spec h hold (hshrink hold hunder) hunder
      obtain ⟨m2, hone, hmoved⟩ := rehashOne_spec (hcs ▸ hagree) hinv hroomy1 hold1
      refine ⟨m2, ?_, hmoved.inv.slack, hmoved.caseSensitive.trans hcs, hmoved.roomy⟩
      rw [hstart]
      exact hone
    · exact ⟨m, rfl, h, rfl, hroomy⟩
  · obtain ⟨m', hone, hmoved⟩ := rehashOne_spec hagree h hroomy hold
    exact ⟨m', hone, hmoved.inv.slack, hmoved.caseSensitive, hmoved.roomy⟩

/-! ### Searching both tables -/

/-- Where a node was found. -/
def Located (hash : Key → UInt32) (m : Map V) (key : Key) (node : Node V) (psl : Nat) : Idx → Prop
  | .hindex => Found m.caseSensitive hash m.table key node psl
  | .nexttable => ∃ o, m.old = some o ∧ Found m.caseSensitive hash o key node psl

theorem found_mem {cs : Bool} (ht : t.Inv hash) {node : Node V} {psl : Nat}
    (h : Found cs hash t key node psl) : (node.key, node.value) ∈ t.entries :=
  mem_entries.mpr ⟨_, pos_lt ht.bits_le _ _, node, h.slot, rfl⟩

theorem find_spec (hagree : Agrees m.caseSensitive hash) (h : Inv hash slack m f) (hroomy : m.Roomy) (key : Key) :
    (folded m.caseSensitive key ∈ f ∧ ∃ node psl idx, m.find (hash key) key = .ok (some (node, psl, idx)) ∧
      Located hash m key node psl idx ∧ f.lookup (folded m.caseSensitive key) = some node.value) ∨
    (folded m.caseSensitive key ∉ f ∧ m.find (hash key) key = .ok none) := by
  have hcard := hroomy.card_lt h
  unfold find
  by_cases hhas : m.table.Has m.caseSensitive key
  · obtain ⟨node, psl, hfind, hfound⟩ := Table.find_has h.table hagree hhas
    have hmem : (node.key, node.value) ∈ m.entries := Multiset.mem_add.mpr (.inl (found_mem h.table hfound))
    have hlookup := h.lookup hmem (sameKey_iff.mp hfound.same)
    refine .inl ⟨mem_of_lookup_eq_some hlookup, node, psl, .hindex, ?_, hfound, hlookup⟩
    rw [hfind]
    rfl
  · rw [Table.find_absent h.table hagree hhas hcard]
    rcases hold : m.old with _ | o
    · exact .inr ⟨by simp [h.mem_iff, hhas, hold], rfl⟩
    · have hdrain := h.old o hold
      by_cases hhas' : o.Has m.caseSensitive key
      · obtain ⟨node, psl, hfind, hfound⟩ := Table.find_has hdrain.inv hagree hhas'
        have hmem : (node.key, node.value) ∈ m.entries := by
          rw [entries_of_old hold]
          exact Multiset.mem_add.mpr (.inr (found_mem hdrain.inv hfound))
        have hlookup := h.lookup hmem (sameKey_iff.mp hfound.same)
        refine .inl ⟨mem_of_lookup_eq_some hlookup, node, psl, .nexttable, ?_, ⟨o, hold, hfound⟩, hlookup⟩
        simp only [bind, Except.bind, hfind]
      · refine .inr ⟨by simp [h.mem_iff, hhas, hold, hhas'], ?_⟩
        simp only [bind, Except.bind, Table.find_absent hdrain.inv hagree hhas' (.inl hdrain.bits_lt)]

end Map

/-! ### The calls -/

open Map

/-- What a call hands back and leaves behind is what the finite map says. -/
def Answers (hash : Key → UInt32) (m : Map V) (f : Store V) (op : Op V) : Prop :=
  ∃ m', step hash m op = .ok ((f.step m.caseSensitive op).1, m') ∧ Inv hash 0 m' (f.step m.caseSensitive op).2 ∧
    m'.caseSensitive = m.caseSensitive

theorem find_answers (hagree : Agrees m.caseSensitive hash) (h : Inv hash 0 m f) (hroomy : m.Roomy)
    (key : Key) : Answers hash m f (.find key) := by
  unfold Answers Store.step step find
  dsimp only
  rcases find_spec hagree h hroomy key with ⟨hmem, node, psl, idx, hfind, -, hlookup⟩ | ⟨hmem, hfind⟩
  · rw [hfind, hlookup]
    exact ⟨m, rfl, h, rfl⟩
  · rw [hfind, lookup_eq_none.mpr hmem]
    exact ⟨m, rfl, h, rfl⟩

variable {key : Key}

theorem Map.Inv.insert (h : Map.Inv hash 1 m f) {value : V}
    (hmem : folded m.caseSensitive key ∉ f) {t' : Table V} (hadded : Added hash m.table t' (key, value)) :
    Inv hash 0 { m with table := t', count := m.count + 1 } (f.insert (folded m.caseSensitive key) value) := by
  have hsize : t'.size = m.table.size := by
    unfold size
    rw [hadded.hashbits]
  have hcard : t'.entries.card = m.table.entries.card + 1 := by
    simp [hadded.entries]
  have hentries : ({ m with table := t', count := m.count + 1 } : Map V).entries = m.entries + {(key, value)} := by
    unfold entries
    rw [hadded.entries]
    abel
  refine ⟨hadded.inv, fun o ho => ?_, h.idle, ?_, ?_⟩
  · obtain ⟨hinv, hbits, hpassed, hiter, hroom, hlt⟩ := h.old o ho
    refine ⟨hinv, hbits, hpassed, hiter, ?_, fun hb => ?_⟩
    · simp
      omega
    · have := hlt (hadded.hashbits ▸ hb)
      simp
      omega
  · rw [hentries, Multiset.card_add, Multiset.card_singleton, ← h.count]
  · rw [hentries, Multiset.map_add, entries_insert_of_notMem hmem, ← h.stores, add_comm]
    rfl

theorem add_answers (hagree : Agrees m.caseSensitive hash) (h : Inv hash 0 m f) (hroomy : m.Roomy)
    (key : Key) (value : V) : Answers hash m f (.add key value) := by
  obtain ⟨m1, hrehash, hmoved⟩ := rehashForAdd_spec hagree h hroomy
  have hinv := hmoved.inv
  have hcs := hmoved.caseSensitive
  rw [← hcs] at hagree
  unfold Answers Store.step step add
  rw [hrehash, ← hcs]
  by_cases htable : m1.table.Has m1.caseSensitive key
  · -- the key is in the new table, whatever the old one holds
    have hmem := hinv.mem_iff.mpr (.inl htable)
    have hadd := Table.add_has hinv.table hagree value htable
    have hexists : m1.add (hash key) key value = .ok (.alreadyExists, m1) := by
      unfold Map.add
      rw [hadd]
      rfl
    simp only [bind, Except.bind, if_pos hmem]
    rcases hold : m1.old with _ | o
    · simp only [Option.isSome_none, Bool.false_eq_true, if_false, hexists]
      exact ⟨m1, rfl, hinv.slack, rfl⟩
    · have hdrain := hinv.old o hold
      by_cases hhas : o.Has m1.caseSensitive key
      · obtain ⟨node, psl, hfind, -⟩ := Table.find_has hdrain.inv hagree hhas
        simp only [hfind, Option.isSome_some, if_true]
        exact ⟨m1, rfl, hinv.slack, rfl⟩
      · simp only [Table.find_absent hdrain.inv hagree hhas (.inl hdrain.bits_lt), Option.isSome_none, Bool.false_eq_true,
          if_false, hexists]
        exact ⟨m1, rfl, hinv.slack, rfl⟩
  · obtain ⟨t', hadd, hadded⟩ := Table.add_absent hinv.table hagree value htable hmoved.card_lt
    have hsuccess : m1.add (hash key) key value = .ok (.success, { m1 with table := t', count := m1.count + 1 }) := by
      unfold Map.add
      rw [hadd]
      rfl
    simp only [bind, Except.bind]
    rcases hold : m1.old with _ | o
    · have hmem : folded m1.caseSensitive key ∉ f := by simp [hinv.mem_iff, htable, hold]
      simp only [Option.isSome_none, Bool.false_eq_true, if_false, hsuccess, if_neg hmem]
      exact ⟨_, rfl, hinv.insert hmem hadded, rfl⟩
    · have hdrain := hinv.old o hold
      by_cases hhas : o.Has m1.caseSensitive key
      · have hmem := hinv.mem_iff.mpr (.inr ⟨o, hold, hhas⟩)
        obtain ⟨node, psl, hfind, -⟩ := Table.find_has hdrain.inv hagree hhas
        simp only [hfind, Option.isSome_some, if_true, if_pos hmem]
        exact ⟨m1, rfl, hinv.slack, rfl⟩
      · have hmem : folded m1.caseSensitive key ∉ f := by simp [hinv.mem_iff, htable, hold, hhas]
        simp only [Table.find_absent hdrain.inv hagree hhas (.inl hdrain.bits_lt), Option.isSome_none, Bool.false_eq_true,
          if_false, hsuccess, if_neg hmem]
        exact ⟨_, rfl, hinv.insert hmem hadded, rfl⟩

section
variable {e : Key × V} (h : Map.Inv hash 0 m f) (hsame : folded m.caseSensitive e.1 = folded m.caseSensitive key)
include h hsame

theorem Map.Inv.erase {table : Table V} {old : Option (Table V)}
    (hentries : m.entries = ({ m with table := table, old := old, count := m.count - 1 } : Map V).entries + {e})
    (htable : table.Inv hash) (hidle : old = none → m.old = none)
    (hold : ∀ o, old = some o → Draining hash 0 { m with table := table, old := old, count := m.count - 1 } o) :
    Inv hash 0 { m with table := table, old := old, count := m.count - 1 } (f.erase (folded m.caseSensitive key)) := by
  refine ⟨htable, hold, fun hnone => h.idle (hidle hnone), ?_, ?_⟩
  · have hcount := h.count
    rw [hentries, Multiset.card_add, Multiset.card_singleton] at hcount
    show m.count - 1 = _
    omega
  · have hstores := h.stores
    rw [hentries, Multiset.map_add, add_comm] at hstores
    refine (Store.erase_entries (v := e.2) ?_).symm
    rw [← hstores, ← hsame]
    rfl

theorem Map.Inv.remove_table {t' : Table V} (hremoved : Removed hash m.table t' e) :
    Inv hash 0 { m with table := t', count := m.count - 1 } (f.erase (folded m.caseSensitive key)) := by
  refine h.erase hsame ?_ hremoved.inv id fun o ho => ?_
  · unfold entries
    rw [hremoved.entries]
    abel
  · obtain ⟨hoinv, hbits, hpassed, hiter, hroom, hlt⟩ := h.old o ho
    have hcard : m.table.entries.card = t'.entries.card + 1 := by
      simp [hremoved.entries]
    have hsize : t'.size = m.table.size := by
      unfold size
      rw [hremoved.hashbits]
    refine ⟨hoinv, hbits, hpassed, hiter, ?_, fun hb => ?_⟩
    · simp
      omega
    · simp
      omega

theorem Map.Inv.remove_old {o o' : Table V} (hold : m.old = some o) (hremoved : Table.Removed hash o o' e) :
    Inv hash 0 { m with old := some o', count := m.count - 1 } (f.erase (folded m.caseSensitive key)) := by
  obtain ⟨hoinv, hbits, hpassed, hiter, hroom, hlt⟩ := h.old o hold
  have hcard : o.entries.card = o'.entries.card + 1 := by
    simp [hremoved.entries]
  refine h.erase hsame ?_ h.table (fun hnone => (nomatch hnone)) ?_
  · rw [entries_of_old hold, hremoved.entries]
    show _ = m.table.entries + o'.entries + _
    abel
  · rintro _ ⟨⟩
    refine ⟨hremoved.inv, hremoved.hashbits ▸ hbits, fun s hs => hremoved.free s (hpassed s hs), ?_, ?_, fun hb => ?_⟩
    · show m.hiter ≤ 2 ^ o'.hashbits
      rw [hremoved.hashbits]
      exact hiter
    · simp
      omega
    · simp
      omega

end

theorem deleteFound {cs : Bool} {t : Table V} (ht : t.Inv hash) {node : Node V} {psl : Nat}
    (h : Found cs hash t key node psl) :
    ∃ t', t.deleteNode (t.pos (hashBits32 (hash key) t.hashbits) psl) (hash key) psl = .ok t' ∧
      Removed hash t t' (node.key, node.value) := by
  rw [← h.hashval, ← h.psl]
  apply deleteNode_spec ht (pos_lt ht.bits_le _ _)
  rw [h.hashval, h.psl]
  exact h.slot

theorem delete_answers (hagree : Agrees m.caseSensitive hash) (h : Inv hash 0 m f) (hroomy : m.Roomy)
    (hshrink : m.old = none → m.underThreshold = true → m.table.hashbits < 32) (key : Key) :
    Answers hash m f (.delete key) := by
  obtain ⟨m1, hrehash, hinv, hcs, hroomy1⟩ := rehashForDelete_spec hagree h hroomy hshrink
  rw [← hcs] at hagree
  unfold Answers Store.step step delete
  rw [hrehash, ← hcs]
  simp only [bind, Except.bind]
  rcases find_spec hagree hinv hroomy1 key with ⟨hmem, node, psl, idx, hfind, hlocated, -⟩ | ⟨hmem, hfind⟩
  · simp only [hfind, if_pos hmem]
    cases idx with
    | hindex =>
      have hfound : Found m1.caseSensitive hash m1.table key node psl := hlocated
      obtain ⟨t', hdelete, hremoved⟩ := deleteFound hinv.table hfound
      simp only [hdelete]
      exact ⟨_, rfl, hinv.remove_table (sameKey_iff.mp hfound.same) hremoved, rfl⟩
    | nexttable =>
      obtain ⟨o, hold, hfound⟩ := hlocated
      obtain ⟨o', hdelete, hremoved⟩ := deleteFound (hinv.old o hold).inv hfound
      simp only [hold, hdelete]
      exact ⟨_, rfl, hinv.remove_old (sameKey_iff.mp hfound.same) hold hremoved, rfl⟩
  · simp only [hfind, if_neg hmem]
    exact ⟨m1, rfl, hinv, rfl⟩

/-! ### Runs -/

/-- What a call needs of a table of 32 bits: it has a free slot, and no deletion begins to shrink it. -/
def Manageable (m : Map V) (op : Op V) : Prop :=
  m.table.hashbits = 32 → m.count < 2 ^ 32 ∧ ∀ key, op = .delete key → m.old = none → m.underThreshold = false

/-- Every call of the sequence is manageable where it is made. -/
def Within (hash : Key → UInt32) (m : Map V) : List (Op V) → Prop
  | [] => True
  | op :: ops => Manageable m op ∧ ∀ reply m', step hash m op = .ok (reply, m') → Within hash m' ops

theorem step_answers (hagree : Agrees m.caseSensitive hash) (h : Inv hash 0 m f) {op : Op V}
    (hop : Manageable m op) : Answers hash m f op := by
  have hroomy : m.Roomy := fun hb => (hop hb).1
  cases op with
  | add key value => exact add_answers hagree h hroomy key value
  | find key => exact find_answers hagree h hroomy key
  | delete key =>
    refine delete_answers hagree h hroomy (fun hidle hunder => ?_) key
    by_contra hge
    have hbits : m.table.hashbits = 32 := Nat.le_antisymm h.table.bits_le (Nat.not_lt.mp hge)
    have hno := (hop hbits).2 key rfl hidle
    rw [hunder] at hno
    cases hno

theorem run_answers {ops : List (Op V)} : ∀ {m : Map V} {f : Store V}, Agrees m.caseSensitive hash → Inv hash 0 m f →
    Within hash m ops → ∃ m', run hash m ops = .ok ((f.run m.caseSensitive ops).1, m') ∧
      Inv hash 0 m' (f.run m.caseSensitive ops).2 ∧ m'.caseSensitive = m.caseSensitive := by
  induction ops with
  | nil => exact fun _ h _ => ⟨_, rfl, h, rfl⟩
  | cons op ops ih =>
    intro m f hagree h hwithin
    obtain ⟨m1, hstep, hinv, hcs⟩ := step_answers hagree h hwithin.1
    obtain ⟨m2, hrun, hinv2, hcs2⟩ := ih (hcs ▸ hagree) hinv (hwithin.2 _ _ hstep)
    rw [hcs] at hrun hinv2
    refine ⟨m2, ?_, hinv2, hcs2.trans hcs⟩
    rw [run, hstep]
    simp only [bind, Except.bind, hrun]
    rfl

theorem create_inv (hash : Key → UInt32) {cs : Bool} {bits : Nat} (h : create cs bits = .ok m) :
    m.caseSensitive = cs ∧ Inv hash 0 m (∅ : Store V) := by
  unfold create at h
  by_cases hb : 1 ≤ bits ∧ bits ≤ 32
  · obtain ⟨t, ht, -, hempty, hinv, -⟩ := Table.create_inv (V := V) hash hb
    rw [ht] at h
    cases h
    have hentries : (⟨cs, 0, 0, t, none⟩ : Map V).entries = 0 := by
      rw [entries_of_idle rfl]
      exact hempty
    refine ⟨rfl, hinv, fun o ho => (nomatch ho), fun _ => rfl, ?_, ?_⟩
    · rw [hentries]
      rfl
    · rw [hentries]
      rfl
  · rw [show Table.create bits = (.error .require : Except Fault (Table V)) from if_neg hb] at h
    cases h

/-- Every sequence of calls on a new hash map is answered as a finite map answers it, and counts its keys. -/
theorem hashmap_refines {cs : Bool} {bits : Nat} (hagree : Agrees cs hash) (hcreate : create cs bits = .ok m)
    {ops : List (Op V)} (hwithin : Within hash m ops) :
    ∃ m', run hash m ops = .ok (((∅ : Store V).run cs ops).1, m') ∧
      m'.count = ((∅ : Store V).run cs ops).2.keys.card := by
  obtain ⟨rfl, hinv⟩ := create_inv hash hcreate
  obtain ⟨m', hrun, hinv', -⟩ := run_answers hagree hinv hwithin
  exact ⟨m', hrun, hinv'.card_keys⟩

/-- A key of one octet. -/
def octetKey (c : UInt8) : Key := ⟨[c], Nat.le_add_left 1 65534⟩

/-- All hash values are equal, and the third key makes the table grow. -/
def growing : List (Op Nat) :=
  [.add (octetKey 97) 1, .add (octetKey 98) 2, .add (octetKey 99) 3, .delete (octetKey 98), .find (octetKey 97)]

theorem growing_refines : ∃ m m' : Map Nat, create true 1 = .ok m ∧
    run (fun _ => 0) m growing = .ok (((∅ : Store Nat).run true growing).1, m') ∧
    m'.count = ((∅ : Store Nat).run true growing).2.keys.card := by
  have hcreate : create true 1 = .ok (⟨true, 0, 0, ⟨1, fun _ => none⟩, none⟩ : Map Nat) := rfl
  have hagree : Agrees true fun _ => 0 := fun _ _ _ => rfl
  have hwithin : Within (fun _ => 0) (⟨true, 0, 0, ⟨1, fun _ => none⟩, none⟩ : Map Nat) growing := by
    iterate 4
      refine ⟨fun hb => absurd hb (by decide), ?_⟩
      rintro _ _ ⟨⟩
    exact ⟨fun hb => absurd hb (by decide), fun _ _ _ => trivial⟩
  obtain ⟨m', hrun, hcount⟩ := hashmap_refines hagree hcreate hwithin
  exact ⟨_, m', hcreate, hrun, hcount⟩

/-- In a map that is created with 32 bits, the deletion of a key that is not there frees the only table: its size is 0 in
    32 bits, so that it passes for one that is emptied already. The key added before is lost, and still counted. -/
theorem delete_loses_entry : ∃ m m' : Map Nat, create true 32 = .ok m ∧
    run (fun _ => 0) m [.add (octetKey 97) 1, .delete (octetKey 98), .find (octetKey 97)] =
      .ok ([⟨.success, none⟩, ⟨.notfound, none⟩, ⟨.notfound, none⟩], m') ∧
    m'.count = 1 ∧
    ((∅ : Store Nat).run true [.add (octetKey 97) 1, .delete (octetKey 98), .find (octetKey 97)]).1 =
      [⟨.success, none⟩, ⟨.notfound, none⟩, ⟨.success, some 1⟩] := by
  exact ⟨_, _, rfl, rfl, rfl, by decide⟩

end OqsBind.Isc.Hashmap
