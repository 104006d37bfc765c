import OqsBind.Theorems.QpDelete
import Mathlib.Data.Finmap

/-! A trie is a finite map from names, up to case, to leaves. -/

namespace OqsBind.Dns.Qp
open Isc List Finmap

/-- What two names that are equal up to case have in common. -/
abbrev FoldedName := Bool × List Bytes

def Name.fold (n : Name) : FoldedName := (n.absolute, n.labels.map fun l => l.bytes.map tolower)

theorem fold_eq_iff (n m : Name) : Name.fold n = Name.fold m ↔ n.absolute = m.absolute ∧ n.equal m = true := by
  unfold Name.fold
  rw [Prod.mk.injEq]
  refine and_congr_right fun h => ?_
  rw [Name.equal_iff n m h, stackOrder_eq_iff, Name.stack, Name.stack, h]
  simp [map_reverse, Function.comp_def]

theorem qpkeyBit_zero (n : TrieName) : qpkeyBit (qpkeyFromname n.val) 0 = SHIFT_NOBYTE ↔ n.val.absolute = true := by
  obtain ⟨n, hn⟩ := n
  rw [qpkeyFromname_eq, Name.stack]
  cases h : n.absolute with
  | true => simp [stackKey_cons, labelBits, qpkeyBit]
  | false =>
    have hlabels : n.labels ≠ [] := by
      rintro h0
      simp [Name.nlabels, h, h0, rootWire] at hn
    obtain ⟨ls, l, hl⟩ : ∃ ls l, n.labels = ls ++ [l] := ⟨_, _, (dropLast_concat_getLast hlabels).symm⟩
    obtain ⟨b, bs, hb⟩ : ∃ b bs, l.bytes = b :: bs := exists_cons_of_length_pos l.length_pos
    have hne := (octetBits_range b.toNat_lt).1
    rw [hl]
    simp only [map_append, map_cons, map_nil, reverse_append, reverse_cons, reverse_nil,
      nil_append, Bool.false_eq_true, if_false, append_nil, hb]
    simp only [stackKey_cons, labelBits_cons, cons_append, qpkeyBit, getD_cons_zero]
    exact iff_of_false (Nat.ne_of_gt hne) id

theorem sameKey_iff (n m : TrieName) : SameKey (qpkeyFromname n.val) (qpkeyFromname m.val) ↔ Name.fold n.val = Name.fold m.val := by
  rw [fold_eq_iff, SameKey, ← qpkeyCompare_eq_none]
  by_cases h : n.val.absolute = m.val.absolute
  · rw [← keyOrder_eq_iff, keyOrder_fromname n.val m.val h, ← Name.equal_iff n.val m.val h]
    exact (and_iff_right h).symm
  · refine iff_of_false (fun hsame => h ?_) fun hand => h hand.1
    have h0 := qpkeyCompare_eq_none.mp hsame 0
    rw [Bool.eq_iff_iff, ← qpkeyBit_zero, ← qpkeyBit_zero, h0]

theorem keyOk_fromname (n : Name) : KeyOk (qpkeyFromname n) := by
  refine ⟨fun offset => ?_, qpkeyFromname_length n⟩
  have hlabel : ∀ l : Bytes, ∀ x ∈ labelBits l, SHIFT_NOBYTE ≤ x ∧ x < SHIFT_OFFSET := by
    intro l
    induction l with
    | nil => exact fun x hx => absurd hx not_mem_nil
    | cons b l ih =>
      intro x hx
      obtain ⟨h1, h2, h3, h4⟩ := octetBits_range b.toNat_lt
      rw [labelBits_cons] at hx
      rcases mem_cons.mp hx with rfl | hx
      · exact ⟨h1.le, h2⟩
      · split_ifs at hx with h0
        · rcases mem_cons.mp hx with rfl | hx
          · exact ⟨(h3 h0).le, h4⟩
          · exact ih x hx
        · exact ih x hx
  have hstack : ∀ ls : List Bytes, ∀ x ∈ stackKey ls, SHIFT_NOBYTE ≤ x ∧ x < SHIFT_OFFSET := by
    intro ls
    induction ls with
    | nil => exact fun x hx => absurd hx not_mem_nil
    | cons l ls ih =>
      intro x hx
      rw [stackKey_cons] at hx
      rcases mem_append.mp hx with hx | hx
      · exact hlabel l x hx
      · rcases mem_cons.mp hx with rfl | hx
        · exact ⟨le_rfl, by decide⟩
        · exact ih x hx
  rw [qpkeyFromname_eq, qpkeyBit, getD_eq_getElem?_getD]
  cases hx : (stackKey n.stack)[offset]? with
  | none => exact ⟨le_rfl, by decide⟩
  | some x => exact hstack _ x (mem_of_getElem? hx)

/-- Things that have keys, and what tells their keys apart. -/
structure Keying (κ ι : Type) where
  key : κ → Key
  ident : κ → ι
  ok : ∀ k, KeyOk (key k)
  same : ∀ k k', SameKey (key k) (key k') ↔ ident k = ident k'

/-- Names, which are the same up to case. -/
def Keying.names : Keying TrieName FoldedName where
  key := fun name => qpkeyFromname name.val
  ident := fun name => Name.fold name.val
  ok := fun name => keyOk_fromname name.val
  same := sameKey_iff

/-- The finite map that a trie stands for. -/
abbrev Entries (ι : Type) := Finmap fun _ : ι => Leaf

section
variable {κ ι : Type} [DecidableEq ι]

namespace Entries

/-- An entry that is there already is not replaced. -/
def insert (ident : κ → ι) (itemOf : Leaf → κ) (e : Entries ι) (l : Leaf) : Result × Entries ι :=
  match e.lookup (ident (itemOf l)) with
  | some _ => (.exists_, e)
  | none => (.success, Finmap.insert (ident (itemOf l)) l e)

def get (e : Entries ι) (i : ι) : Result × Option Leaf :=
  match e.lookup i with
  | some l => (.success, some l)
  | none => (.notfound, none)

def call (ident : κ → ι) (itemOf : Leaf → κ) (e : Entries ι) : Call κ → Reply × Entries ι
  | .insert l => (some ((e.insert ident itemOf l).1, none), (e.insert ident itemOf l).2)
  | .delete k => (some (e.get (ident k)), erase (ident k) e)
  | .get k => (some (e.get (ident k)), e)
  | .compact _ => (none, e)

def calls (ident : κ → ι) (itemOf : Leaf → κ) (e : Entries ι) : List (Call κ) → List Reply × Entries ι
  | [] => ([], e)
  | c :: cs =>
    let (reply, e) := e.call ident itemOf c
    let (replies, e) := e.calls ident itemOf cs
    (reply :: replies, e)

end Entries

variable {K : Keying κ ι} {itemOf : Leaf → κ} {m : Multiset Leaf} {e : Entries ι}

/-- The leaves `m` have different keys, and are those of the map. -/
structure Denotes (K : Keying κ ι) (itemOf : Leaf → κ) (m : Multiset Leaf) (e : Entries ι) : Prop where
  lookup : ∀ i l, e.lookup i = some l ↔ l ∈ m ∧ K.ident (itemOf l) = i
  nodup : (m.map fun l => K.ident (itemOf l)).Nodup

namespace Denotes

theorem empty (K : Keying κ ι) (itemOf : Leaf → κ) : Denotes K itemOf 0 ∅ where
  lookup := fun i l => by simp
  nodup := Multiset.nodup_zero

section
variable (h : Denotes K itemOf m e)
include h

theorem card : e.keys.card = m.card := by
  have hkeys : e.keys.val = m.map fun l => K.ident (itemOf l) := by
    refine (Multiset.Nodup.ext e.keys.nodup h.nodup).mpr fun i => ?_
    simpa [Finmap.mem_keys, Finmap.mem_iff] using exists_congr fun l => h.lookup i l
  rw [← Finset.card_val, hkeys, Multiset.card_map]

theorem lookup_eq_none (i : ι) : e.lookup i = none ↔ ∀ l ∈ m, K.ident (itemOf l) ≠ i := by
  rw [Option.eq_none_iff_forall_ne_some]
  refine forall_congr' fun l => ?_
  rw [Ne, h.lookup, not_and]

theorem insert {l : Leaf} (hl : e.lookup (K.ident (itemOf l)) = none) :
    Denotes K itemOf (l ::ₘ m) (insert (K.ident (itemOf l)) l e) where
  lookup := fun i l' => by
    have hnone := (h.lookup_eq_none _).mp hl
    rw [Multiset.mem_cons]
    by_cases hi : i = K.ident (itemOf l)
    · subst hi
      rw [lookup_insert, Option.some.injEq]
      constructor
      · rintro rfl
        exact ⟨.inl rfl, rfl⟩
      · rintro ⟨rfl | hl', hi⟩
        · rfl
        · exact absurd hi (hnone l' hl')
    · rw [lookup_insert_of_ne e hi, h.lookup]
      refine ⟨fun hl' => ⟨.inr hl'.1, hl'.2⟩, ?_⟩
      rintro ⟨rfl | hl', hi'⟩
      · exact absurd hi'.symm hi
      · exact ⟨hl', hi'⟩
  nodup := by
    rw [Multiset.map_cons, Multiset.nodup_cons]
    refine ⟨fun hmem => ?_, h.nodup⟩
    obtain ⟨l', hl', hi⟩ := Multiset.mem_map.mp hmem
    exact (h.lookup_eq_none _).mp hl l' hl' hi

theorem erase {l : Leaf} {i : ι} (hl : e.lookup i = some l) : Denotes K itemOf (m.erase l) (erase i e) := by
  obtain ⟨hmem, rfl⟩ := (h.lookup i l).mp hl
  obtain ⟨m, rfl⟩ := Multiset.exists_cons_of_mem hmem
  have hnodup := h.nodup
  rw [Multiset.map_cons, Multiset.nodup_cons] at hnodup
  rw [Multiset.erase_cons_head]
  refine ⟨fun i l' => ?_, hnodup.2⟩
  by_cases hi : i = K.ident (itemOf l)
  · subst hi
    rw [lookup_erase]
    refine ⟨nofun, fun hl' => ?_⟩
    exact absurd (Multiset.mem_map.mpr ⟨l', hl'⟩) hnodup.1
  · rw [lookup_erase_ne hi, h.lookup, Multiset.mem_cons]
    refine ⟨?_, fun hl' => ⟨.inr hl'.1, hl'.2⟩⟩
    rintro ⟨rfl | hl', hi'⟩
    · exact absurd hi'.symm hi
    · exact ⟨hl', hi'⟩

theorem erase_absent {i : ι} (hi : e.lookup i = none) : Denotes K itemOf m (Finmap.erase i e) := by
  have hsame : Finmap.erase i e = e := by
    refine ext_lookup fun i' => ?_
    by_cases heq : i' = i
    · rw [heq, lookup_erase, hi]
    · rw [lookup_erase_ne heq]
  rwa [hsame]

theorem finds {k : κ} {r : Result × Option Leaf}
    (hr : Finds (fun l => K.key (itemOf l)) m (K.key k) r) : r = e.get (K.ident k) := by
  unfold Entries.get
  rcases hr with ⟨rfl, hnone⟩ | ⟨l, hl, hsame, rfl⟩
  · have hlookup : e.lookup (K.ident k) = none := by
      refine (h.lookup_eq_none _).mpr fun l hl hi => hnone l hl ?_
      exact (K.same k (itemOf l)).mpr hi.symm
    rw [hlookup]
  · rw [(h.lookup (K.ident k) l).mpr ⟨hl, ((K.same k (itemOf l)).mp hsame).symm⟩]

end

end Denotes

variable {F : Multiset Nat} {s s' : State} {v v' : Nat → Node} {root : Option Nat}

/-- The nodes `v` show a trie for the map `e` from `root` on, in the cells `F`. -/
def Shows (K : Keying κ ι) (itemOf : Leaf → κ) (v : Nat → Node) (root : Option Nat) (F : Multiset Nat) (e : Entries ι) :
    Prop :=
  ∃ o : Option Tree, (match o with
      | none => root = none ∧ F = 0
      | some t => ∃ r, root = some r ∧ Rep v (rootTree t) (.branch movableRoot r) F) ∧
    (∀ t, o = some t → t.WF (fun l => K.key (itemOf l)) 0) ∧ Denotes K itemOf (leavesOf o) e

theorem Shows.get (h : Shows K itemOf v root F e) (k : κ) :
    getkey (fun l => K.key (itemOf l)) v root (K.key k) = .ok (e.get (K.ident k)) := by
  obtain ⟨o, hs, hwf, hd⟩ := h
  obtain ⟨r, hr, hfinds⟩ := getkey_spec (K.ok k) (v := v) (o := o) (r := root) (by
    cases o with
    | none => exact hs.1
    | some t =>
      obtain ⟨root, hroot, hrep⟩ := hs
      exact ⟨root, F, hroot, hrep⟩) hwf
  rw [hr, hd.finds hfinds]

/-- The trie stands for the map `e`. -/
structure Stores (K : Keying κ ι) (itemOf : Leaf → κ) (s : State) (e : Entries ι) : Prop where
  shows_ : ∃ F, Shows K itemOf s.cell s.rootRef F e ∧ Active s F
  leafCount : s.leafCount = e.keys.card

theorem Stores.trie (h : Stores K itemOf s e) : ∃ m, Trie (fun l => K.key (itemOf l)) s m ∧ Denotes K itemOf m e := by
  obtain ⟨⟨F, ⟨o, hs, hwf, hd⟩, ha⟩, hcount⟩ := h
  exact ⟨leavesOf o, ⟨⟨o, F, hs, ha, hwf, rfl⟩, hcount.trans hd.card⟩, hd⟩

theorem Trie.stores (h : Trie (fun l => K.key (itemOf l)) s m) (hd : Denotes K itemOf m e) : Stores K itemOf s e := by
  obtain ⟨⟨o, F, hs, ha, hwf, rfl⟩, hcount⟩ := h
  exact ⟨⟨F, ⟨o, hs, hwf, hd⟩, ha⟩, hcount.trans hd.card.symm⟩

theorem Stores.call (h : Stores K itemOf s e) (c : Call κ) :
    Runs (s.call (fun l => K.key (itemOf l)) (c.map K.key)) fun r =>
      r.1 = (e.call K.ident itemOf c).1 ∧ Stores K itemOf r.2 (e.call K.ident itemOf c).2 := by
  obtain ⟨m, htrie, hd⟩ := h.trie
  cases c with
  | insert l =>
    refine (htrie.insert (fun l => K.ok (itemOf l)) l).bind fun r hr => Checked.pure ?_
    simp only [Entries.call, Entries.insert]
    rcases hr with ⟨hres, hs, l', hl', hsame⟩ | ⟨hres, htrie', hnone⟩
    · rw [(hd.lookup (K.ident (itemOf l)) l').mpr ⟨hl', ((K.same (itemOf l) (itemOf l')).mp hsame).symm⟩]
      rw [hres, hs]
      exact ⟨rfl, h⟩
    · have hlookup : e.lookup (K.ident (itemOf l)) = none := by
        refine (hd.lookup_eq_none _).mpr fun l' hl' hi => hnone l' hl' ?_
        exact (K.same (itemOf l) (itemOf l')).mpr hi.symm
      rw [hlookup, hres]
      exact ⟨rfl, htrie'.stores (hd.insert hlookup)⟩
  | delete k =>
    refine (htrie.deletekey (K.ok k)).bind fun r hr => Checked.pure ?_
    obtain ⟨hfinds, htrie'⟩ := hr
    have hres := hd.finds hfinds
    refine ⟨congrArg some hres, ?_⟩
    unfold Entries.get at hres
    cases hl : e.lookup (K.ident k) with
    | none =>
      rw [hl, Prod.mk.injEq] at hres
      rw [hres.2] at htrie'
      exact htrie'.stores (hd.erase_absent hl)
    | some l =>
      rw [hl, Prod.mk.injEq] at hres
      rw [hres.2] at htrie'
      exact htrie'.stores (hd.erase hl)
  | get k =>
    obtain ⟨F, hs, -⟩ := h.shows_
    simp only [Call.map, State.call, hs.get k]
    exact ⟨rfl, h⟩
  | compact mode =>
    refine (htrie.qpCompact mode).bind fun s' hs' => Checked.pure ?_
    exact ⟨rfl, hs'.stores hd⟩

theorem Stores.calls (h : Stores K itemOf s e) (cs : List (Call κ)) :
    Runs (s.calls (fun l => K.key (itemOf l)) (cs.map (Call.map K.key))) fun r =>
      r.1 = (e.calls K.ident itemOf cs).1 ∧ Stores K itemOf r.2 (e.calls K.ident itemOf cs).2 := by
  induction cs generalizing s e with
  | nil => exact Checked.pure ⟨rfl, h⟩
  | cons c cs ih =>
    refine (h.call c).bind fun r hr => (ih hr.2).bind fun r' hr' => Checked.pure ⟨?_, hr'.2⟩
    rw [hr.1, hr'.1]
    rfl

theorem inv_init : Inv { Store.empty, Writer.init with } 0 where
  nodup := Multiset.nodup_zero
  live := fun x hx => absurd hx (Multiset.notMem_zero x)
  balance := nofun
  absent := fun _ _ => rfl
  mutable := fun _ => rfl
  bound := nofun
  arrays := nofun
  slot := nofun
  slot_inj := nofun
  slot_free := fun _ _ => rfl
  fresh := nofun
  size := fun _ => Nat.zero_le _
  used_eq := rfl
  free_eq := rfl
  discount := nofun

/-- Any calls on a new trie. -/
theorem qpCreate_calls (K : Keying κ ι) (itemOf : Leaf → κ) (cs : List (Call κ)) : ∃ s₀ s, qpCreate = .ok s₀ ∧
    s₀.calls (fun l => K.key (itemOf l)) (cs.map (Call.map K.key)) = .ok ((Entries.calls K.ident itemOf ∅ cs).1, s) ∧
    Stores K itemOf s (Entries.calls K.ident itemOf ∅ cs).2 := by
  obtain ⟨s₀, hs₀, hreset⟩ := inv_init.allocReset.exists_ok fun _ h => h
  have htrie : Trie (fun l => K.key (itemOf l)) s₀ 0 :=
    ⟨⟨none, 0, ⟨hreset.same.rootRef, rfl⟩, hreset.active, nofun, rfl⟩, hreset.same.leafCount⟩
  obtain ⟨⟨replies, s⟩, hs, hreplies, hstores⟩ := ((htrie.stores (Denotes.empty K itemOf)).calls cs).exists_ok fun _ h => h
  exact ⟨s₀, s, hs₀, hs.trans (congrArg (fun r => Except.ok (r, s)) hreplies), hstores⟩

end

/-- Any calls on a new trie return what they return on the map, and the trie counts the entries of the map. -/
theorem calls_refine_map (nameOf : Leaf → TrieName) (cs : List (Call TrieName)) : ∃ s₀ s, qpCreate = .ok s₀ ∧
    s₀.calls (leafKey nameOf) (cs.map nameCall) =
      .ok ((Entries.calls (fun name => Name.fold name.val) nameOf ∅ cs).1, s) ∧
    s.leafCount = (Entries.calls (fun name => Name.fold name.val) nameOf ∅ cs).2.keys.card := by
  obtain ⟨s₀, s, hs₀, hs, hstores⟩ := qpCreate_calls Keying.names nameOf cs
  exact ⟨s₀, s, hs₀, hs, hstores.leafCount⟩

end OqsBind.Dns.Qp
