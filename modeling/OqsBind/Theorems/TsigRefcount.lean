import OqsBind.Dns.TsigKeyring
import OqsBind.Lib.Checked

/-! Reference counts of the keys of a ring, under any interleaving of threads. A find does not hold a reference to
    the key between its first locked region and its later steps, so the counts are right for exactly those runs in
    which no other thread takes the key away in between. -/

namespace OqsBind.Dns.Tsig
open Isc List Function Keyring Except

variable {s s' : Keyring} {k : Nat}

/-- The keys in the hash map. -/
def Keyring.mapped (s : Keyring) : List Nat := s.keys.map Prod.snd

/-- Each key's count is that of its references, and the ring gives up its reference to a key once. -/
structure Balanced (s : Keyring) : Prop where
  counted : ∀ k, (s.cells k).references =
    (if k ∈ s.mapped then 1 else 0) + (if k ∈ s.lru then 1 else 0) + s.held k
  removed_nodup : s.removed.Nodup
  removed_iff : ∀ k, (s.cells k).ring = true → (k ∈ s.removed ↔ k ∉ s.mapped)

structure Inv (s : Keyring) : Prop extends Balanced s where
  named : ∀ e ∈ s.keys, e.1 = hashKey (s.cells e.2).name
  nodup : (s.keys.map Prod.fst).Nodup
  lru_nodup : s.lru.Nodup
  lru_mapped : ∀ k ∈ s.lru, k ∈ s.mapped ∧ (s.cells k).generated = true
  mapped_ring : ∀ k ∈ s.mapped, (s.cells k).ring = true
  removed_ring : ∀ k ∈ s.removed, (s.cells k).ring = true
  fresh : ∀ k, s.next ≤ k → (s.cells k).references = 0 ∧ (s.cells k).ring = false

/-- What the rest of a find needs: the key is still in the hash map, or, unless it is to be removed, held by a caller. -/
def Needs (s : Keyring) : Local → Prop
  | .idle => True
  | .expired k => k ∈ s.mapped
  | .check k | .adjust k | .ref k => k ∈ s.mapped ∨ 0 < s.held k

/-- What a step needs. -/
def Met (s : Keyring) : Event → Prop
  | .resume t => Needs s (s.threads t)
  | .delete k => 0 < s.held k ∧ (s.cells k).ring = true → k ∈ s.mapped
  | _ => True

/-! ### One key -/

/-- What `Inv` says of one key. -/
structure At (s : Keyring) (k : Nat) : Prop where
  counted : (s.cells k).references = (if k ∈ s.mapped then 1 else 0) + (if k ∈ s.lru then 1 else 0) + s.held k
  removed_iff : (s.cells k).ring = true → (k ∈ s.removed ↔ k ∉ s.mapped)
  named : ∀ e ∈ s.keys, e.2 = k → e.1 = hashKey (s.cells k).name
  lru_mapped : k ∈ s.lru → k ∈ s.mapped ∧ (s.cells k).generated = true
  mapped_ring : k ∈ s.mapped → (s.cells k).ring = true
  removed_ring : k ∈ s.removed → (s.cells k).ring = true
  fresh : s.next ≤ k → (s.cells k).references = 0 ∧ (s.cells k).ring = false

theorem Inv.at (h : Inv s) (k : Nat) : At s k :=
  ⟨h.counted k, h.removed_iff k, fun e he hk => hk ▸ h.named e he, h.lru_mapped k, h.mapped_ring k, h.removed_ring k, h.fresh k⟩

/-- What a step leaves as it was for key `i`. -/
structure Same (s s' : Keyring) (i : Nat) : Prop where
  cells : s'.cells i = s.cells i
  mapped : i ∈ s'.mapped ↔ i ∈ s.mapped
  lru : i ∈ s'.lru ↔ i ∈ s.lru
  held : s'.held i = s.held i
  removed : i ∈ s'.removed ↔ i ∈ s.removed

/-- A step that changes one key. -/
theorem Inv.change (h : Inv s) (hother : ∀ i, i ≠ k → Same s s' i) (hkeys : ∀ e ∈ s'.keys, e.2 ≠ k → e ∈ s.keys)
    (hnext : s.next ≤ s'.next) (hremoved : s'.removed.Nodup) (hnodup : (s'.keys.map Prod.fst).Nodup) (hlru : s'.lru.Nodup)
    (hk : At s' k) : Inv s' := by
  have hat : ∀ i, At s' i := by
    intro i
    by_cases hi : i = k
    · exact hi ▸ hk
    · have ho := hother i hi
      have hold := h.at i
      constructor <;> simp only [ho.cells, ho.mapped, ho.lru, ho.held, ho.removed]
      · exact hold.counted
      · exact hold.removed_iff
      · exact fun e he hei => hold.named e (hkeys e he (hei ▸ hi)) hei
      · exact hold.lru_mapped
      · exact hold.mapped_ring
      · exact hold.removed_ring
      · exact fun hle => hold.fresh (hnext.trans hle)
  exact ⟨⟨fun i => (hat i).counted, hremoved, fun i => (hat i).removed_iff⟩, fun e he => (hat e.2).named e he rfl, hnodup, hlru,
    fun i => (hat i).lru_mapped, fun i => (hat i).mapped_ring, fun i => (hat i).removed_ring, fun i => (hat i).fresh⟩

/-! ### The steps -/

theorem touch_ok (h : (s.cells k).references ≠ 0) : s.touch k = .ok () := if_neg h

theorem touch_error (h : (s.cells k).references = 0) : s.touch k = .error .useAfterFree := if_pos h

/-- The ring after `rm_lru` and `rm_hashmap`. -/
def removedState (s : Keyring) (k : Nat) : Keyring :=
  { s with
    cells := update s.cells k
      { s.cells k with references := (s.cells k).references - (if k ∈ s.lru then 1 else 0) - 1 }
    keys := s.keys.filter fun e => e.1 ≠ hashKey (s.cells k).name
    lru := s.lru.erase k
    generated := if k ∈ s.lru then s.generated - 1 else s.generated
    removed := k :: s.removed }

theorem remove_eq (hgen : k ∈ s.lru → (s.cells k).generated = true)
    (hcount : (if k ∈ s.lru then 1 else 0) < (s.cells k).references) : s.remove k = .ok (removedState s k) := by
  have hne : (s.cells k).references ≠ 0 := Nat.ne_of_gt (Nat.zero_lt_of_lt hcount)
  unfold remove rmLru
  by_cases hk : k ∈ s.lru
  · rw [if_pos hk] at hcount
    simp only [hk, hgen hk, and_self, if_true, unref, rmHashmap, touch, setCell,
      update_self, bind, Except.bind, pure, Except.pure, if_neg hne]
    have hne' : (s.cells k).references - 1 ≠ 0 := Nat.sub_ne_zero_of_lt hcount
    simp only [if_neg hne', removedState, hk, if_true, update_idem]
  · simp only [hk, and_false, if_false, unref, rmHashmap, touch, setCell, bind,
      Except.bind, pure, Except.pure, if_neg hne, removedState, Nat.sub_zero, erase_of_not_mem hk]

section
variable (h : Inv s)
include h

theorem Inv.mapped_removed (hk : k ∈ s.mapped) (i : Nat) : i ∈ (removedState s k).mapped ↔ i ∈ s.mapped ∧ i ≠ k := by
  have hentry : ∀ e ∈ s.keys, e.1 = hashKey (s.cells k).name → e.2 = k := by
    obtain ⟨e', he', rfl⟩ := mem_map.mp hk
    intro e he hname
    rw [← h.named e' he'] at hname
    rw [inj_on_of_nodup_map h.nodup he he' hname]
  simp only [mapped, removedState, mem_map, mem_filter, decide_eq_true_eq]
  constructor
  · rintro ⟨e, ⟨he, hname⟩, rfl⟩
    refine ⟨⟨e, he, rfl⟩, fun heq => hname ?_⟩
    rw [h.named e he, heq]
  · rintro ⟨⟨e, he, rfl⟩, hne⟩
    exact ⟨e, ⟨he, fun hname => hne (hentry e he hname)⟩, rfl⟩

theorem Inv.lt_next (hk : (s.cells k).references ≠ 0) : k < s.next := by
  by_contra hle
  exact hk (h.fresh k (Nat.not_lt.mp hle)).1

/-- A key is there as long as the hash map or a caller has it: what is in the LRU list is in the map. -/
theorem Inv.referenced (k : Nat) : (s.cells k).references ≠ 0 ↔ k ∈ s.mapped ∨ 0 < s.held k := by
  rw [h.counted k]
  have hlru := h.lru_mapped k
  by_cases hmapped : k ∈ s.mapped
  · simp [hmapped]
  · simp [hmapped, show k ∉ s.lru from fun hin => hmapped (hlru hin).1, Nat.pos_iff_ne_zero]

theorem Inv.removed (hk : k ∈ s.mapped) : Inv (removedState s k) := by
  have hring := h.mapped_ring k hk
  have hmap : k ∉ (removedState s k).mapped := fun hmem => ((h.mapped_removed hk k).mp hmem).2 rfl
  have hlru : k ∉ (removedState s k).lru := fun hmem => h.lru_nodup.not_mem_erase hmem
  have hself : (removedState s k).cells k = { s.cells k with
      references := (s.cells k).references - (if k ∈ s.lru then 1 else 0) - 1 } := update_self ..
  refine h.change (k := k) (fun i hi => ⟨update_of_ne hi .., ?_, mem_erase_of_ne hi, rfl, ?_⟩)
    (fun e he _ => (mem_filter.mp he).1) le_rfl ?_ (h.nodup.sublist (Sublist.map _ filter_sublist)) (h.lru_nodup.erase k) ?_
  · exact (h.mapped_removed hk i).trans (and_iff_left hi)
  · exact mem_cons.trans (or_iff_right hi)
  · exact nodup_cons.mpr ⟨fun hmem => (h.removed_iff k hring).mp hmem hk, h.removed_nodup⟩
  · constructor
    · have hcount := h.counted k
      rw [if_pos hk] at hcount
      rw [if_neg hmap, if_neg hlru, hself]
      show (s.cells k).references - (if k ∈ s.lru then 1 else 0) - 1 = 0 + 0 + s.held k
      omega
    · exact fun _ => iff_of_true mem_cons_self hmap
    · exact fun e he hek => absurd (mem_map.mpr ⟨e, he, hek⟩) hmap
    · exact fun hmem => absurd hmem hlru
    · exact fun hmem => absurd hmem hmap
    · exact fun _ => hself ▸ hring
    · exact fun hle => absurd (h.lt_next ((h.referenced k).mpr (.inl hk))) (Nat.not_lt.mpr hle)

theorem Inv.remove (hk : k ∈ s.mapped) : ∃ s', s.remove k = .ok s' ∧ Inv s' := by
  refine ⟨_, remove_eq (fun hl => (h.lru_mapped k hl).2) ?_, h.removed hk⟩
  rw [h.counted k, if_pos hk]
  omega

/-- Removing a key that is no longer in the hash map takes a reference that the ring does not have. -/
theorem Inv.remove_absent (hk : k ∉ s.mapped) (hs : s.remove k = .ok s') : ¬Balanced s' := by
  have hlru : k ∉ s.lru := fun hl => hk (h.lru_mapped k hl).1
  have hcount := h.counted k
  rw [if_neg hk, if_neg hlru] at hcount
  by_cases hzero : (s.cells k).references = 0
  · unfold Keyring.remove Keyring.rmLru at hs
    rw [touch_error hzero] at hs
    cases hs
  · have hpos : (if k ∈ s.lru then 1 else 0) < (s.cells k).references := by
      rw [if_neg hlru]
      exact Nat.pos_of_ne_zero hzero
    rw [remove_eq (fun hl => absurd hl hlru) hpos] at hs
    cases hs
    intro hb
    have hcount' := hb.counted k
    simp only [removedState, update_self, if_neg hlru] at hcount'
    omega

theorem Inv.recount {refs held : Nat} (hlt : k < s.next)
    (hrefs : refs = (if k ∈ s.mapped then 1 else 0) + (if k ∈ s.lru then 1 else 0) + held) :
    Inv { s with
      cells := update s.cells k { s.cells k with references := refs }
      held := update s.held k held } := by
  refine h.change (k := k) (fun i hi => ⟨update_of_ne hi .., Iff.rfl, Iff.rfl, update_of_ne hi .., Iff.rfl⟩) (fun e he _ => he)
    le_rfl h.removed_nodup h.nodup h.lru_nodup ?_
  have hold := h.at k
  constructor <;> simp only [update_self]
  · exact hrefs
  · exact hold.removed_iff
  · exact hold.named
  · exact hold.lru_mapped
  · exact hold.mapped_ring
  · exact hold.removed_ring
  · exact fun hle => absurd hlt (Nat.not_lt.mpr hle)

theorem Inv.setThread (t : Nat) (l : Local) : Inv (s.setThread t l) := { h with }

theorem Inv.find (t : Nat) (name : Name) (algorithm : Option Name) (now : UInt32) :
    ∃ s', s.find t name algorithm now = .ok s' ∧ Inv s' := by
  unfold Keyring.find
  cases hl : s.keys.lookup (hashKey name) with
  | none => exact ⟨s, rfl, h⟩
  | some k =>
    have hk : k ∈ s.mapped := by
      obtain ⟨l1, l2, hkeys, -⟩ := lookup_eq_some_iff.mp hl
      exact mem_map.mpr ⟨(hashKey name, k), by simp [hkeys], rfl⟩
    simp only [touch_ok ((h.referenced k).mpr (.inl hk)), bind, bind, pure, pure]
    split_ifs
    · exact ⟨s, rfl, h⟩
    · exact ⟨_, rfl, h.setThread t _⟩
    · exact ⟨_, rfl, h.setThread t _⟩

theorem Inv.adjustLru (hk : (s.cells k).references ≠ 0) : ∃ s', s.adjustLru k = .ok s' ∧ Inv s' := by
  unfold Keyring.adjustLru
  simp only [touch_ok hk, bind, bind, pure, pure]
  split_ifs with hmove
  · have hperm : (s.lru.erase k ++ [k]).Perm s.lru :=
      (perm_append_singleton k _).trans (perm_cons_erase hmove.1).symm
    exact ⟨_, rfl,
      { h with
        counted := fun i => by
          rw [h.counted i]
          simp only [hperm.mem_iff]
          rfl
        lru_nodup := hperm.nodup_iff.mpr h.lru_nodup
        lru_mapped := fun i hi => h.lru_mapped i (hperm.mem_iff.mp hi) }⟩
  · exact ⟨s, rfl, h⟩

theorem Inv.resume (t : Nat) (hmet : Needs s (s.threads t)) : ∃ s', s.resume t = .ok s' ∧ Inv s' := by
  unfold Keyring.resume
  cases hl : s.threads t with
  | idle => exact ⟨s, rfl, h⟩
  | expired k =>
    rw [hl] at hmet
    obtain ⟨s1, hs1, h1⟩ := h.remove hmet
    simp only [hs1, bind, bind, pure, pure]
    exact ⟨_, rfl, h1.setThread t _⟩
  | check k =>
    rw [hl] at hmet
    replace hmet := (h.referenced k).mpr hmet
    simp only [touch_ok hmet, bind, bind, pure, pure]
    exact ⟨_, rfl, h.setThread t _⟩
  | adjust k =>
    rw [hl] at hmet
    replace hmet := (h.referenced k).mpr hmet
    obtain ⟨s1, hs1, h1⟩ := h.adjustLru hmet
    simp only [hs1, bind, bind, pure, pure]
    exact ⟨_, rfl, h1.setThread t _⟩
  | ref k =>
    rw [hl] at hmet
    replace hmet := (h.referenced k).mpr hmet
    simp only [ref, touch_ok hmet, bind, bind, pure, pure]
    have hcount : (s.cells k).references + 1 =
        (if k ∈ s.mapped then 1 else 0) + (if k ∈ s.lru then 1 else 0) + (s.held k + 1) := by
      rw [h.counted k]
      rfl
    exact ⟨_, rfl, (h.recount (h.lt_next hmet) hcount).setThread t .idle⟩

/-- A step that does not find what it needs touches a destroyed key, or leaves a wrong count. -/
theorem Inv.resume_not_met (t : Nat) (hmet : ¬Needs s (s.threads t)) (hs : s.resume t = .ok s') : ¬Balanced s' := by
  unfold Keyring.resume at hs
  cases hl : s.threads t with
  | idle =>
    rw [hl] at hmet
    exact absurd trivial hmet
  | expired k =>
    rw [hl] at hmet hs
    obtain ⟨s1, hr, hs⟩ := bind_ok hs
    cases hs
    exact fun hb => h.remove_absent hmet hr { hb with }
  | check k | adjust k | ref k =>
    rw [hl] at hmet hs
    have hnone := not_not.mp (mt (h.referenced k).mp hmet)
    simp only [Keyring.adjustLru, Keyring.ref, touch_error hnone, bind, Except.bind] at hs
    cases hs

theorem Inv.detach (hk : 0 < s.held k) : ∃ s', s.detach k = .ok s' ∧ Inv s' := by
  have halive := (h.referenced k).mpr (.inr hk)
  unfold Keyring.detach Keyring.unref
  simp only [touch_ok halive, bind, bind, pure, pure]
  refine ⟨_, rfl, h.recount (h.lt_next halive) ?_⟩
  rw [h.counted k]
  show _ = _ + _ + (s.held k - 1)
  omega

theorem Inv.create (key : TsigKey) : Inv (s.create key) := by
  obtain ⟨hzero, hring⟩ := h.fresh s.next le_rfl
  have hcount := h.counted s.next
  have hmap : s.next ∉ s.mapped := fun hmem => by
    rw [if_pos hmem] at hcount
    omega
  refine h.change (k := s.next) (fun i hi => ⟨update_of_ne hi .., Iff.rfl, Iff.rfl, update_of_ne hi .., Iff.rfl⟩)
    (fun e he _ => he) (Nat.le_succ _) h.removed_nodup h.nodup h.lru_nodup ?_
  constructor <;> simp only [Keyring.create, setCell, update_self]
  · show 1 = (if s.next ∈ s.mapped then 1 else 0) + (if s.next ∈ s.lru then 1 else 0) + (s.held s.next + 1)
    omega
  · exact nofun
  · exact fun e he hek => absurd (mem_map.mpr ⟨e, he, hek⟩) hmap
  · exact fun hmem => absurd (h.lru_mapped s.next hmem).1 hmap
  · exact fun hmem => absurd hmem hmap
  · exact fun hmem => nomatch hring.symm.trans (h.removed_ring s.next hmem)
  · omega

end

/-! ### Adding keys -/

/-- The ring after a key with a new name has come into the hash map. -/
def addedState (s : Keyring) (k : Nat) : Keyring :=
  { s with
    cells := update s.cells k { s.cells k with references := (s.cells k).references + 1, ring := true }
    keys := (hashKey (s.cells k).name, k) :: s.keys }

theorem Inv.added (h : Inv s) (hk : 0 < s.held k) (hring : (s.cells k).ring = false)
    (hname : s.keys.lookup (hashKey (s.cells k).name) = none) : Inv (addedState s k) := by
  have hmap : k ∉ s.mapped := fun hmem => by
    rw [h.mapped_ring k hmem] at hring
    cases hring
  have hrem : k ∉ s.removed := fun hmem => by
    rw [h.removed_ring k hmem] at hring
    cases hring
  refine h.change (k := k) (fun i hi => ⟨update_of_ne hi .., mem_cons.trans (or_iff_right hi), Iff.rfl, rfl, Iff.rfl⟩)
    (fun e he hek => (mem_cons.mp he).resolve_left fun heq => hek (heq ▸ rfl)) le_rfl h.removed_nodup ?_ h.lru_nodup ?_
  · refine nodup_cons.mpr ⟨fun hmem => ?_, h.nodup⟩
    obtain ⟨e, he, heq⟩ := mem_map.mp hmem
    have hne := lookup_eq_none_iff.mp hname e he
    rw [heq] at hne
    simp at hne
  · have hin : k ∈ (addedState s k).mapped := mem_cons_self
    have hself : (addedState s k).cells k = { s.cells k with references := (s.cells k).references + 1, ring := true } :=
      update_self ..
    constructor
    · have hcount := h.counted k
      rw [if_neg hmap] at hcount
      rw [if_pos hin, hself]
      show (s.cells k).references + 1 = 1 + (if k ∈ s.lru then 1 else 0) + s.held k
      omega
    · exact fun _ => iff_of_false hrem (not_not.mpr hin)
    · intro e he hek
      rw [hself]
      rcases mem_cons.mp he with rfl | he
      · rfl
      · exact absurd (mem_map.mpr ⟨e, he, hek⟩) hmap
    · exact fun hmem => absurd (h.lru_mapped k hmem).1 hmap
    · exact fun _ => hself ▸ rfl
    · exact fun _ => hself ▸ rfl
    · exact fun hle => absurd (h.lt_next ((h.referenced k).mpr (.inr hk))) (Nat.not_lt.mpr hle)

/-- The ring after a generated key has come to the end of the LRU list. -/
def listedState (s : Keyring) (k : Nat) : Keyring :=
  { s with
    cells := update s.cells k { s.cells k with references := (s.cells k).references + 1 }
    lru := s.lru ++ [k]
    generated := s.generated + 1 }

theorem Inv.listed (h : Inv s) (hk : k ∈ s.mapped) (hlru : k ∉ s.lru) (hgen : (s.cells k).generated = true) :
    Inv (listedState s k) := by
  have hmem : ∀ i, i ∈ (listedState s k).lru ↔ i = k ∨ i ∈ s.lru := fun i => by
    rw [listedState, mem_append, mem_singleton, or_comm]
  refine h.change (k := k) (fun i hi => ⟨update_of_ne hi .., Iff.rfl, (hmem i).trans (or_iff_right hi), rfl, Iff.rfl⟩)
    (fun e he _ => he) le_rfl h.removed_nodup h.nodup ?_ ?_
  · refine nodup_append.mpr ⟨h.lru_nodup, nodup_singleton k, fun i hi j hj heq => hlru ?_⟩
    rwa [← mem_singleton.mp hj, ← heq]
  · have hself : (listedState s k).cells k = { s.cells k with references := (s.cells k).references + 1 } := update_self ..
    have hold := h.at k
    constructor <;> simp only [hself, hmem, true_or, if_true]
    · have hcount := hold.counted
      rw [if_neg hlru] at hcount
      show _ = (if k ∈ s.mapped then 1 else 0) + 1 + s.held k
      omega
    · exact hold.removed_iff
    · exact hold.named
    · exact fun _ => ⟨hk, hgen⟩
    · exact hold.mapped_ring
    · exact hold.removed_ring
    · exact fun hle => absurd (h.lt_next ((h.referenced k).mpr (.inl hk))) (Nat.not_lt.mpr hle)

theorem Inv.add (h : Inv s) (hk : 0 < s.held k) (hring : (s.cells k).ring = false) : ∃ s', s.add k = .ok s' ∧ Inv s' := by
  have halive := (h.referenced k).mpr (.inr hk)
  unfold Keyring.add
  cases hname : s.keys.lookup (hashKey (s.cells k).name) with
  | some i =>
    simp only [touch_ok halive, bind, Except.bind, pure, Except.pure]
    exact ⟨s, rfl, h⟩
  | none =>
    have hlru : k ∉ s.lru := fun hmem => by
      rw [h.mapped_ring k (h.lru_mapped k hmem).1] at hring
      cases hring
    have h1 := h.added hk hring hname
    have hmap : k ∈ (addedState s k).mapped := mem_cons_self
    simp only [ref, setCell, touch, if_neg halive, update_self,
      update_idem, bind, Except.bind, pure, Except.pure, Nat.add_one_ne_zero, if_false]
    by_cases hgen : (s.cells k).generated = true
    · have h2 := h1.listed hmap hlru (by simpa [addedState] using hgen)
      have hstate : listedState (addedState s k) k =
          { s with
            cells := update s.cells k
              { s.cells k with references := (s.cells k).references + 1 + 1, ring := true }
            keys := (hashKey (s.cells k).name, k) :: s.keys
            lru := s.lru ++ [k]
            generated := s.generated + 1 } := by
        simp [listedState, addedState]
      rw [hstate] at h2
      rw [if_pos hgen]
      split_ifs
      · -- the quota is exceeded: the head of the list, which is not empty now, is removed
        split
        · exact ⟨_, rfl, h2⟩
        · rename_i oldest rest hhead
          have hold : oldest ∈ s.lru ++ [k] := by
            simp [hhead]
          exact h2.remove (h2.lru_mapped oldest hold).1
      · exact ⟨_, rfl, h2⟩
    · rw [if_neg hgen]
      exact ⟨_, rfl, h1⟩

/-! ### Runs -/

theorem Inv.guarded (h : Inv s) {c : Prop} [Decidable c] {x : Except Fault Keyring} (hx : c → ∃ s', x = .ok s' ∧ Inv s') :
    ∃ s', (if c then x else .ok s) = .ok s' ∧ Inv s' := by
  split_ifs with hc
  · exact hx hc
  · exact ⟨s, rfl, h⟩

theorem Inv.event (h : Inv s) {e : Event} (hmet : Met s e) : ∃ s', s.event e = .ok s' ∧ Inv s' := by
  cases e with
  | create key => exact ⟨_, rfl, h.create key⟩
  | add k => exact h.guarded fun hcall => h.add hcall.1 (Bool.eq_false_iff.mpr hcall.2)
  | find t name algorithm now => exact h.guarded fun _ => h.find t name algorithm now
  | resume t => exact h.resume t hmet
  | delete k => exact h.guarded fun hcall => h.remove (hmet hcall)
  | detach k => exact h.guarded fun hcall => h.detach hcall

theorem Inv.event_not_met (h : Inv s) {e : Event} (hmet : ¬Met s e) (hs : s.event e = .ok s') : ¬Balanced s' := by
  cases e with
  | create | add | find | detach => exact absurd trivial hmet
  | resume t => exact h.resume_not_met t hmet hs
  | delete k =>
    rw [Met, Classical.not_imp] at hmet
    rw [Keyring.event, if_pos hmet.1] at hs
    exact h.remove_absent hmet.2 hs

theorem inv_empty (blank : TsigKey) : Inv (empty blank) :=
  ⟨⟨fun _ => rfl, nodup_nil, nofun⟩, nofun, nodup_nil, nodup_nil, nofun, nofun, nofun, fun _ _ => ⟨rfl, rfl⟩⟩

/-- No step touches a destroyed key, and the counts are right all the time. -/
def Sound (s : Keyring) : List Event → Prop
  | [] => Balanced s
  | e :: es => Balanced s ∧ ∃ s', s.event e = .ok s' ∧ Sound s' es

/-- Each step finds what it needs. -/
def AllMet (s : Keyring) : List Event → Prop
  | [] => True
  | e :: es => Met s e ∧ ∀ s', s.event e = .ok s' → AllMet s' es

theorem Sound.balanced {es : List Event} (h : Sound s es) : Balanced s := by
  cases es with
  | nil => exact h
  | cons e es => exact h.1

theorem Inv.sound_iff (h : Inv s) (es : List Event) : Sound s es ↔ AllMet s es := by
  induction es generalizing s with
  | nil => exact iff_of_true h.toBalanced trivial
  | cons e es ih =>
    constructor
    · rintro ⟨-, s', hs', hsound⟩
      by_cases hmet : Met s e
      · refine ⟨hmet, fun s'' hs'' => ?_⟩
        obtain ⟨s1, hs1, h1⟩ := h.event hmet
        rw [hs'] at hs1 hs''
        cases hs1
        cases hs''
        exact (ih h1).mp hsound
      · exact absurd hsound.balanced (h.event_not_met hmet hs')
    · rintro ⟨hmet, hrest⟩
      obtain ⟨s', hs', h'⟩ := h.event hmet
      exact ⟨h.toBalanced, s', hs', (ih h').mpr (hrest s' hs')⟩

/-- The counts are right, and no destroyed key is touched, in exactly the runs in which each step of a find that has
    left its first locked region finds its key still there, and each removal finds it in the hash map. -/
theorem refcount_iff (blank : TsigKey) (es : List Event) :
    Sound (empty blank) es ↔ AllMet (empty blank) es :=
  (inv_empty blank).sound_iff es

/-- A key `a.` that expires at time 1. -/
def shortLived : TsigKey where
  name := Name.tld 0x61
  algorithm := Name.tld 0x62
  generated := false
  inception := 0
  expire := 1

/-- One thread finds the key; before it takes its reference, another finds it, deletes it, and detaches it. -/
def lateReference : List Event :=
  [.create shortLived, .add 0, .detach 0, .find 1 (Name.tld 0x61) none 0, .find 2 (Name.tld 0x61) none 0, .resume 2,
    .resume 2, .delete 0, .detach 0, .resume 1]

/-- Two threads find the key expired, and both remove it. -/
def removedTwice : List Event :=
  [.create shortLived, .add 0, .find 1 (Name.tld 0x61) none 2, .find 2 (Name.tld 0x61) none 2, .resume 1, .resume 2]

/-- The first run ends with a destroyed key being touched; the second with a count of zero for a key to which its
    creator has a reference. -/
theorem races_not_sound : ¬Sound (empty shortLived) lateReference ∧
    ¬Sound (empty shortLived) removedTwice := by
  have hstart := inv_empty shortLived
  refine ⟨fun h => ?_, fun h => ?_⟩
  · have hmet := (hstart.sound_iff lateReference).mp h
    have hlast := ((((((((hmet.2 _ rfl).2 _ rfl).2 _ rfl).2 _ rfl).2 _ rfl).2 _ rfl).2 _ rfl).2 _ rfl).2 _ rfl
    exact hlast.1.elim not_mem_nil (Nat.lt_irrefl 0)
  · have hmet := (hstart.sound_iff removedTwice).mp h
    have hlast := ((((hmet.2 _ rfl).2 _ rfl).2 _ rfl).2 _ rfl).2 _ rfl
    exact absurd hlast.1 not_mem_nil

end OqsBind.Dns.Tsig
