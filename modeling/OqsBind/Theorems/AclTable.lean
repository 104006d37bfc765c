import OqsBind.Dns.Acl
import OqsBind.Theorems.RadixInsert

/-! Tables of address prefixes: what adding a prefix and merging two tables do to the data of each string of bits. -/

namespace OqsBind.Dns.Access
open Isc Isc.Radix List

/-- An address prefix that a list may have; no address stands for "any". -/
structure Net where
  addr : Option Netaddr
  bitlen : Nat
  valid : (netaddrToPrefix bitlen addr).valid

def Net.pfx (n : Net) : Prefix := netaddrToPrefix n.bitlen n.addr

/-- The address starts with the bits of the prefix. -/
def Net.contains (n : Net) (a : Netaddr) : Bool :=
  match n.addr, a with
  | none, _ => true
  | some (.inet o), .inet o' => (range n.bitlen).all fun i => bitTest o.toList i == bitTest o'.toList i
  | some (.inet6 o), .inet6 o' => (range n.bitlen).all fun i => bitTest o.toList i == bitTest o'.toList i
  | some _, _ => false

variable {octets : Bytes} {bits : Nat}

theorem length_padded (h : (bits + 7) / 8 ≤ octets.length) (hbits : bits ≤ 128) : (padded octets bits).length = 16 := by
  simp [padded]
  omega

theorem bitTest_padded {i : Nat} (h : (bits + 7) / 8 ≤ octets.length) (hi : i < bits) :
    bitTest (padded octets bits) i = bitTest octets i := by
  have hlt : i / 8 < (bits + 7) / 8 := by omega
  unfold bitTest padded
  rw [getD_append _ _ _ _ (by rw [length_take]; omega)]
  simp [getD, hlt]

theorem Net.ok (n : Net) : n.pfx.Ok := by
  obtain ⟨addr, bitlen, valid⟩ := n
  refine ⟨?_, valid⟩
  match addr with
  | none => rfl
  | some (.inet o) =>
    have hlen : bitlen ≤ 32 := of_decide_eq_true valid
    exact length_padded (by simp; omega) (hlen.trans (by decide))
  | some (.inet6 o) =>
    have hlen : bitlen ≤ 128 := of_decide_eq_true valid
    exact length_padded (by simp; omega) hlen

theorem hostPrefix_ok (a : Netaddr) : (hostPrefix a).Ok := by
  cases a with
  | inet o => exact Net.ok ⟨some (.inet o), 32, rfl⟩
  | inet6 o => exact Net.ok ⟨some (.inet6 o), 128, rfl⟩

theorem key_padded_iff (family : AddressFamily) {octets' : Bytes} {bits' : Nat}
    (h : (bits + 7) / 8 ≤ octets.length) (h' : (bits' + 7) / 8 ≤ octets'.length) (hle : bits ≤ bits') :
    (⟨family, bits, padded octets bits⟩ : Prefix).key <+: (⟨family, bits', padded octets' bits'⟩ : Prefix).key ↔
      (range bits).all (fun i => bitTest octets i == bitTest octets' i) = true := by
  rw [Prefix.key_prefix_iff]
  simp only [hle, true_and, all_eq_true, mem_range, beq_iff_eq]
  refine forall₂_congr fun i hi => ?_
  rw [bitTest_padded h hi, bitTest_padded h' (lt_of_lt_of_le hi hle)]

theorem Net.contains_iff (n : Net) (a : Netaddr) :
    n.contains a ↔ covers n.pfx (hostPrefix a).radixFamily ∧ n.pfx.key <+: (hostPrefix a).key := by
  obtain ⟨addr, bitlen, valid⟩ := n
  match addr, a with
  | none, a => simp [Net.contains, Net.pfx, netaddrToPrefix, covers, Prefix.key]
  | some (.inet o), .inet o' =>
    have hlen : bitlen ≤ 32 := of_decide_eq_true valid
    refine (key_padded_iff .inet (by simp; omega) (by simp) hlen).symm.trans ?_
    exact (and_iff_right (.inr rfl)).symm
  | some (.inet6 o), .inet6 o' =>
    have hlen : bitlen ≤ 128 := of_decide_eq_true valid
    refine (key_padded_iff .inet6 (by simp; omega) (by simp) hlen).symm.trans ?_
    exact (and_iff_right (.inr rfl)).symm
  | some (.inet o), .inet6 o' =>
    refine iff_of_false (by simp [Net.contains]) ?_
    rintro ⟨h | h, -⟩ <;> cases h
  | some (.inet6 o), .inet o' =>
    refine iff_of_false (by simp [Net.contains]) ?_
    rintro ⟨h | h, -⟩ <;> cases h

/-- Numbers and data are set together. -/
def Paired (s : Slot) : Prop := s.nodeNum = none ↔ s.data = none

/-- The prefix is for a family that has no data yet. -/
def free (p : Prefix) (slots : Slots) (i : Family) : Prop := covers p i ∧ (slots i).nodeNum = none

instance (p : Prefix) (slots : Slots) (i : Family) : Decidable (free p slots i) := inferInstanceAs (Decidable (_ ∧ _))

/-- The data of a prefix that is added. -/
def addedSlots (p : Prefix) (count : Nat) (pos : Bool) (slots : Slots) : Slots := fun i =>
  if free p slots i then ⟨some (count + 1), some pos⟩ else slots i

variable {tab : RadixTree}

theorem iptableAddprefix_spec (hwf : WF tab.head) (hpaired : ∀ k i, Paired (slotsAt tab.head k i)) (n : Net) (pos : Bool) :
    ∃ tab', iptableAddprefix tab n.addr n.bitlen pos = .ok tab' ∧ WF tab'.head ∧
      slotsAt tab'.head = Function.update (slotsAt tab.head) n.pfx.key
        (addedSlots n.pfx tab.numAddedNode pos (slotsAt tab.head n.pfx.key)) ∧
      tab'.numAddedNode =
        if free n.pfx (slotsAt tab.head n.pfx.key) .v4 ∨ free n.pfx (slotsAt tab.head n.pfx.key) .v6 then
          tab.numAddedNode + 1
        else tab.numAddedNode := by
  obtain ⟨z, hinsert, hslots, hstored⟩ := insert_spec hwf n.ok none
  have hadded : (fun i => if covers n.pfx i ∧ (z.node.slots i).data = none then
      { z.node.slots i with data := some pos } else z.node.slots i) =
      addedSlots n.pfx tab.numAddedNode pos (slotsAt tab.head n.pfx.key) := by
    funext i
    have hpair := hpaired n.pfx.key i
    simp only [hslots, numberOld, addedSlots]
    by_cases hfree : free n.pfx (slotsAt tab.head n.pfx.key) i
    · have hnum : (n.pfx.family = .unspec ∨ i = n.pfx.radixFamily) ∧
          (slotsAt tab.head n.pfx.key i).nodeNum = none := hfree
      rw [if_pos hnum, if_pos hfree, if_pos ⟨hfree.1, hpair.mp hfree.2⟩]
    · have hnum : ¬((n.pfx.family = .unspec ∨ i = n.pfx.radixFamily) ∧
          (slotsAt tab.head n.pfx.key i).nodeNum = none) := hfree
      rw [if_neg hnum, if_neg hfree, if_neg fun h => hfree ⟨h.1, hpair.mpr h.2⟩]
  refine ⟨⟨z.withSlots (addedSlots n.pfx tab.numAddedNode pos (slotsAt tab.head n.pfx.key)), _⟩, ?_, (hstored _).1,
    (hstored _).2, rfl⟩
  unfold iptableAddprefix
  rw [← hadded]
  simp only [Net.pfx] at hinsert
  simp only [hinsert]
  rfl

/-- The data of a node of another table: it is taken where there is none yet, and what was positive there becomes
    negative if the whole list is. -/
def mergedSlot (count : Nat) (pos : Bool) (s source : Slot) : Slot :=
  let taken : Slot := match s.nodeNum, source.nodeNum with
    | none, some num => ⟨some (count + num), source.data⟩
    | _, _ => s
  if !pos ∧ source.data = some true then { taken with data := some false } else taken

theorem mergeNode_spec (hwf : WF tab.head) (pos : Bool) {e : Prefix × Slots} (he : e.1.Ok) :
    ∃ tab', mergeNode pos tab e = .ok tab' ∧ WF tab'.head ∧ tab'.numAddedNode = tab.numAddedNode ∧
      slotsAt tab'.head = Function.update (slotsAt tab.head) e.1.key
        (fun i => mergedSlot tab.numAddedNode pos (slotsAt tab.head e.1.key i) (e.2 i)) := by
  obtain ⟨z, hinsert, hslots, hstored⟩ := insert_spec hwf he (some e.2)
  have hmerged : (fun i => if !pos ∧ (e.2 i).data = some true then { z.node.slots i with data := some false }
      else z.node.slots i) =
      fun i => mergedSlot tab.numAddedNode pos (slotsAt tab.head e.1.key i) (e.2 i) := by
    funext i
    rw [hslots]
    rfl
  refine ⟨⟨z.withSlots fun i => mergedSlot tab.numAddedNode pos (slotsAt tab.head e.1.key i) (e.2 i), _⟩, ?_,
    (hstored _).1, rfl, (hstored _).2⟩
  unfold mergeNode
  rw [hinsert, ← hmerged]
  rfl

theorem mergedSlot_empty (count : Nat) (pos : Bool) (s : Slot) : mergedSlot count pos s ⟨none, none⟩ = s := by
  unfold mergedSlot
  cases s.nodeNum <;> simp

/-- The data of the nodes of a walk, by their bits. -/
def slotsOf (nodes : List (Prefix × Slots)) (k : List Bool) : Slots :=
  ((nodes.find? fun e => e.1.key = k).map (·.2)).getD Slots.empty

theorem foldlM_mergeNode_spec (hwf : WF tab.head) (pos : Bool) {nodes : List (Prefix × Slots)}
    (hok : ∀ e ∈ nodes, e.1.Ok) (hdistinct : nodes.Pairwise fun a b => a.1.key ≠ b.1.key) :
    ∃ tab', nodes.foldlM (mergeNode pos) tab = .ok tab' ∧ WF tab'.head ∧ tab'.numAddedNode = tab.numAddedNode ∧
      ∀ k i, slotsAt tab'.head k i = mergedSlot tab.numAddedNode pos (slotsAt tab.head k i) (slotsOf nodes k i) := by
  induction nodes generalizing tab with
  | nil => exact ⟨tab, rfl, hwf, rfl, fun k i => (mergedSlot_empty ..).symm⟩
  | cons e nodes ih =>
    obtain ⟨hne, hdistinct⟩ := pairwise_cons.mp hdistinct
    obtain ⟨tab1, hnode, hwf1, hcount1, hslots1⟩ := mergeNode_spec hwf pos (hok e mem_cons_self)
    obtain ⟨tab', hfold, hwf', hcount', hslots'⟩ := ih hwf1 (fun e he => hok e (mem_cons_of_mem _ he)) hdistinct
    refine ⟨tab', ?_, hwf', hcount'.trans hcount1, fun k i => ?_⟩
    · simp only [foldlM_cons, hnode]
      exact hfold
    · rw [hslots', hcount1, hslots1]
      by_cases hk : e.1.key = k
      · have hrest : slotsOf nodes k = Slots.empty := by
          unfold slotsOf
          rw [find?_eq_none.mpr fun e' he' => by simpa [← hk] using (hne e' he').symm]
          rfl
        rw [hrest, Slots.empty, mergedSlot_empty, ← hk]
        simp [slotsOf]
      · rw [Function.update_of_ne (Ne.symm hk)]
        simp [slotsOf, hk]

theorem foldl_max_le {α : Type} (f : α → Nat) (l : List α) (start m : Nat) :
    l.foldl (fun m x => max m (f x)) start ≤ m ↔ start ≤ m ∧ ∀ x ∈ l, f x ≤ m := by
  induction l generalizing start with
  | nil => simp
  | cons x l ih => simp [ih, and_assoc]

theorem maxNode_le {t : Tree} (hwf : WF t) (m : Nat) :
    maxNode (walk t) ≤ m ↔ ∀ k i num, (slotsAt t k i).nodeNum = some num → num ≤ m := by
  have hfold : maxNode (walk t) = (walk t).foldl (fun m e =>
      max m (max ((e.2 .v4).nodeNum.getD 0) ((e.2 .v6).nodeNum.getD 0))) 0 := by
    simp [maxNode]
  rw [hfold, foldl_max_le]
  simp only [Nat.zero_le, true_and, Nat.max_le]
  constructor
  · intro h k i num hnum
    obtain ⟨e, he, rfl⟩ := mem_of_nodeNum hnum
    rw [slotsAt_of_mem hwf he] at hnum
    cases i with
    | v4 => simpa [hnum] using (h e he).1
    | v6 => simpa [hnum] using (h e he).2
  · intro h e he
    have hbound : ∀ i, (e.2 i).nodeNum.getD 0 ≤ m := by
      intro i
      cases hnum : (e.2 i).nodeNum with
      | none => exact Nat.zero_le m
      | some num => exact h e.1.key i num (by rw [slotsAt_of_mem hwf he, hnum])
    exact ⟨hbound .v4, hbound .v6⟩

theorem iptableMerge_spec {source : RadixTree} (hwf : WF tab.head) (hsource : WF source.head) (pos : Bool) :
    ∃ tab', iptableMerge tab source pos = .ok tab' ∧ WF tab'.head ∧
      tab'.numAddedNode = tab.numAddedNode + maxNode (walk source.head) ∧
      ∀ k i, slotsAt tab'.head k i =
        mergedSlot tab.numAddedNode pos (slotsAt tab.head k i) (slotsAt source.head k i) := by
  obtain ⟨tab', hfold, hwf', hcount, hslots⟩ :=
    foldlM_mergeNode_spec hwf pos (fun e he => ok_of_mem hsource he) (walk_pairwise hsource)
  refine ⟨{ tab' with numAddedNode := tab'.numAddedNode + maxNode (walk source.head) }, ?_, hwf', ?_, hslots⟩
  · unfold iptableMerge
    rw [hfold]
    rfl
  · exact congrArg (· + maxNode (walk source.head)) hcount

end OqsBind.Dns.Access
