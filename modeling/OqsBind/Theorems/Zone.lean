import OqsBind.Dns.TypeBitmap
import OqsBind.Theorems.NameParts

/-! Signed zones: the names at or below an apex with the types of their data. What is below a delegation or a DNAME is
    not authoritative; a name exists if it is on the way to one of the zone. -/

namespace OqsBind.Dns
open Isc Lib

/-- A name of a zone with the types of its data. -/
structure ZoneNode where
  name : Name
  types : List RdataType
deriving DecidableEq, Repr

structure Zone where
  apex : Name
  nodes : List ZoneNode
  absolute : ∀ n ∈ nodes, n.name.absolute
  below : ∀ n ∈ nodes, apex.path <+: n.name.path
  distinct : (nodes.map (·.name.path)).Nodup
  apex_mem : apex.path ∈ nodes.map (·.name.path)

namespace Zone
variable (z : Zone)

/-- A name or an empty non-terminal of the zone. -/
def Exists (p : List (List Nat)) : Prop := ∃ n ∈ z.nodes, p <+: n.name.path

/-- The zone has data of the type. -/
def Data (p : List (List Nat)) (type : RdataType) : Prop := ∃ n ∈ z.nodes, n.name.path = p ∧ type ∈ n.types

/-- A delegation. -/
def Delegation (n : ZoneNode) : Prop := .ns ∈ n.types ∧ n.name.path ≠ z.apex.path

/-- What is below is not of the zone. -/
def Cut (n : ZoneNode) : Prop := z.Delegation n ∨ .dname ∈ n.types

/-- Below a delegation or a DNAME. -/
def Occluded (p : List (List Nat)) : Prop := ∃ n ∈ z.nodes, z.Cut n ∧ n.name.path <+: p ∧ n.name.path ≠ p

def BelowDelegation (p : List (List Nat)) : Prop :=
  ∃ n ∈ z.nodes, z.Delegation n ∧ n.name.path <+: p ∧ n.name.path ≠ p

/-- A delegation without `DS`. -/
def Insecure (p : List (List Nat)) : Prop := ∃ n ∈ z.nodes, n.name.path = p ∧ z.Delegation n ∧ .ds ∉ n.types

def Authoritative (n : ZoneNode) : Prop := n ∈ z.nodes ∧ ¬ z.Occluded n.name.path

instance (n : ZoneNode) : Decidable (z.Delegation n) := inferInstanceAs (Decidable (_ ∧ _))
instance (n : ZoneNode) : Decidable (z.Cut n) := inferInstanceAs (Decidable (_ ∨ _))
instance (p : List (List Nat)) : Decidable (z.Occluded p) := inferInstanceAs (Decidable (∃ n ∈ _, _))
instance (p : List (List Nat)) : Decidable (z.Exists p) := inferInstanceAs (Decidable (∃ n ∈ _, _))
instance (p : List (List Nat)) : Decidable (z.BelowDelegation p) := inferInstanceAs (Decidable (∃ n ∈ _, _))
instance (n : ZoneNode) : Decidable (z.Authoritative n) := inferInstanceAs (Decidable (_ ∧ _))

variable {z}

theorem Exists.of_isPrefix {p q : List (List Nat)} (h : z.Exists q) (hpre : p <+: q) : z.Exists p := by
  obtain ⟨n, hn, hq⟩ := h
  exact ⟨n, hn, hpre.trans hq⟩

theorem apex_length_pos (z : Zone) : 0 < z.apex.path.length := by
  obtain ⟨n, hn, hpath⟩ := List.mem_map.mp z.apex_mem
  rw [← hpath, Name.path_eq (z.absolute n hn)]
  simp

theorem exists_cut {p : List (List Nat)} (h : z.Occluded p) :
    ∃ c, z.Authoritative c ∧ z.Cut c ∧ c.name.path <+: p ∧ c.name.path ≠ p := by
  -- the cut that is nearest to the root
  induction hlen : p.length using Nat.strong_induction_on generalizing p with
  | _ len ih =>
    obtain ⟨c, hc, hcut, hpre, hne⟩ := h
    by_cases hocc : z.Occluded c.name.path
    · have hlt : c.name.path.length < p.length :=
        lt_of_le_of_ne hpre.length_le fun heq => hne (hpre.eq_of_length heq)
      obtain ⟨d, hd, hdcut, hdpre, hdne⟩ := ih _ (hlen ▸ hlt) hocc rfl
      exact ⟨d, hd, hdcut, hdpre.trans hpre, ne_of_isPrefix hdpre hdne hpre⟩
    · exact ⟨c, ⟨hc, hocc⟩, hcut, hpre, hne⟩

theorem exists_authoritative {p : List (List Nat)} (h : z.Exists p) (hocc : ¬ z.Occluded p) :
    ∃ n, z.Authoritative n ∧ p <+: n.name.path := by
  obtain ⟨n, hn, hpre⟩ := h
  by_cases hnocc : z.Occluded n.name.path
  · obtain ⟨c, hc, hcut, hcpre, -⟩ := exists_cut hnocc
    refine ⟨c, hc, ?_⟩
    rcases List.prefix_or_prefix_of_prefix hpre hcpre with h | h
    · exact h
    · by_contra hnot
      exact hocc ⟨c, hc.1, hcut, h, fun heq => hnot (heq ▸ List.prefix_refl _)⟩
  · exact ⟨n, ⟨hn, hnocc⟩, hpre⟩

theorem not_occluded_above {p q : List (List Nat)} (h : ¬ z.Occluded q) (hpre : p <+: q) : ¬ z.Occluded p := by
  rintro ⟨c, hc, hcut, hcpre, hne⟩
  exact h ⟨c, hc, hcut, hcpre.trans hpre, ne_of_isPrefix hcpre hne hpre⟩

end Zone

end OqsBind.Dns
