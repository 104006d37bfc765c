import OqsBind.Dns.Nsec3
import OqsBind.Theorems.HashOrder
import OqsBind.Theorems.TypeBitmap
import OqsBind.Theorems.Zone

/-! NSEC3 chains of a zone. A record stands for a name by its hash and covers the hashes up to the next one; a name that
    exists is never covered, but for delegations that were left out of the chain (`Chain.covered`). -/

namespace OqsBind.Dns.Nsec3
open Isc Lib Bitmap

/-- The parameters of a chain. -/
structure Hashing where
  sha1 : Sha1
  iterations : UInt16
  salt : Bytes

/-- The hash of a name, as `dns_nsec3_hashname` computes it. -/
def Hashing.hash (h : Hashing) (n : Name) : Bytes := iteratedHash h.sha1 1 h.iterations.toNat h.salt n.downcase.ndata

@[simp] theorem Hashing.length_hash (h : Hashing) (n : Name) : (h.hash n).length = 20 := length_iteratedHash ..

theorem Hashing.hash_eq_of_path (h : Hashing) {n m : Name} (hn : n.absolute) (hm : m.absolute) (hpath : n.path = m.path) :
    h.hash n = h.hash m := by
  rw [Hashing.hash, Hashing.hash, Name.downcase_eq_of_path hn hm hpath]

/-- Strictly between two hashes in the cyclic order. Between a hash and itself is everything else. -/
def Between (owner next hash : List Nat) : Prop :=
  (owner < next ∧ owner < hash ∧ hash < next) ∨ (next ≤ owner ∧ (owner < hash ∨ hash < next))

theorem covers_iff {owner next hash : Bytes} (hn : owner.length = next.length) (hh : hash.length = owner.length) :
    covers owner next hash ↔ Between (octets owner) (octets next) (octets hash) := by
  simp only [covers, Between, Bool.or_eq_true, Bool.and_eq_true, decide_eq_true_iff, memcmp_neg_iff hn,
    memcmp_pos_iff hh, memcmp_neg_iff (hh.trans hn), ge_iff_le, ← not_lt, and_assoc]

theorem not_between_owner (owner next : List Nat) : ¬ Between owner next owner := by
  rintro (⟨-, hlt, -⟩ | ⟨hle, hlt | hlt⟩)
  · exact lt_irrefl _ hlt
  · exact lt_irrefl _ hlt
  · exact absurd hlt (not_lt.mpr hle)

/-- A record of a name that exists outside the delegations. Its owner is the hash, in text, below the apex. -/
structure Record (z : Zone) (h : Hashing) where
  name : Name
  owner : Name
  next : Bytes
  flags : UInt8
  types : List RdataType
  absolute : name.absolute
  below : z.apex.path <+: name.path
  present : z.Exists name.path
  outside : ¬ z.BelowDelegation name.path
  owner_absolute : owner.absolute
  owner_zone : ∃ l, owner.path = z.apex.path ++ [l]
  owner_hash : Base32.hexDecoderegion (owner.label 0) = some (h.hash name)

section
variable {z : Zone} {h : Hashing}

def Record.optout (r : Record z h) : Bool := r.flags &&& FLAG_OPTOUT ≠ 0

/-- The record as it stands in the zone. -/
def Record.rdata (r : Record z h) : Rdata := ⟨1, r.flags, h.iterations, h.salt, r.next, ofTypes r.types⟩

/-- The hash of the name lies in the gap of the record. -/
def Record.Covers (r : Record z h) (n : Name) : Prop :=
  Between (octets (h.hash r.name)) (octets r.next) (octets (h.hash n))

@[simp] theorem typepresent_rdata (r : Record z h) (type : RdataType) :
    typepresent r.rdata type = .ok (decide (type ∈ r.types)) := typepresent_ofTypes ..

end

/-- A complete chain: there is a record for each name that exists outside the delegations, but for insecure delegations
    that only records with the opt-out flag cover; and the hashes are in order. -/
structure Chain (z : Zone) (h : Hashing) where
  records : List (Record z h)
  complete : ∀ n : Name, n.absolute → z.apex.path <+: n.path → z.Exists n.path → ¬ z.BelowDelegation n.path →
    (∃ r ∈ records, r.name.path = n.path) ∨ (z.Insecure n.path ∧ ∀ r ∈ records, r.Covers n → r.optout)
  next_mem : ∀ r ∈ records, ∃ r' ∈ records, r.next = h.hash r'.name
  sorted : ∀ r ∈ records, ∀ r' ∈ records, ¬ r.Covers r'.name

/-- An insecure delegation that has no record. -/
def Chain.Omitted {z : Zone} {h : Hashing} (c : Chain z h) (p : List (List Nat)) : Prop :=
  z.Insecure p ∧ ∀ r ∈ c.records, r.name.path ≠ p

section
variable {z : Zone} {h : Hashing} {c : Chain z h} {r : Record z h} {n : Name}

theorem Chain.length_next (hr : r ∈ c.records) : r.next.length = 20 := by
  obtain ⟨r', -, hnext⟩ := c.next_mem r hr
  rw [hnext, h.length_hash]

theorem Chain.no_record (hr : r ∈ c.records) (hn : n.absolute) (hcov : r.Covers n) :
    ∀ r' ∈ c.records, r'.name.path ≠ n.path := by
  intro r' hr' hpath
  rw [Record.Covers, h.hash_eq_of_path hn r'.absolute hpath.symm] at hcov
  exact c.sorted r hr r' hr' hcov

theorem Chain.covered (hr : r ∈ c.records) (hn : n.absolute) (hbelow : z.apex.path <+: n.path)
    (hout : ¬ z.BelowDelegation n.path) (hcov : r.Covers n) :
    ¬ z.Exists n.path ∨ (r.optout ∧ c.Omitted n.path) := by
  by_cases hex : z.Exists n.path
  · right
    rcases c.complete n hn hbelow hex hout with ⟨r', hr', hpath⟩ | ⟨hins, hopt⟩
    · exact absurd hpath (c.no_record hr hn hcov r' hr')
    · exact ⟨hopt r hr hcov, hins, c.no_record hr hn hcov⟩
  · exact .inl hex

theorem Chain.not_covers_above (hr : r ∈ c.records) (hn : n.absolute) (hbelow : z.apex.path <+: n.path)
    (hpre : n.path <+: r.name.path) : ¬ r.Covers n := by
  intro hcov
  by_cases heq : n.path = r.name.path
  · rw [Record.Covers, h.hash_eq_of_path hn r.absolute heq] at hcov
    exact not_between_owner _ _ hcov
  · have hout : ¬ z.BelowDelegation n.path := by
      rintro ⟨d, hd, hdel, hdpre, hdne⟩
      exact r.outside ⟨d, hd, hdel, hdpre.trans hpre, ne_of_isPrefix hdpre hdne hpre⟩
    rcases Chain.covered hr hn hbelow hout hcov with hno | ⟨-, ⟨d, hd, hpath, hdel, -⟩, -⟩
    · exact hno (r.present.of_isPrefix hpre)
    · exact r.outside ⟨d, hd, hdel, hpath ▸ hpre, hpath ▸ heq⟩

end

end OqsBind.Dns.Nsec3
