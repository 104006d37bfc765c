import OqsBind.Isc.Ascii
import Mathlib.Algebra.BigOperators.Group.List.Basic
import Mathlib.Tactic.Linarith

/-! Domain names (`dns/name.h`): ordinary labels, followed by the root label when the name is absolute. The bounds of
    `dns_name_isvalid` are fields. `ndata` and `offsets` are read off the labels. -/

namespace OqsBind.Dns
open Isc

def NAME_MAXWIRE : Nat := 255
def NAME_LABELLEN : Nat := 63
def NAME_MAXLABELS : Nat := 128

/-- An ordinary label: 1 to `DNS_NAME_LABELLEN` octets. The root label is no `Label`. -/
structure Label where
  bytes : Bytes
  length_pos : 0 < bytes.length
  length_le : bytes.length ≤ NAME_LABELLEN
deriving DecidableEq, Repr

/-- The label as `ndata` holds it, with its length octet. -/
def Label.wire (l : Label) : Bytes := UInt8.ofNat l.bytes.length :: l.bytes

/-- The wire form of a list of ordinary labels. -/
def labelsWire (ls : List Label) : Bytes := ls.flatMap Label.wire

/-- The root label, for the names that have one. -/
def rootWire (absolute : Bool) : Bytes := if absolute then [0] else []

/-- A valid `dns_name_t`. -/
structure Name where
  labels : List Label
  absolute : Bool
  length_le : (labelsWire labels ++ rootWire absolute).length ≤ NAME_MAXWIRE
deriving DecidableEq, Repr

namespace Name

/-- `name->ndata`. -/
def ndata (n : Name) : Bytes := labelsWire n.labels ++ rootWire n.absolute

/-- `name->length`. -/
def length (n : Name) : Nat := n.ndata.length

/-- `name->labels`, which counts the root label. -/
def nlabels (n : Name) : Nat := n.labels.length + (rootWire n.absolute).length

/-- `name->offsets[i]`: where label `i` starts in `ndata`. -/
def offset (n : Name) (i : Nat) : Nat := (labelsWire (n.labels.take i)).length

/-- `name->offsets`. -/
def offsets (n : Name) : List Nat := (List.range n.nlabels).map n.offset

/-- The absolute name of one label of one octet. -/
def tld (octet : UInt8) : Name where
  labels := [⟨[octet], Nat.one_pos, by simp [NAME_LABELLEN]⟩]
  absolute := true
  length_le := by simp [labelsWire, Label.wire, rootWire, NAME_MAXWIRE]

theorem nlabels_tld_pos (octet : UInt8) : 0 < (tld octet).nlabels := Nat.succ_pos _

theorem root_length_le : (labelsWire [] ++ rootWire true).length ≤ NAME_MAXWIRE := by decide

/-- `dns_name_equal`. -/
def equal (n m : Name) : Bool := n.length == m.length && lowerequal n.ndata m.ndata

/-- `dns_name_caseequal`. -/
def caseequal (n m : Name) : Bool := n.length == m.length && n.ndata == m.ndata

/-- The octets of label `i`, read through its length octet. -/
def label (n : Name) (i : Nat) : Bytes :=
  match n.ndata.drop (n.offset i) with
  | [] => []
  | count :: ldata => ldata.take count.toNat

end Name

/-- `dns_namereln_t`. -/
inductive NameReln where
  | none | contains | subdomain | equal | commonancestor
deriving DecidableEq, Repr

structure FullCompare where
  namereln : NameReln
  order : Int
  nlabels : Nat
deriving DecidableEq, Repr

namespace Name

def fullcompareLoop (n m : Name) (ldiff : Int) : (l o1 o2 nlabels : Nat) → FullCompare
  | 0, _, _, nlabels =>
    ⟨if ldiff < 0 then .contains else if ldiff > 0 then .subdomain else .equal, ldiff, nlabels⟩
  | l + 1, o1, o2, nlabels =>
    let label1 := n.label (o1 - 1)
    let label2 := m.label (o2 - 1)
    let cdiff := (label1.length : Int) - label2.length
    let count := if cdiff < 0 then label1.length else label2.length
    let diff := lowercmp (label1.take count) (label2.take count)
    let done : NameReln := if nlabels > 0 then .commonancestor else .none
    if diff ≠ 0 then ⟨done, diff, nlabels⟩
    else if cdiff ≠ 0 then ⟨done, cdiff, nlabels⟩
    else fullcompareLoop n m ldiff l (o1 - 1) (o2 - 1) (nlabels + 1)

/-- `dns_name_fullcompare`. The shortcut for two pointers to one name returns what the loop returns. -/
def fullcompare (n m : Name) : FullCompare :=
  let l1 := n.nlabels
  let l2 := m.nlabels
  fullcompareLoop n m ((l1 : Int) - l2) (if l2 > l1 then l1 else l2) l1 l2 0

/-- `dns_name_compare`. -/
def compare (n m : Name) : Int := (n.fullcompare m).order

end Name

@[simp] theorem Label.wire_length (l : Label) : l.wire.length = l.bytes.length + 1 := rfl

theorem Label.length_octet (l : Label) : (UInt8.ofNat l.bytes.length).toNat = l.bytes.length := by
  have := l.length_le
  unfold NAME_LABELLEN at this
  rw [UInt8.toNat_ofNat']
  omega

theorem Label.length_octet_le (l : Label) : (UInt8.ofNat l.bytes.length).toNat ≤ 63 := by
  rw [l.length_octet]
  exact l.length_le

theorem Label.length_octet_pos (l : Label) : 0 < (UInt8.ofNat l.bytes.length).toNat := by
  rw [l.length_octet]
  exact l.length_pos

@[simp] theorem labelsWire_nil : labelsWire [] = [] := rfl

@[simp] theorem labelsWire_cons (l : Label) (ls : List Label) :
    labelsWire (l :: ls) = l.wire ++ labelsWire ls := rfl

@[simp] theorem labelsWire_append (ls ms : List Label) :
    labelsWire (ls ++ ms) = labelsWire ls ++ labelsWire ms := by
  simp [labelsWire]

theorem two_mul_length_le : ∀ ls : List Label, 2 * ls.length ≤ (labelsWire ls).length
  | [] => le_rfl
  | l :: ls => by
    have ih := two_mul_length_le ls
    have hpos := l.length_pos
    simp
    omega

theorem Name.drop_offset (n : Name) (i : Nat) :
    n.ndata.drop (n.offset i) = labelsWire (n.labels.drop i) ++ rootWire n.absolute := by
  unfold Name.ndata Name.offset
  conv_lhs => rw [← List.take_append_drop i n.labels]
  rw [labelsWire_append, List.append_assoc, List.take_append_drop, List.drop_left]

theorem Name.take_offset (n : Name) (i : Nat) :
    n.ndata.take (n.offset i) = labelsWire (n.labels.take i) := by
  unfold Name.ndata Name.offset
  conv_lhs => rw [← List.take_append_drop i n.labels]
  rw [labelsWire_append, List.append_assoc, List.take_append_drop, List.take_left]

theorem Name.length_eq (n : Name) : n.length = (labelsWire n.labels).length + (rootWire n.absolute).length := by
  simp [Name.length, Name.ndata]

theorem Name.length_le_maxwire (n : Name) : n.length ≤ 255 := n.length_le

theorem Name.nlabels_le (n : Name) : n.nlabels ≤ NAME_MAXLABELS := by
  have hlen := n.length_le_maxwire
  have hlabels := two_mul_length_le n.labels
  have hroot : (rootWire n.absolute).length ≤ 1 := by cases n.absolute <;> decide
  rw [n.length_eq] at hlen
  rw [Name.nlabels, NAME_MAXLABELS]
  omega

end OqsBind.Dns
