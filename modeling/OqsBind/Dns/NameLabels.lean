import OqsBind.Dns.Name

/-! Parts of names, and names put together (`name.c`). -/

namespace OqsBind.Dns
open Isc

namespace Name

/-- `dns_name_issubdomain`. -/
def issubdomain (n m : Name) : Bool :=
  match (n.fullcompare m).namereln with
  | .subdomain => true
  | .equal => true
  | _ => false

theorem labelsWire_sublist {ls ms : List Label} (h : ls.Sublist ms) : (labelsWire ls).length ≤ (labelsWire ms).length := by
  induction h with
  | slnil => exact le_rfl
  | cons _ _ ih =>
    simpa using ih.trans (Nat.le_add_left ..)
  | cons_cons _ _ ih =>
    rw [labelsWire_cons, labelsWire_cons, List.length_append, List.length_append]
    exact Nat.add_le_add_left ih _

/-- `dns_name_getlabelsequence`: `k` labels, from label `first` on. -/
def getlabelsequence (n : Name) (first k : Nat) : Name where
  labels := (n.labels.drop first).take k
  absolute := first + k = n.nlabels && 0 < k && n.absolute
  length_le := by
    have hlabels := labelsWire_sublist ((List.take_sublist k _).trans (List.drop_sublist first n.labels))
    have hroot : (rootWire (first + k = n.nlabels && 0 < k && n.absolute)).length ≤ (rootWire n.absolute).length := by
      cases n.absolute <;> simp [rootWire]
      split <;> simp
    have hlen := n.length_le
    rw [List.length_append] at hlen ⊢
    omega

/-- `dns_name_iswildcard`. -/
def iswildcard (n : Name) : Bool := 2 ≤ n.length && n.ndata[0]? == some 1 && n.ndata[1]? == some 0x2a

/-- `dns_name_matcheswildcard`, for a name that has labels and a wildcard. -/
def matcheswildcard (n wname : Name) : Bool :=
  (n.fullcompare (wname.getlabelsequence 1 (wname.nlabels - 1))).namereln == .subdomain

/-- The name above, with `k` labels: the suffix of `dns_name_split`. -/
def suffix (n : Name) (k : Nat) : Name := n.getlabelsequence (n.nlabels - k) k

theorem labelsWire_length_map {f : Label → Label} (h : ∀ l, (f l).bytes.length = l.bytes.length) (ls : List Label) :
    (labelsWire (ls.map f)).length = (labelsWire ls).length := by
  induction ls with
  | nil => rfl
  | cons l ls ih =>
    simp [labelsWire_cons, ih, Label.wire_length, h]

/-- `dns_name_downcase`. -/
def downcase (n : Name) : Name where
  labels := n.labels.map fun l => ⟨l.bytes.map tolower, by simpa using l.length_pos, by simpa using l.length_le⟩
  absolute := n.absolute
  length_le := by
    rw [List.length_append, labelsWire_length_map (fun l => by simp), ← List.length_append]
    exact n.length_le

/-- `dns_wildcardname`. -/
def wildcardname : Name where
  labels := [⟨[0x2a], Nat.one_pos, by decide⟩]
  absolute := false
  length_le := by decide

def concatenate (pre suf : Name) : Option Name :=
  if h : (labelsWire (pre.labels ++ suf.labels) ++ rootWire suf.absolute).length ≤ NAME_MAXWIRE then
    some ⟨pre.labels ++ suf.labels, suf.absolute, h⟩
  else none

end Name

end OqsBind.Dns
