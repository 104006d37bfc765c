import OqsBind.Isc.Radix
import OqsBind.Dns.Name

/-! Access control lists (`acl.c`) and their tables of address prefixes (`iptable.c`), without ports and transports. -/

namespace OqsBind.Dns.Access
open Isc Isc.Radix

/-- `isc_netaddr_t`. -/
inductive Netaddr where
  | inet (octets : Vector UInt8 4)
  | inet6 (octets : Vector UInt8 16)
deriving DecidableEq, Repr

/-- The first octets of an address, and zeros. -/
def padded (octets : Bytes) (bits : Nat) : Bytes :=
  octets.take ((bits + 7) / 8) ++ List.replicate (16 - (bits + 7) / 8) 0

/-- `NETADDR_TO_PREFIX_T`; no address stands for "any". -/
def netaddrToPrefix (bits : Nat) : Option Netaddr → Prefix
  | some (.inet octets) => ⟨.inet, bits, padded octets.toList bits⟩
  | some (.inet6 octets) => ⟨.inet6, bits, padded octets.toList bits⟩
  | none => ⟨.unspec, 0, List.replicate 16 0⟩

/-- The families that a prefix stands for. -/
def covers (p : Prefix) (i : Family) : Prop := p.family = .unspec ∨ i = p.radixFamily

instance (p : Prefix) (i : Family) : Decidable (covers p i) := inferInstanceAs (Decidable (_ ∨ _))

/-- The node that was found or added gets other data. -/
def setSlots (z : Focus) (count : Nat) (slots : Slots) : RadixTree :=
  ⟨Focus.tree { z with node := { z.node with slots } }, count⟩

/-- `dns_iptable_addprefix`. -/
def iptableAddprefix (tab : RadixTree) (addr : Option Netaddr) (bitlen : Nat) (pos : Bool) : Except Fault RadixTree := do
  let p := netaddrToPrefix bitlen addr
  let (z, count) ← Radix.insert tab p none
  -- data that is there already is not overwritten
  return setSlots z count fun i =>
    if covers p i ∧ (z.node.slots i).data = none then { z.node.slots i with data := some pos } else z.node.slots i

/-- One round of the walk of `dns_iptable_merge`. -/
def mergeNode (pos : Bool) (tab : RadixTree) (source : Prefix × Slots) : Except Fault RadixTree := do
  let (z, count) ← Radix.insert tab source.1 (some source.2)
  return setSlots z count fun i =>
    if !pos ∧ (source.2 i).data = some true then { z.node.slots i with data := some false } else z.node.slots i

/-- The greatest number of a node. -/
def maxNode (nodes : List (Prefix × Slots)) : Nat :=
  nodes.foldl (fun m n => max (max m ((n.2 .v4).nodeNum.getD 0)) ((n.2 .v6).nodeNum.getD 0)) 0

/-- `dns_iptable_merge`. -/
def iptableMerge (tab source : RadixTree) (pos : Bool) : Except Fault RadixTree := do
  let merged ← (walk source.head).foldlM (mergeNode pos) tab
  return { merged with numAddedNode := merged.numAddedNode + maxNode (walk source.head) }

mutual

/-- `dns_acl_t`. -/
inductive Acl where
  | mk (iptable : RadixTree) (elements : List Element)

/-- `dns_aclelement_t`. -/
inductive Element where
  | mk (type : ElementType) (negative : Bool) (nodeNum : Nat)

/-- `dns_aclelementtype_t`, with what the types hold. -/
inductive ElementType where
  | keyname (name : Name)
  | nestedacl (acl : Acl)
  | localhost
  | localnets

end

def Acl.iptable : Acl → RadixTree
  | .mk iptable _ => iptable

def Acl.elements : Acl → List Element
  | .mk _ elements => elements

def Element.negative : Element → Bool
  | .mk _ negative _ => negative

def Element.nodeNum : Element → Nat
  | .mk _ _ nodeNum => nodeNum

/-- `dns_acl_create`. -/
def create : Acl := .mk Radix.create []

/-- `dns_acl_node_count`. -/
def nodeCount (acl : Acl) : Nat := acl.iptable.numAddedNode

/-- An address prefix is added. -/
def addPrefix (acl : Acl) (addr : Option Netaddr) (bitlen : Nat) (pos : Bool) : Except Fault Acl := do
  return .mk (← iptableAddprefix acl.iptable addr bitlen pos) acl.elements

/-- An element is appended, with the next number. -/
def addElement (acl : Acl) (type : ElementType) (negative : Bool) : Acl :=
  .mk { acl.iptable with numAddedNode := nodeCount acl + 1 } (acl.elements ++ [.mk type negative (nodeCount acl + 1)])

def mergeElement (count : Nat) (pos : Bool) : Element → Element
  | .mk type negative nodeNum => .mk type (if !pos && !negative then true else negative) (nodeNum + count)

/-- `dns_acl_merge`. -/
def aclMerge (dest source : Acl) (pos : Bool) : Except Fault Acl := do
  let elements := dest.elements ++ source.elements.map (mergeElement (nodeCount dest) pos)
  let nodes := source.elements.foldl (fun m e => max m e.nodeNum) 0 + nodeCount dest
  let iptable ← iptableMerge dest.iptable source.iptable pos
  return .mk { iptable with numAddedNode := max nodes iptable.numAddedNode } elements

/-- A request: the address and the name of the key that signed it. -/
structure Request where
  addr : Netaddr
  signer : Option Name

/-- `dns_aclenv_t`. The lists for the addresses of the host and for its networks are given by their matches. -/
structure AclEnv where
  matchMapped : Bool
  localhost : Option (Request → Int)
  localnets : Option (Request → Int)

/-- An IPv4 address that is mapped to IPv6 is mapped back, if the environment says so. -/
def lookupAddr (env : Option AclEnv) : Netaddr → Netaddr
  | .inet6 octets =>
    if env.any (·.matchMapped) ∧ octets.toList.take 12 = List.replicate 10 0 ++ [0xff, 0xff] then
      .inet #v[octets[12], octets[13], octets[14], octets[15]]
    else .inet6 octets
  | .inet octets => .inet octets

/-- The prefix of an address as a whole. -/
def hostPrefix : Netaddr → Prefix
  | .inet octets => netaddrToPrefix 32 (some (.inet octets))
  | .inet6 octets => netaddrToPrefix 128 (some (.inet6 octets))

/-- A number with a sign. -/
def signed (positive : Bool) (num : Nat) : Int := if positive then num else -num

def matchTable (iptable : RadixTree) (p : Prefix) : Except Fault (Option Nat × Int) :=
  match search iptable p with
  | none => .ok (none, 0)
  | some node =>
    match node.slots p.radixFamily with
    | ⟨some num, some data⟩ => .ok (some num, signed data num)
    | _ => .error .insist

section
variable (env : Option AclEnv) (req : Request)

mutual

/-- `dns_acl_match`. -/
def aclMatch : Acl → Except Fault Int
  | .mk iptable elements =>
    match matchTable iptable (hostPrefix (lookupAddr env req.addr)) with
    | .error e => .error e
    | .ok (matchNum, found) => matchElements matchNum found elements

/-- The loop of `dns_acl_match` over the other elements. -/
def matchElements (matchNum : Option Nat) (found : Int) : List Element → Except Fault Int
  | [] => .ok found
  | .mk type negative nodeNum :: rest =>
    if matchNum.any (· < nodeNum) then .ok found
    else
      match elementMatch type with
      | .error e => .error e
      | .ok true => .ok (if matchNum.all (nodeNum < ·) then signed (!negative) nodeNum else found)
      | .ok false => matchElements matchNum found rest

/-- `dns_aclelement_match`. -/
def elementMatch : ElementType → Except Fault Bool
  | .keyname name => .ok (req.signer.any fun signer => signer.equal name)
  | .nestedacl acl =>
    match aclMatch acl with
    | .error e => .error e
    | .ok indirectmatch => .ok (indirectmatch > 0)
  | .localhost => .ok (env.any fun env => env.localhost.any fun inner => inner req > 0)
  | .localnets => .ok (env.any fun env => env.localnets.any fun inner => inner req > 0)

end

end

end OqsBind.Dns.Access
