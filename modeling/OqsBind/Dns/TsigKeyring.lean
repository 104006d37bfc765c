import OqsBind.Dns.Name
import OqsBind.Isc.Serial

/-! The TSIG key ring (`tsig.c`). Threads interleave: each region under `ring->lock` is one step, and so is each
    access to a key outside of it. A key whose count has reached zero has been destroyed. -/

namespace OqsBind.Dns.Tsig
open Isc

def MAXGENERATEDKEYS : Nat := 4096

/-- The fields of `dns_tsigkey_t` that are set when the key is made. -/
structure TsigKey where
  name : Name
  algorithm : Name
  generated : Bool
  inception : UInt32
  expire : UInt32

/-- A `dns_tsigkey_t` on the heap. -/
structure KeyCell extends TsigKey where
  references : Nat
  ring : Bool

/-- What is left of a `dns_tsigkey_find` after its first locked region: the key is removed, its `generated` field
    is read, the LRU list is adjusted, the reference is taken. -/
inductive Local where
  | idle
  | expired (key : Nat)
  | check (key : Nat)
  | adjust (key : Nat)
  | ref (key : Nat)
deriving DecidableEq, Repr

/-- The ring, the keys by address, and the threads. -/
structure Keyring where
  cells : Nat → KeyCell
  next : Nat
  /-- the hash map, whose keys are compared without case -/
  keys : List (Bytes × Nat)
  lru : List Nat
  generated : Nat
  threads : Nat → Local
  held : Nat → Nat
  removed : List Nat

inductive Fault where
  | useAfterFree
deriving DecidableEq, Repr

/-- What the hash map finds a name by. -/
def hashKey (name : Name) : Bytes := name.ndata.map tolower

namespace Keyring

def setCell (s : Keyring) (key : Nat) (c : KeyCell) : Keyring := { s with cells := Function.update s.cells key c }

def touch (s : Keyring) (key : Nat) : Except Fault Unit :=
  if (s.cells key).references = 0 then .error .useAfterFree else .ok ()

/-- `dns_tsigkey_ref`. -/
def ref (s : Keyring) (key : Nat) : Except Fault Keyring := do
  s.touch key
  return s.setCell key { s.cells key with references := (s.cells key).references + 1 }

/-- `dns_tsigkey_unref`. -/
def unref (s : Keyring) (key : Nat) : Except Fault Keyring := do
  s.touch key
  return s.setCell key { s.cells key with references := (s.cells key).references - 1 }

/-- `rm_hashmap`: the entry for the key's name goes, and one reference to the key. -/
def rmHashmap (s : Keyring) (key : Nat) : Except Fault Keyring := do
  s.touch key
  let s := { s with
    keys := s.keys.filter fun e => e.1 ≠ hashKey (s.cells key).name
    removed := key :: s.removed }
  s.unref key

/-- `rm_lru`. -/
def rmLru (s : Keyring) (key : Nat) : Except Fault Keyring := do
  s.touch key
  if (s.cells key).generated ∧ key ∈ s.lru then
    let s := { s with lru := s.lru.erase key, generated := s.generated - 1 }
    s.unref key
  else return s

/-- The locked region of `dns_tsigkey_delete`, and of a find of an expired key. -/
def remove (s : Keyring) (key : Nat) : Except Fault Keyring := do
  let s ← s.rmLru key
  s.rmHashmap key

/-- The locked region of `adjust_lru`. -/
def adjustLru (s : Keyring) (key : Nat) : Except Fault Keyring := do
  s.touch key
  if key ∈ s.lru ∧ s.lru.getLast? ≠ some key then return { s with lru := s.lru.erase key ++ [key] }
  else return s

/-- `dns_tsigkeyring_add`. -/
def add (s : Keyring) (key : Nat) : Except Fault Keyring := do
  s.touch key
  match s.keys.lookup (hashKey (s.cells key).name) with
  | some _ => return s
  | none =>
    let s := { s with keys := (hashKey (s.cells key).name, key) :: s.keys }
    let s ← s.ref key
    let s := s.setCell key { s.cells key with ring := true }
    if (s.cells key).generated then
      let s := { s with lru := s.lru ++ [key] }
      let s ← s.ref key
      let full := s.generated > MAXGENERATEDKEYS
      let s := { s with generated := s.generated + 1 }
      if full then
        match s.lru with
        | [] => return s
        | oldest :: _ => s.remove oldest
      else return s
    else return s

def setThread (s : Keyring) (t : Nat) (l : Local) : Keyring := { s with threads := Function.update s.threads t l }

/-- The region of `dns_tsigkey_find` under the read lock. -/
def find (s : Keyring) (t : Nat) (name : Name) (algorithm : Option Name) (now : UInt32) : Except Fault Keyring :=
  match s.keys.lookup (hashKey name) with
  | none => .ok s
  | some key => do
    s.touch key
    let c := s.cells key
    if algorithm.any fun a => !c.algorithm.equal a then return s
    else if c.inception ≠ c.expire ∧ serialLt c.expire now then return s.setThread t (.expired key)
    else return s.setThread t (.check key)

/-- The next step of a find after its first region. -/
def resume (s : Keyring) (t : Nat) : Except Fault Keyring :=
  match s.threads t with
  | .idle => .ok s
  | .expired key => do
    let s ← s.remove key
    return s.setThread t .idle
  | .check key => do
    s.touch key
    return s.setThread t (if (s.cells key).generated then .adjust key else .ref key)
  | .adjust key => do
    let s ← s.adjustLru key
    return s.setThread t (.ref key)
  | .ref key => do
    let s ← s.ref key
    return { s.setThread t .idle with held := Function.update s.held key (s.held key + 1) }

/-- `dns_tsigkey_detach` of a reference that a caller has. -/
def detach (s : Keyring) (key : Nat) : Except Fault Keyring := do
  let s ← s.unref key
  return { s with held := Function.update s.held key (s.held key - 1) }

/-- `dns_tsigkey_createfromkey`, at a new address. -/
def create (s : Keyring) (key : TsigKey) : Keyring :=
  { s.setCell s.next ⟨key, 1, false⟩ with next := s.next + 1, held := Function.update s.held s.next (s.held s.next + 1) }

/-- `dns_tsigkeyring_create`. -/
def empty (blank : TsigKey) : Keyring where
  cells := fun _ => ⟨blank, 0, false⟩
  next := 0
  keys := []
  lru := []
  generated := 0
  threads := fun _ => .idle
  held := fun _ => 0
  removed := []

end Keyring

/-- A step of some thread. -/
inductive Event where
  | create (key : TsigKey)
  | add (key : Nat)
  | find (t : Nat) (name : Name) (algorithm : Option Name) (now : UInt32)
  | resume (t : Nat)
  | delete (key : Nat)
  | detach (key : Nat)

/-- A call that its caller may not make does nothing: keys are given to calls by references that are held,
    `dns_tsigkeyring_add` requires that the key has no ring yet, `dns_tsigkey_delete` that it has one, and a thread
    starts a find when it has no other under way. -/
def Keyring.event (s : Keyring) : Event → Except Fault Keyring
  | .create key => .ok (s.create key)
  | .add key => if 0 < s.held key ∧ ¬(s.cells key).ring then s.add key else .ok s
  | .find t name algorithm now => if s.threads t = .idle then s.find t name algorithm now else .ok s
  | .resume t => s.resume t
  | .delete key => if 0 < s.held key ∧ (s.cells key).ring then s.remove key else .ok s
  | .detach key => if 0 < s.held key then s.detach key else .ok s

end OqsBind.Dns.Tsig
