import OqsBind.Dns.Private
import Mathlib.Data.List.Basic

/-! The denial chains of a zone, by what its apex asks for. -/

namespace OqsBind.Dns.Private
open Isc List

variable {ε : Type} {p r : Nsec3Param} {ps : List Bytes} {signing nsec3chain : Bool}

/-- The changes of NSEC3 chains that private records ask for. -/
def requests (ps : List Bytes) : List Nsec3Param := ps.filterMap nsec3paramFromprivate

def creating (ps : List Bytes) : Bool := (requests ps).any (CREATE ·.flags)

def SameChain (r p : Nsec3Param) : Prop := r.hash = p.hash ∧ r.iterations = p.iterations ∧ r.salt = p.salt
deriving Decidable

/-- The chain of `p` is being removed, and an NSEC chain is to take its place. -/
def replaced (ps : List Bytes) (p : Nsec3Param) : Bool :=
  (requests ps).any fun r => SameChain r p ∧ REMOVE r.flags ∧ !NONSEC r.flags

structure Apex where
  nsec : Bool
  nsec3params : List Nsec3Param
  privates : List Bytes

def Apex.documented (a : Apex) : Chains :=
  match a.nsec, a.nsec3params with
  | true, _ :: _ => ⟨true, true⟩
  | true, [] => ⟨true, (requests a.privates).any (!REMOVE ·.flags)⟩
  | false, _ :: _ => ⟨!creating a.privates && a.nsec3params.all (replaced a.privates), true⟩
  | false, [] => if a.privates.any isSigning then ⟨!creating a.privates, creating a.privates⟩ else ⟨false, false⟩

/-- Of several chains, one is to stay. Of a single chain, the first request about it tells whether it is replaced: this request has
    no NONSEC flag exactly if one of those that remove the chain has none. -/
structure Apex.Plain (a : Apex) : Prop where
  several : 1 < a.nsec3params.length → ∃ p ∈ a.nsec3params, replaced a.privates p = false
  first : ∀ p r, a.nsec3params = [p] → (requests a.privates).find? (fun r => SameChain r p) = some r →
    NONSEC r.flags = !replaced a.privates p

def Db.Holds (db : Db ε) (privatetype : RdataType) (a : Apex) : Prop :=
  db.getoriginnode = .ok () ∧ db.nsec = .ok a.nsec ∧ db.nsec3param = .ok a.nsec3params ∧
    if privatetype = 0 then a.privates = [] else db.privatetype = .ok a.privates

/-! ### The loops -/

theorem requests_cons_none {record : Bytes} (h : nsec3paramFromprivate record = none) : requests (record :: ps) = requests ps :=
  filterMap_cons_none h

theorem requests_cons_some {record : Bytes} (h : nsec3paramFromprivate record = some r) :
    requests (record :: ps) = r :: requests ps :=
  filterMap_cons_some h

theorem anyKept_eq : anyKept ps = (requests ps).any (!REMOVE ·.flags) := by
  fun_induction anyKept ps with
  | case1 => rfl
  | case2 _ _ h ih => rw [requests_cons_none h, ih]
  | case3 _ _ _ h hr ih => rw [requests_cons_some h, any_cons, ih, hr, Bool.not_true, Bool.false_or]
  | case4 _ _ _ h hr => simp [requests_cons_some h, hr]

theorem anyCreated_eq : anyCreated ps = creating ps := by
  unfold creating
  fun_induction anyCreated ps with
  | case1 => rfl
  | case2 _ _ h ih => rw [requests_cons_none h, ih]
  | case3 _ _ _ h hr => rw [requests_cons_some h, any_cons, hr, Bool.true_or]
  | case4 _ _ _ h hr ih => simp [requests_cons_some h, hr, ih]

/-- A signing record names an algorithm, so that it is no request. -/
theorem not_isSigning {record : Bytes} (h : nsec3paramFromprivate record = some r) : isSigning record = false := by
  fun_cases isSigning with
  | case2 => rfl
  | case1 algorithm =>
    have halg : algorithm = 0 := by
      by_contra hne
      rw [nsec3paramFromprivate, if_pos hne] at h
      cases h
    simp [halg]

theorem findSigning_eq : findSigning ps signing nsec3chain = (signing || ps.any isSigning, nsec3chain || creating ps) := by
  unfold creating
  fun_induction findSigning ps signing nsec3chain with
  | case1 => simp [requests]
  | case2 record _ signing _ h ih =>
    rw [ih, requests_cons_none h, any_cons]
    cases signing <;> cases isSigning record <;> simp
  | case3 record _ _ chain rdata h ih =>
    rw [ih, requests_cons_some h, any_cons, any_cons, not_isSigning h]
    cases chain <;> cases CREATE rdata.flags <;> simp

theorem differs_iff : differs r p = true ↔ ¬SameChain r p := by
  unfold differs SameChain
  constructor
  · rintro h ⟨hhash, hiter, hsalt⟩
    simp [hhash, hiter, hsalt] at h
  · intro h
    by_contra hd
    simp only [Bool.or_eq_true, decide_eq_true_eq, not_or, not_not] at hd
    obtain ⟨⟨⟨hhash, hiter⟩, hlen⟩, hsalt⟩ := hd
    rw [← hlen, take_length] at hsalt
    exact h ⟨hhash, hiter, hsalt⟩

theorem ignore_eq (hcreate : ∀ r ∈ requests ps, CREATE r.flags = false) :
    ignore p ps = ((requests ps).find? fun r => SameChain r p).any (!NONSEC ·.flags) := by
  fun_induction ignore p ps with
  | case1 => rfl
  | case2 _ _ h ih =>
    rw [requests_cons_none h] at hcreate ⊢
    exact ih hcreate
  | case3 _ _ _ h hc =>
    rw [requests_cons_some h] at hcreate
    simp [hc] at hcreate
  | case4 _ _ _ h _ hd ih =>
    rw [requests_cons_some h] at hcreate ⊢
    rw [ih fun r hr => hcreate r (.tail _ hr), find?_cons_of_neg (by simpa using differs_iff.mp hd)]
  | case5 _ _ r h _ hd hn | case6 _ _ r h _ hd hn =>
    have hsame : SameChain r p := not_not.mp (mt differs_iff.mpr hd)
    rw [requests_cons_some h, find?_cons_of_pos (by simpa using hsame)]
    simp [hn]

/-! ### The answer -/

/-- Without a request about the chain of `p`, it is neither ignored nor replaced. -/
theorem replaced_of_find?_none (h : ((requests ps).find? fun r => SameChain r p) = none) : replaced ps p = false := by
  simp only [find?_eq_none, decide_eq_true_eq] at h
  simpa [replaced] using fun r hr hsame => absurd hsame (h r hr)

theorem noneLeft_eq_iff {a : Apex} (hcreate : creating a.privates = false) (hne : a.nsec3params ≠ []) :
    noneLeft a.privates 0 a.nsec3params = a.nsec3params.all (replaced a.privates) ↔ a.Plain := by
  obtain ⟨nsec, _ | ⟨p, _ | ⟨q, params⟩⟩, ps⟩ := a
  · exact absurd rfl hne
  · have hig : noneLeft ps 0 [p] = ((requests ps).find? fun r => SameChain r p).any (!NONSEC ·.flags) := by
      rw [← ignore_eq fun r hr => by simpa using any_eq_false.mp hcreate r hr]
      simp [noneLeft]
    rw [hig, all_cons, all_nil, Bool.and_true]
    constructor
    · refine fun heq => ⟨fun h => absurd h (lt_irrefl 1), ?_⟩
      rintro p r ⟨⟩ hfind
      rw [← show _ = replaced ps p from heq, hfind, Option.any_some, Bool.not_not]
    · intro hplain
      cases hfind : (requests ps).find? fun r => SameChain r p with
      | none => exact (replaced_of_find?_none hfind).symm
      | some r => simp [hplain.first p r rfl hfind]
  · have hcount : noneLeft ps 0 (p :: q :: params) = false := by simp [noneLeft]
    rw [hcount, eq_comm, all_eq_false]
    constructor
    · rintro ⟨p, hp, hr⟩
      refine ⟨fun _ => ⟨p, hp, by simpa using hr⟩, ?_⟩
      rintro p r ⟨⟩
    · intro hplain
      obtain ⟨p, hp, hr⟩ := hplain.several (by simp)
      exact ⟨p, hp, by simp [hr]⟩

theorem chainsOf_eq_iff {a : Apex} (hnone : a.nsec = false ∨ a.nsec3params = []) :
    chainsOf a.nsec a.nsec3params a.privates = a.documented ↔ (a.nsec = false → creating a.privates = false → a.Plain) := by
  obtain ⟨nsec, params, ps⟩ := a
  cases nsec with
  | true =>
    obtain rfl : params = [] := hnone.resolve_left nofun
    simp [chainsOf, Apex.documented, anyKept_eq]
  | false =>
    cases params with
    | nil =>
      have hplain : (⟨false, [], ps⟩ : Apex).Plain := by
        refine ⟨fun h => absurd h (by simp), ?_⟩
        rintro p r ⟨⟩
      simp only [chainsOf, Apex.documented, findSigning_eq, Bool.false_or]
      cases ps.any isSigning <;> cases creating ps <;> simp [hplain]
    | cons p params =>
      simp only [chainsOf, Apex.documented, anyCreated_eq]
      cases hcreate : creating ps with
      | true => simp
      | false =>
        rw [← noneLeft_eq_iff hcreate (cons_ne_nil _ _)]
        by_cases hps : ps = []
        · simp [hps, noneLeft, ignore]
        · simp [hps]

/-- The chains are as documented, exactly if NSEC is there, a chain is to be created, or the apex is `Plain`. -/
theorem privateChains_documented {db : Db ε} {privatetype : RdataType} {a : Apex} (hdb : db.Holds privatetype a) :
    privateChains db privatetype = .ok a.documented ↔ (a.nsec = false → creating a.privates = false → a.Plain) := by
  obtain ⟨hnode, hnsec, hparam, hprivate⟩ := hdb
  simp only [privateChains, hnode, hnsec, hparam, bind, Except.bind, pure, Except.pure]
  by_cases hboth : a.nsec = true ∧ a.nsec3params ≠ []
  · obtain ⟨nsec, _ | ⟨p, params⟩, ps⟩ := a
    · exact absurd rfl hboth.2
    · obtain rfl : nsec = true := hboth.1
      simp [Apex.documented]
  · have hnone : a.nsec = false ∨ a.nsec3params = [] := by
      cases hn : a.nsec with
      | false => exact .inl rfl
      | true => exact .inr (not_not.mp (not_and.mp hboth hn))
    rw [if_neg hboth, ← chainsOf_eq_iff hnone]
    split at hprivate
    · next h => simp [if_pos h, hprivate]
    · next h => simp [if_neg h, hprivate]

def saltless (flags : UInt8) : Nsec3Param := ⟨1, flags, (0, 10), [], by decide⟩

def salted (flags : UInt8) : Nsec3Param := ⟨1, flags, (0, 10), [0xab], by decide⟩

def removeSaltless : Bytes := [0, 1, 0x40, 0, 10, 0]

def removeSalted : Bytes := [0, 1, 0x40, 0, 10, 1, 0xab]

def privateDb (a : Apex) : Db Unit := ⟨.ok (), .ok a.nsec, .ok a.nsec3params, .ok a.privates⟩

/-- Both chains are being removed, and no chain is to be built in their place. -/
theorem two_chains_removed :
    privateChains (privateDb ⟨false, [saltless 0, salted 0], [removeSaltless, removeSalted]⟩) 65534 = .ok ⟨false, true⟩ ∧
    Apex.documented ⟨false, [saltless 0, salted 0], [removeSaltless, removeSalted]⟩ = ⟨true, true⟩ := by
  decide

theorem one_chain_removed : privateChains (privateDb ⟨false, [saltless 0], [removeSaltless]⟩) 65534 = .ok ⟨true, true⟩ := by
  have hdb : (privateDb ⟨false, [saltless 0], [removeSaltless]⟩).Holds 65534 ⟨false, [saltless 0], [removeSaltless]⟩ := by
    refine ⟨rfl, rfl, rfl, ?_⟩
    rw [if_neg (by decide)]
    rfl
  have hreq : requests [removeSaltless] = [saltless 0x40] := by decide
  have hplain : Apex.Plain ⟨false, [saltless 0], [removeSaltless]⟩ := by
    refine ⟨by decide, ?_⟩
    rintro p r ⟨⟩ hfind
    rw [hreq] at hfind
    cases (show some (saltless 0x40) = some r from hfind)
    decide
  rw [(privateChains_documented hdb).mpr fun _ _ => hplain]
  decide

end OqsBind.Dns.Private
