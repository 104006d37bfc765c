import OqsBind.Dns.Nta
import OqsBind.Lib.Agents
import OqsBind.Theorems.QpAncestorNames
import Mathlib.Order.Basic

/-! Negative trust anchors against what has been asked for: the last addition of a name counts, until the name is deleted. -/

namespace OqsBind.Dns.NegativeTrust
open Isc List Agents

/-- A table, the expiry that the last addition of each name was for, and the time of the last call. -/
structure World where
  table : Ntatable
  asked : Owner → Option Nat
  now : Nat

def World.create : World := ⟨NegativeTrust.create, fun _ => none, 0⟩

def ask (asked : Owner → Option Nat) : Op → Owner → Option Nat
  | .add name now lifetime => Function.update asked name (some ((now + lifetime) % 2 ^ 32))
  | .delete name => Function.update asked name none
  | _ => asked

def Op.time (now : Nat) : Op → Nat
  | .add _ now _ => now
  | .covered now _ _ => now
  | _ => now

/-- Time does not go back. -/
def World.step (w : World) (op : Op) : Option World :=
  if w.now ≤ op.time w.now then some ⟨NegativeTrust.step w.table op, ask w.asked op, op.time w.now⟩ else none

/-- An anchor that is valid is asked for, for the name or above it, and not above the trust anchor. -/
def Covered (asked : Owner → Option Nat) (now : Nat) (name anchor : Owner) : Prop :=
  ∃ n expiry, n <:+ name ∧ anchor <:+ n ∧ asked n = some expiry ∧ now < expiry

/-- An addition of a name that is in the table is for the expiry that it has there. -/
def Renews (w : World) : Op → Prop
  | .add name now lifetime => ∀ nta, w.table.table name = some nta → nta.expiry = (now + lifetime) % 2 ^ 32
  | _ => True

/-- No expired anchor in the table is closer to the name than one that is valid. -/
def Unhidden (t : Ntatable) (now : Nat) (name : Owner) : Prop :=
  ∀ n m a b, n <:+ name → m <:+ n → t.table n = some a → t.table m = some b → a.expiry ≤ now → b.expiry ≤ now

structure Inv (w : World) : Prop where
  name : ∀ n a, w.table.table n = some a → a.name = n
  asked : ∀ n a, w.table.table n = some a → w.asked n = some a.expiry
  kept : ∀ n expiry, w.asked n = some expiry → w.now < expiry → w.table.table n ≠ none
  jobs : ∀ a ∈ w.table.jobs, a.expiry ≤ w.now

theorem inv_create : Inv .create := ⟨nofun, nofun, nofun, nofun⟩

variable {w w' : World} {op : Op} {table : Owner → Option Nta} {name anchor : Owner} {now : Nat} {a : Nta}

/-- The table and what is asked for change for one name. -/
theorem Inv.write {t : Ntatable} (x : Option Nta) (y : Option Nat) (h : Inv w) (hnow : w.now ≤ now)
    (htable : t.table = Function.update w.table.table name x) (hjobs : ∀ a ∈ t.jobs, a.expiry ≤ w.now)
    (hx : ∀ a, x = some a → a.name = name ∧ y = some a.expiry) (hy : ∀ expiry, y = some expiry → now < expiry → x ≠ none) :
    Inv ⟨t, Function.update w.asked name y, now⟩ := by
  have hcase : ∀ n, n = name ∧ t.table n = x ∧ Function.update w.asked name y n = y ∨
      t.table n = w.table.table n ∧ Function.update w.asked name y n = w.asked n := by
    intro n
    rw [htable]
    by_cases hn : n = name
    · simp [hn]
    · simp [hn]
  refine ⟨fun n a ha => ?_, fun n a ha => ?_, fun n e he hlt => ?_, fun a ha => (hjobs a ha).trans hnow⟩ <;> dsimp only at *
  · rcases hcase n with ⟨rfl, ht, -⟩ | ⟨ht, -⟩
    · exact (hx a (ht.symm.trans ha)).1
    · exact h.name n a (ht.symm.trans ha)
  · rcases hcase n with ⟨rfl, ht, hask⟩ | ⟨ht, hask⟩
    · exact hask.trans (hx a (ht.symm.trans ha)).2
    · exact hask.trans (h.asked n a (ht.symm.trans ha))
  · rcases hcase n with ⟨rfl, ht, hask⟩ | ⟨ht, hask⟩
    · exact ht ▸ hy e (hask.symm.trans he) hlt
    · exact ht ▸ h.kept n e (hask.symm.trans he) (hnow.trans_lt hlt)

theorem Inv.deleteExpired (h : Inv w) {t : Ntatable} (htable : t.table = w.table.table)
    (hjobs : ∀ a ∈ t.jobs, a.expiry ≤ w.now) (ha : a.expiry ≤ w.now) : Inv ⟨deleteExpired t a, w.asked, w.now⟩ := by
  have hsame : Inv ⟨t, w.asked, w.now⟩ := ⟨htable ▸ h.name, htable ▸ h.asked, htable ▸ h.kept, hjobs⟩
  fun_cases NegativeTrust.deleteExpired t a
  case case2 b hb hsame =>
    rw [← Function.update_eq_self a.name w.asked]
    refine h.write none _ le_rfl (by rw [htable]) hjobs nofun fun e he hlt => ?_
    -- what is removed has expired
    cases (h.asked _ b (htable ▸ hb)).symm.trans he
    exact absurd (hsame.1 ▸ ha) (not_le.mpr hlt)
  all_goals exact hsame

theorem Inv.step (h : Inv w) (hop : Renews w op) (hs : w.step op = some w') : Inv w' := by
  obtain ⟨hle, hs⟩ := Option.ite_none_right_eq_some.mp hs
  cases hs
  cases op with
  | add name now lifetime =>
    show Inv ⟨add w.table name now lifetime, _, _⟩
    fun_cases add w.table name now lifetime with
    | case1 a ha =>
      refine h.write (some a) _ hle (by rw [← ha, Function.update_eq_self]) h.jobs (fun b hb => ?_) fun _ _ _ => nofun
      cases hb
      exact ⟨h.name name a ha, congrArg some (hop a ha).symm⟩
    | case2 => exact h.write _ _ hle rfl h.jobs (fun b hb => Option.some.inj hb ▸ ⟨rfl, rfl⟩) fun _ _ _ => nofun
  | delete name =>
    show Inv ⟨delete w.table name, _, _⟩
    fun_cases delete w.table name with
    | case1 ha => exact h.write none none hle (by rw [← ha, Function.update_eq_self]) h.jobs nofun nofun
    | case2 => exact h.write none none hle rfl h.jobs nofun nofun
  | covered now name anchor =>
    have hjobs : ∀ a ∈ w.table.jobs, a.expiry ≤ now := fun a ha => (h.jobs a ha).trans hle
    have hkept : ∀ n e, w.asked n = some e → now < e → w.table.table n ≠ none := fun n e he hlt =>
      h.kept n e he (lt_of_le_of_lt hle hlt)
    show Inv ⟨(covered w.table now name anchor).2, _, _⟩
    fun_cases covered w.table now name anchor
    case case3 a ha hexp =>
      refine ⟨h.name, h.asked, hkept, fun b hb => ?_⟩
      rcases mem_append.mp hb with hb | hb
      · exact hjobs b hb
      · exact mem_singleton.mp hb ▸ hexp
    all_goals exact ⟨h.name, h.asked, hkept, hjobs⟩
  | deleteExpired job =>
    show Inv ⟨NegativeTrust.step w.table (.deleteExpired job), w.asked, w.now⟩
    rw [NegativeTrust.step]
    split
    · exact ⟨h.name, h.asked, h.kept, h.jobs⟩
    · next a ha => exact h.deleteExpired rfl (fun b hb => h.jobs b (mem_of_mem_eraseIdx hb)) (h.jobs a (mem_of_getElem? ha))

variable {result : Qp.FindResult}

theorem findAncestor_none (h : Qp.findAncestor table name = (result, none)) : ∀ n, n <:+ name → table n = none :=
  Qp.nearest_eq_none.mp ((Qp.findAncestor_snd table name).symm.trans (congrArg Prod.snd h))

theorem findAncestor_some (h : Qp.findAncestor table name = (result, some a)) :
    ∃ n, n <:+ name ∧ table n = some a ∧ (∀ m, m <:+ name → table m ≠ none → m <:+ n) ∧ (result ≠ .partialmatch → n = name) := by
  obtain ⟨n, hn, ha, hall⟩ := Qp.nearest_eq_some.mp ((Qp.findAncestor_snd table name).symm.trans (congrArg Prod.snd h))
  refine ⟨n, hn, ha, hall, fun hexact => ?_⟩
  -- what is found above the name is a partial match
  have hsome : table name ≠ none := by
    intro hnone
    rw [Qp.findAncestor, hnone, Qp.findAbove] at h
    cases habove : Qp.above table name <;> rw [habove] at h <;> cases h
    exact hexact rfl
  exact hn.eq_of_length_le (hall name suffix_rfl hsome).length_le

/-- The nearest anchor answers for all, unless it has expired before one above it. -/
theorem Inv.covered_iff (h : Inv w) (hnow : w.now ≤ now) (hanchor : anchor <:+ name) (hu : Unhidden w.table now name) :
    (covered w.table now name anchor).1 = true ↔ Covered w.asked now name anchor := by
  -- what is valid is in the table
  have hkept : Covered w.asked now name anchor → ∃ n b, n <:+ name ∧ anchor <:+ n ∧ w.table.table n = some b ∧ now < b.expiry := by
    rintro ⟨n, e, hn, han, he, hlt⟩
    obtain ⟨b, hb⟩ := Option.ne_none_iff_exists'.mp (h.kept n e he (hnow.trans_lt hlt))
    cases (h.asked n b hb).symm.trans he
    exact ⟨n, b, hn, han, hb, hlt⟩
  fun_cases covered w.table now name anchor with
  | case1 _ hnone =>
    refine iff_of_false nofun fun hcov => ?_
    obtain ⟨n, b, hn, -, hb, -⟩ := hkept hcov
    exact nomatch (findAncestor_none hnone n hn).symm.trans hb
  | case2 result a ha hout =>
    obtain ⟨n, hn, hna, hall, -⟩ := findAncestor_some ha
    refine iff_of_false nofun fun hcov => hout.2 ?_
    obtain ⟨m, b, hm, ham, hb, -⟩ := hkept hcov
    exact h.name n a hna ▸ ham.trans (hall m hm (hb ▸ nofun))
  | case3 result a ha hout hexp =>
    obtain ⟨n, hn, hna, hall, -⟩ := findAncestor_some ha
    refine iff_of_false nofun fun hcov => ?_
    obtain ⟨m, b, hm, -, hb, hlt⟩ := hkept hcov
    exact absurd (hu n m a b hn (hall m hm (hb ▸ nofun)) hna hb hexp) (not_le.mpr hlt)
  | case4 result a ha hout hexp =>
    obtain ⟨n, hn, hna, -, hexact⟩ := findAncestor_some ha
    refine iff_of_true rfl ⟨n, a.expiry, hn, ?_, h.asked n a hna, not_le.mp hexp⟩
    by_cases hpart : result = .partialmatch
    · exact h.name n a hna ▸ not_not.mp fun hnot => hout ⟨hpart, hnot⟩
    · exact hexact hpart ▸ hanchor

/-- As long as no name is added again with another expiry while it is in the table, a name that no expired anchor hides from
    valid ones is covered exactly if a valid anchor is asked for between it and the trust anchor. -/
theorem covered_as_asked (ops : List Op) (hops : EachStep World.step Renews .create ops) :
    Always World.step (fun w => ∀ now name anchor, w.now ≤ now → anchor <:+ name → Unhidden w.table now name →
      ((covered w.table now name anchor).1 = true ↔ Covered w.asked now name anchor)) .create ops :=
  (hops.always (fun _ _ _ h hop hs => h.step hop hs) inv_create).mono fun _ h _ _ _ hnow hanchor hu =>
    h.covered_iff hnow hanchor hu

/-- An anchor for one hour is added again for another day, and is not valid after two hours. An expired anchor hides the one
    above it. -/
theorem added_again_or_hidden :
    ([.add [] 0 3600, .add [] 100 86400].foldlM World.step .create).map
      (fun w => ((covered w.table 7200 [] []).1, w.asked [])) = some (false, some 86500) ∧
    ([.add [[97], [98]] 0 60, .add [[98]] 0 3600].foldlM World.step .create).map
      (fun w => ((covered w.table 100 [[97], [98]] []).1, w.asked [[98]])) = some (false, some 3600) := by
  decide

/-- The root for one hour, `a` for two, the root again until the same time, and `a` deleted. -/
def readded : List Op := [.add [] 0 3600, .add [[97]] 10 7200, .add [] 600 3000, .delete [[97]]]

theorem readded_covered : EachStep World.step Renews .create readded ∧
    Always World.step (fun w => ∀ now name anchor, w.now ≤ now → anchor <:+ name → Unhidden w.table now name →
      ((covered w.table now name anchor).1 = true ↔ Covered w.asked now name anchor)) .create readded ∧
    (readded.foldlM World.step .create).map (fun w =>
      ((covered w.table 1000 [[98], [97]] []).1, (covered w.table 1000 [[98], [97]] [[97]]).1,
        (covered w.table 3600 [[98], [97]] []).1)) = some (true, false, false) := by
  have hops : EachStep World.step Renews .create readded := by
    refine .cons rfl nofun (.cons rfl nofun (.cons rfl (fun nta hnta => ?_) (.cons rfl trivial trivial)))
    cases hnta
    rfl
  exact ⟨hops, covered_as_asked _ hops, by decide⟩

/-! ### The trie of a table -/

section
variable (nameOf : Qp.Leaf → Qp.TrieName) (ntaOf : Qp.Leaf → Nta)

/-- An anchor as a leaf: a pointer that is not null, and the number 0. -/
def leafOf (number : Nat) : Qp.Leaf := ⟨number + 1, 0⟩

/-- The calls on the trie that an operation makes, where `q` is the name it is about. -/
def Op.calls (t : Ntatable) (q : Qp.TrieName) : Op → List (Qp.Call Qp.TrieName)
  | .add name _ _ => .insert (leafOf t.created) :: (if t.table name = none then [] else [.get q]) ++ [.compact .maybe]
  | .delete _ => [.delete q, .compact .maybe]
  | .covered _ _ _ => []
  | .deleteExpired job =>
    match t.jobs[job]? with
    | none => []
    | some nta =>
      .get q :: (if (t.table nta.name).any (·.expiry = nta.expiry) ∧ nta.number ∉ t.shuttingdown then [.delete q] else []) ++
        [.compact .maybe]

/-- `q` is the name that an operation is about, and an anchor that is added is the one of its leaf. -/
def Names (t : Ntatable) (q : Qp.TrieName) : Op → Prop
  | .add name now lifetime => Qp.Name.fold q.val = (true, name) ∧ nameOf (leafOf t.created) = q ∧
    ntaOf (leafOf t.created) = ⟨t.created, name, (now + lifetime) % 2 ^ 32⟩
  | .delete name => Qp.Name.fold q.val = (true, name)
  | .covered _ _ _ => True
  | .deleteExpired job => ∀ nta ∈ t.jobs[job]?, Qp.Name.fold q.val = (true, nta.name)

/-- A table after operations, and the calls that they made on its trie. -/
inductive Runs : Ntatable → List (Qp.Call Qp.TrieName) → Prop
  | create : Runs create []
  | step {t : Ntatable} {cs : List (Qp.Call Qp.TrieName)} {q : Qp.TrieName} {op : Op} : Runs t cs →
    Names nameOf ntaOf t q op → Runs (step t op) (cs ++ op.calls t q)

/-- The table has the anchors of the leaves that are stored under absolute names. -/
def Reads (e : Qp.Entries Qp.FoldedName) (table : Owner → Option Nta) : Prop :=
  table = fun n => (e.under true n).map ntaOf

end

section
variable {nameOf : Qp.Leaf → Qp.TrieName} {ntaOf : Qp.Leaf → Nta} {e : Qp.Entries Qp.FoldedName} {t : Ntatable} {q : Qp.TrieName}

theorem Reads.insert (h : Reads ntaOf e table) (name : Owner) (l : Qp.Leaf) :
    Reads ntaOf (Finmap.insert (true, name) l e) (Function.update table name (some (ntaOf l))) := by
  funext n
  by_cases hn : n = name
  · rw [hn, Function.update_self, Qp.Entries.under, Finmap.lookup_insert]
    rfl
  · rw [Function.update_of_ne hn, h, Qp.Entries.under, Finmap.lookup_insert_of_ne _ (by simpa using hn)]
    rfl

theorem Reads.erase (h : Reads ntaOf e table) (name : Owner) :
    Reads ntaOf (Finmap.erase (true, name) e) (Function.update table name none) := by
  funext n
  by_cases hn : n = name
  · rw [hn, Function.update_self, Qp.Entries.under, Finmap.lookup_erase]
    rfl
  · rw [Function.update_of_ne hn, h, Qp.Entries.under, Finmap.lookup_erase_ne (by simpa using hn)]
    rfl

theorem Reads.step (h : Reads ntaOf e t.table) (hq : Names nameOf ntaOf t q op) :
    Reads ntaOf (Qp.Entries.calls (fun name => Qp.Name.fold name.val) nameOf e (op.calls t q)).2 (step t op).table := by
  cases op with
  | add name now lifetime =>
    obtain ⟨hfold, rfl, hnta⟩ := hq
    have hlookup : t.table name = (e.lookup (Qp.Name.fold (nameOf (leafOf t.created)).val)).map ntaOf := by
      rw [hfold]
      exact congrFun h name
    show Reads ntaOf _ (add t name now lifetime).table
    fun_cases add t name now lifetime with
    | case1 a ha =>
      obtain ⟨l, hl, -⟩ := Option.map_eq_some_iff.mp (hlookup.symm.trans ha)
      simpa [Op.calls, ha, Qp.Entries.calls, Qp.Entries.call, Qp.Entries.insert, hl] using h
    | case2 hnone =>
      have hl := Option.map_eq_none_iff.mp (hlookup.symm.trans hnone)
      have hinsert := h.insert name (leafOf t.created)
      rw [hnta] at hinsert
      simpa [Op.calls, hnone, Qp.Entries.calls, Qp.Entries.call, Qp.Entries.insert, hl, hfold] using hinsert
  | delete name =>
    have hfold : Qp.Name.fold q.val = (true, name) := hq
    have herase := h.erase name
    show Reads ntaOf _ (delete t name).table
    fun_cases delete t name with
    | case1 ha => simpa [Op.calls, Qp.Entries.calls, Qp.Entries.call, hfold, ← ha] using herase
    | case2 => simpa [Op.calls, Qp.Entries.calls, Qp.Entries.call, hfold] using herase
  | covered now name anchor =>
    show Reads ntaOf e (covered t now name anchor).2.table
    fun_cases covered t now name anchor <;> exact h
  | deleteExpired job =>
    show Reads ntaOf _ (NegativeTrust.step t (.deleteExpired job)).table
    rcases hjob : t.jobs[job]? with _ | nta
    · simpa [NegativeTrust.step, Op.calls, hjob, Qp.Entries.calls] using h
    · have hfold : Qp.Name.fold q.val = (true, nta.name) := hq nta hjob
      have herase := h.erase nta.name
      rcases htable : t.table nta.name with _ | pval
      · simpa [NegativeTrust.step, Op.calls, deleteExpired, hjob, htable, Qp.Entries.calls, Qp.Entries.call] using h
      · by_cases hdel : pval.expiry = nta.expiry ∧ nta.number ∉ t.shuttingdown
        · simpa [NegativeTrust.step, Op.calls, deleteExpired, hjob, htable, hdel, Qp.Entries.calls, Qp.Entries.call, hfold]
            using herase
        · simpa [NegativeTrust.step, Op.calls, deleteExpired, hjob, htable, hdel, Qp.Entries.calls, Qp.Entries.call] using h

/-- The search in the trie finds the anchor that the search in the table finds. -/
theorem Runs.findnameAncestor {cs : List (Qp.Call Qp.TrieName)} (h : Runs nameOf ntaOf t cs) (q : Qp.TrieName)
    (hq : q.val.absolute = true) : ∃ s result, Qp.trieAfter nameOf cs = .ok s ∧
      Qp.findnameAncestor (Qp.leafKey nameOf) s.cell s.rootRef q.val false = .ok result ∧
      Qp.findAncestor t.table (Qp.Name.fold q.val).2 = result.map id (Option.map ntaOf) := by
  have hreads : Reads ntaOf (Qp.entriesAfter nameOf cs) t.table := by
    induction h with
    | create => rfl
    | step h hop ih =>
      rw [Qp.entriesAfter_append]
      exact Reads.step ih hop
  obtain ⟨s, F, hs, hshows⟩ := Qp.trieAfter_shows nameOf cs
  refine ⟨s, _, hs, hshows.findAncestor q hq, ?_⟩
  rw [hreads, Qp.findAncestor_map, Qp.Entries.findAncestor, show (Qp.Name.fold q.val).1 = true from hq]

end

end OqsBind.Dns.NegativeTrust
