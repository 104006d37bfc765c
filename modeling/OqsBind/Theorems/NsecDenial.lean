import OqsBind.Dns.Nsec
import OqsBind.Theorems.TypeBitmap
import OqsBind.Theorems.Zone

/-! What `dns_nsec_noexistnodata` concludes from a record of the NSEC chain of a zone is true of the zone. A record leaves
    a gap in the order of the names, from its owner to the next name; what a name in the gap has in common with the zone
    it has in common with one of the two ends (`Gap.common_le`). -/

namespace OqsBind.Dns.Nsec
open Isc Lib Bitmap Name Answer

/-- A record of the NSEC chain of a zone: of an authoritative name, with the next one or, at the end, the apex. -/
structure Record (z : Zone) where
  owner : ZoneNode
  next : ZoneNode
  owner_auth : z.Authoritative owner
  next_auth : z.Authoritative next
  follows :
    (owner.name.path < next.name.path ∧
        ∀ n ∈ z.nodes, z.Authoritative n → ¬ (owner.name.path < n.name.path ∧ n.name.path < next.name.path)) ∨
      (next.name.path = z.apex.path ∧ ∀ n ∈ z.nodes, z.Authoritative n → n.name.path ≤ owner.name.path)

/-- The record as it stands in the zone. -/
def Record.rdata {z : Zone} (r : Record z) : Rdata := ⟨r.next.name, ofTypes r.owner.types⟩

section
variable {z : Zone} {r : Record z} {q : Name} {type : RdataType}

@[simp] theorem typepresent_rdata (r : Record z) (type : RdataType) :
    typepresent r.rdata type = .ok (decide (type ∈ r.owner.types)) := typepresent_ofTypes ..

@[simp] theorem parentSide_rdata (r : Record z) :
    parentSide r.rdata = .ok (decide (.ns ∈ r.owner.types) && !decide (.soa ∈ r.owner.types)) := by
  by_cases hns : RdataType.ns ∈ r.owner.types <;> simp [parentSide, hns, bind, Except.bind, pure, Except.pure]

/-- The name lies after the owner and before the next name, or after the last one. -/
def Gap (r : Record z) (p : List (List Nat)) : Prop :=
  r.owner.name.path < p ∧
    (p < r.next.name.path ∧
        (∀ n, z.Authoritative n → n.name.path ≤ r.owner.name.path ∨ r.next.name.path ≤ n.name.path) ∨
      r.next.name.path < p ∧ ∀ n, z.Authoritative n → n.name.path ≤ r.owner.name.path)

variable {p : List (List Nat)}

theorem gap_of_range (hbelow : z.apex.path <+: p) (hlt : r.owner.name.path < p)
    (hne : r.next.name.path ≠ p) (hrange : r.next.name.path < p → r.next.name.path <+: r.owner.name.path) : Gap r p := by
  refine ⟨hlt, ?_⟩
  rcases r.follows with ⟨hnext, hnone⟩ | ⟨hapex, hlast⟩
  · rcases lt_or_gt_of_ne hne with hpast | hbefore
    · exact absurd (le_of_isPrefix (hrange hpast)) (not_le.mpr hnext)
    · refine .inl ⟨hbefore, fun n hn => ?_⟩
      by_contra hnot
      rw [not_or, not_le, not_le] at hnot
      exact hnone n hn.1 hn hnot
  · have hle : r.next.name.path ≤ p := hapex ▸ le_of_isPrefix hbelow
    exact .inr ⟨lt_of_le_of_ne hle hne, fun n hn => hlast n hn.1 hn⟩

variable {n : ZoneNode}

/-- No authoritative name has more in common with a name in the gap than the ends have. -/
theorem Gap.common_le (h : Gap r p) (hn : z.Authoritative n) :
    common p n.name.path ≤ common p r.owner.name.path ∨ common p n.name.path ≤ common r.next.name.path p := by
  obtain ⟨hlt, ⟨hbefore, hout⟩ | ⟨-, hlast⟩⟩ := h
  · rcases hout n hn with hle | hge
    · left
      rw [common_comm p, common_comm p]
      exact (common_le_of_le hle hlt.le).2
    · right
      rw [common_comm r.next.name.path]
      exact (common_le_of_le hbefore.le hge).1
  · left
    rw [common_comm p, common_comm p]
    exact (common_le_of_le (hlast n hn) hlt.le).2

theorem Gap.ne (h : Gap r p) (hn : z.Authoritative n) : n.name.path ≠ p := by
  rintro rfl
  obtain ⟨hlt, ⟨hbefore, hout⟩ | ⟨-, hlast⟩⟩ := h
  · rcases hout n hn with hle | hge
    · exact absurd hlt (not_lt.mpr hle)
    · exact absurd hbefore (not_lt.mpr hge)
  · exact absurd hlt (not_lt.mpr (hlast n hn))

theorem Gap.prefix_length {c : List (List Nat)} (h : Gap r p) (hocc : ¬ z.Occluded p) (hcp : c <+: p)
    (hc : z.Exists c) : c.length ≤ max (common p r.owner.name.path) (common r.next.name.path p) := by
  obtain ⟨n, hn, hcn⟩ := Zone.exists_authoritative hc (Zone.not_occluded_above hocc hcp)
  have hcommon : c.length ≤ common p n.name.path := by
    refine le_common_iff.mpr ⟨hcp.length_le, ?_⟩
    rwa [← List.prefix_iff_eq_take.mp hcp]
  rcases h.common_le hn with hle | hle
  · exact (hcommon.trans hle).trans (le_max_left _ _)
  · exact (hcommon.trans hle).trans (le_max_right _ _)

theorem Gap.exists_iff (h : Gap r p) (hocc : ¬ z.Occluded p) : z.Exists p ↔ p <+: r.next.name.path := by
  constructor
  · intro hex
    rcases le_max_iff.mp (h.prefix_length hocc (List.prefix_refl p) hex) with hle | hle
    · have hpre := prefix_iff_common.mpr (le_antisymm (common_le_left _ _) hle)
      exact absurd (le_of_isPrefix hpre) (not_le.mpr h.1)
    · rw [common_comm] at hle
      exact prefix_iff_common.mpr (le_antisymm (common_le_left _ _) hle)
  · intro hpre
    exact ⟨r.next, r.next_auth.1, hpre⟩

theorem Gap.no_data (h : Gap r p) (hocc : ¬ z.Occluded p) : ¬ z.Data p type := by
  rintro ⟨n, hn, rfl, -⟩
  exact h.ne ⟨hn, hocc⟩ rfl

/-- What is true of the zone when the code says that a name does not exist. -/
structure Denied (z : Zone) (q : Name) (wild : Option Name) : Prop where
  absent : ¬ z.Exists q.path
  /-- `wild` is the wildcard below the closest encloser `c`. -/
  wildcard : ∃ c w, wild = some w ∧ w.path = c ++ [star] ∧ c <+: q.path ∧ z.Exists c ∧
    ∀ c', c' <+: q.path → z.Exists c' → c' <+: c

/-- What is true of the zone when the code says that a name exists. -/
structure Shown (z : Zone) (q : Name) (type : RdataType) (data : Option Bool) : Prop where
  present : z.Exists q.path
  data_iff : ∃ d, data = some d ∧ (d ↔ z.Data q.path type)

/-- An answer that is true of the zone, if it is one. -/
def Answer.Sound (z : Zone) (q : Name) (type : RdataType) (a : Answer) : Prop :=
  a.result = .success →
    (a.existsp = some false ∧ Denied z q a.wildp) ∨ (a.existsp = some true ∧ Shown z q type a.datap)

theorem Answer.sound_only {result : Result} (h : result ≠ .success) : (Answer.only result).Sound z q type :=
  fun hs => absurd hs h

theorem Answer.sound_data {d : Bool} (hex : z.Exists q.path) (hd : d ↔ z.Data q.path type) :
    Sound z q type ⟨.success, some true, some d, none⟩ := fun _ => .inr ⟨rfl, hex, d, rfl, hd⟩

theorem atOwner_sound (hq : q.path = r.owner.name.path) (olabels : Nat) :
    ∃ a, atOwner type olabels r.rdata = .ok a ∧ a.Sound z q type := by
  have howner : Sound z q type ⟨.success, some true, some (decide (type ∈ r.owner.types)), none⟩ := by
    refine sound_data ⟨r.owner, r.owner_auth.1, hq ▸ List.prefix_refl _⟩ ?_
    rw [decide_eq_true_iff]
    constructor
    · intro h
      exact ⟨r.owner, r.owner_auth.1, hq.symm, h⟩
    · rintro ⟨n, hn, hpath, h⟩
      rwa [← List.inj_on_of_nodup_map z.distinct hn r.owner_auth.1 (hpath.trans hq)]
  have hignore : (only .ignore).Sound z q type := sound_only (by simp)
  simp only [atOwner, typepresent_rdata, bind, Except.bind, pure, Except.pure]
  split
  · exact ⟨_, rfl, hignore⟩
  · split
    · exact ⟨_, rfl, hignore⟩
    · split
      · exact ⟨_, rfl, howner⟩
      · split
        · exact ⟨_, rfl, hignore⟩
        · exact ⟨_, rfl, howner⟩

/-- A name that shares its path with a name in the gap as far as one of the ends does is the closest encloser. -/
theorem Gap.denied {c : Name} (h : Gap r q.path) (hq : q.absolute) (hocc : ¬ z.Occluded q.path)
    (hsub : ¬ q.path <+: r.next.name.path) (hc : c.absolute) (hex : z.Exists c.path)
    (hpath : c.path = q.path.take (max (common q.path r.owner.name.path) (common r.next.name.path q.path))) :
    ∃ w, wildcardname.concatenate c = some w ∧ Denied z q (some w) := by
  have habsent : ¬ z.Exists q.path := fun hex => hsub ((h.exists_iff hocc).mp hex)
  have hcq : c.path <+: q.path := hpath ▸ List.take_prefix _ _
  have hne : c.path ≠ q.path := fun heq => habsent (heq ▸ hex)
  obtain ⟨w, hw, hwpath, -⟩ := concatenate_wildcard hc hq hcq hne
  refine ⟨w, hw, habsent, c.path, w, rfl, hwpath, hcq, hex, fun c' hc' hex' => ?_⟩
  rw [hpath, List.prefix_take_iff]
  exact ⟨hc', h.prefix_length hocc hc' hex'⟩

theorem suffix_common (hn : n ∈ z.nodes) (hbelow : z.apex.path <+: q.path) :
    (n.name.suffix (common q.path n.name.path)).path = q.path.take (common q.path n.name.path) ∧
      (n.name.suffix (common q.path n.name.path)).absolute ∧
      z.Exists (n.name.suffix (common q.path n.name.path)).path := by
  have hpos : 0 < common q.path n.name.path := by
    refine z.apex_length_pos.trans_le (le_common_iff.mpr ⟨hbelow.length_le, ?_⟩)
    rw [← List.prefix_iff_eq_take.mp hbelow]
    exact z.below n hn
  have hle := common_le_right q.path n.name.path
  rw [length_path] at hle
  obtain ⟨hpath, habs⟩ := path_suffix (z.absolute n hn) hpos hle
  refine ⟨hpath.trans (take_common _ _).symm, habs, n, hn, ?_⟩
  rw [hpath]
  exact List.take_prefix _ _

theorem inRange_sound (hq : q.absolute) (hbelow : z.apex.path <+: q.path) (hocc : ¬ z.Occluded q.path)
    (hlt : r.owner.name.path < q.path) :
    (inRange q r.owner.name (common q.path r.owner.name.path) r.rdata).Sound z q type := by
  have hignore : (only .ignore).Sound z q type := sound_only (by simp)
  have horder : (r.next.name.fullcompare q).order = r.next.name.compare q := rfl
  simp only [inRange, Record.rdata, fullcompare_nlabels, horder, compare_eq_zero_iff]
  by_cases hne : r.next.name.path = q.path
  · rw [if_pos hne]
    exact hignore
  rw [if_neg hne]
  split
  · exact hignore
  rename_i hrange
  have hgap : Gap r q.path := by
    refine gap_of_range hbelow hlt hne fun hpast => ?_
    simpa [compare_neg_iff, hpast, issubdomain_iff] using hrange
  split
  · rename_i hent
    simp only [gt_iff_lt, Bool.and_eq_true, decide_eq_true_iff, fullcompare_subdomain] at hent
    refine sound_data ⟨r.next, r.next_auth.1, hent.2.1⟩ ?_
    simpa using hgap.no_data hocc
  · rename_i hent
    have hsub : ¬ q.path <+: r.next.name.path := by
      intro hpre
      have hbefore := lt_of_le_of_ne (le_of_isPrefix hpre) (Ne.symm hne)
      exact hent (by simp [compare_pos_iff, hbefore, fullcompare_subdomain, hpre, Ne.symm hne])
    -- the end that has more in common with the name
    have hdenied : ∃ w, wildcardname.concatenate
        (if common q.path r.owner.name.path > common r.next.name.path q.path then
          r.owner.name.suffix (common q.path r.owner.name.path)
        else r.next.name.suffix (common r.next.name.path q.path)) = some w ∧ Denied z q (some w) := by
      split
      · rename_i hmore
        obtain ⟨hpath, habs, hex⟩ := suffix_common r.owner_auth.1 hbelow
        refine hgap.denied hq hocc hsub habs hex ?_
        rw [hpath, max_eq_left hmore.le]
      · rename_i hless
        obtain ⟨hpath, habs, hex⟩ := suffix_common r.next_auth.1 hbelow
        rw [common_comm] at hpath habs hex
        refine hgap.denied hq hocc hsub habs hex ?_
        rw [hpath, max_eq_right (not_lt.mp hless)]
    obtain ⟨w, hw, hd⟩ := hdenied
    rw [hw]
    exact fun _ => .inl ⟨rfl, hd⟩

end

/-- For a name of the zone that is not below a delegation or a DNAME: what the code concludes from a record of the chain
    is true. -/
theorem noexistnodata_sound (z : Zone) (r : Record z) (type : RdataType) (q : Name) (hq : q.absolute)
    (hbelow : z.apex.path <+: q.path) (hocc : ¬ z.Occluded q.path) :
    ∃ a, noexistnodata type q r.owner.name [r.rdata] = .ok a ∧
      (a.result = .success →
        (a.existsp = some false ∧ Denied z q a.wildp) ∨ (a.existsp = some true ∧ Shown z q type a.datap)) := by
  have hignore : (only .ignore).Sound z q type := sound_only (by simp)
  have horder : (q.fullcompare r.owner.name).order = q.compare r.owner.name := rfl
  simp only [noexistnodata, horder, compare_neg_iff, compare_eq_zero_iff, fullcompare_nlabels]
  by_cases hbefore : q.path < r.owner.name.path
  · rw [if_pos hbefore]
    exact ⟨_, rfl, hignore⟩
  rw [if_neg hbefore]
  by_cases howner : q.path = r.owner.name.path
  · rw [if_pos howner]
    exact atOwner_sound howner _
  rw [if_neg howner]
  have hlt := lt_of_le_of_ne (not_lt.mp hbefore) (Ne.symm howner)
  have hrange : (inRange q r.owner.name (common q.path r.owner.name.path) r.rdata).Sound z q type :=
    inRange_sound hq hbelow hocc hlt
  split
  · simp only [parentSide_rdata, typepresent_rdata, bind, Except.bind, pure, Except.pure]
    split
    · exact ⟨_, rfl, hignore⟩
    · split
      · exact ⟨_, rfl, fun h => by cases h⟩
      · exact ⟨_, rfl, hrange⟩
  · exact ⟨_, rfl, hrange⟩

/-- The root with two names below it, the second one a delegation. -/
def rootZone : Zone where
  apex := ⟨[], true, Name.root_length_le⟩
  nodes := [⟨⟨[], true, Name.root_length_le⟩, [.soa, .ns]⟩, ⟨.tld 0x61, [1]⟩, ⟨.tld 0x63, [.ns]⟩]
  absolute := by decide
  below := by decide
  distinct := by decide
  apex_mem := by decide

def rootRecord : Record rootZone where
  owner := ⟨.tld 0x61, [1]⟩
  next := ⟨.tld 0x63, [.ns]⟩
  owner_auth := by decide
  next_auth := by decide
  follows := .inl (by decide)

theorem noexistnodata_rootZone :
    ¬ rootZone.Occluded (tld 0x62).path ∧
      ∃ a, noexistnodata 1 (.tld 0x62) (.tld 0x61) [rootRecord.rdata] = .ok a ∧
        (a.result = .success → (a.existsp = some false ∧ Denied rootZone (.tld 0x62) a.wildp) ∨
          (a.existsp = some true ∧ Shown rootZone (.tld 0x62) 1 a.datap)) :=
  ⟨by decide, noexistnodata_sound rootZone rootRecord 1 (.tld 0x62) rfl (by decide) (by decide)⟩

end OqsBind.Dns.Nsec
