/-
What the checks of a zone accept, as propositions about its records: what each must be
by itself, what two of one owner must have in common, and what may stand at and below a
delegation.
-/
import Mathlib.Data.List.Dedup
import Mathlib.Data.List.Infix
import Mathlib.Data.List.Pairwise
import Wegweiser.Zone.Zone

namespace Wegweiser

open Checked List Record

theorem isReverseName_of_parse {n : Name} {p : Prefix} (hp : parseReversePrefix n = .ok p) :
    isReverseName n = true := by
  rw [parseReversePrefix] at hp
  rw [isReverseName, Bool.or_eq_true]
  by_cases h4 : n.isSubDomainOf arpaV4 = true
  · exact .inl h4
  · by_cases h6 : n.isSubDomainOf arpaV6 = true
    · exact .inr h6
    · simp [h4, h6] at hp

def Zone.FitsName (z : Zone) : Prop :=
  z.kind = .forward ∧ z.netPrefix = none ∧ isReverseName z.name = false ∨
    z.kind = .reverse ∧ ∃ p, parseReversePrefix z.name = .ok p ∧ z.netPrefix = some p

variable {z : Zone} {name : Name} {records : List Record}

theorem Zone.validate_eq_ok :
    z.validate = .ok () ↔
      validTTL z.defaultTTL = true ∧ z.soa.validate = .ok () ∧ z.FitsName := by
  simp only [Zone.validate, bind_eq_ok, ensure_eq_ok, Zone.FitsName]
  cases hkind : z.kind with
  | forward =>
    simp only [bind_eq_ok, ensure_eq_ok, Option.isNone_iff_eq_none, Bool.not_eq_true']
    constructor
    · rintro ⟨-, httl, ⟨⟩, hsoa, -, hnone, hname⟩
      exact ⟨httl, hsoa, .inl ⟨trivial, hnone, hname⟩⟩
    · rintro ⟨httl, hsoa, ⟨-, hnone, hname⟩ | ⟨hno, -⟩⟩
      · exact ⟨⟨⟩, httl, ⟨⟩, hsoa, ⟨⟩, hnone, hname⟩
      · cases hno
  | reverse =>
    simp only [bind_eq_ok, ensure_eq_ok, beq_iff_eq]
    constructor
    · rintro ⟨-, httl, ⟨⟩, hsoa, -, -, p, hp, heq⟩
      exact ⟨httl, hsoa, .inr ⟨trivial, p, hp, heq.symm⟩⟩
    · rintro ⟨httl, hsoa, ⟨hno, -⟩ | ⟨-, p, hp, heq⟩⟩
      · cases hno
      · exact ⟨⟨⟩, httl, ⟨⟩, hsoa, ⟨⟩, by rw [heq]; rfl, p, hp, heq.symm⟩

/-- What a record must be by itself to stand in the zone. -/
structure Record.FitsIn (z : Zone) (r : Record) : Prop where
  inside : z.contains r.name = true
  valid : r.validate = .ok ()
  apex : r.type = typeCNAME → z.isApex r.name = false
  network : z.kind = .reverse → r.type = typePTR →
    ∀ p, parseReversePrefix r.name = .ok p → z.prefixContains p.addr = true

/-- What two records of one owner must have in common. -/
structure Record.Coexists (a b : Record) : Prop where
  cname : a.type = typeCNAME ↔ b.type = typeCNAME
  single : a.key = b.key → a.type ≠ typeCNAME
  ttl : a.key = b.key → a.ttl = b.ttl
  data : a.key = b.key → a.rdata.text ≠ b.rdata.text

def Record.StandsUnder (r : Record) (point : Name) : Prop :=
  if point = r.name then r.type = typeNS else r.type = typeA ∨ r.type = typeAAAA

theorem Record.Coexists.symm {a b : Record} (h : a.Coexists b) : b.Coexists a where
  cname := h.cname.symm
  single hkey hb := h.single hkey.symm (h.cname.mpr hb)
  ttl hkey := (h.ttl hkey.symm).symm
  data hkey := (h.data hkey.symm).symm

theorem pairwise_groups {α β : Type*} [DecidableEq β] {group : α → β} {R : α → α → Prop}
    {l : List α} :
    (∀ k ∈ l.map group, (l.filter fun a => group a == k).Pairwise R) ↔
      l.Pairwise fun a b => group a = group b → R a b := by
  constructor
  · intro h
    refine pairwise_iff_forall_sublist.mpr fun {a b} hab heq => ?_
    have hpair := h (group a) (mem_map_of_mem (hab.subset mem_cons_self))
    refine pairwise_iff_forall_sublist.mp hpair ?_
    have hsub := hab.filter fun x => group x == group a
    simpa [← heq] using hsub
  · intro h k _
    rw [pairwise_filter]
    refine h.imp fun hab ha hb => hab ?_
    rw [beq_iff_eq.mp ha, beq_iff_eq.mp hb]

section RRset

variable {key : RRsetKey} {ttl : TTL} {records : List Record}

/-- One record of `ValidateRRset`, with the data seen so far. -/
def validateMember (key : RRsetKey) (ttl : TTL) (seen : List Octets) (r : Record) :
    Except Err (List Octets) := do
  r.validate
  ensure (r.key == key) (.invalid "record is not part of the RRset")
  ensure (r.ttl == ttl) (.invalid "every record in an RRset must share one TTL")
  ensure (!seen.contains r.rdata.text) (.invalid "data appears twice in the RRset")
  pure (r.rdata.text :: seen)

variable {seen : List Octets}

theorem validateMember_eq_ok {out : List Octets} {r : Record} :
    validateMember key ttl seen r = .ok out ↔
      (r.validate = .ok () ∧ r.key = key ∧ r.ttl = ttl ∧ r.rdata.text ∉ seen) ∧
        out = r.rdata.text :: seen := by
  simp only [validateMember, check_eq_ok, ensure_eq_ok, return_eq_ok, beq_iff_eq,
    Bool.not_eq_true', contains_eq_mem, decide_eq_false_iff_not, and_assoc]

theorem validateMembers_accepted :
    accepted (records.foldlM (validateMember key ttl) seen) ↔
      (∀ r ∈ records, r.validate = .ok () ∧ r.key = key ∧ r.ttl = ttl ∧ r.rdata.text ∉ seen) ∧
        records.Pairwise fun a b => a.rdata.text ≠ b.rdata.text := by
  induction records generalizing seen with
  | nil => simp [accepted]
  | cons head tail ih =>
    rw [foldlM_cons, accepted_bind, forall_mem_cons, pairwise_cons]
    simp only [validateMember_eq_ok, ih]
    constructor
    · intro h
      obtain ⟨_, ⟨hhead, rfl⟩, hall, hpairs⟩ := h
      refine ⟨⟨hhead, fun r hr => ?_⟩, fun r hr heq => ?_, hpairs⟩
      · obtain ⟨hvalid, hkey, httl, hseen⟩ := hall r hr
        exact ⟨hvalid, hkey, httl, not_mem_of_not_mem_cons hseen⟩
      · exact ne_of_not_mem_cons (hall r hr).2.2.2 heq.symm
    · intro h
      obtain ⟨⟨hhead, hall⟩, hfirst, hpairs⟩ := h
      refine ⟨_, ⟨hhead, rfl⟩, fun r hr => ?_, hpairs⟩
      obtain ⟨hvalid, hkey, httl, hseen⟩ := hall r hr
      exact ⟨hvalid, hkey, httl,
        not_mem_cons_of_ne_of_not_mem (fun heq => hfirst r hr heq.symm) hseen⟩

theorem validateRRset_eq_ok (hkey : ∀ r ∈ records, r.key = key) :
    validateRRset records = .ok () ↔
      (∀ r ∈ records, r.validate = .ok ()) ∧ records.Pairwise Coexists := by
  cases records with
  | nil => simp [validateRRset]
  | cons first rest =>
    have hrun : validateRRset (first :: rest) = .ok () ↔
        accepted ((first :: rest).foldlM (validateMember first.key first.ttl) []) ∧
          (first.type ≠ typeCNAME ∨ rest = []) := by
      change (((first :: rest).foldlM (validateMember first.key first.ttl) [] >>= fun _ => _) =
        _) ↔ _
      rw [bind_eq_ok, accepted, ← exists_and_right]
      simp
    have hfirst : first.key = key := hkey first mem_cons_self
    have htype {r : Record} (hr : r ∈ first :: rest) : r.type = first.type :=
      congrArg RRsetKey.type ((hkey r hr).trans hfirst.symm)
    rw [hrun, validateMembers_accepted]
    constructor
    · intro h
      obtain ⟨⟨hall, hpairs⟩, hsingle⟩ := h
      refine ⟨fun r hr => (hall r hr).1, ?_⟩
      rcases hsingle with hsingle | rfl
      · refine hpairs.imp_of_mem fun {a b} ha hb hne => ?_
        refine ⟨by rw [htype ha, htype hb], fun _ => by rwa [htype ha], fun _ => ?_, fun _ => hne⟩
        rw [(hall a ha).2.2.1, (hall b hb).2.2.1]
      · exact pairwise_singleton _ _
    · intro h
      obtain ⟨hall, hpairs⟩ := h
      have hrest := (pairwise_cons.mp hpairs).1
      refine ⟨⟨fun r hr => ⟨hall r hr, (hkey r hr).trans hfirst.symm, ?_, not_mem_nil⟩, ?_⟩, ?_⟩
      · rcases mem_cons.mp hr with rfl | hr'
        · rfl
        · exact ((hrest r hr').ttl (hfirst.trans (hkey r hr).symm)).symm
      · exact hpairs.imp_of_mem fun ha hb hab =>
          hab.data ((hkey _ ha).trans (hkey _ hb).symm)
      · cases rest with
        | nil => exact .inr rfl
        | cons second others =>
          have hsecond := hkey second (mem_cons_of_mem _ mem_cons_self)
          exact .inl ((hrest second mem_cons_self).single (hfirst.trans hsecond.symm))

end RRset

theorem validateOwner_eq_ok :
    validateOwner z name records = .ok () ↔
      z.contains name = true ∧ (∀ r ∈ records, r.name = name ∧ r.FitsIn z) ∧
        records.Pairwise Record.Coexists := by
  have hsets : (∀ key ∈ records.map Record.key,
        validateRRset (records.filter fun r => r.key == key) = .ok ()) ↔
      (∀ r ∈ records, r.validate = .ok ()) ∧
        records.Pairwise fun a b => a.key = b.key → a.Coexists b := by
    have hset (key : RRsetKey) := @validateRRset_eq_ok key (records.filter fun r => r.key == key)
      fun r hr => beq_iff_eq.mp (mem_filter.mp hr).2
    simp only [hset, ← pairwise_groups]
    constructor
    · intro h
      refine ⟨fun r hr => ?_, fun key hkey => (h key hkey).2⟩
      exact (h r.key (mem_map_of_mem hr)).1 r (mem_filter.mpr ⟨hr, beq_self_eq_true _⟩)
    · intro h key hkey
      exact ⟨fun r hr => h.1 r (mem_filter.mp hr).1, h.2 key hkey⟩
  simp only [validateOwner, bind_eq_ok, ensure_eq_ok, forM_eq_ok, all_eq_true, beq_iff_eq,
    mem_dedup, hsets, Bool.not_eq_true', Bool.and_eq_false_iff, Bool.or_eq_true,
    bne_iff_ne, any_eq_false]
  constructor
  · intro h
    obtain ⟨-, hin, -, hnames, -, ⟨hvalid, hpairs⟩, -, hcname, -, hapex, hnetwork⟩ := h
    refine ⟨hin, fun r hr => ⟨hnames r hr, ?_⟩, ?_⟩
    · have hname := hnames r hr
      refine ⟨hname ▸ hin, hvalid r hr, fun hc => ?_, fun hkind hptr p hp => ?_⟩
      · rw [hname]
        exact hapex.resolve_left fun hnone => hnone r hr hc
      · have hr' := (hnetwork.resolve_left (fun hne => hne hkind) r hr).resolve_left
          (fun hne => hne hptr)
        rwa [hp] at hr'
    · refine hpairs.imp_of_mem fun {a b} ha hb hab => ?_
      have hsame : a.type = typeCNAME ↔ b.type = typeCNAME := by
        rcases hcname with hnone | hnone
        · exact iff_of_false (hnone a ha) (hnone b hb)
        · exact iff_of_true (not_not.mp (hnone a ha)) (not_not.mp (hnone b hb))
      exact ⟨hsame, fun hkey => (hab hkey).single hkey, fun hkey => (hab hkey).ttl hkey,
        fun hkey => (hab hkey).data hkey⟩
  · intro h
    obtain ⟨hin, hall, hpairs⟩ := h
    refine ⟨⟨⟩, hin, ⟨⟩, fun r hr => (hall r hr).1, ⟨⟩,
      ⟨fun r hr => (hall r hr).2.valid, ?_⟩, ⟨⟩, ?_, ⟨⟩, ?_, ?_⟩
    · exact hpairs.imp fun {a b} hab (_ : a.key = b.key) => hab
    · by_cases hc : ∃ r ∈ records, r.type = typeCNAME
      · obtain ⟨r, hr, hc⟩ := hc
        refine .inr fun x hx => not_not.mpr ?_
        by_cases heq : x = r
        · rwa [heq]
        · have hsymm : Std.Symm Record.Coexists := ⟨fun _ _ => Record.Coexists.symm⟩
          exact (hpairs.forall hx hr heq).cname.mpr hc
      · exact .inl fun x hx hx' => hc ⟨x, hx, hx'⟩
    · by_cases hc : ∃ r ∈ records, r.type = typeCNAME
      · obtain ⟨r, hr, hc⟩ := hc
        have hfit := (hall r hr).2.apex hc
        rw [(hall r hr).1] at hfit
        exact .inr hfit
      · exact .inl fun x hx hx' => hc ⟨x, hx, hx'⟩
    · by_cases hkind : z.kind = .reverse
      · refine .inr fun r hr => ?_
        by_cases hptr : r.type = typePTR
        · refine .inr ?_
          cases hp : parseReversePrefix r.name with
          | error e => rfl
          | ok p => exact (hall r hr).2.network hkind hptr p hp
        · exact .inl hptr
      · exact .inl hkind

theorem validateUnderDelegation_eq_ok
    {delegation : Option Name} (hname : ∀ r ∈ records, r.name = name) :
    validateUnderDelegation name records delegation = .ok () ↔
      ∀ r ∈ records, ∀ point, delegation = some point → r.StandsUnder point := by
  cases delegation with
  | none => simp [validateUnderDelegation]
  | some point =>
    have hcongr (r : Record) (hr : r ∈ records) :
        (∀ p, some point = some p → r.StandsUnder p) ↔
          if point = name then r.type = typeNS else r.type = typeA ∨ r.type = typeAAAA := by
      simp only [Option.some.injEq, forall_eq', StandsUnder, hname r hr]
    rw [validateUnderDelegation, forall₂_congr hcongr]
    split <;> simp

namespace Name

variable {n m p : Name}

theorem isSubDomainOf_iff : n.isSubDomainOf p = true ↔ p.labels <:+ n.labels := by
  simp [isSubDomainOf]

theorem isSubDomainOf_refl (n : Name) : n.isSubDomainOf n = true :=
  isSubDomainOf_iff.mpr (suffix_refl _)

theorem isSubDomainOf_trans (h : n.isSubDomainOf m = true) (h' : m.isSubDomainOf p = true) :
    n.isSubDomainOf p = true :=
  isSubDomainOf_iff.mpr ((isSubDomainOf_iff.mp h').trans (isSubDomainOf_iff.mp h))

theorem isSubDomainOf_antisymm (h : n.isSubDomainOf m = true) (h' : m.isSubDomainOf n = true) :
    n = m := by
  have hlen := (isSubDomainOf_iff.mp h).length_le
  exact ext_labels ((isSubDomainOf_iff.mp h').eq_of_length_le hlen)

theorem isSubDomainOf_total (h : n.isSubDomainOf m = true) (h' : n.isSubDomainOf p = true) :
    m.isSubDomainOf p = true ∨ p.isSubDomainOf m = true := by
  rcases suffix_or_suffix_of_suffix (isSubDomainOf_iff.mp h') (isSubDomainOf_iff.mp h) with
    hs | hs
  · exact .inl (isSubDomainOf_iff.mpr hs)
  · exact .inr (isSubDomainOf_iff.mpr hs)

theorem upwardsFrom_labels {fuel : Nat} (h : n.labelCount ≤ fuel) :
    (upwardsFrom fuel n).map labels = n.labels.tails := by
  induction fuel generalizing n with
  | zero =>
    have hnil : n.labels = [] := length_eq_zero_iff.mp (Nat.le_zero.mp h)
    simp [upwardsFrom, hnil]
  | succ fuel ih =>
    obtain ⟨labels, hlabels, hwire⟩ := n
    cases labels with
    | nil => simp [upwardsFrom, parent]
    | cons head tail =>
      rw [upwardsFrom, map_cons, tails]
      exact congrArg _ (ih (Nat.le_of_succ_le_succ h))

theorem upwards_labels (n : Name) : n.upwards.map labels = n.labels.tails :=
  upwardsFrom_labels (Nat.le_refl _)

theorem mem_upwards : p ∈ n.upwards ↔ n.isSubDomainOf p = true := by
  rw [isSubDomainOf_iff, ← mem_tails, ← upwards_labels, mem_map]
  constructor
  · intro h
    exact ⟨p, h, rfl⟩
  · intro h
    obtain ⟨q, hq, heq⟩ := h
    rwa [← ext_labels heq]

theorem upwards_pairwise (n : Name) : n.upwards.Pairwise fun a b => a.isSubDomainOf b = true := by
  have htails (l : List Octets) : l.tails.Pairwise fun a b => b <:+ a := by
    induction l with
    | nil => simp
    | cons head tail ih =>
      rw [tails, pairwise_cons]
      exact ⟨fun b hb => ((mem_tails _ _).mp hb).trans (suffix_cons head tail), ih⟩
  have hpairs := htails n.labels
  rw [← upwards_labels, pairwise_map] at hpairs
  exact hpairs.imp fun h => isSubDomainOf_iff.mpr h

/-- The closest name at or above a name that has a property. -/
structure Closest (P : Name → Prop) (n p : Name) : Prop where
  holds : P p
  above : n.isSubDomainOf p = true
  least : ∀ q, P q → n.isSubDomainOf q = true → p.isSubDomainOf q = true

variable {P : Name → Prop} {f : Name → Bool}

theorem Closest.unique {q : Name} (h : Closest P n p) (h' : Closest P n q) : p = q :=
  isSubDomainOf_antisymm (h.least q h'.holds h'.above) (h'.least p h.holds h.above)

theorem Closest.congr {Q : Name → Prop} (hiff : ∀ q, n.isSubDomainOf q = true → (P q ↔ Q q)) :
    Closest P n p ↔ Closest Q n p := by
  constructor
  · intro h
    exact ⟨(hiff p h.above).mp h.holds, h.above, fun q hq hn => h.least q ((hiff q hn).mpr hq) hn⟩
  · intro h
    exact ⟨(hiff p h.above).mpr h.holds, h.above, fun q hq hn => h.least q ((hiff q hn).mp hq) hn⟩

theorem closest_of_find? (h : n.upwards.find? f = some p) : Closest (fun q => f q = true) n p := by
  obtain ⟨hp, front, back, heq, hfront⟩ := find?_eq_some_iff_append.mp h
  refine ⟨hp, mem_upwards.mp (mem_of_find?_eq_some h), fun q hq hn => ?_⟩
  have hmem := mem_upwards.mpr hn
  rw [heq, mem_append, mem_cons] at hmem
  rcases hmem with hmem | rfl | hmem
  · have hnot := hfront q hmem
    rw [hq] at hnot
    cases hnot
  · exact isSubDomainOf_refl q
  · have hpairs := upwards_pairwise n
    rw [heq, pairwise_append, pairwise_cons] at hpairs
    exact hpairs.2.1.1 q hmem

theorem find?_upwards : n.upwards.find? f = some p ↔ Closest (fun q => f q = true) n p := by
  constructor
  · exact closest_of_find?
  · intro h
    cases hfind : n.upwards.find? f with
    | none => exact absurd h.holds (find?_eq_none.mp hfind p (mem_upwards.mpr h.above))
    | some q => rw [(closest_of_find? hfind).unique h]

end Name

def Delegated (z : Zone) (records : List Record) (n : Name) : Prop :=
  z.isApex n = false ∧ ∃ r ∈ records, r.name = n ∧ r.type = typeNS

/-- What `ValidateZone` accepts. -/
structure ZoneFits (z : Zone) (records : List Record) : Prop where
  zone : z.validate = .ok ()
  alone : ∀ r ∈ records, r.FitsIn z
  pairs : records.Pairwise fun a b => a.name = b.name → a.Coexists b
  apex : ∃ r ∈ records, r.name = z.name ∧ r.type = typeNS
  delegations : ∀ r ∈ records, ∀ p, Name.Closest (Delegated z records) r.name p → r.StandsUnder p

theorem validateZone_eq_ok : validateZone z records = .ok () ↔ ZoneFits z records := by
  have howner (name : Name) := @validateOwner_eq_ok z name (records.filter fun r => r.name == name)
  have hunder (name : Name) (d : Option Name) :=
    @validateUnderDelegation_eq_ok name (records.filter fun r => r.name == name) d
      fun r hr => beq_iff_eq.mp (mem_filter.mp hr).2
  have hdelegated (q : Name) : ((records.filter fun r => r.type == typeNS && !z.isApex r.name).map
      name).contains q = true ↔ Delegated z records q := by
    simp only [contains_eq_mem, decide_eq_true_eq, mem_map, mem_filter,
      Bool.and_eq_true, beq_iff_eq, Bool.not_eq_true', Delegated]
    constructor
    · intro h
      obtain ⟨r, ⟨hr, htype, hapex⟩, rfl⟩ := h
      exact ⟨hapex, r, hr, rfl, htype⟩
    · intro h
      obtain ⟨hapex, r, hr, rfl, htype⟩ := h
      exact ⟨r, ⟨hr, htype, hapex⟩, rfl⟩
  simp only [validateZone, bind_eq_ok, ensure_eq_ok, forM_eq_ok, mem_dedup, howner, hunder,
    all_eq_true, any_eq_true, mem_filter, beq_iff_eq, Name.find?_upwards, hdelegated]
  constructor
  · intro h
    obtain ⟨_, hzone, -, hin, -, howners, -, ⟨r, ⟨hr, hname⟩, htype⟩, hunders⟩ := h
    have hmem {r : Record} (hr : r ∈ records) := mem_map_of_mem (f := name) hr
    refine ⟨hzone, fun r hr => ((howners r.name (hmem hr)).2.1 r ⟨hr, rfl⟩).2, ?_,
      ⟨r, hr, hname, htype⟩, fun r hr => hunders r.name (hmem hr) r ⟨hr, rfl⟩⟩
    exact pairwise_groups.mp fun name hname => (howners name hname).2.2
  · intro h
    obtain ⟨r, hr, hname, htype⟩ := h.apex
    refine ⟨(), h.zone, ⟨⟩, fun r hr => (h.alone r hr).inside, ⟨⟩, fun name hname => ?_, ⟨⟩,
      ⟨r, ⟨hr, hname⟩, htype⟩, ?_⟩
    · obtain ⟨o, ho, rfl⟩ := mem_map.mp hname
      exact ⟨(h.alone o ho).inside, fun r hr => ⟨hr.2, h.alone r hr.1⟩,
        pairwise_groups.mpr h.pairs _ hname⟩
    · intro name _ r hr
      obtain ⟨hr, rfl⟩ := hr
      exact h.delegations r hr

end Wegweiser
