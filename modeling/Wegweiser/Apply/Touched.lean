/-
The check of the names a change set touches, against the check of the whole zone.

Where the zone was sound before, looking at the touched names and at what lies below a
touched delegation is looking at everything.
-/
import Wegweiser.Apply.Batch
import Wegweiser.Store.Spec
import Wegweiser.Zone.Valid

namespace Wegweiser

open Checked List Store

def Store.recordsOf (s : Store) (zid : ZoneID) : List Record :=
  s.records.filter fun r => r.zoneID == zid

variable {s : Store} {zid : ZoneID}

theorem Store.mem_recordsOf {r : Record} :
    r ∈ s.recordsOf zid ↔ r ∈ s.records ∧ r.zoneID = zid := by
  simp [recordsOf]

theorem Store.ownerRecords_perm {name : Name} :
    (s.ownerRecords zid name).Perm ((s.recordsOf zid).filter fun r => r.name == name) := by
  rw [ownerRecords, listRecords, recordsOf, filter_filter]
  refine (perm_insertionSort _ _).trans (Perm.of_eq (filter_congr fun r _ => ?_))
  exact Bool.and_comm _ _

/-- What `validateName` checks at one name. -/
structure NameFits (s : Store) (z : Zone) (n : Name) : Prop where
  owner : validateOwner z n (s.ownerRecords z.id n) = .ok ()
  under : validateUnderDelegation n (s.ownerRecords z.id n) (closestDelegation s z n) = .ok ()
  apex : z.isApex n = true → ((s.ownerRecords z.id n).any fun r => r.type == typeNS) = true

/-- What `validateName` reports: whether the name delegates to another zone. -/
def delegates (s : Store) (z : Zone) (n : Name) : Bool :=
  !z.isApex n && (s.ownerRecords z.id n).any fun r => r.type == typeNS

section Walk

variable {s : Store} {z : Zone} {n m : Name} {seen out : List Name}

theorem validateName_eq_ok {d : Bool} :
    validateName s z n seen = .ok (d, out) ↔
      n ∈ seen ∧ d = false ∧ out = seen ∨
        n ∉ seen ∧ NameFits s z n ∧ d = delegates s z n ∧ out = n :: seen := by
  rw [validateName]
  by_cases hseen : n ∈ seen
  · simp [hseen, eq_comm]
  · have hnot : seen.contains n = false := by simpa using hseen
    simp only [hnot, Bool.false_eq_true, if_false, hseen, false_and, not_false_eq_true, true_and,
      false_or, bind_eq_ok]
    constructor
    · intro h
      obtain ⟨_, howner, _, hunder, hrest⟩ := h
      split at hrest
      · next hapex =>
        simp only [bind_eq_ok, ensure_eq_ok, pure_eq_ok, Prod.mk.injEq] at hrest
        obtain ⟨-, hns, rfl, rfl⟩ := hrest
        exact ⟨⟨howner, hunder, fun _ => hns⟩, by simp [delegates, hapex], rfl⟩
      · next hapex =>
        simp only [pure_eq_ok, Prod.mk.injEq] at hrest
        obtain ⟨rfl, rfl⟩ := hrest
        exact ⟨⟨howner, hunder, fun h => absurd h hapex⟩, by simp [delegates, hapex], rfl⟩
    · intro h
      obtain ⟨hfits, rfl, rfl⟩ := h
      refine ⟨(), hfits.owner, (), hfits.under, ?_⟩
      split
      · next hapex =>
        refine bind_eq_ok.mpr ⟨⟨⟩, ensure_eq_ok.mpr (hfits.apex hapex), ?_⟩
        simp [delegates, hapex]
      · next hapex => simp [delegates, hapex]

variable {zid : ZoneID} {l : List Name}

theorem mem_namesUnder :
    m ∈ namesUnder s zid n ↔
    (∃ r ∈ s.recordsOf zid, r.name = m) ∧ m.isSubDomainOf n = true ∧ m ≠ n := by
  simp only [namesUnder, mem_dedup, mem_map, mem_listRecords, Bool.and_eq_true,
    beq_iff_eq, bne_iff_ne, mem_recordsOf]
  constructor
  · intro h
    obtain ⟨r, ⟨hr, ⟨hzone, hsub⟩, hne⟩, rfl⟩ := h
    exact ⟨⟨r, ⟨hr, hzone⟩, rfl⟩, hsub, hne⟩
  · intro h
    obtain ⟨⟨r, ⟨hr, hzone⟩, rfl⟩, hsub, hne⟩ := h
    exact ⟨r, ⟨hr, ⟨hzone, hsub⟩, hne⟩, rfl⟩

theorem namesUnder_trans {k : Name} (hm : m ∈ namesUnder s zid n)
    (hk : k ∈ namesUnder s zid m) : k ∈ namesUnder s zid n := by
  obtain ⟨-, hmn, hne⟩ := mem_namesUnder.mp hm
  obtain ⟨hex, hkm, -⟩ := mem_namesUnder.mp hk
  refine mem_namesUnder.mpr ⟨hex, Name.isSubDomainOf_trans hkm hmn, fun heq => hne ?_⟩
  exact Name.isSubDomainOf_antisymm hmn (heq ▸ hkm)

/-- The names seen so far have been checked, and so has all that lies below one of them
that delegates. -/
structure Covered (s : Store) (z : Zone) (seen : List Name) : Prop where
  fits : ∀ n ∈ seen, NameFits s z n
  below : ∀ n ∈ seen, delegates s z n = true → ∀ m ∈ namesUnder s z.id n, m ∈ seen

/-- The inner loop of `validateTouched`. -/
def validateNames (s : Store) (z : Zone) (seen : List Name) (under : Name) :
    Except Err (List Name) := do
  let (_, seen) ← validateName s z under seen
  pure seen

theorem validateNames_eq_ok :
    validateNames s z seen n = .ok out ↔
      n ∈ seen ∧ out = seen ∨ n ∉ seen ∧ NameFits s z n ∧ out = n :: seen := by
  simp only [validateNames, bind_eq_ok, Prod.exists, pure_eq_ok, validateName_eq_ok]
  constructor
  · rintro ⟨d, _, ⟨hseen, -, rfl⟩ | ⟨hseen, hfits, -, rfl⟩, rfl⟩
    · exact .inl ⟨hseen, rfl⟩
    · exact .inr ⟨hseen, hfits, rfl⟩
  · rintro (⟨hseen, rfl⟩ | ⟨hseen, hfits, rfl⟩)
    · exact ⟨false, out, .inl ⟨hseen, rfl, rfl⟩, rfl⟩
    · exact ⟨_, n :: seen, .inr ⟨hseen, hfits, rfl, rfl⟩, rfl⟩

theorem validateNames_run (hrun : l.foldlM (validateNames s z) seen = .ok out) :
    (∀ m, m ∈ out ↔ m ∈ seen ∨ m ∈ l) ∧ ∀ m ∈ l, m ∈ seen ∨ NameFits s z m := by
  induction l generalizing seen with
  | nil =>
    cases hrun
    simp
  | cons head tail ih =>
    obtain ⟨mid, hhead, htail⟩ := foldlM_cons_eq_ok.mp hrun
    obtain ⟨hmem, hfits⟩ := ih htail
    rcases validateNames_eq_ok.mp hhead with ⟨hseen, rfl⟩ | ⟨-, hfit, rfl⟩
    · grind
    · grind

theorem validateNames_accepted (h : ∀ m ∈ l, NameFits s z m) :
    accepted (l.foldlM (validateNames s z) seen) := by
  induction l generalizing seen with
  | nil => exact ⟨seen, rfl⟩
  | cons head tail ih =>
    have hrest {seen : List Name} := @ih seen fun m hm => h m (mem_cons_of_mem head hm)
    rw [foldlM_cons, accepted_bind]
    by_cases hseen : head ∈ seen
    · exact ⟨seen, validateNames_eq_ok.mpr (.inl ⟨hseen, rfl⟩), hrest⟩
    · exact ⟨head :: seen, validateNames_eq_ok.mpr
        (.inr ⟨hseen, h head mem_cons_self, rfl⟩), hrest⟩

theorem validateTouchedName_eq_ok :
    validateTouchedName s z seen n = .ok out ↔
      n ∈ seen ∧ out = seen ∨ n ∉ seen ∧ NameFits s z n ∧
        (delegates s z n = true ∧
            (namesUnder s z.id n).foldlM (validateNames s z) (n :: seen) = .ok out ∨
          delegates s z n = false ∧ out = n :: seen) := by
  simp only [validateTouchedName, bind_eq_ok, Prod.exists, validateName_eq_ok]
  constructor
  · rintro ⟨d, mid, ⟨hseen, rfl, rfl⟩ | ⟨hseen, hfits, rfl, rfl⟩, hrest⟩
    · rw [if_neg Bool.false_ne_true, pure_eq_ok] at hrest
      exact .inl ⟨hseen, hrest.symm⟩
    · refine .inr ⟨hseen, hfits, ?_⟩
      split at hrest
      · next hd => exact .inl ⟨hd, hrest⟩
      · next hd =>
        rw [pure_eq_ok] at hrest
        exact .inr ⟨Bool.eq_false_iff.mpr hd, hrest.symm⟩
  · rintro (⟨hseen, rfl⟩ | ⟨hseen, hfits, ⟨hd, hrest⟩ | ⟨hd, rfl⟩⟩)
    · exact ⟨false, out, .inl ⟨hseen, rfl, rfl⟩, rfl⟩
    · exact ⟨true, n :: seen, .inr ⟨hseen, hfits, hd.symm, rfl⟩, hrest⟩
    · exact ⟨false, n :: seen, .inr ⟨hseen, hfits, hd.symm, rfl⟩, rfl⟩

theorem Covered.step (h : Covered s z seen) (hok : validateTouchedName s z seen n = .ok out) :
    Covered s z out ∧ n ∈ out ∧ ∀ m ∈ seen, m ∈ out := by
  rcases validateTouchedName_eq_ok.mp hok with
    ⟨hseen, rfl⟩ | ⟨-, hfits, ⟨hd, hrun⟩ | ⟨hd, rfl⟩⟩
  · exact ⟨h, hseen, fun _ => id⟩
  · obtain ⟨hmem, hall⟩ := validateNames_run hrun
    refine ⟨⟨fun m hm => ?_, fun m hm hdm k hk => ?_⟩, ?_, ?_⟩
    · rcases (hmem m).mp hm with hm | hm
      · rcases mem_cons.mp hm with rfl | hm
        · exact hfits
        · exact h.fits m hm
      · rcases hall m hm with hm | hm
        · rcases mem_cons.mp hm with rfl | hm
          · exact hfits
          · exact h.fits m hm
        · exact hm
    · rcases (hmem m).mp hm with hm | hm
      · rcases mem_cons.mp hm with rfl | hm
        · exact (hmem k).mpr (.inr hk)
        · exact (hmem k).mpr (.inl (mem_cons_of_mem _ (h.below m hm hdm k hk)))
      · exact (hmem k).mpr (.inr (namesUnder_trans hm hk))
    · exact (hmem n).mpr (.inl mem_cons_self)
    · exact fun m hm => (hmem m).mpr (.inl (mem_cons_of_mem _ hm))
  · refine ⟨⟨fun m hm => ?_, fun m hm hdm k hk => ?_⟩, mem_cons_self,
      fun m hm => mem_cons_of_mem _ hm⟩
    · rcases mem_cons.mp hm with rfl | hm
      · exact hfits
      · exact h.fits m hm
    · rcases mem_cons.mp hm with rfl | hm
      · rw [hd] at hdm
        cases hdm
      · exact mem_cons_of_mem _ (h.below m hm hdm k hk)

theorem Covered.run (h : Covered s z seen)
    (hrun : l.foldlM (validateTouchedName s z) seen = .ok out) :
    Covered s z out ∧ (∀ m ∈ l, m ∈ out) ∧ ∀ m ∈ seen, m ∈ out := by
  induction l generalizing seen with
  | nil =>
    cases hrun
    exact ⟨h, fun _ hm => absurd hm not_mem_nil, fun _ => id⟩
  | cons head tail ih =>
    obtain ⟨mid, hhead, htail⟩ := foldlM_cons_eq_ok.mp hrun
    obtain ⟨hmid, hin, hmono⟩ := h.step hhead
    obtain ⟨hout, hall, hmono'⟩ := ih hmid htail
    refine ⟨hout, fun m hm => ?_, fun m hm => hmono' m (hmono m hm)⟩
    rcases mem_cons.mp hm with rfl | hm
    · exact hmono' m hin
    · exact hall m hm

theorem validateTouched_eq_ok {touched : List Name} :
    validateTouched s z touched = .ok () ↔
      ∀ n ∈ touched, NameFits s z n ∧
        (delegates s z n = true → ∀ m ∈ namesUnder s z.id n, NameFits s z m) := by
  have hsorted (n : Name) : n ∈ touched.insertionSort nameLe ↔ n ∈ touched :=
    (perm_insertionSort _ _).mem_iff
  rw [validateTouched, bind_eq_ok]
  constructor
  · rintro ⟨out, hrun, -⟩ n hn
    obtain ⟨hcovered, hall, -⟩ := Covered.run ⟨by simp, by simp⟩ hrun
    have hin := hall n ((hsorted n).mpr hn)
    exact ⟨hcovered.fits n hin, fun hd m hm => hcovered.fits m (hcovered.below n hin hd m hm)⟩
  · intro h
    have hrun (l : List Name) (hl : ∀ n ∈ l, n ∈ touched) (seen : List Name) :
        accepted (l.foldlM (validateTouchedName s z) seen) := by
      induction l generalizing seen with
      | nil => exact ⟨seen, rfl⟩
      | cons head tail ih =>
        have hrest := ih fun n hn => hl n (mem_cons_of_mem head hn)
        obtain ⟨hfits, hbelow⟩ := h head (hl head mem_cons_self)
        rw [foldlM_cons, accepted_bind]
        by_cases hseen : head ∈ seen
        · exact ⟨seen, validateTouchedName_eq_ok.mpr (.inl ⟨hseen, rfl⟩), hrest _⟩
        · cases hd : delegates s z head with
          | true =>
            obtain ⟨mid, hmid⟩ := validateNames_accepted (hbelow hd)
            exact ⟨mid, validateTouchedName_eq_ok.mpr
              (.inr ⟨hseen, hfits, .inl ⟨hd, hmid⟩⟩), hrest _⟩
          | false =>
            exact ⟨head :: seen, validateTouchedName_eq_ok.mpr
              (.inr ⟨hseen, hfits, .inr ⟨hd, rfl⟩⟩), hrest _⟩
    obtain ⟨out, hout⟩ := hrun _ (fun n hn => (hsorted n).mp hn) []
    exact ⟨out, hout, rfl⟩

end Walk

section Closest

variable {s : Store} {z : Zone} {n p : Name}

theorem find?_takeWhile {α : Type*} {inside f : α → Bool} {l : List α}
    (hbeyond : ∀ x ∈ l.dropWhile inside, (inside x && f x) = false) :
    (l.takeWhile inside).find? f = l.find? fun x => inside x && f x := by
  induction l with
  | nil => rfl
  | cons head tail ih =>
    cases hhead : inside head with
    | true =>
      rw [dropWhile_cons, if_pos hhead] at hbeyond
      simp [hhead, find?_cons, ih hbeyond]
    | false =>
      rw [dropWhile_cons, if_neg (by simp [hhead])] at hbeyond
      rw [takeWhile_cons, if_neg (by simp [hhead])]
      exact (find?_eq_none.mpr fun x hx => by simp [hbeyond x hx]).symm

theorem exists_border {α : Type*} {inside : α → Bool} {R : α → α → Prop} {l : List α}
    (hrefl : ∀ a, R a a) (hpairs : l.Pairwise R) {x : α} (hx : x ∈ l.dropWhile inside) :
    ∃ y, inside y = false ∧ R y x := by
  induction l with
  | nil => cases hx
  | cons head tail ih =>
    rw [dropWhile_cons] at hx
    split at hx
    · exact ih (pairwise_cons.mp hpairs).2 hx
    · next hhead =>
      refine ⟨head, Bool.eq_false_iff.mpr hhead, ?_⟩
      rcases mem_cons.mp hx with rfl | hx
      · exact hrefl x
      · exact (pairwise_cons.mp hpairs).1 x hx

theorem any_ownerRecords_ns :
    ((s.ownerRecords z.id n).any fun r => r.type == typeNS) = true ↔
      ∃ r ∈ s.recordsOf z.id, r.name = n ∧ r.type = typeNS := by
  simp only [any_eq_true, mem_ownerRecords, beq_iff_eq, mem_recordsOf, and_assoc]

theorem delegates_iff : delegates s z n = true ↔ Delegated z (s.recordsOf z.id) n := by
  rw [delegates, Bool.and_eq_true, Bool.not_eq_true', any_ownerRecords_ns, Delegated]

theorem closestDelegation_eq_some (hin : ∀ r ∈ s.recordsOf z.id, z.contains r.name = true) :
    closestDelegation s z n = some p ↔ Name.Closest (Delegated z (s.recordsOf z.id)) n p := by
  have hbeyond (x : Name) (hx : x ∈ n.upwards.dropWhile fun n => !z.isApex n) :
      (!z.isApex x && (s.ownerRecords z.id x).any fun r => r.type == typeNS) = false := by
    refine Bool.eq_false_iff.mpr fun hboth => ?_
    obtain ⟨hx', r, hr, rfl, -⟩ := delegates_iff.mp hboth
    obtain ⟨y, hy, habove⟩ := exists_border Name.isSubDomainOf_refl (Name.upwards_pairwise n) hx
    have hapex : z.name = y := by simpa [Zone.isApex] using hy
    have heq := Name.isSubDomainOf_antisymm (hin r hr) (hapex ▸ habove)
    simp [Zone.isApex, heq] at hx'
  rw [closestDelegation, find?_takeWhile hbeyond, Name.find?_upwards]
  exact Name.Closest.congr fun q _ => delegates_iff

end Closest

/-- What is left of `ZoneFits` at one name. -/
structure FitsAt (z : Zone) (records : List Record) (n : Name) : Prop where
  inside : z.contains n = true
  alone : ∀ r ∈ records, r.name = n → r.FitsIn z
  pairs : (records.filter fun r => r.name == n).Pairwise Record.Coexists
  delegation : ∀ r ∈ records, r.name = n →
    ∀ p, Name.Closest (Delegated z records) n p → r.StandsUnder p
  apex : z.isApex n = true → ∃ r ∈ records, r.name = n ∧ r.type = typeNS

section Fits

variable {s : Store} {z : Zone} {n : Name}

theorem Store.ownerRecords_pairwise :
    (s.ownerRecords z.id n).Pairwise Record.Coexists ↔
      ((s.recordsOf z.id).filter fun r => r.name == n).Pairwise Record.Coexists :=
  ownerRecords_perm.pairwise_iff fun h => h.symm

theorem NameFits.inside (h : NameFits s z n) : z.contains n = true :=
  (validateOwner_eq_ok.mp h.owner).1

theorem nameFits_iff (hin : ∀ r ∈ s.recordsOf z.id, z.contains r.name = true) :
    NameFits s z n ↔ FitsAt z (s.recordsOf z.id) n := by
  have hmem {r : Record} : r ∈ s.ownerRecords z.id n ↔ r ∈ s.recordsOf z.id ∧ r.name = n := by
    rw [mem_ownerRecords, mem_recordsOf, and_assoc]
  have hunder := @validateUnderDelegation_eq_ok n (s.ownerRecords z.id n) (closestDelegation s z n)
    fun r hr => (hmem.mp hr).2
  constructor
  · intro h
    obtain ⟨hn, hall, hpairs⟩ := validateOwner_eq_ok.mp h.owner
    refine ⟨hn, fun r hr hname => (hall r (hmem.mpr ⟨hr, hname⟩)).2,
      ownerRecords_pairwise.mp hpairs, fun r hr hname p hp => ?_,
      fun hapex => any_ownerRecords_ns.mp (h.apex hapex)⟩
    exact hunder.mp h.under r (hmem.mpr ⟨hr, hname⟩) p ((closestDelegation_eq_some hin).mpr hp)
  · intro h
    refine ⟨validateOwner_eq_ok.mpr ⟨h.inside, fun r hr => ?_, ?_⟩, hunder.mpr fun r hr p hp => ?_,
      fun hapex => any_ownerRecords_ns.mpr (h.apex hapex)⟩
    · exact ⟨(hmem.mp hr).2, h.alone r (hmem.mp hr).1 (hmem.mp hr).2⟩
    · exact ownerRecords_pairwise.mpr h.pairs
    · exact h.delegation r (hmem.mp hr).1 (hmem.mp hr).2 p ((closestDelegation_eq_some hin).mp hp)

variable {records : List Record} {D : Name → Prop} {touched : List Name}

theorem ZoneFits.fitsAt (h : ZoneFits z records) (hn : z.contains n = true) :
    FitsAt z records n := by
  refine ⟨hn, fun r hr _ => h.alone r hr, ?_, fun r hr hname p hp => ?_, fun hapex => ?_⟩
  · rw [pairwise_filter]
    exact h.pairs.imp fun hab ha hb => hab ((beq_iff_eq.mp ha).trans (beq_iff_eq.mp hb).symm)
  · exact h.delegations r hr p (hname ▸ hp)
  · rw [← beq_iff_eq.mp hapex]
    exact h.apex

/-- What the records at the names left alone bring with them from before: `D` is where the
zone delegated then. -/
structure KeptFits (z : Zone) (D : Name → Prop) (touched : List Name) (records : List Record) :
    Prop where
  zone : z.validate = .ok ()
  alone : ∀ r ∈ records, r.name ∉ touched → r.FitsIn z
  pairs : records.Pairwise fun a b => a.name = b.name → a.name ∉ touched → a.Coexists b
  apex : z.name ∉ touched → ∃ r ∈ records, r.name = z.name ∧ r.type = typeNS
  delegations : ∀ r ∈ records, r.name ∉ touched →
    ∀ p, Name.Closest D r.name p → r.StandsUnder p
  delegated : ∀ n, n ∉ touched → (D n ↔ Delegated z records n)

theorem Name.Closest.exists {P : Name → Prop} {q : Name} (hq : P q)
    (habove : n.isSubDomainOf q = true) : ∃ p, Name.Closest P n p := by
  classical
  cases hfind : n.upwards.find? fun x => decide (P x) with
  | none =>
    exact absurd (decide_eq_true hq) (find?_eq_none.mp hfind q (Name.mem_upwards.mpr habove))
  | some p =>
    refine ⟨p, (Name.Closest.congr fun x _ => ?_).mp (Name.closest_of_find? hfind)⟩
    exact decide_eq_true_iff

theorem KeptFits.standsUnder
    (h : KeptFits z D touched records) {r : Record} (hr : r ∈ records) (hname : r.name ∉ touched)
    {p : Name} (hp : Name.Closest (Delegated z records) r.name p) (hkept : p ∉ touched) :
    r.StandsUnder p := by
  obtain ⟨q, hq⟩ := Name.Closest.exists ((h.delegated p hkept).mpr hp.holds) hp.above
  have hqp := hq.least p ((h.delegated p hkept).mpr hp.holds) hp.above
  have hstands := h.delegations r hr hname q hq
  by_cases heq : q = p
  · exact heq ▸ hstands
  · have hqr : q ≠ r.name := by
      intro hqr
      -- the record's own name delegated before, so it does now
      have hown : Delegated z records r.name := (h.delegated r.name hname).mp (hqr ▸ hq.holds)
      have hpr := hp.least r.name hown (Name.isSubDomainOf_refl _)
      exact heq (hqr.trans (Name.isSubDomainOf_antisymm hp.above hpr))
    have hpr : p ≠ r.name := by
      intro hpr
      exact hqr (Name.isSubDomainOf_antisymm (hpr ▸ hqp) hq.above)
    rw [Record.StandsUnder, if_neg hqr] at hstands
    rwa [Record.StandsUnder, if_neg hpr]

theorem KeptFits.zoneFits (h : KeptFits z D touched (s.recordsOf z.id))
    (hok : validateTouched s z touched = .ok ()) : ZoneFits z (s.recordsOf z.id) := by
  have hchecked := validateTouched_eq_ok.mp hok
  have hin (r : Record) (hr : r ∈ s.recordsOf z.id) : z.contains r.name = true := by
    by_cases hname : r.name ∈ touched
    · exact (hchecked r.name hname).1.inside
    · exact (h.alone r hr hname).inside
  have hfits {n : Name} (hn : n ∈ touched) : FitsAt z (s.recordsOf z.id) n :=
    (nameFits_iff hin).mp (hchecked n hn).1
  refine ⟨h.zone, fun r hr => ?_, ?_, ?_, fun r hr p hp => ?_⟩
  · by_cases hname : r.name ∈ touched
    · exact (hfits hname).alone r hr rfl
    · exact h.alone r hr hname
  · refine pairwise_iff_forall_sublist.mpr fun {a b} hab hname => ?_
    by_cases htouched : a.name ∈ touched
    · refine pairwise_iff_forall_sublist.mp (hfits htouched).pairs ?_
      have hsub := hab.filter fun x => x.name == a.name
      simpa [← hname] using hsub
    · exact pairwise_iff_forall_sublist.mp h.pairs hab hname htouched
  · by_cases hname : z.name ∈ touched
    · exact (hfits hname).apex (by simp [Zone.isApex])
    · exact h.apex hname
  · by_cases hname : r.name ∈ touched
    · exact (hfits hname).delegation r hr rfl p hp
    · by_cases hkept : p ∈ touched
      · -- a name that has come to delegate had everything below it checked
        have hne : r.name ≠ p := fun heq => hname (heq ▸ hkept)
        have hbelow := (hchecked p hkept).2 (delegates_iff.mpr hp.holds) r.name
          (mem_namesUnder.mpr ⟨⟨r, hr, rfl⟩, hp.above, hne⟩)
        exact ((nameFits_iff hin).mp hbelow).delegation r hr rfl p hp
      · exact h.standsUnder hr hname hp hkept

theorem ZoneFits.validateTouched (h : ZoneFits z (s.recordsOf z.id))
    (hin : ∀ n ∈ touched, z.contains n = true) : validateTouched s z touched = .ok () := by
  have hall (r : Record) (hr : r ∈ s.recordsOf z.id) : z.contains r.name = true :=
    (h.alone r hr).inside
  refine validateTouched_eq_ok.mpr fun n hn => ⟨?_, fun _ m hm => ?_⟩
  · exact (nameFits_iff hall).mpr (h.fitsAt (hin n hn))
  · obtain ⟨⟨r, hr, rfl⟩, -⟩ := mem_namesUnder.mp hm
    exact (nameFits_iff hall).mpr (h.fitsAt (hall r hr))

end Fits

end Wegweiser
