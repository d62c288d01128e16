/-
A command of several operations, set against the same operations issued one at a time.

Together, each operation is resolved against the store as it was before the first; one at a time,
against what those before it have left.
-/
import Mathlib.Data.Finset.Card
import Mathlib.Data.List.Forall2
import Wegweiser.Apply.Resolved

namespace Wegweiser

open Checked List Sample Store RecordOp

namespace RecordOp

def restates (x : Record) : RecordOp → Prop
  | .update id r => id = x.id ∧ r.content = x.content
  | .replaceRRset key wanted => x.key = key ∧ ∃ w ∈ wanted, w.content = x.content
  | _ => False

instance (x : Record) : DecidablePred (restates x)
  | .update id r => inferInstanceAs (Decidable (id = x.id ∧ r.content = x.content))
  | .replaceRRset key wanted =>
    inferInstanceAs (Decidable (x.key = key ∧ ∃ w ∈ wanted, w.content = x.content))
  | .add _ | .delete _ | .makeCanonical _ | .detach _ => .isFalse id

/-- What the first operation does to an RRset leaves a later replacement of it where it was:
nothing comes into the set, goes out of it or changes its data there. -/
def Spares (s : Store) (z : Zone) (first : RecordOp) (key : RRsetKey) : Prop :=
  (∀ r ∈ first.adds s z, r.key ≠ key) ∧
    ∀ u ∈ first.rewrites s z, u.before.key = key ∨ u.after.key = key →
      u.after.key = u.before.key ∧ u.after.rdata = u.before.rdata

instance (s : Store) (z : Zone) (first : RecordOp) : DecidablePred (Spares s z first) :=
  fun _ => inferInstanceAs (Decidable (_ ∧ _))

/-- The later operation asks for the same whether it finds the store as it was or as the first
one leaves it: it asks for no record as it was that the first one has changed, and replaces
no RRset the first one has reached into. -/
def Independent (s : Store) (z : Zone) (first later : RecordOp) : Prop :=
  (∀ x ∈ first.removes s z, ¬ later.restates x) ∧
    (∀ u ∈ first.rewrites s z, ¬ later.restates u.before) ∧
    match later with
    | .replaceRRset key _ => first.Spares s z key
    | _ => True

instance (s : Store) (z : Zone) (first : RecordOp) : DecidablePred (Independent s z first)
  | .replaceRRset key _ => inferInstanceAs (Decidable (_ ∧ _ ∧ first.Spares s z key))
  | .add _ | .update _ _ | .delete _ | .makeCanonical _ | .detach _ =>
    inferInstanceAs (Decidable (_ ∧ _ ∧ True))

variable {s t : Store} {z : Zone} {op : RecordOp} {x r a : Record}

theorem restates_of_asks (hop : ∀ id, op ≠ .detach id) (ha : op.asks z x = some a)
    (hsame : x.erase = a.erase) : op.restates x := by
  have hcontent : a.content = x.content := (Record.erase_content hsame).symm
  cases op with
  | update id r =>
    rw [asks, Option.ite_none_right_eq_some] at ha
    obtain ⟨hid, ha⟩ := ha
    cases ha
    exact ⟨hid.symm, hcontent⟩
  | replaceRRset key wanted =>
    rw [asks, Option.ite_none_right_eq_some, Option.map_eq_some_iff] at ha
    obtain ⟨⟨-, hkey⟩, w, hw, rfl⟩ := ha
    exact ⟨hkey, w, mem_of_find?_eq_some hw, hcontent⟩
  | detach id => exact absurd rfl (hop id)
  | add r | delete id | makeCanonical id => cases ha

section Step

variable {past rest : List RecordOp}

theorem Together.kept_of_removes (h : s.Sound) (hall : Together s z (past ++ op :: rest))
    (hx : x ∈ op.removes s z) : x ∈ s.without (goneBy s z past) := by
  have hallowed := hall.allowed op (by simp)
  obtain ⟨hmem, -, hauthored, -⟩ := removes_fromStore h hallowed hx
  by_contra hgone
  obtain ⟨first, hfirst, hx'⟩ := removed_of_gone h hmem hauthored hgone
  have hdistinct := hall.distinct
  rw [goneBy_append, nodup_append] at hdistinct
  exact hdistinct.2.2 x.id (mem_goneBy.mpr ⟨first, hfirst, x, hx', rfl⟩) x.id
    (mem_goneBy.mpr ⟨op, mem_cons_self, x, hx, rfl⟩) rfl

theorem Together.kept_of_rewrites (h : s.Sound) (hfiled : ∀ o ∈ past, o.Filed z.id)
    (hall : Together s z past) {u : RecordUpdate} (hu : u ∈ rewrittenBy s z past) :
    u.before ∈ s.without (goneBy s z past) := by
  obtain ⟨op, hop, hu'⟩ := mem_flatMap.mp hu
  obtain ⟨hfrom, -⟩ := rewrites_fromStore h (hall.allowed op hop) (hfiled op hop) hu'
  obtain ⟨o, ho, hid⟩ := hall.updates u hu
  rw [← h.record_ext (mem_without.mp ho).1 hfrom.1 (hid.trans hfrom.2.2.1)]
  exact ho

theorem without_of_append {first second : List RecordOp}
    (hx : x ∈ s.without (goneBy s z (first ++ second))) : x ∈ s.without (goneBy s z first) := by
  rw [mem_without] at hx ⊢
  refine ⟨hx.1, fun hbelow => hx.2 (hbelow.mono fun k hk => .root ?_)⟩
  rw [goneBy_append]
  exact mem_append_left _ hk

theorem Together.kept_of_asks (h : s.Sound) (hfiled : ∀ o ∈ past ++ op :: rest, o.Filed z.id)
    (hall : Together s z (past ++ op :: rest)) (hind : ∀ first ∈ past, Independent s z first op)
    (hop : ∀ id, op ≠ .detach id) (hx : x ∈ s.records) (ha : op.asks z x = some a) :
    x ∈ s.without (goneBy s z past) := by
  have hmem : op ∈ past ++ op :: rest := by simp
  have hallowed := hall.allowed op hmem
  by_cases hsame : x.erase = a.erase
  · by_contra hgone
    obtain ⟨first, hfirst, hx'⟩ :=
      removed_of_gone h hx (asks_authored h hallowed hop hx ha) hgone
    exact (hind first hfirst).1 x hx' (restates_of_asks hop ha hsame)
  · have hu : (⟨x, a⟩ : RecordUpdate) ∈ rewrittenBy s z (past ++ op :: rest) :=
      mem_flatMap.mpr ⟨op, hmem,
        (mem_rewrites h hallowed (hfiled op hmem)).mpr ⟨x, hx, a, ha, hsame, rfl⟩⟩
    exact without_of_append (hall.kept_of_rewrites h hfiled hu)

theorem current (h : s.Sound) (hfiled : ∀ o ∈ past, o.Filed z.id)
    (hallowed : ∀ o ∈ past, o.Allowed s z) {o : Record} (ho : o ∈ s.records)
    (hr : r.erase = leftAs (rewrittenBy s z past) o) :
    (r.erase = o.erase ∧ ∀ u ∈ rewrittenBy s z past, u.before ≠ o) ∨
      ∃ u ∈ rewrittenBy s z past, u.before = o ∧ r.erase = u.after.erase := by
  have hfrom {u : RecordUpdate} (hu : u ∈ rewrittenBy s z past) :
      u.before ∈ s.records ∧ u.after.id = u.before.id := by
    obtain ⟨op, hop, hu'⟩ := mem_flatMap.mp hu
    obtain ⟨hfrom, -⟩ := rewrites_fromStore h (hallowed op hop) (hfiled op hop) hu'
    exact ⟨hfrom.1, hfrom.2.2.1⟩
  rcases @rewrittenRow_cases 0 (rewrittenBy s z past) o with
    ⟨hsame, hnone⟩ | ⟨u, hu, hid, created, hrow⟩
  · refine .inl ⟨by rw [hr, leftAs, hsame], fun u hu hbefore => hnone u hu ?_⟩
    rw [(hfrom hu).2, hbefore]
  · refine .inr ⟨u, hu, h.record_ext (hfrom hu).1 ho ((hfrom hu).2.symm.trans hid), ?_⟩
    rw [hr, leftAs, hrow]
    rfl

/-- Halfway through operations that are accepted together: `past` was carried out one at a
time, and `op` is next. -/
structure Midway (s : Store) (z : Zone) (past : List RecordOp) (op : RecordOp)
    (rest : List RecordOp) (t : Store) : Prop where
  sound : s.Sound
  sound' : t.Sound
  filed : ∀ o ∈ past ++ op :: rest, o.Filed z.id
  together : Together s z (past ++ op :: rest)
  independent : ∀ first ∈ past, Independent s z first op
  left : Leaves s z past t
  allowed : op.Allowed t z

namespace Midway

variable {o : Record} (m : Midway s z past op rest t)
include m

theorem filed_next : op.Filed z.id := m.filed op (by simp)

theorem allowed_before : op.Allowed s z := m.together.allowed op (by simp)

theorem updated {u : RecordUpdate} (hu : u ∈ rewrittenBy s z past) :
    u.before ∈ s.records ∧ u.before.zoneID = z.id ∧ u.after.id = u.before.id ∧
      u.after.zoneID = z.id ∧
      (u.before.isManaged = false ∧ u.after.managedBy = u.before.managedBy ∧
          u.after.managedKind = u.before.managedKind ∨
        u.after = detached u.before) := by
  obtain ⟨first, hfirst, hu'⟩ := mem_flatMap.mp hu
  have hmem : first ∈ past ++ op :: rest := mem_append_left _ hfirst
  exact (rewrites_fromStore m.sound (m.together.allowed first hmem) (m.filed first hmem) hu').1

theorem stands (ho : o ∈ s.without (goneBy s z past))
    (hr : r.erase = leftAs (rewrittenBy s z past) o) :
    (r.erase = o.erase ∧ ∀ u ∈ rewrittenBy s z past, u.before ≠ o) ∨
      ∃ u ∈ rewrittenBy s z past, u.before = o ∧ r.erase = u.after.erase :=
  current m.sound (fun o ho => m.filed o (mem_append_left _ ho))
    (fun o ho => m.together.allowed o (mem_append_left _ ho)) (mem_without.mp ho).1 hr

theorem id_eq (ho : o ∈ s.without (goneBy s z past))
    (hr : r.erase = leftAs (rewrittenBy s z past) o) : r.id = o.id := by
  rcases m.stands ho hr with ⟨hsame, -⟩ | ⟨u, hu, rfl, hsame⟩
  · exact (congrArg Record.id hsame :)
  · exact (congrArg Record.id hsame :).trans (m.updated hu).2.2.1

theorem source_eq (ho : o ∈ s.without (goneBy s z past))
    (hr : r.erase = leftAs (rewrittenBy s z past) o) :
    r.managedBy = o.managedBy ∨ r.managedBy = .empty := by
  rcases m.stands ho hr with ⟨hsame, -⟩ | ⟨u, hu, rfl, hsame⟩
  · exact .inl (congrArg Record.managedBy hsame :)
  · have hby : r.managedBy = u.after.managedBy := (congrArg Record.managedBy hsame :)
    rcases (m.updated hu).2.2.2.2 with ⟨-, hkeep, -⟩ | hdetached
    · exact .inl (hby.trans hkeep)
    · rw [hdetached] at hby
      exact .inr hby

theorem zone_eq (ho : o ∈ s.without (goneBy s z past))
    (hr : r.erase = leftAs (rewrittenBy s z past) o) : r.zoneID = z.id ↔ o.zoneID = z.id := by
  rcases m.stands ho hr with ⟨hsame, -⟩ | ⟨u, hu, rfl, hsame⟩
  · rw [show r.zoneID = o.zoneID from (congrArg Record.zoneID hsame :)]
  · have hzone : r.zoneID = u.after.zoneID := (congrArg Record.zoneID hsame :)
    rw [hzone]
    exact iff_of_true (m.updated hu).2.2.2.1 (m.updated hu).2.1

theorem spot_eq {key : RRsetKey} {wanted : List Record} (hop : op = .replaceRRset key wanted)
    (ho : o ∈ s.without (goneBy s z past)) (hr : r.erase = leftAs (rewrittenBy s z past) o)
    (hkey : o.key = key ∨ r.key = key) : r.key = o.key ∧ r.rdata = o.rdata := by
  rcases m.stands ho hr with ⟨hsame, -⟩ | ⟨u, hu, rfl, hsame⟩
  · exact ⟨(congrArg Record.key hsame :), (congrArg Record.rdata hsame :)⟩
  · have hkey' : r.key = u.after.key := (congrArg Record.key hsame :)
    have hrdata' : r.rdata = u.after.rdata := (congrArg Record.rdata hsame :)
    rw [hkey'] at hkey ⊢
    rw [hrdata']
    obtain ⟨first, hfirst, hu'⟩ := mem_flatMap.mp hu
    have hspares := (m.independent first hfirst).2.2
    rw [hop] at hspares
    exact hspares.2 u hu' hkey

theorem drops_iff (ho : o ∈ s.without (goneBy s z past))
    (hr : r.erase = leftAs (rewrittenBy s z past) o) : op.drops z r ↔ op.drops z o := by
  cases hop : op with
  | delete id => rw [drops, drops, m.id_eq ho hr]
  | replaceRRset key wanted =>
    simp only [drops, m.zone_eq ho hr]
    constructor
    · intro hdrop
      obtain ⟨hkey, hrdata⟩ := m.spot_eq hop ho hr (.inr hdrop.2.1)
      rwa [hkey, hrdata] at hdrop
    · intro hdrop
      obtain ⟨hkey, hrdata⟩ := m.spot_eq hop ho hr (.inl hdrop.2.1)
      rwa [hkey, hrdata]
  | add _ | update _ _ | makeCanonical _ | detach _ => exact Iff.rfl

variable {i : Record} {k : RecordID}

theorem added_unnamed (hi : i ∈ addedBy s z past) (hadded : Added s z past i r) :
    ¬ op.drops z r ∧ ((∀ id, op ≠ .detach id) → op.asks z r = none) := by
  have hallowed := m.allowed_before
  have hind := m.independent
  have htogether := m.together
  have hfiled := m.filed
  cases hop : op with
  | delete id =>
    rw [hop] at hallowed htogether
    obtain ⟨before, hbefore, -⟩ := hallowed
    refine ⟨fun hid => ?_, fun _ => rfl⟩
    have hnamed : before ∈ named s id := by rw [named_of_recordByID hbefore]; simp
    have hkept := htogether.kept_of_removes m.sound hnamed
    exact hadded.new before hkept (((mem_named m.sound).mp hnamed).2.trans hid.symm)
  | update id new =>
    rw [hop] at hallowed htogether hind hfiled
    obtain ⟨⟨before, hbefore, -⟩, -⟩ := hallowed
    obtain ⟨hmem, hid⟩ := m.sound.recordByID_eq_ok.mp hbefore
    refine ⟨not_false, fun _ => ?_⟩
    rw [asks, if_neg]
    intro hr
    have hkept := htogether.kept_of_asks m.sound hfiled hind (by simp) hmem
      (show asks z before (.update id new) = some _ by rw [asks, if_pos hid])
    exact hadded.new before hkept (hid.trans hr.symm)
  | replaceRRset key wanted =>
    rw [hop] at hind
    obtain ⟨first, hfirst, hi'⟩ := mem_flatMap.mp hi
    have hkey : r.key ≠ key := by
      have hsame : r.key = i.key :=
        (congrArg (fun c : Content => (⟨c.name, c.cls, c.type⟩ : RRsetKey)) hadded.content :)
      rw [hsame]
      exact (hind first hfirst).2.2.1 i hi'
    refine ⟨fun hdrop => hkey hdrop.2.1, fun _ => ?_⟩
    rw [asks, if_neg fun hspot => hkey hspot.2]
  | detach id => exact ⟨not_false, fun hne => absurd rfl (hne id)⟩
  | add _ | makeCanonical _ => exact ⟨not_false, fun _ => rfl⟩

theorem removes_agree : k ∈ goneBy t z [op] ↔ k ∈ goneBy s z [op] := by
  simp only [mem_goneBy, mem_singleton, exists_eq_left]
  constructor
  · intro hk
    obtain ⟨r, hr, hid⟩ := hk
    obtain ⟨hmem, hdrop⟩ := (mem_removes m.sound').mp hr
    rcases m.left.rows r hmem with ⟨o, ho, hrow⟩ | ⟨i, hi, hadded⟩
    · exact ⟨o, (mem_removes m.sound).mpr
        ⟨(mem_without.mp ho).1, (m.drops_iff ho hrow).mp hdrop⟩,
        (m.id_eq ho hrow).symm.trans hid⟩
    · exact absurd hdrop (m.added_unnamed hi hadded).1
  · intro hk
    obtain ⟨o, ho, hid⟩ := hk
    have hkept := m.together.kept_of_removes m.sound ho
    obtain ⟨r, hr, hrow⟩ := m.left.kept o hkept
    exact ⟨r, (mem_removes m.sound').mpr
      ⟨hr, (m.drops_iff hkept hrow).mpr ((mem_removes m.sound).mp ho).2⟩,
      (m.id_eq hkept hrow).trans hid⟩

theorem adds_agree : op.adds t z = op.adds s z := by
  cases hop : op with
  | replaceRRset key wanted =>
    have hallowed := m.allowed_before
    rw [hop] at hallowed
    rw [adds, adds]
    refine filter_congr fun w hw => ?_
    congr 1
    rw [Bool.eq_iff_iff, any_eq_true, any_eq_true]
    simp only [mem_rrset, beq_iff_eq]
    constructor
    · intro hstands
      obtain ⟨r, ⟨hr, hzone, hkey⟩, hrdata⟩ := hstands
      rcases m.left.rows r hr with ⟨o, ho, hrow⟩ | ⟨i, hi, hadded⟩
      · obtain ⟨hkey', hrdata'⟩ := m.spot_eq hop ho hrow (.inr hkey)
        exact ⟨o, ⟨(mem_without.mp ho).1, (m.zone_eq ho hrow).mp hzone,
          hkey'.symm.trans hkey⟩, hrdata'.symm.trans hrdata⟩
      · have hasks := (m.added_unnamed hi hadded).2 (by rw [hop]; simp)
        rw [hop, asks, if_pos ⟨hzone, hkey⟩, Option.map_eq_none_iff, find?_eq_none] at hasks
        exact absurd hrdata.symm (by simpa using hasks w hw)
    · intro hstands
      obtain ⟨o, ⟨ho, hzone, hkey⟩, hrdata⟩ := hstands
      -- A member that is wanted was not removed, so it stands where it did.
      have hkept : o ∈ s.without (goneBy s z past) := by
        cases hfind : wanted.find? fun r => r.rdata == o.rdata with
        | none => exact absurd hrdata.symm (by simpa using find?_eq_none.mp hfind w hw)
        | some w' =>
          refine m.together.kept_of_asks m.sound m.filed m.independent (by rw [hop]; simp) ho
            (a := replaced w' o) ?_
          rw [hop, asks, if_pos ⟨hzone, hkey⟩, hfind]
          rfl
      obtain ⟨r, hr, hrow⟩ := m.left.kept o hkept
      obtain ⟨hkey', hrdata'⟩ := m.spot_eq hop hkept hrow (.inl hkey)
      exact ⟨r, ⟨hr, (m.zone_eq hkept hrow).mpr hzone, hkey'.trans hkey⟩, hrdata'.trans hrdata⟩
  | add _ | update _ _ | delete _ | makeCanonical _ | detach _ => rfl

theorem asks_agree (hop : ∀ id, op ≠ .detach id) (ho : o ∈ s.without (goneBy s z past))
    (hr : r.erase = leftAs (rewrittenBy s z past) o) (hmem : r ∈ t.records) :
    (op.asks z r).map Record.erase = (op.asks z o).map Record.erase := by
  have hno {x : Store} (hx : x.Sound) (hallowed : op.Allowed x z) {b a : Record}
      (hb : b ∈ x.records) (ha : op.asks z b = some a) :
      b.managedBy = .empty ∧ b.managedKind = none := by
    have hauthored := asks_authored hx hallowed hop hb ha
    exact ⟨by simpa [Record.isManaged] using hauthored,
      (Record.managedKind_of_check (hx.records b hb)).mp hauthored⟩
  have hmem' : o ∈ s.records := (mem_without.mp ho).1
  have hid := m.id_eq ho hr
  cases hop' : op with
  | update id new =>
    by_cases hnamed : o.id = id
    · have hold := hno m.sound m.allowed_before hmem' (a := edited new o)
        (by rw [hop', asks, if_pos hnamed])
      have hnow := hno m.sound' m.allowed hmem (a := edited new r)
        (by rw [hop', asks, if_pos (hid.trans hnamed)])
      rw [asks, if_pos (hid.trans hnamed), asks, if_pos hnamed]
      simp [edited, Record.erase, hold.1, hold.2, hnow.1, hnow.2]
    · rw [asks, if_neg (by rwa [hid]), asks, if_neg hnamed]
  | replaceRRset key wanted =>
    by_cases hspot : o.zoneID = z.id ∧ o.key = key
    · obtain ⟨hkey, hrdata⟩ := m.spot_eq hop' ho hr (.inl hspot.2)
      have hspot' : r.zoneID = z.id ∧ r.key = key :=
        ⟨(m.zone_eq ho hr).mpr hspot.1, hkey.trans hspot.2⟩
      rw [asks, if_pos hspot', asks, if_pos hspot, hrdata]
      cases hfind : wanted.find? fun w => w.rdata == o.rdata with
      | none => rfl
      | some w =>
        have hold := hno m.sound m.allowed_before hmem' (a := replaced w o)
          (by rw [hop', asks, if_pos hspot, hfind]; rfl)
        have hnow := hno m.sound' m.allowed hmem (a := replaced w r)
          (by rw [hop', asks, if_pos hspot', hrdata, hfind]; rfl)
        simp [replaced, Record.erase, hold.1, hold.2, hnow.1, hnow.2, hid]
    · have hspot' : ¬ (r.zoneID = z.id ∧ r.key = key) := by
        intro hspot'
        have hkey := (m.spot_eq hop' ho hr (.inr hspot'.2)).1
        exact hspot ⟨(m.zone_eq ho hr).mp hspot'.1, hkey.symm.trans hspot'.2⟩
      rw [asks, if_neg hspot', asks, if_neg hspot]
  | detach id => exact absurd hop' (hop id)
  | add _ | delete _ | makeCanonical _ => rfl

theorem detached_agree {id : RecordID} (hop : op = .detach id)
    (ho : o ∈ s.without (goneBy s z past)) (hr : r.erase = leftAs (rewrittenBy s z past) o)
    (hmem : r ∈ t.records) : leftAs (op.rewrites t z) r = leftAs (op.rewrites s z) r := by
  have hmem' : o ∈ s.records := (mem_without.mp ho).1
  have hid := m.id_eq ho hr
  rw [leftAs_rewrites m.sound' m.allowed m.filed_next hmem]
  rcases @rewrittenRow_cases 0 (op.rewrites s z) r with ⟨hsame, hnone⟩ | ⟨u, hu, huid, created, hrow⟩
  · rw [leftAs, hsame, hop, asks]
    by_cases hnamed : r.id = id
    · -- The record was authored, and still is.
      have hauthored : o.isManaged = false := by
        by_contra hmanaged
        refine hnone ⟨o, detached o⟩ ?_ hid.symm
        refine (mem_rewrites m.sound m.allowed_before m.filed_next).mpr
          ⟨o, hmem', _, by rw [hop, asks, if_pos (hid.symm.trans hnamed)], fun he => ?_, rfl⟩
        exact hmanaged ((erase_detached (m.sound.records o hmem')).mp he)
      have hstill : r.isManaged = false := by
        have hby : o.managedBy = .empty := by simpa [Record.isManaged] using hauthored
        rcases m.source_eq ho hr with hsource | hsource
        · simp [Record.isManaged, hsource, hby]
        · simp [Record.isManaged, hsource]
      rw [if_pos hnamed]
      exact ((erase_detached (m.sound'.records r hmem)).mpr hstill).symm
    · rw [if_neg hnamed]
      rfl
  · obtain ⟨x, hx, a, ha, hne, rfl⟩ := (mem_rewrites m.sound m.allowed_before m.filed_next).mp hu
    have hxo : x = o :=
      m.sound.record_ext hx hmem' ((asks_id m.filed_next ha).symm.trans (huid.trans hid))
    rw [hxo] at ha hne
    rw [hop, asks, Option.ite_none_right_eq_some] at ha
    obtain ⟨hnamed, ha⟩ := ha
    cases ha
    have hmanaged : o.isManaged ≠ false :=
      fun hfalse => hne ((erase_detached (m.sound.records o hmem')).mpr hfalse)
    rw [leftAs, hrow, hop, asks, if_pos (hid.trans hnamed)]
    -- Nothing but a detachment has changed it.
    rcases m.stands ho hr with ⟨hsame, -⟩ | ⟨v, hv, rfl, hsame⟩
    · exact (congrArg detached hsame :)
    · rcases (m.updated hv).2.2.2.2 with ⟨hfalse, -⟩ | hdetached
      · exact absurd hfalse hmanaged
      · rw [hdetached] at hsame
        exact (congrArg detached hsame :)

theorem rewrites_agree (ho : o ∈ s.without (goneBy s z past))
    (hr : r.erase = leftAs (rewrittenBy s z past) o) (hmem : r ∈ t.records) :
    leftAs (op.rewrites t z) r = leftAs (op.rewrites s z) r := by
  by_cases hdetach : ∃ id, op = .detach id
  · obtain ⟨id, hop⟩ := hdetach
    exact m.detached_agree hop ho hr hmem
  have hop : ∀ id, op ≠ .detach id := fun id hop => hdetach ⟨id, hop⟩
  have hmem' : o ∈ s.records := (mem_without.mp ho).1
  have hid := m.id_eq ho hr
  have hasks := m.asks_agree hop ho hr hmem
  rw [leftAs_rewrites m.sound' m.allowed m.filed_next hmem]
  rcases @rewrittenRow_cases 0 (op.rewrites s z) r with ⟨hsame, hnone⟩ | ⟨u, hu, huid, created, hrow⟩
  · rw [leftAs, hsame]
    cases ha : op.asks z o with
    | none =>
      rw [ha, Option.map_none, Option.map_eq_none_iff] at hasks
      rw [hasks]
      rfl
    | some a =>
      -- The record is asked for as it was; nothing before has changed it.
      have hrestated : o.erase = a.erase := by
        by_contra hne
        exact hnone ⟨o, a⟩ ((mem_rewrites m.sound m.allowed_before m.filed_next).mpr
          ⟨o, hmem', a, ha, hne, rfl⟩) ((asks_id m.filed_next ha).trans hid.symm)
      rw [ha, Option.map_some, Option.map_eq_some_iff] at hasks
      obtain ⟨a', ha', herase⟩ := hasks
      rw [ha', Option.getD_some, herase, ← hrestated]
      rcases m.stands ho hr with ⟨hunchanged, -⟩ | ⟨v, hv, rfl, -⟩
      · exact hunchanged.symm
      · obtain ⟨first, hfirst, hv'⟩ := mem_flatMap.mp hv
        exact absurd (restates_of_asks hop ha hrestated)
          ((m.independent first hfirst).2.1 v hv')
  · obtain ⟨x, hx, a, ha, -, rfl⟩ := (mem_rewrites m.sound m.allowed_before m.filed_next).mp hu
    rw [m.sound.record_ext hx hmem' ((asks_id m.filed_next ha).symm.trans (huid.trans hid))] at ha
    rw [ha, Option.map_some, Option.map_eq_some_iff] at hasks
    obtain ⟨a', ha', herase⟩ := hasks
    rw [leftAs, hrow, ha', Option.getD_some, herase]
    rfl

theorem added_stays (hi : i ∈ addedBy s z past) (hadded : Added s z past i r)
    (hmem : r ∈ t.records) :
    r ∈ t.without (goneBy t z [op]) ∧ leftAs (op.rewrites t z) r = r.erase := by
  have hauthored : r.isManaged = false := by simp [Record.isManaged, hadded.authored]
  obtain ⟨hdrop, hasks⟩ := m.added_unnamed hi hadded
  constructor
  · by_contra hgone
    obtain ⟨first, hfirst, hr⟩ := removed_of_gone m.sound' hmem hauthored hgone
    rw [mem_singleton.mp hfirst] at hr
    exact hdrop ((mem_removes m.sound').mp hr).2
  · rw [leftAs_rewrites m.sound' m.allowed m.filed_next hmem]
    by_cases hdetach : ∃ id, op = .detach id
    · obtain ⟨id, hop⟩ := hdetach
      rw [hop, asks]
      split
      · exact ((erase_detached (m.sound'.records r hmem)).mpr hauthored).symm
      · rfl
    · rw [hasks fun id hop => hdetach ⟨id, hop⟩]
      rfl

theorem below_before (hk : Links.Below Record.id Record.source t.records (· ∈ goneBy t z [op]) k) :
    Links.Below Record.id Record.source s.records (· ∈ goneBy s z (past ++ [op])) k := by
  induction hk with
  | root hroot =>
    refine .root ?_
    rw [goneBy_append]
    exact mem_append_right _ (m.removes_agree.mp hroot)
  | @link a k hrow hsource _ ih =>
    have hmanaged : a.managedBy ≠ .empty := by
      intro hempty
      rw [Record.source, if_pos hempty] at hsource
      cases hsource
    rcases m.left.rows a hrow with ⟨o, ho, hleft⟩ | ⟨i, -, hadded⟩
    · have hsame : o.managedBy = a.managedBy := by
        rcases m.source_eq ho hleft with hsame | hempty
        · exact hsame.symm
        · exact absurd hempty hmanaged
      rw [m.id_eq ho hleft]
      refine .link (mem_without.mp ho).1 ?_ ih
      rw [← hsource, Record.source, Record.source, hsame]
    · exact absurd hadded.authored hmanaged

theorem below_after (hk : Links.Below Record.id Record.source (s.without (goneBy s z past))
      (· ∈ goneBy s z [op]) k) :
    Links.Below Record.id Record.source t.records (· ∈ goneBy t z [op]) k := by
  induction hk with
  | root hroot => exact .root (m.removes_agree.mpr hroot)
  | @link a k hrow hsource hk ih =>
    obtain ⟨r, hr, hleft⟩ := m.left.kept a hrow
    rw [← m.id_eq hrow hleft]
    refine .link hr ?_ ih
    rcases m.stands hrow hleft with ⟨hsame, -⟩ | ⟨u, hu, rfl, -⟩
    · exact (congrArg Record.source hsame :).trans hsource
    · -- What is rewritten hangs off nothing that goes.
      have hu' : u ∈ rewrittenBy s z (past ++ op :: rest) := by
        rw [rewrittenBy_append]
        exact mem_append_left _ hu
      have hkept := m.together.kept_of_rewrites m.sound m.filed hu'
      have hbelow : Links.Below Record.id Record.source s.records (· ∈ goneBy s z [op]) k :=
        hk.of_subset fun b hb => (mem_without.mp hb).1
      refine absurd ?_ (mem_without.mp hkept).2
      refine .link (mem_without.mp hrow).1 hsource (hbelow.mono fun j hj => .root ?_)
      simp only [mem_goneBy, mem_singleton, exists_eq_left] at hj
      exact mem_goneBy.mpr ⟨op, by simp, hj⟩

theorem stays_iff (ho : o ∈ s.without (goneBy s z past))
    (hr : r.erase = leftAs (rewrittenBy s z past) o) (hmem : r ∈ t.records) :
    r ∈ t.without (goneBy t z [op]) ↔ o ∈ s.without (goneBy s z (past ++ [op])) := by
  rw [mem_without, mem_without, m.id_eq ho hr]
  refine and_congr (iff_of_true hmem (mem_without.mp ho).1) (not_congr ⟨m.below_before, ?_⟩)
  intro hbelow
  rw [goneBy_append] at hbelow
  rcases Links.below_append hbelow with hpast | hnext
  · exact absurd hpast (mem_without.mp ho).2
  · exact m.below_after hnext

theorem leaves {t' : Store} (hstep : Leaves t z [op] t') : Leaves s z (past ++ [op]) t' := by
  have hrewritten : rewrittenBy t z [op] = op.rewrites t z := by simp [rewrittenBy]
  have hrewritten' : rewrittenBy s z [op] = op.rewrites s z := by simp [rewrittenBy]
  have hadds : addedBy t z [op] = addedBy s z [op] := by simp [addedBy, m.adds_agree]
  -- A record of the start after the step, and a row of the steps before.
  have hleft {o r r' : Record} (ho : o ∈ s.without (goneBy s z past)) (hmem : r ∈ t.records)
      (hr : r.erase = leftAs (rewrittenBy s z past) o)
      (hr' : r'.erase = leftAs (rewrittenBy t z [op]) r) :
      r'.erase = leftAs (rewrittenBy s z (past ++ [op])) o := by
    rw [hr', hrewritten, m.rewrites_agree ho hr hmem, rewrittenBy_append, hrewritten',
      leftAs_append hr]
  have hstill {i r r' : Record} (hi : i ∈ addedBy s z past) (hadded : Added s z past i r)
      (hmem : r ∈ t.records) (hr' : r'.erase = leftAs (rewrittenBy t z [op]) r) :
      Added s z (past ++ [op]) i r' := by
    rw [hrewritten, (m.added_stays hi hadded hmem).2] at hr'
    have hid : r'.id = r.id := (congrArg Record.id hr' :)
    refine ⟨(congrArg Record.zoneID hr' :).trans hadded.zone,
      (Record.erase_content hr').trans hadded.content,
      (congrArg Record.managedBy hr' :).trans hadded.authored, fun o ho => ?_⟩
    rw [hid]
    exact hadded.new o (without_of_append ho)
  have hfresh {i r' : Record} (hadded : Added t z [op] i r') : Added s z (past ++ [op]) i r' := by
    refine ⟨hadded.zone, hadded.content, hadded.authored, fun o ho => ?_⟩
    have hpast := without_of_append ho
    obtain ⟨r, hmem, hr⟩ := m.left.kept o hpast
    rw [← m.id_eq hpast hr]
    exact hadded.new r ((m.stays_iff hpast hr hmem).mpr ho)
  refine ⟨fun o ho => ?_, fun i hi => ?_, fun r' hr' => ?_⟩
  · have hpast := without_of_append ho
    obtain ⟨r, hmem, hr⟩ := m.left.kept o hpast
    obtain ⟨r', hmem', hr'⟩ := hstep.kept r ((m.stays_iff hpast hr hmem).mpr ho)
    exact ⟨r', hmem', hleft hpast hmem hr hr'⟩
  · rw [addedBy_append] at hi
    rcases mem_append.mp hi with hi | hi
    · obtain ⟨r, hmem, hadded⟩ := m.left.added i hi
      obtain ⟨r', hmem', hr'⟩ := hstep.kept r (m.added_stays hi hadded hmem).1
      exact ⟨r', hmem', hstill hi hadded hmem hr'⟩
    · obtain ⟨r', hmem', hadded⟩ := hstep.added i (by rw [hadds]; exact hi)
      exact ⟨r', hmem', hfresh hadded⟩
  · rcases hstep.rows r' hr' with ⟨r, hr, hrow⟩ | ⟨i, hi, hadded⟩
    · have hmem := (mem_without.mp hr).1
      rcases m.left.rows r hmem with ⟨o, ho, hrow'⟩ | ⟨i, hi, hadded⟩
      · exact .inl ⟨o, (m.stays_iff ho hrow' hmem).mp hr, hleft ho hmem hrow' hrow⟩
      · refine .inr ⟨i, ?_, hstill hi hadded hmem hrow⟩
        rw [addedBy_append]
        exact mem_append_left _ hi
    · refine .inr ⟨i, ?_, hfresh hadded⟩
      rw [addedBy_append, ← hadds]
      exact mem_append_right _ hi

end Midway

end Step

variable {z' : Zone} {ops : List RecordOp}

theorem removes_zone (hid : z'.id = z.id) :
    removes s z' = removes s z ∧ rewrites s z' = rewrites s z ∧ adds s z' = adds s z := by
  refine ⟨funext fun op => ?_, funext fun op => ?_, funext fun op => ?_⟩
  · cases op <;> simp [removes, hid]
  · cases op <;> simp [rewrites, hid]
  · cases op <;> simp [adds, hid]

theorem allowed_zone (hid : z'.id = z.id) (hname : z'.name = z.name)
    (h : op.Allowed s z') : op.Allowed s z := by
  have hcontains : z'.contains = z.contains := by
    funext n
    rw [Zone.contains, Zone.contains, hname]
  have howned : checkOwnedAndAuthored z' = checkOwnedAndAuthored z := by
    funext r
    rw [checkOwnedAndAuthored, checkOwnedAndAuthored, hid]
  cases op <;> simpa [Allowed, hcontains, howned, hid] using h

theorem Together.of_zone (hid : z'.id = z.id)
    (hname : z'.name = z.name) (h : Together s z' ops) : Together s z ops := by
  obtain ⟨hremoves, hrewrites, -⟩ := removes_zone (s := s) hid
  obtain ⟨hallowed, hdistinct, hupdates⟩ := h
  rw [rewrittenBy, goneBy, hremoves, hrewrites] at hupdates
  rw [goneBy, hremoves] at hdistinct
  exact ⟨fun op hop => allowed_zone hid hname (hallowed op hop), hdistinct, hupdates⟩

theorem Leaves.of_zone (hid : z'.id = z.id) (h : Leaves s z' ops t) : Leaves s z ops t := by
  obtain ⟨hremoves, hrewrites, hadds⟩ := removes_zone (s := s) hid
  have hgone : goneBy s z' ops = goneBy s z ops := by rw [goneBy, hremoves, goneBy]
  have hrewritten : rewrittenBy s z' ops = rewrittenBy s z ops := by
    rw [rewrittenBy, hrewrites, rewrittenBy]
  have hadded : addedBy s z' ops = addedBy s z ops := by rw [addedBy, hadds, addedBy]
  have hrow {i r : Record} (hi : Added s z' ops i r) : Added s z ops i r :=
    ⟨hi.zone.trans hid, hi.content, hi.authored, by rw [← hgone]; exact hi.new⟩
  obtain ⟨hkept, hnew, hrows⟩ := h
  rw [hgone, hrewritten] at hkept
  rw [hadded] at hnew
  rw [hgone, hrewritten, hadded] at hrows
  refine ⟨hkept, fun i hi => (hnew i hi).imp fun _ hr => ⟨hr.1, hrow hr.2⟩,
    fun r hr => (hrows r hr).imp_right fun hin => ?_⟩
  obtain ⟨i, hi, hr⟩ := hin
  exact ⟨i, hi, hrow hr⟩

theorem Leaves.contents_eq {t' : Store} (h : Leaves s z ops t)
    (h' : Leaves s z ops t') : t.contents z.id = t'.contents z.id := by
  have hsub {t t' : Store} (h : Leaves s z ops t) (h' : Leaves s z ops t') {c : Content}
      (hc : c ∈ t.contents z.id) : c ∈ t'.contents z.id := by
    obtain ⟨r, hr, hzone, rfl⟩ := mem_contents.mp hc
    rcases h.rows r hr with ⟨o, ho, hrow⟩ | ⟨i, hi, hadded⟩
    · obtain ⟨r', hr', hrow'⟩ := h'.kept o ho
      have hsame : r'.erase = r.erase := hrow'.trans hrow.symm
      exact mem_contents.mpr ⟨r', hr', (congrArg Record.zoneID hsame :).trans hzone,
        Record.erase_content hsame⟩
    · obtain ⟨r', hr', hadded'⟩ := h'.added i hi
      exact mem_contents.mpr ⟨r', hr', hadded'.zone,
        hadded'.content.trans hadded.content.symm⟩
  exact Finset.ext fun c => ⟨hsub h h', hsub h' h⟩

section InZone

variable {zid : ZoneID}

theorem restates_of_inZone (hx : (op.inZone zid).restates x) : op.restates x := by
  cases op with
  | update id r => exact hx
  | replaceRRset key wanted =>
    obtain ⟨hkey, w, hw, hcontent⟩ := hx
    obtain ⟨w', hw', rfl⟩ := mem_map.mp hw
    exact ⟨hkey, w', hw', hcontent⟩
  | add _ | delete _ | makeCanonical _ | detach _ => exact hx

theorem removes_inZone : (op.inZone zid).removes s z = op.removes s z := by
  cases op with
  | replaceRRset key wanted =>
    simp only [RecordOp.inZone, removes, any_map]
    rfl
  | _ => rfl

theorem adds_of_inZone (hr : r ∈ (op.inZone zid).adds s z) : ∃ r' ∈ op.adds s z, r'.key = r.key := by
  cases op with
  | add w =>
    rw [mem_singleton.mp hr]
    exact ⟨w, mem_singleton_self w, rfl⟩
  | replaceRRset key wanted =>
    simp only [RecordOp.inZone, adds, filter_map] at hr
    obtain ⟨w, hw, rfl⟩ := mem_map.mp hr
    exact ⟨w, hw, rfl⟩
  | update _ _ | delete _ | makeCanonical _ | detach _ => exact absurd hr not_mem_nil

theorem rewrite_of_content {before after after' : Record} {u : RecordUpdate}
    (hu : u ∈ rewrite before after) (hcontent : after'.content = after.content) :
    ∃ u' ∈ rewrite before after', u'.before = u.before ∧ u'.after.content = u.after.content := by
  have hsame : sameContent before after' = sameContent before after := by
    rw [Bool.eq_iff_iff, sameContent_iff, sameContent_iff, hcontent]
  rw [rewrite] at hu ⊢
  rw [hsame]
  split at hu
  · cases hu
  · next hne =>
    rw [if_neg hne, mem_singleton.mp hu]
    exact ⟨_, mem_singleton_self _, rfl, hcontent⟩

theorem rewrites_of_inZone {u : RecordUpdate} (hu : u ∈ (op.inZone zid).rewrites s z) :
    ∃ u' ∈ op.rewrites s z, u'.before = u.before ∧ u'.after.content = u.after.content := by
  cases op with
  | update id r =>
    obtain ⟨before, hbefore, hu⟩ := mem_flatMap.mp hu
    obtain ⟨u', hu', hsame⟩ := rewrite_of_content hu (rfl : (edited r before).content = _)
    exact ⟨u', mem_flatMap.mpr ⟨before, hbefore, hu'⟩, hsame⟩
  | replaceRRset key wanted =>
    simp only [RecordOp.inZone, rewrites, find?_map, Option.toList_map,
      flatMap_map, mem_flatMap] at hu
    obtain ⟨before, hbefore, w, hw, hu⟩ := hu
    obtain ⟨u', hu', hsame⟩ := rewrite_of_content hu (rfl : (replaced w before).content = _)
    exact ⟨u', mem_flatMap.mpr ⟨before, hbefore, mem_flatMap.mpr ⟨w, hw, hu'⟩⟩, hsame⟩
  | add _ | delete _ | makeCanonical _ => cases hu
  | detach id => exact ⟨u, hu, rfl, rfl⟩

theorem Independent.inZone {first later : RecordOp} (h : Independent s z first later) :
    Independent s z (first.inZone zid) (later.inZone zid) := by
  have hkeys {c c' : Record} (hcontent : c'.content = c.content) :
      c'.key = c.key ∧ c'.rdata = c.rdata :=
    ⟨(congrArg (fun c : Content => (⟨c.name, c.cls, c.type⟩ : RRsetKey)) hcontent :),
      (congrArg Content.rdata hcontent :)⟩
  obtain ⟨hgone, hchanged, hspares⟩ := h
  refine ⟨fun x hx hsame => hgone x (removes_inZone ▸ hx) (restates_of_inZone hsame),
    fun u hu hsame => ?_, ?_⟩
  · obtain ⟨u', hu', hbefore, -⟩ := rewrites_of_inZone hu
    exact hchanged u' hu' (hbefore ▸ restates_of_inZone hsame)
  · cases later with
    | replaceRRset key wanted =>
      refine ⟨fun r hr => ?_, fun u hu hkey => ?_⟩
      · obtain ⟨r', hr', hsame⟩ := adds_of_inZone hr
        rw [← hsame]
        exact hspares.1 r' hr'
      · obtain ⟨u', hu', hbefore, hcontent⟩ := rewrites_of_inZone hu
        obtain ⟨hk, hd⟩ := hkeys hcontent
        rw [← hbefore, ← hk] at hkey ⊢
        rw [← hd]
        exact hspares.2 u' hu' hkey
    | _ => exact trivial

end InZone

end RecordOp

/-- A command of one operation on a zone with the automation off. -/
structure Single (z : Zone) (op : RecordOp) (step : Env × Command) : Prop where
  zone : step.2.zoneID = z.id
  ops : step.2.ops = [op]
  off : step.1.autoReverse z = false

def issued (commands : List (Env × Command)) : List (Env × Operation) :=
  commands.map fun step => (step.1, .command step.2)

theorem Store.Sound.fixed_of_map {s t : Store} (h : s.Sound)
    (hzones : t.zones.map Zone.fixed = s.zones.map Zone.fixed) {z z' : Zone} (hz : z ∈ s.zones)
    (hz' : z' ∈ t.zones) (hid : z'.id = z.id) : z'.fixed = z.fixed := by
  have hmem : z'.fixed ∈ s.zones.map Zone.fixed := hzones ▸ mem_map_of_mem hz'
  obtain ⟨o, ho, hsame⟩ := mem_map.mp hmem
  have hoid : o.id = z'.id := (congrArg Prod.fst hsame :)
  rw [← hsame, h.zone_ext ho hz (hoid.trans hid)]

namespace RecordOp

variable {s t t' : Store} {z : Zone}

theorem leaves_of_issued (h : s.Sound) (hz : z ∈ s.zones) {ops : List RecordOp}
    {steps : List (Env × Command)} (hsteps : Forall₂ (Single z) ops steps)
    (hauthored : ∀ op ∈ ops, op.Authored) {past : List RecordOp}
    (hfiled : ∀ op ∈ past ++ ops.map (inZone z.id), op.Filed z.id)
    (hall : Together s z (past ++ ops.map (inZone z.id)))
    (hind : (past ++ ops.map (inZone z.id)).Pairwise (Independent s z)) (ht : t.Sound)
    (hzones : t.zones.map Zone.fixed = s.zones.map Zone.fixed) (hleft : Leaves s z past t)
    (hrun : performAll t (issued steps) = .ok t') :
    Leaves s z (past ++ ops.map (inZone z.id)) t' := by
  induction hsteps generalizing past t with
  | nil =>
    cases hrun
    rw [map_nil, append_nil]
    exact hleft
  | @cons op step ops steps hsingle _ ih =>
    obtain ⟨mid, hhead, htail⟩ := foldlM_cons_eq_ok.mp hrun
    obtain ⟨⟨_, res⟩, hperform, rfl⟩ := map_eq_ok.mp hhead
    have hplan := hperform
    simp only [Env.perform, bind_eq_ok, Prod.exists] at hplan
    obtain ⟨b, _, hplan, -⟩ := hplan
    obtain ⟨-, z', _, _, hz', -⟩ := Env.planCommand_eq_ok.mp hplan
    obtain ⟨hmem, hid⟩ := ht.zoneByID_eq_ok.mp hz'
    replace hid : z'.id = z.id := hid.trans hsingle.zone
    have hfixed := h.fixed_of_map hzones hz hmem hid
    have hname : z'.name = z.name := (congrArg (fun f => f.2.1) hfixed :)
    have hauto : z'.autoReverse = z.autoReverse := (congrArg (fun f => f.2.2.2.2.2.1) hfixed :)
    have hoff : step.1.autoReverse z' = false := by
      rw [Env.autoReverse, hauto]
      exact hsingle.off
    have hcommand := Env.leaves_of_command ht hz' hoff
      (by simpa [hsingle.ops] using hauthored op mem_cons_self) hperform
    rw [hsingle.ops, hid] at hcommand
    obtain ⟨htogether, hleaves, hzones'⟩ := hcommand
    rw [map_cons] at hfiled hall hind ⊢
    have hmidway : Midway s z past (op.inZone z.id) (ops.map (inZone z.id)) t :=
      { sound := h, sound' := ht, filed := hfiled, together := hall, left := hleft
        independent := fun first hfirst =>
          (pairwise_append.mp hind).2.2 first hfirst _ mem_cons_self
        allowed := (htogether.of_zone hid hname).allowed _ mem_cons_self }
    rw [append_cons] at hfiled hall hind ⊢
    refine ih (fun op hop => hauthored op (mem_cons_of_mem _ hop)) hfiled hall hind
      ((Env.perform_outcome hperform).sound ht) (hzones'.trans hzones)
      (hmidway.leaves (hleaves.of_zone hid)) htail

end RecordOp

/-- A command on a zone with the automation off, and its operations as commands of their own
one after another: where no operation is resolved against something an earlier one has
changed, both leave the zone with the same records. -/
theorem operations_in_order {s t t' : Store} {z : Zone} {env : Env} {cmd : Command} {res : Result}
    {singles : List (Env × Command)} (h : s.Sound) (hz : s.zoneByID cmd.zoneID = .ok z)
    (hoff : env.autoReverse z = false) (hauthored : ∀ op ∈ cmd.ops, op.Authored)
    (hsingles : Forall₂ (Single z) cmd.ops singles)
    (hind : cmd.ops.Pairwise (Independent s z))
    (hok : env.perform s (.command cmd) = .ok (t, res))
    (hrun : performAll s (issued singles) = .ok t') : t.contents z.id = t'.contents z.id := by
  obtain ⟨htogether, hleaves, -⟩ := Env.leaves_of_command h hz hoff hauthored hok
  have hfiled : ∀ op ∈ cmd.ops.map (inZone z.id), op.Filed z.id := by
    intro op hop
    obtain ⟨o, -, rfl⟩ := mem_map.mp hop
    cases o with
    | add r => rfl
    | update id r => exact ⟨rfl, rfl⟩
    | replaceRRset key records =>
      intro r hr
      obtain ⟨w, -, rfl⟩ := mem_map.mp hr
      rfl
    | delete _ | makeCanonical _ | detach _ => exact trivial
  have hind' : (cmd.ops.map (inZone z.id)).Pairwise (Independent s z) :=
    pairwise_map.mpr (hind.imp fun hpair => hpair.inZone)
  have hnone : Leaves s z [] s :=
    ⟨fun o ho => ⟨o, (mem_without.mp ho).1, rfl⟩, fun i hi => absurd hi not_mem_nil,
      fun r hr => .inl ⟨r, mem_without.mpr ⟨hr, fun hbelow => by
        obtain ⟨k, hk⟩ := hbelow.exists_root
        exact absurd hk not_mem_nil⟩, rfl⟩⟩
  exact hleaves.contents_eq (leaves_of_issued h (h.zoneByID_eq_ok.mp hz).1 hsingles
    hauthored hfiled htogether hind' h rfl hnone hrun)

namespace Sample

def quiet : Zone := { zone 1 ["ex"] with autoReverse := some false }

def quietStore : Store :=
  store [quiet] [record 1 1 ["ex"] typeNS "ns.", record 2 1 ["a", "ex"] typeA "192.0.2.10",
    record 3 1 ["b", "ex"] typeA "192.0.2.11"]

def quietly (ops : List RecordOp) : Command := ⟨.ulid 1, ops, none, .edit, .api, "", ""⟩

def oneByOne (ops : List RecordOp) : List (Env × Command) :=
  ops.mapIdx fun i op => (envAt (200 + 100 * i), quietly [op])

def replacement (id : Nat) (data : List String) : RecordOp :=
  .replaceRRset ⟨name ["c", "ex"], classIN, typeA⟩
    (data.mapIdx fun i data => record (id + i) 1 ["c", "ex"] typeA data)

def tidying : List RecordOp :=
  [.update (.ulid 2) (record 2 1 ["a", "ex"] typeA "192.0.2.20"), .delete (.ulid 3),
    replacement 10 ["192.0.2.30", "192.0.2.31"]]

theorem quietStore_sound : quietStore.Sound := by
  constructor <;> decide +kernel

end Sample

theorem operations_in_order_tidying :
    ∃ t t' res, (envAt 100).perform quietStore
          (.command (quietly tidying)) = .ok (t, res) ∧
      performAll quietStore (issued (oneByOne tidying)) = .ok t' ∧
      (t.contents (.ulid 1)).card = 4 ∧ t.contents (.ulid 1) = t'.contents (.ulid 1) := by
  obtain ⟨⟨t, res⟩, hok, hcard⟩ := ok_of_any
    (show ((envAt 100).perform quietStore
        (.command (quietly tidying))).toOption.any
      (fun out => decide ((out.1.contents (.ulid 1)).card = 4)) = true by decide +kernel)
  obtain ⟨t', hrun, -⟩ := ok_of_any
    (show (performAll quietStore (issued (oneByOne tidying))).toOption.any
      (fun _ => true) = true by decide +kernel)
  have hsingles : Forall₂ (Single quiet) tidying
      (oneByOne tidying) :=
    .cons ⟨rfl, rfl, rfl⟩ (.cons ⟨rfl, rfl, rfl⟩ (.cons ⟨rfl, rfl, rfl⟩ .nil))
  exact ⟨t, t', res, hok, hrun, of_decide_eq_true hcard,
    operations_in_order quietStore_sound (z := quiet) rfl rfl (by decide +kernel)
      hsingles (by decide +kernel) hok hrun⟩

/-- Two replacements of one RRset: together they leave the addresses of both, one at a time
those of the second. -/
theorem replaced_twice :
    ∃ t t' res, (envAt 100).perform quietStore (.command (quietly
          [Sample.replacement 10 ["192.0.2.30"], Sample.replacement 11 ["192.0.2.31"]])) =
        .ok (t, res) ∧
      performAll quietStore (issued (oneByOne
          [Sample.replacement 10 ["192.0.2.30"], Sample.replacement 11 ["192.0.2.31"]])) =
        .ok t' ∧
      (t.contents (.ulid 1)).card = 5 ∧ (t'.contents (.ulid 1)).card = 4 ∧
      t.contents (.ulid 1) ≠ t'.contents (.ulid 1) := by
  obtain ⟨⟨t, res⟩, hok, hcard⟩ := ok_of_any
    (show ((envAt 100).perform quietStore (.command (quietly
          [Sample.replacement 10 ["192.0.2.30"],
            Sample.replacement 11 ["192.0.2.31"]]))).toOption.any
      (fun out => decide ((out.1.contents (.ulid 1)).card = 5)) = true by decide +kernel)
  obtain ⟨t', hrun, hcard'⟩ := ok_of_any
    (show (performAll quietStore (issued (oneByOne
          [Sample.replacement 10 ["192.0.2.30"],
            Sample.replacement 11 ["192.0.2.31"]]))).toOption.any
      (fun t => decide ((t.contents (.ulid 1)).card = 4)) = true by decide +kernel)
  have hfive := of_decide_eq_true hcard
  have hfour := of_decide_eq_true hcard'
  refine ⟨t, t', res, hok, hrun, hfive, hfour, fun hsame => ?_⟩
  rw [hsame, hfour] at hfive
  cases hfive

end Wegweiser
