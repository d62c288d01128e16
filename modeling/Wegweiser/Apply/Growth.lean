/-
What the automation adds to a change set.

Whatever it queues beyond what was asked for is the removal of a generated
record, a generated PTR for a record it was given, or the delegation to such a
PTR.
-/
import Wegweiser.Apply.Automation

namespace Wegweiser

open Checked List Work

namespace Env

variable {env : Env} {s : Store} {G G' : Record → Prop} {x : Record}

/-- A PTR the automation generates for one of the records `G`. -/
structure NewPTR (env : Env) (s : Store) (G : Record → Prop) (x source : Record) (addr : Addr)
    (rev : Zone) : Prop where
  given : G source
  spot : Spot s source addr rev x.name
  ptr : ∃ data n, env.lib.parseRData typePTR classIN source.name.string = .ok data ∧
    x = generatedPTR rev source x.name data (env.mint n)

/-- A delegation the automation generates to the PTR `ptr`. -/
structure NewCNAME (env : Env) (s : Store) (x ptr : Record) (addr : Addr) (rev : Zone) :
    Prop where
  plain : reverseName addr = .ok x.name
  cname : ∃ parent data n, parentZone s rev = some parent ∧
    env.lib.parseRData typeCNAME classIN ptr.name.string = .ok data ∧
    x = generatedCNAME parent ptr x.name data (env.mint n)

variable {source : Record} {addr : Addr} {rev : Zone}

theorem NewPTR.mono (h : NewPTR env s G x source addr rev) (hG : G source → G' source) :
    NewPTR env s G' x source addr rev :=
  ⟨hG h.given, h.spot, h.ptr⟩

theorem NewPTR.type (h : NewPTR env s G x source addr rev) : x.type = typePTR := by
  obtain ⟨data, n, -, hx⟩ := h.ptr
  rw [hx]
  rfl

theorem NewCNAME.type {ptr : Record} (h : NewCNAME env s x ptr addr rev) : x.type = typeCNAME := by
  obtain ⟨parent, data, n, -, -, hx⟩ := h.cname
  rw [hx]
  rfl

theorem address_eq_none {r : Record} (hA : r.type ≠ typeA) (hAAAA : r.type ≠ typeAAAA) :
    r.address = none := by
  simp [Record.address, RData.address, hA, hAAAA]

end Env

/-- A record the automation can come across: a stored one, or one that is arriving. -/
def ChangeSet.Known (s : Store) (cs : ChangeSet) (x : Record) : Prop :=
  x ∈ s.records ∨ x ∈ cs.inserts ∨ ∃ u ∈ cs.updates, x = u.after

/-- A change set that grew by what the automation does for the records `G`. -/
structure Work.Grows (env : Env) (s : Store) (G : Record → Prop) (w w' : Work) : Prop where
  deletes_mono : ∀ x, x ∈ w.cs.deletes → x ∈ w'.cs.deletes
  deletes : ∀ x, x ∈ w'.cs.deletes → x ∈ w.cs.deletes ∨ x.isManaged = true ∧ w'.cs.Known s x
  inserts_mono : ∀ x, x ∈ w.cs.inserts → x ∈ w'.cs.inserts
  inserts : ∀ x, x ∈ w'.cs.inserts → x ∈ w.cs.inserts ∨
    (∃ source addr rev, Env.NewPTR env s G x source addr rev) ∨
    ∃ ptr source addr rev, ptr ∈ w'.cs.inserts ∧ Env.NewPTR env s G ptr source addr rev ∧
      Env.NewCNAME env s x ptr addr rev
  updates : w'.cs.updates = w.cs.updates
  soa : ∀ zid, (w'.cs.pending zid).soa = (w.cs.pending zid).soa
  policy : w'.cs.policy = w.cs.policy

namespace Work.Grows

variable {env : Env} {s : Store} {G : Record → Prop} {u v w w' : Work}

theorem refl : Grows env s G w w :=
  ⟨fun _ => id, fun _ => .inl, fun _ => id, fun _ => .inl, rfl, fun _ => rfl, rfl⟩

theorem known (h : Grows env s G u v) {x : Record} (hx : u.cs.Known s x) : v.cs.Known s x := by
  rcases hx with hx | hx | ⟨o, ho, hx⟩
  · exact .inl hx
  · exact .inr (.inl (h.inserts_mono x hx))
  · exact .inr (.inr ⟨o, h.updates ▸ ho, hx⟩)

theorem trans (huv : Grows env s G u v) (hvw : Grows env s G v w) : Grows env s G u w where
  deletes_mono x hx := hvw.deletes_mono x (huv.deletes_mono x hx)
  deletes x hx := by
    rcases hvw.deletes x hx with hx | hx
    · rcases huv.deletes x hx with hx | ⟨hmanaged, hknown⟩
      · exact .inl hx
      · exact .inr ⟨hmanaged, hvw.known hknown⟩
    · exact .inr hx
  inserts_mono x hx := hvw.inserts_mono x (huv.inserts_mono x hx)
  inserts x hx := by
    rcases hvw.inserts x hx with hx | hx
    · rcases huv.inserts x hx with hx | hx | ⟨ptr, source, addr, rev, hptr, hnew, hcname⟩
      · exact .inl hx
      · exact .inr (.inl hx)
      · exact .inr (.inr ⟨ptr, source, addr, rev, hvw.inserts_mono ptr hptr, hnew, hcname⟩)
    · exact .inr hx
  updates := hvw.updates.trans huv.updates
  soa zid := (hvw.soa zid).trans (huv.soa zid)
  policy := hvw.policy.trans huv.policy

theorem of_cs_eq (h : w'.cs = w.cs) : Grows env s G w w' where
  deletes_mono x hx := by rwa [h]
  deletes x hx := .inl (by rwa [h] at hx)
  inserts_mono x hx := by rwa [h]
  inserts x hx := .inl (by rwa [h] at hx)
  updates := by rw [h]
  soa zid := by rw [h]
  policy := by rw [h]

theorem mono {G' : Record → Prop} (h : Grows env s G u v)
    (hG : ∀ x addr rev owner, Env.Spot s x addr rev owner → G x → G' x) :
    Grows env s G' u v where
  deletes_mono := h.deletes_mono
  deletes := h.deletes
  inserts_mono := h.inserts_mono
  inserts x hx := by
    rcases h.inserts x hx with hx | ⟨source, addr, rev, hnew⟩ |
      ⟨ptr, source, addr, rev, hptr, hnew, hcname⟩
    · exact .inl hx
    · exact .inr (.inl ⟨source, addr, rev, hnew.mono (hG _ _ _ _ hnew.spot)⟩)
    · exact .inr (.inr ⟨ptr, source, addr, rev, hptr, hnew.mono (hG _ _ _ _ hnew.spot), hcname⟩)
  updates := h.updates
  soa := h.soa
  policy := h.policy

theorem of_retires {P : Record → Prop} (h : Retires P u v)
    (hP : ∀ x, P x → x.isManaged = true ∧ v.cs.Known s x) : Grows env s G u v where
  deletes_mono x hx := (h.deletes x).mpr (.inl hx)
  deletes x hx := ((h.deletes x).mp hx).imp_right (hP x)
  inserts_mono x hx := (h.inserts x).mpr hx
  inserts x hx := .inl ((h.inserts x).mp hx)
  updates := h.updates
  soa := h.soa
  policy := h.policy

end Work.Grows

namespace Env

variable {env : Env} {s : Store} {G : Record → Prop} {w w' : Work} {r source : Record}
  {rev : Zone} {addr : Addr} {owner : Name}

theorem isManaged_of_hangs {ids : RecordID → Prop} (h : s.Hangs ids r) : r.isManaged = true := by
  obtain ⟨p, hsource, -⟩ := h
  by_cases hempty : r.managedBy = .empty
  · simp [Record.source, hempty] at hsource
  · simpa [Record.isManaged] using hempty

theorem displaced_retires {held : List Record} :
    Retires (fun x => x ∈ held ∧ x.isManaged = true) w (displaced w rev held) := by
  rw [displaced]
  have hfold (l : List Record) (w : Work) :
      Retires (· ∈ l) w (l.foldl (fun w r => w.inZone rev (·.remove r)) w) := by
    induction l generalizing w with
    | nil => exact Retires.refl.congr (by simp)
    | cons head tail ih =>
      have hhead : Retires (· = head) w (w.inZone rev (·.remove head)) := by
        constructor
        case soa =>
          intro zid
          rw [inZone, ChangeSet.inZone_pending]
          split <;> simp
        all_goals simp [inZone]
      exact (hhead.trans (ih _)).congr fun x => by simp
  exact (hfold _ w).congr fun x => mem_filter

variable {x : Record} {src : Zone}

theorem known_of_heldAt (hx : x ∈ heldAt s w.cs rev owner) : w.cs.Known s x := by
  rw [heldAt, reverseRRset, mem_append] at hx
  rcases hx with hx | hx
  · exact .inl (Store.mem_rrset.mp (mem_filter.mp hx).1).1
  · rw [Changes.arriving, mem_append] at hx
    rcases hx with hx | hx
    · exact .inr (.inl (ChangeSet.mem_inserts_of_pending (mem_filter.mp hx).1))
    · obtain ⟨u, hu, rfl⟩ := mem_map.mp hx
      obtain ⟨e, he, -, hu⟩ :=
        ChangeSet.mem_of_pending Changes.updates rfl (mem_filter.mp hu).1
      exact .inr (.inr ⟨u, ChangeSet.mem_updates.mpr ⟨e, he, hu⟩, rfl⟩)

theorem queueEntry_grows (hspot : Spot s source addr rev owner) (hG : G source)
    (hok : env.queueEntry s w rev source addr owner = .ok w') : Grows env s G w w' := by
  obtain ⟨data, plain, hdata, hplain, hdelegated⟩ := queueEntry_eq_ok hok
  have hnew : NewPTR env s G (env.entered w rev source owner data).1 source addr rev :=
    ⟨hG, hspot, data, w.minted, hdata, rfl⟩
  have hmid : Grows env s G w (env.entered w rev source owner data).2 := by
    constructor
    case inserts =>
      intro x hx
      simp only [entered, inZone, ChangeSet.mem_inserts_insert] at hx
      rcases hx with hx | rfl
      · exact .inl hx
      · exact .inr (.inl ⟨source, addr, rev, hnew⟩)
    case soa =>
      intro zid
      simp only [entered, inZone, ChangeSet.inZone_pending]
      split <;> simp
    all_goals simp +contextual [entered, inZone]
  have hptr : (env.entered w rev source owner data).1 ∈
      (env.entered w rev source owner data).2.cs.inserts := by
    simp [entered, inZone]
  refine hmid.trans ?_
  cases hdelegated with
  | inside | elsewhere | present => exact Grows.refl
  | conflict => exact Grows.of_cs_eq rfl
  | @queued parent cdata hout hparent hfree hcdata =>
    constructor
    case inserts =>
      intro x hx
      simp only [inZone, ChangeSet.mem_inserts_insert] at hx
      rcases hx with hx | rfl
      · exact .inl hx
      · refine .inr (.inr ⟨_, source, addr, rev, ?_, hnew, hplain, parent, cdata, _, hparent,
          hcdata, rfl⟩)
        simp only [inZone, ChangeSet.mem_inserts_insert]
        exact .inl hptr
    case soa =>
      intro zid
      simp only [inZone, ChangeSet.inZone_pending]
      split <;> simp
    all_goals simp +contextual [inZone]

theorem generate_grows (hG : G source) (hok : env.generate s w source = .ok w') :
    Grows env s G w w' := by
  cases generate_eq_ok hok with
  | skipped | present => exact Grows.refl
  | missing | kept => exact Grows.of_cs_eq rfl
  | free hspot _ hentry | beside hspot _ _ hentry => exact queueEntry_grows hspot hG hentry
  | @replaced _ addr rev owner held others c hspot hheld _ _ _ hentry =>
    have hdisplaced : Grows env s G w (displaced w rev (held :: others)) := by
      have hretires := @displaced_retires w rev (held :: others)
      refine Grows.of_retires hretires fun x hx => ⟨hx.2, ?_⟩
      rcases known_of_heldAt (hheld ▸ hx.1) with hknown | hknown | ⟨u, hu, hknown⟩
      · exact .inl hknown
      · exact .inr (.inl ((hretires.inserts x).mpr hknown))
      · exact .inr (.inr ⟨u, hretires.updates ▸ hu, hknown⟩)
    have hreport : Grows env s G (displaced w rev (held :: others))
        ((displaced w rev (held :: others)).report c) := Grows.of_cs_eq rfl
    exact (hdisplaced.trans hreport).trans (queueEntry_grows hspot hG hentry)

theorem foldlM_grows {α : Type} {l : List α} {step : Work → α → Except Err Work}
    (hstep : ∀ a ∈ l, ∀ w w', step w a = .ok w' → Grows env s G w w')
    (hok : l.foldlM step w = .ok w') : Grows env s G w w' :=
  foldlM_relation (Grows env s G) (fun _ => Grows.refl)
    (fun _ _ _ huv hvw => huv.trans hvw) (fun a ha x y hxy => hstep a ha x y hxy) hok

def moved (ch : Changes) : List RecordUpdate :=
  ch.updates.filter fun u => !sameReverse u.before u.after

def Expands (ch : Changes) (x : Record) : Prop :=
  (∃ u ∈ moved ch, x = u.after) ∨ x ∈ ch.inserts ∨ x ∈ ch.claims

/-- What an expansion leaves in the change set. -/
structure Expanded (env : Env) (s : Store) (ch : Changes) (w w' : Work) : Prop where
  grows : Grows env s (Expands ch) w w'
  /-- What hangs below a record that goes is queued with it. -/
  below_deletes : ∀ d ∈ ch.deletes, retirable d.type →
    ∀ x ∈ s.records, s.Hangs (· = d.id) x → x ∈ w'.cs.deletes
  /-- What hangs below a record that no longer reverses as it did is queued too. -/
  below_moved : ∀ u ∈ moved ch, retirable u.before.type →
    ∀ x ∈ s.records, s.Hangs (· = u.before.id) x → x ∈ w'.cs.deletes

theorem address_of_new (hx : (∃ source addr rev, NewPTR env s G x source addr rev) ∨
    ∃ ptr source addr rev, ptr ∈ w'.cs.inserts ∧ NewPTR env s G ptr source addr rev ∧
      NewCNAME env s x ptr addr rev) : x.address = none := by
  rcases hx with ⟨source, addr, rev, hnew⟩ | ⟨ptr, source, addr, rev, -, -, hcname⟩
  · exact address_eq_none (by rw [hnew.type]; decide) (by rw [hnew.type]; decide)
  · exact address_eq_none (by rw [hcname.type]; decide) (by rw [hcname.type]; decide)

theorem expandReverse_off (hoff : env.autoReverse src = false)
    (hok : env.expandReverse s w src = .ok w') : w' = w := by
  rw [expandReverse, hoff] at hok
  cases hok
  rfl

theorem expandReverse_expanded (hon : env.autoReverse src = true)
    (hown : ∀ x ∈ w.cs.inserts, x ∈ (w.cs.pending src.id).inserts)
    (hok : env.expandReverse s w src = .ok w') : Expanded env s (w.cs.pending src.id) w w' := by
  simp only [expandReverse, hon, Bool.not_true, Bool.false_eq_true, if_false, bind_eq_ok] at hok
  obtain ⟨w₁, h₁, w₂, h₂, w₃, h₃, w₄, h₄, h₅⟩ := hok
  have hmanaged {P : Prop} {k : RecordID} {v : Work} (x : Record)
      (hx : P ∧ x ∈ s.records ∧ s.Hangs (· = k) x) : x.isManaged = true ∧ v.cs.Known s x :=
    ⟨isManaged_of_hangs hx.2.2, .inl hx.2.1⟩
  have r₁ := foldlM_retires (fun d w w' h => retireGenerated_retires h) h₁
  have r₂ := foldlM_retires (fun (u : RecordUpdate) w w' h => retireGenerated_retires h) h₂
  have g₁ : Grows env s (Expands (w.cs.pending src.id)) w w₁ :=
    Grows.of_retires r₁ fun x hx => by
      obtain ⟨d, -, hx⟩ := hx
      exact hmanaged x hx
  have g₂ : Grows env s (Expands (w.cs.pending src.id)) w₁ w₂ :=
    Grows.of_retires r₂ fun x hx => by
      obtain ⟨u, -, hx⟩ := hx
      exact hmanaged x hx
  have g₃ : Grows env s (Expands (w.cs.pending src.id)) w₂ w₃ :=
    foldlM_grows (fun u hu _ _ h => generate_grows (.inl ⟨u, hu, rfl⟩) h) h₃
  have g₄ : Grows env s (Expands (w.cs.pending src.id)) w₃ w₄ := by
    -- by now the zone may hold generated records too, which generate nothing
    have hmid := (g₁.trans g₂).trans g₃
    have hfold : Grows env s (fun x => x ∈ (w₃.cs.pending src.id).inserts) w₃ w₄ :=
      foldlM_grows (fun i hi _ _ h => generate_grows hi h) h₄
    refine hfold.mono fun x addr rev owner hspot hx => ?_
    rcases hmid.inserts x (ChangeSet.mem_inserts_of_pending hx) with hx | hx
    · exact .inr (.inl (hown x hx))
    · have hnone := address_of_new hx
      rw [hspot.address] at hnone
      cases hnone
  have g₅ : Grows env s (Expands (w.cs.pending src.id)) w₄ w' :=
    foldlM_grows (fun i hi _ _ h => generate_grows (.inr (.inr hi)) h) h₅
  have glast := (g₃.trans g₄).trans g₅
  refine ⟨((g₁.trans g₂).trans glast), ?_, ?_⟩
  · intro d hd htype x hx hhangs
    refine (g₂.trans glast).deletes_mono x ((r₁.deletes x).mpr (.inr ⟨d, hd, htype, hx, hhangs⟩))
  · intro u hu htype x hx hhangs
    exact glast.deletes_mono x ((r₂.deletes x).mpr (.inr ⟨u, hu, htype, hx, hhangs⟩))

theorem isManaged_of_source {id : RecordID} (h : r.source = some id) : r.isManaged = true := by
  by_cases hempty : r.managedBy = .empty
  · simp [Record.source, hempty] at h
  · simpa [Record.isManaged] using hempty

/-- The entries of a record that `supersede` retires: all but the one where the
record's entry goes now. -/
def Superseded (s : Store) (r d : Record) : Prop :=
  d ∈ s.records ∧ d.source = some r.id ∧ ∃ addr rev owner, r.address = some addr ∧
    s.reverseZoneFor addr = some rev ∧ rev.reverseOwner addr = .ok owner ∧
    ¬(d.zoneID = rev.id ∧ d.type = typePTR ∧ d.name = owner)

theorem supersede_retires (hok : supersede s w r = .ok w') :
    Retires (fun x => ∃ d, Superseded s r d ∧
      (x = d ∨ x ∈ s.records ∧ s.Hangs (· = d.id) x)) w w' := by
  rw [supersede] at hok
  split at hok
  · next hnone =>
    cases hok
    refine Retires.refl.congr fun x => ⟨False.elim, fun h => ?_⟩
    obtain ⟨d, ⟨-, -, addr, rev, owner, haddr, hrev, -, -⟩, -⟩ := h
    simp [haddr, hrev] at hnone
  · next addr rev hsome =>
    obtain ⟨owner, howner, hrun⟩ := bind_eq_ok.mp hok
    obtain ⟨addr', haddr, hrev⟩ := Option.bind_eq_some_iff.mp hsome
    obtain ⟨rev', hrev, heq⟩ := Option.map_eq_some_iff.mp hrev
    cases heq
    refine (foldlM_retires (fun d w w' h => retire_retires h) hrun).congr fun x => ?_
    refine exists_congr fun d => and_congr_left fun _ => ?_
    rw [mem_filter, Store.mem_managedBy]
    constructor
    · intro hd
      refine ⟨hd.1.1, hd.1.2, addr, rev, owner, haddr, hrev, howner, fun hat => ?_⟩
      simp [hat] at hd
    · intro hd
      obtain ⟨hmem, hsource, addr', rev', owner', haddr', hrev', howner', hnot⟩ := hd
      rw [haddr] at haddr'
      cases haddr'
      rw [hrev] at hrev'
      cases hrev'
      rw [howner] at howner'
      cases howner'
      refine ⟨⟨hmem, hsource⟩, ?_⟩
      rw [Bool.not_eq_true', Bool.eq_false_iff]
      intro hat
      exact hnot (by simpa [and_assoc] using hat)

theorem reconcileRecord_grows (hG : G r) (hok : env.reconcileRecord s w r = .ok w') :
    Grows env s G w w' := by
  obtain ⟨src, -, hrest⟩ := bind_eq_ok.mp hok
  split at hrest
  · cases hrest
    exact Grows.refl
  · obtain ⟨mid, hsupersede, hgenerate⟩ := bind_eq_ok.mp hrest
    refine (Grows.of_retires (supersede_retires hsupersede) fun x hx => ?_).trans
      (generate_grows hG hgenerate)
    obtain ⟨d, hd, rfl | hx⟩ := hx
    · exact ⟨isManaged_of_source hd.2.1, .inl hd.1⟩
    · exact ⟨isManaged_of_hangs hx.2, .inl hx.1⟩

theorem reconcileInto_grows {z : Zone} (hok : env.reconcileInto s w z = .ok w') :
    Grows env s (· ∈ reconcileSources s z) w w' := by
  rw [reconcileInto] at hok
  split at hok
  · cases hok
    exact Grows.refl
  · exact foldlM_grows (fun r hr _ _ h => reconcileRecord_grows hr h) hok

end Env

end Wegweiser
