/-
How far what is generated is from what somebody wrote: a PTR is generated from a record without a
source and a delegation from a PTR, so that no chain of provenance comes back to where it started.
-/
import Wegweiser.Apply.Ordered
import Wegweiser.Apply.Provenance

namespace Wegweiser

open Checked List Sample Store Record

def Record.tier (r : Record) : Nat :=
  if r.isManaged then if r.managedKind = some .ptr then 1 else 2 else 0

theorem Record.tier_eq_zero {r : Record} : r.tier = 0 ↔ r.isManaged = false := by
  rw [tier]
  split_ifs <;> simp_all

def Store.Tiered (s : Store) : Prop :=
  ∀ r ∈ s.records, ∀ src ∈ s.records, r.source = some src.id → src.tier < r.tier

theorem Store.Tiered.forest {s : Store} (h : s.Sound) (htiers : s.Tiered) :
    Links.Forest Record.id Record.source s.records := by
  have hrank {r : Record} (hr : r ∈ s.records) :
      (s.recordByID r.id).toOption.elim 0 tier = r.tier := by
    rw [h.recordByID_eq_ok.mpr ⟨hr, rfl⟩]
    rfl
  refine Links.forest_of_rank (fun id => (s.recordByID id).toOption.elim 0 tier)
    fun a ha k hk => ?_
  obtain ⟨hne, rfl⟩ := source_eq_some.mp hk
  obtain ⟨src, hsrc, hid⟩ := h.record_sources a ha hne
  rw [← hid] at hk ⊢
  rw [hrank hsrc, hrank ha]
  exact htiers a ha src hsrc hk

namespace Env

variable {env : Env} {s t : Store} {op : Operation} {res : Result} {G : Record → Prop}
  {w₀ w : Work} {now : Nat}

theorem tiered_of_grows (h : s.Sound) (ht : t.Sound) (hfresh : env.Fresh s)
    (hgrows : Work.Grows env s G w₀ w) (hrw : w.cs.Rewrites now s t)
    (hupdates : ∀ u ∈ w₀.cs.updates, u.before ∈ s.records ∧ u.after.id = u.before.id ∧
      u.after.isManaged = false) (hinserts : ∀ i ∈ w₀.cs.inserts, i.isManaged = false)
    (hgiven : ∀ x, G x → w₀.cs.Known s x) (hinv : s.Tiered) : t.Tiered := by
  have hcame {i : Record} (hi : i ∈ w.cs.inserts) : insertedRow now i ∈ t.records :=
    (hrw.rows _).mpr (.inr ⟨i, hi, rfl⟩)
  -- what stands where a row was is authored or is that row
  have hrow {r o : Record} (hr : r ∈ t.records) (ho : o ∈ s.records) (hid : r.id = o.id) :
      r.tier = 0 ∨ r = o ∧ ∀ u ∈ w₀.cs.updates, u.after.id ≠ o.id := by
    rcases (hrw.rows r).mp hr with ⟨o', ho', rfl⟩ | ⟨i, hi, rfl⟩
    · rw [hgrows.updates, h.record_ext (mem_without.mp ho').1 ho (rewrittenRow_id.symm.trans hid)]
      rcases rewrittenRow_cases w₀.cs.updates o with hsame | ⟨u, hu, -, created, hrow⟩
      · exact .inr hsame
      · rw [hrow]
        exact .inl (tier_eq_zero.mpr (hupdates u hu).2.2)
    · rcases hgrows.inserts i hi with hasked | ⟨_, _, _, hnew⟩ | ⟨_, _, _, _, -, -, hnew⟩
      · exact .inl (tier_eq_zero.mpr (hinserts i hasked))
      · obtain ⟨data, n, -, hi'⟩ := hnew.ptr
        exact absurd (hid.symm.trans (by rw [hi']; rfl)) (hfresh n o ho)
      · obtain ⟨parent, data, n, -, -, hi'⟩ := hnew.cname
        exact absurd (hid.symm.trans (by rw [hi']; rfl)) (hfresh n o ho)
  have hauthored {source src : Record} (hsource : w₀.cs.Known s source)
      (hby : source.isManaged = false) (hsrc : src ∈ t.records) (hid : src.id = source.id) :
      src.tier = 0 := by
    rcases hsource with hmem | hmem | ⟨u, hu, rfl⟩
    · rcases hrow hsrc hmem hid with hzero | ⟨rfl, -⟩
      · exact hzero
      · exact tier_eq_zero.mpr hby
    · rw [ht.record_ext hsrc (hcame (hgrows.inserts_mono _ hmem)) hid]
      exact tier_eq_zero.mpr hby
    · obtain ⟨hbefore, hsame, -⟩ := hupdates u hu
      exact (hrow hsrc hbefore (hid.trans hsame)).resolve_right fun hkept => hkept.2 u hu hsame
  intro r hr src hsrc hsource
  obtain ⟨hne, hby⟩ := source_eq_some.mp hsource
  have hmanaged := isManaged_of_source hsource
  have hpos : r.tier ≠ 0 := by simp [tier_eq_zero, hmanaged]
  rcases (hrw.rows r).mp hr with ⟨o, ho, hro⟩ | ⟨i, hi, rfl⟩
  · have ho := (mem_without.mp ho).1
    obtain ⟨rfl, -⟩ := (hrow hr ho (by rw [hro, rewrittenRow_id])).resolve_left hpos
    obtain ⟨o, ho', hid⟩ := h.record_sources r ho hne
    rcases hrow hsrc ho' (hby.symm.trans hid.symm) with hzero | ⟨rfl, -⟩
    · exact hzero ▸ Nat.pos_of_ne_zero hpos
    · exact hinv r ho src ho' hsource
  · rcases hgrows.inserts i hi with hasked | ⟨source, _, _, hnew⟩ | ⟨ptr, _, _, _, hptr, hnew, hcname⟩
    · exact absurd (tier_eq_zero.mpr (hinserts i hasked)) hpos
    · obtain ⟨data, n, -, hi'⟩ := hnew.ptr
      rw [hi'] at hby
      rw [hauthored (hgiven source hnew.given) hnew.spot.authored hsrc hby.symm]
      exact Nat.pos_of_ne_zero hpos
    · obtain ⟨parent, data, n, -, -, hi'⟩ := hcname.cname
      obtain ⟨data', n', -, hptr'⟩ := hnew.ptr
      have hkind : (insertedRow now ptr).managedKind = some .ptr := by rw [hptr']; rfl
      have hkind' : (insertedRow now i).managedKind = some .rfc2317CNAME := by rw [hi']; rfl
      rw [hi'] at hby
      rw [ht.record_ext hsrc (hcame hptr) hby.symm, tier, tier, if_pos hmanaged,
        if_pos hkind, hkind']
      split <;> decide

theorem perform_tiered (h : s.Sound) (hfresh : env.Fresh s) (hauthored : op.Authored)
    (hok : env.perform s op = .ok (t, res)) (hinv : s.Tiered) : t.Tiered := by
  have hout := perform_outcome hok
  have ht := hout.sound h
  have hless (hsub : ∀ r ∈ t.records, r ∈ s.records) : t.Tiered :=
    fun r hr src hsrc => hinv r (hsub r hr) src (hsub src hsrc)
  cases hout with
  | unchanged hsame => rwa [hsame]
  | aside htables => exact hless fun r hr => htables.2.1 ▸ hr
  | expanded horigin hexpand hzones hwrote =>
    have hfrom := horigin.fromStore h hauthored
    refine tiered_of_grows h ht hfresh (expandReverse_grows hexpand)
      (hwrote.rewrites (Outcome.not_delete hzones)) (fun u hu => ?_) (fun i hi => ?_)
      (fun x hx => ?_) hinv
    · have hu := mem_updates_singleton.mp hu
      exact ⟨(hfrom.updates u hu).1, (hfrom.updates u hu).2.2.1, updates_authored hfrom hu⟩
    · exact (hfrom.inserts i (mem_inserts_singleton.mp hi)).2
    · rcases hx with ⟨u, hu, rfl⟩ | hx | hx
      · exact .inr (.inr ⟨u, mem_updates_singleton.mpr (mem_filter.mp hu).1, rfl⟩)
      · exact .inr (.inl (mem_inserts_singleton.mpr hx))
      · exact .inl (hfrom.claims x hx).1
  | reconciled hz hreconcile hwrote =>
    exact tiered_of_grows h ht hfresh (reconcileInto_grows hreconcile) (hwrote.rewrites (by simp))
      (forall_mem_nil _) (forall_mem_nil _)
      (fun x hx => .inl (mem_listRecords.mp hx).1) hinv
  | updated _ _ _ hset _ hzones hwrite =>
    have hrw := Batch.write_rewrites (by simp [hzones]) hwrite
    rw [hset] at hrw
    exact @tiered_of_grows env s t (fun _ => False) .blank .blank env.now h ht hfresh .refl hrw
      (forall_mem_nil _) (forall_mem_nil _)
      (fun x hx => hx.elim) hinv
  | deleted hz hremovals hwrote => exact hless (records_of_deleted h hremovals hwrote)

end Env

/-- In every state that accepted operations lead to, whoever edits, detaches or rolls back what the
automation generated: a generated record is further from what somebody wrote than its source, so that
chains of provenance have at most two links and the links form a forest. -/
theorem provenance_is_forest {steps : List (Env × Operation)} {t : Store}
    (hcond : Along (fun s env op => env.Fresh s ∧ op.Authored) blank steps)
    (hrun : performAll blank steps = .ok t) :
    t.Tiered ∧ Links.Forest Record.id Record.source t.records := by
  have htiers : t.Sound ∧ t.Tiered := by
    refine performAll_invariant (fun s => s.Sound ∧ s.Tiered) ?_ hcond hrun
      ⟨Sound.empty, forall_mem_nil _⟩
    intro s env op t res hmeets hok hs
    exact ⟨(Env.perform_outcome hok).sound hs.1,
      Env.perform_tiered hs.1 hmeets.1 hmeets.2 hok hs.2⟩
  exact ⟨htiers.2, htiers.2.forest htiers.1⟩

/-- A run with a classless child zone, which leaves a chain of two links. -/
theorem provenance_is_forest_classless :
    ∃ t, performAll blank (steps reverseRun) = .ok t ∧
      (∃ r ∈ t.records, r.tier = 2) ∧ Links.Forest Record.id Record.source t.records := by
  obtain ⟨t, hrun, htier⟩ := ok_of_any
    (show (performAll blank (steps reverseRun)).toOption.any
      (fun t => decide (∃ r ∈ t.records, r.tier = 2)) = true by decide +kernel)
  have hcond := along_of_meets (fun _ _ _ => True)
    (show meets _ blank reverseRun = true by decide +kernel)
  exact ⟨t, hrun, of_decide_eq_true htier, (provenance_is_forest
    (hcond.imp fun hmeets => ⟨hmeets.1.fresh, hmeets.1.authored⟩) hrun).2⟩

end Wegweiser
