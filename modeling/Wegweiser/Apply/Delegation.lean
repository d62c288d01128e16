/-
Generated delegations and the PTRs they lead to.

A delegation leads to the PTR it was generated for in every state that accepted operations lead
to, as long as nobody rewrites the PTR under it.
-/
import Wegweiser.Apply.Provenance

namespace Wegweiser

open Checked List Sample Store

def Store.CNAMEsFollow (s : Store) : Prop :=
  ∀ c ∈ s.records, c.managedKind = some .rfc2317CNAME → ∃ src ∈ s.records,
    src.id = c.managedBy ∧ src.type = typePTR ∧ src.disabled = false ∧
      c.rdata.text = src.name.string

def Operation.rewrites (env : Env) (s : Store) : Operation → List RecordUpdate
  | .command cmd =>
    match s.zoneByID cmd.zoneID with
    | .ok z => (env.normalize cmd.zoneID cmd.ops 0).1.flatMap (RecordOp.rewrites s z)
    | .error _ => []
  | _ => []

/-- A row that a generated delegation hangs off keeps its name, its type and that it
is enabled, unless it is made an address: what hangs off it is retired then. -/
def Operation.SparesDelegated (s : Store) (env : Env) (op : Operation) : Prop :=
  ∀ c ∈ s.records, c.managedKind = some .rfc2317CNAME → ∀ p ∈ s.records, p.id = c.managedBy →
    (∃ u ∈ op.rewrites env s, u.before.id = p.id ∧ sameReverse u.before u.after = false) ∨
      (rewrittenRow env.now (op.rewrites env s) p).name = p.name ∧
        (rewrittenRow env.now (op.rewrites env s) p).type = p.type ∧
        (rewrittenRow env.now (op.rewrites env s) p).disabled = p.disabled

instance {s : Store} {env : Env} {op : Operation} : Decidable (op.SparesDelegated s env) :=
  inferInstanceAs (Decidable (∀ c ∈ s.records, c.managedKind = some .rfc2317CNAME →
    ∀ p ∈ s.records, p.id = c.managedBy → _ ∨ _))

namespace Store

variable {s t : Store} {env : Env} {G : Record → Prop} {cs : ChangeSet} {now : Nat}

theorem CNAMEsFollow.of_subset (h : s.Sound) (ht : t.Sound)
    (hsub : ∀ r ∈ t.records, r ∈ s.records) (hinv : s.CNAMEsFollow) : t.CNAMEsFollow := by
  intro c hc hkind
  obtain ⟨src, hsrc, hid, hrest⟩ := hinv c (hsub c hc) hkind
  have hmanaged : c.managedBy ≠ .empty := by
    rw [← hid]
    exact Record.id_ne_empty (h.records src hsrc)
  obtain ⟨o, ho, hoid⟩ := ht.record_sources c hc hmanaged
  obtain rfl := h.record_ext (hsub o ho) hsrc (hoid.trans hid.symm)
  exact ⟨o, ho, hid, hrest⟩

theorem CNAMEsFollow.rewrites (h : s.Sound) (hlib : env.lib.ReadsNames)
    (hset : Env.Settles env s G cs) (hrw : cs.Rewrites now s t)
    (hspared : ∀ c ∈ s.records, c.managedKind = some .rfc2317CNAME → ∀ p ∈ s.records,
      p.id = c.managedBy →
        (∃ u ∈ cs.updates, u.before.id = p.id ∧ sameReverse u.before u.after = false) ∨
          (rewrittenRow now cs.updates p).name = p.name ∧
            (rewrittenRow now cs.updates p).type = p.type ∧
            (rewrittenRow now cs.updates p).disabled = p.disabled)
    (hinv : s.CNAMEsFollow) : t.CNAMEsFollow := by
  intro c hc hkind
  rcases (hrw.rows c).mp hc with ⟨o, ho, hrow⟩ | ⟨i, hi, hrow⟩
  · have hne : (rewrittenRow now cs.updates o).managedKind ≠ none := by
      rw [← hrow, hkind]
      simp
    obtain ⟨hsame, hsources⟩ := hset.generated h hrw ho hne
    obtain rfl : c = o := hrow.trans hsame
    have hmem := (mem_without.mp ho).1
    obtain ⟨p, hp, hid, htype, henabled, hdata⟩ := hinv c hmem hkind
    obtain ⟨hprow, -⟩ := hsources p hp hid
    rcases hspared c hmem hkind p hp hid with ⟨u, hu, huid, hmoved⟩ | ⟨hname, htype', hdisabled⟩
    · -- the delegation would have gone with what the automation retires
      have hbefore := h.record_ext (hset.updates u hu).1 hp huid
      have hsource : c.source = some u.before.id := by
        have hmanaged : c.managedBy ≠ .empty := by
          rw [← hid]
          exact Record.id_ne_empty (h.records p hp)
        rw [Record.source, if_neg hmanaged, huid, hid]
      have hgone := hset.retired u hu hmoved (.inr (.inr (hbefore ▸ htype))) c hmem hsource
      exact absurd (.root (mem_map_of_mem hgone)) (mem_without.mp ho).2
    · exact ⟨_, hprow, rewrittenRow_id.trans hid, htype'.trans htype, hdisabled.trans henabled,
        by rw [hdata, hname]⟩
  · rw [hrow] at hkind
    rcases hset.inserts i hi with hnone | ⟨source, addr, rev, hnew⟩ |
      ⟨ptr, source, addr, rev, hptr, hnew, hcname⟩
    · rw [show (insertedRow now i).managedKind = i.managedKind from rfl, hnone] at hkind
      cases hkind
    · obtain ⟨data, n, -, hi'⟩ := hnew.ptr
      rw [hi'] at hkind
      cases hkind
    · obtain ⟨parent, data, n, -, hdata, hi'⟩ := hcname.cname
      obtain ⟨pdata, m, -, hptr'⟩ := hnew.ptr
      refine ⟨insertedRow now ptr, (hrw.rows _).mpr (.inr ⟨ptr, hptr, rfl⟩), ?_, hnew.type, ?_, ?_⟩
      · rw [hrow, hi']
        rfl
      · rw [hptr']
        rfl
      · have hrdata : c.rdata = data := by
          rw [hrow, hi']
          rfl
        rw [hrdata, hlib.parseRData_text (.inr rfl) hdata]
        rfl

end Store

namespace Env

variable {env : Env} {s t : Store} {op : Operation} {res : Result} {z : Zone} {ch : Changes}
  {policy : Option Policy}

theorem Origin.spares (h : s.Sound) (hspares : op.SparesDelegated s env)
    (horigin : Origin env s op z ch policy) :
    ∀ c ∈ s.records, c.managedKind = some .rfc2317CNAME → ∀ p ∈ s.records, p.id = c.managedBy →
      (∃ u ∈ ch.updates, u.before.id = p.id ∧ sameReverse u.before u.after = false) ∨
        (rewrittenRow env.now ch.updates p).name = p.name ∧
          (rewrittenRow env.now ch.updates p).type = p.type ∧
          (rewrittenRow env.now ch.updates p).disabled = p.disabled := by
  intro c hc hkind p hp hid
  cases horigin with
  | @command cmd _ _ ops hz hops hallowed hasks =>
    have hupdates : ch.updates = Operation.rewrites env s (.command cmd) := by
      rw [hasks.updates, hops, Operation.rewrites, hz]
      rfl
    rw [hupdates]
    exact hspares c hc hkind p hp hid
  | rollback hz hsince hsoa hasks hrestored =>
    refine .inr ?_
    rcases rewrittenRow_cases ch.updates p with ⟨hsame, -⟩ | ⟨u, hu, huid, created, hrow⟩
    · rw [hsame]
      exact ⟨rfl, rfl, rfl⟩
    · rw [hasks.updates] at hu
      obtain ⟨kv, -, hu⟩ := mem_flatMap.mp hu
      obtain ⟨-, hstanding, -, -, hafter⟩ := mem_undoUpdates.mp hu
      have hbefore : u.before = p := by
        refine h.record_ext (standing_eq_some hstanding).1 hp ?_
        rw [← huid, hafter]
      rw [hrow, hafter, hbefore]
      exact ⟨rfl, rfl, rfl⟩
  | create hasks =>
    refine .inr ?_
    have hnone : ch.updates = [] := hasks.updates
    rw [hnone]
    exact ⟨rfl, rfl, rfl⟩

theorem perform_cnamesFollow (h : s.Sound) (hauto : env.Automated s op)
    (hspares : op.SparesDelegated s env) (hok : env.perform s op = .ok (t, res))
    (hinv : s.CNAMEsFollow) : t.CNAMEsFollow := by
  have hout := perform_outcome hok
  have ht := hout.sound h
  cases hout with
  | unchanged hsame => rwa [hsame]
  | aside htables => exact hinv.of_subset h ht fun r hr => htables.2.1 ▸ hr
  | expanded horigin hexpand hzones hwrote =>
    have hfrom := horigin.fromStore h hauto.authored
    have hrw := hwrote.rewrites (Outcome.not_delete hzones)
    have hexp := expandReverse_singleton (hauto.origin_on h horigin) hexpand
    have hset := Settles.of_expanded h hfrom hexp hrw.inserts
    refine hinv.rewrites h hauto.names hset hrw ?_
    have hupdates := hexp.grows.updates
    simp only [ChangeSet.updates, flatMap_singleton] at hupdates
    rw [ChangeSet.updates, hupdates]
    exact horigin.spares h hspares
  | reconciled hz hreconcile hwrote =>
    have hgrows := reconcileInto_grows hreconcile
    refine hinv.rewrites h hauto.names (Settles.of_grows hgrows) (hwrote.rewrites (by simp)) ?_
    rw [hgrows.updates]
    exact fun c _ _ p _ _ => .inr ⟨rfl, rfl, rfl⟩
  | updated _ _ _ hset _ hzones hwrite =>
    have hrw := Batch.write_rewrites (by simp [hzones]) hwrite
    rw [hset] at hrw
    refine hinv.rewrites h hauto.names (Settles.of_grows (Work.Grows.refl (G := fun _ => False)))
      hrw ?_
    exact fun c _ _ p _ _ => .inr ⟨rfl, rfl, rfl⟩
  | deleted hz hremovals hwrote =>
    exact hinv.of_subset h ht (records_of_deleted h hremovals hwrote)

end Env

namespace Sample

def detachedRun (edited : Record) : List (Nat × Operation) :=
  reverseRun ++ [(5000, edit 3 [.detach (.ulid 4000)]),
    (6000, edit 3 [.update (.ulid 4000) edited])]

def retargeted : Record :=
  record 4000 3 ["10", "0/25", "2", "0", "192", "in-addr", "arpa"] typePTR "b.ex."

def renamed : Record :=
  record 4000 3 ["11", "0/25", "2", "0", "192", "in-addr", "arpa"] typePTR "a.ex."

end Sample

/-- In every state that accepted operations lead to with the automation on in every
zone, a generated delegation has a source that is there, is an enabled PTR, and is
where the delegation leads, as long as no operation renames, disables or retypes a
PTR that a delegation hangs off. -/
theorem generated_cnames_follow_ptrs {steps : List (Env × Operation)} {t : Store}
    (hcond : Along (fun s env op => env.Automated s op ∧ op.SparesDelegated s env) blank
      steps)
    (hrun : performAll blank steps = .ok t) :
    ∀ c ∈ t.records, c.managedKind = some .rfc2317CNAME → ∃ src ∈ t.records,
      src.id = c.managedBy ∧ src.type = typePTR ∧ src.disabled = false ∧
        c.rdata.text = src.name.string := by
  have hinv : t.Sound ∧ t.CNAMEsFollow := by
    refine performAll_invariant (fun s => s.Sound ∧ s.CNAMEsFollow) ?_ hcond hrun ?_
    · intro s env op t res hmeets hok hs
      exact ⟨(Env.perform_outcome hok).sound hs.1,
        Env.perform_cnamesFollow hs.1 hmeets.1 hmeets.2 hok hs.2⟩
    · exact ⟨Sound.empty, fun c hc => absurd hc not_mem_nil⟩
  exact hinv.2

/-- A detached PTR may be given another name to tell. -/
theorem generated_cnames_follow_ptrs_retargeted :
    ∃ t, performAll blank (steps (detachedRun retargeted)) = .ok t ∧
      (∃ c ∈ t.records, c.managedKind = some .rfc2317CNAME) ∧
      ∀ c ∈ t.records, c.managedKind = some .rfc2317CNAME → ∃ src ∈ t.records,
        src.id = c.managedBy ∧ src.type = typePTR ∧ src.disabled = false ∧
          c.rdata.text = src.name.string := by
  obtain ⟨t, hrun, hcname⟩ := ok_of_any
    (show (performAll blank (steps (detachedRun retargeted))).toOption.any
      (fun t => decide (∃ c ∈ t.records, c.managedKind = some .rfc2317CNAME)) = true by
        decide +kernel)
  have hcond := along_of_meets (fun s env op => op.SparesDelegated s env)
    (show meets _ blank (detachedRun retargeted) = true by
      decide +kernel)
  exact ⟨t, hrun, of_decide_eq_true hcname, generated_cnames_follow_ptrs hcond hrun⟩

/-- A detached PTR that is renamed leaves its delegation leading nowhere. -/
theorem generated_cname_outlives_renamed_ptr :
    Along (fun s env op => env.Automated s op ∧ op.Apart s) blank
        (steps (detachedRun renamed)) ∧
      ∃ t, performAll blank (steps (detachedRun renamed)) = .ok t ∧
      ∃ c ∈ t.records, c.managedKind = some .rfc2317CNAME ∧ ¬∃ src ∈ t.records,
        src.id = c.managedBy ∧ src.type = typePTR ∧ src.disabled = false ∧
          c.rdata.text = src.name.string := by
  obtain ⟨t, hrun, hcname⟩ := ok_of_any
    (show (performAll blank (steps (detachedRun renamed))).toOption.any
      (fun t => decide (∃ c ∈ t.records, c.managedKind = some .rfc2317CNAME ∧ ¬∃ src ∈ t.records,
        src.id = c.managedBy ∧ src.type = typePTR ∧ src.disabled = false ∧
          c.rdata.text = src.name.string)) = true by
        decide +kernel)
  have hcond := along_of_meets (fun s _ op => op.Apart s)
    (show meets _ blank (detachedRun renamed) = true by decide +kernel)
  exact ⟨hcond, t, hrun, of_decide_eq_true hcname⟩

end Wegweiser
