/-
A member's store is always what a prefix of the log makes of the store it began with.

The recorded position says which prefix.
-/
import Wegweiser.Apply.Calls
import Wegweiser.Cluster.Replica

namespace Wegweiser.Cluster

open Checked List Option Store

section Commands

variable {log : List Entry} {at_ k : Nat} {c : Nat × Batch}

theorem lt_of_mem_commandsFrom (hc : c ∈ commandsFrom at_ log) : at_ < c.1 := by
  induction log generalizing at_ with
  | nil => cases hc
  | cons e rest ih =>
    rcases mem_append.mp hc with hc | hc
    · obtain ⟨b, -, rfl⟩ := mem_map.mp hc
      exact Nat.lt_succ_self at_
    · exact Nat.lt_of_succ_lt (ih hc)

theorem filter_commandsFrom_succ (log : List Entry) (at_ k : Nat) :
    (commandsFrom at_ log).filter (fun c => c.1 ≤ at_ + k + 1) =
      (commandsFrom at_ log).filter (fun c => c.1 ≤ at_ + k) ++
        (log[k]?.bind Entry.batch).toList.map (at_ + k + 1, ·) := by
  induction log generalizing at_ k with
  | nil => rfl
  | cons e rest ih =>
    rw [commandsFrom, filter_append, filter_append]
    have htail (n : Nat) (hn : n ≤ at_ + 1) :
        (commandsFrom (at_ + 1) rest).filter (fun c => c.1 ≤ n) = [] := by
      refine filter_eq_nil_iff.mpr fun c hc => ?_
      have hlt := lt_of_mem_commandsFrom hc
      simp only [decide_eq_true_eq]
      omega
    have hhead (n : Nat) (hn : at_ + 1 ≤ n) :
        (e.batch.toList.map (at_ + 1, ·)).filter (fun c => c.1 ≤ n) =
          e.batch.toList.map (at_ + 1, ·) := by
      refine filter_eq_self.mpr fun c hc => ?_
      obtain ⟨b, -, rfl⟩ := mem_map.mp hc
      simpa using hn
    cases k with
    | zero =>
      have hnone : (e.batch.toList.map (at_ + 1, ·)).filter (fun c => c.1 ≤ at_) = [] := by
        refine filter_eq_nil_iff.mpr fun c hc => ?_
        obtain ⟨b, -, rfl⟩ := mem_map.mp hc
        simp
      simp only [Nat.add_zero]
      rw [htail _ le_rfl, htail _ (Nat.le_succ at_), hhead _ le_rfl, hnone]
      simp
    | succ k =>
      have hshift : at_ + (k + 1) = at_ + 1 + k := by omega
      rw [hshift, hhead _ (by omega), hhead _ (by omega), ih (at_ + 1) k, append_assoc,
        getElem?_cons_succ]

theorem commandsUpTo_zero (log : List Entry) : commandsUpTo log 0 = [] := by
  refine filter_eq_nil_iff.mpr fun c hc => ?_
  have hlt := lt_of_mem_commandsFrom hc
  simp only [decide_eq_true_eq]
  omega

theorem commandsUpTo_succ (log : List Entry) (k : Nat) :
    commandsUpTo log (k + 1) =
      commandsUpTo log k ++ (log[k]?.bind Entry.batch).toList.map (k + 1, ·) := by
  have hsucc := filter_commandsFrom_succ log 0 k
  rwa [Nat.zero_add] at hsucc

/-- Every command up to `k` is at or below `index`. -/
def Covered (log : List Entry) (k index : Nat) : Prop :=
  ∀ c ∈ commandsFrom 0 log, c.1 ≤ k → c.1 ≤ index

variable {j index : Nat}

theorem Covered.mono {i : Nat} (h : Covered log k i) (hj : j ≤ k) (hi : i ≤ index) :
    Covered log j index :=
  fun c hc hle => (h c hc (hle.trans hj)).trans hi

theorem Covered.refl : Covered log k k := fun _ _ hle => hle

theorem Covered.zero : Covered log 0 index := by
  intro c hc hle
  have hlt := lt_of_mem_commandsFrom hc
  omega

theorem Covered.succ (h : Covered log k index)
    (hentry : log[k]?.bind Entry.batch = none) : Covered log (k + 1) index := by
  intro c hc hle
  have hmem : c ∈ commandsUpTo log (k + 1) := mem_filter.mpr ⟨hc, by simpa using hle⟩
  rw [commandsUpTo_succ, hentry, toList_none, map_nil, append_nil] at hmem
  exact h c hc (by simpa using (mem_filter.mp hmem).2)

theorem commandsUpTo_eq (hjk : Covered log j k) (hkj : Covered log k j) :
    commandsUpTo log j = commandsUpTo log k := by
  refine filter_congr fun c hc => ?_
  exact decide_eq_decide.mpr ⟨hjk c hc, hkj c hc⟩

end Commands

section Holds

variable {log : List Entry} {s₀ s t : Store}

/-- The store holds what the commands up to its position make of the first one, the times
the rows carry aside. -/
def Holds (log : List Entry) (s₀ s : Store) : Prop :=
  ∀ clock, ∃ t, outcome clock log s.appliedIndex s₀ = .ok t ∧ Alike t s

theorem Holds.start (hzero : s₀.appliedIndex = 0) : Holds log s₀ s₀ := by
  intro clock
  refine ⟨s₀, ?_, .refl s₀⟩
  rw [hzero, outcome, commandsUpTo_zero]
  rfl

theorem Holds.of_alike (h : Holds log s₀ s) (halike : Alike s t)
    (hindex : t.appliedIndex = s.appliedIndex) : Holds log s₀ t := by
  intro clock
  obtain ⟨u, hu, hus⟩ := h clock
  exact ⟨u, by rw [hindex, hu], hus.trans halike⟩

variable {k now : Nat} {b : Batch} {fails : Bool} {snap : LogSnapshot}

theorem Holds.moved (h : Holds log s₀ s) (hle : s.appliedIndex ≤ k)
    (hcovered : Covered log k s.appliedIndex) : Holds log s₀ { s with appliedIndex := k } := by
  intro clock
  obtain ⟨u, hu, hus⟩ := h clock
  refine ⟨u, ?_, ⟨hus.zones, hus.records, hus.commits, hus.settings, hus.keys, hus.tokens⟩⟩
  rw [outcome, commandsUpTo_eq hcovered (Covered.refl.mono hle le_rfl)]
  exact hu

theorem Holds.command (h : Holds log s₀ s) (hle : s.appliedIndex ≤ k)
    (hcovered : Covered log k s.appliedIndex) (hentry : log[k]?.bind Entry.batch = some b)
    (hwrite : b.writeOnce now s = .ok t) : Holds log s₀ { t with appliedIndex := k + 1 } := by
  intro clock
  obtain ⟨u, hu, hus⟩ := h clock
  obtain ⟨u', hu', halike⟩ := Batch.writeOnce_alike hus.symm (clock (k + 1)) hwrite
  refine ⟨u', ?_, ?_⟩
  · rw [outcome, commandsUpTo_succ, hentry,
      commandsUpTo_eq hcovered (Covered.refl.mono hle le_rfl)]
    refine foldlM_append_eq_ok.mpr ⟨u, hu, ?_⟩
    exact foldlM_cons_eq_ok.mpr ⟨u', hu', rfl⟩
  · have := halike.symm
    exact ⟨this.zones, this.records, this.commits, this.settings, this.keys, this.tokens⟩

theorem applyAt_below {index : Nat} (hpos : 0 < index)
    (hle : index ≤ s.appliedIndex) : b.applyAt now index s = .ok s := by
  have hne : index ≠ 0 := by omega
  simp [Batch.applyAt, hne, hle]

theorem carryOut_holds {stalled : Bool} {e : Entry} (h : Holds log s₀ s)
    (hcovered : Covered log k s.appliedIndex) (hentry : log[k]? = some e)
    (hok : carryOut now (k + 1) fails s e = (t, stalled)) :
    Holds log s₀ t ∧ s.appliedIndex ≤ t.appliedIndex ∧
      (stalled = false → Covered log (k + 1) t.appliedIndex) := by
  have hbatch : log[k]?.bind Entry.batch = e.batch := by rw [hentry, bind_some]
  by_cases hle : k + 1 ≤ s.appliedIndex
  · -- Nothing happens: the position is past this entry.
    have hsame (b : Batch) : b.applyAt now (k + 1) s = .ok s := applyAt_below (by omega) hle
    have ht : t = s := by
      cases e with
      | command b | configuration =>
        simp only [carryOut, hsame] at hok
        cases fails <;> cases hok <;> rfl
      | internal =>
        cases hok
        rfl
    rw [ht]
    exact ⟨h, le_rfl, fun _ => Covered.refl.mono hle le_rfl⟩
  · have hlt : s.appliedIndex < k + 1 := by omega
    cases e with
    | command b =>
      rw [carryOut] at hok
      split at hok
      · next u happly =>
        obtain ⟨-, mid, hmid, rfl⟩ := (Batch.applyAt_eq_ok hlt).mp happly
        cases fails with
        | true =>
          cases hok
          exact ⟨h, le_rfl, by simp⟩
        | false =>
          cases hok
          exact ⟨h.command (by omega) hcovered hbatch hmid, hlt.le, fun _ => .refl⟩
      · cases hok
        exact ⟨h, le_rfl, by simp⟩
    | configuration =>
      have hnext := hcovered.succ hbatch
      rw [carryOut] at hok
      split at hok
      · next u happly =>
        obtain ⟨-, mid, hmid, rfl⟩ := (Batch.applyAt_eq_ok hlt).mp happly
        cases hmid
        cases fails with
        | true =>
          cases hok
          exact ⟨h, le_rfl, fun _ => hnext⟩
        | false =>
          cases hok
          exact ⟨h.moved hlt.le hnext, hlt.le, fun _ => .refl⟩
      · cases hok
        exact ⟨h, le_rfl, fun _ => hnext⟩
    | internal =>
      cases hok
      exact ⟨h, le_rfl, fun _ => hcovered.succ hbatch⟩

theorem writeOnce_keysSettings (h : s.KeysSettings)
    (hok : b.writeOnce now s = .ok t) : t.KeysSettings := by
  rw [Batch.writeOnce] at hok
  split at hok
  · cases hok
    exact h
  · obtain ⟨done, -, hrest⟩ := bind_eq_ok.mp hok
    split at hrest
    · cases hrest
      exact h
    · obtain ⟨s₁, s₂, s₃, s₄, s₅, s₆, h₁, h₂, h₃, h₄, h₅, h₆, h₇⟩ := Batch.write_eq_ok.mp hrest
      have e₂ : s₂.settings = s₁.settings := (congrArg settings (writeKeys_frame h₂) :)
      have e₃ : s₃.settings = s₂.settings := (congrArg settings (writeTokens_frame h₃) :)
      have e₄ : s₄.settings = s₃.settings := (congrArg settings (openZones_frame h₄) :)
      have e₅ : s₅.settings = s₄.settings := (congrArg settings (changeSet_write_frame h₅) :)
      have e₆ : s₆.settings = s₅.settings := (congrArg settings (Batch.writeCommits_frame h₆) :)
      have e₇ : t.settings = s₆.settings := (congrArg settings (Batch.closeZones_frame h₇) :)
      rw [KeysSettings, e₇, e₆, e₅, e₄, e₃, e₂]
      refine foldlM_invariant KeysSettings (fun c _ x y hx hxy => ?_) h₁ h
      obtain ⟨-, -, rfl⟩ := putSetting_eq_ok.mp hxy
      refine nodup_cons.mpr ⟨?_, hx.sublist (filter_sublist.map _)⟩
      intro hmem
      obtain ⟨kv, hkv, hkey⟩ := mem_map.mp hmem
      simpa [hkey] using (mem_filter.mp hkv).2

theorem Holds.keysSettings (hkeys : s₀.KeysSettings) (h : Holds log s₀ s) : s.KeysSettings := by
  obtain ⟨t, ht, halike⟩ := h fun _ => 0
  rw [KeysSettings, ← halike.settings]
  exact foldlM_invariant KeysSettings (fun c _ x y hx hxy => writeOnce_keysSettings hx hxy)
    ht hkeys

/-- A log snapshot that holds what the log says up to its own position, which covers the
index it is filed under. One a witness wrote holds nothing. -/
def LogSnapshot.Right (log : List Entry) (s₀ : Store) (snap : LogSnapshot) : Prop :=
  snap.writer = .store → Covered log snap.filed snap.index ∧
    ∃ u, Holds log s₀ u ∧ u.appliedIndex = snap.index ∧ u.exportReplicated = snap.items

theorem persist_right (h : Holds log s₀ s) (hcovered : Covered log k s.appliedIndex) :
    (persist s k).Right log s₀ :=
  fun _ => ⟨hcovered, s, h, rfl, rfl⟩

theorem restoreSnapshot_holds (hkeys : s₀.KeysSettings) (hright : snap.Right log s₀)
    (hok : restoreSnapshot now fails snap s = some t) :
    Holds log s₀ t ∧ Covered log snap.filed t.appliedIndex := by
  rw [restoreSnapshot] at hok
  split at hok
  · cases hok
  · next hwriter =>
    obtain ⟨hcovered, u, hu, hindex, hitems⟩ := hright hwriter
    split at hok
    · cases hok
    · rw [← hitems] at hok
      have hreplace : s.replaceReplicated now snap.index u.exportReplicated = .ok t := by
        cases hout : s.replaceReplicated now snap.index u.exportReplicated with
        | error e =>
          rw [hout] at hok
          cases hok
        | ok v =>
          rw [hout] at hok
          cases hok
          rfl
      obtain ⟨halike, ht⟩ := replaceReplicated_alike (hu.keysSettings hkeys) hreplace
      exact ⟨hu.of_alike halike (ht.trans hindex.symm), by rw [ht]; exact hcovered⟩

theorem mem_of_newest {l : List LogSnapshot} (h : newest l = some snap) : snap ∈ l := by
  induction l with
  | nil => cases h
  | cons head tail ih =>
    rw [newest] at h
    split at h
    · cases h
      exact mem_cons_self
    · next other hother =>
      split at h
      · cases h
        exact mem_cons_of_mem head (ih hother)
      · cases h
        exact mem_cons_self

end Holds

namespace Replica

variable {log : List Entry} {s₀ : Store} {r r' : Replica} {p : Process} {o : Occurrence}

/-- A member in step with the log: its store and its snapshots hold what the log says, and
nothing that was handed over to it, or that a snapshot of its is filed above, is missing. -/
structure InStep (log : List Entry) (s₀ : Store) (r : Replica) : Prop where
  store : Holds log s₀ r.store
  snapshots : ∀ snap ∈ r.snapshots, snap.Right log s₀
  handed : ∀ p ∈ r.process, p.stalled = false → Covered log p.handed r.store.appliedIndex
  taking : ∀ p ∈ r.process, ∀ k ∈ p.taking, k ≤ p.handed ∧ Covered log k r.store.appliedIndex
  received : ∀ p ∈ r.process, ∀ snap ∈ p.received, snap.Right log s₀ ∧ p.handed ≤ snap.filed

theorem InStep.initial (hzero : s₀.appliedIndex = 0) : InStep log s₀ (initial s₀) := by
  refine ⟨.start hzero, ?_, ?_, ?_, ?_⟩
  · intro snap hsnap
    cases hsnap
  all_goals
    intro p hp
    cases hp

/-- A member with a process is in step where that process is. -/
theorem InStep.with_process (hprocess : r.process = some p) (hstore : Holds log s₀ r.store)
    (hsnapshots : ∀ snap ∈ r.snapshots, snap.Right log s₀)
    (hhanded : p.stalled = false → Covered log p.handed r.store.appliedIndex)
    (htaking : ∀ k ∈ p.taking, k ≤ p.handed ∧ Covered log k r.store.appliedIndex)
    (hreceived : ∀ snap ∈ p.received, snap.Right log s₀ ∧ p.handed ≤ snap.filed) :
    InStep log s₀ r := by
  have hsame : ∀ p' ∈ r.process, p' = p := by
    intro p' hp'
    exact some.inj (hp'.symm.trans hprocess)
  refine ⟨hstore, hsnapshots, ?_, ?_, ?_⟩ <;>
    · intro p' hp'
      rw [hsame p' hp']
      assumption

theorem InStep.from {store : Store} {k : Nat} (hstore : Holds log s₀ store)
    (hsnapshots : ∀ snap ∈ r.snapshots, snap.Right log s₀)
    (hcovered : Covered log k store.appliedIndex) :
    InStep log s₀ { r with store, process := some (.from k) } :=
  .with_process rfl hstore hsnapshots (fun _ => hcovered) nofun nofun

variable {now : Nat} {fails : Bool}

theorem InStep.handOver {at_ handed : Nat} {e : Entry} (h : InStep log s₀ r)
    (hp : r.process = some p) (hreceived : p.received = none) (hentry : log[at_]? = some e)
    (hat : at_ ≤ p.handed) (hle : p.handed ≤ handed)
    (hhanded : handed = p.handed ∨ handed = at_ + 1) :
    InStep log s₀ (r.handOver { p with handed } now (at_ + 1) fails e) := by
  have htaking := h.taking p hp
  have hnothing (n : Nat) : ∀ snap ∈ p.received, snap.Right log s₀ ∧ n ≤ snap.filed := by
    rw [hreceived]
    nofun
  rw [Replica.handOver]
  split
  · next hstalled =>
    refine .with_process rfl h.store h.snapshots ?_ ?_ (hnothing _)
    · intro hnot
      rw [hstalled] at hnot
      cases hnot
    · intro k hk
      exact ⟨(htaking k hk).1.trans hle, (htaking k hk).2⟩
  · next hrunning =>
    have hcovered := h.handed p hp (by simpa using hrunning)
    obtain ⟨hstore, hmono, hnext⟩ := carryOut_holds h.store (hcovered.mono hat le_rfl) hentry
      (rfl : carryOut now (at_ + 1) fails r.store e = _)
    refine .with_process rfl hstore h.snapshots ?_ ?_ (hnothing _)
    · intro hnot
      rcases hhanded with rfl | rfl
      · exact hcovered.mono le_rfl hmono
      · exact hnext hnot
    · intro k hk
      exact ⟨(htaking k hk).1.trans hle, (htaking k hk).2.mono le_rfl hmono⟩

theorem InStep.restore (hkeys : s₀.KeysSettings) {snap : LogSnapshot}
    (h : InStep log s₀ r) (hp : r.process = some p) (hsnap : p.received = some snap)
    (hstep : r.running log p (.restore now fails) = some r') : InStep log s₀ r' := by
  obtain ⟨hright, hfiled⟩ := h.received p hp snap hsnap
  have htaking := h.taking p hp
  rw [running, hsnap, map_some, some.injEq] at hstep
  subst hstep
  split
  · next hstalled =>
    refine .with_process rfl h.store h.snapshots ?_ htaking nofun
    intro hnot
    rw [hstalled] at hnot
    cases hnot
  · split
    · next store hstore =>
      obtain ⟨hholds, hcovered⟩ := restoreSnapshot_holds hkeys hright hstore
      refine .with_process rfl hholds h.snapshots (fun _ => hcovered) ?_ nofun
      intro k hk
      have hk' := (htaking k hk).1.trans hfiled
      exact ⟨hk', hcovered.mono hk' le_rfl⟩
    · exact .with_process rfl h.store h.snapshots nofun htaking nofun

/-- What the proofs ask of an occurrence: a log snapshot that is sent holds what the log
says, and none is asked for once the member has stopped. -/
structure Careful (log : List Entry) (s₀ : Store) (r : Replica) (o : Occurrence) : Prop where
  sent : ∀ snap, o = .receive snap → snap.Right log s₀
  asked : o = .snapshot → ∀ p ∈ r.process, p.stalled = false

theorem InStep.persist {k : Nat} (h : InStep log s₀ r) (hp : r.process = some p)
    (htaking : p.taking = some k)
    (hstep : r.running log p .persist = some r') : InStep log s₀ r' := by
  rw [Replica.running, htaking] at hstep
  cases hstep
  refine .with_process rfl h.store ?_ (h.handed p hp) nofun (h.received p hp)
  intro snap hsnap
  rcases mem_cons.mp hsnap with rfl | hsnap
  · exact persist_right h.store (h.taking p hp k htaking).2
  · exact h.snapshots snap hsnap

theorem InStep.receive {snap : LogSnapshot} (h : InStep log s₀ r) (hp : r.process = some p)
    (hright : snap.Right log s₀) (hstep : r.running log p (.receive snap) = some r') :
    InStep log s₀ r' := by
  rw [Replica.running] at hstep
  split at hstep
  · cases hstep
  · next hfits =>
    cases hstep
    simp only [Bool.or_eq_true, decide_eq_true_eq, not_or, not_lt] at hfits
    refine .with_process rfl h.store ?_ (h.handed p hp) (h.taking p hp) ?_
    · intro snap' hsnap'
      rcases mem_cons.mp hsnap' with rfl | hsnap'
      · exact hright
      · exact h.snapshots snap' hsnap'
    · intro snap' hsnap'
      cases hsnap'
      exact ⟨hright, hfits.2⟩

theorem InStep.running (hkeys : s₀.KeysSettings) (h : InStep log s₀ r) (hp : r.process = some p)
    (hcareful : Careful log s₀ r o) (hstep : r.running log p o = some r') : InStep log s₀ r' := by
  cases o with
  | deliver now fails =>
    rw [Replica.running] at hstep
    split at hstep
    · next e hreceived hentry =>
      cases hstep
      exact h.handOver hp hreceived hentry le_rfl (Nat.le_succ _) (.inr rfl)
    · cases hstep
  | redeliver at_ now fails =>
    rw [Replica.running] at hstep
    split at hstep
    · next e hreceived hentry =>
      split at hstep
      · next hlt =>
        cases hstep
        exact h.handOver hp hreceived hentry hlt.le le_rfl (.inl rfl)
      · cases hstep
    · cases hstep
  | snapshot =>
    rw [Replica.running] at hstep
    split at hstep
    · cases hstep
    · cases hstep
      have hcovered := h.handed p hp (hcareful.asked rfl p hp)
      refine .with_process rfl h.store h.snapshots (fun _ => hcovered) ?_ (h.received p hp)
      intro k hk
      cases hk
      exact ⟨le_rfl, hcovered⟩
  | persist =>
    cases htaking : p.taking with
    | none =>
      rw [Replica.running, htaking] at hstep
      cases hstep
    | some k => exact h.persist hp htaking hstep
  | receive snap => exact h.receive hp (hcareful.sent snap rfl) hstep
  | restore now fails =>
    cases hsnap : p.received with
    | none =>
      rw [Replica.running, hsnap] at hstep
      cases hstep
    | some snap => exact h.restore hkeys hp hsnap hstep
  | stop =>
    cases hstep
    refine ⟨h.store, h.snapshots, ?_, ?_, ?_⟩
    all_goals
      intro p' hp'
      cases hp'
  | start now fails => cases hstep

theorem InStep.step (hkeys : s₀.KeysSettings) (h : InStep log s₀ r)
    (hcareful : Careful log s₀ r o) (hstep : r.step log o = some r') : InStep log s₀ r' := by
  rw [Replica.step.eq_def] at hstep
  split at hstep
  · next p hp => exact h.running hkeys hp hcareful hstep
  · split at hstep
    · split at hstep
      · cases hstep
        exact .from h.store h.snapshots .zero
      · next now fails snap hnewest =>
        cases hstep
        have hright := h.snapshots snap (mem_of_newest hnewest)
        rw [startFrom]
        split
        · next hle => exact .from h.store h.snapshots (Covered.refl.mono hle le_rfl)
        · split
          · next store hstore =>
            obtain ⟨hholds, hcovered⟩ := restoreSnapshot_holds hkeys hright hstore
            exact .from hholds h.snapshots hcovered
          · exact h
    · cases hstep

def stalled (r : Replica) : Bool :=
  r.process.any Process.stalled

/-- The states members get to whose lives all meet a condition on what happens to them when.
Each begins with the store the log begins with. A log snapshot that is sent is one that such a
member has, or one a witness wrote. -/
inductive Lives (C : Replica → Occurrence → Prop) (log : List Entry) (s₀ : Store) : Replica → Prop
  | initial : Lives C log s₀ (initial s₀)
  | step {r r' : Replica} {o : Occurrence} (h : Lives C log s₀ r) (hcond : C r o)
      (hnot : ∀ snap, o ≠ .receive snap) (hstep : r.step log o = some r') : Lives C log s₀ r'
  | sent {r r' q : Replica} {snap : LogSnapshot} (h : Lives C log s₀ r)
      (hcond : C r (.receive snap)) (hsender : Lives C log s₀ q) (hsnap : snap ∈ q.snapshots)
      (hstep : r.step log (.receive snap) = some r') : Lives C log s₀ r'
  | witness {r r' : Replica} {snap : LogSnapshot} (h : Lives C log s₀ r)
      (hcond : C r (.receive snap)) (hwriter : snap.writer = .witness)
      (hstep : r.step log (.receive snap) = some r') : Lives C log s₀ r'

theorem Lives.inStep {C : Replica → Occurrence → Prop} (hkeys : s₀.KeysSettings)
    (hzero : s₀.appliedIndex = 0) (hC : ∀ r, C r .snapshot → r.stalled = false)
    (h : Lives C log s₀ r) : InStep log s₀ r := by
  induction h with
  | initial => exact .initial hzero
  | @step r r' o h hcond hnot hstep ih =>
    refine ih.step hkeys ⟨fun snap hsnap => absurd hsnap (hnot snap), ?_⟩ hstep
    intro hsnapshot p hp
    have hrunning := hC r (hsnapshot ▸ hcond)
    rw [stalled, mem_def.mp hp] at hrunning
    exact hrunning
  | @sent r r' q snap h hcond hsender hsnap hstep ih ihq =>
    refine ih.step hkeys ⟨fun snap' hsame => ?_, fun hsnapshot => by cases hsnapshot⟩ hstep
    cases hsame
    exact ihq.snapshots snap hsnap
  | @witness r r' snap h hcond hwriter hstep ih =>
    refine ih.step hkeys ⟨fun snap' hsame => ?_, fun hsnapshot => by cases hsnapshot⟩ hstep
    cases hsame
    intro hstore
    rw [hwriter] at hstore
    cases hstore

end Replica

open Replica

def Occurrence.sends (known : List LogSnapshot) : Occurrence → Bool
  | .receive snap => known.contains snap
  | _ => true

namespace Replica

section Decided

variable {C : Replica → Occurrence → Prop} [∀ r o, Decidable (C r o)] {log : List Entry}
  {s₀ : Store} {r r' : Replica}

/-- Whether a life meets a condition, and the snapshots sent in it are known ones. -/
def keeps (C : Replica → Occurrence → Prop) [∀ r o, Decidable (C r o)] (log : List Entry)
    (known : List LogSnapshot) : Replica → List Occurrence → Bool
  | _, [] => true
  | r, o :: rest =>
    decide (C r o) && o.sends known && (r.step log o).all fun r => keeps C log known r rest

theorem Lives.of_keeps (known : List LogSnapshot)
    (hknown : ∀ snap ∈ known, ∃ q, Lives C log s₀ q ∧ snap ∈ q.snapshots)
    {life : List Occurrence} (h : Lives C log s₀ r) (hkeeps : keeps C log known r life = true)
    (hrun : run log r life = some r') : Lives C log s₀ r' := by
  induction life generalizing r with
  | nil =>
    cases hrun
    exact h
  | cons o rest ih =>
    rw [run, bind_eq_some_iff] at hrun
    obtain ⟨mid, hstep, hrest⟩ := hrun
    rw [keeps, hstep, Bool.and_eq_true, Bool.and_eq_true, decide_eq_true_eq] at hkeeps
    obtain ⟨⟨hcond, hsends⟩, hkeeps⟩ := hkeeps
    refine ih ?_ hkeeps hrest
    by_cases hreceive : ∃ snap, o = .receive snap
    · obtain ⟨snap, rfl⟩ := hreceive
      obtain ⟨q, hq, hsnap⟩ := hknown snap (by simpa [Occurrence.sends] using hsends)
      exact .sent h hcond hq hsnap hstep
    · exact .step h hcond (fun snap hsnap => hreceive ⟨snap, hsnap⟩) hstep

end Decided

end Replica

namespace Sample

open Wegweiser.Sample

def planned (base : Nat) (s : Store) (op : Operation) : Batch :=
  match (envAt base).planOp s op with
  | .ok (b, _) => b
  | .error _ => Batch.blank

def first : Store :=
  (envAt 1000).after Store.blank (newZone 1 ["ex"])

def addAddress (id : Nat) (label data : String) : Operation :=
  edit 1 [.add (record id 1 [label, "ex"] typeA data)]

def entries : List Entry :=
  let second := (envAt 2000).after first (addAddress 21 "a" "192.0.2.1")
  let third := (envAt 3000).after second (addAddress 22 "b" "192.0.2.2")
  [.command (planned 2000 first (addAddress 21 "a" "192.0.2.1")),
    .command (planned 3000 second (addAddress 22 "b" "192.0.2.2")),
    .command (planned 4000 third (addAddress 23 "c" "192.0.2.3"))]

def writesAhead : List Occurrence :=
  [.start 1 false, .deliver 1 false, .snapshot, .deliver 1 false, .persist, .redeliver 0 1 false]

def sent : List LogSnapshot :=
  ((run entries (.initial first) writesAhead).map snapshots).getD []

def joins : List Occurrence :=
  [.start 1 false] ++ sent.map .receive ++
    [.stop, .start 1 false, .deliver 1 false, .deliver 1 false]

def retries : List Occurrence :=
  [.start 1 false, .deliver 1 false, .deliver 1 true, .deliver 1 false, .stop, .start 1 false,
    .deliver 1 false, .deliver 1 false, .deliver 1 false]

def stopsAndStarts : List Occurrence :=
  [.start 1 false, .deliver 1 false, .deliver 1 true, .snapshot, .persist, .stop, .start 1 false,
    .deliver 1 false]

end Sample

open Cluster.Sample

open Replica in
/-- Where no member ever stops: whatever is delivered, delivered again, written out, sent and
restored, and whenever a member crashes and starts again, its store holds what the commands up
to its recorded position make of the first store, each carried out once and in order. -/
theorem store_follows_log {log : List Entry} {s₀ : Store} {r : Replica}
    (hkeys : s₀.KeysSettings) (hzero : s₀.appliedIndex = 0)
    (h : Lives (fun r _ => r.stalled = false) log s₀ r) (clock : Nat → Nat) :
    ∃ t, outcome clock log r.store.appliedIndex s₀ = .ok t ∧ Alike t r.store :=
  (h.inStep hkeys hzero fun _ hrunning => hrunning).store clock

theorem store_follows_log_sent :
    ∃ r, run entries (.initial first) joins = some r ∧
      r.store.appliedIndex = 3 ∧ r.store.records.length = 4 ∧
      ∀ clock, ∃ t, outcome clock entries 3 first = .ok t ∧
        Alike t r.store := by
  obtain ⟨q, hq, hsent⟩ := (any_eq_true _ _).mp
    (show (run entries (.initial first) writesAhead).any
      (fun q => decide (∀ snap ∈ sent, snap ∈ q.snapshots)) = true by decide +kernel)
  have hwriter : Lives (fun r _ => r.stalled = false) entries first q :=
    Lives.initial.of_keeps [] (by simp) (by decide +kernel) hq
  obtain ⟨r, hr, hfinal⟩ := (any_eq_true _ _).mp
    (show (run entries (.initial first) joins).any
      (fun r => decide (r.store.appliedIndex = 3 ∧ r.store.records.length = 4)) = true by
        decide +kernel)
  obtain ⟨hindex, hlength⟩ := of_decide_eq_true hfinal
  have hlives : Lives (fun r _ => r.stalled = false) entries first r :=
    Lives.initial.of_keeps sent
      (fun snap hsnap => ⟨q, hwriter, of_decide_eq_true hsent snap hsnap⟩) (by decide +kernel) hr
  refine ⟨r, hr, hindex, hlength, fun clock => ?_⟩
  rw [← hindex]
  exact store_follows_log (by decide +kernel) (by decide +kernel) hlives clock

open Replica in
/-- Entries may fail to apply and members stop over them: as long as no log snapshot is asked
for while a member has stopped, its store holds what a prefix of the log makes of the first
store, however often it starts again. -/
theorem stopped_member_skips_nothing {log : List Entry} {s₀ : Store} {r : Replica}
    (hkeys : s₀.KeysSettings) (hzero : s₀.appliedIndex = 0)
    (h : Lives (fun r o => o = .snapshot → r.stalled = false) log s₀ r) (clock : Nat → Nat) :
    ∃ t, outcome clock log r.store.appliedIndex s₀ = .ok t ∧ Alike t r.store :=
  (h.inStep hkeys hzero fun _ hrunning => hrunning rfl).store clock

/-- A member that stopped at the second entry starts again, is handed the entry, and goes on. -/
theorem stopped_member_skips_nothing_retried :
    ∃ r, run entries (.initial first) retries = some r ∧
      r.store.appliedIndex = 3 ∧
      ∀ clock, ∃ t, outcome clock entries 3 first = .ok t ∧
        Alike t r.store := by
  obtain ⟨r, hr, hindex⟩ := (any_eq_true _ _).mp
    (show (run entries (.initial first) retries).any
      (fun r => decide (r.store.appliedIndex = 3)) = true by decide +kernel)
  have hlives : Lives (fun r o => o = .snapshot → r.stalled = false) entries
      first r :=
    Lives.initial.of_keeps [] (by simp) (by decide +kernel) hr
  rw [decide_eq_true_eq] at hindex
  refine ⟨r, hr, hindex, fun clock => ?_⟩
  rw [← hindex]
  exact stopped_member_skips_nothing (by decide +kernel) (by decide +kernel) hlives clock

/-- A log snapshot asked for after the member has stopped is filed above the entry it stopped
at. The member starts again above the entry, and applies the next one without it. -/
theorem stopped_member_skips_entry :
    ∃ r, run entries (.initial first) stopsAndStarts = some r ∧
      r.store.appliedIndex = 3 ∧ r.stalled = false ∧
      ¬∃ t, outcome (fun _ => 1) entries 3 first = .ok t ∧
        Alike t r.store := by
  obtain ⟨r, hr, hfinal⟩ := (any_eq_true _ _).mp
    (show (run entries (.initial first) stopsAndStarts).any
      (fun r => decide (r.store.appliedIndex = 3 ∧ r.stalled = false ∧ r.store.records.length = 3))
        = true by decide +kernel)
  obtain ⟨hindex, hrunning, hlength⟩ := of_decide_eq_true hfinal
  refine ⟨r, hr, hindex, hrunning, ?_⟩
  rintro ⟨t, ht, halike⟩
  obtain ⟨u, hu, hfour⟩ := ok_of_any
    (show (outcome (fun _ => 1) entries 3 first).toOption.any
      (fun u => decide (u.records.length = 4)) = true by decide +kernel)
  rw [ht] at hu
  cases hu
  have hsame := congrArg length halike.records
  rw [length_map, length_map, of_decide_eq_true hfour, hlength] at hsame
  cases hsame

end Wegweiser.Cluster
