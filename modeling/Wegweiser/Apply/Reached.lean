/-
Stores filled by accepted writes, streamed out and put back elsewhere.

Whatever batches a store was filled with, and whenever, what it streams out replaces what another
store holds in one transaction.
-/
import Wegweiser.Apply.Provenance
import Wegweiser.Apply.Statements
import Wegweiser.Store.Listing

namespace Wegweiser

open Checked List Sample

section Kept

variable {s t : Store} {now : Nat} {st : Statement} {b : Batch}

theorem Statement.execSOA_eq_ok {id : ZoneID} {soa : SOA} (hok : execSOA now s id soa = .ok t) :
    ∃ z, s.updateZone now z = .ok t := by
  obtain ⟨z, -, hrest⟩ := bind_eq_ok.mp hok
  obtain ⟨-, -, hupdate⟩ := bind_eq_ok.mp hrest
  exact ⟨_, hupdate⟩

namespace Store

theorem Schema.updateZone (h : s.Schema) {z : Zone} (hok : s.updateZone now z = .ok t) :
    t.Schema := by
  have hsound := h.toSound.updateZone hok
  obtain ⟨-, -, -, rfl⟩ := updateZone_eq_ok.mp hok
  exact h.of_sound hsound rfl rfl rfl rfl

theorem Schema.exec (h : s.Schema) (hok : Statement.exec now s st = .ok t) : t.Schema := by
  cases st with
  | putSetting key value => exact h.putSetting hok
  | createTSIGKey k => exact h.createTSIGKey hok
  | revokeTSIGKey id at_ => exact h.revokeTSIGKey hok
  | createToken k => exact h.createToken hok
  | revokeToken id at_ => exact h.revokeToken hok
  | createZone z =>
    have hsound := h.toSound.createZone hok
    obtain ⟨-, -, -, rfl⟩ := createZone_eq_ok.mp hok
    exact h.of_sound hsound rfl rfl rfl rfl
  | updateZone z => exact h.updateZone hok
  | deleteRecord id =>
    have hsound := h.toSound.deleteRecord hok
    obtain ⟨-, rfl⟩ := deleteRecord_eq_ok.mp hok
    exact h.of_sound hsound rfl rfl rfl rfl
  | updateRecord r =>
    have hsound := h.toSound.updateRecord hok
    obtain ⟨-, -, -, rfl⟩ := updateRecord_eq_ok.mp hok
    exact h.of_sound hsound rfl rfl rfl rfl
  | insertRecord r =>
    have hsound := h.toSound.insertRecord hok
    obtain ⟨-, -, rfl⟩ := insertRecord_eq_ok.mp hok
    exact h.of_sound hsound rfl rfl rfl rfl
  | setZoneSerial id serial =>
    have hsound := h.toSound.setZoneSerial hok
    obtain ⟨-, rfl⟩ := setZoneSerial_eq_ok.mp hok
    exact h.of_sound hsound rfl rfl rfl rfl
  | setSOA id soa =>
    obtain ⟨z, hupdate⟩ := Statement.execSOA_eq_ok hok
    exact h.updateZone hupdate
  | appendCommit c => exact h.appendCommit hok
  | deleteZone id =>
    have hsound := h.toSound.deleteZone hok
    obtain ⟨-, rfl⟩ := deleteZone_eq_ok.mp hok
    exact h.of_sound hsound rfl rfl rfl rfl
  | refuse e => cases hok

theorem Timed.exec (h : s.Timed) (hnow : now ≠ 0) (hok : Statement.exec now s st = .ok t) :
    t.Timed := by
  cases st with
  | putSetting key value => exact h.putSetting hok
  | createTSIGKey k => exact h.createTSIGKey hnow hok
  | revokeTSIGKey id at_ => exact h.revokeTSIGKey hok
  | createToken k => exact h.createToken hnow hok
  | revokeToken id at_ => exact h.revokeToken hok
  | createZone z => exact h.createZone hnow hok
  | updateZone z => exact h.updateZone hok
  | deleteRecord id => exact h.deleteRecord hok
  | updateRecord r => exact h.updateRecord hok
  | insertRecord r => exact h.insertRecord hnow hok
  | setZoneSerial id serial => exact h.setZoneSerial hok
  | setSOA id soa =>
    obtain ⟨z, hupdate⟩ := Statement.execSOA_eq_ok hok
    exact h.updateZone hupdate
  | appendCommit c => exact h.appendCommit hnow hok
  | deleteZone id => exact h.deleteZone hok
  | refuse e => cases hok

/-- Stores filled by accepted batches alone.  Beside them a node notes when its tokens were
last used. -/
inductive Reached : Store → Prop
  | blank : Reached Store.blank
  | applied {s t : Store} {b : Batch} {now index : Nat} (hs : Reached s) (hnow : now ≠ 0)
      (hok : b.applyAt now index s = .ok t) : Reached t
  | used {s : Store} (hs : Reached s) (lastUsed : TokenID → Option Nat) :
      Reached { s with tokens := s.tokens.map fun t => { t with lastUsedAt := lastUsed t.id } }

end Store

theorem Batch.applyAt_cases {index : Nat} (hok : b.applyAt now index s = .ok t) :
    ∃ mid, (mid = s ∨ b.write now s = .ok mid) ∧
      (t = mid ∨ t = { mid with appliedIndex := index }) := by
  rw [applyAt] at hok
  split at hok
  · cases hok
    exact ⟨s, .inl rfl, .inl rfl⟩
  · split at hok
    · cases hok
      exact ⟨s, .inl rfl, .inl rfl⟩
    · obtain ⟨mid, hmid, hrest⟩ := bind_eq_ok.mp hok
      refine ⟨mid, ?_, ?_⟩
      · rw [writeOnce] at hmid
        split at hmid
        · cases hmid
          exact .inl rfl
        · obtain ⟨done, -, hdone⟩ := bind_eq_ok.mp hmid
          split at hdone
          · cases hdone
            exact .inl rfl
          · exact .inr hdone
      · split at hrest
        · cases hrest
          exact .inl rfl
        · exact .inr (Store.setAppliedIndex_eq_ok.mp hrest).2.2

theorem Store.Reached.schema (h : s.Reached) : s.Schema ∧ s.Timed := by
  induction h with
  | blank => exact ⟨Schema.blank, Timed.blank⟩
  | @applied s t b now index _ hnow hok ih =>
    obtain ⟨mid, hmid, ht⟩ := Batch.applyAt_cases hok
    have hkept : mid.Schema ∧ mid.Timed := by
      rcases hmid with rfl | hwrite
      · exact ih
      · exact Batch.write_invariant (fun s => s.Schema ∧ s.Timed)
          (fun st _ _ _ hs hst => ⟨hs.1.exec hst, hs.2.exec hnow hst⟩) hwrite ih
    rcases ht with rfl | rfl
    · exact hkept
    · exact ⟨{ hkept.1 with }, { hkept.2 with }⟩
  | used _ lastUsed ih =>
    exact ⟨ih.1.mapTokens (fun _ => rfl) fun _ => rfl, ih.2.mapTokens fun _ => rfl⟩

theorem performAll_reached {steps : List (Env × Operation)} {t : Store}
    (hclock : ∀ step ∈ steps, step.1.now ≠ 0) (hrun : performAll Store.blank steps = .ok t) :
    t.Reached := by
  refine foldlM_invariant Store.Reached ?_ hrun .blank
  intro step hstep s t hs hok
  obtain ⟨⟨_, res⟩, hperform, rfl⟩ := map_eq_ok.mp hok
  simp only [Env.perform, bind_eq_ok, pure_eq_ok, Prod.exists, Prod.mk.injEq] at hperform
  obtain ⟨b, _, -, u, happly, rfl, -⟩ := hperform
  exact .applied hs (hclock step hstep) happly

end Kept

/-- A write transaction: what is committed, and what is written over it so far. -/
structure Transaction where
  base : Store
  work : Store

namespace Transaction

def run (tx : Transaction) : List (Store → Except Err Store) → Transaction × Option Err
  | [] => (tx, none)
  | f :: rest =>
    match f tx.work with
    | .ok t => run { tx with work := t } rest
    | .error e => (tx, some e)

theorem run_base (tx : Transaction) (steps : List (Store → Except Err Store)) :
    (tx.run steps).1.base = tx.base := by
  induction steps generalizing tx with
  | nil => rfl
  | cons f rest ih =>
    rw [run]
    cases f tx.work with
    | error e => rfl
    | ok t => exact ih { tx with work := t }

theorem run_eq_none {tx tx' : Transaction} {steps : List (Store → Except Err Store)} :
    tx.run steps = (tx', none) ↔
      tx'.base = tx.base ∧ steps.foldlM (fun t f => f t) tx.work = .ok tx'.work := by
  induction steps generalizing tx with
  | nil =>
    rw [run, foldlM_nil_eq_ok, Prod.mk.injEq]
    constructor
    · rintro ⟨rfl, -⟩
      exact ⟨rfl, rfl⟩
    · rintro ⟨hbase, hwork⟩
      cases tx
      cases tx'
      cases hbase
      cases hwork
      exact ⟨rfl, rfl⟩
  | cons f rest ih =>
    rw [run, foldlM_cons_eq_ok]
    cases hf : f tx.work with
    | error e => simp
    | ok t => simp [ih]

end Transaction

namespace Store

/-- `Store.inTx`: the foreign keys are looked at when the transaction ends, and one that
fails is rolled back. -/
def inTx (s : Store) (steps : List (Store → Except Err Store)) : Store × Option Err :=
  match Transaction.run ⟨s, s⟩ steps with
  | (tx, some e) => (tx.base, some e)
  | (tx, none) =>
    if tx.work.referenced then (tx.work, none) else (tx.base, some (.failed "the foreign keys"))

def emptyReplicated (s : Store) : Store := ⟨[], [], [], [], [], [], s.appliedIndex⟩

/-- `Store.ReplaceReplicated`, with items as they arrive: each may be the failure of whatever
they are read from. -/
def replaceFrom (s : Store) (now index : Nat) (items : List (Except Err Replicated)) :
    Store × Option Err :=
  if index = 0 then
    (s, some (.failed "zero is no position in a log, and a restore arrives from one"))
  else
    s.inTx ((fun t => .ok t.emptyReplicated) ::
      items.map (fun item t => item.bind (t.restoreItem now)) ++ [fun t => t.setAppliedIndex index])

/-- A position in a log, as the column holds one. -/
structure LogIndex where
  value : Nat
  pos : value ≠ 0
  fits : value ≤ 2 ^ 63 - 1

theorem replaceFrom_failed {s t : Store} {now index : Nat} {items : List (Except Err Replicated)}
    {e : Err} (h : s.replaceFrom now index items = (t, some e)) : t = s := by
  rw [replaceFrom] at h
  split at h
  · cases h
    rfl
  · rw [inTx] at h
    split at h
    · next tx e' hrun =>
      cases h
      exact (congrArg (fun out => out.1.base) hrun).symm.trans (Transaction.run_base _ _)
    · next tx hrun =>
      split at h
      · cases h
      · cases h
        exact (congrArg (fun out => out.1.base) hrun).symm.trans (Transaction.run_base _ _)

theorem replaceFrom_eq_ok {s t : Store} {now index : Nat} {items : List Replicated}
    (h : s.replaceReplicated now index items = .ok t) :
    s.replaceFrom now index (items.map .ok) = (t, none) := by
  simp only [replaceReplicated, bind_eq_ok, pure_eq_ok, ensure_eq_ok, bne_iff_ne] at h
  obtain ⟨-, hindex, rows, hrows, mid, hset, -, hkeys, rfl⟩ := h
  have hrun : Transaction.run ⟨s, s⟩ ((fun t => .ok t.emptyReplicated) ::
      (items.map Except.ok).map (fun item t => item.bind (t.restoreItem now)) ++
        [fun t => t.setAppliedIndex index]) = (⟨s, mid⟩, none) := by
    refine Transaction.run_eq_none.mpr ⟨rfl, ?_⟩
    rw [cons_append, foldlM_cons_eq_ok]
    refine ⟨_, rfl, foldlM_append_eq_ok.mpr ⟨rows, ?_, ?_⟩⟩
    · rw [foldlM_map, foldlM_map]
      exact hrows
    · rw [foldlM_cons_eq_ok]
      exact ⟨mid, hset, rfl⟩
  rw [replaceFrom, if_neg hindex, inTx, hrun]
  exact if_pos hkeys

end Store

namespace Sample

def fullRun : List (Nat × Operation) :=
  reverseRun ++
    [(5000, .createZone (zone 5 ["gone"]) [record 15 5 ["gone"] typeNS "ns."] info),
      (6000, .deleteZone (.ulid 5) info),
      (7000, .createKey (name ["key"]) .hmacSHA256 [1]),
      (8000, .revokeKey (.ulid 7000)),
      (9000, .createToken ⟨.ulid 9, "ci", "weg_", List.replicate 32 7, ["read"], 1, none, none, none⟩),
      (9500, .revokeToken (.ulid 9) fun _ => .ok ())]

end Sample

namespace Store

/-- What a store that was filled by accepted writes streams out can be put in place of what
any other store holds.  The other then streams out the same, and stands at the position that
came with it.  Items that fail part-way leave it exactly as it was. -/
theorem listing_replaces {s : Store} (h : s.Reached) (target : Store) (now : Nat)
    (index : LogIndex) :
    (∃ t, target.replaceFrom now index.value (s.listing.map .ok) = (t, none) ∧
      t.listing = s.listing ∧ t.appliedIndex = index.value) ∧
    ∀ (at_ : Nat) (items : List (Except Err Replicated)) (t : Store) (e : Err),
      target.replaceFrom now at_ items = (t, some e) → t = target := by
  obtain ⟨hschema, htimed⟩ := h.schema
  refine ⟨⟨s.restored index.value, ?_, listing_restored hschema.setting_keys index.value, rfl⟩,
    fun _ _ _ _ hfailed => replaceFrom_failed hfailed⟩
  exact replaceFrom_eq_ok (replaceReplicated_listing hschema htimed target now index.pos index.fits)

/-- A store with such a chain, the history of a zone that is gone and two revoked
credentials, put in place of a store with another zone. -/
theorem listing_replaces_full :
    ∃ s target, performAll blank (steps fullRun) = .ok s ∧
      performAll blank (steps (reverseRun.take 1)) = .ok target ∧
      (∃ c p src, c ∈ s.records ∧ p ∈ s.records ∧ src ∈ s.records ∧ c.managedBy = p.id ∧
        p.managedBy = src.id) ∧
      (∃ c ∈ s.commits, ∀ z ∈ s.zones, z.id ≠ c.zoneID) ∧
      (∃ k ∈ s.keys, k.revokedAt ≠ none) ∧ (∃ k ∈ s.tokens, k.revokedAt ≠ none) ∧
      (∃ t, target.replaceFrom 1 9 (s.listing.map .ok) = (t, none) ∧
        t.listing = s.listing ∧ t.appliedIndex = 9) ∧
      ∀ (at_ : Nat) (items : List (Except Err Replicated)) (t : Store) (e : Err),
        target.replaceFrom 1 at_ items = (t, some e) → t = target := by
  obtain ⟨s, hrun, hs⟩ := ok_of_any
    (show (performAll blank (steps fullRun)).toOption.any (fun s => decide (
      (∃ c ∈ s.records, ∃ p ∈ s.records, ∃ src ∈ s.records, c.managedBy = p.id ∧
        p.managedBy = src.id) ∧
      (∃ c ∈ s.commits, ∀ z ∈ s.zones, z.id ≠ c.zoneID) ∧
      (∃ k ∈ s.keys, k.revokedAt ≠ none) ∧ (∃ k ∈ s.tokens, k.revokedAt ≠ none))) = true by
        decide +kernel)
  obtain ⟨target, htarget, -⟩ := ok_of_any
    (show (performAll blank (steps (reverseRun.take 1))).toOption.any
      (fun _ => true) = true by decide +kernel)
  obtain ⟨⟨c, hc, p, hp, src, hsrc, hlinks⟩, hgone, hkeys, htokens⟩ := of_decide_eq_true hs
  have hreached : s.Reached := performAll_reached (by decide) hrun
  exact ⟨s, target, hrun, htarget, ⟨c, p, src, hc, hp, hsrc, hlinks⟩, hgone, hkeys, htokens,
    listing_replaces hreached target 1 ⟨9, by decide, by decide⟩⟩

end Store

end Wegweiser
