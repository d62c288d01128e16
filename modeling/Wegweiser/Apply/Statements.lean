/-
A batch as the statements it runs.

Which statements a batch runs, and in which order, is in the batch alone.
-/
import Wegweiser.Apply.Written

namespace Wegweiser

open Checked List

/-- A statement of the write path, with what it is given. -/
inductive Statement where
  | putSetting (key : String) (value : Octets)
  | createTSIGKey (k : TSIGKey)
  | revokeTSIGKey (id : TSIGKeyID) (at_ : Nat)
  | createToken (t : Token)
  | revokeToken (id : TokenID) (at_ : Nat)
  | createZone (z : Zone)
  | updateZone (z : Zone)
  | deleteRecord (id : RecordID)
  | updateRecord (r : Record)
  | insertRecord (r : Record)
  | setZoneSerial (id : ZoneID) (serial : Serial)
  | setSOA (id : ZoneID) (soa : SOA)
  | appendCommit (c : Commit)
  | deleteZone (id : ZoneID)
  | refuse (e : Err)
deriving DecidableEq

namespace Statement

/-- `UpdateZone` with the zone as it stands and another start of authority. -/
def execSOA (now : Nat) (s : Store) (id : ZoneID) (soa : SOA) : Except Err Store := do
  let z ← s.zoneByID id
  ({ z with soa } : Zone).validate
  s.updateZone now { z with soa }

def exec (now : Nat) (s : Store) : Statement → Except Err Store
  | putSetting key value => s.putSetting key value
  | createTSIGKey k => s.createTSIGKey now k
  | revokeTSIGKey id at_ => s.revokeTSIGKey id at_
  | createToken t => s.createToken now t
  | revokeToken id at_ => s.revokeToken id at_
  | createZone z => s.createZone now z
  | updateZone z => s.updateZone now z
  | deleteRecord id => s.deleteRecord id
  | updateRecord r => s.updateRecord now r
  | insertRecord r => s.insertRecord now r
  | setZoneSerial id serial => s.setZoneSerial now id serial
  | setSOA id soa => execSOA now s id soa
  | appendCommit c => s.appendCommit now c
  | deleteZone id => s.deleteZone id
  | refuse e => .error e

end Statement

open Statement

def KeyOp.statement : KeyOp → Statement
  | create k => .createTSIGKey k
  | revoke id at_ => .revokeTSIGKey id at_

def TokenOp.statement : TokenOp → Statement
  | create t => .createToken t
  | revoke id at_ => .revokeToken id at_

def ZoneOp.opening : ZoneOp → List Statement
  | create z => [.createZone z]
  | update z => [.updateZone z]
  | delete _ => []

def ZoneOp.closing : ZoneOp → List Statement
  | delete id => [.deleteZone id]
  | create _ | update _ => []

def ChangeSet.statements (cs : ChangeSet) : List Statement :=
  (ordered true cs.deletes).map (fun d => .deleteRecord d.id) ++
    cs.updates.map (fun u => .updateRecord u.after) ++
    (ordered false cs.inserts).map .insertRecord

namespace Batch

def stepping (b : Batch) (c : Commit) : List Statement :=
  match b.set.entry c.zoneID, b.zoneOp c.zoneID with
  | none, none => [.refuse (.invalid "the batch commits to a zone without changing it")]
  | some e, none =>
    match e.changes.soa with
    | none => [.setZoneSerial c.zoneID c.serialTo]
    | some change => [.setSOA c.zoneID (restoredSOA change c)]
  | _, some _ => []

def statements (b : Batch) : List Statement :=
  b.settings.map (fun c => .putSetting c.key c.value) ++
    b.keys.map KeyOp.statement ++ b.tokens.map TokenOp.statement ++
    b.zones.flatMap ZoneOp.opening ++ b.set.statements ++
    b.commits.flatMap (fun c => b.stepping c ++ [.appendCommit c]) ++
    b.zones.flatMap ZoneOp.closing

variable {b : Batch} {st : Statement}

/-- Where a statement of a batch comes from. -/
inductive Runs (b : Batch) : Statement → Prop
  | setting {c : SettingChange} (hc : c ∈ b.settings) : Runs b (.putSetting c.key c.value)
  | createKey {k : TSIGKey} (hk : .create k ∈ b.keys) : Runs b (.createTSIGKey k)
  | revokeKey {id : TSIGKeyID} {at_ : Nat} (hk : .revoke id at_ ∈ b.keys) :
      Runs b (.revokeTSIGKey id at_)
  | createToken {k : Token} (hk : .create k ∈ b.tokens) : Runs b (.createToken k)
  | revokeToken {id : TokenID} {at_ : Nat} (hk : .revoke id at_ ∈ b.tokens) :
      Runs b (.revokeToken id at_)
  | createZone {z : Zone} (hz : .create z ∈ b.zones) : Runs b (.createZone z)
  | updateZone {z : Zone} (hz : .update z ∈ b.zones) : Runs b (.updateZone z)
  | delete {d : Record} (hd : d ∈ b.set.deletes) : Runs b (.deleteRecord d.id)
  | update {u : RecordUpdate} (hu : u ∈ b.set.updates) : Runs b (.updateRecord u.after)
  | insert {r : Record} (hr : r ∈ b.set.inserts) : Runs b (.insertRecord r)
  | refuse {c : Commit} {e : Err} (hc : c ∈ b.commits) (hst : b.stepping c = [.refuse e]) :
      Runs b (.refuse e)
  | serial {c : Commit} (hc : c ∈ b.commits)
      (hst : b.stepping c = [.setZoneSerial c.zoneID c.serialTo]) :
      Runs b (.setZoneSerial c.zoneID c.serialTo)
  | soa {c : Commit} {soa : SOA} (hc : c ∈ b.commits)
      (hst : b.stepping c = [.setSOA c.zoneID soa]) : Runs b (.setSOA c.zoneID soa)
  | commit {c : Commit} (hc : c ∈ b.commits) : Runs b (.appendCommit c)
  | deleteZone {id : ZoneID} (hz : .delete id ∈ b.zones) : Runs b (.deleteZone id)

theorem runs_of_stepping {c : Commit} (hc : c ∈ b.commits) (hst : st ∈ b.stepping c) :
    b.Runs st := by
  have hst' := hst
  rw [stepping] at hst'
  split at hst'
  · next he hop =>
    obtain rfl := mem_singleton.mp hst'
    exact .refuse hc (by rw [stepping, he, hop])
  · next e he hop =>
    split at hst'
    · next hsoa =>
      obtain rfl := mem_singleton.mp hst'
      exact .serial hc (by simp only [stepping, he, hop, hsoa])
    · next change hsoa =>
      obtain rfl := mem_singleton.mp hst'
      exact .soa hc (by simp only [stepping, he, hop, hsoa])
  · cases hst'

theorem mem_statements : st ∈ b.statements ↔ b.Runs st := by
  have hzone {x : Statement} {op : ZoneOp} (hop : op ∈ b.zones) :
      (x ∈ op.opening → b.Runs x) ∧ (x ∈ op.closing → b.Runs x) := by
    cases op with
    | create z => exact ⟨fun hx => mem_singleton.mp hx ▸ .createZone hop, nofun⟩
    | update z => exact ⟨fun hx => mem_singleton.mp hx ▸ .updateZone hop, nofun⟩
    | delete id => exact ⟨nofun, fun hx => mem_singleton.mp hx ▸ .deleteZone hop⟩
  simp only [statements, ChangeSet.statements, mem_append, mem_map, mem_flatMap,
    mem_singleton, ordered_perm.mem_iff]
  constructor
  · rintro ((((((⟨c, hc, rfl⟩ | ⟨op, hop, rfl⟩) | ⟨op, hop, rfl⟩) | ⟨op, hop, hst⟩) |
      ((⟨d, hd, rfl⟩ | ⟨u, hu, rfl⟩) | ⟨r, hr, rfl⟩)) | ⟨c, hc, hst | rfl⟩) | ⟨op, hop, hst⟩)
    · exact .setting hc
    · cases op with
      | create k => exact .createKey hop
      | revoke id at_ => exact .revokeKey hop
    · cases op with
      | create k => exact .createToken hop
      | revoke id at_ => exact .revokeToken hop
    · exact (hzone hop).1 hst
    · exact .delete hd
    · exact .update hu
    · exact .insert hr
    · exact runs_of_stepping hc hst
    · exact .commit hc
    · exact (hzone hop).2 hst
  · intro h
    cases h with
    | setting hc => exact .inl (.inl (.inl (.inl (.inl (.inl ⟨_, hc, rfl⟩)))))
    | createKey hk | revokeKey hk => exact .inl (.inl (.inl (.inl (.inl (.inr ⟨_, hk, rfl⟩)))))
    | createToken hk | revokeToken hk => exact .inl (.inl (.inl (.inl (.inr ⟨_, hk, rfl⟩))))
    | createZone hz | updateZone hz => exact .inl (.inl (.inl (.inr ⟨_, hz, mem_singleton_self _⟩)))
    | delete hd => exact .inl (.inl (.inr (.inl (.inl ⟨_, hd, rfl⟩))))
    | update hu => exact .inl (.inl (.inr (.inl (.inr ⟨_, hu, rfl⟩))))
    | insert hr => exact .inl (.inl (.inr (.inr ⟨_, hr, rfl⟩)))
    | refuse hc hst | serial hc hst | soa hc hst => exact .inl (.inr ⟨_, hc, .inl (by simp [hst])⟩)
    | commit hc => exact .inl (.inr ⟨_, hc, .inr rfl⟩)
    | deleteZone hz => exact .inr ⟨_, hz, mem_singleton_self _⟩

end Batch

section Written

variable {now : Nat} {s t : Store} {b : Batch} {st : Statement}

theorem ChangeSet.write_eq_statements (cs : ChangeSet) (s : Store) :
    cs.write now s = cs.statements.foldlM (exec now) s := by
  simp only [write, statements, foldlM_append, foldlM_map, bind_assoc]
  rfl

namespace Batch

theorem openZone_eq_statements (s : Store) (op : ZoneOp) :
    op.opening.foldlM (exec now) s = openZone now s op := by
  cases op with
  | create z => exact bind_pure _
  | update z => exact bind_pure _
  | delete id => rfl

theorem closeZone_eq_statements (s : Store) (op : ZoneOp) :
    op.closing.foldlM (exec now) s = closeZone s op := by
  cases op with
  | create z => rfl
  | update z => rfl
  | delete id => exact bind_pure _

theorem writeKey_eq_exec (s : Store) (op : KeyOp) :
    exec now s op.statement = writeKey now s op := by
  cases op <;> rfl

theorem writeToken_eq_exec (s : Store) (op : TokenOp) :
    exec now s op.statement = writeToken now s op := by
  cases op <;> rfl

theorem zoneByID_bind_setZoneSerial (s : Store) (id : ZoneID) (serial : Serial) :
    (s.zoneByID id >>= fun z => s.setZoneSerial now z.id serial) =
      s.setZoneSerial now id serial := by
  rw [Store.zoneByID]
  cases hfind : s.zones.find? fun z => z.id == id with
  | none =>
    have hnone : (s.zones.any fun o => o.id == id) = false := by
      rw [any_eq_false]
      exact find?_eq_none.mp hfind
    rw [Store.setZoneSerial, hnone]
    rfl
  | some z =>
    have hid : z.id = id := by simpa using find?_some hfind
    rw [← hid]
    rfl

theorem stepSerial_eq_statements (b : Batch) (s : Store) (c : Commit) :
    (b.stepping c).foldlM (exec now) s = b.stepSerial now s c := by
  rw [stepping, stepSerial]
  cases b.set.entry c.zoneID with
  | none => cases b.zoneOp c.zoneID <;> rfl
  | some e =>
    cases b.zoneOp c.zoneID with
    | some op => rfl
    | none =>
      dsimp only
      cases hsoa : e.changes.soa with
      | none =>
        simp only [writeSOA, hsoa, zoneByID_bind_setZoneSerial]
        exact bind_pure _
      | some change =>
        simp only [writeSOA, hsoa]
        exact bind_pure _

theorem writeCommit_eq_statements (b : Batch) (s : Store) (c : Commit) :
    (b.stepping c ++ [appendCommit c]).foldlM (exec now) s =
      b.writeCommit now s c := by
  rw [foldlM_append, stepSerial_eq_statements, writeCommit]
  exact congrArg _ (funext fun _ => bind_pure _)

theorem write_eq_statements (b : Batch) (s : Store) :
    b.write now s = b.statements.foldlM (exec now) s := by
  simp only [write, statements, foldlM_append, foldlM_map, bind_assoc, writeKey_eq_exec,
    writeToken_eq_exec, foldlM_flatMap openZone_eq_statements,
    foldlM_flatMap closeZone_eq_statements, foldlM_flatMap (writeCommit_eq_statements b),
    ChangeSet.write_eq_statements]
  rfl

theorem write_invariant (Inv : Store → Prop)
    (hstep : ∀ st ∈ b.statements, ∀ s t, Inv s → exec now s st = .ok t → Inv t)
    (hok : b.write now s = .ok t) (hs : Inv s) : Inv t := by
  rw [write_eq_statements] at hok
  exact foldlM_invariant Inv hstep hok hs

theorem write_runs (hok : b.write now s = .ok t) (hst : b.Runs st) :
    ∃ front back u v, b.statements = front ++ st :: back ∧ exec now u st = .ok v ∧
      back.foldlM (exec now) v = .ok t := by
  rw [write_eq_statements] at hok
  obtain ⟨front, back, hsplit⟩ := append_of_mem (mem_statements.mpr hst)
  rw [hsplit] at hok
  obtain ⟨u, -, hrest⟩ := foldlM_append_eq_ok.mp hok
  obtain ⟨v, hexec, hback⟩ := foldlM_cons_eq_ok.mp hrest
  exact ⟨front, back, u, v, hsplit, hexec, hback⟩

end Batch

end Written

end Wegweiser
