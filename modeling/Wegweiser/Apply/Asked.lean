/-
What a command asks for, before the automation answers: the records its
operations remove, rewrite, add and claim.
-/
import Wegweiser.Apply.Plan
import Wegweiser.Apply.Queue
import Wegweiser.Store.Spec

namespace Wegweiser

open Checked List

namespace RecordOp

def named (s : Store) (id : RecordID) : List Record :=
  (s.records.find? fun r => r.id == id).toList

def removes (s : Store) (z : Zone) : RecordOp → List Record
  | .delete id => named s id
  | .replaceRRset key wanted =>
    (s.rrset z.id key).filter fun before => !wanted.any fun r => r.rdata == before.rdata
  | _ => []

def edited (r before : Record) : Record :=
  { r with
    managedBy := before.managedBy, managedKind := before.managedKind,
    createdAt := before.createdAt }

def replaced (r before : Record) : Record :=
  { r with
    id := before.id, managedBy := before.managedBy, managedKind := before.managedKind,
    createdAt := before.createdAt }

def detached (before : Record) : Record :=
  { before with managedBy := .empty, managedKind := none }

def rewrite (before after : Record) : List RecordUpdate :=
  if sameContent before after then [] else [⟨before, after⟩]

def rewrites (s : Store) (z : Zone) : RecordOp → List RecordUpdate
  | .update id r => (named s id).flatMap fun before => rewrite before (edited r before)
  | .detach id =>
    ((named s id).filter Record.isManaged).map fun before => ⟨before, detached before⟩
  | .replaceRRset key wanted =>
    (s.rrset z.id key).flatMap fun before =>
      (wanted.find? fun r => r.rdata == before.rdata).toList.flatMap fun r =>
        rewrite before (replaced r before)
  | _ => []

def adds (s : Store) (z : Zone) : RecordOp → List Record
  | .add r => [r]
  | .replaceRRset key wanted =>
    wanted.filter fun r => !(s.rrset z.id key).any fun before => before.rdata == r.rdata
  | _ => []

def claims (s : Store) : RecordOp → List Record
  | .makeCanonical id => named s id
  | _ => []

/-- What `resolve` checks of an operation. -/
def Allowed (s : Store) (z : Zone) : RecordOp → Prop
  | .add r => z.contains r.name = true
  | .update id r =>
    (∃ before, s.recordByID id = .ok before ∧ checkOwnedAndAuthored z before = .ok ()) ∧
      z.contains r.name = true
  | .delete id =>
    ∃ before, s.recordByID id = .ok before ∧ checkOwnedAndAuthored z before = .ok ()
  | .detach id => ∃ before, s.recordByID id = .ok before ∧ before.zoneID = z.id
  | .makeCanonical id =>
    ∃ before, s.recordByID id = .ok before ∧ checkOwnedAndAuthored z before = .ok () ∧
      before.address.isSome = true
  | .replaceRRset key _ =>
    z.contains key.name = true ∧
      ∀ before ∈ s.rrset z.id key, checkOwnedAndAuthored z before = .ok ()

end RecordOp

/-- A zone's changes that grew by what some operations ask for. -/
structure Changes.Asks (c c' : Changes) (removes : List Record) (rewrites : List RecordUpdate)
    (adds claims : List Record) : Prop where
  deletes : c'.deletes = c.deletes ++ removes
  updates : c'.updates = c.updates ++ rewrites
  inserts : c'.inserts = c.inserts ++ adds
  claims : c'.claims = c.claims ++ claims
  soa : c'.soa = c.soa
  touched : ∀ n, n ∈ c'.touched ↔ n ∈ c.touched ∨ n ∈ ownersOf removes rewrites adds

namespace Changes.Asks

variable {a b c : Changes} {removes removes' adds adds' claims claims' : List Record}
  {rewrites rewrites' : List RecordUpdate}

theorem refl : a.Asks a [] [] [] [] := by
  constructor <;> simp [ownersOf]

theorem trans (hab : a.Asks b removes rewrites adds claims)
    (hbc : b.Asks c removes' rewrites' adds' claims') :
    a.Asks c (removes ++ removes') (rewrites ++ rewrites') (adds ++ adds') (claims ++ claims') := by
  constructor
  · rw [hbc.deletes, hab.deletes, append_assoc]
  · rw [hbc.updates, hab.updates, append_assoc]
  · rw [hbc.inserts, hab.inserts, append_assoc]
  · rw [hbc.claims, hab.claims, append_assoc]
  · rw [hbc.soa, hab.soa]
  · intro n
    rw [hbc.touched, hab.touched]
    simp only [ownersOf, map_append, flatMap_append, mem_append]
    tauto

theorem marked (h : a.Asks b removes rewrites adds claims) (hdeletes : a.deletes = [])
    (hupdates : a.updates = []) (hinserts : a.inserts = []) (htouched : a.touched = []) :
    b.Marked := by
  intro n
  rw [h.touched, htouched, h.deletes, h.updates, h.inserts, hdeletes, hupdates, hinserts]
  simp

end Changes.Asks

namespace RecordOp

variable {s : Store} {z : Zone} {ch ch' : Changes} {op : RecordOp}

theorem named_of_recordByID {id : RecordID} {r : Record} (h : s.recordByID id = .ok r) :
    named s id = [r] := by
  rw [named, Store.recordByID_eq_ok.mp h]
  rfl

theorem checkOwnedAndAuthored_eq_ok {r : Record} :
    checkOwnedAndAuthored z r = .ok () ↔ r.zoneID = z.id ∧ r.isManaged = false := by
  simp [checkOwnedAndAuthored]

theorem replaceExisting_asks_one (wanted : List Record) (before : Record) (ch : Changes) :
    ch.Asks (replaceExisting wanted ch before)
      ([before].filter fun before => !wanted.any fun r => r.rdata == before.rdata)
      ((wanted.find? fun r => r.rdata == before.rdata).toList.flatMap fun r =>
        rewrite before (replaced r before)) [] [] := by
  rw [replaceExisting]
  cases hfind : wanted.find? fun r => r.rdata == before.rdata with
  | none =>
    have hany : (wanted.any fun r => r.rdata == before.rdata) = false := by
      simpa [find?_eq_none] using hfind
    constructor <;> simp [hany, ownersOf]
  | some r =>
    have hrdata : (r.rdata == before.rdata) = true := by simpa using find?_some hfind
    have hany : (wanted.any fun r => r.rdata == before.rdata) = true :=
      any_eq_true.mpr ⟨r, mem_of_find?_eq_some hfind, hrdata⟩
    change ch.Asks (if sameContent before (replaced r before) then ch
      else ch.update before (replaced r before)) _ _ _ _
    by_cases hsame : sameContent before (replaced r before) = true
    · constructor <;> simp [hany, rewrite, hsame, ownersOf]
    · constructor <;> simp [hany, rewrite, hsame, ownersOf, or_assoc]

theorem replaceExisting_asks (wanted existing : List Record) (ch : Changes) :
    ch.Asks (existing.foldl (replaceExisting wanted) ch)
      (existing.filter fun before => !wanted.any fun r => r.rdata == before.rdata)
      (existing.flatMap fun before =>
        (wanted.find? fun r => r.rdata == before.rdata).toList.flatMap fun r =>
          rewrite before (replaced r before)) [] [] := by
  induction existing generalizing ch with
  | nil => exact Changes.Asks.refl
  | cons head tail ih =>
    have hall := (replaceExisting_asks_one wanted head ch).trans (ih _)
    rw [foldl_cons, flatMap_cons, ← singleton_append, filter_append]
    exact hall

theorem inserts_asks (fresh : List Record) (ch : Changes) :
    ch.Asks (fresh.foldl Changes.insert ch) [] [] fresh [] := by
  induction fresh generalizing ch with
  | nil => exact Changes.Asks.refl
  | cons head tail ih =>
    have hhead : ch.Asks (ch.insert head) [] [] [head] [] := by constructor <;> simp [ownersOf]
    exact hhead.trans (ih _)

theorem resolveReplace_asks {key : RRsetKey} {wanted : List Record}
    (hok : resolveReplace s z ch key wanted = .ok ch') :
    Allowed s z (.replaceRRset key wanted) ∧
      ch.Asks ch' (removes s z (.replaceRRset key wanted))
        (rewrites s z (.replaceRRset key wanted)) (adds s z (.replaceRRset key wanted)) [] := by
  simp only [resolveReplace, bind_eq_ok, ensure_eq_ok, pure_eq_ok, forM_eq_ok] at hok
  obtain ⟨-, hname, -, hauthored, rfl⟩ := hok
  refine ⟨⟨hname, hauthored⟩, ?_⟩
  have hall := (replaceExisting_asks wanted (s.rrset z.id key) ch).trans (inserts_asks
    (wanted.filter fun r => !(s.rrset z.id key).any fun e => e.rdata == r.rdata) _)
  simpa [removes, rewrites, adds] using hall

theorem resolve_asks (hok : resolve s z ch op = .ok ch') :
    op.Allowed s z ∧
      ch.Asks ch' (op.removes s z) (op.rewrites s z) (op.adds s z) (op.claims s) := by
  cases op with
  | add r =>
    simp only [resolve, bind_eq_ok, ensure_eq_ok, pure_eq_ok] at hok
    obtain ⟨-, hname, rfl⟩ := hok
    refine ⟨hname, ?_⟩
    constructor <;> simp [removes, rewrites, adds, claims, ownersOf]
  | update id r =>
    simp only [resolve, bind_eq_ok, ensure_eq_ok, pure_eq_ok] at hok
    obtain ⟨before, hbefore, _, hauthored, -, hname, rfl⟩ := hok
    refine ⟨⟨⟨before, hbefore, hauthored⟩, hname⟩, ?_⟩
    change ch.Asks (if sameContent before (edited r before) then ch
      else ch.update before (edited r before)) _ _ _ _
    by_cases hsame : sameContent before (edited r before) = true
    · constructor <;>
        simp [removes, rewrites, adds, claims, named_of_recordByID hbefore, rewrite, hsame,
          ownersOf]
    · constructor <;>
        simp [removes, rewrites, adds, claims, named_of_recordByID hbefore, rewrite, hsame,
          ownersOf, or_assoc]
  | delete id =>
    simp only [resolve, bind_eq_ok, pure_eq_ok] at hok
    obtain ⟨before, hbefore, _, hauthored, rfl⟩ := hok
    refine ⟨⟨before, hbefore, hauthored⟩, ?_⟩
    constructor <;> simp [removes, rewrites, adds, claims, named_of_recordByID hbefore, ownersOf]
  | detach id =>
    simp only [resolve, bind_eq_ok, ensure_eq_ok, pure_eq_ok, beq_iff_eq] at hok
    obtain ⟨before, hbefore, -, hzone, rfl⟩ := hok
    refine ⟨⟨before, hbefore, hzone⟩, ?_⟩
    change ch.Asks (if before.isManaged then ch.update before (detached before) else ch) _ _ _ _
    by_cases hmanaged : before.isManaged = true
    · constructor <;>
        simp [removes, rewrites, adds, claims, named_of_recordByID hbefore, hmanaged, ownersOf,
          or_assoc]
    · constructor <;>
        simp [removes, rewrites, adds, claims, named_of_recordByID hbefore, hmanaged, ownersOf]
  | makeCanonical id =>
    simp only [resolve, bind_eq_ok, ensure_eq_ok, pure_eq_ok] at hok
    obtain ⟨before, hbefore, _, hauthored, -, haddress, rfl⟩ := hok
    refine ⟨⟨before, hbefore, hauthored, haddress⟩, ?_⟩
    constructor <;>
      simp [removes, rewrites, adds, claims, named_of_recordByID hbefore, Changes.claim, ownersOf]
  | replaceRRset key records => exact resolveReplace_asks hok

theorem resolves_ask {ops : List RecordOp} (hok : ops.foldlM (resolve s z) ch = .ok ch') :
    (∀ op ∈ ops, op.Allowed s z) ∧
      ch.Asks ch' (ops.flatMap (removes s z)) (ops.flatMap (rewrites s z))
        (ops.flatMap (adds s z)) (ops.flatMap (claims s)) := by
  induction ops generalizing ch with
  | nil =>
    cases hok
    exact ⟨fun _ hop => absurd hop not_mem_nil, Changes.Asks.refl⟩
  | cons head tail ih =>
    obtain ⟨mid, hhead, htail⟩ := foldlM_cons_eq_ok.mp hok
    obtain ⟨hallowed, hasks⟩ := resolve_asks hhead
    obtain ⟨hrest, hasks'⟩ := ih htail
    refine ⟨fun op hop => ?_, hasks.trans hasks'⟩
    rcases mem_cons.mp hop with rfl | hop
    · exact hallowed
    · exact hrest op hop

end RecordOp

end Wegweiser
