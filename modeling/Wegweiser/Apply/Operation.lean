/-
The operations of the applier as one type, and what running one of them does.

An operation is one planned batch.
-/
import Wegweiser.Apply.Plan

namespace Wegweiser

/-- The planning operations of the applier. -/
inductive Operation where
  | command (cmd : Command)
  | createZone (z : Zone) (records : List Record) (info : Meta)
  | updateZone (z : Zone) (info : Meta)
  | deleteZone (zid : ZoneID) (info : Meta)
  | rollback (zid : ZoneID) (target : Serial) (info : Meta)
  | reconcile (zid : ZoneID) (info : Meta)
  | settings (changes : List SettingChange)
  | createKey (name : Name) (algorithm : TSIGAlgorithm) (secret : Octets)
  | revokeKey (id : TSIGKeyID)
  | createToken (t : Token)
  | revokeToken (id : TokenID) (guard : List Token → Except Err Unit)

namespace Env

variable (env : Env)

def planOp (s : Store) : Operation → Except Err (Batch × Result)
  | .command cmd => env.planCommand s cmd
  | .createZone z records info => env.planCreateZone s z records info
  | .updateZone z info => env.planUpdateZone s z info
  | .deleteZone zid info => env.planDeleteZone s zid info
  | .rollback zid target info => env.planRollback s zid target info
  | .reconcile zid info => env.planReconcile s zid info
  | .settings changes => planSettings changes
  | .createKey name algorithm secret => env.planCreateKey name algorithm secret
  | .revokeKey id => env.planRevokeKey id
  | .createToken t => env.planCreateToken t
  | .revokeToken id guard => env.planRevokeToken s id guard

def perform (s : Store) (op : Operation) : Except Err (Store × Result) := do
  let (b, res) ← env.planOp s op
  let s ← b.apply env.now s
  pure (s, res)

end Env

namespace Sample

def env : Env where
  lib := WireLibrary.plain
  autoReverseDefault := true
  policy := .firstWins
  now := 1
  mint n := .ulid ((100 + n) % 2 ^ 128)
  mint_valid n := by
    simp only [Ident.valid, decide_eq_true_eq]
    exact Nat.mod_lt _ (by decide)
  mapOrder l := l
  mapOrder_perm l := List.Perm.refl l

def envAt (base : Nat) : Env :=
  { env with
    mint := fun n => .ulid ((base + n % 100) % 2 ^ 128)
    mint_valid := fun n => by
      simp only [Ident.valid, decide_eq_true_eq]
      exact Nat.mod_lt _ (by decide) }

def name (labels : List String) : Name :=
  (Name.ofLabels (labels.map ascii)).toOption.getD Name.root

def soa : SOA := ⟨name ["ns"], name ["mail"], ⟨1⟩, 3600, 900, 1209600, 3600, 3600⟩

def zone (id : Nat) (labels : List String) : Zone :=
  { id := .ulid id, name := name labels,
    kind := if isReverseName (name labels) then .reverse else .forward,
    netPrefix := (parseReversePrefix (name labels)).toOption, soa, defaultTTL := 3600,
    autoReverse := none, disabled := false, comment := "", createdAt := 0, updatedAt := 0 }

def record (id zoneID : Nat) (labels : List String) (type : RRType) (data : String) : Record :=
  { id := .ulid id, zoneID := .ulid zoneID, name := name labels, cls := classIN, type,
    ttl := 3600, rdata := ⟨ascii data⟩, managedBy := .empty, managedKind := none, comment := "",
    disabled := false, createdAt := 0, updatedAt := 0 }

def generated (source : Nat) (kind : ManagedKind) (r : Record) : Record :=
  { r with managedBy := .ulid source, managedKind := some kind }

def info : Meta := ⟨.api, "", ""⟩

def edit (zoneID : Nat) (ops : List RecordOp) : Operation :=
  .command ⟨.ulid zoneID, ops, none, .edit, .api, "", ""⟩

def store (zones : List Zone) (records : List Record) : Store :=
  ⟨zones, records, [], [], [], [], 0⟩

def forwardStore : Store :=
  store [zone 1 ["ex"]] [record 1 1 ["ex"] typeNS "ns."]

def address : Record :=
  record 2 1 ["a", "ex"] typeA "192.0.2.10"

end Sample

end Wegweiser
