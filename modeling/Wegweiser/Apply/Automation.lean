/-
What each step of the reverse automation queues: an inversion lemma for every
function that reads or extends the change set.
-/
import Wegweiser.Apply.Queue
import Wegweiser.Store.Spec

namespace Wegweiser

open Checked List

abbrev Store.Hangs (s : Store) (ids : RecordID → Prop) (r : Record) : Prop :=
  Links.Hangs Record.id Record.source s.records ids r

namespace Env

variable {env : Env} {s : Store} {w w' : Work} {d r x : Record} {z rev child : Zone}

theorem zoneOf_eq_ok {cs : ChangeSet} {zid : ZoneID} (hzone : zoneOf s cs zid = .ok z) :
    z.id = zid ∧ ((∃ e ∈ cs.entries, e.zone = z) ∨ z ∈ s.zones) := by
  rw [zoneOf] at hzone
  split at hzone
  · next e hentry =>
    cases hzone
    have hmem := ChangeSet.entry_eq_some hentry
    exact ⟨hmem.2, .inl ⟨e, hmem.1, rfl⟩⟩
  · rw [Store.zoneByID_eq_ok] at hzone
    exact ⟨by simpa using find?_some hzone, .inr (mem_of_find?_eq_some hzone)⟩

theorem queueRemoval_eq_ok :
    queueRemoval s w d = .ok w' ↔
      ∃ z, zoneOf s w.cs d.zoneID = .ok z ∧ w' = w.inZone z (·.remove d) := by
  simp only [queueRemoval, bind_eq_ok, return_eq_ok]

end Env

/-- A change set that grew by removals only, of records that `P` describes. -/
structure Work.Retires (P : Record → Prop) (w w' : Work) : Prop where
  deletes : ∀ x, x ∈ w'.cs.deletes ↔ x ∈ w.cs.deletes ∨ P x
  inserts : ∀ x, x ∈ w'.cs.inserts ↔ x ∈ w.cs.inserts
  updates : w'.cs.updates = w.cs.updates
  soa : ∀ zid, (w'.cs.pending zid).soa = (w.cs.pending zid).soa
  policy : w'.cs.policy = w.cs.policy
  res : w'.res = w.res
  minted : w'.minted = w.minted

namespace Work.Retires

variable {P Q : Record → Prop} {u v w : Work}

theorem refl : Retires (fun _ => False) w w :=
  ⟨fun _ => by simp, fun _ => Iff.rfl, rfl, fun _ => rfl, rfl, rfl, rfl⟩

theorem trans (huv : Retires P u v) (hvw : Retires Q v w) :
    Retires (fun x => P x ∨ Q x) u w where
  deletes x := by rw [hvw.deletes, huv.deletes, or_assoc]
  inserts x := (hvw.inserts x).trans (huv.inserts x)
  updates := hvw.updates.trans huv.updates
  soa zid := (hvw.soa zid).trans (huv.soa zid)
  policy := hvw.policy.trans huv.policy
  res := hvw.res.trans huv.res
  minted := hvw.minted.trans huv.minted

theorem congr (h : Retires P u v) (hiff : ∀ x, P x ↔ Q x) : Retires Q u v :=
  { h with deletes := fun x => by rw [h.deletes, hiff] }

end Work.Retires

namespace Env

variable {env : Env} {s : Store} {w w' : Work} {d r x : Record} {z rev child : Zone}

theorem queueRemoval_retires (hok : queueRemoval s w d = .ok w') : Work.Retires (· = d) w w' := by
  obtain ⟨z, -, rfl⟩ := queueRemoval_eq_ok.mp hok
  constructor
  case soa =>
    intro zid
    rw [Work.inZone, ChangeSet.inZone_pending]
    split <;> simp
  all_goals simp [Work.inZone]

theorem queueRemovals_retires {l : List Record} (hok : l.foldlM (queueRemoval s) w = .ok w') :
    Work.Retires (· ∈ l) w w' := by
  induction l generalizing w with
  | nil =>
    cases hok
    exact Work.Retires.refl.congr (by simp)
  | cons head tail ih =>
    obtain ⟨mid, hhead, htail⟩ := foldlM_cons_eq_ok.mp hok
    exact ((queueRemoval_retires hhead).trans (ih htail)).congr fun x => by simp

theorem retireQueue_eq_ok {fuel : Nat} {queue : List RecordID} :
    retireQueue s fuel queue w = .ok w' ↔
      ∃ gone, Links.walk Record.id s.managedBy fuel queue = some gone ∧
        gone.foldlM (queueRemoval s) w = .ok w' := by
  induction fuel generalizing queue w with
  | zero => cases queue <;> simp [retireQueue, Links.walk]
  | succ fuel ih =>
    cases queue with
    | nil => simp [retireQueue, Links.walk]
    | cons next queue =>
      simp only [retireQueue, Links.walk, bind_eq_ok, ih, Option.map_eq_some_iff]
      constructor
      · intro h
        obtain ⟨mid, hmid, rest, hrest, hrun⟩ := h
        exact ⟨_, ⟨rest, hrest, rfl⟩, foldlM_append_eq_ok.mpr ⟨mid, hmid, hrun⟩⟩
      · intro h
        obtain ⟨_, ⟨rest, hrest, rfl⟩, hrun⟩ := h
        obtain ⟨mid, hmid, hrun⟩ := foldlM_append_eq_ok.mp hrun
        exact ⟨mid, hmid, rest, hrest, hrun⟩

theorem retireBelow_retires {id : RecordID} (hok : retireBelow s id w = .ok w') :
    Work.Retires (fun x => x ∈ s.records ∧ s.Hangs (· = id) x) w w' := by
  obtain ⟨gone, hwalk, hrun⟩ := retireQueue_eq_ok.mp hok
  refine (queueRemovals_retires hrun).congr fun x => ?_
  rw [Links.mem_walk (fun k a => Store.mem_managedBy) hwalk]
  simp only [mem_singleton]

/-- The types whose records the automation expects to have something hanging off
them. -/
def retirable (t : RRType) : Prop := t = typeA ∨ t = typeAAAA ∨ t = typePTR

theorem retireGenerated_retires (hok : retireGenerated s w r = .ok w') :
    Work.Retires (fun x => retirable r.type ∧ x ∈ s.records ∧ s.Hangs (· = r.id) x) w w' := by
  rw [retireGenerated] at hok
  split at hok
  · next htype => exact (retireBelow_retires hok).congr fun x => by simp [retirable, htype]
  · next htype =>
    cases hok
    exact Work.Retires.refl.congr fun x => by simp [retirable, htype]

theorem retire_retires (hok : retire s w r = .ok w') :
    Work.Retires (fun x => x = r ∨ x ∈ s.records ∧ s.Hangs (· = r.id) x) w w' := by
  obtain ⟨mid, hmid, hrest⟩ := bind_eq_ok.mp hok
  exact (queueRemoval_retires hmid).trans (retireBelow_retires hrest)

theorem foldlM_retires {α : Type} {l : List α} {step : Work → α → Except Err Work}
    {P : α → Record → Prop} (hstep : ∀ a w w', step w a = .ok w' → Work.Retires (P a) w w')
    (hok : l.foldlM step w = .ok w') : Work.Retires (fun x => ∃ a ∈ l, P a x) w w' := by
  induction l generalizing w with
  | nil =>
    cases hok
    exact Work.Retires.refl.congr (by simp)
  | cons head tail ih =>
    obtain ⟨mid, hhead, htail⟩ := foldlM_cons_eq_ok.mp hok
    exact ((hstep head w mid hhead).trans (ih htail)).congr fun x => by simp

def parentZone (s : Store) (child : Zone) : Option Zone := child.name.parent.bind s.zoneByName

def leadsTo (target : Name) (held : List Record) : Bool :=
  held.any fun r => r.type == typeCNAME && r.rdata.text == target.string

def delegationConflict (ptr : Record) (addr : Addr) (parent : Zone) (plain : Name) (first : Record)
    (policy : Policy) : Conflict :=
  { source := ptr.managedBy, sourceName := ptr.name, address := addr, reverseZone := parent.id,
    reverseName := plain, existing := some first.name, generated := first.isManaged, policy }

/-- What `queueDelegation` can do about the plain reverse name of an address. -/
inductive Delegated (env : Env) (s : Store) (w : Work) (child : Zone) (addr : Addr)
    (plain target : Name) (ptr : Record) : Work → Prop
  | inside (hin : plain.isSubDomainOf child.name = true) :
      Delegated env s w child addr plain target ptr w
  | elsewhere (hout : plain.isSubDomainOf child.name = false) (hnone : parentZone s child = none) :
      Delegated env s w child addr plain target ptr w
  | present {parent : Zone} (hout : plain.isSubDomainOf child.name = false)
      (hparent : parentZone s child = some parent)
      (hleads : leadsTo target (ownerAsWillBe s w.cs parent plain) = true) :
      Delegated env s w child addr plain target ptr w
  | conflict {parent : Zone} {first : Record} {rest : List Record} {policy : Policy}
      (hout : plain.isSubDomainOf child.name = false)
      (hparent : parentZone s child = some parent)
      (hheld : ownerAsWillBe s w.cs parent plain = first :: rest)
      (hleads : leadsTo target (first :: rest) = false) :
      Delegated env s w child addr plain target ptr
        (w.report (delegationConflict ptr addr parent plain first policy))
  | queued {parent : Zone} {data : RData} (hout : plain.isSubDomainOf child.name = false)
      (hparent : parentZone s child = some parent)
      (hfree : ownerAsWillBe s w.cs parent plain = [])
      (hdata : env.lib.parseRData typeCNAME classIN target.string = .ok data) :
      Delegated env s w child addr plain target ptr
        { w.inZone parent (·.insert (generatedCNAME parent ptr plain data (env.mint w.minted))) with
          minted := w.minted + 1 }

variable {addr : Addr} {source : Record} {owner : Name}

theorem queueDelegation_eq_ok {target : Name} {ptr : Record}
    (hok : env.queueDelegation s w child addr target ptr = .ok w') :
    ∃ plain, reverseName addr = .ok plain ∧
      Delegated env s w child addr plain target ptr w' := by
  obtain ⟨plain, hplain, hrest⟩ := bind_eq_ok.mp hok
  refine ⟨plain, hplain, ?_⟩
  split at hrest
  · next hin =>
    cases hrest
    exact .inside hin
  · next hin =>
    have hout := Bool.eq_false_iff.mpr hin
    split at hrest
    · next hnone =>
      cases hrest
      exact .elsewhere hout hnone
    · next parent hparent =>
      dsimp only at hrest
      split at hrest
      · next hleads =>
        cases hrest
        exact .present hout hparent hleads
      · next hleads =>
        split at hrest
        · next first rest hheld =>
          obtain ⟨policy, -, hpolicy⟩ := bind_eq_ok.mp hrest
          cases hpolicy
          rw [hheld] at hleads
          exact .conflict hout hparent hheld (Bool.eq_false_iff.mpr hleads)
        · next hfree =>
          obtain ⟨data, hdata, hqueued⟩ := bind_eq_ok.mp hrest
          cases hqueued
          exact .queued hout hparent hfree hdata

def entered (env : Env) (w : Work) (rev : Zone) (source : Record) (owner : Name) (data : RData) :
    Record × Work :=
  (generatedPTR rev source owner data (env.mint w.minted),
    { w.inZone rev (·.insert (generatedPTR rev source owner data (env.mint w.minted))) with
      minted := w.minted + 1 })

theorem queueEntry_eq_ok (hok : env.queueEntry s w rev source addr owner = .ok w') :
    ∃ data plain, env.lib.parseRData typePTR classIN source.name.string = .ok data ∧
      reverseName addr = .ok plain ∧
      Delegated env s (env.entered w rev source owner data).2 rev addr plain owner
        (env.entered w rev source owner data).1 w' := by
  simp only [queueEntry, queueGenerated, bind_eq_ok, pure_eq_ok, Prod.exists] at hok
  obtain ⟨ptr, mid, ⟨data, hdata, hmid⟩, hdelegation⟩ := hok
  cases hmid
  obtain ⟨plain, hplain, hdelegated⟩ := queueDelegation_eq_ok hdelegation
  exact ⟨data, plain, hdata, hplain, hdelegated⟩

/-- Where the reverse entry of a record goes: the record is an enabled address that
somebody wrote, `rev` is the most specific reverse zone for the address, and
`owner` the name the address has there. -/
structure Spot (s : Store) (source : Record) (addr : Addr) (rev : Zone) (owner : Name) :
    Prop where
  address : source.address = some addr
  authored : source.isManaged = false
  enabled : source.disabled = false
  zone : s.reverseZoneFor addr = some rev
  owner : rev.reverseOwner addr = .ok owner

abbrev heldAt (s : Store) (cs : ChangeSet) (rev : Zone) (owner : Name) : List Record :=
  reverseRRset s cs rev ⟨owner, classIN, typePTR⟩

def tells (name : Name) (held : List Record) : Bool :=
  held.any fun r => r.rdata.text == name.string

def displaced (w : Work) (rev : Zone) (held : List Record) : Work :=
  (held.filter Record.isManaged).foldl (fun w r => w.inZone rev (·.remove r)) w

/-- What one call of `generate` can do. -/
inductive Generated (env : Env) (s : Store) (w : Work) (source : Record) : Work → Prop
  | skipped (hskip : source.address = none ∨ source.isManaged = true ∨ source.disabled = true) :
      Generated env s w source w
  | missing {addr : Addr} {hint : MissingZone} (hzone : s.reverseZoneFor addr = none) :
      Generated env s w source
        { w with res := { w.res with missingZones := w.res.missingZones ++ [hint] } }
  | present {addr : Addr} {rev : Zone} {owner : Name} (hspot : Spot s source addr rev owner)
      (htells : tells source.name (heldAt s w.cs rev owner) = true) :
      Generated env s w source w
  | free {w' : Work} {addr : Addr} {rev : Zone} {owner : Name}
      (hspot : Spot s source addr rev owner) (hfree : heldAt s w.cs rev owner = [])
      (hentry : env.queueEntry s w rev source addr owner = .ok w') :
      Generated env s w source w'
  | beside {w' : Work} {addr : Addr} {rev : Zone} {owner : Name}
      (hspot : Spot s source addr rev owner)
      (htells : tells source.name (heldAt s w.cs rev owner) = false)
      (hpolicy : env.conflictPolicy s w.cs = .ok .multi)
      (hentry : env.queueEntry s w rev source addr owner = .ok w') :
      Generated env s w source w'
  | kept {addr : Addr} {rev : Zone} {owner : Name} {c : Conflict}
      (hspot : Spot s source addr rev owner)
      (htells : tells source.name (heldAt s w.cs rev owner) = false) :
      Generated env s w source (w.report c)
  | replaced {w' : Work} {addr : Addr} {rev : Zone} {owner : Name} {held : Record}
      {others : List Record} {c : Conflict} (hspot : Spot s source addr rev owner)
      (hheld : heldAt s w.cs rev owner = held :: others)
      (htells : tells source.name (held :: others) = false) (hmanaged : held.isManaged = true)
      (hpolicy : env.conflictPolicy s w.cs = .ok .lastWins)
      (hentry : env.queueEntry s ((displaced w rev (held :: others)).report c) rev source addr
        owner = .ok w') :
      Generated env s w source w'

theorem resolveConflict_eq_ok {held : Record}
    {others : List Record} (hspot : Spot s source addr rev owner)
    (hheld : heldAt s w.cs rev owner = held :: others)
    (htells : tells source.name (held :: others) = false)
    (hok : env.resolveConflict s w rev source addr owner held others = .ok w') :
    Generated env s w source w' := by
  obtain ⟨policy, hpolicy, hrest⟩ := bind_eq_ok.mp hok
  have htells' : tells source.name (heldAt s w.cs rev owner) = false := by rw [hheld]; exact htells
  cases policy with
  | multi => exact .beside hspot htells' hpolicy hrest
  | reject => cases hrest
  | firstWins =>
    cases hrest
    exact .kept hspot htells'
  | lastWins =>
    dsimp only at hrest
    split at hrest
    · cases hrest
      exact .kept hspot htells'
    · next hmanaged => exact .replaced hspot hheld htells (by simpa using hmanaged) hpolicy hrest

theorem generate_eq_ok (hok : env.generate s w source = .ok w') : Generated env s w source w' := by
  rw [generate] at hok
  split at hok
  · next hnone =>
    cases hok
    exact .skipped (.inl hnone)
  · next addr haddr =>
    split at hok
    · next hskip =>
      cases hok
      rw [Bool.or_eq_true] at hskip
      exact .skipped (.inr hskip)
    · next hskip =>
      simp only [Bool.or_eq_true, not_or, Bool.not_eq_true] at hskip
      split at hok
      · next hzone =>
        obtain ⟨⟨suggested, net⟩, -, hhint⟩ := bind_eq_ok.mp hok
        cases hhint
        exact .missing hzone
      · next rev hzone =>
        obtain ⟨owner, howner, hrest⟩ := bind_eq_ok.mp hok
        have hspot : Spot s source addr rev owner :=
          ⟨haddr, hskip.1, hskip.2, hzone, howner⟩
        split at hrest
        · next hfree => exact .free hspot hfree hrest
        · next held others hheld =>
          split at hrest
          · next htells =>
            cases hrest
            refine .present hspot ?_
            rw [heldAt, hheld]
            exact htells
          · next htells =>
            exact resolveConflict_eq_ok hspot hheld (Bool.eq_false_iff.mpr htells) hrest

end Env

end Wegweiser
