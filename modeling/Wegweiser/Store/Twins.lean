/-
Two databases that are written to by two clocks.

Their tables hold the same rows in whatever order, but for the times of the rows a clock has
written to.
-/
import Wegweiser.Lib.Paired
import Wegweiser.Store.Listing

namespace Wegweiser

open Checked Rows List Record

/-- The tables whose rows carry times. -/
inductive Table where
  | zones
  | records
  | commits
  | keys
  | tokens
deriving DecidableEq

def Marks : Type := Table → Ident → Prop

namespace Marks

def none : Marks := fun _ _ => False

def add (S : Marks) (m : Option (Table × Ident)) : Marks := fun k id => S k id ∨ m = some (k, id)

theorem add_none (S : Marks) : S.add .none = S := by
  funext k id
  simp [add]

variable {k : Table}

theorem add_other (S : Marks) {m : Option (Table × Ident)} (hm : ∀ p ∈ m, p.1 ≠ k) :
    S.add m k = S k := by
  funext x
  have hne : m ≠ some (k, x) := fun h => hm (k, x) h rfl
  simp [add, hne]

theorem add_self (S : Marks) (k : Table) (id : Ident) : S.add (some (k, id)) k id := .inr rfl

theorem add_ne (S : Marks) {id x : Ident} (hne : x ≠ id) : S.add (some (k, id)) k x ↔ S k x := by
  simp [add, Ne.symm hne]

end Marks

/-- `updated_at` tells when a zone was last written to. -/
def Zone.clocked : Clocked Zone ZoneID :=
  ⟨Zone.id, Zone.erase, Zone.updatedAt, fun a => a, fun _ => rfl, fun _ => rfl, fun _ => rfl⟩

def Record.clocked : Clocked Record RecordID :=
  ⟨id, erase, updatedAt, fun a => a, fun _ => rfl, fun _ => rfl, fun _ => rfl⟩

def Commit.clocked : Clocked Commit CommitID :=
  ⟨Commit.id, Commit.erase, Commit.createdAt, fun a => a, fun _ => rfl, fun _ => rfl, fun _ => rfl⟩

def TSIGKey.clocked : Clocked TSIGKey TSIGKeyID :=
  ⟨TSIGKey.id, TSIGKey.erase, TSIGKey.createdAt, fun a => a, fun _ => rfl, fun _ => rfl,
    fun _ => rfl⟩

def Token.clocked : Clocked Token TokenID :=
  ⟨Token.id, Token.erase, Token.createdAt, Token.unused, fun _ => rfl, fun _ => rfl, fun _ => rfl⟩

namespace Store

variable {s t s' : Store} {now now' : Nat} {S : Marks}

/-- The rows of a table of two databases in pairs.  A journal entry, a key or a token is never
removed, so that one a clock has written to is there. -/
def TwinTable (now now' : Nat) (M : Ident → Prop) (s t : Store) : Table → Prop
  | .zones => Paired (Zone.clocked.Twins now now' M) s.zones t.zones
  | .records => Paired (clocked.Twins now now' M) s.records t.records
  | .commits => Paired (Commit.clocked.Twins now now' M) s.commits t.commits ∧
      ∀ id, M id → ∃ c ∈ s.commits, c.id = id
  | .keys => Paired (TSIGKey.clocked.Twins now now' M) s.keys t.keys ∧
      ∀ id, M id → ∃ k ∈ s.keys, k.id = id
  | .tokens => Paired (Token.clocked.Twins now now' M) s.tokens t.tokens ∧
      ∀ id, M id → ∃ k ∈ s.tokens, k.id = id

/-- The rows of two databases in pairs. -/
structure Twins (now now' : Nat) (S : Marks) (s t : Store) : Prop where
  tables : ∀ k, TwinTable now now' (S k) s t k
  settings : Paired Eq s.settings t.settings

namespace Twins

theorem zones (h : Twins now now' S s t) :
    Paired (Zone.clocked.Twins now now' (S .zones)) s.zones t.zones := h.tables .zones

theorem records (h : Twins now now' S s t) :
    Paired (clocked.Twins now now' (S .records)) s.records t.records := h.tables .records

section Rows

variable {α : Type} {T : Clocked α Ident} {k : Table} {l l' : List α} {id : Ident}

theorem exists_key (h : Paired (T.Twins now now' (S k)) l l') (hex : ∃ o ∈ l, T.key o = id) :
    ∃ o ∈ l', T.key o = id :=
  (h.exists_iff fun a b hab => by rw [hab.key]).mp hex

theorem key_new (h : Paired (T.Twins now now' (S k)) l l') (hnew : ∀ o ∈ l, T.key o ≠ id) :
    ∀ o ∈ l', T.key o ≠ id :=
  (h.forall_iff fun a b hab => by rw [hab.key]).mp hnew

theorem all_bare (h : Paired (T.Twins now now' (S k)) l l') {p : α → Prop}
    (hp : ∀ a, p a ↔ p (T.bare a)) (hall : ∀ a ∈ l, p a) : ∀ a ∈ l', p a :=
  (h.forall_iff fun a b hab => by rw [hp a, hp b, hab.bare]).mp hall

theorem rewrite {f g : α → α} (h : Paired (T.Twins now now' (S k)) l l')
    (hhit : ∀ a b, T.Twins now now' (S k) a b → T.key a = id →
      T.Twins now now' (S.add (some (k, id)) k) (f a) (g b))
    (hf : ∀ a, T.key a ≠ id → f a = a) (hg : ∀ a, T.key a ≠ id → g a = a) :
    Paired (T.Twins now now' (S.add (some (k, id)) k)) (l.map f) (l'.map g) := by
  refine h.map fun a _ b _ hab => ?_
  by_cases hkey : T.key a = id
  · exact hhit a b hab hkey
  · rw [hf a hkey, hg b (hab.key ▸ hkey)]
    exact hab.congr (S.add_ne hkey)

theorem insert {a b : α} (h : Paired (T.Twins now now' (S k)) l l') (hnew : ∀ o ∈ l, T.key o ≠ id)
    (hab : T.Twins now now' (S.add (some (k, id)) k) a b) :
    Paired (T.Twins now now' (S.add (some (k, id)) k)) (l ++ [a]) (l' ++ [b]) :=
  Paired.append (h.mono fun o ho _ _ hpair => hpair.congr (S.add_ne (hnew o ho))) hab

theorem insert_marks {key : α → Ident} {a : α} (h : ∀ x, S k x → ∃ o ∈ l, key o = x)
    (ha : key a = id) : ∀ x, S.add (some (k, id)) k x → ∃ o ∈ l ++ [a], key o = x := by
  intro x hx
  by_cases hid : x = id
  · exact ⟨a, mem_append_right _ (mem_singleton_self a), ha.trans hid.symm⟩
  · obtain ⟨o, ho, hkey⟩ := h x ((S.add_ne hid).mp hx)
    exact ⟨o, mem_append_left _ ho, hkey⟩

end Rows

variable {r : Record} {id : ZoneID} {l l' : List Record} {z : Zone} {at_ : Nat}

theorem admitted (h : Twins now now' S s t) {others others' : List Record}
    (ho : Paired (clocked.Twins now now' (S .records)) others others')
    (hadm : s.Admitted others r) : t.Admitted others' r where
  id_new := key_new ho hadm.id_new
  unique_new := all_bare ho (fun _ => Iff.rfl) hadm.unique_new
  zone := exists_key h.zones hadm.zone
  source := hadm.source.imp_right (Or.imp_right (exists_key ho))

theorem without (h : Twins now now' S s t) {gone gone' : List RecordID}
    (hgone : ∀ id, id ∈ gone ↔ id ∈ gone') :
    Paired (clocked.Twins now now' (S .records)) (s.without gone) (t.without gone') :=
  h.records.prune (fun _ _ hab => hab.key)
    (fun _ _ hab => (congrArg source hab.bare :)) hgone

theorem writeRecords (h : Twins now now' S s t) {id : RecordID}
    (hrecords : Paired (clocked.Twins now now' (S.add (some (.records, id)) .records)) l l') :
    Twins now now' (S.add (some (.records, id))) { s with records := l }
      { t with records := l' } where
  tables k := by
    have hk := h.tables k
    cases k with
    | records => exact hrecords
    | _ =>
      rw [S.add_other (by simp)]
      exact hk
  settings := h.settings

theorem writeZones (h : Twins now now' S s t) {l l' : List Zone}
    (hzones : Paired (Zone.clocked.Twins now now' (S.add (some (.zones, id)) .zones)) l l') :
    Twins now now' (S.add (some (.zones, id))) { s with zones := l } { t with zones := l' } where
  tables k := by
    have hk := h.tables k
    cases k with
    | zones => exact hzones
    | _ =>
      rw [S.add_other (by simp)]
      exact hk
  settings := h.settings

theorem insertRecord (h : Twins now now' S s t) (hok : s.insertRecord now r = .ok s') :
    ∃ t', t.insertRecord now' r = .ok t' ∧
      Twins now now' (S.add (some (.records, r.id))) s' t' := by
  obtain ⟨hcheck, hadm, rfl⟩ := insertRecord_eq_ok.mp hok
  refine ⟨_, insertRecord_eq_ok.mpr ⟨hcheck, h.admitted h.records hadm, rfl⟩, ?_⟩
  apply h.writeRecords
  apply insert h.records hadm.id_new
  exact .of_stamped rfl (S.add_self .records r.id) rfl rfl fun hnow => by rw [hnow]

theorem updateRecord (h : Twins now now' S s t) (hok : s.updateRecord now r = .ok s') :
    ∃ t', t.updateRecord now' r = .ok t' ∧
      Twins now now' (S.add (some (.records, r.id))) s' t' := by
  obtain ⟨hcheck, hex, hadm, rfl⟩ := updateRecord_eq_ok.mp hok
  have hothers := h.records.filter (p := fun o => o.id != r.id) fun a b hab => by
    rw [show a.id = b.id from hab.key]
  refine ⟨_, updateRecord_eq_ok.mpr ⟨hcheck, exists_key h.records hex, h.admitted hothers hadm, rfl⟩,
    ?_⟩
  apply h.writeRecords
  refine rewrite h.records (fun a b hab hid => ?_) (fun _ hid => if_neg hid) fun _ hid => if_neg hid
  have hid' : b.id = r.id := hab.key.symm.trans hid
  rw [updatedRow, updatedRow, if_pos (show a.id = r.id from hid), if_pos hid']
  refine .of_stamped rfl (S.add_self .records r.id) rfl rfl fun hnow => ?_
  -- a row keeps the time it was created, which is one where the clocks are
  have hrow : a = b := hab.same (.inr hnow)
  rw [hrow, hnow]

theorem keepRecords (h : Twins now now' S s t)
    (hrecords : Paired (clocked.Twins now now' (S .records)) l l') :
    Twins now now' S { s with records := l } { t with records := l' } where
  tables k := by
    have hk := h.tables k
    cases k with
    | records => exact hrecords
    | _ => exact hk
  settings := h.settings

theorem deleteRecord (h : Twins now now' S s t) {id : RecordID} (hok : s.deleteRecord id = .ok s') :
    ∃ t', t.deleteRecord id = .ok t' ∧ Twins now now' S s' t' := by
  obtain ⟨hex, rfl⟩ := deleteRecord_eq_ok.mp hok
  exact ⟨_, deleteRecord_eq_ok.mpr ⟨exists_key h.records hex, rfl⟩,
    h.keepRecords (h.without fun _ => Iff.rfl)⟩

theorem createZone (h : Twins now now' S s t) (hok : s.createZone now z = .ok s') :
    ∃ t', t.createZone now' z = .ok t' ∧ Twins now now' (S.add (some (.zones, z.id))) s' t' := by
  obtain ⟨hcheck, hid, hname, rfl⟩ := createZone_eq_ok.mp hok
  refine ⟨_, createZone_eq_ok.mpr
    ⟨hcheck, key_new h.zones hid, all_bare h.zones (fun _ => Iff.rfl) hname, rfl⟩, ?_⟩
  apply h.writeZones
  apply insert h.zones hid
  exact .of_stamped rfl (S.add_self .zones z.id) rfl rfl fun hnow => by rw [hnow]

theorem updateZone (h : Twins now now' S s t) {z' : Zone} (hz : z.erase = z'.erase)
    (hok : s.updateZone now z = .ok s') :
    ∃ t', t.updateZone now' z' = .ok t' ∧ Twins now now' (S.add (some (.zones, z.id))) s' t' := by
  obtain ⟨hcheck, hex, hname, rfl⟩ := updateZone_eq_ok.mp hok
  have hid : z.id = z'.id := (congrArg Zone.id hz :)
  have hzname : z.name = z'.name := (congrArg Zone.name hz :)
  have hcheck' : z.check = z'.check := (congrArg Zone.check hz :)
  rw [hzname, hid] at hname
  refine ⟨_, updateZone_eq_ok.mpr ⟨hcheck' ▸ hcheck, exists_key h.zones (hid ▸ hex),
    all_bare h.zones (fun _ => Iff.rfl) hname, rfl⟩, ?_⟩
  apply h.writeZones
  refine rewrite h.zones (fun a b hab ha => ?_) (fun _ hne => if_neg hne)
    fun _ hne => if_neg fun heq => hne (heq.trans hid.symm)
  have hb : b.id = z'.id := (hab.key.symm.trans ha).trans hid
  rw [updatedZone, updatedZone, if_pos (show a.id = z.id from ha), if_pos hb]
  refine .of_stamped ?_ (S.add_self .zones z.id) rfl rfl fun hnow => ?_
  · exact hz
  · have hrow : a = b := hab.same (.inr hnow)
    have hfields : ({ z.erase with createdAt := a.createdAt, updatedAt := now } : Zone) =
        { z'.erase with createdAt := b.createdAt, updatedAt := now' } := by
      rw [hz, hrow, hnow]
    exact hfields

theorem setZoneSerial (h : Twins now now' S s t) {serial : Serial}
    (hok : s.setZoneSerial now id serial = .ok s') :
    ∃ t', t.setZoneSerial now' id serial = .ok t' ∧
      Twins now now' (S.add (some (.zones, id))) s' t' := by
  obtain ⟨hex, rfl⟩ := setZoneSerial_eq_ok.mp hok
  refine ⟨_, setZoneSerial_eq_ok.mpr ⟨exists_key h.zones hex, rfl⟩, ?_⟩
  apply h.writeZones
  refine rewrite h.zones (fun a b hab ha => ?_) (fun _ hne => if_neg hne) fun _ hne => if_neg hne
  have hb : b.id = id := hab.key.symm.trans ha
  rw [steppedZone, steppedZone, if_pos (show a.id = id from ha), if_pos hb]
  refine .of_stamped ?_ ?_ rfl rfl fun hnow => ?_
  · exact (congrArg (fun o : Zone => { o with soa := { o.soa with serial } }) hab.bare :)
  · exact (show a.id = id from ha) ▸ S.add_self .zones a.id
  · have hrow : a = b := hab.same (.inr hnow)
    rw [hrow, hnow]

theorem deleteZone (h : Twins now now' S s t) (hok : s.deleteZone id = .ok s') :
    ∃ t', t.deleteZone id = .ok t' ∧ Twins now now' S s' t' := by
  obtain ⟨hex, rfl⟩ := deleteZone_eq_ok.mp hok
  have hinside : Paired (clocked.Twins now now' (S .records))
      (s.records.filter fun r => r.zoneID == id) (t.records.filter fun r => r.zoneID == id) := by
    refine h.records.filter fun a b hab => ?_
    rw [show a.zoneID = b.zoneID from (congrArg zoneID hab.bare :)]
  refine ⟨_, deleteZone_eq_ok.mpr ⟨exists_key h.zones hex, rfl⟩, fun k => ?_, h.settings⟩
  have hk := h.tables k
  cases k with
  | zones => exact h.zones.filter fun a b hab => by rw [show a.id = b.id from hab.key]
  | records =>
    refine h.without fun x => ?_
    rw [mem_map, mem_map]
    exact hinside.exists_iff fun a b hab => by rw [show a.id = b.id from hab.key]
  | _ => exact hk

/-- The row that is marked when a row is written with the time it came with, or without. -/
def mark (k : Table) (id : Ident) (createdAt : Nat) : Option (Table × Ident) :=
  if createdAt = 0 then some (k, id) else none

theorem add_mark_other (S : Marks) {k k' : Table} (hne : k' ≠ k) (id : Ident) (createdAt : Nat) :
    S.add (mark k' id createdAt) k = S k := by
  refine S.add_other fun p hp => ?_
  rw [mark] at hp
  split at hp
  · exact Option.some.inj hp ▸ hne
  · cases hp

section Timed

variable {α : Type} {T : Clocked α Ident} {k : Table} {l l' : List α} {id : Ident} {at_ : Nat}

theorem insertTimed (write : Nat → α)
    (h : Paired (T.Twins now now' (S k)) l l' ∧ ∀ x, S k x → ∃ o ∈ l, T.key o = x)
    (hnew : ∀ o ∈ l, T.key o ≠ id) (hkey : ∀ n, T.key (write n) = id)
    (hbare : ∀ n n', T.bare (write n) = T.bare (write n'))
    (htime : ∀ n, T.time (write (if at_ = 0 then n else at_)) = if at_ = 0 then n else at_) :
    Paired (T.Twins now now' (S.add (mark k id at_) k)) (l ++ [write (if at_ = 0 then now else at_)])
        (l' ++ [write (if at_ = 0 then now' else at_)]) ∧
      ∀ x, S.add (mark k id at_) k x →
        ∃ o ∈ l ++ [write (if at_ = 0 then now else at_)], T.key o = x := by
  by_cases hzero : at_ = 0
  · simp only [mark, if_pos hzero] at htime ⊢
    refine ⟨insert h.1 hnew (.of_stamped (hbare _ _) ?_ (htime _) (htime _) fun hnow => by rw [hnow]),
      insert_marks h.2 (hkey _)⟩
    rw [hkey]
    exact S.add_self k id
  · simp only [mark, if_neg hzero, S.add_none]
    refine ⟨h.1.append (.refl fun hS => ?_), fun x hx => ?_⟩
    · obtain ⟨o, ho, hkey'⟩ := h.2 _ hS
      exact hnew o ho (hkey'.trans (hkey _))
    · obtain ⟨o, ho, hkey'⟩ := h.2 x hx
      exact ⟨o, mem_append_left _ ho, hkey'⟩

theorem amend {f : α → α}
    (h : Paired (T.Twins now now' (S k)) l l' ∧ ∀ x, S k x → ∃ o ∈ l, T.key o = x)
    (hkey : ∀ a, T.key (f a) = T.key a) (htime : ∀ a, T.time (f a) = T.time a)
    (hbare : ∀ a, T.bare (f a) = f (T.bare a)) (hshown : ∀ a, T.shown (f a) = f (T.shown a)) :
    Paired (T.Twins now now' (S k)) (l.map f) (l'.map f) ∧
      ∀ x, S k x → ∃ o ∈ l.map f, T.key o = x := by
  refine ⟨h.1.map fun a _ b _ hab => ⟨?_, fun hS => ?_, fun hor => ?_⟩, fun x hx => ?_⟩
  · rw [hbare, hbare, hab.bare]
  · rw [htime, htime]
    exact hab.stamped (hkey a ▸ hS)
  · rw [hkey] at hor
    rw [hshown, hshown, hab.same hor]
  · obtain ⟨a, ha, hid⟩ := h.2 x hx
    exact ⟨f a, mem_map_of_mem ha, (hkey a).trans hid⟩

end Timed

theorem appendCommit (h : Twins now now' S s t) {c : Commit} (hok : s.appendCommit now c = .ok s') :
    ∃ t', t.appendCommit now' c = .ok t' ∧
      Twins now now' (S.add (mark .commits c.id c.createdAt)) s' t' := by
  obtain ⟨hvalid, hid, hserial, rfl⟩ := appendCommit_eq_ok.mp hok
  have hcommits := h.tables .commits
  refine ⟨_, appendCommit_eq_ok.mpr ⟨hvalid, key_new hcommits.1 hid,
    all_bare hcommits.1 (fun _ => Iff.rfl) hserial, rfl⟩, fun k => ?_, h.settings⟩
  have hstamped (n : Nat) : stampedCommit n c =
      { c with createdAt := if c.createdAt = 0 then n else c.createdAt } := by
    rw [stampedCommit]
    split
    · rfl
    · rfl
  have hk := h.tables k
  cases k with
  | commits =>
    rw [hstamped, hstamped]
    exact insertTimed (fun n => { c with createdAt := n }) hcommits hid (fun _ => rfl)
      (fun _ _ => rfl) fun _ => rfl
  | _ =>
    rw [add_mark_other S (by decide)]
    exact hk

theorem putSetting (h : Twins now now' S s t) {key : String} {value : Octets}
    (hok : s.putSetting key value = .ok s') :
    ∃ t', t.putSetting key value = .ok t' ∧ Twins now now' S s' t' := by
  obtain ⟨hkey, hvalid, rfl⟩ := putSetting_eq_ok.mp hok
  refine ⟨_, putSetting_eq_ok.mpr ⟨hkey, hvalid, rfl⟩, ⟨fun k => ?_, ?_⟩⟩
  · have hk := h.tables k
    cases k <;> exact hk
  have hrest := h.settings.filter (p := fun kv => kv.1 != key) fun a b hab => by rw [hab]
  constructor
  · intro a ha
    rcases mem_cons.mp ha with rfl | ha
    · exact ⟨_, mem_cons_self, rfl⟩
    · obtain ⟨b, hb, hab⟩ := hrest.left a ha
      exact ⟨b, mem_cons_of_mem _ hb, hab⟩
  · intro b hb
    rcases mem_cons.mp hb with rfl | hb
    · exact ⟨_, mem_cons_self, rfl⟩
    · obtain ⟨a, ha, hab⟩ := hrest.right b hb
      exact ⟨a, mem_cons_of_mem _ ha, hab⟩

theorem createTSIGKey (h : Twins now now' S s t) {k : TSIGKey}
    (hok : s.createTSIGKey now k = .ok s') :
    ∃ t', t.createTSIGKey now' k = .ok t' ∧
      Twins now now' (S.add (mark .keys k.id k.createdAt)) s' t' := by
  obtain ⟨hfits, rfl⟩ := createTSIGKey_eq_ok.mp hok
  have hkeys := h.tables .keys
  refine ⟨_, createTSIGKey_eq_ok.mpr ⟨{ hfits with
    id_new := key_new hkeys.1 hfits.id_new
    name_free := all_bare hkeys.1 (fun _ => Iff.rfl) hfits.name_free }, rfl⟩, fun k' => ?_, h.settings⟩
  have hk := h.tables k'
  cases k' with
  | keys =>
    exact insertTimed (fun n => { k with createdAt := n, revokedAt := none }) hkeys hfits.id_new
      (fun _ => rfl) (fun _ _ => rfl) fun _ => rfl
  | _ =>
    rw [add_mark_other S (by decide)]
    exact hk

theorem revokeTSIGKey (h : Twins now now' S s t) {id : TSIGKeyID}
    (hok : s.revokeTSIGKey id at_ = .ok s') :
    ∃ t', t.revokeTSIGKey id at_ = .ok t' ∧ Twins now now' S s' t' := by
  obtain ⟨hex, rfl⟩ := revokeTSIGKey_eq_ok.mp hok
  have hkeys := h.tables .keys
  refine ⟨_, revokeTSIGKey_eq_ok.mpr ⟨exists_key hkeys.1 hex, rfl⟩, fun k => ?_, h.settings⟩
  have hk := h.tables k
  cases k with
  | keys =>
    refine amend hkeys ?_ ?_ ?_ ?_ <;>
    · intro o
      by_cases hlive : o.id = id ∧ o.revokedAt = none <;>
        simp [TSIGKey.clocked, TSIGKey.erase, hlive]
  | _ => exact hk

theorem createToken (h : Twins now now' S s t) {k : Token} (hok : s.createToken now k = .ok s') :
    ∃ t', t.createToken now' k = .ok t' ∧
      Twins now now' (S.add (mark .tokens k.id k.createdAt)) s' t' := by
  obtain ⟨hfits, rfl⟩ := createToken_eq_ok.mp hok
  have htokens := h.tables .tokens
  refine ⟨_, createToken_eq_ok.mpr ⟨{ hfits with
    id_new := key_new htokens.1 hfits.id_new
    hash_new := all_bare htokens.1 (fun _ => Iff.rfl) hfits.hash_new }, rfl⟩, fun k' => ?_, h.settings⟩
  have hk := h.tables k'
  cases k' with
  | tokens =>
    exact insertTimed (fun n => { k with createdAt := n }) htokens hfits.id_new
      (fun _ => rfl) (fun _ _ => rfl) fun _ => rfl
  | _ =>
    rw [add_mark_other S (by decide)]
    exact hk

theorem revokeToken (h : Twins now now' S s t) {id : TokenID}
    (hok : s.revokeToken id at_ = .ok s') :
    ∃ t', t.revokeToken id at_ = .ok t' ∧ Twins now now' S s' t' := by
  obtain ⟨hex, rfl⟩ := revokeToken_eq_ok.mp hok
  have htokens := h.tables .tokens
  refine ⟨_, revokeToken_eq_ok.mpr ⟨exists_key htokens.1 hex, rfl⟩, fun k => ?_, h.settings⟩
  have hk := h.tables k
  cases k with
  | tokens =>
    refine amend htokens ?_ ?_ ?_ ?_ <;>
    · intro o
      by_cases hlive : o.id = id ∧ o.revokedAt = none <;>
        simp [Token.clocked, Token.erase, Token.unused, hlive]
  | _ => exact hk

theorem zoneByID (h : Twins now now' S s t) (ht : t.Sound)
    (hok : s.zoneByID id = .ok z) : ∃ z', t.zoneByID id = .ok z' ∧ z.erase = z'.erase := by
  rw [zoneByID_eq_ok] at hok
  have hid : z.id = id := by simpa using find?_some hok
  obtain ⟨z', hz', hab⟩ := h.zones.left z (mem_of_find?_eq_some hok)
  exact ⟨z', ht.zoneByID_eq_ok.mpr ⟨hz', hab.key.symm.trans hid⟩, hab.bare⟩

end Twins

end Store

end Wegweiser
