/-
The replicated content of a store as it is streamed out, table by table in the order of
the columns the source sorts by, and put back in one transaction.

What is streamed out of a store whose tables are in order goes back in row by row, with
the foreign keys looked at once everything is in.
-/
import Wegweiser.Lib.Sorted
import Wegweiser.Store.Schema

namespace Wegweiser

open Checked Rows List Bool Token

def Name.sortKey (n : Name) : List Nat :=
  n.labels.reverse.flatMap fun label =>
    (label.flatMap fun c => if c = 0 then [0, 255] else [c.toNat]) ++ [0, 0]

def Ident.sortKey : Ident → List Nat
  | empty => []
  | ulid value => [1, value]
  | other number => [2, number]

theorem Ident.sortKey_inj {a b : Ident} (h : a.sortKey = b.sortKey) : a = b := by
  cases a <;> cases b <;> simp_all [sortKey]

/-- `ORDER BY sort_key, id` -/
def Zone.listKey (z : Zone) : List (List Nat) := [z.name.sortKey, z.id.sortKey]

/-- `ORDER BY zone_id, sort_key, rrtype, id` -/
def Record.listKey (r : Record) : List (List Nat) :=
  [r.zoneID.sortKey, r.name.sortKey, [r.type.toNat], r.id.sortKey]

/-- `ORDER BY id` -/
def Commit.listKey (c : Commit) : List Nat := c.id.sortKey

/-- `ORDER BY created_at, id` -/
def TSIGKey.listKey (k : TSIGKey) : List Nat := k.createdAt :: k.id.sortKey

/-- `ORDER BY created_at, id` -/
def Token.listKey (t : Token) : List Nat := t.createdAt :: t.id.sortKey

/-- `ORDER BY key` -/
def settingKey (kv : String × Octets) : List Nat := kv.1.toList.map Char.toNat

def Token.unused (t : Token) : Token := { t with lastUsedAt := none }

namespace Store

def sorted (s : Store) : Store where
  zones := sortOn Zone.listKey s.zones
  records := sortOn Record.listKey s.records
  commits := sortOn Commit.listKey s.commits
  settings := (sortOn settingKey s.settings).reverse
  keys := sortOn TSIGKey.listKey s.keys
  tokens := sortOn listKey s.tokens
  appliedIndex := s.appliedIndex

/-- `Reader.ExportReplicated`, in its order. -/
def listing (s : Store) : List Replicated := s.sorted.exportReplicated

/-- The rows come in the order of their tables from `exportReplicated`, and sorted in each table
from the stream. -/
theorem listing_perm (s : Store) : s.listing.Perm s.exportReplicated := by
  have hsettings : (sortOn settingKey s.settings).Perm s.settings.reverse :=
    (sortOn_perm settingKey s.settings).trans (reverse_perm s.settings).symm
  simp only [listing, exportReplicated, sorted, reverse_reverse]
  exact (((((hsettings.map _).append ((sortOn_perm listKey s.tokens).map _)).append
    ((sortOn_perm TSIGKey.listKey s.keys).map _)).append
    ((sortOn_perm Zone.listKey s.zones).map _)).append
    ((sortOn_perm Record.listKey s.records).map _)).append
    ((sortOn_perm Commit.listKey s.commits).map _)

def restored (s : Store) (index : Nat) : Store :=
  { s.sorted with tokens := s.sorted.tokens.map unused, appliedIndex := index }

variable {s : Store}

theorem settingKey_inj {a b : String × Octets} (h : settingKey a = settingKey b) : a.1 = b.1 := by
  have hlist : a.1.toList = b.1.toList :=
    map_injective_iff.mpr (fun _ _ heq => Char.toNat_inj.mp heq) h
  exact String.toList_inj.mp hlist

theorem KeysSettings.inj (h : s.KeysSettings) :
    ∀ a ∈ s.settings, ∀ b ∈ s.settings, settingKey a = settingKey b → a = b := by
  intro a ha b hb heq
  exact inj_on_of_nodup_map h ha hb (settingKey_inj heq)

theorem sorted_restored (h : s.KeysSettings) (index : Nat) :
    (s.restored index).sorted = s.restored index := by
  have hsettings : sortOn settingKey (sortOn settingKey s.settings).reverse =
      sortOn settingKey s.settings := by
    refine (sortOn_eq_of_perm h.inj ?_).symm
    exact ((reverse_perm _).trans (sortOn_perm settingKey s.settings)).symm
  have htokens : sortOn listKey ((sortOn listKey s.tokens).map unused) =
      (sortOn listKey s.tokens).map unused := by
    rw [← map_sortOn listKey listKey unused fun _ => rfl, sortOn_sortOn]
  simp only [restored, sorted, sortOn_sortOn, hsettings, htokens]

theorem listing_restored (h : s.KeysSettings) (index : Nat) :
    (s.restored index).listing = s.listing := by
  rw [listing, sorted_restored h, listing, exportReplicated, exportReplicated, restored,
    map_map]
  rfl

/-- The rows of two stores that are streamed out. -/
structure SameRows (s t : Store) : Prop where
  settings : ∀ kv, kv ∈ s.settings ↔ kv ∈ t.settings
  tokens : ∀ k, k ∈ s.tokens.map unused ↔ k ∈ t.tokens.map unused
  keys : ∀ k, k ∈ s.keys ↔ k ∈ t.keys
  zones : ∀ z, z ∈ s.zones ↔ z ∈ t.zones
  records : ∀ r, r ∈ s.records ↔ r ∈ t.records
  commits : ∀ c, c ∈ s.commits ↔ c ∈ t.commits

theorem sameRows_of_listing_eq {t : Store} (h : s.listing = t.listing) : s.SameRows t := by
  have hmem : ∀ item, item ∈ s.listing ↔ item ∈ t.listing := fun item => by rw [h]
  simp only [listing, exportReplicated, sorted, mem_append, mem_map,
    mem_sortOn, reverse_reverse] at hmem
  constructor
  · intro kv
    simpa using hmem (.setting kv.1 kv.2)
  · intro k
    simpa [unused] using hmem (.token k)
  · intro k
    simpa using hmem (.key k)
  · intro z
    simpa using hmem (.zone z)
  · intro r
    simpa using hmem (.record r)
  · intro c
    simpa using hmem (.commit c)

theorem sortOn_eq_of_mem {α κ γ : Type} [LinearOrder κ] {key : α → κ} {ident : α → γ}
    {l l' : List α} (hl : (l.map ident).Nodup) (hl' : (l'.map ident).Nodup)
    (hkey : ∀ a b, key a = key b → ident a = ident b) (h : ∀ a, a ∈ l ↔ a ∈ l') :
    sortOn key l = sortOn key l' := by
  refine sortOn_eq_of_perm (fun a ha b hb hab => ?_) ?_
  · exact inj_on_of_nodup_map hl ha hb (hkey a b hab)
  · exact (perm_ext_iff_of_nodup (.of_map _ hl) (.of_map _ hl')).mpr h

theorem listing_eq_iff {t : Store} (hs : s.Schema) (ht : t.Schema) :
    s.listing = t.listing ↔ s.SameRows t := by
  constructor
  · exact sameRows_of_listing_eq
  · intro h
    have hsettings : sortOn settingKey s.settings = sortOn settingKey t.settings :=
      sortOn_eq_of_mem hs.setting_keys ht.setting_keys (fun _ _ => settingKey_inj) h.settings
    have hkeys : sortOn TSIGKey.listKey s.keys = sortOn TSIGKey.listKey t.keys :=
      sortOn_eq_of_mem hs.key_ids ht.key_ids
        (fun _ _ hab => Ident.sortKey_inj (cons.inj hab).2) h.keys
    have hzones : sortOn Zone.listKey s.zones = sortOn Zone.listKey t.zones :=
      sortOn_eq_of_mem hs.zone_ids ht.zone_ids
        (fun _ _ hab => Ident.sortKey_inj (by simp_all [Zone.listKey])) h.zones
    have hrecords : sortOn Record.listKey s.records = sortOn Record.listKey t.records :=
      sortOn_eq_of_mem hs.record_ids ht.record_ids
        (fun _ _ hab => Ident.sortKey_inj (by simp_all [Record.listKey])) h.records
    have hcommits : sortOn Commit.listKey s.commits = sortOn Commit.listKey t.commits :=
      sortOn_eq_of_mem hs.commit_ids ht.commit_ids (fun _ _ => Ident.sortKey_inj) h.commits
    have htokens : (sortOn listKey s.tokens).map unused =
        (sortOn listKey t.tokens).map unused := by
      have hunused : ∀ u : Store, (u.tokens.map Token.unused).map Token.id =
          u.tokens.map Token.id := fun u => map_map
      rw [map_sortOn listKey listKey unused fun _ => rfl,
        map_sortOn listKey listKey unused fun _ => rfl]
      refine sortOn_eq_of_mem ?_ ?_
        (fun _ _ hab => Ident.sortKey_inj (cons.inj hab).2) h.tokens
      · rw [hunused]
        exact hs.token_ids
      · rw [hunused]
        exact ht.token_ids
    have hlisted : ∀ l : List Token, l.map (fun t => Replicated.token { t with lastUsedAt := none }) =
        (l.map unused).map Replicated.token := fun l => by rw [map_map]; rfl
    simp only [listing, sorted, exportReplicated, hlisted, hsettings, hkeys, hzones, hrecords,
      hcommits, htokens]

section Rows

variable {now : Nat}

theorem restoreRows_ok {α : Type} {item : α → Replicated} (put : List α → Store) {l : List α}
    {u : Store} (hnil : put [] = u) (hstep : ∀ front a back, l = front ++ a :: back →
      restoreItem now (put front) (item a) = .ok (put (front ++ [a]))) :
    (l.map item).foldlM (restoreItem now) u = .ok (put l) := by
  have hrun : ∀ back front, l = front ++ back →
      (back.map item).foldlM (restoreItem now) (put front) = .ok (put l) := by
    intro back
    induction back with
    | nil =>
      intro front hl
      rw [hl, append_nil]
      rfl
    | cons a back ih =>
      intro front hl
      rw [map_cons, foldlM_cons_eq_ok]
      refine ⟨_, hstep front a back hl, ih (front ++ [a]) ?_⟩
      rw [hl, append_assoc]
      rfl
  exact hnil ▸ hrun l [] rfl

theorem ne_of_nodup {α β : Type} {f : α → β} {l front back : List α} {a : α}
    (h : (l.map f).Nodup) (hl : l = front ++ a :: back) : ∀ o ∈ front, f o ≠ f a := by
  intro o ho heq
  rw [hl, map_append, map_cons, nodup_append] at h
  exact h.2.2 (f o) (mem_map_of_mem ho) (f a) mem_cons_self heq

theorem nodup_sortOn {α β κ : Type} [LinearOrder κ] {key : α → κ} {f : α → β} {l : List α}
    (h : (l.map f).Nodup) : ((sortOn key l).map f).Nodup :=
  ((sortOn_perm key l).map f).nodup_iff.mpr h

variable (h : s.Schema) (htimed : s.Timed)

include h in
theorem restoreSettings_ok (u : Store) (hu : u.settings = []) :
    ((sortOn settingKey s.settings).map fun kv => Replicated.setting kv.1 kv.2).foldlM
      (restoreItem now) u = .ok { u with settings := (sortOn settingKey s.settings).reverse } := by
  refine restoreRows_ok (fun l => { u with settings := l.reverse }) (by cases u; cases hu; rfl)
    fun front kv back hl => ?_
  have hmem : kv ∈ s.settings := mem_sortOn.mp (hl ▸ mem_append_right _ mem_cons_self)
  obtain ⟨hkey, hvalid⟩ := h.settings kv hmem
  refine putSetting_eq_ok.mpr ⟨hkey, hvalid, ?_⟩
  have hkept : (front.reverse.filter fun o => o.1 != kv.1) = front.reverse := by
    refine filter_eq_self.mpr fun o ho => bne_iff_ne.mpr ?_
    exact ne_of_nodup (nodup_sortOn h.setting_keys) hl o (mem_reverse.mp ho)
  simp only [hkept, reverse_append, reverse_singleton, singleton_append]

include h htimed in
theorem restoreTokens_ok (u : Store) (hu : u.tokens = []) :
    ((sortOn listKey s.tokens).map fun t => Replicated.token t.unused).foldlM
      (restoreItem now) u =
        .ok { u with tokens := (sortOn listKey s.tokens).map unused } := by
  refine restoreRows_ok (fun l => { u with tokens := l.map unused }) (by cases u; cases hu; rfl)
    fun front t back hl => ?_
  have hmem : t ∈ s.tokens := mem_sortOn.mp (hl ▸ mem_append_right _ mem_cons_self)
  obtain ⟨hid, hhash⟩ := h.tokens t hmem
  refine createToken_eq_ok.mpr ⟨⟨hid, hhash, fun o ho => ?_, fun o ho => ?_⟩, ?_⟩
  · obtain ⟨p, hp, rfl⟩ := mem_map.mp ho
    exact ne_of_nodup (nodup_sortOn h.token_ids) hl p hp
  · obtain ⟨p, hp, rfl⟩ := mem_map.mp ho
    exact ne_of_nodup (nodup_sortOn h.token_hashes) hl p hp
  · rw [map_append, show t.unused.createdAt = t.createdAt from rfl,
      if_neg (htimed.tokens t hmem)]
    rfl

include h htimed in
theorem restoreKeys_ok (u : Store) (hu : u.keys = []) :
    ((sortOn TSIGKey.listKey s.keys).map Replicated.key).foldlM (restoreItem now) u =
      .ok { u with keys := sortOn TSIGKey.listKey s.keys } := by
  refine restoreRows_ok (fun l => { u with keys := l }) (by cases u; cases hu; rfl)
    fun front k back hl => ?_
  have hmem : k ∈ s.keys := mem_sortOn.mp (hl ▸ mem_append_right _ mem_cons_self)
  obtain ⟨hid, hsecret⟩ := h.keys k hmem
  have hnone : (front.any fun o => o.id == k.id ||
      (o.name == k.name && o.revokedAt.isNone && k.revokedAt.isNone)) = false := by
    rw [any_eq_false]
    intro o ho
    rw [or_eq_true, and_eq_true, and_eq_true, beq_iff_eq, beq_iff_eq]
    rintro (hsame | ⟨⟨hname, holive⟩, hklive⟩)
    · exact ne_of_nodup (nodup_sortOn h.key_ids) hl o ho hsame
    · -- among the keys that sign, a name stands once
      have hlive : (sortOn TSIGKey.listKey s.keys).filter (fun k => k.revokedAt.isNone) =
          front.filter (fun k => k.revokedAt.isNone) ++
            k :: back.filter fun k => k.revokedAt.isNone := by
        rw [hl, filter_append, filter_cons, if_pos hklive]
      have hnames : (((sortOn TSIGKey.listKey s.keys).filter
          fun k => k.revokedAt.isNone).map TSIGKey.name).Nodup :=
        (((sortOn_perm TSIGKey.listKey s.keys).filter _).map TSIGKey.name).nodup_iff.mpr h.key_names
      exact ne_of_nodup hnames hlive o (mem_filter.mpr ⟨ho, holive⟩) hname
  simp only [restoreItem, restoreKey, bind_eq_ok, pure_eq_ok, ensure_eq_ok, bne_iff_ne,
    and_eq_true, beq_iff_eq, not_eq_true']
  exact ⟨⟨⟩, htimed.keys k hmem, ⟨⟩, ⟨hid, hsecret⟩, ⟨⟩, hnone, trivial⟩

include h htimed in
theorem restoreZones_ok (u : Store) (hu : u.zones = []) :
    ((sortOn Zone.listKey s.zones).map Replicated.zone).foldlM (restoreItem now) u =
      .ok { u with zones := sortOn Zone.listKey s.zones } := by
  refine restoreRows_ok (fun l => { u with zones := l }) (by cases u; cases hu; rfl)
    fun front z back hl => ?_
  have hmem : z ∈ s.zones := mem_sortOn.mp (hl ▸ mem_append_right _ mem_cons_self)
  have hnone : (front.any fun o => o.id == z.id || o.name == z.name) = false := by
    rw [any_eq_false]
    intro o ho
    rw [or_eq_true, beq_iff_eq, beq_iff_eq]
    rintro (hsame | hsame)
    · exact ne_of_nodup (nodup_sortOn h.zone_ids) hl o ho hsame
    · exact ne_of_nodup (nodup_sortOn h.zone_names) hl o ho hsame
  simp [restoreItem, restoreZone, ensure, h.zones z hmem, htimed.zones z hmem, hnone]

include h htimed in
theorem restoreRecords_ok (u : Store) (hu : u.records = []) :
    ((sortOn Record.listKey s.records).map Replicated.record).foldlM (restoreItem now) u =
      .ok { u with records := sortOn Record.listKey s.records } := by
  refine restoreRows_ok (fun l => { u with records := l }) (by cases u; cases hu; rfl)
    fun front r back hl => ?_
  have hmem : r ∈ s.records := mem_sortOn.mp (hl ▸ mem_append_right _ mem_cons_self)
  have hnone : (front.any fun o => o.id == r.id || o.unique == r.unique) = false := by
    rw [any_eq_false]
    intro o ho
    rw [or_eq_true, beq_iff_eq, beq_iff_eq]
    rintro (hsame | hsame)
    · exact ne_of_nodup (nodup_sortOn h.record_ids) hl o ho hsame
    · exact ne_of_nodup (nodup_sortOn h.record_contents) hl o ho hsame
  simp [restoreItem, restoreRecord, ensure, h.records r hmem, htimed.records r hmem, hnone]

include h htimed in
theorem restoreCommits_ok (u : Store) (hu : u.commits = []) :
    ((sortOn Commit.listKey s.commits).map Replicated.commit).foldlM (restoreItem now) u =
      .ok { u with commits := sortOn Commit.listKey s.commits } := by
  refine restoreRows_ok (fun l => { u with commits := l }) (by cases u; cases hu; rfl)
    fun front c back hl => ?_
  have hmem : c ∈ s.commits := mem_sortOn.mp (hl ▸ mem_append_right _ mem_cons_self)
  refine appendCommit_eq_ok.mpr ⟨h.commits c hmem, fun o ho => ?_, fun o ho hzone hserial => ?_, ?_⟩
  · exact ne_of_nodup (nodup_sortOn h.commit_ids) hl o ho
  · exact ne_of_nodup (nodup_sortOn h.commit_serials) hl o ho (Prod.ext hzone hserial)
  · rw [stampedCommit, if_neg (htimed.commits c hmem)]

end Rows

theorem referenced_restored (h : s.Schema) (index : Nat) : (s.restored index).referenced = true := by
  rw [referenced, all_eq_true]
  intro r hr
  have hmem : r ∈ s.records := mem_sortOn.mp hr
  rw [and_eq_true, or_eq_true, any_eq_true, any_eq_true, beq_iff_eq]
  constructor
  · obtain ⟨z, hz, hid⟩ := h.record_zones r hmem
    exact ⟨z, mem_sortOn.mpr hz, beq_iff_eq.mpr hid⟩
  · by_cases hmanaged : r.managedBy = .empty
    · exact .inl hmanaged
    · obtain ⟨o, ho, hid⟩ := h.record_sources r hmem hmanaged
      exact .inr ⟨o, mem_sortOn.mpr ho, beq_iff_eq.mpr hid⟩

theorem replaceReplicated_listing (h : s.Schema) (htimed : s.Timed) (target : Store) (now : Nat)
    {index : Nat} (hindex : index ≠ 0) (hfits : index ≤ 2 ^ 63 - 1) :
    target.replaceReplicated now index s.listing = .ok (s.restored index) := by
  have hrows : s.listing.foldlM (restoreItem now) ⟨[], [], [], [], [], [], target.appliedIndex⟩ =
      .ok { s.restored index with appliedIndex := target.appliedIndex } := by
    simp only [listing, exportReplicated, sorted, reverse_reverse, foldlM_append_eq_ok]
    refine ⟨_, ⟨_, ⟨_, ⟨_, ⟨_, restoreSettings_ok h _ rfl, restoreTokens_ok h htimed _ rfl⟩,
      restoreKeys_ok h htimed _ rfl⟩, restoreZones_ok h htimed _ rfl⟩,
      restoreRecords_ok h htimed _ rfl⟩, restoreCommits_ok h htimed _ rfl⟩
  simp only [replaceReplicated, bind_eq_ok, pure_eq_ok, ensure_eq_ok, bne_iff_ne]
  refine ⟨⟨⟩, hindex, _, hrows, _, setAppliedIndex_eq_ok.mpr ⟨hindex, hfits, rfl⟩, ⟨⟩, ?_, rfl⟩
  exact referenced_restored h index

end Store

end Wegweiser
