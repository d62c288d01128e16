/-
A listing followed from its first page to its last.

What the conditions of a query ask of a row is compared with what the fields of the filter say.
-/
import Wegweiser.Apply.Operation
import Wegweiser.Apply.Snapshot
import Wegweiser.Store.Pages

namespace Wegweiser

open Checked (bind_eq_ok)
open Json Pages Rows Option Record CursorKey Name

namespace CursorKey

variable {sp : Spelling} {c : CursorKey}

def carried (c : CursorKey) : CursorKey := { c with sort := c.sort.filter fun b => !b.isEmpty }

theorem sortField_good (n : Nat) : sortField.Good n fun s => s ≠ some [] := by
  constructor
  · rintro s t - h
    intro x hx
    rw [sortField] at h
    dsimp only at h
    split at h
    · obtain rfl := some.inj h
      cases hx
    · obtain ⟨text, htext, rfl⟩ := map_eq_some_iff.mp h
      obtain rfl := mem_some_iff.mp hx
      exact (Format.bytes_writes n _ _ trivial htext).1
  · rintro s t hs h
    rw [sortField] at h ⊢
    dsimp only at h ⊢
    split at h
    · rename_i hempty
      obtain rfl := some.inj h
      cases s with
      | none => rfl
      | some b => exact absurd (congrArg some (List.isEmpty_iff.mp hempty)) hs
    · rename_i hne
      obtain ⟨text, htext, rfl⟩ := map_eq_some_iff.mp h
      cases s with
      | none => exact absurd rfl hne
      | some b =>
        rw [orZero_of_ne (Format.bytes_writes n _ _ trivial htext).2,
          Format.bytes_reads b text trivial htext]
        rfl

theorem typeNumber_good (n : Nat) : typeNumber.Good n fun _ => True :=
  Format.Good.via ⟨Format.uint_writes 16 n, Format.uint_reads 16⟩ _ _ fun t _ =>
    ⟨t.toNat_lt, by rw [UInt16.ofNat_toNat]⟩

theorem fields_good (hsp : sp.Lawful) (n : Nat) : (fields sp).Good n fun c =>
    True ∧ c.2.1 ≠ some [] ∧ True ∧ (-2 ^ 63 ≤ c.2.2.2.1 ∧ c.2.2.2.1 < 2 ^ 63) ∧ True ∧ True :=
  .cons (.always (Wire.text_good n) _) <| .cons (sortField_good n) <|
    .cons (.omitting (typeNumber_good n) _) <|
    .cons (.omitting ⟨Format.int_writes 64 n, Format.int_reads 63⟩ _) <|
    .cons (.always (Wire.ident_good hsp n) _) (.nil n)

theorem fieldNames (sp : Spelling) : FieldNames (fields sp).names := by
  change FieldNames ["k", "s", "t", "m", "i"]
  decide +kernel

theorem sortField_put (s : Option Octets) : ∃ text, sortField.put s = some text ∧
    sortField.put (s.filter fun b => !b.isEmpty) = some text := by
  cases s with
  | none => exact ⟨none, rfl, rfl⟩
  | some b =>
    cases b with
    | nil => exact ⟨none, rfl, rfl⟩
    | cons c b => exact ⟨_, rfl, rfl⟩

theorem write_eq_some (sp : Spelling) (c : CursorKey) : ∃ text, (format sp).write c = some text ∧
    (format sp).write c.carried = some text := by
  obtain ⟨sort, hsort, hcarried⟩ := sortField_put c.sort
  have hput (s : Option Octets) (hs : sortField.put s = some sort) :
      (format sp).write { c with sort := s } = some (object (fields sp).names
        [some (quote (octetsOf c.kind)), sort,
          if c.type = 0 then none else some (decimal c.type.toNat),
          if c.millis = 0 then none
          else some (if c.millis < 0 then 45 :: decimal c.millis.natAbs else decimal c.millis.toNat),
          some (quote (sp.ident c.id))]) := by
    simp only [format, Format.strict, Format.struct, fields, Fields.cons, hs, bind_some]
    split_ifs <;> simp [Json.Field.always, Json.Field.omitting, Format.text, Format.string,
      Format.via, Wire.ident, Fields.nil, typeNumber, Format.uint, Format.int, *]
  exact ⟨_, hput c.sort hsort, hput _ hcarried⟩

theorem encode_ne_nil (sp : Spelling) (c : CursorKey) : c.encode sp ≠ [] := by
  obtain ⟨text, htext, -⟩ := write_eq_some sp c
  obtain ⟨texts, -, hobject⟩ := map_eq_some_iff.mp htext
  rw [encode, htext, ← hobject]
  exact Base64.encodeURL_ne_nil (List.cons_ne_nil _ _)

theorem format_good (hsp : sp.Lawful) : (format sp).Good 1 fun c =>
    c.sort ≠ some [] ∧ -2 ^ 63 ≤ c.millis ∧ c.millis < 2 ^ 63 :=
  (fields_good hsp 2).strict (fieldNames sp) (by decide) (fun _ _ => rfl) fun _ hc =>
    ⟨trivial, hc.1, trivial, hc.2, trivial, trivial⟩

theorem decodeCursor_encode (hsp : sp.Lawful) (hid : c.id ≠ .empty)
    (hmillis : -2 ^ 63 ≤ c.millis ∧ c.millis < 2 ^ 63) :
    decodeCursor sp (c.encode sp) c.kind = .ok c.carried := by
  obtain ⟨text, htext, hcarried⟩ := write_eq_some sp c
  have hsort : c.carried.sort ≠ some [] := by
    rw [carried]
    cases c.sort with
    | none => simp
    | some b => cases b <;> simp [Option.filter]
  have hread := (format_good hsp).reads c.carried text ⟨hsort, hmillis⟩ hcarried
  have hline : Line 1 text := by
    refine ⟨((format_good hsp).writes c text trivial htext).1, ?_⟩
    obtain ⟨texts, -, rfl⟩ := map_eq_some_iff.mp htext
    rfl
  have hdecode : Json.decode (format sp) text = .value c.carried [] := by
    have hdecode := decode_line_of_read hline delimits_nil hread
    rwa [List.append_nil] at hdecode
  have hempty : (c.encode sp).isEmpty = false := by simpa using encode_ne_nil sp c
  rw [decodeCursor, hempty, if_neg Bool.false_ne_true, encode, htext, elim_some,
    Base64.decodeURL_encodeURL, map_some, hdecode]
  exact if_neg (by simp [carried, hid])

end CursorKey

section Conditions

variable {α β : Type} {r : α}

theorem given_all (b : Bool) (cond : α → Bool) :
    (given b cond).all (· r) = true ↔ (b = true → cond r = true) := by
  cases b <;> simp [given]

theorem givenSome_all (o : Option β) (cond : β → α → Bool) :
    (givenSome o cond).all (· r) = true ↔ ∀ x ∈ o, cond x r = true := by
  cases o <;> simp [givenSome]

theorem instrFrom_pos {needle : Octets} {i : Nat} (hi : 0 < i) (s : Octets) :
    0 < instrFrom needle i s ↔ needle <:+: s := by
  induction s generalizing i with
  | nil =>
    rw [instrFrom, List.infix_nil]
    split <;> simp_all
  | cons c s ih =>
    rw [instrFrom, List.infix_cons_iff, ← ih (Nat.succ_pos i)]
    split
    · simp_all
    · simp_all

theorem foundIn_iff (needle column : Octets) :
    foundIn needle column = true ↔ needle <:+: column.map lowerASCII := by
  rw [foundIn, decide_eq_true_iff, instrFrom_pos Nat.one_pos]

end Conditions

theorem Name.string_inj {n m : Name} : n.string = m.string ↔ n = m :=
  ⟨string_injective, congrArg string⟩

theorem Name.map_sortKeyOctets (n : Name) : n.sortKeyOctets.map UInt8.toNat = n.sortKey := by
  have hoctet (c : UInt8) : (if c = 0 then [c, 255] else [c]).map UInt8.toNat =
      if c = 0 then [0, 255] else [c.toNat] := by
    split
    · rename_i hc
      rw [hc]
      rfl
    · rfl
  simp only [sortKeyOctets, sortKey, List.map_flatMap, List.map_append, hoctet]
  rfl

theorem Name.sortKeyOctets_eq_nil {n : Name} : n.sortKeyOctets = [] ↔ n = root := by
  constructor
  · intro h
    refine ext_labels (List.reverse_eq_nil_iff.mp ?_)
    cases hlabels : n.labels.reverse with
    | nil => rfl
    | cons label labels => simp [sortKeyOctets, hlabels] at h
  · rintro rfl
    rfl

theorem upperBound_eq_none {n : Name} : upperBound n.sortKeyOctets = none ↔ n = root := by
  rw [← sortKeyOctets_eq_nil]
  constructor
  · intro h
    by_contra hne
    obtain ⟨label, labels, hlabels⟩ : ∃ label labels, n.labels = label :: labels := by
      refine List.exists_cons_of_ne_nil fun hnil => hne ?_
      rw [sortKeyOctets, hnil]
      rfl
    -- the key ends in a zero, which there is always something above
    rw [upperBound, sortKeyOctets, hlabels, List.reverse_cons, List.flatMap_append,
      List.flatMap_singleton, List.reverse_append, List.reverse_append] at h
    cases h
  · intro h
    rw [h]
    rfl

namespace RecordFilter

variable {sp : Spelling} {d : Driver} {f : RecordFilter} {r : Record}

/-- Where a filter looks for records. -/
structure InScope (f : RecordFilter) (r : Record) : Prop where
  zone : f.zoneID ≠ .empty → r.zoneID = f.zoneID
  name : ∀ n ∈ f.name, r.name = n
  under : ∀ n ∈ f.under, r.name.isSubDomainOf n = true

/-- Which records there a filter asks for. -/
@[mk_iff]
structure Picks (d : Driver) (f : RecordFilter) (r : Record) : Prop where
  types : f.types ≠ [] → r.type ∈ f.types
  network : ∀ p ∈ f.netPrefix, ∃ a ∈ r.address, p.contains a.column = true
  search : f.search ≠ [] → d.toLower f.search <:+: r.name.string.map lowerASCII ∨
    d.toLower f.search <:+: r.rdata.text.map lowerASCII
  managed : ∀ managed ∈ f.managed, managed = true ↔ r.managedBy ≠ .empty

theorem restConditions_all : (f.restConditions d).all (· r) = true ↔ f.Picks d r := by
  have hnetwork (p : Prefix) :
      addrBetween (prefixBounds p) (r.address.map fun a => a.column.octets) = true ↔
        ∃ a ∈ r.address, p.contains a.column = true := by
    cases r.address with
    | none => simp [addrBetween]
    | some a => simp [addrBetween_prefixBounds]
  have hmanaged (managed : Bool) :
      (if managed then r.managedBy != .empty else r.managedBy == .empty) = true ↔
        (managed = true ↔ r.managedBy ≠ .empty) := by
    cases managed <;> simp
  simp only [restConditions, List.all_flatten, List.all_cons, List.all_nil, Bool.and_true,
    Bool.and_eq_true, given_all, givenSome_all, hnetwork, hmanaged, Bool.or_eq_true, foundIn_iff,
    List.contains_iff_mem, Bool.not_eq_true', List.isEmpty_eq_false_iff]
  exact (picks_iff d f r).symm

theorem firstConditions_all (after : CursorKey) (h : ∀ n ∈ f.under, r.name.isSubDomainOf n = true) :
    (f.firstConditions d after).all (· r) = true ↔
      (f.afterCursor d after).all (· r) = true ∧ f.InScope r := by
  simp only [firstConditions, List.all_flatten, List.all_cons, List.all_nil, Bool.and_true,
    Bool.and_eq_true, given_all, givenSome_all, bne_iff_ne, beq_iff_eq, string_inj]
  exact ⟨fun ⟨hafter, hzone, hname⟩ => ⟨hafter, hzone, hname, h⟩,
    fun ⟨hafter, hscope⟩ => ⟨hafter, hscope.zone, hscope.name⟩⟩

theorem conditions_all (after : CursorKey) : (f.conditions d after).all (· r) = true ↔
    (f.afterCursor d after).all (· r) = true ∧ f.InScope r ∧
      (f.under ≠ some root → f.Picks d r) := by
  rw [conditions]
  cases hunder : f.under with
  | none =>
    dsimp only
    rw [List.all_append, Bool.and_eq_true, firstConditions_all after (by simp [hunder]),
      restConditions_all]
    simp [and_assoc]
  | some n =>
    dsimp only
    cases hbound : upperBound n.sortKeyOctets with
    | none =>
      obtain rfl := upperBound_eq_none.mp hbound
      dsimp only
      rw [firstConditions_all]
      · simp
      · simp [hunder, isSubDomainOf, root]
    | some high =>
      have hne : n ≠ root := fun h => by simp [upperBound_eq_none.mpr h] at hbound
      have hrange : (compareOctets n.sortKeyOctets r.name.sortKeyOctets != .gt &&
          compareOctets r.name.sortKeyOctets high == .lt) = true ↔
            r.name.isSubDomainOf n = true := by
        rw [← r.name.sortKeyOctets_begins n, ← inBranch_iff, inBranch, hbound]
        rfl
      dsimp only
      rw [List.all_append, List.all_append, Bool.and_eq_true, Bool.and_eq_true,
        restConditions_all, List.all_cons, List.all_nil, Bool.and_true, hrange]
      constructor
      · rintro ⟨⟨hfirst, hin⟩, hpicks⟩
        obtain ⟨hafter, hscope⟩ := (firstConditions_all after (by simpa [hunder] using hin)).mp hfirst
        exact ⟨hafter, hscope, fun _ => hpicks⟩
      · rintro ⟨hafter, hscope, hpicks⟩
        exact ⟨⟨(firstConditions_all after hscope.under).mpr ⟨hafter, hscope⟩,
          hscope.under n hunder⟩, hpicks (by simpa using hne)⟩

def listing (f : RecordFilter) (rows : List Record) : List Record :=
  if f.name.isNone then sortOn order rows else sortOn orderAtName rows

end RecordFilter

theorem Driver.blob_carried {d : Driver} {sort : Octets} (h : ¬(d.nilIsNull = true ∧ sort = [])) :
    d.blob ((some sort).filter fun b => !b.isEmpty) = some sort := by
  cases sort with
  | nil =>
    change (if d.nilIsNull then none else some []) = some []
    exact if_neg (by simpa using h)
  | cons c sort => rfl

theorem Driver.blob_root {d : Driver} (h : d.nilIsNull = true) :
    d.blob ((some root.sortKeyOctets).filter fun b => !b.isEmpty) = none := by
  change (if d.nilIsNull then none else some []) = none
  exact if_pos h

namespace RecordFilter

variable {sp : Spelling} {d : Driver} {f : RecordFilter} {r a : Record}

theorem afterCursor_of_name_none (hname : f.name = none) (hid : a.id ≠ .empty)
    (h : ¬(d.nilIsNull = true ∧ a.name = root)) :
    (f.afterCursor d a.cursorKey.carried).all (· r) = decide (a.order < r.order) := by
  have hblob : d.blob a.cursorKey.carried.sort = some a.name.sortKeyOctets :=
    Driver.blob_carried (by rwa [sortKeyOctets_eq_nil])
  have hkey : [a.name.sortKeyOctets.map UInt8.toNat, [a.cursorKey.carried.type.toNat],
      a.cursorKey.carried.id.sortKey] = a.order := by
    rw [a.name.map_sortKeyOctets]
    rfl
  have hid : a.cursorKey.carried.id ≠ .empty := hid
  rw [afterCursor, if_neg hid, hname]
  simp only [isNone_none, if_true, hblob, hkey, List.all_cons, List.all_nil, Bool.and_true]

theorem afterCursor_of_name (hname : f.name ≠ none) (hid : a.id ≠ .empty) :
    (f.afterCursor d a.cursorKey.carried).all (· r) =
      decide (a.orderAtName < r.orderAtName) := by
  have hid : a.cursorKey.carried.id ≠ .empty := hid
  rw [afterCursor, if_neg hid, if_neg (by simpa using hname), List.all_cons, List.all_nil,
    Bool.and_true]
  rfl

theorem afterCursor_null (hname : f.name = none) (hid : a.id ≠ .empty)
    (hnull : d.nilIsNull = true) (hroot : a.name = root) :
    (f.afterCursor d a.cursorKey.carried).all (· r) = false := by
  have hblob : d.blob a.cursorKey.carried.sort = none := by
    have hsort : a.cursorKey.carried.sort =
        (some root.sortKeyOctets).filter fun b => !b.isEmpty := by
      rw [← hroot]
      rfl
    rw [hsort, Driver.blob_root hnull]
  have hid : a.cursorKey.carried.id ≠ .empty := hid
  rw [afterCursor, if_neg hid, hname]
  simp [hblob]

instance (f : RecordFilter) (r : Record) : Decidable (f.InScope r) :=
  decidable_of_iff ((f.zoneID ≠ .empty → r.zoneID = f.zoneID) ∧ (∀ n ∈ f.name, r.name = n) ∧
      ∀ n ∈ f.under, r.name.isSubDomainOf n = true)
    ⟨fun h => ⟨h.1, h.2.1, h.2.2⟩, fun h => ⟨h.zone, h.name, h.under⟩⟩

instance (d : Driver) (f : RecordFilter) (r : Record) : Decidable (f.Picks d r) :=
  decidable_of_iff ((f.restConditions d).all (· r) = true) restConditions_all

def selects (d : Driver) (f : RecordFilter) (r : Record) : Bool :=
  (f.conditions d zero).all (· r)

theorem selects_iff :
    f.selects d r = true ↔ f.InScope r ∧ (f.under ≠ some root → f.Picks d r) := by
  rw [selects, conditions_all]
  simp [afterCursor, zero]

theorem conditions_after (after : CursorKey) : (f.conditions d after).all (· r) =
    ((f.afterCursor d after).all (· r) && f.selects d r) := by
  rw [Bool.eq_iff_iff, conditions_all, Bool.and_eq_true, selects_iff]

theorem listRecords_eq {s : Store} {c : Cursor} {after : CursorKey}
    (hdecode : decodeCursor sp c cursorRecords = .ok after) :
    SQLite.listRecords sp d s { f with cursor := c } =
      .ok (cutPage [] (fun last => last.cursorKey.encode sp) f.effectiveLimit
        ((f.listing (s.records.filter fun r => (f.afterCursor d after).all (· r) &&
          f.selects d r)).take (f.effectiveLimit + 1))) := by
  have hconditions : { f with cursor := c }.conditions d after = f.conditions d after := rfl
  have hlimit : { f with cursor := c }.effectiveLimit = f.effectiveLimit := rfl
  rw [SQLite.listRecords, hdecode]
  change Except.ok (cutPage _ _ _ (if f.name.isNone then _ else _)) = _
  simp only [hconditions, hlimit, ← conditions_after, listing, select]
  split <;> rfl

end RecordFilter

theorem nodup_key {α β κ : Type} {l : List α} {ident : α → β} {key : α → κ}
    (h : (l.map ident).Nodup) (hkey : ∀ a b, key a = key b → ident a = ident b) :
    (l.map key).Nodup :=
  (List.nodup_map_iff_inj_on (.of_map _ h)).mpr fun a ha b hb hab =>
    List.inj_on_of_nodup_map h ha hb (hkey a b hab)

theorem Paging.effectiveLimit_pos (p : Paging) : 0 < p.effectiveLimit := by
  rw [effectiveLimit, defaultLimit, maxLimit]
  split
  · omega
  · omega

theorem decodeCursor_start (sp : Spelling) (kind : String) :
    decodeCursor sp [] kind = .ok zero := rfl

section ByName

variable {α : Type} {d : Driver} {limit : Nat} {name : α → Name} {key : α → List (List Nat)}
  {rows l : List α} {p : α → Bool} {a b : α}

/-- A listing in the order of names that ends with its first page: the page ends at a row of the
root, and there are more. -/
def CutShort (d : Driver) (limit : Nat) (name : α → Name) (rows : List α) : Prop :=
  d.nilIsNull = true ∧ limit < rows.length ∧
    limit ≤ (rows.filter fun r => name r == root).length

theorem root_first (hkey : ∀ a, ∃ rest, key a = (name a).sortKey :: rest) (hab : key a ≤ key b)
    (hb : name b = root) : name a = root := by
  have hroot : (name b).sortKey = [] := by
    rw [hb]
    rfl
  obtain ⟨restA, hA⟩ := hkey a
  obtain ⟨restB, hB⟩ := hkey b
  rw [hA, hB, cons_le_cons_iff, hroot] at hab
  rcases hab with hlt | ⟨heq, -⟩
  · exact absurd hlt (List.not_lt_nil _)
  · rw [← sortKeyOctets_eq_nil, ← List.map_eq_nil_iff, (name a).map_sortKeyOctets, heq]

theorem not_root_of_not_cutShort (hkey : ∀ a, ∃ rest, key a = (name a).sortKey :: rest)
    (hcut : ¬CutShort d limit name rows) (hsorted : rows.Pairwise fun a b => key a ≤ key b)
    {front back : List α} (hrows : rows = front ++ a :: back) (hlong : limit ≤ front.length + 1)
    (hmore : back ≠ []) : ¬(d.nilIsNull = true ∧ name a = root) := by
  rintro ⟨hnull, hroot⟩
  have hback : 0 < back.length := List.length_pos_iff.mpr hmore
  have hfront : (front.filter fun r => name r == root) = front := by
    refine List.filter_eq_self.mpr fun b hb => beq_iff_eq.mpr (root_first hkey ?_ hroot)
    rw [hrows] at hsorted
    exact (List.pairwise_append.mp hsorted).2.2 b hb a List.mem_cons_self
  refine hcut ⟨hnull, ?_, ?_⟩
  · rw [hrows, List.length_append, List.length_cons]
    omega
  · rw [hrows, List.filter_append, hfront, List.filter_cons_of_pos (by simp [hroot]),
      List.length_append, List.length_cons]
    omega

theorem root_of_cutShort (hkey : ∀ a, ∃ rest, key a = (name a).sortKey :: rest)
    (hcut : CutShort d limit name rows) (hsorted : rows.Pairwise fun a b => key a ≤ key b)
    {front back : List α} (hrows : rows = front ++ a :: back) (hlimit : front.length + 1 = limit) :
    name a = root := by
  by_contra hne
  -- no row behind one that is not of the root is
  have hnone : ((a :: back).filter fun r => name r == root) = [] := by
    refine List.filter_eq_nil_iff.mpr fun b hb heq => hne ?_
    rw [hrows] at hsorted
    rcases List.mem_cons.mp hb with rfl | hb
    · exact beq_iff_eq.mp heq
    · exact root_first hkey ((List.pairwise_cons.mp (List.pairwise_append.mp hsorted).2.1).1 b hb)
        (beq_iff_eq.mp heq)
  have hroots := hcut.2.2
  rw [hrows, List.filter_append, hnone, List.append_nil] at hroots
  have hle := List.length_filter_le (fun r => name r == root) front
  omega

variable {page : Cursor → Except Err (Page Cursor α)} {cursorOf : α → Cursor} {fuel : Nat}

theorem follow_byName (hkey : ∀ a, ∃ rest, key a = (name a).sortKey :: rest)
    (hnodup : (l.map key).Nodup) (hlimit : 0 < limit)
    (hstart : page [] = .ok (cutPage [] cursorOf limit
      ((sortOn key (l.filter p)).take (limit + 1))))
    (hne : ∀ a, cursorOf a ≠ []) (hnext : ∀ a ∈ l, ¬(d.nilIsNull = true ∧ name a = root) →
      ∃ after : α → Bool, (∀ b, after b = true ↔ key a < key b) ∧
        page (cursorOf a) = .ok (cutPage [] cursorOf limit
          ((sortOn key (l.filter fun b => after b && p b)).take (limit + 1))))
    (hnull : ∀ a ∈ l, d.nilIsNull = true → name a = root → page (cursorOf a) = .ok ⟨[], []⟩)
    (hfuel : l.length < fuel) :
    (¬CutShort d limit name (sortOn key (l.filter p)) →
      follow [] page fuel [] = .ok (some (sortOn key (l.filter p)))) ∧
    (CutShort d limit name (sortOn key (l.filter p)) →
      follow [] page fuel [] = .ok (some ((sortOn key (l.filter p)).take limit))) := by
  have hmem {front back : List α} {a : α} (hrows : sortOn key (l.filter p) = front ++ a :: back) :
      a ∈ l := by
    have hsorted : a ∈ sortOn key (l.filter p) := by simp [hrows]
    exact List.mem_of_mem_filter (mem_sortOn.mp hsorted)
  have hsorted := sortOn_pairwise key (l.filter p)
  constructor
  · intro hcut
    refine follow_sortOn page hnodup hlimit hstart (fun front a back hrows hlong hmore => ?_) hfuel
    exact ⟨hne a, hnext a (hmem hrows)
      (not_root_of_not_cutShort hkey hcut hsorted hrows hlong hmore)⟩
  · intro hcut
    have hlength : (sortOn key (l.filter p)).length ≤ l.length := by
      rw [(sortOn_perm _ _).length_eq]
      exact List.length_filter_le _ _
    have hmore := hcut.2.1
    refine follow_cut page hlimit hstart hmore (fun a ha => ⟨hne a, ?_⟩) (by omega)
    obtain ⟨front, b, back, hrows, hfront, -⟩ := split_page hlimit hmore
    obtain rfl : b = a := by
      rw [hrows, ← hfront] at ha
      simpa using ha
    exact hnull b (hmem hrows) hcut.1 (root_of_cutShort hkey hcut hsorted hrows hfront)

end ByName

namespace RecordFilter

variable {sp : Spelling} {d : Driver} {f : RecordFilter} {s : Store} {fuel : Nat}

theorem decodeCursor_record (hsp : sp.Lawful) {a : Record} (hid : a.id ≠ .empty) :
    decodeCursor sp (a.cursorKey.encode sp) cursorRecords =
      .ok a.cursorKey.carried :=
  decodeCursor_encode hsp hid (by simp [cursorKey])

theorem record_id_ne (h : s.Schema) {r : Record} (hr : r ∈ s.records) : r.id ≠ .empty := by
  obtain ⟨⟨⟩, hid, -⟩ := bind_eq_ok.mp (h.records r hr)
  exact Ident.ne_empty_of_valid (Checked.ensure_eq_ok.mp hid)

theorem listRecords_start : SQLite.listRecords sp d s { f with cursor := [] } =
    .ok (cutPage [] (fun last => last.cursorKey.encode sp) f.effectiveLimit
      ((f.listing (s.records.filter (f.selects d))).take (f.effectiveLimit + 1))) := by
  rw [listRecords_eq (decodeCursor_start sp _)]
  rfl

def Ends (d : Driver) (f : RecordFilter) (rows : List Record) : Prop :=
  f.name = none ∧ CutShort d f.effectiveLimit Record.name rows

theorem follow_eq (hsp : sp.Lawful) (h : s.Schema) (hfuel : s.records.length < fuel) :
    (¬f.Ends d (f.listing (s.records.filter (f.selects d))) →
      follow [] (fun c => SQLite.listRecords sp d s { f with cursor := c }) fuel [] =
        .ok (some (f.listing (s.records.filter (f.selects d))))) ∧
    (f.Ends d (f.listing (s.records.filter (f.selects d))) →
      follow [] (fun c => SQLite.listRecords sp d s { f with cursor := c }) fuel [] =
        .ok (some ((f.listing (s.records.filter (f.selects d))).take f.effectiveLimit))) := by
  have hstart := @listRecords_start sp d f s
  have hids : ∀ r ∈ s.records, r.id ≠ .empty := fun r hr => record_id_ne h hr
  by_cases hname : f.name = none
  · have hlisting (rows : List Record) : f.listing rows = sortOn Record.order rows :=
      if_pos (by simp [hname])
    have hends (rows : List Record) :
        f.Ends d rows ↔ CutShort d f.effectiveLimit Record.name rows :=
      ⟨And.right, fun hcut => ⟨hname, hcut⟩⟩
    rw [hlisting] at hstart ⊢
    rw [hends]
    refine follow_byName (fun a => ⟨_, rfl⟩)
      (nodup_key h.record_ids fun a b hab => Ident.sortKey_inj (by simp_all [Record.order]))
      f.effectiveLimit_pos hstart (fun a => encode_ne_nil sp _)
      (fun a ha hroot => ?_) (fun a ha hnull hroot => ?_) hfuel
    · refine ⟨_, fun b => ?_, by
        rw [listRecords_eq (decodeCursor_record hsp (hids a ha)), hlisting]⟩
      rw [afterCursor_of_name_none hname (hids a ha) hroot, decide_eq_true_iff]
    · rw [listRecords_eq (decodeCursor_record hsp (hids a ha)), hlisting]
      simp only [afterCursor_null hname (hids a ha) hnull hroot, Bool.false_and, List.filter_false]
      exact congrArg Except.ok (cutPage_last (Nat.zero_le _))
  · have hlisting (rows : List Record) : f.listing rows = sortOn Record.orderAtName rows :=
      if_neg (by simpa using hname)
    rw [hlisting] at hstart ⊢
    refine ⟨fun _ => ?_, fun hends => absurd hends.1 hname⟩
    refine follow_sortOn (fun c => SQLite.listRecords sp d s { f with cursor := c })
      (nodup_key h.record_ids fun a b hab => Ident.sortKey_inj (by simp_all [Record.orderAtName]))
      f.effectiveLimit_pos hstart (fun front a back hrows _ _ => ?_) hfuel
    have hmem : a ∈ sortOn Record.orderAtName (s.records.filter (f.selects d)) := by simp [hrows]
    have hid := hids a (List.mem_of_mem_filter (mem_sortOn.mp hmem))
    refine ⟨encode_ne_nil sp _, _, fun b => ?_, by
      rw [listRecords_eq (decodeCursor_record hsp hid), hlisting]⟩
    rw [afterCursor_of_name hname hid, decide_eq_true_iff]

end RecordFilter

namespace ZoneFilter

variable {sp : Spelling} {d : Driver} {f : ZoneFilter} {s : Store} {z a : Zone} {fuel : Nat}

/-- Which zones a filter asks for. -/
structure Picks (d : Driver) (f : ZoneFilter) (z : Zone) : Prop where
  kind : ∀ kind ∈ f.kind, z.kind = kind
  name : ∀ n ∈ f.name, z.name = n
  search : f.search ≠ [] → d.toLower f.search <:+: z.name.string.map lowerASCII
  disabled : ∀ disabled ∈ f.disabled, z.disabled = disabled

def selects (d : Driver) (f : ZoneFilter) (z : Zone) : Bool :=
  (f.conditions d zero).all (· z)

theorem selects_iff : f.selects d z = true ↔ f.Picks d z := by
  simp only [selects, conditions, List.all_flatten, List.all_cons, List.all_nil, Bool.and_true,
    Bool.and_eq_true, given_all, givenSome_all, beq_iff_eq, string_inj, foundIn_iff,
    Bool.not_eq_true', List.isEmpty_eq_false_iff]
  constructor
  · rintro ⟨-, hkind, hname, hsearch, hdisabled⟩
    exact ⟨hkind, hname, hsearch, hdisabled⟩
  · rintro ⟨hkind, hname, hsearch, hdisabled⟩
    exact ⟨fun h => by simp [zero] at h, hkind, hname, hsearch, hdisabled⟩

instance (d : Driver) (f : ZoneFilter) (z : Zone) : Decidable (f.Picks d z) :=
  decidable_of_iff _ selects_iff

def afterCursor (d : Driver) (after : CursorKey) (z : Zone) : Bool :=
  (given (after.id != .empty) (fun z : Zone =>
    match d.blob after.sort with
    | none => false
    | some sort => decide ([sort.map UInt8.toNat, after.id.sortKey] < z.listKey))).all (· z)

theorem conditions_after (after : CursorKey) :
    (f.conditions d after).all (· z) = (afterCursor d after z && f.selects d z) := by
  have hzero : afterCursor d zero z = true := rfl
  simp only [selects, conditions, List.all_flatten, List.all_cons, List.all_nil, Bool.and_true]
  change (afterCursor d after z && _) = (_ && (afterCursor d zero z && _))
  rw [hzero, Bool.true_and]

theorem listZones_eq {c : Cursor} {after : CursorKey}
    (hdecode : decodeCursor sp c cursorZones = .ok after) :
    SQLite.listZones sp d s { f with cursor := c } =
      .ok (cutPage [] (fun last => last.cursorKey.encode sp) f.effectiveLimit
        ((sortOn Zone.listKey (s.zones.filter fun z => afterCursor d after z &&
          f.selects d z)).take (f.effectiveLimit + 1))) := by
  have hconditions : { f with cursor := c }.conditions d after = f.conditions d after := rfl
  have hlimit : { f with cursor := c }.effectiveLimit = f.effectiveLimit := rfl
  rw [SQLite.listZones, hdecode]
  change Except.ok (cutPage _ _ _ _) = _
  simp only [hconditions, hlimit, ← conditions_after, select]

theorem afterCursor_zone (hid : a.id ≠ .empty) (h : ¬(d.nilIsNull = true ∧ a.name = root)) :
    afterCursor d a.cursorKey.carried z = true ↔ a.listKey < z.listKey := by
  have hblob : d.blob a.cursorKey.carried.sort = some a.name.sortKeyOctets :=
    Driver.blob_carried (by rwa [sortKeyOctets_eq_nil])
  have hkey : [a.name.sortKeyOctets.map UInt8.toNat, a.cursorKey.carried.id.sortKey] = a.listKey := by
    rw [a.name.map_sortKeyOctets]
    rfl
  have hid : (a.cursorKey.carried.id != .empty) = true := bne_iff_ne.mpr hid
  simp only [afterCursor, given_all, hid, hblob, hkey, forall_const, decide_eq_true_eq]

theorem afterCursor_null (hid : a.id ≠ .empty) (hnull : d.nilIsNull = true)
    (hroot : a.name = root) : afterCursor d a.cursorKey.carried z = false := by
  have hblob : d.blob a.cursorKey.carried.sort = none := by
    have hsort : a.cursorKey.carried.sort =
        (some root.sortKeyOctets).filter fun b => !b.isEmpty := by
      rw [← hroot]
      rfl
    rw [hsort, Driver.blob_root hnull]
  have hid : (a.cursorKey.carried.id != .empty) = true := bne_iff_ne.mpr hid
  rw [Bool.eq_false_iff, Ne, afterCursor, given_all, hblob]
  exact fun h => Bool.false_ne_true (h hid)

theorem zone_id_ne (h : s.Schema) (hz : z ∈ s.zones) : z.id ≠ .empty := by
  obtain ⟨⟨⟩, hid, -⟩ := bind_eq_ok.mp (h.zones z hz)
  exact Ident.ne_empty_of_valid (Checked.ensure_eq_ok.mp hid)

theorem follow_eq (hsp : sp.Lawful) (h : s.Schema) (hfuel : s.zones.length < fuel) :
    (¬CutShort d f.effectiveLimit Zone.name (sortOn Zone.listKey (s.zones.filter (f.selects d))) →
      follow [] (fun c => SQLite.listZones sp d s { f with cursor := c }) fuel [] =
        .ok (some (sortOn Zone.listKey (s.zones.filter (f.selects d))))) ∧
    (CutShort d f.effectiveLimit Zone.name (sortOn Zone.listKey (s.zones.filter (f.selects d))) →
      follow [] (fun c => SQLite.listZones sp d s { f with cursor := c }) fuel [] =
        .ok (some ((sortOn Zone.listKey (s.zones.filter (f.selects d))).take
          f.effectiveLimit))) := by
  have hstart : SQLite.listZones sp d s { f with cursor := [] } =
      .ok (cutPage [] (fun last => last.cursorKey.encode sp) f.effectiveLimit
        ((sortOn Zone.listKey (s.zones.filter (f.selects d))).take (f.effectiveLimit + 1))) := by
    rw [listZones_eq (decodeCursor_start sp _)]
    rfl
  have hdecode (a : Zone) (ha : a ∈ s.zones) :
      decodeCursor sp (a.cursorKey.encode sp) cursorZones =
        .ok a.cursorKey.carried :=
    decodeCursor_encode hsp (zone_id_ne h ha) (by simp [Zone.cursorKey])
  refine follow_byName (fun a => ⟨_, rfl⟩)
    (nodup_key h.zone_ids fun a b hab => Ident.sortKey_inj (by simp_all [Zone.listKey]))
    f.effectiveLimit_pos hstart (fun a => encode_ne_nil sp _)
    (fun a ha hroot => ?_) (fun a ha hnull hroot => ?_) hfuel
  · exact ⟨_, fun b => afterCursor_zone (zone_id_ne h ha) hroot, listZones_eq (hdecode a ha)⟩
  · rw [listZones_eq (hdecode a ha)]
    simp only [afterCursor_null (zone_id_ne h ha) hnull hroot, Bool.false_and, List.filter_false]
    exact congrArg Except.ok (cutPage_last (Nat.zero_le _))

end ZoneFilter

namespace CommitFilter

variable {sp : Spelling} {f : CommitFilter} {s : Store} {c a : Commit} {fuel : Nat}

/-- Which commits a filter asks for, whenever they were made. -/
structure Asks (f : CommitFilter) (c : Commit) : Prop where
  zone : f.zoneID ≠ .empty → c.zoneID = f.zoneID
  kinds : f.kinds ≠ [] → c.kind ∈ f.kinds
  sources : f.sources ≠ [] → c.source ∈ f.sources
  actor : f.actor ≠ "" → c.actor = f.actor
  name : ∀ n ∈ f.name, ∃ e ∈ c.events, e.name = n

/-- Which commits a filter asks for. -/
structure Picks (f : CommitFilter) (c : Commit) : Prop extends Asks f c where
  since : f.since ≠ 0 → f.since ≤ c.storedAt
  until_ : f.until_ ≠ 0 → c.storedAt < f.until_

def selects (s : Store) (f : CommitFilter) (c : Commit) : Bool :=
  (f.conditions s zero).all (· c)

theorem eventNames_any (h : (s.commits.map Commit.id).Nodup) (hc : c ∈ s.commits) (n : Name) :
    (s.eventNames.any fun e => e.1 == c.id && e.2.string == n.string) = true ↔
      ∃ e ∈ c.events, e.name = n := by
  simp only [Store.eventNames, List.any_eq_true, List.mem_flatMap, List.mem_map, Bool.and_eq_true,
    beq_iff_eq, string_inj]
  constructor
  · rintro ⟨-, ⟨b, hb, e, he, rfl⟩, hid, hname⟩
    obtain rfl := List.inj_on_of_nodup_map h hb hc hid
    exact ⟨e, he, hname⟩
  · rintro ⟨e, he, hname⟩
    exact ⟨_, ⟨c, hc, e, he, rfl⟩, rfl, hname⟩

theorem selects_iff (h : (s.commits.map Commit.id).Nodup) (hc : c ∈ s.commits) :
    f.selects s c = true ↔ f.Asks c ∧
      (f.since ≠ 0 → unixMilli f.since ≤ unixMilli c.createdAt) ∧
      (f.until_ ≠ 0 → unixMilli c.createdAt < unixMilli f.until_) := by
  simp only [selects, conditions, List.all_flatten, List.all_cons, List.all_nil, Bool.and_true,
    Bool.and_eq_true, given_all, givenSome_all, beq_iff_eq, bne_iff_ne, eventNames_any h hc,
    List.contains_iff_mem, Bool.not_eq_true', List.isEmpty_eq_false_iff, decide_eq_true_eq]
  constructor
  · rintro ⟨-, hzone, hkinds, hsources, hactor, hsince, huntil, hname⟩
    exact ⟨⟨hzone, hkinds, hsources, hactor, hname⟩, hsince, huntil⟩
  · rintro ⟨⟨hzone, hkinds, hsources, hactor, hname⟩, hsince, huntil⟩
    exact ⟨fun h => absurd rfl h, hzone, hkinds, hsources, hactor, hsince, huntil, hname⟩

def Splits (t : Int) (c : Commit) : Prop :=
  t ≠ 0 ∧ t % 1000000 ≠ 0 ∧ t / 1000000 = c.createdAt / 1000000

/-- No commit a filter asks for was made in a millisecond that one of its times falls into, unless
the other time leaves it out. -/
def WholeMillis (s : Store) (f : CommitFilter) : Prop :=
  ∀ c ∈ s.commits, f.Asks c →
    ¬(Splits f.since c ∧ (f.until_ ≠ 0 → unixMilli c.createdAt < unixMilli f.until_)) ∧
    ¬(Splits f.until_ c ∧ (f.since ≠ 0 → f.since ≤ c.storedAt))

theorem times_iff (f : CommitFilter) (c : Commit) :
    (((f.since ≠ 0 → unixMilli f.since ≤ unixMilli c.createdAt) ∧
        (f.until_ ≠ 0 → unixMilli c.createdAt < unixMilli f.until_)) ↔
      ((f.since ≠ 0 → f.since ≤ c.storedAt) ∧ (f.until_ ≠ 0 → c.storedAt < f.until_))) ↔
    ¬(Splits f.since c ∧ (f.until_ ≠ 0 → unixMilli c.createdAt < unixMilli f.until_)) ∧
      ¬(Splits f.until_ c ∧ (f.since ≠ 0 → f.since ≤ c.storedAt)) := by
  simp only [Splits, unixMilli, Commit.storedAt]
  push_cast
  omega

instance (f : CommitFilter) (c : Commit) : Decidable (f.Asks c) :=
  decidable_of_iff ((f.zoneID ≠ .empty → c.zoneID = f.zoneID) ∧ (f.kinds ≠ [] → c.kind ∈ f.kinds) ∧
      (f.sources ≠ [] → c.source ∈ f.sources) ∧ (f.actor ≠ "" → c.actor = f.actor) ∧
      ∀ n ∈ f.name, ∃ e ∈ c.events, e.name = n)
    ⟨fun h => ⟨h.1, h.2.1, h.2.2.1, h.2.2.2.1, h.2.2.2.2⟩,
      fun h => ⟨h.zone, h.kinds, h.sources, h.actor, h.name⟩⟩

instance (f : CommitFilter) (c : Commit) : Decidable (f.Picks c) :=
  decidable_of_iff (f.Asks c ∧ (f.since ≠ 0 → f.since ≤ c.storedAt) ∧
      (f.until_ ≠ 0 → c.storedAt < f.until_))
    ⟨fun h => ⟨h.1, h.2.1, h.2.2⟩, fun h => ⟨h.toAsks, h.since, h.until_⟩⟩

def afterCursor (after : CursorKey) (c : Commit) : Bool :=
  (given (after.id != .empty) (fun c : Commit => decide
    (toLex (unixMilli c.createdAt, c.id.sortKey) < toLex (after.millis, after.id.sortKey)))).all (· c)

theorem conditions_after (after : CursorKey) :
    (f.conditions s after).all (· c) = (afterCursor after c && f.selects s c) := by
  have hzero : afterCursor zero c = true := rfl
  simp only [selects, conditions, List.all_flatten, List.all_cons, List.all_nil, Bool.and_true]
  change (afterCursor after c && _) = (_ && (afterCursor zero c && _))
  rw [hzero, Bool.true_and]

theorem listCommits_eq {cursor : Cursor} {after : CursorKey}
    (hdecode : decodeCursor sp cursor cursorCommits = .ok after) :
    SQLite.listCommits sp s { f with cursor := cursor } =
      .ok (cutPage [] (fun last => last.cursorKey.encode sp) f.effectiveLimit
        (((sortOn Commit.order (s.commits.filter fun c => afterCursor after c &&
          f.selects s c)).take (f.effectiveLimit + 1)).map Commit.metadata)) := by
  have hconditions : { f with cursor := cursor }.conditions s after = f.conditions s after := rfl
  have hlimit : { f with cursor := cursor }.effectiveLimit = f.effectiveLimit := rfl
  rw [SQLite.listCommits, hdecode]
  change Except.ok (cutPage _ _ _ _) = _
  simp only [hconditions, hlimit, ← conditions_after, select]

theorem cursorKey_metadata (c : Commit) : c.metadata.cursorKey = c.cursorKey := by
  have hmillis : unixMilli c.storedAt = unixMilli c.createdAt := by
    simp only [unixMilli, Commit.storedAt]
    push_cast
    omega
  rw [Commit.cursorKey, Commit.cursorKey, Commit.metadata, hmillis]

theorem commit_id_ne (h : s.Schema) (hc : c ∈ s.commits) : c.id ≠ .empty := by
  obtain ⟨⟨⟩, hid, -⟩ := bind_eq_ok.mp (h.commits c hc)
  exact Ident.ne_empty_of_valid (Checked.ensure_eq_ok.mp hid)

theorem follow_eq (hsp : sp.Lawful) (h : s.Schema)
    (hfits : ∀ c ∈ s.commits, unixMilli c.createdAt < 2 ^ 63) (hfuel : s.commits.length < fuel) :
    follow [] (fun cursor => SQLite.listCommits sp s { f with cursor := cursor }) fuel [] =
      .ok (some ((sortOn Commit.order (s.commits.filter (f.selects s))).map Commit.metadata)) := by
  have hstart : SQLite.listCommits sp s { f with cursor := [] } =
      .ok (cutPage [] (fun last => last.cursorKey.encode sp) f.effectiveLimit
        (((sortOn Commit.order (s.commits.filter (f.selects s))).take
          (f.effectiveLimit + 1)).map Commit.metadata)) :=
    listCommits_eq (decodeCursor_start sp _)
  refine follow_sortOn_map (fun cursor => SQLite.listCommits sp s { f with cursor := cursor })
    Commit.metadata
    (nodup_key h.commit_ids fun a b hab => Ident.sortKey_inj (by simp_all [Commit.order]))
    f.effectiveLimit_pos hstart (fun front a back hrows _ _ => ?_) hfuel
  have hmem : a ∈ sortOn Commit.order (s.commits.filter (f.selects s)) := by simp [hrows]
  have ha := List.mem_of_mem_filter (mem_sortOn.mp hmem)
  have hid := commit_id_ne h ha
  have hlow : -2 ^ 63 ≤ unixMilli a.createdAt := by
    rw [unixMilli]
    omega
  have hdecode : decodeCursor sp (a.cursorKey.encode sp) cursorCommits =
      .ok a.cursorKey.carried :=
    decodeCursor_encode hsp hid ⟨hlow, hfits a ha⟩
  rw [cursorKey_metadata]
  refine ⟨encode_ne_nil sp _, _, fun b => ?_, listCommits_eq hdecode⟩
  have hne : (a.cursorKey.carried.id != .empty) = true := bne_iff_ne.mpr hid
  rw [afterCursor, given_all, hne, decide_eq_true_iff]
  exact ⟨fun hlt => hlt rfl, fun hlt _ => hlt⟩

theorem map_metadata_eq_iff (h : (s.commits.map Commit.id).Nodup) (p q : Commit → Bool) :
    (sortOn Commit.order (s.commits.filter p)).map Commit.metadata =
        (sortOn Commit.order (s.commits.filter q)).map Commit.metadata ↔
      ∀ c ∈ s.commits, p c = q c := by
  have hmem (p : Commit → Bool) {c : Commit} (hc : c ∈ s.commits) :
      c.metadata ∈ (sortOn Commit.order (s.commits.filter p)).map Commit.metadata ↔
        p c = true := by
    rw [List.mem_map]
    constructor
    · rintro ⟨b, hb, heq⟩
      obtain ⟨hb, hp⟩ := List.mem_filter.mp (mem_sortOn.mp hb)
      have hid : b.metadata.id = c.metadata.id := by rw [heq]
      rwa [← List.inj_on_of_nodup_map h hb hc hid]
    · intro hp
      exact ⟨c, mem_sortOn.mpr (List.mem_filter.mpr ⟨hc, hp⟩), rfl⟩
  constructor
  · intro heq c hc
    rw [Bool.eq_iff_iff, ← hmem p hc, heq, hmem q hc]
  · intro heq
    rw [List.filter_congr heq]

theorem selects_eq_picks_iff (h : (s.commits.map Commit.id).Nodup) :
    (∀ c ∈ s.commits, f.selects s c = decide (f.Picks c)) ↔ f.WholeMillis s := by
  refine forall₂_congr fun c hc => ?_
  have hpicks : f.Picks c ↔ f.Asks c ∧ (f.since ≠ 0 → f.since ≤ c.storedAt) ∧
      (f.until_ ≠ 0 → c.storedAt < f.until_) :=
    ⟨fun h => ⟨h.toAsks, h.since, h.until_⟩, fun h => ⟨h.1, h.2.1, h.2.2⟩⟩
  rw [Bool.eq_iff_iff, decide_eq_true_iff, selects_iff h hc, hpicks, ← times_iff, and_congr_right_iff]

end CommitFilter

namespace RecordFilter

variable {sp : Spelling} {d : Driver} {f : RecordFilter} {s : Store} {fuel : Nat}

def asked (d : Driver) (f : RecordFilter) (s : Store) : List Record :=
  f.listing (s.records.filter fun r => decide (f.InScope r ∧ f.Picks d r))

/-- The records a filter without anything but its place asks for, where that is all below the root,
and otherwise the records it asks for. -/
def scanned (d : Driver) (f : RecordFilter) (s : Store) : List Record :=
  f.listing (s.records.filter fun r =>
    decide (f.InScope r ∧ (f.under ≠ some root → f.Picks d r)))

def Honoured (d : Driver) (f : RecordFilter) (s : Store) : Prop :=
  (¬f.Ends d (f.scanned d s) ∧
    (f.under = some root → ∀ r ∈ s.records, f.InScope r → f.Picks d r)) ∨
  (f.Ends d (f.scanned d s) ∧ (f.scanned d s).take f.effectiveLimit = f.asked d s)

theorem scanned_eq : f.scanned d s = f.listing (s.records.filter (f.selects d)) := by
  have hselects : (fun r => decide (f.InScope r ∧ (f.under ≠ some root → f.Picks d r))) =
      f.selects d := by
    funext r
    rw [Bool.eq_iff_iff, decide_eq_true_iff, selects_iff]
  rw [scanned, hselects]

theorem listing_filter_eq_iff (p q : Record → Bool) :
    f.listing (s.records.filter p) = f.listing (s.records.filter q) ↔
      ∀ r ∈ s.records, p r = q r := by
  rw [listing, listing]
  split
  · exact sortOn_filter_eq_iff p q
  · exact sortOn_filter_eq_iff p q

theorem scanned_eq_asked_iff : f.scanned d s = f.asked d s ↔
    (f.under = some root → ∀ r ∈ s.records, f.InScope r → f.Picks d r) := by
  rw [scanned, asked, listing_filter_eq_iff]
  simp only [decide_eq_decide]
  constructor
  · intro h hroot r hr hscope
    exact ((h r hr).mp ⟨hscope, fun hne => absurd hroot hne⟩).2
  · intro h r hr
    by_cases hroot : f.under = some root
    · exact ⟨fun hr' => ⟨hr'.1, h hroot r hr hr'.1⟩, fun hr' => ⟨hr'.1, fun _ => hr'.2⟩⟩
    · exact ⟨fun hr' => ⟨hr'.1, hr'.2 hroot⟩, fun hr' => ⟨hr'.1, fun _ => hr'.2⟩⟩

end RecordFilter

/-- What a filter asks for is listed, each row once and in the order of the listing, however long
the pages are: for records if and only if no field of the filter is passed over below the root and
no page but the last ends at a record of the root whose sort key is bound as NULL, for zones if and
only if the second of the two holds, and for commits if and only if none the filter asks for was
made in a millisecond that its times split. -/
theorem listings_are_followed {sp : Spelling} (hsp : sp.Lawful) (d : Driver) {s : Store}
    (h : s.Schema) (hfits : ∀ c ∈ s.commits, unixMilli c.createdAt < 2 ^ 63) {fuel : Nat}
    (hfuel : s.records.length < fuel ∧ s.zones.length < fuel ∧ s.commits.length < fuel) :
    (∀ f : RecordFilter,
      follow [] (fun c => SQLite.listRecords sp d s { f with cursor := c }) fuel [] =
        .ok (some (f.asked d s)) ↔ f.Honoured d s) ∧
    (∀ f : ZoneFilter,
      follow [] (fun c => SQLite.listZones sp d s { f with cursor := c }) fuel [] =
        .ok (some (sortOn Zone.listKey (s.zones.filter fun z => decide (f.Picks d z)))) ↔
      ¬CutShort d f.effectiveLimit Zone.name
        (sortOn Zone.listKey (s.zones.filter fun z => decide (f.Picks d z)))) ∧
    ∀ f : CommitFilter,
      follow [] (fun c => SQLite.listCommits sp s { f with cursor := c }) fuel [] =
        .ok (some ((sortOn Commit.order (s.commits.filter fun c => decide (f.Picks c))).map
          Commit.metadata)) ↔ f.WholeMillis s := by
  refine ⟨fun f => ?_, fun f => ?_, fun f => ?_⟩
  · obtain ⟨hwhole, hcut⟩ := @RecordFilter.follow_eq sp d f s fuel hsp h hfuel.1
    rw [← RecordFilter.scanned_eq] at hwhole hcut
    rw [RecordFilter.Honoured, ← RecordFilter.scanned_eq_asked_iff]
    by_cases hends : f.Ends d (f.scanned d s)
    · rw [hcut hends, Except.ok.injEq, some.injEq]
      exact ⟨fun heq => .inr ⟨hends, heq⟩, fun hor => hor.elim (absurd hends ·.1) And.right⟩
    · rw [hwhole hends, Except.ok.injEq, some.injEq]
      exact ⟨fun heq => .inl ⟨hends, heq⟩, fun hor => hor.elim And.right (absurd ·.1 hends)⟩
  · have hpicks : (fun z => decide (f.Picks d z)) = f.selects d := by
      funext z
      rw [Bool.eq_iff_iff, decide_eq_true_iff, ZoneFilter.selects_iff]
    obtain ⟨hwhole, hcut⟩ := @ZoneFilter.follow_eq sp d f s fuel hsp h hfuel.2.1
    rw [hpicks]
    refine ⟨fun heq hends => ?_, hwhole⟩
    rw [hcut hends, Except.ok.injEq, some.injEq] at heq
    have hlength := congrArg List.length heq
    rw [List.length_take] at hlength
    have hmore := hends.2.1
    omega
  · rw [CommitFilter.follow_eq hsp h hfits hfuel.2.2, Except.ok.injEq, some.injEq,
      CommitFilter.map_metadata_eq_iff h.commit_ids, CommitFilter.selects_eq_picks_iff h.commit_ids]

namespace Sample

def listed : Store :=
  store [zone 1 [], zone 2 ["org"]]
    [record 13 1 ["a"] typeA "10.0.0.1", record 14 1 ["b"] typeA "10.0.0.2",
      record 11 1 [] typeNS "ns.", record 12 1 [] typeNS "ms."]

theorem listed_schema : listed.Schema where
  zone_ids := by decide +kernel
  zone_names := by decide +kernel
  zones := by decide +kernel
  record_ids := by decide +kernel
  record_contents := by decide +kernel
  records := by decide +kernel
  record_zones := by decide +kernel
  record_sources := by decide +kernel
  commit_ids := List.nodup_nil
  commit_serials := List.nodup_nil
  commits := by decide +kernel
  setting_keys := List.nodup_nil
  settings := by decide +kernel
  key_ids := List.nodup_nil
  key_names := List.nodup_nil
  keys := by decide +kernel
  token_ids := List.nodup_nil
  token_hashes := List.nodup_nil
  tokens := by decide +kernel

def byTwo : RecordFilter where
  cursor := []
  limit := 2
  zoneID := .empty
  name := none
  under := none
  types := []
  netPrefix := none
  search := []
  managed := none

def driver (nilIsNull : Bool) : Driver := ⟨List.map lowerASCII, nilIsNull⟩

end Sample

open Sample

theorem listings_are_followed_byThree :
    follow [] (fun c => SQLite.listRecords .tally (driver true) listed
        { byTwo with limit := 3, cursor := c }) 5 [] =
      .ok (some ({ byTwo with limit := 3 }.asked (driver true) listed)) :=
  ((listings_are_followed Spelling.tally_lawful (driver true) listed_schema
    (by decide +kernel) (by decide +kernel)).1 { byTwo with limit := 3 }).mpr
      (.inl ⟨fun h => absurd h.2.2.2 (by decide +kernel), fun h => nomatch h⟩)

/-- Below the root the types of a filter are passed over; and a page that ends at a record of the
root is the last where the database takes its sort key for NULL. -/
theorem types_are_passed_over :
    follow [] (fun c => SQLite.listRecords .tally (driver false) listed
        { byTwo with under := some root, types := [typeA], cursor := c }) 5 [] =
      .ok (some [record 11 1 [] typeNS "ns.", record 12 1 [] typeNS "ms.",
        record 13 1 ["a"] typeA "10.0.0.1", record 14 1 ["b"] typeA "10.0.0.2"]) ∧
    { byTwo with under := some root, types := [typeA] }.asked (driver false) listed =
      [record 13 1 ["a"] typeA "10.0.0.1", record 14 1 ["b"] typeA "10.0.0.2"] ∧
    follow [] (fun c => SQLite.listRecords .tally (driver true) listed { byTwo with cursor := c })
      5 [] = .ok (some [record 11 1 [] typeNS "ns.", record 12 1 [] typeNS "ms."]) := by
  decide +kernel

end Wegweiser
