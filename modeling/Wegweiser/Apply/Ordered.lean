/-
What holds where the provenance links form a forest: the order of `changeSet.ordered`, and the walk
of `retireBelow`.

What a record waits for is counted, and the counts are taken down while the list is walked.  At
every spot of the walk the count of a record that is left is the number of those left that come
before it.
-/
import Wegweiser.Lib.Forest
import Wegweiser.Apply.Automation
import Wegweiser.Apply.Operation
import Wegweiser.Apply.Written

namespace Wegweiser

open List Sample

section Order

variable {first : Bool} {all round l pre out held : List Record} {r y : Record}
variable {waiting w : RecordID → Int}

/-- Whether `a` has to be written before `b`; with the dependents first, because it hangs off it. -/
def precedes (dependentsFirst : Bool) (a b : Record) : Bool :=
  if dependentsFirst then a.source == some b.id else b.source == some a.id

/-- The loop of `changeSet.ordered`, run to its end. -/
inductive OrderRuns (dependentsFirst : Bool) :
    List Record → (RecordID → Int) → List Record → Prop
  | done {waiting : RecordID → Int} : OrderRuns dependentsFirst [] waiting []
  | stuck {all out held : List Record} {waiting w : RecordID → Int}
      (hround : orderRound dependentsFirst all all waiting = (out, held, w))
      (hheld : held.length = all.length) : OrderRuns dependentsFirst all waiting (out ++ held)
  | round {all out held rest : List Record} {waiting w : RecordID → Int}
      (hround : orderRound dependentsFirst all all waiting = (out, held, w))
      (hheld : held.length ≠ all.length) (hrest : OrderRuns dependentsFirst held w rest) :
      OrderRuns dependentsFirst all waiting (out ++ rest)

theorem perm_of_orderRound (h : orderRound first all all waiting = (out, held, w)) :
    (out ++ held).Perm all := by
  simpa [h] using @orderRound_perm first all all waiting

theorem orderRounds_runs {fuel : Nat} (hfuel : all.length < fuel) :
    OrderRuns first all waiting (orderRounds first fuel all waiting) := by
  induction fuel generalizing all waiting with
  | zero => cases hfuel
  | succ fuel ih =>
    rw [orderRounds]
    split
    · next hempty =>
      rw [isEmpty_iff.mp hempty]
      exact .done
    · rcases hround : orderRound first all all waiting with ⟨out, held, w⟩
      have hlength := (perm_of_orderRound hround).length_eq
      rw [length_append] at hlength
      dsimp only
      split
      · next hheld => exact .stuck hround hheld
      · next hheld => exact .round hround hheld (ih (by omega))

def Counted (dependentsFirst : Bool) (left : List Record) (waiting : RecordID → Int) : Prop :=
  ∀ y ∈ left, waiting y.id = left.countP (precedes dependentsFirst · y) ∨
    left.countP (precedes dependentsFirst · y) = 0 ∧ waiting y.id ≤ 0

theorem Counted.free (h : Counted first l waiting) (hr : r ∈ l) (hwaiting : waiting r.id ≤ 0) :
    ∀ x ∈ l, precedes first x r = false := by
  have hzero : l.countP (precedes first · r) = 0 := by
    rcases h r hr with hcount | hcount
    · omega
    · exact hcount.1
  intro x hx
  simpa using countP_eq_zero.mp hzero x hx

theorem countP_id (hids : (all.map Record.id).Nodup) (hy : y ∈ all) (p : Record → Bool) :
    all.countP (fun o => p o && o.id == y.id) = if p y then 1 else 0 := by
  have hsame : all.countP (fun o => p o && o.id == y.id) =
      all.countP fun o => p y && o.id == y.id := by
    refine countP_congr fun o ho => ?_
    by_cases hid : o.id = y.id
    · rw [inj_on_of_nodup_map hids ho hy hid]
    · simp [hid]
  have hone : all.countP (fun o => o.id == y.id) = 1 := by
    rw [← count_eq_one_of_mem hids (mem_map_of_mem hy), count_eq_countP,
      countP_map]
    rfl
  rw [hsame]
  cases p y <;> simp [hone]

theorem source_eq_some {id : RecordID} :
    r.source = some id ↔ r.managedBy ≠ .empty ∧ r.managedBy = id := by
  rw [Record.source]
  split <;> simp [*]

/-- Writing `r` takes one from what waits for it, and else only from what waits for nothing. -/
theorem release_eq (hids : (round.map Record.id).Nodup) (hy : y ∈ round) :
    release first round r waiting y.id =
        waiting y.id - (if precedes first r y then 1 else 0) ∨
      (∀ x, precedes first x y = false) ∧ release first round r waiting y.id ≤ waiting y.id := by
  cases first with
  | true =>
    left
    by_cases hr : r.source = some y.id
    · obtain ⟨hempty, hid⟩ := source_eq_some.mp hr
      simp [release, precedes, hr, ← hid, hempty]
    · have hne : ¬ (r.managedBy ≠ .empty ∧ r.managedBy = y.id) := fun h => hr (source_eq_some.mpr h)
      simp [release, precedes, hr, hne]
  | false =>
    have hcount := countP_id hids hy fun o => o.managedBy == r.id
    rw [countP_eq_length_filter] at hcount
    simp only [release, Bool.false_eq_true, if_false, hcount]
    by_cases hempty : y.managedBy = .empty
    · right
      have hsource : y.source = none := if_pos hempty
      exact ⟨fun x => by simp [precedes, hsource], by split <;> omega⟩
    · left
      have hsource : y.source = some y.managedBy := if_neg hempty
      simp only [precedes, hsource, Bool.false_eq_true, if_false, beq_iff_eq, Option.some.injEq]
      split <;> rfl

theorem initialWaiting_eq (hids : (all.map Record.id).Nodup) (hy : y ∈ all) :
    initialWaiting first all y.id = all.countP (precedes first · y) := by
  rw [initialWaiting, ← countP_eq_length_filter]
  cases first with
  | true =>
    refine congrArg Int.ofNat (countP_congr fun x _ => ?_)
    simp only [precedes, if_true, beq_iff_eq, Bool.and_eq_true, bne_iff_ne, source_eq_some,
      any_eq_true]
    exact ⟨fun h => ⟨h.1.1, h.2⟩, fun h => ⟨⟨h.1, y, hy, h.2.symm⟩, h.2⟩⟩
  | false =>
    simp only [Bool.false_eq_true, if_false]
    rw [countP_id hids hy]
    by_cases hempty : y.managedBy = .empty
    · have hsource : y.source = none := if_pos hempty
      simp [precedes, hsource, hempty]
    · have hsource : y.source = some y.managedBy := if_neg hempty
      have hcount : all.countP (precedes false · y) =
          if y.managedBy ∈ all.map Record.id then 1 else 0 := by
        rw [← hids.count, count_eq_countP, countP_map]
        refine countP_congr fun x _ => ?_
        simp only [precedes, hsource, Bool.false_eq_true, if_false, beq_iff_eq, Option.some.injEq,
          Function.comp_apply]
        exact eq_comm
      have hany : (all.any fun o => o.id == y.managedBy) = true ↔ y.managedBy ∈ all.map Record.id := by
        simp
      simp [hcount, hany, hempty]

theorem Counted.release (h : Counted first (pre ++ r :: l) waiting)
    (hids : (round.map Record.id).Nodup) (hsub : ∀ x ∈ pre ++ r :: l, x ∈ round) :
    Counted first (pre ++ l) (release first round r waiting) := by
  intro y hy
  have hmem : y ∈ pre ++ r :: l :=
    ((sublist_cons_self r l).append_left pre).subset hy
  have hcount : (pre ++ r :: l).countP (precedes first · y) =
      (pre ++ l).countP (precedes first · y) + if precedes first r y then 1 else 0 := by
    rw [countP_append, countP_append, countP_cons, Nat.add_assoc]
  have hwas := h y hmem
  rw [hcount] at hwas
  rcases @release_eq first round r y waiting hids (hsub y hmem) with hrel | ⟨hnone, hrel⟩
  · rw [hrel]
    cases hprec : precedes first r y <;>
      simp only [hprec, if_true, Bool.false_eq_true, if_false] at hwas ⊢ <;> omega
  · have hzero : (pre ++ l).countP (precedes first · y) = 0 :=
      countP_eq_zero.mpr fun x _ => by simp [hnone x]
    rw [hzero, hnone r] at hwas
    refine .inr ⟨hzero, ?_⟩
    simp at hwas
    omega

/-- A round keeps the counts, writes nothing that something left comes before, and holds back only
what something comes before. -/
theorem orderRound_spec (pre : List Record) (hids : (round.map Record.id).Nodup)
    (hsub : ∀ x ∈ pre ++ l, x ∈ round) (h : Counted first (pre ++ l) waiting)
    (hround : orderRound first round l waiting = (out, held, w)) :
    Counted first (pre ++ held) w ∧ out.Pairwise (fun a b => precedes first b a = false) ∧
      (∀ a ∈ out, ∀ x ∈ pre ++ held, precedes first x a = false) ∧
      (out = [] → ∀ y ∈ l, 0 < waiting y.id) := by
  induction l generalizing pre waiting out held with
  | nil =>
    cases hround
    exact ⟨h, .nil, by simp, by simp⟩
  | cons r l ih =>
    rw [orderRound] at hround
    split at hround
    · next hwaits =>
      rcases hrest : orderRound first round l waiting with ⟨out', held', w'⟩
      rw [hrest] at hround
      cases hround
      rw [append_cons] at h hsub ⊢
      obtain ⟨hcounted, hpairs, hheld, hstuck⟩ := ih _ hsub h hrest
      refine ⟨hcounted, hpairs, hheld, fun hout => ?_⟩
      exact forall_mem_cons.mpr ⟨hwaits, hstuck hout⟩
    · next hfree =>
      rcases hrest : orderRound first round l (release first round r waiting) with ⟨out', held', w'⟩
      rw [hrest] at hround
      cases hround
      have hr : r ∈ pre ++ r :: l := by simp
      have hbefore := h.free hr (not_lt.mp hfree)
      have hkept : ∀ x ∈ pre ++ l, x ∈ pre ++ r :: l :=
        fun x hx => ((sublist_cons_self r l).append_left pre).subset hx
      obtain ⟨hcounted, hpairs, hheld, -⟩ :=
        ih _ (fun x hx => hsub x (hkept x hx)) (h.release hids hsub) hrest
      have hperm := @orderRound_perm first round l (Wegweiser.release first round r waiting)
      rw [hrest] at hperm
      refine ⟨hcounted, pairwise_cons.mpr ⟨fun b hb => ?_, hpairs⟩, ?_, fun hout => ?_⟩
      · refine hbefore b (hkept b (mem_append_right pre ?_))
        exact hperm.mem_iff.mp (mem_append_left _ hb)
      · refine forall_mem_cons.mpr ⟨fun x hx => ?_, hheld⟩
        refine hbefore x (hkept x ?_)
        rcases mem_append.mp hx with hx | hx
        · exact mem_append_left _ hx
        · exact mem_append_right _ (hperm.mem_iff.mp (mem_append_right _ hx))
      · cases hout

/-- Among records whose links form a forest something comes first. -/
theorem exists_free (hforest : Links.Forest Record.id Record.source all) (hne : all ≠ []) :
    ∃ y ∈ all, ∀ x ∈ all, precedes first x y = false := by
  obtain ⟨⟨a, ha, htop⟩, b, hb, hleaf⟩ := hforest.exists_ends hne
  cases first with
  | true => exact ⟨b, hb, fun x hx => by simpa [precedes] using hleaf x hx⟩
  | false => exact ⟨a, ha, fun x hx => by simpa [precedes] using htop x hx⟩

theorem OrderRuns.perm (h : OrderRuns first all waiting out) : out.Perm all := by
  induction h with
  | done => exact .nil
  | @stuck all out held waiting w hround =>
    exact perm_of_orderRound hround
  | @round all out held rest waiting w hround hheld hrest ih =>
    have hperm := perm_of_orderRound hround
    exact (ih.append_left out).trans hperm

theorem OrderRuns.pairwise (h : OrderRuns first all waiting out) (hids : (all.map Record.id).Nodup)
    (hforest : Links.Forest Record.id Record.source all) (hcounted : Counted first all waiting) :
    out.Pairwise (fun a b => precedes first b a = false) := by
  induction h with
  | done => exact .nil
  | @stuck all out held waiting w hround hheld =>
    have hperm := perm_of_orderRound hround
    have hnone : out = [] := by
      have hlength := hperm.length_eq
      rw [length_append] at hlength
      exact length_eq_zero_iff.mp (by omega)
    obtain ⟨-, -, -, hstuck⟩ := orderRound_spec [] hids (fun x hx => hx) hcounted hround
    by_cases hall : all = []
    · rw [hall] at hperm
      rw [perm_nil.mp hperm]
      exact .nil
    · -- something is free, and a round would have written it
      obtain ⟨y, hy, hfree⟩ := @exists_free first all hforest hall
      have hzero : all.countP (precedes first · y) = 0 :=
        countP_eq_zero.mpr fun x hx => by simp [hfree x hx]
      have hpos := hstuck hnone y hy
      rcases hcounted y hy with hcount | hcount <;> omega
  | @round all out held rest waiting w hround hheld hrest ih =>
    have hperm := perm_of_orderRound hround
    obtain ⟨hleft, hpairs, hbefore, -⟩ :=
      orderRound_spec [] hids (fun x hx => hx) hcounted hround
    have hsub (x : Record) (hx : x ∈ held) : x ∈ all :=
      hperm.mem_iff.mp (mem_append_right out hx)
    have hids' : (held.map Record.id).Nodup :=
      ((sublist_append_right out held).map _).nodup ((hperm.map Record.id).nodup_iff.mpr hids)
    refine pairwise_append.mpr ⟨hpairs, ih hids' (hforest.of_subset hsub) hleft, ?_⟩
    intro a ha b hb
    exact hbefore a ha b (hrest.perm.mem_iff.mp hb)

end Order

/-- For every change set: the loop comes to its end with every queued record once; and where the
identifiers are distinct and the links form a forest, no record precedes one that hangs off it with
the dependents first, and none precedes the one it hangs off otherwise. -/
theorem ordered_along_links (cs : ChangeSet) (pick : Changes → List Record)
    (dependentsFirst : Bool) :
    OrderRuns dependentsFirst (cs.gather pick) (initialWaiting dependentsFirst (cs.gather pick))
        (ordered dependentsFirst (cs.gather pick)) ∧
      (ordered dependentsFirst (cs.gather pick)).Perm (cs.gather pick) ∧
      (((cs.gather pick).map Record.id).Nodup →
        Links.Forest Record.id Record.source (cs.gather pick) →
        (ordered dependentsFirst (cs.gather pick)).Pairwise fun a b =>
          if dependentsFirst then b.source ≠ some a.id else a.source ≠ some b.id) := by
  have hruns : OrderRuns dependentsFirst (cs.gather pick)
      (initialWaiting dependentsFirst (cs.gather pick)) (ordered dependentsFirst (cs.gather pick)) :=
    orderRounds_runs (Nat.lt_succ_self _)
  refine ⟨hruns, hruns.perm, fun hids hforest => ?_⟩
  have hpairs := hruns.pairwise hids hforest fun y hy => .inl (initialWaiting_eq hids hy)
  refine hpairs.imp fun {a b} hab => ?_
  cases dependentsFirst <;> simpa [precedes] using hab

/-- An address record with its reverse entry and the delegation to that, queued the wrong way
round. -/
def Sample.chain : ChangeSet :=
  ⟨[⟨zone 2 ["p"], { Changes.blank with
      inserts := [generated 2 .rfc2317CNAME (record 3 2 ["d", "p"] typeCNAME "e.c."),
        generated 1 .ptr (record 2 2 ["e", "p"] typePTR "a.ex.")] }⟩,
    ⟨zone 1 ["ex"], { Changes.blank with
      inserts := [record 1 1 ["a", "ex"] typeA "192.0.2.1"] }⟩], none⟩

def Sample.rank : RecordID → Nat
  | .ulid n => n
  | _ => 0

theorem ordered_along_links_chain :
    (ordered false (chain.gather Changes.inserts)).map Record.id =
        [.ulid 1, .ulid 2, .ulid 3] ∧
      (ordered false (chain.gather Changes.inserts)).Pairwise fun a b =>
        if false then b.source ≠ some a.id else a.source ≠ some b.id := by
  refine ⟨by decide +kernel, (ordered_along_links chain Changes.inserts false).2.2
    (by decide +kernel) (Links.forest_of_rank rank ?_)⟩
  decide +kernel

namespace Env

variable {s : Store} {w : Work}

theorem exists_zoneOf (h : s.Sound) {d : Record} (hd : d ∈ s.records) (cs : ChangeSet) :
    ∃ z, zoneOf s cs d.zoneID = .ok z := by
  rw [zoneOf]
  cases cs.entry d.zoneID with
  | some e => exact ⟨e.zone, rfl⟩
  | none =>
    obtain ⟨z, hz, hid⟩ := h.record_zones d hd
    exact ⟨z, h.zoneByID_eq_ok.mpr ⟨hz, hid⟩⟩

theorem queueRemovals_pending (h : s.Sound) {l : List Record} (hl : ∀ d ∈ l, d ∈ s.records) :
    ∃ w', l.foldlM (queueRemoval s) w = .ok w' ∧ ∀ zid, (w'.cs.pending zid).deletes =
      (w.cs.pending zid).deletes ++ l.filter fun d => d.zoneID == zid := by
  induction l generalizing w with
  | nil => exact ⟨w, rfl, by simp⟩
  | cons d l ih =>
    obtain ⟨hd, hl⟩ := forall_mem_cons.mp hl
    obtain ⟨z, hz⟩ := exists_zoneOf h hd w.cs
    obtain ⟨w', hrun, hpending⟩ := @ih (w.inZone z (·.remove d)) hl
    refine ⟨w', Checked.foldlM_cons_eq_ok.mpr ⟨_, queueRemoval_eq_ok.mpr ⟨z, hz, rfl⟩, hrun⟩, ?_⟩
    intro zid
    rw [hpending, Work.inZone, ChangeSet.inZone_pending, (zoneOf_eq_ok hz).1]
    by_cases hzone : zid = d.zoneID
    · simp [hzone]
    · simp [hzone, Ne.symm hzone]

/-- For every sound store whose links form a forest: `retireBelow` comes to its end, and puts each
record below the one given once more on the list of removals of its own zone, and no record on any
other. -/
theorem retireBelow_queues_below (h : s.Sound)
    (hforest : Links.Forest Record.id Record.source s.records) (r : Record) (w : Work) :
    ∃ w', retireBelow s r.id w = .ok w' ∧ ∀ x zid,
      (x ∈ s.records ∧ s.Hangs (· = r.id) x → (w'.cs.pending zid).deletes.count x =
        (w.cs.pending zid).deletes.count x + if x.zoneID = zid then 1 else 0) ∧
      (¬ (x ∈ s.records ∧ s.Hangs (· = r.id) x) →
        (w'.cs.pending zid).deletes.count x = (w.cs.pending zid).deletes.count x) := by
  have hnodup (k : RecordID) : ((s.managedBy k).map Record.id).Nodup :=
    ((perm_insertionSort _ _).map _).nodup_iff.mpr
      ((filter_sublist.map _).nodup h.record_ids)
  obtain ⟨gone, hwalk, hgone, hmem⟩ :=
    hforest.exists_walk h.record_ids (fun k a => Store.mem_managedBy) hnodup r.id
  obtain ⟨w', hrun, hpending⟩ := @queueRemovals_pending s w h gone fun d hd => ((hmem d).mp hd).1
  refine ⟨w', retireQueue_eq_ok.mpr ⟨gone, hwalk, hrun⟩, fun x zid => ?_⟩
  rw [hpending, count_append, ← hmem]
  constructor
  · intro hx
    by_cases hzone : x.zoneID = zid
    · rw [count_filter (by simpa using hzone), count_eq_one_of_mem hgone hx, if_pos hzone]
    · have hnone : x ∉ gone.filter fun d => d.zoneID == zid := by simp [hzone]
      rw [count_eq_zero.mpr hnone, if_neg hzone]
  · intro hx
    rw [count_eq_zero.mpr fun h => hx (mem_filter.mp h).1, Nat.add_zero]

end Env

/-- A store that holds the records of `Sample.chain`. -/
def Sample.chained : Store :=
  store [zone 1 ["ex"], zone 2 ["p"]] (chain.gather Changes.inserts)

theorem Env.retireBelow_queues_below_chained :
    ∃ w', retireBelow chained (.ulid 1) Work.blank = .ok w' ∧
      (w'.cs.pending (.ulid 2)).deletes.count (generated 2 .rfc2317CNAME
        (Sample.record 3 2 ["d", "p"] typeCNAME "e.c.")) = 1 := by
  have hbelow : Links.Below Record.id Record.source chained.records (· = .ulid 1) (.ulid 2) :=
    .link (a := Sample.generated 1 .ptr (Sample.record 2 2 ["e", "p"] typePTR "a.ex."))
      (by decide +kernel) rfl (.root rfl)
  obtain ⟨w', hok, hcount⟩ := retireBelow_queues_below (s := chained)
    (by constructor <;> decide +kernel) (Links.forest_of_rank rank (by decide +kernel))
    (Sample.record 1 1 ["a", "ex"] typeA "192.0.2.1") Work.blank
  exact ⟨w', hok, (hcount _ (.ulid 2)).1 ⟨by decide +kernel, .ulid 2, rfl, hbelow⟩⟩

end Wegweiser
