/-
A question asked of a snapshot.

The search of one zone is carried from zone to zone along CNAME records.
-/
import Wegweiser.DNS.Search

namespace Wegweiser

open Checked List

namespace DNS

def zoneOf {R : Type} (held : List (Contents R)) (n : Name) : Option (Contents R) :=
  n.upwards.findSome? fun apex => held.find? fun c => c.apex == apex

section Chase

variable (lib : RRLibrary) (delegation : Contents lib.RR → Name → Option Name)
  (held : List (Contents lib.RR)) (q : Question)

/-- The search from a zone and a name on, with how many more CNAMEs may be followed. -/
def chase : Nat → Bool → Contents lib.RR → Name → List lib.RR → Reply lib.RR
  | left, chased, c, n, gathered =>
    match (c.search lib (delegation c n) n q).reply c.negSOA chased gathered with
    | (r, none) => r
    | (r, some target) =>
      match left with
      | 0 => ⟨.serverFailure, false, [], []⟩
      | left + 1 =>
        match zoneOf held target with
        | none => r
        | some c => chase left true c target r.answer

def searchHeld : Reply lib.RR :=
  match zoneOf held q.name with
  | none => ⟨.refused, false, [], []⟩
  | some c => chase lib delegation held q maxCNAMEChain false c q.name []

end Chase

/-- A snapshot that holds a tree for each of some contents, and no other. -/
structure Serving {R : Type} (held : List (Contents R)) (s : Snapshot R) : Prop where
  zone : ∀ apex, Option.Rel Built (held.find? fun c => c.apex == apex) (s.zoneAt apex)
  depth : ∀ apex, (s.zoneAt apex).isSome → apex.labelCount ≤ s.depth

namespace Serving

variable {lib : RRLibrary} {held : List (Contents lib.RR)} {s : Snapshot lib.RR} {q : Question}

theorem zoneFor_rel (h : Serving held s) (n : Name) :
    Option.Rel Built (zoneOf held n) (s.zoneFor n) := by
  rw [Snapshot.zoneFor, Name.findSome_drop_upwards h.depth, zoneOf]
  induction n.upwards with
  | nil => exact .none
  | cons apex above ih =>
    rw [findSome?_cons, findSome?_cons]
    have hzone := h.zone apex
    generalize (held.find? fun c => c.apex == apex) = c at hzone ⊢
    generalize s.zoneAt apex = t at hzone ⊢
    cases hzone with
    | some hbuilt => exact .some hbuilt
    | none => exact ih

theorem follow_reply (h : Serving held s) (hq : q.typ ≠ typeANY) {left : Nat}
    (hleft : left ≤ maxCNAMEChain) {c : Contents lib.RR} {t : ZoneTree lib.RR} (hbuilt : Built c t)
    {n : Name} {a : Answer lib.RR} {gathered : List lib.RR}
    (ha : a.reply = ⟨.success, true, gathered, []⟩) :
    (s.follow lib q left t n a).reply =
      chase lib Contents.nearest held q left (left != maxCNAMEChain) c n gathered := by
  induction left generalizing c t n a gathered with
  | zero =>
    have hround := hbuilt.round_reply (n := n) hq ha (0 != maxCNAMEChain)
    rw [Snapshot.follow.eq_def, chase.eq_def]
    dsimp only
    rw [← hround]
    rcases t.round lib (0 != maxCNAMEChain) n q a with ⟨a', next⟩
    cases next with
    | none => rfl
    | some target => rfl
  | succ left ih =>
    have hround := hbuilt.round_reply (n := n) hq ha (left + 1 != maxCNAMEChain)
    have hon : (left != maxCNAMEChain) = true := by
      rw [bne_iff_ne]
      omega
    rw [Snapshot.follow.eq_def, chase.eq_def]
    dsimp only
    rw [← hround]
    generalize hstep : t.round lib (left + 1 != maxCNAMEChain) n q a = step at hround ⊢
    obtain ⟨a', next⟩ := step
    cases next with
    | none => rfl
    | some target =>
      dsimp only
      have hzone := h.zoneFor_rel target
      generalize zoneOf held target = found at hzone ⊢
      generalize s.zoneFor target = tree at hzone ⊢
      cases hzone with
      | none => rfl
      | some hbuilt' =>
        dsimp only
        rw [← hon]
        refine ih (Nat.le_of_succ_le hleft) hbuilt' ?_
        -- a chain goes on from a CNAME only, with nothing but answers gathered
        generalize c.search lib (c.nearest n) n q = found at hround
        cases found with
        | cname rrs next =>
          have hreply := congrArg Prod.fst hround
          dsimp only [Finding.reply] at hreply
          rw [hreply]
        | referral servers => exact absurd (congrArg Prod.snd hround) (by simp [Finding.reply])
        | records rrs => exact absurd (congrArg Prod.snd hround) (by simp [Finding.reply])
        | nodata => exact absurd (congrArg Prod.snd hround) (by simp [Finding.reply])
        | nxdomain => exact absurd (congrArg Prod.snd hround) (by simp [Finding.reply])

theorem resolve_reply (h : Serving held s) (hq : ordinary q.typ = true) :
    (s.resolve lib q).reply = searchHeld lib Contents.nearest held q := by
  have htype : (isMeta q.typ || (isQueryOnly q.typ && q.typ != typeANY)) = false := by
    simp only [ordinary, Bool.and_eq_true, Bool.not_eq_true'] at hq
    simp [hq]
  have hany : q.typ ≠ typeANY := by
    intro heq
    rw [heq] at hq
    exact absurd hq (by decide)
  rw [Snapshot.resolve, htype, if_neg Bool.false_ne_true, searchHeld]
  have hzone := h.zoneFor_rel q.name
  generalize zoneOf held q.name = found at hzone ⊢
  generalize s.zoneFor q.name = tree at hzone ⊢
  cases hzone with
  | none => rfl
  | some hbuilt => exact h.follow_reply hany (Nat.le_refl _) hbuilt rfl

end Serving

section Failure

variable {lib : RRLibrary} {s : Snapshot lib.RR} {q : Question} {t : ZoneTree lib.RR} {n : Name}
  {a : Answer lib.RR}

theorem ZoneTree.answerAt_rcode (ha : a.rcode ≠ .serverFailure) (x : Node lib.RR) :
    (t.answerAt lib x n q a).1.rcode ≠ .serverFailure := by
  have hadd (set : RRset lib.RR) :
      (t.addAddresses set none (a.appendAnswer lib set x.name n)).rcode = a.rcode :=
    congrArg Reply.rcode addAddresses_reply
  rw [answerAt]
  repeat' split
  · exact Rcode.noConfusion
  · exact hadd _ ▸ ha
  · exact hadd _ ▸ ha
  · exact ha
  · exact Rcode.noConfusion

theorem ZoneTree.round_rcode {chased : Bool} {a' : Answer lib.RR} {next : Option Name}
    (ha : a.rcode ≠ .serverFailure) (hround : t.round lib chased n q a = (a', next)) :
    a'.rcode ≠ .serverFailure := by
  obtain rfl : (t.round lib chased n q a).1 = a' := congrArg Prod.fst hround
  rw [round]
  repeat' split
  · next d hd =>
    rw [referral]
    split
    · exact Rcode.noConfusion
    · next set hset =>
      rw [show (t.addAddresses set (some d) _).rcode = _ from congrArg Reply.rcode addAddresses_reply]
      exact Rcode.noConfusion
  · exact answerAt_rcode ha _
  · exact Rcode.noConfusion
  · exact answerAt_rcode ha _

theorem Snapshot.follow_failure {left : Nat} (ha : a.rcode ≠ .serverFailure)
    (hfail : (s.follow lib q left t n a).rcode = .serverFailure) :
    (s.follow lib q left t n a).additional = [] := by
  fun_induction Snapshot.follow lib s q left t n a with
  | case1 left t n a a' hround => exact absurd hfail (ZoneTree.round_rcode ha hround)
  | case2 => rfl
  | case3 t n a a' target left hzone hround =>
    exact absurd hfail (ZoneTree.round_rcode ha hround)
  | case4 t n a a' target left t' hzone hround ih =>
    exact ih (ZoneTree.round_rcode ha hround) hfail

theorem Snapshot.resolve_failure (hfail : (s.resolve lib q).rcode = .serverFailure) :
    (s.resolve lib q).additional = [] := by
  rw [resolve] at hfail ⊢
  split
  · rfl
  · next hq =>
    rw [if_neg hq] at hfail
    generalize s.zoneFor q.name = tree at hfail ⊢
    cases tree with
    | none => rfl
    | some t => exact follow_failure Rcode.noConfusion hfail

end Failure

section Build

variable {lib : RRLibrary} {records : ZoneID → List Record}

def served (lib : RRLibrary) (records : ZoneID → List Record) (zones : List Zone) :
    Except Err (List (Contents lib.RR)) :=
  (zones.filter fun z => !z.disabled).mapM fun z => contents lib z (records z.id)

theorem Snapshot.zoneAt_add {R : Type} {s : Snapshot R} {t : ZoneTree R} {apex : Name} :
    (s.add t).zoneAt apex = if t.name = apex then some t else s.zoneAt apex := by
  have hrest : ((s.zones.filter fun o => o.name != t.name).find? fun o => o.name == apex) =
      if t.name = apex then none else s.zoneAt apex := by
    rw [find?_filter]
    by_cases hname : t.name = apex
    · rw [if_pos hname, find?_eq_none]
      intro o _
      simp [hname]
    · rw [if_neg hname, Snapshot.zoneAt]
      refine congrArg (fun p => s.zones.find? p) (funext fun o => ?_)
      by_cases ho : o.name = apex
      · simp [ho, Ne.symm hname]
      · simp [ho]
  rw [Snapshot.zoneAt, Snapshot.add, find?_append, hrest]
  by_cases hname : t.name = apex
  · simp [hname]
  · simp [hname]

theorem Serving.add {R : Type} {held : List (Contents R)} {s : Snapshot R} {c : Contents R}
    {t : ZoneTree R} (h : Serving held s) (hbuilt : Built c t) (hnew : ∀ o ∈ held, o.apex ≠ c.apex) :
    Serving (held ++ [c]) (s.add t) := by
  constructor
  · intro apex
    rw [Snapshot.zoneAt_add, find?_append, hbuilt.name]
    by_cases hname : c.apex = apex
    · have hnone : (held.find? fun o => o.apex == apex) = none := by
        rw [find?_eq_none]
        intro o ho
        simpa [← hname] using hnew o ho
      rw [if_pos hname, hnone, Option.none_or, find?_cons_of_pos (by simp [hname])]
      exact .some hbuilt
    · rw [if_neg hname, find?_cons_of_neg (by simp [hname]), find?_nil, Option.or_none]
      exact h.zone apex
  · intro apex hsome
    rw [Snapshot.zoneAt_add] at hsome
    by_cases hname : t.name = apex
    · rw [← hname]
      exact Nat.le_max_right _ _
    · rw [if_neg hname] at hsome
      exact Nat.le_trans (h.depth apex hsome) (Nat.le_max_left _ _)

theorem Serving.blank {R : Type} : Serving [] (Snapshot.blank : Snapshot R) := by
  constructor
  · intro apex
    exact .none
  · intro apex hsome
    cases hsome

theorem buildFrom_serving {zones : List Zone} {held : List (Contents lib.RR)}
    {s s' : Snapshot lib.RR} (h : Serving held s) (hnew : ∀ z ∈ zones, ∀ o ∈ held, o.apex ≠ z.name)
    (hnames : (zones.map Zone.name).Nodup) (hok : zones.foldlM (buildOne lib records) s = .ok s') :
    ∃ more, served lib records zones = .ok more ∧ Serving (held ++ more) s' := by
  induction zones generalizing held s with
  | nil =>
    cases hok
    exact ⟨[], rfl, by simpa using h⟩
  | cons z rest ih =>
    obtain ⟨hz, hrest⟩ := nodup_cons.mp hnames
    obtain ⟨s₁, hone, hafter⟩ := foldlM_cons_eq_ok.mp hok
    rw [buildOne] at hone
    split at hone
    · next hdisabled =>
      cases hone
      rw [served, filter_cons_of_neg (by simp [hdisabled])]
      exact ih h (fun z' hz' => hnew z' (mem_cons_of_mem _ hz')) hrest hafter
    · next hdisabled =>
      simp only [bind_eq_ok, pure_eq_ok] at hone
      obtain ⟨t, hbuild, rfl⟩ := hone
      obtain ⟨c, hc, hapex, hbuilt⟩ := buildZone_eq_ok hbuild
      have hserving := h.add hbuilt fun o ho => hapex ▸ hnew z mem_cons_self o ho
      have hnew' : ∀ z' ∈ rest, ∀ o ∈ held ++ [c], o.apex ≠ z'.name := by
        intro z' hz'
        refine Links.forall_mem_concat (hnew z' (mem_cons_of_mem _ hz')) fun heq => hz ?_
        rw [← hapex, heq]
        exact mem_map_of_mem hz'
      obtain ⟨more, hmore, hall⟩ := ih hserving hnew' hrest hafter
      refine ⟨c :: more, ?_, ?_⟩
      · rw [served, filter_cons_of_pos (by simp [hdisabled]), mapM_cons, hc]
        rw [served] at hmore
        rw [hmore]
        rfl
      · rw [append_assoc] at hall
        exact hall

theorem build_serving {zones : List Zone} {s : Snapshot lib.RR}
    (hnames : (zones.map Zone.name).Nodup) (hok : build lib records zones = .ok s) :
    ∃ held, served lib records zones = .ok held ∧ Serving held s := by
  obtain ⟨held, hheld, h⟩ := buildFrom_serving Serving.blank (by simp) hnames hok
  exact ⟨held, hheld, h⟩

end Build

end DNS

end Wegweiser
