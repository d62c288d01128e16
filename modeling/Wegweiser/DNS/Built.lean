/-
What a zone serves, and the tree that is built from it.

The contents of a zone are its enabled records in a list, with the start of authority at their
head.
-/
import Wegweiser.Lib.Links
import Wegweiser.DNS.Tree
import Wegweiser.Zone.Text
import Wegweiser.Zone.Valid

namespace Wegweiser

open Checked List Option Name

namespace Name

variable {n m : Name}

theorem upwards_eq (n : Name) :
    n.upwards = n :: (match n.parent with | none => [] | some p => p.upwards) := by
  obtain ⟨labels, hlabels, hwire⟩ := n
  cases labels with
  | nil => rfl
  | cons head tail => rfl

variable {p : Name}

theorem labels_of_parent (h : n.parent = some p) : ∃ head, n.labels = head :: p.labels := by
  obtain ⟨labels, hlabels, hwire⟩ := n
  cases labels with
  | nil => cases h
  | cons head tail =>
    cases h
    exact ⟨head, rfl⟩

theorem isSubDomainOf_parent (h : n.parent = some p) : n.isSubDomainOf p = true := by
  obtain ⟨head, hlabels⟩ := labels_of_parent h
  rw [isSubDomainOf_iff, hlabels]
  exact suffix_cons head p.labels

theorem isSubDomainOf_cases (h : n.isSubDomainOf m = true) :
    n = m ∨ ∃ p, n.parent = some p ∧ p.isSubDomainOf m = true := by
  rw [← mem_upwards, upwards_eq, mem_cons] at h
  rcases h with rfl | h
  · exact .inl rfl
  · cases hp : n.parent with
    | none =>
      rw [hp] at h
      cases h
    | some p =>
      rw [hp] at h
      exact .inr ⟨p, rfl, mem_upwards.mp h⟩

theorem labelCount_le (h : n.isSubDomainOf m = true) : m.labelCount ≤ n.labelCount :=
  (isSubDomainOf_iff.mp h).length_le

end Name

namespace DNS

variable {R : Type}

/-- A record as it is served. -/
structure Entry (R : Type) where
  name : Name
  cls : Class
  typ : RRType
  rr : R
  target : Option Name
deriving DecidableEq

/-- What a zone serves. -/
structure Contents (R : Type) where
  apex : Name
  entries : List (Entry R)
  negSOA : R
deriving DecidableEq

namespace Contents

variable (c : Contents R)

def has (n : Name) : Bool :=
  n.isSubDomainOf c.apex && c.entries.any fun e => e.name.isSubDomainOf n

def delegates (n : Name) : Bool :=
  n != c.apex && c.entries.any fun e => e.name == n && e.typ == typeNS

def sets (n : Name) : List (RRset R) :=
  (c.entries.filter fun e => e.name == n).foldl
    (fun sets e => addTo e.cls e.typ e.rr e.target sets) []

def wildcard (n : Name) : Option Name :=
  match n.child (ascii "*") with
  | .ok w => if c.has w then some w else none
  | .error _ => none

def nearest (n : Name) : Option Name := n.upwards.find? c.delegates

def bareNode (n : Name) : Option (Node R) :=
  if c.has n then some ⟨n, c.sets n, none, if c.delegates n then some n else none⟩ else none

def node (n : Name) : Option (Node R) :=
  if c.has n then some ⟨n, c.sets n, c.wildcard n, c.nearest n⟩ else none

def push (e : Entry R) : Contents R := { c with entries := c.entries ++ [e] }

variable {c}

variable {n : Name} {e : Entry R}

theorem has_iff :
    c.has n = true ↔ n.isSubDomainOf c.apex = true ∧
      ∃ e ∈ c.entries, e.name.isSubDomainOf n = true := by
  simp [has]

theorem delegates_iff :
    c.delegates n = true ↔ n ≠ c.apex ∧ ∃ e ∈ c.entries, e.name = n ∧ e.typ = typeNS := by
  simp [delegates]

theorem has_push :
    (c.push e).has n = (c.has n || (n.isSubDomainOf c.apex && e.name.isSubDomainOf n)) := by
  simp [has, push, Bool.and_or_distrib_left]

theorem sets_push : (c.push e).sets n =
      if e.name = n then addTo e.cls e.typ e.rr e.target (c.sets n) else c.sets n := by
  simp only [sets, push, filter_append, foldl_append]
  by_cases hname : e.name = n
  · simp [hname]
  · simp [hname]

theorem delegates_push : (c.push e).delegates n =
      (c.delegates n || (n != c.apex && (e.name == n && e.typ == typeNS))) := by
  simp [delegates, push, Bool.and_or_distrib_left]

theorem has_above {m : Name} (h : c.has n = true) (habove : n.isSubDomainOf m = true)
    (hin : m.isSubDomainOf c.apex = true) : c.has m = true := by
  obtain ⟨-, e, he, hbelow⟩ := has_iff.mp h
  exact has_iff.mpr ⟨hin, e, he, isSubDomainOf_trans hbelow habove⟩

end Contents

open Contents

namespace ZoneTree

variable {t : ZoneTree R} {n m : Name}

variable {x : Node R}

theorem name_of_nodeAt (h : t.nodeAt n = some x) : x.name = n := by
  simpa using find?_some h

theorem nodeAt_append : ({ t with nodes := t.nodes ++ [x] } : ZoneTree R).nodeAt n =
      (t.nodeAt n).or (if x.name = n then some x else none) := by
  rw [nodeAt, nodeAt, find?_append]
  by_cases hname : x.name = n
  · simp [hname]
  · simp [hname]

theorem nodeAt_map {f : Node R → Node R} (hf : ∀ x, (f x).name = x.name) :
    ({ t with nodes := t.nodes.map f } : ZoneTree R).nodeAt n = (t.nodeAt n).map f := by
  rw [nodeAt, nodeAt, find?_map]
  refine congrArg (fun p => (t.nodes.find? p).map f) (funext fun x => ?_)
  simp [hf]

theorem isSubDomainOf_iff_parent {p : Name} (hp : n.parent = some p) :
    n.isSubDomainOf m = true ↔ n = m ∨ p.isSubDomainOf m = true := by
  constructor
  · intro h
    rcases isSubDomainOf_cases h with heq | ⟨p', hp', habove⟩
    · exact .inl heq
    · rw [hp] at hp'
      cases hp'
      exact .inr habove
  · intro h
    rcases h with rfl | h
    · exact isSubDomainOf_refl n
    · exact isSubDomainOf_trans (isSubDomainOf_parent hp) h

theorem nodeAt_made {d : Nat} (hnone : t.nodeAt n = none) :
    ({ t with nodes := t.nodes ++ [⟨n, [], none, none⟩], depth := d } : ZoneTree R).nodeAt m =
      if n = m then some ⟨n, [], none, none⟩ else t.nodeAt m := by
  refine (nodeAt_append (t := { t with depth := d })).trans ?_
  by_cases hnm : n = m
  · rw [if_pos hnm, if_pos hnm, ← hnm]
    exact congrArg (fun o => Option.or o _) hnone
  · rw [if_neg hnm, if_neg hnm]
    exact or_none

theorem nodeAt_makeNodes (l : List Name) (hl : l = n.upwards) (hin : n.isSubDomainOf t.name = true)
    (hclosed : ∀ a b, n.isSubDomainOf a = true → (t.nodeAt a).isSome → a.isSubDomainOf b = true →
      b.isSubDomainOf t.name = true → (t.nodeAt b).isSome) :
    (t.makeNodes l).nodeAt m = (t.nodeAt m).or
      (if n.isSubDomainOf m = true ∧ m.isSubDomainOf t.name = true then some ⟨m, [], none, none⟩
        else none) := by
  induction l generalizing t n with
  | nil => cases (hl.trans (upwards_eq n))
  | cons head rest ih =>
    rw [upwards_eq] at hl
    obtain ⟨rfl, hrest⟩ := cons.inj hl
    rw [makeNodes]
    by_cases hthere : (t.nodeAt head).isSome
    · rw [if_pos hthere]
      by_cases hbetween : head.isSubDomainOf m = true ∧ m.isSubDomainOf t.name = true
      · have hm := hclosed head m (isSubDomainOf_refl head) hthere hbetween.1 hbetween.2
        obtain ⟨x, hx⟩ := isSome_iff_exists.mp hm
        rw [hx, some_or]
      · rw [if_neg hbetween, or_none]
    · rw [if_neg hthere]
      have hnone : t.nodeAt head = none := not_isSome_iff_eq_none.mp hthere
      have hmade := fun m => nodeAt_made (m := m)
        (d := max t.depth (head.labelCount - t.name.labelCount)) hnone
      dsimp only
      by_cases hapex : head = t.name
      · rw [if_pos hapex, hmade]
        by_cases hm : head = m
        · have hbetween : head.isSubDomainOf m = true ∧ m.isSubDomainOf t.name = true := by
            rw [← hm]
            exact ⟨isSubDomainOf_refl head, hin⟩
          rw [if_pos hm, if_pos hbetween, ← hm, hnone, none_or]
        · -- only the apex itself is between the apex and the apex
          have hbetween : ¬ (head.isSubDomainOf m = true ∧ m.isSubDomainOf t.name = true) := by
            intro h
            rw [← hapex] at h
            exact hm (isSubDomainOf_antisymm h.1 h.2)
          rw [if_neg hm, if_neg hbetween, or_none]
      · rw [if_neg hapex]
        obtain heq | ⟨p, hp, hbelow⟩ := isSubDomainOf_cases hin
        · exact absurd heq hapex
        · rw [hp] at hrest
          have hne : ∀ a, p.isSubDomainOf a = true → head ≠ a := by
            intro a hpa heq
            obtain ⟨label, hlabels⟩ := labels_of_parent hp
            have hlen := labelCount_le hpa
            rw [← heq, labelCount, labelCount, hlabels, length_cons] at hlen
            omega
          refine (ih (t := { t with
            nodes := t.nodes ++ [⟨head, [], none, none⟩]
            depth := max t.depth (head.labelCount - t.name.labelCount) }) hrest hbelow ?_).trans ?_
          rotate_left
          · rw [hmade]
            by_cases hm : head = m
            · have hbetween : head.isSubDomainOf m = true ∧ m.isSubDomainOf t.name = true := by
                rw [← hm]
                exact ⟨isSubDomainOf_refl head, hin⟩
              rw [if_pos hm, if_pos hbetween, ← hm, hnone, none_or, some_or]
            · have hiff : (p.isSubDomainOf m = true ∧ m.isSubDomainOf t.name = true) ↔
                  head.isSubDomainOf m = true ∧ m.isSubDomainOf t.name = true := by
                rw [isSubDomainOf_iff_parent hp, or_iff_right hm]
              rw [if_neg hm]
              exact congrArg _ (if_congr hiff rfl rfl)
          · intro a b hpa hsome hab hb
            rw [hmade, if_neg (hne a hpa)] at hsome
            rw [hmade, if_neg (hne b (isSubDomainOf_trans hpa hab))]
            exact hclosed a b (isSubDomainOf_trans (isSubDomainOf_parent hp) hpa) hsome
              hab hb

theorem makeNodes_name (l : List Name) : (t.makeNodes l).name = t.name := by
  induction l generalizing t with
  | nil => rfl
  | cons head rest ih =>
    rw [makeNodes]
    split
    · rfl
    · dsimp only
      split
      · rfl
      · exact ih

theorem makeNodes_negSOA (l : List Name) : (t.makeNodes l).negSOA = t.negSOA := by
  induction l generalizing t with
  | nil => rfl
  | cons head rest ih =>
    rw [makeNodes]
    split
    · rfl
    · dsimp only
      split
      · rfl
      · exact ih

theorem le_makeNodes_depth (l : List Name) : t.depth ≤ (t.makeNodes l).depth := by
  induction l generalizing t with
  | nil => exact Nat.le_refl _
  | cons head rest ih =>
    rw [makeNodes]
    split
    · exact Nat.le_refl _
    · dsimp only
      split
      · exact Nat.le_max_left _ _
      · refine Nat.le_trans ?_ ih
        exact Nat.le_max_left _ _

theorem makeNodes_depth (hnone : t.nodeAt n = none) :
    n.labelCount ≤ t.name.labelCount + (t.node n).depth := by
  have hreach : n.labelCount - t.name.labelCount ≤ (t.node n).depth := by
    rw [node, upwards_eq, makeNodes, hnone, if_neg (by simp)]
    dsimp only
    split
    · exact Nat.le_max_right _ _
    · refine Nat.le_trans ?_ (le_makeNodes_depth _)
      exact Nat.le_max_right _ _
  omega

theorem nodeAt_add {cls : Class} {typ : RRType} {rr : R} {target : Option Name} :
    (t.add n cls typ rr target).nodeAt m = (t.nodeAt m).map fun x =>
      if n = m then { x with sets := addTo cls typ rr target x.sets } else x := by
  refine (nodeAt_map (t := { t with count := t.count + 1 }) fun x => ?_).trans ?_
  · split <;> rfl
  · change (t.nodeAt m).map _ = _
    cases hx : t.nodeAt m with
    | none => rfl
    | some x =>
      have hname := name_of_nodeAt hx
      simp only [map_some, hname, eq_comm]

theorem nodeAt_delegate :
    (t.delegate n).nodeAt m = (t.nodeAt m).map fun x =>
      if n = m then { x with delegation := some n } else x := by
  refine (nodeAt_map fun x => ?_).trans ?_
  · split <;> rfl
  · cases hx : t.nodeAt m with
    | none => rfl
    | some x =>
      have hname := name_of_nodeAt hx
      simp only [map_some, hname, eq_comm]

end ZoneTree

open ZoneTree

namespace Contents

variable {c : Contents R} {n : Name}

theorem sets_of_not_has (h : c.has n = false) (hin : n.isSubDomainOf c.apex = true) :
    c.sets n = [] ∧ c.delegates n = false := by
  have hnone : ∀ e ∈ c.entries, e.name ≠ n := by
    intro e he hname
    have hhas : c.has n = true := has_iff.mpr ⟨hin, e, he, hname ▸ isSubDomainOf_refl e.name⟩
    rw [h] at hhas
    cases hhas
  constructor
  · have hfilter : (c.entries.filter fun e => e.name == n) = [] :=
      filter_eq_nil_iff.mpr fun e he => by simpa using hnone e he
    rw [sets, hfilter]
    rfl
  · rw [Bool.eq_false_iff]
    intro hdelegates
    obtain ⟨-, e, he, hname, -⟩ := delegates_iff.mp hdelegates
    exact hnone e he hname

end Contents

/-- A tree that holds some contents, before it is linked, and the delegations met so far. -/
structure Raw (c : Contents R) (t : ZoneTree R) (delegations : List Name) : Prop where
  name : t.name = c.apex
  negSOA : t.negSOA = c.negSOA
  node : ∀ n, t.nodeAt n = c.bareNode n
  depth : ∀ e ∈ c.entries, e.name.labelCount ≤ c.apex.labelCount + t.depth
  delegations : ∀ n, n ∈ delegations ↔ c.delegates n = true

namespace Raw

variable {c : Contents R} {t : ZoneTree R} {ds : List Name} {e : Entry R}

theorem isSome_iff (h : Raw c t ds) {n : Name} : (t.nodeAt n).isSome ↔ c.has n = true := by
  rw [h.node, bareNode]
  split
  · simp_all
  · simp_all

theorem nodeAt_node (h : Raw c t ds) (hin : e.name.isSubDomainOf c.apex = true) (m : Name) :
    (t.node e.name).nodeAt m =
      if (c.push e).has m then
        some ⟨m, c.sets m, none, if c.delegates m then some m else none⟩
      else none := by
  have hclosed : ∀ a b, e.name.isSubDomainOf a = true → (t.nodeAt a).isSome →
      a.isSubDomainOf b = true → b.isSubDomainOf t.name = true → (t.nodeAt b).isSome := by
    intro a b _ ha hab hb
    rw [h.isSome_iff] at ha ⊢
    exact has_above ha hab (h.name ▸ hb)
  rw [ZoneTree.node, ZoneTree.nodeAt_makeNodes _ rfl (h.name ▸ hin) hclosed, h.node, h.name,
    bareNode, has_push]
  cases hhas : c.has m with
  | true => simp
  | false =>
    by_cases hbetween : e.name.isSubDomainOf m = true ∧ m.isSubDomainOf c.apex = true
    · obtain ⟨hsets, hdelegates⟩ := sets_of_not_has hhas hbetween.2
      simp [hbetween, hsets, hdelegates]
    · rw [if_neg hbetween]
      have hfalse : (m.isSubDomainOf c.apex && e.name.isSubDomainOf m) = false := by
        rw [Bool.eq_false_iff, ne_eq, Bool.and_eq_true]
        exact fun hboth => hbetween hboth.symm
      simp [hfalse]

theorem depth_push (h : Raw c t ds) :
    ∀ x ∈ (c.push e).entries,
      x.name.labelCount ≤ c.apex.labelCount + (t.node e.name).depth := by
  intro x hx
  rcases mem_append.mp hx with hx | hx
  · exact Nat.le_trans (h.depth x hx)
      (Nat.add_le_add_left (le_makeNodes_depth e.name.upwards) _)
  · rw [mem_singleton.mp hx]
    cases hthere : t.nodeAt e.name with
    | none => exact h.name ▸ makeNodes_depth hthere
    | some y =>
      -- a name that was there has a record at it or below it
      have hhas : c.has e.name = true := h.isSome_iff.mp (by rw [hthere]; rfl)
      obtain ⟨-, o, ho, hbelow⟩ := has_iff.mp hhas
      exact Nat.le_trans (labelCount_le hbelow) (Nat.le_trans (h.depth o ho)
        (Nat.add_le_add_left (le_makeNodes_depth e.name.upwards) _))

theorem push (h : Raw c t ds) (hin : e.name.isSubDomainOf c.apex = true) :
    Raw (c.push e)
      (if e.typ = typeNS ∧ e.name ≠ c.apex then
        ((t.node e.name).add e.name e.cls e.typ e.rr e.target).delegate e.name
      else (t.node e.name).add e.name e.cls e.typ e.rr e.target)
      (if e.typ = typeNS ∧ e.name ≠ c.apex then e.name :: ds else ds) := by
  have hadded : ∀ m, ((t.node e.name).add e.name e.cls e.typ e.rr e.target).nodeAt m =
      if (c.push e).has m then
        some ⟨m, (c.push e).sets m, none, if c.delegates m then some m else none⟩
      else none := by
    intro m
    rw [nodeAt_add, h.nodeAt_node hin, sets_push]
    by_cases hhas : (c.push e).has m = true
    · rw [if_pos hhas, if_pos hhas, map_some]
      split <;> rfl
    · rw [if_neg hhas, if_neg hhas]
      rfl
  have hname : (t.node e.name).name = c.apex := (makeNodes_name _).trans h.name
  have hnegSOA : (t.node e.name).negSOA = c.negSOA := (makeNodes_negSOA _).trans h.negSOA
  by_cases hns : e.typ = typeNS ∧ e.name ≠ c.apex
  · rw [if_pos hns, if_pos hns]
    refine ⟨hname, hnegSOA, fun m => ?_, h.depth_push, fun m => ?_⟩
    · rw [nodeAt_delegate, hadded, bareNode, delegates_push]
      by_cases hhas : (c.push e).has m = true
      · rw [if_pos hhas, if_pos hhas, map_some]
        by_cases hm : e.name = m
        · subst hm
          simp [hns]
        · simp [hm]
      · rw [if_neg hhas, if_neg hhas]
        rfl
    · rw [mem_cons, h.delegations, delegates_push, Bool.or_eq_true]
      by_cases hm : m = e.name
      · subst hm
        simp [hns]
      · simp [hm, Ne.symm hm]
  · rw [if_neg hns, if_neg hns]
    have hsame : ∀ m, (c.push e).delegates m = c.delegates m := by
      intro m
      rw [delegates_push]
      by_cases hm : e.name = m
      · subst hm
        simp only [not_and, ne_eq, not_not] at hns
        by_cases htyp : e.typ = typeNS
        · simp [hns htyp]
        · simp [htyp]
      · simp [hm]
    refine ⟨hname, hnegSOA, fun m => ?_, h.depth_push, fun m => ?_⟩
    · rw [hadded, bareNode, hsame]
    · rw [h.delegations, hsame]

theorem blank (apex : Name) (soa : SOA) (negTTL : TTL) (negSOA : R) :
    Raw ⟨apex, [], negSOA⟩ ⟨apex, soa, negTTL, negSOA, [], 0, 0⟩ [] where
  name := rfl
  negSOA := rfl
  node := fun n => by simp [nodeAt, bareNode, has]
  depth := by simp
  delegations := by simp [Contents.delegates]

end Raw

def Contents.Inside (c : Contents R) : Prop :=
  ∀ e ∈ c.entries, e.name.isSubDomainOf c.apex = true

/-- A tree that holds some contents. -/
structure Built (c : Contents R) (t : ZoneTree R) : Prop where
  name : t.name = c.apex
  negSOA : t.negSOA = c.negSOA
  node : ∀ n, t.nodeAt n = c.node n
  depth : ∀ e ∈ c.entries, e.name.labelCount ≤ c.apex.labelCount + t.depth
  inside : c.Inside

namespace Raw

variable {c : Contents R} {t : ZoneTree R} {ds : List Name} {n w : Name}

theorem child_eq_ok : n.child (ascii "*") = .ok w ↔ w.labels = ascii "*" :: n.labels := by
  have hstar : (ascii "*").map lowerASCII = ascii "*" := by decide
  rw [child, hstar]
  constructor
  · intro h
    rw [ofLabels] at h
    split at h
    · split at h
      · cases h
        rfl
      · cases h
    · cases h
  · intro h
    rw [← h]
    exact ofLabels_labels w

theorem labels_iff : w.labels = ascii "*" :: n.labels ↔
    w.firstLabel = some (ascii "*") ∧ w.parent = some n := by
  obtain ⟨labels, hlabels, hwire⟩ := w
  cases labels with
  | nil => simp [firstLabel]
  | cons head tail =>
    rw [parent, firstLabel, head?_cons, some.injEq, some.injEq,
      cons.injEq]
    constructor
    · intro h
      exact ⟨h.1, ext_labels h.2⟩
    · intro h
      exact ⟨h.1, (congrArg labels h.2 :)⟩

theorem wildOf_eq (h : Raw c t ds) (hn : n.isSubDomainOf c.apex = true) :
    t.wildOf n = c.wildcard n := by
  have hmem : ∀ x ∈ t.nodes, c.has x.name = true := by
    intro x hx
    rw [← h.isSome_iff, nodeAt, find?_isSome]
    exact ⟨x, hx, by simp⟩
  cases hchild : n.child (ascii "*") with
  | error err =>
    rw [wildcard, hchild, wildOf, map_eq_none_iff, find?_eq_none]
    intro x _ hx
    simp only [Bool.and_eq_true, beq_iff_eq] at hx
    have hlabels := labels_iff.mpr ⟨hx.1.1, hx.2⟩
    rw [child_eq_ok.mpr hlabels] at hchild
    cases hchild
  | ok w =>
    have hlabels := child_eq_ok.mp hchild
    obtain ⟨hfirst, hparent⟩ := labels_iff.mp hlabels
    have hapex : w ≠ t.name := by
      intro heq
      have hlen := labelCount_le hn
      rw [← h.name, ← heq, labelCount, hlabels, length_cons, labelCount] at hlen
      omega
    rw [wildcard, hchild]
    by_cases hhas : c.has w = true
    · simp only [hhas, if_true]
      obtain ⟨x, hx⟩ := isSome_iff_exists.mp (h.isSome_iff.mpr hhas)
      have hname := name_of_nodeAt hx
      have hfound : (t.nodes.find? fun n' => n'.name.firstLabel == some (ascii "*") &&
          n'.name != t.name && n'.name.parent == some n).isSome := by
        rw [find?_isSome]
        exact ⟨x, mem_of_find?_eq_some hx, by simp [hname, hfirst, hparent, hapex]⟩
      obtain ⟨y, hy⟩ := isSome_iff_exists.mp hfound
      have hyp := find?_some hy
      simp only [Bool.and_eq_true, beq_iff_eq] at hyp
      rw [wildOf, hy, map_some, some.injEq]
      exact ext_labels ((labels_iff.mpr ⟨hyp.1.1, hyp.2⟩).trans hlabels.symm)
    · simp only [hhas]
      rw [wildOf, if_neg Bool.false_ne_true, map_eq_none_iff, find?_eq_none]
      intro x hx hxp
      simp only [Bool.and_eq_true, beq_iff_eq] at hxp
      have hxw : x.name = w :=
        ext_labels ((labels_iff.mpr ⟨hxp.1.1, hxp.2⟩).trans hlabels.symm)
      exact hhas (hxw ▸ hmem x hx)

theorem not_delegates_above (hc : c.Inside) {m : Name} (habove : c.apex.isSubDomainOf m = true) :
    c.delegates m = false := by
  rw [Bool.eq_false_iff]
  intro hdelegates
  obtain ⟨hne, e, he, rfl, -⟩ := Contents.delegates_iff.mp hdelegates
  exact hne (isSubDomainOf_antisymm (hc e he) habove)

theorem delegationAbove_eq (h : Raw c t ds) (hc : c.Inside) (hn : n.isSubDomainOf c.apex = true)
    (l : List Name) (hl : l = n.upwards.tail) :
    delegationAbove c.apex ds n l = l.find? c.delegates := by
  induction l generalizing n with
  | nil => rfl
  | cons parent above ih =>
    rw [delegationAbove]
    have hup : n.upwards = n :: parent :: above := by
      rw [upwards_eq] at hl ⊢
      rw [hl]
      rfl
    by_cases hapex : n = c.apex
    · rw [if_pos hapex, eq_comm, find?_eq_none]
      intro m hm hdelegates
      have hmem : m ∈ n.upwards := by
        rw [hup]
        exact mem_cons_of_mem _ hm
      rw [not_delegates_above hc (hapex ▸ mem_upwards.mp hmem)] at hdelegates
      cases hdelegates
    · rw [if_neg hapex, find?_cons]
      obtain heq | ⟨p, hp, hbelow⟩ := isSubDomainOf_cases hn
      · exact absurd heq hapex
      · have htail : parent :: above = p.upwards := by
          rw [hl, upwards_eq n, hp]
          rfl
        have hparent : parent = p := by
          rw [upwards_eq p] at htail
          exact (cons.inj htail).1
        subst hparent
        have hcontains : ds.contains parent = c.delegates parent := by
          rw [Bool.eq_iff_iff, contains_iff_mem]
          exact h.delegations parent
        rw [hcontains]
        cases hdel : c.delegates parent with
        | true => rfl
        | false =>
          rw [if_neg Bool.false_ne_true]
          exact ih hbelow (by rw [← htail]; rfl)

theorem link (h : Raw c t ds) (hc : c.Inside) : Built c (t.link ds) := by
  refine ⟨h.name, h.negSOA, fun n => ?_, h.depth, hc⟩
  rw [ZoneTree.link, ZoneTree.nodeAt_map (by intro; rfl), h.node, Contents.bareNode, Contents.node]
  by_cases hhas : c.has n = true
  · have hn := (has_iff.mp hhas).1
    rw [if_pos hhas, if_pos hhas, map_some]
    have hnearest : c.nearest n =
        if c.delegates n then some n else n.upwards.tail.find? c.delegates := by
      rw [nearest, upwards_eq, find?_cons]
      cases c.delegates n <;> rfl
    dsimp only
    rw [h.wildOf_eq hn, hnearest]
    by_cases hdel : c.delegates n = true
    · simp only [hdel, if_true]
    · rw [if_neg hdel, if_neg hdel]
      dsimp only
      rw [h.name, h.delegationAbove_eq hc hn _ rfl]
  · rw [if_neg hhas, if_neg hhas]
    rfl

end Raw

def isServed (r : Record) : Bool := !r.disabled && r.type != typeSOA

def recordEntry (lib : RRLibrary) (r : Record) : Except Err (Entry lib.RR) := do
  let rr ← lib.recordRR r
  let target ← lib.followed r.type rr
  pure ⟨r.name, r.cls, r.type, rr, target⟩

def contents (lib : RRLibrary) (z : Zone) (records : List Record) :
    Except Err (Contents lib.RR) := do
  let soa ← lib.soaRR z z.soa.ttl
  let negSOA ← lib.soaRR z z.soa.negativeTTL
  let entries ← (records.filter isServed).mapM (recordEntry lib)
  pure ⟨z.name, ⟨z.name, classIN, typeSOA, soa, none⟩ :: entries, negSOA⟩

section Zone

variable {lib : RRLibrary} {z : Zone} {t t' : ZoneTree lib.RR} {ds ds' : List Name}
  {c : Contents lib.RR}

variable {r : Record} {records : List Record}

theorem recordEntry_eq_ok {e : Entry lib.RR} (h : recordEntry lib r = .ok e) :
    e.name = r.name ∧ e.cls = r.cls ∧ e.typ = r.type ∧ lib.recordRR r = .ok e.rr ∧
      lib.followed r.type e.rr = .ok e.target := by
  simp only [recordEntry, bind_eq_ok, pure_eq_ok] at h
  obtain ⟨rr, hrr, target, htarget, rfl⟩ := h
  exact ⟨rfl, rfl, rfl, hrr, htarget⟩

theorem buildRecord_eq_ok (hok : buildRecord lib z (t, ds) r = .ok (t', ds')) :
    (isServed r = false ∧ t' = t ∧ ds' = ds) ∨
      ∃ e, isServed r = true ∧ z.contains r.name = true ∧ recordEntry lib r = .ok e ∧
        t' = (if e.typ = typeNS ∧ e.name ≠ z.name then
          ((t.node e.name).add e.name e.cls e.typ e.rr e.target).delegate e.name
          else (t.node e.name).add e.name e.cls e.typ e.rr e.target) ∧
        ds' = if e.typ = typeNS ∧ e.name ≠ z.name then e.name :: ds else ds := by
  rw [buildRecord] at hok
  split at hok
  · next hdisabled =>
    cases hok
    exact .inl ⟨by simp [isServed, hdisabled], rfl, rfl⟩
  · next hdisabled =>
    split at hok
    · next hsoa =>
      cases hok
      exact .inl ⟨by simp [isServed, hsoa], rfl, rfl⟩
    · next hsoa =>
      simp only [bind_eq_ok, ensure_eq_ok] at hok
      obtain ⟨-, hin, rr, hrr, target, htarget, hrest⟩ := hok
      have hserved : isServed r = true := by simp [isServed, hdisabled, hsoa]
      have hentry : recordEntry lib r = .ok ⟨r.name, r.cls, r.type, rr, target⟩ := by
        simp only [recordEntry, bind_eq_ok, pure_eq_ok]
        exact ⟨rr, hrr, target, htarget, rfl⟩
      have hapex : (r.type = typeNS ∧ z.isApex r.name = false) ↔
          r.type = typeNS ∧ r.name ≠ z.name := by
        rw [Zone.isApex, beq_eq_false_iff_ne, ne_comm]
      refine .inr ⟨_, hserved, hin, hentry, ?_⟩
      dsimp only
      by_cases hns : r.type = typeNS ∧ z.isApex r.name = false
      · rw [if_pos hns] at hrest
        cases hrest
        rw [if_pos (hapex.mp hns), if_pos (hapex.mp hns)]
        exact ⟨rfl, rfl⟩
      · rw [if_neg hns] at hrest
        cases hrest
        rw [if_neg (hapex.not.mp hns), if_neg (hapex.not.mp hns)]
        exact ⟨rfl, rfl⟩

theorem buildRecords_raw (h : Raw c t ds) (hapex : c.apex = z.name)
    (hc : c.Inside) (hok : records.foldlM (buildRecord lib z) (t, ds) = .ok (t', ds')) :
    ∃ entries, (records.filter isServed).mapM (recordEntry lib) = .ok entries ∧
      Raw { c with entries := c.entries ++ entries } t' ds' ∧
      Inside { c with entries := c.entries ++ entries } := by
  induction records generalizing c t ds with
  | nil =>
    cases hok
    refine ⟨[], rfl, ?_, ?_⟩
    · simpa using h
    · simpa using hc
  | cons r rest ih =>
    obtain ⟨⟨t₁, ds₁⟩, hr, hrest⟩ := foldlM_cons_eq_ok.mp hok
    rcases buildRecord_eq_ok hr with ⟨hserved, rfl, rfl⟩ | ⟨e, hserved, hin, hentry, ht, hds⟩
    · rw [filter_cons_of_neg (by simp [hserved])]
      exact ih h hapex hc hrest
    · rw [filter_cons_of_pos hserved]
      obtain ⟨hname, -⟩ := recordEntry_eq_ok hentry
      have hinside : e.name.isSubDomainOf c.apex = true := by
        rw [hname, hapex]
        exact hin
      have hstep : Raw (c.push e) t₁ ds₁ := by
        rw [ht, hds, ← hapex]
        exact h.push hinside
      have hc' : (c.push e).Inside := Links.forall_mem_concat hc hinside
      obtain ⟨entries, hentries, hraw, hall⟩ := ih hstep hapex hc' hrest
      have happend : c.entries ++ [e] ++ entries = c.entries ++ e :: entries := by simp
      refine ⟨e :: entries, ?_, ?_, ?_⟩
      · rw [mapM_cons, hentry, hentries]
        rfl
      · exact happend ▸ hraw
      · exact happend ▸ hall

theorem buildZone_eq_ok (hok : buildZone lib z records = .ok t) :
    ∃ c, contents lib z records = .ok c ∧ c.apex = z.name ∧ Built c t := by
  simp only [buildZone, bind_eq_ok, pure_eq_ok, Prod.exists] at hok
  obtain ⟨soa, hsoa, negSOA, hneg, t', ds, hrun, rfl⟩ := hok
  let e : Entry lib.RR := ⟨z.name, classIN, typeSOA, soa, none⟩
  have hblank := Raw.blank z.name z.soa z.soa.negativeTTL negSOA
  have hstart := hblank.push (e := e) (isSubDomainOf_refl z.name)
  rw [if_neg (by simp [e, typeSOA, typeNS]), if_neg (by simp [e, typeSOA, typeNS])] at hstart
  have hc : Inside (push ⟨z.name, [], negSOA⟩ e) := by
    intro x hx
    rw [mem_singleton.mp hx]
    exact isSubDomainOf_refl z.name
  obtain ⟨entries, hentries, hraw, hall⟩ := buildRecords_raw hstart rfl hc hrun
  refine ⟨_, ?_, rfl, hraw.link hall⟩
  simp only [contents, bind_eq_ok, pure_eq_ok]
  exact ⟨soa, hsoa, negSOA, hneg, entries, hentries, rfl⟩

end Zone

end DNS

end Wegweiser
