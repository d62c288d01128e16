/-
The search for a name in what a zone serves.

RFC 1034 section 4.3.2 and RFC 4592 read over the contents of a zone: which delegation takes over,
where the data comes from, and what is said when there is none.
-/
import Wegweiser.DNS.Built
import Wegweiser.DNS.Snapshot

namespace Wegweiser

open Option

namespace Name

variable {n m : Name} {limit : Nat}

theorem lt_labelCount_of_mem_take {k : Nat} (hk : limit + k ≤ n.labelCount)
    (hm : m ∈ n.upwards.take k) : limit < m.labelCount := by
  induction k generalizing n with
  | zero =>
    rw [List.take_zero] at hm
    cases hm
  | succ k ih =>
    rw [upwards_eq, List.take_succ_cons, List.mem_cons] at hm
    rcases hm with rfl | hm
    · omega
    · cases hp : n.parent with
      | none =>
        rw [hp] at hm
        simp at hm
      | some p =>
        rw [hp] at hm
        obtain ⟨head, hlabels⟩ := labels_of_parent hp
        have hlen : n.labelCount = p.labelCount + 1 := by
          rw [labelCount, labelCount, hlabels, List.length_cons]
        exact ih (by omega) hm

theorem findSome_drop_upwards {β : Type} {f : Name → Option β}
    (hf : ∀ m, (f m).isSome → m.labelCount ≤ limit) :
    (n.upwards.drop (n.labelCount - limit)).findSome? f = n.upwards.findSome? f := by
  have hcut : (n.upwards.take (n.labelCount - limit)).findSome? f = none := by
    rw [List.findSome?_eq_none_iff]
    intro m hm
    by_contra hsome
    have hle := hf m (isSome_iff_ne_none.mpr hsome)
    by_cases hlimit : limit ≤ n.labelCount
    · have hlt : limit < m.labelCount := lt_labelCount_of_mem_take (by omega) hm
      omega
    · rw [Nat.sub_eq_zero_of_le (by omega), List.take_zero] at hm
      cases hm
  conv_rhs => rw [← List.take_append_drop (n.labelCount - limit) n.upwards]
  rw [List.findSome?_append, hcut, none_or]

end Name

namespace DNS

variable {R : Type}

theorem find_addTo {c c' : Class} {t t' : RRType} {rr : R} {target : Option Name}
    {sets : List (RRset R)} :
    (addTo c t rr target sets).find? (fun set => set.of c' t') =
      if c = c' ∧ t = t' then
        some (match sets.find? (fun set => set.of c t) with
          | none => ⟨c, t, [rr], target.toList⟩
          | some set => { set with rrs := set.rrs ++ [rr], targets := set.targets ++ target.toList })
      else sets.find? (fun set => set.of c' t') := by
  induction sets with
  | nil =>
    by_cases hsame : c = c' ∧ t = t'
    · simp [addTo, RRset.of, hsame]
    · rw [if_neg hsame]
      simp only [addTo, List.find?_cons, List.find?_nil, RRset.of]
      have hfalse : (t == t' && c == c') = false := by
        rw [Bool.eq_false_iff, ne_eq, Bool.and_eq_true, beq_iff_eq, beq_iff_eq]
        exact fun h => hsame h.symm
      rw [hfalse]
  | cons set rest ih =>
    rw [addTo]
    by_cases hof : set.of c t = true
    · have hct : set.typ = t ∧ set.cls = c := by simpa [RRset.of] using hof
      rw [if_pos hof, List.find?_cons, List.find?_cons, List.find?_cons, hof]
      by_cases hsame : c = c' ∧ t = t'
      · rw [if_pos hsame, ← hsame.1, ← hsame.2]
        simp [RRset.of, hct]
      · rw [if_neg hsame]
        have hfalse : set.of c' t' = false := by
          rw [RRset.of, hct.1, hct.2, Bool.eq_false_iff, ne_eq, Bool.and_eq_true, beq_iff_eq,
            beq_iff_eq]
          exact fun h => hsame h.symm
        rw [hfalse]
        simp only [RRset.of] at hfalse ⊢
        rw [hfalse]
    · rw [if_neg hof, List.find?_cons, ih, List.find?_cons, List.find?_cons]
      by_cases hsame : c = c' ∧ t = t'
      · rw [if_pos hsame, if_pos hsame, ← hsame.1, ← hsame.2]
        simp [hof]
      · rw [if_neg hsame, if_neg hsame]

namespace Contents

variable (c : Contents R)

def standing (n : Name) (cls : Class) (typ : RRType) : List (Entry R) :=
  c.entries.filter fun e => e.name == n && (e.cls == cls && e.typ == typ)

def encloser (n : Name) : Option Name := n.upwards.find? c.has

/-- Where the data for a name is taken from: the name itself, or the wildcard of its closest
encloser. -/
def source (n : Name) : Option Name :=
  if c.has n then some n else (c.encloser n).bind c.wildcard

def cut (n : Name) : Option Name := n.upwards.reverse.find? c.delegates

def inClass (cls : Class) : Contents R :=
  { c with entries := c.entries.filter fun e => e.cls == cls }

variable {c}

def setOf (cls : Class) (typ : RRType) : List (Entry R) → Option (RRset R)
  | [] => none
  | e :: es => some ⟨cls, typ, (e :: es).map Entry.rr, (e :: es).filterMap Entry.target⟩

variable {cls : Class} {typ : RRType} {n : Name}

theorem setOf_append {l : List (Entry R)} {e : Entry R} :
    setOf cls typ (l ++ [e]) =
      some (match setOf cls typ l with
        | none => ⟨cls, typ, [e.rr], e.target.toList⟩
        | some set =>
          { set with rrs := set.rrs ++ [e.rr], targets := set.targets ++ e.target.toList }) := by
  cases l with
  | nil => cases htarget : e.target <;> simp [setOf, htarget]
  | cons head rest =>
    rw [List.cons_append, setOf, setOf, ← List.cons_append, List.filterMap_append, List.map_append]
    cases htarget : e.target <;> simp [htarget]

theorem find_sets :
    (c.sets n).find? (fun set => set.of cls typ) = setOf cls typ (c.standing n cls typ) := by
  obtain ⟨apex, entries, negSOA⟩ := c
  -- one record at a time, from the last
  induction entries using List.reverseRecOn with
  | nil => rfl
  | append_singleton entries e ih =>
    have hpush := sets_push (c := ⟨apex, entries, negSOA⟩) (e := e) (n := n)
    rw [push] at hpush
    rw [hpush]
    have hstanding : standing ⟨apex, entries ++ [e], negSOA⟩ n cls typ =
        standing ⟨apex, entries, negSOA⟩ n cls typ ++
          [e].filter fun e => e.name == n && (e.cls == cls && e.typ == typ) :=
      List.filter_append _ _
    rw [hstanding]
    by_cases hname : e.name = n
    · rw [if_pos hname, find_addTo]
      by_cases hsame : e.cls = cls ∧ e.typ = typ
      · rw [if_pos hsame, hsame.1, hsame.2, ih]
        simp only [List.filter_cons, List.filter_nil, hname, hsame, beq_self_eq_true,
          Bool.and_self, if_true]
        exact setOf_append.symm
      · rw [if_neg hsame, ih]
        have hfalse : (e.cls == cls && e.typ == typ) = false := by
          rw [Bool.eq_false_iff, ne_eq, Bool.and_eq_true, beq_iff_eq, beq_iff_eq]
          exact hsame
        simp [hfalse]
    · rw [if_neg hname, ih]
      simp [hname]

theorem findSome_node (l : List Name) : l.findSome? c.node = (l.find? c.has).bind c.node := by
  induction l with
  | nil => rfl
  | cons head rest ih =>
    rw [List.findSome?_cons, List.find?_cons]
    cases hhas : c.has head with
    | true => simp [node, hhas]
    | false => simp [node, hhas, ih]

theorem has_of_delegates (hc : c.Inside) (h : c.delegates n = true) : c.has n = true := by
  obtain ⟨-, e, he, rfl, -⟩ := delegates_iff.mp h
  exact has_iff.mpr ⟨hc e he, e, he, Name.isSubDomainOf_refl e.name⟩

theorem nearest_encloser (hc : c.Inside) : c.nearest n = (c.encloser n).bind c.nearest := by
  rw [nearest, encloser]
  -- up the names: one that does not exist is not delegated either
  generalize hl : n.upwards = l
  induction l generalizing n with
  | nil => rfl
  | cons head rest ih =>
    obtain ⟨rfl, hrest⟩ := List.cons.inj ((Name.upwards_eq n).symm.trans hl)
    rw [List.find?_cons, List.find?_cons]
    cases hhas : c.has n with
    | true =>
      dsimp only
      rw [bind_some, nearest, hl, List.find?_cons]
    | false =>
      have hnot : c.delegates n = false := by
        rw [Bool.eq_false_iff]
        intro h
        rw [has_of_delegates hc h] at hhas
        cases hhas
      rw [hnot]
      dsimp only
      cases hp : n.parent with
      | none =>
        rw [hp] at hrest
        rw [← hrest]
        rfl
      | some p =>
        rw [hp] at hrest
        exact ih hrest

end Contents

open Contents

namespace Built

variable {c : Contents R} {t : ZoneTree R}

variable {n : Name}

theorem labelCount_le_of_has (h : Built c t) (hhas : c.has n = true) :
    n.labelCount ≤ t.name.labelCount + t.depth := by
  obtain ⟨-, e, he, hbelow⟩ := has_iff.mp hhas
  rw [h.name]
  exact Nat.le_trans (Name.labelCount_le hbelow) (h.depth e he)

theorem lookup_eq (h : Built c t) (n : Name) :
    t.lookup n = ⟨c.node n, (c.encloser n).bind c.node, c.nearest n⟩ := by
  have hlimit : ∀ m, (t.nodeAt m).isSome → m.labelCount ≤ t.name.labelCount + t.depth := by
    intro m hm
    rw [h.node, Contents.node] at hm
    split at hm
    · next hhas => exact h.labelCount_le_of_has hhas
    · cases hm
  have hnodes : t.nodeAt = c.node := funext h.node
  rw [ZoneTree.lookup, Name.findSome_drop_upwards hlimit, hnodes, Contents.findSome_node,
    Contents.nearest_encloser h.inside, show n.upwards.find? c.has = c.encloser n from rfl]
  cases hclosest : c.encloser n with
  | none =>
    have hnone : c.has n ≠ true := by
      intro hhas
      exact List.find?_eq_none.mp hclosest n (Name.mem_upwards.mpr (Name.isSubDomainOf_refl n)) hhas
    simp [Contents.node, hnone]
  | some e =>
    have hhas : c.has e = true := List.find?_some hclosest
    simp only [bind_some, Contents.node, hhas, if_true]
    by_cases hself : e = n
    · subst hself
      simp [hhas]
    · -- a name that exists encloses itself
      have hnone : c.has n ≠ true := by
        intro hn
        rw [Contents.encloser, Name.upwards_eq, List.find?_cons, hn] at hclosest
        exact hself (some.inj hclosest).symm
      simp [hself, hnone]

theorem find_node (h : Built c t) {x : Node R} (hx : t.nodeAt n = some x) (cls : Class)
    (typ : RRType) : x.find cls typ = setOf cls typ (c.standing n cls typ) := by
  rw [h.node, Contents.node] at hx
  split at hx
  · cases hx
    exact find_sets
  · cases hx

end Built

/-- What a zone says of a name. -/
inductive Finding (R : Type) where
  | referral (servers : List R)
  | records (rrs : List R)
  | cname (rrs : List R) (target : Option Name)
  | nodata
  | nxdomain
deriving DecidableEq

/-- The sections of a response but the additional one, and what its head says of them. -/
structure Reply (R : Type) where
  rcode : Rcode
  authoritative : Bool
  answer : List R
  authority : List R
deriving DecidableEq

def Answer.reply (a : Answer R) : Reply R := ⟨a.rcode, a.authoritative, a.answer, a.authority⟩

/-- What a finding makes of the records gathered so far, and the name to go on from. -/
def Finding.reply (negSOA : R) (chased : Bool) (gathered : List R) :
    Finding R → Reply R × Option Name
  | .referral servers => (⟨.success, chased, gathered, servers⟩, none)
  | .records rrs => (⟨.success, true, gathered ++ rrs, []⟩, none)
  | .cname rrs target => (⟨.success, true, gathered ++ rrs, []⟩, target)
  | .nodata => (⟨.success, true, gathered, [negSOA]⟩, none)
  | .nxdomain => (⟨.nameError, true, gathered, [negSOA]⟩, none)

def ordinary (t : RRType) : Bool := !isMeta t && !isQueryOnly t

section Round

variable (lib : RRLibrary)

def recordsUnder (stored owner : Name) (es : List (Entry lib.RR)) : List lib.RR :=
  if stored = owner then es.map Entry.rr else (es.map Entry.rr).map (lib.renamed owner.string)

/-- The data at a name, under the name that was asked for (RFC 1034 section 4.3.2 step 3a, and
step 3c where the two differ). -/
def Contents.dataAt (c : Contents lib.RR) (stored owner : Name) (q : Question) : Finding lib.RR :=
  match c.standing stored q.cls q.typ with
  | e :: es => .records (recordsUnder lib stored owner (e :: es))
  | [] =>
    match c.standing stored q.cls typeCNAME with
    | e :: es =>
      .cname (recordsUnder lib stored owner (e :: es)) ((e :: es).filterMap Entry.target).head?
    | [] => .nodata

/-- The search for a name in a zone, with the delegation that takes over from it. -/
def Contents.search (c : Contents lib.RR) (delegation : Option Name) (n : Name) (q : Question) :
    Finding lib.RR :=
  match delegation with
  | some d => .referral ((c.standing d q.cls typeNS).map Entry.rr)
  | none =>
    match c.source n with
    | some stored => c.dataAt lib stored n q
    | none => .nxdomain

variable {lib} {c : Contents lib.RR} {t : ZoneTree lib.RR} {a : Answer lib.RR} {q : Question}

variable {set : RRset lib.RR}

theorem ZoneTree.addAddresses_reply {glueFor : Option Name} :
    (t.addAddresses set glueFor a).reply = a.reply := by
  rw [addAddresses]
  split <;> rfl

theorem Contents.under_setOf {cls : Class} {typ : RRType} {es : List (Entry lib.RR)}
    {stored owner : Name} (hset : setOf cls typ es = some set) :
    set.under lib stored owner = recordsUnder lib stored owner es := by
  cases es with
  | nil => cases hset
  | cons e es =>
    cases hset
    rfl

namespace Built

variable {gathered : List lib.RR}

theorem answerAt_reply (h : Built c t) {stored owner : Name} {x : Node lib.RR}
    (hx : t.nodeAt stored = some x) (hq : q.typ ≠ typeANY)
    (ha : a.reply = ⟨.success, true, gathered, []⟩) (chased : Bool) :
    ((t.answerAt lib x owner q a).1.reply, (t.answerAt lib x owner q a).2) =
      (c.dataAt lib stored owner q).reply c.negSOA chased gathered := by
  have hname := ZoneTree.name_of_nodeAt hx
  have hgathered : a.answer = gathered := (congrArg Reply.answer ha :)
  have hauthority : a.authority = [] := (congrArg Reply.authority ha :)
  have happend : ∀ (set : RRset lib.RR) (es : List (Entry lib.RR)) (typ : RRType),
      Contents.setOf q.cls typ es = some set →
        (a.appendAnswer lib set x.name owner).reply =
          ⟨.success, true, gathered ++ recordsUnder lib stored owner es, []⟩ := by
    intro set es typ hset
    rw [Answer.appendAnswer, Contents.under_setOf hset, hname, ← hgathered]
    exact congrArg (fun r : Reply lib.RR =>
      { r with answer := a.answer ++ recordsUnder lib stored owner es }) ha
  have hnodata : (t.nodata a).reply = ⟨.success, true, gathered, [c.negSOA]⟩ := by
    rw [ZoneTree.nodata, h.negSOA, hauthority]
    exact congrArg (fun r : Reply lib.RR =>
      { r with rcode := .success, authority := [c.negSOA] }) ha
  rw [ZoneTree.answerAt, if_neg hq, h.find_node hx, h.find_node hx, Contents.dataAt]
  cases hstanding : c.standing stored q.cls q.typ with
  | cons e es =>
    simp only [Contents.setOf]
    rw [ZoneTree.addAddresses_reply, happend _ (e :: es) q.typ rfl]
    rfl
  | nil =>
    simp only [Contents.setOf]
    cases halias : c.standing stored q.cls typeCNAME with
    | cons e es =>
      simp only
      rw [happend _ (e :: es) typeCNAME rfl]
      rfl
    | nil =>
      simp only
      rw [hnodata]
      rfl

theorem round_reply (h : Built c t) {n : Name} (hq : q.typ ≠ typeANY)
    (ha : a.reply = ⟨.success, true, gathered, []⟩) (chased : Bool) :
    ((t.round lib chased n q a).1.reply, (t.round lib chased n q a).2) =
      (c.search lib (c.nearest n) n q).reply c.negSOA chased gathered := by
  have hgathered : a.answer = gathered := (congrArg Reply.answer ha :)
  have hauthority : a.authority = [] := (congrArg Reply.authority ha :)
  rw [ZoneTree.round, h.lookup_eq]
  dsimp only
  cases hnearest : c.nearest n with
  | some d =>
    dsimp only [Contents.search]
    have hd : c.delegates d = true := List.find?_some hnearest
    have hhas := Contents.has_of_delegates h.inside hd
    have hnode : t.nodeAt d = some ⟨d, c.sets d, c.wildcard d, c.nearest d⟩ := by
      rw [h.node, Contents.node, if_pos hhas]
    rw [ZoneTree.referral, hnode, bind_some, h.find_node hnode]
    cases hstanding : c.standing d q.cls typeNS with
    | nil => simp [Contents.setOf, Finding.reply, Answer.reply, hgathered, hauthority]
    | cons e es =>
      simp only [Contents.setOf]
      rw [ZoneTree.addAddresses_reply]
      simp [Finding.reply, Answer.reply, hgathered, hauthority]
  | none =>
    dsimp only [Contents.search]
    rw [Contents.source]
    by_cases hhas : c.has n = true
    · have hnode : t.nodeAt n = some ⟨n, c.sets n, c.wildcard n, c.nearest n⟩ := by
        rw [h.node, Contents.node, if_pos hhas]
      rw [← h.node, hnode, if_pos hhas]
      exact h.answerAt_reply hnode hq ha chased
    · rw [Contents.node, if_neg hhas, if_neg hhas]
      dsimp only
      -- the wildcard a node points at is the one its name has
      have hwild : (((c.encloser n).bind c.node).bind Node.wild).bind t.nodeAt =
          ((c.encloser n).bind c.wildcard).bind t.nodeAt := by
        cases hclosest : c.encloser n with
        | none => rfl
        | some e =>
          have he : c.has e = true := List.find?_some hclosest
          rw [bind_some, Contents.node, if_pos he]
          rfl
      rw [hwild]
      cases hstored : (c.encloser n).bind c.wildcard with
      | none =>
        simp only [bind_none]
        rw [ZoneTree.nxdomain, h.negSOA, hauthority]
        simp only [List.nil_append, Finding.reply, Prod.mk.injEq, and_true]
        exact congrArg (fun r : Reply lib.RR =>
          { r with rcode := .nameError, authority := [c.negSOA] }) ha
      | some w =>
        have hw : c.has w = true := by
          obtain ⟨e, -, hwildcard⟩ := bind_eq_some_iff.mp hstored
          rw [Contents.wildcard] at hwildcard
          split at hwildcard
          · split at hwildcard
            · next hw =>
              cases hwildcard
              exact hw
            · cases hwildcard
          · cases hwildcard
        have hnode : t.nodeAt w = some ⟨w, c.sets w, c.wildcard w, c.nearest w⟩ := by
          rw [h.node, Contents.node, if_pos hw]
        rw [bind_some, hnode]
        exact h.answerAt_reply hnode hq ha chased

end Built

end Round

end DNS

end Wegweiser
