/-
The additional section.

What `Resolve` puts there is written out set by set, with the owner each set stands at.
-/
import Wegweiser.DNS.Referral

namespace Wegweiser

open Checked Sample Option

namespace DNS

variable {R : Type}

namespace ZoneTree

variable (t : ZoneTree R)

def offered (cls : Class) (glueFor : Option Name) (target : Name) (typ : RRType) :
    Option (RRset R) :=
  (t.nodeAt target).bind fun n =>
    if n.delegation.isSome && n.delegation != glueFor then none else n.find cls typ

/-- The sets `addAddresses` puts in, with their owners, once so many records are there. -/
def putsFrom (cls : Class) (glueFor : Option Name) :
    List (Name × RRType) → Nat → List (Name × RRset R)
  | [], _ => []
  | (target, typ) :: rest, filled =>
    match t.offered cls glueFor target typ with
    | none => putsFrom cls glueFor rest filled
    | some set =>
      if maxAdditional < filled + set.rrs.length then []
      else (target, set) :: putsFrom cls glueFor rest (filled + set.rrs.length)

variable {t}

variable {cls : Class} {glueFor : Option Name}

theorem addAddressesFrom_cons {target : Name} {typ : RRType}
    {rest : List (Name × RRType)} {done : List R} :
    t.addAddressesFrom cls glueFor ((target, typ) :: rest) done =
      match t.offered cls glueFor target typ with
      | none => t.addAddressesFrom cls glueFor rest done
      | some set =>
        if maxAdditional < done.length + set.rrs.length then done
        else t.addAddressesFrom cls glueFor rest (done ++ set.rrs) := by
  rw [addAddressesFrom, offered]
  cases hnode : t.nodeAt target with
  | none => rfl
  | some n =>
    dsimp only [bind_some]
    split
    · rfl
    · rfl

theorem addAddressesFrom_eq (wanted : List (Name × RRType)) (done : List R) :
    t.addAddressesFrom cls glueFor wanted done =
      done ++ (t.putsFrom cls glueFor wanted done.length).flatMap fun p => p.2.rrs := by
  induction wanted generalizing done with
  | nil => simp [addAddressesFrom, putsFrom]
  | cons head rest ih =>
    obtain ⟨target, typ⟩ := head
    rw [addAddressesFrom_cons, putsFrom]
    cases hoffered : t.offered cls glueFor target typ with
    | none => exact ih done
    | some set =>
      dsimp only
      split
      · simp
      · rw [ih, List.flatMap_cons, List.length_append, List.append_assoc]

theorem addAddressesFrom_length (cls : Class) (glueFor : Option Name)
    (wanted : List (Name × RRType)) (done : List R) (hdone : done.length ≤ maxAdditional) :
    (t.addAddressesFrom cls glueFor wanted done).length ≤ maxAdditional := by
  induction wanted generalizing done with
  | nil => exact hdone
  | cons head rest ih =>
    obtain ⟨target, typ⟩ := head
    rw [addAddressesFrom_cons]
    cases hoffered : t.offered cls glueFor target typ with
    | none => exact ih done hdone
    | some set =>
      dsimp only
      split
      · exact hdone
      · next hfits =>
        refine ih _ ?_
        rw [List.length_append]
        omega

theorem mem_putsFrom {wanted : List (Name × RRType)}
    {filled : Nat} {p : Name × RRset R} (hp : p ∈ t.putsFrom cls glueFor wanted filled) :
    ∃ typ, (p.1, typ) ∈ wanted ∧ t.offered cls glueFor p.1 typ = some p.2 := by
  induction wanted generalizing filled with
  | nil => cases hp
  | cons head rest ih =>
    obtain ⟨target, typ⟩ := head
    rw [putsFrom] at hp
    cases hoffered : t.offered cls glueFor target typ with
    | none =>
      rw [hoffered] at hp
      obtain ⟨typ', hmem, hset⟩ := ih hp
      exact ⟨typ', List.mem_cons_of_mem _ hmem, hset⟩
    | some set =>
      rw [hoffered] at hp
      dsimp only at hp
      split at hp
      · cases hp
      · rcases List.mem_cons.mp hp with rfl | hp
        · exact ⟨typ, List.mem_cons_self, hoffered⟩
        · obtain ⟨typ', hmem, hset⟩ := ih hp
          exact ⟨typ', List.mem_cons_of_mem _ hmem, hset⟩

end ZoneTree

/-- What the additional section is filled for: the set of records the response carries, the
zone it is from, and the delegation where they are the servers referred to. -/
structure Subject (R : Type) where
  tree : ZoneTree R
  set : RRset R
  glueFor : Option Name

def Subject.puts (x : Subject R) : List (Name × RRset R) :=
  if x.set.typ = typeNS ∨ x.set.typ = typeMX ∨ x.set.typ = typeSRV then
    x.tree.putsFrom x.set.cls x.glueFor
      (x.set.targets.flatMap fun target => [(target, typeA), (target, typeAAAA)]) 0
  else []

theorem ZoneTree.addAddresses_additional {t : ZoneTree R} {set : RRset R} {glueFor : Option Name}
    {a : Answer R} (ha : a.additional = []) :
    (t.addAddresses set glueFor a).additional =
      (Subject.puts ⟨t, set, glueFor⟩).flatMap fun p => p.2.rrs := by
  rw [addAddresses, Subject.puts]
  split
  · dsimp only
    rw [ha, addAddressesFrom_eq]
    rfl
  · rw [ha]
    rfl

section Subject

variable (lib : RRLibrary)

def ZoneTree.answering (t : ZoneTree R) (name : Name) : Option (Node R) :=
  match (t.lookup name).node with
  | some n => some n
  | none => (t.lookup name).closest.bind Node.wild |>.bind t.nodeAt

def ZoneTree.subject (t : ZoneTree R) (name : Name) (q : Question) : Option (Subject R) :=
  match (t.lookup name).delegation with
  | some d =>
    ((t.nodeAt d).bind fun n => n.find q.cls typeNS).map fun set => ⟨t, set, some d⟩
  | none =>
    ((t.answering name).bind fun n =>
      if q.typ = typeANY then anyRRset n q.cls else n.find q.cls q.typ).map fun set =>
        ⟨t, set, none⟩

/-- The same along the loop of `Resolve`. -/
def Snapshot.subjectFrom (s : Snapshot lib.RR) (q : Question) :
    Nat → ZoneTree lib.RR → Name → Option (Subject lib.RR)
  | left, t, name =>
    match (t.round lib (left != maxCNAMEChain) name q Answer.reset).2 with
    | none => t.subject name q
    | some target =>
      match left with
      | 0 => none
      | left + 1 =>
        match s.zoneFor target with
        | none => none
        | some t => subjectFrom s q left t target

def Snapshot.subject (s : Snapshot lib.RR) (q : Question) : Option (Subject lib.RR) :=
  if isMeta q.typ || (isQueryOnly q.typ && q.typ != typeANY) then none
  else
    match s.zoneFor q.name with
    | none => none
    | some t => s.subjectFrom lib q maxCNAMEChain t q.name

/-- The sets `Resolve` puts in the additional section, with their owners. -/
def Snapshot.puts (s : Snapshot lib.RR) (q : Question) : List (Name × RRset lib.RR) :=
  (s.subject lib q).elim [] Subject.puts

variable {lib} {t : ZoneTree lib.RR} {s : Snapshot lib.RR} {q : Question}

def recordsOf (puts : List (Name × RRset R)) : List R := puts.flatMap fun p => p.2.rrs

variable {a : Answer lib.RR} {name : Name}

theorem ZoneTree.answerAt_additional {n : Node lib.RR} {owner : Name} (ha : a.additional = []) :
    (t.answerAt lib n owner q a).1.additional =
      recordsOf
    (((if q.typ = typeANY then anyRRset n q.cls else n.find q.cls q.typ).map fun set =>
        (⟨t, set, none⟩ : Subject lib.RR)).elim [] Subject.puts) ∧
    ((t.answerAt lib n owner q a).2.isSome → (t.answerAt lib n owner q a).1.additional = []) := by
  rw [answerAt]
  by_cases hany : q.typ = typeANY
  · rw [if_pos hany, if_pos hany]
    cases hset : anyRRset n q.cls with
    | none => exact ⟨ha, fun _ => ha⟩
    | some set =>
      refine ⟨addAddresses_additional (a := a.appendAnswer lib set n.name owner) ha, ?_⟩
      intro hsome
      cases hsome
  · rw [if_neg hany, if_neg hany]
    cases hset : n.find q.cls q.typ with
    | some set =>
      refine ⟨addAddresses_additional (a := a.appendAnswer lib set n.name owner) ha, ?_⟩
      intro hsome
      cases hsome
    | none =>
      dsimp only
      cases hcname : n.find q.cls typeCNAME with
      | some set => exact ⟨ha, fun _ => ha⟩
      | none => exact ⟨ha, fun _ => ha⟩

theorem ZoneTree.round_additional (chased : Bool) (name : Name) (ha : a.additional = []) :
    (t.round lib chased name q a).1.additional =
      recordsOf ((t.subject name q).elim [] Subject.puts) ∧
    ((t.round lib chased name q a).2.isSome → (t.round lib chased name q a).1.additional = []) := by
  rw [round, subject, answering]
  cases hdelegation : (t.lookup name).delegation with
  | some d =>
    dsimp only
    rw [referral]
    cases hset : (t.nodeAt d).bind fun n => n.find q.cls typeNS with
    | none => exact ⟨ha, fun _ => ha⟩
    | some set =>
      dsimp only [Option.map_some, Option.elim]
      refine ⟨addAddresses_additional ha, ?_⟩
      intro hsome
      cases hsome
  | none =>
    dsimp only
    cases hnode : (t.lookup name).node with
    | some n => exact answerAt_additional ha
    | none =>
      dsimp only
      cases hwild : ((t.lookup name).closest.bind Node.wild).bind t.nodeAt with
      | none => exact ⟨ha, fun _ => ha⟩
      | some n => exact answerAt_additional ha

theorem ZoneTree.round_next {chased chased' : Bool} (a a' : Answer lib.RR) :
    (t.round lib chased name q a).2 = (t.round lib chased' name q a').2 := by
  have hanswer : ∀ n owner, (t.answerAt lib n owner q a).2 = (t.answerAt lib n owner q a').2 := by
    intro n owner
    rw [answerAt, answerAt]
    by_cases hany : q.typ = typeANY
    · rw [if_pos hany, if_pos hany]
      cases anyRRset n q.cls <;> rfl
    · rw [if_neg hany, if_neg hany]
      cases n.find q.cls q.typ with
      | some set => rfl
      | none => cases n.find q.cls typeCNAME <;> rfl
  rw [round, round]
  cases (t.lookup name).delegation with
  | some d => rfl
  | none =>
    cases (t.lookup name).node with
    | some n => exact hanswer n name
    | none =>
      cases ((t.lookup name).closest.bind Node.wild).bind t.nodeAt with
      | none => rfl
      | some n => exact hanswer n name

theorem Snapshot.follow_additional {left : Nat} (ha : a.additional = []) :
    (s.follow lib q left t name a).additional =
      recordsOf ((s.subjectFrom lib q left t name).elim [] Subject.puts) := by
  induction left generalizing t name a with
  | zero =>
    rw [follow.eq_def, subjectFrom.eq_def]
    dsimp only
    rw [ZoneTree.round_next Answer.reset a]
    obtain ⟨hend, -⟩ := ZoneTree.round_additional (t := t) (q := q) (0 != maxCNAMEChain) name ha
    generalize t.round lib (0 != maxCNAMEChain) name q a = step at hend ⊢
    obtain ⟨a', next⟩ := step
    cases next with
    | none => exact hend
    | some target => rfl
  | succ left ih =>
    rw [follow.eq_def, subjectFrom.eq_def]
    dsimp only
    rw [ZoneTree.round_next Answer.reset a]
    obtain ⟨hend, hon⟩ := ZoneTree.round_additional (t := t) (q := q) (left + 1 != maxCNAMEChain) name
      ha
    generalize t.round lib (left + 1 != maxCNAMEChain) name q a = step at hend hon ⊢
    obtain ⟨a', next⟩ := step
    cases next with
    | none => exact hend
    | some target =>
      dsimp only
      cases s.zoneFor target with
      | none => exact hon rfl
      | some t' => exact ih (hon rfl)

theorem Subject.puts_length (x : Subject R) : (recordsOf x.puts).length ≤ maxAdditional := by
  rw [Subject.puts]
  split
  · have hall := ZoneTree.addAddressesFrom_length (t := x.tree) x.set.cls x.glueFor
      (x.set.targets.flatMap fun target => [(target, typeA), (target, typeAAAA)]) [] (Nat.zero_le _)
    rw [ZoneTree.addAddressesFrom_eq] at hall
    exact hall
  · exact Nat.zero_le _

theorem Snapshot.puts_length : (recordsOf (s.puts lib q)).length ≤ maxAdditional := by
  rw [puts]
  cases s.subject lib q with
  | none => exact Nat.zero_le _
  | some x => exact x.puts_length

theorem Snapshot.resolve_additional : (s.resolve lib q).additional = recordsOf (s.puts lib q) := by
  rw [resolve, puts, subject]
  split
  · rfl
  · cases s.zoneFor q.name with
    | none => rfl
    | some t => exact follow_additional rfl

end Subject

section Facts

variable {lib : RRLibrary} {t : ZoneTree lib.RR} {s : Snapshot lib.RR} {q : Question}
  {x : Subject lib.RR}

variable {n : Node R} {cls : Class} {set : RRset R} {name : Name}

theorem cls_of_find {typ : RRType} (h : n.find cls typ = some set) :
    set.cls = cls ∧ set.typ = typ := by
  have hof := List.find?_some (p := fun set : RRset R => set.of cls typ) h
  simpa [RRset.of, and_comm] using hof

theorem cls_of_anyRRset (h : anyRRset n cls = some set) : set.cls = cls := by
  have hall : ∀ o ∈ n.sets.filter fun set => set.cls == cls, o.cls = cls := by
    intro o ho
    simpa using (List.mem_filter.mp ho).2
  rw [anyRRset] at h
  split at h
  · next o ho =>
    cases h
    exact hall _ (List.mem_of_find?_eq_some ho)
  · -- the best so far is always one of them
    generalize (n.sets.filter fun set => set.cls == cls) = sets at h hall
    have hfold : ∀ (l : List (RRset R)) (best : Option (RRset R)),
        (∀ o ∈ l, o.cls = cls) → (∀ o ∈ best, o.cls = cls) →
        ∀ o ∈ l.foldl (fun best set =>
          match best with
          | none => some set
          | some b => if set.typ < b.typ then some set else some b) best, o.cls = cls := by
      intro l
      induction l with
      | nil =>
        intro best _ hbest
        exact hbest
      | cons head rest ih =>
        intro best hl hbest
        refine ih _ (fun o ho => hl o (List.mem_cons_of_mem _ ho)) ?_
        intro o ho
        have hhead := hl head List.mem_cons_self
        cases best with
        | none =>
          cases ho
          exact hhead
        | some b =>
          dsimp only at ho
          split at ho
          · cases ho
            exact hhead
          · exact hbest o ho
    exact hfold sets none hall (by simp) set h

theorem ZoneTree.subject_facts (h : t.subject name q = some x) :
    x.tree = t ∧ x.set.cls = q.cls := by
  rw [subject] at h
  cases hdelegation : (t.lookup name).delegation with
  | some d =>
    rw [hdelegation] at h
    obtain ⟨set, hset, rfl⟩ := map_eq_some_iff.mp h
    obtain ⟨n, -, hfind⟩ := bind_eq_some_iff.mp hset
    exact ⟨rfl, (cls_of_find hfind).1⟩
  | none =>
    rw [hdelegation] at h
    obtain ⟨set, hset, rfl⟩ := map_eq_some_iff.mp h
    obtain ⟨n, -, hfind⟩ := bind_eq_some_iff.mp hset
    split at hfind
    · exact ⟨rfl, cls_of_anyRRset hfind⟩
    · exact ⟨rfl, (cls_of_find hfind).1⟩

theorem Snapshot.subjectFrom_facts {left : Nat} {n : Name} (ht : s.zoneFor n = some t)
    (h : s.subjectFrom lib q left t name = some x) :
    (∃ n, s.zoneFor n = some x.tree) ∧ x.set.cls = q.cls := by
  induction left generalizing t name n with
  | zero =>
    rw [subjectFrom.eq_def] at h
    dsimp only at h
    split at h
    · obtain ⟨htree, hcls⟩ := ZoneTree.subject_facts h
      exact ⟨⟨n, htree ▸ ht⟩, hcls⟩
    · cases h
  | succ left ih =>
    rw [subjectFrom.eq_def] at h
    dsimp only at h
    split at h
    · obtain ⟨htree, hcls⟩ := ZoneTree.subject_facts h
      exact ⟨⟨n, htree ▸ ht⟩, hcls⟩
    · split at h
      · cases h
      · next hzone => exact ih hzone h

theorem Snapshot.subject_facts (h : s.subject lib q = some x) :
    (∃ n, s.zoneFor n = some x.tree) ∧ x.set.cls = q.cls := by
  rw [subject] at h
  split at h
  · cases h
  · split at h
    · cases h
    · next hzone => exact subjectFrom_facts hzone h

theorem Subject.mem_puts {p : Name × RRset R} {x : Subject R} (hp : p ∈ x.puts) :
    (p.2.typ = typeA ∨ p.2.typ = typeAAAA) ∧ ∃ n, x.tree.nodeAt p.1 = some n ∧
      n.find x.set.cls p.2.typ = some p.2 ∧
      (n.delegation = none ∨ ∃ d, n.delegation = some d ∧ x.glueFor = some d) := by
  rw [puts] at hp
  split at hp
  · obtain ⟨typ, hwanted, hoffered⟩ := ZoneTree.mem_putsFrom hp
    obtain ⟨target, -, htyp⟩ := List.mem_flatMap.mp hwanted
    obtain ⟨n, hn, hset⟩ := bind_eq_some_iff.mp hoffered
    split at hset
    · cases hset
    · next hdelegation =>
      have htype := (cls_of_find hset).2
      refine ⟨?_, n, hn, htype ▸ hset, ?_⟩
      · simp only [List.mem_cons, Prod.mk.injEq, List.not_mem_nil, or_false] at htyp
        rw [htype]
        exact htyp.imp And.right And.right
      · cases hd : n.delegation with
        | none => exact .inl rfl
        | some d =>
          right
          rw [hd] at hdelegation
          simp only [isSome_some, Bool.true_and, bne_iff_ne, ne_eq, not_not] at hdelegation
          exact ⟨d, rfl, hdelegation.symm⟩
  · cases hp

end Facts

section Glue

variable {lib : RRLibrary} {t : ZoneTree lib.RR} {s : Snapshot lib.RR} {q : Question}
  {x : Subject lib.RR} {d : Name}

variable {name : Name} {a : Answer lib.RR}

theorem ZoneTree.delegation_of_subject (h : t.subject name q = some x) (hd : x.glueFor = some d) :
    (t.lookup name).delegation = some d ∧ x.tree = t ∧
      ((t.nodeAt d).bind fun n => n.find q.cls typeNS) = some x.set := by
  rw [subject] at h
  cases hdelegation : (t.lookup name).delegation with
  | some d' =>
    rw [hdelegation] at h
    obtain ⟨set, hset, rfl⟩ := map_eq_some_iff.mp h
    cases hd
    exact ⟨rfl, rfl, hset⟩
  | none =>
    rw [hdelegation] at h
    obtain ⟨set, -, rfl⟩ := map_eq_some_iff.mp h
    cases hd

theorem ZoneTree.addAddresses_authority {set : RRset lib.RR} {glueFor : Option Name} :
    (t.addAddresses set glueFor a).authority = a.authority := by
  rw [addAddresses]
  split <;> rfl

theorem ZoneTree.round_authority (chased : Bool) (name : Name) (a : Answer lib.RR)
    (hon : (t.round lib chased name q a).2.isSome) :
    (t.round lib chased name q a).1.authority = a.authority := by
  have hanswer : ∀ n, (t.answerAt lib n name q a).2.isSome →
      (t.answerAt lib n name q a).1.authority = a.authority := by
    intro n hon
    rw [answerAt] at hon ⊢
    by_cases hany : q.typ = typeANY
    · rw [if_pos hany] at hon
      cases hset : anyRRset n q.cls <;> rw [hset] at hon <;> cases hon
    · rw [if_neg hany] at hon ⊢
      cases hset : n.find q.cls q.typ with
      | some set =>
        rw [hset] at hon
        cases hon
      | none =>
        rw [hset] at hon
        cases hcname : n.find q.cls typeCNAME with
        | some set => rfl
        | none =>
          rw [hcname] at hon
          cases hon
  rw [round] at hon ⊢
  cases hdelegation : (t.lookup name).delegation with
  | some d =>
    rw [hdelegation] at hon
    cases hon
  | none =>
    rw [hdelegation] at hon
    cases hnode : (t.lookup name).node with
    | some n =>
      rw [hnode] at hon
      exact hanswer n hon
    | none =>
      rw [hnode] at hon
      dsimp only at hon ⊢
      cases hwild : ((t.lookup name).closest.bind Node.wild).bind t.nodeAt with
      | none =>
        rw [hwild] at hon
        cases hon
      | some n =>
        rw [hwild] at hon
        exact hanswer n hon

theorem ZoneTree.round_refers {chased : Bool}
    (ha : a.authority = []) (h : t.subject name q = some x) (hd : x.glueFor = some d) :
    t.round lib chased name q a = ((t.round lib chased name q a).1, none) ∧
      (t.round lib chased name q a).1.authority = x.set.rrs := by
  obtain ⟨hdelegation, -, hset⟩ := delegation_of_subject h hd
  rw [round, hdelegation]
  refine ⟨rfl, ?_⟩
  dsimp only
  rw [referral, hset]
  dsimp only
  rw [addAddresses_authority, ha]
  rfl

theorem Snapshot.follow_refers {left : Nat}
    (ha : a.authority = []) (h : s.subjectFrom lib q left t name = some x)
    (hd : x.glueFor = some d) : (s.follow lib q left t name a).authority = x.set.rrs ∧
      ∃ n, (x.tree.lookup n).delegation = some d ∧
        ((x.tree.nodeAt d).bind fun n => n.find q.cls typeNS) = some x.set := by
  induction left generalizing t name a with
  | zero =>
    rw [subjectFrom.eq_def] at h
    rw [follow.eq_def]
    dsimp only at h ⊢
    rw [ZoneTree.round_next Answer.reset a] at h
    cases hnext : (t.round lib (0 != maxCNAMEChain) name q a).2 with
    | some target =>
      rw [hnext] at h
      cases h
    | none =>
      rw [hnext] at h
      obtain ⟨hround, hauthority⟩ := ZoneTree.round_refers (a := a) ha h hd
      obtain ⟨hdelegation, htree, hset⟩ := ZoneTree.delegation_of_subject h hd
      rw [hround]
      exact ⟨hauthority, name, htree ▸ hdelegation, htree ▸ hset⟩
  | succ left ih =>
    rw [subjectFrom.eq_def] at h
    rw [follow.eq_def]
    dsimp only at h ⊢
    rw [ZoneTree.round_next Answer.reset a] at h
    cases hnext : (t.round lib (left + 1 != maxCNAMEChain) name q a).2 with
    | some target =>
      rw [hnext] at h
      dsimp only at h
      have hon := ZoneTree.round_authority (t := t) (q := q) (left + 1 != maxCNAMEChain) name a
        (by rw [hnext]; rfl)
      generalize t.round lib (left + 1 != maxCNAMEChain) name q a = step at hon hnext ⊢
      obtain ⟨a', next⟩ := step
      cases hnext
      dsimp only
      cases hzone : s.zoneFor target with
      | none =>
        rw [hzone] at h
        cases h
      | some t' =>
        rw [hzone] at h
        exact ih (hon.trans ha) h
    | none =>
      rw [hnext] at h
      obtain ⟨hround, hauthority⟩ := ZoneTree.round_refers (a := a) ha h hd
      obtain ⟨hdelegation, htree, hset⟩ := ZoneTree.delegation_of_subject h hd
      rw [hround]
      exact ⟨hauthority, name, htree ▸ hdelegation, htree ▸ hset⟩

/-- The response refers to a delegation of a zone: its authority section holds the servers that
stand there. -/
def Snapshot.RefersTo (lib : RRLibrary) (s : Snapshot lib.RR) (q : Question) (d : Name) : Prop :=
  ∃ o t n set, s.zoneFor o = some t ∧ t.nodeAt d = some n ∧ n.delegation = some d ∧
    n.find q.cls typeNS = some set ∧ (s.resolve lib q).authority = set.rrs

end Glue

section Answered

variable {lib : RRLibrary} {held : List (Contents lib.RR)} {s : Snapshot lib.RR} {q : Question}

variable {chased : Bool} {c : Contents lib.RR} {o : Name} {cls : Class} {typ : RRType}
  {rrs : List lib.RR}

theorem Finding.gathered_isPrefix {negSOA : R} {gathered : List R}
    (found : Finding R) : gathered <+: (found.reply negSOA chased gathered).1.answer := by
  cases found with
  | referral servers => exact List.prefix_refl _
  | records rrs => exact List.prefix_append _ _
  | cname rrs target => exact List.prefix_append _ _
  | nodata => exact List.prefix_refl _
  | nxdomain => exact List.prefix_refl _

theorem chase_answer {pick : Contents lib.RR → Name → Option Name} {left : Nat} {n : Name}
    {gathered : List lib.RR} :
    (chase lib pick held q left chased c n gathered).answer = [] ∨
      ((c.search lib (pick c n) n q).reply c.negSOA chased gathered).1.answer <+:
        (chase lib pick held q left chased c n gathered).answer := by
  induction left generalizing chased c n gathered with
  | zero =>
    rw [chase.eq_def]
    dsimp only
    generalize (c.search lib (pick c n) n q).reply c.negSOA chased gathered = step
    obtain ⟨r, next⟩ := step
    cases next with
    | none => exact .inr (List.prefix_refl _)
    | some target => exact .inl rfl
  | succ left ih =>
    rw [chase.eq_def]
    dsimp only
    generalize (c.search lib (pick c n) n q).reply c.negSOA chased gathered = step
    obtain ⟨r, next⟩ := step
    cases next with
    | none => exact .inr (List.prefix_refl _)
    | some target =>
      dsimp only
      cases zoneOf held target with
      | none => exact .inr (List.prefix_refl _)
      | some c' => exact ih.imp_right (Finding.gathered_isPrefix _).trans

def Contents.Serves (lib : RRLibrary) (c : Contents lib.RR) (o : Name) (cls : Class) (typ : RRType)
    (rrs : List lib.RR) : Prop :=
  c.nearest o = none ∧ ∃ stored, c.source o = some stored ∧
    recordsUnder lib stored o (c.standing stored cls typ) = rrs

theorem recordsUnder_nil {stored owner : Name} : recordsUnder lib stored owner [] = [] := by
  rw [recordsUnder]
  split <;> rfl

theorem Contents.serves_iff (hne : rrs ≠ []) :
    c.Serves lib o cls typ rrs ↔ c.search lib (c.nearest o) o ⟨o, cls, typ⟩ = .records rrs := by
  rw [Serves, search.eq_def]
  cases c.nearest o with
  | some d => simp
  | none =>
    cases c.source o with
    | none => simp
    | some stored =>
      simp only [true_and, some.injEq, exists_eq_left', dataAt]
      cases c.standing stored cls typ with
      | cons e es => simp
      | nil =>
        rw [recordsUnder_nil]
        cases c.standing stored cls typeCNAME with
        | nil => simpa using hne.symm
        | cons e es => simpa using hne.symm

theorem Serving.answer_iff (h : Serving held s) (hzone : zoneOf held o = some c)
    (htyp : ordinary typ = true) (hne : rrs ≠ [])
    (halias : ∀ more target, c.search lib (c.nearest o) o ⟨o, cls, typ⟩ = .cname more target →
      ∃ rr ∈ more, rr ∉ rrs) :
    (s.resolve lib ⟨o, cls, typ⟩).answer = rrs ↔ c.Serves lib o cls typ rrs := by
  have hanswer : (s.resolve lib ⟨o, cls, typ⟩).answer =
      (searchHeld lib Contents.nearest held ⟨o, cls, typ⟩).answer :=
    (congrArg Reply.answer (h.resolve_reply (q := ⟨o, cls, typ⟩) htyp) :)
  have hfirst : (chase lib Contents.nearest held ⟨o, cls, typ⟩ maxCNAMEChain false c o []).answer =
      [] ∨ _ := chase_answer
  rw [hanswer, Contents.serves_iff hne, searchHeld, hzone]
  dsimp only
  cases hfound : c.search lib (c.nearest o) o ⟨o, cls, typ⟩ with
  | records more =>
    rw [chase.eq_def]
    dsimp only
    rw [hfound]
    simp [Finding.reply]
  | cname more target =>
    obtain ⟨rr, hmore, hnot⟩ := halias more target hfound
    rw [hfound] at hfirst
    simp only [reduceCtorEq, iff_false]
    intro heq
    rw [heq] at hfirst
    rcases hfirst with hempty | hkeep
    · exact hne hempty
    · exact hnot (hkeep.subset hmore)
  | referral servers =>
    rw [chase.eq_def]
    dsimp only
    rw [hfound]
    simpa [Finding.reply] using hne.symm
  | nodata =>
    rw [chase.eq_def]
    dsimp only
    rw [hfound]
    simpa [Finding.reply] using hne.symm
  | nxdomain =>
    rw [chase.eq_def]
    dsimp only
    rw [hfound]
    simpa [Finding.reply] using hne.symm

end Answered

variable {held : List (Contents R)} {n : Name} {c : Contents R}

theorem zoneOf_eq_some (h : zoneOf held n = some c) :
    n.isSubDomainOf c.apex = true ∧ (held.find? fun o => o.apex == c.apex) = some c := by
  obtain ⟨apex, hmem, hfound⟩ := List.exists_of_findSome?_eq_some h
  have hapex : c.apex = apex := by
    simpa using List.find?_some (p := fun o : Contents R => o.apex == apex) hfound
  rw [hapex]
  exact ⟨Name.mem_upwards.mp hmem, hfound⟩

theorem zoneOf_isSome (hc : c ∈ held) (hn : n.isSubDomainOf c.apex = true) :
    (zoneOf held n).isSome := by
  rw [zoneOf, List.isSome_findSome?, List.any_eq_true]
  refine ⟨c.apex, Name.mem_upwards.mpr hn, ?_⟩
  rw [List.find?_isSome]
  exact ⟨c, hc, by simp⟩

section Main

variable (lib : RRLibrary)

/-- A name is glue of a response: it lies at or below the delegation referred to. -/
def Snapshot.Glue (s : Snapshot lib.RR) (q : Question) (o : Name) : Prop :=
  ∃ d, s.RefersTo lib q d ∧ o.isSubDomainOf d = true

/-- The deepest zone that contains the owner of a set is the one the set was taken from, or it
serves the same records there. -/
def Undisturbed (held : List (Contents lib.RR)) (s : Snapshot lib.RR) (q : Question)
    (p : Name × RRset lib.RR) : Prop :=
  ∀ x, s.subject lib q = some x → ∀ c, zoneOf held p.1 = some c →
    c.apex = x.tree.name ∨ c.Serves lib p.1 q.cls p.2.typ p.2.rrs

variable {lib} {held : List (Contents lib.RR)} {s : Snapshot lib.RR} {q : Question}
  {x : Subject lib.RR} {p : Name × RRset lib.RR}

theorem Serving.subject_zone (h : Serving held s) (hx : s.subject lib q = some x) :
    ∃ c ∈ held, (held.find? fun o => o.apex == c.apex) = some c ∧ Built c x.tree := by
  obtain ⟨⟨n, hzone⟩, -⟩ := Snapshot.subject_facts hx
  have hrel := h.zoneFor_rel n
  rw [hzone] at hrel
  cases hc : zoneOf held n with
  | none =>
    rw [hc] at hrel
    cases hrel
  | some c =>
    rw [hc] at hrel
    cases hrel with
    | some hbuilt => exact ⟨c, mem_of_zoneOf hc, (zoneOf_eq_some hc).2, hbuilt⟩

theorem Built.put_eq {c : Contents lib.RR} (h : Built c x.tree) (hcls : x.set.cls = q.cls)
    (hp : p ∈ x.puts) :
    c.has p.1 = true ∧ p.2.rrs = (c.standing p.1 q.cls p.2.typ).map Entry.rr ∧
      c.standing p.1 q.cls p.2.typ ≠ [] := by
  obtain ⟨-, n, hn, hfind, -⟩ := Subject.mem_puts hp
  have hset := h.find_node hn x.set.cls p.2.typ
  rw [hfind, hcls] at hset
  refine ⟨?_, ?_⟩
  · rw [h.node, Contents.node] at hn
    split at hn
    · assumption
    · cases hn
  · cases hstanding : c.standing p.1 q.cls p.2.typ with
    | nil =>
      rw [hstanding] at hset
      cases hset
    | cons e es =>
      rw [hstanding] at hset
      refine ⟨?_, List.cons_ne_nil _ _⟩
      exact (congrArg RRset.rrs (some.inj hset) :)

theorem Serving.glue_of_delegated (h : Serving held s) (hx : s.subject lib q = some x)
    {n : Node lib.RR} (hn : x.tree.nodeAt p.1 = some n) {d : Name} (hnd : n.delegation = some d)
    (hd : x.glueFor = some d) : s.Glue lib q p.1 := by
  obtain ⟨c, -, -, hbuilt⟩ := h.subject_zone hx
  obtain ⟨⟨o, hzone⟩, -⟩ := Snapshot.subject_facts hx
  have hnode := hn
  rw [hbuilt.node, Contents.node] at hnode
  have hnearest : c.nearest p.1 = some d := by
    split at hnode
    · cases hnode
      exact hnd
    · cases hnode
  have hdelegates : c.delegates d = true := List.find?_some hnearest
  have hself : c.nearest d = some d := by
    rw [Contents.nearest, Name.upwards_eq, List.find?_cons, hdelegates]
  have hnodeAt : x.tree.nodeAt d = some ⟨d, c.sets d, c.wildcard d, c.nearest d⟩ := by
    rw [hbuilt.node, Contents.node, if_pos (Contents.has_of_delegates hbuilt.inside hdelegates)]
  have hrefers : (s.resolve lib q).authority = x.set.rrs ∧
      ((x.tree.nodeAt d).bind fun n => n.find q.cls typeNS) = some x.set := by
    rw [Snapshot.subject] at hx
    rw [Snapshot.resolve]
    split at hx
    · cases hx
    · next hmeta =>
      rw [if_neg hmeta]
      cases hfor : s.zoneFor q.name with
      | none =>
        rw [hfor] at hx
        cases hx
      | some t =>
        rw [hfor] at hx
        obtain ⟨hauthority, -, -, hset⟩ := Snapshot.follow_refers
          (a := { Answer.reset with authoritative := true }) rfl hx hd
        exact ⟨hauthority, hset⟩
  obtain ⟨hauthority, hset⟩ := hrefers
  rw [hnodeAt, bind_some] at hset
  exact ⟨d, ⟨o, x.tree, _, x.set, hzone, hnodeAt, hself, hset, hauthority⟩,
    Name.mem_upwards.mp (List.mem_of_find?_eq_some hnearest)⟩

end Main

section Kinds

variable {lib : RRLibrary} {kind : lib.RR → RRType}
  (hkind : ∀ r rr, lib.recordRR r = .ok rr → kind rr = r.type)
  (hrenamed : ∀ owner rr, kind (lib.renamed owner rr) = kind rr)
  {z : Zone} {records : List Record} {c : Contents lib.RR}

include hkind in
theorem kind_of_entry (hok : contents lib z records = .ok c) {e : Entry lib.RR}
    (he : e ∈ c.entries) (hsoa : e.typ ≠ typeSOA) : kind e.rr = e.typ := by
  rcases mem_contents hok he with ⟨-, -, htyp⟩ | ⟨r, -, -, hentry⟩
  · exact absurd htyp hsoa
  · obtain ⟨-, -, htyp, hrr, -⟩ := recordEntry_eq_ok hentry
    rw [htyp]
    exact hkind r e.rr hrr

include hkind hrenamed in
theorem kind_of_search (hok : contents lib z records = .ok c) {delegation : Option Name} {o : Name}
    {q : Question} {more : List lib.RR} {target : Option Name}
    (hfound : c.search lib delegation o q = .cname more target) :
    ∃ rr ∈ more, kind rr = typeCNAME := by
  rw [Contents.search.eq_def] at hfound
  cases delegation with
  | some d => cases hfound
  | none =>
    cases hsource : c.source o with
    | none =>
      rw [hsource] at hfound
      cases hfound
    | some stored =>
      rw [hsource] at hfound
      dsimp only [Contents.dataAt] at hfound
      cases hstanding : c.standing stored q.cls q.typ with
      | cons e es =>
        rw [hstanding] at hfound
        cases hfound
      | nil =>
        rw [hstanding] at hfound
        dsimp only at hfound
        cases hcname : c.standing stored q.cls typeCNAME with
        | nil =>
          rw [hcname] at hfound
          cases hfound
        | cons e es =>
          rw [hcname] at hfound
          cases hfound
          have hmem : e ∈ c.standing stored q.cls typeCNAME := by
            rw [hcname]
            exact List.mem_cons_self
          obtain ⟨he, hkey⟩ := List.mem_filter.mp hmem
          simp only [Bool.and_eq_true, beq_iff_eq] at hkey
          have hcname : kind e.rr = typeCNAME := by
            rw [kind_of_entry hkind hok he (by rw [hkey.2.2]; decide), hkey.2.2]
          rw [recordsUnder]
          split
          · exact ⟨e.rr, by simp, hcname⟩
          · exact ⟨lib.renamed o.string e.rr, by simp, (hrenamed _ _).trans hcname⟩

end Kinds

section Sent

variable (lib : RRLibrary) (kind : lib.RR → RRType)
  (hkind : ∀ r rr, lib.recordRR r = .ok rr → kind rr = r.type)
  (hrenamed : ∀ owner rr, kind (lib.renamed owner rr) = kind rr)
  (records : ZoneID → List Record) (zones : List Zone) (s : Snapshot lib.RR) (q : Question)

include hkind hrenamed in
theorem answered_iff_undisturbed {held : List (Contents lib.RR)} {s : Snapshot lib.RR}
    {q : Question} {x : Subject lib.RR} {p : Name × RRset lib.RR} (h : Serving held s)
    (hcontents : ∀ c ∈ held, ∃ z records, contents lib z records = .ok c)
    (hx : s.subject lib q = some x) (hp : p ∈ x.puts) (hglue : ¬ s.Glue lib q p.1) :
    (s.resolve lib ⟨p.1, q.cls, p.2.typ⟩).answer = p.2.rrs ↔ Undisturbed lib held s q p := by
  obtain ⟨-, hcls⟩ := Snapshot.subject_facts hx
  obtain ⟨c₀, hheld, hfind, hbuilt⟩ := h.subject_zone hx
  obtain ⟨hhas, hrrs, hstanding⟩ := hbuilt.put_eq hcls hp
  obtain ⟨htyp, n, hn, -, hdelegation⟩ := Subject.mem_puts hp
  have hne : p.2.rrs ≠ [] := by
    rw [hrrs]
    exact fun hnil => hstanding (List.map_eq_nil_iff.mp hnil)
  have hnone : c₀.nearest p.1 = none := by
    have hnode := hn
    rw [hbuilt.node, Contents.node, if_pos hhas] at hnode
    rcases hdelegation with hnone | ⟨d, hd, hglueFor⟩
    · cases hnode
      exact hnone
    · exact absurd (h.glue_of_delegated hx hn hd hglueFor) hglue
  -- the zone the set is from serves it
  have hserves : c₀.Serves lib p.1 q.cls p.2.typ p.2.rrs := by
    refine ⟨hnone, p.1, ?_, ?_⟩
    · rw [Contents.source, if_pos hhas]
    · rw [recordsUnder, if_pos rfl, hrrs]
  obtain ⟨c, hzone⟩ := isSome_iff_exists.mp
    (zoneOf_isSome hheld (Contents.has_iff.mp hhas).1)
  have hkinds : ∀ rr ∈ p.2.rrs, kind rr ≠ typeCNAME := by
    intro rr hrr
    rw [hrrs] at hrr
    obtain ⟨e, he, rfl⟩ := List.mem_map.mp hrr
    obtain ⟨hmem, hkey⟩ := List.mem_filter.mp he
    simp only [Bool.and_eq_true, beq_iff_eq] at hkey
    obtain ⟨z, rs, hok⟩ := hcontents c₀ hheld
    rcases htyp with htyp | htyp
    · rw [kind_of_entry hkind hok hmem (by rw [hkey.2.2, htyp]; decide), hkey.2.2, htyp]
      decide
    · rw [kind_of_entry hkind hok hmem (by rw [hkey.2.2, htyp]; decide), hkey.2.2, htyp]
      decide
  have hordinary : ordinary p.2.typ = true := by
    rcases htyp with htyp | htyp
    · rw [htyp]
      decide
    · rw [htyp]
      decide
  rw [h.answer_iff hzone hordinary hne]
  · constructor
    · intro hsame x' hx' c' hc'
      rw [hzone] at hc'
      cases hc'
      exact .inr hsame
    · intro hundisturbed
      rcases hundisturbed x hx c hzone with hapex | hsame
      · have heq : c = c₀ := by
          have hc := (zoneOf_eq_some hzone).2
          rw [hapex, hbuilt.name, hfind] at hc
          exact (some.inj hc).symm
        rw [heq]
        exact hserves
      · exact hsame
  · intro more target hfound
    obtain ⟨z, rs, hok⟩ := hcontents c (mem_of_zoneOf hzone)
    obtain ⟨rr, hmem, hcname⟩ := kind_of_search hkind hrenamed hok hfound
    exact ⟨rr, hmem, fun hrr => hkinds rr hrr hcname⟩

include hkind hrenamed in
/-- The additional section holds at most sixteen records, in whole address sets of one zone.
Each set is glue, or what a question about it is answered with, just when no deeper zone says
otherwise. -/
theorem additional_iff (hnames : (zones.map Zone.name).Nodup)
    (hbuild : build lib records zones = .ok s) :
    ∃ held, served lib records zones = .ok held ∧
      (s.resolve lib q).additional = recordsOf (s.puts lib q) ∧
      (s.resolve lib q).additional.length ≤ maxAdditional ∧
      (∀ p ∈ s.puts lib q, (p.2.typ = typeA ∨ p.2.typ = typeAAAA) ∧
        ∃ c ∈ held, p.2.rrs = (c.standing p.1 q.cls p.2.typ).map Entry.rr) ∧
      ((∀ p ∈ s.puts lib q, (s.resolve lib ⟨p.1, q.cls, p.2.typ⟩).answer = p.2.rrs ∨
          s.Glue lib q p.1) ↔
        ∀ p ∈ s.puts lib q, Undisturbed lib held s q p ∨ s.Glue lib q p.1) := by
  obtain ⟨held, hheld, h⟩ := build_serving hnames hbuild
  have hcontents : ∀ c ∈ held, ∃ z records, contents lib z records = .ok c := by
    intro c hc
    obtain ⟨z, -, hok⟩ := mem_of_mapM_eq_ok hheld hc
    exact ⟨z, _, hok⟩
  have hputs : ∀ p ∈ s.puts lib q, ∃ x, s.subject lib q = some x ∧ p ∈ x.puts := by
    intro p hp
    rw [Snapshot.puts] at hp
    cases hx : s.subject lib q with
    | none =>
      rw [hx] at hp
      cases hp
    | some x =>
      rw [hx] at hp
      exact ⟨x, rfl, hp⟩
  refine ⟨held, hheld, Snapshot.resolve_additional, ?_, ?_, ?_⟩
  · rw [Snapshot.resolve_additional]
    exact Snapshot.puts_length
  · intro p hp
    obtain ⟨x, hx, hmem⟩ := hputs p hp
    obtain ⟨c, hc, -, hbuilt⟩ := h.subject_zone hx
    exact ⟨(Subject.mem_puts hmem).1, c, hc,
      (hbuilt.put_eq (Snapshot.subject_facts hx).2 hmem).2.1⟩
  · refine forall_congr' fun p => forall_congr' fun hp => ?_
    obtain ⟨x, hx, hmem⟩ := hputs p hp
    by_cases hglue : s.Glue lib q p.1
    · exact ⟨fun _ => .inr hglue, fun _ => .inr hglue⟩
    · rw [or_iff_left hglue, or_iff_left hglue]
      exact answered_iff_undisturbed lib kind hkind hrenamed h hcontents hx hmem hglue

end Sent

end DNS

namespace Sample

def mailRecords : List Record :=
  [record 1 1 ["ex"] typeNS "ns.", record 2 1 ["ex"] typeMX "10 host.sub.ex.",
    record 3 1 ["host", "sub", "ex"] typeA "192.0.2.1"]

def disturbedZones : List Zone := [zone 1 ["ex"], zone 2 ["sub", "ex"]]

def disturbedRecords (id : ZoneID) : List Record :=
  if id = .ulid 1 then mailRecords
  else [record 4 2 ["sub", "ex"] typeNS "ns.", record 5 2 ["host", "sub", "ex"] typeA "192.0.2.9"]

end Sample

namespace DNS

theorem additional_mail :
    ∃ s, build RRLibrary.plain (fun _ => Sample.mailRecords) [Sample.zone 1 ["ex"]] = .ok s ∧
      (s.puts RRLibrary.plain (Sample.question ["ex"] typeMX)).length = 1 ∧
      ∀ p ∈ s.puts RRLibrary.plain (Sample.question ["ex"] typeMX),
        (s.resolve RRLibrary.plain ⟨p.1, classIN, p.2.typ⟩).answer = p.2.rrs ∨
          s.Glue RRLibrary.plain (Sample.question ["ex"] typeMX) p.1 := by
  obtain ⟨s, hbuild, hone⟩ := ok_of_any
    (show (build RRLibrary.plain (fun _ => mailRecords)
      [Sample.zone 1 ["ex"]]).toOption.any (fun s => decide
        ((s.puts RRLibrary.plain (Sample.question ["ex"] typeMX)).length = 1)) = true by
          decide +kernel)
  obtain ⟨held, hheld, -, -, -, hiff⟩ := additional_iff RRLibrary.plain RRLibrary.plainKind
    RRLibrary.plainKind_eq RRLibrary.plainKind_renamed (fun _ => mailRecords)
    [Sample.zone 1 ["ex"]] s (Sample.question ["ex"] typeMX) (by decide) hbuild
  refine ⟨s, hbuild, of_decide_eq_true hone, hiff.mpr fun p _ => .inl ?_⟩
  -- there is one zone only
  have hapex : ∀ c ∈ held, c.apex = Sample.name ["ex"] := by
    intro c hc
    obtain ⟨z, hz, hok⟩ := mem_of_mapM_eq_ok hheld hc
    rw [apex_contents hok, List.mem_singleton.mp (List.mem_of_mem_filter hz)]
    rfl
  intro x hx c hc
  obtain ⟨held', hheld', hserving⟩ := build_serving (by decide) hbuild
  cases hheld.symm.trans hheld'
  obtain ⟨c', hc', -, hbuilt⟩ := hserving.subject_zone hx
  exact .inl ((hapex c (mem_of_zoneOf hc)).trans ((hbuilt.name.trans (hapex c' hc')).symm))

/-- The zone that answers sends along an address that the zone below it does not hold. -/
theorem additional_disturbed :
    (∀ z ∈ disturbedZones, validateZone z (disturbedRecords z.id) = .ok ()) ∧
      ∃ s, build RRLibrary.plain disturbedRecords disturbedZones = .ok s ∧
        ∃ p ∈ s.puts RRLibrary.plain (Sample.question ["ex"] typeMX),
          (s.resolve RRLibrary.plain ⟨p.1, classIN, p.2.typ⟩).answer ≠ p.2.rrs ∧
          ¬ s.Glue RRLibrary.plain (Sample.question ["ex"] typeMX) p.1 := by
  refine ⟨by decide +kernel, ?_⟩
  obtain ⟨s, hbuild, hs⟩ := ok_of_any
    (show (build RRLibrary.plain disturbedRecords disturbedZones).toOption.any (fun s =>
      decide ((∃ p ∈ s.puts RRLibrary.plain (Sample.question ["ex"] typeMX),
          (s.resolve RRLibrary.plain ⟨p.1, classIN, p.2.typ⟩).answer ≠ p.2.rrs) ∧
        ∀ t ∈ s.zones, ∀ n ∈ t.nodes, n.delegation = none)) = true by decide +kernel)
  obtain ⟨⟨p, hp, hanswer⟩, hnone⟩ := of_decide_eq_true hs
  refine ⟨s, hbuild, p, hp, hanswer, ?_⟩
  intro hglue
  obtain ⟨d, ⟨o, t, n, set, hzone, hnode, hdelegation, -⟩, -⟩ := hglue
  obtain ⟨apex, -, hfound⟩ := List.exists_of_findSome?_eq_some hzone
  rw [hnone t (List.mem_of_find?_eq_some hfound) n (List.mem_of_find?_eq_some hnode)] at hdelegation
  cases hdelegation

end DNS

end Wegweiser
