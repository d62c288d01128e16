/-
Answers to questions that a notification has overtaken.

A question put to a secondary before it was last notified is out of date: whatever the answer says
is about the version before the one the secondary has been told of.
-/
import Wegweiser.DNS.Probe
import Wegweiser.Lib.Steps

namespace Wegweiser

open Ranged Steps Option

namespace DNS

def stale (key : ProbeKey) (id : UInt16) : List Happening → Bool
  | [] => false
  | .sent k :: log => (k == key && log.contains (.asked key id)) || stale key id log
  | .asked _ _ :: log => stale key id log

/-- What happens to a prober: what it does of itself, and the notifier's events. -/
inductive ProbeTurn (R : Type) where
  | own (m : ProbeMove R)
  | notified (ev : NotifyEvent) (now : Nat)

variable {R : Type} (cfg : ProbeSetup R)

namespace Prober

variable (p : Prober)

def after : ProbeTurn R → Prober
  | .own m => p.step cfg m
  | .notified ev now => p.notified ev now

def run (turns : List (ProbeTurn R)) : Prober := turns.foldl (Prober.after cfg) p

def answers : ProbeTurn R → Option (ProbeKey × UInt16)
  | .own (.hear m source) => (m.key source).map fun key => (key, m.id)
  | .own (.compare _) | .own (.settle _) | .own .report => p.listener.question
  | _ => none

/-- No notification is reported as sent to the pair of the answer in work, and the identifiers
drawn for questions are not those of questions to the same pair that are out of date. -/
def Undisturbed : ProbeTurn R → Prop
  | .notified ev _ => ev.outcome = .sent →
      ∀ q, p.listener.question = some q → q.1 ≠ ⟨ev.zone, ev.target⟩
  | .own (.round _ _ _ draw) => ∀ key id, draw key = some id → stale key id p.log = false
  | _ => True

/-- No question that is outstanding is out of date, and none whose answer is in work. -/
structure Current : Prop where
  asked : ∀ key st, p.pending.lookup key = some st → st.deadline.isSome = true →
    stale key st.id p.log = false
  working : ∀ q, p.listener.question = some q → stale q.1 q.2 p.log = false

end Prober

open Prober

variable {cfg} {p : Prober} {log : List Happening} {key : ProbeKey} {id : UInt16}

theorem stale_asked (questions : List ProbeQuestion) :
    stale key id ((questions.map fun q => .asked q.key q.id).reverse ++ log) = stale key id log := by
  rw [← List.map_reverse]
  induction questions.reverse with
  | nil => rfl
  | cons q questions ih => exact ih

theorem stale_sent {k : ProbeKey} (hne : key ≠ k) :
    stale key id (.sent k :: log) = stale key id log := by
  have hk : (k == key) = false := beq_false_of_ne fun h => hne h.symm
  rw [stale, hk, Bool.false_and, Bool.false_or]

theorem Prober.Current.notified (h : p.Current) {ev : NotifyEvent} (hlistener : ev.outcome = .sent →
      ∀ q, p.listener.question = some q → q.1 ≠ ⟨ev.zone, ev.target⟩) (now : Nat) :
    (p.notified ev now).Current := by
  rw [Prober.notified]
  cases houtcome : ev.outcome with
  | sent =>
    refine ⟨fun key st hst hdeadline => ?_, fun q hq => ?_⟩
    · dsimp only at hst
      rw [lookup_insert_eq] at hst
      split_ifs at hst with hkey
      · obtain rfl := some.inj hst
        cases hdeadline
      · rw [stale_sent hkey]
        exact h.asked key st hst hdeadline
    · rw [stale_sent (hlistener houtcome q hq)]
      exact h.working q hq
  | answered | abandoned =>
    refine ⟨fun key st hst hdeadline => ?_, h.working⟩
    dsimp only at hst
    rw [lookup_insert_eq] at hst
    split_ifs at hst with hkey
    · subst hkey
      obtain rfl := some.inj hst
      cases hold : p.pending.lookup ⟨ev.zone, ev.target⟩ with
      | none =>
        rw [hold] at hdeadline
        cases hdeadline
      | some st =>
        rw [hold] at hdeadline
        exact h.asked _ st hold hdeadline
    · exact h.asked key st hst hdeadline

theorem Prober.question_step (cfg : ProbeSetup R) (p : Prober) (m : ProbeMove R)
    {q : ProbeKey × UInt16} (hq : (p.step cfg m).listener.question = some q) :
    p.listener.question = some q ∨
      ∃ st, p.pending.lookup q.1 = some st ∧ st.deadline.isSome = true ∧ st.id = q.2 := by
  cases m with
  | setTargets targets => exact .inl hq
  | round snap now order draw =>
    rw [step] at hq
    split at hq <;> exact .inl hq
  | ask written =>
    rw [step, ask] at hq
    split at hq
    · exact .inl hq
    · split at hq
      · exact .inl hq
      · dsimp only at hq
        split at hq
        · exact .inl hq
        · split at hq
          · exact .inl hq
          · split at hq <;> exact .inl hq
  | hear m source =>
    rw [step] at hq
    rcases p.hear_cases cfg m source with heq | ⟨key, st, -, hst, hdeadline, hid, heq⟩
    · rw [heq] at hq
      exact .inl hq
    · rw [heq] at hq
      dsimp only at hq
      split at hq
      · cases hq
      · obtain rfl := some.inj hq
        exact .inr ⟨st, hst, hdeadline, hid⟩
  | compare snap =>
    rw [step] at hq
    split at hq
    · rename_i key id theirs hlistener
      rw [hlistener]
      exact .inl hq
    · exact .inl hq
  | settle now =>
    rw [step, settle] at hq
    split at hq
    · rename_i key id theirs ev hlistener
      rw [hlistener]
      split at hq
      · exact .inl hq
      · dsimp only at hq
        split at hq
        · cases hq
        · exact .inl hq
    · exact .inl hq
  | report =>
    rw [step] at hq
    split at hq
    · cases hq
    · exact .inl hq

theorem Prober.stale_step (cfg : ProbeSetup R) (p : Prober) (m : ProbeMove R) (key : ProbeKey)
    (id : UInt16) : stale key id (p.step cfg m).log = stale key id p.log := by
  cases m with
  | setTargets => rfl
  | round snap now order draw =>
    rw [step]
    split
    · exact stale_asked _
    · rfl
  | ask written =>
    rw [step, ask]
    split
    · rfl
    · split
      · rfl
      · dsimp only
        split
        · rfl
        · split
          · rfl
          · split <;> rfl
  | hear m source =>
    rw [step]
    rcases p.hear_cases cfg m source with heq | ⟨_, _, -, -, -, -, heq⟩ <;> rw [heq]
  | compare | report =>
    rw [step]
    split <;> rfl
  | settle now =>
    rw [step, settle]
    split
    · split <;> rfl
    · rfl

theorem Prober.Current.after {t : ProbeTurn R} (h : p.Current) (ht : p.Undisturbed t) :
    (p.after cfg t).Current := by
  cases t with
  | notified ev now => exact h.notified ht now
  | own m =>
    rw [Prober.after]
    refine ⟨fun key st hst hdeadline => ?_, fun q hq => ?_⟩
    · rw [p.stale_step]
      rcases (p.step_follows cfg m).asked key st hst hdeadline with ⟨st', hst', hsome, hid⟩ | hdraw
      · rw [← hid]
        exact h.asked key st' hst' hsome
      · cases m with
        | round snap now order draw => exact ht key st.id hdraw
        | _ => cases hdraw
    · rw [p.stale_step]
      rcases p.question_step cfg m hq with hq | ⟨st, hst, hsome, hid⟩
      · exact h.working q hq
      · rw [← hid]
        exact h.asked q.1 st hst hsome

/-- Where no notification is reported as sent to a pair while an answer of the pair is in work, and
no question takes an identifier of one that is out of date: an answer to a question put before
the latest notification was sent to its pair changes nothing that `Standing` reports and is not
handed to the observer. -/
theorem stale_answers_are_ignored (cfg : ProbeSetup R) (targets : List NotifyTarget)
    (turns : List (ProbeTurn R)) (t : ProbeTurn R)
    (h : Along (after cfg) Undisturbed (.started targets) (turns ++ [t]))
    (key : ProbeKey) (id : UInt16)
    (hanswers : (run cfg (.started targets) turns).answers t = some (key, id))
    (hstale : stale key id (run cfg (.started targets) turns).log = true) :
    (∀ snap : Snapshot R, (run cfg (.started targets) (turns ++ [t])).standing cfg snap =
      (run cfg (.started targets) turns).standing cfg snap) ∧
    (run cfg (.started targets) (turns ++ [t])).observed =
      (run cfg (.started targets) turns).observed := by
  have hcurrent : (run cfg (.started targets) turns).Current :=
    (along_append.mp h).1.invariant (fun p t ht hp => hp.after ht) ⟨nofun, nofun⟩
  have hlast : run cfg (.started targets) (turns ++ [t]) =
      (run cfg (.started targets) turns).after cfg t := by
    rw [run, List.foldl_append]
    rfl
  rw [hlast]
  generalize run cfg (.started targets) turns = p at hanswers hstale hcurrent
  have hidle (hq : p.listener.question = some (key, id)) : False := by
    rw [hcurrent.working _ hq] at hstale
    cases hstale
  cases t with
  | notified ev now => cases hanswers
  | own m =>
    cases m with
    | setTargets | round | ask => cases hanswers
    | compare | settle | report => exact (hidle hanswers).elim
    | hear m source =>
      rw [after, step]
      rcases p.hear_cases cfg m source with
        heq | ⟨key', st, hkey, hst, hdeadline, hid, -⟩
      · rw [heq]
        exact ⟨fun _ => rfl, rfl⟩
      · rw [answers, hkey, map_some, some.injEq, Prod.mk.injEq] at hanswers
        obtain ⟨rfl, rfl⟩ := hanswers
        rw [← hid, hcurrent.asked key' st hst hdeadline] at hstale
        cases hstale

namespace Sample

def pair : ProbeKey := ⟨.root, secondary⟩

def askedOnce : List (ProbeTurn Serial) :=
  [.own (.round (rootSnapshot 6) 10 [] fun _ => some 7), .own (.ask true)]

def behind : ProbeTurn Serial := .own (.hear ⟨7, [ascii "."], [⟨5⟩]⟩ secondary)

def told (outcome : NotifyOutcome) : ProbeTurn Serial := .notified ⟨.root, secondary, outcome⟩ 11

def asking : Prober := .started [⟨secondary, none⟩]

def between : List (ProbeTurn Serial) :=
  askedOnce ++ [behind, told .sent, .own (.compare (rootSnapshot 6))]

def betweenBoth : List (ProbeTurn Serial) :=
  askedOnce ++ [behind, told .sent, told .answered, .own (.compare (rootSnapshot 6)),
    .own (.settle 12)]

end Sample

open DNS.Sample

/-- The secondary is notified before its answer comes in. -/
theorem stale_answers_are_ignored_late :
    stale pair 7
      (run probing asking (askedOnce ++ [told .sent])).log = true ∧
    (run probing asking
        (askedOnce ++ [told .sent] ++ [behind])).standing probing
        (rootSnapshot 6) =
      (run probing asking (askedOnce ++ [told .sent])).standing
        probing (rootSnapshot 6) := by
  have hwaiting : (run probing asking askedOnce).listener = .waiting := by
    decide +kernel
  refine ⟨by decide +kernel, (stale_answers_are_ignored probing [⟨secondary, none⟩]
    (askedOnce ++ [told .sent]) behind ?_ pair 7 (by decide +kernel)
    (by decide +kernel)).1 (rootSnapshot 6)⟩
  refine ⟨fun _ _ _ => rfl, trivial, fun _ q hq => ?_, trivial, trivial⟩
  have hnone : (run probing asking askedOnce).listener.question =
      some q := hq
  rw [hwaiting] at hnone
  cases hnone

/-- What an answer found is noted though a notification has overtaken the question, and handed to
the observer where the notification has been answered by then. -/
theorem stale_answer_is_noted :
    stale pair 7 (run probing asking between).log = true ∧
    (run probing asking between).answers
      (.own (.settle 12) : ProbeTurn Serial) = some (pair, 7) ∧
    (run probing asking between).standing probing
      (rootSnapshot 6) = [⟨.root, secondary, ⟨none, ⟨0⟩, false, 0, 0⟩⟩] ∧
    (run probing asking
        (between ++ [.own (.settle 12)])).standing probing (rootSnapshot 6) =
      [⟨.root, secondary, ⟨some .behind, ⟨5⟩, true, 1, 12⟩⟩] ∧
    stale pair 7 (run probing asking betweenBoth).log = true ∧
    (run probing asking betweenBoth).answers
      (.own .report : ProbeTurn Serial) = some (pair, 7) ∧
    (run probing asking betweenBoth).observed = [] ∧
    (run probing asking (betweenBoth ++ [.own .report])).observed =
      [⟨.root, secondary, .behind, 1⟩] := by
  decide +kernel

end DNS

end Wegweiser
