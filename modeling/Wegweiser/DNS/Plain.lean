/-
A wire library that keeps the fields of a line as they are, and what can be read off them
again.
-/
import Wegweiser.DNS.Tree
import Wegweiser.Zone.Text

namespace Wegweiser

open List

theorem splitOctets_append {sep : UInt8} {l rest : Octets} (h : sep ∉ l) :
    splitOctets sep (l ++ sep :: rest) = l :: splitOctets sep rest := by
  induction l with
  | nil => simp [splitOctets]
  | cons head tail ih =>
    rw [mem_cons, not_or] at h
    rw [cons_append, splitOctets, if_neg (Ne.symm h.1), ih h.2]

theorem tab_notMem_decimal (n : Nat) : (9 : UInt8) ∉ decimal n := by
  intro hmem
  obtain ⟨c, hc, heq⟩ := mem_map.mp hmem
  obtain ⟨hsame, hlow⟩ := toUInt8_of_mem_toDigits hc
  rw [← hsame, heq] at hlow
  exact absurd hlow (by decide)

namespace DNS

namespace RRLibrary

def plain : RRLibrary where
  RR := List Octets
  typeToString _ := none
  classToString _ := none
  newRR line := some (splitOctets 9 line)
  target rr := rr.getLast?.bind fun data => (fields data).getLast?
  renamed owner rr := owner :: rr.tail

instance : DecidableEq plain.RR := inferInstanceAs (DecidableEq (List Octets))

def plainOwner (rr : List Octets) : Name := (parseName (rr.headD [])).toOption.getD Name.root

def plainKind (rr : List Octets) : RRType :=
  UInt16.ofNat (((rr.getD 3 []).drop 4).foldl (fun v c => 10 * v + (c.toNat - 48)) 0)

theorem plain_recordRR {r : Record} {rr : plain.RR} (h : plain.recordRR r = .ok rr) :
    rr = r.name.string :: decimal r.ttl.toNat :: (ascii "CLASS" ++ decimal r.cls.toNat) ::
      (ascii "TYPE" ++ decimal r.type.toNat) :: splitOctets 9 r.rdata.text := by
  have hname : (9 : UInt8) ∉ r.name.string := by
    intro hmem
    exact absurd (Name.printable_of_mem_string hmem).1 (by decide)
  have hclass : (9 : UInt8) ∉ ascii "CLASS" ++ decimal r.cls.toNat := by
    rw [mem_append, not_or]
    exact ⟨by decide, tab_notMem_decimal _⟩
  have htype : (9 : UInt8) ∉ ascii "TYPE" ++ decimal r.type.toNat := by
    rw [mem_append, not_or]
    exact ⟨by decide, tab_notMem_decimal _⟩
  have htext : plain.recordText r = r.name.string ++ 9 :: (decimal r.ttl.toNat ++
      9 :: ((ascii "CLASS" ++ decimal r.cls.toNat) ++
        9 :: ((ascii "TYPE" ++ decimal r.type.toNat) ++ 9 :: r.rdata.text))) := by
    simp [recordText, classText, typeText, plain]
  have hread : plain.recordRR r = .ok (splitOctets 9 (plain.recordText r)) := rfl
  rw [h, htext, splitOctets_append hname, splitOctets_append (tab_notMem_decimal _),
    splitOctets_append hclass, splitOctets_append htype] at hread
  exact Except.ok.inj hread

theorem plainOwner_eq (r : Record) (rr : plain.RR) (h : plain.recordRR r = .ok rr) :
    plainOwner rr = r.name := by
  rw [plain_recordRR h, plainOwner, headD_cons, Name.parseName_string]
  rfl

theorem plainKind_eq (r : Record) (rr : plain.RR) (h : plain.recordRR r = .ok rr) :
    plainKind rr = r.type := by
  have hdrop : ∀ l : Octets, (ascii "TYPE" ++ l).drop 4 = l := fun l => rfl
  rw [plain_recordRR h, plainKind]
  simp only [getD_cons_succ, getD_cons_zero, hdrop, decimal_value, UInt16.ofNat_toNat]

theorem plainKind_renamed (owner : Octets) (rr : List Octets) :
    plainKind (owner :: rr.tail) = plainKind rr := by
  cases rr with
  | nil => rfl
  | cons head rest => rfl

end RRLibrary

end DNS

end Wegweiser
