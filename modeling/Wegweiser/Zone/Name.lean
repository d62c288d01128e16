/-
Octet texts and domain names.

A Go string is a sequence of octets, so a text is a list of them.
-/
import Mathlib.Algebra.Ring.Int.Defs
import Mathlib.Algebra.Ring.Nat
import Mathlib.Data.List.Basic
import Mathlib.Tactic.Common

namespace Wegweiser

abbrev Octets := List UInt8

def ascii (s : String) : Octets :=
  s.toList.map Char.toUInt8

/-- The sentinel an error wraps, with the constant part of its message. -/
inductive Err where
  | invalid (what : String)
  | conflict (what : String)
  | notFound (what : String)
  | failed (what : String)
deriving DecidableEq

/-- `strings.Compare`: octet by octet, a proper beginning first. -/
def compareOctets : Octets → Octets → Ordering
  | [], [] => .eq
  | [], _ :: _ => .lt
  | _ :: _, [] => .gt
  | a :: as, b :: bs =>
    if a < b then .lt else if b < a then .gt else compareOctets as bs

def isDigit (c : UInt8) : Bool :=
  decide (48 ≤ c) && decide (c ≤ 57)

/-- `strconv.FormatUint` in base ten. -/
def decimal (n : Nat) : Octets :=
  (Nat.toDigits 10 n).map Char.toUInt8

/-- `strconv.ParseUint` in base ten for a number of the given width. -/
def parseUint (bits : Nat) (s : Octets) : Option Nat :=
  if s.isEmpty || !s.all isDigit then none
  else
    let v := s.foldl (fun n c => n * 10 + (c.toNat - 48)) 0
    if v < 2 ^ bits then some v else none

/-- `strconv.Atoi`, for results that are not negative: a caller that compares
the result from below treats a negative number as it treats a failure. -/
def atoi : Octets → Option Nat
  | 43 :: rest => parseUint 63 rest
  | s => parseUint 63 s

def isSpace (c : UInt8) : Bool :=
  c == 32 || (decide (9 ≤ c) && decide (c ≤ 13))

def trimSpace (s : Octets) : Octets :=
  ((s.dropWhile isSpace).reverse.dropWhile isSpace).reverse

/-- `strings.Split` at one octet. -/
def splitOctets (sep : UInt8) : Octets → List Octets
  | [] => [[]]
  | c :: rest =>
    if c = sep then [] :: splitOctets sep rest
    else
      match splitOctets sep rest with
      | [] => [[c]]
      | field :: fields => (c :: field) :: fields

def fields (s : Octets) : List Octets :=
  (s.splitBy fun a b => isSpace a == isSpace b).filter fun f => !f.all isSpace

def maxLabelLen : Nat := 63

def maxNameWireLen : Nat := 255

/-- `lowerASCII`: only A to Z are folded, as RFC 4343 asks. -/
def lowerASCII (c : UInt8) : UInt8 :=
  if decide (65 ≤ c) && decide (c ≤ 90) then c + 32 else c

/-- The encoded length of a name: a length octet before every label and the
terminating zero. -/
def wireLen : List Octets → Nat
  | [] => 1
  | label :: rest => 1 + label.length + wireLen rest

/-- A label `ParseName` lets through: not empty, within the limit, folded. -/
def labelOk (label : Octets) : Bool :=
  decide (1 ≤ label.length) && decide (label.length ≤ maxLabelLen) &&
    label.all fun c => lowerASCII c == c

/-- `Name`: a fully qualified, validated domain name, leftmost label first.  The
zero `Name` of the source is no name at all, and is `none` where it can occur. -/
structure Name where
  labels : List Octets
  labelsOk : labels.all labelOk = true
  wireOk : wireLen labels ≤ maxNameWireLen
deriving DecidableEq

namespace Name

def root : Name := ⟨[], rfl, by decide⟩

def isRoot (n : Name) : Bool :=
  n.labels.isEmpty

def labelCount (n : Name) : Nat :=
  n.labels.length

theorem ext_labels {n m : Name} (h : n.labels = m.labels) : n = m := by
  cases n
  cases m
  simp only at h
  subst h
  rfl

/-- The name with the given labels, if each label and the whole are within the
limits. -/
def ofLabels (labels : List Octets) : Except Err Name :=
  if hlabels : labels.all labelOk = true then
    if hwire : wireLen labels ≤ maxNameWireLen then .ok ⟨labels, hlabels, hwire⟩
    else .error (.invalid "domain name: longer than 255 octets")
  else .error (.invalid "domain name: empty label or label longer than 63 octets")

def parent (n : Name) : Option Name :=
  match n with
  | ⟨[], _, _⟩ => none
  | ⟨_ :: rest, hlabels, hwire⟩ =>
    some ⟨rest, by simp only [List.all_cons, Bool.and_eq_true] at hlabels; exact hlabels.2,
      by simp only [wireLen] at hwire; omega⟩

/-- The name and its ancestors, one label up at a time; the fuel bounds the walk. -/
def upwardsFrom : Nat → Name → List Name
  | 0, n => [n]
  | fuel + 1, n =>
    n :: match n.parent with
      | none => []
      | some p => upwardsFrom fuel p

def upwards (n : Name) : List Name :=
  upwardsFrom n.labelCount n

def child (n : Name) (label : Octets) : Except Err Name :=
  ofLabels (label.map lowerASCII :: n.labels)

/-- `Name.IsSubDomainOf`: at or below, on label boundaries. -/
def isSubDomainOf (n p : Name) : Bool :=
  decide (p.labels <:+ n.labels)

/-- `Name.Compare`: the canonical order of RFC 4034 §6.1, from the rightmost
label. -/
def compareLabels : List Octets → List Octets → Ordering
  | [], [] => .eq
  | [], _ :: _ => .lt
  | _ :: _, [] => .gt
  | a :: as, b :: bs =>
    match compareOctets a b with
    | .eq => compareLabels as bs
    | other => other

def compare (n m : Name) : Ordering :=
  compareLabels n.labels.reverse m.labels.reverse

end Name

def isZonefileSpecial (c : UInt8) : Bool :=
  [32, 34, 39, 40, 41, 46, 59, 64, 92].contains c

def writeEscaped (c : UInt8) : Octets :=
  if isZonefileSpecial c then [92, c]
  else if c < 33 || 126 < c then
    [92, 48 + c / 100, 48 + (c / 10) % 10, 48 + c % 10]
  else [c]

/-- `Name.String`: presentation format, with the trailing dot. -/
def Name.string (n : Name) : Octets :=
  if n.isRoot then [46]
  else n.labels.flatMap fun label => label.flatMap writeEscaped ++ [46]

def Name.text (n : Name) : String :=
  String.ofList (n.string.map fun c => Char.ofNat c.toNat)

/-- The `flush` of `ParseName`: the pending label is complete. -/
def flushLabel (label : Octets) (done : List Octets) : Except Err (List Octets) :=
  if label.isEmpty then .error (.invalid "domain name: empty label")
  else if maxLabelLen < label.length then
    .error (.invalid "domain name: label longer than 63 octets")
  else .ok (done ++ [label])

/-- The loop of `ParseName`, with `decodeEscape` in its backslash case. -/
def parseLabels (label : Octets) (done : List Octets) :
    Octets → Except Err (List Octets)
  | [] => if label.isEmpty then .ok done else flushLabel label done
  | c :: rest =>
    if c = 46 then
      match flushLabel label done with
      | .ok done => parseLabels [] done rest
      | .error e => .error e
    else if c = 92 then
      match rest with
      | [] => .error (.invalid "domain name: malformed escape: trailing backslash")
      | d :: rest₁ =>
        if !isDigit d then parseLabels (label ++ [lowerASCII d]) done rest₁
        else
          match rest₁ with
          | e :: f :: rest₂ =>
            let v := (d.toNat - 48) * 100 + (e.toNat - 48) * 10 + (f.toNat - 48)
            if !isDigit e || !isDigit f then
              .error (.invalid "domain name: malformed escape: needs exactly three digits")
            else if 255 < v then
              .error (.invalid "domain name: malformed escape: exceeds 255")
            else parseLabels (label ++ [lowerASCII (UInt8.ofNat v)]) done rest₂
          | _ =>
            .error (.invalid "domain name: malformed escape: needs exactly three digits")
    else parseLabels (label ++ [lowerASCII c]) done rest

def parseName (s : Octets) : Except Err Name :=
  if s.isEmpty then .error (.invalid "domain name: empty")
  else if s = [46] then .ok Name.root
  else
    match parseLabels [] [] s with
    | .ok labels => Name.ofLabels labels
    | .error e => .error e

end Wegweiser
