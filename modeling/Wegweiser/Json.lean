/-
The two questions the store and the settings ask of `encoding/json`: whether a
text is one JSON document, and which string a document is.
-/
import Wegweiser.Zone.Addr

namespace Wegweiser

namespace Json

def skipSpace (s : Octets) : Octets :=
  s.dropWhile fun c => c == 32 || c == 9 || c == 10 || c == 13

/-- The octets a `\uXXXX` escape stands for.  From 128 on they only matter as
octets that no US-ASCII text holds. -/
def unicodeEscape (v : Nat) : Octets :=
  if v < 128 then [UInt8.ofNat v] else [239, 191, 189]

def shortEscape (e : UInt8) : Option UInt8 :=
  if e = 34 || e = 47 || e = 92 then some e
  else if e = 98 then some 8
  else if e = 102 then some 12
  else if e = 110 then some 10
  else if e = 114 then some 13
  else if e = 116 then some 9
  else none

/-- The content of a string whose opening quote was read, and what follows its
closing quote. -/
def readString (done : Octets) : Octets → Option (Octets × Octets)
  | [] => none
  | c :: rest =>
    if c = 34 then some (done, rest)
    else if c = 92 then
      match rest with
      | [] => none
      | e :: rest₁ =>
        if e = 117 then
          match rest₁ with
          | h₁ :: h₂ :: h₃ :: h₄ :: rest₂ =>
            if [h₁, h₂, h₃, h₄].all fun h => (hexDigit h).isSome then
              let v := [h₁, h₂, h₃, h₄].foldl
                (fun n h => n * 16 + (hexDigit h).getD 0) 0
              readString (done ++ unicodeEscape v) rest₂
            else none
          | _ => none
        else
          match shortEscape e with
          | some o => readString (done ++ [o]) rest₁
          | none => none
    else if c < 32 then none
    else readString (done ++ [c]) rest

def digits (s : Octets) : Option Octets :=
  if (s.takeWhile isDigit).isEmpty then none else some (s.dropWhile isDigit)

def afterFraction (s : Octets) : Option Octets :=
  match s with
  | 46 :: rest => digits rest
  | _ => some s

def afterExponent (s : Octets) : Option Octets :=
  match s with
  | c :: rest =>
    if c = 101 || c = 69 then
      match rest with
      | sign :: rest₁ => if sign = 43 || sign = 45 then digits rest₁ else digits rest
      | [] => none
    else some s
  | [] => some []

def afterNumber (s : Octets) : Option Octets :=
  let s := match s with
    | 45 :: rest => rest
    | _ => s
  match s with
  | [] => none
  | c :: rest =>
    let whole := if c = 48 then some rest else digits s
    whole.bind fun s => (afterFraction s).bind afterExponent

def maxNestingDepth : Nat := 10000

mutual

def afterValue : Nat → Nat → Octets → Option Octets
  | 0, _, _ => none
  | fuel + 1, depth, s =>
    match skipSpace s with
    | [] => none
    | c :: rest =>
      if c = 34 then (readString [] rest).map Prod.snd
      else if c = 123 then
        if maxNestingDepth ≤ depth then none
        else
          match skipSpace rest with
          | 125 :: rest₁ => some rest₁
          | rest₁ => afterMembers fuel (depth + 1) rest₁
      else if c = 91 then
        if maxNestingDepth ≤ depth then none
        else
          match skipSpace rest with
          | 93 :: rest₁ => some rest₁
          | rest₁ => afterElements fuel (depth + 1) rest₁
      else if (ascii "true").isPrefixOf (c :: rest) then some (rest.drop 3)
      else if (ascii "false").isPrefixOf (c :: rest) then some (rest.drop 4)
      else if (ascii "null").isPrefixOf (c :: rest) then some (rest.drop 3)
      else afterNumber (c :: rest)

def afterMembers : Nat → Nat → Octets → Option Octets
  | 0, _, _ => none
  | fuel + 1, depth, s =>
    match skipSpace s with
    | 34 :: rest =>
      (readString [] rest).bind fun (_, rest) =>
        match skipSpace rest with
        | 58 :: rest =>
          (afterValue fuel depth rest).bind fun rest =>
            match skipSpace rest with
            | 44 :: rest => afterMembers fuel depth rest
            | 125 :: rest => some rest
            | _ => none
        | _ => none
    | _ => none

def afterElements : Nat → Nat → Octets → Option Octets
  | 0, _, _ => none
  | fuel + 1, depth, s =>
    (afterValue fuel depth s).bind fun rest =>
      match skipSpace rest with
      | 44 :: rest => afterElements fuel depth rest
      | 93 :: rest => some rest
      | _ => none

end

/-- `json.Valid`: one value with nothing but white space around it. -/
def valid (s : Octets) : Bool :=
  match afterValue (2 * s.length + 2) 0 s with
  | some rest => (skipSpace rest).isEmpty
  | none => false

/-- `json.Unmarshal` into a string: a document that is one string. -/
def stringValue (s : Octets) : Option Octets :=
  match skipSpace s with
  | 34 :: rest =>
    match readString [] rest with
    | some (text, rest) => if (skipSpace rest).isEmpty then some text else none
    | none => none
  | _ => none

end Json

end Wegweiser
