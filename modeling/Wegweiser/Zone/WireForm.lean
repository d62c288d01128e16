/-
Names on the wire, and what becomes of any text `ParseName` is given.

A name is read back from its text and from its octets.
-/
import Wegweiser.Zone.Text

namespace Wegweiser

open List

/-- The octets of a name: a length before every label, and the zero of the root behind them. -/
def Name.wire (n : Name) : Octets :=
  (n.labels.flatMap fun label => UInt8.ofNat label.length :: label) ++ [0]

/-- The loop of `NameFromWire` over what is left of the octets. -/
def wireLabels : Nat → List Octets → Octets → Except Err (List Octets)
  | 0, _, _ | _, _, [] => .error (.invalid "domain name: not terminated by a root label")
  | fuel + 1, done, n :: rest =>
    if n = 0 then
      if rest ≠ [] then .error (.invalid "domain name: trailing octets after the root label")
      else .ok done
    else if n &&& 0xC0 ≠ 0 then
      .error (.invalid "domain name: label type is not a plain label")
    else if maxLabelLen < n.toNat then
      .error (.invalid "domain name: label longer than 63 octets")
    else if rest.length < n.toNat then
      .error (.invalid "domain name: label overruns the buffer")
    else wireLabels fuel (done ++ [(rest.take n.toNat).map lowerASCII]) (rest.drop n.toNat)

def nameFromWire (b : Octets) : Except Err Name :=
  if b.isEmpty then .error (.invalid "domain name: empty wire name")
  else if maxNameWireLen < b.length then .error (.invalid "domain name: longer than 255 octets")
  else
    match wireLabels b.length [] b with
    | .ok labels => Name.ofLabels labels
    | .error e => .error e

theorem forall_octets {P : UInt8 → Prop} (h : ∀ i : Fin 256, P (UInt8.ofFin i)) (c : UInt8) : P c :=
  h c.toFin

theorem lowerASCII_lowerASCII (c : UInt8) : lowerASCII (lowerASCII c) = lowerASCII c :=
  forall_octets (P := fun c => lowerASCII (lowerASCII c) = lowerASCII c) (by decide +kernel) c

theorem not_upper_of_lower {c : UInt8} (h : lowerASCII c = c) : ¬ (65 ≤ c ∧ c ≤ 90) := by
  revert h
  exact forall_octets (P := fun c => lowerASCII c = c → ¬ (65 ≤ c ∧ c ≤ 90)) (by decide +kernel) c

section Wire

def labelOctets (labels : List Octets) : Octets :=
  labels.flatMap fun label => UInt8.ofNat label.length :: label

theorem length_labelOctets (labels : List Octets) :
    (labelOctets labels ++ [0]).length = wireLen labels := by
  induction labels with
  | nil => rfl
  | cons label labels ih =>
    rw [labelOctets, flatMap_cons, append_assoc, length_append, ← labelOctets, ih,
      wireLen, length_cons]
    omega

theorem Name.length_wire (n : Name) : n.wire.length = wireLen n.labels := length_labelOctets n.labels

theorem labelLength_plain {k : Nat} (hpos : 1 ≤ k) (hle : k ≤ maxLabelLen) :
    (UInt8.ofNat k).toNat = k ∧ UInt8.ofNat k ≠ 0 ∧ UInt8.ofNat k &&& 0xC0 = 0 := by
  have hplain : ∀ k : Fin 64, UInt8.ofNat k.val &&& 0xC0 = 0 := by decide
  have hlt : k < 64 := by
    rw [maxLabelLen] at hle
    omega
  have htoNat : (UInt8.ofNat k).toNat = k := by
    rw [UInt8.toNat_ofNat']
    omega
  refine ⟨htoNat, fun h => ?_, hplain ⟨k, hlt⟩⟩
  rw [h] at htoNat
  exact absurd htoNat (by simp; omega)

variable {label : Octets}

theorem map_lowerASCII_of_ok (h : label.all (fun c => lowerASCII c == c) = true) :
    label.map lowerASCII = label := by
  conv_rhs => rw [← map_id label]
  refine map_congr_left fun c hc => ?_
  simpa using all_eq_true.mp h c hc

theorem wireLabels_label (hok : labelOk label = true) (fuel : Nat)
    (done : List Octets) (rest : Octets) :
    wireLabels (fuel + 1) done (UInt8.ofNat label.length :: (label ++ rest)) =
      wireLabels fuel (done ++ [label]) rest := by
  simp only [labelOk, Bool.and_eq_true, decide_eq_true_eq] at hok
  obtain ⟨htoNat, hne, hplain⟩ := labelLength_plain hok.1.1 hok.1.2
  have hlen : ¬ (label ++ rest).length < label.length := by
    rw [length_append]
    omega
  rw [wireLabels, if_neg hne, if_neg (not_not.mpr hplain), htoNat, if_neg (Nat.not_lt.mpr hok.1.2),
    if_neg hlen, take_left, drop_left, map_lowerASCII_of_ok hok.2]

theorem wireLabels_labels {labels : List Octets} (hok : labels.all labelOk = true)
    (done : List Octets) {fuel : Nat} (hfuel : labels.length < fuel) :
    wireLabels fuel done (labelOctets labels ++ [0]) = .ok (done ++ labels) := by
  obtain ⟨fuel, rfl⟩ : ∃ f, fuel = f + 1 := ⟨fuel - 1, by omega⟩
  induction labels generalizing done fuel with
  | nil => simp [labelOctets, wireLabels]
  | cons label labels ih =>
    simp only [all_cons, Bool.and_eq_true] at hok
    have hcons : labels.length + 1 < fuel + 1 := hfuel
    obtain ⟨fuel, rfl⟩ : ∃ f, fuel = f + 1 := ⟨fuel - 1, by omega⟩
    rw [labelOctets, flatMap_cons, append_assoc, cons_append, ← labelOctets,
      wireLabels_label hok.1, ih hok.2 (done ++ [label]) fuel (by omega)]
    simp

theorem length_le_wireLen (labels : List Octets) : labels.length < wireLen labels := by
  induction labels with
  | nil => decide
  | cons label labels ih =>
    rw [wireLen, length_cons]
    omega

theorem nameFromWire_wire (n : Name) : nameFromWire n.wire = .ok n := by
  have hempty : n.wire.isEmpty = false := by simp [Name.wire]
  have hlen : ¬ maxNameWireLen < n.wire.length := by
    rw [n.length_wire]
    exact Nat.not_lt.mpr n.wireOk
  have hfuel : n.labels.length < n.wire.length := by
    rw [n.length_wire]
    exact length_le_wireLen n.labels
  have hlabels : wireLabels n.wire.length [] n.wire = .ok n.labels :=
    wireLabels_labels n.labelsOk [] hfuel
  rw [nameFromWire, hempty, if_neg (by decide), if_neg hlen, hlabels]
  exact Name.ofLabels_labels n

end Wire

section Case

theorem isDigit_lowerASCII (c : UInt8) : isDigit (lowerASCII c) = isDigit c :=
  forall_octets (P := fun c => isDigit (lowerASCII c) = isDigit c) (by decide +kernel) c

variable {c : UInt8}

theorem lowerASCII_of_isDigit (h : isDigit c = true) : lowerASCII c = c := by
  revert h
  exact forall_octets (P := fun c => isDigit c = true → lowerASCII c = c) (by decide +kernel) c

theorem lowerASCII_eq_dot : lowerASCII c = 46 ↔ c = 46 :=
  forall_octets (P := fun c => lowerASCII c = 46 ↔ c = 46) (by decide +kernel) c

theorem lowerASCII_eq_backslash : lowerASCII c = 92 ↔ c = 92 :=
  forall_octets (P := fun c => lowerASCII c = 92 ↔ c = 92) (by decide +kernel) c

/-- `decodeEscape`, behind the backslash: the octet it denotes, and what follows it. -/
def decodeEscape : Octets → Except Err (UInt8 × Octets)
  | [] => .error (.invalid "domain name: malformed escape: trailing backslash")
  | d :: rest₁ =>
    if !isDigit d then .ok (d, rest₁)
    else
      match rest₁ with
      | e :: f :: rest₂ =>
        let v := (d.toNat - 48) * 100 + (e.toNat - 48) * 10 + (f.toNat - 48)
        if !isDigit e || !isDigit f then
          .error (.invalid "domain name: malformed escape: needs exactly three digits")
        else if 255 < v then .error (.invalid "domain name: malformed escape: exceeds 255")
        else .ok (UInt8.ofNat v, rest₂)
      | _ => .error (.invalid "domain name: malformed escape: needs exactly three digits")

theorem parseLabels_dot (label : Octets) (done : List Octets) (rest : Octets) :
    parseLabels label done (46 :: rest) =
      (flushLabel label done).bind fun done => parseLabels [] done rest := by
  rw [parseLabels.eq_def]
  simp only [↓reduceIte]
  cases flushLabel label done <;> rfl

theorem parseLabels_escape (label : Octets) (done : List Octets) (rest : Octets) :
    parseLabels label done (92 :: rest) =
      (decodeEscape rest).bind fun p => parseLabels (label ++ [lowerASCII p.1]) done p.2 := by
  rw [parseLabels.eq_def]
  simp only [show (92 : UInt8) ≠ 46 by decide, ↓reduceIte]
  cases rest with
  | nil => rfl
  | cons d rest₁ =>
    rw [decodeEscape.eq_def]
    dsimp only
    by_cases hd : (!isDigit d) = true
    · rw [if_pos hd, if_pos hd]
      rfl
    · rw [if_neg hd, if_neg hd]
      rcases rest₁ with _ | ⟨e, _ | ⟨f, rest₂⟩⟩
      · rfl
      · rfl
      · dsimp only
        split_ifs <;> rfl

theorem parseLabels_plain (hdot : c ≠ 46) (hslash : c ≠ 92) (label : Octets)
    (done : List Octets) (rest : Octets) :
    parseLabels label done (c :: rest) = parseLabels (label ++ [lowerASCII c]) done rest := by
  rw [parseLabels.eq_def]
  simp only [hdot, hslash, ↓reduceIte]

theorem length_decodeEscape {s rest : Octets} {b : UInt8} (h : decodeEscape s = .ok (b, rest)) :
    rest.length < s.length := by
  rw [decodeEscape.eq_def] at h
  split at h
  · cases h
  · split at h
    · cases h
      simp
    · split at h
      · dsimp only at h
        split_ifs at h
        cases h
        simp only [length_cons]
        omega
      · cases h

theorem decodeEscape_lower (s : Octets) :
    (decodeEscape (s.map lowerASCII)).map (fun p => (lowerASCII p.1, p.2)) =
      (decodeEscape s).map fun p => (lowerASCII p.1, p.2.map lowerASCII) := by
  match s with
  | [] => rfl
  | d :: rest =>
    rw [map_cons, decodeEscape.eq_def, decodeEscape.eq_def]
    dsimp only
    rw [isDigit_lowerASCII]
    by_cases hd : isDigit d = true
    · rw [hd, lowerASCII_of_isDigit hd]
      match rest with
      | [] | [_] => rfl
      | e :: f :: rest =>
        simp only [map_cons, isDigit_lowerASCII, Bool.not_true, Bool.false_eq_true, ↓reduceIte]
        by_cases hef : (!isDigit e || !isDigit f) = true
        · rw [if_pos hef, if_pos hef]
          rfl
        · simp only [Bool.or_eq_true, Bool.not_eq_true', not_or, Bool.not_eq_false] at hef
          rw [lowerASCII_of_isDigit hef.1, lowerASCII_of_isDigit hef.2]
          simp only [hef.1, hef.2, Bool.not_true, Bool.or_self, Bool.false_eq_true, ↓reduceIte]
          split <;> rfl
    · rw [Bool.not_eq_true] at hd
      simp only [hd, Bool.not_false, ↓reduceIte, Except.map, lowerASCII_lowerASCII]

theorem parseLabels_lower (label : Octets) (done : List Octets) (s : Octets) :
    parseLabels label done (s.map lowerASCII) = parseLabels label done s := by
  -- an escape takes several octets at once, so the induction is on the length
  induction hn : s.length using Nat.strongRecOn generalizing label done s with
  | ind n ih =>
    subst hn
    match s with
    | [] => rfl
    | c :: rest =>
      rw [map_cons]
      by_cases hdot : c = 46
      · subst hdot
        rw [lowerASCII_eq_dot.mpr rfl, parseLabels_dot, parseLabels_dot]
        congr 1
        funext done
        exact ih rest.length (by simp) _ _ rest rfl
      · by_cases hslash : c = 92
        · subst hslash
          rw [lowerASCII_eq_backslash.mpr rfl, parseLabels_escape, parseLabels_escape]
          have hlower := decodeEscape_lower rest
          cases hrest : decodeEscape rest with
          | error e =>
            cases hmap : decodeEscape (rest.map lowerASCII) with
            | error e' =>
              rw [hrest, hmap] at hlower
              cases hlower
              rfl
            | ok p =>
              rw [hrest, hmap] at hlower
              cases hlower
          | ok p =>
            cases hmap : decodeEscape (rest.map lowerASCII) with
            | error e' =>
              rw [hrest, hmap] at hlower
              cases hlower
            | ok p' =>
              rw [hrest, hmap] at hlower
              obtain ⟨hb, hrest'⟩ := Prod.mk.inj (Except.ok.inj hlower)
              have hlen := length_decodeEscape hrest
              dsimp only [Except.bind]
              rw [hb, hrest', ih p.2.length (by rw [length_cons]; omega) _ _ p.2 rfl]
        · rw [parseLabels_plain hdot hslash, parseLabels_plain (mt lowerASCII_eq_dot.mp hdot)
            (mt lowerASCII_eq_backslash.mp hslash), lowerASCII_lowerASCII]
          exact ih rest.length (by simp) _ _ rest rfl

theorem parseName_lower (s : Octets) : parseName (s.map lowerASCII) = parseName s := by
  have hroot : s.map lowerASCII = [46] ↔ s = [46] := by
    match s with
    | [] | _ :: _ :: _ => simp
    | [c] => simp [lowerASCII_eq_dot]
  rw [parseName, parseName, parseLabels_lower, isEmpty_map]
  simp only [hroot]

end Case

section Accepted

variable {label s : Octets} {done out : List Octets}

theorem flushLabel_ok
    (hlower : label.all (fun c => lowerASCII c == c) = true) (hdone : done.all labelOk = true)
    (h : flushLabel label done = .ok out) : out.all labelOk = true := by
  rw [flushLabel] at h
  split_ifs at h with hempty hlen
  cases h
  have hpos : 1 ≤ label.length := length_pos_iff.mpr (by simpa using hempty)
  simp [hdone, labelOk, hlower, hpos, Nat.not_lt.mp hlen]

theorem parseLabels_ok
    (hlower : label.all (fun c => lowerASCII c == c) = true) (hdone : done.all labelOk = true)
    (h : parseLabels label done s = .ok out) : out.all labelOk = true := by
  fun_induction parseLabels label done s with
  | case1 => exact Except.ok.inj h ▸ hdone
  | case2 => exact flushLabel_ok hlower hdone h
  | case3 _ _ _ _ hflush ih => exact ih rfl (flushLabel_ok hlower hdone hflush) h
  | case4 | case5 | case7 | case8 | case10 => cases h
  | case6 | case9 | case11 =>
    rename_i ih
    exact ih (by simpa [lowerASCII_lowerASCII] using hlower) hdone h

theorem parseName_of_labels {labels : List Octets} (hne : s ≠ []) (hroot : s ≠ [46])
    (h : parseLabels [] [] s = .ok labels) :
    parseName s =
      if hwire : wireLen labels ≤ maxNameWireLen then
        .ok ⟨labels, parseLabels_ok rfl rfl h, hwire⟩
      else .error (.invalid "domain name: longer than 255 octets") := by
  rw [parseName, isEmpty_eq_false_iff.mpr hne, if_neg (by decide), if_neg hroot, h]
  dsimp only
  rw [Name.ofLabels, dif_pos (parseLabels_ok rfl rfl h)]

/-- A name is read back from its text and from its octets, and told apart by its text; the labels
of a text are refused for the length of the whole alone, and what is read from any text is within
the limits and in lower case, and does not depend on the case of the text. -/
theorem names_read_back :
    (∀ n : Name, parseName n.string = .ok n ∧ nameFromWire n.wire = .ok n) ∧
      (∀ n m : Name, n.string = m.string → n = m) ∧
      (∀ s labels, s ≠ [] → s ≠ [46] → parseLabels [] [] s = .ok labels →
        (parseName s).map Name.labels = if wireLen labels ≤ maxNameWireLen then .ok labels
          else .error (.invalid "domain name: longer than 255 octets")) ∧
      (∀ s n, parseName s = .ok n → n.wire.length ≤ 255 ∧
        n.wire = (n.labels.flatMap fun label => UInt8.ofNat label.length :: label) ++ [0] ∧
        ∀ label ∈ n.labels, 1 ≤ label.length ∧ label.length ≤ 63 ∧
          ∀ c ∈ label, ¬ (65 ≤ c ∧ c ≤ 90)) ∧
      ∀ s t, s.map lowerASCII = t.map lowerASCII → parseName s = parseName t := by
  refine ⟨fun n => ⟨n.parseName_string, nameFromWire_wire n⟩, fun _ _ => Name.string_injective,
    fun s labels hne hroot hlabels => ?_, fun s n _ => ⟨?_, rfl, fun label hlabel => ?_⟩,
    fun s t hst => ?_⟩
  · rw [parseName_of_labels hne hroot hlabels]
    split <;> rfl
  · rw [n.length_wire]
    exact n.wireOk
  · have hok := all_eq_true.mp n.labelsOk label hlabel
    simp only [labelOk, Bool.and_eq_true, decide_eq_true_eq] at hok
    refine ⟨hok.1.1, hok.1.2, fun c hc => not_upper_of_lower ?_⟩
    simpa using all_eq_true.mp hok.2 c hc
  · rw [← parseName_lower s, ← parseName_lower t, hst]

end Accepted

end Wegweiser
