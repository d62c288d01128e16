/-
Where a generated configuration has a secondary keep its copies of the zones.
-/
import Wegweiser.Apply.Operation
import Wegweiser.Zone.WireForm

namespace Wegweiser.Secondary

open List

variable {s dir path : Octets} {c : UInt8} {n m : Name}

/-- `strings.TrimSuffix` with a suffix of one octet. -/
def trimSuffix (s : Octets) (c : UInt8) : Octets :=
  if s.getLast? = some c then s.dropLast else s

def zoneFile (dir : Octets) (name : Name) : Octets :=
  trimSuffix dir 47 ++ ascii "/" ++ trimSuffix name.string 46 ++ ascii ".zone"

def bindZoneDir : Octets := ascii "/var/lib/named"

/-- The directory `renderBIND` writes into its `file` lines. -/
def bindDir (zoneDir : Octets) : Octets :=
  if zoneDir = [] then bindZoneDir else zoneDir

/-- The paths on the `file` lines of `renderBIND`, one for each zone. -/
def bindFiles (zoneDir : Octets) (zones : List Name) : List Octets :=
  zones.map (zoneFile (bindDir zoneDir))

/-- A path that leads from a directory to an entry of that directory. -/
def DirectlyIn (dir path : Octets) : Prop :=
  ∃ file, path = trimSuffix dir 47 ++ 47 :: file ∧ 47 ∉ file ∧ file ∉ [[], [46], [46, 46]]

theorem trimSuffix_append (s : Octets) (c : UInt8) : trimSuffix (s ++ [c]) c = s := by
  simp [trimSuffix]

theorem slash_mem_writeEscaped (c : UInt8) : 47 ∈ writeEscaped c ↔ c = 47 :=
  forall_octets (P := fun c => 47 ∈ writeEscaped c ↔ c = 47) (by decide +kernel) c

theorem slash_mem_string : 47 ∈ n.string ↔ ∃ label ∈ n.labels, 47 ∈ label := by
  by_cases hlabels : n.labels = []
  · simp [Name.string, Name.isRoot, hlabels]
  · rw [Name.string_of_labels hlabels]
    simp [slash_mem_writeEscaped]

theorem zoneFile_directlyIn_iff :
    DirectlyIn dir (zoneFile dir n) ↔ ∀ label ∈ n.labels, 47 ∉ label := by
  obtain ⟨front, hfront⟩ := n.string_ends
  have hmem : 47 ∈ front ↔ ∃ label ∈ n.labels, 47 ∈ label := by
    rw [← slash_mem_string, hfront]
    simp
  have hfile : zoneFile dir n = trimSuffix dir 47 ++ 47 :: (front ++ ascii ".zone") := by
    rw [zoneFile, hfront, trimSuffix_append, append_assoc, append_assoc]
    rfl
  have hslash : 47 ∉ front ++ ascii ".zone" ↔ ∀ label ∈ n.labels, 47 ∉ label := by
    rw [mem_append, hmem]
    simp [show 47 ∉ ascii ".zone" by decide]
  constructor
  · intro h
    obtain ⟨file, hpath, hone, -⟩ := h
    rw [hfile, append_cancel_left_eq] at hpath
    exact hslash.mp ((cons.inj hpath).2 ▸ hone)
  · intro h
    refine ⟨_, hfile, hslash.mpr h, fun hshort => ?_⟩
    -- a file that ends in `.zone` is longer than the names of the directory and its parent
    have hlength : (front ++ ascii ".zone").length ≤ 2 := by
      simp only [mem_cons, not_mem_nil, or_false] at hshort
      rcases hshort with heq | heq | heq <;> rw [heq] <;> decide
    rw [List.length_append, show (ascii ".zone").length = 5 by decide] at hlength
    omega

theorem zoneFile_injective (h : zoneFile dir n = zoneFile dir m) : n = m := by
  obtain ⟨front, hfront⟩ := n.string_ends
  obtain ⟨front', hfront'⟩ := m.string_ends
  rw [zoneFile, zoneFile, append_left_inj, append_right_inj, hfront, hfront',
    trimSuffix_append, trimSuffix_append] at h
  exact Name.string_injective (by rw [hfront, hfront', h])

/-- For every directory and all distinct apexes: each path leads straight into the directory and no
two zones share one, exactly if no label of an apex holds a slash. -/
theorem bindFiles_apart_iff (zoneDir : Octets) {zones : List Name} (hdistinct : zones.Nodup) :
    ((∀ path ∈ bindFiles zoneDir zones, DirectlyIn (bindDir zoneDir) path) ∧
        (bindFiles zoneDir zones).Nodup) ↔
      ∀ apex ∈ zones, ∀ label ∈ apex.labels, 47 ∉ label := by
  have hnodup : (bindFiles zoneDir zones).Nodup := hdistinct.map fun n m => zoneFile_injective
  rw [and_iff_left hnodup]
  simp only [bindFiles, forall_mem_map, zoneFile_directlyIn_iff]

theorem bindFiles_apart_forward :
    (∀ path ∈ bindFiles [] [Sample.name ["ex"], Sample.name ["a", "ex"]],
        DirectlyIn bindZoneDir path) ∧
      (bindFiles [] [Sample.name ["ex"], Sample.name ["a", "ex"]]).Nodup :=
  (bindFiles_apart_iff [] (by decide)).mpr (by decide)

def Sample.classless : Zone := Wegweiser.Sample.zone 1 ["0/25", "2", "0", "192", "in-addr", "arpa"]

/-- The copy of a classless reverse zone goes into a directory below the one asked for. -/
theorem bindFiles_classless :
    Sample.classless.check = .ok () ∧
      bindFiles [] [Sample.classless.name] =
        [ascii "/var/lib/named/0/25.2.0.192.in-addr.arpa.zone"] ∧
      ¬ ∀ path ∈ bindFiles [] [Sample.classless.name], DirectlyIn bindZoneDir path := by
  refine ⟨by decide +kernel, by decide +kernel, fun h => ?_⟩
  have hslash := zoneFile_directlyIn_iff.mp (h _ List.mem_cons_self) (ascii "0/25")
  exact absurd (hslash (by decide +kernel)) (by decide)

end Wegweiser.Secondary
