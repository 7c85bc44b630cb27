import Mathlib.Data.List.Nodup
import ScriptLoom.Proofs.BraceBalance
import ScriptLoom.Proofs.ScriptSurvival

/-! # The names of the units of a program

A struct becomes a unit of its own only if its name is an identifier that neither the program nor an
earlier struct has. So the units of a program have different names, and the file of each of them
lies right in the directory that it is written to.
-/

namespace ScriptLoom

namespace Record

/-- Structs with different names, all of them identifiers and none that of the program. -/
structure WellNamed (className : Text) (records : List Record) : Prop where
  distinct : (records.map (·.name)).Nodup
  other : ∀ record ∈ records, record.name ≠ className
  nonempty : ∀ record ∈ records, record.name ≠ []
  ident : ∀ record ∈ records, ∀ c ∈ record.name, isIdentChar c = true

variable {className source text left : Text} {records taken : List Record}

private theorem ident_of_extractFirst {found : Extraction}
    (extracted : extractFirst text source = .ok (some found)) :
    found.record.name ≠ [] ∧ ∀ c ∈ found.record.name, isIdentChar c = true := by
  obtain ⟨_, _, _, -, -, written, -⟩ := exists_written_of_extractFirst extracted
  generalize found.record = record at written
  obtain ⟨-, nonempty, ident, -, -⟩ := written
  exact ⟨nonempty, ident⟩

private theorem WellNamed.concat (named : WellNamed className records) {record : Record}
    (fresh : ∀ earlier ∈ records, earlier.name ≠ record.name) (other : record.name ≠ className)
    (nonempty : record.name ≠ []) (ident : ∀ c ∈ record.name, isIdentChar c = true) :
    WellNamed className (records ++ [record]) where
  distinct := by
    rw [List.map_append, List.map_singleton, List.nodup_append]
    refine ⟨named.distinct, List.nodup_singleton _, ?_⟩
    intro name member last same
    obtain ⟨earlier, listed, rfl⟩ := List.mem_map.mp member
    rw [List.mem_singleton.mp same]
    exact fresh earlier listed
  other := List.forall_mem_append.mpr ⟨named.other, List.forall_mem_singleton.mpr other⟩
  nonempty := List.forall_mem_append.mpr ⟨named.nonempty, List.forall_mem_singleton.mpr nonempty⟩
  ident := List.forall_mem_append.mpr ⟨named.ident, List.forall_mem_singleton.mpr ident⟩

private theorem WellNamed.of_extractAll (named : WellNamed className records)
    (extracted : extractAll className source records text = .ok (taken, left)) :
    WellNamed className taken := by
  fun_induction extractAll className source records text with
  | case1 => cases extracted
  | case2 =>
    cases extracted
    exact named
  | case3 => cases extracted
  | case4 => cases extracted
  | case5 records text found first name fresh other ih =>
    obtain ⟨nonempty, ident⟩ := ident_of_extractFirst first
    exact ih (named.concat (by simpa using fresh) other nonempty ident) extracted

/-- Names stay distinct as structs are taken out of slots. -/
theorem WellNamed.of_extractFromSlots (named : WellNamed className records) {unit : SourceUnit}
    {slots : List Slot}
    (extracted : (extractFromSlots className source records unit slots).1 = .ok taken) :
    WellNamed className taken := by
  induction slots generalizing records unit with
  | nil =>
    cases extracted
    exact named
  | cons slot slots ih =>
    rw [extractFromSlots] at extracted
    split at extracted
    · cases extracted
    · next step => exact ih (named.of_extractAll step) extracted

end Record

namespace Program

/-- The main unit of a program has the name of its class, the others those of its structs. -/
theorem exists_records_of_ofScript {text : Text} {fileName : Path} {catalog : Catalog}
    {program : Program} (made : ofScript text fileName catalog = .ok program) :
    program.className = fileName.className ∧
      ∃ records, Record.WellNamed fileName.className records ∧
        program.auxiliary.map (·.name) = records.map (·.name) := by
  unfold ofScript at made
  dsimp only at made
  split at made
  · cases sound : ofSound text fileName.className catalog with
    | error problem =>
      rw [sound] at made
      cases made
    | ok result =>
      rw [sound] at made
      cases made
      unfold ofSound at sound
      obtain ⟨r, -, sound⟩ := exists_of_bind_eq_ok sound
      obtain ⟨script, -, sound⟩ := exists_of_bind_eq_ok sound
      obtain ⟨records, taken, sound⟩ := exists_of_bind_eq_ok sound
      cases sound
      have none : Record.WellNamed fileName.className [] :=
        ⟨List.nodup_nil, by simp, by simp, by simp⟩
      have taken' : (takeRecords (script.compose fileName.className catalog).unit
          fileName.className text).1 = .ok records := taken
      refine ⟨rfl, records, none.of_extractFromSlots taken', ?_⟩
      rw [List.map_map]
      rfl
  · cases made

/-- Units with different names, each of which names a file in the directory it is written to. -/
structure WellNamed (program : Program) : Prop where
  distinct : (program.units.map (·.name)).Nodup
  nonempty : ∀ unit ∈ program.units, unit.name ≠ []
  inPart : ∀ unit ∈ program.units, '/' ∉ unit.name

/-- A unit of a program is known by its name. -/
theorem WellNamed.eq_of_name {program : Program} (named : program.WellNamed)
    {unit other : NamedSource} (member : unit ∈ program.units) (member' : other ∈ program.units)
    (same : unit.name = other.name) : unit = other :=
  List.inj_on_of_nodup_map named.distinct member member' same

end Program

/-- The class of a script that is accepted is that of its file name. -/
theorem Path.className_of_scriptClass {script : Path} {className : Text}
    (accepted : script.scriptClass = .ok className) :
    Path.className (script.fileName?.getD []) = className := by
  rw [Path.scriptClass] at accepted
  split at accepted
  · cases accepted
  · dsimp only at accepted
    split at accepted
    · cases accepted
    · split at accepted
      · cases accepted
      · exact Except.ok.inj accepted

/-- The program of a script that can be built. -/
theorem Builder.Accepts.wellNamed {b : Builder} {script : Path} {files : FileTree}
    {program : Program} {className : Text} (accepts : b.Accepts script files program)
    (accepted : script.scriptClass = .ok className) : program.WellNamed := by
  obtain ⟨text, -, made⟩ := accepts
  obtain ⟨-, ⟨c, first, -⟩, inPart⟩ := Path.exists_of_scriptClass accepted
  obtain ⟨sameClass, records, named, names⟩ := Program.exists_records_of_ofScript made
  rw [Path.className_of_scriptClass accepted] at sameClass named
  have ofRecord : ∀ unit ∈ program.auxiliary, ∃ record ∈ records, record.name = unit.name := by
    intro unit member
    exact List.mem_map.mp (names ▸ List.mem_map_of_mem member)
  have units : program.units.map (·.name) = records.map (·.name) ++ [className] := by
    rw [Program.units, List.map_append, names, ← sameClass]
    rfl
  refine ⟨?_, ?_, ?_⟩
  · rw [units, List.nodup_append]
    refine ⟨named.distinct, List.nodup_singleton _, fun name member last single => ?_⟩
    obtain ⟨record, listed, rfl⟩ := List.mem_map.mp member
    rw [List.mem_singleton.mp single]
    exact named.other record listed
  · refine List.forall_mem_append.mpr ⟨fun unit member => ?_, List.forall_mem_singleton.mpr ?_⟩
    · obtain ⟨record, listed, same⟩ := ofRecord unit member
      exact same ▸ named.nonempty record listed
    · change program.className ≠ []
      rw [sameClass]
      rintro rfl
      cases first
  · refine List.forall_mem_append.mpr ⟨fun unit member => ?_, List.forall_mem_singleton.mpr ?_⟩
    · obtain ⟨record, listed, same⟩ := ofRecord unit member
      rw [← same]
      exact fun slash => absurd (named.ident record listed _ slash) (by decide)
    · change '/' ∉ program.className
      rwa [sameClass]

end ScriptLoom
