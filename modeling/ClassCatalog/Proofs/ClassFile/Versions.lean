import Mathlib.Data.Prod.Lex
import Mathlib.Order.Interval.Set.Defs
import ClassCatalog.Proofs.ClassFile.Parse
import ClassCatalog.Proofs.ClassFile.Sections

/-! Which versions are read.

The versions to be read are those from 45.3 to 69.65535, by the major number first. They are compared as folded
numbers, though, in which the minor number has three digits but goes up to 65535. So a minor number of more than
three digits is carried into the major one, and an old version with such a minor number passes for a later one
(`supported_iff`). The version is the first thing that is read and the rest of the file does not depend on it, so
these are all the versions with which class files are read (`versions_exact`). -/
namespace ClassCatalog.ClassFile

namespace Version

/-- Versions are ordered by the major number and then by the minor one. -/
def number (major minor : UInt16) : ℕ ×ₗ ℕ := toLex (major.toNat, minor.toNat)

/-- The versions that are meant to be read. -/
def window : Set (ℕ ×ₗ ℕ) := Set.Icc (toLex (minMajor, minMinor)) (toLex (maxMajor, 65535))

/-- The major number is too low, but the minor one carries it over the least version. -/
def Carried (major minor : UInt16) : Prop :=
  major.toNat < minMajor ∧ fold minMajor minMinor ≤ fold major.toNat minor.toNat

variable {major minor : UInt16}

theorem mem_window_iff : number major minor ∈ window ↔
    (minMajor < major.toNat ∨ minMajor = major.toNat ∧ minMinor ≤ minor.toNat) ∧ major.toNat ≤ maxMajor := by
  have hminor := minor.toNat_lt
  unfold window number
  rw [Set.mem_Icc, Prod.Lex.toLex_le_toLex, Prod.Lex.toLex_le_toLex]
  dsimp only
  omega

instance : Decidable (number major minor ∈ window) := decidable_of_iff' _ mem_window_iff

instance : Decidable (Carried major minor) :=
  inferInstanceAs (Decidable (_ ∧ _))

/-- The majors that pass in any case are within the window anyway. -/
theorem mem_window_of_alwaysRead (h : major.toNat ∈ alwaysRead) : number major minor ∈ window := by
  rw [mem_window_iff]
  simp only [alwaysRead, List.mem_cons, List.not_mem_nil, or_false] at h
  simp only [minMajor, maxMajor]
  omega

/-- Folding keeps the order of versions except where it carries. -/
theorem supported_iff : supported major minor = true ↔ number major minor ∈ window ∨ Carried major minor := by
  unfold supported
  rw [Bool.or_eq_true, Bool.and_eq_true, decide_eq_true_eq, decide_eq_true_eq, List.contains_iff_mem]
  constructor
  · rintro (⟨hmax, hmin⟩ | halways)
    · rw [mem_window_iff]
      unfold Carried
      simp only [fold, minMajor, minMinor, maxMajor] at hmin hmax ⊢
      omega
    · exact .inl (mem_window_of_alwaysRead halways)
  · rintro (hwindow | ⟨hlow, hmin⟩)
    · obtain ⟨hmin, hmax⟩ := mem_window_iff.mp hwindow
      simp only [fold, minMajor, minMinor, maxMajor] at hmin hmax ⊢
      omega
    · refine .inl ⟨?_, hmin⟩
      simp only [minMajor, maxMajor] at hlow ⊢
      omega

end Version

/-! ### Headers -/

/-- The bytes start as a class file of this version does. -/
structure Versioned (b : Bytes) (major minor : UInt16) : Prop where
  magic : b.long? 0 = some Version.magic
  minor : b.word? 4 = some minor
  major : b.word? 6 = some major

open Image Reader
variable {b : Bytes} {major minor : UInt16} {f : File}

theorem versioned_of_holds (h : b.Holds 0 f.bytes) : Versioned b f.major f.minor := by
  obtain ⟨hfront, _⟩ := Bytes.holds_append.mp h
  simp only [Bytes.holds_append, longBytes_length, wordBytes_length, List.length_append] at hfront
  obtain ⟨⟨⟨⟨⟨hmagic, hminor⟩, hmajor⟩, _⟩, _⟩, _⟩ := hfront
  exact ⟨hmagic.long?, hminor.word?, hmajor.word?⟩

theorem Versioned.eq_of_holds (h : Versioned b major minor) (hf : b.Holds 0 f.bytes) :
    major = f.major ∧ minor = f.minor := by
  have hf := versioned_of_holds hf
  exact ⟨Option.some.inj (h.major.symm.trans hf.major), Option.some.inj (h.minor.symm.trans hf.minor)⟩

theorem versioned_of_parse [Text.Encoding] {r : Record} (h : Record.parse b = .ok r) :
    ∃ major minor, Versioned b major minor ∧ Version.supported major minor = true := by
  obtain ⟨o, pos, _, hopening, _⟩ := parse_eq_ok_iff.mp h
  unfold opening at hopening
  obtain ⟨_, _, hversion, _⟩ := reads_bind.mp hopening
  obtain ⟨_, major, minor, hmagic, hminor, hmajor, hsupported⟩ := of_version hversion
  exact ⟨major, minor, ⟨hmagic, hminor, hmajor⟩, hsupported⟩

/-- A version that is not read fails behind its two numbers, whatever follows. -/
theorem Versioned.parse_eq_error [Text.Encoding] (h : Versioned b major minor)
    (hread : ¬ Version.supported major minor = true) :
    Record.parse b = .error (.format "" 8 (.unsupportedVersion major minor)) := by
  have hversion : version b 0 = .error ⟨8, .unsupportedVersion major minor⟩ := by
    unfold version
    rw [Reads.bind_eq (reads_u32.mpr ⟨h.magic, rfl⟩)]
    dsimp only
    rw [if_neg (fun hne => hne rfl), Reads.bind_eq (reads_u16.mpr ⟨h.minor, rfl⟩),
      Reads.bind_eq (reads_u16.mpr ⟨h.major, rfl⟩), if_neg hread]
    rfl
  have hopening : opening.run b 0 = .error ⟨8, .unsupportedVersion major minor⟩ := bind_eq_error hversion
  rw [Record.parse, hopening]
  rfl

/-- A class file stays well-formed with any other version that is read. -/
theorem Image.File.Valid.withVersion [Text.Encoding] (hf : f.Valid) (h : Version.supported major minor = true) :
    ({ f with major, minor } : File).Valid :=
  { hf with version := h }

/-- **The versions that are read.** A class file is read only if its version is in the window, or if its minor number
is carried. All other versions are refused, before anything else of the file is looked at. A well-formed class file
is read with any version in the window and with any that is carried in the place of its own. -/
theorem versions_exact [Text.Encoding] (b : Bytes) :
    (∀ r, Record.parse b = .ok r → ∃ major minor, Versioned b major minor ∧
      (Version.number major minor ∈ Version.window ∨ Version.Carried major minor)) ∧
    (∀ major minor, Versioned b major minor → Version.number major minor ∉ Version.window →
      ¬ Version.Carried major minor →
        Record.parse b = .error (.format "" 8 (.unsupportedVersion major minor))) ∧
    ∀ f : File, f.Valid → f.bytes.toArray = b → ∀ major minor,
      Version.number major minor ∈ Version.window ∨ Version.Carried major minor →
        ∃ r, Record.parse ({ f with major, minor } : File).bytes.toArray = .ok r := by
  refine ⟨fun r h => ?_, fun major minor h hwindow hcarried => h.parse_eq_error ?_, fun f hf _ major minor h => ?_⟩
  · obtain ⟨major, minor, hversioned, hsupported⟩ := versioned_of_parse h
    exact ⟨major, minor, hversioned, Version.supported_iff.mp hsupported⟩
  · rw [Version.supported_iff]
    exact not_or.mpr ⟨hwindow, hcarried⟩
  · obtain ⟨r, hparse, _⟩ := parse_describes (hf.withVersion (Version.supported_iff.mpr h))
    exact ⟨r, hparse⟩

/-- The sample class with the version 44.1003, which folds like 45.3. -/
def Image.File.carried : File := { File.sample with major := 44, minor := 1003 }

theorem versions_exact_carried :
    Version.Carried 44 1003 ∧ ∃ r, Record.parse File.carried.bytes.toArray = .ok r := by
  have hcarried : Version.Carried 44 1003 := by decide
  obtain ⟨_, _, hread⟩ := versions_exact File.sample.bytes.toArray
  exact ⟨hcarried, hread File.sample File.sample_valid rfl 44 1003 (.inr hcarried)⟩

/-- A file may be read whose version is below the window. -/
theorem not_in_window : ¬ ∀ b r, Record.parse b = .ok r → ∃ major minor, Versioned b major minor ∧
    Version.number major minor ∈ Version.window := by
  intro hall
  have hvalid : File.carried.Valid := File.sample_valid.withVersion (by decide)
  obtain ⟨r, hparse, _⟩ := parse_describes hvalid
  obtain ⟨major, minor, hversioned, hwindow⟩ := hall _ r hparse
  obtain ⟨rfl, rfl⟩ := hversioned.eq_of_holds (Bytes.holds_toArray _)
  exact absurd hwindow (by decide)

end ClassCatalog.ClassFile
