import ClassCatalog.Archive.Content
import ClassCatalog.Proofs.ClassPath.Contents
import ClassCatalog.Proofs.Files.Tree
import ClassCatalog.Proofs.Name

/-! Reading what has been located.

The names of classes are made from the names of files (`Lists`): every `.class` at the end is dropped, and in a
directory backslashes become slashes. The name of the file to read is made from the name of the class again. So a
class that has been located is never missed by a read if an element holds it under the name it is asked for, and
otherwise it was listed for a file whose name ends in `.class` twice or has a backslash in it (`located_read`). Such
a file is not found again (`located_lost`). -/
namespace ClassCatalog.ClassPath
open Files ClassCatalog.Action

variable {files : Tree} {location : Path} {file name : String} {place rel : Place}

/-! ### Files and classes -/

/-- The element has a file of this name. In a directory that is the path to it from there. -/
def Holds [Archive.Format] (files : Tree) : Site → String → Prop
  | (.directory, location), file => ∃ place rel content, files.locate location = .ok (place, .directory) ∧
      files.at? (place ++ rel) = some (.file content) ∧ file = String.intercalate "/" rel
  | (.archive, location), file => ∃ a, Pool.openFile files location = .ok a ∧ ∃ e ∈ a.entries, e.name = file

/-- The name of a file as an element takes it. -/
def taken : ElementKind → String → List Char
  | .directory, file => file.toList.map fun c => if c = '\\' then '/' else c
  | .archive, file => file.toList

/-- The class is listed for the file: its name without the suffix, however often that stands there. -/
def Lists (kind : ElementKind) (file name : String) : Prop :=
  ∃ n, taken kind file = name.toList ++ (List.replicate (n + 1) ".class".toList).flatten

/-- A name of a file that cannot be told from the class listed for it. -/
def Ambiguous (kind : ElementKind) (file : String) : Prop :=
  ".class.class".toList <:+ file.toList ∨ kind = .directory ∧ '\\' ∈ file.toList

/-- The file is the one that the class is read from, unless its name is ambiguous. -/
theorem Lists.eq_fileName {kind : ElementKind} (h : Lists kind file name) (hplain : ¬Ambiguous kind file) :
    file = Name.fileName name := by
  obtain ⟨hdoubled, hback⟩ := not_or.mp hplain
  have htaken : taken kind file = file.toList := by
    cases kind with
    | archive => rfl
    | directory =>
      refine (List.map_congr_left fun c hc => ?_).trans (List.map_id _)
      exact if_neg fun e => hback ⟨rfl, by rwa [← e]⟩
  obtain ⟨n, hn⟩ := h
  rw [htaken] at hn
  cases n with
  | zero =>
    refine String.toList_inj.mp ?_
    rw [hn, Name.fileName, String.toList_append]
    simp
  | succ n =>
    refine absurd ⟨name.toList ++ (List.replicate n ".class".toList).flatten, ?_⟩ hdoubled
    rw [hn, List.replicate_succ', List.replicate_succ']
    simp

/-! ### Listing -/

theorem suffix_of_extensionOf {cs : List Char} (h : Path.extensionOf cs = some "class".toList) :
    ".class".toList <:+ cs := by
  unfold Path.extensionOf at h
  have hsplit := List.takeWhile_append_dropWhile (p := fun c => decide (c ≠ '.')) (l := cs.reverse)
  have hdot := List.head?_dropWhile_not (fun c => decide (c ≠ '.')) cs.reverse
  dsimp only at h
  cases hdrop : cs.reverse.dropWhile fun c => decide (c ≠ '.') with
  | nil =>
    rw [hdrop] at h
    cases h
  | cons c rest =>
    rw [hdrop] at h hdot hsplit
    have hc : c = '.' := by simpa using hdot
    cases rest with
    | nil => cases h
    | cons d rest =>
      have hclass := congrArg List.reverse (Option.some.inj h)
      rw [List.reverse_reverse] at hclass
      refine ⟨(d :: rest).reverse, ?_⟩
      rw [← List.reverse_reverse cs, ← hsplit, hclass, hc]
      simp

theorem suffix_intercalate {n : String} (h : place.getLast? = some n) :
    n.toList <:+ (String.intercalate "/" place).toList := by
  rw [String.toList_intercalate]
  induction place with
  | nil => cases h
  | cons m rest ih =>
    cases rest with
    | nil =>
      cases h
      simp
    | cons k rest =>
      rw [List.getLast?_cons_cons] at h
      refine (ih h).trans ⟨m.toList ++ "/".toList, ?_⟩
      simp

theorem lists_classOfFile (h : classOfFile rel = some name) :
    Lists .directory (String.intercalate "/" rel) name := by
  unfold classOfFile at h
  split at h
  · cases h
  · rename_i n hlast
    split at h
    · rename_i hextension
      cases h
      obtain ⟨front, hfront⟩ := (suffix_of_extensionOf hextension).trans (suffix_intercalate hlast)
      have hsuffix : ".class".toList <:+ taken .directory (String.intercalate "/" rel) :=
        ⟨front.map fun c => if c = '\\' then '/' else c, by rw [taken, ← hfront, List.map_append]; simp⟩
      rw [Lists, String.toList_ofList]
      exact Name.stripSuffix_of_suffix hsuffix
    · cases h

theorem lists_classOfEntry (h : classOfEntry file = some name) : Lists .archive file name := by
  unfold classOfEntry at h
  split at h
  · rename_i hsuffix
    cases h
    rw [Lists, String.toList_ofList]
    exact Name.stripSuffix_of_suffix (List.isSuffixOf_iff_suffix.mp hsuffix)
  · cases h

/-- What an element lists it lists for a file that it has. -/
theorem holds_of_mem_contents [Archive.Format] {site : Site} (hfiles : files.Sound)
    (hsite : site.1 = .directory → files.isDirectory site.2 = true) (h : name ∈ contents files site) :
    ∃ file, Holds files site file ∧ Lists site.1 file name := by
  obtain ⟨kind, location⟩ := site
  cases kind with
  | directory =>
    obtain ⟨place, hlocate⟩ := Tree.locate_of_isDirectory (hsite rfl)
    unfold contents directoryClasses at h
    dsimp only at h
    rw [hlocate] at h
    obtain ⟨rel, hrel, hclass⟩ := List.mem_filterMap.mp (List.mem_eraseDups.mp h)
    obtain ⟨content, hat⟩ := hfiles.at?_of_mem_filesBelow hrel
    exact ⟨_, ⟨place, rel, content, hlocate, hat, rfl⟩, lists_classOfFile hclass⟩
  | archive =>
    unfold contents at h
    dsimp only at h
    split at h
    · rename_i a hopen
      obtain ⟨e, he, hclass⟩ := List.mem_filterMap.mp (List.mem_eraseDups.mp h)
      exact ⟨e.name, ⟨a, hopen, e, he, rfl⟩, lists_classOfEntry hclass⟩
    · cases h

/-! ### Reading -/

/-- A read fails so if there is no such file, or no such entry in the archive. -/
inductive Absent : ClassError → Prop
  | file (path : Path) : Absent (.read path .notFound)
  | entry (path : Path) (name : String) : Absent (.missingEntry path name)

/-- An entry that is there is not missed, whether or not it can be read. -/
theorem readEntry_present [Archive.Format] {a : Archive.Opened} {e : Archive.Entry} (he : e ∈ a.entries)
    {cause : ClassError} (h : Pool.readEntry location e.name a = .error cause) : ¬Absent cause := by
  unfold Pool.readEntry at h
  split at h
  · rename_i hfind
    have hnone := List.find?_eq_none.mp hfind e (List.mem_reverse.mpr he)
    exact absurd (decide_eq_true rfl) hnone
  · split at h
    · cases h
    · cases h
      exact fun h => nomatch h
    · rename_i hcontent
      cases h
      rintro ⟨⟩
      exact Archive.Format.content_ne_notFound _ _ hcontent

/-- A class is not missed where the element holds the file it is read from. -/
theorem readWith_present [Archive.Format] (hfiles : files.Sound) {site : Site}
    (hholds : Holds files site (Name.fileName name))
    (hsite : match site.1 with
      | .directory => files.isDirectory site.2 = true
      | .archive => files.isFile site.2 = true)
    {r : Except ClassError Archive.Opened} (hr : Found files site.2 r) {cause : ClassError}
    (h : readWith files name site.2 r = .error cause) : ¬Absent cause := by
  obtain ⟨kind, location⟩ := site
  unfold readWith at h
  cases kind with
  | directory =>
    obtain ⟨place, rel, content, hlocate, hat, hname⟩ := hholds
    dsimp only at hsite h
    rw [if_pos hsite, hname] at h
    rcases hfiles.read_join hlocate hat with hread | hread | hread <;> rw [hread] at h <;> cases h <;>
      exact fun h => nomatch h
  | archive =>
    obtain ⟨a, hopen, e, he, hname⟩ := hholds
    dsimp only at hsite h
    rw [if_neg (Tree.not_isDirectory_of_isFile hsite), hr.eq_openFile hsite, hopen, ← hname] at h
    exact readEntry_present he h

/-- **What is located can be read, unless its file has an ambiguous name.** A class that has been located was listed
for a file that the element there holds. Where this has no ambiguous name, or the element holds another of the name
the class is read from, no read of the class there ends with the file or the entry missing, with whatever class path
over these files and whatever has been asked before. -/
theorem located_read [Archive.Format] (hfiles : files.Sound) {locations : List Path} {queries : List Query}
    {capacity : Nat} {told : Journal} (h : ((ask files (.locate name)).start
      (after files queries ⟨.new files locations capacity, told⟩)).1 = .ok (.location (some location))) :
    ∃ kind file, (kind, location) ∈ sitesAt files locations ∧ Holds files (kind, location) file ∧
      Lists kind file name ∧
      (¬Ambiguous kind file → file = Name.fileName name) ∧
      (Holds files (kind, location) (Name.fileName name) → ∀ locations' queries' capacity' told' cause,
        ((ask files (.read name location)).start
          (after files queries' ⟨.new files locations' capacity', told'⟩)).1 = .error cause → ¬Absent cause) := by
  have hwhere := (right_after files locations queries capacity told (.locate name)).located h
  obtain ⟨⟨kind, there⟩, hfind, rfl⟩ := Option.map_eq_some_iff.mp hwhere
  have hmem := List.mem_of_find?_eq_some hfind
  have hsite := of_mem_sitesAt hmem
  have hcontains := List.find?_some (p := fun site => (contents files site).contains name) hfind
  have hdirectory (hkind : kind = .directory) : files.isDirectory there = true := by
    subst hkind
    exact hsite
  obtain ⟨file, hholds, hlists⟩ := holds_of_mem_contents hfiles hdirectory (List.contains_iff_mem.mp hcontains)
  refine ⟨kind, file, hmem, hholds, hlists, hlists.eq_fileName, ?_⟩
  intro hread locations' queries' capacity' told' cause hr
  obtain ⟨r, hfound, heq⟩ := (right_after files locations' queries' capacity' told' (.read name there)).found
  rw [hr] at heq
  cases hwith : readWith files name there r with
  | ok b =>
    rw [hwith] at heq
    cases heq
  | error e =>
    rw [hwith] at heq
    cases heq
    exact readWith_present hfiles hread hsite hfound hwith

/-- Two directories of classes: in the one all names can be told from the classes, in the other none. -/
def twoDirectories : Tree :=
  ((Tree.empty.write ⟨"plain/p/A.class"⟩ #[1]).write ⟨"odd/A.class.class"⟩ #[2]).write ⟨"odd/p\\B.class"⟩ #[3]

theorem sound_twoDirectories : twoDirectories.Sound :=
  (((Tree.Made.empty.write _ _).write _ _).write _ _).sound

/-- The class of the first directory is located there, and no read misses it. -/
theorem located_read_plain :
    ((ask twoDirectories (.locate "p/A")).start
      (after twoDirectories [] ⟨.new twoDirectories [⟨"plain"⟩] 1, []⟩)).1 = .ok (.location (some ⟨"plain"⟩)) ∧
    ∀ locations queries capacity told cause, ((ask twoDirectories (.read "p/A" ⟨"plain"⟩)).start
      (after twoDirectories queries ⟨.new twoDirectories locations capacity, told⟩)).1 = .error cause →
        ¬Absent cause := by
  have hlocated : ((ask twoDirectories (.locate "p/A")).start
      (after twoDirectories [] ⟨.new twoDirectories [⟨"plain"⟩] 1, []⟩)).1 =
        .ok (.location (some ⟨"plain"⟩)) := by decide +kernel
  refine ⟨hlocated, ?_⟩
  obtain ⟨kind, _, hmem, _, _, _, hread⟩ := located_read sound_twoDirectories hlocated
  cases kind with
  | directory =>
    exact hread ⟨["plain"], ["p", "A.class"], #[1], by decide +kernel, by decide +kernel, by decide +kernel⟩
  | archive => exact absurd hmem (by decide +kernel)

/-- The classes of the second directory are located there, and there is no file to read them from. -/
theorem located_lost :
    (∀ name ∈ ["A", "p/B"], ((ask twoDirectories (.locate name)).start
      (after twoDirectories [] ⟨.new twoDirectories [⟨"odd"⟩] 1, []⟩)).1 = .ok (.location (some ⟨"odd"⟩))) ∧
    ∀ name ∈ ["A", "p/B"], ((ask twoDirectories (.read name ⟨"odd"⟩)).start
      (after twoDirectories [.locate name] ⟨.new twoDirectories [⟨"odd"⟩] 1, []⟩)).1 =
        .error (.read ⟨"odd/" ++ name ++ ".class"⟩ .notFound) := by
  decide +kernel

end ClassCatalog.ClassPath
