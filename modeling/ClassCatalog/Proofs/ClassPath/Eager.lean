import ClassCatalog.Proofs.Cache.Direct
import ClassCatalog.Proofs.ClassPath.Contents

/-! Listing late and closing archives.

An `Eager` class path lists every element when it is made and never closes an archive. It answers right as well, so
that one which lists an element when a search first reaches it, and keeps a few archives open, cannot be told from
it, or from another with more archives open (`lazy_agrees_eager`). The exception is a read at a location that leads
to no file as it is spelled: such a read is served while the archive is open under another spelling of the same
path, and fails when it is not (`lazy_observable`). -/
namespace ClassCatalog.ClassPath
open Files

/-- A class path that has listed everything and closes nothing. -/
structure Eager where
  held : List (Path × List String)
  opened : List (Path × Archive.Opened)

namespace Eager
variable [Archive.Format] {files : Tree} {e : Eager}

/-- The archive at a location, which stays open from now on. -/
def reach (files : Tree) (location : Path) (e : Eager) : Except ClassError Archive.Opened × Eager :=
  match e.opened.find? fun o => o.1.same location with
  | some o => (.ok o.2, e)
  | none =>
    match Pool.openFile files location with
    | .ok a => (.ok a, { e with opened := e.opened ++ [(location, a)] })
    | .error cause => (.error cause, e)

/-- With one more element. An archive that cannot be read counts as empty. -/
def index (files : Tree) (e : Eager) (x : Element) : Eager :=
  match x.kind with
  | .directory => { e with held := e.held ++ [(x.location, directoryClasses files x.location)] }
  | .archive =>
    match e.reach files x.location with
    | (.ok a, e) => { e with held := e.held ++ [(x.location, archiveClasses a)] }
    | (.error _, e) => { e with held := e.held ++ [(x.location, [])] }

def new (files : Tree) (locations : List Path) : Eager :=
  (locations.filterMap (elementAt? files)).foldl (index files) ⟨[], []⟩

def ask (files : Tree) (e : Eager) : Query → Except ClassError Reply × Eager
  | .locate name => (.ok (.location ((e.held.find? fun h => h.2.contains name).map Prod.fst)), e)
  | .list => (.ok (.names (e.held.flatMap fun h => sorted h.2).eraseDups), e)
  | .read name location =>
    if files.isDirectory location then
      let path := location.join (Name.fileName name)
      (((files.read path).mapError (.read path)).map .bytes, e)
    else
      let (r, e) := e.reach files location
      ((r >>= Pool.readEntry location (Name.fileName name)).map .bytes, e)
  | .close => (.ok .closed, e)

def after (files : Tree) (queries : List Query) (e : Eager) : Eager :=
  queries.foldl (fun e q => (e.ask files q).2) e

/-! ### Right answers -/

/-- It holds what there is, and its open archives are those of the files. -/
structure Honest (files : Tree) (sites : List Site) (e : Eager) : Prop where
  held : e.held = sites.map fun site => (site.2, contents files site)
  opened : ∀ o ∈ e.opened, Pool.openFile files o.1 = .ok o.2

theorem reach_spec (h : ∀ o ∈ e.opened, Pool.openFile files o.1 = .ok o.2) (location : Path) :
    Found files location (e.reach files location).1 ∧ (e.reach files location).2.held = e.held ∧
      ∀ o ∈ (e.reach files location).2.opened, Pool.openFile files o.1 = .ok o.2 := by
  unfold reach
  cases hfind : e.opened.find? fun o => o.1.same location with
  | some o =>
    have hsame := List.find?_some (p := fun o : Path × Archive.Opened => o.1.same location) hfind
    exact ⟨.standing hsame (h o (List.mem_of_find?_eq_some hfind)), rfl, h⟩
  | none =>
    have hfound : Found files location (Pool.openFile files location) := .opened
    cases hopen : Pool.openFile files location with
    | ok a =>
      rw [hopen] at hfound
      refine ⟨hfound, rfl, fun o ho => ?_⟩
      rcases List.mem_append.mp ho with ho | ho
      · exact h o ho
      · rw [List.mem_singleton.mp ho]
        exact hopen
    | error cause =>
      rw [hopen] at hfound
      exact ⟨hfound, rfl, h⟩

theorem Honest.index {sites : List Site} (h : Honest files sites e) {x : Element}
    (hfile : x.kind = .archive → files.isFile x.location = true) :
    Honest files (sites ++ [x.site]) (e.index files x) := by
  obtain ⟨kind, location, classes⟩ := x
  cases kind with
  | directory =>
    refine ⟨?_, h.opened⟩
    show e.held ++ [_] = _
    rw [h.held, List.map_append]
    rfl
  | archive =>
    obtain ⟨hfound, hheld, hopened⟩ := reach_spec h.opened location
    have hopen := hfound.eq_openFile (hfile rfl)
    have hcontents : contents files (.archive, location) =
        match (e.reach files location).1 with
        | .ok a => archiveClasses a
        | .error _ => [] := by rw [hopen]; rfl
    have hmap : (sites ++ [(ElementKind.archive, location)]).map (fun site => (site.2, contents files site)) =
        (e.reach files location).2.held ++ [(location, contents files (.archive, location))] := by
      rw [List.map_append, hheld, h.held]
      rfl
    unfold Eager.index
    dsimp only
    generalize e.reach files location = reached at hheld hopened hcontents hmap
    obtain ⟨_ | a, d⟩ := reached
    · exact ⟨by rw [Element.site, hmap, hcontents], hopened⟩
    · exact ⟨by rw [Element.site, hmap, hcontents], hopened⟩

theorem honest_new (files : Tree) (locations : List Path) :
    Honest files (sitesAt files locations) (new files locations) := by
  have hstanding := standing_sitesAt files locations
  unfold new sitesAt at *
  generalize locations.filterMap (elementAt? files) = elements at hstanding
  have hall : ∀ (front : List Site) (e : Eager), Honest files front e →
      Honest files (front ++ elements.map Element.site) (elements.foldl (Eager.index files) e) := by
    induction elements with
    | nil => exact fun front e h => by rwa [List.map_nil, List.append_nil]
    | cons x rest ih =>
      intro front e h
      rw [List.map_cons, ← List.singleton_append, ← List.append_assoc]
      refine ih (fun site hsite => hstanding site (List.mem_cons_of_mem _ hsite)) _ _ (h.index ?_)
      exact hstanding x.site (List.mem_cons_self ..)
  exact hall [] ⟨[], []⟩ ⟨rfl, fun _ h => nomatch h⟩

theorem ask_right {sites : List Site} (h : Honest files sites e) (q : Query) :
    Right files sites q (e.ask files q).1 ∧ Honest files sites (e.ask files q).2 := by
  cases q with
  | locate name =>
    refine ⟨?_, h⟩
    have hwhere : (e.held.find? fun held => held.2.contains name).map Prod.fst = whereabouts files sites name := by
      rw [h.held, List.find?_map, Option.map_map]
      rfl
    unfold ask
    dsimp only
    rw [hwhere]
    exact .locate name
  | list =>
    refine ⟨?_, h⟩
    have hall : (e.held.flatMap fun held => sorted held.2).eraseDups = catalogue files sites := by
      rw [h.held, List.flatMap_map]
      rfl
    unfold ask
    dsimp only
    rw [hall]
    exact .list
  | read name location =>
    obtain ⟨hfound, hheld, hopened⟩ := reach_spec h.opened location
    have hright : Right files sites _ _ := .read name hfound
    unfold ask
    unfold readWith at hright
    dsimp only
    split
    · rename_i hdirectory
      rw [if_pos hdirectory] at hright
      exact ⟨hright, h⟩
    · rename_i hdirectory
      rw [if_neg hdirectory] at hright
      exact ⟨hright, hheld.trans h.held, hopened⟩
  | close => exact ⟨.close, h⟩

theorem after_honest {sites : List Site} (queries : List Query) (h : Honest files sites e) :
    Honest files sites (e.after files queries) := by
  induction queries generalizing e with
  | nil => exact h
  | cons q rest ih => exact ih (ask_right h q).2

end Eager

/-- **Listing late and closing archives make no difference.** Over files that do not change and whatever has been
asked before, a class path that lists its elements when they are first reached and keeps at most so many archives
open answers each query as one does that has listed all of them from the start and never closes an archive, and as
one does that keeps another number open. A read may differ only at a location that leads nowhere as it is spelled
and to a file as it is spelled otherwise: then one of the two fails for that. The list has no name twice, and has a
name exactly if that can be located. -/
theorem lazy_agrees_eager [Archive.Format] (files : Tree) (locations : List Path) (queries : List Query)
    (capacity : Nat) (told : Journal) :
    (∀ q, Agree files q ((ask files q).start (after files queries ⟨.new files locations capacity, told⟩)).1
        (((Eager.new files locations).after files queries).ask files q).1) ∧
      (∀ q capacity' told', Agree files q
        ((ask files q).start (after files queries ⟨.new files locations capacity, told⟩)).1
        ((ask files q).start (after files queries ⟨.new files locations capacity', told'⟩)).1) ∧
      ∃ names, ((ask files .list).start (after files queries ⟨.new files locations capacity, told⟩)).1 =
          .ok (.names names) ∧
        names.Nodup ∧ ∀ name, name ∈ names ↔ ∃ location,
          ((ask files (.locate name)).start (after files queries ⟨.new files locations capacity, told⟩)).1 =
            .ok (.location (some location)) := by
  have hright (capacity : Nat) (told : Journal) (q : Query) :=
    right_after files locations queries capacity told q
  refine ⟨fun q => ?_, fun q capacity' told' => (hright capacity told q).agree (hright capacity' told' q), ?_⟩
  · have heager := Eager.after_honest queries (Eager.honest_new files locations)
    exact (hright capacity told q).agree (Eager.ask_right heager q).1
  · refine ⟨catalogue files (sitesAt files locations), ?_, nodup_catalogue _ _, fun name => ?_⟩
    · have h := hright capacity told .list
      generalize ((ask files .list).start _).1 = r at h ⊢
      cases h
      rfl
    · rw [mem_catalogue]
      have h := hright capacity told (.locate name)
      generalize ((ask files (.locate name)).start _).1 = r at h ⊢
      cases h
      simp

/-- An archive that is asked for with a slash behind its name is read while it is open, and not found when it is
closed: a class path that closes it answers otherwise than one that does not. -/
theorem lazy_observable :
    ((ask Cache.FileCache.sampleTree (.read "A" ⟨"a.jar/"⟩)).start (after Cache.FileCache.sampleTree
        [.locate "A", .close] ⟨.new Cache.FileCache.sampleTree [⟨"a.jar"⟩] 1, []⟩)).1 =
        .error (.read ⟨"a.jar/"⟩ .notADirectory) ∧
      (((Eager.new Cache.FileCache.sampleTree [⟨"a.jar"⟩]).after Cache.FileCache.sampleTree
        [.locate "A", .close]).ask Cache.FileCache.sampleTree (.read "A" ⟨"a.jar/"⟩)).1 = .ok (.bytes #[1]) := by
  decide +kernel

end ClassCatalog.ClassPath
