import Mathlib.Data.List.Nodup
import ClassCatalog.Proofs.ClassPath.Reads

/-! What a class path answers.

Over files that do not change, what an element holds can be said without listing it (`contents`), and so can what a
class path answers (`Right`), whatever it has been asked before. A class path is `Honest` if what it has listed is
what there is and its open archives are those of the files. It is when it is new, and it stays so with every query
(`ask_right`).

One thing is left to chance, namely whether an archive is open. That matters only at a location that does not lead to
the archive as it is spelled (`Found`): right replies `Agree` up to that. -/
namespace ClassCatalog.ClassPath
open Files ClassCatalog.Action

/-! ### Queries -/

/-- What a class path can be asked. -/
inductive Query where
  | locate (name : String)
  | list
  | read (name : String) (location : Path)
  | close
deriving DecidableEq, Repr

inductive Reply where
  | location (l : Option Path)
  | names (l : List String)
  | bytes (b : Bytes)
  | closed
deriving DecidableEq, Repr

variable [Archive.Format]

def ask (files : Tree) : Query → Action ClassPath Reply
  | .locate name => do return .location (← locate files name)
  | .list => do return .names (← list files)
  | .read name location => do return .bytes (← read files name location)
  | .close => do
    Action.update close
    return .closed

/-- The scene after queries, one after the other. -/
def after (files : Tree) (queries : List Query) (s : Scene ClassPath) : Scene ClassPath :=
  queries.foldl (fun s q => ((ask files q).start s).2) s

/-! ### Archives -/

variable {files : Tree} {location : Path} {name : String} {r r' : Except ClassError Archive.Opened}

/-- What can come of looking for an archive: it is opened as the path is spelled, or it has been opened before under
a spelling of the same path. -/
inductive Found (files : Tree) (location : Path) : Except ClassError Archive.Opened → Prop
  | opened : Found files location (Pool.openFile files location)
  | standing {q : Path} {a : Archive.Opened} (hsame : q.same location = true)
      (h : Pool.openFile files q = .ok a) : Found files location (.ok a)

theorem found_access {pool : Pool} (h : pool.Faithful files) (location : Path) :
    Found files location (pool.access files location).1 := by
  cases hr : (pool.access files location).1 with
  | ok a =>
    obtain ⟨q, hsame, hopen⟩ := Pool.access_ok h hr
    exact .standing hsame hopen
  | error e =>
    rw [← Pool.access_error hr]
    exact .opened

/-- A path that leads to the file as it is spelled leaves nothing to chance. -/
theorem Found.eq_openFile (h : Found files location r) (hfile : files.isFile location = true) :
    r = Pool.openFile files location := by
  cases h with
  | opened => rfl
  | standing hsame hopen => exact (Pool.openFile_of_isFile hsame hopen hfile).symm

theorem isFile_of_openFile {a : Archive.Opened} (h : Pool.openFile files location = .ok a) :
    files.isFile location = true := by
  obtain ⟨b, hread, _⟩ := Pool.openFile_ok h
  obtain ⟨place, hlocate⟩ := Tree.locate_of_read hread
  rw [Tree.isFile, hlocate]

theorem openFile_of_not_isFile (h : files.isFile location = false) :
    ∃ why, files.read location = .error why ∧ Pool.openFile files location = .error (.read location why) := by
  cases hread : files.read location with
  | ok b =>
    obtain ⟨place, hlocate⟩ := Tree.locate_of_read hread
    rw [Tree.isFile, hlocate] at h
    cases h
  | error why => exact ⟨why, rfl, by rw [Pool.openFile, hread]⟩

/-- The location leads to no file as it is spelled, but another spelling of the same path does. -/
def Misspelt (files : Tree) (location : Path) : Prop :=
  files.isFile location = false ∧ ∃ q, q.same location = true ∧ files.isFile q = true

theorem misspelt_of_standing {q : Path} {a : Archive.Opened} (hsame : q.same location = true)
    (hopen : Pool.openFile files q = .ok a) (hne : Except.ok a ≠ Pool.openFile files location) :
    Misspelt files location := by
  refine ⟨?_, q, hsame, isFile_of_openFile hopen⟩
  rw [Bool.eq_false_iff]
  intro hfile
  exact hne (Pool.openFile_of_isFile hsame hopen hfile).symm

theorem Found.agree (h : Found files location r) (h' : Found files location r') :
    r = r' ∨ Misspelt files location ∧
      (r = Pool.openFile files location ∨ r' = Pool.openFile files location) := by
  by_cases heq : r = r'
  · exact .inl heq
  · refine .inr ?_
    cases h with
    | opened =>
      cases h' with
      | opened => exact absurd rfl heq
      | standing hsame hopen => exact ⟨misspelt_of_standing hsame hopen (Ne.symm heq), .inl rfl⟩
    | standing hsame hopen =>
      cases h' with
      | opened => exact ⟨misspelt_of_standing hsame hopen heq, .inr rfl⟩
      | standing hsame' hopen' =>
        have hboth := of_decide_eq_true hsame |>.trans (of_decide_eq_true hsame').symm
        exact absurd (congrArg Except.ok (Pool.openFile_same (decide_eq_true hboth) hopen hopen')) heq

/-! ### Elements -/

/-- What an element is and where. -/
abbrev Site := ElementKind × Path

def Element.site (e : Element) : Site := (e.kind, e.location)

/-- The classes that an element holds. -/
def contents (files : Tree) : Site → List String
  | (.directory, location) => directoryClasses files location
  | (.archive, location) =>
    match Pool.openFile files location with
    | .ok a => archiveClasses a
    | .error _ => []

/-- The elements of a class path over these locations. -/
def sitesAt (files : Tree) (locations : List Path) : List Site :=
  (locations.filterMap (elementAt? files)).map Element.site

omit [Archive.Format] in
theorem of_mem_sitesAt {locations : List Path} {site : Site} (h : site ∈ sitesAt files locations) :
    match site.1 with
    | .directory => files.isDirectory site.2 = true
    | .archive => files.isFile site.2 = true := by
  obtain ⟨e, he, rfl⟩ := List.mem_map.mp h
  obtain ⟨location, _, he⟩ := List.mem_filterMap.mp he
  unfold elementAt? at he
  split at he
  · rename_i hdirectory
    cases he
    exact hdirectory
  · split at he
    · rename_i hfile
      cases he
      exact hfile
    · cases he

/-- All archives among the sites are files. -/
def Standing (files : Tree) (sites : List Site) : Prop := ∀ site ∈ sites, site.1 = .archive → files.isFile site.2 = true

omit [Archive.Format] in
theorem standing_sitesAt (files : Tree) (locations : List Path) : Standing files (sitesAt files locations) := by
  intro site hmem harchive
  have := of_mem_sitesAt hmem
  rwa [harchive] at this

/-- The elements are these, what has been listed of them is there, and so are the archives that are open. -/
structure Honest (files : Tree) (sites : List Site) (cp : ClassPath) : Prop where
  sites : cp.elements.map Element.site = sites
  listed : ∀ e ∈ cp.elements, ∀ names, e.classes = some names → names = contents files e.site
  pool : cp.pool.Faithful files

theorem honest_new (files : Tree) (locations : List Path) (capacity : Nat) :
    Honest files (sitesAt files locations) (.new files locations capacity) where
  sites := rfl
  listed e he names hnames := by
    obtain ⟨location, _, he⟩ := List.mem_filterMap.mp he
    unfold elementAt? at he
    split at he
    · cases he
      cases hnames
    · split at he
      · cases he
        cases hnames
      · cases he
  pool := fun _ h => nomatch h

/-! ### Finding -/

/-- From an honest class path the action answers `x`, and leaves an honest one. -/
def Yields {α : Type} (files : Tree) (sites : List Site) (a : Action ClassPath α) (x : α) : Prop :=
  ∀ s, Honest files sites s.state → (a.start s).1 = .ok x ∧ Honest files sites (a.start s).2.state

section Yields
variable {α β : Type} {sites : List Site} {a : Action ClassPath α} {x : α}

theorem Yields.pure (x : α) : Yields files sites (Pure.pure x) x := fun _ hs => ⟨rfl, hs⟩

theorem Yields.bind {f : α → Action ClassPath β} {y : β} (ha : Yields files sites a x)
    (hf : Yields files sites (f x) y) : Yields files sites (a >>= f) y := by
  intro s hs
  obtain ⟨hanswer, hafter⟩ := ha s hs
  rw [start_bind]
  cases h : a.start s with
  | mk r t =>
    rw [h] at hanswer hafter
    cases hanswer
    exact hf t hafter

theorem Yields.report (e : Event) : Yields files sites (Action.report e) () := fun _ hs => ⟨rfl, hs⟩

/-- What has an answer from the elements at hand has it from the class path. -/
theorem Yields.elements {f : ClassPath → Action ClassPath α}
    (h : ∀ cp, Honest files sites cp → Yields files sites (f cp) x) :
    Yields files sites (Action.state >>= f) x := fun s hs => h s.state hs s hs

theorem archiveAt_yields (hfile : files.isFile location = true) :
    Yields files sites (archiveAt files location) (Pool.openFile files location) := by
  intro s hs
  rw [start_archiveAt]
  have hfound := found_access hs.pool location
  exact ⟨congrArg _ (hfound.eq_openFile hfile), hs.sites, hs.listed, Pool.access_faithful hs.pool location⟩

theorem listClasses_yields {e : Element} (hfile : e.kind = .archive → files.isFile e.location = true) :
    Yields files sites (listClasses files e) (contents files e.site) := by
  obtain ⟨kind, location, classes⟩ := e
  cases kind with
  | directory => exact .pure _
  | archive =>
    refine .bind (archiveAt_yields (hfile rfl)) ?_
    unfold contents Element.site
    dsimp only
    cases Pool.openFile files location with
    | ok a => exact .pure _
    | error e => exact .bind (.report _) (.pure _)

/-- Listing an element leaves it the element that it is. -/
theorem Honest.set {cp : ClassPath} (h : Honest files sites cp) {i : Nat} {e : Element}
    (hi : sites[i]? = some e.site) :
    Honest files sites
      { cp with elements := cp.elements.set i { e with classes := some (contents files e.site) } } where
  sites := by
    show (cp.elements.set i _).map Element.site = sites
    obtain ⟨hlt, hi⟩ := List.getElem?_eq_some_iff.mp hi
    rw [List.map_set, h.sites]
    show sites.set i e.site = sites
    rw [← hi, List.set_getElem_self]
  listed d hd names hnames := by
    rcases List.mem_or_eq_of_mem_set hd with hd | rfl
    · exact h.listed d hd names hnames
    · cases hnames
      rfl
  pool := h.pool

theorem classesOf_yields {i : Nat} {e : Element} (hi : sites[i]? = some e.site)
    (hfile : e.kind = .archive → files.isFile e.location = true)
    (hlisted : ∀ names, e.classes = some names → names = contents files e.site) :
    Yields files sites (classesOf files i e) (contents files e.site) := by
  unfold classesOf
  cases hclasses : e.classes with
  | some classes =>
    rw [hlisted classes hclasses]
    exact .pure _
  | none =>
    refine .bind (listClasses_yields hfile) (.bind (x := ()) (fun s hs => ?_) (.pure _))
    exact ⟨rfl, hs.set hi⟩

/-- The elements from number `i` on, as the class path had them when the search began. -/
structure Ahead (files : Tree) (sites : List Site) (i : Nat) (elements : List Element) : Prop where
  sites : elements.map Element.site = sites.drop i
  listed : ∀ e ∈ elements, ∀ names, e.classes = some names → names = contents files e.site

theorem Honest.ahead {cp : ClassPath} (h : Honest files sites cp) : Ahead files sites 0 cp.elements :=
  ⟨h.sites, h.listed⟩

theorem Ahead.tail {i : Nat} {e : Element} {rest : List Element} (h : Ahead files sites i (e :: rest)) :
    Ahead files sites (i + 1) rest where
  sites := by rw [← List.drop_drop, ← h.sites]; rfl
  listed d hd := h.listed d (List.mem_cons_of_mem _ hd)

theorem Ahead.classesOf_yields {i : Nat} {e : Element} {rest : List Element} (h : Ahead files sites i (e :: rest))
    (hstanding : Standing files sites) : Yields files sites (classesOf files i e) (contents files e.site) := by
  have hi : sites[i]? = some e.site := by
    have := congrArg (·[0]?) h.sites
    simpa using this.symm
  refine ClassPath.classesOf_yields hi (fun harchive => ?_) (h.listed e (List.mem_cons_self ..))
  exact hstanding e.site (List.mem_of_getElem? hi) harchive

/-- Where a class is found: at the first of the elements that holds it. -/
def whereabouts (files : Tree) (sites : List Site) (name : String) : Option Path :=
  (sites.find? fun site => (contents files site).contains name).map Prod.snd

theorem locateFrom_yields (hstanding : Standing files sites) (name : String) {elements : List Element} {i : Nat}
    (h : Ahead files sites i elements) :
    Yields files sites (locateFrom files name i elements) (whereabouts files (elements.map Element.site) name) := by
  induction elements generalizing i with
  | nil => exact .pure _
  | cons e rest ih =>
    refine .bind (h.classesOf_yields hstanding) ?_
    unfold whereabouts
    rw [List.map_cons, List.find?_cons]
    cases (contents files e.site).contains name with
    | true => exact .pure _
    | false => exact ih h.tail

theorem locate_yields (hstanding : Standing files sites) (name : String) :
    Yields files sites (locate files name) (whereabouts files sites name) :=
  .elements fun cp hcp => by
    have h := locateFrom_yields hstanding name hcp.ahead
    rwa [hcp.sites] at h

def sorted (names : List String) : List String := names.mergeSort fun a b => a ≤ b

/-- All classes, sorted within each element, each where it is met first. -/
def catalogue (files : Tree) (sites : List Site) : List String :=
  (sites.flatMap fun site => sorted (contents files site)).eraseDups

omit [Archive.Format] in
theorem addNew_eq (seen names : List String) :
    addNew seen names = seen ++ (names.filter fun n => !seen.contains n).eraseDups := by
  induction names generalizing seen with
  | nil => simp [addNew]
  | cons n rest ih =>
    unfold addNew at ih ⊢
    rw [List.foldl_cons, ih, List.filter_cons]
    cases hn : seen.contains n with
    | true => simp
    | false =>
      have hfilter : (rest.filter fun x => !(seen ++ [n]).contains x) =
          (rest.filter fun x => !seen.contains x).filter fun x => !x == n := by
        rw [List.filter_filter]
        refine List.filter_congr fun x _ => ?_
        simp only [List.contains_append, List.contains_cons, List.contains_nil, Bool.or_false, Bool.not_or]
        rw [Bool.and_comm]
      simp only [Bool.false_eq_true, if_false, Bool.not_false, if_true, List.eraseDups_cons, hfilter,
        List.append_assoc, List.singleton_append]

omit [Archive.Format] in
theorem addNew_nil (names : List String) : addNew [] names = names.eraseDups := by
  rw [addNew_eq, List.nil_append]
  congr 1
  exact List.filter_eq_self.mpr fun _ _ => rfl

omit [Archive.Format] in
theorem nodup_addNew {seen : List String} (h : seen.Nodup) (names : List String) : (addNew seen names).Nodup := by
  induction names generalizing seen with
  | nil => exact h
  | cons n rest ih =>
    refine ih ?_
    dsimp only
    split
    · exact h
    · rename_i hn
      exact List.nodup_append.mpr ⟨h, List.nodup_singleton n, fun a ha b hb => by
        rintro rfl
        exact hn (List.contains_iff_mem.mpr (List.mem_singleton.mp hb ▸ ha))⟩

theorem nodup_catalogue (files : Tree) (sites : List Site) : (catalogue files sites).Nodup := by
  rw [catalogue, ← addNew_nil]
  exact nodup_addNew List.nodup_nil _

theorem listFrom_yields (hstanding : Standing files sites) {elements : List Element} {i : Nat}
    (h : Ahead files sites i elements) (seen : List String) :
    Yields files sites (listFrom files i elements seen) ((elements.map Element.site).foldl
      (fun seen site => addNew seen (sorted (contents files site))) seen) := by
  induction elements generalizing i seen with
  | nil => exact .pure _
  | cons e rest ih => exact .bind (h.classesOf_yields hstanding) (ih h.tail _)

theorem foldl_addNew (files : Tree) (sites : List Site) (seen : List String) :
    sites.foldl (fun seen site => addNew seen (sorted (contents files site))) seen =
      addNew seen (sites.flatMap fun site => sorted (contents files site)) := by
  induction sites generalizing seen with
  | nil => rfl
  | cons site rest ih =>
    rw [List.foldl_cons, ih, List.flatMap_cons]
    exact (List.foldl_append ..).symm

theorem list_yields (hstanding : Standing files sites) :
    Yields files sites (list files) (catalogue files sites) :=
  .elements fun cp hcp => by
    have h := listFrom_yields hstanding hcp.ahead []
    rwa [hcp.sites, foldl_addNew, addNew_nil] at h

end Yields

/-- A name is among all classes exactly if one of the elements holds it. -/
theorem mem_catalogue {sites : List Site} :
    name ∈ catalogue files sites ↔ ∃ location, whereabouts files sites name = some location := by
  unfold catalogue whereabouts
  rw [List.mem_eraseDups, List.mem_flatMap]
  constructor
  · rintro ⟨site, hsite, hname⟩
    have hcontains : (contents files site).contains name = true :=
      List.contains_iff_mem.mpr (List.mem_mergeSort.mp hname)
    cases hfind : sites.find? fun site => (contents files site).contains name with
    | none => exact absurd hcontains (List.find?_eq_none.mp hfind site hsite)
    | some found => exact ⟨found.2, rfl⟩
  · rintro ⟨location, h⟩
    obtain ⟨site, hfind, _⟩ := Option.map_eq_some_iff.mp h
    have hcontains := List.find?_some (p := fun site => (contents files site).contains name) hfind
    exact ⟨site, List.mem_of_find?_eq_some hfind, List.mem_mergeSort.mpr (List.contains_iff_mem.mp hcontains)⟩

/-! ### Replies -/

/-- What a read comes to, given what has come of looking for the archive. -/
def readWith (files : Tree) (name : String) (location : Path) (r : Except ClassError Archive.Opened) :
    Except ClassError Bytes :=
  if files.isDirectory location then
    (files.read (location.join (Name.fileName name))).mapError (.read (location.join (Name.fileName name)))
  else r >>= Pool.readEntry location (Name.fileName name)

theorem start_read_eq (files : Tree) (name : String) (location : Path) (s : Scene ClassPath) :
    ((read files name location).start s).1 =
      readWith files name location (s.state.pool.access files location).1 := by
  rw [start_read, readWith]
  split <;> rfl

/-- The reply is what the files say. -/
inductive Right (files : Tree) (sites : List Site) : Query → Except ClassError Reply → Prop
  | locate (name : String) : Right files sites (.locate name) (.ok (.location (whereabouts files sites name)))
  | list : Right files sites .list (.ok (.names (catalogue files sites)))
  | read (name : String) {location : Path} {r : Except ClassError Archive.Opened} (h : Found files location r) :
      Right files sites (.read name location) ((readWith files name location r).map .bytes)
  | close : Right files sites .close (.ok .closed)

theorem read_honest {sites : List Site} {s : Scene ClassPath} (hs : Honest files sites s.state) (name : String)
    (location : Path) : Honest files sites ((read files name location).start s).2.state := by
  rw [start_read]
  split
  · exact hs
  · exact ⟨hs.sites, hs.listed, Pool.access_faithful hs.pool location⟩

/-- Every query is answered right and leaves the class path honest. -/
theorem ask_right {sites : List Site} (hstanding : Standing files sites) (q : Query) {s : Scene ClassPath}
    (hs : Honest files sites s.state) :
    Right files sites q ((ask files q).start s).1 ∧ Honest files sites ((ask files q).start s).2.state := by
  cases q with
  | locate name =>
    have hyields : Yields files sites (ask files (.locate name)) (.location (whereabouts files sites name)) :=
      .bind (locate_yields hstanding name) (.pure _)
    obtain ⟨hreply, hafter⟩ := hyields s hs
    exact ⟨hreply ▸ .locate name, hafter⟩
  | list =>
    have hyields : Yields files sites (ask files .list) (.names (catalogue files sites)) :=
      .bind (list_yields hstanding) (.pure _)
    obtain ⟨hreply, hafter⟩ := hyields s hs
    exact ⟨hreply ▸ .list, hafter⟩
  | read name location =>
    have hread := start_read_eq files name location s
    have hafter := read_honest hs name location
    unfold ask
    rw [start_bind]
    cases h : (read files name location).start s with
    | mk r t =>
      rw [h] at hread hafter
      have hright : Right files sites _ _ := .read name (found_access hs.pool location)
      rw [← hread] at hright
      cases r with
      | ok b => exact ⟨hright, hafter⟩
      | error e => exact ⟨hright, hafter⟩
  | close => exact ⟨.close, hs.sites, hs.listed, fun _ h => nomatch h⟩

theorem after_honest {sites : List Site} (hstanding : Standing files sites) (queries : List Query)
    {s : Scene ClassPath} (hs : Honest files sites s.state) : Honest files sites (after files queries s).state := by
  induction queries generalizing s with
  | nil => exact hs
  | cons q rest ih => exact ih (ask_right hstanding q hs).2

/-- Whatever has been asked before, the reply to a query is right. -/
theorem right_after (files : Tree) (locations : List Path) (queries : List Query) (capacity : Nat) (told : Journal)
    (q : Query) : Right files (sitesAt files locations) q
      ((ask files q).start (after files queries ⟨.new files locations capacity, told⟩)).1 :=
  have hstanding := standing_sitesAt files locations
  (ask_right hstanding q (after_honest hstanding queries (honest_new files locations capacity))).1

theorem Right.located {sites : List Site} {l : Option Path} {x : Except ClassError Reply}
    (h : Right files sites (.locate name) x) (hx : x = .ok (.location l)) : whereabouts files sites name = l := by
  cases h
  cases hx
  rfl

theorem Right.found {sites : List Site} {x : Except ClassError Reply} (h : Right files sites (.read name location) x) :
    ∃ r, Found files location r ∧ x = (readWith files name location r).map .bytes := by
  cases h with
  | read _ hr => exact ⟨_, hr, rfl⟩

/-- Two replies are the same; or they are to a read at a location that leads nowhere as it is spelled, while another
spelling of it leads to a file, and one of them is the failure to open it as it is spelled. -/
def Agree (files : Tree) (q : Query) (x y : Except ClassError Reply) : Prop :=
  x = y ∨ ∃ name location why, q = .read name location ∧ files.isDirectory location = false ∧
    Misspelt files location ∧ files.read location = .error why ∧
      (x = .error (.read location why) ∨ y = .error (.read location why))

/-- Right replies agree. -/
theorem Right.agree {sites : List Site} {q : Query} {x y : Except ClassError Reply} (hx : Right files sites q x)
    (hy : Right files sites q y) : Agree files q x y := by
  cases hx with
  | locate name =>
    cases hy
    exact .inl rfl
  | list =>
    cases hy
    exact .inl rfl
  | close =>
    cases hy
    exact .inl rfl
  | @read name location r hr =>
    cases hy with
    | @read _ _ r' hr' =>
      cases hdirectory : files.isDirectory location with
      | true =>
        refine .inl ?_
        rw [readWith, readWith, if_pos hdirectory, if_pos hdirectory]
      | false =>
        rcases hr.agree hr' with rfl | ⟨hmisspelt, hfails⟩
        · exact .inl rfl
        · obtain ⟨why, hread, hopen⟩ := openFile_of_not_isFile hmisspelt.1
          refine .inr ⟨name, location, why, rfl, hdirectory, hmisspelt, hread, ?_⟩
          rw [hopen] at hfails
          have hwith {r : Except ClassError Archive.Opened} (h : r = .error (.read location why)) :
              (readWith files name location r).map Reply.bytes = .error (.read location why) := by
            rw [h, readWith, hdirectory]
            rfl
          exact hfails.imp hwith hwith

end ClassCatalog.ClassPath
