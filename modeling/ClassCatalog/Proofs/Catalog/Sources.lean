import ClassCatalog.Proofs.Catalog.Lookup
import ClassCatalog.Proofs.Catalog.Supplies

/-! What is offered is found.

Loading tries the loader and those above it one by one, and each time the nearest entry from there on; so bytes
at any of them are come to in the end, whatever becomes of pending entries on the way. The class path is as it
was when the walk comes to the root, and the defining loader is asked about before anything is given up. A
lookup that answers nothing has therefore missed nothing that was offered (`lookup_finds_offered`). -/
namespace ClassCatalog
open Files ClassCatalog.Action

/-! ### Along the class path -/

namespace ClassPath
variable [Archive.Format] {files : Tree}

theorem listClasses_heedless (e : Element) : Heedless (listClasses files e) := by
  unfold listClasses
  split
  · exact .pure _
  · refine Heedless.bind (fun _ _ _ => ⟨rfl, rfl⟩) fun found => ?_
    split
    · exact .pure _
    · exact (Heedless.report _).bind fun _ => .pure _

theorem classesOf_heedless (i : Nat) (e : Element) : Heedless (classesOf files i e) := by
  unfold classesOf
  split
  · exact .pure _
  · exact (listClasses_heedless e).bind fun _ => (Heedless.update _).bind fun _ => .pure _

theorem locateFrom_heedless (name : String) (elements : List Element) (i : Nat) :
    Heedless (locateFrom files name i elements) := by
  induction elements generalizing i with
  | nil => exact .pure _
  | cons e rest ih =>
    refine (classesOf_heedless i e).bind fun classes => ?_
    split
    · exact .pure _
    · exact ih (i + 1)

theorem locate_heedless (files : Tree) (name : String) : Heedless (locate files name) :=
  Heedless.state.bind fun cp => locateFrom_heedless name cp.elements 0

end ClassPath

/-- A search along the class path, as it is now, comes upon the class. -/
def ClassPath.Finds (cp : ClassPath) (o : Outside) (name : String) : Prop :=
  ∃ path, ((o.locate name).start ⟨cp, []⟩).1 = .ok (some path)

theorem ClassPath.Finds.start {cp : ClassPath} {o : Outside} {name : String} (h : cp.Finds o name) (told : Journal) :
    ∃ path, ((o.locate name).start ⟨cp, told⟩).1 = .ok (some path) := by
  obtain ⟨path, hpath⟩ := h
  let _ := o.format
  exact ⟨path, ((locate_heedless o.files name cp told []).1).trans hpath⟩

namespace Catalog
open Cache

variable {o : Outside} {name : String} {loader : LoaderId} {placeholder : Option Nat} {s t : Scene Catalog}
  {c d : Catalog} {cp : ClassPath} {r : Except ClassError (Option ClassId)}

/-! ### At one loader -/

/-- Bytes at a loader are the nearest for it. -/
theorem holder?_of_real {x : Supplied} (h : x.Real (name, loader)) (g : Loader.Graph) :
    x.holder? name loader g = some loader := by
  obtain ⟨b, _, hkey⟩ := h
  have hthere : x.entries.contains (name, loader) = true := by
    unfold Table.contains
    rw [hkey]
    rfl
  unfold Supplied.holder?
  rw [Loader.Graph.ancestry_eq]
  exact List.find?_cons_of_pos hthere

theorem of_start_onSources {α : Type} {a : Action FileCache.Sources α} {q : Except ClassError α}
    (h : (onSources a).start s = (q, t)) :
    ∃ u, a.start ⟨⟨s.state.index.files, s.state.index.classPath⟩, s.journal⟩ = (q, u) := by
  rw [onSources, start_within] at h
  cases h
  exact ⟨_, rfl⟩

/-- Bytes that are there are answered without a call. -/
theorem classBytes_of_real {client : Option Client} {b : Option Bytes}
    {x y : Scene FileCache.Sources} (hreal : x.state.files.supplied.Real (name, loader))
    (h : (o.classBytes client name (.supplied loader)).start x = (.ok b, y)) : b.isSome = true := by
  let _ := o.arrangement
  obtain ⟨bytes, hserved⟩ := Supplied.serve_of_real (s := ⟨x.state.files.supplied, x.journal⟩) hreal client
  have hanswer : ((Supplied.serve (name, loader) client).start ⟨x.state.files.supplied, x.journal⟩).1 = .ok b :=
    congrArg Prod.fst h
  cases hanswer.symm.trans hserved
  rfl

theorem loadSupplied_none (h : (loadSupplied o name loader).start s = (.ok none, t)) :
    ¬ s.state.index.files.supplied.Real (name, loader) := by
  intro hreal
  obtain ⟨c, u, hc, h⟩ := of_start_bind_ok h
  cases hc
  rw [holder?_of_real hreal] at h
  obtain ⟨found, u, hfound, h⟩ := of_start_bind_ok h
  obtain ⟨v, hfound⟩ := of_start_onSources hfound
  have hsome := classBytes_of_real hreal hfound
  split at h
  · cases hsome
  · obtain ⟨r, v, _, h⟩ := of_start_bind_ok h
    cases h

/-- Where there is a class path what has been located is read, or reading fails. -/
theorem classBytes_isSome {client : Option Client} {path : Path} {b : Option Bytes}
    {x y : Scene FileCache.Sources} (hcp : x.state.classPath = some cp)
    (h : (o.classBytes client name (.path path)).start x = (.ok b, y)) : b.isSome = true := by
  obtain ⟨c, u, hc, h⟩ := of_start_bind_ok h
  cases hc
  obtain ⟨_, v, _, h⟩ := of_start_bind_ok h
  rw [hcp] at h
  split at h
  · cases h
    rfl
  · obtain ⟨bytes, w, _, h⟩ := of_start_bind_ok h
    cases h
    rfl
  · rename_i hnone
    cases hnone

theorem start_onClassPath {α : Type} (absent : α) (a : Action ClassPath α)
    (h : s.state.index.classPath = some cp) :
    ((onClassPath absent a).start s).1 = (a.start ⟨cp, s.journal⟩).1 ∧
      ((onClassPath absent a).start s).2.state.index.classPath = some (a.start ⟨cp, s.journal⟩).2.state := by
  unfold onClassPath
  rw [start_state_bind]
  simp only [h]
  exact ⟨rfl, rfl⟩

theorem loadFromPath_none (h : (loadFromPath o name).start s = (.ok none, t))
    (hcp : s.state.index.classPath = some cp) : ¬ cp.Finds o name := by
  intro hfinds
  obtain ⟨path, hpath⟩ := hfinds.start s.journal
  obtain ⟨found, u, hfound, h⟩ := of_start_bind_ok h
  obtain ⟨hanswer, hleft⟩ := start_onClassPath none (o.locate name) hcp
  rw [hfound] at hanswer hleft
  cases hanswer.trans hpath
  obtain ⟨bytes, v, hbytes, h⟩ := of_start_bind_ok h
  obtain ⟨w, hbytes⟩ := of_start_onSources hbytes
  have hsome := classBytes_isSome hleft hbytes
  split at h
  · cases hsome
  · obtain ⟨r, x, _, h⟩ := of_start_bind_ok h
    cases h

theorem loadSupplied_classPath (o : Outside) (name : String) (loader : LoaderId) :
    Keeps (Same fun c : Catalog => c.index.classPath) (loadSupplied o name loader) :=
  (surveys_keeps (Same fun c : Catalog => c.index.classPath)).loadSupplied (fun _ _ => rfl) loader

/-- A loader that has no class has no bytes of it, and if it is the root the class path has none either. -/
theorem loadAt_none (h : (loadAt o name loader).start s = (.ok none, t)) :
    ¬ s.state.index.files.supplied.Real (name, loader) ∧
      (loader = Loader.root → ∀ cp, s.state.index.classPath = some cp → ¬ cp.Finds o name) := by
  obtain ⟨found, u, hfound, h⟩ := of_start_bind_ok h
  split at h
  · cases h
  · refine ⟨loadSupplied_none hfound, fun hroot cp hcp => ?_⟩
    rw [if_pos hroot] at h
    exact loadFromPath_none h (((loadSupplied_classPath o name loader).of_start hfound).trans hcp)

theorem loadAt_classPath (hl : loader ≠ Loader.root) {found : Except ClassError (Option LoadedClass)}
    (h : (loadAt o name loader).start s = (found, t)) : t.state.index.classPath = s.state.index.classPath := by
  have hkept := (surveys_keeps _).loadAt (loadSupplied_classPath o name loader) fun hroot => absurd hroot hl
  exact Keeps.of_start hkept h

/-! ### On the way up -/

/-- If none of the loaders has the class, none has bytes of it: trying one takes no bytes from the others, and
leaves the class path alone unless it is the root. -/
theorem loadFirst_none (hs : s.state.index.files.supplied.Sound) {loaders : List LoaderId}
    (h : (loadFirst o name loaders).start s = (.ok none, t)) :
    (∀ l ∈ loaders, ¬ s.state.index.files.supplied.Real (name, l)) ∧
      (Loader.root ∈ loaders → ∀ cp, s.state.index.classPath = some cp → ¬ cp.Finds o name) := by
  induction loaders generalizing s with
  | nil => exact ⟨nofun, nofun⟩
  | cons l rest ih =>
    obtain ⟨found, u, hfound, h⟩ := of_start_bind_ok h
    split at h
    · cases h
    · obtain ⟨hhere, hroot⟩ := loadAt_none hfound
      obtain ⟨hsound, hkept⟩ := (loadAt_supplies o name l).of_start hfound hs
      obtain ⟨habove, hpath⟩ := ih hsound h
      refine ⟨fun m hm hreal => ?_, fun hmem cp hcp => ?_⟩
      · rcases List.mem_cons.mp hm with rfl | hm
        · exact hhere hreal
        · exact habove m hm (hkept _ hreal)
      · by_cases hl : l = Loader.root
        · exact hroot hl cp hcp
        · have hmem := List.mem_of_ne_of_mem (Ne.symm hl) hmem
          exact hpath hmem cp ((loadAt_classPath hl hfound).trans hcp)

/-! ### Everywhere -/

/-- In `c` there are bytes of `name` that `loader` has access to. In `d`, later, the client may have been asked
about the loader that defines the class. -/
inductive Offered (o : Outside) (c d : Catalog) (name : String) (loader : LoaderId) : Prop where
  | above (l : LoaderId) (hl : l ∈ c.index.loaders.ancestry loader)
      (h : c.index.files.supplied.Real (name, l))
  /-- Whichever loader turns out to define the class has bytes of it. It is not left open when nothing has been
  found, for the client is asked before that. -/
  | defining (h : ∀ l, d.index.defining.get? (name, loader) = some l →
      l ≠ Loader.none ∧ c.index.files.supplied.Real (name, l))
  | onPath (cp : ClassPath) (hroot : Loader.root ∈ c.index.loaders.ancestry loader)
      (hcp : c.index.classPath = some cp) (h : cp.Finds o name)

/-- Nothing is given up that is offered. -/
theorem load_none (hs : s.state.index.files.supplied.Sound)
    (h : (load o name loader).start s = (.ok none, t)) : ¬ Offered o s.state t.state name loader := by
  obtain ⟨c, u, hc, h⟩ := of_start_bind_ok h
  cases hc
  obtain ⟨found, u, hfound, h⟩ := of_start_bind_ok h
  split at h
  · cases h
  obtain ⟨l, v, hl, h⟩ := of_start_bind_ok h
  obtain ⟨found, w, hothers, h⟩ := of_start_bind_ok h
  split at h
  · cases h
  obtain ⟨_, x, hreported, h⟩ := of_start_bind_ok h
  cases h
  obtain ⟨habove, hpath⟩ := loadFirst_none hs hfound
  intro hoffered
  cases hoffered with
  | above l hmem hreal => exact habove l hmem hreal
  | onPath cp hroot hcp hfinds => exact hpath hroot cp hcp hfinds
  | defining hdefining =>
    have hquiet : Quiet v.state t.state :=
      ((loadFirst_quiet o name _).of_start hothers).trans ((reportMissing_quiet name loader).of_start hreported)
    obtain ⟨hne, hreal⟩ := hdefining l (hquiet.defining _ l (defining_of_definingLoader hl))
    -- The bytes are still there when the walk up to the root is over and the client has been asked.
    have hkept : Supplies s.state v.state :=
      trans_of Supplies ((loadFirst_supplies o name _).of_start hfound)
        (.of_untouched ((definingLoader_untouched o name loader).of_start hl))
    by_cases hmem : l ∈ s.state.index.loaders.ancestry loader
    · exact habove l hmem hreal
    · rw [if_neg (by simp [hne, hmem])] at hothers
      exact (loadFirst_none (hkept hs).1 hothers).1 l (List.mem_singleton_self l) ((hkept hs).2 _ hreal)

/-- Nothing is answered only where the bytes are known to be of no use or there are none. -/
theorem loadAndEnroll_none (h : (loadAndEnroll o name loader placeholder).start s = (.ok none, t)) :
    (name, loader) ∈ s.state.index.unusable ∨ (load o name loader).start s = (.ok none, t) := by
  obtain ⟨c, u, hc, h⟩ := of_start_bind_ok h
  cases hc
  split at h
  · rename_i hunusable
    exact .inl (List.contains_iff_mem.mp hunusable)
  · refine .inr ?_
    rw [start_bind, start_attempt] at h
    rcases hload : (load o name loader).start s with ⟨found, u⟩
    rw [hload] at h
    cases found with
    | error e =>
      obtain ⟨_, _, _, h⟩ := of_start_bind_ok h
      cases h
    | ok found =>
      cases found with
      | none =>
        cases h
        rfl
      | some k => cases h

theorem lookupCanonical_none (h : (lookupCanonical o name loader).start s = (.ok none, t)) :
    (∃ i, (findFitting o name loader true).start s = (.ok (some (.special i)), t)) ∨
      ∃ placeholder found u, (findFitting o name loader true).start s = (.ok found, u) ∧
        (loadAndEnroll o name loader placeholder).start u = (.ok none, t) := by
  obtain ⟨found, u, hfound, h⟩ := of_start_bind_ok h
  split at h
  · cases h
  · cases h
    exact .inl ⟨_, hfound⟩
  · exact .inr ⟨_, _, u, hfound, h⟩
  · exact .inr ⟨_, _, u, hfound, h⟩

theorem Offered.of_untouched {u : Catalog} (h : Offered o c d name loader)
    (hu : Untouched c u) : Offered o u d name loader := by
  cases h with
  | above l hl h => exact .above l (by rwa [hu.loaders]) (by rwa [hu.files])
  | defining h => exact .defining (by rwa [hu.files])
  | onPath cp hroot hcp h => exact .onPath cp (by rwa [hu.loaders]) (by rwa [hu.classPath]) h

/-- **No lookup misses what is offered.** If the loader reaches no special entry of the name, and its bytes there
are not known to be of no use, a lookup fails or answers a class as soon as there are bytes that the loader has
access to, whatever is pending in front of them and whether or not there is a client. -/
theorem lookup_finds_offered (hs : Used s) (h : (lookup o name loader).start s = (r, t))
    (hspecial : ∀ i, .special i ∈ s.state.group (Name.canonical name) →
      ¬ t.state.Reaches (Name.canonical name) (Loader.normalize loader) (.special i))
    (husable : (Name.canonical name, Loader.normalize loader) ∉ s.state.index.unusable)
    (hoffered : Offered o s.state t.state (Name.canonical name) (Loader.normalize loader)) :
    r ≠ .ok none := by
  rintro rfl
  rcases lookupCanonical_none h with ⟨i, hfound⟩ | ⟨placeholder, found, u, hfound, h⟩
  · have hfits := fits_of_findFitting hfound
    exact hspecial i hfits.mem hfits.reaches
  · have huntouched := (findFitting_untouched o _ _ true).of_start hfound
    rcases loadAndEnroll_none h with hunusable | h
    · rw [huntouched.unusable] at hunusable
      exact husable hunusable
    · have hsound := ((Supplies.of_untouched huntouched) hs.supplied_sound).1
      exact load_none hsound h (hoffered.of_untouched huntouched)

/-- `A` is announced at loader 2, where the client has nothing for it; its bytes are at loader 1. -/
def hidden : Scene Catalog :=
  after [(sampleOutside Loader.none, .initLoaders [0, 0, 1]), (sampleOutside Loader.none, .announce ["A"] [2]),
    (sampleOutside Loader.none, .addSupplied "A" 1 sampleFile)] (opening sampleConfig)

theorem lookup_finds_offered_hidden :
    let found := ((lookup (sampleOutside Loader.none) "A" 2).start hidden).1
    hidden.state.index.files.supplied.entries.get? ("A", 2) = some #[] ∧
      hidden.state.index.files.supplied.Real (Name.canonical "A", 1) ∧
      found ≠ .ok none ∧ found = .ok (some 0) := by
  intro found
  have hs : Used hidden := (Used.opening sampleConfig).after _
  have hgroup : hidden.state.group (Name.canonical "A") = [] := by decide +kernel
  have husable : (Name.canonical "A", Loader.normalize 2) ∉ hidden.state.index.unusable := by decide +kernel
  have habove : (1 : LoaderId) ∈ hidden.state.index.loaders.ancestry (Loader.normalize 2) := by decide +kernel
  have hreal : hidden.state.index.files.supplied.Real (Name.canonical "A", 1) :=
    ⟨sampleFile, by decide, by decide +kernel⟩
  refine ⟨by decide +kernel, hreal, ?_, by decide +kernel⟩
  refine lookup_finds_offered hs (Prod.eta _).symm (fun i hi => ?_) husable (.above 1 habove hreal)
  rw [hgroup] at hi
  cases hi

end Catalog
end ClassCatalog
