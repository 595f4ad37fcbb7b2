import ClassCatalog.Proofs.Cache.Supplied
import ClassCatalog.Proofs.Catalog.Steps

/-! The supplied bytes of a catalog.

No request but one that forgets everything takes bytes away that the program has supplied, and none leaves the
table of them in disorder (`Supplies`, `Used.supplied_sound`). Looking for an entry does not touch the
sources of bytes at all (`Untouched`). -/
namespace ClassCatalog.Catalog
open ClassCatalog.Action Cache

/-- From `c` to `d` nothing has become of the sources of bytes and of what is known to be unusable. -/
structure Untouched (c d : Catalog) : Prop where
  files : d.index.files = c.index.files
  classPath : d.index.classPath = c.index.classPath
  loaders : d.index.loaders = c.index.loaders
  unusable : d.index.unusable = c.index.unusable

instance : IsPreorder Catalog Untouched where
  refl _ := ⟨rfl, rfl, rfl, rfl⟩
  trans _ _ _ h h' := ⟨h'.files.trans h.files, h'.classPath.trans h.classPath, h'.loaders.trans h.loaders,
    h'.unusable.trans h.unusable⟩

/-- The supplied bytes that are there in `c` are there in `d`, if their table was in order, and it still is. -/
def Supplies (c d : Catalog) : Prop :=
  c.index.files.supplied.Sound → d.index.files.supplied.Sound ∧
    ∀ key, c.index.files.supplied.Real key → d.index.files.supplied.Real key

instance : IsPreorder Catalog Supplies where
  refl _ h := ⟨h, fun _ h => h⟩
  trans _ _ _ h h' hs := ⟨(h' (h hs).1).1, fun key hreal => (h' (h hs).1).2 key ((h hs).2 key hreal)⟩

variable {o : Outside} {name : String} {loader : LoaderId} {s t : Scene Catalog} {c d : Catalog}

theorem Supplies.of_supplied (h : d.index.files.supplied = c.index.files.supplied) : Supplies c d := by
  unfold Supplies
  rw [h]
  exact fun hs => ⟨hs, fun _ h => h⟩

theorem Supplies.of_files (h : d.index.files = c.index.files) : Supplies c d := .of_supplied (by rw [h])

/-! ### Looking for an entry -/

theorem definingLoader_untouched (o : Outside) (name : String) (loader : LoaderId) :
    Keeps Untouched (definingLoader o name loader) :=
  definingLoader_keeps fun _ _ _ => ⟨rfl, rfl, rfl, rfl⟩

theorem findFitting_untouched (o : Outside) (name : String) (loader : LoaderId) (placeholders : Bool) :
    Keeps Untouched (findFitting o name loader placeholders) := by
  intro s
  rw [start_findFitting]
  split
  · exact refl_of Untouched s.state
  · split
    · exact refl_of Untouched s.state
    · split
      · rename_i e _
        cases e <;> exact ⟨rfl, rfl, rfl, rfl⟩
      · refine (definingLoader_untouched o name loader).bind (fun l => ?_) s
        split <;> exact .pure _

/-! ### Loading -/

/-- Bytes that the client is asked for are those of pending entries. -/
theorem onSupplied_supplies (o : Outside) (name : String) (holder : LoaderId) :
    Keeps Supplies (onSources (o.classBytes o.client name (.supplied holder))) := by
  let _ := o.arrangement
  intro s hs
  have hrun := Supplied.run_serve ⟨s.state.index.files.supplied, s.journal⟩ (name, holder) o.client
  exact ⟨hrun.sound hs, fun _ hreal => hrun.real hs (by simp) hreal⟩

/-- Reading along the class path leaves the supplied bytes alone. -/
theorem classBytes_path [Archive.Format] [Supplied.Arrangement] (files : Files.Tree) (client : Option Client)
    (name : String) (path : Path) :
    Keeps (Same fun x => x.files.supplied) (FileCache.classBytes files client name (.path path)) := by
  refine Keeps.state_bind fun s => ?_
  have hread : ∀ cp, Keeps (Same fun x => x.files.supplied) (FileCache.readAndKeep files name path cp) := by
    intro cp
    refine Keeps.bind (R := Same _) (fun _ => rfl) fun bytes => ?_
    exact Keeps.bind (R := Same _) (.update fun _ => rfl) fun _ => .pure _
  rw [start_bind, start_put]
  dsimp only
  split
  · rfl
  · exact ((hread _).bind fun _ => .pure _) _
  · rfl

theorem onPath_supplies (o : Outside) (client : Option Client) (name : String) (path : Path) :
    Keeps Supplies (onSources (o.classBytes client name (.path path))) :=
  letI := o.format
  letI := o.arrangement
  fun s => .of_supplied (classBytes_path o.files client name path
    ⟨⟨s.state.index.files, s.state.index.classPath⟩, s.journal⟩)

theorem onClassPath_supplies {α : Type} (absent : α) (a : Action ClassPath α) :
    Keeps Supplies (onClassPath absent a) :=
  (surveys_keeps Supplies).onClassPath fun _ _ => .of_files rfl

theorem loadAt_supplies (o : Outside) (name : String) (loader : LoaderId) :
    Keeps Supplies (loadAt o name loader) := by
  have h := surveys_keeps Supplies
  exact h.loadAt (h.loadSupplied (onSupplied_supplies o name) loader) fun _ =>
    h.loadFromPath (onClassPath_supplies none _) (onPath_supplies o none name)

theorem loadFirst_supplies (o : Outside) (name : String) (loaders : List LoaderId) :
    Keeps Supplies (loadFirst o name loaders) :=
  (surveys_keeps Supplies).loadFirst fun l _ => loadAt_supplies o name l

theorem Supplies.of_untouched (h : Untouched c d) : Supplies c d := .of_files h.files

theorem load_supplies (o : Outside) (name : String) (loader : LoaderId) : Keeps Supplies (load o name loader) := by
  have h := surveys_keeps Supplies
  have hdefining := (definingLoader_untouched o name loader).mono fun _ _ => Supplies.of_untouched
  exact h.load (fun loaders _ => loadFirst_supplies o name loaders) hdefining
    (h.reportMissing (Keeps.update fun _ => .of_files rfl) (.report _))

/-! ### Registering -/

theorem files_register (c : Catalog) (name : String) (e : Entry) :
    (c.register name e).index.files = c.index.files := by
  obtain ⟨groups, h⟩ := register_eq c name e
  rw [h]

theorem files_enroll (c : Catalog) (name : String) (placeholder : Option Nat) (k : LoadedClass) :
    (c.enroll name placeholder k).2.index.files = c.index.files := by
  obtain ⟨groups, h⟩ := index_enroll c name placeholder k
  rw [h]

theorem loadAndEnroll_supplies (o : Outside) (name : String) (loader : LoaderId) (placeholder : Option Nat) :
    Keeps Supplies (loadAndEnroll o name loader placeholder) := by
  have h := surveys_keeps Supplies
  exact h.loadAndEnroll (load_supplies o name loader)
    (fun _ => h.noteUnusable (Keeps.update fun _ => .of_files rfl) (.report _)) fun _ _ => .of_files (files_enroll ..)

/-! ### Requests -/

theorem supplies_parts (o : Outside) : Parts o fun _ a => Keeps Supplies a where
  toTraverses := (surveys_keeps Supplies).toTraverses
  find name loader placeholders :=
    (findFitting_untouched o name loader placeholders).mono fun _ _ => .of_untouched
  load name loader placeholder _ := loadAndEnroll_supplies o name loader placeholder
  defining name loader := (definingLoader_untouched o name loader).mono fun _ _ => .of_untouched
  list := onClassPath_supplies [] _
  code _ _ := onClass_keeps fun _ _ _ _ => .of_files rfl
  length _ _ := onClass_keeps fun _ _ _ _ => .of_files rfl
  expected _ _ _ := .of_files (files_register ..)
  placeholder name loader s :=
    addPlaceholder_of_new (fun _ _ _ => .of_files (files_register ..)) s.state name loader
  special name s := special_of_new (fun _ _ => .of_files (files_register ..)) s.state name
  noted _ _ _ _ := .of_files rfl
  linked _ _ _ := .of_files rfl
  implemented _ _ _ := .of_files rfl

/-- Whether a request forgets what the program has supplied. -/
def Request.forgets : Request → Bool
  | clear | close => true
  | _ => false

/-- A request takes no supplied bytes away, also if it fails. -/
theorem perform_supplies (o : Outside) {r : Request} (h : r.forgets = false) : Keeps Supplies (perform o r) := by
  cases r with
  | initClassPath => exact change_keeps fun _ => .of_supplied rfl
  | initLoaders _ | addLoader _ _ => exact change_keeps fun _ => .of_files rfl
  | addSupplied name loader bytes =>
    exact change_keeps fun _ hs => ⟨hs.add _ bytes, fun _ hreal => hreal.add _ bytes⟩
  | announce names loaders =>
    exact change_keeps fun _ hs => ⟨hs.announce _ loaders, fun _ hreal => hreal.announce _ loaders⟩
  | clear | close => cases h
  | _ => exact (supplies_parts o).perform rfl

/-! ### Sessions -/

theorem perform_supplied_sound (o : Outside) (r : Request) (s : Scene Catalog)
    (h : s.state.index.files.supplied.Sound) : ((perform o r).start s).2.state.index.files.supplied.Sound := by
  cases hr : r.forgets with
  | false => exact (perform_supplies o hr s h).1
  | true =>
    cases r with
    | clear | close => exact ⟨Table.distinct_empty, h.roomy⟩
    | _ => cases hr

/-- Every session keeps the supplied bytes in order. -/
theorem Used.supplied_sound (h : Used s) : s.state.index.files.supplied.Sound := by
  refine h.invariant (P := fun c => c.index.files.supplied.Sound) (fun _ => Supplied.sound_new _)
    perform_supplied_sound fun id call s hs => ?_
  exact (call_keeps (R := Supplies) (fun _ _ _ _ => .of_files rfl) id call s hs).1

end ClassCatalog.Catalog
