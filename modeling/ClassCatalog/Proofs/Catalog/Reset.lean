import ClassCatalog.Proofs.Catalog.Renumbered
import ClassCatalog.Proofs.Catalog.Supplies

/-! Clearing and closing a catalog.

What outlasts every request is the settings, and of the caches what the settings have given them: the byte cache has
its hash and its slots, and a batch its size (`Catalog.settings`). So a catalog that is closed is one that begins with
the same settings, and one that is cleared is one that begins with its loaders and its class path as well. The
entries that have been given out count on, but nothing later depends on them other than by its number
(`reset_complete`). -/
namespace ClassCatalog
open ClassCatalog.Action

/-! ### Caches -/

namespace Cache

/-- What a byte cache has that does not depend on its entries. There are never less than four slots. -/
def ByteCache.frame (c : ByteCache) : (String → Nat) × Nat := (c.hash, max c.capacity 4)

namespace ByteCache
variable {c d : ByteCache}

theorem frame_eq (hhash : d.hash = c.hash) (hslots : d.slots.size = c.slots.size) : d.frame = c.frame := by
  unfold frame capacity
  rw [hhash, hslots]

theorem frame_shiftBack {fuel hole last : Nat} (h : c.shiftBack fuel hole last = some d) : d.frame = c.frame := by
  induction fuel generalizing c hole last with
  | zero => cases h
  | succ fuel ih =>
    unfold shiftBack at h
    dsimp only at h
    split at h
    · cases h
      rfl
    · split at h
      · exact ih h
      · exact (ih h).trans (frame_eq rfl (by simp))

theorem frame_vacate (c : ByteCache) (i : Nat) : (c.vacate i).frame = c.frame := by
  have hhole : frame { c with slots := c.slots.setIfInBounds i none, size := c.size - 1 } = c.frame :=
    frame_eq rfl (by simp)
  unfold vacate closeGap
  refine Eq.trans ?_ hhole
  generalize { c with slots := c.slots.setIfInBounds i none, size := c.size - 1 } = d
  cases hshift : d.shiftBack d.gapFuel i i with
  | none => rfl
  | some e => exact frame_shiftBack hshift

theorem frame_makeRoom (c : ByteCache) : c.makeRoom.frame = c.frame := by
  unfold makeRoom evictOldest
  split
  · split
    · rfl
    · exact frame_vacate ..
  · rfl

theorem frame_put (c : ByteCache) (key : String) (bytes : Bytes) : (c.put key bytes).frame = c.frame := by
  unfold put
  dsimp only
  split
  · exact frame_eq rfl (by simp)
  · refine Eq.trans ?_ (frame_makeRoom { c with clock := c.clock + 1 })
    unfold insertNew
    split
    · rfl
    · exact frame_eq rfl (by simp)

theorem frame_get (c : ByteCache) (key : String) : (c.get key).2.frame = c.frame := by
  unfold get
  split
  · rfl
  · split
    · rfl
    · exact frame_eq rfl (by simp)

theorem frame_clear (c : ByteCache) : c.clear.frame = c.frame := by
  unfold clear new frame capacity
  simp

/-- All that is left of a cache that is cleared is its frame. -/
theorem clear_eq (h : c.frame = d.frame) : c.clear = d.clear := by
  obtain ⟨hhash, hcapacity⟩ := Prod.mk.inj h
  unfold clear new
  rw [hhash, hcapacity]

end ByteCache

theorem Supplied.batchLimit_settleAll (s : Supplied) (asked : List ClassKey) (answers : List Bytes) :
    (s.settleAll asked answers).batchLimit = s.batchLimit := by
  induction asked generalizing s answers with
  | nil => rfl
  | cons k keys ih => rw [settleAll_cons, ih, batchLimit_settle]

theorem Supplied.batchLimit_add (s : Supplied) (key : ClassKey) (bytes : Bytes) :
    (s.add key bytes).batchLimit = s.batchLimit := by
  unfold add
  split <;> rfl

theorem Supplied.batchLimit_announce (s : Supplied) (names : List String) (loaders : List LoaderId) :
    (s.announce names loaders).batchLimit = s.batchLimit := by
  unfold announce
  induction names.zip loaders generalizing s with
  | nil => rfl
  | cons key rest ih => rw [List.foldl_cons, ih, batchLimit_add]

theorem Supplied.bytes_batchLimit (key : ClassKey) (client : Option Client) :
    Keeps (Same Supplied.batchLimit) (Supplied.bytes key client) := by
  refine Keeps.state_bind fun s => ?_
  split
  · rfl
  · split
    · rfl
    · split
      · rfl
      · rename_i client
        have hfetch : Keeps (Same Supplied.batchLimit) (fetch key client) := by
          refine .bind .state fun x => .bind (.ask _ _) fun outcome => ?_
          cases outcome with
          | ok answers => exact .update fun x => x.batchLimit_settleAll _ answers
          | error e => exact .fail e
        exact (hfetch.bind fun _ => .bind .state fun _ => .pure _) s

theorem Supplied.serve_batchLimit [Supplied.Arrangement] (key : ClassKey) (client : Option Client) :
    Keeps (Same Supplied.batchLimit) (Supplied.serve key client) :=
  Keeps.bind (R := Same _) (fun _ => rfl) fun _ => bytes_batchLimit key client

namespace FileCache

/-- What the caches have that does not depend on their entries. -/
def frame (f : FileCache) : ((String → Nat) × Nat) × Nat := (f.bytes.frame, f.supplied.batchLimit)

theorem clear_eq {f g : FileCache} (h : f.frame = g.frame) : f.clear = g.clear := by
  obtain ⟨hbytes, hlimit⟩ := Prod.mk.inj h
  unfold clear Supplied.clear
  rw [ByteCache.clear_eq hbytes, hlimit]

theorem frame_clear (f : FileCache) : f.clear.frame = f.frame := by
  unfold frame clear
  rw [ByteCache.frame_clear]
  rfl

theorem clear_new (capacity batchLimit : Nat) : (new capacity batchLimit).clear = new capacity batchLimit := by
  simp [new, clear, ByteCache.clear, ByteCache.new, ByteCache.capacity, Supplied.clear, Supplied.new]

theorem readAndKeep_frame [Archive.Format] (files : Files.Tree) (name : String) (path : Path) (cp : ClassPath) :
    Keeps (Same fun x => x.files.frame) (readAndKeep files name path cp) := by
  refine Keeps.bind (R := Same _) (fun _ => rfl) fun bytes => ?_
  refine Keeps.bind (R := Same _) (.update fun x => ?_) fun _ => .pure _
  exact congrArg (·, x.files.supplied.batchLimit) (x.files.bytes.frame_put ..)

theorem classBytes_frame [Archive.Format] [Supplied.Arrangement] (files : Files.Tree) (client : Option Client)
    (name : String) (location : Location) :
    Keeps (Same fun x => x.files.frame) (classBytes files client name location) := by
  cases location with
  | supplied loader =>
    intro s
    exact congrArg (s.state.files.bytes.frame, ·)
      (Supplied.serve_batchLimit (name, loader) client ⟨s.state.files.supplied, s.journal⟩)
  | path path =>
    refine Keeps.state_bind fun s => ?_
    have hgot : frame { s.state.files with bytes := (s.state.files.bytes.get (cacheKey name (.path path))).2 } =
        s.state.files.frame :=
      congrArg (·, s.state.files.supplied.batchLimit) (s.state.files.bytes.frame_get _)
    rw [start_bind, start_put]
    dsimp only
    refine Eq.trans ?_ hgot
    split
    · rfl
    · exact ((readAndKeep_frame files name path _).bind fun _ => .pure _) _
    · rfl

end FileCache
end Cache

/-! ### Catalogs -/

namespace Catalog
open Cache
variable {o : Outside} {name : String} {loader : LoaderId} {c d : Catalog}

/-- The settings of a catalog and what they have given its caches. -/
def settings (c : Catalog) : Config × ((String → Nat) × Nat) × Nat := (c.config, c.index.files.frame)

theorem settings_register (c : Catalog) (name : String) (e : Entry) : (c.register name e).settings = c.settings := by
  obtain ⟨groups, h⟩ := register_eq c name e
  rw [h]
  rfl

theorem config_transfer (c : Catalog) (placeholder : Nat) (id : ClassId) :
    (c.transfer placeholder id).config = c.config := by
  unfold transfer
  split <;> rfl

theorem config_promote (c : Catalog) (name : String) (placeholder : Nat) (id : ClassId) (known : Bool) :
    (c.promote name placeholder id known).config = c.config := by
  have hlinked (d : Catalog) : (d.linkSubclasses id).config = d.config :=
    linkSubclasses_of_link (R := Same Catalog.config) d id fun _ _ _ => rfl
  rw [promote_eq, hlinked]
  exact config_transfer ..

theorem settings_enroll (c : Catalog) (name : String) (placeholder : Option Nat) (k : LoadedClass) :
    (c.enroll name placeholder k).2.settings = c.settings := by
  have hconfig : (c.enroll name placeholder k).2.config = c.config := by
    unfold enroll
    cases c.registered? name k <;> cases placeholder
    · exact congrArg Prod.fst (settings_register ..)
    · exact config_promote ..
    · exact congrArg Prod.fst (settings_register ..)
    · exact config_promote ..
  unfold settings
  rw [hconfig, files_enroll]

/-! ### Requests -/

theorem onSources_settings {α : Type} {a : Action FileCache.Sources α} (h : Keeps (Same fun x => x.files.frame) a) :
    Keeps (Same settings) (onSources a) :=
  fun s => congrArg (s.state.config, ·) (h ⟨⟨s.state.index.files, s.state.index.classPath⟩, s.journal⟩)

theorem onClassPath_settings {α : Type} (absent : α) (a : Action ClassPath α) :
    Keeps (Same settings) (onClassPath absent a) :=
  (surveys_keeps (Same settings)).onClassPath fun _ _ => rfl

theorem definingLoader_settings (o : Outside) (name : String) (loader : LoaderId) :
    Keeps (Same settings) (definingLoader o name loader) :=
  definingLoader_keeps fun _ _ _ => rfl

theorem load_settings (o : Outside) (name : String) (loader : LoaderId) :
    Keeps (Same settings) (load o name loader) := by
  have h := surveys_keeps (Same settings)
  let _ := o.format
  let _ := o.arrangement
  have hread := fun client location => onSources_settings (FileCache.classBytes_frame o.files client name location)
  exact h.load (fun loaders _ => h.loadFirst_of_sources (onClassPath_settings none _) hread loaders)
    (definingLoader_settings o name loader) (h.reportMissing (.update fun _ => rfl) (.report _))

theorem loadAndEnroll_settings (o : Outside) (name : String) (loader : LoaderId) (placeholder : Option Nat) :
    Keeps (Same settings) (loadAndEnroll o name loader placeholder) := by
  have h := surveys_keeps (Same settings)
  exact h.loadAndEnroll (load_settings o name loader)
    (fun _ => h.noteUnusable (.update fun _ => rfl) (.report _)) fun k s => settings_enroll s.state name placeholder k

theorem settings_parts (o : Outside) : Parts o fun _ a => Keeps (Same settings) a where
  toTraverses := (surveys_keeps (Same settings)).toTraverses
  find name loader placeholders := by
    have h := surveys_keeps (Same settings)
    refine h.findFitting (fun e => .update fun c => ?_) (definingLoader_settings o name loader)
    cases e <;> rfl
  load name loader placeholder _ := loadAndEnroll_settings o name loader placeholder
  defining name loader := definingLoader_settings o name loader
  list := onClassPath_settings [] _
  code _ _ := onClass_keeps fun _ _ _ _ => rfl
  length _ _ := onClass_keeps fun _ _ _ _ => rfl
  expected _ _ _ := settings_register ..
  placeholder name loader s :=
    addPlaceholder_of_new (R := Same settings) (fun _ _ _ => settings_register ..) s.state name loader
  special name s := special_of_new (R := Same settings) (fun _ _ => settings_register ..) s.state name
  noted _ _ _ _ := rfl
  linked _ _ _ := rfl
  implemented _ _ _ := rfl

/-- Every request keeps the settings and what they have given the caches. -/
theorem perform_settings (o : Outside) (r : Request) : Keeps (Same settings) (perform o r) := by
  have hsupplied (f : Supplied → Supplied) (h : ∀ x, (f x).batchLimit = x.batchLimit) (c : Catalog) :
      (c.modifySupplied f).settings = c.settings :=
    congrArg (fun limit => (c.config, c.index.files.bytes.frame, limit)) (h c.index.files.supplied)
  cases r with
  | initClassPath =>
    refine change_keeps fun c => ?_
    exact congrArg (fun frame => (c.config, frame, c.index.files.supplied.batchLimit)) (ByteCache.frame_clear _)
  | initLoaders _ | addLoader _ _ => exact change_keeps fun _ => rfl
  | addSupplied name loader bytes => exact change_keeps (hsupplied _ fun x => x.batchLimit_add _ bytes)
  | announce names loaders => exact change_keeps (hsupplied _ fun x => x.batchLimit_announce _ loaders)
  | clear | close =>
    refine change_keeps fun c => ?_
    exact congrArg (c.config, ·) (FileCache.frame_clear _)
  | _ => exact (settings_parts o).perform rfl

/-! ### Sessions -/

/-- What happens in a session: requests are made, and the classes and placeholders that have been given out may be
changed in between. -/
inductive Happening where
  | request (o : Outside) (r : Request)
  | change (f : Population → Population)

def happen (s : Scene Catalog) : Happening → Scene Catalog
  | .request o r => ((perform o r).start s).2
  | .change f => ⟨s.state.modifyPopulation f, s.journal⟩

/-- The scene of a session after what has happened in it. -/
def session (config : Config) (history : List Happening) : Scene Catalog := history.foldl happen (opening config)

theorem session_settings (config : Config) (history : List Happening) :
    (session config history).state.settings = (Catalog.new config).settings := by
  unfold session
  refine List.foldlRecOn (motive := fun s : Scene Catalog => s.state.settings = (Catalog.new config).settings)
    _ _ rfl ?_
  intro s hs h _
  cases h with
  | request o r => exact (perform_settings o r s).trans hs
  | change f => exact hs

/-- A catalog that begins with these loaders and this class path. -/
def newWith (config : Config) (loaders : Loader.Graph) (classPath : Option ClassPath) : Catalog :=
  (Catalog.new config).modifyIndex fun i => { i with loaders, classPath }

/-- A catalog that is cleared is one that begins with its loaders and its class path. -/
theorem clear_eq {config : Config} (h : c.settings = (Catalog.new config).settings) :
    c.clear = (newWith config c.index.loaders c.index.classPath).behind c.population := by
  obtain ⟨hconfig, hframe⟩ := Prod.mk.inj h
  have hfiles : c.index.files.clear = .new config.byteCacheCapacity config.preloadBatchLimit :=
    (Cache.FileCache.clear_eq hframe).trans (Cache.FileCache.clear_new ..)
  unfold clear newWith behind modifyIndex
  dsimp only [Catalog.new]
  rw [hconfig, hfiles, Population.append_empty]
  rfl

/-- To the catalog `c`, later requests are what they are to `d`: they are answered the same, with the numbers that
entries have behind the population of `c`, and lead to the same. -/
def GoesOnAs (c d : Catalog) : Prop :=
  ∀ requests told,
    (run (requests.map (Prod.map id (Request.behind c.population)))).start ⟨c, told⟩ =
      (((run requests).start ⟨d, told⟩).1.map (List.map (Except.map (Answer.behind c.population))),
        ⟨((run requests).start ⟨d, told⟩).2.state.behind c.population, ((run requests).start ⟨d, told⟩).2.journal⟩)

theorem goesOnAs_of_behind (h : c = d.behind c.population) : c.GoesOnAs d := by
  intro requests told
  have hrun := run_renumbers (p := c.population) requests d told
  rwa [← h] at hrun

/-- **A reset is complete.** Whatever has happened in a session, closing the catalog leaves what a session with the
same settings begins with, and clearing it leaves that besides the loaders and the class path. Requests that are made
then are answered as they are when nothing has happened before; only the numbers of their entries come behind those
that have been given out already. -/
theorem reset_complete (config : Config) (history : List Happening) (o : Outside) :
    let s := session config history
    let closed := ((perform o .close).start s).2.state
    let cleared := ((perform o .clear).start s).2.state
    (closed.config = config ∧ closed.index = .new config) ∧
      (cleared.config = config ∧ cleared.index =
        { Index.new config with loaders := s.state.index.loaders, classPath := s.state.index.classPath }) ∧
      closed.GoesOnAs (.new config) ∧
      cleared.GoesOnAs (newWith config s.state.index.loaders s.state.index.classPath) := by
  have hclear := clear_eq (session_settings config history)
  generalize session config history = s at hclear
  have hclose : s.state.close = (Catalog.new config).behind s.state.population := by
    unfold close
    rw [hclear]
    rfl
  refine ⟨⟨congrArg Catalog.config hclose, congrArg Catalog.index hclose⟩,
    ⟨congrArg Catalog.config hclear, congrArg Catalog.index hclear⟩, ?_, ?_⟩
  · exact goesOnAs_of_behind hclose
  · exact goesOnAs_of_behind hclear

end Catalog
end ClassCatalog
