import ClassCatalog.Proofs.Cache.Supplied
import ClassCatalog.Proofs.Catalog.Enroll
import ClassCatalog.Proofs.Catalog.Fitting
import ClassCatalog.Proofs.Catalog.Run

/-! The missing loader and the root.

The missing loader stands for the root. A parent may be recorded either way, and a request that looks for an
entry or makes a placeholder takes the one for the other. Bytes are an exception: they are kept under the loader
they were supplied to, and since no search comes to the missing loader, those supplied to it are lost.

What a request comes to without a client is `Request.rooted`. From catalogs that differ only in what no search
comes to (`Twin`) each part of a request answers the same and leaves such catalogs (`mirrored_parts`), so that two
sessions whose requests come to the same cannot be told apart (`missing_loader_is_root`). -/
namespace ClassCatalog
open ClassCatalog.Action Cache

/-! ### Supplied bytes -/

namespace Cache.Supplied
variable {s t : Supplied} {name : String} {loader : LoaderId} {g g' : Loader.Graph}

/-- Both have the same for each loader, the missing one apart. -/
def Agrees (s t : Supplied) : Prop :=
  ∀ name loader, loader ≠ Loader.none → t.entries.get? (name, loader) = s.entries.get? (name, loader)

namespace Agrees

theorem refl (s : Supplied) : Agrees s s := fun _ _ _ => rfl

theorem add (h : Agrees s t) (key : ClassKey) (bytes : Bytes) : Agrees (s.add key bytes) (t.add key bytes) := by
  intro name loader hl
  rw [get?_add, get?_add, h name loader hl]

theorem add_missing (h : Agrees s t) (name : String) (bytes : Bytes) :
    Agrees (s.add (name, Loader.none) bytes) t := by
  intro other loader hl
  have hkey : ¬((name, Loader.none) = (other, loader) ∧ (bytes = #[] → s.entries.get? (other, loader) = none)) :=
    fun hkey => hl (congrArg Prod.snd hkey.1).symm
  rw [get?_add, if_neg hkey, h other loader hl]

/-- What is announced for the missing loader makes no difference. -/
theorem foldl_add (h : Agrees s t) (keys : List ClassKey) :
    Agrees (keys.foldl (fun s key => s.add key #[]) s)
      ((keys.filter fun key => key.2 ≠ Loader.none).foldl (fun s key => s.add key #[]) t) := by
  induction keys generalizing s t with
  | nil => exact h
  | cons key rest ih =>
    obtain ⟨name, loader⟩ := key
    by_cases hl : loader = Loader.none
    · subst hl
      exact ih (h.add_missing name #[])
    · rw [List.filter_cons_of_pos (by simpa using hl)]
      exact ih (h.add (name, loader) #[])

theorem reorder (h : Agrees s t) (keys : List ClassKey) : Agrees (s.reorder keys) (t.reorder keys) := by
  intro name loader hl
  rw [get?_reorder, get?_reorder, h name loader hl]

theorem holder? (h : Agrees s t) (hg : g'.ancestry = g.ancestry) (hl : loader ≠ Loader.none) :
    t.holder? name loader g' = s.holder? name loader g := by
  unfold Supplied.holder? Table.contains
  rw [hg]
  refine List.find?_congr fun m hm => ?_
  rw [h name m (Loader.Graph.ne_none_of_mem_ancestry hl hm)]

end Agrees

/-- The missing loader is come to only from itself. -/
theorem holder?_ne_none {holder : LoaderId} (h : s.holder? name loader g = some holder)
    (hl : loader ≠ Loader.none) : holder ≠ Loader.none :=
  Loader.Graph.ne_none_of_mem_ancestry hl (List.mem_of_find?_eq_some h)

end Cache.Supplied

namespace Catalog
open Files Cache.FileCache

variable {α : Type} {c d : Catalog} {o : Outside} {name : String} {loader : LoaderId} {s t : Scene Catalog}

/-! ### Twins -/

/-- The catalogs are the same, apart from how the root is recorded as a parent and from bytes supplied to the
missing loader. -/
inductive Twin (c : Catalog) : Catalog → Prop where
  | recast {g : Loader.Graph} {x : Supplied} (hloaders : g.rooted = c.index.loaders.rooted)
      (hsupplied : c.index.files.supplied.Agrees x) : Twin c (c.recast g x)

namespace Twin

theorem refl (c : Catalog) : Twin c c := .recast rfl (.refl _)

theorem read {f : Catalog → α} (h : Twin c d)
    (hf : ∀ c g x, g.ancestry = c.index.loaders.ancestry → f (c.recast g x) = f c) : f d = f c := by
  cases h with
  | recast hloaders _ => exact hf c _ _ (Loader.Graph.ancestry_congr hloaders)

theorem map {f : Catalog → Catalog} (h : Twin c d) (hf : ∀ c g x, f (c.recast g x) = (f c).recast g x) :
    Twin (f c) (f d) := by
  -- A function that does not look at the record leaves it alone.
  have hindex : (f c).index = ((f c).recast c.index.loaders c.index.files.supplied).index :=
    congrArg index (hf c c.index.loaders c.index.files.supplied)
  cases h with
  | recast hloaders hsupplied =>
    rw [hf]
    refine .recast ?_ ?_
    · rw [hindex]
      exact hloaders
    · rw [hindex]
      exact hsupplied

theorem holder? (h : Twin c d) (hl : loader ≠ Loader.none) :
    d.index.files.supplied.holder? name loader d.index.loaders =
      c.index.files.supplied.holder? name loader c.index.loaders := by
  cases h with
  | recast hloaders hsupplied => exact hsupplied.holder? (Loader.Graph.ancestry_congr hloaders) hl

end Twin

/-- The same has happened, and the catalogs are twins. -/
structure Twins (s t : Scene Catalog) : Prop where
  journal : t.journal = s.journal
  state : Twin s.state t.state

theorem Twins.refl (s : Scene Catalog) : Twins s s := ⟨rfl, .refl s.state⟩

/-- On twins the action does the same. -/
abbrev Mirrored (a : Action Catalog α) : Prop := Mirrors Twins a a

theorem traverses_mirrored : Traverses fun _ a => Mirrored a where
  toComposes := composes_mirrors Twins
  read := by
    intro α f hf h s t hst
    rw [start_state_bind, start_state_bind]
    rw [hst.state.read hf]
    exact h s.state hst

theorem update_mirrored {f : Catalog → Catalog} (hf : ∀ c g x, f (c.recast g x) = (f c).recast g x) :
    Mirrored (Action.update f) :=
  fun _ _ hst => ⟨rfl, hst.journal, hst.state.map hf⟩

theorem exchange_mirrored {f : Catalog → α × Catalog}
    (hf : ∀ c g x, f (c.recast g x) = ((f c).1, (f c).2.recast g x)) : Mirrored (exchange f) := by
  intro s t hst
  have hanswer : (f t.state).1 = (f s.state).1 :=
    hst.state.read (f := fun c => (f c).1) fun c g x _ => by rw [hf]
  have hstate : Twin (f s.state).2 (f t.state).2 :=
    hst.state.map (f := fun c => (f c).2) fun c g x => by rw [hf]
  exact ⟨congrArg Except.ok hanswer, hst.journal, hstate⟩

theorem report_mirrored (e : Event) : Mirrored (Action.report e) :=
  fun _ _ hst => ⟨rfl, congrArg (· ++ [e]) hst.journal, hst.state⟩

/-- An action on a part that is the same in twins. -/
theorem within_mirrored {τ : Type} {replace : Catalog → τ → Catalog} (x : τ) (a : Action τ α)
    (h : ∀ y c g z, replace (c.recast g z) y = (replace c y).recast g z) :
    Mirrored (Action.within (fun _ => x) replace a) := by
  have heq : Mirrors Eq a a := by
    rintro s _ rfl
    exact ⟨rfl, rfl⟩
  refine mirrors_within heq (fun s t hst => by rw [hst.journal]) ?_
  rintro s t u _ hst rfl
  exact ⟨rfl, hst.state.map (f := fun c => replace c u.state) (h u.state)⟩

/-! ### Registering -/

section Recast
variable (c : Catalog) (g : Loader.Graph) (x : Supplied)

theorem narrow_recast (loader : LoaderId) (e : Entry) :
    (c.recast g x).narrow loader e = (c.narrow loader e).recast g x := by
  cases e <;> rfl

theorem register_recast (name : String) (e : Entry) :
    (c.recast g x).register name e = (c.register name e).recast g x := by
  unfold register
  rw [group_recast]
  split
  · rfl
  · rfl

theorem newClass_recast (k : LoadedClass) :
    (c.recast g x).newClass k = ((c.newClass k).1, (c.newClass k).2.recast g x) := rfl

theorem newPlaceholder_recast (name : String) (loader : LoaderId) :
    (c.recast g x).newPlaceholder name loader =
      ((c.newPlaceholder name loader).1, (c.newPlaceholder name loader).2.recast g x) := by
  unfold newPlaceholder
  dsimp only
  rw [← register_recast]
  rfl

theorem newSpecial_recast (name : String) :
    (c.recast g x).newSpecial name = ((c.newSpecial name).1, (c.newSpecial name).2.recast g x) := by
  unfold newSpecial
  dsimp only
  rw [← register_recast]
  rfl

theorem special_recast (name : String) :
    (c.recast g x).special name = ((c.special name).1, (c.special name).2.recast g x) := by
  unfold special
  dsimp only
  rw [group_recast]
  cases (c.group (Name.canonical name)).find? Entry.isSpecial with
  | some e => rfl
  | none => exact newSpecial_recast c g x _

theorem addPlaceholder_recast (name : String) (loader : LoaderId) :
    (c.recast g x).addPlaceholder name loader =
      ((c.addPlaceholder name loader).1, (c.addPlaceholder name loader).2.recast g x) := by
  unfold addPlaceholder
  dsimp only
  rw [group_recast, loaderOf_recast]
  cases (c.group (Name.canonical name)).find? _ with
  | some e => rfl
  | none => exact newPlaceholder_recast c g x _ _

theorem linkSubclasses_recast (id : ClassId) :
    (c.recast g x).linkSubclasses id = (c.linkSubclasses id).recast g x := by
  unfold linkSubclasses
  rw [population_recast]
  cases c.population.class? id with
  | none => rfl
  | some k =>
    refine List.foldl_hom (fun c => recast c g x) fun c sub => ?_
    rfl

theorem transfer_recast (p : Nat) (id : ClassId) :
    (c.recast g x).transfer p id = (c.transfer p id).recast g x := by
  unfold transfer
  rw [population_recast]
  cases c.population.placeholder? p with
  | none => rfl
  | some y => rfl

theorem promote_recast (name : String) (p : Nat) (id : ClassId) (known : Bool) :
    (c.recast g x).promote name p id known = (c.promote name p id known).recast g x := by
  rw [promote_eq, promote_eq, transfer_recast, group_recast]
  exact linkSubclasses_recast ((c.transfer p id).setGroup name _) g x id

theorem seat_recast (name : String) (placeholder : Option Nat) (id : ClassId) (known : Bool) :
    (c.recast g x).seat name placeholder id known = (c.seat name placeholder id known).recast g x := by
  cases placeholder with
  | none => exact register_recast c g x name _
  | some p => exact promote_recast c g x name p id known

theorem enroll_recast (name : String) (placeholder : Option Nat) (k : LoadedClass) :
    (c.recast g x).enroll name placeholder k =
      ((c.enroll name placeholder k).1, (c.enroll name placeholder k).2.recast g x) := by
  have hsame : (c.recast g x).registered? name k = c.registered? name k := rfl
  cases h : c.registered? name k with
  | some id =>
    rw [enroll_of_registered h, enroll_of_registered (hsame.trans h), seat_recast]
  | none =>
    rw [enroll_of_unregistered h, enroll_of_unregistered (hsame.trans h), newClass_recast]
    dsimp only
    rw [seat_recast]

end Recast

/-! ### Sources -/

/-- The sources of twins. -/
inductive SourceTwins : Scene Sources → Scene Sources → Prop where
  | intro {bytes : ByteCache} {x y : Supplied} {cp : Option ClassPath} {told : Journal} (h : x.Agrees y) :
      SourceTwins ⟨⟨⟨bytes, x⟩, cp⟩, told⟩ ⟨⟨⟨bytes, y⟩, cp⟩, told⟩

theorem onSources_mirrored {a : Action Sources α} (h : Mirrors SourceTwins a a) : Mirrored (onSources a) := by
  refine mirrors_within h ?_ ?_
  · rintro ⟨c, told⟩ ⟨d, _⟩ ⟨rfl, hstate : Twin c d⟩
    cases hstate with
    | recast _ hsupplied => exact .intro hsupplied
  · rintro ⟨c, told⟩ ⟨d, _⟩ u v ⟨rfl, hstate : Twin c d⟩ huv
    cases hstate with
    | recast hloaders _ =>
      cases huv with
      | intro h => exact ⟨rfl, .recast hloaders h⟩

/-- Without a client nothing is fetched: an entry has bytes or it has not. -/
theorem bytes_mirrors (hl : loader ≠ Loader.none) :
    Mirrors (fun u v => v.journal = u.journal ∧ u.state.Agrees v.state) (Supplied.bytes (name, loader) none)
      (Supplied.bytes (name, loader) none) := by
  intro u v huv
  have hkey := huv.2 name loader hl
  by_cases hpending : u.state.entries.get? (name, loader) = some #[]
  · rw [Supplied.start_bytes_alone hpending, Supplied.start_bytes_alone (hkey.trans hpending)]
    exact ⟨rfl, huv⟩
  · have hpending' := hkey.trans_ne hpending
    rw [Supplied.start_bytes_settled none hpending, Supplied.start_bytes_settled none hpending', hkey]
    exact ⟨rfl, huv⟩

/-- Both tables come to lie the same way, for the same has happened before. -/
theorem serve_mirrors [Supplied.Arrangement] (hl : loader ≠ Loader.none) :
    Mirrors (fun u v => v.journal = u.journal ∧ u.state.Agrees v.state) (Supplied.serve (name, loader) none)
      (Supplied.serve (name, loader) none) := by
  refine mirrors_bind (fun u v huv => ⟨rfl, huv.1, ?_⟩) fun _ => bytes_mirrors hl
  show (u.state.reorder _).Agrees (v.state.reorder (Supplied.Arrangement.front v.journal))
  rw [huv.1]
  exact huv.2.reorder _

theorem classBytes_supplied_mirrors (o : Outside) (name : String) (hl : loader ≠ Loader.none) :
    Mirrors SourceTwins (o.classBytes none name (.supplied loader)) (o.classBytes none name (.supplied loader)) := by
  let _ := o.arrangement
  refine mirrors_within (serve_mirrors hl) ?_ ?_
  · rintro _ _ ⟨h⟩
    exact ⟨rfl, h⟩
  · rintro _ _ ⟨x, told⟩ ⟨y, _⟩ ⟨_⟩ ⟨rfl, h⟩
    exact .intro h

theorem classBytes_path_mirrors (o : Outside) (name : String) (path : Path) :
    Mirrors SourceTwins (o.classBytes none name (.path path)) (o.classBytes none name (.path path)) := by
  let _ := o.format
  let _ := o.arrangement
  rintro _ _ ⟨h⟩
  rename_i bytes x y cp told
  simp only [classBytes, start_bind, start_state, start_put]
  cases (bytes.get (cacheKey name (.path path))).1 with
  | some found => exact ⟨rfl, .intro h⟩
  | none =>
    cases cp with
    | none => exact ⟨rfl, .intro h⟩
    | some cp =>
      simp only [readAndKeep, start_bind, start_within]
      rcases (ClassPath.read o.files name path).start ⟨cp, told⟩ with ⟨_ | found, cp', told'⟩
      · exact ⟨rfl, .intro h⟩
      · exact ⟨rfl, .intro h⟩

theorem onClassPath_mirrored (absent : α) (a : Action ClassPath α) : Mirrored (onClassPath absent a) :=
  traverses_mirrored.onClassPath fun cp => within_mirrored cp a fun _ _ _ _ => rfl

theorem onClass_mirrored (absent : α) (id : ClassId) (a : Action LoadedClass α) :
    Mirrored (onClass absent id a) :=
  traverses_mirrored.onClass fun k => within_mirrored k a fun _ _ _ _ => rfl

/-! ### Finding and loading -/

section Alone
variable (hclient : o.client = none)
include hclient

theorem definingLoader_mirrored (name : String) (loader : LoaderId) : Mirrored (definingLoader o name loader) := by
  have h := traverses_mirrored
  unfold definingLoader
  refine h.read (fun _ _ _ _ => rfl) fun c => ?_
  rw [hclient]
  split
  · exact h.pure _
  · exact h.bind (h.pure _) fun l => h.bind (update_mirrored fun _ _ _ => rfl) fun _ => h.pure l

theorem findFitting_mirrored (name : String) (loader : LoaderId) (placeholders : Bool) :
    Mirrored (findFitting o name loader placeholders) :=
  traverses_mirrored.findFitting (fun e => update_mirrored fun c g x => narrow_recast c g x loader e)
    (definingLoader_mirrored hclient name loader)

theorem loadSupplied_mirrored (name : String) (hl : loader ≠ Loader.none) :
    Mirrored (loadSupplied o name loader) := by
  have h := traverses_mirrored
  intro s t hst
  unfold loadSupplied
  rw [start_state_bind, start_state_bind, hclient]
  rw [hst.state.holder? hl]
  cases hholder : s.state.index.files.supplied.holder? name loader s.state.index.loaders with
  | none => exact ⟨rfl, hst⟩
  | some holder =>
    have hbytes := onSources_mirrored
      (classBytes_supplied_mirrors o name (Supplied.holder?_ne_none hholder hl))
    refine h.bind hbytes (fun found => ?_) hst
    split
    · exact h.pure _
    · exact h.bind (h.ofExcept _) fun _ => h.pure _

/-- The walk up the loaders does not come to the missing one, so what was supplied to that is not seen. -/
theorem loadAndEnroll_mirrored (name : String) (placeholder : Option Nat) (hl : loader ≠ Loader.none) :
    Mirrored (loadAndEnroll o name loader placeholder) := by
  have h := traverses_mirrored
  have hpath := h.loadFromPath (onClassPath_mirrored none (o.locate name)) fun path =>
    onSources_mirrored (classBytes_path_mirrors o name path)
  have hfirst (loaders : List LoaderId) (hnone : loader ≠ Loader.none → Loader.none ∉ loaders) :
      Mirrored (loadFirst o name loaders) :=
    h.loadFirst fun l hmem =>
      have hne : l ≠ Loader.none := fun e => hnone hl (e ▸ hmem)
      h.loadAt (loadSupplied_mirrored hclient name hne) fun _ => hpath
  have hmissing := h.reportMissing (update_mirrored fun _ _ _ => rfl) (report_mirrored (.missing name loader))
  have hunusable (e : ClassError) := h.noteUnusable (e := e) (update_mirrored fun _ _ _ => rfl)
    (report_mirrored (.unusable name loader))
  have hload := h.load hfirst (definingLoader_mirrored hclient name loader) hmissing
  exact h.loadAndEnroll hload hunusable fun k =>
    exchange_mirrored fun c g x => enroll_recast c g x name placeholder k

/-! ### Requests -/

theorem mirrored_parts : Parts o fun _ a => Mirrored a where
  toTraverses := traverses_mirrored
  find := findFitting_mirrored hclient
  load name _ placeholder hl := loadAndEnroll_mirrored hclient name placeholder hl
  defining := definingLoader_mirrored hclient
  list := onClassPath_mirrored [] _
  code id _ := onClass_mirrored none id _
  length id _ := onClass_mirrored 0 id _
  expected name loader := exchange_mirrored fun c g x => newPlaceholder_recast c g x name loader
  placeholder name loader := exchange_mirrored fun c g x => addPlaceholder_recast c g x name loader
  special name := exchange_mirrored fun c g x => special_recast c g x name
  noted _ _ _ := update_mirrored fun _ _ _ => rfl
  linked _ _ := update_mirrored fun _ _ _ => rfl
  implemented _ _ := update_mirrored fun _ _ _ => rfl

end Alone

/-- What a request comes to without a client: the missing loader is the root, but has no bytes. -/
def Request.rooted : Request → Request
  | initLoaders table => initLoaders (table.map Loader.normalize)
  | addLoader child parent => addLoader (Loader.normalize child) (Loader.normalize parent)
  | lookup name loader => lookup name (Loader.normalize loader)
  | lookupOrPlaceholder name loader => lookupOrPlaceholder name (Loader.normalize loader)
  | lookupRegistered name loader placeholders => lookupRegistered name (Loader.normalize loader) placeholders
  | addPlaceholder name loader => addPlaceholder name (Loader.normalize loader)
  | addSupplied name loader bytes => if loader = Loader.none then announce [] [] else addSupplied name loader bytes
  | announce names loaders =>
    let reached := ((names.zip loaders).filter fun key => key.2 ≠ Loader.none).unzip
    announce reached.1 reached.2
  | r => r

theorem change_mirrors {f f' : Catalog → Catalog}
    (h : ∀ {c g x}, g.rooted = c.index.loaders.rooted → c.index.files.supplied.Agrees x →
      Twin (f c) (f' (c.recast g x))) : Mirrors Twins (change f) (change f') := by
  rintro ⟨c, told⟩ ⟨d, _⟩ ⟨rfl, hstate : Twin c d⟩
  cases hstate with
  | recast hloaders hsupplied => exact ⟨rfl, rfl, h hloaders hsupplied⟩

theorem perform_rooted_of_isChange {r : Request} (hr : r.isChange = true) :
    Mirrors Twins (perform o r) (perform o r.rooted) := by
  cases r with
  | initClassPath => exact change_mirrors fun hloaders hsupplied => .recast hloaders hsupplied
  | initLoaders table =>
    have hrooted : (Loader.Graph.ofTable (table.map Loader.normalize)).rooted =
        (Loader.Graph.ofTable table).rooted := by
      rw [Loader.Graph.rooted_ofTable, Loader.Graph.rooted_ofTable, List.map_map, Loader.normalize_comp_normalize]
    exact change_mirrors fun _ hsupplied => .recast hrooted hsupplied
  | addLoader child parent =>
    exact change_mirrors fun hloaders hsupplied =>
      .recast (Loader.Graph.rooted_add_congr hloaders child parent) hsupplied
  | addSupplied name loader bytes =>
    by_cases hl : loader = Loader.none
    · subst hl
      exact change_mirrors fun hloaders hsupplied =>
        .recast hloaders (hsupplied.add_missing (Name.canonical name) bytes)
    · rw [Request.rooted, if_neg hl]
      exact change_mirrors fun hloaders hsupplied =>
        .recast hloaders (hsupplied.add (Name.canonical name, loader) bytes)
  | announce names loaders =>
    let reached := ((names.zip loaders).filter fun key => key.2 ≠ Loader.none).unzip
    have hkeys : (reached.1.map Name.canonical).zip reached.2 =
        ((names.map Name.canonical).zip loaders).filter fun key => key.2 ≠ Loader.none := by
      rw [List.zip_map_left, List.zip_map_left, List.zip_unzip, List.filter_map]
      rfl
    refine change_mirrors fun hloaders hsupplied => ?_
    have hagrees := hsupplied.foldl_add ((names.map Name.canonical).zip loaders)
    rw [← hkeys] at hagrees
    exact .recast hloaders hagrees
  | clear => exact change_mirrors fun hloaders _ => .recast hloaders fun _ _ _ => rfl
  | close => exact change_mirrors fun _ _ => .recast rfl fun _ _ _ => rfl
  | _ => cases hr

/-- Looking up takes the missing loader for the root anyway. -/
theorem perform_rooted_eq {r : Request} (hr : r.isChange = false) : perform o r.rooted = perform o r := by
  cases r with
  | initClassPath | initLoaders _ | addLoader _ _ | addSupplied _ _ _ | announce _ _ | clear | close =>
    cases hr
  | lookup name loader => simp only [Request.rooted, perform, lookup, Loader.normalize_normalize]
  | lookupOrPlaceholder name loader =>
    simp only [Request.rooted, perform, lookupOrPlaceholder, Loader.normalize_normalize]
  | lookupRegistered name loader placeholders =>
    simp only [Request.rooted, perform, lookupRegistered, Loader.normalize_normalize]
  | addPlaceholder name loader => simp only [Request.rooted, perform, addPlaceholder, Loader.normalize_normalize]
  | _ => rfl

theorem perform_rooted (hclient : o.client = none) (r : Request) :
    Mirrors Twins (perform o r) (perform o r.rooted) := by
  cases hr : r.isChange with
  | true => exact perform_rooted_of_isChange hr
  | false =>
    rw [perform_rooted_eq hr]
    exact (mirrored_parts hclient).perform hr

theorem run_rooted {requests : List (Outside × Request)} (hclient : ∀ x ∈ requests, x.1.client = none) :
    Mirrors Twins (run requests) (run (requests.map (Prod.map id Request.rooted))) := by
  induction requests with
  | nil => exact (composes_mirrors Twins).pure []
  | cons x rest ih =>
    obtain ⟨o, r⟩ := x
    have hfirst := mirrors_attempt (perform_rooted (hclient (o, r) (List.mem_cons_self ..)) r)
    have hrest := ih fun y hy => hclient y (List.mem_cons_of_mem _ hy)
    exact mirrors_bind hfirst fun a => mirrors_bind hrest fun answers =>
      (composes_mirrors Twins).pure (a :: answers)

/-- **The missing loader is the root, but for bytes.** If the requests of two sessions without a client come to
the same, one by one, they have the same answers and the same warnings, and leave the same entries in the same
groups. Thus a request that looks something up, makes a placeholder or records a parent may name the missing loader
for the root; but what is supplied to the missing loader is as good as not supplied. -/
theorem missing_loader_is_root {requests requests' : List (Outside × Request)}
    (hclient : ∀ x ∈ requests, x.1.client = none)
    (h : requests'.map (Prod.map id Request.rooted) = requests.map (Prod.map id Request.rooted))
    (s : Scene Catalog) :
    ((run requests').start s).1 = ((run requests).start s).1 ∧
      (after requests' s).journal = (after requests s).journal ∧
      (after requests' s).state.population = (after requests s).state.population ∧
      (after requests' s).state.index.groups = (after requests s).state.index.groups := by
  have houtside : requests'.map Prod.fst = requests.map Prod.fst := by
    have := congrArg (List.map Prod.fst) h
    rwa [List.map_map, List.map_map] at this
  have hclient' : ∀ x ∈ requests', x.1.client = none := by
    intro x hx
    have hmem : x.1 ∈ requests.map Prod.fst := houtside ▸ List.mem_map_of_mem hx
    obtain ⟨y, hy, he⟩ := List.mem_map.mp hmem
    exact he ▸ hclient y hy
  obtain ⟨hanswers, hscene⟩ := run_rooted hclient (.refl s)
  obtain ⟨hanswers', hscene'⟩ := run_rooted hclient' (.refl s)
  rw [h] at hanswers' hscene'
  refine ⟨hanswers'.symm.trans hanswers, hscene'.journal.symm.trans hscene.journal, ?_, ?_⟩
  · have hread {x y : Scene Catalog} (h : Twins x y) : y.state.population = x.state.population :=
      h.state.read (f := population) fun _ _ _ _ => rfl
    exact (hread hscene').symm.trans (hread hscene)
  · have hread {x y : Scene Catalog} (h : Twins x y) : y.state.index.groups = x.state.index.groups :=
      h.state.read (f := fun c => c.index.groups) fun _ _ _ _ => rfl
    exact (hread hscene').symm.trans (hread hscene)

/-- A placeholder at the root, and the bytes of its class; each request names a root of its own. -/
def atRoots (atLoaders atPlaceholder atLookup : LoaderId) : List (Outside × Request) :=
  [(⟨default, none⟩, .initLoaders [0, atLoaders]), (⟨default, none⟩, .addPlaceholder "A" atPlaceholder),
    (⟨default, none⟩, .addSupplied "A" Loader.root sampleFile), (⟨default, none⟩, .lookup "A" atLookup),
    (⟨default, none⟩, .lookup "A" 1)]

theorem missing_loader_is_root_placeholder :
    ((run (atRoots Loader.none Loader.none Loader.none)).start (opening sampleConfig)).1 =
      ((run (atRoots Loader.root Loader.root Loader.root)).start (opening sampleConfig)).1 ∧
    ((run (atRoots Loader.root Loader.root Loader.root)).start (opening sampleConfig)).1 =
      .ok [.ok .done, .ok (.entry (some (.placeholder 0))), .ok .done, .ok (.entry (some (.loaded 0))),
        .ok (.entry (some (.loaded 0)))] := by
  have hclient : ∀ x ∈ atRoots Loader.root Loader.root Loader.root, x.1.client = none := by decide
  have hsame : (atRoots Loader.none Loader.none Loader.none).map (Prod.map id Request.rooted) =
      (atRoots Loader.root Loader.root Loader.root).map (Prod.map id Request.rooted) := rfl
  obtain ⟨hanswers, _⟩ := missing_loader_is_root hclient hsame (opening sampleConfig)
  exact ⟨hanswers, by decide +kernel⟩

/-- Bytes for a class, and a look at the root for it. -/
def suppliedAt (loader : LoaderId) : List (Outside × Request) :=
  [(⟨default, none⟩, .addSupplied "A" loader sampleFile), (⟨default, none⟩, .lookup "A" Loader.root)]

/-- Bytes supplied to the missing loader are lost, those supplied to the root are not. -/
theorem supplied_to_missing_lost :
    ((run (suppliedAt Loader.none)).start (opening sampleConfig)).1 = .ok [.ok .done, .ok (.entry none)] ∧
      ((run (suppliedAt Loader.root)).start (opening sampleConfig)).1 =
        .ok [.ok .done, .ok (.entry (some (.loaded 0)))] := by
  decide +kernel

end Catalog
end ClassCatalog
