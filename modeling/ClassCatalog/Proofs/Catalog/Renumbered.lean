import ClassCatalog.Proofs.Catalog.Renumbering
import ClassCatalog.Proofs.Catalog.Run
import ClassCatalog.Proofs.Catalog.Traversal

/-! Requests to catalogs behind a population.

A catalog behind a population is asked for its entries by other numbers and answers other numbers. Otherwise a request
does there what it does to the catalog that begins with nothing (`perform_renumbers`), and so does a run of requests
(`run_renumbers`): whether others have been made before makes no difference. -/
namespace ClassCatalog.Catalog
open ClassCatalog.Action Cache

variable {p : Population} {o : Outside} {α β : Type}

/-- What the first action does to a catalog the second does to that catalog behind the population, and answers `g` of
what it answers. -/
abbrev Renumbers (p : Population) (g : α → β) (a : Action Catalog α) (b : Action Catalog β) : Prop :=
  Carries (Catalog.behind p) g a b

/-! ### Parts of a catalog -/

theorem onSources_renumbers (a : Action FileCache.Sources α) : Renumbers p id (onSources a) (onSources a) :=
  .within (.refl a) (fun _ => rfl) fun _ _ => rfl

theorem onClassPath_renumbers (absent : α) (a : Action ClassPath α) :
    Renumbers p id (onClassPath absent a) (onClassPath absent a) := by
  refine .read fun c => ?_
  rw [show (c.behind p).index.classPath = c.index.classPath from rfl]
  cases c.index.classPath with
  | none => exact .pure _
  | some cp => exact .within (.refl a) (fun _ => rfl) fun _ _ => rfl

theorem onClass_renumbers {absent : α} (id' : ClassId) {a : Action LoadedClass α}
    (h : Carries (LoadedClass.behind p) id a a) :
    Renumbers p id (onClass absent id' a) (onClass absent (p.classes.size + id') a) := by
  refine .read fun c => ?_
  rw [show (c.behind p).population.class? _ = _ from Population.class?_append ..]
  cases c.population.class? id' with
  | none => exact .pure _
  | some k => exact .within h (fun _ => rfl) fun c k => modifyClass_behind c id' fun _ => rfl

theorem infoAndLayout_carries (i : Nat) :
    Carries (LoadedClass.behind p) id (LoadedClass.infoAndLayout i) (LoadedClass.infoAndLayout i) := by
  refine .read fun k => ?_
  rw [show (k.behind p).info? i = k.info? i from rfl]
  cases k.info? i with
  | none => exact .pure _
  | some info =>
    dsimp only
    rw [show (k.behind p).methods = k.methods from rfl]
    cases k.methods[i]?.bind MethodState.layout with
    | some l => exact .pure _
    | none =>
      refine .bind (.ofExcept (k.scan info)) fun l => ?_
      exact .bind (.put (k.setMethod i fun m => { m with layout := some l })) fun _ => .pure _

theorem codeLayout_carries (i : Nat) :
    Carries (LoadedClass.behind p) id (LoadedClass.codeLayout i) (LoadedClass.codeLayout i) :=
  .bind (infoAndLayout_carries i) fun _ => .pure _

theorem bytecode_renumbers (absent : Option Bytes) (id' : ClassId) (i : Nat) :
    Renumbers p id (onClass absent id' (LoadedClass.bytecode i))
      (onClass absent (p.classes.size + id') (LoadedClass.bytecode i)) :=
  onClass_renumbers id' (.bind (codeLayout_carries i) fun _ => .pure _)

theorem bytecodeLength_renumbers (absent : Nat) (id' : ClassId) (i : Nat) :
    Renumbers p id (onClass absent id' (LoadedClass.bytecodeLength i))
      (onClass absent (p.classes.size + id') (LoadedClass.bytecodeLength i)) :=
  onClass_renumbers id' (.bind (codeLayout_carries i) fun _ => .pure _)

/-! ### Finding -/

theorem definingLoader_renumbers (name : String) (loader : LoaderId) :
    Renumbers p id (definingLoader o name loader) (definingLoader o name loader) := by
  have hremember (l : LoaderId) : Renumbers p id
      (do Action.update fun c => c.remember (name, loader) l; return l)
      (do Action.update fun c => c.remember (name, loader) l; return l) := by
    refine .bind (.update ?_) fun _ => .pure l
    exact fun _ => rfl
  refine .read fun c => ?_
  rw [show (c.behind p).index.defining = c.index.defining from rfl]
  cases c.index.defining.get? (name, loader) with
  | some l => exact .pure _
  | none =>
    dsimp only
    cases o.client with
    | none => exact .bind (.pure _) hremember
    | some client =>
      refine .bind (.ask _ _) fun outcome => ?_
      dsimp only [id]
      split
      · exact .bind (.pure _) hremember
      · exact .bind (.fail _) hremember
      · exact .bind (.pure _) hremember

theorem findFitting_renumbers (name : String) (loader : LoaderId) (placeholders : Bool) :
    Renumbers p (Option.map (Entry.behind p)) (findFitting o name loader placeholders)
      (findFitting o name loader placeholders) := by
  rw [findFitting_eq]
  refine .read fun c => ?_
  dsimp only
  have hcandidates : ((c.behind p).group name).filter (fun e => placeholders || !e.isPlaceholder) =
      ((c.group name).filter fun e => placeholders || !e.isPlaceholder).map (Entry.behind p) := by
    rw [group_behind, List.filter_map]
    simp only [Function.comp_def, Entry.isPlaceholder_behind]
  rw [hcandidates, List.isEmpty_map, List.find?_map, List.find?_map]
  simp only [Function.comp_def, sees_behind, isBelow_behind]
  generalize (c.group name).filter (fun e => placeholders || !e.isPlaceholder) = candidates
  split
  · exact .pure _
  · cases candidates.find? fun e => c.sees loader e with
    | some e => exact .pure (some e)
    | none =>
      cases candidates.find? fun e => c.isBelow loader e with
      | some e =>
        refine .bind (.update ?_) fun _ => .pure (some e)
        exact fun c => narrow_behind p c e loader
      | none =>
        refine .bind (definingLoader_renumbers name loader) fun l => ?_
        dsimp only [id]
        split
        · exact .pure none
        · rw [List.find?_map]
          simp only [Function.comp_def, loaderOf_behind]
          exact .pure _

/-! ### Loading -/

/-- A class that has just been read has no links yet. -/
theorem parsed_renumbers (o : Outside) (name : String) (bytes : Bytes) (loader : LoaderId) (location : Location) :
    Renumbers p (Option.map (LoadedClass.behind p))
      (do return some (.new (← Action.ofExcept (o.parseNamed name bytes)) loader location))
      (do return some (.new (← Action.ofExcept (o.parseNamed name bytes)) loader location)) :=
  .bind (.ofExcept _) fun _ => .pure (some _)

theorem loadSupplied_renumbers (name : String) (loader : LoaderId) :
    Renumbers p (Option.map (LoadedClass.behind p)) (loadSupplied o name loader) (loadSupplied o name loader) := by
  refine .read fun c => ?_
  rw [show (c.behind p).index.files = c.index.files from rfl,
    show (c.behind p).index.loaders = c.index.loaders from rfl]
  cases c.index.files.supplied.holder? name loader c.index.loaders with
  | none => exact .pure none
  | some holder =>
    refine .bind (onSources_renumbers _) fun found => ?_
    cases found with
    | none => exact .pure none
    | some bytes => exact parsed_renumbers o name bytes loader (.supplied holder)

theorem loadFromPath_renumbers (name : String) :
    Renumbers p (Option.map (LoadedClass.behind p)) (loadFromPath o name) (loadFromPath o name) := by
  refine .bind (onClassPath_renumbers none _) fun found => ?_
  cases found with
  | none => exact .pure none
  | some path =>
    refine .bind (onSources_renumbers _) fun found => ?_
    cases found with
    | none => exact .pure none
    | some bytes => exact parsed_renumbers o name bytes Loader.root (.path path)

theorem loadAt_renumbers (name : String) (loader : LoaderId) :
    Renumbers p (Option.map (LoadedClass.behind p)) (loadAt o name loader) (loadAt o name loader) := by
  refine .bind (loadSupplied_renumbers name loader) fun found => ?_
  cases found with
  | some k => exact .pure (some k)
  | none =>
    dsimp only [Option.map_none]
    split
    · exact loadFromPath_renumbers name
    · exact .pure none

theorem loadFirst_renumbers (name : String) (loaders : List LoaderId) :
    Renumbers p (Option.map (LoadedClass.behind p)) (loadFirst o name loaders) (loadFirst o name loaders) := by
  induction loaders with
  | nil => exact .pure none
  | cons l rest ih =>
    refine .bind (loadAt_renumbers name l) fun found => ?_
    cases found with
    | some k => exact .pure (some k)
    | none => exact ih

theorem reportMissing_renumbers (name : String) (loader : LoaderId) :
    Renumbers p id (reportMissing name loader) (reportMissing name loader) := by
  rw [reportMissing_eq]
  refine .read fun c => ?_
  show Renumbers p id _ (if c.index.missing.contains name then _ else _)
  split
  · exact .pure ()
  · refine .bind (.update ?_) fun _ => .report _
    exact fun _ => rfl

theorem load_renumbers (name : String) (loader : LoaderId) :
    Renumbers p (Option.map (LoadedClass.behind p)) (load o name loader) (load o name loader) := by
  refine .read fun c => .bind (loadFirst_renumbers name _) fun found => ?_
  cases found with
  | some k => exact .pure (some k)
  | none =>
    refine .bind (definingLoader_renumbers name loader) fun l => .bind (loadFirst_renumbers name _) fun found => ?_
    cases found with
    | some k => exact .pure (some k)
    | none => exact .bind (reportMissing_renumbers name loader) fun _ => .pure none

theorem noteUnusable_renumbers (name : String) (loader : LoaderId) (e : ClassError) :
    Renumbers p id (noteUnusable name loader e) (noteUnusable name loader e) := by
  unfold noteUnusable
  split
  · refine .bind (.update ?_) fun _ => .report _
    exact fun _ => rfl
  · exact .pure ()

theorem loadAndEnroll_renumbers (name : String) (loader : LoaderId) (placeholder : Option Nat) :
    Renumbers p (Option.map (p.classes.size + ·)) (loadAndEnroll o name loader placeholder)
      (loadAndEnroll o name loader (placeholder.map (p.placeholders.size + ·))) := by
  refine .read fun c => ?_
  show Renumbers p _ _ (if c.index.unusable.contains (name, loader) then _ else _)
  split
  · exact .pure none
  · refine .bind (load_renumbers name loader).attempt fun outcome => ?_
    rcases outcome with e | _ | k
    · exact .bind (noteUnusable_renumbers name loader e) fun _ => .fail e
    · exact .pure none
    · have henrolled : Renumbers p (Option.map (p.classes.size + ·))
          (do return some (← exchange fun c => c.enroll name placeholder k))
          (do return some (← exchange fun c =>
            c.enroll name (placeholder.map (p.placeholders.size + ·)) (k.behind p))) :=
        .bind (.exchange fun c => enroll_behind p c name placeholder k) fun id => .pure (some id)
      exact henrolled

/-! ### Looking up -/

theorem lookup_renumbers (name : String) (loader : LoaderId) :
    Renumbers p (Option.map (p.classes.size + ·)) (lookup o name loader) (lookup o name loader) := by
  refine .bind (findFitting_renumbers _ _ true) fun found => ?_
  rcases found with _ | id | placeholder | id
  · exact loadAndEnroll_renumbers _ _ none
  · exact .pure (some id)
  · exact loadAndEnroll_renumbers _ _ (some placeholder)
  · exact .pure none

theorem lookupOrPlaceholder_renumbers (name : String) (loader : LoaderId) :
    Renumbers p (Entry.behind p) (lookupOrPlaceholder o name loader) (lookupOrPlaceholder o name loader) := by
  refine .bind (findFitting_renumbers _ _ true) fun found => ?_
  cases found with
  | some e => exact .pure e
  | none =>
    have hnew : Renumbers p (Entry.behind p)
        (exchange fun c => c.newPlaceholder (Name.canonical name) (Loader.normalize loader))
        (exchange fun c => c.newPlaceholder (Name.canonical name) (Loader.normalize loader)) :=
      .exchange fun c => newPlaceholder_behind ..
    exact hnew

/-! ### Linking -/

theorem resolveSuper_renumbers (id' : ClassId) (loader : LoaderId) (sup : String) :
    Renumbers p id (resolveSuper o id' loader sup) (resolveSuper o (p.classes.size + id') loader sup) := by
  refine .bind (lookup_renumbers sup loader) fun found => ?_
  cases found with
  | some found => exact .update fun c => link_behind p c id' found
  | none =>
    refine .bind (lookupOrPlaceholder_renumbers sup loader) fun e => ?_
    cases e with
    | placeholder x =>
      refine .update fun c => modifyPlaceholder_behind c ?_ x
      exact fun x => x.addSubclass_behind p id'
    | loaded _ | special _ => exact .pure ()

theorem resolveInterfaces_renumbers (id' : ClassId) (loader : LoaderId) (names : List String) :
    Renumbers p id (resolveInterfaces o id' loader names)
      (resolveInterfaces o (p.classes.size + id') loader names) := by
  induction names with
  | nil => exact .pure ()
  | cons name rest ih =>
    refine .bind (lookup_renumbers name loader) fun found => ?_
    cases found with
    | some found =>
      refine .bind (.update fun c => modifyClass_behind c id' ?_) fun _ => ih
      exact fun k => k.addInterface_behind p found
    | none => exact ih

theorem resolveHierarchy_renumbers (id' : ClassId) :
    Renumbers p id (resolveHierarchy o id') (resolveHierarchy o (p.classes.size + id')) := by
  refine .read fun c => ?_
  rw [show (c.behind p).population.class? _ = _ from Population.class?_append ..]
  cases c.population.class? id' with
  | none => exact .pure ()
  | some k =>
    have hinterfaces := resolveInterfaces_renumbers (p := p) (o := o) id' k.loader k.record.interfaces
    dsimp only [Option.map_some, LoadedClass.record_behind, LoadedClass.loader_behind]
    cases k.record.superName with
    | some sup => exact .bind (g := id) (resolveSuper_renumbers id' k.loader sup) fun _ => hinterfaces
    | none => exact hinterfaces

/-! ### Regions -/

theorem regionIn_renumbers (id' : ClassId) (k : LoadedClass) (method : Nat) (m : ClassFile.Method)
    (first start stop : Nat) :
    Renumbers p id (regionIn id' k method m first start stop)
      (regionIn (p.classes.size + id') (k.behind p) method m first start stop) := by
  unfold regionIn
  dsimp only [LoadedClass.record_behind]
  cases k.record.findLine (endLine k.record method stop) with
  | found other last => exact .pure _
  | noDebugInfo | notFound => exact .bind (bytecode_renumbers none id' method) fun code => .pure (some _)

theorem regionInNested_renumbers (loader : LoaderId) (outer : String)
    {search search' : ClassId → Action Catalog (Option Region)}
    (h : ∀ id', Renumbers p id (search id') (search' (p.classes.size + id'))) (names : List String) :
    Renumbers p id (regionInNested o loader outer search names) (regionInNested o loader outer search' names) := by
  induction names with
  | nil => exact .pure none
  | cons nested rest ih =>
    unfold regionInNested
    split
    · exact ih
    · refine .bind (lookup_renumbers nested loader) fun found => ?_
      cases found with
      | none => exact ih
      | some found =>
        refine .bind (h found).attempt fun outcome => ?_
        rcases outcome with e | _ | region
        · cases e <;> first | exact .pure none | exact .fail _
        · exact ih
        · exact .pure (some region)

theorem regionFrom_renumbers (start stop depth : Nat) (id' : ClassId) :
    Renumbers p id (regionFrom o start stop depth id') (regionFrom o start stop depth (p.classes.size + id')) := by
  induction depth generalizing id' with
  | zero => exact .pure none
  | succ depth ih =>
    refine .read fun c => ?_
    rw [show (c.behind p).population.class? _ = _ from Population.class?_append ..]
    cases c.population.class? id' with
    | none => exact .pure none
    | some k =>
      have hnested := regionInNested_renumbers (o := o) k.loader k.name ih k.record.nested
      have hregion := regionIn_renumbers (p := p) id' k
      dsimp only [Option.map_some, LoadedClass.record_behind, LoadedClass.loader_behind, LoadedClass.name_behind]
      cases k.record.findLine start with
      | noDebugInfo => exact .fail _
      | notFound => exact hnested
      | found method first =>
        dsimp only
        cases k.record.methods[method]? with
        | none => exact .pure none
        | some m =>
          dsimp only
          split
          · refine .bind hnested fun found => ?_
            cases found with
            | some region => exact .pure (some region)
            | none => exact hregion method m first start stop
          · exact hregion method m first start stop

theorem regionForLines_renumbers (id' : ClassId) (start stop : Nat) :
    Renumbers p id (regionForLines o id' start stop) (regionForLines o (p.classes.size + id') start stop) := by
  unfold regionForLines
  split
  · exact .pure none
  · exact regionFrom_renumbers start stop _ id'

theorem wholeMethod_renumbers (id' : ClassId) (name signature : String) :
    Renumbers p id (wholeMethod id' name signature) (wholeMethod (p.classes.size + id') name signature) := by
  refine .read fun c => ?_
  rw [show (c.behind p).population.class? _ = _ from Population.class?_append ..]
  cases c.population.class? id' with
  | none => exact .pure none
  | some k =>
    dsimp only [Option.map_some, LoadedClass.record_behind, LoadedClass.name_behind]
    cases k.record.methodIndex? name signature with
    | none => exact .pure none
    | some i => exact .bind (bytecodeLength_renumbers 0 id' i) fun length => .pure (some _)

/-! ### Requests -/

/-- The request with the numbers that entries have behind a population. -/
def Request.behind (p : Population) : Request → Request
  | .resolveHierarchy id => .resolveHierarchy (p.classes.size + id)
  | .regionForLines id start stop => .regionForLines (p.classes.size + id) start stop
  | .wholeMethod id name signature => .wholeMethod (p.classes.size + id) name signature
  | .setRoots placeholder => .setRoots (p.placeholders.size + placeholder)
  | .setMarkers placeholder => .setMarkers (p.placeholders.size + placeholder)
  | .addSubclass placeholder id => .addSubclass (p.placeholders.size + placeholder) (p.classes.size + id)
  | r => r

def Answer.behind (p : Population) : Answer → Answer
  | .entry e => .entry (e.map (Entry.behind p))
  | a => a

theorem change_renumbers {f : Catalog → Catalog} (h : ∀ c, f (c.behind p) = (f c).behind p) :
    Renumbers p (Answer.behind p) (change f) (change f) :=
  .bind (.update h) fun _ => .pure Answer.done

theorem provide_renumbers {f f' : Catalog → Entry × Catalog}
    (h : ∀ c, f' (c.behind p) = ((f c).1.behind p, (f c).2.behind p)) :
    Renumbers p (Answer.behind p) (provide f) (provide f') := by
  have hprovided : Renumbers p (Answer.behind p) (do return .entry (some (← exchange f)))
      (do return .entry (some (← exchange f'))) := .bind (.exchange h) fun e => .pure (Answer.entry (some e))
  exact hprovided

theorem note_renumbers (placeholder : Nat) {f f' : Placeholder → Placeholder}
    (h : ∀ x, f' (x.behind p) = (f x).behind p) :
    Renumbers p (Answer.behind p) (note placeholder f) (note (p.placeholders.size + placeholder) f') :=
  provide_renumbers fun c => Prod.ext rfl (modifyPlaceholder_behind c h placeholder)

/-- A request does to a catalog behind the population what it does to the catalog. -/
theorem perform_renumbers (r : Request) : Renumbers p (Answer.behind p) (perform o r) (perform o (r.behind p)) := by
  cases r with
  | initClassPath | initLoaders _ | addLoader _ _ | addSupplied _ _ _ | announce _ _ | clear | close =>
    exact change_renumbers fun _ => rfl
  | lookup name loader =>
    refine .bind (lookup_renumbers name loader) fun found => ?_
    cases found with
    | some id => exact .pure (Answer.entry (some (.loaded id)))
    | none => exact .pure (Answer.entry none)
  | lookupOrPlaceholder name loader =>
    exact .bind (lookupOrPlaceholder_renumbers name loader) fun e => .pure (Answer.entry (some e))
  | lookupRegistered name loader placeholders =>
    exact .bind (findFitting_renumbers _ _ placeholders) fun e => .pure (Answer.entry e)
  | special name => exact provide_renumbers fun c => special_behind p c name
  | addPlaceholder name loader => exact provide_renumbers fun c => addPlaceholder_behind p c name loader
  | defining name loader => exact .bind (definingLoader_renumbers _ loader) fun l => .pure (Answer.loader l)
  | classPathNames => exact .bind (onClassPath_renumbers [] _) fun names => .pure (Answer.names names)
  | resolveHierarchy id => exact .bind (resolveHierarchy_renumbers id) fun _ => .pure Answer.done
  | regionForLines id start stop =>
    exact .bind (regionForLines_renumbers id start stop) fun region => .pure (Answer.region region)
  | wholeMethod id name signature =>
    exact .bind (wholeMethod_renumbers id name signature) fun region => .pure (Answer.region region)
  | setRoots x =>
    refine note_renumbers x ?_
    exact fun _ => rfl
  | setMarkers x =>
    refine note_renumbers x ?_
    exact fun _ => rfl
  | addSubclass x id => exact note_renumbers x fun y => y.addSubclass_behind p id

/-- So does a run of requests. -/
theorem run_renumbers (requests : List (Outside × Request)) :
    Renumbers p (List.map (Except.map (Answer.behind p))) (run requests)
      (run (requests.map (Prod.map id (Request.behind p)))) := by
  induction requests with
  | nil => exact .pure []
  | cons x rest ih =>
    exact .bind (perform_renumbers x.2).attempt fun a => .bind ih fun answers => .pure (a :: answers)

end ClassCatalog.Catalog
