import ClassCatalog.Catalog.Request
import ClassCatalog.Proofs.Action
import ClassCatalog.Proofs.Loader
import ClassCatalog.Proofs.Name

/-! Requests part by part.

A request finds an entry, loads a class, links two, and so on, and does little besides. A property of actions
that compositions have from their parts (`Traverses`) every request has if all of these `Parts` have it
(`Parts.perform`), or the operations that are made of them (`Stages.perform`). Loading is taken apart further,
down to what reads bytes (`Traverses.load`).

A property may also have to do with what a part finds in the state and acts upon. Then it matters that a request
does not look at everything: of the graph of loaders it sees the ancestries alone, and of the bytes that have been
supplied only a search for them sees anything. -/
namespace ClassCatalog.Catalog
open ClassCatalog.Action Cache

/-- The catalog with another record of its loaders and of the bytes supplied to them. -/
def recast (c : Catalog) (g : Loader.Graph) (s : Supplied) : Catalog :=
  c.modifyIndex fun i => { i with loaders := g, files := { i.files with supplied := s } }

section Recast
variable (c : Catalog) (g : Loader.Graph) (x : Supplied)

@[simp] theorem population_recast : (c.recast g x).population = c.population := rfl

@[simp] theorem group_recast (name : String) : (c.recast g x).group name = c.group name := rfl

@[simp] theorem loaderOf_recast : (c.recast g x).loaderOf = c.loaderOf := rfl

theorem sees_recast {g : Loader.Graph} (hg : g.ancestry = c.index.loaders.ancestry) :
    (c.recast g x).sees = c.sees := by
  funext loader e
  have hancestor : (c.recast g x).index.loaders.isAncestor = c.index.loaders.isAncestor :=
    Loader.Graph.isAncestor_congr hg
  unfold sees
  rw [hancestor, loaderOf_recast]

theorem isBelow_recast {g : Loader.Graph} (hg : g.ancestry = c.index.loaders.ancestry) :
    (c.recast g x).isBelow = c.isBelow := by
  funext loader e
  have hancestor : (c.recast g x).index.loaders.isAncestor = c.index.loaders.isAncestor :=
    Loader.Graph.isAncestor_congr hg
  unfold isBelow
  rw [hancestor, population_recast]

end Recast

/-- A property of actions on a catalog that a composition has if its parts have it, also one whose later parts
depend on what the catalog is, other than through the record of its loaders and of what was supplied to them. -/
structure Traverses (P : ⦃α : Type⦄ → Action Catalog α → Prop) : Prop extends Composes P where
  read : ∀ {α : Type} {f : Catalog → Action Catalog α},
    (∀ c g s, g.ancestry = c.index.loaders.ancestry → f (c.recast g s) = f c) → (∀ c, P (f c)) →
      P (Action.state >>= f)

/-- A property that a composition has whatever its later parts depend on. -/
structure Surveys (P : ⦃α : Type⦄ → Action Catalog α → Prop) : Prop extends Traverses P where
  survey : ∀ {α : Type} {f : Catalog → Action Catalog α}, (∀ c, P (f c)) → P (Action.state >>= f)

theorem Composes.surveys {P : ⦃α : Type⦄ → Action Catalog α → Prop} (h : Composes P) (hstate : P Action.state) :
    Surveys P where
  toComposes := h
  read _ := h.bind hstate
  survey := h.bind hstate

theorem surveys_leads (R : Scene Catalog → Scene Catalog → Prop) [IsPreorder (Scene Catalog) R] :
    Surveys fun _ a => Leads R a :=
  Composes.surveys (composes_leads R) fun s => refl_of R s

theorem surveys_keeps (R : Catalog → Catalog → Prop) [IsPreorder Catalog R] : Surveys fun _ a => Keeps R a :=
  Composes.surveys (Keeps.composes R) .state

/-! Two of the parts write what they have read, changed in one place; they change that place. -/

theorem findFitting_eq (o : Outside) (name : String) (loader : LoaderId) (placeholders : Bool) :
    findFitting o name loader placeholders = (do
      let c ← Action.state
      let candidates := (c.group name).filter fun e => placeholders || !e.isPlaceholder
      if candidates.isEmpty then return none
      else
        match candidates.find? (c.sees loader) with
        | some e => return some e
        | none =>
          match candidates.find? (c.isBelow loader) with
          | some e =>
            Action.update fun c => c.narrow loader e
            return some e
          | none =>
            let l ← definingLoader o name loader
            if l = Loader.none then return none
            else return candidates.find? fun e => c.loaderOf e = some l) := by
  refine Action.ext fun s => ?_
  unfold findFitting
  rw [start_state_bind, start_state_bind]
  dsimp only
  generalize (s.state.group name).filter (fun e => placeholders || !e.isPlaceholder) = l
  split
  · rfl
  · cases l.find? (s.state.sees loader) with
    | some e => rfl
    | none =>
      cases l.find? (s.state.isBelow loader) with
      | some e => rfl
      | none => rfl

theorem reportMissing_eq (name : String) (loader : LoaderId) :
    reportMissing name loader = (do
      let c ← Action.state
      if c.index.missing.contains name then return ()
      else
        Action.update fun c => c.modifyIndex fun i => { i with missing := i.missing ++ [name] }
        Action.report (.missing name loader)) := by
  refine Action.ext fun s => ?_
  unfold reportMissing
  rw [start_state_bind, start_state_bind]
  split
  · rfl
  · rfl

namespace Traverses
variable {P : ⦃α : Type⦄ → Action Catalog α → Prop} {o : Outside} {name : String} (hP : Traverses P)
include hP

/-! ### Loading -/

theorem loadFromPath (hlocate : P (onClassPath none (o.locate name)))
    (hread : ∀ path, P (onSources (o.classBytes none name (.path path)))) :
    P (Catalog.loadFromPath o name) := by
  refine hP.bind hlocate fun found => ?_
  split
  · exact hP.pure _
  · refine hP.bind (hread _) fun bytes => ?_
    split
    · exact hP.pure _
    · exact hP.bind (hP.ofExcept _) fun _ => hP.pure _

theorem loadAt {loader : LoaderId} (hsupplied : P (Catalog.loadSupplied o name loader))
    (hpath : loader = Loader.root → P (Catalog.loadFromPath o name)) : P (Catalog.loadAt o name loader) := by
  refine hP.bind hsupplied fun found => ?_
  split
  · exact hP.pure _
  · split
    · rename_i hroot
      exact hpath hroot
    · exact hP.pure _

theorem loadFirst {loaders : List LoaderId} (h : ∀ l ∈ loaders, P (Catalog.loadAt o name l)) :
    P (Catalog.loadFirst o name loaders) := by
  induction loaders with
  | nil => exact hP.pure _
  | cons l rest ih =>
    refine hP.bind (h l (List.mem_cons_self ..)) fun found => ?_
    split
    · exact hP.pure _
    · exact ih fun m hm => h m (List.mem_cons_of_mem _ hm)

/-- The missing loader is not tried unless it is the one asked for. -/
theorem load {loader : LoaderId}
    (h : ∀ loaders, (loader ≠ Loader.none → Loader.none ∉ loaders) → P (Catalog.loadFirst o name loaders))
    (hdefining : P (definingLoader o name loader)) (hmissing : P (reportMissing name loader)) :
    P (Catalog.load o name loader) := by
  refine hP.read (fun c g s hg => ?_) fun c => hP.bind (h _ fun hl hnone => ?_) fun found => ?_
  · show (Catalog.loadFirst o name (g.ancestry loader) >>= _) = _
    simp only [recast, modifyIndex, hg]
  · exact Loader.Graph.ne_none_of_mem_ancestry hl hnone rfl
  · split
    · exact hP.pure _
    · refine hP.bind hdefining fun l => hP.bind (h _ fun _ hnone => ?_) fun found => ?_
      · split at hnone
        · cases hnone
        · rename_i hothers
          exact hothers (Bool.or_eq_true_iff.mpr (.inl (decide_eq_true (List.mem_singleton.mp hnone).symm)))
      · split
        · exact hP.pure _
        · exact hP.bind hmissing fun _ => hP.pure _

theorem loadAndEnroll {loader : LoaderId} {placeholder : Option Nat} (hload : P (Catalog.load o name loader))
    (hunusable : ∀ e, P (noteUnusable name loader e))
    (henroll : ∀ k, P (exchange fun c => c.enroll name placeholder k)) :
    P (Catalog.loadAndEnroll o name loader placeholder) := by
  refine hP.read (fun _ _ _ _ => rfl) fun c => ?_
  split
  · exact hP.pure _
  · refine hP.bind (hP.attempt hload) fun outcome => ?_
    split
    · exact hP.bind (hunusable _) fun _ => hP.fail _
    · exact hP.pure _
    · rename_i k
      have henrolled := hP.bind (henroll k) fun id => hP.pure (some id)
      exact henrolled

/-! ### Looking up and linking -/

/-- Classes are loaded by their names in the catalog. -/
theorem lookup (hfind : ∀ name loader placeholders, P (findFitting o name loader placeholders))
    (hload : ∀ name loader placeholder, Name.canonical name = name → loader ≠ Loader.none →
      P (Catalog.loadAndEnroll o name loader placeholder)) (name : String) (loader : LoaderId) :
    P (Catalog.lookup o name loader) := by
  have hcanonical := Name.canonical_canonical name
  refine hP.bind (hfind _ _ true) fun found => ?_
  split
  · exact hP.pure _
  · exact hP.pure _
  · exact hload _ _ _ hcanonical (Loader.normalize_ne_none loader)
  · exact hload _ _ _ hcanonical (Loader.normalize_ne_none loader)

theorem lookupOrPlaceholder (hfind : ∀ name loader placeholders, P (findFitting o name loader placeholders))
    (hnew : ∀ name loader, P (exchange fun c => c.newPlaceholder name loader)) (name : String)
    (loader : LoaderId) : P (Catalog.lookupOrPlaceholder o name loader) := by
  refine hP.bind (hfind _ _ true) fun found => ?_
  split
  · exact hP.pure _
  · exact hnew _ _

theorem resolveInterfaces (hlookup : ∀ name loader, P (Catalog.lookup o name loader)) {id : ClassId}
    (hadd : ∀ found, P (Action.update fun c => c.modifyClass id fun k => k.addInterface found))
    (loader : LoaderId) (names : List String) : P (Catalog.resolveInterfaces o id loader names) := by
  induction names with
  | nil => exact hP.pure _
  | cons name rest ih =>
    refine hP.bind (hlookup name loader) fun found => ?_
    split
    · exact hP.bind (hadd _) fun _ => ih
    · exact ih

theorem resolveSuper (hlookup : ∀ name loader, P (Catalog.lookup o name loader))
    (hexpect : ∀ name loader, P (Catalog.lookupOrPlaceholder o name loader)) {id : ClassId}
    (hlink : ∀ sup, P (Action.update fun c => c.link id sup))
    (hnote : ∀ p, P (Action.update fun c => c.modifyPlaceholder p fun x => x.addSubclass id))
    (loader : LoaderId) (sup : String) : P (Catalog.resolveSuper o id loader sup) := by
  refine hP.bind (hlookup sup loader) fun found => ?_
  split
  · exact hlink _
  · refine hP.bind (hexpect sup loader) fun e => ?_
    split
    · exact hnote _
    · exact hP.pure _

/-! ### Regions -/

/-- The bytecode of a method is all that is looked at besides the record. -/
theorem regionIn (hcode : ∀ id i, P (onClass none id (LoadedClass.bytecode i))) (id : ClassId)
    (k : LoadedClass) (method : Nat) (m : ClassFile.Method) (first start stop : Nat) :
    P (Catalog.regionIn id k method m first start stop) := by
  unfold Catalog.regionIn
  dsimp only
  split
  · exact hP.pure _
  · exact hP.bind (hcode id method) fun _ => hP.pure _

theorem regionInNested (hlookup : ∀ name loader, P (Catalog.lookup o name loader)) (loader : LoaderId)
    (outer : String) {search : ClassId → Action Catalog (Option Region)} (h : ∀ id, P (search id))
    (names : List String) : P (Catalog.regionInNested o loader outer search names) := by
  induction names with
  | nil => exact hP.pure _
  | cons nested rest ih =>
    unfold Catalog.regionInNested
    split
    · exact ih
    · apply hP.bind (hlookup nested loader)
      intro found
      split
      · exact ih
      · apply hP.bind (hP.attempt (h _))
        intro outcome
        split
        · exact hP.pure _
        · exact ih
        · exact hP.pure _
        · exact hP.fail _

theorem regionFrom (hlookup : ∀ name loader, P (Catalog.lookup o name loader))
    (hcode : ∀ id i, P (onClass none id (LoadedClass.bytecode i))) (start stop depth : Nat)
    (id : ClassId) : P (Catalog.regionFrom o start stop depth id) := by
  induction depth generalizing id with
  | zero => exact hP.pure _
  | succ depth ih =>
    refine hP.read (fun _ _ _ _ => rfl) fun c => ?_
    split
    · exact hP.pure _
    · rename_i k _
      have hnested := hP.regionInNested hlookup k.loader k.name ih k.record.nested
      dsimp only
      split
      · exact hP.fail _
      · exact hnested
      · split
        · exact hP.pure _
        · split
          · refine hP.bind hnested fun found => ?_
            split
            · exact hP.pure _
            · exact hP.regionIn hcode id k _ _ _ start stop
          · exact hP.regionIn hcode id k _ _ _ start stop

theorem regionForLines (hlookup : ∀ name loader, P (Catalog.lookup o name loader))
    (hcode : ∀ id i, P (onClass none id (LoadedClass.bytecode i))) (id : ClassId) (start stop : Nat) :
    P (Catalog.regionForLines o id start stop) := by
  unfold Catalog.regionForLines
  split
  · exact hP.pure _
  · exact hP.regionFrom hlookup hcode start stop _ id

theorem wholeMethod {id : ClassId} (hlength : ∀ i, P (onClass 0 id (LoadedClass.bytecodeLength i)))
    (name signature : String) : P (Catalog.wholeMethod id name signature) := by
  refine hP.read (fun _ _ _ _ => rfl) fun c => ?_
  split
  · exact hP.pure _
  · split
    · exact hP.pure _
    · exact hP.bind (hlength _) fun _ => hP.pure _

/-! ### Parts -/

theorem onClassPath {α : Type} {absent : α} {a : Action ClassPath α}
    (h : ∀ cp, P (Action.within (fun _ => cp)
      (fun c cp => c.modifyIndex fun i => { i with classPath := some cp }) a)) :
    P (Catalog.onClassPath absent a) := by
  refine hP.read (fun _ _ _ _ => rfl) fun c => ?_
  split
  · exact hP.pure _
  · exact h _

theorem onClass {α : Type} {absent : α} {id : ClassId} {a : Action LoadedClass α}
    (h : ∀ k, P (Action.within (fun _ => k) (fun c k => c.modifyClass id fun _ => k) a)) :
    P (Catalog.onClass absent id a) := by
  refine hP.read (fun _ _ _ _ => rfl) fun c => ?_
  split
  · exact hP.pure _
  · exact h _

theorem findFitting {loader : LoaderId} {placeholders : Bool}
    (hnarrow : ∀ e, P (Action.update fun c => c.narrow loader e)) (hdefining : P (definingLoader o name loader)) :
    P (Catalog.findFitting o name loader placeholders) := by
  rw [findFitting_eq]
  refine hP.read (fun c g x hg => ?_) fun c => ?_
  · dsimp only
    rw [group_recast, sees_recast c x hg, isBelow_recast c x hg, loaderOf_recast]
  · dsimp only
    split
    · exact hP.pure _
    · split
      · exact hP.pure _
      · split
        · exact hP.bind (hnarrow _) fun _ => hP.pure _
        · refine hP.bind hdefining fun l => ?_
          split
          · exact hP.pure _
          · exact hP.pure _

theorem reportMissing {loader : LoaderId}
    (hmissing : P (Action.update fun c => c.modifyIndex fun i => { i with missing := i.missing ++ [name] }))
    (hreport : P (Action.report (.missing name loader))) : P (Catalog.reportMissing name loader) := by
  rw [reportMissing_eq]
  refine hP.read (fun _ _ _ _ => rfl) fun c => ?_
  split
  · exact hP.pure _
  · exact hP.bind hmissing fun _ => hreport

theorem noteUnusable {loader : LoaderId} {e : ClassError}
    (hunusable : P (Action.update fun c =>
      c.modifyIndex fun i => { i with unusable := i.unusable ++ [(name, loader)] }))
    (hreport : P (Action.report (.unusable name loader))) : P (Catalog.noteUnusable name loader e) := by
  unfold Catalog.noteUnusable
  split
  · exact hP.bind hunusable fun _ => hreport
  · exact hP.pure _

/-! ### Requests -/

theorem provide {f : Catalog → Entry × Catalog} (h : P (exchange f)) : P (Catalog.provide f) := by
  have hprovided := hP.bind h fun e => hP.pure (Answer.entry (some e))
  exact hprovided

end Traverses

namespace Surveys
variable {P : ⦃α : Type⦄ → Action Catalog α → Prop} {o : Outside} {name : String} (hP : Surveys P)
include hP

theorem loadSupplied
    (hsupplied : ∀ l, P (onSources (o.classBytes o.client name (.supplied l))))
    (loader : LoaderId) : P (Catalog.loadSupplied o name loader) := by
  refine hP.survey fun c => ?_
  split
  · exact hP.pure _
  · refine hP.bind (hsupplied _) fun found => ?_
    split
    · exact hP.pure _
    · exact hP.bind (hP.ofExcept _) fun _ => hP.pure _

/-- All that loading does besides is to locate classes and to read them. -/
theorem loadFirst_of_sources (hlocate : P (onClassPath none (o.locate name)))
    (hread : ∀ client location, P (onSources (o.classBytes client name location)))
    (loaders : List LoaderId) : P (Catalog.loadFirst o name loaders) := by
  have hpath := hP.loadFromPath hlocate fun path => hread none (.path path)
  have hsupplied := hP.loadSupplied fun l => hread o.client (.supplied l)
  exact hP.loadFirst fun l _ => hP.loadAt (hsupplied l) fun _ => hpath

end Surveys

/-- What is noted on a placeholder. -/
inductive Note : (Placeholder → Placeholder) → Prop where
  | roots : Note fun p => { p with allRoots := true }
  | markers : Note fun p => { p with allMarkers := true }
  | subclass (id : ClassId) : Note fun p => p.addSubclass id

/-- The parts of requests have the property. -/
structure Parts (o : Outside) (P : ⦃α : Type⦄ → Action Catalog α → Prop) : Prop extends Traverses P where
  find : ∀ name loader placeholders, P (findFitting o name loader placeholders)
  load : ∀ name loader placeholder, loader ≠ Loader.none → P (loadAndEnroll o name loader placeholder)
  defining : ∀ name loader, P (definingLoader o name loader)
  list : P (classPathNames o)
  code : ∀ id i, P (onClass none id (LoadedClass.bytecode i))
  length : ∀ id i, P (onClass 0 id (LoadedClass.bytecodeLength i))
  expected : ∀ name loader, P (exchange fun c => c.newPlaceholder name loader)
  placeholder : ∀ name loader, P (exchange fun c => c.addPlaceholder name loader)
  special : ∀ name, P (exchange fun c => c.special name)
  noted : ∀ p f, Note f → P (Action.update fun c => c.modifyPlaceholder p f)
  linked : ∀ sub sup, P (Action.update fun c => c.link sub sup)
  implemented : ∀ id found, P (Action.update fun c => c.modifyClass id fun k => k.addInterface found)

/-- Whether a request does nothing but change the catalog. -/
def Request.isChange : Request → Bool
  | initClassPath | initLoaders _ | addLoader _ _ | addSupplied _ _ _ | announce _ _ | clear | close => true
  | _ => false

/-- The operations that requests are made of have the property. They are asked by names as callers write them. -/
structure Stages (o : Outside) (P : ⦃α : Type⦄ → Action Catalog α → Prop) : Prop extends Traverses P where
  lookup : ∀ name loader, P (Catalog.lookup o name loader)
  expect : ∀ name loader, P (Catalog.lookupOrPlaceholder o name loader)
  registered : ∀ name loader placeholders, P (Catalog.lookupRegistered o name loader placeholders)
  defining : ∀ name loader, P (Catalog.defining o name loader)
  list : P (classPathNames o)
  code : ∀ id i, P (onClass none id (LoadedClass.bytecode i))
  length : ∀ id i, P (onClass 0 id (LoadedClass.bytecodeLength i))
  placeholder : ∀ name loader, P (exchange fun c => c.addPlaceholder name loader)
  special : ∀ name, P (exchange fun c => c.special name)
  noted : ∀ p f, Note f → P (Action.update fun c => c.modifyPlaceholder p f)
  linked : ∀ sub sup, P (Action.update fun c => c.link sub sup)
  implemented : ∀ id found, P (Action.update fun c => c.modifyClass id fun k => k.addInterface found)

section
variable {o : Outside} {P : ⦃α : Type⦄ → Action Catalog α → Prop}

theorem Stages.note (h : Stages o P) (p : Nat) {f : Placeholder → Placeholder} (hf : Note f) :
    P (Catalog.note p f) := by
  have hnoted := h.bind (h.noted p f hf) fun _ => h.pure (Answer.entry (some (.placeholder p)))
  exact hnoted

theorem Stages.perform (h : Stages o P) {r : Request} (hr : r.isChange = false) : P (Catalog.perform o r) := by
  cases r with
  | initClassPath | initLoaders _ | addLoader _ _ | addSupplied _ _ _ | announce _ _ | clear | close =>
    cases hr
  | lookup name loader => exact h.bind (h.lookup name loader) fun _ => h.pure _
  | lookupOrPlaceholder name loader => exact h.bind (h.expect name loader) fun _ => h.pure _
  | lookupRegistered name loader placeholders => exact h.bind (h.registered _ _ placeholders) fun _ => h.pure _
  | special name => exact h.provide (h.special name)
  | addPlaceholder name loader => exact h.provide (h.placeholder name loader)
  | defining name loader => exact h.bind (h.defining _ loader) fun _ => h.pure _
  | classPathNames => exact h.bind h.list fun _ => h.pure _
  | resolveHierarchy id =>
    have hsuper := h.resolveSuper h.lookup h.expect (h.linked id) fun p => h.noted p _ (.subclass id)
    have hinterfaces := h.resolveInterfaces h.lookup (h.implemented id)
    refine h.bind (h.read (fun _ _ _ _ => rfl) fun c => ?_) fun _ => h.pure _
    split
    · exact h.pure _
    · split
      · exact h.bind (hsuper _ _) fun _ => hinterfaces _ _
      · exact hinterfaces _ _
  | regionForLines id start stop => exact h.bind (h.regionForLines h.lookup h.code id start stop) fun _ => h.pure _
  | wholeMethod id name signature => exact h.bind (h.wholeMethod (h.length id) name signature) fun _ => h.pure _
  | setRoots p => exact h.note p .roots
  | setMarkers p => exact h.note p .markers
  | addSubclass p id => exact h.note p (.subclass id)

theorem Parts.stages (h : Parts o P) : Stages o P where
  toTraverses := h.toTraverses
  lookup := h.toTraverses.lookup h.find fun name loader placeholder _ => h.load name loader placeholder
  expect := h.lookupOrPlaceholder h.find h.expected
  registered _ _ placeholders := h.find _ _ placeholders
  defining _ loader := h.defining _ loader
  list := h.list
  code := h.code
  length := h.length
  placeholder := h.placeholder
  special := h.special
  noted := h.noted
  linked := h.linked
  implemented := h.implemented

theorem Parts.perform (h : Parts o P) {r : Request} (hr : r.isChange = false) : P (Catalog.perform o r) :=
  h.stages.perform hr

end

/-! ### Relations that requests keep -/

variable {R : Catalog → Catalog → Prop}

theorem provide_keeps {f : Catalog → Entry × Catalog} (h : ∀ c, R c (f c).2) : Keeps R (provide f) :=
  Keeps.state_bind fun s => h s.state

theorem change_keeps {f : Catalog → Catalog} [IsPreorder Catalog R] (h : ∀ c, R c (f c)) : Keeps R (change f) :=
  (Keeps.update h).bind fun _ => .pure _

/-- A class becomes what the action makes of it. -/
theorem onClass_keeps [IsPreorder Catalog R] {α : Type} {absent : α} {id : ClassId} {a : Action LoadedClass α}
    (h : ∀ (c : Catalog) k told, c.population.class? id = some k →
      R c (c.modifyClass id fun _ => (a.start ⟨k, told⟩).2.state)) : Keeps R (onClass absent id a) := by
  refine Keeps.state_bind fun s => ?_
  cases hk : s.state.population.class? id with
  | none => exact refl_of R s.state
  | some k => exact h s.state k s.journal hk

/-- A special class is there, or it is made. -/
theorem special_of_new [IsPreorder Catalog R] (h : ∀ c name, R c (newSpecial c name).2) (c : Catalog)
    (name : String) : R c (c.special name).2 := by
  unfold Catalog.special
  dsimp only
  split
  · exact refl_of R c
  · exact h c _

/-- A placeholder at a loader is there, or it is made. -/
theorem addPlaceholder_of_new [IsPreorder Catalog R] (h : ∀ c name loader, R c (newPlaceholder c name loader).2)
    (c : Catalog) (name : String) (loader : LoaderId) : R c (c.addPlaceholder name loader).2 := by
  unfold Catalog.addPlaceholder
  dsimp only
  split
  · exact refl_of R c
  · exact h c _ _

end ClassCatalog.Catalog
