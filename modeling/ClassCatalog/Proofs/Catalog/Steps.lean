import Mathlib.Logic.Relation
import ClassCatalog.Proofs.Catalog.Lookup
import ClassCatalog.Proofs.Catalog.Run
import ClassCatalog.Proofs.Loaded.Calls

/-! The steps a catalog goes.

A catalog is changed in few ways, one for each constructor of `Step`. Every request, whether it succeeds or
fails, goes some of these steps one after the other (`perform_steps`), except for those that forget entries
or change the loaders. What is claimed of sessions is proved for a step and then holds of every request. Calls
on classes are another matter (`call_keeps`). -/
namespace ClassCatalog

/-- The same class, but for its interfaces and for what is remembered of its methods. -/
structure LoadedClass.Alike (k k' : LoadedClass) : Prop where
  record : k'.record = k.record
  loader : k'.loader = k.loader
  superClass : k'.superClass = k.superClass
  notes : k'.notes = k.notes

instance : IsPreorder LoadedClass LoadedClass.Alike where
  refl _ := ⟨rfl, rfl, rfl, rfl⟩
  trans _ _ _ h h' := {
    record := h'.record.trans h.record
    loader := h'.loader.trans h.loader
    superClass := h'.superClass.trans h.superClass
    notes := h'.notes.trans h.notes }

theorem LoadedClass.Alike.grows {k k' : LoadedClass} (h : k.Alike k') : k.Grows k' :=
  ⟨h.record, h.loader, le_of_eq h.notes.symm⟩

namespace Catalog
open ClassCatalog.Action Relation

inductive Step (c : Catalog) : Catalog → Prop where
  | quiet {d : Catalog} (h : Quiet c d) : Step c d
  /-- An entry is found; a placeholder may be narrowed for it. -/
  | fitted {d : Catalog} {name : String} {loader : LoaderId} {placeholders : Bool} {e : Entry}
      (h : Fits c name loader placeholders e d) : Step c d
  /-- A class is loaded for `loader` and registered, in the place of the placeholder that fitted. -/
  | enrolled {name : String} {loader l : LoaderId} {k : LoadedClass} {placeholder : Option Nat}
      (hk : Fresh name l k) (hl : l ≠ Loader.none)
      (hfound : l ∈ c.index.loaders.ancestry loader ∨ c.index.defining.get? (name, loader) = some l)
      (hplace : ∀ p, placeholder = some p →
        Entry.placeholder p ∈ c.group name ∧ c.Reaches name loader (.placeholder p)) :
      Step c (c.enroll name placeholder k).2
  | expected (name : String) (loader : LoaderId)
      (hnew : ∀ e ∈ c.group name, e.isPlaceholder = true → c.loaderOf e ≠ some loader) :
      Step c (c.newPlaceholder name loader).2
  | special (name : String) (hnew : ∀ e ∈ c.group name, e.isSpecial = false) : Step c (c.newSpecial name).2
  | noted (p : Nat) {f : Placeholder → Placeholder} (hname : ∀ x, (f x).name = x.name)
      (hloader : ∀ x, (f x).loader = x.loader) (hnotes : ∀ x, x.notes ≤ (f x).notes) :
      Step c (c.modifyPlaceholder p f)
  | touched (id : ClassId) {f : LoadedClass → LoadedClass}
      (hf : ∀ k, c.population.class? id = some k → k.Alike (f k)) : Step c (c.modifyClass id f)
  /-- A class is linked to the super class that was found for its own loader. -/
  | linked {sub sup : ClassId} {k : LoadedClass} {superName : String}
      (hsub : c.population.class? sub = some k) (hname : k.record.superName = some superName)
      (hmem : Entry.loaded sup ∈ c.group (Name.canonical superName))
      (hreaches : c.Reaches (Name.canonical superName) (Loader.normalize k.loader) (.loaded sup)) :
      Step c (c.link sub sup)

abbrev Steps : Catalog → Catalog → Prop := ReflTransGen Step

instance : IsPreorder Catalog Steps where
  refl _ := .refl
  trans _ _ _ := .trans

variable {o : Outside} {name : String} {loader : LoaderId} {placeholder : Option Nat} {s t : Scene Catalog}
  {c d : Catalog}

theorem Steps.of_quiet {α : Type} {a : Action Catalog α} (h : Keeps Quiet a) : Keeps Steps a :=
  h.mono fun _ _ h => .single (.quiet h)

/-! ### Classes stay -/

/-- Classes and placeholders keep their names, classes their loaders and their notes, and loaders
their parents. -/
structure Stays (c d : Catalog) : Prop where
  loaders : d.index.loaders = c.index.loaders
  population : c.population.Extends d.population

instance : IsPreorder Catalog Stays where
  refl _ := ⟨rfl, .refl _⟩
  trans _ _ _ h h' := ⟨h'.loaders.trans h.loaders, h.population.trans h'.population⟩

theorem Stays.of_linked (h : Linked c d) : Stays c d := by
  refine ⟨?_, h.steady.toExtends⟩
  rw [h.index]

theorem Stays.register {population : Population} (h : c.population.Extends population) (name : String)
    (e : Entry) : Stays c ({ c with population := population }.register name e) := by
  obtain ⟨groups, hregister⟩ := register_eq { c with population := population } name e
  rw [hregister]
  exact ⟨rfl, h⟩

theorem Linked.link (c : Catalog) (sub sup : ClassId) : Linked c (c.link sub sup) := by
  have hsup : Linked c (c.modifyClass sup fun k => k.addSubclass sub) :=
    .modifyClass fun k _ => k.grows_addSubclass sub
  exact hsup.trans (.modifyClass fun k _ => ⟨rfl, rfl, le_refl k.notes⟩)

theorem Step.stays (h : Step c d) : Stays c d := by
  cases h with
  | quiet h =>
    refine ⟨h.loaders, ?_⟩
    rw [h.population]
    exact .refl _
  | fitted h => exact ⟨h.index.2, h.steady.toExtends⟩
  | @enrolled _ _ _ k _ _ _ _ hplace =>
    obtain ⟨c₀, hlinked, hseated, _⟩ := enroll_seated c k fun p hp => (hplace p hp).1
    exact trans_of Stays (.of_linked hlinked) ⟨hseated.loaders, hseated.population⟩
  | expected name loader => exact .register (Population.Steady.pushPlaceholder _ _).toExtends _ _
  | special name => exact .register (Population.Steady.pushSpecial _ _).toExtends _ _
  | noted p hname => exact ⟨rfl, .modifyPlaceholder hname⟩
  | touched id hf => exact .of_linked (.modifyClass fun k hk => (hf k hk).grows)
  | @linked sub sup => exact .of_linked (.link c sub sup)

theorem Steps.stays (h : Steps c d) : Stays c d := by
  induction h with
  | refl => exact refl_of Stays c
  | tail _ hlast ih => exact trans_of Stays ih hlast.stays

/-- What holds after some steps and did not hold before comes with one of them. -/
theorem Steps.exists_step {P : Catalog → Prop} (h : Steps c d) (hc : ¬ P c) (hd : P d) :
    ∃ a b, Steps c a ∧ Step a b ∧ Steps b d ∧ ¬ P a ∧ P b := by
  induction h with
  | refl => exact absurd hd hc
  | @tail b d hfirst hlast ih =>
    by_cases hb : P b
    · obtain ⟨a, b', hca, hstep, hbb, hnot, h⟩ := ih hb
      exact ⟨a, b', hca, hstep, hbb.tail hlast, hnot, h⟩
    · exact ⟨b, d, hfirst, hlast, .refl, hb, hd⟩

/-! ### Looking up -/

theorem findFitting_steps (o : Outside) (name : String) (loader : LoaderId) (placeholders : Bool) :
    Keeps Steps (findFitting o name loader placeholders) := by
  intro s
  cases h : (findFitting o name loader placeholders).start s with
  | mk r t =>
    rcases findFitting_cases h with ⟨_, _, hfits⟩ | ⟨_, hquiet⟩
    · exact .single (.fitted hfits)
    · exact .single (.quiet hquiet)

theorem Quiet.reaches {e : Entry} (h : Quiet c d) (he : c.Reaches name loader e) : d.Reaches name loader e := by
  rcases he with he | ⟨l, hknown, hl, hloader⟩
  · exact .inl (by rw [h.sees, he])
  · exact .inr ⟨l, h.defining _ _ hknown, hl, by rw [h.loaderOf, hloader]⟩

theorem loadAndEnroll_steps {r : Except ClassError (Option ClassId)} (hloader : loader ≠ Loader.none)
    (h : (loadAndEnroll o name loader placeholder).start s = (r, t))
    (hplace : ∀ p, placeholder = some p →
      Entry.placeholder p ∈ s.state.group name ∧ s.state.Reaches name loader (.placeholder p)) :
    Steps s.state t.state := by
  rcases loadAndEnroll_cases h with ⟨_, hquiet⟩ | ⟨u, k, l, hquiet, hk, hl, _, ht⟩
  · exact .single (.quiet hquiet)
  · rw [ht]
    refine .tail (.single (.quiet hquiet)) (.enrolled hk.fresh ?_ (hl.imp_right And.left) fun p hp => ?_)
    · exact hl.elim (Loader.Graph.ne_none_of_mem_ancestry hloader) And.right
    · obtain ⟨hmem, hreaches⟩ := hplace p hp
      exact ⟨by rwa [hquiet.group], hquiet.reaches hreaches⟩

theorem lookupCanonical_steps (o : Outside) (name : String) (hloader : loader ≠ Loader.none) :
    Keeps Steps (lookupCanonical o name loader) := by
  intro s
  cases h : (lookupCanonical o name loader).start s with
  | mk r t =>
    rcases lookupCanonical_cases h with ⟨_, hfound, _⟩ | ⟨_, hquiet⟩ | ⟨placeholder, u, hfound, hload⟩
    · exact (findFitting_steps o name loader true).of_start hfound
    · exact .single (.quiet hquiet)
    · have hfirst := (findFitting_steps o name loader true).of_start hfound
      refine hfirst.trans (loadAndEnroll_steps hloader hload fun p hp => ?_)
      subst hp
      exact ⟨mem_of_findFitting hfound p rfl, (fits_of_findFitting hfound).reaches⟩

theorem lookup_steps (o : Outside) (name : String) (loader : LoaderId) : Keeps Steps (lookup o name loader) :=
  lookupCanonical_steps o _ (Loader.normalize_ne_none loader)

/-! ### New entries -/

/-- Where nothing fits, no entry is at the loader. -/
theorem loaderOf_ne_of_findFitting (h : (findFitting o name loader true).start s = (.ok none, t)) (e : Entry)
    (he : e ∈ s.state.group name) : s.state.loaderOf e ≠ some loader := by
  rw [start_findFitting, candidates_true] at h
  split at h
  · rename_i hempty
    rw [List.isEmpty_iff.mp hempty] at he
    cases he
  · split at h
    · cases h
    · rename_i hseen
      intro hloader
      refine List.find?_eq_none.mp hseen e he (sees_eq_true_iff.mpr ⟨loader, hloader, ?_⟩)
      exact Loader.Graph.mem_ancestry.mpr (.inl rfl)

theorem special_steps (c : Catalog) (name : String) : Steps c (c.special name).2 := by
  unfold Catalog.special
  dsimp only
  split
  · exact .refl
  · rename_i hnone
    exact .single (.special _ fun e he => Bool.eq_false_iff.mpr (List.find?_eq_none.mp hnone e he))

theorem addPlaceholder_steps (c : Catalog) (name : String) (loader : LoaderId) :
    Steps c (c.addPlaceholder name loader).2 := by
  unfold Catalog.addPlaceholder
  dsimp only
  split
  · exact .refl
  · rename_i hnone
    refine .single (.expected _ _ fun e he hplaceholder hloader => ?_)
    have hne := List.find?_eq_none.mp hnone e he
    rw [hplaceholder, hloader, Bool.true_and] at hne
    exact hne (beq_self_eq_true _)

theorem lookupOrPlaceholder_steps (o : Outside) (name : String) (loader : LoaderId) :
    Keeps Steps (lookupOrPlaceholder o name loader) := by
  intro s
  unfold lookupOrPlaceholder
  dsimp only
  rw [start_bind]
  have hsteps := findFitting_steps o (Name.canonical name) (Loader.normalize loader) true s
  cases hfound : (findFitting o (Name.canonical name) (Loader.normalize loader) true).start s with
  | mk found t =>
    rw [hfound] at hsteps
    rcases found with _ | _ | e
    · exact hsteps
    · -- Nothing was found, so that what was at the loader then still is what is there.
      refine hsteps.tail (.expected _ _ fun e he _ => ?_)
      rcases findFitting_cases hfound with ⟨_, h, _⟩ | ⟨_, hquiet⟩
      · cases h
      · rw [hquiet.loaderOf]
        rw [hquiet.group] at he
        exact loaderOf_ne_of_findFitting hfound e he
    · exact hsteps

/-! ### Linking -/

theorem resolveSuper_steps {id : ClassId} {k : LoadedClass} {superName : String}
    (hk : s.state.population.class? id = some k) (hname : k.record.superName = some superName) :
    Steps s.state ((resolveSuper o id k.loader superName).start s).2.state := by
  unfold resolveSuper
  rw [start_bind]
  have hsteps := lookup_steps o superName k.loader s
  cases hfound : (lookup o superName k.loader).start s with
  | mk found t =>
    rw [hfound] at hsteps
    rcases found with _ | _ | sup
    · exact hsteps
    · refine hsteps.trans (Keeps.bind (lookupOrPlaceholder_steps o superName k.loader) (fun e => ?_) t)
      split
      · refine .update fun c => .single (.noted _ (fun _ => rfl) (fun _ => rfl) fun x => ?_)
        exact x.notes_le_addSubclass id
      · exact .pure _
    · obtain ⟨k', hk', hgrows⟩ := hsteps.stays.population.classes id k hk
      obtain ⟨hmem, hreaches⟩ := lookupCanonical_answer hfound
      rw [← hgrows.loader] at hreaches
      exact hsteps.tail (.linked hk' (hgrows.record ▸ hname) hmem hreaches)

theorem resolveInterfaces_steps (o : Outside) (id : ClassId) (loader : LoaderId) (names : List String) :
    Keeps Steps (resolveInterfaces o id loader names) :=
  (surveys_keeps Steps).resolveInterfaces (lookup_steps o)
    (fun _ _ => .single (.touched id fun _ _ => ⟨rfl, rfl, rfl, rfl⟩)) loader names

theorem resolveHierarchy_steps (o : Outside) (id : ClassId) : Keeps Steps (resolveHierarchy o id) := by
  refine Keeps.state_bind fun s => ?_
  split
  · exact .refl
  · rename_i k hk
    split
    · rename_i superName hname
      have hsuper := resolveSuper_steps (o := o) hk hname
      rw [start_bind]
      generalize (resolveSuper o id k.loader superName).start s = result at hsuper
      rcases result with ⟨_ | _, t⟩
      · exact hsuper
      · exact hsuper.trans (resolveInterfaces_steps o id _ _ t)
    · exact resolveInterfaces_steps o id _ _ s

/-! ### Method bodies -/

/-- Looking at a method body only remembers its layout. -/
theorem infoAndLayout_alike (i : Nat) : Keeps LoadedClass.Alike (LoadedClass.infoAndLayout i) :=
  LoadedClass.keeps_infoAndLayout (fun _ _ => ⟨rfl, rfl, rfl, rfl⟩) i

theorem bytecode_alike (i : Nat) : Keeps LoadedClass.Alike (LoadedClass.bytecode i) :=
  ((infoAndLayout_alike i).bind fun _ => .pure _).bind fun _ => .pure _

theorem bytecodeLength_alike (i : Nat) : Keeps LoadedClass.Alike (LoadedClass.bytecodeLength i) :=
  ((infoAndLayout_alike i).bind fun _ => .pure _).bind fun _ => .pure _

theorem onClass_steps {α : Type} (absent : α) (id : ClassId) {a : Action LoadedClass α}
    (h : Keeps LoadedClass.Alike a) : Keeps Steps (onClass absent id a) := by
  refine onClass_keeps fun c k told hk => .single (.touched id fun k' hk' => ?_)
  cases hk.symm.trans hk'
  exact h ⟨k, told⟩

/-! ### Requests -/

/-- Whether a request leaves the entries there are registered and the loaders as they are. -/
def Request.additive : Request → Bool
  | initLoaders _ | addLoader _ _ | clear | close => false
  | _ => true

theorem note_steps (p : Nat) {f : Placeholder → Placeholder} (hname : ∀ x, (f x).name = x.name)
    (hloader : ∀ x, (f x).loader = x.loader) (hnotes : ∀ x, x.notes ≤ (f x).notes) :
    Keeps Steps (note p f) :=
  provide_keeps fun _ => .single (.noted p hname hloader hnotes)

/-- Every additive request goes some steps, also if it fails. -/
theorem perform_steps (o : Outside) {r : Request} (h : r.additive = true) : Keeps Steps (perform o r) := by
  cases r with
  | initClassPath => exact change_keeps fun c => .single (.quiet ⟨rfl, rfl, rfl, fun _ _ h => h⟩)
  | initLoaders table => cases h
  | addLoader child parent => cases h
  | lookup name loader => exact (lookup_steps o name loader).bind fun _ => .pure _
  | lookupOrPlaceholder name loader => exact (lookupOrPlaceholder_steps o name loader).bind fun _ => .pure _
  | lookupRegistered name loader placeholders =>
    exact (findFitting_steps o _ _ placeholders).bind fun _ => .pure _
  | special name => exact provide_keeps fun c => special_steps c name
  | addPlaceholder name loader => exact provide_keeps fun c => addPlaceholder_steps c name loader
  | addSupplied name loader bytes =>
    exact change_keeps fun c => .single (.quiet ⟨rfl, rfl, rfl, fun _ _ h => h⟩)
  | announce names loaders => exact change_keeps fun c => .single (.quiet ⟨rfl, rfl, rfl, fun _ _ h => h⟩)
  | defining name loader => exact (Steps.of_quiet (definingLoader_quiet o _ loader)).bind fun _ => .pure _
  | classPathNames => exact (Steps.of_quiet (onClassPath_quiet [] _)).bind fun _ => .pure _
  | resolveHierarchy id => exact (resolveHierarchy_steps o id).bind fun _ => .pure _
  | regionForLines id start stop =>
    have hcode := fun id i => onClass_steps none id (bytecode_alike i)
    exact ((surveys_keeps Steps).regionForLines (lookup_steps o) hcode id start stop).bind fun _ => .pure _
  | wholeMethod id name signature =>
    have hlength := fun i => onClass_steps 0 id (bytecodeLength_alike i)
    exact ((surveys_keeps Steps).wholeMethod hlength name signature).bind fun _ => .pure _
  | setRoots p =>
    refine note_steps p (fun _ => rfl) (fun _ => rfl) fun x => ?_
    exact Notes.le_def.mpr ⟨fun _ => rfl, fun h => h, List.Subset.refl _⟩
  | setMarkers p =>
    refine note_steps p (fun _ => rfl) (fun _ => rfl) fun x => ?_
    exact Notes.le_def.mpr ⟨fun h => h, fun _ => rfl, List.Subset.refl _⟩
  | addSubclass p id => exact note_steps p (fun _ => rfl) (fun _ => rfl) fun x => x.notes_le_addSubclass id
  | clear => cases h
  | close => cases h

/-- The other requests leave classes and placeholders alone. -/
theorem perform_population (o : Outside) {r : Request} (h : r.additive = false) (s : Scene Catalog) :
    ((perform o r).start s).2.state.population = s.state.population := by
  cases r with
  | initLoaders _ | addLoader _ _ | clear | close => rfl
  | _ => cases h

/-! ### Operations -/

def Operation.additive : Operation → Bool
  | request _ r => r.additive
  | call _ _ => true

/-- Calls change one class, and that in steps of its own. -/
theorem call_keeps {R : Catalog → Catalog → Prop} [IsPreorder Catalog R]
    (h : ∀ c id f, (∀ k, c.population.class? id = some k → k.Steps (f k)) → R c (c.modifyClass id f))
    (id : ClassId) (call : LoadedClass.Call) : Keeps R (onClass () id (LoadedClass.perform call)) :=
  onClass_keeps fun c k told hk => h c id _ fun k' hk' => by
    cases hk.symm.trans hk'
    exact LoadedClass.perform_steps call ⟨k, told⟩

theorem after_steps {requests : List (Outside × Request)} (h : ∀ x ∈ requests, x.2.additive = true)
    (s : Scene Catalog) : Steps s.state (after requests s).state :=
  after_keeps (fun x hx => perform_steps x.1 (h x hx)) s

/-! ### The loaders stay -/

/-- Whether a request leaves the loaders as they are. -/
def Request.keepsLoaders : Request → Bool
  | initLoaders _ | addLoader _ _ | close => false
  | _ => true

theorem Request.additive_or_eq_clear {r : Request} (h : r.keepsLoaders = true) :
    r.additive = true ∨ r = .clear := by
  cases r with
  | clear => exact .inr rfl
  | initLoaders _ | addLoader _ _ | close => cases h
  | _ => exact .inl rfl

theorem perform_stays (o : Outside) {r : Request} (h : r.keepsLoaders = true) : Keeps Stays (perform o r) := by
  rcases Request.additive_or_eq_clear h with hr | rfl
  · exact (perform_steps o hr).mono fun _ _ => Steps.stays
  · exact fun s => ⟨rfl, .refl _⟩

theorem after_stays {requests : List (Outside × Request)} (h : ∀ x ∈ requests, x.2.keepsLoaders = true)
    (s : Scene Catalog) : Stays s.state (after requests s).state :=
  after_keeps (fun x hx => perform_stays x.1 (h x hx)) s

end Catalog
end ClassCatalog
