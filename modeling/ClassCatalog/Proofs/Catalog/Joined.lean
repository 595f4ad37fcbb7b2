import ClassCatalog.Proofs.Catalog.Links
import ClassCatalog.Proofs.Catalog.Tidy

/-! Super classes and their subclasses.

A link is noted twice, as the super class of the one class and among the subclasses of the other. However it has
been made, at once or when a placeholder became a class, both notes are there, and the super class has the name
that the class calls it by (`Reachable.joined`). Names are compared as the catalog writes them; every class there is
is called by such a name (`Reachable.slashed`). -/
namespace ClassCatalog.Catalog
open ClassCatalog.Action

/-- A class that is linked calls its super class by its name and is noted there. -/
def Joined (c : Catalog) : Prop :=
  ∀ sub sup, c.superOf? sub = some sup → c.Expects (.loaded sup) sub ∧
    ∃ k l superName, c.population.class? sub = some k ∧ c.population.class? sup = some l ∧
      k.record.superName = some superName ∧ Name.canonical l.name = Name.canonical superName

/-- All classes have names as the catalog writes them. -/
def Slashed (c : Catalog) : Prop := ∀ id k, c.population.class? id = some k → Name.canonical k.name = k.name

abbrev Slashes : Catalog → Catalog → Prop := Preserves Slashed

variable {c d : Catalog} {name : String} {loader : LoaderId} {placeholder : Option Nat} {id sub sup : ClassId}
  {k : LoadedClass} {s : Scene Catalog}

/-! ### Links -/

theorem Step.joined (h : Step c d) (hnamed : c.Named) (hc : c.Joined) : d.Joined := by
  intro sub sup hd
  have hpopulation := h.stays.population
  rcases h.of_superOf? hd with
    hbefore | ⟨hlisted, ⟨k, superName, hk, hname, hmem, _⟩ | ⟨_, _, _, hadopts⟩⟩
  · obtain ⟨⟨n, hn, hsub⟩, k, l, superName, hk, hl, hname, hsame⟩ := hc sub sup hbefore
    obtain ⟨k', hk', hkept⟩ := hpopulation.classes sub k hk
    obtain ⟨l', hl', hgrows⟩ := hpopulation.classes sup l hl
    obtain ⟨_, hn', rfl⟩ := Option.map_eq_some_iff.mp hn
    cases hl.symm.trans hn'
    refine ⟨⟨l'.notes, congrArg (Option.map LoadedClass.notes) hl', hgrows.notes.2.2 hsub⟩,
      k', l', superName, hk', hl', ?_, ?_⟩
    · rw [hkept.record, hname]
    · rw [hgrows.name, hsame]
  · obtain ⟨l, hl, hlname⟩ := Option.map_eq_some_iff.mp (hnamed _ _ hmem)
    obtain ⟨k', hk', hkept⟩ := hpopulation.classes sub k hk
    obtain ⟨l', hl', hgrows⟩ := hpopulation.classes sup l hl
    refine ⟨hlisted, k', l', superName, hk', hl', ?_, ?_⟩
    · rw [hkept.record, hname]
    · rw [hgrows.name, hlname, Name.canonical_canonical]
  · obtain ⟨l, k, hl, hk, hname⟩ := hadopts.named
    exact ⟨hlisted, k, l, l.name, hk, hl, hname, rfl⟩

theorem Steps.joined (h : Steps c d) (hnamed : c.Named) (hc : c.Joined) : d.Joined := by
  induction h with
  | refl => exact hc
  | tail hfirst hlast ih => exact hlast.joined (Steps.evolves hfirst |>.of_named hnamed).1 ih

theorem perform_joined (o : Outside) (r : Request) (s : Scene Catalog) (hnamed : s.state.Named)
    (h : s.state.Joined) : ((perform o r).start s).2.state.Joined := by
  cases hr : r.additive with
  | true => exact (perform_steps o hr s).joined hnamed h
  | false =>
    unfold Joined superOf? Expects
    rw [perform_population o hr s]
    exact h

theorem joined_new (config : Config) : (Catalog.new config).Joined := by
  intro sub sup h
  cases h

/-- Every session keeps both sides of a link in step. -/
theorem Reachable.joined (h : Reachable s) : s.state.Joined :=
  (h.invariant (P := fun c => c.Named ∧ c.Joined) (fun config => ⟨fun _ => nofun, joined_new config⟩)
    fun o r s hs => ⟨perform_named o r s hs.1, perform_joined o r s hs.1 hs.2⟩).2

/-! ### Names -/

namespace Slashes

theorem of_classes (h : d.population.classes = c.population.classes) : Slashes c d :=
  fun hc id k hk => hc id k ((class?_eq_of_classes h id).symm.trans hk)

/-- Where no classes come, all keep their names. -/
theorem of_extends (h : c.population.Extends d.population)
    (hnone : ∀ id, c.population.class? id = none → d.population.class? id = none) : Slashes c d := by
  intro hc id k hk
  cases hbefore : c.population.class? id with
  | none => cases (hnone id hbefore).symm.trans hk
  | some k₀ =>
    obtain ⟨_, hk', hgrows⟩ := h.classes id k₀ hbefore
    cases hk.symm.trans hk'
    rw [hgrows.name]
    exact hc id k₀ hbefore

theorem of_quiet (h : Quiet c d) : Slashes c d := .of_classes (by rw [h.population])

theorem modifyClass {f : LoadedClass → LoadedClass}
    (hf : ∀ k, c.population.class? id = some k → k.Grows (f k)) : Slashes c (c.modifyClass id f) :=
  .of_extends (Linked.modifyClass hf).steady.toExtends fun _ => class?_modifyClass_eq_none

theorem link (c : Catalog) (sub sup : ClassId) : Slashes c (c.link sub sup) :=
  .of_extends (Linked.link c sub sup).steady.toExtends fun _ h =>
    class?_modifyClass_eq_none (class?_modifyClass_eq_none h)

theorem newClass (hk : Name.canonical k.name = k.name) : Slashes c (c.newClass k).2 := by
  intro hc id k' hk'
  have hk' : (c.population.classes.push k)[id]? = some k' := hk'
  rw [Array.getElem?_push] at hk'
  split at hk'
  · cases hk'
    exact hk
  · exact hc id k' hk'

theorem seat (c : Catalog) (name : String) (placeholder : Option Nat) (id : ClassId) (known : Bool) :
    Slashes c (c.seat name placeholder id known) := by
  cases placeholder with
  | none => exact .of_classes (by rw [Catalog.seat, population_register])
  | some p =>
    have hextends := (promote_linked c name p id known).steady.toExtends
    exact .of_extends ((extends_transfer c p id).trans hextends) fun _ => class?_promote_eq_none

theorem enroll (hk : Fresh name loader k) (hname : Name.canonical name = name) (placeholder : Option Nat) :
    Slashes c (c.enroll name placeholder k).2 := by
  cases hknown : c.registered? name k with
  | some id =>
    rw [enroll_of_registered hknown]
    exact seat c name placeholder id true
  | none =>
    rw [enroll_of_unregistered hknown]
    refine trans_of Slashes (newClass ?_) (seat _ name placeholder _ false)
    rw [hk.name_eq, hname]

end Slashes

theorem findFitting_slashes (o : Outside) (name : String) (loader : LoaderId) (placeholders : Bool) :
    Keeps Slashes (findFitting o name loader placeholders) := by
  intro s
  cases h : (findFitting o name loader placeholders).start s with
  | mk r t =>
    rcases findFitting_cases h with ⟨_, _, hfits⟩ | ⟨_, hquiet⟩
    · exact .of_classes hfits.classes
    · exact .of_quiet hquiet

theorem loadAndEnroll_slashes (o : Outside) (hname : Name.canonical name = name) (loader : LoaderId)
    (placeholder : Option Nat) : Keeps Slashes (loadAndEnroll o name loader placeholder) := by
  intro s
  cases h : (loadAndEnroll o name loader placeholder).start s with
  | mk r t =>
    rcases loadAndEnroll_cases h with ⟨_, hquiet⟩ | ⟨u, k, l, hquiet, hk, _, _, ht⟩
    · exact .of_quiet hquiet
    · show Slashes s.state t.state
      rw [ht]
      exact trans_of Slashes (.of_quiet hquiet) (.enroll hk.fresh hname placeholder)

theorem onClass_slashes {α : Type} (absent : α) (id : ClassId) {a : Action LoadedClass α}
    (h : Keeps LoadedClass.Alike a) : Keeps Slashes (onClass absent id a) := by
  refine onClass_keeps fun c k told hk => .modifyClass fun k' hk' => ?_
  cases hk.symm.trans hk'
  exact (h ⟨k, told⟩).grows

theorem slashes_stages (o : Outside) : Stages o fun _ a => Keeps Slashes a where
  toTraverses := (surveys_keeps Slashes).toTraverses
  lookup := (surveys_keeps Slashes).lookup (findFitting_slashes o) fun _ loader placeholder hname _ =>
    loadAndEnroll_slashes o hname loader placeholder
  expect := (surveys_keeps Slashes).lookupOrPlaceholder (findFitting_slashes o) fun name loader s =>
    .of_classes (classes_newPlaceholder s.state name loader)
  registered _ _ placeholders := findFitting_slashes o _ _ placeholders
  defining _ loader := (definingLoader_quiet o _ loader).mono fun _ _ => .of_quiet
  list := (onClassPath_quiet [] _).mono fun _ _ => .of_quiet
  code id i := onClass_slashes none id (bytecode_alike i)
  length id i := onClass_slashes 0 id (bytecodeLength_alike i)
  placeholder name loader s :=
    addPlaceholder_of_new (fun c _ _ => .of_classes (classes_newPlaceholder c _ _)) s.state name loader
  special name s := special_of_new (fun c name => .of_classes (classes_newSpecial c name)) s.state name
  noted _ _ _ _ := .of_classes rfl
  linked sub sup s := .link s.state sub sup
  implemented _ _ _ := .modifyClass fun _ _ => ⟨rfl, rfl, le_refl _⟩

theorem perform_slashes (o : Outside) (r : Request) : Keeps Slashes (perform o r) := by
  cases r with
  | initClassPath | initLoaders _ | addLoader _ _ | addSupplied _ _ _ | announce _ _ | clear | close =>
    exact change_keeps fun _ => .of_classes rfl
  | _ => exact (slashes_stages o).perform rfl

/-- Every session calls its classes by names as it writes them. -/
theorem Reachable.slashed (h : Reachable s) : s.state.Slashed := h.invariant (fun _ _ _ => nofun) perform_slashes

/-! ### Links and lists -/

/-- **Links go both ways.** Whatever requests a session has made, a class with a super class is linked to the class
that it names as its super class, and that class lists it. No class and no placeholder lists a class twice. -/
theorem links_consistent (h : Reachable s) :
    (∀ sub sup k, s.state.population.class? sub = some k → k.superClass = some sup →
      ∃ l superName, s.state.population.class? sup = some l ∧ k.record.superName = some superName ∧
        l.name = Name.canonical superName ∧ sub ∈ l.subclasses) ∧
    (∀ e n, s.state.population.notes? e = some n → n.subclasses.Nodup) := by
  refine ⟨fun sub sup k hk hsuper => ?_, h.used.tidy⟩
  have hlinked : s.state.superOf? sub = some sup := by rw [superOf?, hk, Option.bind_some, hsuper]
  obtain ⟨⟨n, hn, hlisted⟩, k', l, superName, hk', hl, hname, hsame⟩ := h.joined sub sup hlinked
  obtain ⟨_, hl', rfl⟩ := Option.map_eq_some_iff.mp hn
  cases hk.symm.trans hk'
  cases hl.symm.trans hl'
  exact ⟨l, superName, hl, hname, (h.slashed sup l hl).symm.trans hsame, hlisted⟩

/-- The class `S`, which is linked when `B` takes the place of the placeholder that waits for it. -/
theorem links_consistent_late :
    let s := after lateSuper chain
    ∃ k l superName, s.state.population.class? 0 = some k ∧ k.superClass = some 1 ∧
      s.state.population.class? 1 = some l ∧ k.record.superName = some superName ∧
      l.name = Name.canonical superName ∧ 0 ∈ l.subclasses := by
  intro s
  have hreachable : Reachable s := Reachable.after ⟨sampleConfig, _, rfl⟩
  have hlinked : s.state.superOf? 0 = some 1 := by decide +kernel
  obtain ⟨k, hk, hsuper⟩ := Option.bind_eq_some_iff.mp hlinked
  obtain ⟨l, superName, hl, hname, hsame, hlisted⟩ := (links_consistent hreachable).1 0 1 k hk hsuper
  exact ⟨k, l, superName, hk, hsuper, hl, hname, hsame, hlisted⟩

end ClassCatalog.Catalog
