import ClassCatalog.Proofs.Catalog.Steps

/-! Subclasses are noted once.

No entry of a session lists a class twice among its subclasses (`Used.tidy`). They are noted one by one, and
those that a class takes over from a placeholder are added to its own one by one as well. -/
namespace ClassCatalog

namespace Population
variable (p : Population)

theorem notes?_modifyClass (id : ClassId) (f : LoadedClass → LoadedClass) (e : Entry) :
    (p.modifyClass id f).notes? e =
      if e = .loaded id then (p.class? id).map fun k => (f k).notes else p.notes? e := by
  cases e with
  | loaded other =>
    show ((p.modifyClass id f).class? other).map LoadedClass.notes = _
    rw [class?_modifyClass]
    by_cases h : id = other
    · subst h
      rw [if_pos rfl, if_pos rfl, Option.map_map]
      rfl
    · rw [if_neg h, if_neg fun he => h (Entry.loaded.inj he).symm]
      rfl
  | placeholder _ | special _ => exact (if_neg nofun).symm

theorem notes?_modifyPlaceholder (id : Nat) (f : Placeholder → Placeholder) (e : Entry) :
    (p.modifyPlaceholder id f).notes? e =
      if e = .placeholder id then (p.placeholder? id).map fun x => (f x).notes else p.notes? e := by
  cases e with
  | placeholder other =>
    show ((p.modifyPlaceholder id f).placeholder? other).map Placeholder.notes = _
    rw [placeholder?_modifyPlaceholder]
    by_cases h : id = other
    · subst h
      rw [if_pos rfl, if_pos rfl, Option.map_map]
      rfl
    · rw [if_neg h, if_neg fun he => h (Entry.placeholder.inj he).symm]
      rfl
  | loaded _ | special _ => exact (if_neg nofun).symm

end Population

namespace Catalog
open ClassCatalog.Action

/-- The subclasses noted on an entry are different. -/
def Tidy (c : Catalog) : Prop := ∀ e n, c.population.notes? e = some n → n.subclasses.Nodup

abbrev Tidies : Catalog → Catalog → Prop := Preserves Tidy

variable {name : String} {loader : LoaderId} {placeholders : Bool} {placeholder : Option Nat} {id : ClassId}
  {p : Nat} {k : LoadedClass} {e : Entry} {s : Scene Catalog} {c d : Catalog}

/-! ### Changes -/

namespace Tidies

theorem of_notes? (h : ∀ e, d.population.notes? e = c.population.notes? e) : Tidies c d :=
  fun hc e n hn => hc e n ((h e).symm.trans hn)

theorem of_population (h : d.population = c.population) : Tidies c d := of_notes? fun _ => by rw [h]

theorem modifyClass {f : LoadedClass → LoadedClass}
    (hf : ∀ k, c.population.class? id = some k → k.subclasses.Nodup → (f k).subclasses.Nodup) :
    Tidies c (c.modifyClass id f) := by
  intro hc e n hn
  rw [population_modifyClass, Population.notes?_modifyClass] at hn
  split at hn
  · obtain ⟨k, hk, rfl⟩ := Option.map_eq_some_iff.mp hn
    exact hf k hk (hc (.loaded id) k.notes (congrArg (Option.map LoadedClass.notes) hk))
  · exact hc e n hn

theorem modifyPlaceholder {f : Placeholder → Placeholder}
    (hf : ∀ x, x.subclasses.Nodup → (f x).subclasses.Nodup) : Tidies c (c.modifyPlaceholder p f) := by
  intro hc e n hn
  have hn : (c.population.modifyPlaceholder p f).notes? e = some n := hn
  rw [Population.notes?_modifyPlaceholder] at hn
  split at hn
  · obtain ⟨x, hx, rfl⟩ := Option.map_eq_some_iff.mp hn
    exact hf x (hc (.placeholder p) x.notes (congrArg (Option.map Placeholder.notes) hx))
  · exact hc e n hn

theorem newClass (hk : k.subclasses.Nodup) : Tidies c (c.newClass k).2 := by
  intro hc e n hn
  cases e with
  | loaded other =>
    obtain ⟨k', hk', rfl⟩ := Option.map_eq_some_iff.mp hn
    have hk' : (c.population.classes.push k)[other]? = some k' := hk'
    rw [Array.getElem?_push] at hk'
    split at hk'
    · cases hk'
      exact hk
    · exact hc (.loaded other) _ (congrArg (Option.map LoadedClass.notes) hk')
  | placeholder q => exact hc (.placeholder q) n hn
  | special i => cases hn

theorem register (c : Catalog) (name : String) (e : Entry) : Tidies c (c.register name e) :=
  of_population (population_register c name e)

theorem newPlaceholder (c : Catalog) (name : String) (loader : LoaderId) :
    Tidies c (c.newPlaceholder name loader).2 := by
  refine trans_of Tidies (fun hc e n hn => ?_) (register _ name _)
  cases e with
  | placeholder q =>
    obtain ⟨x, hx, rfl⟩ := Option.map_eq_some_iff.mp hn
    have hx : (c.population.placeholders.push (.new name loader))[q]? = some x := hx
    rw [Array.getElem?_push] at hx
    split at hx
    · cases hx
      exact List.nodup_nil
    · exact hc (.placeholder q) _ (congrArg (Option.map Placeholder.notes) hx)
  | loaded other => exact hc (.loaded other) n hn
  | special i => cases hn

theorem newSpecial (c : Catalog) (name : String) : Tidies c (c.newSpecial name).2 :=
  trans_of Tidies (of_notes? fun e => by cases e <;> rfl) (register _ name _)

theorem transfer (c : Catalog) (p : Nat) (id : ClassId) : Tidies c (c.transfer p id) := by
  unfold Catalog.transfer
  split
  · exact refl_of Tidies c
  · exact trans_of Tidies (modifyPlaceholder fun _ _ => List.nodup_nil)
      (modifyClass fun _ _ hk => LoadedClass.foldl_addOnce_nodup hk _)

theorem promote (c : Catalog) (name : String) (p : Nat) (id : ClassId) (known : Bool) :
    Tidies c (c.promote name p id known) := by
  rw [promote_eq]
  have hplaced : Tidies (c.transfer p id)
      ((c.transfer p id).setGroup name (placed p id known (c.group name))) := of_population rfl
  refine trans_of Tidies (trans_of Tidies (transfer c p id) hplaced) ?_
  refine linkSubclasses_of_link _ id fun d sub name => modifyClass fun k _ hk => ?_
  split <;> exact hk

theorem seat (c : Catalog) (name : String) (placeholder : Option Nat) (id : ClassId) (known : Bool) :
    Tidies c (c.seat name placeholder id known) := by
  cases placeholder with
  | none => exact register c name _
  | some p => exact promote c name p id known

theorem enroll (hk : Fresh name loader k) (placeholder : Option Nat) :
    Tidies c (c.enroll name placeholder k).2 := by
  cases hknown : c.registered? name k with
  | some id =>
    rw [enroll_of_registered hknown]
    exact seat c name placeholder id true
  | none =>
    rw [enroll_of_unregistered hknown]
    refine trans_of Tidies (newClass ?_) (seat _ name placeholder _ false)
    obtain ⟨r, location, rfl, _⟩ := hk
    exact List.nodup_nil

theorem link (c : Catalog) (sub sup : ClassId) : Tidies c (c.link sub sup) := by
  have hnoted : Tidies c (c.modifyClass sup fun k => k.addSubclass sub) :=
    modifyClass fun _ _ hk => LoadedClass.addOnce_nodup hk sub
  have hlinked (d : Catalog) : Tidies d (d.modifyClass sub fun k => { k with superClass := some sup }) :=
    modifyClass fun _ _ hk => hk
  exact trans_of Tidies hnoted (hlinked _)

end Tidies

theorem Note.subclasses_nodup {f : Placeholder → Placeholder} (h : Note f) {x : Placeholder}
    (hx : x.subclasses.Nodup) : (f x).subclasses.Nodup := by
  cases h with
  | roots | markers => exact hx
  | subclass id => exact LoadedClass.addOnce_nodup hx id

/-! ### Requests -/

/-- Moving a placeholder changes nothing of what is noted on it. -/
theorem Fits.notes? (h : Fits c name loader placeholders e d) (other : Entry) :
    d.population.notes? other = c.population.notes? other := by
  cases h with
  | seen _ => rfl
  | below _ h =>
    obtain ⟨p, x, rfl, hx, _⟩ := isBelow_eq_true_iff.mp (List.find?_some h)
    show (c.population.modifyPlaceholder p _).notes? other = _
    rw [Population.notes?_modifyPlaceholder]
    split
    · rename_i he
      rw [he, hx]
      exact (congrArg (Option.map Placeholder.notes) hx).symm
    · rfl
  | defined _ _ hquiet _ _ _ => rw [hquiet.population]

theorem findFitting_tidies (o : Outside) (name : String) (loader : LoaderId) (placeholders : Bool) :
    Keeps Tidies (findFitting o name loader placeholders) := by
  intro s
  cases h : (findFitting o name loader placeholders).start s with
  | mk r t =>
    rcases findFitting_cases h with ⟨_, _, hfits⟩ | ⟨_, hquiet⟩
    · exact .of_notes? hfits.notes?
    · exact .of_population hquiet.population

theorem loadAndEnroll_tidies (o : Outside) (name : String) (loader : LoaderId) (placeholder : Option Nat) :
    Keeps Tidies (loadAndEnroll o name loader placeholder) := by
  intro s
  cases h : (loadAndEnroll o name loader placeholder).start s with
  | mk r t =>
    rcases loadAndEnroll_cases h with ⟨_, hquiet⟩ | ⟨u, k, l, hquiet, hk, _, _, ht⟩
    · exact .of_population hquiet.population
    · show Tidies s.state t.state
      rw [ht]
      exact trans_of Tidies (.of_population hquiet.population) (.enroll hk.fresh placeholder)

theorem onClass_tidies {α : Type} (absent : α) (id : ClassId) {a : Action LoadedClass α}
    (h : Keeps LoadedClass.Alike a) : Keeps Tidies (onClass absent id a) := by
  refine onClass_keeps fun c k told hk => .modifyClass fun k' hk' hnodup => ?_
  cases hk.symm.trans hk'
  have hsame : (a.start ⟨k, told⟩).2.state.subclasses = k.subclasses :=
    congrArg Notes.subclasses (h ⟨k, told⟩).notes
  exact hsame ▸ hnodup

theorem tidies_parts (o : Outside) : Parts o fun _ a => Keeps Tidies a where
  toTraverses := (surveys_keeps Tidies).toTraverses
  find := findFitting_tidies o
  load name loader placeholder _ := loadAndEnroll_tidies o name loader placeholder
  defining name loader := (definingLoader_quiet o name loader).mono fun _ _ h => .of_population h.population
  list := (onClassPath_quiet [] _).mono fun _ _ h => .of_population h.population
  code id i := onClass_tidies none id (bytecode_alike i)
  length id i := onClass_tidies 0 id (bytecodeLength_alike i)
  expected name loader s := .newPlaceholder s.state name loader
  placeholder name loader s := addPlaceholder_of_new Tidies.newPlaceholder s.state name loader
  special name s := special_of_new Tidies.newSpecial s.state name
  noted _ _ hf _ := .modifyPlaceholder fun _ => hf.subclasses_nodup
  linked sub sup s := .link s.state sub sup
  implemented _ _ _ := .modifyClass fun _ _ h => h

theorem perform_tidies (o : Outside) (r : Request) : Keeps Tidies (perform o r) := by
  cases r with
  | initClassPath | initLoaders _ | addLoader _ _ | addSupplied _ _ _ | announce _ _ | clear | close =>
    exact change_keeps fun _ => .of_population rfl
  | _ => exact (tidies_parts o).perform rfl

theorem tidy_new (config : Config) : (Catalog.new config).Tidy := by
  intro e n hn
  cases e <;> cases hn

theorem call_tidies (id : ClassId) (call : LoadedClass.Call) :
    Keeps Tidies (onClass () id (LoadedClass.perform call)) :=
  call_keeps (fun _ _ _ hf => .modifyClass fun k hk h =>
    LoadedClass.holds_of_steps h (hf k hk) fun h hstep => hstep.subclasses_nodup h) id call

/-- Every session notes a subclass once. -/
theorem Used.tidy (h : Used s) : s.state.Tidy := h.invariant tidy_new perform_tidies call_tidies

end Catalog
end ClassCatalog
