import ClassCatalog.Proofs.Catalog.Delegation
import ClassCatalog.Proofs.Catalog.Evolution

/-! The entries of one name.

The entries of a group differ in kind or in loader (`Distinct`). A placeholder is narrowed only when the
loader sees no entry, so that nothing is at that loader; a class takes its place only when no class is at
its loader; and a placeholder or a special class is made only when there is none to be used instead. So
every step keeps the groups distinct (`Step.distinct`), and what changes no group and moves no entry keeps
them anyway: `groups_orderly` holds of every session, whatever happens to its loaders and its classes. -/
namespace ClassCatalog

/-- Both are classes, both placeholders or both special. -/
def Entry.SameKind : Entry → Entry → Prop
  | loaded _, loaded _ => True
  | placeholder _, placeholder _ => True
  | special _, special _ => True
  | _, _ => False

namespace Catalog
open ClassCatalog.Action

/-- Two entries of one kind are at different loaders. -/
def Apart (c : Catalog) (e e' : Entry) : Prop := e.SameKind e' → c.loaderOf e ≠ c.loaderOf e'

def Distinct (c : Catalog) : Prop := ∀ name, (c.group name).Pairwise c.Apart

/-- Every entry that is there stays at its loader. -/
def Anchored (c d : Catalog) : Prop := ∀ e l, c.loaderOf e = some l → d.loaderOf e = some l

variable {b c d : Catalog} {name : String} {loader : LoaderId} {placeholder : Option Nat} {p : Nat}
  {id : ClassId} {k : LoadedClass} {e e' : Entry} {known : Bool}

/-! ### Entries stay at their loaders -/

theorem Anchored.trans (h : Anchored b c) (h' : Anchored c d) : Anchored b d :=
  fun e l hl => h' e l (h e l hl)

theorem Anchored.of_population (h : d.population = c.population) : Anchored c d := by
  intro e l hl
  rw [loaderOf, h]
  exact hl

theorem Linked.anchored (h : Linked c d) : Anchored c d := by
  intro e l hl
  cases e with
  | loaded id => exact h.steady.loaderOf hl
  | placeholder p => exact (congrArg (fun ps => (ps[p]?).map Placeholder.loader) h.placeholders).trans hl
  | special i => exact hl

theorem anchored_modifyPlaceholder {f : Placeholder → Placeholder} (hf : ∀ x, (f x).loader = x.loader) :
    Anchored c (c.modifyPlaceholder p f) := by
  intro e l hl
  cases e with
  | placeholder q =>
    obtain ⟨x, hx, rfl⟩ := Option.map_eq_some_iff.mp hl
    show ((c.population.modifyPlaceholder p f).placeholder? q).map Placeholder.loader = some x.loader
    rw [Population.placeholder?_modifyPlaceholder, hx]
    split
    · exact congrArg some (hf x)
    · rfl
  | loaded _ | special _ => exact hl

theorem anchored_transfer (c : Catalog) (p : Nat) (id : ClassId) : Anchored c (c.transfer p id) := by
  unfold transfer
  split
  · exact fun _ _ h => h
  · have hclear : Anchored c (c.modifyPlaceholder p fun x => { x with subclasses := [] }) :=
      anchored_modifyPlaceholder fun _ => rfl
    exact hclear.trans (Linked.modifyClass fun k _ => k.grows_adopt _ _ _).anchored

theorem anchored_seat (c : Catalog) (name : String) (placeholder : Option Nat) (id : ClassId) (known : Bool) :
    Anchored c (c.seat name placeholder id known) := by
  cases placeholder with
  | none => exact .of_population (population_register ..)
  | some p => exact (anchored_transfer c p id).trans (promote_linked c name p id known).anchored

theorem anchored_push (c : Catalog) (x : Placeholder) :
    Anchored c (c.modifyPopulation fun p => { p with placeholders := p.placeholders.push x }) := by
  intro e l hl
  cases e with
  | placeholder q =>
    obtain ⟨y, hy, rfl⟩ := Option.map_eq_some_iff.mp hl
    exact congrArg (Option.map Placeholder.loader) (Population.getElem?_push_of_some hy x)
  | loaded _ | special _ => exact hl

/-! ### Groups -/

/-- An entry of a catalog with named groups is at some loader. -/
theorem Named.exists_loaderOf (h : c.Named) (he : e ∈ c.group name) : ∃ l, c.loaderOf e = some l := by
  have hname := h name e he
  cases e with
  | loaded id =>
    obtain ⟨k, hk, _⟩ := Option.map_eq_some_iff.mp hname
    exact ⟨k.loader, congrArg (Option.map LoadedClass.loader) hk⟩
  | placeholder p =>
    obtain ⟨x, hx, _⟩ := Option.map_eq_some_iff.mp hname
    exact ⟨x.loader, congrArg (Option.map Placeholder.loader) hx⟩
  | special i => exact ⟨_, rfl⟩

theorem Anchored.loaderOf (h : Anchored c d) (hnamed : c.Named) (he : e ∈ c.group name) :
    d.loaderOf e = c.loaderOf e := by
  obtain ⟨l, hl⟩ := hnamed.exists_loaderOf he
  rw [hl]
  exact h e l hl

theorem Apart.ne (h : c.Apart e e') : e ≠ e' := by
  rintro rfl
  exact h (by cases e <;> trivial) rfl

theorem Apart.symm (h : c.Apart e e') : c.Apart e' e := by
  intro hkind heq
  refine h ?_ heq.symm
  cases e <;> cases e' <;> exact hkind

/-- The groups of a distinct catalog, seen later when the entries are where they were. -/
theorem Distinct.anchored (h : c.Distinct) (hd : Anchored c d) (hnamed : c.Named) (name : String) :
    (c.group name).Pairwise d.Apart :=
  (h name).imp_of_mem fun he he' hapart hkind => by
    rw [hd.loaderOf hnamed he, hd.loaderOf hnamed he']
    exact hapart hkind

/-- No entries come. -/
theorem Distinct.of_sublist (h : c.Distinct) (hd : Anchored c d) (hnamed : c.Named)
    (hgroups : ∀ other, (d.group other).Sublist (c.group other)) : d.Distinct :=
  fun other => (h.anchored hd hnamed other).sublist (hgroups other)

theorem Distinct.of_groups (h : c.Distinct) (hd : Anchored c d) (hnamed : c.Named)
    (hgroups : d.index.groups = c.index.groups) : d.Distinct := by
  intro other
  have hgroup : d.group other = c.group other := by simp only [group, hgroups]
  rw [hgroup]
  exact h.anchored hd hnamed other

theorem Distinct.of_linked (h : c.Distinct) (hd : Linked c d) (hnamed : c.Named) : d.Distinct :=
  h.of_groups hd.anchored hnamed (by rw [hd.index])

/-- An entry comes, apart from all that are there. -/
theorem Distinct.register (h : c.Distinct) (hfresh : ∀ x ∈ c.group name, c.Apart x e) :
    (c.register name e).Distinct := by
  have hapart : (c.register name e).Apart = c.Apart := by
    unfold Apart loaderOf
    rw [population_register]
  have hnew : e ∉ c.group name := fun he => (hfresh e he).ne rfl
  intro other
  rw [hapart, group_register]
  split
  · rw [List.pairwise_append]
    refine ⟨h name, List.pairwise_singleton _ _, fun x hx y hy => ?_⟩
    rw [List.mem_singleton.mp hy]
    exact hfresh x hx
  · exact h other

/-- A class that is apart from all that are there comes in the place of a placeholder. -/
theorem Distinct.of_replace (h : c.Distinct) (hd : Anchored c d) (hnamed : c.Named)
    (hgroups : ∀ other, d.group other =
      if name = other then replaceEntry (.placeholder p) (.loaded id) (c.group name) else c.group other)
    (hfresh : ∀ x ∈ c.group name, d.Apart x (.loaded id)) : d.Distinct := by
  intro other
  rw [hgroups]
  split
  · unfold replaceEntry
    rw [List.pairwise_map]
    refine (h.anchored hd hnamed name).imp_of_mem fun {x y} hx hy hapart => ?_
    -- Not both are the placeholder, since two entries that are apart differ.
    have hne := hapart.ne
    split
    · rename_i hxp
      rw [if_neg fun hyp => hne (hxp.trans hyp.symm)]
      exact (hfresh y hy).symm
    · split
      · exact hfresh x hx
      · exact hapart
  · exact h.anchored hd hnamed other

/-! ### Narrowing -/

theorem loaderOf_narrow_of_ne (h : e ≠ .placeholder p) :
    (c.narrow loader (.placeholder p)).loaderOf e = c.loaderOf e := by
  cases e with
  | placeholder q =>
    have hne : p ≠ q := fun heq => h (congrArg Entry.placeholder heq.symm)
    show ((c.population.modifyPlaceholder p _).placeholder? q).map Placeholder.loader = _
    rw [Population.placeholder?_modifyPlaceholder, if_neg hne]
    rfl
  | loaded _ | special _ => rfl

/-- A placeholder is moved to a loader where nothing is. -/
theorem Distinct.narrow (h : c.Distinct) (hnamed : c.Named) (hp : Entry.placeholder p ∈ c.group name)
    (hfree : ∀ e ∈ c.group name, c.loaderOf e ≠ some loader) :
    (c.narrow loader (.placeholder p)).Distinct := by
  have hmoved : (c.narrow loader (.placeholder p)).loaderOf (.placeholder p) = some loader := by
    obtain ⟨x, hx, _⟩ := Option.map_eq_some_iff.mp (hnamed name _ hp)
    exact congrArg (Option.map Placeholder.loader) (placeholder?_narrow hx)
  -- Only the group of its name has the placeholder.
  have hapart : ∀ {other x}, x ∈ c.group other → x ≠ .placeholder p → Entry.placeholder p ∈ c.group other →
      (c.narrow loader (.placeholder p)).Apart (.placeholder p) x := by
    intro other x hx hne hother _
    obtain rfl : other = name := Option.some.inj ((hnamed other _ hother).symm.trans (hnamed name _ hp))
    rw [hmoved, loaderOf_narrow_of_ne hne]
    exact (hfree x hx).symm
  intro other
  refine (h other).imp_of_mem fun {x y} hx hy hxy => ?_
  by_cases hxp : x = .placeholder p
  · subst hxp
    exact hapart hy (Ne.symm hxy.ne) hx
  · by_cases hyp : y = .placeholder p
    · subst hyp
      exact (hapart hx hxp hy).symm
    · intro hkind
      rw [loaderOf_narrow_of_ne hxp, loaderOf_narrow_of_ne hyp]
      exact hxy hkind

theorem Distinct.fits {placeholders : Bool} (h : c.Distinct) (hnamed : c.Named)
    (hfits : Fits c name loader placeholders e d) : d.Distinct := by
  cases hfits with
  | seen _ => exact h
  | below hseen hbelow =>
    have hmem := List.mem_of_find?_eq_some hbelow
    obtain ⟨p, x, rfl, _⟩ := isBelow_eq_true_iff.mp (List.find?_some hbelow)
    -- Placeholders are looked at, and so is the whole group.
    obtain rfl : placeholders = true := by simpa [Entry.isPlaceholder] using (List.mem_filter.mp hmem).2
    rw [candidates_true] at hseen hmem
    refine h.narrow hnamed hmem fun e he hloader => List.find?_eq_none.mp hseen e he ?_
    exact sees_eq_true_iff.mpr ⟨loader, hloader, Loader.Graph.mem_ancestry.mpr (.inl rfl)⟩
  | defined _ _ hquiet _ _ _ => exact h.of_groups (.of_population hquiet.population) hnamed hquiet.groups

/-! ### Registering -/

/-- No class of the group is at the loader of a class that is not registered. -/
theorem loaderOf_ne_of_registered?_eq_none {x : Entry} (h : c.registered? name k = none) (hx : x ∈ c.group name)
    (hkind : x.SameKind (.loaded id)) : c.loaderOf x ≠ some k.loader := by
  intro hloader
  cases x with
  | loaded i =>
    have hno := List.findSome?_eq_none_iff.mp h _ hx
    simp [Entry.class?, hloader] at hno
  | placeholder _ | special _ => exact hkind

theorem Distinct.seat_known (h : c.Distinct) (hnamed : c.Named) (hid : Entry.loaded id ∈ c.group name) :
    (c.seat name placeholder id true).Distinct := by
  cases placeholder with
  | none =>
    have hsame : c.register name (.loaded id) = c := if_pos (List.contains_iff_mem.mpr hid)
    unfold seat
    dsimp only
    rw [hsame]
    exact h
  | some p =>
    refine h.of_sublist (anchored_seat c name (some p) id true) hnamed fun other => ?_
    unfold seat
    dsimp only
    rw [group_promote]
    split
    · rename_i heq
      exact heq ▸ List.filter_sublist
    · exact .refl _

theorem Distinct.seat_new (h : c.Distinct) (hnamed : c.Named)
    (hfresh : ∀ x ∈ c.group name, c.Apart x (.loaded id)) (hid : c.loaderOf (.loaded id) = some loader) :
    (c.seat name placeholder id false).Distinct := by
  cases placeholder with
  | none => exact h.register hfresh
  | some p =>
    have hkept := anchored_seat c name (some p) id false
    refine h.of_replace hkept hnamed (fun other => group_promote ..) fun x hx hkind => ?_
    rw [hkept.loaderOf hnamed hx, hkept _ _ hid, ← hid]
    exact hfresh x hx hkind

theorem Distinct.enroll (h : c.Distinct) (hnamed : c.Named) : (c.enroll name placeholder k).2.Distinct := by
  cases hknown : c.registered? name k with
  | some id =>
    rw [enroll_of_registered hknown]
    exact h.seat_known hnamed (registered?_eq_some hknown).1
  | none =>
    rw [enroll_of_unregistered hknown]
    have hlinked := newClass_linked c k
    have hnamed' := ((Evolves.of_linked hlinked).of_named hnamed).1
    have hloader : (c.newClass k).2.loaderOf (.loaded (c.newClass k).1) = some k.loader :=
      congrArg (Option.map LoadedClass.loader) (class?_newClass c k)
    refine (h.of_linked hlinked hnamed).seat_new hnamed' (fun x hx hkind => ?_) hloader
    rw [hlinked.group] at hx
    rw [hlinked.anchored.loaderOf hnamed hx, hloader]
    exact loaderOf_ne_of_registered?_eq_none hknown hx hkind

theorem Distinct.newPlaceholder (h : c.Distinct) (hnamed : c.Named)
    (hnew : ∀ e ∈ c.group name, e.isPlaceholder = true → c.loaderOf e ≠ some loader) :
    (c.newPlaceholder name loader).2.Distinct := by
  have hpush := anchored_push c (.new name loader)
  refine (h.of_groups hpush hnamed rfl).register fun x hx hkind hloader => ?_
  rw [hpush.loaderOf hnamed hx] at hloader
  have hat : c.loaderOf x = some loader :=
    hloader.trans (congrArg (Option.map Placeholder.loader) Array.getElem?_push_size)
  cases x with
  | placeholder q => exact hnew _ hx rfl hat
  | loaded _ | special _ => exact hkind

theorem Distinct.newSpecial (h : c.Distinct) (hnamed : c.Named)
    (hnew : ∀ e ∈ c.group name, e.isSpecial = false) : (c.newSpecial name).2.Distinct := by
  have hpush : Anchored c (c.modifyPopulation fun p => { p with specials := p.specials.push name }) := by
    intro e l hl
    cases e <;> exact hl
  refine (h.of_groups hpush hnamed rfl).register fun x hx hkind => ?_
  cases x with
  | special i => cases hnew _ hx
  | loaded _ | placeholder _ => exact hkind.elim

/-! ### Steps -/

theorem Step.distinct (h : Step c d) (hnamed : c.Named) (hc : c.Distinct) : d.Distinct := by
  cases h with
  | quiet h => exact hc.of_groups (.of_population h.population) hnamed h.groups
  | fitted h => exact hc.fits hnamed h
  | enrolled => exact hc.enroll hnamed
  | expected name loader hnew => exact hc.newPlaceholder hnamed hnew
  | special name hnew => exact hc.newSpecial hnamed hnew
  | noted p _ hloader => exact hc.of_groups (anchored_modifyPlaceholder hloader) hnamed rfl
  | touched id hf => exact hc.of_linked (.modifyClass fun k hk => (hf k hk).grows) hnamed
  | @linked sub sup => exact hc.of_linked (.link c sub sup) hnamed

theorem Steps.distinct (h : Steps c d) (hnamed : c.Named) (hc : c.Distinct) : d.Distinct := by
  induction h with
  | refl => exact hc
  | tail hfirst hlast ih => exact hlast.distinct ((Steps.evolves hfirst).of_named hnamed).1 ih

/-- Every request keeps the groups distinct: one that forgets entries leaves none, and a change of loaders
moves none. -/
theorem perform_distinct (o : Outside) (r : Request) (s : Scene Catalog) (hnamed : s.state.Named)
    (h : s.state.Distinct) : ((perform o r).start s).2.state.Distinct := by
  by_cases hr : r.additive = true
  · exact (perform_steps o hr s).distinct hnamed h
  · cases r with
    | initLoaders table => exact h
    | addLoader child parent => exact h
    | clear => exact fun _ => .nil
    | close => exact fun _ => .nil
    | _ => exact absurd rfl hr

/-- Calls on classes change no group and move no class. -/
theorem call_distinct (id : ClassId) (call : LoadedClass.Call) (s : Scene Catalog) (hnamed : s.state.Named)
    (h : s.state.Distinct) : ((onClass () id (LoadedClass.perform call)).start s).2.state.Distinct := by
  have hlinked : Linked s.state ((onClass () id (LoadedClass.perform call)).start s).2.state :=
    call_keeps (fun _ _ _ hf => .modifyClass fun k hk => (hf k hk).grows) id call s
  exact h.of_linked hlinked hnamed

theorem Used.distinct {s : Scene Catalog} (h : Used s) : s.state.Distinct := by
  induction h with
  | opening config => exact fun _ => .nil
  | @request s hs o r ih => exact perform_distinct o r s hs.named ih
  | @call s hs id call ih => exact call_distinct id call s hs.named ih

/-! ### Sessions -/

/-- The entries of one kind in a group are at loaders of their own. -/
theorem Distinct.nodup_loaders (h : c.Distinct) (name : String) {kind : Entry → Bool}
    (hkind : ∀ e e', kind e = true → kind e' = true → e.SameKind e') :
    (((c.group name).filter kind).map c.loaderOf).Nodup := by
  rw [List.Nodup, List.pairwise_map, List.pairwise_filter]
  exact (h name).imp fun hapart he he' => hapart (hkind _ _ he he')

/-- **The groups are orderly**, after any operations and whatever becomes of the loaders in between. All
entries of a group have its name, no two of its classes are at the same loader, nor are two of its
placeholders, and it has one special class at most. -/
theorem groups_orderly (config : Config) (operations : List Operation) (name : String) :
    let c := (afterAll operations (opening config)).state
    (∀ e ∈ c.group name, c.population.nameOf e = some name) ∧
      (((c.group name).filter fun e => e.class?.isSome).map c.loaderOf).Nodup ∧
      (((c.group name).filter Entry.isPlaceholder).map c.loaderOf).Nodup ∧
      ((c.group name).filter Entry.isSpecial).length ≤ 1 := by
  intro c
  have hused : Used (afterAll operations (opening config)) := (Used.opening config).afterAll operations
  have hdistinct : c.Distinct := hused.distinct
  refine ⟨hused.named name, hdistinct.nodup_loaders name ?_, hdistinct.nodup_loaders name ?_, ?_⟩
  · intro e e' he he'
    cases e <;> cases e' <;> trivial
  · intro e e' he he'
    cases e <;> cases e' <;> trivial
  · -- Special classes are all at the root.
    have hspecial : ((c.group name).filter Entry.isSpecial).map c.loaderOf =
        List.replicate ((c.group name).filter Entry.isSpecial).length (some Loader.root) := by
      refine List.eq_replicate_iff.mpr ⟨List.length_map .., fun l hl => ?_⟩
      obtain ⟨e, he, rfl⟩ := List.mem_map.mp hl
      have he := (List.mem_filter.mp he).2
      cases e with
      | special i => rfl
      | loaded _ | placeholder _ => cases he
    have hnodup : (((c.group name).filter Entry.isSpecial).map c.loaderOf).Nodup :=
      hdistinct.nodup_loaders name fun e e' he he' => by
        cases e <;> cases e' <;> trivial
    rw [hspecial] at hnodup
    exact List.nodup_replicate.mp hnodup

end Catalog
end ClassCatalog
