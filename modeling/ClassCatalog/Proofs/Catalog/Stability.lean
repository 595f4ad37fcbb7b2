import ClassCatalog.Proofs.Catalog.Evolution

/-! How long an answer lasts.

A class that a lookup has answered stays registered at its loader, but the next lookup may
answer another class: one that stands in front of it and has come into view since, or one that
the loader sees directly while the first was only known through its defining loader
(`Overtaken`). `lookup_lasts` says that nothing else can come between, and that what stands in
front of a class stems from what stood there when it was answered. `not_lookup_lasts` is a run in
which a class is overtaken: the class that takes the place of a placeholder takes its rank. -/
namespace ClassCatalog.Catalog
open ClassCatalog.Action
variable {o o' : Outside} {name : String} {loader : LoaderId} {id : ClassId} {front back : List Entry}
  {s t : Scene Catalog} {c d : Catalog}

/-- For `loader` there is something before the class `id`, with `front` in front of it. -/
inductive Overtaken (c : Catalog) (name : String) (loader : LoaderId) (id : ClassId) (front : List Entry) :
    Prop where
  /-- The class is seen, but so is an entry in front of it. -/
  | inFront {e : Entry} (hsees : c.sees loader (.loaded id) = true) (he : e ∈ front)
      (h : c.sees loader e = true)
  /-- The class is not seen, but another entry is. -/
  | inView {e : Entry} (hsees : c.sees loader (.loaded id) = false) (he : e ∈ c.group name)
      (h : c.sees loader e = true)
  /-- The class is not seen, but there is a placeholder to be narrowed. -/
  | below {e : Entry} (hsees : c.sees loader (.loaded id) = false) (he : e ∈ c.group name)
      (h : c.isBelow loader e = true)
  /-- The class is not seen, and an entry in front of it is at the same loader. -/
  | sameLoader {e : Entry} (hsees : c.sees loader (.loaded id) = false) (he : e ∈ front)
      (h : c.loaderOf e = c.loaderOf (.loaded id))

/-! ### The next answer -/

theorem find?_split {f : Entry → Bool} {e : Entry} (hfront : ∀ x ∈ front, f x = false) (he : f e = true) :
    (front ++ e :: back).find? f = some e := by
  have hnone : front.find? f = none := List.find?_eq_none.mpr fun x hx h => by
    rw [hfront x hx] at h
    cases h
  rw [List.find?_append, hnone, List.find?_cons_of_pos he]
  rfl

theorem start_lookupCanonical_of_found
    (h : (findFitting o name loader true).start s = (.ok (some (.loaded id)), s)) :
    (lookupCanonical o name loader).start s = (.ok (some id), s) := by
  unfold lookupCanonical
  rw [start_bind, h]
  rfl

/-- A registered class that the loader reaches is answered unless it is overtaken. -/
theorem lookupCanonical_of_reaches (hgroup : s.state.group name = front ++ .loaded id :: back)
    (hreaches : s.state.Reaches name loader (.loaded id)) :
    (lookupCanonical o name loader).start s = (.ok (some id), s) ∨
      Overtaken s.state name loader id front := by
  by_cases hnot : Overtaken s.state name loader id front
  · exact .inr hnot
  · refine .inl (start_lookupCanonical_of_found ?_)
    cases hsees : s.state.sees loader (.loaded id) with
    | true =>
      apply start_findFitting_of_seen
      rw [candidates_true, hgroup]
      refine find?_split (fun e he => ?_) hsees
      exact Bool.eq_false_iff.mpr fun h => hnot (.inFront hsees he h)
    | false =>
      rcases hreaches with h | ⟨l, hknown, hl, hloader⟩
      · rw [hsees] at h
        cases h
      · have hseen : (s.state.group name).find? (s.state.sees loader) = none :=
          List.find?_eq_none.mpr fun e he h => hnot (.inView hsees he h)
        have hbelow : (s.state.group name).find? (s.state.isBelow loader) = none :=
          List.find?_eq_none.mpr fun e he h => hnot (.below hsees he h)
        have hfound : (s.state.group name).find? (fun e => s.state.loaderOf e = some l) = some (.loaded id) := by
          rw [hgroup]
          refine find?_split (fun e he => decide_eq_false fun h => ?_) (decide_eq_true hloader)
          exact hnot (.sameLoader hsees he (h.trans hloader.symm))
        rw [← candidates_true] at hseen hbelow hfound
        exact start_findFitting_of_known hseen hbelow hl hknown hfound

/-! ### Later -/

/-- What a loader reaches it reaches later. -/
theorem Later.reaches (h : Later c d) (hreaches : c.Reaches name loader (.loaded id)) :
    d.Reaches name loader (.loaded id) := by
  rcases hreaches with hsees | ⟨l, hknown, hl, hloader⟩
  · obtain ⟨l, hloader, hl⟩ := sees_eq_true_iff.mp hsees
    refine .inl (sees_eq_true_iff.mpr ⟨l, h.population.loaderOf hloader, ?_⟩)
    rw [h.loaders]
    exact hl
  · exact .inr ⟨l, h.defining _ l hknown, hl, h.population.loaderOf hloader⟩

theorem Reaches.exists_loaderOf {e : Entry} (h : c.Reaches name loader e) : ∃ l, c.loaderOf e = some l := by
  rcases h with hsees | ⟨l, _, _, hloader⟩
  · obtain ⟨l, hloader, _⟩ := sees_eq_true_iff.mp hsees
    exact ⟨l, hloader⟩
  · exact ⟨l, hloader⟩

/-- Of the entries that are not placeholders a loader sees the same ones later. -/
theorem Later.sees (h : Later c d) (hnamed : c.Named) {e : Entry} (he : e ∈ c.group name)
    (hplaceholder : ∀ p, e ≠ .placeholder p) : d.sees loader e = c.sees loader e := by
  have hloader : d.loaderOf e = c.loaderOf e := by
    cases e with
    | loaded i =>
      obtain ⟨k, hk, _⟩ := Option.map_eq_some_iff.mp (hnamed name _ he)
      have hl : c.loaderOf (.loaded i) = some k.loader := congrArg (Option.map LoadedClass.loader) hk
      exact (h.population.loaderOf hl).trans hl.symm
    | placeholder p => exact absurd rfl (hplaceholder p)
    | special i => rfl
  simp only [Catalog.sees, hloader, h.loaders]

/-- What a lookup that has answered and operations after it leave. -/
theorem later_of_lookup (hs : Used s) (hfirst : (lookup o name loader).start s = (.ok (some id), t))
    {operations : List Operation} (hoperations : ∀ x ∈ operations, x.additive = true) :
    t.state.Named ∧ Later t.state (afterAll operations t).state := by
  have hnamed := (((lookup_evolves o name loader).of_start hfirst).of_named hs.named).1
  exact ⟨hnamed, ((afterAll_evolves hoperations t).of_named hnamed).2⟩

/-- **An answer lasts until it is overtaken.** After any operations that forget nothing and leave
the loaders alone, the class is registered at its loader, with nothing in front of it but what
stood there before and the classes that have taken the places of placeholders there; and the
same lookup answers it again, at once, unless it is overtaken. -/
theorem lookup_lasts (hs : Used s) (hfirst : (lookup o name loader).start s = (.ok (some id), t))
    {operations : List Operation} (hoperations : ∀ x ∈ operations, x.additive = true) (o' : Outside) :
    let u := afterAll operations t
    u.state.loaderOf (.loaded id) = t.state.loaderOf (.loaded id) ∧
    ∃ front back front' back',
      t.state.group (Name.canonical name) = front ++ .loaded id :: back ∧
      u.state.group (Name.canonical name) = front' ++ .loaded id :: back' ∧
      Settles front front' ∧
      ((lookup o' name loader).start u = (.ok (some id), u) ∨
        Overtaken u.state (Name.canonical name) (Loader.normalize loader) id front') := by
  intro u
  obtain ⟨hmem, hreaches⟩ := lookupCanonical_answer hfirst
  obtain ⟨_, hlater⟩ := later_of_lookup hs hfirst hoperations
  have hloader : u.state.loaderOf (.loaded id) = t.state.loaderOf (.loaded id) := by
    obtain ⟨l, hl⟩ := hreaches.exists_loaderOf
    exact (hlater.population.loaderOf hl).trans hl.symm
  obtain ⟨front, back, hgroup⟩ := List.append_of_mem hmem
  have hgrown := hlater.groups (Name.canonical name)
  rw [hgroup] at hgrown
  obtain ⟨front', back', hgroup', hsettles⟩ := hgrown.split
  exact ⟨hloader, front, back, front', back', hgroup, hgroup', hsettles,
    lookupCanonical_of_reaches hgroup' (hlater.reaches hreaches)⟩

/-- A child and its parent; both find `A` at the parent, also after it has been set loaded. -/
theorem lookup_lasts_child :
    let o := sampleOutside Loader.none
    let s := after [(o, .initLoaders [0, 0]), (o, .addSupplied "A" 0 sampleFile), (o, .lookup "A" 0)]
      (opening sampleConfig)
    let operations := [.request o (.addSupplied "A" 1 sampleFile), .call 0 (.setLoaded true),
      .request o (.addPlaceholder "A" 1), .request o (.lookup "A" 1)]
    let t := ((lookup o "A" 1).start s).2
    let u := afterAll operations t
    ((lookup o "A" 1).start s).1 = .ok (some 0) ∧
    u.state.loaderOf (.loaded 0) = t.state.loaderOf (.loaded 0) ∧
    ∃ front back front' back',
      t.state.group (Name.canonical "A") = front ++ .loaded 0 :: back ∧
      u.state.group (Name.canonical "A") = front' ++ .loaded 0 :: back' ∧
      Settles front front' ∧
      ((lookup o "A" 1).start u = (.ok (some 0), u) ∨
        Overtaken u.state (Name.canonical "A") (Loader.normalize 1) 0 front') := by
  intro o s operations t u
  have hs : Used s := (Used.opening sampleConfig).after _
  have hfirst : ((lookup o "A" 1).start s).1 = .ok (some 0) := by decide +kernel
  have hoperations : ∀ x ∈ operations, x.additive = true := List.all_eq_true.mp rfl
  exact ⟨hfirst, lookup_lasts hs (Prod.ext hfirst rfl) hoperations o⟩

/-- An answer does not last in general. At first there are a placeholder at loader 1 and a class at
loader 2; a lookup from the root moves the placeholder there and loads a class in its place,
in front of the other class and in view of loader 2. -/
theorem not_lookup_lasts :
    ¬ ∀ (config : Config) (o : Outside) (before between : List Request) (name : String) (loader : LoaderId)
        (id : ClassId),
      let s := after (before.map fun r => (o, r)) (opening config)
      let t := ((lookup o name loader).start s).2
      ((lookup o name loader).start s).1 = .ok (some id) →
      (∀ r ∈ between, r.additive = true ∧ r ≠ .initClassPath) →
      ((lookup o name loader).start (after (between.map fun r => (o, r)) t)).1 = .ok (some id) := by
  intro h
  have hsame := h sampleConfig (sampleOutside Loader.none)
    [.initLoaders [0, 0, 0], .addPlaceholder "A" 1, .addSupplied "A" 2 sampleFile]
    [.addSupplied "A" 0 sampleFile, .lookup "A" 0] "A" 2 0 (by decide +kernel) (by decide)
  revert hsame
  decide +kernel

/-- An answer lasts for good if the loader sees the class and stands behind nothing that may yet
come into view. -/
theorem lookup_lasts_behind_classes (hs : Used s)
    (hfirst : (lookup o name loader).start s = (.ok (some id), t))
    (hsees : t.state.sees (Loader.normalize loader) (.loaded id) = true)
    (hgroup : t.state.group (Name.canonical name) = front ++ .loaded id :: back)
    (hfront : ∀ e ∈ front, (∀ p, e ≠ .placeholder p) ∧ t.state.sees (Loader.normalize loader) e = false)
    {operations : List Operation} (hoperations : ∀ x ∈ operations, x.additive = true) (o' : Outside) :
    (lookup o' name loader).start (afterAll operations t) = (.ok (some id), afterAll operations t) := by
  obtain ⟨hnamed, hlater⟩ := later_of_lookup hs hfirst hoperations
  have hgrown := hlater.groups (Name.canonical name)
  rw [hgroup] at hgrown
  obtain ⟨front', back', hgroup', hsettles⟩ := hgrown.split
  have hsame : front' = front := hsettles.eq_of_no_placeholder fun p hp => (hfront _ hp).1 p rfl
  have hmem : ∀ e ∈ front, e ∈ t.state.group (Name.canonical name) := fun e he => by
    rw [hgroup]
    exact List.mem_append_left _ he
  have hclass : Entry.loaded id ∈ t.state.group (Name.canonical name) := by
    rw [hgroup]
    exact List.mem_append_right _ (List.mem_cons_self ..)
  have hsees' : (afterAll operations t).state.sees (Loader.normalize loader) (.loaded id) = true := by
    rw [hlater.sees hnamed hclass (fun _ h => nomatch h), hsees]
  rcases lookupCanonical_of_reaches hgroup' (.inl hsees') with hanswer | hovertaken
  · exact hanswer
  · cases hovertaken with
    | inFront _ he h =>
      rw [hsame] at he
      rw [hlater.sees hnamed (hmem _ he) (hfront _ he).1, (hfront _ he).2] at h
      cases h
    | inView h _ _ | below h _ _ | sameLoader h _ _ =>
      rw [hsees'] at h
      cases h

end ClassCatalog.Catalog
