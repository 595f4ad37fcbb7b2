import ClassCatalog.Proofs.Catalog.Evolution

/-! Where notes go.

What is noted on a registered placeholder is never lost: at any later time it is on the
placeholder itself or on the class that has taken its place, its bearer. A lookup hands it to
the class it answers exactly if the bearer is the entry that fits the loader then
(`notes_follow`). Another placeholder of the name may fit before it, and then the class that is
answered goes without (`notes_bypassed`). -/
namespace ClassCatalog.Catalog
open ClassCatalog.Action
variable {o : Outside} {name : String} {loader : LoaderId} {id : ClassId} {p : Nat} {n : Notes} {e : Entry}
  {s t u : Scene Catalog} {c : Catalog}

instance (c : Catalog) (e : Entry) (n : Notes) : Decidable (c.Bears e n) :=
  decidable_of_iff ((c.population.notes? e).any fun m => n ≤ m) <| by
    rw [Option.any_eq_true]
    simp only [Bears, decide_eq_true_iff]

/-! ### One lookup -/

theorem Quiet.bears {d : Catalog} (h : Quiet c d) (hn : c.Bears e n) : d.Bears e n := by
  unfold Bears at *
  rw [h.population]
  exact hn

/-- A lookup that answers a class puts it in the place of the bearer exactly if the bearer fits;
everything noted on the bearer is in its place afterwards. -/
theorem lookupCanonical_carries (h : (lookupCanonical o name loader).start s = (.ok (some id), t))
    (he : e ∈ s.state.group name) (hn : s.state.Bears e n) :
    ∃ e' ∈ t.state.group name, Becomes e e' ∧ t.state.Bears e' n ∧
      (e' = .loaded id ↔ ((findFitting o name loader true).start s).1 = .ok (some e) ∨ e = .loaded id) := by
  rcases lookupCanonical_cases h with ⟨id', hfound, hid⟩ | ⟨hne, _⟩ | ⟨placeholder, u, hfound, hload⟩
  · cases hid
    have hquiet := (fits_of_findFitting hfound).quiet rfl
    rw [hfound, hquiet.group]
    refine ⟨e, he, .inl rfl, hquiet.bears hn, .inr, fun h => ?_⟩
    rcases h with h | h
    · cases h
      rfl
    · exact h
  · exact absurd rfl (hne id)
  · rcases loadAndEnroll_cases hload with ⟨hne, _⟩ | ⟨v, k, l, hquiet, _, _, hid, ht⟩
    · exact absurd rfl (hne id)
    · obtain ⟨hsteady, hgroup⟩ := findFitting_steady hfound
      have hp : ∀ p, placeholder = some p → Entry.placeholder p ∈ v.group name := by
        intro p hp
        rw [hquiet.group]
        exact mem_of_findFitting hfound p hp
      obtain ⟨c₀, hlinked, hseated, _⟩ := enroll_seated v k hp
      have he₀ : e ∈ c₀.group name := by
        rw [hlinked.group, hquiet.group, hgroup]
        exact he
      have hn₀ : c₀.Bears e n := (hquiet.bears (hn.of_steady hsteady)).of_steady hlinked.steady
      obtain ⟨e', he', hbecomes, hn', hiff⟩ := hseated.carried (fun _ _ _ => rfl) he₀ hn₀
      cases hid
      rw [hfound, ht]
      refine ⟨e', he', hbecomes, hn', hiff.trans (or_congr_left ?_)⟩
      exact ⟨congrArg Except.ok, Except.ok.inj⟩

/-! ### A session -/

/-- **Notes follow the entry.** Whatever was noted on a registered placeholder is, after any
operations that forget nothing and leave the loaders alone, on an entry `e` that is the
placeholder or the class in its place. A lookup that answers a class then leaves all of it on
the entry `e'` in the place of `e`, which is the answered class exactly if `e` is what fits the
loader or is that class already. -/
theorem notes_follow (hs : Used s)
    (hp : Entry.placeholder p ∈ s.state.group (Name.canonical name)) (hn : s.state.Bears (.placeholder p) n)
    {operations : List Operation} (hoperations : ∀ x ∈ operations, x.additive = true)
    (hlookup : (lookup o name loader).start (afterAll operations s) = (.ok (some id), u)) :
    ∃ e ∈ (afterAll operations s).state.group (Name.canonical name),
      Becomes (.placeholder p) e ∧ (afterAll operations s).state.Bears e n ∧
      ∃ e' ∈ u.state.group (Name.canonical name), Becomes e e' ∧ u.state.Bears e' n ∧
        (e' = .loaded id ↔
          ((lookupRegistered o name loader true).start (afterAll operations s)).1 = .ok (some e) ∨
            e = .loaded id) := by
  have hlater := ((afterAll_evolves hoperations s).of_named hs.named).2
  obtain ⟨e, he, hbecomes, hne⟩ := hlater.carried _ _ n hp hn
  exact ⟨e, he, hbecomes, hne, lookupCanonical_carries hlookup he hne⟩

/-- A placeholder at a child becomes a class of the parent, which is set loaded and which the child then finds. -/
theorem notes_follow_narrowed :
    let o := sampleOutside Loader.none
    let n : Notes := ⟨true, false, []⟩
    let s := after [(o, .initLoaders [0, 0]), (o, .addPlaceholder "A" 1), (o, .setRoots 0)] (opening sampleConfig)
    let operations :=
      [.request o (.addSupplied "A" 0 sampleFile), .request o (.lookup "A" 0), .call 0 (.setLoaded true)]
    let u := ((lookup o "A" 1).start (afterAll operations s)).2
    Entry.placeholder 0 ∈ s.state.group (Name.canonical "A") ∧ s.state.Bears (.placeholder 0) n ∧
    ((lookup o "A" 1).start (afterAll operations s)).1 = .ok (some 0) ∧
    ∃ e ∈ (afterAll operations s).state.group (Name.canonical "A"),
      Becomes (.placeholder 0) e ∧ (afterAll operations s).state.Bears e n ∧
      ∃ e' ∈ u.state.group (Name.canonical "A"), Becomes e e' ∧ u.state.Bears e' n ∧
        (e' = .loaded 0 ↔
          ((lookupRegistered o "A" 1 true).start (afterAll operations s)).1 = .ok (some e) ∨ e = .loaded 0) := by
  intro o n s operations u
  have hp : Entry.placeholder 0 ∈ s.state.group (Name.canonical "A") := by decide +kernel
  have hn : s.state.Bears (.placeholder 0) n := by decide +kernel
  have hlookup : ((lookup o "A" 1).start (afterAll operations s)).1 = .ok (some 0) := by decide +kernel
  have hoperations : ∀ x ∈ operations, x.additive = true := List.all_eq_true.mp rfl
  have hs : Used s := (Used.opening sampleConfig).after _
  have hfound : (lookup o "A" 1).start (afterAll operations s) = (_, u) := (Prod.eta _).symm
  rw [hlookup] at hfound
  exact ⟨hp, hn, hlookup, notes_follow hs hp hn hoperations hfound⟩

/-- Notes that do not arrive. Of two placeholders the one at the root fits loader 1 first, so the
class is put in its place; the one that was made for loader 1 keeps its notes, out of view. -/
theorem notes_bypassed :
    let o := sampleOutside Loader.none
    let s := after [(o, .initLoaders [0, 0]), (o, .addPlaceholder "A" 0)] (opening sampleConfig)
    let t := ((perform o (.addPlaceholder "A" 1)).start s).2
    let u := after [(o, .setRoots 1), (o, .addSupplied "A" 1 sampleFile)] t
    let v := ((lookup o "A" 1).start u).2
    ((perform o (.addPlaceholder "A" 1)).start s).1 = .ok (.entry (some (.placeholder 1))) ∧
    t.state.group "A" = [.placeholder 0, .placeholder 1] ∧
    ((lookup o "A" 1).start u).1 = .ok (some 0) ∧
    v.state.group "A" = [.loaded 0, .placeholder 1] ∧
    v.state.loaderOf (.loaded 0) = some 1 ∧
    v.state.population.notes? (.loaded 0) = some ⟨false, false, []⟩ ∧
    v.state.population.notes? (.placeholder 1) = some ⟨true, false, []⟩ := by
  decide +kernel

end ClassCatalog.Catalog
