import ClassCatalog.Proofs.Catalog.Later
import ClassCatalog.Proofs.Catalog.Steps

/-! Every operation lets the catalog evolve.

One lemma for each way to change a catalog; so every step lets it evolve, and with it every request
and every run. Calls on classes do as well, since a class keeps its name, its loader and its notes.
Requests that forget entries or change the loaders are excepted; they keep the groups named all the
same, so that every catalog of a session is `Named`. -/
namespace ClassCatalog.Catalog
open ClassCatalog.Action
variable {name : String} {loader : LoaderId} {placeholder : Option Nat} {s : Scene Catalog} {c d : Catalog}

/-! ### Changes -/

namespace Evolves

/-- A class that has been loaded is registered. -/
theorem enroll {k : LoadedClass} {l : LoaderId} (hk : Fresh name l k)
    (hp : ∀ p, placeholder = some p → Entry.placeholder p ∈ c.group name) :
    Evolves c (c.enroll name placeholder k).2 := by
  obtain ⟨c₀, hlinked, hseated, _, hnew⟩ := enroll_seated c k hp
  have hseats : Evolves c₀ (c.enroll name placeholder k).2 := by
    refine .of_seated hseated (fun p h => ?_) fun hnamed => ?_
    · rw [hlinked.group]
      exact hp p h
    · rcases hnew with hmem | hname
      · rw [← hlinked.group] at hmem
        exact hnamed name _ hmem
      · rw [hname, hk.name_eq]
  exact trans_of Evolves (.of_linked hlinked) hseats

/-- An entry of the name comes to the end of its group, unless it is there. -/
theorem register {population : Population} {e : Entry} (h : c.population.Steady population)
    (he : population.nameOf e = some name) :
    Evolves c ({ c with population := population }.register name e) := by
  have hgroups := exists_new_register { c with population := population } name e
  obtain ⟨groups, hregister⟩ := register_eq { c with population := population } name e
  rw [hregister] at hgroups ⊢
  refine .of_steady h (fun other => ?_) rfl fun _ _ h => h
  obtain ⟨new, hnew, hof⟩ := hgroups other
  refine ⟨new, hnew, fun x hx => ?_⟩
  obtain ⟨rfl, rfl⟩ := hof x hx
  exact he

theorem newPlaceholder (c : Catalog) (name : String) (loader : LoaderId) :
    Evolves c (c.newPlaceholder name loader).2 :=
  .register (.pushPlaceholder c.population (.new name loader))
    (congrArg (Option.map Placeholder.name) Array.getElem?_push_size)

theorem newSpecial (c : Catalog) (name : String) : Evolves c (c.newSpecial name).2 :=
  .register (.pushSpecial c.population name) Array.getElem?_push_size

theorem modifyClass {id : ClassId} {f : LoadedClass → LoadedClass}
    (hf : ∀ k, c.population.class? id = some k → k.Grows (f k)) : Evolves c (c.modifyClass id f) :=
  .of_linked (.modifyClass hf)

end Evolves

/-! ### Steps -/

theorem Step.evolves (h : Step c d) : Evolves c d := by
  cases h with
  | quiet h => exact .of_quiet h
  | fitted h => exact .of_fits h
  | enrolled hk _ _ hplace => exact .enroll hk fun p hp => (hplace p hp).1
  | expected name loader _ => exact .newPlaceholder c name loader
  | special name _ => exact .newSpecial c name
  | noted p hname _ hnotes => exact .modifyPlaceholder hname hnotes
  | touched id hf => exact .modifyClass fun k hk => (hf k hk).grows
  | @linked sub sup => exact .of_linked (.link c sub sup)

theorem Steps.evolves (h : Steps c d) : Evolves c d := by
  induction h with
  | refl => exact refl_of Evolves c
  | tail _ hlast ih => exact trans_of Evolves ih hlast.evolves

theorem lookup_evolves (o : Outside) (name : String) (loader : LoaderId) : Keeps Evolves (lookup o name loader) :=
  (lookup_steps o name loader).mono fun _ _ => Steps.evolves

theorem perform_evolves (o : Outside) {r : Request} (h : r.additive = true) : Keeps Evolves (perform o r) :=
  (perform_steps o h).mono fun _ _ => Steps.evolves

/-- As long as nothing is forgotten and the loaders stay, a run lets the catalog evolve. -/
theorem after_evolves {requests : List (Outside × Request)} (h : ∀ x ∈ requests, x.2.additive = true)
    (s : Scene Catalog) : Evolves s.state (after requests s).state :=
  (after_steps h s).evolves

theorem call_evolves (id : ClassId) (call : LoadedClass.Call) :
    Keeps Evolves (onClass () id (LoadedClass.perform call)) :=
  call_keeps (fun _ _ _ hf => .modifyClass fun k hk => (hf k hk).grows) id call

theorem operate_evolves {x : Operation} (h : x.additive = true) (s : Scene Catalog) :
    Evolves s.state (operate s x).state := by
  cases x with
  | request o r => exact perform_evolves o h s
  | call id call => exact call_evolves id call s

theorem afterAll_evolves {operations : List Operation} (h : ∀ x ∈ operations, x.additive = true)
    (s : Scene Catalog) : Evolves s.state (afterAll operations s).state :=
  afterAll_keeps (fun x hx => operate_evolves (h x hx)) s

/-! ### Names -/

theorem named_clear (c : Catalog) : c.clear.Named := nofun

/-- Every request keeps the groups named. -/
theorem perform_named (o : Outside) (r : Request) (s : Scene Catalog) (h : s.state.Named) :
    ((perform o r).start s).2.state.Named := by
  by_cases hr : r.additive = true
  · exact ((perform_evolves o hr s).of_named h).1
  · cases r with
    | initLoaders table => exact h
    | addLoader child parent => exact h
    | clear => exact named_clear s.state
    | close => exact named_clear s.state
    | _ => exact absurd rfl hr

theorem Used.named (h : Used s) : s.state.Named :=
  h.invariant (fun _ => nofun) perform_named fun id call s hs => ((call_evolves id call s).of_named hs).1

end ClassCatalog.Catalog
