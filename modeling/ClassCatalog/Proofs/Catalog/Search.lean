import ClassCatalog.Proofs.Catalog.Nested

/-! How a search ends.

A search for source lines goes from a class to the classes nested in it, which are looked up one after another and
may be whatever is supplied under their names. `Searches` says how it goes, with no bound on how deep: what it
derives are the searches that come to an end. The search of every class of a session does (`search_ends`), and that
of a class nested in it goes less deep by one. The names are what they cannot do without: each is longer than that
of the class before, and none is longer than `maxName`. -/
namespace ClassCatalog.Catalog
open ClassCatalog.Action ClassFile

/-- What is searched: a class, or one after another the classes nested in one. -/
inductive Target where
  | ofClass (id : ClassId)
  | ofNested (loader : LoaderId) (outer : String) (names : List String)

/-- The classes nested in a class. -/
def Target.inside (k : LoadedClass) : Target := .ofNested k.loader k.name k.record.nested

/-- From `s` to `t` a search comes to the end `r`, and goes from class to nested class at most `depth` times. -/
inductive Searches (o : Outside) (start stop : Nat) :
    Nat → Target → Scene Catalog → Except ClassError (Option Region) → Scene Catalog → Prop where
  | bare {depth : Nat} {id : ClassId} {k : LoadedClass} {s : Scene Catalog}
      (hk : s.state.population.class? id = some k) (hlines : k.record.findLine start = .noDebugInfo) :
      Searches o start stop depth (.ofClass id) s (.error (.noDebugInfo k.record.name)) s
  | elsewhere {depth : Nat} {id : ClassId} {k : LoadedClass} {s t : Scene Catalog}
      {r : Except ClassError (Option Region)} (hk : s.state.population.class? id = some k)
      (hlines : k.record.findLine start = .notFound) (hnested : Searches o start stop depth (.inside k) s r t) :
      Searches o start stop depth (.ofClass id) s r t
  | noMethod {depth first method : Nat} {id : ClassId} {k : LoadedClass} {s : Scene Catalog}
      (hk : s.state.population.class? id = some k) (hlines : k.record.findLine start = .found method first)
      (hm : k.record.methods[method]? = none) : Searches o start stop depth (.ofClass id) s (.ok none) s
  | own {depth first method : Nat} {id : ClassId} {k : LoadedClass} {m : Method} {s t : Scene Catalog}
      {r : Except ClassError (Option Region)} (hk : s.state.population.class? id = some k)
      (hlines : k.record.findLine start = .found method first) (hm : k.record.methods[method]? = some m)
      (hinitializer : m.isInitializer = false) (hown : (regionIn id k method m first start stop).start s = (r, t)) :
      Searches o start stop depth (.ofClass id) s r t
  /-- The lines of an initializer may be those of a nested class. -/
  | initializer {depth first method : Nat} {id : ClassId} {k : LoadedClass} {m : Method} {s t : Scene Catalog}
      {r : Except ClassError (Option Region)} (hk : s.state.population.class? id = some k)
      (hlines : k.record.findLine start = .found method first) (hm : k.record.methods[method]? = some m)
      (hinitializer : m.isInitializer = true) (hnested : Searches o start stop depth (.inside k) s r t)
      (hr : r ≠ .ok none) : Searches o start stop depth (.ofClass id) s r t
  | initializerOwn {depth first method : Nat} {id : ClassId} {k : LoadedClass} {m : Method} {s t u : Scene Catalog}
      {r : Except ClassError (Option Region)} (hk : s.state.population.class? id = some k)
      (hlines : k.record.findLine start = .found method first) (hm : k.record.methods[method]? = some m)
      (hinitializer : m.isInitializer = true) (hnested : Searches o start stop depth (.inside k) s (.ok none) t)
      (hown : (regionIn id k method m first start stop).start t = (r, u)) :
      Searches o start stop depth (.ofClass id) s r u
  | nil {depth : Nat} {loader : LoaderId} {outer : String} {s : Scene Catalog} :
      Searches o start stop depth (.ofNested loader outer []) s (.ok none) s
  | passed {depth : Nat} {loader : LoaderId} {outer nested : String} {rest : List String} {s t : Scene Catalog}
      {r : Except ClassError (Option Region)} (hshort : extendsName outer nested = false)
      (hrest : Searches o start stop depth (.ofNested loader outer rest) s r t) :
      Searches o start stop depth (.ofNested loader outer (nested :: rest)) s r t
  | unreadable {depth : Nat} {loader : LoaderId} {outer nested : String} {rest : List String} {e : ClassError}
      {s t : Scene Catalog} (hextends : extendsName outer nested = true)
      (hlookup : (lookup o nested loader).start s = (.error e, t)) :
      Searches o start stop depth (.ofNested loader outer (nested :: rest)) s (.error e) t
  | missing {depth : Nat} {loader : LoaderId} {outer nested : String} {rest : List String} {s t u : Scene Catalog}
      {r : Except ClassError (Option Region)} (hextends : extendsName outer nested = true)
      (hlookup : (lookup o nested loader).start s = (.ok none, t))
      (hrest : Searches o start stop depth (.ofNested loader outer rest) t r u) :
      Searches o start stop depth (.ofNested loader outer (nested :: rest)) s r u
  | found {depth : Nat} {loader : LoaderId} {outer nested : String} {rest : List String} {id : ClassId}
      {region : Region} {s t u : Scene Catalog} (hextends : extendsName outer nested = true)
      (hlookup : (lookup o nested loader).start s = (.ok (some id), t))
      (hclass : Searches o start stop depth (.ofClass id) t (.ok (some region)) u) :
      Searches o start stop (depth + 1) (.ofNested loader outer (nested :: rest)) s (.ok (some region)) u
  | empty {depth : Nat} {loader : LoaderId} {outer nested : String} {rest : List String} {id : ClassId}
      {s t u v : Scene Catalog} {r : Except ClassError (Option Region)} (hextends : extendsName outer nested = true)
      (hlookup : (lookup o nested loader).start s = (.ok (some id), t))
      (hclass : Searches o start stop depth (.ofClass id) t (.ok none) u)
      (hrest : Searches o start stop (depth + 1) (.ofNested loader outer rest) u r v) :
      Searches o start stop (depth + 1) (.ofNested loader outer (nested :: rest)) s r v
  | bareNested {depth : Nat} {loader : LoaderId} {outer nested name : String} {rest : List String} {id : ClassId}
      {s t u : Scene Catalog} (hextends : extendsName outer nested = true)
      (hlookup : (lookup o nested loader).start s = (.ok (some id), t))
      (hclass : Searches o start stop depth (.ofClass id) t (.error (.noDebugInfo name)) u) :
      Searches o start stop (depth + 1) (.ofNested loader outer (nested :: rest)) s (.ok none) u
  | failed {depth : Nat} {loader : LoaderId} {outer nested : String} {rest : List String} {id : ClassId}
      {e : ClassError} {s t u : Scene Catalog} (hextends : extendsName outer nested = true)
      (hlookup : (lookup o nested loader).start s = (.ok (some id), t))
      (hclass : Searches o start stop depth (.ofClass id) t (.error e) u) (he : ∀ name, e ≠ .noDebugInfo name) :
      Searches o start stop (depth + 1) (.ofNested loader outer (nested :: rest)) s (.error e) u

/-- A target searched as far as `depth`. -/
def Target.search (o : Outside) (start stop depth : Nat) : Target → Action Catalog (Option Region)
  | ofClass id => regionFrom o start stop (depth + 1) id
  | ofNested loader outer names => regionInNested o loader outer (regionFrom o start stop depth) names

variable {o : Outside} {start stop depth depth' : Nat} {target : Target} {loader : LoaderId} {outer nested : String}
  {names : List String} {s t u : Scene Catalog} {r r' : Except ClassError (Option Region)} {id : ClassId}
  {k : LoadedClass}

theorem start_search_ofClass (hk : s.state.population.class? id = some k) :
    ((Target.ofClass id).search o start stop depth).start s =
      match k.record.findLine start with
      | .noDebugInfo => (.error (.noDebugInfo k.record.name), s)
      | .notFound => ((Target.inside k).search o start stop depth).start s
      | .found method first =>
        match k.record.methods[method]? with
        | none => (.ok none, s)
        | some m =>
          if m.isInitializer then
            match ((Target.inside k).search o start stop depth).start s with
            | (.ok none, t) => (regionIn id k method m first start stop).start t
            | answer => answer
          else (regionIn id k method m first start stop).start s :=
  start_regionFrom_succ hk

theorem search_of_short (h : extendsName outer nested = false) :
    (Target.ofNested loader outer (nested :: names)).search o start stop depth =
      (Target.ofNested loader outer names).search o start stop depth :=
  regionInNested_of_short h

theorem start_search_unreadable (h : extendsName outer nested = true) {e : ClassError}
    (hlookup : (lookup o nested loader).start s = (.error e, t)) :
    ((Target.ofNested loader outer (nested :: names)).search o start stop depth).start s = (.error e, t) := by
  refine (start_regionInNested_cons h).trans ?_
  rw [hlookup]

theorem start_search_missing (h : extendsName outer nested = true)
    (hlookup : (lookup o nested loader).start s = (.ok none, t)) :
    ((Target.ofNested loader outer (nested :: names)).search o start stop depth).start s =
      ((Target.ofNested loader outer names).search o start stop depth).start t := by
  refine (start_regionInNested_cons h).trans ?_
  rw [hlookup]
  rfl

theorem start_search_found (h : extendsName outer nested = true)
    (hlookup : (lookup o nested loader).start s = (.ok (some id), t)) :
    ((Target.ofNested loader outer (nested :: names)).search o start stop (depth + 1)).start s =
      match ((Target.ofClass id).search o start stop depth).start t with
      | (.ok (some region), u) => (.ok (some region), u)
      | (.ok none, u) => ((Target.ofNested loader outer names).search o start stop (depth + 1)).start u
      | (.error (.noDebugInfo _), u) => (.ok none, u)
      | (.error e, u) => (.error e, u) := by
  refine (start_regionInNested_cons h).trans ?_
  rw [hlookup]
  rfl

/-! ### The end of a search -/

/-- The search as far as `depth` has come to an end. -/
def Ends (o : Outside) (start stop depth : Nat) (target : Target) (s : Scene Catalog) : Prop :=
  Searches o start stop depth target s ((target.search o start stop depth).start s).1
    ((target.search o start stop depth).start s).2

/-- The search of a class ends if that of the classes nested in it does. -/
theorem Ends.ofClass (hk : s.state.population.class? id = some k) (hnested : Ends o start stop depth (.inside k) s) :
    Ends o start stop depth (.ofClass id) s := by
  rw [Ends, start_search_ofClass hk]
  cases hlines : k.record.findLine start with
  | noDebugInfo => exact .bare hk hlines
  | notFound => exact .elsewhere hk hlines hnested
  | found method first =>
    dsimp only
    cases hm : k.record.methods[method]? with
    | none => exact .noMethod hk hlines hm
    | some m =>
      dsimp only
      cases hinitializer : m.isInitializer with
      | false => exact .own hk hlines hm hinitializer rfl
      | true =>
        rw [if_pos rfl]
        rw [Ends] at hnested
        generalize ((Target.inside k).search o start stop depth).start s = answer at hnested ⊢
        obtain ⟨e | _ | region, t⟩ := answer
        · exact .initializer hk hlines hm hinitializer hnested nofun
        · exact .initializerOwn hk hlines hm hinitializer hnested rfl
        · exact .initializer hk hlines hm hinitializer hnested nofun

/-- The search of nested classes ends if that of every class with a longer name does. -/
theorem Ends.ofNested (hs : s.state.Filed)
    (hclass : ∀ (u : Scene Catalog) id k, u.state.Filed → u.state.population.class? id = some k →
      outer.length < k.name.length → ∃ less, depth = less + 1 ∧ Ends o start stop less (.ofClass id) u) :
    Ends o start stop depth (.ofNested loader outer names) s := by
  induction names generalizing s with
  | nil => exact .nil
  | cons nested rest ih =>
    cases hextends : extendsName outer nested with
    | false =>
      rw [Ends, search_of_short hextends]
      exact .passed hextends (ih hs)
    | true =>
      rcases hlookup : (lookup o nested loader).start s with ⟨e | _ | id, t⟩
      · rw [Ends, start_search_unreadable hextends hlookup]
        exact .unreadable hextends hlookup
      · rw [Ends, start_search_missing hextends hlookup]
        exact .missing hextends hlookup (ih ((lookup_refiles o nested loader).of_start hlookup hs))
      · obtain ⟨ht, k, hk, hlonger⟩ := longer_of_lookup hs hextends hlookup
        obtain ⟨less, rfl, hends⟩ := hclass t id k ht hk hlonger
        have hleft := regionFrom_refiles o start stop (less + 1) id t ht
        change (((Target.ofClass id).search o start stop less).start t).2.state.Filed at hleft
        rw [Ends, start_search_found hextends hlookup]
        rw [Ends] at hends
        rcases hresult : ((Target.ofClass id).search o start stop less).start t with ⟨e | _ | region, u⟩
        · rw [hresult] at hends
          cases e with
          | noDebugInfo name => exact .bareNested hextends hlookup hends
          | _ =>
            refine .failed hextends hlookup hends fun name heq => ?_
            cases heq
        · rw [hresult] at hends hleft
          exact .empty hextends hlookup hends (ih hleft)
        · rw [hresult] at hends
          exact .found hextends hlookup hends

/-- The search of a class ends, as deep as names can grow from its own. -/
theorem ends_of_names (hs : s.state.Filed) (hk : s.state.population.class? id = some k)
    (hdepth : maxName ≤ depth + k.name.length) : Ends o start stop depth (.ofClass id) s := by
  induction depth generalizing id k s with
  | zero =>
    -- No class has a longer name, so there is none to go to.
    refine .ofClass hk (.ofNested hs fun u id' k' hu hk' hlonger => ?_)
    have := hu.name_length_le hk'
    omega
  | succ depth ih =>
    refine .ofClass hk (.ofNested hs fun u id' k' hu hk' hlonger => ?_)
    exact ⟨depth, rfl, ih hu hk' (by omega)⟩

/-- However much deeper a search may go, it comes to the same end. -/
theorem Searches.start_search (h : Searches o start stop depth target s r t) (more : Nat) :
    (target.search o start stop (depth + more)).start s = (r, t) := by
  induction h with
  | bare hk hlines => rw [start_search_ofClass hk, hlines]
  | elsewhere hk hlines _ ih =>
    rw [start_search_ofClass hk, hlines]
    exact ih
  | noMethod hk hlines hm => simp only [start_search_ofClass hk, hlines, hm]
  | own hk hlines hm hinitializer hown =>
    simp only [start_search_ofClass hk, hlines, hm, hinitializer]
    exact hown
  | @initializer _ _ _ _ _ _ _ _ r hk hlines hm hinitializer _ hr ih =>
    simp only [start_search_ofClass hk, hlines, hm, hinitializer, ih]
    rcases r with e | _ | region
    · rfl
    · exact absurd rfl hr
    · rfl
  | initializerOwn hk hlines hm hinitializer _ hown ih =>
    simp only [start_search_ofClass hk, hlines, hm, hinitializer, ih]
    exact hown
  | nil => rfl
  | passed hshort _ ih => rw [search_of_short hshort, ih]
  | unreadable hextends hlookup => exact start_search_unreadable hextends hlookup
  | missing hextends hlookup _ ih => rw [start_search_missing hextends hlookup, ih]
  | found hextends hlookup _ ih => rw [Nat.add_right_comm, start_search_found hextends hlookup, ih]
  | empty hextends hlookup _ _ ihclass ih =>
    rw [Nat.add_right_comm] at ih ⊢
    rw [start_search_found hextends hlookup, ihclass]
    exact ih
  | bareNested hextends hlookup _ ih => rw [Nat.add_right_comm, start_search_found hextends hlookup, ih]
  | @failed _ _ _ _ _ _ e _ _ _ hextends hlookup _ he ih =>
    rw [Nat.add_right_comm, start_search_found hextends hlookup, ih]
    cases e with
    | noDebugInfo name => exact absurd rfl (he name)
    | _ => rfl

/-- A search comes to one end only. -/
theorem Searches.unique (h : Searches o start stop depth target s r t)
    (h' : Searches o start stop depth' target s r' u) : r' = r ∧ u = t := by
  have hstart := h.start_search depth'
  rw [Nat.add_comm, h'.start_search depth] at hstart
  exact Prod.mk.inj hstart

/-- **How a search ends.** What is nested in a class has a longer name, a class that is looked up has the name that
was asked for, as the catalog writes it, and no name is longer than `maxName`. So the search of a class for source
lines comes to an end, whatever the classes on its way list as nested and whatever is supplied for them; it goes no
deeper than its name can grow, comes to one end only, and that is what is answered. -/
theorem search_ends (hs : Used s) (hk : s.state.population.class? id = some k) (hle : start ≤ stop) :
    (∀ name ∈ k.record.nested, extendsName k.name name = true) ∧ k.name.length ≤ maxName ∧
      (∀ name loader other t, (lookup o name loader).start s = (.ok (some other), t) →
        ∃ k', t.state.population.class? other = some k' ∧ k'.name = Name.canonical name) ∧
      ∃ depth r t, depth + k.name.length ≤ maxName ∧ Searches o start stop depth (.ofClass id) s r t ∧
        (∀ depth' r' t', Searches o start stop depth' (.ofClass id) s r' t' → r' = r ∧ t' = t) ∧
        (regionForLines o id start stop).start s = (r, t) := by
  obtain ⟨_, b, hparse⟩ := (hs.read hk).parsed
  have hname := hs.filed.name_length_le hk
  refine ⟨fun n hn => extendsName_of_nests (Record.nests_of_mem_nested hparse hn), hname,
    fun name loader other t hlookup => (name_of_lookup hs.filed hlookup).2, ?_⟩
  obtain ⟨depth, hdepth⟩ := Nat.exists_eq_add_of_le' hname
  have hends : Ends o start stop depth (.ofClass id) s := ends_of_names hs.filed hk hdepth.le
  refine ⟨depth, _, _, hdepth.ge, hends, fun depth' r' t' h => hends.unique h, ?_⟩
  rw [regionForLines, if_neg (Nat.not_lt.mpr hle)]
  exact start_regionFrom hs.filed hk (by omega) (by omega)

/-- The search goes on in the second class that is nested, where the lines are. -/
theorem search_ends_nested :
    ∃ depth t, depth + 1 ≤ maxName ∧ Searches (sampleOutside Loader.none) 5 6 depth (.ofClass 0)
      (outermostSession [("A$C", secondFile)]) (.ok (some ⟨"A$C", "m", "()V", 0, 1⟩)) t := by
  have hanswers : ((outermostSession [("A$C", secondFile)]).state.population.class? 0).map LoadedClass.name =
        some "A" ∧ ((regionForLines (sampleOutside Loader.none) 0 5 6).start
          (outermostSession [("A$C", secondFile)])).1 = .ok (some ⟨"A$C", "m", "()V", 0, 1⟩) := by
    decide +kernel
  obtain ⟨hclass, hanswer⟩ := hanswers
  obtain ⟨k, hk, hname⟩ := Option.map_eq_some_iff.mp hclass
  obtain ⟨_, _, _, depth, r, t, hdepth, hsearches, _, hstart⟩ :=
    search_ends (o := sampleOutside Loader.none) (outermostSession_used _) hk (by decide : 5 ≤ 6)
  rw [hstart] at hanswer
  obtain rfl : r = _ := hanswer
  rw [hname] at hdepth
  exact ⟨depth, t, hdepth, hsearches⟩

end ClassCatalog.Catalog
