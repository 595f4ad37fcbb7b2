import ClassCatalog.Proofs.Catalog.Evolution
import ClassCatalog.Proofs.Catalog.Intact
import ClassCatalog.Proofs.ClassFile.Names

/-! How deep a search goes.

A search in nested classes goes from a class to one with a longer name, and a class that is looked up has the name
it was looked up by. As no class has a name longer than `maxName`, a search that may go deeper than that goes the
same way however deep it may go (`start_regionFrom`), and that of a class is made of those of the classes nested in
it (`regionForLines_of_notFound`).

This takes a catalog whose groups have the names of their entries and whose classes were read from files (`Filed`),
which every catalog of a session is and a search leaves. -/
namespace ClassCatalog.Catalog
open ClassCatalog.Action ClassFile

variable {o : Outside} {name outer : String} {loader : LoaderId} {s t : Scene Catalog} {c d : Catalog} {id : ClassId}
  {k : LoadedClass} {start stop depth depth' : Nat}

/-! ### Catalogs of files -/

/-- Entries are in the groups of their names, and classes were read from files. -/
structure Filed (c : Catalog) : Prop where
  named : c.Named
  read : ∀ id k, c.population.class? id = some k → k.Read

theorem Used.filed (h : Used s) : s.state.Filed := ⟨h.named, fun _ _ => h.read⟩

/-- What leaves a catalog of files one. -/
abbrev Refiles : Catalog → Catalog → Prop := Preserves Filed

theorem Steps.refiles (h : Steps c d) (hspares : Spares c d) : Refiles c d := by
  refine fun hc => ⟨(h.evolves.of_named hc.named).1, fun id k hk => ?_⟩
  exact hspares.every (fun _ _ h => h.intact) (fun _ _ _ h => h.original.toRead) hc.read hk

theorem lookup_refiles (o : Outside) (name : String) (loader : LoaderId) : Keeps Refiles (lookup o name loader) :=
  fun s => (lookup_steps o name loader s).refiles (lookup_spares o name loader s)

theorem bytecode_refiles (id : ClassId) (i : Nat) : Keeps Refiles (onClass none id (LoadedClass.bytecode i)) :=
  fun s => (onClass_steps none id (bytecode_alike i) s).refiles (bytecode_spares id i s)

theorem regionFrom_refiles (o : Outside) (start stop depth : Nat) (id : ClassId) :
    Keeps Refiles (regionFrom o start stop depth id) :=
  (surveys_keeps Refiles).regionFrom (lookup_refiles o) bytecode_refiles start stop depth id

/-! ### Names -/

theorem Filed.name_length_le (h : c.Filed) (hk : c.population.class? id = some k) : k.name.length ≤ maxName := by
  obtain ⟨_, b, hparse⟩ := (h.read id k hk).parsed
  have hlength := Record.name_length_lt hparse
  exact Nat.le_of_lt_succ hlength

/-- A class that is looked up has the name it was looked up by, as the catalog writes it. -/
theorem name_of_lookup (hs : s.state.Filed) (h : (lookup o name loader).start s = (.ok (some id), t)) :
    t.state.Filed ∧ ∃ k, t.state.population.class? id = some k ∧ k.name = Name.canonical name := by
  have ht : t.state.Filed := (lookup_refiles o name loader).of_start h hs
  obtain ⟨hmem, _⟩ := lookupCanonical_answer h
  obtain ⟨k, hk, hname⟩ := Option.map_eq_some_iff.mp (ht.named _ _ hmem)
  exact ⟨ht, k, hk, hname⟩

theorem length_of_extendsName (h : extendsName outer name = true) : outer.length < name.length := by
  unfold extendsName at h
  exact of_decide_eq_true (Bool.and_eq_true_iff.mp h).2

/-- A class that is looked up by a name that extends another has a longer name than that. -/
theorem longer_of_lookup (hs : s.state.Filed) (hextends : extendsName outer name = true)
    (h : (lookup o name loader).start s = (.ok (some id), t)) :
    t.state.Filed ∧ ∃ k, t.state.population.class? id = some k ∧ outer.length < k.name.length := by
  obtain ⟨ht, k, hk, hname⟩ := name_of_lookup hs h
  refine ⟨ht, k, hk, ?_⟩
  rw [hname, Name.canonical, String.length_map]
  exact length_of_extendsName hextends

/-! ### Searches -/

/-- The search of a class, with that of the classes nested in it. -/
theorem start_regionFrom_succ (hk : s.state.population.class? id = some k) :
    (regionFrom o start stop (depth + 1) id).start s =
      match k.record.findLine start with
      | .noDebugInfo => (.error (.noDebugInfo k.record.name), s)
      | .notFound => (regionInNested o k.loader k.name (regionFrom o start stop depth) k.record.nested).start s
      | .found method first =>
        match k.record.methods[method]? with
        | none => (.ok none, s)
        | some m =>
          if m.isInitializer then
            match (regionInNested o k.loader k.name (regionFrom o start stop depth) k.record.nested).start s with
            | (.ok none, t) => (regionIn id k method m first start stop).start t
            | answer => answer
          else (regionIn id k method m first start stop).start s := by
  rw [regionFrom, start_state_bind]
  rw [hk]
  dsimp only
  cases k.record.findLine start with
  | noDebugInfo => rfl
  | notFound => rfl
  | found method first =>
    dsimp only
    cases k.record.methods[method]? with
    | none => rfl
    | some m =>
      dsimp only
      split
      · rw [start_bind]
        rcases (regionInNested o k.loader k.name (regionFrom o start stop depth) k.record.nested).start s
          with ⟨_ | _ | region, t⟩ <;> rfl
      · rfl

/-- Names that do not extend the name of the class are passed over. -/
theorem regionInNested_of_short {search : ClassId → Action Catalog (Option Region)} {nested : String}
    {rest : List String} (h : extendsName outer nested = false) :
    regionInNested o loader outer search (nested :: rest) = regionInNested o loader outer search rest := by
  rw [regionInNested.eq_def]
  dsimp only
  rw [if_pos (by rw [h]; rfl)]

/-- The first of the nested classes is looked up and searched, and those behind it as long as there is nothing. -/
theorem start_regionInNested_cons {search : ClassId → Action Catalog (Option Region)} {nested : String}
    {rest : List String} (h : extendsName outer nested = true) :
    (regionInNested o loader outer search (nested :: rest)).start s =
      match (lookup o nested loader).start s with
      | (.error e, t) => (.error e, t)
      | (.ok none, t) => (regionInNested o loader outer search rest).start t
      | (.ok (some id), t) =>
        match (search id).start t with
        | (.ok (some region), u) => (.ok (some region), u)
        | (.ok none, u) => (regionInNested o loader outer search rest).start u
        | (.error (.noDebugInfo _), u) => (.ok none, u)
        | (.error e, u) => (.error e, u) := by
  rw [regionInNested, h]
  show (lookup o nested loader >>= _).start s = _
  rw [start_bind]
  rcases (lookup o nested loader).start s with ⟨_ | _ | id, t⟩
  · rfl
  · rfl
  · dsimp only
    rw [start_bind, start_attempt]
    rcases (search id).start t with ⟨e | _ | region, u⟩
    · cases e <;> rfl
    · rfl
    · rfl

/-- A search in nested classes only searches classes with longer names. -/
theorem start_regionInNested_congr {search search' : ClassId → Action Catalog (Option Region)} {names : List String}
    (hsame : ∀ (s : Scene Catalog) id k, s.state.Filed → s.state.population.class? id = some k →
      outer.length < k.name.length → (search id).start s = (search' id).start s)
    (hkeeps : ∀ id, Keeps Refiles (search id)) (hs : s.state.Filed) :
    (regionInNested o loader outer search names).start s = (regionInNested o loader outer search' names).start s := by
  induction names generalizing s with
  | nil => rfl
  | cons nested rest ih =>
    cases hextends : extendsName outer nested with
    | false =>
      rw [regionInNested_of_short hextends, regionInNested_of_short hextends]
      exact ih hs
    | true =>
      rw [start_regionInNested_cons hextends, start_regionInNested_cons hextends]
      rcases hfound : (lookup o nested loader).start s with ⟨_ | _ | id, t⟩
      · rfl
      · exact ih ((lookup_refiles o nested loader).of_start hfound hs)
      · obtain ⟨ht, k, hk, hlonger⟩ := longer_of_lookup hs hextends hfound
        have hleft := hkeeps id t ht
        dsimp only
        rw [← hsame t id k ht hk hlonger]
        rcases hresult : (search id).start t with ⟨e | _ | region, u⟩
        · cases e <;> rfl
        · rw [hresult] at hleft
          exact ih hleft
        · rfl

/-- A search that may go deeper than any name is long goes the same way however deep it may go. -/
theorem start_regionFrom (hs : s.state.Filed) (hk : s.state.population.class? id = some k)
    (hdepth : maxName < depth + k.name.length) (hdepth' : maxName < depth' + k.name.length) :
    (regionFrom o start stop depth id).start s = (regionFrom o start stop depth' id).start s := by
  induction depth generalizing id k s depth' with
  | zero =>
    have := hs.name_length_le hk
    omega
  | succ depth ih =>
    cases depth' with
    | zero =>
      have := hs.name_length_le hk
      omega
    | succ depth' =>
      have hnested : (regionInNested o k.loader k.name (regionFrom o start stop depth) k.record.nested).start s =
          (regionInNested o k.loader k.name (regionFrom o start stop depth') k.record.nested).start s := by
        refine start_regionInNested_congr (fun u id' k' hu hk' hlonger => ?_)
          (regionFrom_refiles o start stop depth) hs
        exact ih hu hk' (by omega) (by omega)
      rw [start_regionFrom_succ hk, start_regionFrom_succ hk, hnested]

/-- For lines that a class does not have, the classes nested in it are searched, each as if it had been asked
about. -/
theorem regionForLines_of_notFound (hs : s.state.Filed) (hk : s.state.population.class? id = some k)
    (hle : start ≤ stop) (hlines : k.record.findLine start = .notFound) :
    (regionForLines o id start stop).start s =
      (regionInNested o k.loader k.name (fun id => regionForLines o id start stop) k.record.nested).start s := by
  have hsearch : ∀ id, regionForLines o id start stop = regionFrom o start stop (maxName + 2) id :=
    fun id => if_neg (Nat.not_lt.mpr hle)
  rw [hsearch, start_regionFrom_succ hk, hlines]
  refine start_regionInNested_congr (fun u id' k' hu hk' _ => ?_) (regionFrom_refiles o start stop _) hs
  rw [hsearch]
  exact start_regionFrom hu hk' (by omega) (by omega)

end ClassCatalog.Catalog
