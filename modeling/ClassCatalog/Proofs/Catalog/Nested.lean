import ClassCatalog.Proofs.Catalog.Descent
import ClassCatalog.Proofs.Catalog.Regions
import ClassCatalog.Proofs.ClassFile.Coverage

/-! Regions in nested classes.

For lines that no method of a class has, the classes nested in it are looked up and searched in the order in which
they are listed. `Passes` says what has been passed when the search comes to one of them. It passes those that are
not found and those without a region, but not a class without line tables: there it ends, and what stands behind
stays hidden (`nested_region_exact`, `not_passed_bare`). -/
namespace ClassCatalog.Catalog
open ClassCatalog.Action ClassFile

variable {o : Outside} {outer nested : String} {loader : LoaderId} {s t u v : Scene Catalog} {id other : ClassId}
  {k k' : LoadedClass} {start stop : Nat} {names front back : List String} {region : Region} {skips : Prop}

/-! ### Passing classes -/

/-- From `s` to `t` the classes called `names` are looked up and searched, and none of them has the lines. A class
without line tables is passed over if `skips` holds. -/
inductive Passes (o : Outside) (loader : LoaderId) (start stop : Nat) (skips : Prop) :
    List String → Scene Catalog → Scene Catalog → Prop where
  | nil (s : Scene Catalog) : Passes o loader start stop skips [] s s
  | missing {nested : String} {rest : List String} {s t u : Scene Catalog}
      (h : (lookup o nested loader).start s = (.ok none, t)) (hrest : Passes o loader start stop skips rest t u) :
      Passes o loader start stop skips (nested :: rest) s u
  | empty {nested : String} {rest : List String} {id : ClassId} {s t u v : Scene Catalog}
      (h : (lookup o nested loader).start s = (.ok (some id), t))
      (hnone : (regionForLines o id start stop).start t = (.ok none, u))
      (hrest : Passes o loader start stop skips rest u v) : Passes o loader start stop skips (nested :: rest) s v
  | bare {nested : String} {rest : List String} {id : ClassId} {k : LoadedClass} {s t u : Scene Catalog}
      (hskips : skips) (h : (lookup o nested loader).start s = (.ok (some id), t))
      (hk : t.state.population.class? id = some k) (hbare : k.record.hasLineTables = false)
      (hrest : Passes o loader start stop skips rest t u) : Passes o loader start stop skips (nested :: rest) s u

/-- From `s` to `t` the search comes to a class without line tables. -/
def MeetsBare (o : Outside) (loader : LoaderId) (start stop : Nat) (names : List String) (s t : Scene Catalog) : Prop :=
  ∃ front nested back u id k, names = front ++ nested :: back ∧ Passes o loader start stop False front s u ∧
    (lookup o nested loader).start u = (.ok (some id), t) ∧ t.state.population.class? id = some k ∧
    k.record.hasLineTables = false

/-- The search in classes behind others that it passes. -/
theorem start_regionInNested_append (h : Passes o loader start stop False front s u)
    (hnames : ∀ n ∈ front, extendsName outer n = true) (rest : List String) :
    (regionInNested o loader outer (fun id => regionForLines o id start stop) (front ++ rest)).start s =
      (regionInNested o loader outer (fun id => regionForLines o id start stop) rest).start u := by
  induction h with
  | nil s => rfl
  | missing h _ ih =>
    obtain ⟨hextends, hnames⟩ := List.forall_mem_cons.mp hnames
    rw [List.cons_append, start_regionInNested_cons hextends, h]
    exact ih hnames
  | empty h hnone _ ih =>
    obtain ⟨hextends, hnames⟩ := List.forall_mem_cons.mp hnames
    rw [List.cons_append, start_regionInNested_cons hextends, h]
    dsimp only
    rw [hnone]
    exact ih hnames
  | bare hskips => exact hskips.elim

/-- A region comes from a class in front of which all are passed. -/
theorem of_regionInNested (hnames : ∀ n ∈ names, extendsName outer n = true)
    (h : (regionInNested o loader outer (fun id => regionForLines o id start stop) names).start s =
      (.ok (some region), t)) :
    ∃ front nested back u v id, names = front ++ nested :: back ∧ Passes o loader start stop False front s u ∧
      (lookup o nested loader).start u = (.ok (some id), v) ∧
      (regionForLines o id start stop).start v = (.ok (some region), t) := by
  induction names generalizing s with
  | nil => cases h
  | cons n rest ih =>
    obtain ⟨hextends, hnames⟩ := List.forall_mem_cons.mp hnames
    rw [start_regionInNested_cons hextends] at h
    rcases hfound : (lookup o n loader).start s with ⟨_ | _ | id, u⟩
    · rw [hfound] at h
      cases h
    · rw [hfound] at h
      obtain ⟨front, nested, back, v, w, id, rfl, hpasses, hanswer⟩ := ih hnames h
      exact ⟨n :: front, nested, back, v, w, id, rfl, .missing hfound hpasses, hanswer⟩
    · rw [hfound] at h
      dsimp only at h
      rcases hsearch : (regionForLines o id start stop).start u with ⟨e | _ | region', v⟩
      · rw [hsearch] at h
        cases e <;> cases h
      · rw [hsearch] at h
        obtain ⟨front, nested, back, w, x, id', rfl, hpasses, hanswer⟩ := ih hnames h
        exact ⟨n :: front, nested, back, w, x, id', rfl, .empty hfound hsearch hpasses, hanswer⟩
      · rw [hsearch] at h
        cases h
        exact ⟨[], n, rest, s, u, id, rfl, .nil s, hfound, hsearch⟩

/-- If classes without line tables have been passed over, there is a first one. -/
theorem Passes.strict_or_meetsBare (h : Passes o loader start stop skips names s t) :
    Passes o loader start stop False names s t ∨ ∃ u, MeetsBare o loader start stop names s u := by
  induction h with
  | nil s => exact .inl (.nil s)
  | @missing n _ _ _ _ h _ ih =>
    rcases ih with hstrict | ⟨v, front, nested, back, u, id, k, rfl, hpasses, hbare⟩
    · exact .inl (.missing h hstrict)
    · exact .inr ⟨v, n :: front, nested, back, u, id, k, rfl, .missing h hpasses, hbare⟩
  | @empty n _ _ _ _ _ _ h hnone _ ih =>
    rcases ih with hstrict | ⟨v, front, nested, back, u, id, k, rfl, hpasses, hbare⟩
    · exact .inl (.empty h hnone hstrict)
    · exact .inr ⟨v, n :: front, nested, back, u, id, k, rfl, .empty h hnone hpasses, hbare⟩
  | @bare n rest id k s t _ _ h hk hbare _ _ =>
    exact .inr ⟨t, [], n, rest, s, id, k, rfl, .nil s, h, hk, hbare⟩

/-! ### Classes without line tables -/

theorem regionForLines_of_bare (hk : s.state.population.class? id = some k) (hbare : k.record.hasLineTables = false)
    (hle : start ≤ stop) :
    (regionForLines o id start stop).start s = (.error (.noDebugInfo k.record.name), s) := by
  rw [regionForLines, if_neg (Nat.not_lt.mpr hle), start_regionFrom_succ hk,
    Record.findLine_eq_noDebugInfo_iff.mpr hbare]

/-- A class without line tables ends the search. -/
theorem start_regionInNested_of_meetsBare (hnames : ∀ n ∈ names, extendsName outer n = true) (hle : start ≤ stop)
    (h : MeetsBare o loader start stop names s t) :
    (regionInNested o loader outer (fun id => regionForLines o id start stop) names).start s = (.ok none, t) := by
  obtain ⟨front, nested, back, u, id, k, rfl, hpasses, hfound, hk, hbare⟩ := h
  obtain ⟨hbefore, hnested⟩ := List.forall_mem_append.mp hnames
  rw [start_regionInNested_append hpasses hbefore,
    start_regionInNested_cons (hnested nested (List.mem_cons_self ..)), hfound]
  dsimp only
  rw [regionForLines_of_bare hk hbare hle]

/-! ### Regions -/

theorem extendsName_of_nests (h : Nests outer nested) : extendsName outer nested = true := by
  obtain ⟨simple, rfl⟩ := h
  unfold extendsName
  rw [Bool.and_eq_true, List.isPrefixOf_iff_prefix, decide_eq_true_iff]
  simp only [String.toList_append, String.length_append]
  have : "$".length = 1 := by decide
  exact ⟨⟨"$".toList ++ simple.toList, by rw [List.append_assoc]⟩, by omega⟩

/-- **Regions in nested classes.** The class has line tables, but none of its methods has the first line. A region is
answered exactly if one of its nested classes has it and those before are passed, because they are not found or
have no region; it is the region of that class. If in addition classes without line tables have to be passed over
to get there, the first of these ends the search, and there is no region. -/
theorem nested_region_exact (hs : Used s) (hk : s.state.population.class? id = some k)
    (htables : k.record.hasLineTables = true) (hown : ∀ i, ¬ k.record.Covers i start) (hle : start ≤ stop) :
    (∀ region t, (regionForLines o id start stop).start s = (.ok (some region), t) ↔
      ∃ front nested back u v other, k.record.nested = front ++ nested :: back ∧
        Passes o k.loader start stop False front s u ∧ (lookup o nested k.loader).start u = (.ok (some other), v) ∧
        (regionForLines o other start stop).start v = (.ok (some region), t)) ∧
    ∀ front nested back u v other region t, k.record.nested = front ++ nested :: back →
      Passes o k.loader start stop True front s u → (lookup o nested k.loader).start u = (.ok (some other), v) →
      (regionForLines o other start stop).start v = (.ok (some region), t) →
      (Passes o k.loader start stop False front s u ∧
          (regionForLines o id start stop).start s = (.ok (some region), t)) ∨
        ∃ x, MeetsBare o k.loader start stop front s x ∧
          (regionForLines o id start stop).start s = (.ok none, x) := by
  obtain ⟨_, b, hparse⟩ := (hs.read hk).parsed
  have hnames : ∀ n ∈ k.record.nested, extendsName k.name n = true :=
    fun n hn => extendsName_of_nests (Record.nests_of_mem_nested hparse hn)
  rw [regionForLines_of_notFound hs.filed hk hle (Record.findLine_eq_notFound_iff.mpr ⟨htables, hown⟩)]
  have hfound : ∀ {front nested back u v other region t}, k.record.nested = front ++ nested :: back →
      Passes o k.loader start stop False front s u → (lookup o nested k.loader).start u = (.ok (some other), v) →
      (regionForLines o other start stop).start v = (.ok (some region), t) →
      (regionInNested o k.loader k.name (fun id => regionForLines o id start stop) k.record.nested).start s =
        (.ok (some region), t) := by
    intro front nested back u v other region t hsplit hpasses hlookup hregion
    rw [hsplit] at hnames ⊢
    obtain ⟨hbefore, hnested⟩ := List.forall_mem_append.mp hnames
    rw [start_regionInNested_append hpasses hbefore,
      start_regionInNested_cons (hnested nested (List.mem_cons_self ..)), hlookup]
    dsimp only
    rw [hregion]
  refine ⟨fun region t => ⟨of_regionInNested hnames, ?_⟩, ?_⟩
  · rintro ⟨front, nested, back, u, v, other, hsplit, hpasses, hlookup, hregion⟩
    exact hfound hsplit hpasses hlookup hregion
  · intro front nested back u v other region t hsplit hpasses hlookup hregion
    rcases hpasses.strict_or_meetsBare with hstrict | ⟨x, hmeets⟩
    · exact .inl ⟨hstrict, hfound hsplit hstrict hlookup hregion⟩
    · have hall : MeetsBare o k.loader start stop k.record.nested s x := by
        obtain ⟨front, bare, rest, w, b, l, rfl, hrest⟩ := hmeets
        exact ⟨front, bare, rest ++ nested :: back, w, b, l, by rw [hsplit, List.append_assoc]; rfl, hrest⟩
      exact .inr ⟨x, hmeets, start_regionInNested_of_meetsBare hnames hle hall⟩

/-- A class `A` with two classes nested in it. The line table of its one method is empty. -/
def outermostFile : Image.File where
  minor := 0
  major := 52
  pool := ⟨[.utf8 (Image.File.ascii "A"), .classRef 1, .utf8 (Image.File.ascii "A$B"), .classRef 3,
    .utf8 (Image.File.ascii "A$C"), .classRef 5, .utf8 (Image.File.ascii "m"), .utf8 (Image.File.ascii "()V"),
    .utf8 (Image.File.ascii "Code"), .utf8 (Image.File.ascii "LineNumberTable"),
    .utf8 (Image.File.ascii "InnerClasses"), .utf8 (Image.File.ascii "B"), .utf8 (Image.File.ascii "C")]⟩
  access := 0x21
  thisClass := 2
  superClass := 2
  interfaces := []
  fields := []
  methods := [⟨1, 7, 8, [], some ⟨9, 1, 1, [0xb1], [], [⟨10, .lines []⟩]⟩, []⟩]
  attributes := [⟨11, .nested [⟨4, 2, 12, 0⟩, ⟨6, 2, 13, 0⟩]⟩]

/-- The first of them, without a line table. -/
def bareFile : Image.File :=
  { outermostFile with
    thisClass := 4
    methods := [⟨1, 7, 8, [], some ⟨9, 1, 1, [0xb1], [], []⟩, []⟩]
    attributes := [] }

/-- The second of them, with two instructions on two lines. -/
def secondFile : Image.File :=
  { outermostFile with
    thisClass := 6
    methods := [⟨1, 7, 8, [], some ⟨9, 1, 1, [0x00, 0xb1], [], [⟨10, .lines [⟨0, 5⟩, ⟨1, 6⟩]⟩]⟩, []⟩]
    attributes := [] }

/-- The outer class has been looked up, and the bytes of others are there. -/
def outermostSession (others : List (String × Image.File)) : Scene Catalog :=
  let o := sampleOutside Loader.none
  after ((("A", outermostFile) :: others).map (fun (name, f) => (o, .addSupplied name 1 f.bytes.toArray)) ++
    [(o, .lookup "A" 1)]) (opening sampleConfig)

theorem outermostSession_used (others : List (String × Image.File)) : Used (outermostSession others) :=
  (Used.opening sampleConfig).after _

/-- What makes a class one that `outermostFile` was read into. -/
theorem exists_outermost (h : (s.state.population.class? 0).map (fun k =>
      (k.loader, k.record.nested, k.record.findLine 5)) = some (1, ["A$B", "A$C"], .notFound)) :
    ∃ k, s.state.population.class? 0 = some k ∧ k.loader = 1 ∧ k.record.nested = ["A$B", "A$C"] ∧
      k.record.hasLineTables = true ∧ ∀ i, ¬ k.record.Covers i 5 := by
  obtain ⟨k, hk, hparts⟩ := Option.map_eq_some_iff.mp h
  obtain ⟨hloader, hnested, hlines⟩ := by simpa only [Prod.mk.injEq] using hparts
  exact ⟨k, hk, hloader, hnested, Record.findLine_eq_notFound_iff.mp hlines⟩

/-- The first nested class is missing, the second has the lines. -/
theorem nested_region_exact_sample :
    ∃ t, (regionForLines (sampleOutside Loader.none) 0 5 6).start (outermostSession [("A$C", secondFile)]) =
      (.ok (some ⟨"A$C", "m", "()V", 0, 1⟩), t) := by
  generalize hmissing : (lookup (sampleOutside Loader.none) "A$B" 1).start
    (outermostSession [("A$C", secondFile)]) = first
  generalize hlookup : (lookup (sampleOutside Loader.none) "A$C" 1).start first.2 = second
  generalize hregion : (regionForLines (sampleOutside Loader.none) 1 5 6).start second.2 = result
  have hanswers : ((outermostSession [("A$C", secondFile)]).state.population.class? 0).map (fun k =>
        (k.loader, k.record.nested, k.record.findLine 5)) = some (1, ["A$B", "A$C"], .notFound) ∧
      first.1 = .ok none ∧ second.1 = .ok (some 1) ∧ result.1 = .ok (some ⟨"A$C", "m", "()V", 0, 1⟩) := by
    rw [← hregion, ← hlookup, ← hmissing]
    decide +kernel
  obtain ⟨_, u⟩ := first
  obtain ⟨_, v⟩ := second
  obtain ⟨_, t⟩ := result
  obtain ⟨hclass, rfl, rfl, rfl⟩ := hanswers
  obtain ⟨k, hk, hloader, hnested, htables, hown⟩ := exists_outermost hclass
  rw [← hloader] at hmissing hlookup
  obtain ⟨hiff, _⟩ := nested_region_exact (o := sampleOutside Loader.none) (outermostSession_used _) hk htables hown
    (by decide : 5 ≤ 6)
  exact ⟨t, (hiff _ t).mpr ⟨["A$B"], "A$C", [], u, v, 1, hnested, .missing hmissing (.nil u), hlookup, hregion⟩⟩

/-- A class without line tables may hide the class that has the lines. -/
theorem not_passed_bare :
    ¬ ∀ (o : Outside) (s u v t : Scene Catalog) (id other : ClassId) (k : LoadedClass) (start stop : Nat)
        (front back : List String) (nested : String) (region : Region), Used s →
      s.state.population.class? id = some k → k.record.hasLineTables = true →
      (∀ i, ¬ k.record.Covers i start) → start ≤ stop → k.record.nested = front ++ nested :: back →
      Passes o k.loader start stop True front s u → (lookup o nested k.loader).start u = (.ok (some other), v) →
      (regionForLines o other start stop).start v = (.ok (some region), t) →
      ∃ x, (regionForLines o id start stop).start s = (.ok (some region), x) := by
  intro hall
  generalize hs : outermostSession [("A$B", bareFile), ("A$C", secondFile)] = s
  generalize hbare : (lookup (sampleOutside Loader.none) "A$B" 1).start s = first
  generalize hlookup : (lookup (sampleOutside Loader.none) "A$C" 1).start first.2 = second
  generalize hregion : (regionForLines (sampleOutside Loader.none) 2 5 6).start second.2 = result
  have hanswers : (s.state.population.class? 0).map (fun k => (k.loader, k.record.nested, k.record.findLine 5)) =
        some (1, ["A$B", "A$C"], .notFound) ∧ first.1 = .ok (some 1) ∧
      (first.2.state.population.class? 1).map (fun k => k.record.hasLineTables) = some false ∧
      second.1 = .ok (some 2) ∧ result.1 = .ok (some ⟨"A$C", "m", "()V", 0, 1⟩) ∧
      ((regionForLines (sampleOutside Loader.none) 0 5 6).start s).1 = .ok none := by
    rw [← hregion, ← hlookup, ← hbare, ← hs]
    decide +kernel
  obtain ⟨_, u⟩ := first
  obtain ⟨_, v⟩ := second
  obtain ⟨_, t⟩ := result
  obtain ⟨hclass, rfl, hfirst, rfl, rfl, hnone⟩ := hanswers
  obtain ⟨k, hk, hloader, hnested, htables, hown⟩ := exists_outermost hclass
  obtain ⟨l, hl, hnolines⟩ := Option.map_eq_some_iff.mp hfirst
  rw [← hloader] at hbare hlookup
  obtain ⟨x, hanswer⟩ := hall _ s u v t 0 2 k 5 6 ["A$B"] [] "A$C" _ (hs ▸ outermostSession_used _) hk htables hown
    (by decide) hnested (.bare trivial hbare hl hnolines (.nil u)) hlookup hregion
  rw [hanswer] at hnone
  cases hnone

end ClassCatalog.Catalog
