import ClassCatalog.Proofs.Catalog.Intact
import ClassCatalog.Proofs.ClassFile.Instructions
import ClassCatalog.Proofs.ClassFile.Lines
import ClassCatalog.Proofs.ClassFile.Parse

/-! Regions are ordered.

The two ends of a region are found in different ways: one by looking for the first line, the other by looking
for the line behind the last one or, past the end of the table, by walking through the code. For a table that
ascends and whose entries start where instructions do they agree (`Place.AnsweredIn.ordered`).

Which method that is about, in the class itself or in one nested in it, is what the search comes to. The
search is followed by one that answers the method with the region (`Place`, `placeForLines_maps`), and
`region_ordered` is about that method. -/
namespace ClassCatalog.Catalog
open ClassCatalog.Action ClassFile

/-! ### The search with the method it comes to -/

/-- A region and the method it lies in. -/
structure Place where
  id : ClassId
  method : Nat
  region : Region
deriving DecidableEq, Repr

def placeIn (id : ClassId) (k : LoadedClass) (method : Nat) (m : Method) (first start stop : Nat) :
    Action Catalog (Option Place) := do
  return (← regionIn id k method m first start stop).map (Place.mk id method)

def placeInNested (o : Outside) (loader : LoaderId) (outer : String)
    (search : ClassId → Action Catalog (Option Place)) : List String → Action Catalog (Option Place)
  | [] => return none
  | nested :: rest => do
    if !extendsName outer nested then placeInNested o loader outer search rest
    else
      match ← lookup o nested loader with
      | none => placeInNested o loader outer search rest
      | some id =>
        match ← Action.attempt (search id) with
        | .ok (some place) => return some place
        | .ok none => placeInNested o loader outer search rest
        | .error (.noDebugInfo _) => return none
        | .error e => Action.fail e

def placeFrom (o : Outside) (start stop : Nat) : Nat → ClassId → Action Catalog (Option Place)
  | 0, _ => return none
  | depth + 1, id => do
    match (← Action.state).population.class? id with
    | none => return none
    | some k =>
      let r := k.record
      let nested := placeInNested o k.loader k.name (placeFrom o start stop depth) r.nested
      match r.findLine start with
      | .noDebugInfo => Action.fail (.noDebugInfo r.name)
      | .notFound => nested
      | .found method first =>
        match r.methods[method]? with
        | none => return none
        | some m =>
          if m.isInitializer then
            match ← nested with
            | some place => return some place
            | none => placeIn id k method m first start stop
          else placeIn id k method m first start stop

def placeForLines (o : Outside) (id : ClassId) (start stop : Nat) : Action Catalog (Option Place) :=
  if stop < start then return none else placeFrom o start stop (maxName + 2) id

variable {o : Outside} {name : String} {loader : LoaderId} {s t : Scene Catalog} {id : ClassId} {k k' : LoadedClass}
  {m : Method} {method first start stop depth : Nat} {region : Region} {p : Place} {lines : LineTable}

theorem placeIn_maps (id : ClassId) (k : LoadedClass) (method : Nat) (m : Method) (first start stop : Nat) :
    Maps (Option.map Place.region) (placeIn id k method m first start stop)
      (regionIn id k method m first start stop) := by
  intro s
  unfold placeIn
  rw [start_bind_pure]
  rcases (regionIn id k method m first start stop).start s with ⟨_ | _ | _, _⟩ <;> rfl

theorem placeInNested_maps {search : ClassId → Action Catalog (Option Place)}
    {search' : ClassId → Action Catalog (Option Region)}
    (h : ∀ id, Maps (Option.map Place.region) (search id) (search' id)) (o : Outside) (loader : LoaderId)
    (outer : String) (names : List String) :
    Maps (Option.map Place.region) (placeInNested o loader outer search names)
      (regionInNested o loader outer search' names) := by
  induction names with
  | nil => exact .pure none
  | cons nested rest ih =>
    unfold placeInNested regionInNested
    split
    · exact ih
    · refine Maps.bind (.refl _) fun found => ?_
      cases found with
      | none => exact ih
      | some id =>
        refine Maps.bind (h id).attempt fun outcome => ?_
        cases outcome with
        | ok place =>
          cases place with
          | some place => exact .pure (some place)
          | none => exact ih
        | error e =>
          cases e with
          | noDebugInfo _ => exact .pure none
          | _ => exact .fail _

theorem placeFrom_maps (o : Outside) (start stop depth : Nat) (id : ClassId) :
    Maps (Option.map Place.region) (placeFrom o start stop depth id) (regionFrom o start stop depth id) := by
  induction depth generalizing id with
  | zero => exact .pure none
  | succ depth ih =>
    unfold placeFrom regionFrom
    refine Maps.bind (.refl _) fun c => ?_
    dsimp only [id_eq]
    cases c.population.class? id with
    | none => exact .pure none
    | some k =>
      have hnested := placeInNested_maps ih o k.loader k.name k.record.nested
      dsimp only
      cases k.record.findLine start with
      | noDebugInfo => exact .fail _
      | notFound => exact hnested
      | found method first =>
        dsimp only
        cases k.record.methods[method]? with
        | none => exact .pure none
        | some m =>
          dsimp only
          split
          · refine hnested.bind fun found => ?_
            cases found with
            | some place => exact .pure (some place)
            | none => exact placeIn_maps id k method m first start stop
          · exact placeIn_maps id k method m first start stop

/-- The two searches find the same regions and leave the same behind. -/
theorem placeForLines_maps (o : Outside) (id : ClassId) (start stop : Nat) :
    Maps (Option.map Place.region) (placeForLines o id start stop) (regionForLines o id start stop) := by
  unfold placeForLines regionForLines
  split
  · exact .pure none
  · exact placeFrom_maps o start stop _ id

/-! ### What the search comes to -/

/-- In `s` the region of `p` is answered for a method in which the first line is found. -/
structure Place.AnsweredIn (p : Place) (k : LoadedClass) (m : Method) (first start stop : Nat)
    (s t : Scene Catalog) : Prop where
  known : s.state.population.class? p.id = some k
  found : k.record.findLine start = .found p.method first
  method : k.record.methods[p.method]? = some m
  answer : (regionIn p.id k p.method m first start stop).start s = (.ok (some p.region), t)

theorem regionIn_of_record (h : k'.record = k.record) (id : ClassId) : regionIn id k' = regionIn id k := by
  funext method m first start stop
  unfold regionIn
  rw [h]

/-- An answer read off a record is one for the class that has it now. -/
theorem placeIn_answered (hk' : s.state.population.class? id = some k') (hrecord : k'.record = k.record)
    (hfound : k.record.findLine start = .found method first) (hm : k.record.methods[method]? = some m)
    (h : (placeIn id k method m first start stop).start s = (.ok (some p), t)) :
    p.AnsweredIn k' m first start stop s t := by
  obtain ⟨answer, u, hanswer, h⟩ := of_start_bind_ok h
  rw [← regionIn_of_record hrecord] at hanswer
  rw [← hrecord] at hfound hm
  cases answer with
  | none => cases h
  | some region =>
    cases h
    exact ⟨hk', hfound, hm, hanswer⟩

theorem of_placeInNested {search : ClassId → Action Catalog (Option Place)} {names : List String}
    (hsearch : ∀ id, Keeps Spares (search id))
    (h : (placeInNested o loader name search names).start s = (.ok (some p), t)) :
    ∃ id u, Spares s.state u.state ∧ (search id).start u = (.ok (some p), t) := by
  induction names generalizing s with
  | nil => cases h
  | cons nested rest ih =>
    unfold placeInNested at h
    split at h
    · exact ih h
    · obtain ⟨found, u, hfound, h⟩ := of_start_bind_ok h
      have hlookup := (lookup_spares o nested loader).of_start hfound
      cases found with
      | none =>
        obtain ⟨id, v, hv, hplace⟩ := ih h
        exact ⟨id, v, trans_of Spares hlookup hv, hplace⟩
      | some id =>
        dsimp only at h
        rw [start_bind, start_attempt] at h
        have hkept := hsearch id u
        rcases hinner : (search id).start u with ⟨e | _ | place, v⟩
        · rw [hinner] at h
          cases e <;> cases h
        · rw [hinner] at h hkept
          obtain ⟨id', w, hw, hplace⟩ := ih h
          exact ⟨id', w, trans_of Spares hlookup (trans_of Spares hkept hw), hplace⟩
        · rw [hinner] at h
          cases h
          exact ⟨id, u, hlookup, hinner⟩

theorem placeFrom_spares (o : Outside) (start stop depth : Nat) (id : ClassId) :
    Keeps Spares (placeFrom o start stop depth id) :=
  (placeFrom_maps o start stop depth id).keeps
    ((surveys_keeps Spares).regionFrom (lookup_spares o) bytecode_spares start stop depth id)

theorem placeInNested_spares (o : Outside) (start stop depth : Nat) (loader : LoaderId) (name : String)
    (names : List String) : Keeps Spares (placeInNested o loader name (placeFrom o start stop depth) names) :=
  (placeInNested_maps (placeFrom_maps o start stop depth) o loader name names).keeps
    ((surveys_keeps Spares).regionInNested (lookup_spares o) loader name
      ((surveys_keeps Spares).regionFrom (lookup_spares o) bytecode_spares start stop depth) names)

/-- A place that the search comes to is answered at its end, in a class as it is then. -/
theorem of_placeFrom (h : (placeFrom o start stop depth id).start s = (.ok (some p), t)) :
    ∃ k m first u, Spares s.state u.state ∧ p.AnsweredIn k m first start stop u t := by
  induction depth generalizing id s with
  | zero => cases h
  | succ depth ih =>
    have hnested : ∀ {loader name names},
        (placeInNested o loader name (placeFrom o start stop depth) names).start s = (.ok (some p), t) →
        ∃ k m first u, Spares s.state u.state ∧ p.AnsweredIn k m first start stop u t := by
      intro loader name names h
      obtain ⟨id, u, hu, hplace⟩ := of_placeInNested (placeFrom_spares o start stop depth) h
      obtain ⟨k, m, first, v, hv, hanswered⟩ := ih hplace
      exact ⟨k, m, first, v, trans_of Spares hu hv, hanswered⟩
    unfold placeFrom at h
    rw [start_state_bind] at h
    dsimp only at h
    split at h
    · cases h
    · rename_i k hk
      split at h
      · cases h
      · exact hnested h
      · rename_i method first hfound
        split at h
        · cases h
        · rename_i m hm
          split at h
          · obtain ⟨found, u, hsearched, h⟩ := of_start_bind_ok h
            cases found with
            | some place =>
              cases h
              exact hnested hsearched
            | none =>
              have hkept : Spares s.state u.state :=
                (placeInNested_spares o start stop depth _ _ _).of_start hsearched
              obtain ⟨k', hk', hintact⟩ := hkept.kept id k hk
              exact ⟨k', m, first, u, hkept, placeIn_answered hk' hintact.record hfound hm h⟩
          · exact ⟨k, m, first, s, refl_of Spares s.state, placeIn_answered hk rfl hfound hm h⟩

/-! ### The ends of a region -/

theorem leastOffset_le (lines : LineTable) (first start stop : Nat) :
    leastOffset lines first start stop ≤ first := by
  unfold leastOffset
  generalize ((List.range (min stop 65536)).filterMap fun line =>
    if start < line then lines.bciOf? line else none) = offsets
  induction offsets generalizing first with
  | nil => exact Nat.le_refl first
  | cons x rest ih => exact Nat.le_trans (ih (min first x)) (Nat.min_le_left first x)

theorem le_endLine (r : Record) (method stop : Nat) : stop ≤ endLine r method stop := by
  unfold endLine
  split
  · split <;> omega
  · exact Nat.le_refl stop

theorem of_regionIn (h : (regionIn id k method m first start stop).start s = (.ok (some region), t)) :
    (region.className = k.record.name ∧ region.methodName = m.name ∧ region.signature = m.signature) ∧
      region.first ≤ first ∧
      (k.record.findLine (endLine k.record method stop) = .found method region.last ∨
        ∃ answer, ((onClass none id (LoadedClass.bytecode method)).start s).1 = .ok answer ∧
          region.last = lastInstruction answer) := by
  unfold regionIn at h
  dsimp only at h
  split at h
  · rename_i other last hlast
    split at h
    · rename_i hsame
      cases h
      exact ⟨⟨rfl, rfl, rfl⟩, leastOffset_le .., .inl (hsame ▸ hlast)⟩
    · cases h
  · obtain ⟨answer, u, hanswer, h⟩ := of_start_bind_ok h
    cases h
    exact ⟨⟨rfl, rfl, rfl⟩, leastOffset_le .., .inr ⟨answer, congrArg Prod.fst hanswer, rfl⟩⟩

theorem answer_onClass {α : Type} {absent : α} {a : Action LoadedClass α}
    (hk : s.state.population.class? id = some k) :
    ((onClass absent id a).start s).1 = (a.start ⟨k, s.journal⟩).1 := by
  unfold onClass
  rw [start_state_bind]
  rw [hk]
  rfl

/-- Past the end of a table a region ends at the last instruction, and no other starts behind that. -/
theorem lastInstruction_of_start {answer : Option Bytes} (h : Instruction.Start (answer.getD #[]) first) :
    first ≤ lastInstruction answer ∧ lastInstruction answer < (answer.getD #[]).size := by
  have hinside := h.lt_size
  have hsize : 0 < (answer.getD #[]).size := Nat.zero_lt_of_lt hinside
  exact ⟨Instruction.le_previousStart h hinside, (Instruction.start_previousStart hsize hsize).2⟩

namespace Place.AnsweredIn
variable {u : Scene Catalog}

/-- The class is still there when the region is answered. -/
theorem later (h : p.AnsweredIn k m first start stop u t) :
    ∃ k', t.state.population.class? p.id = some k' ∧ k.Intact k' :=
  (Keeps.of_start ((surveys_keeps Spares).regionIn bytecode_spares p.id k p.method m first start stop)
    h.answer).kept p.id k h.known

/-- In a table that ascends and starts where instructions do, the ends of a region are ordered and inside the
code. -/
theorem ordered (h : p.AnsweredIn k m first start stop u t) (hk : k.Original) (hle : start ≤ stop)
    (hlines : k.record.lineTable? p.method = some lines) (hascending : lines.Ascending)
    (hstarts : ∀ e ∈ lines, Instruction.Start ((k.record.bytecode? p.method).getD #[]) e.startPc.toNat) :
    p.region.first ≤ p.region.last ∧ p.region.last < ((k.record.bytecode? p.method).getD #[]).size := by
  have hstart : ∀ {line bci}, lines.bciOf? line = some bci →
      Instruction.Start ((k.record.bytecode? p.method).getD #[]) bci := by
    intro line bci hbci
    obtain ⟨e, he, rfl⟩ := LineTable.exists_mem_of_bciOf? hascending hbci
    exact hstarts e he
  have hfirst := Record.bciOf?_of_findLine hlines h.found
  obtain ⟨_, hleast, hends⟩ := of_regionIn h.answer
  rcases hends with hfound | ⟨answer, hanswer, hlast⟩
  · have hlast := Record.bciOf?_of_findLine hlines hfound
    have hbehind := LineTable.bciOf?_mono hascending (Nat.le_trans hle (le_endLine ..)) hfirst hlast
    exact ⟨Nat.le_trans hleast hbehind, (hstart hlast).lt_size⟩
  · -- There is code, as the first line starts in it, and it is what the class answers.
    have hfirstStart := hstart hfirst
    cases hcode : k.record.bytecode? p.method with
    | none =>
      rw [hcode] at hfirstStart
      exact absurd hfirstStart.lt_size (Nat.not_lt_zero first)
    | some code =>
      rw [answer_onClass h.known] at hanswer
      have hsame : answer.getD #[] = code := hk.answer_bytecode hanswer hcode
      rw [hcode, Option.getD_some, ← hsame] at hfirstStart
      obtain ⟨hbehind, hinside⟩ := lastInstruction_of_start hfirstStart
      rw [hlast, Option.getD_some, ← hsame]
      exact ⟨Nat.le_trans hleast hbehind, hinside⟩

end Place.AnsweredIn

/-- **Regions are ordered.** In whatever state a session is, if no class has a replaced body or an added
attribute name, a region that is answered for some lines lies in a method of a class of the catalog, the one
asked about or one nested in it that the search has come to. If the line table of the method ascends and its
entries start where a walk through the bytecode finds instructions, the region ends no earlier than it starts,
and inside the bytecode. -/
theorem region_ordered (hs : Used s)
    (hbodies : ∀ id k, s.state.population.class? id = some k → ∀ i, k.isReplaced i = false)
    (hnames : ∀ id k, s.state.population.class? id = some k → k.attributeNames = k.record.attributeNames)
    (h : (regionForLines o id start stop).start s = (.ok (some region), t)) :
    ∃ p k m lines, (placeForLines o id start stop).start s = (.ok (some p), t) ∧ p.region = region ∧
      t.state.population.class? p.id = some k ∧ k.record.methods[p.method]? = some m ∧
      (region.className = k.name ∧ region.methodName = m.name ∧ region.signature = m.signature) ∧
      k.record.lineTable? p.method = some lines ∧
      (lines.Ascending →
        (∀ e ∈ lines, Instruction.Start ((k.record.bytecode? p.method).getD #[]) e.startPc.toNat) →
        region.first ≤ region.last ∧ region.last < ((k.record.bytecode? p.method).getD #[]).size) := by
  have hle : start ≤ stop := by
    by_contra hless
    rw [regionForLines, if_pos (Nat.lt_of_not_le hless)] at h
    cases h
  obtain ⟨place, hsearch, hplace⟩ := (placeForLines_maps o id start stop).of_start_ok h
  obtain ⟨p, rfl, rfl⟩ := Option.map_eq_some_iff.mp hplace
  have hfrom := hsearch
  rw [placeForLines, if_neg (Nat.not_lt.mpr hle)] at hfrom
  obtain ⟨k, m, first, u, hspares, hanswered⟩ := of_placeFrom hfrom
  have hbefore : ∀ id k, s.state.population.class? id = some k → k.Original :=
    fun id k hk => ⟨hs.read hk, hbodies id k hk, hnames id k hk⟩
  have horiginal : k.Original :=
    hspares.every (fun _ _ h => h.intact) (fun _ _ _ h => h.original) hbefore hanswered.known
  obtain ⟨_, lines, _, hlines, _⟩ := Record.exists_table_of_findLine hanswered.found
  obtain ⟨k', hk', hintact⟩ := hanswered.later
  refine ⟨p, k', m, lines, hsearch, rfl, hk', ?_, ?_, ?_, ?_⟩
  · rw [hintact.record]
    exact hanswered.method
  · rw [LoadedClass.name, hintact.record]
    exact (of_regionIn hanswered.answer).1
  · rw [hintact.record]
    exact hlines
  · rw [hintact.record]
    exact hanswered.ordered horiginal hle hlines

/-- A class `A` with a class nested in it. -/
def outerFile : Image.File :=
  { Image.File.sample with
    pool := ⟨Image.File.sample.pool.constants ++ [.utf8 (Image.File.ascii "A$B"), .classRef 13,
      .utf8 (Image.File.ascii "InnerClasses"), .utf8 (Image.File.ascii "B")]⟩
    attributes := [⟨15, .nested [⟨14, 4, 16, 0⟩]⟩] }

/-- The nested class, with two instructions on two lines. -/
def nestedFile : Image.File :=
  { outerFile with
    thisClass := 14
    methods := [⟨1, 7, 8, [], some ⟨11, 1, 1, [0x00, 0xb1], [], [⟨12, .lines [⟨0, 5⟩, ⟨1, 6⟩]⟩]⟩, []⟩]
    attributes := [] }

/-- The bytes of both are there, and the outer class has been looked up. -/
def nestedSession : Scene Catalog :=
  let o := sampleOutside Loader.none
  after [(o, .addSupplied "A" 1 outerFile.bytes.toArray), (o, .addSupplied "A$B" 1 nestedFile.bytes.toArray),
    (o, .lookup "A" 1)] (opening sampleConfig)

theorem region_ordered_nested :
    ∃ region t,
      (regionForLines (sampleOutside Loader.none) 0 5 6).start nestedSession = (.ok (some region), t) ∧
      region.className = "A$B" ∧ region.first ≤ region.last ∧ region.last < 2 := by
  generalize hresult : (placeForLines (sampleOutside Loader.none) 0 5 6).start nestedSession = result
  have hfound : result.1 = .ok (some ⟨1, 0, ⟨"A$B", "m", "()V", 0, 1⟩⟩) ∧
      (result.2.state.population.class? 1).map (fun k => (k.record.lineTable? 0, k.record.bytecode? 0)) =
        some (some [⟨0, 5⟩, ⟨1, 6⟩], some #[0x00, 0xb1]) := by
    rw [← hresult]
    decide +kernel
  obtain ⟨hplace, hclass⟩ := hfound
  have hregion := placeForLines_maps (sampleOutside Loader.none) 0 5 6 nestedSession
  rw [hresult, hplace] at hregion
  refine ⟨_, result.2, hregion, rfl, ?_⟩
  have hreachable : Reachable nestedSession := ⟨_, _, rfl⟩
  have hused : Used nestedSession := (Used.opening sampleConfig).after _
  obtain ⟨p, k, m, lines, hsearch, _, hk, _, _, hlines, hordered⟩ := region_ordered hused
    (fun _ _ hk => (hreachable.original hk).bodies) (fun _ _ hk => (hreachable.original hk).names) hregion
  have hp : p = ⟨1, 0, ⟨"A$B", "m", "()V", 0, 1⟩⟩ := by
    have hsame := congrArg Prod.fst (hresult.symm.trans hsearch)
    rw [hplace] at hsame
    cases hsame
    rfl
  subst hp
  rw [hk] at hclass
  obtain ⟨hlines', hcode⟩ := Prod.mk.inj (Option.some.inj hclass)
  cases hlines.symm.trans hlines'
  rw [hcode] at hordered
  refine hordered (by decide) ?_
  have hstart : Instruction.Start #[0x00, 0xb1] 0 := .first (by decide)
  exact List.forall_mem_cons.mpr ⟨hstart, List.forall_mem_singleton.mpr (hstart.next rfl (by decide))⟩

end ClassCatalog.Catalog
