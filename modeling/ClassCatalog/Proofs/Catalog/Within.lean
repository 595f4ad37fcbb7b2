import ClassCatalog.Proofs.Catalog.Regions
import ClassCatalog.Proofs.ClassFile.Coverage

/-! Regions within a method.

Lines that lie within those of one method have a region there unless the line behind them is found in another method
(`Record.Taken`). That line is looked for to find where the region ends, and it need not be one of the method's own
lines: the next method may start there, or one whose lines enclose it (`region_within`, `not_region_within`). -/
namespace ClassCatalog.Catalog
open ClassCatalog.Action ClassFile

variable {o : Outside} {s t : Scene Catalog} {id : ClassId} {k : LoadedClass} {m : Method} {lines : LineTable}
  {i other first last start stop : Nat}

/-! ### The ends of a region -/

theorem mem_offsets {x : Nat} :
    (x ∈ (List.range (min stop 65536)).filterMap fun line =>
      if start < line then lines.bciOf? line else none) ↔
      ∃ line, (start < line ∧ line < stop) ∧ lines.bciOf? line = some x := by
  rw [List.mem_filterMap]
  constructor
  · rintro ⟨line, hline, hx⟩
    split at hx
    · rename_i hbehind
      rw [List.mem_range] at hline
      exact ⟨line, ⟨hbehind, by omega⟩, hx⟩
    · cases hx
  · rintro ⟨line, ⟨hbehind, hbefore⟩, hx⟩
    have hcovers := LineTable.isSome_bciOf?.mp (Option.isSome_iff_exists.mpr ⟨x, hx⟩)
    obtain ⟨_, e, _, hle⟩ := hcovers
    have := e.line.toNat_lt
    exact ⟨line, List.mem_range.mpr (by omega), by rw [if_pos hbehind, hx]⟩

/-- A region starts at the least offset of its first line and those before its last. -/
theorem leastOffset_isLeast (hfirst : lines.bciOf? start = some first) :
    IsLeast {bci | ∃ line, (line = start ∨ start < line ∧ line < stop) ∧ lines.bciOf? line = some bci}
      (leastOffset lines first start stop) := by
  have hmin : (first :: (List.range (min stop 65536)).filterMap fun line =>
      if start < line then lines.bciOf? line else none).min? = some (leastOffset lines first start stop) := rfl
  obtain ⟨hmem, hle⟩ := List.min?_eq_some_iff.mp hmin
  constructor
  · rcases List.mem_cons.mp hmem with hsame | hin
    · rw [hsame]
      exact ⟨start, .inl rfl, hfirst⟩
    · obtain ⟨line, hbetween, hbci⟩ := mem_offsets.mp hin
      exact ⟨line, .inr hbetween, hbci⟩
  · rintro x ⟨line, rfl | hbetween, hbci⟩
    · cases hfirst.symm.trans hbci
      exact hle _ (List.mem_cons_self ..)
    · exact hle x (List.mem_cons_of_mem _ (mem_offsets.mpr ⟨line, hbetween, hbci⟩))

theorem endLine_of_covers (hlines : k.record.lineTable? i = some lines) (h : lines.Covers stop) :
    endLine k.record i stop = stop + 1 := by
  obtain ⟨least, greatest, hbounds, _, hle⟩ := LineTable.covers_iff.mp h
  rw [endLine, Record.lineBounds?, hlines, Option.bind_some, hbounds]
  exact if_pos hle

/-- The region of a method that ends at `last`. -/
def regionOf (k : LoadedClass) (m : Method) (lines : LineTable) (first start stop last : Nat) : Region :=
  ⟨k.name, m.name, m.signature, leastOffset lines first start stop, last⟩

/-- If the line behind the last one is found, the region ends where it starts, or there is none. -/
theorem regionIn_of_found (hlines : k.record.lineTable? i = some lines) (hcovers : lines.Covers stop)
    (h : k.record.findLine (stop + 1) = .found other last) :
    (regionIn id k i m first start stop).start s =
      (.ok (if other = i then some (regionOf k m lines first start stop last) else none), s) := by
  unfold regionIn
  dsimp only
  rw [endLine_of_covers hlines hcovers, h, hlines]
  rfl

/-- The last instruction of a method as a scan of its body finds it. -/
def lastScanned (found : Option (Bytes × MethodLayout × CodeLayout)) : Nat :=
  lastInstruction (found.bind fun (info, _, code) => info.slice? code.start code.length)

/-- If it is not found, the region ends with the last instruction. -/
theorem regionIn_of_past (hk : s.state.population.class? id = some k) (hcurrent : k.Current)
    (hlines : k.record.lineTable? i = some lines) (hcovers : lines.Covers stop)
    (h : ∀ other last, k.record.findLine (stop + 1) ≠ .found other last) :
    ((regionIn id k i m first start stop).start s).1 =
      (k.rescanCode i).map fun found => some (regionOf k m lines first start stop (lastScanned found)) := by
  have hcode : ((onClass none id (LoadedClass.bytecode i)).start s).1 = (k.rescanCode i).map fun found =>
      found.bind fun (info, _, code) => info.slice? code.start code.length := by
    rw [answer_onClass hk]
    exact LoadedClass.answer_map (LoadedClass.answer_codeLayout hcurrent s.journal i) _
  unfold regionIn
  dsimp only
  rw [endLine_of_covers hlines hcovers, hlines]
  split
  · rename_i other last hfound
    exact absurd hfound (h other last)
  · rw [start_bind_pure, hcode]
    cases k.rescanCode i <;> rfl

/-! ### Lines of one method -/

/-- For lines that are found in a method that is no initializer, only that method is looked at. -/
theorem placeForLines_of_ordinary (o : Outside) (hk : s.state.population.class? id = some k) (hle : start ≤ stop)
    (hfound : k.record.findLine start = .found i first) (hm : k.record.methods[i]? = some m)
    (hordinary : m.isInitializer = false) :
    (placeForLines o id start stop).start s = (placeIn id k i m first start stop).start s := by
  rw [placeForLines, if_neg (Nat.not_lt.mpr hle), placeFrom, start_state_bind]
  rw [hk]
  dsimp only
  rw [hfound]
  dsimp only
  rw [hm]
  dsimp only
  rw [hordinary]
  rfl

/-- The place is in method `i` of the class, and its region starts where the first of the lines does. -/
structure Place.Within (p : Place) (id : ClassId) (k : LoadedClass) (i : Nat) (m : Method) (lines : LineTable)
    (start stop : Nat) : Prop where
  id : p.id = id
  method : p.method = i
  named : p.region.className = k.name ∧ p.region.methodName = m.name ∧ p.region.signature = m.signature
  first : IsLeast {bci | ∃ line, (line = start ∨ start < line ∧ line < stop) ∧ lines.bciOf? line = some bci}
    p.region.first

theorem within_regionOf (id : ClassId) (k : LoadedClass) (i : Nat) (m : Method)
    (hfirst : lines.bciOf? start = some first) (stop last : Nat) :
    (Place.mk id i (regionOf k m lines first start stop last)).Within id k i m lines start stop :=
  ⟨rfl, rfl, ⟨rfl, rfl, rfl⟩, leastOffset_isLeast hfirst⟩

/-- **Regions within a method.** The lines start in a method that is no initializer, and do not end behind its last
line. If the line behind them is found in another method, there is no region. Otherwise there is one in this method,
and it ends where the line behind them starts; if the method does not cover that line, it ends at the last
instruction, and then it fails if the body of the method cannot be scanned. -/
theorem region_within (hs : Used s) (hk : s.state.population.class? id = some k) (hle : start ≤ stop)
    (hfound : k.record.findLine start = .found i first) (hm : k.record.methods[i]? = some m)
    (hordinary : m.isInitializer = false) (hlines : k.record.lineTable? i = some lines)
    (hlast : ∃ e ∈ lines, stop ≤ e.line.toNat) :
    (k.record.Taken i (stop + 1) → (regionForLines o id start stop).start s = (.ok none, s)) ∧
    (¬ k.record.Taken i (stop + 1) →
      (lines.Covers (stop + 1) → ∃ p, (placeForLines o id start stop).start s = (.ok (some p), s) ∧
        (regionForLines o id start stop).start s = (.ok (some p.region), s) ∧
        p.Within id k i m lines start stop ∧ lines.bciOf? (stop + 1) = some p.region.last) ∧
      (¬ lines.Covers (stop + 1) →
        (∀ found, k.rescanCode i = .ok found → ∃ p t, (placeForLines o id start stop).start s = (.ok (some p), t) ∧
          (regionForLines o id start stop).start s = (.ok (some p.region), t) ∧
          p.Within id k i m lines start stop ∧ p.region.last = lastScanned found) ∧
        ∀ e, k.rescanCode i = .error e → ((regionForLines o id start stop).start s).1 = .error e)) := by
  have hfirst := Record.bciOf?_of_findLine hlines hfound
  obtain ⟨hbelow, _⟩ := LineTable.isSome_bciOf?.mp (Option.isSome_iff_exists.mpr ⟨first, hfirst⟩)
  have hcovers : lines.Covers stop := ⟨hbelow.imp fun e he => ⟨he.1, Nat.le_trans he.2 hle⟩, hlast⟩
  have hplace := placeForLines_of_ordinary o hk hle hfound hm hordinary
  have hregion := placeForLines_maps o id start stop s
  rw [hplace, placeIn, start_bind_pure] at hregion
  rw [placeIn, start_bind_pure] at hplace
  refine ⟨fun htaken => ?_, fun hfree => ⟨fun hbehind => ?_, fun hpast => ?_⟩⟩
  · obtain ⟨j, last, hother, hend⟩ := (Record.found_elsewhere_iff hm).mpr htaken
    rw [hregion, regionIn_of_found hlines hcovers hend, if_neg hother]
    rfl
  · obtain ⟨j, last, hend⟩ := ((Record.covers_iff_of_lineTable? hlines).mpr hbehind).found
    obtain rfl : j = i := by
      by_contra hother
      exact hfree ((Record.found_elsewhere_iff hm).mp ⟨j, last, hother, hend⟩)
    rw [hplace, hregion, regionIn_of_found hlines hcovers hend, if_pos rfl]
    exact ⟨_, rfl, rfl, within_regionOf id k j m hfirst stop last, Record.bciOf?_of_findLine hlines hend⟩
  · have hend : ∀ j last, k.record.findLine (stop + 1) ≠ .found j last := by
      intro j last hend
      by_cases hsame : j = i
      · have hbci := Record.bciOf?_of_findLine hlines (hsame ▸ hend)
        exact hpast (LineTable.isSome_bciOf?.mp (Option.isSome_iff_exists.mpr ⟨last, hbci⟩))
      · exact hfree ((Record.found_elsewhere_iff hm).mp ⟨j, last, hsame, hend⟩)
    have hanswer : ((regionIn id k i m first start stop).start s).1 =
        (k.rescanCode i).map fun found => some (regionOf k m lines first start stop (lastScanned found)) :=
      regionIn_of_past hk (hs.read hk).current hlines hcovers hend
    constructor
    · intro found hscan
      rw [hplace, hregion, hanswer, hscan]
      exact ⟨_, _, rfl, rfl, within_regionOf id k i m hfirst stop _, rfl⟩
    · intro e hscan
      rw [hregion, hanswer, hscan]
      rfl

/-- A class `A` with one method on lines 10 and 11 and another on line 12. -/
def pairFile : Image.File :=
  { Image.File.sample with
    pool := ⟨Image.File.sample.pool.constants ++ [.utf8 (Image.File.ascii "n")]⟩
    methods := [
      ⟨1, 7, 8, [], some ⟨11, 1, 1, [0x00, 0xb1], [], [⟨12, .lines [⟨0, 10⟩, ⟨1, 11⟩]⟩]⟩, []⟩,
      ⟨1, 13, 8, [], some ⟨11, 1, 1, [0xb1], [], [⟨12, .lines [⟨0, 12⟩]⟩]⟩, []⟩] }

def pairSession : Scene Catalog :=
  let o := sampleOutside Loader.none
  after [(o, .addSupplied "A" 1 pairFile.bytes.toArray), (o, .lookup "A" 1)] (opening sampleConfig)

theorem pairSession_used : Used pairSession := (Used.opening sampleConfig).after _

theorem exists_pair : ∃ k m, pairSession.state.population.class? 0 = some k ∧ (∀ i, k.isReplaced i = false) ∧
    k.record.methods[0]? = some m ∧ m.isInitializer = false ∧ k.record.lineTable? 0 = some [⟨0, 10⟩, ⟨1, 11⟩] ∧
    k.record.findLine 10 = .found 0 0 ∧ k.record.findLine 11 = .found 0 1 := by
  have hclass : (pairSession.state.population.class? 0).map (fun k =>
      (k.record.methods[0]?.map Method.isInitializer, k.record.lineTable? 0, k.record.findLine 10,
        k.record.findLine 11)) =
      some (some false, some [⟨0, 10⟩, ⟨1, 11⟩], .found 0 0, .found 0 1) := by
    decide +kernel
  obtain ⟨k, hk, hparts⟩ := Option.map_eq_some_iff.mp hclass
  obtain ⟨hkind, hlines, hfound, hend⟩ := by simpa only [Prod.mk.injEq] using hparts
  obtain ⟨m, hm, hordinary⟩ := Option.map_eq_some_iff.mp hkind
  have hreachable : Reachable pairSession := ⟨_, _, rfl⟩
  exact ⟨k, m, hk, (hreachable.original hk).bodies, hm, hordinary, hlines, hfound, hend⟩

theorem region_within_pair : ∃ p, (placeForLines (sampleOutside Loader.none) 0 10 10).start pairSession =
      (.ok (some p), pairSession) ∧ p.id = 0 ∧ p.method = 0 ∧ p.region.last = 1 := by
  obtain ⟨k, m, hk, _, hm, hordinary, hlines, hfound, hend⟩ := exists_pair
  obtain ⟨_, hfree⟩ := region_within (o := sampleOutside Loader.none) pairSession_used hk (Nat.le_refl 10) hfound hm
    hordinary hlines ⟨⟨1, 11⟩, by decide, by decide⟩
  have hnot : ¬ k.record.Taken 0 11 := by
    intro htaken
    obtain ⟨j, last, hother, hfound'⟩ := (Record.found_elsewhere_iff hm).mpr htaken
    cases hend.symm.trans hfound'
    exact hother rfl
  obtain ⟨p, hplace, _, hwithin, hlast⟩ := (hfree hnot).1 (by decide)
  have hone : LineTable.bciOf? [⟨0, 10⟩, ⟨1, 11⟩] 11 = some 1 := by decide
  exact ⟨p, hplace, hwithin.id, hwithin.method, (Option.some.inj (hone.symm.trans hlast)).symm⟩

/-- Lines of one method may have no region. -/
theorem not_region_within :
    ¬ ∀ (o : Outside) (s : Scene Catalog) (id : ClassId) (k : LoadedClass) (i : Nat) (m : Method) (lines : LineTable)
        (first start stop : Nat), Used s → s.state.population.class? id = some k → (∀ i, k.isReplaced i = false) →
      start ≤ stop → k.record.findLine start = .found i first → k.record.methods[i]? = some m →
      m.isInitializer = false → k.record.lineTable? i = some lines → (∃ e ∈ lines, stop ≤ e.line.toNat) →
      ∃ region t, (regionForLines o id start stop).start s = (.ok (some region), t) := by
  intro hall
  obtain ⟨k, m, hk, hbodies, hm, hordinary, hlines, hfound, _⟩ := exists_pair
  obtain ⟨region, t, hregion⟩ := hall (sampleOutside Loader.none) pairSession 0 k 0 m _ 0 10 11 pairSession_used hk
    hbodies (by decide) hfound hm hordinary hlines ⟨⟨1, 11⟩, by decide, by decide⟩
  have hnone : ((regionForLines (sampleOutside Loader.none) 0 10 11).start pairSession).1 = .ok none := by
    decide +kernel
  rw [hregion] at hnone
  cases hnone

end ClassCatalog.Catalog
