import ClassCatalog.Proofs.ClassFile.Closest

/-! Which method a line is found in.

A line is looked for in one method after the other, in the initializers last (`Precedes`). It is found in the first
that covers it (`findLine_eq_found_iff`), which may be another than the one it is expected in
(`found_elsewhere_iff`). -/
namespace ClassCatalog.ClassFile.Record
variable {r : Record} {m : Method} {i j line bci : Nat}

/-! ### Methods around a line -/

/-- The table of the method has lines on both sides of `line`, or `line` itself. -/
def Covers (r : Record) (i line : Nat) : Prop := ∃ t, r.lineTable? i = some t ∧ t.Covers line

theorem covers_iff_of_lineTable? {t : LineTable} (ht : r.lineTable? i = some t) :
    r.Covers i line ↔ t.Covers line := by
  constructor
  · rintro ⟨_, hsame, h⟩
    cases ht.symm.trans hsame
    exact h
  · exact fun h => ⟨t, ht, h⟩

theorem bciOfLine?_eq_none_iff : r.bciOfLine? i line = none ↔ ¬ r.Covers i line := by
  unfold bciOfLine?
  cases ht : r.lineTable? i with
  | none =>
    refine iff_of_true rfl ?_
    rintro ⟨_, hsome, _⟩
    cases ht.symm.trans hsome
  | some t => rw [Option.bind_some, LineTable.bciOf?_eq_none_iff, covers_iff_of_lineTable? ht]

theorem covers_of_bciOfLine? (h : r.bciOfLine? i line = some bci) : r.Covers i line := by
  by_contra hnot
  cases h.symm.trans (bciOfLine?_eq_none_iff.mpr hnot)

theorem hasLineTables_iff : r.hasLineTables = true ↔ ∃ i t, r.lineTable? i = some t := by
  unfold hasLineTables lineTable?
  rw [Array.any_eq_true']
  constructor
  · rintro ⟨m, hm, hsome⟩
    obtain ⟨i, hi⟩ := Array.mem_iff_getElem?.mp hm
    obtain ⟨t, ht⟩ := Option.isSome_iff_exists.mp hsome
    exact ⟨i, t, by rw [hi, Option.bind_some, ht]⟩
  · rintro ⟨i, t, h⟩
    obtain ⟨m, hm, ht⟩ := Option.bind_eq_some_iff.mp h
    exact ⟨m, Array.mem_of_getElem? hm, Option.isSome_iff_exists.mpr ⟨t, ht⟩⟩

theorem Covers.hasLineTables (h : r.Covers i line) : r.hasLineTables = true := by
  obtain ⟨t, ht, _⟩ := h
  exact hasLineTables_iff.mpr ⟨i, t, ht⟩

/-! ### The order of the search -/

/-- Methods that are no initializers come first, and of two of a kind the one that is written first. -/
def Before (x y : Method × Nat) : Prop :=
  (x.1.isInitializer = false ∧ y.1.isInitializer = true) ∨ x.1.isInitializer = y.1.isInitializer ∧ x.2 < y.2

/-- A line is looked for in method `j` before it is in method `i`. -/
def Precedes (r : Record) (j i : Nat) : Prop :=
  ∃ m m', r.methods[j]? = some m ∧ r.methods[i]? = some m' ∧ Before (m, j) (m', i)

theorem Before.asymm {x y : Method × Nat} (h : Before x y) : ¬ Before y x := by
  rintro (⟨hy, hx⟩ | ⟨hkind, hback⟩)
  all_goals rcases h with ⟨hx', hy'⟩ | ⟨hkind', hless⟩
  · cases hx.symm.trans hx'
  · rw [hkind', hy] at hx
    cases hx
  · rw [hkind, hx'] at hy'
    cases hy'
  · exact Nat.lt_asymm hless hback

/-- Of two methods one is looked through first. -/
theorem precedes_total {m' : Method} (hm : r.methods[i]? = some m) (hm' : r.methods[j]? = some m') (h : j ≠ i) :
    r.Precedes j i ∨ r.Precedes i j := by
  have hbefore : Before (m', j) (m, i) ∨ Before (m, i) (m', j) := by
    unfold Before
    cases m.isInitializer <;> cases m'.isInitializer <;> simp <;> omega
  exact hbefore.imp (fun h => ⟨m', m, hm', hm, h⟩) fun h => ⟨m, m', hm, hm', h⟩

theorem mem_searchOrder : (m, i) ∈ r.searchOrder ↔ r.methods[i]? = some m := by
  have hall : (m, i) ∈ r.methods.toList.zipIdx ↔ r.methods[i]? = some m := by
    rw [List.mem_zipIdx_iff_getElem?, Array.getElem?_toList]
  unfold searchOrder
  rw [List.mem_append, List.mem_filter, List.mem_filter, hall]
  cases m.isInitializer <;> simp

theorem pairwise_searchOrder (r : Record) : r.searchOrder.Pairwise Before := by
  have hindices : r.methods.toList.zipIdx.Pairwise fun x y => x.2 < y.2 := by
    rw [← List.pairwise_map, List.zipIdx_map_snd]
    exact List.pairwise_lt_range'
  -- A part of the list that has methods of one kind only is in the order in which they are written.
  have hkind : ∀ (p : Method × Nat → Bool) (kind : Bool), (∀ x, p x = true → x.1.isInitializer = kind) →
      (r.methods.toList.zipIdx.filter p).Pairwise Before := by
    intro p kind hp
    refine List.Pairwise.imp_of_mem (fun {x y} hx hy hless => .inr ⟨?_, hless⟩) (hindices.filter p)
    rw [hp x (List.mem_filter.mp hx).2, hp y (List.mem_filter.mp hy).2]
  unfold searchOrder
  refine List.pairwise_append.mpr ⟨hkind _ false (by simp), hkind _ true (by simp), fun x hx y hy => .inl ⟨?_, ?_⟩⟩
  · simpa using (List.mem_filter.mp hx).2
  · exact (List.mem_filter.mp hy).2

/-! ### What is found -/

/-- What is found in the methods in turn is what the first of them has that has something. -/
theorem findSome?_searchOrder {β : Type} {f : Method × Nat → Option β} {x : β} :
    r.searchOrder.findSome? f = some x ↔
      ∃ i m, r.methods[i]? = some m ∧ f (m, i) = some x ∧
        ∀ j m', r.methods[j]? = some m' → Before (m', j) (m, i) → f (m', j) = none := by
  have hpairs := r.pairwise_searchOrder
  constructor
  · intro h
    obtain ⟨before, ⟨m, i⟩, after, hsplit, hx, hnone⟩ := List.findSome?_eq_some_iff.mp h
    have hmem : (m, i) ∈ r.searchOrder := by
      rw [hsplit]
      simp
    refine ⟨i, m, mem_searchOrder.mp hmem, hx, fun j m' hm' hearlier => hnone _ ?_⟩
    have hother := mem_searchOrder.mpr hm'
    rw [hsplit] at hother hpairs
    obtain ⟨_, hrest, _⟩ := List.pairwise_append.mp hpairs
    rcases List.mem_append.mp hother with hin | hin
    · exact hin
    rcases List.mem_cons.mp hin with hsame | hin
    · rw [hsame] at hearlier
      exact absurd hearlier hearlier.asymm
    · exact absurd hearlier (List.rel_of_pairwise_cons hrest hin).asymm
  · rintro ⟨i, m, hm, hx, hnone⟩
    obtain ⟨before, after, hsplit⟩ := List.append_of_mem (mem_searchOrder.mpr hm)
    rw [hsplit] at hpairs
    refine List.findSome?_eq_some_iff.mpr ⟨before, (m, i), after, hsplit, hx, ?_⟩
    rintro ⟨m', j⟩ hin
    have hother : (m', j) ∈ r.searchOrder := hsplit ▸ List.mem_append_left _ hin
    exact hnone j m' (mem_searchOrder.mp hother)
      ((List.pairwise_append.mp hpairs).2.2 _ hin _ (List.mem_cons_self ..))

theorem findSome?_searchOrder_congr {β : Type} {f g : Method × Nat → Option β}
    (h : ∀ m i, r.methods[i]? = some m → f (m, i) = g (m, i)) :
    r.searchOrder.findSome? f = r.searchOrder.findSome? g := by
  rw [← List.head?_filterMap, ← List.head?_filterMap]
  exact congrArg List.head? (List.filterMap_congr fun x hx => h x.1 x.2 (mem_searchOrder.mp hx))

/-- What one method has for a line. -/
def foundIn (r : Record) (line : Nat) (x : Method × Nat) : Option (Nat × Nat) :=
  (r.bciOfLine? x.2 line).map fun bci => (x.2, bci)

theorem findLine_eq (r : Record) (line : Nat) :
    r.findLine line =
      if r.hasLineTables then
        (r.searchOrder.findSome? (r.foundIn line)).elim .notFound fun x => .found x.1 x.2
      else .noDebugInfo := by
  unfold findLine
  rw [findSome?_searchOrder_congr (g := r.foundIn line)]
  · cases r.searchOrder.findSome? (r.foundIn line) <;> rfl
  · intro m i hm
    rw [foundIn, bciOfLine?, lineTable?, hm, Option.bind_some]

theorem findLine_eq_noDebugInfo_iff : r.findLine line = .noDebugInfo ↔ r.hasLineTables = false := by
  rw [findLine_eq]
  cases r.hasLineTables with
  | false => simp
  | true => cases r.searchOrder.findSome? (r.foundIn line) <;> simp

/-- A line is found nowhere if there are tables and none of them covers it. -/
theorem findLine_eq_notFound_iff :
    r.findLine line = .notFound ↔ r.hasLineTables = true ∧ ∀ i, ¬ r.Covers i line := by
  have hnone : r.searchOrder.findSome? (r.foundIn line) = none ↔ ∀ i, ¬ r.Covers i line := by
    simp only [List.findSome?_eq_none_iff, foundIn, Option.map_eq_none_iff, bciOfLine?_eq_none_iff]
    constructor
    · intro h i hcovers
      obtain ⟨t, ht, hin⟩ := hcovers
      obtain ⟨m, hm, _⟩ := Option.bind_eq_some_iff.mp ht
      exact h (m, i) (mem_searchOrder.mpr hm) ⟨t, ht, hin⟩
    · exact fun h x _ => h x.2
  rw [findLine_eq, ← hnone]
  cases r.hasLineTables with
  | false => simp
  | true => cases r.searchOrder.findSome? (r.foundIn line) <;> simp

/-- A line is found in the first method that covers it. -/
theorem findLine_eq_found_iff :
    r.findLine line = .found i bci ↔ r.bciOfLine? i line = some bci ∧ ∀ j, r.Precedes j i → ¬ r.Covers j line := by
  have hsearch : r.searchOrder.findSome? (r.foundIn line) = some (i, bci) ↔
      r.bciOfLine? i line = some bci ∧ ∀ j, r.Precedes j i → ¬ r.Covers j line := by
    simp only [findSome?_searchOrder, foundIn, Option.map_eq_none_iff, bciOfLine?_eq_none_iff]
    constructor
    · rintro ⟨i', m, hm, hx, hnone⟩
      obtain ⟨_, hbci, hsame⟩ := Option.map_eq_some_iff.mp hx
      cases hsame
      refine ⟨hbci, ?_⟩
      rintro j ⟨m', m'', hm', hm'', hearlier⟩
      cases hm.symm.trans hm''
      exact hnone j m' hm' hearlier
    · rintro ⟨hbci, hnone⟩
      obtain ⟨t, ht, _⟩ := Option.bind_eq_some_iff.mp hbci
      obtain ⟨m, hm, _⟩ := Option.bind_eq_some_iff.mp ht
      exact ⟨i, m, hm, Option.map_eq_some_iff.mpr ⟨bci, hbci, rfl⟩,
        fun j m' hm' hearlier => hnone j ⟨m', m, hm', hm, hearlier⟩⟩
  rw [← hsearch, findLine_eq]
  cases htables : r.hasLineTables with
  | false =>
    refine iff_of_false nofun fun hfound => ?_
    cases htables.symm.trans (covers_of_bciOfLine? (hsearch.mp hfound).1).hasLineTables
  | true => cases r.searchOrder.findSome? (r.foundIn line) <;> simp [Prod.ext_iff]

/-- A line that some method covers is found. -/
theorem Covers.found (h : r.Covers i line) : ∃ j bci, r.findLine line = .found j bci := by
  cases hfound : r.findLine line with
  | found j bci => exact ⟨j, bci, rfl⟩
  | noDebugInfo => cases h.hasLineTables.symm.trans (findLine_eq_noDebugInfo_iff.mp hfound)
  | notFound => exact absurd h ((findLine_eq_notFound_iff.mp hfound).2 i)

/-- The line is found in another method than `i`: one that covers it and is looked through before, or, if `i` does
not cover it, any. -/
def Taken (r : Record) (i line : Nat) : Prop := ∃ j, j ≠ i ∧ r.Covers j line ∧ (r.Covers i line → r.Precedes j i)

theorem found_elsewhere_iff (hm : r.methods[i]? = some m) :
    (∃ j bci, j ≠ i ∧ r.findLine line = .found j bci) ↔ r.Taken i line := by
  constructor
  · rintro ⟨j, bci, hother, hfound⟩
    obtain ⟨hbci, hfirst⟩ := findLine_eq_found_iff.mp hfound
    obtain ⟨m', _, hm', _⟩ := exists_table_of_findLine hfound
    refine ⟨j, hother, covers_of_bciOfLine? hbci, fun hcovers => ?_⟩
    exact (precedes_total hm hm' hother).resolve_right fun hearlier => hfirst i hearlier hcovers
  · rintro ⟨j, hother, hcovers, hearlier⟩
    obtain ⟨j', bci, hfound⟩ := hcovers.found
    refine ⟨j', bci, ?_, hfound⟩
    rintro rfl
    obtain ⟨hbci, hfirst⟩ := findLine_eq_found_iff.mp hfound
    exact hfirst j (hearlier (covers_of_bciOfLine? hbci)) hcovers

end ClassCatalog.ClassFile.Record
