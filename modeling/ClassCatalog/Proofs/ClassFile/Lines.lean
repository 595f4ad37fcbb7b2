import ClassCatalog.ClassFile.Record

/-! Looking for source lines.

In a table whose offsets and lines both ascend, a line that is found starts where the first entry does that is
not before it (`exists_first_of_bciOf?`). So of two lines that are found the later one does not start earlier
(`bciOf?_mono`). -/
namespace ClassCatalog.ClassFile

namespace LineTable
variable {t : LineTable} {line line' bci bci' : Nat} {e b : LineEntry}

/-- The offsets do not go back. -/
def Ordered (t : LineTable) : Prop := t.Pairwise fun e e' => e.startPc ≤ e'.startPc

/-- Neither the offsets nor the lines go back. -/
def Ascending (t : LineTable) : Prop := t.Pairwise fun e e' => e.startPc ≤ e'.startPc ∧ e.line ≤ e'.line

instance (t : LineTable) : Decidable t.Ordered := inferInstanceAs (Decidable (List.Pairwise _ t))

instance (t : LineTable) : Decidable t.Ascending := inferInstanceAs (Decidable (List.Pairwise _ t))

theorem Ascending.ordered (h : t.Ascending) : t.Ordered := h.imp And.left

/-! ### The entry behind a line -/

theorem closer_of_le (h : e.line.toNat ≤ line) (best : Option LineEntry) : closer line best e = best :=
  if_neg (Nat.not_lt.mpr h)

/-- An entry that has been found stays when the others start no earlier. -/
theorem foldl_closer_some (h : ∀ e ∈ t, b.startPc ≤ e.startPc) : t.foldl (closer line) (some b) = some b := by
  induction t with
  | nil => rfl
  | cons e rest ih =>
    obtain ⟨hfirst, hrest⟩ := List.forall_mem_cons.mp h
    have hstays : closer line (some b) e = some b := by
      unfold closer
      split
      · exact if_neg fun hless => UInt16.not_lt.mpr hfirst hless.2
      · rfl
    rw [List.foldl_cons, hstays]
    exact ih hrest

theorem foldl_closer_none (h : t.Ordered) :
    t.foldl (closer line) none = t.find? fun e => decide (line < e.line.toNat) := by
  induction t with
  | nil => rfl
  | cons e rest ih =>
    obtain ⟨hfirst, hrest⟩ := List.pairwise_cons.mp h
    rw [List.foldl_cons, List.find?_cons]
    by_cases he : line < e.line.toNat
    · rw [closer, if_pos he, decide_eq_true he]
      exact foldl_closer_some hfirst
    · rw [closer_of_le (Nat.not_lt.mp he), decide_eq_false he]
      exact ih hrest

/-! ### Where a line starts -/

/-- The first entry of some kind is before all others of it. -/
theorem rel_of_find? {R : LineEntry → LineEntry → Prop} {p : LineEntry → Bool} (hrefl : ∀ e, R e e)
    (h : t.Pairwise R) (hfind : t.find? p = some e) (he : b ∈ t) (hp : p b = true) : R e b := by
  obtain ⟨_, before, after, rfl, hbefore⟩ := List.find?_eq_some_iff_append.mp hfind
  rcases List.mem_append.mp he with hb | hb
  · have := hbefore b hb
    rw [hp] at this
    cases this
  · rcases List.mem_cons.mp hb with rfl | hb
    · exact hrefl b
    · exact List.rel_of_pairwise_cons (List.pairwise_append.mp h).2.1 hb

theorem Ordered.first_le {p : LineEntry → Bool} (h : t.Ordered) (hfind : t.find? p = some e) (he : b ∈ t)
    (hp : p b = true) : e.startPc ≤ b.startPc :=
  rel_of_find? (fun _ => UInt16.le_refl _) h hfind he hp

theorem Ascending.first_le {p : LineEntry → Bool} (h : t.Ascending) (hfind : t.find? p = some e) (he : b ∈ t)
    (hp : p b = true) : e.startPc ≤ b.startPc ∧ e.line ≤ b.line :=
  rel_of_find? (fun _ => ⟨UInt16.le_refl _, UInt16.le_refl _⟩) h hfind he hp

/-- What has been found is the start of the first entry that is not before the line. -/
theorem exists_first_of_bciOf? (h : t.Ascending) (hfound : t.bciOf? line = some bci) :
    ∃ e, t.find? (fun e => decide (line ≤ e.line.toNat)) = some e ∧ e.startPc.toNat = bci := by
  unfold bciOf? at hfound
  split at hfound
  · rename_i e hexact
    cases hfound
    have hmem := List.mem_of_find?_eq_some hexact
    have hline : e.line.toNat = line := by simpa using List.find?_some hexact
    have hcovers : decide (line ≤ e.line.toNat) = true := decide_eq_true (Nat.le_of_eq hline.symm)
    obtain ⟨f, hf⟩ : ∃ f, t.find? (fun e => decide (line ≤ e.line.toNat)) = some f :=
      Option.isSome_iff_exists.mp (List.find?_isSome.mpr ⟨e, hmem, hcovers⟩)
    -- As the lines ascend, the first entry that is not before the line is on it.
    have hforward := h.first_le hf hmem hcovers
    have hfline : f.line.toNat = line := by
      have hbehind : line ≤ f.line.toNat := by simpa using List.find?_some hf
      have := UInt16.le_iff_toNat_le.mp hforward.2
      omega
    have hback := h.first_le hexact (List.mem_of_find?_eq_some hf) (decide_eq_true hfline)
    exact ⟨f, hf, congrArg UInt16.toNat (UInt16.le_antisymm hforward.1 hback.1)⟩
  · rename_i hnone
    split at hfound
    · split at hfound
      · rw [foldl_closer_none h.ordered] at hfound
        obtain ⟨e, he, rfl⟩ := Option.map_eq_some_iff.mp hfound
        obtain ⟨hbehind, before, after, hsplit, hbefore⟩ := List.find?_eq_some_iff_append.mp he
        refine ⟨e, List.find?_eq_some_iff_append.mpr ⟨?_, before, after, hsplit, fun b hb => ?_⟩, rfl⟩
        · exact decide_eq_true (Nat.le_of_lt (of_decide_eq_true hbehind))
        · have hmem : b ∈ t := hsplit ▸ List.mem_append_left _ hb
          have hother : ¬ b.line.toNat = line := by simpa using List.find?_eq_none.mp hnone b hmem
          have hless : ¬ line < b.line.toNat := by simpa using hbefore b hb
          simpa using show b.line.toNat < line by omega
      · cases hfound
    · cases hfound

theorem exists_mem_of_bciOf? (h : t.Ascending) (hfound : t.bciOf? line = some bci) :
    ∃ e ∈ t, e.startPc.toNat = bci := by
  obtain ⟨e, he, hstart⟩ := exists_first_of_bciOf? h hfound
  exact ⟨e, List.mem_of_find?_eq_some he, hstart⟩

/-- Of two lines that are found the later one does not start earlier. -/
theorem bciOf?_mono (h : t.Ascending) (hline : line ≤ line') (hfound : t.bciOf? line = some bci)
    (hfound' : t.bciOf? line' = some bci') : bci ≤ bci' := by
  obtain ⟨e, he, rfl⟩ := exists_first_of_bciOf? h hfound
  obtain ⟨e', he', rfl⟩ := exists_first_of_bciOf? h hfound'
  have hcovers : line' ≤ e'.line.toNat := by simpa using List.find?_some he'
  exact UInt16.le_iff_toNat_le.mp
    (h.first_le he (List.mem_of_find?_eq_some he') (decide_eq_true (Nat.le_trans hline hcovers))).1

end LineTable

/-! ### Lines of a class -/

namespace Record
variable {r : Record} {line i bci : Nat}

/-- A line is found by the table of the method it is found in. -/
theorem exists_table_of_findLine (h : r.findLine line = .found i bci) :
    ∃ m t, r.methods[i]? = some m ∧ r.lineTable? i = some t ∧ t.bciOf? line = some bci := by
  unfold findLine at h
  split at h
  · split at h
    · rename_i found hfound
      cases h
      obtain ⟨⟨m, j⟩, hmem, hfound⟩ := List.exists_of_findSome?_eq_some hfound
      obtain ⟨b, hb, heq⟩ := Option.map_eq_some_iff.mp hfound
      cases heq
      obtain ⟨t, ht, hbci⟩ := Option.bind_eq_some_iff.mp hb
      have hm : r.methods[i]? = some m := by
        unfold searchOrder at hmem
        rcases List.mem_append.mp hmem with hmem | hmem
        all_goals
          have := List.mem_zipIdx_iff_getElem?.mp (List.mem_filter.mp hmem).1
          simpa using this
      exact ⟨m, t, hm, by rw [lineTable?, hm, Option.bind_some, ht], hbci⟩
    · cases h
  · cases h

theorem bciOf?_of_findLine {t : LineTable} (ht : r.lineTable? i = some t) (h : r.findLine line = .found i bci) :
    t.bciOf? line = some bci := by
  obtain ⟨_, t', _, ht', hbci⟩ := exists_table_of_findLine h
  cases ht.symm.trans ht'
  exact hbci

end Record
end ClassCatalog.ClassFile
