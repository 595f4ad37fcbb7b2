import Mathlib.Data.List.Nodup
import ClassCatalog.Proofs.ClassFile.Closest

/-! From offsets back to lines.

In a table without two entries at one offset, the line at an offset is that of the last entry that does not start
behind it (`lineAt?_eq_some_iff`), wherever the lines go. The two searches stop by different rules, one at the first
entry behind the offset and one at the first entry on the line. But where a line is found an entry starts, and that
entry is the last one not behind its own start. So the line that is found there is that of the entry that was found
(`lineAt?_of_bciOf?`). -/
namespace ClassCatalog.ClassFile.LineTable
variable {t : LineTable} {line bci : Nat} {l : UInt16} {e e' : LineEntry}

/-- Every entry starts behind the one before it. -/
def Strict (t : LineTable) : Prop := t.Pairwise fun e e' => e.startPc < e'.startPc

instance (t : LineTable) : Decidable t.Strict := inferInstanceAs (Decidable (List.Pairwise _ t))

theorem Strict.ordered (h : t.Strict) : t.Ordered := h.imp UInt16.le_of_lt

theorem Strict.eq_of_startPc (h : t.Strict) (he : e ∈ t) (he' : e' ∈ t) (hstart : e.startPc = e'.startPc) :
    e = e' :=
  have hapart : (t.map LineEntry.startPc).Nodup := List.pairwise_map.mpr (h.imp UInt16.ne_of_lt)
  List.inj_on_of_nodup_map hapart he he' hstart

/-! ### The entry at an offset -/

/-- An entry counts unless one behind it does. -/
theorem lineAt?_cons (e : LineEntry) (rest : LineTable) (bci : Nat) :
    lineAt? (e :: rest) bci =
      if e.startPc.toNat ≤ bci then some ((lineAt? rest bci).getD e.line) else none := by
  unfold lineAt?
  rw [List.takeWhile_cons]
  by_cases h : e.startPc.toNat ≤ bci
  · rw [if_pos h, if_pos (decide_eq_true h), List.getLast?_cons]
    cases (rest.takeWhile fun e => decide (e.startPc.toNat ≤ bci)).getLast? <;> rfl
  · rw [if_neg h, if_neg (by simpa using h)]
    rfl

theorem Ordered.lineAt?_eq_none_iff (h : t.Ordered) : t.lineAt? bci = none ↔ ∀ e ∈ t, bci < e.startPc.toNat := by
  cases t with
  | nil => exact iff_of_true rfl nofun
  | cons e rest =>
    rw [lineAt?_cons, List.forall_mem_cons]
    split
    · rename_i hle
      exact iff_of_false nofun fun hbehind => Nat.not_lt.mpr hle hbehind.1
    · rename_i hlt
      -- The entries behind one that starts too late start too late as well.
      have hlt := Nat.not_le.mp hlt
      refine iff_of_true rfl ⟨hlt, fun b hb => Nat.lt_of_lt_of_le hlt ?_⟩
      exact UInt16.le_iff_toNat_le.mp (List.rel_of_pairwise_cons h hb)

/-- The entry `e` is the last one that does not start behind `bci`. -/
def Reaches (t : LineTable) (bci : Nat) (e : LineEntry) : Prop :=
  e ∈ t ∧ IsGreatest (t.starts fun e => e.startPc.toNat ≤ bci) e.startPc.toNat

theorem reaches_iff : t.Reaches bci e ↔
    e ∈ t ∧ e.startPc.toNat ≤ bci ∧ ∀ e' ∈ t, e'.startPc.toNat ≤ bci → e'.startPc.toNat ≤ e.startPc.toNat := by
  constructor
  · rintro ⟨he, ⟨_, _, hle, hstart⟩, hgreatest⟩
    exact ⟨he, hstart ▸ hle, fun e' he' hle' => hgreatest ⟨e', he', hle', rfl⟩⟩
  · rintro ⟨he, hle, hgreatest⟩
    refine ⟨he, ⟨e, he, hle, rfl⟩, ?_⟩
    rintro _ ⟨e', he', hle', rfl⟩
    exact hgreatest e' he' hle'

theorem Strict.exists_reaches (h : t.Strict) (hline : t.lineAt? bci = some l) : ∃ e, t.Reaches bci e ∧ e.line = l := by
  induction t generalizing l with
  | nil => cases hline
  | cons a rest ih =>
    obtain ⟨hfirst, hrest⟩ := List.pairwise_cons.mp h
    rw [lineAt?_cons] at hline
    split at hline
    · rename_i ha
      cases hlast : lineAt? rest bci with
      | none =>
        rw [hlast] at hline
        cases hline
        have hbehind := (Strict.ordered hrest).lineAt?_eq_none_iff.mp hlast
        refine ⟨a, reaches_iff.mpr ⟨List.mem_cons_self .., ha, fun e' he' hle' => ?_⟩, rfl⟩
        rcases List.mem_cons.mp he' with rfl | he'
        · exact Nat.le_refl _
        · exact absurd (hbehind e' he') (Nat.not_lt.mpr hle')
      | some l' =>
        rw [hlast] at hline
        cases hline
        obtain ⟨e, he, rfl⟩ := ih hrest hlast
        obtain ⟨he, hle, hgreatest⟩ := reaches_iff.mp he
        refine ⟨e, reaches_iff.mpr ⟨List.mem_cons_of_mem _ he, hle, fun e' he' hle' => ?_⟩, rfl⟩
        rcases List.mem_cons.mp he' with rfl | he'
        · exact Nat.le_of_lt (UInt16.lt_iff_toNat_lt.mp (hfirst e he))
        · exact hgreatest e' he' hle'
    · cases hline

theorem Strict.reaches_unique (h : t.Strict) (he : t.Reaches bci e) (he' : t.Reaches bci e') : e = e' :=
  have hstart := Nat.le_antisymm (he'.2.2 he.2.1) (he.2.2 he'.2.1)
  h.eq_of_startPc he.1 he'.1 (UInt16.toNat_inj.mp hstart)

theorem Strict.lineAt?_of_reaches (h : t.Strict) (he : t.Reaches bci e) : t.lineAt? bci = some e.line := by
  obtain ⟨hmem, hle, _⟩ := reaches_iff.mp he
  have hsome : t.lineAt? bci ≠ none := by
    rw [Ne, h.ordered.lineAt?_eq_none_iff]
    exact fun hbehind => Nat.not_lt.mpr hle (hbehind e hmem)
  obtain ⟨l, hl⟩ := Option.ne_none_iff_exists'.mp hsome
  obtain ⟨e', he', rfl⟩ := h.exists_reaches hl
  rw [hl, h.reaches_unique he he']

theorem lineAt?_eq_some_iff (h : t.Strict) : t.lineAt? bci = some l ↔ ∃ e, t.Reaches bci e ∧ e.line = l := by
  constructor
  · exact h.exists_reaches
  · rintro ⟨e, he, rfl⟩
    exact h.lineAt?_of_reaches he

/-- At the start of an entry there is its line. -/
theorem Strict.lineAt?_startPc (h : t.Strict) (he : e ∈ t) : t.lineAt? e.startPc.toNat = some e.line :=
  h.lineAt?_of_reaches (reaches_iff.mpr ⟨he, Nat.le_refl _, fun _ _ hle => hle⟩)

/-! ### Forth and back -/

/-- Where a line is found an entry starts: one on the line, or if there is none, one on a line behind it. -/
theorem Ordered.exists_mem_of_bciOf? (h : t.Ordered) (hfound : t.bciOf? line = some bci) :
    ∃ e ∈ t, e.startPc.toNat = bci ∧
      if ∃ e ∈ t, e.line.toNat = line then e.line.toNat = line else line < e.line.toNat := by
  by_cases hon : ∃ e ∈ t, e.line.toNat = line
  · obtain ⟨a, ha, rfl⟩ := hon
    obtain ⟨bci', hbci, ⟨e, he, hline, hstart⟩, _⟩ := h.bciOf?_of_mem ha
    cases hfound.symm.trans hbci
    exact ⟨e, he, hstart, by rwa [if_pos ⟨a, ha, rfl⟩]⟩
  · have hcovers : t.Covers line := isSome_bciOf?.mp (Option.isSome_of_eq_some hfound)
    obtain ⟨bci', hbci, ⟨e, he, hline, hstart⟩, _⟩ :=
      h.bciOf?_of_between hcovers fun e he hline => hon ⟨e, he, hline⟩
    cases hfound.symm.trans hbci
    exact ⟨e, he, hstart, by rwa [if_neg hon]⟩

/-- **Lines and offsets.** Let every entry of a table start behind the one before it. Where a line is found an entry
starts, and the line at that offset is the one that was asked for, if the table has it, and otherwise a line of the
table behind it. The line at any offset is that of the last entry that does not start behind it, and there is none
exactly if all entries do. -/
theorem lineAt?_of_bciOf? (h : t.Strict) :
    (∀ line bci, t.bciOf? line = some bci → ∃ e ∈ t, e.startPc.toNat = bci ∧ t.lineAt? bci = some e.line ∧
      if ∃ e ∈ t, e.line.toNat = line then e.line.toNat = line else line < e.line.toNat) ∧
    (∀ bci l, t.lineAt? bci = some l ↔ ∃ e, t.Reaches bci e ∧ e.line = l) ∧
    ∀ bci, t.lineAt? bci = none ↔ ∀ e ∈ t, bci < e.startPc.toNat := by
  refine ⟨fun line bci hfound => ?_, fun _ _ => lineAt?_eq_some_iff h, fun _ => h.ordered.lineAt?_eq_none_iff⟩
  obtain ⟨e, he, rfl, hline⟩ := h.ordered.exists_mem_of_bciOf? hfound
  exact ⟨e, he, rfl, h.lineAt?_startPc he, hline⟩

/-- Line 11 is found in the loop where line 12 starts first, and there line 12 is found. -/
theorem lineAt?_of_bciOf?_loop :
    loopLines.Strict ∧
      ∃ e ∈ loopLines, e.startPc.toNat = 2 ∧ loopLines.lineAt? 2 = some e.line ∧ 11 < e.line.toNat := by
  have hstrict : loopLines.Strict := by decide
  obtain ⟨hinverse, _⟩ := lineAt?_of_bciOf? hstrict
  obtain ⟨e, he, hstart, hline, hbehind⟩ := hinverse 11 2 (by decide)
  exact ⟨hstrict, e, he, hstart, hline, by rwa [if_neg (by decide)] at hbehind⟩

end ClassCatalog.ClassFile.LineTable
