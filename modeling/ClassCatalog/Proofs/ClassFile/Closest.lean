import Mathlib.Data.List.Basic
import Mathlib.Order.Bounds.Defs
import ClassCatalog.Proofs.ClassFile.Lines

/-! The closest line of a table.

A line is found in a table that has it or has lines on both sides of it (`isSome_bciOf?`). If the offsets do not go
back, a line that is there starts where the first of its entries does. For another line it is not the closest one
behind it that is answered but whichever starts first of all the lines behind it, since an entry gives way only to
one that starts earlier, and in such a table none does. These are the same unless lines go back
(`bciOf?_closest`, `not_bciOf?_closest`). -/
namespace ClassCatalog.ClassFile.LineTable
variable {t : LineTable} {line : Nat} {e : LineEntry}

/-! ### Lines inside a table -/

/-- The line is neither below the least line of the table nor above the greatest. -/
def Covers (t : LineTable) (line : Nat) : Prop :=
  (∃ e ∈ t, e.line.toNat ≤ line) ∧ ∃ e ∈ t, line ≤ e.line.toNat

instance (t : LineTable) (line : Nat) : Decidable (t.Covers line) :=
  inferInstanceAs (Decidable ((∃ e ∈ t, e.line.toNat ≤ line) ∧ ∃ e ∈ t, line ≤ e.line.toNat))

theorem Covers.of_mem (he : e ∈ t) (hline : e.line.toNat = line) : t.Covers line :=
  ⟨⟨e, he, Nat.le_of_eq hline⟩, e, he, Nat.le_of_eq hline.symm⟩

theorem not_covers_iff :
    ¬ t.Covers line ↔ (∀ e ∈ t, line < e.line.toNat) ∨ ∀ e ∈ t, e.line.toNat < line := by
  rw [Covers, not_and_or]
  simp only [not_exists, not_and, Nat.not_le]

theorem min_toNat_le_iff (x y : UInt16) (n : Nat) : (min x y).toNat ≤ n ↔ x.toNat ≤ n ∨ y.toNat ≤ n := by
  show (if x ≤ y then x else y).toNat ≤ n ↔ _
  split <;> rename_i h <;> rw [UInt16.le_iff_toNat_le] at h <;> omega

theorem le_max_toNat_iff (x y : UInt16) (n : Nat) : n ≤ (max x y).toNat ↔ n ≤ x.toNat ∨ n ≤ y.toNat := by
  show n ≤ (if x ≤ y then y else x).toNat ↔ _
  split <;> rename_i h <;> rw [UInt16.le_iff_toNat_le] at h <;> omega

/-- Bounds that are widened by the entries of a table are below and above what some of them were or some entry is. -/
theorem exists_foldl_widen (t : LineTable) (least greatest : UInt16) :
    ∃ least' greatest', t.foldl widen (some (least, greatest)) = some (least', greatest') ∧
      (∀ n, least'.toNat ≤ n ↔ least.toNat ≤ n ∨ ∃ e ∈ t, e.line.toNat ≤ n) ∧
      ∀ n, n ≤ greatest'.toNat ↔ n ≤ greatest.toNat ∨ ∃ e ∈ t, n ≤ e.line.toNat := by
  induction t generalizing least greatest with
  | nil => exact ⟨least, greatest, rfl, fun n => by simp, fun n => by simp⟩
  | cons e rest ih =>
    obtain ⟨least', greatest', hfold, hleast, hgreatest⟩ := ih (min least e.line) (max greatest e.line)
    refine ⟨least', greatest', hfold, fun n => ?_, fun n => ?_⟩
    · rw [hleast, min_toNat_le_iff, or_assoc, List.exists_mem_cons_iff]
    · rw [hgreatest, le_max_toNat_iff, or_assoc, List.exists_mem_cons_iff]

theorem covers_iff : t.Covers line ↔
    ∃ least greatest, t.bounds? = some (least, greatest) ∧ least.toNat ≤ line ∧ line ≤ greatest.toNat := by
  cases t with
  | nil => simp [Covers, bounds?]
  | cons e rest =>
    obtain ⟨least, greatest, hfold, hleast, hgreatest⟩ := exists_foldl_widen rest e.line e.line
    have hbounds : bounds? (e :: rest) = some (least, greatest) := hfold
    unfold Covers
    rw [hbounds, List.exists_mem_cons_iff, List.exists_mem_cons_iff, ← hleast, ← hgreatest]
    constructor
    · rintro ⟨hbelow, habove⟩
      exact ⟨least, greatest, rfl, hbelow, habove⟩
    · rintro ⟨_, _, hsame, hbelow, habove⟩
      cases hsame
      exact ⟨hbelow, habove⟩

/-! ### What is found -/

theorem isSome_foldl_closer (t : LineTable) (line : Nat) (best : Option LineEntry) :
    (t.foldl (closer line) best).isSome ↔ best.isSome ∨ ∃ e ∈ t, line < e.line.toNat := by
  induction t generalizing best with
  | nil => simp
  | cons e rest ih =>
    rw [List.foldl_cons, ih, List.exists_mem_cons_iff, ← or_assoc]
    refine or_congr_left ?_
    by_cases he : line < e.line.toNat
    · unfold closer
      rw [if_pos he]
      cases best with
      | none => simp [he]
      | some b =>
        dsimp only
        split <;> simp
    · rw [closer_of_le (Nat.not_lt.mp he)]
      exact (or_iff_left he).symm

theorem bciOf?_of_exact (h : t.find? (fun e => decide (e.line.toNat = line)) = some e) :
    t.bciOf? line = some e.startPc.toNat := by
  unfold bciOf?
  rw [h]

theorem bciOf?_of_inexact (h : t.find? (fun e => decide (e.line.toNat = line)) = none) :
    t.bciOf? line =
      if t.Covers line then (t.foldl (closer line) none).map fun e => e.startPc.toNat else none := by
  unfold bciOf?
  rw [h]
  dsimp only
  cases hbounds : t.bounds? with
  | none =>
    rw [if_neg]
    rw [covers_iff, hbounds]
    rintro ⟨_, _, hnone, _⟩
    cases hnone
  | some bounds =>
    obtain ⟨least, greatest⟩ := bounds
    have hinside : (least.toNat ≤ line ∧ line ≤ greatest.toNat) ↔ t.Covers line := by
      rw [covers_iff, hbounds]
      constructor
      · intro h
        exact ⟨least, greatest, rfl, h⟩
      · rintro ⟨_, _, hsame, h⟩
        cases hsame
        exact h
    simp only [hinside]

/-- What is found in a table lies inside it, and all lines inside are found. -/
theorem isSome_bciOf? : (t.bciOf? line).isSome ↔ t.Covers line := by
  cases hexact : t.find? (fun e => decide (e.line.toNat = line)) with
  | some e =>
    rw [bciOf?_of_exact hexact]
    exact iff_of_true rfl (.of_mem (List.mem_of_find?_eq_some hexact) (by simpa using List.find?_some hexact))
  | none =>
    rw [bciOf?_of_inexact hexact]
    by_cases hcovers : t.Covers line
    · rw [if_pos hcovers, Option.isSome_map, isSome_foldl_closer]
      -- The entry that is not before the line is not on it either.
      have ⟨_, e, he, hle⟩ := hcovers
      have hother : ¬ e.line.toNat = line := by simpa using List.find?_eq_none.mp hexact e he
      exact iff_of_true (.inr ⟨e, he, by omega⟩) hcovers
    · rw [if_neg hcovers]
      exact iff_of_false nofun hcovers

theorem bciOf?_eq_none_iff : t.bciOf? line = none ↔ ¬ t.Covers line := by
  rw [← isSome_bciOf?, Option.not_isSome_iff_eq_none]

/-! ### Tables in order -/

/-- The offsets at which the entries of some kind start. -/
def starts (t : LineTable) (p : LineEntry → Prop) : Set Nat := {bci | ∃ e ∈ t, p e ∧ e.startPc.toNat = bci}

/-- The first entry of some kind starts before all others of it. -/
theorem Ordered.isLeast_starts {p : LineEntry → Prop} [DecidablePred p] (h : t.Ordered)
    (hfind : t.find? (fun e => decide (p e)) = some e) : IsLeast (t.starts p) e.startPc.toNat := by
  refine ⟨⟨e, List.mem_of_find?_eq_some hfind, by simpa using List.find?_some hfind, rfl⟩, ?_⟩
  rintro _ ⟨b, hb, hp, rfl⟩
  exact UInt16.le_iff_toNat_le.mp (h.first_le hfind hb (decide_eq_true hp))

/-- A line of the table starts where the first of its entries does. -/
theorem Ordered.bciOf?_of_mem (h : t.Ordered) (he : e ∈ t) :
    ∃ bci, t.bciOf? e.line.toNat = some bci ∧ IsLeast (t.starts fun b => b.line.toNat = e.line.toNat) bci := by
  obtain ⟨first, hfirst⟩ : ∃ first, t.find? (fun b => decide (b.line.toNat = e.line.toNat)) = some first :=
    Option.isSome_iff_exists.mp (List.find?_isSome.mpr ⟨e, he, decide_eq_true rfl⟩)
  exact ⟨first.startPc.toNat, bciOf?_of_exact hfirst, h.isLeast_starts hfirst⟩

/-- A line between those of the table starts where the first line behind it does. -/
theorem Ordered.bciOf?_of_between (h : t.Ordered) (hcovers : t.Covers line)
    (hother : ∀ e ∈ t, e.line.toNat ≠ line) :
    ∃ bci, t.bciOf? line = some bci ∧ IsLeast (t.starts fun e => line < e.line.toNat) bci := by
  have hinexact : t.find? (fun e => decide (e.line.toNat = line)) = none :=
    List.find?_eq_none.mpr fun e he => by simpa using hother e he
  obtain ⟨bci, hbci⟩ := Option.isSome_iff_exists.mp (isSome_bciOf?.mpr hcovers)
  refine ⟨bci, hbci, ?_⟩
  rw [bciOf?_of_inexact hinexact, if_pos hcovers, foldl_closer_none h] at hbci
  obtain ⟨first, hfirst, rfl⟩ := Option.map_eq_some_iff.mp hbci
  exact h.isLeast_starts hfirst

/-- The lines of the table that are not before `line`. -/
def linesFrom (t : LineTable) (line : Nat) : Set Nat := {l | line ≤ l ∧ ∃ e ∈ t, e.line.toNat = l}

/-- **Where a line is found.** In a table whose offsets do not go back a line is not found exactly if it is below all
lines or above all lines. A line between them is found where the first entry behind it starts. So what is found is
the least offset of the closest line that is not before it if that is the line itself, or if no line further on
starts before all of the closest one; and otherwise it is not. -/
theorem bciOf?_closest (h : t.Ordered) (line : Nat) :
    (t.bciOf? line = none ↔ (∀ e ∈ t, line < e.line.toNat) ∨ ∀ e ∈ t, e.line.toNat < line) ∧
    (t.Covers line → (∀ e ∈ t, e.line.toNat ≠ line) →
      ∃ bci, t.bciOf? line = some bci ∧ IsLeast (t.starts fun e => line < e.line.toNat) bci) ∧
    ∀ closest, t.Covers line → IsLeast (t.linesFrom line) closest →
      ((∃ bci, t.bciOf? line = some bci ∧ IsLeast (t.starts fun e => e.line.toNat = closest) bci) ↔
        closest = line ∨
          ∃ e ∈ t, e.line.toNat = closest ∧ ∀ e' ∈ t, closest < e'.line.toNat → e.startPc ≤ e'.startPc) := by
  refine ⟨bciOf?_eq_none_iff.trans not_covers_iff, h.bciOf?_of_between, ?_⟩
  rintro closest hcovers ⟨⟨hbehind, e, he, rfl⟩, hclosest⟩
  rcases Nat.eq_or_lt_of_le hbehind with rfl | hless
  · exact iff_of_true (h.bciOf?_of_mem he) (.inl rfl)
  have hother : ∀ b ∈ t, b.line.toNat ≠ line := by
    rintro b hb rfl
    exact absurd (hclosest ⟨Nat.le_refl _, b, hb, rfl⟩) (Nat.not_le.mpr hless)
  obtain ⟨bci, hbci, ⟨first, hfirst, hfirstBehind, rfl⟩, hleast⟩ := h.bciOf?_of_between hcovers hother
  constructor
  · rintro ⟨_, hsame, ⟨b, hb, hline, hstart⟩, _⟩
    cases hbci.symm.trans hsame
    refine .inr ⟨b, hb, hline, fun e' he' hfurther => ?_⟩
    rw [UInt16.le_iff_toNat_le, hstart]
    exact hleast ⟨e', he', Nat.lt_trans hless hfurther, rfl⟩
  · rintro (hsame | ⟨b, hb, hline, hearly⟩)
    · exact absurd hsame.symm (Nat.ne_of_lt hless)
    · -- The first entry behind the line is on the closest line, or starts with one that is.
      have hle : b.startPc ≤ first.startPc ∨ first.line.toNat = e.line.toNat := by
        rcases Nat.eq_or_lt_of_le (hclosest ⟨Nat.le_of_lt hfirstBehind, first, hfirst, rfl⟩) with hsame | hfurther
        · exact .inr hsame.symm
        · exact .inl (hearly first hfirst hfurther)
      refine ⟨_, hbci, ?_, ?_⟩
      · rcases hle with hle | hsame
        · have hfirstLe := hleast ⟨b, hb, Nat.lt_of_lt_of_eq hless hline.symm, rfl⟩
          exact ⟨b, hb, hline, Nat.le_antisymm (UInt16.le_iff_toNat_le.mp hle) hfirstLe⟩
        · exact ⟨first, hfirst, hsame, rfl⟩
      · rintro _ ⟨b', hb', hline', rfl⟩
        exact hleast ⟨b', hb', Nat.lt_of_lt_of_eq hless hline'.symm, rfl⟩

/-- A loop whose condition is written behind its body: line 11 starts with line 12. -/
def loopLines : LineTable := [⟨0, 10⟩, ⟨2, 12⟩, ⟨5, 14⟩, ⟨8, 12⟩]

theorem bciOf?_closest_loop :
    loopLines.Ordered ∧ ∃ bci, loopLines.bciOf? 11 = some bci ∧
      IsLeast (loopLines.starts fun e => e.line.toNat = 12) bci := by
  have hordered : loopLines.Ordered := by decide
  have hclosest : IsLeast (loopLines.linesFrom 11) 12 := by
    refine ⟨⟨by decide, ⟨2, 12⟩, by decide, rfl⟩, ?_⟩
    rintro _ ⟨hbehind, e, he, rfl⟩
    revert e
    decide
  obtain ⟨_, _, hall⟩ := bciOf?_closest hordered 11
  exact ⟨hordered, (hall 12 (by decide) hclosest).mpr (.inr ⟨⟨2, 12⟩, by decide, rfl, by decide⟩)⟩

/-- Line 20 starts before line 12 does, which is closer to line 11. -/
def backwardLines : LineTable := [⟨0, 10⟩, ⟨2, 20⟩, ⟨5, 12⟩]

/-- The closest following line may be passed over. -/
theorem not_bciOf?_closest :
    ¬ ∀ (t : LineTable) (line closest : Nat), t.Ordered → t.Covers line → IsLeast (t.linesFrom line) closest →
      ∃ bci, t.bciOf? line = some bci ∧ IsLeast (t.starts fun e => e.line.toNat = closest) bci := by
  intro hall
  have hclosest : IsLeast (backwardLines.linesFrom 11) 12 := by
    refine ⟨⟨by decide, ⟨5, 12⟩, by decide, rfl⟩, ?_⟩
    rintro _ ⟨hbehind, e, he, rfl⟩
    revert e
    decide
  obtain ⟨bci, hbci, ⟨e, he, hline, hstart⟩, _⟩ := hall backwardLines 11 12 (by decide) (by decide) hclosest
  have hfound : backwardLines.bciOf? 11 = some 2 := by decide
  cases hfound.symm.trans hbci
  revert e
  decide

end ClassCatalog.ClassFile.LineTable
