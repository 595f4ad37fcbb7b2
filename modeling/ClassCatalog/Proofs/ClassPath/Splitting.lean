import Mathlib.Data.List.DropRight
import ClassCatalog.ClassPath.Components

/-! What comes of joined class paths.

A semicolon separates wherever it stands, so class paths that are joined by semicolons are split one by one
(`split_intercalate`). A colon separates too unless it is the colon of a drive, and it is that only as the second
character since the last separator. White space counts there, though it is trimmed later: a component with a drive is
split at its colon if there is white space before it. Apart from that, components that are joined with white space
around them are what comes of splitting (`split_joined`). The components that this is about are those that can come of
splitting at all (`isComponent_iff`). -/
namespace ClassCatalog

namespace Text
variable {cs left right : List Char} {c : Char}

theorem isBlank_of_head?_dropWhile (h : (cs.dropWhile isBlank).head? = some c) : isBlank c = false := by
  have hfirst := List.head?_dropWhile_not isBlank cs
  rw [h] at hfirst
  exact hfirst

/-- There is no white space at the start of what has been trimmed. -/
theorem isBlank_of_head?_trim (h : (trim cs).head? = some c) : isBlank c = false := by
  obtain ⟨rest, hrest⟩ := List.head?_eq_some_iff.mp h
  obtain ⟨back, hback⟩ : trim cs <+: cs.dropWhile isBlank := List.rdropWhile_prefix isBlank _
  have hfront : (cs.dropWhile isBlank).head? = some c := by
    rw [← hback, hrest]
    rfl
  exact isBlank_of_head?_dropWhile hfront

/-- There is no white space at the end of what has been trimmed. -/
theorem isBlank_of_getLast?_trim (h : (trim cs).getLast? = some c) : isBlank c = false := by
  unfold trim at h
  rw [List.getLast?_reverse] at h
  exact isBlank_of_head?_dropWhile h

theorem trim_eq_self (hfirst : ∀ c ∈ cs.head?, isBlank c = false) (hlast : ∀ c ∈ cs.getLast?, isBlank c = false) :
    trim cs = cs := by
  have hfront : cs.dropWhile isBlank = cs := by
    cases cs with
    | nil => rfl
    | cons c rest => exact List.dropWhile_cons_of_neg (by rw [hfirst c rfl]; exact Bool.false_ne_true)
  show (cs.dropWhile isBlank).rdropWhile isBlank = cs
  rw [hfront, List.rdropWhile_eq_self_iff]
  intro hne hblank
  rw [hlast _ (List.getLast?_eq_some_getLast hne)] at hblank
  cases hblank

/-- White space around a text is trimmed, whatever the text is. -/
theorem trim_padded (hleft : ∀ c ∈ left, isBlank c = true) (hright : ∀ c ∈ right, isBlank c = true) :
    trim (left ++ cs ++ right) = trim cs := by
  unfold trim
  rw [List.append_assoc, List.dropWhile_append_of_pos hleft, List.dropWhile_append]
  split
  · rename_i hempty
    rw [List.isEmpty_iff.mp hempty, List.dropWhile_eq_nil_iff.mpr hright]
  · rw [List.reverse_append, List.dropWhile_append_of_pos]
    exact fun c hc => hright c (List.mem_reverse.mp hc)

/-- All that is trimmed is white space. -/
theorem exists_padding (cs : List Char) : ∃ left right, (∀ c ∈ left, isBlank c = true) ∧
    (∀ c ∈ right, isBlank c = true) ∧ cs = left ++ (trim cs ++ right) := by
  refine ⟨cs.takeWhile isBlank, (cs.dropWhile isBlank).rtakeWhile isBlank, fun _ => List.mem_takeWhile_imp,
    fun _ => List.mem_rtakeWhile_imp, ?_⟩
  have hback : trim cs ++ (cs.dropWhile isBlank).rtakeWhile isBlank = cs.dropWhile isBlank :=
    List.rdropWhile_append_rtakeWhile
  rw [hback, List.takeWhile_append_dropWhile]

end Text

namespace ClassPath
open Text
variable {cs begun rest : List Char} {c : Char}

/-! ### Drives -/

theorem hasDrive_iff : hasDrive cs = true ↔ ∃ letter slash rest, cs = letter :: ':' :: slash :: rest ∧
    isLetter letter = true ∧ (slash = '\\' ∨ slash = '/') := by
  unfold hasDrive
  split
  · rename_i c d rest
    rw [Bool.and_eq_true, Bool.or_eq_true, decide_eq_true_eq, decide_eq_true_eq]
    constructor
    · exact fun h => ⟨c, d, rest, rfl, h⟩
    · rintro ⟨_, _, _, heq, h⟩
      cases heq
      exact h
  · rename_i hother
    constructor
    · exact fun h => nomatch h
    · rintro ⟨letter, slash, rest, heq, _⟩
      exact absurd heq (hother letter slash rest)

/-- The colon of a drive is the second character since the last separator. -/
theorem isDriveColon_iff : isDriveColon begun rest = true ↔
    ∃ letter, begun = [letter] ∧ hasDrive (letter :: ':' :: rest) = true := by
  constructor
  · intro h
    unfold isDriveColon at h
    split at h
    · exact ⟨_, rfl, h⟩
    · cases h
  · rintro ⟨letter, rfl, h⟩
    cases rest with
    | nil => cases h
    | cons slash rest => exact h

theorem hasDrive_append (h : hasDrive cs = true) (more : List Char) : hasDrive (cs ++ more) = true := by
  obtain ⟨_, _, _, rfl, _⟩ := hasDrive_iff.mp h
  exact h

theorem not_blank_of_isLetter (h : isLetter c = true) : isBlank c = false := by
  have hrange : 65 ≤ c.toNat ∧ c.toNat ≤ 122 := by
    have hcase : c.isUpper = true ∨ c.isLower = true := (Bool.or_eq_true _ _).mp h
    rcases hcase with hupper | hlower
    · obtain ⟨hfirst, hlast⟩ : 65 ≤ c.val ∧ c.val ≤ 90 := of_decide_eq_true hupper
      exact ⟨UInt32.le_iff_toNat_le.mp hfirst, (UInt32.le_iff_toNat_le.mp hlast).trans (by decide)⟩
    · obtain ⟨hfirst, hlast⟩ := (Bool.and_eq_true _ _).mp hlower
      have hfirst : 97 ≤ c.val := of_decide_eq_true hfirst
      have hlast : c.val ≤ 122 := of_decide_eq_true hlast
      exact ⟨(by decide : 65 ≤ 97).trans (UInt32.le_iff_toNat_le.mp hfirst), UInt32.le_iff_toNat_le.mp hlast⟩
  unfold isBlank
  simp only [Bool.or_eq_false_iff, Bool.and_eq_false_iff, decide_eq_false_iff_not, beq_eq_false_iff_ne]
  omega

theorem not_blank_of_slash (h : c = '\\' ∨ c = '/') : isBlank c = false := by
  rcases h with rfl | rfl <;> rfl

/-! ### Separators -/

theorem splitFrom_semicolon (begun rest : List Char) :
    splitFrom begun (';' :: rest) = begun.reverse :: splitFrom [] rest := rfl

theorem splitFrom_colon (h : isDriveColon begun rest = false) :
    splitFrom begun (':' :: rest) = begun.reverse :: splitFrom [] rest := by
  rw [splitFrom, if_neg (by decide), h]
  rfl

theorem splitFrom_driveColon (h : isDriveColon begun rest = true) :
    splitFrom begun (':' :: rest) = splitFrom (':' :: begun) rest := by
  rw [splitFrom, if_neg (by decide), h]
  rfl

/-- A semicolon behind a colon is as good as the end. -/
theorem isDriveColon_append_semicolon (begun cs rest : List Char) :
    isDriveColon begun (cs ++ ';' :: rest) = isDriveColon begun cs := by
  cases cs with
  | nil =>
    match begun with
    | [] => rfl
    | [c] => exact Bool.and_false _
    | _ :: _ :: _ => rfl
  | cons d cs =>
    rw [Bool.eq_iff_iff, isDriveColon_iff, isDriveColon_iff]
    rfl

/-- A semicolon separates wherever it stands. -/
theorem splitFrom_append_semicolon (begun cs rest : List Char) :
    splitFrom begun (cs ++ ';' :: rest) = splitFrom begun cs ++ splitFrom [] rest := by
  induction cs generalizing begun with
  | nil => rfl
  | cons c cs ih =>
    rw [List.cons_append, splitFrom, splitFrom, isDriveColon_append_semicolon, ih, ih]
    split
    · rfl
    · split <;> rfl

theorem split_append_semicolon (cs rest : List Char) : split (cs ++ ';' :: rest) = split cs ++ split rest := by
  unfold split
  rw [splitFrom_append_semicolon, List.map_append, List.filter_append]

/-- What is joined by semicolons is split one by one. -/
theorem split_intercalate (parts : List (List Char)) : split ([';'].intercalate parts) = parts.flatMap split := by
  induction parts with
  | nil => rfl
  | cons part rest ih =>
    cases rest with
    | nil => simp
    | cons next rest =>
      rw [List.intercalate_cons_cons, List.append_assoc, List.singleton_append, split_append_semicolon, ih]
      rfl

/-- Neither of the separators is in the text. -/
def Plain (cs : List Char) : Prop := ∀ c ∈ cs, c ≠ ';' ∧ c ≠ ':'

theorem plain_of_not_mem (hsemicolon : ';' ∉ cs) (hcolon : ':' ∉ cs) : Plain cs :=
  fun _ h => ⟨ne_of_mem_of_not_mem h hsemicolon, ne_of_mem_of_not_mem h hcolon⟩

theorem plain_of_blank (h : ∀ c ∈ cs, isBlank c = true) : Plain cs := by
  refine plain_of_not_mem (fun hmem => ?_) fun hmem => ?_
  · exact absurd (h _ hmem) (by decide)
  · exact absurd (h _ hmem) (by decide)

theorem plain_of_isLetter (h : isLetter c = true) : Plain [c] := by
  refine List.forall_mem_singleton.mpr ⟨?_, ?_⟩
  · rintro rfl
    exact absurd h (by decide)
  · rintro rfl
    exact absurd h (by decide)

theorem plain_append : Plain (cs ++ rest) ↔ Plain cs ∧ Plain rest := List.forall_mem_append

theorem splitFrom_append_plain (h : Plain cs) (begun rest : List Char) :
    splitFrom begun (cs ++ rest) = splitFrom (cs.reverse ++ begun) rest := by
  induction cs generalizing begun with
  | nil => rfl
  | cons c cs ih =>
    obtain ⟨⟨hsemicolon, hcolon⟩, hcs⟩ := List.forall_mem_cons.mp h
    rw [List.cons_append, splitFrom, if_neg hsemicolon, if_neg (by simp [hcolon]), ih hcs, List.reverse_cons,
      List.append_assoc, List.singleton_append]

theorem splitFrom_plain (h : Plain cs) (begun : List Char) : splitFrom begun cs = [begun.reverse ++ cs] := by
  have := splitFrom_append_plain h begun []
  rw [List.append_nil, splitFrom, List.reverse_append, List.reverse_reverse] at this
  exact this

/-! ### Components -/

/-- What follows the colon of the drive, which is everything if there is no drive. -/
def afterDrive (cs : List Char) : List Char := if hasDrive cs then cs.drop 2 else cs

/-- There is no separator in a stretch, but for the colon of a drive. -/
structure Stretch (cs : List Char) : Prop where
  no_semicolon : ';' ∉ cs
  no_colon : ':' ∉ afterDrive cs

/-- A component is a stretch that is not empty and has no white space at its ends. -/
structure IsComponent (text : List Char) : Prop extends Stretch text where
  ne_nil : text ≠ []
  first : ∀ c ∈ text.head?, isBlank c = false
  last : ∀ c ∈ text.getLast?, isBlank c = false

namespace Stretch

theorem of_plain (h : Plain cs) : Stretch cs where
  no_semicolon := fun hmem => (h _ hmem).1 rfl
  no_colon := by
    unfold afterDrive
    split
    · exact fun hmem => (h _ (List.mem_of_mem_drop hmem)).2 rfl
    · exact fun hmem => (h _ hmem).2 rfl

theorem of_drive {letter : Char} (hdrive : hasDrive (letter :: ':' :: rest) = true) (h : Plain rest) :
    Stretch (letter :: ':' :: rest) where
  no_semicolon := by
    obtain ⟨_, _, _, heq, hletter, _⟩ := hasDrive_iff.mp hdrive
    cases heq
    have hplain : Plain ([letter] ++ _) := plain_append.mpr ⟨plain_of_isLetter hletter, h⟩
    simpa using fun hmem => (hplain _ hmem).1 rfl
  no_colon := by
    rw [afterDrive, if_pos hdrive]
    exact fun hmem => (h _ hmem).2 rfl

theorem plain (h : Stretch cs) (hdrive : ¬ hasDrive cs = true) : Plain cs := by
  have hcolon := h.no_colon
  rw [afterDrive, if_neg hdrive] at hcolon
  exact plain_of_not_mem h.no_semicolon hcolon

theorem plain_behind {letter : Char} (h : Stretch (letter :: ':' :: rest))
    (hdrive : hasDrive (letter :: ':' :: rest) = true) : Plain rest := by
  have hcolon := h.no_colon
  rw [afterDrive, if_pos hdrive] at hcolon
  exact plain_of_not_mem (fun hmem => h.no_semicolon (List.mem_cons_of_mem _ (List.mem_cons_of_mem _ hmem))) hcolon

theorem append_plain (h : Stretch cs) (hrest : Plain rest) : Stretch (cs ++ rest) := by
  by_cases hdrive : hasDrive cs = true
  · have hlonger := hasDrive_append hdrive rest
    obtain ⟨letter, slash, back, rfl, _⟩ := hasDrive_iff.mp hdrive
    exact .of_drive hlonger (plain_append.mpr ⟨h.plain_behind hdrive, hrest⟩)
  · exact .of_plain (plain_append.mpr ⟨h.plain hdrive, hrest⟩)

/-- A stretch is not split. -/
theorem splitFrom_eq (h : Stretch cs) : splitFrom [] cs = [cs] := by
  by_cases hdrive : hasDrive cs = true
  · obtain ⟨letter, slash, back, rfl, hletter, _⟩ := hasDrive_iff.mp hdrive
    have hcolon : isDriveColon [letter] (slash :: back) = true := isDriveColon_iff.mpr ⟨letter, rfl, hdrive⟩
    have hstart := splitFrom_append_plain (plain_of_isLetter hletter) [] (':' :: slash :: back)
    rw [List.reverse_singleton, List.append_nil, splitFrom_driveColon hcolon,
      splitFrom_plain (h.plain_behind hdrive)] at hstart
    exact hstart
  · exact splitFrom_plain (h.plain hdrive) []

/-- A stretch keeps its drive when it is trimmed. -/
theorem trim (h : Stretch cs) : Stretch (trim cs) := by
  obtain ⟨left, right, hleft, hright, hcs⟩ := exists_padding cs
  generalize Text.trim cs = text at hcs
  subst hcs
  by_cases hdrive : hasDrive (left ++ (text ++ right)) = true
  · obtain ⟨letter, slash, back, heq, hletter, hslash⟩ := hasDrive_iff.mp hdrive
    rw [heq] at h hdrive
    have hnone : left = [] := by
      cases left with
      | nil => rfl
      | cons c left =>
        have hc : c = letter := List.head_eq_of_cons_eq heq
        have hblank := hleft letter (hc ▸ List.mem_cons_self ..)
        rw [not_blank_of_isLetter hletter] at hblank
        cases hblank
    subst hnone
    -- the colon and the slash are not white space, so at least three characters are left
    rcases text with _ | ⟨first, _ | ⟨second, _ | ⟨third, text⟩⟩⟩
    · exact of_plain fun _ hmem => nomatch hmem
    · cases heq
      exact absurd (hright ':' (List.mem_cons_self ..)) (by decide)
    · cases heq
      have hblank := hright slash (List.mem_cons_self ..)
      rw [not_blank_of_slash hslash] at hblank
      cases hblank
    · cases heq
      exact of_drive hdrive (plain_append.mp (h.plain_behind hdrive)).1
  · exact of_plain (plain_append.mp (plain_append.mp (h.plain hdrive)).2).1

end Stretch

/-! ### Splitting -/

/-- A stretch that has been begun, in reverse. The colon of a drive comes before the slash that makes it one. -/
def Begun (begun rest : List Char) : Prop :=
  Stretch begun.reverse ∨ ∃ before, begun = ':' :: before ∧ isDriveColon before rest = true

namespace Begun

theorem start (rest : List Char) : Begun [] rest := .inl (.of_plain fun _ h => nomatch h)

theorem push (h : Begun begun (c :: rest)) (hsemicolon : c ≠ ';') (hcolon : c ≠ ':') : Begun (c :: begun) rest := by
  have hc : Plain [c] := List.forall_mem_singleton.mpr ⟨hsemicolon, hcolon⟩
  refine .inl ?_
  rw [List.reverse_cons]
  rcases h with h | ⟨before, rfl, h⟩
  · exact h.append_plain hc
  · obtain ⟨letter, rfl, hdrive⟩ := isDriveColon_iff.mp h
    exact .of_drive hdrive hc

/-- What has been begun is a stretch when it ends. -/
theorem stretch (h : Begun begun rest) (hend : ∀ c ∈ rest.head?, c = ';' ∨ c = ':') : Stretch begun.reverse := by
  rcases h with h | ⟨before, rfl, h⟩
  · exact h
  · obtain ⟨_, rfl, hdrive⟩ := isDriveColon_iff.mp h
    obtain ⟨_, slash, _, heq, _, hslash⟩ := hasDrive_iff.mp hdrive
    cases heq
    rcases hend slash rfl with rfl | rfl <;> exact absurd hslash (by decide)

end Begun

/-- There are only stretches between the separators. -/
theorem stretch_of_mem_splitFrom (h : Begun begun rest) : ∀ s ∈ splitFrom begun rest, Stretch s := by
  induction rest generalizing begun with
  | nil => exact List.forall_mem_singleton.mpr (h.stretch fun _ hend => nomatch hend)
  | cons c rest ih =>
    by_cases hsemicolon : c = ';'
    · subst hsemicolon
      rw [splitFrom_semicolon, List.forall_mem_cons]
      exact ⟨h.stretch (by simp), ih (.start rest)⟩
    by_cases hcolon : c = ':'
    · subst hcolon
      by_cases hdrive : isDriveColon begun rest = true
      · rw [splitFrom_driveColon hdrive]
        exact ih (.inr ⟨begun, rfl, hdrive⟩)
      · rw [splitFrom_colon (Bool.eq_false_iff.mpr hdrive), List.forall_mem_cons]
        exact ⟨h.stretch (by simp), ih (.start rest)⟩
    · rw [splitFrom, if_neg hsemicolon, if_neg (by simp [hcolon])]
      exact ih (h.push hsemicolon hcolon)

/-- Whatever is split, what comes of it are components. -/
theorem isComponent_of_mem_split {text : List Char} (h : text ∈ split cs) : IsComponent text := by
  obtain ⟨htext, hne⟩ := List.mem_filter.mp h
  obtain ⟨s, hs, rfl⟩ := List.mem_map.mp htext
  exact { (stretch_of_mem_splitFrom (.start cs) s hs).trim with
    ne_nil := of_decide_eq_true hne
    first := fun _ => isBlank_of_head?_trim
    last := fun _ => isBlank_of_getLast?_trim }

namespace IsComponent
variable {letter slash : Char}

/-- What follows the colon of a drive could be a component of its own. -/
theorem behind_drive (h : IsComponent (letter :: ':' :: slash :: rest))
    (hdrive : hasDrive (letter :: ':' :: slash :: rest) = true) : IsComponent (slash :: rest) where
  toStretch := .of_plain (h.plain_behind hdrive)
  ne_nil := List.cons_ne_nil _ _
  first := by
    obtain ⟨_, _, _, heq, _, hslash⟩ := hasDrive_iff.mp hdrive
    cases heq
    rintro c ⟨⟩
    exact not_blank_of_slash hslash
  last := h.last

/-- So could the letter of a drive. -/
theorem of_letter (hletter : isLetter letter = true) : IsComponent [letter] where
  toStretch := .of_plain (plain_of_isLetter hletter)
  ne_nil := List.cons_ne_nil _ _
  first := by simp [not_blank_of_isLetter hletter]
  last := by simp [not_blank_of_isLetter hletter]

theorem trim_padded {text left right : List Char} (h : IsComponent text) (hleft : ∀ c ∈ left, isBlank c = true)
    (hright : ∀ c ∈ right, isBlank c = true) : trim (left ++ text ++ right) = text := by
  rw [Text.trim_padded hleft hright, trim_eq_self h.first h.last]

end IsComponent

/-- A component as it is written, with white space around it. -/
structure Padded where
  left : List Char
  text : List Char
  right : List Char
  blank_left : ∀ c ∈ left, isBlank c = true
  component : IsComponent text
  blank_right : ∀ c ∈ right, isBlank c = true

namespace Padded

def written (p : Padded) : List Char := p.left ++ p.text ++ p.right

/-- A drive is cut off if there is white space before it. -/
def pieces (p : Padded) : List (List Char) :=
  if p.left ≠ [] ∧ hasDrive p.text = true then [p.text.take 1, p.text.drop 2] else [p.text]

/-- Nothing is cut off where all that is written is one stretch. -/
theorem split_kept (p : Padded) (h : Stretch p.written) : split p.written = [p.text] := by
  rw [split, h.splitFrom_eq, List.map_singleton, written, p.component.trim_padded p.blank_left p.blank_right]
  exact List.filter_cons_of_pos (decide_eq_true p.component.ne_nil)

/-- The colon of a drive is like any other if there is white space before the letter. -/
theorem split_cut {letter : Char} {left back right : List Char} (hne : left ≠ [])
    (hleft : ∀ c ∈ left, isBlank c = true) (hletter : isLetter letter = true) (hback : IsComponent back)
    (hplain : Plain back) (hright : ∀ c ∈ right, isBlank c = true) :
    split (left ++ letter :: ':' :: (back ++ right)) = [[letter], back] := by
  have hfront : Plain (left ++ [letter]) := plain_append.mpr ⟨plain_of_blank hleft, plain_of_isLetter hletter⟩
  have hcolon : isDriveColon (left ++ [letter]).reverse (back ++ right) = false := by
    rw [← Bool.not_eq_true, isDriveColon_iff]
    rintro ⟨_, heq, _⟩
    simp [hne] at heq
  have hstart := splitFrom_append_plain hfront [] (':' :: (back ++ right))
  rw [List.append_nil, splitFrom_colon hcolon, splitFrom_plain (plain_append.mpr ⟨hplain, plain_of_blank hright⟩),
    List.reverse_reverse, List.reverse_nil, List.nil_append, List.append_assoc] at hstart
  have htrimFront : trim (left ++ [letter]) = [letter] := by
    simpa using (IsComponent.of_letter hletter).trim_padded hleft (List.forall_mem_nil _)
  have htrimBack : trim (back ++ right) = back := hback.trim_padded (List.forall_mem_nil _) hright
  show split (left ++ ([letter] ++ ':' :: (back ++ right))) = [[letter], back]
  rw [split, hstart, List.map_cons, List.map_singleton, htrimFront, htrimBack]
  simp [hback.ne_nil]

theorem split_written (p : Padded) : split p.written = p.pieces := by
  unfold pieces
  split_ifs with hcut
  · obtain ⟨left, text, right, hleft, htext, hright⟩ := p
    obtain ⟨hne, hdrive⟩ := hcut
    obtain ⟨letter, slash, rest, rfl, hletter, _⟩ := hasDrive_iff.mp hdrive
    rw [written, List.append_assoc]
    exact split_cut hne hleft hletter (htext.behind_drive hdrive) (htext.plain_behind hdrive) hright
  · apply p.split_kept
    by_cases hdrive : hasDrive p.text = true
    · have hleft : p.left = [] := not_not.mp fun hne => hcut ⟨hne, hdrive⟩
      rw [written, hleft]
      exact p.component.append_plain (plain_of_blank p.blank_right)
    · exact .of_plain (plain_append.mpr ⟨plain_append.mpr ⟨plain_of_blank p.blank_left, p.component.plain hdrive⟩,
        plain_of_blank p.blank_right⟩)

theorem pieces_eq_singleton (p : Padded) (h : hasDrive p.text = true → p.left = []) : p.pieces = [p.text] := by
  rw [pieces, if_neg]
  exact fun hcut => hcut.1 (h hcut.2)

/-- A component that is cut does not come first. -/
theorem eq_nil_of_pieces {back texts : List (List Char)} (p : Padded) (h : p.pieces ++ back = p.text :: texts)
    (hdrive : hasDrive p.text = true) : p.left = [] := by
  by_contra hleft
  obtain ⟨letter, slash, rest, htext, _⟩ := hasDrive_iff.mp hdrive
  rw [pieces, if_pos ⟨hleft, hdrive⟩, htext] at h
  cases h

end Padded

/-- The components are what can come of splitting. -/
theorem isComponent_iff {text : List Char} : IsComponent text ↔ ∃ cs, text ∈ split cs := by
  refine ⟨fun h => ⟨text, ?_⟩, fun ⟨_, h⟩ => isComponent_of_mem_split h⟩
  rw [split, h.splitFrom_eq, List.map_singleton, trim_eq_self h.first h.last, List.mem_filter]
  exact ⟨List.mem_singleton_self text, decide_eq_true h.ne_nil⟩

/-! ### Joining -/

/-- A class path as it is written. -/
def joined (items : List Padded) : List Char := [';'].intercalate (items.map Padded.written)

theorem flatMap_pieces_eq_iff {items : List Padded} : items.flatMap Padded.pieces = items.map Padded.text ↔
    ∀ p ∈ items, hasDrive p.text = true → p.left = [] := by
  induction items with
  | nil => simp
  | cons p rest ih =>
    rw [List.flatMap_cons, List.map_cons, List.forall_mem_cons, ← ih]
    constructor
    · intro h
      have hleft := p.eq_nil_of_pieces h
      rw [p.pieces_eq_singleton hleft] at h
      exact ⟨hleft, List.tail_eq_of_cons_eq h⟩
    · rintro ⟨hleft, hrest⟩
      rw [p.pieces_eq_singleton hleft, hrest]
      rfl

/-- **Joined components are split again.** Components are joined by semicolons, with white space around each of them.
What comes of splitting is each of them, in order, but a drive is cut off from its component and is one of its own if
there is white space before it. So splitting undoes joining if and only if no component with a drive has white space
before it. -/
theorem split_joined (items : List Padded) :
    split (joined items) = items.flatMap Padded.pieces ∧
    (split (joined items) = items.map Padded.text ↔ ∀ p ∈ items, hasDrive p.text = true → p.left = []) := by
  have hsplit : split (joined items) = items.flatMap Padded.pieces := by
    rw [joined, split_intercalate, List.flatMap_map]
    exact List.flatMap_congr fun p _ => p.split_written
  refine ⟨hsplit, ?_⟩
  rw [hsplit, flatMap_pieces_eq_iff]

/-- A component with a drive, and a space before it. -/
def spaced : Padded where
  left := [' ']
  text := ['C', ':', '\\', 'l', 'i', 'b']
  right := []
  blank_left := List.forall_mem_singleton.mpr rfl
  component :=
    { no_semicolon := by decide
      no_colon := by decide
      ne_nil := List.cons_ne_nil _ _
      first := by rintro _ ⟨⟩; rfl
      last := by rintro _ ⟨⟩; rfl }
  blank_right := fun _ h => nomatch h

theorem not_split_joined : ¬ ∀ items, split (joined items) = items.map Padded.text := by
  intro h
  exact absurd (h [spaced]) (by decide)

end ClassPath
end ClassCatalog
