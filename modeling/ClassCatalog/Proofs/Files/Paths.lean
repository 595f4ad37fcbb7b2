import ClassCatalog.Files.Tree

/-! Where paths lead.

A path is followed piece by piece, and pieces are what slashes divide: names put together with slashes are taken apart
again (`pieces_intercalate`), and a path continued by another has the pieces of both (`pieces_join`). Two spellings of
one path lead to the same place if both lead anywhere (`locate_same`). -/
namespace ClassCatalog
open Files

namespace Path

/-! ### Pieces -/

theorem pieces_ne_nil (cs : List Char) : pieces cs ≠ [] := by
  cases cs with
  | nil => exact List.cons_ne_nil _ _
  | cons c rest =>
    unfold pieces
    split
    · exact List.cons_ne_nil _ _
    · split <;> exact List.cons_ne_nil _ _

theorem pieces_append_slash (a b : List Char) : pieces (a ++ '/' :: b) = pieces a ++ pieces b := by
  induction a with
  | nil => rfl
  | cons c rest ih =>
    rw [List.cons_append, pieces, pieces, ih]
    split
    · rfl
    · cases hrest : pieces rest with
      | nil => exact absurd hrest (pieces_ne_nil rest)
      | cons p ps => rfl

theorem pieces_of_no_slash {n : List Char} (h : '/' ∉ n) : pieces n = [n] := by
  induction n with
  | nil => rfl
  | cons c rest ih =>
    have hc : c ≠ '/' := fun e => h (e ▸ List.mem_cons_self ..)
    rw [pieces, if_neg hc, ih fun hrest => h (List.mem_cons_of_mem _ hrest)]

theorem no_slash_of_mem_pieces {cs piece : List Char} (h : piece ∈ pieces cs) : '/' ∉ piece := by
  induction cs generalizing piece with
  | nil =>
    rw [List.mem_singleton.mp h]
    exact List.not_mem_nil
  | cons c rest ih =>
    unfold pieces at h
    split at h
    · rcases List.mem_cons.mp h with rfl | h
      · exact List.not_mem_nil
      · exact ih h
    · rename_i hc
      split at h
      · rename_i hrest
        exact absurd hrest (pieces_ne_nil rest)
      · rename_i p ps hrest
        rcases List.mem_cons.mp h with rfl | h
        · have hp := ih (hrest ▸ List.mem_cons_self ..)
          exact fun hmem => (List.mem_cons.mp hmem).elim (fun e => hc e.symm) hp
        · exact ih (hrest ▸ List.mem_cons_of_mem _ h)

/-- Names put together with slashes are taken apart again. -/
theorem pieces_intercalate {names : List String} (hne : names ≠ []) (h : ∀ n ∈ names, '/' ∉ n.toList) :
    pieces (String.intercalate "/" names).toList = names.map String.toList := by
  rw [String.toList_intercalate]
  induction names with
  | nil => exact absurd rfl hne
  | cons n rest ih =>
    have hn : '/' ∉ n.toList := h n (List.mem_cons_self ..)
    cases rest with
    | nil => simpa using pieces_of_no_slash hn
    | cons m rest =>
      have hrest := ih (List.cons_ne_nil _ _) fun x hx => h x (List.mem_cons_of_mem _ hx)
      have hstep : List.intercalate "/".toList ((n :: m :: rest).map String.toList) =
          n.toList ++ '/' :: List.intercalate "/".toList ((m :: rest).map String.toList) := by
        simp
      rw [hstep, pieces_append_slash, pieces_of_no_slash hn, hrest]
      rfl

/-- A path continued by a relative one has the pieces of both. A slash at its end, and the empty piece behind it,
does not count. -/
theorem pieces_join {location : Path} {file : String} (hlocation : location.text.isEmpty = false)
    (hfile : isAbsolute ⟨file⟩ = false) :
    ∃ front, pieces (location.join file).text.toList = front ++ pieces file.toList ∧
      (pieces location.text.toList = front ∨ pieces location.text.toList = front ++ [[]]) := by
  unfold join
  rw [hfile, hlocation, Bool.false_or]
  simp only [Bool.false_eq_true, if_false]
  split
  · rename_i hlast
    obtain ⟨front, hfront⟩ := List.getLast?_eq_some_iff.mp (of_decide_eq_true hlast)
    refine ⟨pieces front, ?_, .inr ?_⟩
    · rw [String.toList_append, hfront, List.append_assoc, List.singleton_append, pieces_append_slash]
    · rw [hfront, pieces_append_slash]
      rfl
  · refine ⟨pieces location.text.toList, ?_, .inl rfl⟩
    rw [String.toList_append, String.toList_append, List.append_assoc]
    exact pieces_append_slash ..

theorem isEmpty_join {location : Path} (hlocation : location.text.isEmpty = false) (file : String) :
    (location.join file).text.isEmpty = false := by
  rw [Bool.eq_false_iff, Ne, String.isEmpty_iff] at *
  unfold join
  split
  · rename_i habsolute
    rintro rfl
    cases habsolute
  · split
    · exact fun h => hlocation (String.append_eq_empty_iff.mp h).1
    · exact fun h => hlocation (String.append_eq_empty_iff.mp (String.append_eq_empty_iff.mp h).1).1

/-! ### Destinations -/

/-- Where a part of a path leads from a place. -/
def Part.from (place : Place) : Part → Place
  | .root => []
  | .here => place
  | .parent => place.dropLast
  | .name text => place ++ [text]

/-- The place a path leads to when nothing is in the way. -/
def destination (p : Path) : Place := p.parts.foldl Part.from []

/-- What stands in front of the pieces does not lead anywhere. -/
theorem destination_eq (p : Path) :
    p.destination = ((pieces p.text.toList).filterMap partOf).foldl Part.from [] := by
  unfold destination parts
  split
  · rfl
  · rename_i rest h
    rw [h]
    rfl
  · rfl

theorem destination_same {p q : Path} (h : p.same q = true) : p.destination = q.destination :=
  congrArg (List.foldl Part.from []) (of_decide_eq_true h)

end Path

namespace Files.Tree
variable {t : Tree} {p q : Path} {place place' : Place} {node node' : Node} {b b' : Bytes}

/-! ### Following pieces -/

theorem follow_append (t : Tree) (place : Place) (front back : List (List Char)) :
    t.follow place (front ++ back) = (t.follow place front).bind fun q => t.follow q back := by
  induction front generalizing place with
  | nil => rfl
  | cons piece rest ih =>
    rw [List.cons_append, follow, follow]
    split
    · rfl
    · rfl
    · split
      · exact ih place
      · split
        · exact ih _
        · split
          · rfl
          · exact ih _

/-- A last empty piece leads nowhere else. -/
theorem follow_concat_nil {front : List (List Char)} (h : t.follow place (front ++ [[]]) = .ok place') :
    t.follow place front = .ok place' := by
  rw [follow_append] at h
  cases hfront : t.follow place front with
  | error e =>
    rw [hfront] at h
    cases h
  | ok q =>
    rw [hfront] at h
    change t.follow q [[]] = _ at h
    unfold follow at h
    split at h
    · cases h
    · cases h
    · exact h

theorem follow_ok {pieces : List (List Char)} (h : t.follow place pieces = .ok place') :
    place' = (pieces.filterMap Path.partOf).foldl Path.Part.from place := by
  induction pieces generalizing place with
  | nil =>
    cases h
    rfl
  | cons piece rest ih =>
    unfold follow at h
    split at h
    · cases h
    · cases h
    · split at h
      · rename_i hhere
        rw [List.filterMap_cons_none (by simp [Path.partOf, hhere])]
        exact ih h
      · rename_i hhere
        split at h
        · rename_i hparent
          rw [List.filterMap_cons_some (b := .parent) (by simp [Path.partOf, hparent])]
          exact ih h
        · rename_i hparent
          split at h
          · cases h
          · rw [List.filterMap_cons_some (b := .name (String.ofList piece))
              (by simp only [Path.partOf, hhere, hparent, if_false])]
            exact ih h

theorem of_locate (h : t.locate p = .ok (place, node)) :
    p.text.isEmpty = false ∧ t.follow [] (Path.pieces p.text.toList) = .ok place ∧ t.at? place = some node := by
  unfold locate at h
  split at h
  · cases h
  split at h
  · cases h
  · rename_i hempty
    split at h
    · cases h
    split at h
    · cases h
    · rename_i hfollow
      split at h
      · rename_i hnode
        cases h
        exact ⟨Bool.eq_false_iff.mpr hempty, hfollow, hnode⟩
      · cases h

theorem locate_ok (h : t.locate p = .ok (place, node)) : place = p.destination ∧ t.at? place = some node := by
  obtain ⟨_, hfollow, hnode⟩ := of_locate h
  exact ⟨(follow_ok hfollow).trans p.destination_eq.symm, hnode⟩

/-- Two spellings of a path lead to the same place, if they lead anywhere. -/
theorem locate_same (hsame : p.same q = true) (hp : t.locate p = .ok (place, node))
    (hq : t.locate q = .ok (place', node')) : place = place' ∧ node = node' := by
  obtain ⟨rfl, hnode⟩ := locate_ok hp
  obtain ⟨rfl, hnode'⟩ := locate_ok hq
  rw [Path.destination_same hsame] at hnode ⊢
  exact ⟨rfl, Option.some.inj (hnode.symm.trans hnode')⟩

theorem locate_of_read (h : t.read p = .ok b) : ∃ place, t.locate p = .ok (place, .file b) := by
  unfold read at h
  split at h
  · rename_i hlocate
    cases h
    exact ⟨_, hlocate⟩
  · cases h
  · cases h

theorem read_same (hsame : p.same q = true) (hp : t.read p = .ok b) (hq : t.read q = .ok b') : b = b' := by
  obtain ⟨_, hp⟩ := locate_of_read hp
  obtain ⟨_, hq⟩ := locate_of_read hq
  exact Node.file.inj (locate_same hsame hp hq).2

theorem read_of_isFile (h : t.isFile p = true) : ∃ b, t.read p = .ok b := by
  unfold isFile at h
  split at h
  · rename_i hlocate
    exact ⟨_, by rw [read, hlocate]⟩
  · cases h

theorem locate_of_isDirectory (h : t.isDirectory p = true) : ∃ place, t.locate p = .ok (place, .directory) := by
  obtain ⟨place, hplace⟩ := Option.isSome_iff_exists.mp h
  unfold directory? at hplace
  split at hplace
  · rename_i hlocate
    exact ⟨_, hlocate⟩
  · cases hplace

theorem not_isDirectory_of_isFile (h : t.isFile p = true) : ¬t.isDirectory p = true := by
  intro hdirectory
  obtain ⟨place, hlocate⟩ := locate_of_isDirectory hdirectory
  rw [isFile, hlocate] at h
  cases h

end Files.Tree
end ClassCatalog
