import ClassCatalog.Catalog.Lookup

/-! How a group changes.

Of the entries of a name, placeholders become classes in place or go, and everything else
stays where it is (`Settles`); new entries come behind (`Grown`). So what stands in front of a
class later stems from what stood in front of it before: `Grown.split`. -/
namespace ClassCatalog.Catalog

/-- The second list is the first after some placeholders have become classes and some have gone. -/
inductive Settles : List Entry → List Entry → Prop where
  | nil : Settles [] []
  | keep {l m : List Entry} (e : Entry) (h : Settles l m) : Settles (e :: l) (e :: m)
  | become {l m : List Entry} (p : Nat) (id : ClassId) (h : Settles l m) :
      Settles (.placeholder p :: l) (.loaded id :: m)
  | drop {l m : List Entry} (p : Nat) (h : Settles l m) : Settles (.placeholder p :: l) m

/-- The second list is the first, settled, with new entries behind it. -/
def Grown (l m : List Entry) : Prop := ∃ settled new, m = settled ++ new ∧ Settles l settled

variable {l m n : List Entry} {e : Entry}

namespace Settles

theorem refl : (l : List Entry) → Settles l l
  | [] => .nil
  | e :: rest => .keep e (refl rest)

theorem trans (h : Settles l m) (h' : Settles m n) : Settles l n := by
  induction h generalizing n with
  | nil => exact h'
  | keep e _ ih =>
    cases h' with
    | keep _ h' => exact .keep e (ih h')
    | become p id h' => exact .become p id (ih h')
    | drop p h' => exact .drop p (ih h')
  | become p id _ ih =>
    cases h' with
    | keep _ h' => exact .become p id (ih h')
  | drop p _ ih => exact .drop p (ih h')

theorem of_append {front back : List Entry} (h : Settles (front ++ back) m) :
    ∃ front' back', m = front' ++ back' ∧ Settles front front' ∧ Settles back back' := by
  induction front generalizing m with
  | nil => exact ⟨[], m, rfl, .nil, h⟩
  | cons e rest ih =>
    cases h with
    | keep _ h =>
      obtain ⟨front', back', rfl, hfront, hback⟩ := ih h
      exact ⟨e :: front', back', rfl, .keep e hfront, hback⟩
    | become p id h =>
      obtain ⟨front', back', rfl, hfront, hback⟩ := ih h
      exact ⟨.loaded id :: front', back', rfl, .become p id hfront, hback⟩
    | drop p h =>
      obtain ⟨front', back', rfl, hfront, hback⟩ := ih h
      exact ⟨front', back', rfl, .drop p hfront, hback⟩

/-- Without placeholders nothing moves. -/
theorem eq_of_no_placeholder (h : Settles l m) (hl : ∀ p, Entry.placeholder p ∉ l) : m = l := by
  induction h with
  | nil => rfl
  | keep e _ ih => rw [ih fun p hp => hl p (List.mem_cons_of_mem _ hp)]
  | become p _ _ _ => exact absurd (List.mem_cons_self ..) (hl p)
  | drop p _ _ => exact absurd (List.mem_cons_self ..) (hl p)

theorem filter_ne (p : Nat) : (l : List Entry) → Settles l (l.filter (· ≠ .placeholder p))
  | [] => .nil
  | e :: rest => by
    by_cases h : e = .placeholder p
    · rw [List.filter_cons_of_neg (by simpa using h), h]
      exact .drop p (filter_ne p rest)
    · rw [List.filter_cons_of_pos (by simpa using h)]
      exact .keep e (filter_ne p rest)

theorem replaceEntry (p : Nat) (id : ClassId) :
    (l : List Entry) → Settles l (Catalog.replaceEntry (.placeholder p) (.loaded id) l)
  | [] => .nil
  | e :: rest => by
    by_cases h : e = .placeholder p
    · subst h
      have := Settles.become p id (replaceEntry p id rest)
      simpa [Catalog.replaceEntry] using this
    · have := Settles.keep e (replaceEntry p id rest)
      simpa [Catalog.replaceEntry, h] using this

end Settles

namespace Grown

theorem refl (l : List Entry) : Grown l l := ⟨l, [], (List.append_nil l).symm, .refl l⟩

theorem trans (h : Grown l m) (h' : Grown m n) : Grown l n := by
  obtain ⟨settled, new, rfl, hl⟩ := h
  obtain ⟨settled', new', rfl, hm⟩ := h'
  obtain ⟨first, second, rfl, hfirst, _⟩ := hm.of_append
  exact ⟨first, second ++ new', List.append_assoc .., hl.trans hfirst⟩

/-- A class stays, and what stands in front of it stems from what stood there. -/
theorem split {front back : List Entry} {id : ClassId} (h : Grown (front ++ .loaded id :: back) m) :
    ∃ front' back', m = front' ++ .loaded id :: back' ∧ Settles front front' := by
  obtain ⟨settled, new, rfl, hsettled⟩ := h
  obtain ⟨front', back', rfl, hfront, hback⟩ := hsettled.of_append
  cases hback with
  | keep _ hback => exact ⟨front', _, by rw [List.append_assoc, List.cons_append], hfront⟩

theorem mem {id : ClassId} (h : Grown l m) (hl : Entry.loaded id ∈ l) : Entry.loaded id ∈ m := by
  obtain ⟨front, back, rfl⟩ := List.append_of_mem hl
  obtain ⟨front', back', rfl, _⟩ := h.split
  exact List.mem_append_right _ (List.mem_cons_self ..)

end Grown
end ClassCatalog.Catalog
