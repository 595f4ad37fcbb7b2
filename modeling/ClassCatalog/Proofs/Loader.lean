import Mathlib.Logic.Relation
import ClassCatalog.Loader

/-! The loaders above a loader.

What a walk meets is reached through parents (`Above`); `above_of_isAncestor` is the half of
the correspondence that visibility needs. No walk can tell whether a parent has been recorded as the root or as the
missing loader (`rooted`). -/
namespace ClassCatalog.Loader

theorem normalize_ne_none (l : LoaderId) : normalize l ≠ none := by
  unfold normalize
  split
  · decide
  · assumption

@[simp] theorem normalize_normalize (l : LoaderId) : normalize (normalize l) = normalize l :=
  if_neg (normalize_ne_none l)

theorem normalize_comp_normalize : normalize ∘ normalize = normalize := funext normalize_normalize

theorem normalize_of_ne {l : LoaderId} (h : l ≠ none) : normalize l = l := if_neg h

namespace Graph
variable {g g' : Graph} {l a p : LoaderId}

/-- `a` is reached from `l` through one parent or more. -/
def Above (g : Graph) (l a : LoaderId) : Prop := Relation.TransGen (fun m p => g.parent? m = some p) l a

theorem parent?_of_next? (h : g.next? l = some p) : g.parent? l = some p := by
  unfold next? at h
  split at h
  · cases h
  · exact (Option.filter_eq_some_iff.mp h).1

theorem of_mem_walk {steps : Nat} (h : a ∈ g.walk steps l) :
    Relation.ReflTransGen (fun m p => g.parent? m = some p) l a := by
  induction steps generalizing l with
  | zero =>
    rw [List.mem_singleton.mp h]
  | succ steps ih =>
    unfold walk at h
    rcases List.mem_cons.mp h with rfl | h
    · exact .refl
    · cases hp : g.next? l with
      | none =>
        rw [hp] at h
        cases h
      | some p =>
        rw [hp] at h
        exact .head (parent?_of_next? hp) (ih h)

theorem ancestry_eq (g : Graph) (l : LoaderId) : g.ancestry l = l :: (g.ancestry l).tail := by
  unfold ancestry
  cases g.size <;> rfl

/-- An ancestry has the loader itself and its ancestors, and nothing else. -/
theorem mem_ancestry : a ∈ g.ancestry l ↔ a = l ∨ g.isAncestor a l = true := by
  rw [ancestry_eq, List.mem_cons]
  unfold isAncestor
  rw [Bool.and_eq_true, decide_eq_true_iff, List.contains_iff_mem]
  by_cases h : a = l
  · exact iff_of_true (.inl h) (.inl h)
  · exact or_congr_right ⟨fun ht => ⟨h, ht⟩, And.right⟩

theorem isAncestor_congr (h : g'.ancestry = g.ancestry) : g'.isAncestor = g.isAncestor := by
  unfold isAncestor
  rw [h]

theorem above_of_isAncestor (h : g.isAncestor a l = true) : a ≠ l ∧ g.Above l a := by
  have hmem := of_mem_walk (mem_ancestry.mpr (.inr h))
  have hne : a ≠ l := by
    unfold isAncestor at h
    exact of_decide_eq_true (Bool.and_eq_true_iff.mp h).1
  refine ⟨hne, ?_⟩
  rcases Relation.reflTransGen_iff_eq_or_transGen.mp hmem with e | habove
  · exact absurd e hne
  · exact habove

theorem ne_none_of_parent? (h : g.parent? l = some p) : p ≠ Loader.none := by
  unfold parent? at h
  split at h
  · cases h
  · obtain ⟨q, _, rfl⟩ := Option.map_eq_some_iff.mp h
    exact normalize_ne_none q

/-- No walk meets the missing loader unless it starts there. -/
theorem ne_none_of_mem_ancestry (hl : l ≠ Loader.none) (h : a ∈ g.ancestry l) : a ≠ Loader.none := by
  induction of_mem_walk h with
  | refl => exact hl
  | tail _ hlast => exact ne_none_of_parent? hlast

/-! ### The root recorded as the missing loader -/

/-- The graph with the root for each parent that is the missing loader. -/
def rooted (g : Graph) : Graph := ⟨g.parents.map (Option.map normalize)⟩

theorem rooted_parent? (g : Graph) (l : LoaderId) : g.rooted.parent? l = g.parent? l := by
  unfold parent?
  split
  · rfl
  · show ((g.parents.map (Option.map normalize))[l.toNat]?.join).map normalize = _
    rw [Array.getElem?_map]
    rcases g.parents[l.toNat]? with _ | _ | p
    · rfl
    · rfl
    · exact congrArg some (normalize_normalize p)

theorem rooted_walk (g : Graph) (steps : Nat) (l : LoaderId) : g.rooted.walk steps l = g.walk steps l := by
  induction steps generalizing l with
  | zero => rfl
  | succ steps ih =>
    unfold walk next?
    rw [rooted_parent?]
    split
    · rfl
    · rw [ih]

theorem rooted_size (g : Graph) : g.rooted.size = g.size := Array.size_map ..

/-- Graphs that differ only in this have the same ancestries. -/
theorem ancestry_congr (h : g'.rooted = g.rooted) : g'.ancestry = g.ancestry := by
  have hrooted (g : Graph) : g.rooted.ancestry = g.ancestry := by
    funext l
    unfold ancestry
    rw [rooted_walk, rooted_size]
  rw [← hrooted g', h, hrooted g]

theorem report_normalize (p : LoaderId) : report (normalize p) = (report p).map normalize := by
  unfold report
  by_cases h : p = Loader.none
  · subst h
    rfl
  · rw [normalize_of_ne h]
    split
    · rfl
    · rw [Option.map_some, normalize_of_ne h]

theorem rooted_ofTable (table : List LoaderId) : (ofTable table).rooted = ofTable (table.map normalize) := by
  cases table with
  | nil => simp [ofTable, rooted, new, normalize, root, Loader.none]
  | cons first rest =>
    have hreport : Option.map normalize ∘ report = report ∘ normalize := funext fun p => (report_normalize p).symm
    show Graph.mk ((some root :: rest.map report).toArray.map (Option.map normalize)) =
      ⟨(some root :: (rest.map normalize).map report).toArray⟩
    rw [List.map_toArray, List.map_cons, List.map_map, List.map_map, hreport]
    rfl

theorem rooted_add (g : Graph) (child parent : LoaderId) :
    (g.add child parent).rooted = g.rooted.add (normalize child) (normalize parent) := by
  by_cases h : child ≤ 0
  · have hnormalized : normalize child ≤ 0 := by
      unfold normalize
      split
      · exact Int.le_refl root
      · exact h
    rw [add, add, if_pos h, if_pos hnormalized]
  · have hchild : child ≠ Loader.none := by
      rintro rfl
      exact h (by decide)
    rw [normalize_of_ne hchild, add, add, if_neg h, if_neg h, rooted_size]
    simp only [rooted, report_normalize, Array.map_setIfInBounds]
    split
    · rfl
    · rw [Array.map_append, Array.map_replicate]
      rfl

theorem rooted_add_congr (h : g'.rooted = g.rooted) (child parent : LoaderId) :
    (g'.add (normalize child) (normalize parent)).rooted = (g.add child parent).rooted := by
  rw [rooted_add, rooted_add, h, normalize_normalize, normalize_normalize]

end Graph
end ClassCatalog.Loader
