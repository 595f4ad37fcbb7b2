import ClassCatalog.Name
import Mathlib.Data.List.TakeWhile

/-! The names of class constants and of class files.

A class constant names a class by its name and a class of arrays by a descriptor. `Trims` says by the form of
the text which name it stands for, and `trims_iff` that this is the name that the catalog takes. The name of the file
a class is in has a suffix, which is dropped as often as it stands there (`stripSuffix_append`). -/
namespace ClassCatalog.Name

theorem canonical_canonical (name : String) : canonical (canonical name) = canonical name := by
  rw [canonical, canonical, String.map_map]
  congr 1
  funext c
  by_cases h : c = '.' <;> simp [h]

/-- The name that a class constant with a given text stands for: in the name of an array the `L` behind the
brackets is left out, and a `;` at the end. -/
inductive Trims : List Char → List Char → Prop
  | closed (n : Nat) (element : List Char) :
    Trims (.replicate (n + 1) '[' ++ 'L' :: (element ++ [';'])) (.replicate (n + 1) '[' ++ element)
  | unclosed (n : Nat) (element : List Char) (h : element.getLast? ≠ some ';') :
    Trims (.replicate (n + 1) '[' ++ 'L' :: element) (.replicate (n + 1) '[' ++ element)
  | other (text : List Char) (h : ∀ n element, text ≠ .replicate (n + 1) '[' ++ 'L' :: element) : Trims text text

/-- A name that starts with brackets and an `L`. -/
theorem ofConstant_brackets {text : String} {n : Nat} {element : List Char}
    (h : text.toList = List.replicate (n + 1) '[' ++ 'L' :: element) :
    (ofConstant text).toList = List.replicate (n + 1) '[' ++ dropSemicolon element := by
  unfold ofConstant
  simp [h]

theorem ofConstant_other {text : String}
    (h : ∀ n element, text.toList ≠ List.replicate (n + 1) '[' ++ 'L' :: element) : ofConstant text = text := by
  unfold ofConstant
  dsimp only
  split
  · rename_i element hdrop
    split
    · rfl
    · rename_i hbrackets
      have hall : ∀ c ∈ text.toList.takeWhile (· = '['), c = '[' := fun c hc => by
        simpa using List.mem_takeWhile_imp hc
      have hsplit := List.takeWhile_append_dropWhile (p := (· = '[')) (l := text.toList)
      rw [hdrop, List.eq_replicate_of_mem hall] at hsplit
      obtain ⟨n, hn⟩ : ∃ n, (text.toList.takeWhile (· = '[')).length = n + 1 :=
        Nat.exists_eq_succ_of_ne_zero fun hzero => hbrackets (by simpa using hzero)
      rw [hn] at hsplit
      exact absurd hsplit.symm (h n element)
  · rfl

theorem trims_iff {text name : String} : Trims text.toList name.toList ↔ ofConstant text = name := by
  constructor
  · intro h
    refine String.toList_inj.mp ?_
    generalize ht : text.toList = cs at h
    generalize hn : name.toList = ds at h
    cases h with
    | closed n element =>
      rw [ofConstant_brackets ht, dropSemicolon]
      simp
    | unclosed n element h => rw [ofConstant_brackets ht, dropSemicolon, if_neg h]
    | other _ h => rw [ofConstant_other (by rwa [ht]), ht]
  · rintro rfl
    by_cases h : ∃ n element, text.toList = List.replicate (n + 1) '[' ++ 'L' :: element
    · obtain ⟨n, element, ht⟩ := h
      rw [ofConstant_brackets ht, ht, dropSemicolon]
      split
      · rename_i hlast
        obtain ⟨front, rfl⟩ := List.getLast?_eq_some_iff.mp hlast
        rw [List.dropLast_concat]
        exact .closed n front
      · rename_i hlast
        exact .unclosed n element hlast
    · have hother := fun n element ht => h ⟨n, element, ht⟩
      rw [ofConstant_other hother]
      exact .other _ hother

/-! ### The suffix -/

/-- What is dropped is the suffix, as often as it stands at the end. -/
theorem stripSuffix_append (cs : List Char) :
    ∃ n, cs = stripSuffix cs ++ (List.replicate n ".class".toList).flatten := by
  have hstrip (rs : List Char) :
      ∃ n, rs.reverse = (stripSuffix.strip rs).reverse ++ (List.replicate n ".class".toList).flatten := by
    induction rs using stripSuffix.strip.induct with
    | case1 rest ih =>
      obtain ⟨n, hn⟩ := ih
      refine ⟨n + 1, ?_⟩
      rw [stripSuffix.strip, List.replicate_succ', List.flatten_append, ← List.append_assoc, ← hn]
      simp
    | case2 rs hrs => exact ⟨0, by rw [stripSuffix.strip.eq_2 _ hrs]; simp⟩
  obtain ⟨n, hn⟩ := hstrip cs.reverse
  exact ⟨n, by rwa [List.reverse_reverse] at hn⟩

/-- Where the suffix stands, it is dropped. -/
theorem stripSuffix_concat (front : List Char) : stripSuffix (front ++ ".class".toList) = stripSuffix front := by
  simp [stripSuffix, stripSuffix.strip]

theorem stripSuffix_of_suffix {cs : List Char} (h : ".class".toList <:+ cs) :
    ∃ n, cs = stripSuffix cs ++ (List.replicate (n + 1) ".class".toList).flatten := by
  obtain ⟨front, rfl⟩ := h
  obtain ⟨n, hn⟩ := stripSuffix_append front
  refine ⟨n, ?_⟩
  rw [stripSuffix_concat, List.replicate_succ', List.flatten_append, ← List.append_assoc, ← hn]
  simp

end ClassCatalog.Name
