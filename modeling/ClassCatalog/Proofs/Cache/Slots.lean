import Mathlib.Data.List.Perm.Basic
import ClassCatalog.Cache.ByteCache

/-! The slots of a byte cache: what they hold, and the ways between them on the ring.

`contents` forgets in which slot an entry stands; an assignment to a slot changes it by
at most one entry. `distance` counts the steps from one slot to another, and a way is
`Unbroken` when no slot on it is empty. A cache is `Reachable` when the way from the home
of every entry to its slot is unbroken: that is what a look-up needs. -/
namespace ClassCatalog.Cache

/-! ### The ring -/

/-- The number of steps from slot `i` to slot `j` on a ring of `n`. -/
def distance (n i j : Nat) : Nat := if i ≤ j then j - i else j + n - i

@[simp] theorem distance_self (n i : Nat) : distance n i i = 0 := by
  simp [distance]

theorem distance_lt {n i j : Nat} (hi : i < n) (hj : j < n) : distance n i j < n := by
  unfold distance
  split <;> omega

theorem eq_of_distance_eq {n i j k : Nat} (hi : i < n) (hj : j < n) (hk : k < n)
    (h : distance n i j = distance n i k) : j = k := by
  unfold distance at h
  split at h <;> split at h <;> omega

theorem distance_triangle {n i j k : Nat} (hi : i < n) (hj : j < n) :
    distance n i k ≤ distance n i j + distance n j k := by
  unfold distance
  split <;> split <;> split <;> omega

/-- What lies on the way from `i` to `k` divides it. -/
theorem distance_add {n i j k : Nat} (hi : i < n) (hj : j < n) (hk : k < n)
    (h : distance n i j ≤ distance n i k) : distance n i j + distance n j k = distance n i k := by
  by_cases hij : i ≤ j <;> by_cases hjk : j ≤ k <;> by_cases hik : i ≤ k <;>
    simp only [distance, hij, hjk, hik, if_true, if_false] at h ⊢ <;> omega

namespace ByteCache
variable {c d : ByteCache} {i j k : Nat} {s t : Slot}

theorem after_eq (hi : i < c.capacity) :
    c.after i = if i + 1 = c.capacity then 0 else i + 1 := by
  unfold after
  split
  · rename_i h
    rw [h, Nat.mod_self]
  · exact Nat.mod_eq_of_lt (by omega)

theorem after_lt (hi : i < c.capacity) : c.after i < c.capacity :=
  Nat.mod_lt _ (by omega)

theorem home_lt (h : 0 < c.capacity) (key : String) : c.home key < c.capacity :=
  Nat.mod_lt _ h

/-- One step on brings every other slot one step closer. -/
theorem distance_after (hi : i < c.capacity) (hj : j < c.capacity) (hne : i ≠ j) :
    distance c.capacity (c.after i) j + 1 = distance c.capacity i j := by
  rw [after_eq hi]
  unfold distance
  split <;> split <;> split <;> omega

/-- A step leads one further from `k`, unless it leads to `k`. -/
theorem distance_to_after (hi : i < c.capacity) (hk : k < c.capacity) (hne : c.after i ≠ k) :
    distance c.capacity k (c.after i) = distance c.capacity k i + 1 := by
  rw [after_eq hi] at hne ⊢
  unfold distance
  by_cases hlast : i + 1 = c.capacity
  · rw [if_pos hlast] at hne ⊢
    split <;> split <;> omega
  · rw [if_neg hlast] at hne ⊢
    split <;> split <;> omega

/-! ### One slot -/

theorem slot?_lt (h : c.slot? i = some s) : i < c.capacity := by
  by_contra hi
  have hnone : c.slots[i]? = none := Array.getElem?_eq_none (Nat.le_of_not_lt hi)
  simp [slot?, hnone] at h

/-- The slots after an assignment to one of them. -/
theorem slot?_assign {x : Option Slot} (h : d.slots = c.slots.setIfInBounds i x) (hi : i < c.capacity)
    (j : Nat) : d.slot? j = if i = j then x else c.slot? j := by
  unfold slot?
  rw [h, Array.getElem?_setIfInBounds]
  split
  · rw [if_pos (show i < c.slots.size from hi)]
    rfl
  · rfl

theorem capacity_assign {x : Option Slot} (h : d.slots = c.slots.setIfInBounds i x) :
    d.capacity = c.capacity := by
  simp [capacity, h]

theorem home_congr (hh : d.hash = c.hash) (hc : d.capacity = c.capacity) (key : String) :
    d.home key = c.home key := by
  simp [home, hh, hc]

/-! ### Contents -/

/-- The entries of a cache in the order of their slots. -/
def contents (c : ByteCache) : List Slot := c.slots.toList.filterMap id

theorem mem_contents : s ∈ c.contents ↔ ∃ i, c.slot? i = some s := by
  simp only [contents, List.mem_filterMap, id, exists_eq_right, slot?]
  constructor
  · intro h
    obtain ⟨i, hi⟩ := List.getElem?_of_mem h
    refine ⟨i, ?_⟩
    rw [← Array.getElem?_toList, hi]
    rfl
  · rintro ⟨i, hi⟩
    cases h : c.slots[i]? with
    | none => simp [h] at hi
    | some x =>
      rw [h] at hi
      cases hi
      exact List.mem_of_getElem? (by rw [Array.getElem?_toList, h])

theorem filterMap_set_perm {α : Type} {l : List (Option α)} {i : Nat} (h : l[i]? = some none) (a : α) :
    ((l.set i (some a)).filterMap id).Perm (a :: l.filterMap id) := by
  induction l generalizing i with
  | nil => simp at h
  | cons x rest ih =>
    cases i with
    | zero =>
      cases h
      exact List.Perm.refl _
    | succ i =>
      have := ih (i := i) (by simpa using h)
      cases x with
      | none => exact this
      | some b => exact (this.cons b).trans (List.Perm.swap a b _)

theorem slots_of_slot? {x : Option Slot} (hi : i < c.capacity) (h : c.slot? i = x) :
    c.slots.toList[i]? = some x := by
  have hs : c.slots[i]? = some c.slots[i] := Array.getElem?_eq_getElem hi
  rw [Array.getElem?_toList, hs]
  simp only [slot?, hs, Option.join_some] at h
  rw [h]

/-- Filling an empty slot adds its entry. -/
theorem contents_fill (hi : i < c.capacity) (hnone : c.slot? i = none)
    (h : d.slots = c.slots.setIfInBounds i (some s)) : d.contents.Perm (s :: c.contents) := by
  unfold contents
  rw [h, Array.toList_setIfInBounds]
  exact filterMap_set_perm (slots_of_slot? hi hnone) s

/-- Emptying a slot takes its entry away. -/
theorem contents_empty (hsome : c.slot? i = some s) (h : d.slots = c.slots.setIfInBounds i none) :
    c.contents.Perm (s :: d.contents) := by
  have hi := slot?_lt hsome
  apply contents_fill (c := d) (i := i) (by rw [capacity_assign h]; exact hi)
    (by rw [slot?_assign h hi, if_pos rfl])
  rw [h]
  apply Array.ext_getElem?
  intro j
  simp only [Array.getElem?_setIfInBounds, Array.size_setIfInBounds]
  split
  · rename_i hij
    subst hij
    have := slots_of_slot? hi hsome
    rw [Array.getElem?_toList] at this
    rw [if_pos (show i < c.slots.size from hi), this]
  · rfl

/-- Two slots with entries of one key are the same slot if no key occurs twice. -/
theorem slot_unique (hkeys : (c.contents.map Slot.key).Nodup) (hi : c.slot? i = some s)
    (hj : c.slot? j = some t) (hkey : s.key = t.key) : i = j := by
  by_contra hne
  let d : ByteCache := { c with slots := c.slots.setIfInBounds i none }
  have hd : d.slots = c.slots.setIfInBounds i none := rfl
  have hmem : t ∈ d.contents := by
    apply mem_contents.mpr
    exact ⟨j, by rw [slot?_assign hd (slot?_lt hi), if_neg hne, hj]⟩
  have hnodup := (((contents_empty hi hd).map Slot.key).nodup_iff).mp hkeys
  rw [List.map_cons, List.nodup_cons, hkey] at hnodup
  exact hnodup.1 (List.mem_map_of_mem hmem)

/-! ### Ways -/

/-- No slot on the way from `i` to `k`, `k` itself left out, is empty. -/
def Unbroken (c : ByteCache) (i k : Nat) : Prop :=
  ∀ j < c.capacity, distance c.capacity i j < distance c.capacity i k → c.slot? j ≠ none

/-- Every entry is found from its home without passing an empty slot. -/
def Reachable (c : ByteCache) : Prop :=
  ∀ i s, c.slot? i = some s → c.Unbroken (c.home s.key) i

/-- A way stays unbroken when no slot is emptied. -/
theorem Unbroken.mono (hc : d.capacity = c.capacity)
    (hslots : ∀ j < c.capacity, c.slot? j ≠ none → d.slot? j ≠ none) (h : c.Unbroken i k) :
    d.Unbroken i k := by
  intro j hj hlt
  rw [hc] at hj hlt
  exact hslots j hj (h j hj hlt)

theorem Unbroken.after (hi : i < c.capacity) (hk : k < c.capacity) (hne : i ≠ k)
    (h : c.Unbroken i k) : c.Unbroken (c.after i) k := by
  intro j hj hlt
  apply h j hj
  by_cases hij : i = j
  · have := distance_after hi hk hne
    subst hij
    rw [distance_self]
    omega
  · have := distance_after hi hk hne
    have := distance_after hi hj hij
    omega

theorem Unbroken.before (hi : i < c.capacity) (hk : k < c.capacity) (hsome : c.slot? i ≠ none)
    (h : c.Unbroken (c.after i) k) : c.Unbroken i k := by
  intro j hj hlt
  by_cases hij : i = j
  · subst hij
    exact hsome
  · have hik : i ≠ k := by
      intro e
      rw [e, distance_self] at hlt
      omega
    have := distance_after hi hk hik
    have := distance_after hi hj hij
    exact h j hj (by omega)

end ByteCache
end ClassCatalog.Cache
