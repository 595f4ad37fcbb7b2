import ClassCatalog.Proofs.Cache.Gap

/-! What the searches through the slots find: `find?` the slot of a key, `vacant?` an empty
slot with an unbroken way to it, `oldest?` the entry with the least stamp. -/
namespace ClassCatalog.Cache.ByteCache
variable {c d : ByteCache} {i j k : Nat} {s : Slot} {key : String}

/-! ### Keys -/

theorem slot?_of_probe {n : Nat} (h : c.probe key n i = some j) :
    ∃ s, c.slot? j = some s ∧ s.key = key := by
  induction n generalizing i with
  | zero => cases h
  | succ n ih =>
    unfold probe at h
    cases hi : c.slot? i with
    | none => simp [hi] at h
    | some s =>
      simp only [hi] at h
      split at h
      · rename_i hkey
        cases h
        exact ⟨s, hi, hkey⟩
      · exact ih h

theorem probe_isSome {n : Nat} (hi : i < c.capacity) (hj : c.slot? j = some s) (hkey : s.key = key)
    (hway : c.Unbroken i j) (hn : distance c.capacity i j < n) : (c.probe key n i).isSome := by
  induction n generalizing i with
  | zero => omega
  | succ n ih =>
    have hjcap := slot?_lt hj
    unfold probe
    by_cases hij : i = j
    · subst hij
      simp [hj, hkey]
    · have hpos := distance_after hi hjcap hij
      cases hslot : c.slot? i with
      | none => exact absurd hslot (hway i hi (by rw [distance_self]; omega))
      | some t =>
        simp only []
        split
        · rfl
        · exact ih (after_lt hi) (hway.after hi hjcap hij) (by omega)

/-- A look-up comes upon the key of every entry. -/
theorem Reachable.exists_find? (hr : c.Reachable) (hi : c.slot? i = some s) :
    ∃ j, c.find? s.key = some j := by
  have hcap := slot?_lt hi
  have hhome := home_lt (c := c) (by omega) s.key
  exact Option.isSome_iff_exists.mp (probe_isSome hhome hi rfl (hr i s hi) (distance_lt hhome hcap))

theorem contains_iff (hr : c.Reachable) : c.contains key = true ↔ ∃ s ∈ c.contents, s.key = key := by
  rw [contains, Option.isSome_iff_exists]
  constructor
  · rintro ⟨i, hi⟩
    obtain ⟨s, hs, hkey⟩ := slot?_of_probe hi
    exact ⟨s, mem_contents.mpr ⟨i, hs⟩, hkey⟩
  · rintro ⟨s, hs, rfl⟩
    obtain ⟨i, hi⟩ := mem_contents.mp hs
    exact hr.exists_find? hi

/-- A look-up answers the slot of the key. -/
theorem find?_eq_some_iff (hr : c.Reachable) (hkeys : (c.contents.map Slot.key).Nodup) :
    c.find? key = some i ↔ ∃ s, c.slot? i = some s ∧ s.key = key := by
  constructor
  · exact slot?_of_probe
  · rintro ⟨s, hi, rfl⟩
    obtain ⟨j, hj⟩ := hr.exists_find? hi
    obtain ⟨t, ht, hkey⟩ := slot?_of_probe hj
    rw [← slot_unique hkeys ht hi hkey]
    exact hj

theorem find?_eq_none_iff (hr : c.Reachable) (hkeys : (c.contents.map Slot.key).Nodup) :
    c.find? key = none ↔ ∀ s ∈ c.contents, s.key ≠ key := by
  rw [Option.eq_none_iff_forall_ne_some]
  constructor
  · intro h s hs e
    obtain ⟨i, hi⟩ := mem_contents.mp hs
    exact h i ((find?_eq_some_iff hr hkeys).mpr ⟨s, hi, e⟩)
  · intro h i e
    obtain ⟨s, hi, hkey⟩ := (find?_eq_some_iff hr hkeys).mp e
    exact h s (mem_contents.mpr ⟨i, hi⟩) hkey

/-! ### Room -/

theorem exists_vacant (n : Nat) (hi : i < c.capacity) (hj : j < c.capacity)
    (hnone : c.slot? j = none) (hn : distance c.capacity i j < n) :
    ∃ k, c.vacant? n i = some k ∧ k < c.capacity ∧ c.slot? k = none ∧ c.Unbroken i k := by
  induction n generalizing i with
  | zero => omega
  | succ n ih =>
    unfold vacant?
    cases hslot : c.slot? i with
    | none =>
      refine ⟨i, by simp, hi, hslot, fun l _ hlt => ?_⟩
      rw [distance_self] at hlt
      omega
    | some s =>
      have hij : i ≠ j := by
        intro e
        rw [e, hnone] at hslot
        cases hslot
      have := distance_after hi hj hij
      obtain ⟨k, hk, hkcap, hknone, hway⟩ := ih (after_lt hi) (by omega)
      exact ⟨k, by simpa using hk, hkcap, hknone,
        hway.before hi hkcap (by rw [hslot]; exact Option.some_ne_none s)⟩

/-- A cache with fewer entries than slots has an empty slot. -/
theorem exists_empty (h : c.contents.length < c.capacity) : ∃ j < c.capacity, c.slot? j = none := by
  by_contra hfull
  have hall : ∀ x ∈ c.slots.toList, (id x).isSome := by
    intro x hx
    obtain ⟨j, hj⟩ := List.getElem?_of_mem hx
    have hlt : j < c.capacity := by
      have := (List.getElem?_eq_some_iff.mp hj).1
      simpa [capacity] using this
    cases x with
    | some s => rfl
    | none =>
      refine absurd ⟨j, hlt, ?_⟩ hfull
      rw [slot?, ← Array.getElem?_toList, hj]
      rfl
  have hlen : c.contents.length = c.capacity := by
    rw [contents, List.length_filterMap_eq_countP, List.countP_eq_length.mpr hall]
    rfl
  omega

/-- Filling a slot to which the way is unbroken keeps every entry in reach. -/
theorem Reachable.fill (hr : c.Reachable) (hk : k < c.capacity)
    (hway : c.Unbroken (c.home s.key) k) (hd : d.slots = c.slots.setIfInBounds k (some s))
    (hh : d.hash = c.hash) : d.Reachable := by
  have hcap := capacity_assign hd
  have hmono : ∀ j < c.capacity, c.slot? j ≠ none → d.slot? j ≠ none := by
    intro j _ hj
    rw [slot?_assign hd hk]
    split
    · exact Option.some_ne_none s
    · exact hj
  intro i t hi
  rw [home_congr hh hcap]
  rw [slot?_assign hd hk] at hi
  split at hi
  · rename_i hki
    cases hi
    exact hki ▸ hway.mono hcap hmono
  · exact (hr i t hi).mono hcap hmono

/-- Putting another entry of the same key into its slot keeps every entry in reach. -/
theorem Reachable.replace {t : Slot} (hr : c.Reachable) (hi : c.slot? i = some s)
    (hkey : t.key = s.key) (hd : d.slots = c.slots.setIfInBounds i (some t)) (hh : d.hash = c.hash) :
    d.Reachable := by
  have hcap := capacity_assign hd
  have hmono : ∀ j < c.capacity, c.slot? j ≠ none → d.slot? j ≠ none := by
    intro j _ hj
    rw [slot?_assign hd (slot?_lt hi)]
    split
    · exact Option.some_ne_none t
    · exact hj
  intro j u hj
  rw [home_congr hh hcap]
  rw [slot?_assign hd (slot?_lt hi)] at hj
  split at hj
  · rename_i hij
    cases hj
    rw [hkey]
    exact hij ▸ (hr i s hi).mono hcap hmono
  · exact (hr j u hj).mono hcap hmono

/-! ### Age -/

/-- What `older` has chosen among the slots seen so far. -/
def Chosen (best : Option (Nat × Nat)) (seen : List (Option Slot × Nat)) : Prop :=
  match best with
  | none => ∀ e ∈ seen, e.1 = none
  | some (i, stamp) => (∃ s, (some s, i) ∈ seen ∧ s.stamp = stamp) ∧
      ∀ s j, (some s, j) ∈ seen → stamp ≤ s.stamp

theorem Chosen.step {best : Option (Nat × Nat)} {seen : List (Option Slot × Nat)}
    (h : Chosen best seen) (e : Option Slot × Nat) : Chosen (older best e) (seen ++ [e]) := by
  obtain ⟨x, j⟩ := e
  cases x with
  | none =>
    cases best with
    | none =>
      intro e he
      rcases List.mem_append.mp he with he | he
      · exact h e he
      · rw [List.mem_singleton.mp he]
    | some b =>
      obtain ⟨i, stamp⟩ := b
      obtain ⟨⟨s, hs, hstamp⟩, hle⟩ := h
      refine ⟨⟨s, List.mem_append_left _ hs, hstamp⟩, fun t l ht => ?_⟩
      rcases List.mem_append.mp ht with ht | ht
      · exact hle t l ht
      · simp at ht
  | some s =>
    have hlast : (some s, j) ∈ seen ++ [(some s, j)] := List.mem_append_right _ (List.mem_singleton_self _)
    cases best with
    | none =>
      refine ⟨⟨s, hlast, rfl⟩, fun t l ht => ?_⟩
      rcases List.mem_append.mp ht with ht | ht
      · exact absurd (h _ ht) (Option.some_ne_none t)
      · simp only [List.mem_singleton, Prod.mk.injEq, Option.some.injEq] at ht
        rw [ht.1]
    | some b =>
      obtain ⟨i, stamp⟩ := b
      obtain ⟨⟨u, hu, hstamp⟩, hle⟩ := h
      have hall : ∀ m, (m ≤ stamp) → m ≤ s.stamp → ∀ t l, (some t, l) ∈ seen ++ [(some s, j)] →
          m ≤ t.stamp := by
        intro m hm hms t l ht
        rcases List.mem_append.mp ht with ht | ht
        · exact Nat.le_trans hm (hle t l ht)
        · simp only [List.mem_singleton, Prod.mk.injEq, Option.some.injEq] at ht
          rw [ht.1]
          exact hms
      by_cases hlt : s.stamp < stamp
      · simp only [older, hlt, if_true]
        exact ⟨⟨s, hlast, rfl⟩, hall s.stamp (Nat.le_of_lt hlt) (Nat.le_refl _)⟩
      · simp only [older, hlt, if_false]
        exact ⟨⟨u, List.mem_append_left _ hu, hstamp⟩, hall stamp (Nat.le_refl _) (Nat.le_of_not_lt hlt)⟩

theorem chosen_foldl (l : List (Option Slot × Nat)) {best : Option (Nat × Nat)}
    {seen : List (Option Slot × Nat)} (h : Chosen best seen) :
    Chosen (l.foldl older best) (seen ++ l) := by
  induction l generalizing best seen with
  | nil => simpa using h
  | cons e rest ih => simpa using ih (h.step e)

/-- The entry found has the least stamp; there is one unless the cache is empty. -/
theorem oldest?_spec (h : c.contents ≠ []) :
    ∃ i s, c.oldest? = some i ∧ c.slot? i = some s ∧ ∀ t ∈ c.contents, s.stamp ≤ t.stamp := by
  have hseen : ∀ x j, (x, j) ∈ c.slots.toList.zipIdx ↔ c.slots[j]? = some x := by
    intro x j
    rw [List.mem_zipIdx_iff_getElem?, Array.getElem?_toList]
  have hslot : ∀ s j, (some s, j) ∈ c.slots.toList.zipIdx ↔ c.slot? j = some s := by
    intro s j
    rw [hseen, slot?]
    cases c.slots[j]? <;> simp
  have hstart : Chosen none [] := by simp [Chosen]
  have hchosen := chosen_foldl c.slots.toList.zipIdx hstart
  rw [List.nil_append] at hchosen
  unfold oldest?
  cases hbest : c.slots.toList.zipIdx.foldl older none with
  | none =>
    obtain ⟨s, hs⟩ := List.exists_mem_of_ne_nil _ h
    obtain ⟨j, hj⟩ := mem_contents.mp hs
    rw [hbest] at hchosen
    exact absurd (hchosen _ ((hslot s j).mpr hj)) (Option.some_ne_none s)
  | some b =>
    obtain ⟨i, stamp⟩ := b
    rw [hbest] at hchosen
    obtain ⟨⟨s, hs, rfl⟩, hle⟩ := hchosen
    refine ⟨i, s, rfl, (hslot s i).mp hs, fun t ht => ?_⟩
    obtain ⟨j, hj⟩ := mem_contents.mp ht
    exact hle t j ((hslot t j).mpr hj)

end ClassCatalog.Cache.ByteCache
