import ClassCatalog.Proofs.Cache.Probe

/-! What holds of the slots of a byte cache whatever is asked of it (`Sound`), and that the
changes of one entry keep it: another entry in the slot of its key, an entry taken out, a
new key. Each says what the contents are afterwards, up to their order. -/
namespace ClassCatalog.Cache

/-! ### Slots without a key -/

def others (key : String) (l : List Slot) : List Slot := l.filter fun s => s.key ≠ key

theorem others_of_not_mem {key : String} {l : List Slot} (h : ∀ s ∈ l, s.key ≠ key) :
    others key l = l :=
  List.filter_eq_self.mpr fun s hs => decide_eq_true (h s hs)

theorem others_perm {key : String} {l m : List Slot} (h : l.Perm m) :
    (others key l).Perm (others key m) :=
  h.filter _

/-- Taking away the only slot of a key. -/
theorem perm_others {l m : List Slot} {s : Slot} (h : l.Perm (s :: m))
    (hkeys : (l.map Slot.key).Nodup) : m.Perm (others s.key l) := by
  have hnodup := ((h.map Slot.key).nodup_iff).mp hkeys
  rw [List.map_cons, List.nodup_cons] at hnodup
  have hrest : others s.key m = m := others_of_not_mem fun t ht e =>
    hnodup.1 (e ▸ List.mem_map_of_mem ht)
  have hfirst : others s.key (s :: m) = others s.key m := by
    simp [others]
  rw [← hrest, ← hfirst]
  exact (others_perm h).symm

/-- The keys stay distinct when the slot of a key is put in front of the others. -/
theorem nodup_keys_touch {key : String} {l : List Slot} {s : Slot} (hkey : s.key = key)
    (hkeys : (l.map Slot.key).Nodup) : ((s :: others key l).map Slot.key).Nodup := by
  rw [List.map_cons, List.nodup_cons]
  refine ⟨?_, hkeys.sublist (List.filter_sublist.map _)⟩
  rw [List.mem_map]
  rintro ⟨t, ht, e⟩
  have := (List.mem_filter.mp ht).2
  simp [e, hkey] at this

/-! ### Sound caches -/

/-- As many entries as there may be. -/
def limitOf (capacity : Nat) : Nat := capacity * 3 / 4 + 1

/-- What holds of the slots whatever is asked. -/
structure ByteCache.Sound (c : ByteCache) : Prop where
  roomy : 4 ≤ c.capacity
  reachable : c.Reachable
  keys : (c.contents.map Slot.key).Nodup
  size : c.size = c.contents.length
  limit : c.contents.length ≤ limitOf c.capacity

namespace ByteCache
variable {c d : ByteCache} {i : Nat} {s t : Slot}

/-! ### Changes of one entry -/

theorem contents_replace (hi : c.slot? i = some s) (hd : d.slots = c.slots.setIfInBounds i (some t)) :
    ∃ l, c.contents.Perm (s :: l) ∧ d.contents.Perm (t :: l) := by
  let e : ByteCache := { c with slots := c.slots.setIfInBounds i none }
  have he : e.slots = c.slots.setIfInBounds i none := rfl
  have hlt := slot?_lt hi
  refine ⟨e.contents, contents_empty hi he, ?_⟩
  apply contents_fill (i := i) (by rw [capacity_assign he]; exact hlt)
    (by rw [slot?_assign he hlt, if_pos rfl])
  rw [hd, he]
  apply Array.ext_getElem?
  intro j
  simp only [Array.getElem?_setIfInBounds, Array.size_setIfInBounds]
  split <;> rfl

/-- A new entry in the slot of one with the same key. -/
theorem Sound.replace (h : c.Sound) (hi : c.slot? i = some s) (hkey : t.key = s.key)
    (hd : d.slots = c.slots.setIfInBounds i (some t)) (hh : d.hash = c.hash) (hsize : d.size = c.size) :
    d.Sound ∧ d.contents.Perm (t :: others t.key c.contents) := by
  obtain ⟨l, hc, hperm⟩ := contents_replace hi hd
  have hcap := capacity_assign hd
  have hl := perm_others hc h.keys
  rw [← hkey] at hl
  have hlen : d.contents.length = c.contents.length := by
    rw [hperm.length_eq, hc.length_eq, List.length_cons, List.length_cons]
  have hperm := hperm.trans (hl.cons t)
  refine ⟨⟨by rw [hcap]; exact h.roomy, h.reachable.replace hi hkey hd hh, ?_, ?_, ?_⟩, hperm⟩
  · exact ((hperm.map Slot.key).nodup_iff).mpr (nodup_keys_touch rfl h.keys)
  · rw [hsize, h.size, hlen]
  · rw [hlen, hcap]
    exact h.limit

/-- Taking out the entry of a slot. The walk over the gap comes to an end. -/
theorem Sound.vacate (h : c.Sound) (hi : c.slot? i = some s) :
    (c.vacate i).Sound ∧ (c.vacate i).hash = c.hash ∧ (c.vacate i).capacity = c.capacity ∧
      (c.vacate i).clock = c.clock ∧ (c.vacate i).contents.Perm (others s.key c.contents) := by
  let d : ByteCache := { c with slots := c.slots.setIfInBounds i none, size := c.size - 1 }
  have hd : d.slots = c.slots.setIfInBounds i none := rfl
  have hcap : d.capacity = c.capacity := capacity_assign hd
  obtain ⟨e, _, hgap, hsame, hreach⟩ := closeGap_spec h.reachable (slot?_lt hi) hd rfl
  have hc := contents_empty hi hd
  have hperm := hsame.contents.trans (perm_others hc h.keys)
  have hlen : c.contents.length = e.contents.length + 1 := by
    rw [hc.length_eq, hsame.contents.length_eq, List.length_cons]
  have hvacate : c.vacate i = e := hgap
  rw [hvacate]
  refine ⟨⟨?_, hreach, ?_, ?_, ?_⟩, hsame.hash, hsame.capacity.trans hcap, hsame.clock, hperm⟩
  · rw [hsame.capacity, hcap]
    exact h.roomy
  · exact ((hperm.map Slot.key).nodup_iff).mpr (h.keys.sublist (List.filter_sublist.map _))
  · rw [hsame.size]
    show c.size - 1 = e.contents.length
    rw [h.size, hlen]
    rfl
  · have := h.limit
    rw [hsame.capacity, hcap]
    omega

theorem limitOf_le (h : 4 ≤ c.capacity) : limitOf c.capacity ≤ c.capacity := by
  unfold limitOf
  omega

/-- Putting a new key where there is room. -/
theorem Sound.insertNew (h : c.Sound) {key : String} (bytes : Bytes)
    (hnew : ∀ s ∈ c.contents, s.key ≠ key) (hroom : c.contents.length < limitOf c.capacity) :
    (c.vacant? c.capacity (c.home key)).isSome ∧ (c.insertNew key bytes).Sound ∧
      (c.insertNew key bytes).capacity = c.capacity ∧ (c.insertNew key bytes).clock = c.clock ∧
      (c.insertNew key bytes).contents.Perm (⟨key, bytes, c.clock⟩ :: c.contents) := by
  have hle := limitOf_le h.roomy
  have hroomy := h.roomy
  obtain ⟨j, hj, hnone⟩ := exists_empty (c := c) (by omega)
  have hhome := home_lt (c := c) (by omega) key
  obtain ⟨k, hk, hkcap, hknone, hway⟩ := exists_vacant c.capacity hhome hj hnone (distance_lt hhome hj)
  let d : ByteCache := { c with
    slots := c.slots.setIfInBounds k (some ⟨key, bytes, c.clock⟩), size := c.size + 1 }
  have hd : d.slots = c.slots.setIfInBounds k (some ⟨key, bytes, c.clock⟩) := rfl
  have hcap : d.capacity = c.capacity := capacity_assign hd
  have hinsert : c.insertNew key bytes = d := by
    simp only [ByteCache.insertNew, hk]
    rfl
  have hperm := contents_fill hkcap hknone hd
  rw [hinsert, hk]
  refine ⟨rfl, ⟨?_, h.reachable.fill hkcap hway hd rfl, ?_, ?_, ?_⟩, hcap, rfl, hperm⟩
  · rw [hcap]
    exact h.roomy
  · rw [(hperm.map Slot.key).nodup_iff, List.map_cons, List.nodup_cons]
    refine ⟨?_, h.keys⟩
    rw [List.mem_map]
    rintro ⟨t, ht, e⟩
    exact hnew t ht e
  · show c.size + 1 = d.contents.length
    rw [hperm.length_eq, h.size, List.length_cons]
  · rw [hperm.length_eq, hcap, List.length_cons]
    exact hroom

end ByteCache

end ClassCatalog.Cache
