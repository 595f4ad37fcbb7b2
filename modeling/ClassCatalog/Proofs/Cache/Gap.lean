import Mathlib.Algebra.BigOperators.Group.Finset.Basic
import Mathlib.Algebra.Order.BigOperators.Group.Finset
import ClassCatalog.Proofs.Cache.Slots

/-! Closing the gap that a removal leaves.

While the gap is closed, the hole is the only empty slot that a way to an entry may cross,
and it is crossed only by ways to entries not passed yet (`ReachableBut`). An entry that is
passed either has its home behind the hole or is moved into it, and then its own slot is
the hole. A move brings an entry closer to its home, so the sum of all distances from home
(`displacement`) bounds the number of moves, and between two moves the ring is walked at
most once. That is how `shiftBack_spec` shows that the walk ends. -/
namespace ClassCatalog.Cache

/-- The entry of slot `i` stays where it is when the hole is not on the way to it. -/
theorem stays_iff {n hole home i : Nat} (hhole : hole < n) (hhome : home < n) (hi : i < n)
    (hne : hole ≠ i) :
    ByteCache.stays hole home i = true ↔ ¬ distance n home hole < distance n home i := by
  unfold ByteCache.stays distance
  split <;> simp only [Bool.and_eq_true, Bool.or_eq_true, decide_eq_true_eq] <;>
    split <;> split <;> omega

theorem sum_lt_of_two {n a b : Nat} {f g : Nat → Nat} (ha : a < n) (hb : b < n) (hne : a ≠ b)
    (hrest : ∀ j, j ≠ a → j ≠ b → f j = g j) (hlt : f a + f b < g a + g b) :
    ∑ j ∈ Finset.range n, f j < ∑ j ∈ Finset.range n, g j := by
  have hsplit : ∀ h : Nat → Nat, ∑ j ∈ Finset.range n, h j =
      h a + (h b + ∑ j ∈ ((Finset.range n).erase a).erase b, h j) := by
    intro h
    rw [Finset.add_sum_erase _ _ (Finset.mem_erase.mpr ⟨hne.symm, Finset.mem_range.mpr hb⟩),
      Finset.add_sum_erase _ _ (Finset.mem_range.mpr ha)]
  have hsame : ∑ j ∈ ((Finset.range n).erase a).erase b, f j =
      ∑ j ∈ ((Finset.range n).erase a).erase b, g j := by
    apply Finset.sum_congr rfl
    intro j hj
    simp only [Finset.mem_erase] at hj
    exact hrest j hj.2.1 hj.1
  rw [hsplit f, hsplit g, hsame]
  omega

namespace ByteCache
variable {c d : ByteCache} {i hole last : Nat} {s : Slot}

/-- How far the entry of slot `i` stands from its home. -/
def displacementAt (c : ByteCache) (i : Nat) : Nat :=
  match c.slot? i with
  | some s => distance c.capacity (c.home s.key) i
  | none => 0

def displacement (c : ByteCache) : Nat := ∑ i ∈ Finset.range c.capacity, c.displacementAt i

theorem displacement_le (c : ByteCache) : c.displacement ≤ c.capacity * c.capacity := by
  have hle : ∀ i ∈ Finset.range c.capacity, c.displacementAt i ≤ c.capacity := by
    intro i hi
    have hi := Finset.mem_range.mp hi
    unfold displacementAt
    split
    · exact Nat.le_of_lt (distance_lt (home_lt (by omega) _) hi)
    · omega
  simpa [displacement] using Finset.sum_le_sum hle

/-- No empty slot but the hole is on the way from the home of an entry to its slot, and the hole
only if the entry stands behind `last`, seen from the hole. -/
def ReachableBut (c : ByteCache) (hole last : Nat) : Prop :=
  ∀ i s, c.slot? i = some s → ∀ j < c.capacity,
    distance c.capacity (c.home s.key) j < distance c.capacity (c.home s.key) i →
      c.slot? j = none → j = hole ∧ distance c.capacity hole last < distance c.capacity hole i

/-- Before any entry has been passed, every entry may have been cut off from its home. -/
theorem reachableBut_of_empty (hr : c.Reachable) (hhole : hole < c.capacity)
    (hd : d.slots = c.slots.setIfInBounds hole none) (hh : d.hash = c.hash) :
    d.ReachableBut hole hole := by
  intro i s hi j hj hlt hnone
  rw [capacity_assign hd] at hj hlt ⊢
  rw [home_congr hh (capacity_assign hd)] at hlt
  rw [slot?_assign hd hhole] at hi hnone
  have hne : hole ≠ i := by
    intro e
    rw [if_pos e] at hi
    cases hi
  rw [if_neg hne] at hi
  have hjh : hole = j := by
    by_contra e
    rw [if_neg e] at hnone
    exact hr i s hi j hj hlt hnone
  refine ⟨hjh.symm, ?_⟩
  rw [distance_self]
  apply Nat.pos_of_ne_zero
  intro hzero
  exact hne (eq_of_distance_eq hhole hhole (slot?_lt hi) (by rw [distance_self, hzero]))

/-- The walk is over when the next slot is empty. -/
theorem ReachableBut.reachable (h : c.ReachableBut hole last) (hhole : hole < c.capacity)
    (hlast : last < c.capacity) (hnone : c.slot? (c.after last) = none) : c.Reachable := by
  intro i s hi j hj hlt hj0
  obtain ⟨rfl, hbehind⟩ := h i s hi j hj hlt hj0
  have hi' := slot?_lt hi
  have hafter := after_lt (c := c) hlast
  by_cases hwrap : c.after last = j
  · -- The walk has come round to the hole, so nothing is behind its last slot.
    have hlast' : distance c.capacity j last + 1 = c.capacity := by
      rw [after_eq hlast] at hwrap
      unfold distance
      split at hwrap <;> split <;> omega
    have := distance_lt hhole hi'
    omega
  · have hnext := distance_to_after hlast hhole hwrap
    have hne : c.after last ≠ i := by
      intro e
      rw [e, hi] at hnone
      cases hnone
    have hlt' : distance c.capacity j (c.after last) < distance c.capacity j i := by
      have : distance c.capacity j (c.after last) ≠ distance c.capacity j i := fun e =>
        hne (eq_of_distance_eq hhole hafter hi' e)
      omega
    -- The empty slot lies between the hole and the entry, so the way crosses it as well.
    have hhome := home_lt (c := c) (by omega) s.key
    have hsum := distance_add hhome hj hi' (Nat.le_of_lt hlt)
    have htriangle := distance_triangle (k := c.after last) hhome hj
    exact hwrap (h i s hi _ hafter (by omega) hnone).1

/-- Passing an entry that stays. -/
theorem ReachableBut.pass (h : c.ReachableBut hole last) (hhole : hole < c.capacity)
    (hlast : last < c.capacity) (hsome : c.slot? (c.after last) = some s)
    (hstays : ¬ distance c.capacity (c.home s.key) hole <
      distance c.capacity (c.home s.key) (c.after last)) (hne : c.after last ≠ hole) :
    c.ReachableBut hole (c.after last) := by
  intro i t hi j hj hlt hnone
  obtain ⟨rfl, hbehind⟩ := h i t hi j hj hlt hnone
  have hnext := distance_to_after hlast hhole hne
  have hni : c.after last ≠ i := by
    intro e
    rw [e, hi] at hsome
    cases hsome
    exact hstays (e ▸ hlt)
  have : distance c.capacity j (c.after last) ≠ distance c.capacity j i := fun e =>
    hni (eq_of_distance_eq hhole (after_lt hlast) (slot?_lt hi) e)
  exact ⟨rfl, by omega⟩

/-! ### Moving an entry into the hole -/

/-- `d` is `c` with the entry `s` of slot `i` moved into the hole. -/
structure Moved (c d : ByteCache) (hole i : Nat) (s : Slot) : Prop where
  bound : hole < c.capacity
  empty : c.slot? hole = none
  entry : c.slot? i = some s
  slots : d.slots = (c.slots.setIfInBounds hole (some s)).setIfInBounds i none
  hash : d.hash = c.hash

namespace Moved

theorem capacity (m : Moved c d hole i s) : d.capacity = c.capacity := by
  simp [ByteCache.capacity, m.slots]

theorem home (m : Moved c d hole i s) (key : String) : d.home key = c.home key :=
  home_congr m.hash m.capacity key

theorem ne (m : Moved c d hole i s) : hole ≠ i := by
  intro e
  have := m.empty
  rw [e, m.entry] at this
  cases this

theorem slot? (m : Moved c d hole i s) (j : Nat) :
    d.slot? j = if i = j then none else if hole = j then some s else c.slot? j := by
  let e : ByteCache := { c with slots := c.slots.setIfInBounds hole (some s) }
  have he : e.slots = c.slots.setIfInBounds hole (some s) := rfl
  rw [slot?_assign (c := e) m.slots (by rw [capacity_assign he]; exact slot?_lt m.entry),
    slot?_assign he m.bound]

theorem contents (m : Moved c d hole i s) : d.contents.Perm c.contents := by
  let e : ByteCache := { c with slots := c.slots.setIfInBounds hole (some s) }
  have he : e.slots = c.slots.setIfInBounds hole (some s) := rfl
  have hei : e.slot? i = some s := by
    rw [slot?_assign he m.bound, if_neg m.ne, m.entry]
  exact ((contents_empty hei m.slots).symm.trans (contents_fill m.bound m.empty he)).cons_inv

/-- An entry after the move stood there before, or is the one that was moved. -/
theorem cases (m : Moved c d hole i s) {j : Nat} {t : Slot} (h : d.slot? j = some t) :
    i ≠ j ∧ (j = hole ∧ t = s ∨ c.slot? j = some t) := by
  rw [m.slot?] at h
  split at h
  · cases h
  · rename_i hij
    split at h
    · rename_i hj
      cases h
      exact ⟨hij, .inl ⟨hj.symm, rfl⟩⟩
    · exact ⟨hij, .inr h⟩

/-- The slot that was left is the only one that ways may cross now. -/
theorem reachableBut (m : Moved c d hole i s) (h : c.ReachableBut hole last)
    (hcloser : distance c.capacity (c.home s.key) hole < distance c.capacity (c.home s.key) i) :
    d.ReachableBut i i := by
  intro k t hk j hj hlt hnone
  rw [m.capacity] at hj hlt ⊢
  rw [m.home] at hlt
  obtain ⟨hik, hwas⟩ := m.cases hk
  have hkcap : k < c.capacity := by
    rw [← m.capacity]
    exact slot?_lt hk
  have hji : i = j := by
    by_contra hij
    rw [m.slot?, if_neg hij] at hnone
    split at hnone
    · cases hnone
    · rename_i hhj
      rcases hwas with ⟨rfl, rfl⟩ | hwas
      · exact hhj (h i t m.entry j hj (by omega) hnone).1.symm
      · exact hhj (h k t hwas j hj hlt hnone).1.symm
  refine ⟨hji.symm, ?_⟩
  rw [distance_self]
  apply Nat.pos_of_ne_zero
  intro hzero
  have hi := slot?_lt m.entry
  exact hik (eq_of_distance_eq hi hi hkcap (by rw [distance_self, hzero]))

theorem displacement_lt (m : Moved c d hole i s)
    (hcloser : distance c.capacity (c.home s.key) hole < distance c.capacity (c.home s.key) i) :
    d.displacement < c.displacement := by
  have hat : ∀ j, d.displacementAt j = match d.slot? j with
      | some s => distance c.capacity (c.home s.key) j
      | none => 0 := by
    intro j
    simp only [displacementAt, m.capacity, m.home]
  unfold displacement
  rw [m.capacity]
  apply sum_lt_of_two m.bound (slot?_lt m.entry) m.ne
  · intro j hjh hji
    rw [hat, m.slot?, if_neg (Ne.symm hji), if_neg (Ne.symm hjh)]
    rfl
  · rw [hat, hat, m.slot?, m.slot?, if_pos rfl, if_neg (Ne.symm m.ne), if_pos rfl]
    simp only [displacementAt, m.empty, m.entry]
    omega

end Moved

/-! ### The whole walk -/

/-- What closing a gap keeps. -/
structure SameEntries (c d : ByteCache) : Prop where
  hash : d.hash = c.hash
  capacity : d.capacity = c.capacity
  size : d.size = c.size
  clock : d.clock = c.clock
  contents : d.contents.Perm c.contents

theorem SameEntries.refl (c : ByteCache) : SameEntries c c := ⟨rfl, rfl, rfl, rfl, .refl _⟩

theorem SameEntries.trans {e : ByteCache} (h : SameEntries c d) (h' : SameEntries d e) :
    SameEntries c e :=
  ⟨h'.hash.trans h.hash, h'.capacity.trans h.capacity, h'.size.trans h.size,
    h'.clock.trans h.clock, h'.contents.trans h.contents⟩

/-- The walk ends when there is fuel for every move with a round after it. -/
theorem shiftBack_spec (fuel : Nat) (c : ByteCache) (hole last : Nat) (hhole : hole < c.capacity)
    (hlast : last < c.capacity) (hempty : c.slot? hole = none) (h : c.ReachableBut hole last)
    (hfuel : c.displacement * c.capacity + c.capacity ≤
      fuel + distance c.capacity hole last) :
    ∃ d, c.shiftBack fuel hole last = some d ∧ SameEntries c d ∧ d.Reachable := by
  induction fuel generalizing c hole last with
  | zero =>
    have := distance_lt hhole hlast
    omega
  | succ fuel ih =>
    unfold shiftBack
    cases hnext : c.slot? (c.after last) with
    | none => exact ⟨c, by simp only [hnext], .refl c, h.reachable hhole hlast hnext⟩
    | some s =>
      have hne : hole ≠ c.after last := by
        intro e
        rw [← e, hempty] at hnext
        cases hnext
      have hafter := after_lt (c := c) hlast
      have hhome := home_lt (c := c) (by omega) s.key
      simp only [hnext]
      by_cases hcloser : distance c.capacity (c.home s.key) hole <
          distance c.capacity (c.home s.key) (c.after last)
      · have hmoves : ¬ stays hole (c.home s.key) (c.after last) = true := fun e =>
          (stays_iff hhole hhome hafter hne).mp e hcloser
        rw [if_neg hmoves]
        let e : ByteCache := { c with
          slots := (c.slots.setIfInBounds hole (some s)).setIfInBounds (c.after last) none }
        have m : Moved c e hole (c.after last) s := ⟨hhole, hempty, hnext, rfl, rfl⟩
        have hcap := m.capacity
        have hless := Nat.mul_le_mul_right c.capacity (Nat.succ_le_of_lt (m.displacement_lt hcloser))
        rw [Nat.succ_mul] at hless
        have hbudget : e.displacement * e.capacity + e.capacity ≤
            fuel + distance e.capacity (c.after last) (c.after last) := by
          have := distance_lt hhole hlast
          rw [hcap, distance_self]
          omega
        obtain ⟨d, hd, hsame, hreach⟩ := ih e (c.after last) (c.after last)
          (by rw [hcap]; exact hafter) (by rw [hcap]; exact hafter)
          (by rw [m.slot?, if_pos rfl]) (m.reachableBut h hcloser) hbudget
        have hmoved : SameEntries c e := ⟨rfl, hcap, rfl, rfl, m.contents⟩
        exact ⟨d, hd, hmoved.trans hsame, hreach⟩
      · rw [if_pos ((stays_iff hhole hhome hafter hne).mpr hcloser)]
        apply ih c hole (c.after last) hhole hafter hempty
          (h.pass hhole hlast hnext hcloser (Ne.symm hne))
        have := distance_to_after hlast hhole (Ne.symm hne)
        omega

/-- The gap left in slot `i` closes with fuel for as many rounds of the ring as entries are away from home, and
one more. -/
theorem exists_shiftBack {fuel : Nat} (hr : c.Reachable) (hi : i < c.capacity)
    (hd : d.slots = c.slots.setIfInBounds i none) (hh : d.hash = c.hash)
    (hfuel : (d.displacement + 1) * d.capacity ≤ fuel) :
    ∃ e, d.shiftBack fuel i i = some e ∧ SameEntries d e ∧ e.Reachable := by
  have hin : i < d.capacity := by
    rw [capacity_assign hd]
    exact hi
  apply shiftBack_spec fuel d i i hin hin (by rw [slot?_assign hd hi, if_pos rfl])
    (reachableBut_of_empty hr hi hd hh)
  rw [distance_self, ← Nat.succ_mul]
  exact hfuel

theorem le_gapFuel (c : ByteCache) : (c.displacement + 1) * c.capacity ≤ c.gapFuel := by
  unfold gapFuel
  rw [Nat.mul_comm (c.capacity + 1)]
  exact Nat.mul_le_mul (Nat.succ_le_succ c.displacement_le) (Nat.le_succ _)

/-- The gap left in slot `i` closes: the walk ends, no entry is lost, and every entry is found
from its home again. -/
theorem closeGap_spec (hr : c.Reachable) (hi : i < c.capacity)
    (hd : d.slots = c.slots.setIfInBounds i none) (hh : d.hash = c.hash) :
    ∃ e, d.shiftBack d.gapFuel i i = some e ∧ d.closeGap i = e ∧ SameEntries d e ∧ e.Reachable := by
  obtain ⟨e, he, hsame, hreach⟩ := exists_shiftBack hr hi hd hh d.le_gapFuel
  exact ⟨e, he, by rw [closeGap, he]; rfl, hsame, hreach⟩

end ByteCache
end ClassCatalog.Cache
