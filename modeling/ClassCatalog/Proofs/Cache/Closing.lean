import ClassCatalog.Proofs.Cache.Probe

/-! How the closing of a gap goes, round by round and with no bound on the rounds.

`Closes` derives the walks that come to an end. When every entry was found from its home before the gap was
made, the walk over it is one of them, whatever the hash function and however full the slots are
(`gap_closes`). It takes fewer rounds than a way round the ring for each step that an entry is away from its
home, and one way more. -/
namespace ClassCatalog.Cache.ByteCache

/-- With the slots up to `last` passed, the walk over the hole is over after `rounds` rounds, and leaves `d`. -/
inductive Closes : ByteCache → Nat → Nat → Nat → ByteCache → Prop where
  | ended {c : ByteCache} {hole last : Nat} (hnone : c.slot? (c.after last) = none) : Closes c hole last 0 c
  | passed {c d : ByteCache} {hole last rounds : Nat} {s : Slot} (hsome : c.slot? (c.after last) = some s)
      (hstays : stays hole (c.home s.key) (c.after last) = true)
      (hrest : Closes c hole (c.after last) rounds d) : Closes c hole last (rounds + 1) d
  /-- The entry goes into the hole, and the hole is where it was. -/
  | moved {c d : ByteCache} {hole last rounds : Nat} {s : Slot} (hsome : c.slot? (c.after last) = some s)
      (hmoves : stays hole (c.home s.key) (c.after last) = false)
      (hrest : Closes
        { c with slots := (c.slots.setIfInBounds hole (some s)).setIfInBounds (c.after last) none }
        (c.after last) (c.after last) rounds d) : Closes c hole last (rounds + 1) d

variable {c d e : ByteCache} {hole last rounds rounds' fuel : Nat}

/-- The walks that come to an end are those that some bound does not cut short. -/
theorem shiftBack_eq_some_iff :
    c.shiftBack fuel hole last = some d ↔ ∃ rounds < fuel, c.Closes hole last rounds d := by
  constructor
  · intro h
    induction fuel generalizing c hole last with
    | zero => cases h
    | succ fuel ih =>
      unfold shiftBack at h
      cases hnext : c.slot? (c.after last) with
      | none =>
        simp only [hnext] at h
        cases h
        exact ⟨0, Nat.succ_pos _, .ended hnext⟩
      | some s =>
        simp only [hnext] at h
        split at h
        · rename_i hstays
          obtain ⟨rounds, hlt, hrest⟩ := ih h
          exact ⟨rounds + 1, Nat.succ_lt_succ hlt, .passed hnext hstays hrest⟩
        · rename_i hmoves
          obtain ⟨rounds, hlt, hrest⟩ := ih h
          exact ⟨rounds + 1, Nat.succ_lt_succ hlt, .moved hnext (Bool.eq_false_iff.mpr hmoves) hrest⟩
  · rintro ⟨rounds, hlt, h⟩
    induction h generalizing fuel with
    | ended hnone =>
      obtain ⟨fuel, rfl⟩ := Nat.exists_eq_succ_of_ne_zero (Nat.ne_zero_of_lt hlt)
      simp only [shiftBack, hnone]
    | passed hsome hstays _ ih =>
      obtain ⟨fuel, rfl⟩ := Nat.exists_eq_succ_of_ne_zero (Nat.ne_zero_of_lt hlt)
      simp only [shiftBack, hsome, hstays, if_true]
      exact ih (Nat.lt_of_succ_lt_succ hlt)
    | moved hsome hmoves _ ih =>
      obtain ⟨fuel, rfl⟩ := Nat.exists_eq_succ_of_ne_zero (Nat.ne_zero_of_lt hlt)
      simp only [shiftBack, hsome, hmoves, Bool.false_eq_true, if_false]
      exact ih (Nat.lt_of_succ_lt_succ hlt)

/-- A walk comes to one end only. -/
theorem Closes.unique (h : c.Closes hole last rounds d) (h' : c.Closes hole last rounds' e) : e = d := by
  have hshift : c.shiftBack (rounds + rounds' + 1) hole last = some d :=
    shiftBack_eq_some_iff.mpr ⟨rounds, by omega, h⟩
  have hshift' : c.shiftBack (rounds + rounds' + 1) hole last = some e :=
    shiftBack_eq_some_iff.mpr ⟨rounds', by omega, h'⟩
  exact Option.some.inj (hshift'.symm.trans hshift)

/-- Where no slot is empty, every entry is found. -/
theorem reachable_of_full (hfull : ∀ i < c.capacity, c.slot? i ≠ none) : c.Reachable :=
  fun _ _ _ j hj _ => hfull j hj

/-- **Closing a gap.** When every entry was found from its home before a slot was emptied, the walk over the
gap comes to an end, and to one end only, which is what `closeGap` leaves. No entry is lost and none is added,
and every entry is found from its home again. -/
theorem gap_closes (hr : c.Reachable) (hhole : hole < c.capacity)
    (hd : d.slots = c.slots.setIfInBounds hole none) (hh : d.hash = c.hash) :
    (∃ rounds < (d.displacement + 1) * d.capacity, d.Closes hole hole rounds (d.closeGap hole)) ∧
      (∀ rounds e, d.Closes hole hole rounds e → e = d.closeGap hole) ∧
      SameEntries d (d.closeGap hole) ∧ (d.closeGap hole).Reachable ∧
      ∀ key, (d.closeGap hole).contains key = true ↔ ∃ s ∈ d.contents, s.key = key := by
  obtain ⟨e, hshift, hsame, hreach⟩ := exists_shiftBack hr hhole hd hh (Nat.le_refl _)
  obtain ⟨rounds, hrounds, hcloses⟩ := shiftBack_eq_some_iff.mp hshift
  -- The bound of `closeGap` does not cut the walk short either.
  obtain ⟨_, hshift', rfl, _⟩ := closeGap_spec hr hhole hd hh
  obtain ⟨_, _, hcloses'⟩ := shiftBack_eq_some_iff.mp hshift'
  obtain rfl := hcloses'.unique hcloses
  refine ⟨⟨rounds, hrounds, hcloses⟩, fun _ _ h => hcloses.unique h, hsame, hreach, fun key => ?_⟩
  rw [contains_iff hreach]
  constructor
  · rintro ⟨s, hs, hkey⟩
    exact ⟨s, hsame.contents.mem_iff.mp hs, hkey⟩
  · rintro ⟨s, hs, hkey⟩
    exact ⟨s, hsame.contents.mem_iff.mpr hs, hkey⟩

/-- Four slots, all of them taken; homes go by the length of the key. -/
def crowded : ByteCache where
  hash := String.length
  slots := #[some ⟨"bbb", #[], 2⟩, some ⟨"cccc", #[], 3⟩, some ⟨"dd", #[], 4⟩, some ⟨"aaa", #[], 1⟩]
  size := 4
  clock := 4

/-- Two entries move back, one of them over the end of the slots, and the walk goes once round the ring. -/
theorem gap_closes_crowded :
    let d : ByteCache := { crowded with slots := crowded.slots.setIfInBounds 3 none, size := 3 }
    (∃ rounds < (d.displacement + 1) * d.capacity, d.Closes 3 3 rounds (d.closeGap 3)) ∧
      (d.closeGap 3).slots.map (Option.map Slot.key) = #[some "cccc", none, some "dd", some "bbb"] ∧
      (d.closeGap 3).Reachable := by
  have hfull : ∀ i < crowded.capacity, crowded.slot? i ≠ none := by decide
  have hhole : 3 < crowded.capacity := by decide
  obtain ⟨hends, _, _, hreach, _⟩ := gap_closes (reachable_of_full hfull) hhole
    (d := { crowded with slots := crowded.slots.setIfInBounds 3 none, size := 3 }) rfl rfl
  exact ⟨hends, by decide +kernel, hreach⟩

end ClassCatalog.Cache.ByteCache
