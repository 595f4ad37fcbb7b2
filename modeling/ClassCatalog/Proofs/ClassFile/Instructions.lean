import ClassCatalog.ClassFile.Instruction

/-! Where instructions start.

The starts are what a walk from the beginning of the code comes through (`Start`). The walk that looks for
the instruction before an offset comes through all starts below it, one after the other (`walk_through`), and
ends at the last of them (`start_previousStart`, `le_previousStart`). Whatever the code is, the walk gets further in
every round (`Trail`), so that it ends in time (`exists_trail`) and inside the code (`previousStart_bounds`). -/
namespace ClassCatalog.ClassFile.Instruction
variable {code : Bytes} {target last offset a : Nat}

/-- A place inside the code where a walk from its beginning, instruction by instruction, finds one. -/
inductive Start (code : Bytes) : Nat → Prop
  | first (h : 0 < code.size) : Start code 0
  | next {a n : Nat} (h : Start code a) (hlength : length? code a = some n) (hinside : a + n < code.size) :
      Start code (a + n)

theorem Start.lt_size (h : Start code a) : a < code.size := by
  cases h with
  | first h => exact h
  | next _ _ hinside => exact hinside

/-! ### The walk -/

theorem walk_step {n : Nat} (htarget : offset < target) (hinside : offset < code.size)
    (hlength : length? code offset = some n) :
    walk code target last offset = walk code target offset (offset + n) := by
  rw [walk.eq_def, if_pos ⟨htarget, hinside⟩]
  split
  · rename_i h
    rw [hlength] at h
    cases h
  · rename_i h
    rw [hlength] at h
    cases h
    rfl

/-- The walk comes through every start up to its target. -/
theorem walk_through (h : Start code a) (ha : a ≤ target) :
    ∃ last ≤ a, previousStart code target = walk code target last a := by
  induction h with
  | first h => exact ⟨0, Nat.le_refl _, rfl⟩
  | @next a n h hlength hinside ih =>
    have hpos := length?_pos hlength
    obtain ⟨last, _, hwalk⟩ := ih (by omega)
    exact ⟨a, Nat.le_add_right .., hwalk.trans (walk_step (by omega) (by omega) hlength)⟩

/-- Where the walk ends is not before where it has come to. -/
theorem le_walk (hlast : last ≤ offset) :
    last ≤ walk code target last offset ∧
      (offset < target → offset < code.size → offset ≤ walk code target last offset) := by
  induction last, offset using walk.induct code target with
  | case1 last offset h hlength =>
    rw [walk.eq_def, if_pos h]
    split
    · exact ⟨hlast, fun _ _ => Nat.le_refl _⟩
    · rename_i h
      rw [hlength] at h
      cases h
  | case2 last offset h n hlength ih =>
    rw [walk_step h.1 h.2 hlength]
    have hnext := (ih (Nat.le_add_right ..)).1
    exact ⟨Nat.le_trans hlast hnext, fun _ _ => hnext⟩
  | case3 last offset h =>
    rw [walk.eq_def, if_neg h]
    exact ⟨Nat.le_refl _, fun htarget hinside => absurd ⟨htarget, hinside⟩ h⟩

/-- The walk ends at a start below its target. -/
theorem walk_start (hstart : Start code last) (hlast : last < target)
    (hoffset : offset < code.size → Start code offset) :
    Start code (walk code target last offset) ∧ walk code target last offset < target := by
  induction last, offset using walk.induct code target with
  | case1 last offset h hlength =>
    rw [walk.eq_def, if_pos h]
    split
    · exact ⟨hoffset h.2, h.1⟩
    · rename_i h
      rw [hlength] at h
      cases h
  | case2 last offset h n hlength ih =>
    rw [walk_step h.1 h.2 hlength]
    exact ih (hoffset h.2) h.1 fun hinside => .next (hoffset h.2) hlength hinside
  | case3 last offset h =>
    rw [walk.eq_def, if_neg h]
    exact ⟨hstart, hlast⟩

/-! ### The rounds of the walk -/

/-- The offsets that a walk from `offset` comes to below its target, one in each round. Where the length of the
instruction cannot be told it stops. -/
inductive Trail (code : Bytes) (target : Nat) : Nat → List Nat → Prop
  | past {offset : Nat} (h : ¬ (offset < target ∧ offset < code.size)) : Trail code target offset []
  | cut {offset : Nat} (h : offset < target ∧ offset < code.size) (hlength : length? code offset = none) :
      Trail code target offset [offset]
  | step {offset n : Nat} {trail : List Nat} (h : offset < target ∧ offset < code.size)
      (hlength : length? code offset = some n) (hrest : Trail code target (offset + n) trail) :
      Trail code target offset (offset :: trail)

/-- Every round gets further, so there are no more of them than bytes. -/
theorem Trail.length_le {trail : List Nat} (h : Trail code target offset trail) :
    trail.length ≤ min target code.size - offset := by
  induction h with
  | past h => exact Nat.zero_le _
  | cut h _ =>
    rw [List.length_singleton]
    omega
  | @step offset n trail h hlength _ ih =>
    have := length?_pos hlength
    rw [List.length_cons]
    omega

theorem exists_trail (code : Bytes) (target last offset : Nat) :
    ∃ trail, Trail code target offset trail ∧ walk code target last offset = trail.getLastD last := by
  induction last, offset using walk.induct code target with
  | case1 last offset h hlength =>
    refine ⟨[offset], .cut h hlength, ?_⟩
    rw [walk.eq_def, if_pos h]
    split
    · rfl
    · rename_i h
      rw [hlength] at h
      cases h
  | case2 last offset h n hlength ih =>
    obtain ⟨trail, htrail, hwalk⟩ := ih
    refine ⟨offset :: trail, .step h hlength htrail, ?_⟩
    rw [walk_step h.1 h.2 hlength, hwalk, List.getLastD_cons]
  | case3 last offset h =>
    refine ⟨[], .past h, ?_⟩
    rw [walk.eq_def, if_neg h]
    rfl

/-! ### The instruction before an offset -/

theorem start_previousStart (hcode : 0 < code.size) (htarget : 0 < target) :
    Start code (previousStart code target) ∧ previousStart code target < target :=
  walk_start (.first hcode) htarget fun _ => .first hcode

theorem le_previousStart (h : Start code a) (ha : a < target) : a ≤ previousStart code target := by
  obtain ⟨last, hlast, hwalk⟩ := walk_through h (Nat.le_of_lt ha)
  rw [hwalk]
  exact (le_walk hlast).2 ha h.lt_size

/-- What is found lies below the offset and inside the code, unless it is the beginning. -/
theorem previousStart_bounds (code : Bytes) (target : Nat) :
    previousStart code target = 0 ∨ previousStart code target < target ∧ previousStart code target < code.size := by
  by_cases h : 0 < target ∧ 0 < code.size
  · obtain ⟨hstart, htarget⟩ := start_previousStart h.2 h.1
    exact .inr ⟨htarget, hstart.lt_size⟩
  · left
    rw [previousStart, walk.eq_def, if_neg h]

end ClassCatalog.ClassFile.Instruction
