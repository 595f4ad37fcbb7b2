import ClassCatalog.Proofs.Loaded.Original

/-! Status bits and the count of instrumented methods.

How many methods are instrumented is kept apart from their status bits, and moves when a call sets or takes off the
bit that it counts. After any calls it is right (`Counted`), so there is something to take off whenever it is taken
down. The status bits themselves change only in calls that are made for them, and there just the bits that are given,
of the method that is given (`instrumented_exact`). -/
namespace ClassCatalog

/-! ### Bits -/

namespace Status

/-- Whether the bit `b` is set. -/
def bit (s : Status) (b : Nat) : Bool := s.toBitVec.getLsbD b

variable {s flags : Status} {b : Nat}

theorem bit_set : (s.set flags).bit b = (s.bit b || flags.bit b) := by
  rw [bit, set, UInt16.toBitVec_or, BitVec.getLsbD_or]
  rfl

theorem bit_clear : (s.clear flags).bit b = (s.bit b && !flags.bit b) := by
  rw [bit, clear, UInt16.toBitVec_and, BitVec.getLsbD_and, UInt16.toBitVec_not, BitVec.getLsbD_not]
  by_cases hb : b < 16
  · rw [decide_eq_true hb, Bool.true_and]
    rfl
  · rw [bit, BitVec.getLsbD_of_ge _ _ (Nat.not_lt.mp hb), Bool.false_and, Bool.false_and]

/-- Sets bits or takes them off. -/
def adjust (s flags : Status) (on : Bool) : Status := if on then s.set flags else s.clear flags

/-- The bits that are given are changed, and no others. -/
theorem bit_adjust {on : Bool} : (s.adjust flags on).bit b = if flags.bit b then on else s.bit b := by
  cases on with
  | true =>
    rw [adjust, if_pos rfl, bit_set]
    cases flags.bit b <;> simp
  | false =>
    rw [adjust, if_neg Bool.false_ne_true, bit_clear]
    cases flags.bit b <;> simp

end Status

namespace LoadedClass
open ClassCatalog.Action ClassFile

/-- How many methods have the bit `instrumented`. -/
def instrumented (c : LoadedClass) : Nat := c.methods.countP fun m => m.status.has .instrumented

/-- The bit `b` of the status of the method `i`. -/
def bit (c : LoadedClass) (i b : Nat) : Bool := (c.status i).bit b

/-- The method that a call is made for, the bits that it gives, and whether it sets them or takes them off. -/
def Call.flags? : Call → Option (Nat × Status × Bool)
  | .setStatus i flags => some (i, flags, true)
  | .clearStatus i flags => some (i, flags, false)
  | .mark i => some (i, .instrumented, true)
  | .unmark i => some (i, .instrumented, false)
  | _ => none

variable {c c' : LoadedClass} {i j b : Nat} {m : MethodState}

/-! ### Calls that leave the status bits alone -/

/-- The methods have the status bits they had, and the count is what it was. -/
structure Unflagged (c c' : LoadedClass) : Prop where
  statuses : c'.methods.map MethodState.status = c.methods.map MethodState.status
  count : c'.instrumentedCount = c.instrumentedCount

instance : IsPreorder LoadedClass Unflagged where
  refl _ := ⟨rfl, rfl⟩
  trans _ _ _ h h' := ⟨h'.statuses.trans h.statuses, h'.count.trans h.count⟩

theorem Unflagged.setMethod (c : LoadedClass) (i : Nat) {f : MethodState → MethodState}
    (hf : ∀ m, (f m).status = m.status) : c.Unflagged (c.setMethod i f) := by
  refine ⟨?_, rfl⟩
  apply Array.ext_getElem?
  intro j
  rw [Array.getElem?_map, getElem?_setMethod, Array.getElem?_map]
  split
  · rw [Option.map_map]
    exact congrArg (Option.map · c.methods[j]?) (funext hf)
  · rfl

theorem Unflagged.forgetLayouts (c : LoadedClass) : c.Unflagged c.forgetLayouts :=
  ⟨by rw [LoadedClass.forgetLayouts, Array.map_map]; rfl, rfl⟩

theorem Unflagged.addAttributeName (c : LoadedClass) (index : UInt16) (kind : AttributeKind) :
    c.Unflagged (c.addAttributeName index kind) := by
  have h := Unflagged.forgetLayouts { c with attributeNames := c.attributeNames.add index kind }
  exact ⟨h.statuses, h.count⟩

theorem Unflagged.reserve (c : LoadedClass) (purpose count : Nat) : c.Unflagged (c.reserve purpose count).2 := by
  unfold LoadedClass.reserve
  split <;> exact ⟨rfl, rfl⟩

theorem Unflagged.status (h : c.Unflagged c') (i : Nat) : c'.status i = c.status i := by
  rw [LoadedClass.status, LoadedClass.status, ← Array.getElem?_map, ← Array.getElem?_map, h.statuses]

theorem Unflagged.instrumented (h : c.Unflagged c') : c'.instrumented = c.instrumented := by
  have hcount (c : LoadedClass) : c.instrumented =
      (c.methods.map MethodState.status).countP fun s => s.has .instrumented := by
    rw [Array.countP_map]
    rfl
  rw [hcount, hcount, h.statuses]

theorem infoAndLayout_unflagged (i : Nat) : Keeps Unflagged (infoAndLayout i) :=
  keeps_infoAndLayout (fun _ _ => .setMethod _ _ fun _ => rfl) i

theorem replaceBody_unflagged (i : Nat) (info : Bytes) : Keeps Unflagged (replaceBody i info) :=
  keeps_replaceBody (fun i _ => .setMethod _ i fun _ => rfl) i info

theorem perform_unflagged {call : Call} (h : call.flags? = none) : Keeps Unflagged (perform call) := by
  by_cases hreads : call.reads
  · exact perform_of_reads (Keeps.composes Unflagged) infoAndLayout_unflagged
      (fun i => stackMap_keeps (infoAndLayout_unflagged i)) hreads
  cases call with
  | setStatus | clearStatus | mark | unmark => cases h
  | setInstrumentationId i id => exact .update fun c => .setMethod c i fun _ => rfl
  | reserve purpose count => exact .update fun c => .reserve c purpose count
  | setLoaded | setRoots | setMarkers | adopt | setSuper | addInterface | addSubclass =>
    exact .update fun c => ⟨rfl, rfl⟩
  | replaceBody i info => exact replaceBody_unflagged i info
  | restoreBody i => exact .update fun c => .setMethod c i fun _ => rfl
  | forgetLayouts => exact .update .forgetLayouts
  | addAttributeName index kind => exact .update fun c => .addAttributeName c index kind
  | putStackMap i t => exact keeps_putStackMap infoAndLayout_unflagged replaceBody_unflagged i t
  | editStackMap i e =>
    exact (keeps_editStackMap infoAndLayout_unflagged replaceBody_unflagged i e).bind fun _ => .pure _
  | addFullFrame i offset locals stack =>
    exact keeps_addFullFrame infoAndLayout_unflagged replaceBody_unflagged i offset locals stack
  | _ => exact absurd rfl hreads

/-! ### Calls for status bits -/

theorem status_changeStatus (c : LoadedClass) (i j : Nat) (f : Status → Status) :
    (c.changeStatus i f).status j = if i = j ∧ j < c.methods.size then f (c.status j) else c.status j := by
  rw [status, methods_changeStatus, Array.getElem?_modify, status]
  by_cases heq : i = j
  · subst heq
    rw [if_pos rfl]
    cases hm : c.methods[i]? with
    | none =>
      have hsize := Array.getElem?_eq_none_iff.mp hm
      rw [if_neg fun h => Nat.not_lt.mpr hsize h.2]
      rfl
    | some m =>
      rw [if_pos ⟨rfl, (Array.getElem?_eq_some_iff.mp hm).1⟩]
      rfl
  · rw [if_neg heq, if_neg fun h => heq h.1]

theorem le_instrumented (hm : c.methods[i]? = some m) : (m.status.has .instrumented).toNat ≤ c.instrumented := by
  cases h : m.status.has .instrumented with
  | false => exact Nat.zero_le _
  | true => exact Array.countP_pos_iff.mpr ⟨m, Array.mem_of_getElem? hm, h⟩

/-- A method counts before its bits change if it has the bit then, and afterwards if it has it then. -/
theorem instrumented_changeStatus (hm : c.methods[i]? = some m) (f : Status → Status) :
    (c.changeStatus i f).instrumented + (m.status.has .instrumented).toNat =
      c.instrumented + ((f m.status).has .instrumented).toNat := by
  have hle := le_instrumented hm
  obtain ⟨hsize, rfl⟩ := Array.getElem?_eq_some_iff.mp hm
  have hmethods : (c.changeStatus i f).methods =
      c.methods.set i { c.methods[i] with status := f c.methods[i].status } hsize := by
    rw [changeStatus, hm]
    exact Array.setIfInBounds_def .. |>.trans (dif_pos hsize)
  have hite (p : Bool) : (if p = true then 1 else 0) = p.toNat := by cases p <;> rfl
  rw [instrumented, hmethods, Array.countP_set, hite, hite, ← instrumented]
  dsimp only
  omega

/-- The count is the number of instrumented methods. -/
def Counted (c : LoadedClass) : Prop := c.instrumentedCount = c.instrumented

theorem Counted.unflagged (h : c.Counted) (hc : c.Unflagged c') : c'.Counted :=
  hc.count.trans (h.trans hc.instrumented.symm)

theorem Counted.changeStatus (h : c.Counted) (i : Nat) (f : Status → Status) : (c.changeStatus i f).Counted := by
  cases hm : c.methods[i]? with
  | none =>
    have hsame : c.changeStatus i f = c := by rw [LoadedClass.changeStatus, hm]
    rw [hsame]
    exact h
  | some m =>
    have hmoved := instrumented_changeStatus hm f
    have hcount : (c.changeStatus i f).instrumentedCount = recount c.instrumentedCount m.status (f m.status) := by
      rw [LoadedClass.changeStatus, hm]
    rw [Counted, hcount, recount, h]
    cases hbefore : m.status.has .instrumented <;> cases hafter : (f m.status).has .instrumented <;>
      simp only [hbefore, hafter, Bool.toNat_true, Bool.toNat_false] at hmoved ⊢ <;> omega

theorem counted_new (record : ClassFile.Record) (loader : LoaderId) (location : Location) :
    (new record loader location).Counted := by
  rw [Counted, instrumented, new, Array.countP_replicate]
  rfl

/-- When a method stops being instrumented the count had one to give. -/
theorem Counted.down (h : c.Counted) {f : Status → Status} (hbefore : c.hasStatus i .instrumented = true)
    (hafter : ¬ (c.changeStatus j f).hasStatus i .instrumented) :
    c.instrumentedCount = (c.changeStatus j f).instrumentedCount + 1 := by
  rw [hasStatus, status_changeStatus] at hafter
  split at hafter
  · rename_i hmethod
    obtain ⟨rfl, hsize⟩ := hmethod
    have hm : c.methods[j]? = some c.methods[j] := Array.getElem?_eq_getElem hsize
    have hstatus : c.status j = c.methods[j].status := by
      rw [status, hm]
      rfl
    have hmoved := instrumented_changeStatus hm f
    rw [← hstatus, Bool.eq_false_iff.mpr hafter, ← hasStatus, hbefore, Bool.toNat_true, Bool.toNat_false] at hmoved
    rw [h, h.changeStatus j f]
    omega
  · exact absurd hbefore hafter

/-! ### Calls -/

variable {call : Call} {flags : Status} {on : Bool}

theorem after_unflagged (h : call.flags? = none) (c : LoadedClass) : c.Unflagged (after [call] c) :=
  perform_unflagged h ⟨c, []⟩

theorem after_flagged (h : call.flags? = some (i, flags, on)) (c : LoadedClass) :
    after [call] c = c.changeStatus i fun s => s.adjust flags on := by
  cases call <;> cases h <;> rfl

theorem counted_call (h : c.Counted) (call : Call) : (after [call] c).Counted := by
  cases hflags : call.flags? with
  | none => exact h.unflagged (after_unflagged hflags c)
  | some given =>
    obtain ⟨i, flags, on⟩ := given
    rw [after_flagged hflags]
    exact h.changeStatus i _

theorem counted_after (h : c.Counted) (calls : List Call) : (after calls c).Counted := by
  induction calls generalizing c with
  | nil => exact h
  | cons call rest ih => exact ih (counted_call h call)

/-- Whatever is called, the count is taken down only if it has one to give. -/
theorem down_after (h : c.Counted) (hbefore : c.hasStatus i .instrumented = true)
    (hafter : ¬ (after [call] c).hasStatus i .instrumented) :
    c.instrumentedCount = (after [call] c).instrumentedCount + 1 := by
  cases hflags : call.flags? with
  | none =>
    rw [hasStatus, (after_unflagged hflags c).status] at hafter
    exact absurd hbefore hafter
  | some given =>
    obtain ⟨j, flags, on⟩ := given
    rw [after_flagged hflags] at hafter ⊢
    exact h.down hbefore hafter

/-- The bits after a call: those it is made for are as it says, and the others as they were. -/
theorem bit_after (call : Call) (c : LoadedClass) (i b : Nat) : (after [call] c).bit i b =
    match call.flags? with
    | some (j, flags, on) => if j = i ∧ i < c.methods.size ∧ flags.bit b then on else c.bit i b
    | none => c.bit i b := by
  cases hflags : call.flags? with
  | none => rw [bit, (after_unflagged hflags c).status, bit]
  | some given =>
    obtain ⟨j, flags, on⟩ := given
    rw [after_flagged hflags, bit, status_changeStatus]
    dsimp only
    by_cases hmethod : j = i ∧ i < c.methods.size
    · rw [if_pos hmethod, Status.bit_adjust]
      simp only [hmethod, true_and]
      rfl
    · rw [if_neg hmethod, if_neg fun h => hmethod ⟨h.1, h.2.1⟩, bit]

/-- **The count of instrumented methods.** After any calls it is the number of methods that have the bit, and is at
most that of all methods. Whatever is called next, the count is only taken down if it has one to give, and a status
bit changes only if the call is made for it: it is then as the call says, if there is such a method. -/
theorem instrumented_exact (record : Record) (loader : LoaderId) (location : Location) (calls : List Call)
    (call : Call) :
    let c := after calls (.new record loader location)
    let c' := after [call] c
    c.instrumentedCount = c.instrumented ∧ c.instrumented ≤ record.methods.size ∧
      (∀ i, c.hasStatus i .instrumented → ¬ c'.hasStatus i .instrumented →
        c.instrumentedCount = c'.instrumentedCount + 1) ∧
      ∀ i b, c'.bit i b =
        match call.flags? with
        | some (j, flags, on) => if j = i ∧ i < record.methods.size ∧ flags.bit b then on else c.bit i b
        | none => c.bit i b := by
  intro c c'
  have hsteps : Steps (.new record loader location) c := after_steps calls _
  have hcounted : c.Counted := counted_after (counted_new record loader location) calls
  have hcomplete : c.Complete := (complete_new record loader location).steps hsteps
  have hsize : c.methods.size = record.methods.size := by
    rw [hcomplete, (Steps.grows hsteps).record]
    rfl
  refine ⟨hcounted, hsize ▸ Array.countP_le_size, fun i hbefore hafter => down_after hcounted hbefore hafter, ?_⟩
  rw [← hsize]
  exact bit_after call c

end LoadedClass
end ClassCatalog
