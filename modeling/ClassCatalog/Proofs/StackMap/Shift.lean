import Mathlib.Data.List.Forall2
import Mathlib.Tactic.SplitIfs
import ClassCatalog.StackMap.Edit

/-! What an edit does to a table.

An edit writes one delta, and the frames behind it come along: each offset that the edit affects
moves by the count of the edit, every other stays (`offsets_moveFrom`). The offsets that types
hold are edited one by one (`Shifted`). So a frame keeps its form and its place in the table, and
at most goes over to the extended form (`Carried`). `apply_exact` says this for whole tables,
together with when an edit stops. -/
namespace ClassCatalog.StackMap

/-! ### What moves -/

namespace Edit

/-- Whether a frame at `x` moves: one behind the edit, and one at an insertion that does not bind
to what follows. -/
def Affects (e : Edit) (x : Nat) : Prop :=
  e.pos < x ∨ (x = e.pos ∧ e.kind = .insert ∧ e.bindsToFollowing = false)

/-- Whether an object made at `o` moves: one made behind the edit or at an insertion. -/
def AffectsOrigin (e : Edit) (o : Nat) : Prop := e.pos < o ∨ (o = e.pos ∧ e.kind = .insert)

instance (e : Edit) : DecidablePred e.Affects := fun x =>
  inferInstanceAs (Decidable (e.pos < x ∨ (x = e.pos ∧ e.kind = .insert ∧ e.bindsToFollowing = false)))

instance (e : Edit) : DecidablePred e.AffectsOrigin := fun o =>
  inferInstanceAs (Decidable (e.pos < o ∨ (o = e.pos ∧ e.kind = .insert)))

/-- Where a frame at `x` stands after the edit. -/
def shift (e : Edit) (x : Nat) : Nat := if e.Affects x then x + e.count else x

variable {e : Edit} {x y : Nat}

theorem movesFrame_iff (e : Edit) (x : Nat) : e.movesFrame x = true ↔ e.Affects x := by
  unfold movesFrame Affects
  cases e.kind <;> cases e.bindsToFollowing <;> simp

theorem movesOrigin_iff (e : Edit) (o : Nat) : e.movesOrigin o = true ↔ e.AffectsOrigin o := by
  unfold movesOrigin AffectsOrigin
  cases e.kind with
  | insert =>
    simp only [decide_eq_true_eq, and_true]
    omega
  | widen => simp

theorem Affects.mono (h : e.Affects x) (hle : x ≤ y) : e.Affects y := by
  unfold Affects at h ⊢
  rcases h with h | ⟨rfl, hkind⟩
  · exact .inl (by omega)
  · by_cases hy : y = e.pos
    · exact .inr ⟨hy, hkind⟩
    · exact .inl (by omega)

end Edit

/-! ### Types -/

/-- A type before and after an edit. -/
inductive Shifted (e : Edit) : VerificationType → VerificationType → Prop where
  | moved {o o' : UInt16} : e.AffectsOrigin o.toNat → o'.toNat = o.toNat + e.count →
      Shifted e (.uninitialized o) (.uninitialized o')
  | kept {t : VerificationType} : (∀ o, t = .uninitialized o → ¬ e.AffectsOrigin o.toNat) → Shifted e t t

/-- Whether a type cannot follow the edit, since its offset would outgrow two bytes. -/
def Outgrows (e : Edit) (t : VerificationType) : Prop :=
  ∃ o, t = .uninitialized o ∧ e.AffectsOrigin o.toNat ∧ 65535 < o.toNat + e.count

section Types
variable {e : Edit} {t : VerificationType}

theorem editType_cases (e : Edit) (t : VerificationType) :
    (e.editType t = ⟨t, false, none⟩ ∧ ∀ o, t = .uninitialized o → ¬ e.AffectsOrigin o.toNat) ∨
      ∃ o, t = .uninitialized o ∧ e.AffectsOrigin o.toNat ∧
        e.editType t =
          if o.toNat + e.count < 65536 then ⟨.uninitialized (UInt16.ofNat (o.toNat + e.count)), true, none⟩
          else ⟨t, false, some (.offsetTooLarge (o.toNat + e.count))⟩ := by
  cases t with
  | uninitialized o =>
    by_cases h : e.AffectsOrigin o.toNat
    · refine .inr ⟨o, rfl, h, ?_⟩
      simp only [Edit.editType, (e.movesOrigin_iff _).mpr h, if_true]
    · refine .inl ⟨?_, fun o' heq => by cases heq; exact h⟩
      rw [← e.movesOrigin_iff] at h
      simp only [Edit.editType, h, Bool.false_eq_true, if_false]
  | _ => exact .inl ⟨rfl, fun _ h => by cases h⟩

theorem editType_stopped : (e.editType t).stopped.isSome ↔ Outgrows e t := by
  rcases editType_cases e t with ⟨heq, hkept⟩ | ⟨o, rfl, ho, heq⟩
  · rw [heq]
    constructor
    · intro h
      cases h
    · rintro ⟨o, rfl, ho, _⟩
      exact absurd ho (hkept o rfl)
  · rw [heq]
    split_ifs with hlt
    · refine ⟨nofun, ?_⟩
      rintro ⟨o', heq', _, hlarge⟩
      cases heq'
      omega
    · exact ⟨fun _ => ⟨o, rfl, ho, by omega⟩, fun _ => rfl⟩

theorem editType_shifted (h : (e.editType t).stopped = none) : Shifted e t (e.editType t).value := by
  rcases editType_cases e t with ⟨heq, hkept⟩ | ⟨o, rfl, ho, heq⟩
  · rw [heq]
    exact .kept hkept
  · rw [heq] at h ⊢
    split_ifs at h ⊢ with hlt
    · exact .moved ho (UInt16.toNat_ofNat_of_lt' hlt)

theorem editType_changed (hcount : 0 < e.count) (t : VerificationType) :
    (e.editType t).changed = true ↔ (e.editType t).value ≠ t := by
  rcases editType_cases e t with ⟨heq, _⟩ | ⟨o, rfl, _, heq⟩
  · simp [heq]
  · rw [heq]
    split_ifs with hlt
    · have hne : UInt16.ofNat (o.toNat + e.count) ≠ o := by
        rw [Ne, ← UInt16.toNat_inj, UInt16.toNat_ofNat_of_lt' hlt]
        omega
      exact ⟨fun _ h => hne (VerificationType.uninitialized.inj h), fun _ => rfl⟩
    · simp

end Types

/-! ### Edits one after another -/

section All
variable {α : Type} {edit : α → Edited α} {a : α} {l rest : List α}

theorem editAll_cons_stopped {cause : Misplaced} (h : (edit a).stopped = some cause) :
    Edit.editAll edit (a :: rest) = ⟨(edit a).value :: rest, (edit a).changed, some cause⟩ := by
  simp only [Edit.editAll, h]

theorem editAll_cons_passed (h : (edit a).stopped = none) :
    Edit.editAll edit (a :: rest) =
      ⟨(edit a).value :: (Edit.editAll edit rest).value,
        (edit a).changed || (Edit.editAll edit rest).changed, (Edit.editAll edit rest).stopped⟩ := by
  simp only [Edit.editAll, h]

theorem editAll_stopped : (Edit.editAll edit l).stopped.isSome ↔ ∃ a ∈ l, (edit a).stopped.isSome := by
  induction l with
  | nil => simp [Edit.editAll]
  | cons a rest ih =>
    cases h : (edit a).stopped with
    | some cause => simp [editAll_cons_stopped h, h]
    | none => simpa [editAll_cons_passed h, h] using ih

theorem editAll_forall₂ {R : α → α → Prop} (hR : ∀ a, (edit a).stopped = none → R a (edit a).value)
    (h : (Edit.editAll edit l).stopped = none) : List.Forall₂ R l (Edit.editAll edit l).value := by
  induction l with
  | nil => exact .nil
  | cons a rest ih =>
    cases ha : (edit a).stopped with
    | some cause =>
      rw [editAll_cons_stopped ha] at h
      cases h
    | none =>
      rw [editAll_cons_passed ha] at h ⊢
      exact .cons (hR a ha) (ih h)

theorem editAll_changed (hedit : ∀ a, (edit a).changed = true ↔ (edit a).value ≠ a) :
    (Edit.editAll edit l).changed = true ↔ (Edit.editAll edit l).value ≠ l := by
  induction l with
  | nil => simp [Edit.editAll]
  | cons a rest ih =>
    cases h : (edit a).stopped with
    | some cause =>
      rw [editAll_cons_stopped h]
      simp [hedit a]
    | none =>
      rw [editAll_cons_passed h]
      simp only [Bool.or_eq_true, hedit a, ih, ne_eq, List.cons.injEq]
      exact not_and_or.symm

theorem editAll_length (edit : α → Edited α) (l : List α) : (Edit.editAll edit l).value.length = l.length := by
  induction l with
  | nil => rfl
  | cons a rest ih =>
    cases h : (edit a).stopped with
    | some cause => simp [editAll_cons_stopped h]
    | none => simp [editAll_cons_passed h, ih]

/-- What no edit changes is as it was, whether an edit has stopped or not. -/
theorem editAll_map {β : Type} {p : α → β} (h : ∀ a, p (edit a).value = p a) (l : List α) :
    (Edit.editAll edit l).value.map p = l.map p := by
  induction l with
  | nil => rfl
  | cons a rest ih =>
    cases ha : (edit a).stopped with
    | some cause => simp [editAll_cons_stopped ha, h]
    | none => simp [editAll_cons_passed ha, h, ih]

end All

/-! ### Frames -/

/-- The flag of a short form whose delta becomes `d'`. -/
def flagAfter (d d' : UInt16) (ext : Bool) : Bool := ext || (decide (d' ≠ d) && decide (63 < d'))

/-- A frame before and after an edit: of one form, with its types edited and maybe another delta. -/
inductive Carried (e : Edit) : Frame → Frame → Prop where
  | same {d d' : UInt16} {ext : Bool} : Carried e (.same d ext) (.same d' (flagAfter d d' ext))
  | sameOne {d d' : UInt16} {t t' : VerificationType} {ext : Bool} : Shifted e t t' →
      Carried e (.sameOne d t ext) (.sameOne d' t' (flagAfter d d' ext))
  | chop {d d' : UInt16} {n : UInt8} : Carried e (.chop d n) (.chop d' n)
  | append {d d' : UInt16} {ls ls' : List VerificationType} : List.Forall₂ (Shifted e) ls ls' →
      Carried e (.append d ls) (.append d' ls')
  | full {d d' : UInt16} {ls ls' ss ss' : List VerificationType} : List.Forall₂ (Shifted e) ls ls' →
      List.Forall₂ (Shifted e) ss ss' → Carried e (.full d ls ss) (.full d' ls' ss')

section Frames
variable {e : Edit} {f g h : Frame}

theorem editTypes_stopped : (e.editTypes f).stopped.isSome ↔ ∃ t ∈ f.types, Outgrows e t := by
  cases f with
  | sameOne d t ext => simp [Edit.editTypes, Frame.types, editType_stopped]
  | append d ls => simp [Edit.editTypes, Frame.types, editAll_stopped, editType_stopped]
  | full d ls ss => simp only [Edit.editTypes, Frame.types, editAll_stopped, editType_stopped]
  | _ => simp [Edit.editTypes, Frame.types]

theorem editTypes_delta (e : Edit) (f : Frame) : (e.editTypes f).value.delta = f.delta := by
  cases f <;> rfl

theorem flagAfter_self (d : UInt16) (ext : Bool) : flagAfter d d ext = ext := by
  simp [flagAfter]

theorem Carried.same_self (e : Edit) (d : UInt16) (ext : Bool) : Carried e (.same d ext) (.same d ext) := by
  have h : Carried e (.same d ext) (.same d (flagAfter d d ext)) := .same
  rwa [flagAfter_self] at h

theorem Carried.sameOne_self {t t' : VerificationType} (ht : Shifted e t t') (d : UInt16) (ext : Bool) :
    Carried e (.sameOne d t ext) (.sameOne d t' ext) := by
  have h : Carried e (.sameOne d t ext) (.sameOne d t' (flagAfter d d ext)) := .sameOne ht
  rwa [flagAfter_self] at h

theorem editTypes_carried (h : (e.editTypes f).stopped = none) : Carried e f (e.editTypes f).value := by
  cases f with
  | same d ext => exact .same_self e d ext
  | sameOne d t ext => exact .sameOne_self (editType_shifted h) d ext
  | chop d n => exact .chop
  | append d ls => exact .append (editAll_forall₂ (fun _ => editType_shifted) h)
  | full d ls ss =>
    have hall := editAll_forall₂ (R := Shifted e) (fun _ => editType_shifted) h
    have hlocals := List.forall₂_take ls.length hall
    have hstack := List.forall₂_drop ls.length hall
    rw [List.take_left] at hlocals
    rw [List.drop_left] at hstack
    exact .full hlocals hstack

theorem editTypes_changed (hcount : 0 < e.count) (f : Frame) :
    (e.editTypes f).changed = true ↔ (e.editTypes f).value ≠ f := by
  cases f with
  | sameOne d t ext => simp [Edit.editTypes, editType_changed hcount]
  | append d ls => simp [Edit.editTypes, editAll_changed (editType_changed hcount)]
  | full d ls ss =>
    have hlen := editAll_length e.editType (ls ++ ss)
    simp only [Edit.editTypes, editAll_changed (editType_changed hcount), ne_eq, Frame.full.injEq, true_and]
    rw [not_iff_not]
    constructor
    · intro h
      rw [h]
      simp
    · rintro ⟨hl, hs⟩
      rw [← List.take_append_drop ls.length (Edit.editAll e.editType (ls ++ ss)).value, hl, hs]
  | _ => simp [Edit.editTypes]

/-- A frame before and after its delta has been edited. -/
def Moved (f g : Frame) : Prop := g = f ∨ ∃ d, f.delta ≠ d ∧ g = f.setDelta d

/-- A delta is edited before the types are. -/
theorem Carried.of_moved (hfg : Moved f g) (hgh : Carried e g h) (hdelta : h.delta = g.delta) :
    Carried e f h := by
  rcases hfg with rfl | ⟨d, hd, rfl⟩
  · exact hgh
  · -- The flag that the new delta sets is the one it has afterwards.
    have hflag {d₀ : UInt16} (ext : Bool) (hne : d₀ ≠ d) :
        flagAfter d d (ext || decide (Frame.shortMax < d)) = flagAfter d₀ d ext := by
      rw [flagAfter_self, flagAfter, decide_eq_true (Ne.symm hne), Bool.true_and]
      rfl
    cases f <;> cases hgh <;> cases hdelta
    case same.same.refl =>
      rw [hflag _ hd]
      exact .same
    case sameOne.sameOne.refl ht =>
      rw [hflag _ hd]
      exact .sameOne ht
    case chop.chop.refl => exact .chop
    case append.append.refl hls => exact .append hls
    case full.full.refl hls hss => exact .full hls hss

end Frames

/-! ### Where frames stand -/

section Offsets
variable {e : Edit} {f : Frame} {last : Option Nat} {rest frames : List Frame}

/-- Where a frame stands behind the frame at `last`, if there is one. -/
def standsAt (last : Option Nat) (f : Frame) : Nat :=
  match last with
  | none => f.delta.toNat
  | some last => last + f.delta.toNat + 1

theorem offsetsFrom_cons (last : Option Nat) (f : Frame) (rest : List Frame) :
    Table.offsetsFrom last (f :: rest) =
      standsAt last f :: Table.offsetsFrom (some (standsAt last f)) rest := by
  cases last <;> rfl

theorem lt_of_mem_offsetsFrom {last x : Nat} (h : x ∈ Table.offsetsFrom (some last) frames) : last < x := by
  induction frames generalizing last with
  | nil => cases h
  | cons f rest ih =>
    rw [offsetsFrom_cons, List.mem_cons] at h
    have hfirst : last < standsAt (some last) f := by
      show last < last + f.delta.toNat + 1
      omega
    rcases h with rfl | h
    · exact hfirst
    · exact Nat.lt_trans hfirst (ih h)

/-- Frames behind a frame that moves move along. -/
theorem offsetsFrom_add (last k : Nat) (frames : List Frame) :
    Table.offsetsFrom (some (last + k)) frames = (Table.offsetsFrom (some last) frames).map (· + k) := by
  induction frames generalizing last with
  | nil => rfl
  | cons f rest ih =>
    have hhere : standsAt (some (last + k)) f = standsAt (some last) f + k := by
      show last + k + f.delta.toNat + 1 = last + f.delta.toNat + 1 + k
      omega
    rw [offsetsFrom_cons, offsetsFrom_cons, hhere, ih, List.map_cons]

theorem setDelta_delta (d : UInt16) (f : Frame) : (f.setDelta d).delta = d := by
  cases f <;> rfl

theorem standsAt_setDelta {d : UInt16} {k : Nat} (h : d.toNat = f.delta.toNat + k) (last : Option Nat) :
    standsAt last (f.setDelta d) = standsAt last f + k := by
  cases last with
  | none => simp only [standsAt, setDelta_delta, h]
  | some last =>
    simp only [standsAt, setDelta_delta, h]
    omega

theorem moveFrom_cons (e : Edit) (last : Option Nat) (f : Frame) (rest : List Frame) :
    e.moveFrom last (f :: rest) =
      if e.Affects (standsAt last f) then
        if f.delta.toNat + e.count < 65536 then
          ⟨f.setDelta (UInt16.ofNat (f.delta.toNat + e.count)) :: rest, true, none⟩
        else ⟨f :: rest, false, some (.deltaTooLarge (f.delta.toNat + e.count))⟩
      else
        ⟨f :: (e.moveFrom (some (standsAt last f)) rest).value,
          (e.moveFrom (some (standsAt last f)) rest).changed,
          (e.moveFrom (some (standsAt last f)) rest).stopped⟩ := by
  simp only [← e.movesFrame_iff]
  rfl

/-- An edit of the deltas stops at the first frame it affects, if anywhere. -/
theorem moveFrom_stopped : (e.moveFrom last frames).stopped.isSome ↔
    ∃ f x, (frames.zip (Table.offsetsFrom last frames)).find? (fun p => e.Affects p.2) = some (f, x) ∧
      65535 < f.delta.toNat + e.count := by
  induction frames generalizing last with
  | nil =>
    cases last <;> simp [Edit.moveFrom]
  | cons f rest ih =>
    rw [moveFrom_cons, offsetsFrom_cons, List.zip_cons_cons, List.find?_cons]
    by_cases haffects : e.Affects (standsAt last f)
    · have hfound : (∃ g x, some (f, standsAt last f) = some (g, x) ∧ 65535 < g.delta.toNat + e.count) ↔
          65535 < f.delta.toNat + e.count :=
        ⟨fun ⟨_, _, heq, hlarge⟩ => by cases heq; exact hlarge, fun hlarge => ⟨_, _, rfl, hlarge⟩⟩
      simp only [haffects, if_true, decide_true, hfound]
      split_ifs with hlt
      · exact ⟨nofun, fun h => by omega⟩
      · exact ⟨fun _ => by omega, fun _ => rfl⟩
    · simp only [haffects, if_false, decide_false]
      exact ih

theorem moveFrom_moved (hcount : 0 < e.count) (last : Option Nat) (frames : List Frame) :
    List.Forall₂ Moved frames (e.moveFrom last frames).value := by
  induction frames generalizing last with
  | nil => exact .nil
  | cons f rest ih =>
    have hrest : List.Forall₂ Moved rest rest := List.forall₂_same.mpr fun _ _ => .inl rfl
    rw [moveFrom_cons]
    split_ifs with haffects hlt
    · refine .cons (.inr ⟨_, ?_, rfl⟩) hrest
      rw [Ne, ← UInt16.toNat_inj, UInt16.toNat_ofNat_of_lt' hlt]
      omega
    · exact .cons (.inl rfl) hrest
    · exact .cons (.inl rfl) (ih _)

theorem offsets_moveFrom (h : (e.moveFrom last frames).stopped = none) :
    Table.offsetsFrom last (e.moveFrom last frames).value = (Table.offsetsFrom last frames).map e.shift := by
  induction frames generalizing last with
  | nil => cases last <;> rfl
  | cons f rest ih =>
    rw [moveFrom_cons] at h ⊢
    rw [offsetsFrom_cons last f rest, List.map_cons]
    split_ifs at h ⊢ with haffects hlt
    · have hhere := standsAt_setDelta (f := f) (UInt16.toNat_ofNat_of_lt' hlt) last
      rw [offsetsFrom_cons, hhere, offsetsFrom_add, Edit.shift, if_pos haffects]
      congr 1
      refine List.map_congr_left fun x hx => ?_
      rw [Edit.shift, if_pos (haffects.mono (Nat.le_of_lt (lt_of_mem_offsetsFrom hx)))]
    · rw [offsetsFrom_cons, Edit.shift, if_neg haffects, ih h]

/-- The deltas tell whether an edit of them changed anything. -/
theorem moveFrom_changed (hcount : 0 < e.count) (last : Option Nat) (frames : List Frame) :
    ((e.moveFrom last frames).changed = true →
        (e.moveFrom last frames).value.map Frame.delta ≠ frames.map Frame.delta) ∧
      ((e.moveFrom last frames).changed = false → (e.moveFrom last frames).value = frames) := by
  induction frames generalizing last with
  | nil => exact ⟨nofun, fun _ => rfl⟩
  | cons f rest ih =>
    rw [moveFrom_cons]
    split_ifs with haffects hlt
    · refine ⟨fun _ heq => ?_, fun h => by cases h⟩
      have hdelta : (f.setDelta (UInt16.ofNat (f.delta.toNat + e.count))).delta = f.delta := by
        rw [List.map_cons, List.map_cons] at heq
        exact (List.cons.inj heq).1
      rw [setDelta_delta, ← UInt16.toNat_inj, UInt16.toNat_ofNat_of_lt' hlt] at hdelta
      omega
    · exact ⟨nofun, fun _ => rfl⟩
    · obtain ⟨hchanged, hsame⟩ := ih (some (standsAt last f))
      refine ⟨fun h heq => hchanged h ?_, fun h => by rw [hsame h]⟩
      rw [List.map_cons, List.map_cons] at heq
      exact (List.cons.inj heq).2

end Offsets

/-! ### Tables -/

section Tables
variable {e : Edit} {t t' : Table} {changed : Bool}

theorem map_delta_editAll (e : Edit) (frames : List Frame) :
    (Edit.editAll e.editTypes frames).value.map Frame.delta = frames.map Frame.delta :=
  editAll_map (editTypes_delta e) frames

theorem forall₂_carried {frames moved edited : List Frame} (hfirst : List.Forall₂ Moved frames moved)
    (hsecond : List.Forall₂ (fun g h => Carried e g h ∧ h.delta = g.delta) moved edited) :
    List.Forall₂ (Carried e) frames edited := by
  induction hfirst generalizing edited with
  | nil =>
    cases hsecond
    exact .nil
  | cons hfg _ ih =>
    cases hsecond with
    | cons hgh hrest => exact .cons (.of_moved hfg hgh.1 hgh.2) (ih hrest)

theorem offsetsFrom_congr {last : Option Nat} {frames others : List Frame}
    (h : frames.map Frame.delta = others.map Frame.delta) :
    Table.offsetsFrom last frames = Table.offsetsFrom last others := by
  induction frames generalizing last others with
  | nil =>
    rw [List.map_nil, eq_comm, List.map_eq_nil_iff] at h
    rw [h]
  | cons f rest ih =>
    match others, h with
    | g :: others, h =>
      rw [List.map_cons, List.map_cons] at h
      obtain ⟨hdelta, hrest⟩ := List.cons.inj h
      have hhere : standsAt last f = standsAt last g := by
        unfold standsAt
        rw [hdelta]
      rw [offsetsFrom_cons, offsetsFrom_cons, hhere, ih hrest]

theorem types_setDelta (d : UInt16) (f : Frame) : (f.setDelta d).types = f.types := by
  cases f <;> rfl

/-- Editing the deltas leaves the types that cannot follow as they are. -/
theorem outgrows_moveFrom (last : Option Nat) (frames : List Frame) :
    (∃ f ∈ (e.moveFrom last frames).value, ∃ t ∈ f.types, Outgrows e t) ↔
      ∃ f ∈ frames, ∃ t ∈ f.types, Outgrows e t := by
  induction frames generalizing last with
  | nil => rfl
  | cons f rest ih =>
    rw [moveFrom_cons]
    split_ifs <;> simp [types_setDelta, ih]

theorem apply_of_count_pos (hcount : 0 < e.count) (h : (e.moveFrom none t.frames).stopped = none) :
    e.apply t = ⟨⟨(Edit.editAll e.editTypes (e.moveFrom none t.frames).value).value⟩,
      (e.moveFrom none t.frames).changed || (Edit.editAll e.editTypes (e.moveFrom none t.frames).value).changed,
      (Edit.editAll e.editTypes (e.moveFrom none t.frames).value).stopped⟩ := by
  simp only [Edit.apply, Nat.ne_of_gt hcount, if_false, h]

theorem shifted_of_count_zero (hcount : e.count = 0) (t : VerificationType) : Shifted e t t := by
  by_cases h : ∃ o, t = .uninitialized o ∧ e.AffectsOrigin o.toNat
  · obtain ⟨o, rfl, ho⟩ := h
    exact .moved ho (by rw [hcount, Nat.add_zero])
  · exact .kept fun o ht ho => h ⟨o, ht, ho⟩

theorem carried_of_count_zero (hcount : e.count = 0) (f : Frame) : Carried e f f := by
  have htypes (ts : List VerificationType) : List.Forall₂ (Shifted e) ts ts :=
    List.forall₂_same.mpr fun t _ => shifted_of_count_zero hcount t
  cases f with
  | same d ext => exact .same_self e d ext
  | sameOne d t ext => exact .sameOne_self (shifted_of_count_zero hcount t) d ext
  | chop d n => exact .chop
  | append d ls => exact .append (htypes ls)
  | full d ls ss => exact .full (htypes ls) (htypes ss)

theorem apply_stopped (hcount : 0 < e.count) (t : Table) : (e.apply t).stopped.isSome ↔
    ((∃ f x, (t.frames.zip t.offsets).find? (fun p => e.Affects p.2) = some (f, x) ∧
        65535 < f.delta.toNat + e.count) ∨
      ∃ f ∈ t.frames, ∃ t ∈ f.types, Outgrows e t) := by
  have hmove : (e.moveFrom none t.frames).stopped.isSome ↔ _ := moveFrom_stopped
  rw [Table.offsets, ← hmove]
  cases h : (e.moveFrom none t.frames).stopped with
  | some cause =>
    have happly : (e.apply t).stopped = some cause := by
      simp only [Edit.apply, Nat.ne_of_gt hcount, if_false, h]
    rw [happly]
    exact ⟨fun _ => .inl rfl, fun _ => rfl⟩
  | none =>
    rw [apply_of_count_pos hcount h, editAll_stopped]
    simp only [editTypes_stopped, outgrows_moveFrom, Option.isSome_none, Bool.false_eq_true, false_or]

theorem of_apply (hcount : 0 < e.count) (h : e.apply t = ⟨t', changed, none⟩) :
    List.Forall₂ (Carried e) t.frames t'.frames ∧ t'.offsets = t.offsets.map e.shift ∧
      (changed = true ↔ t' ≠ t) := by
  cases hmove : (e.moveFrom none t.frames).stopped with
  | some cause =>
    simp only [Edit.apply, Nat.ne_of_gt hcount, if_false, hmove] at h
    cases h
  | none =>
    rw [apply_of_count_pos hcount hmove, Edited.mk.injEq] at h
    obtain ⟨rfl, rfl, hstopped⟩ := h
    have hdeltas := map_delta_editAll e (e.moveFrom none t.frames).value
    obtain ⟨hmoved, hsame⟩ := moveFrom_changed hcount none t.frames
    refine ⟨?_, ?_, ?_⟩
    · have hfirst := moveFrom_moved hcount none t.frames
      exact forall₂_carried hfirst
        (editAll_forall₂ (fun f hf => ⟨editTypes_carried hf, editTypes_delta e f⟩) hstopped)
    · show Table.offsetsFrom none _ = _
      rw [offsetsFrom_congr hdeltas, offsets_moveFrom hmove]
      rfl
    · cases hfirst : (e.moveFrom none t.frames).changed with
      | true =>
        rw [Bool.true_or]
        refine ⟨fun _ heq => hmoved hfirst ?_, fun _ => rfl⟩
        rw [← hdeltas]
        exact congrArg (fun t : Table => t.frames.map Frame.delta) heq
      | false =>
        rw [Bool.false_or, editAll_changed (editTypes_changed hcount), hsame hfirst, not_iff_not]
        exact ⟨fun heq => by rw [heq], congrArg Table.frames⟩

end Tables

/-- What an edit does. If it goes through, the frames keep their number, order and form, each type
is edited and each frame stands where the edit shifts it, and the answer tells whether anything
changed. It stops exactly if it inserts something and the first frame it affects, or a type, cannot
hold what it would have to. -/
theorem apply_exact (e : Edit) (t : Table) :
    (∀ t' changed, e.apply t = ⟨t', changed, none⟩ →
      List.Forall₂ (Carried e) t.frames t'.frames ∧ t'.offsets = t.offsets.map e.shift ∧
        (changed = true ↔ t' ≠ t)) ∧
    ((e.apply t).stopped.isSome ↔ 0 < e.count ∧
      ((∃ f x, (t.frames.zip t.offsets).find? (fun p => e.Affects p.2) = some (f, x) ∧
          65535 < f.delta.toNat + e.count) ∨
        ∃ f ∈ t.frames, ∃ t ∈ f.types, Outgrows e t)) := by
  rcases Nat.eq_zero_or_pos e.count with hcount | hcount
  · have happly : e.apply t = ⟨t, false, none⟩ := by simp only [Edit.apply, hcount, if_true]
    rw [happly]
    refine ⟨?_, nofun, fun h => by omega⟩
    intro t' changed heq
    cases heq
    refine ⟨List.forall₂_same.mpr fun f _ => carried_of_count_zero hcount f, ?_, by simp⟩
    have hshift : e.shift = id := by
      funext x
      simp [Edit.shift, hcount]
    rw [hshift, List.map_id]
  · exact ⟨fun t' changed h => of_apply hcount h, by rw [apply_stopped hcount t, and_iff_right hcount]⟩

end ClassCatalog.StackMap
