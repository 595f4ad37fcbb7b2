import Mathlib.Data.Option.NAry
import ClassCatalog.Proofs.StackMap.Shift

/-! Edits at different places.

Of two edits of the same code either may be made first: the one further behind is made at its own place, or, if the
code in front of it has grown already, at the place it has moved to (`Edit.behind`). Both orders go through and leave
the same table, or neither goes through (`edits_commute`).

An edit is a pass over the deltas and one over the types, and a pass is a function that fails where it stops (`pass`).
What is shown of passes is that they can be exchanged (`Swaps`): the two over the deltas, the two over the types,
and one of each kind. -/
namespace ClassCatalog.StackMap

/-! ### Passes -/

section Passes
variable {α β γ : Type} {edit f g f' g' : α → Edited α} {a : α}

/-- An edit as a function that fails where the edit stops. -/
def pass (edit : α → Edited α) (a : α) : Option α :=
  match (edit a).stopped with
  | none => some (edit a).value
  | some _ => none

theorem pass_of_passed (h : (edit a).stopped = none) : pass edit a = some (edit a).value := by
  rw [pass, h]

theorem pass_of_stopped {cause : Misplaced} (h : (edit a).stopped = some cause) : pass edit a = none := by
  rw [pass, h]

theorem value_of_pass {b : α} (h : pass edit a = some b) : (edit a).value = b := by
  cases hstopped : (edit a).stopped with
  | some cause =>
    rw [pass_of_stopped hstopped] at h
    cases h
  | none =>
    rw [pass_of_passed hstopped] at h
    exact Option.some.inj h

/-- Going by `f` and then by `g'` comes to the same as going by `g` and then by `f'`, failures included. -/
def Swaps (f g' g f' : α → Option α) : Prop := ∀ a, (f a).bind g' = (g a).bind f'

/-- Functions of two passes, of which each can be exchanged with each of the other. -/
theorem Swaps.comp {m m' t t' u v : α → Option α} (hfirst : Swaps m u m' m) (hsecond : Swaps t v t' t)
    (hover : Swaps t u u t) (hover' : Swaps t' m m t') :
    Swaps (fun a => (m a).bind t) (fun a => (u a).bind v) (fun a => (m' a).bind t') (fun a => (m a).bind t) := by
  intro a
  calc ((m a).bind t).bind (fun a => (u a).bind v)
      = (m a).bind fun b => ((t b).bind u).bind v := by simp only [Option.bind_assoc]
    _ = (m a).bind fun b => ((u b).bind t).bind v := by simp only [hover _]
    _ = ((m a).bind u).bind fun b => (t b).bind v := by simp only [Option.bind_assoc]
    _ = ((m' a).bind m).bind fun b => (t' b).bind t := by rw [hfirst a, funext hsecond]
    _ = (m' a).bind fun b => ((m b).bind t').bind t := by simp only [Option.bind_assoc]
    _ = (m' a).bind fun b => ((t' b).bind m).bind t := by simp only [hover' _]
    _ = ((m' a).bind t').bind fun a => (m a).bind t := by simp only [Option.bind_assoc]

/-- A pass over something made of two parts that goes over each of them. -/
theorem bind_map₂ {mk : α → β → γ} {F : γ → Option γ} {f : α → Option α} {g : β → Option β} {x : Option α}
    {y : Option β} (h : ∀ a b, x = some a → y = some b → F (mk a b) = Option.map₂ mk (f a) (g b)) :
    (Option.map₂ mk x y).bind F = Option.map₂ mk (x.bind f) (y.bind g) := by
  cases x with
  | none => rfl
  | some a =>
    cases y with
    | none => simp
    | some b => exact h a b rfl rfl

/-- A pass over something made of what another pass has left. -/
theorem bind_map {mk : α → β} {F : β → Option β} {g : α → Option α} {x : Option α}
    (h : ∀ a, x = some a → F (mk a) = (g a).map mk) : (x.map mk).bind F = (x.bind g).map mk := by
  cases x with
  | none => rfl
  | some a => exact h a rfl

theorem pass_editAll_nil (edit : α → Edited α) : pass (Edit.editAll edit) [] = some [] := rfl

theorem pass_editAll_cons (edit : α → Edited α) (a : α) (rest : List α) :
    pass (Edit.editAll edit) (a :: rest) = Option.map₂ List.cons (pass edit a) (pass (Edit.editAll edit) rest) := by
  cases h : (edit a).stopped with
  | some cause => rw [pass_of_stopped h, pass, editAll_cons_stopped h, Option.map₂_none_left]
  | none =>
    rw [pass_of_passed h, pass, editAll_cons_passed h, pass]
    cases (Edit.editAll edit rest).stopped <;> rfl

theorem pass_editAll_append (edit : α → Edited α) (l l' : List α) :
    pass (Edit.editAll edit) (l ++ l') =
      Option.map₂ List.append (pass (Edit.editAll edit) l) (pass (Edit.editAll edit) l') := by
  induction l with
  | nil => cases h : pass (Edit.editAll edit) l' <;> simp [pass_editAll_nil, h]
  | cons a rest ih =>
    rw [List.cons_append, pass_editAll_cons, pass_editAll_cons, ih]
    cases pass edit a <;> cases pass (Edit.editAll edit) rest <;> cases pass (Edit.editAll edit) l' <;> rfl

theorem swaps_editAll (h : Swaps (pass f) (pass g') (pass g) (pass f')) :
    Swaps (pass (Edit.editAll f)) (pass (Edit.editAll g')) (pass (Edit.editAll g)) (pass (Edit.editAll f')) := by
  intro l
  induction l with
  | nil => rfl
  | cons a rest ih =>
    rw [pass_editAll_cons, pass_editAll_cons, bind_map₂ fun a l _ _ => pass_editAll_cons g' a l,
      bind_map₂ fun a l _ _ => pass_editAll_cons f' a l, h a, ih]

end Passes

/-! ### The edit further behind -/

namespace Edit

/-- An edit as it has to be made when the code in front of it has been edited. -/
def behind (d e : Edit) : Edit := { d with pos := d.pos + e.count }

variable {d e : Edit} {x : Nat}

theorem affects_behind : (d.behind e).Affects (x + e.count) ↔ d.Affects x := by
  simp only [Affects, behind, Nat.add_lt_add_iff_right, Nat.add_right_cancel_iff]

theorem affectsOrigin_behind : (d.behind e).AffectsOrigin (x + e.count) ↔ d.AffectsOrigin x := by
  simp only [AffectsOrigin, behind, Nat.add_lt_add_iff_right, Nat.add_right_cancel_iff]

theorem not_affects_of_behind (h : e.pos < d.pos) (hx : ¬ e.Affects x) :
    ¬ d.Affects x ∧ ¬ (d.behind e).Affects x := by
  simp only [Affects, behind] at hx ⊢
  omega

theorem not_affectsOrigin_of_behind (h : e.pos < d.pos) (hx : ¬ e.AffectsOrigin x) :
    ¬ d.AffectsOrigin x ∧ ¬ (d.behind e).AffectsOrigin x := by
  simp only [AffectsOrigin, behind] at hx ⊢
  omega

theorem AffectsOrigin.add (h : e.AffectsOrigin x) (k : Nat) : e.AffectsOrigin (x + k) := by
  unfold AffectsOrigin at h ⊢
  rcases h with h | ⟨rfl, hkind⟩
  · exact .inl (by omega)
  · cases k with
    | zero => exact .inr ⟨rfl, hkind⟩
    | succ k => exact .inl (by omega)

end Edit

/-! ### Words that grow -/

/-- A word that is larger by `count`, if two bytes hold it. -/
def grown? (count : Nat) (w : UInt16) : Option UInt16 :=
  if w.toNat + count < 65536 then some (UInt16.ofNat (w.toNat + count)) else none

section Words
variable {w w' : UInt16} {count count' : Nat}

theorem toNat_of_grown? (h : grown? count w = some w') : w'.toNat = w.toNat + count := by
  unfold grown? at h
  split_ifs at h with hlt
  cases h
  exact UInt16.toNat_ofNat_of_lt' hlt

/-- A word that grows twice grows by the sum, and fails to where the sum is too large. -/
theorem grown?_grown? (count count' : Nat) (w : UInt16) :
    (grown? count w).bind (grown? count') = grown? (count + count') w := by
  cases h : grown? count w with
  | none =>
    unfold grown? at h ⊢
    split_ifs at h with hlt
    rw [Option.bind_none, if_neg (by omega)]
  | some w' =>
    rw [Option.bind_some, grown?, grown?, toNat_of_grown? h, Nat.add_assoc]

theorem grown?_comm (count count' : Nat) (w : UInt16) :
    (grown? count w).bind (grown? count') = (grown? count' w).bind (grown? count) := by
  rw [grown?_grown?, grown?_grown?, Nat.add_comm]

end Words

variable {d e : Edit}

/-! ### Types -/

theorem pass_editType_uninitialized (e : Edit) (o : UInt16) :
    pass e.editType (.uninitialized o) =
      if e.AffectsOrigin o.toNat then (grown? e.count o).map .uninitialized else some (.uninitialized o) := by
  simp only [pass, Edit.editType, e.movesOrigin_iff, grown?]
  split_ifs <;> rfl

theorem pass_editType_other (e : Edit) {t : VerificationType} (h : ∀ o, t ≠ .uninitialized o) :
    pass e.editType t = some t := by
  cases t with
  | uninitialized o => exact absurd rfl (h o)
  | _ => rfl

theorem swaps_editType (h : e.pos < d.pos) :
    Swaps (pass e.editType) (pass (d.behind e).editType) (pass d.editType) (pass e.editType) := by
  intro t
  by_cases ht : ∃ o, t = .uninitialized o
  · obtain ⟨o, rfl⟩ := ht
    by_cases he : e.AffectsOrigin o.toNat
    · have hbehind (o' : UInt16) (ho' : grown? e.count o = some o') :
          (d.behind e).AffectsOrigin o'.toNat ↔ d.AffectsOrigin o.toNat := by
        rw [toNat_of_grown? ho', Edit.affectsOrigin_behind]
      rw [pass_editType_uninitialized, if_pos he, pass_editType_uninitialized]
      split_ifs with hd
      · rw [bind_map (g := grown? d.count), bind_map (g := grown? e.count), grown?_comm]
        · intro o' ho'
          rw [pass_editType_uninitialized, if_pos (toNat_of_grown? ho' ▸ he.add _)]
        · intro o' ho'
          rw [pass_editType_uninitialized, if_pos ((hbehind o' ho').mpr hd)]
          rfl
      · rw [bind_map (g := some), Option.bind_some, pass_editType_uninitialized, if_pos he, Option.bind_fun_some]
        intro o' ho'
        rw [pass_editType_uninitialized, if_neg ((hbehind o' ho').not.mpr hd), Option.map_some]
    · obtain ⟨hd, hd'⟩ := Edit.not_affectsOrigin_of_behind h he
      simp only [pass_editType_uninitialized, he, hd, hd', if_false, Option.bind_some]
  · have hother : ∀ o, t ≠ .uninitialized o := fun o heq => ht ⟨o, heq⟩
    simp only [pass_editType_other _ hother, Option.bind_some]

/-! ### Frames -/

/-- A frame whose delta is larger by `count`. -/
def Frame.grown? (count : Nat) (f : Frame) : Option Frame := (StackMap.grown? count f.delta).map f.setDelta

section Frames
variable {f g : Frame} {count count' : Nat}

theorem pass_editTypes_sameOne (e : Edit) (d : UInt16) (t : VerificationType) (ext : Bool) :
    pass e.editTypes (.sameOne d t ext) = (pass e.editType t).map fun t => .sameOne d t ext := by
  simp only [pass, Edit.editTypes]
  cases (e.editType t).stopped <;> rfl

theorem pass_editTypes_append (e : Edit) (d : UInt16) (ls : List VerificationType) :
    pass e.editTypes (.append d ls) = (pass (Edit.editAll e.editType) ls).map (.append d) := by
  simp only [pass, Edit.editTypes]
  cases (Edit.editAll e.editType ls).stopped <;> rfl

theorem pass_editTypes_full (e : Edit) (d : UInt16) (ls ss : List VerificationType) :
    pass e.editTypes (.full d ls ss) =
      Option.map₂ (.full d) (pass (Edit.editAll e.editType) ls) (pass (Edit.editAll e.editType) ss) := by
  have hall : pass e.editTypes (.full d ls ss) = (pass (Edit.editAll e.editType) (ls ++ ss)).map fun ts =>
      .full d (ts.take ls.length) (ts.drop ls.length) := by
    simp only [pass, Edit.editTypes]
    cases (Edit.editAll e.editType (ls ++ ss)).stopped <;> rfl
  rw [hall, pass_editAll_append]
  cases hls : pass (Edit.editAll e.editType) ls with
  | none => rfl
  | some ls' =>
    have hlength : ls'.length = ls.length := value_of_pass hls ▸ editAll_length e.editType ls
    cases pass (Edit.editAll e.editType) ss with
    | none => rfl
    | some ss' => simp [← hlength]

theorem swaps_editTypes (h : e.pos < d.pos) :
    Swaps (pass e.editTypes) (pass (d.behind e).editTypes) (pass d.editTypes) (pass e.editTypes) := by
  intro f
  have htypes := swaps_editAll (swaps_editType h)
  cases f with
  | sameOne δ t ext =>
    rw [pass_editTypes_sameOne, pass_editTypes_sameOne, bind_map fun t _ => pass_editTypes_sameOne _ δ t ext,
      bind_map fun t _ => pass_editTypes_sameOne _ δ t ext, swaps_editType h t]
  | append δ ls =>
    rw [pass_editTypes_append, pass_editTypes_append, bind_map fun ls _ => pass_editTypes_append _ δ ls,
      bind_map fun ls _ => pass_editTypes_append _ δ ls, htypes ls]
  | full δ ls ss =>
    rw [pass_editTypes_full, pass_editTypes_full,
      bind_map₂ fun ls ss _ _ => pass_editTypes_full _ δ ls ss,
      bind_map₂ fun ls ss _ _ => pass_editTypes_full _ δ ls ss, htypes ls, htypes ss]
  | _ => rfl

/-- The types are edited in the same way whatever the delta is. -/
theorem pass_editTypes_setDelta (e : Edit) (f : Frame) (δ : UInt16) :
    pass e.editTypes (f.setDelta δ) = (pass e.editTypes f).map fun g => g.setDelta δ := by
  cases f with
  | sameOne d t ext =>
    show pass e.editTypes (.sameOne _ t _) = _
    rw [pass_editTypes_sameOne, pass_editTypes_sameOne, Option.map_map]
    rfl
  | append d ls =>
    show pass e.editTypes (.append _ ls) = _
    rw [pass_editTypes_append, pass_editTypes_append, Option.map_map]
    rfl
  | full d ls ss =>
    show pass e.editTypes (.full _ ls ss) = _
    rw [pass_editTypes_full, pass_editTypes_full, Option.map_map₂]
    rfl
  | _ => rfl

theorem delta_of_pass_editTypes (h : pass e.editTypes f = some g) : g.delta = f.delta :=
  value_of_pass h ▸ editTypes_delta e f

/-- A delta grows in the same way whatever the types are. -/
theorem swaps_editTypes_grown? (e : Edit) (count : Nat) :
    Swaps (pass e.editTypes) (Frame.grown? count) (Frame.grown? count) (pass e.editTypes) := by
  intro f
  have hleft : (pass e.editTypes f).bind (Frame.grown? count) =
      (pass e.editTypes f).bind fun g => (StackMap.grown? count f.delta).map g.setDelta := by
    refine Option.bind_congr fun g hg => ?_
    rw [Frame.grown?, delta_of_pass_editTypes hg]
  rw [hleft, Frame.grown?]
  cases StackMap.grown? count f.delta with
  | none => simp
  | some δ => exact (Option.map_eq_bind ..).symm.trans (pass_editTypes_setDelta e f δ).symm

/-- Only the last of two larger and larger deltas is to be seen. -/
theorem setDelta_setDelta {δ δ' : UInt16} (h : δ ≤ δ') (f : Frame) : (f.setDelta δ).setDelta δ' = f.setDelta δ' := by
  have hflag (ext : Bool) : (ext || decide (Frame.shortMax < δ) || decide (Frame.shortMax < δ')) =
      (ext || decide (Frame.shortMax < δ')) := by
    by_cases hδ : Frame.shortMax < δ
    · simp [UInt16.lt_of_lt_of_le hδ h]
    · simp [hδ]
  cases f with
  | same d ext => exact congrArg (Frame.same δ') (hflag ext)
  | sameOne d t ext => exact congrArg (Frame.sameOne δ' t) (hflag ext)
  | _ => rfl

theorem Frame.grown?_grown? (count count' : Nat) (f : Frame) :
    (f.grown? count).bind (Frame.grown? count') = f.grown? (count + count') := by
  rw [Frame.grown?, Frame.grown?, ← StackMap.grown?_grown?]
  refine bind_map fun δ hδ => ?_
  rw [Frame.grown?, setDelta_delta]
  refine Option.map_congr fun δ' hδ' => setDelta_setDelta ?_ f
  rw [UInt16.le_iff_toNat_le, toNat_of_grown? hδ']
  exact Nat.le_add_right ..

theorem Frame.grown?_comm (count count' : Nat) (f : Frame) :
    (f.grown? count).bind (Frame.grown? count') = (f.grown? count').bind (Frame.grown? count) := by
  rw [grown?_grown?, grown?_grown?, Nat.add_comm]

end Frames

/-! ### Deltas -/

section Deltas
variable {f g : Frame} {rest : List Frame} {last : Option Nat}

theorem pass_moveFrom_cons (e : Edit) (last : Option Nat) (f : Frame) (rest : List Frame) :
    pass (e.moveFrom last) (f :: rest) =
      if e.Affects (standsAt last f) then Option.map₂ List.cons (f.grown? e.count) (some rest)
      else Option.map₂ List.cons (some f) (pass (e.moveFrom (some (standsAt last f))) rest) := by
  rw [pass, moveFrom_cons, Frame.grown?, grown?]
  split_ifs with haffects hlt
  · rfl
  · rfl
  · simp only [pass]
    cases (e.moveFrom (some (standsAt last f)) rest).stopped <;> rfl

theorem standsAt_grown? {count : Nat} (h : f.grown? count = some g) (last : Option Nat) :
    standsAt last g = standsAt last f + count := by
  obtain ⟨δ, hδ, rfl⟩ := Option.map_eq_some_iff.mp h
  exact standsAt_setDelta (toNat_of_grown? hδ) last

theorem standsAt_add (x k : Nat) (f : Frame) : standsAt (some (x + k)) f = standsAt (some x) f + k := by
  simp only [standsAt]
  omega

theorem standsAt_congr (h : g.delta = f.delta) (last : Option Nat) : standsAt last g = standsAt last f := by
  unfold standsAt
  rw [h]

/-- Behind a place that has moved an edit finds what it would have found before. -/
theorem pass_moveFrom_behind (d e : Edit) (x : Nat) (frames : List Frame) :
    pass ((d.behind e).moveFrom (some (x + e.count))) frames = pass (d.moveFrom (some x)) frames := by
  induction frames generalizing x with
  | nil => rfl
  | cons f rest ih =>
    rw [pass_moveFrom_cons, pass_moveFrom_cons, standsAt_add, ih]
    simp only [Edit.affects_behind]
    rfl

theorem swaps_moveFrom (h : e.pos < d.pos) (last : Option Nat) :
    Swaps (pass (e.moveFrom last)) (pass ((d.behind e).moveFrom last)) (pass (d.moveFrom last))
      (pass (e.moveFrom last)) := by
  intro frames
  induction frames generalizing last with
  | nil => rfl
  | cons f rest ih =>
    rw [pass_moveFrom_cons, pass_moveFrom_cons]
    by_cases he : e.Affects (standsAt last f)
    · by_cases hd : d.Affects (standsAt last f)
      · -- Both edits move this frame.
        rw [if_pos he, if_pos hd, bind_map₂ (f := Frame.grown? d.count) (g := some),
          bind_map₂ (f := Frame.grown? e.count) (g := some), Frame.grown?_comm]
        · intro g rest' hg _
          rw [pass_moveFrom_cons, standsAt_grown? hg, if_pos (he.mono (Nat.le_add_right ..))]
        · intro g rest' hg _
          rw [pass_moveFrom_cons, standsAt_grown? hg, if_pos (Edit.affects_behind.mpr hd)]
          rfl
      · -- The one in front moves this frame, the other one a later frame or none.
        rw [if_pos he, if_neg hd, bind_map₂ (f := some) (g := pass (d.moveFrom (some (standsAt last f)))),
          bind_map₂ (f := Frame.grown? e.count) (g := some), Option.bind_fun_some, Option.bind_fun_some,
          Option.bind_some, Option.bind_some]
        · intro g rest' hg _
          cases hg
          rw [pass_moveFrom_cons, if_pos he]
        · intro g rest' hg _
          rw [pass_moveFrom_cons, standsAt_grown? hg, if_neg (Edit.affects_behind.not.mpr hd), pass_moveFrom_behind]
    · -- Neither of them moves this frame.
      obtain ⟨hd, hd'⟩ := Edit.not_affects_of_behind h he
      rw [if_neg he, if_neg hd, bind_map₂ (f := some) (g := pass ((d.behind e).moveFrom (some (standsAt last f)))),
        bind_map₂ (f := some) (g := pass (e.moveFrom (some (standsAt last f)))), ih]
      · intro g rest' hg _
        cases hg
        rw [pass_moveFrom_cons, if_neg he]
      · intro g rest' hg _
        cases hg
        rw [pass_moveFrom_cons, if_neg hd']

/-- Types are edited in the same way wherever frames stand. -/
theorem swaps_editTypes_moveFrom (x y : Edit) (last : Option Nat) :
    Swaps (pass (Edit.editAll x.editTypes)) (pass (y.moveFrom last)) (pass (y.moveFrom last))
      (pass (Edit.editAll x.editTypes)) := by
  intro frames
  induction frames generalizing last with
  | nil => rfl
  | cons f rest ih =>
    have hedited (frames : Option (List Frame)) (f : Option Frame) :
        (Option.map₂ List.cons f frames).bind (pass (Edit.editAll x.editTypes)) =
          Option.map₂ List.cons (f.bind (pass x.editTypes)) (frames.bind (pass (Edit.editAll x.editTypes))) :=
      bind_map₂ fun f frames _ _ => pass_editAll_cons x.editTypes f frames
    rw [pass_editAll_cons, pass_moveFrom_cons]
    split_ifs with haffects
    · rw [hedited, bind_map₂ (f := Frame.grown? y.count) (g := some), swaps_editTypes_grown? x y.count f,
        Option.bind_fun_some, Option.bind_some]
      intro g rest' hg _
      rw [pass_moveFrom_cons, standsAt_congr (delta_of_pass_editTypes hg), if_pos haffects]
    · rw [hedited, bind_map₂ (f := some) (g := pass (y.moveFrom (some (standsAt last f)))), ih,
        Option.bind_fun_some, Option.bind_some]
      intro g rest' hg _
      rw [pass_moveFrom_cons, standsAt_congr (delta_of_pass_editTypes hg), if_neg haffects]

end Deltas

/-! ### Whole edits -/

section Tables

theorem pass_apply_of_count_zero (h : e.count = 0) (t : Table) : pass e.apply t = some t := by
  simp only [pass, Edit.apply, h, if_true]

theorem pass_apply (h : 0 < e.count) (t : Table) :
    pass e.apply t =
      ((pass (e.moveFrom none) t.frames).bind (pass (Edit.editAll e.editTypes))).map Table.mk := by
  cases hmove : (e.moveFrom none t.frames).stopped with
  | some cause =>
    rw [pass_of_stopped hmove, pass]
    simp only [Edit.apply, Nat.ne_of_gt h, if_false, hmove]
    rfl
  | none =>
    rw [pass_of_passed hmove, Option.bind_some, pass, apply_of_count_pos h hmove, pass]
    cases (Edit.editAll e.editTypes (e.moveFrom none t.frames).value).stopped <;> rfl

end Tables

/-- **Edits at different places.** Two edits, of which one is further in front, can be made in either order: both
orders go through and leave the same table, with the same forms of frames, or neither goes through. -/
theorem edits_commute (h : e.pos < d.pos) (t : Table) :
    (pass e.apply t).bind (pass (d.behind e).apply) = (pass d.apply t).bind (pass e.apply) := by
  rcases Nat.eq_zero_or_pos e.count with he | he
  · have hsame : d.behind e = d := by rw [Edit.behind, he]; rfl
    have happly : pass e.apply = some := funext (pass_apply_of_count_zero he)
    rw [hsame, happly, Option.bind_fun_some]
    rfl
  rcases Nat.eq_zero_or_pos d.count with hd | hd
  · rw [pass_apply_of_count_zero hd, Option.bind_some, funext (pass_apply_of_count_zero (e := d.behind e) hd),
      Option.bind_fun_some]
  · have hpasses := Swaps.comp (swaps_moveFrom h none) (swaps_editAll (swaps_editTypes h))
      (swaps_editTypes_moveFrom e (d.behind e) none) (swaps_editTypes_moveFrom d e none) t.frames
    rw [pass_apply he, pass_apply hd, bind_map fun frames _ => pass_apply (e := d.behind e) hd ⟨frames⟩,
      bind_map fun frames _ => pass_apply he ⟨frames⟩, hpasses]

/-- A frame behind both places outgrows its short form at the second edit, whichever that is. -/
theorem edits_commute_extended :
    let e : Edit := ⟨2, 30, .insert, false⟩
    let d : Edit := ⟨8, 40, .widen, true⟩
    let t : Table := ⟨[.same 10 false, .sameOne 14 (.uninitialized 12) false]⟩
    let edited : Table := ⟨[.same 80 true, .sameOne 14 (.uninitialized 82) false]⟩
    e.pos < d.pos ∧ (pass e.apply t).bind (pass (d.behind e).apply) = some edited ∧
      (pass d.apply t).bind (pass e.apply) = some edited := by
  intro e d t edited
  have hbehind : (pass e.apply t).bind (pass (d.behind e).apply) = some edited := by decide
  exact ⟨by decide, hbehind, (edits_commute (by decide) t).symm.trans hbehind⟩

end ClassCatalog.StackMap
