import ClassCatalog.Proofs.StackMap.Shift

/-! What an edit leaves that stops.

An edit that cannot move the first frame it affects leaves the table as it was. If it stops at a type that cannot
hold its offset, the frames have been moved by then and the types in front of that type have been edited, while
those behind it are as they were (`Broken`). So only an edit that had nothing to do before it stopped leaves the
table as it was (`stopped_exact`), and a table can be left half edited (`not_undone`). -/
namespace ClassCatalog.StackMap

/-- The verification types of all frames, one after another. -/
def Table.types (t : Table) : List VerificationType := t.frames.flatMap Frame.types

/-- A frame without its types, except for how many there are. -/
def Frame.shape : Frame → Frame
  | same d ext => same d ext
  | sameOne d _ ext => sameOne d .top ext
  | chop d n => chop d n
  | append d ls => append d (List.replicate ls.length .top)
  | full d ls ss => full d (List.replicate ls.length .top) (List.replicate ss.length .top)

/-- A frame and what stands in its place: it may have moved, and other types may stand in the places of its own. -/
def Replaced (f g : Frame) : Prop := ∃ f', Moved f f' ∧ g.shape = f'.shape

/-- Types before and after an edit that stops at one of them. -/
inductive Broken (e : Edit) : Misplaced → List VerificationType → List VerificationType → Prop where
  | stop {front front' : List VerificationType} {o : UInt16} (hfront : List.Forall₂ (Shifted e) front front')
      (ho : e.AffectsOrigin o.toNat) (hlarge : 65535 < o.toNat + e.count) (back : List VerificationType) :
      Broken e (.offsetTooLarge (o.toNat + e.count)) (front ++ .uninitialized o :: back)
        (front' ++ .uninitialized o :: back)

variable {e : Edit} {cause : Misplaced} {t : Table} {f g : Frame} {frames others : List Frame} {last : Option Nat}
  {ts ts' more more' : List VerificationType}

/-! ### Where an edit stops -/

theorem editAll_interrupted {α : Type} {edit : α → Edited α} {l : List α}
    (h : (Edit.editAll edit l).stopped = some cause) :
    ∃ front a back, l = front ++ a :: back ∧ (Edit.editAll edit front).stopped = none ∧
      (edit a).stopped = some cause ∧
      (Edit.editAll edit l).value = (Edit.editAll edit front).value ++ (edit a).value :: back := by
  induction l with
  | nil => cases h
  | cons a rest ih =>
    cases ha : (edit a).stopped with
    | some cause' =>
      rw [editAll_cons_stopped ha] at h ⊢
      cases h
      exact ⟨[], a, rest, rfl, rfl, ha, rfl⟩
    | none =>
      rw [editAll_cons_passed ha] at h ⊢
      obtain ⟨front, b, back, rfl, hfront, hb, hvalue⟩ := ih h
      refine ⟨a :: front, b, back, rfl, ?_, hb, ?_⟩
      · rw [editAll_cons_passed ha]
        exact hfront
      · rw [hvalue, editAll_cons_passed ha, List.cons_append]

theorem editType_interrupted {t : VerificationType} (h : (e.editType t).stopped = some cause) :
    (e.editType t).value = t ∧ ∃ o, t = .uninitialized o ∧ e.AffectsOrigin o.toNat ∧ 65535 < o.toNat + e.count ∧
      cause = .offsetTooLarge (o.toNat + e.count) := by
  rcases editType_cases e t with ⟨heq, _⟩ | ⟨o, rfl, ho, heq⟩
  · rw [heq] at h
    cases h
  · rw [heq] at h ⊢
    split_ifs at h ⊢ with hlt
    cases h
    exact ⟨rfl, o, rfl, ho, by omega, rfl⟩

/-! ### Types -/

theorem Broken.append (h : Broken e cause ts ts') (more : List VerificationType) :
    Broken e cause (ts ++ more) (ts' ++ more) := by
  cases h with
  | stop hfront ho hlarge back =>
    rw [List.append_assoc, List.append_assoc, List.cons_append]
    exact .stop hfront ho hlarge (back ++ more)

theorem Broken.behind (h : Broken e cause ts ts') (hmore : List.Forall₂ (Shifted e) more more') :
    Broken e cause (more ++ ts) (more' ++ ts') := by
  cases h with
  | stop hfront ho hlarge back =>
    rw [← List.append_assoc, ← List.append_assoc]
    exact .stop (List.rel_append hmore hfront) ho hlarge back

theorem broken_editAll (h : (Edit.editAll e.editType ts).stopped = some cause) :
    Broken e cause ts (Edit.editAll e.editType ts).value := by
  obtain ⟨front, t, back, rfl, hfront, ht, hvalue⟩ := editAll_interrupted h
  obtain ⟨hsame, o, rfl, ho, hlarge, rfl⟩ := editType_interrupted ht
  rw [hvalue, hsame]
  exact .stop (editAll_forall₂ (fun _ => editType_shifted) hfront) ho hlarge back

theorem broken_editTypes (h : (e.editTypes f).stopped = some cause) :
    Broken e cause f.types (e.editTypes f).value.types := by
  cases f with
  | same | chop => cases h
  | sameOne d t ext =>
    obtain ⟨hsame, o, rfl, ho, hlarge, rfl⟩ := editType_interrupted h
    show Broken e _ [.uninitialized o] [(e.editType (.uninitialized o)).value]
    rw [hsame]
    exact Broken.stop List.Forall₂.nil ho hlarge []
  | append d ls => exact broken_editAll h
  | full d ls ss =>
    have hall : Broken e cause (ls ++ ss) _ := broken_editAll h
    rw [← List.take_append_drop ls.length (Edit.editAll e.editType (ls ++ ss)).value] at hall
    exact hall

theorem Carried.types (h : Carried e f g) : List.Forall₂ (Shifted e) f.types g.types := by
  cases h with
  | same | chop => exact .nil
  | sameOne ht => exact .cons ht .nil
  | append hls => exact hls
  | full hls hss => exact List.rel_append hls hss

theorem types_of_editAll_passed (h : (Edit.editAll e.editTypes frames).stopped = none) :
    List.Forall₂ (Shifted e) (frames.flatMap Frame.types)
      ((Edit.editAll e.editTypes frames).value.flatMap Frame.types) :=
  List.rel_flatMap (editAll_forall₂ (fun _ => editTypes_carried) h) fun _ _ => Carried.types

theorem broken_frames (h : (Edit.editAll e.editTypes frames).stopped = some cause) :
    Broken e cause (frames.flatMap Frame.types) ((Edit.editAll e.editTypes frames).value.flatMap Frame.types) := by
  obtain ⟨front, f, back, rfl, hfront, hf, hvalue⟩ := editAll_interrupted h
  rw [hvalue]
  simp only [List.flatMap_append, List.flatMap_cons]
  exact ((broken_editTypes hf).append _).behind (types_of_editAll_passed hfront)

theorem types_moveFrom (e : Edit) (last : Option Nat) (frames : List Frame) :
    (e.moveFrom last frames).value.flatMap Frame.types = frames.flatMap Frame.types := by
  induction frames generalizing last with
  | nil => rfl
  | cons f rest ih =>
    rw [moveFrom_cons]
    split_ifs <;> simp [types_setDelta, ih]

/-! ### Shapes -/

theorem shape_editTypes (e : Edit) (f : Frame) : (e.editTypes f).value.shape = f.shape := by
  cases f with
  | append d ls => simp [Edit.editTypes, Frame.shape, editAll_length]
  | full d ls ss => simp [Edit.editTypes, Frame.shape, editAll_length]
  | _ => rfl

theorem map_shape_editAll (e : Edit) (frames : List Frame) :
    (Edit.editAll e.editTypes frames).value.map Frame.shape = frames.map Frame.shape :=
  editAll_map (shape_editTypes e) frames

theorem types_length_of_shape (h : f.shape = g.shape) : f.types.length = g.types.length := by
  cases f <;> cases g <;> simp_all [Frame.shape, Frame.types]

theorem frame_eq (hshape : f.shape = g.shape) (htypes : f.types = g.types) : f = g := by
  cases f with
  | same | chop => cases g <;> simp_all [Frame.shape]
  | sameOne | append => cases g <;> simp_all [Frame.shape, Frame.types]
  | full d ls ss =>
    cases g with
    | full d' ls' ss' =>
      simp only [Frame.shape, Frame.full.injEq, List.replicate_inj] at hshape
      obtain ⟨rfl, ⟨hlength, _⟩, _⟩ := hshape
      obtain ⟨rfl, rfl⟩ := List.append_inj htypes hlength
      rfl
    | _ => cases hshape

/-- Frames are told by their shapes and by the types that they hold together. -/
theorem frames_eq (hshape : frames.map Frame.shape = others.map Frame.shape)
    (htypes : frames.flatMap Frame.types = others.flatMap Frame.types) : frames = others := by
  induction frames generalizing others with
  | nil => exact (List.map_eq_nil_iff.mp hshape.symm).symm
  | cons f rest ih =>
    cases others with
    | nil => cases hshape
    | cons g others =>
      obtain ⟨hfirst, hrest⟩ := List.cons.inj hshape
      obtain ⟨htypes, hmore⟩ := List.append_inj htypes (types_length_of_shape hfirst)
      rw [frame_eq hfirst htypes, ih hrest hmore]

/-! ### Tables -/

theorem of_moveFrom_stopped (h : (e.moveFrom last frames).stopped = some cause) :
    (e.moveFrom last frames).value = frames ∧
      ∃ f x, (frames.zip (Table.offsetsFrom last frames)).find? (fun p => e.Affects p.2) = some (f, x) ∧
        65535 < f.delta.toNat + e.count ∧ cause = .deltaTooLarge (f.delta.toNat + e.count) := by
  induction frames generalizing last with
  | nil => cases h
  | cons f rest ih =>
    rw [moveFrom_cons] at h ⊢
    rw [offsetsFrom_cons, List.zip_cons_cons, List.find?_cons]
    split_ifs at h ⊢ with haffects hlt
    · cases h
      exact ⟨rfl, f, standsAt last f, by simp [haffects], by omega, rfl⟩
    · obtain ⟨hsame, g, x, hfound, hlarge, hcause⟩ := ih h
      exact ⟨by rw [hsame], g, x, by simpa [haffects] using hfound, hlarge, hcause⟩

/-- Frames of which none is affected stay where they are. -/
theorem moveFrom_of_not_affects (h : ∀ x ∈ Table.offsetsFrom last frames, ¬ e.Affects x) :
    (e.moveFrom last frames).value = frames := by
  induction frames generalizing last with
  | nil => rfl
  | cons f rest ih =>
    rw [offsetsFrom_cons, List.forall_mem_cons] at h
    rw [moveFrom_cons, if_neg h.1, ih h.2]

theorem forall₂_replaced {moved edited : List Frame} (hmoved : List.Forall₂ Moved frames moved)
    (hshape : edited.map Frame.shape = moved.map Frame.shape) : List.Forall₂ Replaced frames edited := by
  induction hmoved generalizing edited with
  | nil =>
    rw [List.map_eq_nil_iff.mp hshape]
    exact .nil
  | cons hfirst _ ih =>
    cases edited with
    | nil => cases hshape
    | cons g rest =>
      obtain ⟨hg, hrest⟩ := List.cons.inj hshape
      exact .cons ⟨_, hfirst, hg⟩ (ih hrest)

theorem Shifted.eq_iff {t t' : VerificationType} (hcount : 0 < e.count) (h : Shifted e t t') :
    t' = t ↔ ∀ o, t = .uninitialized o → ¬ e.AffectsOrigin o.toNat := by
  cases h with
  | @moved o o' ho hsum =>
    refine ⟨fun heq => ?_, fun hkept => absurd ho (hkept o rfl)⟩
    cases heq
    omega
  | kept hkept => exact ⟨fun _ => hkept, fun _ => rfl⟩

/-- Types are as they were if the edit affects none of them. -/
theorem shifted_eq_iff (hcount : 0 < e.count) (h : List.Forall₂ (Shifted e) ts ts') :
    ts' = ts ↔ ∀ o, .uninitialized o ∈ ts → ¬ e.AffectsOrigin o.toNat := by
  induction h with
  | nil => simp
  | cons hfirst _ ih =>
    rw [List.cons.injEq, hfirst.eq_iff hcount, ih]
    simp only [List.mem_cons, or_imp, forall_and, eq_comm]

theorem map_shift_eq_iff (hcount : 0 < e.count) (offsets : List Nat) :
    offsets.map e.shift = offsets ↔ ∀ x ∈ offsets, ¬ e.Affects x := by
  induction offsets with
  | nil => simp
  | cons x rest ih =>
    have hx : e.shift x = x ↔ ¬ e.Affects x := by
      unfold Edit.shift
      split_ifs with haffects
      · exact ⟨fun heq => by omega, fun hnot => absurd haffects hnot⟩
      · exact ⟨fun _ => haffects, fun _ => rfl⟩
    rw [List.map_cons, List.cons.injEq, hx, ih, List.forall_mem_cons]

theorem count_pos_of_stopped (h : (e.apply t).stopped = some cause) : 0 < e.count := by
  rcases Nat.eq_zero_or_pos e.count with hzero | hpos
  · simp only [Edit.apply, hzero, if_true] at h
    cases h
  · exact hpos

/-- An edit that cannot move the first frame that it affects leaves the table as it was. -/
theorem of_apply_unmoved (hcount : 0 < e.count) (hmove : (e.moveFrom none t.frames).stopped.isSome)
    (h : (e.apply t).stopped = some cause) :
    (e.apply t).value = t ∧
      ∃ f x, (t.frames.zip t.offsets).find? (fun p => e.Affects p.2) = some (f, x) ∧
        65535 < f.delta.toNat + e.count ∧ cause = .deltaTooLarge (f.delta.toNat + e.count) := by
  obtain ⟨cause', hmove⟩ := Option.isSome_iff_exists.mp hmove
  have happly : e.apply t = ⟨⟨(e.moveFrom none t.frames).value⟩, (e.moveFrom none t.frames).changed, some cause'⟩ := by
    simp only [Edit.apply, Nat.ne_of_gt hcount, if_false, hmove]
  rw [happly] at h ⊢
  cases h
  obtain ⟨hsame, hfound⟩ := of_moveFrom_stopped hmove
  exact ⟨by rw [hsame], hfound⟩

/-- An edit that stops when the frames have been moved has stopped at a type. -/
theorem of_apply_moved (hcount : 0 < e.count) (hmove : (e.moveFrom none t.frames).stopped = none)
    (h : (e.apply t).stopped = some cause) :
    (e.apply t).value.frames.map Frame.shape = (e.moveFrom none t.frames).value.map Frame.shape ∧
      (e.apply t).value.offsets = t.offsets.map e.shift ∧ Broken e cause t.types (e.apply t).value.types := by
  rw [apply_of_count_pos hcount hmove] at h ⊢
  refine ⟨map_shape_editAll e _, ?_, ?_⟩
  · rw [Table.offsets, offsetsFrom_congr (map_delta_editAll e _), offsets_moveFrom hmove]
    rfl
  · have hbroken := broken_frames h
    rw [types_moveFrom] at hbroken
    exact hbroken

/-- **What an edit leaves that stops.** It stops at the delta of the first frame it affects, and then it has changed
nothing; or it stops at a type whose offset would outgrow two bytes. In that case all frames have been moved, and of
the types those in front of that one have been edited and those behind it have not. The table is as it was only if
there was no frame to move and no type to edit before. -/
theorem stopped_exact (h : (e.apply t).stopped = some cause) :
    ((e.apply t).value = t ∧
      ∃ f x, (t.frames.zip t.offsets).find? (fun p => e.Affects p.2) = some (f, x) ∧
        65535 < f.delta.toNat + e.count ∧ cause = .deltaTooLarge (f.delta.toNat + e.count)) ∨
    (List.Forall₂ Replaced t.frames (e.apply t).value.frames ∧
      (e.apply t).value.offsets = t.offsets.map e.shift ∧
      ∃ front front' o back, t.types = front ++ .uninitialized o :: back ∧
        (e.apply t).value.types = front' ++ .uninitialized o :: back ∧ List.Forall₂ (Shifted e) front front' ∧
        e.AffectsOrigin o.toNat ∧ 65535 < o.toNat + e.count ∧ cause = .offsetTooLarge (o.toNat + e.count) ∧
        ((e.apply t).value = t ↔
          (∀ x ∈ t.offsets, ¬ e.Affects x) ∧ ∀ a, .uninitialized a ∈ front → ¬ e.AffectsOrigin a.toNat)) := by
  have hcount := count_pos_of_stopped h
  cases hmove : (e.moveFrom none t.frames).stopped with
  | some cause' => exact .inl (of_apply_unmoved hcount (by rw [hmove]; rfl) h)
  | none =>
    obtain ⟨hshape, hoffsets, hbroken⟩ := of_apply_moved hcount hmove h
    have hreplaced := forall₂_replaced (moveFrom_moved hcount none t.frames) hshape
    generalize e.apply t = edited at *
    generalize hbefore : t.types = before at hbroken
    generalize hafter : edited.value.types = after at hbroken
    cases hbroken with
    | @stop front front' o hfront ho hlarge back =>
      refine .inr ⟨hreplaced, hoffsets, front, front', o, back, rfl, rfl, hfront, ho, hlarge, rfl,
        fun heq => ⟨?_, ?_⟩, fun hnone => ?_⟩
      · rw [heq] at hoffsets
        exact (map_shift_eq_iff hcount t.offsets).mp hoffsets.symm
      · rw [← shifted_eq_iff hcount hfront]
        rw [heq, hbefore] at hafter
        exact (List.append_inj hafter hfront.length_eq).1.symm
      · obtain ⟨hframes, horigins⟩ := hnone
        rw [moveFrom_of_not_affects hframes] at hshape
        refine congrArg Table.mk (frames_eq hshape ?_)
        rw [← Table.types, ← Table.types, hafter, hbefore, (shifted_eq_iff hcount hfront).mpr horigins]

def tornEdit : Edit := ⟨4, 100, .insert, false⟩

/-- Of the types of these frames the first can follow the edit, the second cannot. -/
def tornTable : Table := ⟨[.sameOne 5 (.uninitialized 20) false, .sameOne 9 (.uninitialized 65500) false]⟩

/-- The frames have been moved before it is found that a type cannot follow. -/
theorem stopped_exact_torn :
    (tornEdit.apply tornTable).stopped = some (.offsetTooLarge 65600) ∧
      (tornEdit.apply tornTable).value.offsets = [105, 115] ∧ (tornEdit.apply tornTable).value ≠ tornTable := by
  have hstopped : (tornEdit.apply tornTable).stopped = some (.offsetTooLarge 65600) := by decide
  rcases stopped_exact hstopped with ⟨_, f, x, _, _, hcause⟩ | ⟨_, hoffsets, _, _, _, _, _, _, _, _, _, _, hsame⟩
  · cases hcause
  · exact ⟨hstopped, hoffsets.trans (by decide), fun heq => (hsame.mp heq).1 5 (by decide) (by decide)⟩

/-- A failed edit need not leave the table as it was. -/
theorem not_undone :
    ¬ ∀ (e : Edit) (t : Table), e.pos + 65535 < 4294967296 → e.count + 65535 < 4294967296 →
      (e.apply t).stopped.isSome → (e.apply t).value = t := by
  intro h
  exact absurd (h tornEdit tornTable (by decide) (by decide) (by decide)) (by decide)

end ClassCatalog.StackMap
