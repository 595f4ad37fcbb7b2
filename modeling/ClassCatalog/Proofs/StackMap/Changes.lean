import ClassCatalog.Proofs.StackMap.Codec
import ClassCatalog.Proofs.StackMap.Shift

/-! Tables through many changes.

A table that was read goes through edits of the code and full frames that are added, in any order. What the
forms of frames can hold they hold after every change (`Changed.wellFormed`), since an edit that goes through
leaves the short forms in time and a frame that is added has a delta of two bytes. So the table can be written
and read back at any point, and its frames stand one behind the other (`changed_exact`). -/
namespace ClassCatalog.StackMap

/-- A change of a table: the code has been edited, or a full frame is to stand behind all others. -/
inductive Change where
  | edit (e : Edit)
  | addFull (offset : Nat) (locals stack : List VerificationType)
deriving DecidableEq, Repr

namespace Change

/-- What a change leaves. -/
def perform : Change → Table → Edited Table
  | edit e, t => e.apply t
  | addFull offset locals stack, t =>
    match t.addFull offset locals stack with
    | .ok t' => ⟨t', true, none⟩
    | .error cause => ⟨t, false, some cause⟩

/-- Whether the types of an added frame can be counted in two bytes. -/
def Fits : Change → Prop
  | edit _ => True
  | addFull _ locals stack => locals.length ≤ 65535 ∧ stack.length ≤ 65535

instance : DecidablePred Fits := fun c => by
  cases c <;> unfold Fits <;> infer_instance

end Change

/-- The tables that come of one by changes that go through, as long as their frames can be counted. -/
inductive Changed (start : Table) : Table → Prop where
  | refl : Changed start start
  | next {t : Table} (h : Changed start t) (c : Change) (hfits : c.Fits)
      (hpassed : (c.perform t).stopped = none) (hroom : (c.perform t).value.frames.length ≤ 65535) :
      Changed start (c.perform t).value

/-- The delta that a frame at `offset` needs behind the last frame. -/
def Table.neededDelta (t : Table) (offset : Nat) : Nat :=
  match t.offsets.getLast? with
  | none => offset
  | some last => offset - last - 1

variable {e : Edit} {f g : Frame} {t t' start : Table} {frames : List Frame} {last : Option Nat} {x offset : Nat}
  {locals stack : List VerificationType} {anyMoved : Bool}

/-! ### Where frames stand -/

theorem offsetsFrom_pairwise (last : Option Nat) (frames : List Frame) :
    (Table.offsetsFrom last frames).Pairwise (· < ·) := by
  induction frames generalizing last with
  | nil => cases last <;> exact .nil
  | cons f rest ih =>
    rw [offsetsFrom_cons]
    exact .cons (fun _ h => lt_of_mem_offsetsFrom h) (ih _)

/-- A frame takes the offsets on by 65536 at most. -/
theorem lt_of_mem_offsets (h : x ∈ Table.offsetsFrom last frames) :
    x < (last.map (· + 1)).getD 0 + 65536 * frames.length := by
  induction frames generalizing last with
  | nil => cases last <;> cases h
  | cons f rest ih =>
    have hhere : standsAt last f < (last.map (· + 1)).getD 0 + 65536 := by
      have hdelta := f.delta.toNat_lt
      cases last with
      | none =>
        show f.delta.toNat < 0 + 65536
        omega
      | some last =>
        show last + f.delta.toNat + 1 < last + 1 + 65536
        omega
    rw [offsetsFrom_cons, List.mem_cons] at h
    rw [List.length_cons, Nat.mul_add_one]
    rcases h with rfl | h
    · exact Nat.lt_of_lt_of_le hhere (Nat.add_le_add_left (Nat.le_add_left _ _) _)
    · have hrest : x < standsAt last f + 1 + 65536 * rest.length := ih h
      omega

theorem offsetsFrom_concat (last : Option Nat) (frames : List Frame) (f : Frame) :
    Table.offsetsFrom last (frames ++ [f]) = Table.offsetsFrom last frames ++
      [standsAt ((Table.offsetsFrom last frames).getLast? <|> last) f] := by
  induction frames generalizing last with
  | nil => cases last <;> rfl
  | cons g rest ih =>
    rw [List.cons_append, offsetsFrom_cons, offsetsFrom_cons, ih, List.cons_append, List.getLast?_cons]
    cases (Table.offsetsFrom (some (standsAt last g)) rest).getLast? <;> rfl

/-! ### One change -/

/-- An edited frame still holds what its form can hold. -/
theorem Carried.wellFormed (h : Carried e f g) (hf : f.WellFormed) : g.WellFormed := by
  cases h with
  | @same d d' ext | @sameOne d d' _ _ ext =>
    intro hlarge
    by_cases hd : d' = d
    · subst hd
      rw [flagAfter_self]
      exact hf hlarge
    · have hlarge : 63 < d' := hlarge
      simp [flagAfter, hd, hlarge]
  | chop => exact hf
  | append hls => exact ⟨hls.length_eq ▸ hf.1, hls.length_eq ▸ hf.2⟩
  | full hls hss => exact ⟨hls.length_eq ▸ hf.1, hss.length_eq ▸ hf.2⟩

theorem carried_of_apply (h : e.apply t = ⟨t', anyMoved, none⟩) :
    List.Forall₂ (Carried e) t.frames t'.frames := by
  rcases Nat.eq_zero_or_pos e.count with hcount | hcount
  · simp only [Edit.apply, hcount, if_true] at h
    cases h
    exact List.forall₂_same.mpr fun f _ => carried_of_count_zero hcount f
  · exact (of_apply hcount h).1

theorem wellFormed_of_carried {gs : List Frame} (h : List.Forall₂ (Carried e) frames gs)
    (hframes : ∀ f ∈ frames, f.WellFormed) : ∀ g ∈ gs, g.WellFormed := by
  induction h with
  | nil => exact hframes
  | cons hfg _ ih =>
    rw [List.forall_mem_cons] at hframes ⊢
    exact ⟨hfg.wellFormed hframes.1, ih hframes.2⟩

theorem Table.WellFormed.edited (ht : t.WellFormed) (h : e.apply t = ⟨t', anyMoved, none⟩) : t'.WellFormed :=
  have hcarried := carried_of_apply h
  ⟨hcarried.length_eq ▸ ht.count, wellFormed_of_carried hcarried ht.frames⟩

/-! ### Adding a frame -/

theorem neededDelta_of_none (h : t.offsets.getLast? = none) : t.neededDelta offset = offset := by
  rw [Table.neededDelta, h]

theorem neededDelta_of_some (h : t.offsets.getLast? = some x) : t.neededDelta offset = offset - x - 1 := by
  rw [Table.neededDelta, h]

/-- The conditions of adding a frame. -/
structure Table.Admits (t : Table) (offset : Nat) : Prop where
  behind : ∀ x, t.offsets.getLast? = some x → x < offset
  small : t.neededDelta offset ≤ 65535

theorem exists_of_not_behind (h : ¬ ∀ x, t.offsets.getLast? = some x → x < offset) :
    ∃ x, t.offsets.getLast? = some x ∧ offset ≤ x := by
  obtain ⟨x, hx⟩ := not_forall.mp h
  obtain ⟨hlast, hle⟩ := Classical.not_imp.mp hx
  exact ⟨x, hlast, Nat.not_lt.mp hle⟩

theorem not_admits_iff :
    ¬ t.Admits offset ↔
      (∃ x, t.offsets.getLast? = some x ∧ offset ≤ x) ∨ 65535 < t.neededDelta offset := by
  constructor
  · intro h
    by_cases hlarge : 65535 < t.neededDelta offset
    · exact .inr hlarge
    · exact .inl (exists_of_not_behind fun hbehind => h ⟨hbehind, Nat.not_lt.mp hlarge⟩)
  · rintro (⟨x, hlast, hx⟩ | hlarge) h
    · exact absurd (h.behind x hlast) (Nat.not_lt.mpr hx)
    · exact absurd h.small (Nat.not_le.mpr hlarge)

theorem deltaOf_eq_ok (h : ∀ x, t.offsets.getLast? = some x → x < offset) :
    t.deltaOf offset = .ok (t.neededDelta offset) := by
  unfold Table.deltaOf
  split
  next hlast => rw [neededDelta_of_none hlast]
  next x hlast => rw [if_pos (h x hlast), neededDelta_of_some hlast]

theorem addFull_eq_ok (h : t.Admits offset) (locals stack : List VerificationType) :
    t.addFull offset locals stack =
      .ok ⟨t.frames ++ [.full (UInt16.ofNat (t.neededDelta offset)) locals stack]⟩ := by
  have hsmall := h.small
  simp only [Table.addFull, deltaOf_eq_ok h.behind, show t.neededDelta offset < 65536 by omega, if_true]

theorem addFull_eq_error (h : ¬ t.Admits offset) (locals stack : List VerificationType) :
    ∃ cause, t.addFull offset locals stack = .error cause := by
  unfold Table.addFull
  by_cases hbehind : ∀ x, t.offsets.getLast? = some x → x < offset
  · have hlarge : ¬ t.neededDelta offset < 65536 := fun hlt => h ⟨hbehind, by omega⟩
    simp only [deltaOf_eq_ok hbehind, hlarge, if_false]
    exact ⟨_, rfl⟩
  · obtain ⟨x, hlast, hle⟩ := exists_of_not_behind hbehind
    rw [Table.deltaOf, hlast]
    simp only [if_neg (Nat.not_lt.mpr hle)]
    exact ⟨_, rfl⟩

/-- A frame with the delta it needs stands where it is to stand. -/
theorem Table.Admits.offsets (h : t.Admits offset) :
    (Table.mk (t.frames ++ [.full (UInt16.ofNat (t.neededDelta offset)) locals stack])).offsets =
      t.offsets ++ [offset] := by
  have hsmall := h.small
  have hdelta : (UInt16.ofNat (t.neededDelta offset)).toNat = t.neededDelta offset :=
    UInt16.toNat_ofNat_of_lt' (by simp only [UInt16.size]; omega)
  have hplace : standsAt (t.offsets.getLast? <|> none)
      (.full (UInt16.ofNat (t.neededDelta offset)) locals stack) = offset := by
    cases hlast : t.offsets.getLast? with
    | none => exact hdelta.trans (neededDelta_of_none hlast)
    | some x =>
      have hx : x < offset := h.behind x hlast
      show x + (UInt16.ofNat (t.neededDelta offset)).toNat + 1 = offset
      rw [hdelta, neededDelta_of_some hlast]
      omega
  rw [Table.offsets, offsetsFrom_concat]
  exact congrArg (t.offsets ++ [·]) hplace

/-! ### Any number of changes -/

theorem Table.WellFormed.changed {c : Change} (ht : t.WellFormed) (hfits : c.Fits)
    (hpassed : (c.perform t).stopped = none) (hroom : (c.perform t).value.frames.length ≤ 65535) :
    (c.perform t).value.WellFormed := by
  cases c with
  | edit e =>
    rcases happlied : e.apply t with ⟨t', anyMoved, stopped⟩
    rw [Change.perform, happlied] at hpassed ⊢
    cases hpassed
    exact ht.edited happlied
  | addFull offset locals stack =>
    by_cases h : t.Admits offset
    · rw [Change.perform, addFull_eq_ok h] at hroom ⊢
      refine ⟨hroom, fun f hf => ?_⟩
      rcases List.mem_append.mp hf with hold | hnew
      · exact ht.frames f hold
      · rw [List.mem_singleton.mp hnew]
        exact hfits
    · obtain ⟨cause, herror⟩ := addFull_eq_error h locals stack
      rw [Change.perform, herror] at hpassed
      cases hpassed

theorem Changed.wellFormed (h : Changed start t) (hstart : start.WellFormed) : t.WellFormed := by
  induction h with
  | refl => exact hstart
  | next _ c hfits hpassed hroom ih => exact ih.changed hfits hpassed hroom

theorem Table.WellFormed.lt_of_mem (ht : t.WellFormed) (hx : x ∈ t.offsets) : x < 4294967296 := by
  have hlt : x < 0 + 65536 * t.frames.length := lt_of_mem_offsets hx
  have hmax : 65536 * t.frames.length ≤ 65536 * 65535 := Nat.mul_le_mul_left _ ht.count
  omega

/-- **Tables through changes.** Whatever table has been read, and whatever edits and added frames it has gone
through since: it is what is read of its bytes again, its frames stand one behind the other below 2³², and one
more full frame either goes behind the others, which stay as they are, or changes nothing. It cannot be added
just when a frame stands as far on already or when its delta would outgrow two bytes. -/
theorem changed_exact {className : String} {bytes : List UInt8}
    (hread : Table.decode className bytes = .ok start) (h : Changed start t) :
    (∀ name, Table.decode name t.encode = .ok t) ∧
      t.offsets.Pairwise (· < ·) ∧
      (∀ x ∈ t.offsets, x < 4294967296) ∧
      ∀ offset locals stack,
        let added := (Change.addFull offset locals stack).perform t
        (added.stopped.isSome ↔
          (∃ last, t.offsets.getLast? = some last ∧ offset ≤ last) ∨ 65535 < t.neededDelta offset) ∧
        (added.stopped.isSome → added.value = t) ∧
        (added.stopped = none → ∃ delta,
          added.value.frames = t.frames ++ [.full delta locals stack] ∧
            added.value.offsets = t.offsets ++ [offset]) := by
  have ht : t.WellFormed := h.wellFormed (Table.decode_eq_ok_iff.mp hread).1
  refine ⟨fun name => Table.decode_eq_ok_iff.mpr ⟨ht, List.prefix_rfl⟩, offsetsFrom_pairwise none t.frames,
    fun x hx => ht.lt_of_mem hx, fun offset locals stack => ?_⟩
  rw [← not_admits_iff]
  by_cases hadmits : t.Admits offset
  · rw [Change.perform, addFull_eq_ok hadmits]
    exact ⟨by simpa using hadmits, nofun, fun _ => ⟨_, rfl, hadmits.offsets⟩⟩
  · obtain ⟨cause, herror⟩ := addFull_eq_error hadmits locals stack
    rw [Change.perform, herror]
    exact ⟨by simpa using hadmits, fun _ => rfl, nofun⟩

/-- A short frame at 5 moves to 105, where it is an extended one, and a full frame goes behind it at 200. -/
theorem changed_exact_extended :
    let start : Table := ⟨[.same 5 false]⟩
    let grown : Table := ⟨[.same 105 true, .full 94 [.integer] []]⟩
    Table.decode "A" [0, 1, 5] = .ok start ∧ Changed start grown ∧ grown.offsets = [105, 200] ∧
      Table.decode "A" grown.encode = .ok grown := by
  intro start grown
  have hread : Table.decode "A" [0, 1, 5] = .ok start := by decide
  have hmoved : Changed start ⟨[.same 105 true]⟩ :=
    .next .refl (.edit ⟨2, 100, .insert, false⟩) trivial (by decide) (by decide)
  have hgrown : Changed start grown := .next hmoved (.addFull 200 [.integer] []) (by decide) (by decide) (by decide)
  exact ⟨hread, hgrown, by decide, (changed_exact hread hgrown).1 "A"⟩

end ClassCatalog.StackMap
