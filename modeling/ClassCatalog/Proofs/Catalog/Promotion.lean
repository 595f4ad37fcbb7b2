import ClassCatalog.Proofs.Catalog.Links
import ClassCatalog.Proofs.Catalog.Distinct
import ClassCatalog.Proofs.Catalog.Tidy

/-! Classes in the places of placeholders.

When what fits is a placeholder and a class is answered all the same, the class has taken the place of the
placeholder or, if it was registered before, has made the placeholder go. `lookup_promotes` says what becomes of
everything that was on the placeholder; it is handed over in both cases and nothing else in the group moves
(`Promotes`). How the placeholder came to fit makes no difference, since finding it changes no notes
(`Fits.notes?`). -/
namespace ClassCatalog

namespace Notes

def none : Notes := ⟨false, false, []⟩

/-- All that is in either, in order, and nothing twice unless it was twice in one. -/
def join (n m : Notes) : Notes where
  roots := n.roots || m.roots
  markers := n.markers || m.markers
  subclasses := n.subclasses ++ m.subclasses.filter (· ∉ n.subclasses)

end Notes

namespace LoadedClass

theorem foldl_addOnce {more : List ClassId} (h : more.Nodup) (ids : List ClassId) :
    more.foldl addOnce ids = ids ++ more.filter (· ∉ ids) := by
  induction more generalizing ids with
  | nil => exact (List.append_nil ids).symm
  | cons id rest ih =>
    obtain ⟨hid, hrest⟩ := List.nodup_cons.mp h
    rw [List.foldl_cons, ih hrest]
    by_cases hmem : id ∈ ids
    · rw [addOnce, if_pos (List.contains_iff_mem.mpr hmem), List.filter_cons_of_neg (by simpa using hmem)]
    · rw [addOnce, if_neg fun h => hmem (List.contains_iff_mem.mp h), List.filter_cons_of_pos (by simpa using hmem),
        List.append_assoc, List.singleton_append]
      -- What follows in the list is not `id` once more.
      have hsame : rest.filter (· ∉ ids ++ [id]) = rest.filter (· ∉ ids) := by
        refine List.filter_congr fun x hx => ?_
        have hne : x ≠ id := fun h => hid (h ▸ hx)
        simp [hne]
      rw [hsame]

theorem notes_adopt (k : LoadedClass) {x : Placeholder} (hx : x.subclasses.Nodup) :
    (k.adopt x.allRoots x.allMarkers x.subclasses).notes = k.notes.join x.notes := by
  unfold notes adopt Notes.join Placeholder.notes
  rw [foldl_addOnce hx]

end LoadedClass

namespace Catalog
open ClassCatalog.Action

/-- What was noted on a class, if it was there. -/
def noted (c : Catalog) (id : ClassId) : Notes := (c.population.notes? (.loaded id)).getD .none

/-- From `c` to `d` the class `id` has got everything of the placeholder `p` of `name`: its notes, its
subclasses and its place, unless the class has a place of its own. -/
structure Promotes (c : Catalog) (name : String) (p : Nat) (id : ClassId) (d : Catalog) : Prop where
  notes : ∃ n, c.population.notes? (.placeholder p) = some n ∧ d.noted id = (c.noted id).join n
  once : (d.noted id).subclasses.Nodup
  /-- Nothing is left to be handed over a second time. -/
  spent : ∃ n, d.population.notes? (.placeholder p) = some n ∧ n.subclasses = []
  place : ∃ front back, c.group name = front ++ .placeholder p :: back ∧
    d.group name = front ++ if Entry.loaded id ∈ c.group name then back else .loaded id :: back
  gone : ∀ other, Entry.placeholder p ∉ d.group other
  others : ∀ other, other ≠ name → d.group other = c.group other
  /-- Its subclasses that had no super class are linked to it, and no others. -/
  linked : ∀ sub k, d.population.class? sub = some k →
    k.superClass = if sub ∈ (d.noted id).subclasses ∧ c.superOf? sub = none ∧ k.record.superName = some name
      then some id else c.superOf? sub

variable {o : Outside} {name : String} {loader : LoaderId} {p : Nat} {id sub : ClassId} {k : LoadedClass}
  {x : Placeholder} {known : Bool} {front back : List Entry} {s t : Scene Catalog} {c d : Catalog}

/-! ### In the catalog -/

theorem placed_split (hfront : Entry.placeholder p ∉ front) (hback : Entry.placeholder p ∉ back) :
    placed p id known (front ++ .placeholder p :: back) =
      front ++ if known then back else .loaded id :: back := by
  have hkept : ∀ {l : List Entry}, Entry.placeholder p ∉ l → l.filter (· ≠ .placeholder p) = l := fun hl =>
    List.filter_eq_self.mpr fun e he => decide_eq_true fun h => hl (h ▸ he)
  have hsame : ∀ {l : List Entry}, Entry.placeholder p ∉ l → replaceEntry (.placeholder p) (.loaded id) l = l := by
    intro l hl
    refine (List.map_congr_left fun e he => if_neg fun h => hl ?_).trans (List.map_id l)
    rwa [← h]
  unfold placed
  cases known with
  | true =>
    simp only [if_true, List.filter_append, hkept hfront, List.filter_cons, hkept hback]
    simp
  | false =>
    have hmap : replaceEntry (.placeholder p) (.loaded id) (front ++ .placeholder p :: back) =
        replaceEntry (.placeholder p) (.loaded id) front ++
          .loaded id :: replaceEntry (.placeholder p) (.loaded id) back := by
      simp [replaceEntry]
    simp only [Bool.false_eq_true, if_false, hmap, hsame hfront, hsame hback]

/-- The subclasses of a class that had no super class and call theirs by its name are linked to it. -/
theorem superClass_linkSubclasses {s : LoadedClass} (hk : c.population.class? id = some k)
    (h : (c.linkSubclasses id).population.class? sub = some s) :
    s.superClass = if sub ∈ k.subclasses ∧ c.superOf? sub = none ∧ s.record.superName = some k.name
      then some id else c.superOf? sub := by
  rw [class?_linkSubclasses hk] at h
  have hsuper : ∀ k₀, c.population.class? sub = some k₀ → c.superOf? sub = k₀.superClass :=
    fun k₀ hk₀ => congrArg (Option.bind · LoadedClass.superClass) hk₀
  split at h
  · rename_i hsub
    obtain ⟨k₀, hk₀, rfl⟩ := Option.map_eq_some_iff.mp h
    rw [hsuper k₀ hk₀]
    unfold awaits
    by_cases hnone : k₀.superClass = none <;> by_cases hname : k₀.record.superName = some k.name <;>
      simp [hsub, hnone, hname]
  · rename_i hsub
    rw [if_neg fun hall => hsub hall.1, hsuper s h]

theorem notes?_linkSubclasses (c : Catalog) (id : ClassId) :
    Same (fun c : Catalog => c.population.notes?) c (c.linkSubclasses id) := by
  refine linkSubclasses_of_link c id fun d sub name => funext fun e => ?_
  dsimp only
  rw [population_modifyClass, Population.notes?_modifyClass]
  split
  · rename_i he
    subst he
    refine Option.map_congr fun k _ => ?_
    split <;> rfl
  · rfl

theorem notes?_promote (c : Catalog) (name : String) (p : Nat) (id : ClassId) (known : Bool) :
    (c.promote name p id known).population.notes? = (c.transfer p id).population.notes? := by
  rw [promote_eq]
  exact notes?_linkSubclasses _ id

theorem class?_transfer_self (hx : c.population.placeholder? p = some x) (hk : c.population.class? id = some k) :
    (c.transfer p id).population.class? id = some (k.adopt x.allRoots x.allMarkers x.subclasses) := by
  rw [class?_transfer hx, if_pos rfl, hk]
  rfl

theorem noted_eq (hk : c.population.class? id = some k) : c.noted id = k.notes :=
  congrArg (fun k => (Option.map LoadedClass.notes k).getD .none) hk

/-- The class has the notes of the placeholder besides its own. -/
theorem noted_promote (hx : c.population.placeholder? p = some x) (hk : c.population.class? id = some k) :
    (c.promote name p id known).noted id = (k.adopt x.allRoots x.allMarkers x.subclasses).notes := by
  unfold noted
  rw [notes?_promote]
  exact noted_eq (class?_transfer_self hx hk)

/-- The placeholder has no subclasses any more. -/
theorem notes?_promote_placeholder (hx : c.population.placeholder? p = some x) :
    (c.promote name p id known).population.notes? (.placeholder p) =
      some { x.notes with subclasses := [] } := by
  rw [notes?_promote]
  unfold transfer
  rw [hx]
  show (c.population.modifyPlaceholder p _).notes? (.placeholder p) = _
  rw [Population.notes?_modifyPlaceholder, if_pos rfl, hx]
  rfl

theorem superClass_promote {s : LoadedClass} (hx : c.population.placeholder? p = some x)
    (hk : c.population.class? id = some k)
    (h : (c.promote name p id known).population.class? sub = some s) :
    s.superClass = if sub ∈ ((c.promote name p id known).noted id).subclasses ∧ c.superOf? sub = none ∧
        s.record.superName = some k.name then some id else c.superOf? sub := by
  rw [noted_promote hx hk]
  rw [promote_eq] at h
  generalize hd : (c.transfer p id).setGroup name (placed p id known (c.group name)) = d at h
  have hpopulation : d.population = (c.transfer p id).population := by rw [← hd]; rfl
  have hsuper : d.superOf? sub = c.superOf? sub := by
    rw [← superOf?_transfer c p id sub, superOf?, superOf?, hpopulation]
  have hclass := class?_transfer_self hx hk
  rw [← hpopulation] at hclass
  rw [superClass_linkSubclasses hclass h, hsuper]
  rfl

theorem group_promote_split (hgroup : c.group name = front ++ .placeholder p :: back)
    (hnodup : (c.group name).Nodup) :
    (c.promote name p id known).group name = front ++ if known then back else .loaded id :: back := by
  rw [hgroup] at hnodup
  obtain ⟨_, hrest, hapart⟩ := List.nodup_append.mp hnodup
  have hfront : Entry.placeholder p ∉ front := fun h => hapart _ h _ (List.mem_cons_self ..) rfl
  rw [group_promote, if_pos rfl, hgroup, placed_split hfront (List.nodup_cons.mp hrest).1]

/-- In a group of its name a class gets everything from the placeholder. -/
theorem promote_promotes (hnamed : c.Named) (hdistinct : c.Distinct) (htidy : c.Tidy)
    (hp : Entry.placeholder p ∈ c.group name) (hk : c.population.class? id = some k) (hname : k.name = name)
    (hknown : known = true ↔ Entry.loaded id ∈ c.group name) :
    Promotes c name p id (c.promote name p id known) := by
  have hpname := hnamed name _ hp
  obtain ⟨x, hx, _⟩ := Option.map_eq_some_iff.mp hpname
  have hnotes : c.population.notes? (.placeholder p) = some x.notes :=
    congrArg (Option.map Placeholder.notes) hx
  have hclass : c.population.notes? (.loaded id) = some k.notes := congrArg (Option.map LoadedClass.notes) hk
  exact {
    notes := by
      refine ⟨x.notes, hnotes, ?_⟩
      rw [noted_promote hx hk, noted_eq hk]
      exact k.notes_adopt (htidy _ _ hnotes)
    once := by
      rw [noted_promote hx hk]
      exact LoadedClass.foldl_addOnce_nodup (htidy _ _ hclass) _
    spent := ⟨_, notes?_promote_placeholder hx, rfl⟩
    place := by
      obtain ⟨front, back, hgroup⟩ := List.append_of_mem hp
      refine ⟨front, back, hgroup, ?_⟩
      rw [group_promote_split hgroup ((hdistinct name).imp Apart.ne)]
      simp only [hknown]
    gone := fun other hmem => by
      rw [group_promote] at hmem
      split at hmem
      · rcases of_mem_placed hmem with ⟨_, hne⟩ | ⟨heq, _⟩
        · exact hne rfl
        · cases heq
      · rename_i hne
        -- The placeholder has one name and is in no other group.
        exact hne (Option.some.inj (hpname.symm.trans (hnamed other _ hmem)))
    others := fun other hne => by rw [group_promote, if_neg (Ne.symm hne)]
    linked := fun sub s hs => by
      rw [superClass_promote hx hk hs, hname] }

/-! ### When a class is registered -/

/-- Only the groups, the notes and the links that there were before count. -/
theorem Promotes.of_alike {b : Catalog} (h : Promotes c name p id d) (hgroup : ∀ other, c.group other = b.group other)
    (hplaceholder : c.population.notes? (.placeholder p) = b.population.notes? (.placeholder p))
    (hclass : c.noted id = b.noted id) (hsuper : ∀ sub, c.superOf? sub = b.superOf? sub) :
    Promotes b name p id d where
  notes := by
    rw [← hplaceholder, ← hclass]
    exact h.notes
  once := h.once
  spent := h.spent
  place := by
    rw [← hgroup]
    exact h.place
  gone := h.gone
  others other hne := (h.others other hne).trans (hgroup other)
  linked sub k hk := by
    rw [← hsuper]
    exact h.linked sub k hk

theorem enroll_promotes {l : LoaderId} (hnamed : c.Named) (hdistinct : c.Distinct) (htidy : c.Tidy)
    (hk : Fresh name l k) (hp : Entry.placeholder p ∈ c.group name) :
    Promotes c name p (c.enroll name (some p) k).1 (c.enroll name (some p) k).2 := by
  cases hknown : c.registered? name k with
  | some id =>
    have hmem := (registered?_eq_some hknown).1
    obtain ⟨k₀, hk₀, hname⟩ := Option.map_eq_some_iff.mp (hnamed name _ hmem)
    rw [enroll_of_registered hknown]
    exact promote_promotes hnamed hdistinct htidy hp hk₀ hname (iff_of_true rfl hmem)
  | none =>
    rw [enroll_of_unregistered hknown]
    have hlinked := newClass_linked c k
    obtain ⟨r, location, rfl, hname⟩ := hk
    have hfresh : c.population.class? (c.newClass (.new r l location)).1 = none :=
      Array.getElem?_eq_none (Nat.le_refl _)
    have hnotmem : Entry.loaded (c.newClass (.new r l location)).1 ∉ c.group name := by
      intro hmem
      obtain ⟨k₀, hk₀, _⟩ := Option.map_eq_some_iff.mp (hnamed name _ hmem)
      cases hfresh.symm.trans hk₀
    rw [← hlinked.group] at hp hnotmem
    have hpromotes := promote_promotes ((Evolves.of_linked hlinked).of_named hnamed).1
      (hdistinct.of_linked hlinked hnamed) (Tidies.newClass List.nodup_nil htidy) hp
      (class?_newClass c (.new r l location)) hname (iff_of_false Bool.false_ne_true hnotmem)
    refine hpromotes.of_alike hlinked.group rfl ?_ (superOf?_newClass rfl)
    rw [noted_eq (class?_newClass c _)]
    exact (congrArg (fun k => (Option.map LoadedClass.notes k).getD .none) hfresh).symm

/-! ### When a class is looked up -/

/-- **A promotion hands over everything, once.** If the entry that fits is a placeholder and a lookup answers a
class, the class has what was noted on the placeholder besides its own notes, no subclass twice; it stands in the
place of the placeholder if it had none in the group and nothing else has moved; and its subclasses that had no super
class are linked to it if they call theirs by that name. -/
theorem lookup_promotes (hs : Used s)
    (hfit : ((lookupRegistered o name loader true).start s).1 = .ok (some (.placeholder p)))
    (h : (lookup o name loader).start s = (.ok (some id), t)) :
    Promotes s.state (Name.canonical name) p id t.state := by
  rcases lookupCanonical_cases h with ⟨_, hfound, _⟩ | ⟨hne, _⟩ | ⟨placeholder, u, hfound, hload⟩
  · cases (congrArg Prod.fst hfound).symm.trans hfit
  · exact absurd rfl (hne id)
  · obtain rfl : placeholder = some p := by
      have heq := Except.ok.inj ((congrArg Prod.fst hfound).symm.trans hfit)
      cases placeholder with
      | none => cases heq
      | some q => exact congrArg some (Entry.placeholder.inj (Option.some.inj heq))
    rcases loadAndEnroll_cases hload with ⟨hne, _⟩ | ⟨v, k, l, hquiet, hk, _, hid, ht⟩
    · exact absurd rfl (hne id)
    · have hfits := fits_of_findFitting hfound
      have hsteps : Steps s.state v :=
        ((findFitting_steps o _ _ true).of_start hfound).tail (.quiet hquiet)
      have hnotes : ∀ e, v.population.notes? e = s.state.population.notes? e := fun e => by
        rw [hquiet.population, hfits.notes?]
      have hgroup : ∀ other, v.group other = s.state.group other := fun other =>
        (hquiet.group other).trans (hfits.group other)
      have hclasses : v.population.classes = s.state.population.classes := by
        rw [hquiet.population, hfits.classes]
      have hp : Entry.placeholder p ∈ v.group (Name.canonical name) := by
        rw [hgroup]
        exact hfits.mem
      have hpromotes := enroll_promotes (hsteps.evolves.of_named hs.named).1 (hsteps.distinct hs.named hs.distinct)
        (Tidies.of_notes? hnotes hs.tidy) hk.fresh hp
      cases hid
      rw [ht]
      refine hpromotes.of_alike hgroup (hnotes _) ?_ (superOf?_eq_of_classes hclasses)
      unfold noted
      rw [hnotes]

/-- `S` at 1 has been linked as far as possible; the placeholder for its super class `B` has more noted on it, and
the bytes of `B` are at 2. -/
def awaited : Scene Catalog :=
  after ([.addSupplied "S" 1 subFile, .lookup "S" 1, .resolveHierarchy 0, .setRoots 0,
    .addSupplied "B" 2 superFile].map fun r => (sampleOutside Loader.none, r)) chain

theorem lookup_promotes_awaited :
    let result := (lookup (sampleOutside Loader.none) "B" 2).start awaited
    result.1 = .ok (some 1) ∧ Promotes awaited.state (Name.canonical "B") 0 1 result.2.state ∧
      awaited.state.group "B" = [.placeholder 0] ∧ result.2.state.group "B" = [.loaded 1] ∧
      result.2.state.noted 1 = ⟨true, false, [0]⟩ ∧ result.2.state.superOf? 0 = some 1 := by
  intro result
  have hfit : ((lookupRegistered (sampleOutside Loader.none) "B" 2 true).start awaited).1 =
      .ok (some (.placeholder 0)) := by decide +kernel
  have hanswer : result.1 = .ok (some 1) := by decide +kernel
  have hs : Used awaited := ((Used.opening sampleConfig).after _).after _
  exact ⟨hanswer, lookup_promotes hs hfit (Prod.ext hanswer rfl), by decide +kernel⟩

end Catalog
end ClassCatalog
