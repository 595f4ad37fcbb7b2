import ClassCatalog.Proofs.Catalog.Delegation
import ClassCatalog.Proofs.Catalog.Evolution

/-! Links to super classes.

A class is linked to its super class in two ways (`Step.of_superOf?`), and either way the super class notes it as
a subclass. Its own loader finds the super class (`Finds`), and then it is visible to it. Or the super class takes
the place of a placeholder that remembers the subclass, and is linked at once (`Adopts`): it is visible then to the
loader that asked for it, which may be any loader the placeholder fits. `superClass_visible_or_adopted`
traces each link of a session to the request that made it, and `not_superClass_visible` is a session in which
a class is linked to a super class of its name at a loader below its own. -/
namespace ClassCatalog.Catalog
open ClassCatalog.Action

/-- The super class that a class is linked to. -/
def superOf? (c : Catalog) (id : ClassId) : Option ClassId :=
  (c.population.class? id).bind LoadedClass.superClass

/-- `sub` is noted on `e` as a subclass. -/
def Expects (c : Catalog) (e : Entry) (sub : ClassId) : Prop :=
  ∃ n, c.population.notes? e = some n ∧ sub ∈ n.subclasses

/-- The loader of `sub` finds `sup` under the name of its super class. -/
def Finds (c : Catalog) (sub sup : ClassId) : Prop :=
  ∃ k superName, c.population.class? sub = some k ∧ k.record.superName = some superName ∧
    Entry.loaded sup ∈ c.group (Name.canonical superName) ∧
    c.Reaches (Name.canonical superName) (Loader.normalize k.loader) (.loaded sup)

/-- From `a` to `b` the class `sup`, found for `loader`, has taken the place of the placeholder `p` and with
it the subclass `sub`, which had no super class before. -/
structure Adopts (a b : Catalog) (name : String) (loader : LoaderId) (p : Nat) (sub sup : ClassId) : Prop where
  step : Step a b
  mem : Entry.placeholder p ∈ a.group name
  fits : a.Reaches name loader (.placeholder p)
  place : ∃ known, b.group name = placed p sup known (a.group name)
  answers : Entry.loaded sup ∈ b.group name
  reaches : b.Reaches name loader (.loaded sup)
  noted : a.Expects (.placeholder p) sub ∨ a.Expects (.loaded sup) sub
  unlinked : a.superOf? sub = none
  named : ∃ k s, b.population.class? sup = some k ∧ b.population.class? sub = some s ∧
    s.record.superName = some k.name

variable {a b c d : Catalog} {name : String} {loader : LoaderId} {placeholder : Option Nat} {p : Nat}
  {id sub sup : ClassId} {k : LoadedClass} {known : Bool} {s : Scene Catalog}
  {requests : List (Outside × Request)}

/-! ### What changes links -/

theorem superOf?_eq_of_classes (h : d.population.classes = c.population.classes) (sub : ClassId) :
    d.superOf? sub = c.superOf? sub :=
  congrArg (Option.bind · LoadedClass.superClass) (class?_eq_of_classes h sub)

theorem superOf?_modifyClass (c : Catalog) (id : ClassId) (f : LoadedClass → LoadedClass) (sub : ClassId) :
    (c.modifyClass id f).superOf? sub =
      if id = sub then (c.population.class? sub).bind fun k => (f k).superClass else c.superOf? sub := by
  unfold superOf?
  rw [population_modifyClass, Population.class?_modifyClass]
  split
  · exact Option.bind_map
  · rfl

/-- A change that leaves the super class of one class leaves those of all. -/
theorem superOf?_modifyClass_of_same {f : LoadedClass → LoadedClass}
    (hf : ∀ k, c.population.class? id = some k → (f k).superClass = k.superClass) (sub : ClassId) :
    (c.modifyClass id f).superOf? sub = c.superOf? sub := by
  rw [superOf?_modifyClass]
  split
  · rename_i hid
    subst hid
    exact Option.bind_congr hf
  · rfl

theorem superOf?_transfer (c : Catalog) (p : Nat) (id sub : ClassId) :
    (c.transfer p id).superOf? sub = c.superOf? sub := by
  unfold transfer
  split
  · rfl
  · exact superOf?_modifyClass_of_same (f := fun k => k.adopt _ _ _) (fun _ _ => rfl) sub

theorem superOf?_newClass (hk : k.superClass = none) (sub : ClassId) :
    (c.newClass k).2.superOf? sub = c.superOf? sub := by
  show ((c.population.classes.push k)[sub]?).bind _ = (c.population.classes[sub]?).bind _
  rw [Array.getElem?_push]
  split
  · rename_i hsub
    rw [hsub, Array.getElem?_eq_none (Nat.le_refl _)]
    exact hk
  · rfl

theorem superOf?_register (c : Catalog) (name : String) (e : Entry) (sub : ClassId) :
    (c.register name e).superOf? sub = c.superOf? sub := by
  simp only [superOf?, population_register]

theorem of_superOf?_link {x : ClassId} (h : (c.link sub sup).superOf? x = some id) :
    c.superOf? x = some id ∨ (x = sub ∧ id = sup) := by
  unfold link at h
  rw [superOf?_modifyClass] at h
  split at h
  · rename_i hx
    obtain ⟨k, _, hid⟩ := Option.bind_eq_some_iff.mp h
    exact .inr ⟨hx.symm, (Option.some.inj hid).symm⟩
  · rw [superOf?_modifyClass_of_same (f := fun k => k.addSubclass sub) fun _ _ => rfl] at h
    exact .inl h

/-- A class that another is linked to notes it as a subclass. -/
theorem expects_link (hk : c.population.class? sup = some k) (sub : ClassId) :
    (c.link sub sup).Expects (.loaded sup) sub := by
  have hnoted : (c.modifyClass sup fun k => k.addSubclass sub).population.class? sup = some (k.addSubclass sub) := by
    rw [population_modifyClass, Population.class?_modifyClass, if_pos rfl, hk]
    rfl
  have hlinked : Linked (c.modifyClass sup fun k => k.addSubclass sub) (c.link sub sup) :=
    .modifyClass fun k _ => ⟨rfl, rfl, le_refl k.notes⟩
  obtain ⟨k', hk', hgrows⟩ := hlinked.steady.classes sup _ hnoted
  exact ⟨k'.notes, congrArg (Option.map LoadedClass.notes) hk',
    hgrows.notes.2.2 (LoadedClass.mem_addOnce.mpr (.inr rfl))⟩

/-! ### Adopting subclasses -/

/-- Changing the same way all the classes in a list, some of them perhaps more than once. -/
theorem class?_foldl_modifyClass {f : LoadedClass → LoadedClass} (hf : ∀ k, f (f k) = f k) (ids : List ClassId)
    (c : Catalog) (x : ClassId) :
    (ids.foldl (fun c id => c.modifyClass id f) c).population.class? x =
      if x ∈ ids then (c.population.class? x).map f else c.population.class? x := by
  induction ids generalizing c with
  | nil => rfl
  | cons id rest ih =>
    rw [List.foldl_cons, ih, population_modifyClass, Population.class?_modifyClass]
    by_cases hx : id = x
    · have htwice : ((c.population.class? x).map f).map f = (c.population.class? x).map f := by
        rw [Option.map_map]
        exact congrArg (Option.map · _) (funext hf)
      simp [hx, htwice]
    · simp [hx, Ne.symm hx]

theorem class?_linkSubclasses (hk : c.population.class? id = some k) (sub : ClassId) :
    (c.linkSubclasses id).population.class? sub =
      if sub ∈ k.subclasses then
        (c.population.class? sub).map fun s => if awaits s k.name then { s with superClass := some id } else s
      else c.population.class? sub := by
  unfold linkSubclasses
  rw [hk]
  refine class?_foldl_modifyClass (fun s => ?_) k.subclasses c sub
  -- A class that has been linked awaits no super class any more.
  split <;> rfl

/-- A class is linked to its subclasses that had no super class and call theirs by its name. -/
theorem of_superOf?_linkSubclasses (h : (c.linkSubclasses id).superOf? sub = some sup) :
    c.superOf? sub = some sup ∨ (sup = id ∧ c.superOf? sub = none ∧
      ∃ k s, c.population.class? id = some k ∧ sub ∈ k.subclasses ∧
        c.population.class? sub = some s ∧ s.record.superName = some k.name) := by
  cases hk : c.population.class? id with
  | none =>
    unfold linkSubclasses at h
    rw [hk] at h
    exact .inl h
  | some k =>
    unfold superOf? at h
    rw [class?_linkSubclasses hk] at h
    split at h
    · rename_i hsub
      obtain ⟨s', hs', hsup⟩ := Option.bind_eq_some_iff.mp h
      obtain ⟨s, hs, rfl⟩ := Option.map_eq_some_iff.mp hs'
      have hsuper : c.superOf? sub = s.superClass := congrArg (Option.bind · LoadedClass.superClass) hs
      split at hsup
      · rename_i hawaits
        unfold awaits at hawaits
        rw [Bool.and_eq_true, Option.isNone_iff_eq_none, beq_iff_eq] at hawaits
        exact .inr ⟨(Option.some.inj hsup).symm, hsuper.trans hawaits.1, k, s, rfl, hsub, hs, hawaits.2⟩
      · exact .inl (hsuper.trans hsup)
    · exact .inl h

/-- The subclasses noted on a class are its own and those it has taken over. -/
theorem expects_of_transfer (hk : (c.transfer p id).population.class? id = some k) (hsub : sub ∈ k.subclasses) :
    c.Expects (.placeholder p) sub ∨ c.Expects (.loaded id) sub := by
  cases hx : c.population.placeholder? p with
  | none =>
    unfold transfer at hk
    rw [hx] at hk
    exact .inr ⟨k.notes, congrArg (Option.map LoadedClass.notes) hk, hsub⟩
  | some x =>
    rw [class?_transfer hx, if_pos rfl] at hk
    obtain ⟨k₀, hk₀, rfl⟩ := Option.map_eq_some_iff.mp hk
    rcases LoadedClass.mem_foldl_addOnce.mp hsub with h | h
    · exact .inr ⟨k₀.notes, congrArg (Option.map LoadedClass.notes) hk₀, h⟩
    · exact .inl ⟨x.notes, congrArg (Option.map Placeholder.notes) hx, h⟩

theorem of_superOf?_promote (h : (c.promote name p id known).superOf? sub = some sup) :
    c.superOf? sub = some sup ∨ (sup = id ∧ c.superOf? sub = none ∧
      (c.Expects (.placeholder p) sub ∨ c.Expects (.loaded id) sub) ∧
      ∃ k s, (c.promote name p id known).population.class? id = some k ∧ sub ∈ k.subclasses ∧
        (c.promote name p id known).population.class? sub = some s ∧ s.record.superName = some k.name) := by
  have hlinked := promote_linked c name p id known
  rw [promote_eq] at h
  have hsame : ((c.transfer p id).setGroup name (placed p id known (c.group name))).superOf? sub =
      c.superOf? sub := superOf?_transfer c p id sub
  rcases of_superOf?_linkSubclasses h with h | ⟨hsup, hnone, k, s, hk, hsub, hs, hname⟩
  · exact .inl (hsame.symm.trans h)
  · obtain ⟨k', hk', hgrows⟩ := hlinked.steady.classes id k hk
    obtain ⟨s', hs', hgrows'⟩ := hlinked.steady.classes sub s hs
    refine .inr ⟨hsup, hsame.symm.trans hnone, expects_of_transfer hk hsub, k', s', hk',
      hgrows.notes.2.2 hsub, hs', ?_⟩
    rw [hgrows'.record, hgrows.name, hname]

theorem of_superOf?_seat (h : (c.seat name placeholder id known).superOf? sub = some sup) :
    c.superOf? sub = some sup ∨ ∃ p, placeholder = some p ∧ sup = id ∧ c.superOf? sub = none ∧
      (c.Expects (.placeholder p) sub ∨ c.Expects (.loaded id) sub) ∧
      (c.seat name placeholder id known).group name = placed p id known (c.group name) ∧
      ∃ k s, (c.seat name placeholder id known).population.class? id = some k ∧ sub ∈ k.subclasses ∧
        (c.seat name placeholder id known).population.class? sub = some s ∧
        s.record.superName = some k.name := by
  cases placeholder with
  | none => exact .inl ((superOf?_register c name _ sub).symm.trans h)
  | some p =>
    refine (of_superOf?_promote h).imp_right fun ⟨hsup, hnone, hnoted, hnamed⟩ => ?_
    exact ⟨p, rfl, hsup, hnone, hnoted, (group_promote ..).trans (if_pos rfl), hnamed⟩

/-- A new class has no subclasses of its own. -/
theorem expects_of_newClass {l : LoaderId} (hk : Fresh name l k)
    (h : (c.newClass k).2.Expects (.placeholder p) sub ∨
      (c.newClass k).2.Expects (.loaded (c.newClass k).1) sub) :
    c.Expects (.placeholder p) sub := by
  rcases h with h | ⟨n, hn, hsub⟩
  · exact h
  · obtain ⟨k₀, hk₀, rfl⟩ := Option.map_eq_some_iff.mp hn
    rw [class?_newClass] at hk₀
    obtain ⟨r, location, rfl, _⟩ := hk
    cases hk₀
    cases hsub

/-- Registering a class links nothing but the subclasses that it takes over from a placeholder. -/
theorem of_superOf?_enroll {l : LoaderId} (hk : Fresh name l k)
    (h : (c.enroll name placeholder k).2.superOf? sub = some sup) :
    c.superOf? sub = some sup ∨ ∃ p, placeholder = some p ∧ sup = (c.enroll name placeholder k).1 ∧
      c.superOf? sub = none ∧ (c.Expects (.placeholder p) sub ∨ c.Expects (.loaded sup) sub) ∧
      (∃ known, (c.enroll name placeholder k).2.group name = placed p sup known (c.group name)) ∧
      ∃ k' s, (c.enroll name placeholder k).2.population.class? sup = some k' ∧ sub ∈ k'.subclasses ∧
        (c.enroll name placeholder k).2.population.class? sub = some s ∧ s.record.superName = some k'.name := by
  cases hknown : c.registered? name k with
  | some id =>
    rw [enroll_of_registered hknown] at h ⊢
    refine (of_superOf?_seat h).imp_right fun ⟨p, hp, hsup, hnone, hnoted, hgroup, hnamed⟩ => ?_
    subst hsup
    exact ⟨p, hp, rfl, hnone, hnoted, ⟨true, hgroup⟩, hnamed⟩
  | none =>
    rw [enroll_of_unregistered hknown] at h ⊢
    have hsuper : k.superClass = none := by
      obtain ⟨r, location, rfl, _⟩ := hk
      rfl
    have hsame := superOf?_newClass (c := c) hsuper sub
    refine (of_superOf?_seat h).imp hsame.symm.trans fun ⟨p, hp, hsup, hnone, hnoted, hgroup, hnamed⟩ => ?_
    subst hsup
    have hexpects := expects_of_newClass hk hnoted
    exact ⟨p, hp, rfl, hsame.symm.trans hnone, .inl hexpects, ⟨false, hgroup⟩, hnamed⟩

/-! ### Steps -/

/-- **A link is made** when the loader of the class finds the super class or when the super class takes
the place of a placeholder that remembers the class. -/
theorem Step.of_superOf? (h : Step a b) (hafter : b.superOf? sub = some sup) :
    a.superOf? sub = some sup ∨ b.Expects (.loaded sup) sub ∧
      (a.Finds sub sup ∨ ∃ name loader p, Adopts a b name loader p sub sup) := by
  have hstep := h
  cases h with
  | quiet h => exact .inl ((superOf?_eq_of_classes (by rw [h.population]) sub).symm.trans hafter)
  | fitted h => exact .inl ((superOf?_eq_of_classes h.classes sub).symm.trans hafter)
  | @enrolled name loader l k placeholder hk hl hfound hplace =>
    refine (of_superOf?_enroll hk hafter).imp_right
      fun ⟨p, hp, hsup, hnone, hnoted, hgroup, k', s, hk', hlisted, hs⟩ =>
      ⟨⟨k'.notes, congrArg (Option.map LoadedClass.notes) hk', hlisted⟩, .inr ?_⟩
    subst hp hsup
    obtain ⟨hmem, hfits⟩ := hplace p rfl
    have hanswer := enroll_reaches hk (hfound.imp_right fun h => ⟨h, hl⟩) fun q hq => (hplace q hq).1
    exact ⟨name, loader, p, hstep, hmem, hfits, hgroup, hanswer.1, hanswer.2, hnoted, hnone, k', s, hk', hs⟩
  | expected name loader => exact .inl ((superOf?_eq_of_classes (classes_newPlaceholder ..) sub).symm.trans hafter)
  | special name => exact .inl ((superOf?_eq_of_classes (classes_newSpecial ..) sub).symm.trans hafter)
  | noted p => exact .inl hafter
  | touched id hf =>
    have hsame := superOf?_modifyClass_of_same (fun k hk => (hf k hk).superClass) sub
    exact .inl (hsame.symm.trans hafter)
  | linked hsub hname hmem hreaches =>
    refine (of_superOf?_link hafter).imp_right fun ⟨hx, hid⟩ => ?_
    subst hx hid
    obtain ⟨_, hloader, _⟩ := hreaches.visible
    obtain ⟨_, hk, _⟩ := Option.map_eq_some_iff.mp hloader
    exact ⟨expects_link hk _, .inl ⟨_, _, hsub, hname, hmem, hreaches⟩⟩

/-! ### The loaders of classes -/

theorem class?_transfer_eq_none {x : ClassId} (h : c.population.class? x = none) :
    (c.transfer p id).population.class? x = none := by
  unfold transfer
  split
  · exact h
  · exact class?_modifyClass_eq_none h

theorem class?_linkSubclasses_eq_none {x : ClassId} (h : c.population.class? x = none) :
    (c.linkSubclasses id).population.class? x = none := by
  cases hk : c.population.class? id with
  | none =>
    unfold linkSubclasses
    rw [hk]
    exact h
  | some k => rw [class?_linkSubclasses hk, h, Option.map_none, ite_self]

theorem class?_promote_eq_none {x : ClassId} (h : c.population.class? x = none) :
    (c.promote name p id known).population.class? x = none := by
  rw [promote_eq]
  exact class?_linkSubclasses_eq_none (class?_transfer_eq_none h)

theorem class?_newClass_eq_none {x : ClassId} (hx : x ≠ (c.newClass k).1) (h : c.population.class? x = none) :
    (c.newClass k).2.population.class? x = none := by
  have hx : x ≠ c.population.classes.size := hx
  show (c.population.classes.push k)[x]? = none
  rw [Array.getElem?_push, if_neg hx]
  exact h

theorem class?_seat_eq_none {x : ClassId} (h : c.population.class? x = none) :
    (c.seat name placeholder id known).population.class? x = none := by
  cases placeholder with
  | none =>
    unfold seat
    dsimp only
    rw [population_register]
    exact h
  | some p => exact class?_promote_eq_none h

/-- Registering a class makes no other. -/
theorem class?_enroll_eq_none {x : ClassId} (hx : x ≠ (c.enroll name placeholder k).1)
    (h : c.population.class? x = none) : (c.enroll name placeholder k).2.population.class? x = none := by
  cases hknown : c.registered? name k with
  | some id =>
    rw [enroll_of_registered hknown]
    exact class?_seat_eq_none h
  | none =>
    rw [enroll_of_unregistered hknown] at hx ⊢
    exact class?_seat_eq_none (class?_newClass_eq_none hx h)

/-- A class that is not there is not there after a step, unless it has been loaded for a real loader. -/
theorem Step.class?_eq_none_or (h : Step a b) (hid : a.population.class? id = none) :
    b.population.class? id = none ∨ ∃ l, b.loaderOf (.loaded id) = some l ∧ l ≠ Loader.none := by
  cases h with
  | quiet h =>
    rw [h.population]
    exact .inl hid
  | fitted h => exact .inl ((class?_eq_of_classes h.classes id).trans hid)
  | @enrolled name _ l k placeholder hk hl _ hplace =>
    by_cases hnew : id = (a.enroll name placeholder k).1
    · obtain ⟨c₀, _, hseated, hloader, _⟩ := enroll_seated a k fun p hp => (hplace p hp).1
      rw [hk.loader_eq, ← hnew] at hloader
      exact .inr ⟨l, hseated.population.loaderOf hloader, hl⟩
    · exact .inl (class?_enroll_eq_none hnew hid)
  | expected name loader => exact .inl ((class?_eq_of_classes (classes_newPlaceholder ..) id).trans hid)
  | special name => exact .inl ((class?_eq_of_classes (classes_newSpecial ..) id).trans hid)
  | noted p => exact .inl hid
  | touched i hf => exact .inl (class?_modifyClass_eq_none hid)
  | linked => exact .inl (class?_modifyClass_eq_none (class?_modifyClass_eq_none hid))

/-- No class is at the missing loader. -/
def Located (c : Catalog) : Prop := ∀ id, c.loaderOf (.loaded id) ≠ some Loader.none

theorem Step.located (h : Step a b) (ha : a.Located) : b.Located := by
  intro id hb
  cases hid : a.population.class? id with
  | none =>
    rcases h.class?_eq_none_or hid with hnone | ⟨l, hl, hne⟩
    · have hnone : b.loaderOf (.loaded id) = none := congrArg (Option.map LoadedClass.loader) hnone
      cases hnone.symm.trans hb
    · exact hne (Option.some.inj (hl.symm.trans hb))
  | some k =>
    have hloader : a.loaderOf (.loaded id) = some k.loader := congrArg (Option.map LoadedClass.loader) hid
    have hkept : b.loaderOf (.loaded id) = some k.loader := h.stays.population.loaderOf hloader
    exact ha id (hloader.trans (hkept.symm.trans hb))

theorem Steps.located (h : Steps a b) (ha : a.Located) : b.Located := by
  induction h with
  | refl => exact ha
  | tail _ hlast ih => exact hlast.located ih

theorem perform_located (o : Outside) (r : Request) : Keeps (Preserves Located) (perform o r) := by
  intro s h
  cases hr : r.additive with
  | false =>
    unfold Located loaderOf
    rw [perform_population o hr]
    exact h
  | true => exact (perform_steps o hr s).located h

theorem call_located (id : ClassId) (call : LoadedClass.Call) :
    Keeps (Preserves Located) (onClass () id (LoadedClass.perform call)) := by
  refine call_keeps (fun c called f hf hc other => ?_) id call
  show ((c.population.modifyClass called f).class? other).map LoadedClass.loader ≠ _
  rw [Population.class?_modifyClass]
  split
  · rename_i hsame
    subst hsame
    cases hk : c.population.class? called with
    | none => nofun
    | some k =>
      rw [Option.map_some, Option.map_some, (hf k hk).grows.loader]
      exact fun h => hc called ((congrArg (Option.map LoadedClass.loader) hk).trans h)
  · exact hc other

theorem Used.located (h : Used s) : s.state.Located := h.invariant (fun _ => nofun) perform_located call_located

/-! ### Sessions -/

/-- A class that a loader finds it finds later. -/
theorem Visible.later (h : c.Visible name loader (.loaded id)) (hlater : Later c d) :
    d.Visible name loader (.loaded id) := by
  obtain ⟨l, hl, hvisible⟩ := h
  refine ⟨l, hlater.population.loaderOf hl, ?_⟩
  rw [hlater.loaders]
  exact hvisible.imp_right (Or.imp_right fun h => ⟨hlater.defining _ l h.1, h.2⟩)

/-- What a request that makes a link leaves. -/
theorem perform_links {o : Outside} {r : Request} {t : Scene Catalog} (ht : Used t)
    (hbefore : t.state.superOf? sub ≠ some sup)
    (hafter : ((perform o r).start t).2.state.superOf? sub = some sup) :
    let u := ((perform o r).start t).2
    ∃ loader name asking, u.state.loaderOf (.loaded sub) = some loader ∧
      u.state.population.nameOf (.loaded sup) = some name ∧ u.state.Visible name asking (.loaded sup) ∧
      (asking = loader ∨
        ∃ a b p, Steps t.state a ∧ Adopts a b name asking p sub sup ∧ Steps b u.state) := by
  intro u
  have hr : r.additive = true := by
    by_contra hr
    apply hbefore
    rw [← hafter]
    simp only [superOf?, perform_population o (Bool.eq_false_iff.mpr hr)]
  obtain ⟨a, b, hta, hstep, hbu, hnot, hmade⟩ :=
    (perform_steps o hr t).exists_step (P := fun c => c.superOf? sub = some sup) hbefore hafter
  have hnamed : a.Named := (hta.evolves.of_named ht.named).1
  obtain ⟨hnamed, hab⟩ := hstep.evolves.of_named hnamed
  obtain ⟨hnamed', hbu'⟩ := hbu.evolves.of_named hnamed
  rcases ((hstep.of_superOf? hmade).resolve_left hnot).2 with
    ⟨k, superName, hk, _, hmem, hreaches⟩ | ⟨name, asking, p, hadopts⟩
  · have hau := hab.trans hbu'
    have hloader : a.loaderOf (.loaded sub) = some k.loader := congrArg (Option.map LoadedClass.loader) hk
    have hlocated : k.loader ≠ Loader.none := fun h => hta.located ht.located sub (h ▸ hloader)
    have hnormal : Loader.normalize k.loader = k.loader := if_neg hlocated
    have hname := hnamed' _ _ ((hau.groups _).mem hmem)
    exact ⟨k.loader, _, _, hau.population.loaderOf hloader, hname, hreaches.visible.later hau, .inl hnormal⟩
  · obtain ⟨k, hk, _⟩ := Option.bind_eq_some_iff.mp hafter
    have hloader : u.state.loaderOf (.loaded sub) = some k.loader := congrArg (Option.map LoadedClass.loader) hk
    have hname := hbu'.population.nameOf (hnamed name _ hadopts.answers)
    refine ⟨k.loader, name, asking, hloader, hname, hadopts.reaches.visible.later hbu', .inr ?_⟩
    exact ⟨a, b, p, hta, hadopts, hbu⟩

/-- **Every link respects the delegation of the loader that asked for it.** In a session over a fixed
loader table, a link that is there at the end and was not there before was made by a request that left
the super class visible to some loader, and it still is unless the catalog was cleared. That loader
is the one of the class itself, or the super class was put in the place of a placeholder for it,
one that remembered the class. -/
theorem superClass_visible_or_adopted (hs : Used s) (hrequests : ∀ x ∈ requests, x.2.keepsLoaders = true)
    (hbefore : s.state.superOf? sub ≠ some sup) (hafter : (after requests s).state.superOf? sub = some sup) :
    ∃ loader name asking, (after requests s).state.loaderOf (.loaded sub) = some loader ∧
      (after requests s).state.population.nameOf (.loaded sup) = some name ∧
      ∃ front o r back, requests = front ++ (o, r) :: back ∧
        let t := after front s
        let u := ((perform o r).start t).2
        u.state.Visible name asking (.loaded sup) ∧
        ((∀ x ∈ back, x.2 ≠ .clear) → (after requests s).state.Visible name asking (.loaded sup)) ∧
        (asking = loader ∨
          ∃ a b p, Steps t.state a ∧ Adopts a b name asking p sub sup ∧ Steps b u.state) := by
  obtain ⟨front, o, r, back, rfl, hnot, hmade⟩ :=
    exists_request (P := fun c => c.superOf? sub = some sup) hbefore hafter
  have hback : ∀ x ∈ back, x.2.keepsLoaders = true := fun x hx =>
    hrequests x (List.mem_append_right _ (List.mem_cons_of_mem _ hx))
  have hlinks := perform_links (hs.after front) hnot hmade
  have hnamed := perform_named o r (after front s) (hs.after front).named
  rw [after_append, after_cons]
  generalize hu : ((perform o r).start (after front s)).2 = u at hlinks hnamed
  obtain ⟨loader, name, asking, hloader, hname, hvisible, hcases⟩ := hlinks
  have hstays := (after_stays hback u).population
  refine ⟨loader, name, asking, hstays.loaderOf hloader, hstays.nameOf hname, front, o, r, back, rfl, ?_⟩
  dsimp only
  rw [hu]
  refine ⟨hvisible, fun hclear => ?_, hcases⟩
  have hadditive : ∀ x ∈ back, x.2.additive = true := fun x hx =>
    (Request.additive_or_eq_clear (hback x hx)).resolve_right (hclear x hx)
  exact hvisible.later ((after_evolves hadditive u).of_named hnamed).2

/-! ### A link downwards -/

/-- The class file of a class `S` without members whose super class is `B`. -/
def subFile : Bytes :=
  #[0xca, 0xfe, 0xba, 0xbe, 0, 0, 0, 52, 0, 5, 1, 0, 1, 83, 7, 0, 1, 1, 0, 1, 66, 7, 0, 3, 0, 0x21, 0, 2, 0, 4,
    0, 0, 0, 0, 0, 0, 0, 0]

/-- The class file of a class `B` without members, which calls itself its super class. -/
def superFile : Bytes :=
  #[0xca, 0xfe, 0xba, 0xbe, 0, 0, 0, 52, 0, 3, 1, 0, 1, 66, 7, 0, 1, 0, 0x21, 0, 2, 0, 2, 0, 0, 0, 0, 0, 0, 0, 0]

/-- Loader 1 is under the root and loader 2 under 1. -/
def chain : Scene Catalog := after [(sampleOutside Loader.none, .initLoaders [0, 0, 1])] (opening sampleConfig)

/-- `S` is loaded at 1 and waits for `B`, which is loaded at 2 afterwards. -/
def lateSuper : List (Outside × Request) :=
  [.addSupplied "S" 1 subFile, .lookup "S" 1, .resolveHierarchy 0, .addSupplied "B" 2 superFile, .lookup "B" 2].map
    fun r => (sampleOutside Loader.none, r)

theorem superClass_visible_or_adopted_chain :
    (after lateSuper chain).state.superOf? 0 = some 1 ∧
    ∃ loader name asking, (after lateSuper chain).state.loaderOf (.loaded 0) = some loader ∧
      (after lateSuper chain).state.population.nameOf (.loaded 1) = some name ∧
      ∃ front o r back, lateSuper = front ++ (o, r) :: back ∧
        let t := after front chain
        let u := ((perform o r).start t).2
        u.state.Visible name asking (.loaded 1) ∧
        ((∀ x ∈ back, x.2 ≠ .clear) → (after lateSuper chain).state.Visible name asking (.loaded 1)) ∧
        (asking = loader ∨
          ∃ a b p, Steps t.state a ∧ Adopts a b name asking p 0 1 ∧ Steps b u.state) := by
  have hafter : (after lateSuper chain).state.superOf? 0 = some 1 := by decide +kernel
  have hbefore : chain.state.superOf? 0 ≠ some 1 := by decide +kernel
  have hrequests : ∀ x ∈ lateSuper, x.2.keepsLoaders = true :=
    List.all_eq_true.mp (by decide +kernel)
  have hs : Used chain := (Used.opening sampleConfig).after _
  exact ⟨hafter, superClass_visible_or_adopted hs hrequests hbefore hafter⟩

/-- A super class need not be visible to the loader of the class that is linked to it. `B` at 2 takes the
place of the placeholder at 1, which 2 sees, and is linked to `S` at 1, which does not see 2. -/
theorem not_superClass_visible :
    ¬ ∀ (config : Config) (o : Outside) (table : List LoaderId) (requests : List (Outside × Request))
        (sub sup : ClassId), (∀ x ∈ requests, x.2.keepsLoaders = true) →
      let t := (after ((o, .initLoaders table) :: requests) (opening config)).state
      t.superOf? sub = some sup →
      ∃ loader name, t.loaderOf (.loaded sub) = some loader ∧ t.population.nameOf (.loaded sup) = some name ∧
        t.Visible name loader (.loaded sup) := by
  intro h
  have hrequests : ∀ x ∈ lateSuper, x.2.keepsLoaders = true :=
    List.all_eq_true.mp (by decide +kernel)
  obtain ⟨loader, name, hloader, hname, l, hl, hvisible⟩ :=
    h sampleConfig (sampleOutside Loader.none) [0, 0, 1] lateSuper 0 1 hrequests (by decide +kernel)
  generalize ht : (after ((sampleOutside Loader.none, .initLoaders [0, 0, 1]) :: lateSuper) _).state = t at *
  have hone : t.loaderOf (.loaded 0) = some 1 := by rw [← ht]; decide +kernel
  have htwo : t.loaderOf (.loaded 1) = some 2 := by rw [← ht]; decide +kernel
  have hB : t.population.nameOf (.loaded 1) = some "B" := by rw [← ht]; decide +kernel
  have hmemo : t.index.defining.get? ("B", 1) = some Loader.none := by rw [← ht]; decide +kernel
  have hgraph : t.index.loaders = .ofTable [0, 0, 1] := by rw [← ht]; decide +kernel
  cases hone.symm.trans hloader
  cases htwo.symm.trans hl
  cases hB.symm.trans hname
  rw [hgraph, hmemo] at hvisible
  -- Above loader 1 there is the root and nothing else.
  have habove : ∀ a, (Loader.Graph.ofTable [0, 0, 1]).Above 1 a → a = 0 := by
    intro a ha
    induction ha with
    | single hparent => exact (Option.some.inj hparent).symm
    | tail _ hparent ih =>
      subst ih
      exact (Option.some.inj hparent).symm
  rcases hvisible with h | ⟨_, h⟩ | ⟨h, _⟩
  · cases h
  · cases habove 2 h
  · cases h

end ClassCatalog.Catalog
