import Mathlib.Data.List.Basic
import ClassCatalog.Catalog.Hierarchy
import ClassCatalog.Proofs.Catalog.Enroll

/-! Catalogs behind a population.

Classes and other entries go by number, and numbers are given out one after the other. So a catalog that begins when
others have been made already gives out other numbers than one that begins with nothing. Apart from that it is the
same catalog, only `behind` what was there before. Whatever is done to it is done alike, with the numbers that its
entries have (`enroll_behind`). -/
namespace ClassCatalog

/-- The table with its values changed, each under its key. -/
def Table.mapValues {κ ν ν' : Type} (f : ν → ν') (t : Table κ ν) : Table κ ν' :=
  ⟨t.entries.map fun e => (e.1, f e.2)⟩

section Table
variable {κ ν ν' : Type} [DecidableEq κ] (f : ν → ν')

theorem Table.find_map (k : κ) (l : List (κ × ν)) :
    Table.find k (l.map fun e => (e.1, f e.2)) = (Table.find k l).map f := by
  induction l with
  | nil => rfl
  | cons e rest ih =>
    rw [List.map_cons, Table.find, Table.find, ih]
    split <;> rfl

theorem Table.put_map (k : κ) (v : ν) (l : List (κ × ν)) :
    Table.put k (f v) (l.map fun e => (e.1, f e.2)) = (Table.put k v l).map fun e => (e.1, f e.2) := by
  induction l with
  | nil => rfl
  | cons e rest ih =>
    rw [List.map_cons, Table.put, Table.put, ih]
    split <;> rfl

theorem Table.get?_mapValues (t : Table κ ν) (k : κ) : (t.mapValues f).get? k = (t.get? k).map f :=
  Table.find_map f k t.entries

theorem Table.insert_mapValues (t : Table κ ν) (k : κ) (v : ν) :
    (t.mapValues f).insert k (f v) = (t.insert k v).mapValues f :=
  congrArg Table.mk (Table.put_map f k v t.entries)

end Table

/-! ### Numbers -/

/-- The class with the numbers that others have behind a population. -/
def LoadedClass.behind (p : Population) (k : LoadedClass) : LoadedClass :=
  { k with
    superClass := k.superClass.map (p.classes.size + ·)
    interfaces := k.interfaces.map (p.classes.size + ·)
    subclasses := k.subclasses.map (p.classes.size + ·) }

section LoadedClass
variable (p : Population) (k : LoadedClass)

@[simp] theorem LoadedClass.record_behind : (k.behind p).record = k.record := rfl

@[simp] theorem LoadedClass.name_behind : (k.behind p).name = k.name := rfl

@[simp] theorem LoadedClass.loader_behind : (k.behind p).loader = k.loader := rfl

end LoadedClass

def Placeholder.behind (p : Population) (x : Placeholder) : Placeholder :=
  { x with subclasses := x.subclasses.map (p.classes.size + ·) }

def Entry.behind (p : Population) : Entry → Entry
  | loaded id => .loaded (p.classes.size + id)
  | placeholder id => .placeholder (p.placeholders.size + id)
  | special id => .special (p.specials.size + id)

/-- One population behind the other. -/
def Population.append (p q : Population) : Population where
  classes := p.classes ++ q.classes.map (·.behind p)
  placeholders := p.placeholders ++ q.placeholders.map (·.behind p)
  specials := p.specials ++ q.specials

theorem Population.append_empty (p : Population) : p.append .empty = p := by
  cases p
  simp [Population.append, Population.empty]

variable (p q : Population)

theorem Entry.behind_injective : Function.Injective (Entry.behind p) := by
  intro e e' h
  cases e <;> cases e' <;> simp_all [Entry.behind]

@[simp] theorem Entry.behind_inj {e e' : Entry} : e.behind p = e'.behind p ↔ e = e' := (behind_injective p).eq_iff

@[simp] theorem Entry.isPlaceholder_behind (e : Entry) : (e.behind p).isPlaceholder = e.isPlaceholder := by
  cases e <;> rfl

@[simp] theorem Entry.isSpecial_behind (e : Entry) : (e.behind p).isSpecial = e.isSpecial := by
  cases e <;> rfl

theorem Entry.class?_behind (e : Entry) : (e.behind p).class? = e.class?.map (p.classes.size + ·) := by
  cases e <;> rfl

/-! ### Populations -/

/-- What stands behind the elements of one array has been changed in place. -/
theorem modify_append_map {α : Type} {f g g' : α → α} (h : ∀ x, g' (f x) = f (g x)) (a b : Array α) (i : Nat) :
    (a ++ b.map f).modify (a.size + i) g' = a ++ (b.modify i g).map f := by
  refine Array.ext_getElem? fun j => ?_
  rw [Array.getElem?_modify, Array.getElem?_append, Array.getElem?_append]
  by_cases hj : j < a.size
  · rw [if_pos hj, if_pos hj, if_neg (by omega)]
  · rw [if_neg hj, if_neg hj, Array.getElem?_map, Array.getElem?_map, Array.getElem?_modify]
    by_cases hij : a.size + i = j
    · rw [if_pos hij, if_pos (by omega), Option.map_map, Option.map_map]
      exact congrArg (Option.map · _) (funext h)
    · rw [if_neg hij, if_neg (by omega)]

namespace Population

theorem class?_append (id : ClassId) : (p.append q).class? (p.classes.size + id) = (q.class? id).map (·.behind p) := by
  show (p.classes ++ q.classes.map _)[p.classes.size + id]? = q.classes[id]?.map _
  rw [Array.getElem?_append_right (Nat.le_add_right ..), Nat.add_sub_cancel_left, Array.getElem?_map]

theorem placeholder?_append (id : Nat) :
    (p.append q).placeholder? (p.placeholders.size + id) = (q.placeholder? id).map (·.behind p) := by
  show (p.placeholders ++ q.placeholders.map _)[p.placeholders.size + id]? = q.placeholders[id]?.map _
  rw [Array.getElem?_append_right (Nat.le_add_right ..), Nat.add_sub_cancel_left, Array.getElem?_map]

theorem loaderOf_append (e : Entry) : (p.append q).loaderOf (e.behind p) = q.loaderOf e := by
  cases e with
  | loaded id =>
    show ((p.append q).class? (p.classes.size + id)).map LoadedClass.loader = _
    rw [class?_append, Option.map_map]
    rfl
  | placeholder id =>
    show ((p.append q).placeholder? (p.placeholders.size + id)).map Placeholder.loader = _
    rw [placeholder?_append, Option.map_map]
    rfl
  | special id => rfl

variable {p q}

theorem modifyClass_append {f f' : LoadedClass → LoadedClass} (h : ∀ k, f' (k.behind p) = (f k).behind p)
    (id : ClassId) : (p.append q).modifyClass (p.classes.size + id) f' = p.append (q.modifyClass id f) := by
  unfold modifyClass append
  dsimp only
  rw [modify_append_map h]

theorem modifyPlaceholder_append {f f' : Placeholder → Placeholder} (h : ∀ x, f' (x.behind p) = (f x).behind p)
    (id : Nat) :
    (p.append q).modifyPlaceholder (p.placeholders.size + id) f' = p.append (q.modifyPlaceholder id f) := by
  unfold modifyPlaceholder append
  dsimp only
  rw [modify_append_map h]

end Population

/-! ### What is noted -/

theorem addOnce_map {n : Nat} (ids : List ClassId) (id : ClassId) :
    LoadedClass.addOnce (ids.map (n + ·)) (n + id) = (LoadedClass.addOnce ids id).map (n + ·) := by
  have hcontains : (ids.map (n + ·)).contains (n + id) = ids.contains id := by
    rw [Bool.eq_iff_iff, List.contains_iff_mem, List.contains_iff_mem]
    exact List.mem_map_of_injective fun _ _ h => Nat.add_left_cancel h
  unfold LoadedClass.addOnce
  rw [hcontains]
  split
  · rfl
  · rw [List.map_append]
    rfl

theorem foldl_addOnce_map {n : Nat} (more ids : List ClassId) :
    (more.map (n + ·)).foldl LoadedClass.addOnce (ids.map (n + ·)) =
      (more.foldl LoadedClass.addOnce ids).map (n + ·) := by
  induction more generalizing ids with
  | nil => rfl
  | cons id rest ih => rw [List.map_cons, List.foldl_cons, List.foldl_cons, addOnce_map, ih]

theorem LoadedClass.addSubclass_behind (k : LoadedClass) (id : ClassId) :
    (k.behind p).addSubclass (p.classes.size + id) = (k.addSubclass id).behind p := by
  simp only [LoadedClass.addSubclass, LoadedClass.behind, addOnce_map]

theorem LoadedClass.addInterface_behind (k : LoadedClass) (id : ClassId) :
    (k.behind p).addInterface (p.classes.size + id) = (k.addInterface id).behind p := by
  simp only [LoadedClass.addInterface, LoadedClass.behind, addOnce_map]

theorem LoadedClass.adopt_behind (k : LoadedClass) (roots markers : Bool) (subclasses : List ClassId) :
    (k.behind p).adopt roots markers (subclasses.map (p.classes.size + ·)) =
      (k.adopt roots markers subclasses).behind p := by
  simp only [LoadedClass.adopt, LoadedClass.behind, foldl_addOnce_map]

theorem Placeholder.addSubclass_behind (x : Placeholder) (id : ClassId) :
    (x.behind p).addSubclass (p.classes.size + id) = (x.addSubclass id).behind p := by
  simp only [Placeholder.addSubclass, Placeholder.behind, addOnce_map]

/-! ### Groups -/

/-- A catalog that begins behind a population. -/
def Catalog.behind (p : Population) (c : Catalog) : Catalog where
  config := c.config
  population := p.append c.population
  index := { c.index with groups := c.index.groups.mapValues (List.map (Entry.behind p)) }

namespace Catalog
variable (c : Catalog) (name : String) (e : Entry) (id : ClassId)

theorem group_behind : (c.behind p).group name = (c.group name).map (Entry.behind p) := by
  show ((c.index.groups.mapValues _).get? name).getD [] = ((c.index.groups.get? name).getD []).map _
  rw [Table.get?_mapValues]
  cases c.index.groups.get? name <;> rfl

theorem setGroup_behind (entries : List Entry) :
    (c.behind p).setGroup name (entries.map (Entry.behind p)) = (c.setGroup name entries).behind p := by
  unfold setGroup behind
  dsimp only
  rw [Table.insert_mapValues]

theorem register_behind : (c.behind p).register name (e.behind p) = (c.register name e).behind p := by
  have hcontains : ((c.group name).map (Entry.behind p)).contains (e.behind p) = (c.group name).contains e := by
    rw [Bool.eq_iff_iff, List.contains_iff_mem, List.contains_iff_mem]
    exact List.mem_map_of_injective (Entry.behind_injective p)
  unfold register
  rw [group_behind, hcontains]
  split
  · rfl
  · rw [← setGroup_behind, List.map_append]
    rfl

theorem loaderOf_behind : (c.behind p).loaderOf (e.behind p) = c.loaderOf e := Population.loaderOf_append ..

theorem sees_behind (loader : LoaderId) : (c.behind p).sees loader (e.behind p) = c.sees loader e := by
  unfold sees
  rw [loaderOf_behind]
  rfl

theorem isBelow_behind (loader : LoaderId) : (c.behind p).isBelow loader (e.behind p) = c.isBelow loader e := by
  cases e with
  | placeholder id =>
    have hplaceholder : (c.behind p).population.placeholder? (p.placeholders.size + id) = _ :=
      Population.placeholder?_append p c.population id
    unfold isBelow Entry.behind
    dsimp only
    rw [hplaceholder]
    cases c.population.placeholder? id <;> rfl
  | loaded _ | special _ => rfl

variable {p}

theorem modifyClass_behind {f f' : LoadedClass → LoadedClass} (h : ∀ k, f' (k.behind p) = (f k).behind p) :
    (c.behind p).modifyClass (p.classes.size + id) f' = (c.modifyClass id f).behind p :=
  congrArg (Catalog.mk _ · _) (Population.modifyClass_append h id)

theorem modifyPlaceholder_behind {f f' : Placeholder → Placeholder} (h : ∀ x, f' (x.behind p) = (f x).behind p)
    (id : Nat) : (c.behind p).modifyPlaceholder (p.placeholders.size + id) f' = (c.modifyPlaceholder id f).behind p :=
  congrArg (Catalog.mk _ · _) (Population.modifyPlaceholder_append h id)

variable (p)

theorem narrow_behind (loader : LoaderId) : (c.behind p).narrow loader (e.behind p) = (c.narrow loader e).behind p := by
  cases e with
  | placeholder id =>
    refine modifyPlaceholder_behind c ?_ id
    exact fun _ => rfl
  | loaded _ | special _ => rfl

/-! ### New entries -/

theorem newClass_behind (k : LoadedClass) :
    (c.behind p).newClass (k.behind p) = (p.classes.size + (c.newClass k).1, (c.newClass k).2.behind p) := by
  refine Prod.ext ?_ ?_
  · show (p.classes ++ c.population.classes.map (·.behind p)).size = p.classes.size + c.population.classes.size
    simp
  · simp [newClass, modifyPopulation, behind, Population.append]

theorem newPlaceholder_behind (loader : LoaderId) :
    (c.behind p).newPlaceholder name loader =
      ((c.newPlaceholder name loader).1.behind p, (c.newPlaceholder name loader).2.behind p) := by
  unfold newPlaceholder
  dsimp only
  rw [← register_behind]
  simp [modifyPopulation, behind, Population.append, Entry.behind, Placeholder.behind, Placeholder.new]

theorem newSpecial_behind :
    (c.behind p).newSpecial name = ((c.newSpecial name).1.behind p, (c.newSpecial name).2.behind p) := by
  unfold newSpecial
  dsimp only
  rw [← register_behind]
  simp [modifyPopulation, behind, Population.append, Entry.behind]

/-! ### Registering classes -/

theorem registered?_behind (k : LoadedClass) :
    (c.behind p).registered? name (k.behind p) = (c.registered? name k).map (p.classes.size + ·) := by
  unfold registered?
  rw [group_behind, List.findSome?_map, List.map_findSome?]
  congr 1
  funext e
  simp only [Function.comp_apply, loaderOf_behind, Entry.class?_behind]
  cases e.class? with
  | none => rfl
  | some id =>
    dsimp only [Option.map_some]
    split <;> simp_all [LoadedClass.behind]

theorem transfer_behind (placeholder : Nat) :
    (c.behind p).transfer (p.placeholders.size + placeholder) (p.classes.size + id) =
      (c.transfer placeholder id).behind p := by
  unfold transfer
  rw [show (c.behind p).population.placeholder? _ = _ from Population.placeholder?_append ..]
  cases c.population.placeholder? placeholder with
  | none => rfl
  | some x =>
    dsimp only [Option.map_some]
    rw [modifyPlaceholder_behind c (f := fun x => { x with subclasses := [] }) ?_ placeholder]
    · exact modifyClass_behind _ id fun k => LoadedClass.adopt_behind p k x.allRoots x.allMarkers x.subclasses
    · exact fun _ => rfl

theorem awaits_behind (k : LoadedClass) : awaits (k.behind p) name = awaits k name := by
  unfold awaits LoadedClass.behind
  rw [Option.isNone_map]

theorem linkSubclasses_behind :
    (c.behind p).linkSubclasses (p.classes.size + id) = (c.linkSubclasses id).behind p := by
  unfold linkSubclasses
  rw [show (c.behind p).population.class? _ = _ from Population.class?_append ..]
  cases c.population.class? id with
  | none => rfl
  | some k =>
    dsimp only [Option.map_some]
    show (k.subclasses.map (p.classes.size + ·)).foldl _ _ = _
    generalize k.subclasses = ids
    induction ids generalizing c with
    | nil => rfl
    | cons sub rest ih =>
      rw [List.map_cons, List.foldl_cons, List.foldl_cons, ← ih]
      congr 1
      refine modifyClass_behind c sub fun s => ?_
      rw [show awaits (s.behind p) (k.behind p).name = awaits s k.name from awaits_behind ..]
      split <;> rfl

theorem placed_behind (placeholder : Nat) (known : Bool) (entries : List Entry) :
    placed (p.placeholders.size + placeholder) (p.classes.size + id) known (entries.map (Entry.behind p)) =
      (placed placeholder id known entries).map (Entry.behind p) := by
  have hold (e : Entry) :
      e.behind p = .placeholder (p.placeholders.size + placeholder) ↔ e = .placeholder placeholder := by
    show e.behind p = Entry.behind p (.placeholder placeholder) ↔ _
    exact Entry.behind_inj p
  unfold placed
  split
  · rw [List.filter_map]
    refine congrArg _ (List.filter_congr fun e _ => ?_)
    simp only [Function.comp_apply, ne_eq, hold]
  · unfold replaceEntry
    rw [List.map_map, List.map_map]
    refine List.map_congr_left fun e _ => ?_
    simp only [Function.comp_apply, hold]
    split <;> rfl

theorem promote_behind (placeholder : Nat) (known : Bool) :
    (c.behind p).promote name (p.placeholders.size + placeholder) (p.classes.size + id) known =
      (c.promote name placeholder id known).behind p := by
  rw [promote_eq, promote_eq, transfer_behind, group_behind, placed_behind, setGroup_behind, linkSubclasses_behind]

/-- A class is registered alike, with the number that it has. -/
theorem enroll_behind (placeholder : Option Nat) (k : LoadedClass) :
    (c.behind p).enroll name (placeholder.map (p.placeholders.size + ·)) (k.behind p) =
      (p.classes.size + (c.enroll name placeholder k).1, (c.enroll name placeholder k).2.behind p) := by
  unfold enroll
  rw [registered?_behind, newClass_behind]
  cases c.registered? name k with
  | some id =>
    cases placeholder with
    | some x => exact Prod.ext rfl (promote_behind p c name id x true)
    | none => exact Prod.ext rfl (register_behind p c name (.loaded id))
  | none =>
    cases placeholder with
    | some x => exact Prod.ext rfl (promote_behind p (c.newClass k).2 name (c.newClass k).1 x false)
    | none => exact Prod.ext rfl (register_behind p (c.newClass k).2 name (.loaded (c.newClass k).1))

theorem link_behind (sub sup : ClassId) :
    (c.behind p).link (p.classes.size + sub) (p.classes.size + sup) = (c.link sub sup).behind p := by
  unfold link
  have hadded : (c.behind p).modifyClass (p.classes.size + sup) (fun k => k.addSubclass (p.classes.size + sub)) =
      (c.modifyClass sup fun k => k.addSubclass sub).behind p :=
    modifyClass_behind c sup fun k => LoadedClass.addSubclass_behind p k sub
  rw [hadded]
  exact modifyClass_behind _ sub fun _ => rfl

/-! ### Entries on request -/

theorem special_behind : (c.behind p).special name = ((c.special name).1.behind p, (c.special name).2.behind p) := by
  unfold special
  dsimp only
  rw [group_behind, List.find?_map, show Entry.isSpecial ∘ Entry.behind p = Entry.isSpecial from
    funext (Entry.isSpecial_behind p)]
  cases (c.group (Name.canonical name)).find? Entry.isSpecial with
  | some e => rfl
  | none => exact newSpecial_behind ..

theorem addPlaceholder_behind (loader : LoaderId) :
    (c.behind p).addPlaceholder name loader =
      ((c.addPlaceholder name loader).1.behind p, (c.addPlaceholder name loader).2.behind p) := by
  unfold addPlaceholder
  dsimp only
  rw [group_behind, List.find?_map]
  simp only [Function.comp_def, Entry.isPlaceholder_behind, loaderOf_behind]
  cases (c.group (Name.canonical name)).find? fun e =>
      e.isPlaceholder && c.loaderOf e == some (Loader.normalize loader) with
  | some e => rfl
  | none => exact newPlaceholder_behind ..

end Catalog
end ClassCatalog
