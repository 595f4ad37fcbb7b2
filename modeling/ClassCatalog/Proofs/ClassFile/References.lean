import ClassCatalog.Proofs.ClassFile.Sections
import ClassCatalog.Proofs.Name
import Mathlib.Data.List.Forall2

/-! What the constants of a pool refer to.

A class constant points to its name, a method reference to a class and to a pair of names; the constants may
stand in any order. `ConstantPool.NamesClass` and `ConstantPool.NamesMethod` say what is found at the ends of
these pointers. The pool is only accepted if all of them lead somewhere, and the tables of a record list in
ascending order what they lead to (`references_exact`). -/
namespace ClassCatalog.ClassFile

/-! ### Answers one by one -/

section Answers
variable {α β : Type} {f : α → Except Fault β} {xs : List α} {ys : List β}

theorem bind_eq_ok_iff {x : Except Fault α} {y : β} : x >>= f = .ok y ↔ ∃ a, x = .ok a ∧ f a = .ok y := by
  cases x <;> simp [bind, Except.bind]

theorem map_eq_ok_iff {x : Except Fault α} {g : α → β} {y : β} : x.map g = .ok y ↔ ∃ a, x = .ok a ∧ g a = y := by
  cases x <;> simp [Except.map]

theorem mapM_eq_ok_iff : xs.mapM f = .ok ys ↔ List.Forall₂ (fun x y => f x = .ok y) xs ys := by
  induction xs generalizing ys with
  | nil => simp [pure, Except.pure, eq_comm]
  | cons x rest ih =>
    simp only [List.mapM_cons, bind_eq_ok_iff, ih, List.forall₂_cons_left_iff, pure, Except.pure,
      Except.ok.injEq, eq_comm (b := ys)]
    constructor
    · rintro ⟨y, hy, others, hothers, hys⟩
      exact ⟨y, others, hy, hothers, hys⟩
    · rintro ⟨y, others, hy, hothers, hys⟩
      exact ⟨y, hy, others, hothers, hys⟩

theorem mem_iff_of_mapM (h : xs.mapM f = .ok ys) (y : β) : y ∈ ys ↔ ∃ x ∈ xs, f x = .ok y := by
  have hall := mapM_eq_ok_iff.mp h
  clear h
  induction hall with
  | nil => simp
  | cons hfirst _ ih => simp [ih, hfirst, eq_comm]

theorem exists_of_mapM (h : xs.mapM f = .ok ys) {x : α} (hx : x ∈ xs) : ∃ y, f x = .ok y := by
  have hall := mapM_eq_ok_iff.mp h
  clear h
  induction hall with
  | nil => cases hx
  | cons hfirst _ ih =>
    rcases List.mem_cons.mp hx with rfl | hx
    · exact ⟨_, hfirst⟩
    · exact ih hx

theorem map_eq_of_mapM {γ : Type} {g : α → γ} {g' : β → γ} (h : xs.mapM f = .ok ys)
    (hf : ∀ x y, f x = .ok y → g' y = g x) : ys.map g' = xs.map g := by
  have hall := mapM_eq_ok_iff.mp h
  clear h
  induction hall with
  | nil => rfl
  | cons hfirst _ ih => rw [List.map_cons, List.map_cons, hf _ _ hfirst, ih]

end Answers

namespace ConstantPool

/-! ### Following pointers -/

/-- At `index` there is a text. -/
def Says [Text.Encoding] (pool : ConstantPool) (index : UInt16) (text : String) : Prop :=
  ∃ bytes, pool.constant? index = some (.utf8 bytes) ∧ Text.Encoding.decode bytes.toList = some text

/-- At `index` there is a class constant, and it points to the name of the class. -/
def NamesClass [Text.Encoding] (pool : ConstantPool) (index : UInt16) (name : String) : Prop :=
  ∃ textIndex text, pool.constant? index = some (.classRef textIndex) ∧ pool.Says textIndex text ∧
    Name.Trims text.toList name.toList

/-- At `index` there is a method reference, and it points to the owner of the method and to a pair that points
to its name and its signature. -/
def NamesMethod [Text.Encoding] (pool : ConstantPool) (index : UInt16) (m : MethodRef) : Prop :=
  ∃ owner pair name descriptor,
    (pool.constant? index = some (.methodRef owner pair) ∨
      pool.constant? index = some (.interfaceMethodRef owner pair)) ∧
    pool.NamesClass owner m.owner ∧ pool.constant? pair = some (.nameAndType name descriptor) ∧
    pool.Says name m.name ∧ pool.Says descriptor m.signature

variable {pool : ConstantPool} {index : UInt16}

theorem text_eq_ok_iff [Text.Encoding] {s : String} : pool.text index = .ok s ↔ pool.Says index s := by
  unfold text Says
  split
  · rename_i bytes hbytes
    rw [hbytes]
    split
    · rename_i s' hdecode
      simp [hdecode]
    · rename_i hdecode
      simp [hdecode]
  · rename_i hnone
    simp only [reduceCtorEq, false_iff, not_exists, not_and]
    exact fun bytes hbytes => absurd hbytes (hnone bytes)

theorem className_eq_ok_iff [Text.Encoding] {textIndex : UInt16} {name : String} : pool.className textIndex = .ok name ↔
    ∃ text, pool.Says textIndex text ∧ Name.Trims text.toList name.toList := by
  simp only [Name.trims_iff, ← text_eq_ok_iff]
  unfold className
  cases pool.text textIndex <;> simp [Except.map]

theorem namesClass_of_constant [Text.Encoding] {textIndex : UInt16} {name : String}
    (h : pool.constant? index = some (.classRef textIndex)) :
    pool.NamesClass index name ↔ pool.className textIndex = .ok name := by
  rw [className_eq_ok_iff, NamesClass, h]
  simp

theorem methodReference_eq_ok_iff [Text.Encoding] {offset : Nat} {owner pair : UInt16} {m : MethodRef} :
    pool.methodReference index offset owner pair = .ok m ↔
      pool.NamesClass owner m.owner ∧ ∃ name descriptor,
        pool.constant? pair = some (.nameAndType name descriptor) ∧ pool.Says name m.name ∧
        pool.Says descriptor m.signature := by
  constructor
  · intro h
    unfold methodReference at h
    split at h
    · rename_i ownerName pairOffset name descriptor howner hpair
      obtain ⟨owner', howner', h⟩ := bind_eq_ok_iff.mp h
      split at h
      · obtain ⟨name', hname, h⟩ := bind_eq_ok_iff.mp h
        obtain ⟨descriptor', hdescriptor, h⟩ := bind_eq_ok_iff.mp h
        obtain rfl := Except.ok.inj h
        refine ⟨(namesClass_of_constant howner).mpr howner', name, descriptor, ?_, text_eq_ok_iff.mp hname,
          text_eq_ok_iff.mp hdescriptor⟩
        rw [constant?, hpair, Option.map_some]
      · cases h
    · cases h
  · rintro ⟨howner, name, descriptor, hpair, hname, hdescriptor⟩
    obtain ⟨ownerName, _, hclass, _⟩ := id howner
    obtain ⟨⟨pairOffset, _⟩, hslot, rfl⟩ := Option.map_eq_some_iff.mp hpair
    obtain ⟨nameBytes, hnameBytes, _⟩ := id hname
    obtain ⟨descriptorBytes, hdescriptorBytes, _⟩ := id hdescriptor
    unfold methodReference
    rw [hclass, hslot]
    refine bind_eq_ok_iff.mpr ⟨m.owner, (namesClass_of_constant hclass).mp howner, ?_⟩
    rw [hnameBytes, hdescriptorBytes]
    exact bind_eq_ok_iff.mpr ⟨m.name, text_eq_ok_iff.mpr hname,
      bind_eq_ok_iff.mpr ⟨m.signature, text_eq_ok_iff.mpr hdescriptor, rfl⟩⟩

/-! ### Tables by index -/

/-- The indices of a table go up. -/
def Ascending {α : Type} (table : List (UInt16 × α)) : Prop := table.Pairwise fun e e' => e.1 < e'.1

theorem Ascending.filterMap {α β : Type} {table : List (UInt16 × α)} (h : Ascending table)
    {f : UInt16 × α → Option (UInt16 × β)} (hf : ∀ e e', f e = some e' → e'.1 = e.1) :
    Ascending (table.filterMap f) := by
  refine List.Pairwise.filterMap f (fun e e' hlt x hx y hy => ?_) h
  rw [hf e x hx, hf e' y hy]
  exact hlt

theorem ascending_entries (hsize : pool.size < UInt16.size) : Ascending pool.entries := by
  have hindices : pool.slots.toList.zipIdx.Pairwise fun e e' => e.2 < e'.2 := by
    rw [← List.pairwise_map, List.zipIdx_map_snd]
    exact List.pairwise_lt_range'
  refine List.pairwise_filterMap.mpr (hindices.imp_of_mem fun {e e'} _ he' hlt x hx y hy => ?_)
  obtain ⟨_, _, rfl⟩ := Option.map_eq_some_iff.mp hx
  obtain ⟨_, _, rfl⟩ := Option.map_eq_some_iff.mp hy
  have hin := (List.mem_zipIdx' he').1
  rw [Array.length_toList] at hin
  unfold size at hsize
  rw [UInt16.lt_iff_toNat_lt, UInt16.toNat_ofNat_of_lt' (by omega), UInt16.toNat_ofNat_of_lt' (by omega)]
  exact hlt

variable {refs : List (UInt16 × Reference)}

theorem ascending_references [Text.Encoding] (hsize : pool.size < UInt16.size) (h : pool.references = .ok refs) :
    Ascending refs := by
  unfold references at h
  obtain ⟨found, hfound, h⟩ := bind_eq_ok_iff.mp h
  obtain rfl := Except.ok.inj h
  have hindices : found.map Prod.fst = pool.entries.map Prod.fst := by
    refine map_eq_of_mapM hfound fun e e' he => ?_
    obtain ⟨_, _, he⟩ := bind_eq_ok_iff.mp he
    obtain rfl := Except.ok.inj he
    rfl
  have hfound : Ascending found := by
    have hentries := ascending_entries hsize
    unfold Ascending at hentries ⊢
    rw [← List.pairwise_map] at hentries ⊢
    rwa [hindices]
  refine hfound.filterMap fun e e' he => ?_
  obtain ⟨_, _, rfl⟩ := Option.map_eq_some_iff.mp he
  rfl

/-- What is listed is what the slots refer to. -/
theorem mem_references [Text.Encoding] (hsize : pool.size < UInt16.size) (h : pool.references = .ok refs)
    {ref : Reference} :
    (index, ref) ∈ refs ↔
      ∃ slot, pool.slot? index = some slot ∧ pool.reference? index slot = .ok (some ref) := by
  unfold references at h
  obtain ⟨found, hfound, h⟩ := bind_eq_ok_iff.mp h
  obtain rfl := Except.ok.inj h
  constructor
  · intro hmem
    obtain ⟨⟨i, x⟩, hmem, hx⟩ := List.mem_filterMap.mp hmem
    obtain ⟨_, rfl, heq⟩ := Option.map_eq_some_iff.mp hx
    cases heq
    obtain ⟨⟨i', slot⟩, hslot, hanswer⟩ := (mem_iff_of_mapM hfound _).mp hmem
    obtain ⟨_, href, heq⟩ := bind_eq_ok_iff.mp hanswer
    cases heq
    exact ⟨slot, (mem_entries hsize).mp hslot, href⟩
  · rintro ⟨slot, hslot, href⟩
    have hanswer := (mem_iff_of_mapM hfound (index, some ref)).mpr
      ⟨(index, slot), (mem_entries hsize).mpr hslot, bind_eq_ok_iff.mpr ⟨_, href, rfl⟩⟩
    exact List.mem_filterMap.mpr ⟨_, hanswer, rfl⟩

/-- No slot of a pool refers to nothing. -/
theorem exists_reference [Text.Encoding] (hsize : pool.size < UInt16.size) (h : pool.references = .ok refs)
    {slot : Slot}
    (hslot : pool.slot? index = some slot) : ∃ ref, pool.reference? index slot = .ok ref := by
  unfold references at h
  obtain ⟨found, hfound, _⟩ := bind_eq_ok_iff.mp h
  obtain ⟨e, he⟩ := exists_of_mapM hfound ((mem_entries hsize).mpr hslot)
  obtain ⟨ref, href, _⟩ := bind_eq_ok_iff.mp he
  exact ⟨ref, href⟩

/-! ### What a slot refers to -/

/-- The reference `ref` is found at `index`. -/
def Names [Text.Encoding] (pool : ConstantPool) (index : UInt16) : Reference → Prop
  | .toClass name => pool.NamesClass index name
  | .toMethod m => pool.NamesMethod index m

theorem reference?_eq_ok_iff [Text.Encoding] {slot : Slot} {ref : Reference} (hslot : pool.slot? index = some slot) :
    pool.reference? index slot = .ok (some ref) ↔ pool.Names index ref := by
  have hconstant : pool.constant? index = some slot.constant := by rw [constant?, hslot, Option.map_some]
  unfold reference?
  split
  · rename_i textIndex hc
    rw [hc] at hconstant
    cases ref with
    | toClass name => simp [map_eq_ok_iff, Names, namesClass_of_constant hconstant]
    | toMethod m => simp [map_eq_ok_iff, Names, NamesMethod, hconstant]
  · rename_i owner pair hc
    rw [hc] at hconstant
    cases ref with
    | toClass name => simp [map_eq_ok_iff, Names, NamesClass, hconstant]
    | toMethod m => simp [map_eq_ok_iff, Names, NamesMethod, hconstant, methodReference_eq_ok_iff]
  · rename_i owner pair hc
    rw [hc] at hconstant
    cases ref with
    | toClass name => simp [map_eq_ok_iff, Names, NamesClass, hconstant]
    | toMethod m => simp [map_eq_ok_iff, Names, NamesMethod, hconstant, methodReference_eq_ok_iff]
  · rename_i hclass hmethod hinterface
    refine iff_of_false (by simp) ?_
    cases ref with
    | toClass name =>
      rintro ⟨textIndex, _, hc, _⟩
      exact hclass _ (Option.some.inj (hconstant.symm.trans hc))
    | toMethod m =>
      rintro ⟨owner, pair, _, _, hc | hc, _⟩
      · exact hmethod _ _ (Option.some.inj (hconstant.symm.trans hc))
      · exact hinterface _ _ (Option.some.inj (hconstant.symm.trans hc))

theorem exists_slot [Text.Encoding] {ref : Reference} (h : pool.Names index ref) :
    ∃ slot, pool.slot? index = some slot := by
  cases ref with
  | toClass name =>
    obtain ⟨_, _, hc, _⟩ := h
    obtain ⟨slot, hslot, _⟩ := Option.map_eq_some_iff.mp hc
    exact ⟨slot, hslot⟩
  | toMethod m =>
    obtain ⟨_, _, _, _, hc | hc, _⟩ := h
    all_goals
      obtain ⟨slot, hslot, _⟩ := Option.map_eq_some_iff.mp hc
      exact ⟨slot, hslot⟩

theorem isWide_of_tag {c : Constant} (h : c.tag = 5 ∨ c.tag = 6) : c.isWide = true := by
  cases c <;> simp_all [Constant.tag, Constant.isWide]

/-- The tag of a constant says what it refers to. -/
theorem tag_of_reference? [Text.Encoding] {slot : Slot} {found : Option Reference}
    (h : pool.reference? index slot = .ok found) :
    (slot.constant.tag ∈ [7] ↔ ∃ name, found = some (.toClass name)) ∧
      (slot.constant.tag ∈ [10, 11] ↔ ∃ m, found = some (.toMethod m)) := by
  obtain ⟨offset, c⟩ := slot
  cases c with
  | classRef name =>
    obtain ⟨name', _, rfl⟩ := map_eq_ok_iff.mp h
    simp [Constant.tag]
  | methodRef owner pair | interfaceMethodRef owner pair =>
    obtain ⟨m, _, rfl⟩ := map_eq_ok_iff.mp h
    simp [Constant.tag]
  | _ =>
    obtain rfl := Except.ok.inj h
    simp [Constant.tag]

theorem tag?_eq_some_iff {t : UInt8} (ht : t ≠ 0) :
    pool.tag? index = some t ↔ ∃ slot, pool.slot? index = some slot ∧ slot.constant.tag = t := by
  unfold tag? slot?
  cases pool.slots[index.toNat]? with
  | none => simp
  | some found => cases found <;> simp [ht.symm]

end ConstantPool

/-! ### Names of attributes -/

namespace AttributeNames
variable {names : AttributeNames} {index : UInt16} {k : AttributeKind}

/-- An index that was found is the least. -/
theorem indexOf?_eq_some_iff (h : ConstantPool.Ascending names.entries) : names.indexOf? k = some index ↔
    (index, k) ∈ names.entries ∧ ∀ other, (other, k) ∈ names.entries → index ≤ other := by
  have hleast {i : UInt16} (hi : names.indexOf? k = some i) :
      (i, k) ∈ names.entries ∧ ∀ other, (other, k) ∈ names.entries → i ≤ other := by
    obtain ⟨⟨i, k'⟩, hfind, rfl⟩ := Option.map_eq_some_iff.mp hi
    obtain ⟨hk, front, back, hentries, hfront⟩ := List.find?_eq_some_iff_append.mp hfind
    obtain rfl : k' = k := by simpa using hk
    unfold ConstantPool.Ascending at h
    rw [hentries, List.pairwise_append] at h
    refine ⟨by simp [hentries], fun other hother => ?_⟩
    rw [hentries, List.mem_append, List.mem_cons] at hother
    rcases hother with hmem | heq | hmem
    · exact absurd (hfront _ hmem) (by simp)
    · exact UInt16.le_of_eq (congrArg Prod.fst heq).symm
    · exact UInt16.le_of_lt ((List.pairwise_cons.mp h.2.1).1 _ hmem)
  refine ⟨hleast, fun ⟨hmem, hle⟩ => ?_⟩
  cases hfound : names.indexOf? k with
  | none =>
    have hnone := List.find?_eq_none.mp (Option.map_eq_none_iff.mp hfound)
    exact absurd (hnone _ hmem) (by simp)
  | some i =>
    obtain ⟨hi, hmin⟩ := hleast hfound
    exact congrArg some (UInt16.le_antisymm (hmin index hmem) (hle i hi))

end AttributeNames

namespace ConstantPool
variable {pool : ConstantPool} {index : UInt16} {k : AttributeKind}

theorem kindOf?_eq_some_iff_mem (hsize : pool.size < UInt16.size) :
    pool.attributeNames.kindOf? index = some k ↔ (index, k) ∈ pool.attributeNames.entries := by
  refine ⟨AttributeNames.mem_of_kindOf?, fun hmem => ?_⟩
  obtain ⟨k', hk'⟩ := AttributeNames.exists_kindOf? hmem
  obtain ⟨bytes, hbytes, hk⟩ := (mem_attributeNames hsize).mp hmem
  obtain ⟨bytes', hbytes', hkind⟩ := (mem_attributeNames hsize).mp (AttributeNames.mem_of_kindOf? hk')
  rw [hbytes] at hbytes'
  cases hbytes'
  rw [hk', ← hkind, hk]

/-- The kind of an index is the one that its bytes spell. -/
theorem kindOf?_eq_some_iff (hsize : pool.size < UInt16.size) : pool.attributeNames.kindOf? index = some k ↔
    ∃ bytes, pool.constant? index = some (.utf8 bytes) ∧ bytes.toList = k.nameBytes := by
  simp only [kindOf?_eq_some_iff_mem hsize, mem_attributeNames hsize, AttributeKind.ofBytes?_eq_some_iff]

theorem ascending_attributeNames (hsize : pool.size < UInt16.size) : Ascending pool.attributeNames.entries := by
  refine (ascending_entries hsize).filterMap fun (i, slot) e' he => ?_
  dsimp only at he
  split at he
  · obtain ⟨_, _, rfl⟩ := Option.map_eq_some_iff.mp he
    rfl
  · cases he

theorem indexOf?_eq_some_iff (hsize : pool.size < UInt16.size) : pool.attributeNames.indexOf? k = some index ↔
    pool.attributeNames.kindOf? index = some k ∧
      ∀ other, pool.attributeNames.kindOf? other = some k → index ≤ other := by
  simp only [kindOf?_eq_some_iff_mem hsize]
  exact AttributeNames.indexOf?_eq_some_iff (ascending_attributeNames hsize)

/-- The table lists the slots with one of the tags in ascending order, each with what it names. -/
structure Lists {α : Type} (pool : ConstantPool) (tags : List UInt8) (named : UInt16 → α → Prop)
    (table : List (UInt16 × α)) : Prop where
  ascending : Ascending table
  covers : ∀ index, (∃ x, (index, x) ∈ table) ↔ ∃ tag ∈ tags, pool.tag? index = some tag
  names : ∀ index x, (index, x) ∈ table ↔ named index x

end ConstantPool

/-! ### The tables of a record -/

namespace Record
open ConstantPool
variable {b : Bytes} {r : Record} {index : UInt16}

theorem references_of_parse [Text.Encoding] (h : parse b = .ok r) : r.pool.references = .ok r.references := by
  obtain ⟨f, pos, stop, hopening, hrest⟩ := parse_eq_ok_iff.mp h
  obtain ⟨_, hcontinues⟩ := continues_of_remainder hrest
  rw [hcontinues.pool, hcontinues.references]
  exact (opening_readFrom hopening).references

/-- The part of the references that `part` takes out, by the tags of the constants that it comes from. -/
theorem lists_of_references [Text.Encoding] {α : Type} (part : Reference → Option α) (whole : α → Reference)
    {tags : List UInt8}
    (h : parse b = .ok r) (hpart : ∀ ref x, part ref = some x ↔ ref = whole x) (hzero : 0 ∉ tags)
    (htags : ∀ {index slot found}, r.pool.reference? index slot = .ok found →
      (slot.constant.tag ∈ tags ↔ ∃ x, found = some (whole x))) :
    r.pool.Lists tags (fun index x => r.pool.Names index (whole x))
      (r.references.filterMap fun (i, ref) => (part ref).map fun x => (i, x)) := by
  have hsize := (parse_readFrom h).slots
  have hrefs := references_of_parse h
  have hmem (index : UInt16) (x : α) :
      (index, x) ∈ r.references.filterMap (fun (i, ref) => (part ref).map fun x => (i, x)) ↔
        ∃ slot, r.pool.slot? index = some slot ∧ r.pool.reference? index slot = .ok (some (whole x)) := by
    rw [← mem_references hsize hrefs, List.mem_filterMap]
    simp [hpart]
  refine ⟨?_, fun index => ?_, fun index x => ?_⟩
  · refine (ascending_references hsize hrefs).filterMap fun e e' he => ?_
    obtain ⟨_, _, rfl⟩ := Option.map_eq_some_iff.mp he
    rfl
  · constructor
    · rintro ⟨x, hx⟩
      obtain ⟨slot, hslot, href⟩ := (hmem index x).mp hx
      have htag := (htags href).mpr ⟨x, rfl⟩
      refine ⟨_, htag, (tag?_eq_some_iff fun hnone => hzero (hnone ▸ htag)).mpr ⟨slot, hslot, rfl⟩⟩
    · rintro ⟨tag, htag, hindex⟩
      obtain ⟨slot, hslot, rfl⟩ := (tag?_eq_some_iff fun hnone => hzero (hnone ▸ htag)).mp hindex
      obtain ⟨found, hfound⟩ := exists_reference hsize hrefs hslot
      obtain ⟨x, rfl⟩ := (htags hfound).mp htag
      exact ⟨x, (hmem index x).mpr ⟨slot, hslot, hfound⟩⟩
  · rw [hmem]
    constructor
    · rintro ⟨slot, hslot, href⟩
      exact (reference?_eq_ok_iff hslot).mp href
    · intro hnames
      obtain ⟨slot, hslot⟩ := exists_slot hnames
      exact ⟨slot, hslot, (reference?_eq_ok_iff hslot).mpr hnames⟩

theorem lists_classRefs [Text.Encoding] (h : parse b = .ok r) : r.pool.Lists [7] r.pool.NamesClass r.classRefs :=
  lists_of_references Reference.class? .toClass h
    (fun ref _ => by cases ref <;> simp [Reference.class?]) (by decide)
    fun hfound => (tag_of_reference? hfound).1

theorem lists_methodRefs [Text.Encoding] (h : parse b = .ok r) :
    r.pool.Lists [10, 11] r.pool.NamesMethod r.methodRefs :=
  lists_of_references Reference.method? .toMethod h
    (fun ref _ => by cases ref <;> simp [Reference.method?]) (by decide)
    fun hfound => (tag_of_reference? hfound).2

/-- An empty slot is in no table. -/
theorem not_listed_of_empty [Text.Encoding] (h : parse b = .ok r) (hempty : r.pool.slot? index = none) :
    (∀ name, (index, name) ∉ r.classRefs) ∧ (∀ m, (index, m) ∉ r.methodRefs) ∧
      r.attributeNames.kindOf? index = none := by
  have hnames (ref : Reference) : ¬ r.pool.Names index ref := fun href => by
    obtain ⟨slot, hslot⟩ := exists_slot href
    rw [hempty] at hslot
    cases hslot
  refine ⟨fun name hmem => hnames (.toClass name) (((lists_classRefs h).names index name).mp hmem),
    fun m hmem => hnames (.toMethod m) (((lists_methodRefs h).names index m).mp hmem), ?_⟩
  refine Option.eq_none_iff_forall_ne_some.mpr fun k hk => ?_
  obtain ⟨bytes, hbytes, _⟩ := (kindOf?_eq_some_iff (parse_readFrom h).slots).mp hk
  rw [constant?, hempty] at hbytes
  cases hbytes

/-- What a record says of its pool is what stands there: the tables of classes and methods list the constants
that refer to one, the table of attribute names knows the texts that spell one, and nothing is said of the slot
behind a long or a double. Only the root of all classes has no super class. -/
theorem references_exact [Text.Encoding] (h : parse b = .ok r) :
    (∃ count cs, b.word? 8 = some count ∧ r.pool.size = count.toNat ∧ r.pool.Written b 10 cs) ∧
    r.pool.Lists [7] r.pool.NamesClass r.classRefs ∧
    r.pool.Lists [10, 11] r.pool.NamesMethod r.methodRefs ∧
    (∀ index k, r.attributeNames.kindOf? index = some k ↔
      ∃ bytes, r.pool.constant? index = some (.utf8 bytes) ∧ bytes.toList = k.nameBytes) ∧
    (∀ index k, r.attributeNames.indexOf? k = some index ↔ r.attributeNames.kindOf? index = some k ∧
      ∀ other, r.attributeNames.kindOf? other = some k → index ≤ other) ∧
    (∀ index next : UInt16, r.pool.tag? index = some 5 ∨ r.pool.tag? index = some 6 →
      next.toNat = index.toNat + 1 → (∀ name, (next, name) ∉ r.classRefs) ∧ (∀ m, (next, m) ∉ r.methodRefs) ∧
        r.attributeNames.kindOf? next = none) ∧
    (r.superName = none → r.name = Name.object) := by
  obtain ⟨f, pos, stop, hopening, hrest⟩ := parse_eq_ok_iff.mp h
  obtain ⟨_, hcontinues⟩ := continues_of_remainder hrest
  have hsize := (parse_readFrom h).slots
  obtain ⟨_, hcount, hslots, ⟨cs, hwritten, _⟩, _, _⟩ := opening_readFrom hopening
  rw [← hcontinues.pool] at hslots hwritten
  refine ⟨⟨_, cs, hcount, hslots, hwritten⟩, lists_classRefs h, lists_methodRefs h,
    fun _ _ => kindOf?_eq_some_iff hsize, fun _ _ => indexOf?_eq_some_iff hsize,
    fun index next htag hnext => ?_, ?_⟩
  · obtain ⟨slot, hslot, hwide⟩ : ∃ slot, r.pool.slot? index = some slot ∧ slot.constant.isWide = true := by
      rcases htag with htag | htag
      all_goals
        obtain ⟨slot, hslot, htag⟩ := (tag?_eq_some_iff (by decide)).mp htag
        exact ⟨slot, hslot, isWide_of_tag (by simp [htag])⟩
    exact not_listed_of_empty h (hwritten.slot?_after_wide hslot hwide hnext)
  · obtain ⟨mid, hsuper, _⟩ := hcontinues.superName
    rw [hcontinues.name]
    exact (of_superClass hsuper).2

/-! ### A file with all kinds of references -/

end Record

namespace Image.File

/-- Constants that point forwards and backwards, a class of arrays among them, around a slot that is taken. -/
def references : File where
  minor := 0
  major := 52
  pool := ⟨[.classRef 2, .utf8 (ascii "[Lp/A;"), .long 0 1, .methodRef 1 6, .nameAndType 7 8,
    .utf8 (ascii "clone"), .utf8 (ascii "()V"), .utf8 (ascii "p/B"), .classRef 9, .utf8 (ascii "Code")]⟩
  access := 0x21
  thisClass := 10
  superClass := 10
  interfaces := []
  fields := []
  methods := []
  attributes := []

end Image.File

namespace Record
open ConstantPool

theorem references_exact_sample : ∃ r, parse Image.File.references.bytes.toArray = .ok r ∧
    r.pool.NamesClass 1 "[p/A" ∧ r.pool.NamesMethod 5 ⟨"[p/A", "clone", "()V"⟩ ∧
    r.attributeNames.indexOf? .code = some 11 ∧
    (∀ other, r.attributeNames.kindOf? other = some .code → 11 ≤ other) ∧
    r.attributeNames.kindOf? 4 = none := by
  have hread : (parse Image.File.references.bytes.toArray).toOption.map (fun r =>
      (r.classRefs, r.methodRefs, r.attributeNames.indexOf? .code, r.pool.tag? 3)) =
      some ([(1, "[p/A"), (10, "p/B")], [(5, ⟨"[p/A", "clone", "()V"⟩)], some 11, some 5) := by decide +kernel
  cases hparse : parse Image.File.references.bytes.toArray with
  | error e =>
    rw [hparse] at hread
    cases hread
  | ok r =>
    rw [hparse] at hread
    simp only [Except.toOption, Option.map_some, Option.some.injEq, Prod.mk.injEq] at hread
    obtain ⟨hclasses, hmethods, hcode, htag⟩ := hread
    obtain ⟨_, hclassRefs, hmethodRefs, _, hindexOf, hafter, _⟩ := references_exact hparse
    refine ⟨r, rfl, (hclassRefs.names 1 _).mp ?_, (hmethodRefs.names 5 _).mp ?_, hcode,
      ((hindexOf 11 .code).mp hcode).2, (hafter 3 4 (.inl htag) (by decide)).2.2⟩
    · rw [hclasses]
      decide
    · rw [hmethods]
      decide

end Record
end ClassCatalog.ClassFile
