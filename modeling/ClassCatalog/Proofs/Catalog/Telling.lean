import ClassCatalog.Proofs.Catalog.Lookup

/-! What a lookup tells.

Reading bytes may ask the client for them and come upon archives that cannot be read; looking for a class may ask
which loader defines it and say that it is missing. None of this says that bytes are of no use. That is said by
the lookup that fails because of it, once, and by no other (`lookup_complains`). -/
namespace ClassCatalog
open ClassCatalog.Action

/-- What reading bytes may tell. -/
inductive Event.OfSources : Event → Prop where
  | askedBytes (batch : List ClassKey) : OfSources (.askedBytes batch)
  | unreadableArchive (path : Path) : OfSources (.unreadableArchive path)

def Event.isUnusable : Event → Bool
  | unusable _ _ => true
  | _ => false

theorem Event.OfSources.not_unusable {e : Event} (h : e.OfSources) : e.isUnusable = false := by
  cases h <;> rfl

/-! ### Sources -/

theorem Cache.Supplied.bytes_tells (key : ClassKey) (client : Option Client) :
    Leads (Tells Event.OfSources) (Cache.Supplied.bytes key client) := by
  have h := composes_leads (Tells (σ := Cache.Supplied) Event.OfSources)
  refine h.bind (fun _ => .of_journal rfl) fun s => ?_
  split
  · exact h.pure _
  · split
    · exact h.pure _
    · split
      · exact h.pure _
      · refine h.bind (h.bind (fun _ => .of_journal rfl) fun s => ?_) fun _ => fun _ => .of_journal rfl
        refine h.bind (fun _ => .of_event (.askedBytes _) rfl) fun answers => ?_
        split
        · exact fun _ => .of_journal rfl
        · exact h.fail _

theorem Cache.Supplied.serve_tells [Cache.Supplied.Arrangement] (key : ClassKey) (client : Option Client) :
    Leads (Tells Event.OfSources) (Cache.Supplied.serve key client) :=
  (composes_leads (Tells (σ := Cache.Supplied) Event.OfSources)).bind (fun _ => .of_journal rfl) fun _ =>
    Cache.Supplied.bytes_tells key client

namespace ClassPath
variable [Archive.Format] (files : Files.Tree)

theorem classesOf_tells (i : Nat) (e : Element) : Leads (Tells Event.OfSources) (classesOf files i e) := by
  have h := composes_leads (Tells (σ := ClassPath) Event.OfSources)
  unfold classesOf
  split
  · exact h.pure _
  · refine h.bind ?_ fun _ => h.bind (fun _ => .of_journal rfl) fun _ => h.pure _
    unfold listClasses
    split
    · exact h.pure _
    · refine h.bind (fun _ => .of_journal rfl) fun found => ?_
      split
      · exact h.pure _
      · exact h.bind (fun _ => .of_event (.unreadableArchive _) rfl) fun _ => h.pure _

theorem locate_tells (name : String) : Leads (Tells Event.OfSources) (locate files name) := by
  have h := composes_leads (Tells (σ := ClassPath) Event.OfSources)
  have hfrom : ∀ elements i, Leads (Tells Event.OfSources) (locateFrom files name i elements) := by
    intro elements
    induction elements with
    | nil => exact fun i => h.pure _
    | cons e rest ih =>
      refine fun i => h.bind (classesOf_tells files i e) fun classes => ?_
      split
      · exact h.pure _
      · exact ih (i + 1)
  exact h.bind (fun _ => .of_journal rfl) fun cp => hfrom cp.elements 0

theorem list_tells : Leads (Tells Event.OfSources) (list files) := by
  have h := composes_leads (Tells (σ := ClassPath) Event.OfSources)
  have hfrom : ∀ elements i seen, Leads (Tells Event.OfSources) (listFrom files i elements seen) := by
    intro elements
    induction elements with
    | nil => exact fun i seen => h.pure _
    | cons e rest ih => exact fun i seen => h.bind (classesOf_tells files i e) fun _ => ih (i + 1) _
  exact h.bind (fun _ => .of_journal rfl) fun cp => hfrom cp.elements 0 []

theorem read_tells (name : String) (location : Path) : Leads (Tells Event.OfSources) (read files name location) := by
  have h := composes_leads (Tells (σ := ClassPath) Event.OfSources)
  unfold read
  split
  · exact h.ofExcept _
  · refine h.bind (fun _ => .of_journal rfl) fun found => ?_
    split
    · exact h.ofExcept _
    · exact h.fail _

end ClassPath

theorem Cache.FileCache.classBytes_tells [Archive.Format] [Cache.Supplied.Arrangement] (files : Files.Tree)
    (client : Option Client) (name : String) (location : Location) :
    Leads (Tells Event.OfSources) (Cache.FileCache.classBytes files client name location) := by
  have h := composes_leads (Tells (σ := Cache.FileCache.Sources) Event.OfSources)
  unfold Cache.FileCache.classBytes
  split
  · exact leads_within (Cache.Supplied.serve_tells _ client) _ _
  · refine h.bind (fun _ => .of_journal rfl) fun s => h.bind (fun _ => .of_journal rfl) fun _ => ?_
    split
    · exact h.pure _
    · refine h.bind (h.bind (leads_within (ClassPath.read_tells files name _) _ _) fun _ => ?_) fun _ => h.pure _
      exact h.bind (fun _ => .of_journal rfl) fun _ => h.pure _
    · exact h.pure _

namespace Outside
variable (o : Outside)

theorem locate_tells (name : String) : Leads (Tells Event.OfSources) (o.locate name) :=
  letI := o.format
  ClassPath.locate_tells o.files name

theorem list_tells : Leads (Tells Event.OfSources) o.list :=
  letI := o.format
  ClassPath.list_tells o.files

theorem classBytes_tells (client : Option Client) (name : String) (location : Location) :
    Leads (Tells Event.OfSources) (o.classBytes client name location) :=
  letI := o.format
  letI := o.arrangement
  Cache.FileCache.classBytes_tells o.files client name location

end Outside

theorem LoadedClass.infoAndLayout_tells (P : Event → Prop) (i : Nat) : Leads (Tells P) (infoAndLayout i) := by
  have h := composes_leads (Tells (σ := LoadedClass) P)
  refine h.bind (fun _ => .of_journal rfl) fun c => ?_
  split
  · exact h.pure _
  · split
    · exact h.pure _
    · exact h.bind (h.ofExcept _) fun _ => h.bind (fun _ => .of_journal rfl) fun _ => h.pure _

theorem LoadedClass.bytecode_tells (P : Event → Prop) (i : Nat) : Leads (Tells P) (bytecode i) := by
  have h := composes_leads (Tells (σ := LoadedClass) P)
  exact h.bind (h.bind (infoAndLayout_tells P i) fun _ => h.pure _) fun _ => h.pure _

theorem LoadedClass.bytecodeLength_tells (P : Event → Prop) (i : Nat) : Leads (Tells P) (bytecodeLength i) := by
  have h := composes_leads (Tells (σ := LoadedClass) P)
  exact h.bind (h.bind (infoAndLayout_tells P i) fun _ => h.pure _) fun _ => h.pure _

namespace Catalog

/-- Whether an outcome is the failure at bytes that are not the class. -/
def failsFormat {α : Type} : Except ClassError α → Bool
  | .ok _ => false
  | .error e => e.isFormat

/-- From one scene to the next it is said that the bytes of a class are of no use if that is also how it comes out,
and nothing else of the kind. -/
def Complains {α : Type} (name : String) (loader : LoaderId) (r : Except ClassError α) (s t : Scene Catalog) :
    Prop :=
  ∃ told, t.journal = s.journal ++ told ∧
    told.filter Event.isUnusable = if failsFormat r then [.unusable name loader] else []

variable {o : Outside} {name : String} {loader : LoaderId} {placeholder : Option Nat} {s t u : Scene Catalog}
  {r : Except ClassError (Option ClassId)}

/-- Nothing is said of bytes that are of no use. -/
abbrev Reserved : Scene Catalog → Scene Catalog → Prop := Tells fun e => e.isUnusable = false

theorem Complains.of_reserved {α : Type} {r : Except ClassError α} (h : Reserved s t) (hr : failsFormat r = false) :
    Complains name loader r s t := by
  obtain ⟨told, ht, htold⟩ := h
  refine ⟨told, ht, ?_⟩
  rw [hr, List.filter_eq_nil_iff.mpr fun e he => by rw [htold e he]; exact Bool.false_ne_true]
  rfl

theorem Complains.after {α : Type} {r : Except ClassError α} (h : Reserved s t) (ht : Complains name loader r t u) :
    Complains name loader r s u := by
  obtain ⟨first, hfirst, hreserved⟩ := h
  obtain ⟨second, hsecond, hcomplains⟩ := ht
  refine ⟨first ++ second, by rw [hsecond, hfirst, List.append_assoc], ?_⟩
  have hnone : first.filter Event.isUnusable = [] :=
    List.filter_eq_nil_iff.mpr fun e he => by rw [hreserved e he]; exact Bool.false_ne_true
  rw [List.filter_append, hnone, hcomplains]
  rfl

/-! ### Loading -/

theorem onClassPath_tells {P : Event → Prop} {α : Type} (absent : α) {a : Action ClassPath α}
    (h : Leads (Tells P) a) : Leads (Tells P) (onClassPath absent a) :=
  (surveys_leads (Tells P)).onClassPath fun _ => leads_within h _ _

theorem onSources_tells {P : Event → Prop} {α : Type} {a : Action Cache.FileCache.Sources α}
    (h : Leads (Tells P) a) : Leads (Tells P) (onSources a) :=
  leads_within h _ _

theorem definingLoader_reserved (o : Outside) (name : String) (loader : LoaderId) :
    Leads Reserved (definingLoader o name loader) := by
  intro s
  cases hknown : s.state.index.defining.get? (name, loader) with
  | some l =>
    rw [start_definingLoader_of_known hknown]
    exact refl_of Reserved s
  | none =>
    rw [start_definingLoader hknown]
    split
    · exact .of_journal rfl
    · dsimp only
      split <;> exact .of_event rfl rfl

theorem reportMissing_reserved (name : String) (loader : LoaderId) : Leads Reserved (reportMissing name loader) :=
  (surveys_leads Reserved).reportMissing (fun _ => .of_journal rfl) fun _ => .of_event rfl rfl

theorem load_reserved (o : Outside) (name : String) (loader : LoaderId) : Leads Reserved (load o name loader) := by
  have h := surveys_leads Reserved
  have hsources : ∀ {s t : Scene Catalog}, Tells Event.OfSources s t → Reserved s t :=
    Tells.mono fun _ => Event.OfSources.not_unusable
  have hlocate := onClassPath_tells none (o.locate_tells name)
  have hread := fun client location => onSources_tells (o.classBytes_tells client name location)
  have hfirst := h.loadFirst_of_sources (fun s => hsources (hlocate s)) fun c l s => hsources (hread c l s)
  exact h.load (fun loaders _ => hfirst loaders) (definingLoader_reserved o name loader)
    (reportMissing_reserved name loader)

/-! ### Looking up -/

theorem loadAndEnroll_complains (h : (loadAndEnroll o name loader placeholder).start s = (r, t)) :
    Complains name loader r s t := by
  unfold loadAndEnroll at h
  rw [start_state_bind] at h
  split at h
  · cases h
    exact .of_reserved (.of_journal rfl) rfl
  · rw [start_bind, start_attempt] at h
    have hreserved := load_reserved o name loader s
    rcases hload : (load o name loader).start s with ⟨found, u⟩
    rw [hload] at h hreserved
    rcases found with e | _ | k
    · refine .after hreserved ?_
      dsimp only at h
      cases he : e.isFormat with
      | true =>
        simp only [noteUnusable, he, if_true, start_bind, start_update, start_report, start_fail] at h
        cases h
        exact ⟨[.unusable name loader], rfl, (if_pos he).symm⟩
      | false =>
        simp only [noteUnusable, he, Bool.false_eq_true, if_false, start_bind, start_pure, start_fail] at h
        cases h
        exact .of_reserved (.of_journal rfl) he
    · cases h
      exact .of_reserved hreserved rfl
    · cases h
      exact .of_reserved (trans_of Reserved hreserved (.of_journal rfl)) rfl

theorem findFitting_reserved (o : Outside) (name : String) (loader : LoaderId) (placeholders : Bool) :
    Leads Reserved (findFitting o name loader placeholders) :=
  (surveys_leads Reserved).findFitting (fun _ _ => .of_journal rfl) (definingLoader_reserved o name loader)

theorem definingLoader_error {e : ClassError} (h : (definingLoader o name loader).start s = (.error e, t)) :
    e = .targetTerminated := by
  cases hknown : s.state.index.defining.get? (name, loader) with
  | some l =>
    rw [start_definingLoader_of_known hknown] at h
    cases h
  | none =>
    rw [start_definingLoader hknown] at h
    split at h
    · cases h
    · dsimp only at h
      split at h
      · cases h
      · cases h
        rfl
      · cases h

/-- Finding an entry fails only if the client is gone. -/
theorem findFitting_error {placeholders : Bool} {e : ClassError}
    (h : (findFitting o name loader placeholders).start s = (.error e, t)) : e = .targetTerminated := by
  rw [start_findFitting] at h
  split at h
  · cases h
  · split at h
    · cases h
    · split at h
      · cases h
      · rcases of_start_bind h with ⟨e', hd, he⟩ | ⟨l, u, _, h⟩
        · cases he
          exact definingLoader_error hd
        · split at h <;> cases h

theorem lookupCanonical_complains (h : (lookupCanonical o name loader).start s = (r, t)) :
    Complains name loader r s t := by
  unfold lookupCanonical at h
  rw [start_bind] at h
  have hreserved := findFitting_reserved o name loader true s
  rcases hfound : (findFitting o name loader true).start s with ⟨found, u⟩
  rw [hfound] at h hreserved
  rcases found with e | _ | e
  · cases h
    cases findFitting_error hfound
    exact .of_reserved hreserved rfl
  · exact .after hreserved (loadAndEnroll_complains h)
  · cases e with
    | loaded id | special i =>
      cases h
      exact .of_reserved hreserved rfl
    | placeholder p => exact .after hreserved (loadAndEnroll_complains h)

/-- A lookup that fails at the bytes says so, and no other does. -/
theorem lookup_complains (o : Outside) (name : String) (loader : LoaderId) (s : Scene Catalog) :
    Complains (Name.canonical name) (Loader.normalize loader) ((lookup o name loader).start s).1 s
      ((lookup o name loader).start s).2 :=
  lookupCanonical_complains rfl

end Catalog
end ClassCatalog
