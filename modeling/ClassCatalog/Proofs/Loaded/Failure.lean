import ClassCatalog.Proofs.Loaded.StackMap

/-! Calls that fail show in nothing.

Layouts that have been scanned on the way to a failure stay remembered. So the class is not quite what it was
before, but it looks the same (`Resembles`): all that is noted on it and on its methods is, and the layouts of bodies
are, remembered or not. No call can tell classes apart that look alike, neither by its answer nor by what it
leaves (`perform_blind`), and every call that fails leaves a class that looks as it did (`perform_atomic`). -/
namespace ClassCatalog
open ClassCatalog.Action ClassFile

/-- What shows of a method: of its layout only what it is, not whether it is remembered. -/
structure Face where
  status : Status
  instrumentationId : Option Nat
  replacement : Option Bytes
  body : Option (Bytes × Except ClassError MethodLayout)

def MethodState.face (m : MethodState) (record : Record) (names : AttributeNames) (i : Nat) : Face where
  status := m.status
  instrumentationId := m.instrumentationId
  replacement := m.replacement
  body := (m.replacement <|> record.methodInfo? i).map fun info =>
    (info, match m.layout with
      | some l => .ok l
      | none => MethodLayout.ofInfo record.name info names)

namespace LoadedClass

def face? (c : LoadedClass) (i : Nat) : Option Face :=
  c.methods[i]?.map fun m => m.face c.record c.attributeNames i

/-- Classes that differ in nothing but in which layouts they remember. -/
inductive Resembles (c : LoadedClass) : LoadedClass → Prop where
  | intro (methods : Array MethodState) (h : ∀ i, { c with methods := methods }.face? i = c.face? i) :
      Resembles c { c with methods := methods }

/-- What a class answers for a body and its layout. -/
def found (c : LoadedClass) (i : Nat) : Except ClassError (Option (Bytes × MethodLayout)) :=
  match (c.face? i).bind Face.body with
  | none => .ok none
  | some (info, r) => r.map fun l => some (info, l)

variable {c d : LoadedClass} {m : MethodState} {i : Nat} {info : Bytes} {l : MethodLayout} {α β : Type}

theorem noted_eq_of_face {n : MethodState} {r : Record} {names : AttributeNames}
    (h : n.face r names i = m.face r names i) :
    n.status = m.status ∧ n.instrumentationId = m.instrumentationId ∧ n.replacement = m.replacement :=
  ⟨congrArg Face.status h, congrArg Face.instrumentationId h, congrArg Face.replacement h⟩

theorem face?_of_method (h : c.methods[i]? = some m) : c.face? i = some (m.face c.record c.attributeNames i) := by
  rw [face?, h, Option.map_some]

theorem info?_eq_face (c : LoadedClass) (i : Nat) :
    c.info? i = (c.face? i).bind fun face => face.body.map Prod.fst := by
  cases hm : c.methods[i]? with
  | none =>
    rw [info?, face?, hm]
    rfl
  | some m =>
    rw [info?_of_method hm, face?_of_method hm, Option.bind_some, MethodState.face, Option.map_map]
    exact Option.map_id'.symm

theorem isReplaced_eq_face (c : LoadedClass) (i : Nat) :
    c.isReplaced i = ((c.face? i).bind Face.replacement).isSome := by
  rw [isReplaced, face?]
  cases c.methods[i]? <;> rfl

namespace Resembles

theorem refl (c : LoadedClass) : Resembles c c := .intro c.methods fun _ => rfl

theorem symm (h : Resembles c d) : Resembles d c := by
  obtain ⟨_, h⟩ := h
  exact .intro c.methods fun i => (h i).symm

theorem trans {e : LoadedClass} (h : Resembles c d) (h' : Resembles d e) : Resembles c e := by
  obtain ⟨_, h⟩ := h
  obtain ⟨methods, h'⟩ := h'
  exact .intro methods fun i => (h' i).trans (h i)

instance : IsPreorder LoadedClass Resembles where
  refl := refl
  trans _ _ _ := trans

theorem face?_eq (h : Resembles c d) (i : Nat) : d.face? i = c.face? i := by
  obtain ⟨_, h⟩ := h
  exact h i

theorem found_eq (h : Resembles c d) (i : Nat) : d.found i = c.found i := by
  rw [found, found, h.face?_eq]

theorem exists_method (h : Resembles c d) (hm : c.methods[i]? = some m) :
    ∃ n, d.methods[i]? = some n ∧ n.face d.record d.attributeNames i = m.face c.record c.attributeNames i := by
  have hface := h.face?_eq i
  rw [face?_of_method hm] at hface
  exact Option.map_eq_some_iff.mp hface

theorem size_le (h : Resembles c d) : c.methods.size ≤ d.methods.size := by
  refine Nat.le_of_not_lt fun hlt => ?_
  obtain ⟨n, hn, _⟩ := h.exists_method (Array.getElem?_eq_getElem hlt)
  exact Nat.lt_irrefl _ (Array.getElem?_eq_some_iff.mp hn).1

theorem size_eq (h : Resembles c d) : d.methods.size = c.methods.size := Nat.le_antisymm h.symm.size_le h.size_le

theorem map_face {f : MethodState → α} {g : MethodState → Face} {x y : Option MethodState}
    (h : y.map g = x.map g) (hf : ∀ m n, g n = g m → f n = f m) : y.map f = x.map f := by
  cases x with
  | none =>
    cases y with
    | none => rfl
    | some n => cases h
  | some m =>
    cases y with
    | none => cases h
    | some n => exact congrArg some (hf m n (Option.some.inj h))

/-- Changing one method in a way that does not see what is remembered. -/
theorem setMethod (h : Resembles c d) {f : MethodState → MethodState}
    (hf : ∀ m n : MethodState, n.face c.record c.attributeNames i = m.face c.record c.attributeNames i →
      (f n).face c.record c.attributeNames i = (f m).face c.record c.attributeNames i) :
    Resembles (c.setMethod i f) (d.setMethod i f) := by
  obtain ⟨methods, h⟩ := h
  refine .intro (methods.modify i f) fun j => ?_
  have hj := h j
  show (methods.modify i f)[j]?.map _ = (c.methods.modify i f)[j]?.map _
  rw [Array.getElem?_modify, Array.getElem?_modify]
  by_cases hij : i = j
  · subst hij
    rw [if_pos rfl, if_pos rfl, Option.map_map, Option.map_map]
    exact map_face hj hf
  · rw [if_neg hij, if_neg hij]
    exact hj

end Resembles

/-! ### Bodies and layouts -/

theorem resembles_remember (hm : c.methods[i]? = some m) (hl : m.layout = none) (hinfo : c.info? i = some info)
    (hscan : c.scan info = .ok l) : Resembles c (c.remember i l) := by
  refine .intro _ fun j => ?_
  show (c.remember i l).methods[j]?.map _ = c.methods[j]?.map _
  rw [remember, getElem?_setMethod]
  by_cases hij : i = j
  · subst hij
    rw [if_pos rfl, hm]
    rw [info?_of_method hm] at hinfo
    simp only [Option.map_some, MethodState.face, hinfo, hl, ← hscan]
    rfl
  · rw [if_neg hij]

theorem found_of_method (hm : c.methods[i]? = some m) : c.found i = match c.info? i with
    | none => .ok none
    | some info =>
      match m.layout with
      | some l => .ok (some (info, l))
      | none => (c.scan info).map fun l => some (info, l) := by
  rw [found, face?_of_method hm, info?_of_method hm]
  simp only [Option.bind_some, MethodState.face]
  cases (m.replacement <|> c.record.methodInfo? i) with
  | none => rfl
  | some info => cases m.layout <;> rfl

/-- What is answered for a body and its layout depends on nothing that does not show, and no more is done than to
remember the layout. -/
theorem start_infoAndLayout_found (i : Nat) (s : Scene LoadedClass) :
    ((infoAndLayout i).start s).1 = s.state.found i ∧ Resembles s.state ((infoAndLayout i).start s).2.state := by
  obtain ⟨c, told⟩ := s
  unfold infoAndLayout
  rw [start_state_bind]
  cases hm : c.methods[i]? with
  | none =>
    have hinfo : c.info? i = none := by rw [info?, hm]; rfl
    simp only [hinfo, found, face?, hm]
    exact ⟨rfl, .refl c⟩
  | some m =>
    rw [found_of_method hm]
    cases hinfo : c.info? i with
    | none => exact ⟨rfl, .refl c⟩
    | some info =>
      cases hl : m.layout with
      | some l =>
        simp only [Option.bind_some, hl]
        exact ⟨rfl, .refl c⟩
      | none =>
        simp only [Option.bind_some, hl]
        rw [start_bind, start_ofExcept]
        cases hscan : c.scan info with
        | error e => exact ⟨rfl, .refl c⟩
        | ok l => exact ⟨rfl, resembles_remember hm hl hinfo hscan⟩

/-! ### No call tells them apart -/

/-- The action answers the same of classes that look alike and leaves such classes. -/
abbrev Blind (a : Action LoadedClass α) : Prop := Mirrors (fun s t => Resembles s.state t.state) a a

theorem composes_blind : Composes fun _ (a : Action LoadedClass _) => Blind a := composes_mirrors _

theorem blind_update {f : LoadedClass → LoadedClass} (h : ∀ {c d}, Resembles c d → Resembles (f c) (f d)) :
    Blind (update f) := fun _ _ hst => ⟨rfl, h hst⟩

/-- Reading the class first: what follows may read what shows. -/
theorem blind_state_bind {f : LoadedClass → Action LoadedClass α}
    (h : ∀ c d, Resembles c d → Mirrors (fun s t => Resembles s.state t.state) (f c) (f d)) :
    Blind (state >>= f) :=
  fun s t hst => h s.state t.state hst hst

theorem infoAndLayout_blind (i : Nat) : Blind (infoAndLayout i) := by
  intro s t hst
  obtain ⟨hs, hs'⟩ := start_infoAndLayout_found i s
  obtain ⟨ht, ht'⟩ := start_infoAndLayout_found i t
  exact ⟨by rw [hs, ht, hst.found_eq], (hs'.symm.trans hst).trans ht'⟩

theorem stackMap_blind (i : Nat) : Blind (stackMap i) := by
  refine blind_state_bind fun c d hcd => ?_
  obtain ⟨_, _⟩ := hcd
  refine composes_blind.bind (composes_codeLayout composes_blind (infoAndLayout_blind i)) fun found => ?_
  split
  · exact composes_blind.pure _
  · split
    · exact composes_blind.pure _
    · dsimp only
      split
      · exact composes_blind.fail _
      · exact composes_blind.ofExcept _

theorem Resembles.withBody (h : Resembles c d) (i : Nat) (info : Bytes) (l : MethodLayout) :
    Resembles (c.withBody i info l) (d.withBody i info l) :=
  h.setMethod fun m n hface => by
    obtain ⟨hstatus, hid, _⟩ := noted_eq_of_face hface
    rw [MethodState.face, MethodState.face, hstatus, hid]

theorem replaceBody_blind (i : Nat) (info : Bytes) : Blind (replaceBody i info) := by
  refine blind_state_bind fun c d hcd => ?_
  have hsize := hcd.size_eq
  have hscan : d.scan info = c.scan info := by obtain ⟨_, _⟩ := hcd; rfl
  have hname : d.name = c.name := by obtain ⟨_, _⟩ := hcd; rfl
  simp only [hsize, hscan, hname]
  split
  · exact composes_blind.fail _
  · exact mirrors_bind (composes_blind.ofExcept _) fun l _ _ _ => ⟨rfl, hcd.withBody i info l⟩

theorem putStackMap_blind (i : Nat) (t : StackMap.Table) : Blind (putStackMap i t) := by
  refine blind_state_bind fun c d hcd => ?_
  obtain ⟨_, _⟩ := hcd
  refine composes_blind.bind (composes_codeLayout composes_blind (infoAndLayout_blind i)) fun found => ?_
  split
  · exact composes_blind.fail _
  · split
    · exact composes_blind.fail _
    · exact composes_blind.pure _
    · exact replaceBody_blind i _

theorem editStackMap_blind (i : Nat) (e : StackMap.Edit) : Blind (editStackMap i e) :=
  composes_editStackMap composes_blind (stackMap_blind i) (putStackMap_blind i) e

theorem addFullFrame_blind (i offset : Nat) (locals stack : List StackMap.VerificationType) :
    Blind (addFullFrame i offset locals stack) :=
  composes_addFullFrame composes_blind (stackMap_blind i) (putStackMap_blind i) offset locals stack

/-! ### Changes -/

namespace Resembles

theorem setInstrumentationId (h : Resembles c d) (i id : Nat) :
    Resembles (c.setInstrumentationId i id) (d.setInstrumentationId i id) :=
  h.setMethod fun _ _ hface => congrArg (fun face : Face => { face with instrumentationId := some id }) hface

theorem restoreBody (h : Resembles c d) (i : Nat) : Resembles (c.restoreBody i) (d.restoreBody i) :=
  h.setMethod fun m n hface => by
    obtain ⟨hstatus, hid, _⟩ := noted_eq_of_face hface
    rw [MethodState.face, MethodState.face, hstatus, hid]

theorem recount (h : Resembles c d) (count : Nat) :
    Resembles { c with instrumentedCount := count } { d with instrumentedCount := count } := by
  obtain ⟨methods, h⟩ := h
  exact .intro methods h

theorem changeStatus (h : Resembles c d) (i : Nat) (f : Status → Status) :
    Resembles (c.changeStatus i f) (d.changeStatus i f) := by
  have hmethods : Resembles (c.setMethod i fun m => { m with status := f m.status })
      (d.setMethod i fun m => { m with status := f m.status }) :=
    h.setMethod fun m n hface => congrArg (fun face : Face => { face with status := f face.status }) hface
  have hstatus : d.methods[i]?.map MethodState.status = c.methods[i]?.map MethodState.status := by
    have := congrArg (Option.map Face.status) (h.face?_eq i)
    rwa [face?, face?, Option.map_map, Option.map_map] at this
  have hcount : d.instrumentedCount = c.instrumentedCount := by obtain ⟨_, _⟩ := h; rfl
  rw [changeStatus_eq, changeStatus_eq, hstatus, hcount]
  exact hmethods.recount _

theorem reserve (h : Resembles c d) (purpose count : Nat) :
    Resembles (c.reserve purpose count).2 (d.reserve purpose count).2 := by
  obtain ⟨methods, h⟩ := h
  unfold LoadedClass.reserve
  dsimp only
  split
  · exact .intro methods h
  · exact .intro methods h

/-- Without remembered layouts, classes by other attribute names are as much alike. -/
theorem forget (h : Resembles c d) (names : AttributeNames) :
    Resembles { c with attributeNames := names }.forgetLayouts { d with attributeNames := names }.forgetLayouts := by
  obtain ⟨methods, h⟩ := h
  refine .intro (methods.map _) fun i => ?_
  have hi := h i
  show (methods.map _)[i]?.map _ = (c.methods.map _)[i]?.map _
  rw [Array.getElem?_map, Array.getElem?_map, Option.map_map, Option.map_map]
  refine map_face hi fun m n hface => ?_
  obtain ⟨hstatus, hid, hreplacement⟩ := noted_eq_of_face hface
  simp only [Function.comp_apply, MethodState.face, hstatus, hid, hreplacement]

theorem addAttributeName (h : Resembles c d) (index : UInt16) (kind : AttributeKind) :
    Resembles (c.addAttributeName index kind) (d.addAttributeName index kind) := by
  have hnames : d.attributeNames = c.attributeNames := by obtain ⟨_, _⟩ := h; rfl
  rw [LoadedClass.addAttributeName, LoadedClass.addAttributeName, hnames]
  exact h.forget _

theorem forgetLayouts (h : Resembles c d) : Resembles c.forgetLayouts d.forgetLayouts := by
  obtain ⟨methods, h⟩ := h
  exact (Resembles.intro methods h).forget c.attributeNames

end Resembles

/-- No call can tell apart classes that look alike. -/
theorem perform_blind (call : Call) : Blind (perform call) := by
  by_cases hreads : call.reads
  · exact perform_of_reads composes_blind infoAndLayout_blind stackMap_blind hreads
  cases call with
  | setStatus i flags => exact blind_update fun h => h.changeStatus i _
  | clearStatus i flags => exact blind_update fun h => h.changeStatus i _
  | mark i => exact blind_update fun h => h.changeStatus i fun s => s.set .instrumented
  | unmark i => exact blind_update fun h => h.changeStatus i fun s => s.clear .instrumented
  | setInstrumentationId i id => exact blind_update fun h => h.setInstrumentationId i id
  | reserve purpose count => exact blind_update fun h => h.reserve purpose count
  | setLoaded loaded => exact blind_update fun ⟨methods, h⟩ => .intro methods h
  | setRoots => exact blind_update fun ⟨methods, h⟩ => .intro methods h
  | setMarkers => exact blind_update fun ⟨methods, h⟩ => .intro methods h
  | adopt roots markers subclasses => exact blind_update fun ⟨methods, h⟩ => .intro methods h
  | setSuper id => exact blind_update fun ⟨methods, h⟩ => .intro methods h
  | addInterface id => exact blind_update fun ⟨methods, h⟩ => .intro methods h
  | addSubclass id => exact blind_update fun ⟨methods, h⟩ => .intro methods h
  | replaceBody i info => exact replaceBody_blind i info
  | restoreBody i => exact blind_update fun h => h.restoreBody i
  | forgetLayouts => exact blind_update Resembles.forgetLayouts
  | addAttributeName index kind => exact blind_update fun h => h.addAttributeName index kind
  | putStackMap i t => exact putStackMap_blind i t
  | editStackMap i e => exact composes_blind.bind (editStackMap_blind i e) fun _ => composes_blind.pure _
  | addFullFrame i offset locals stack => exact addFullFrame_blind i offset locals stack
  | _ => exact absurd rfl hreads

theorem Resembles.after (h : Resembles c d) (calls : List Call) : Resembles (after calls c) (after calls d) := by
  induction calls generalizing c d with
  | nil => exact h
  | cons call rest ih => exact ih (perform_blind call h).2

/-! ### Failing -/

/-- The action leaves a class that looks as before, unless it succeeds. -/
def Atomic (a : Action LoadedClass α) : Prop :=
  ∀ s, (∃ e, (a.start s).1 = .error e) → Resembles s.state (a.start s).2.state

namespace Atomic

theorem of_keeps {a : Action LoadedClass α} (h : Keeps Resembles a) : Atomic a := fun s _ => h s

theorem update (f : LoadedClass → LoadedClass) : Atomic (update f) := by
  rintro s ⟨e, he⟩
  cases he

theorem bind {a : Action LoadedClass α} {f : α → Action LoadedClass β} (h : Keeps Resembles a)
    (hf : ∀ x, Atomic (f x)) : Atomic (a >>= f) := by
  rintro s ⟨e, he⟩
  have hfirst := h s
  rw [start_bind] at he ⊢
  rcases hstart : a.start s with ⟨_ | x, t⟩
  · rw [hstart] at hfirst
    exact hfirst
  · rw [hstart] at he hfirst
    exact hfirst.trans (hf x t ⟨e, he⟩)

/-- Answering from what has been done. -/
theorem map {a : Action LoadedClass α} (h : Atomic a) (f : α → β) : Atomic (a >>= fun x => pure (f x)) := by
  rintro s ⟨e, he⟩
  rw [start_bind] at he ⊢
  rcases hstart : a.start s with ⟨e' | x, t⟩
  · have := h s ⟨e', by rw [hstart]⟩
    rwa [hstart] at this
  · rw [hstart] at he
    cases he

end Atomic

theorem infoAndLayout_keeps (i : Nat) : Keeps Resembles (infoAndLayout i) :=
  fun s => (start_infoAndLayout_found i s).2

theorem replaceBody_atomic (i : Nat) (info : Bytes) : Atomic (replaceBody i info) := by
  refine .bind .state fun c => ?_
  split
  · exact .of_keeps (.fail _)
  · refine .bind (.ofExcept _) fun l => ?_
    rintro s ⟨e, he⟩
    cases he

theorem putStackMap_atomic (i : Nat) (t : StackMap.Table) : Atomic (putStackMap i t) := by
  refine .bind .state fun c =>
    .bind (composes_codeLayout (Keeps.composes Resembles) (infoAndLayout_keeps i)) fun found => ?_
  split
  · exact .of_keeps (.fail _)
  · split
    · exact .of_keeps (.fail _)
    · exact .of_keeps (.pure _)
    · exact replaceBody_atomic i _

theorem editStackMap_atomic (i : Nat) (e : StackMap.Edit) : Atomic (editStackMap i e) := by
  refine .bind (stackMap_keeps (infoAndLayout_keeps i)) fun t => ?_
  dsimp only
  split
  · exact .of_keeps (.fail _)
  · split
    · exact (putStackMap_atomic i _).map _
    · exact .of_keeps (.pure _)

theorem addFullFrame_atomic (i offset : Nat) (locals stack : List StackMap.VerificationType) :
    Atomic (addFullFrame i offset locals stack) := by
  refine .bind (stackMap_keeps (infoAndLayout_keeps i)) fun t => ?_
  split
  · exact .of_keeps (.fail _)
  · exact putStackMap_atomic i _

/-- A call that fails leaves a class that looks as before. -/
theorem perform_atomic (call : Call) : Atomic (perform call) := by
  by_cases hreads : call.reads
  · exact .of_keeps (perform_of_reads (Keeps.composes Resembles) infoAndLayout_keeps
      (fun i => stackMap_keeps (infoAndLayout_keeps i)) hreads)
  cases call with
  | replaceBody i info => exact replaceBody_atomic i info
  | putStackMap i t => exact putStackMap_atomic i t
  | editStackMap i e => exact (editStackMap_atomic i e).map _
  | addFullFrame i offset locals stack => exact addFullFrame_atomic i offset locals stack
  | layout | bytecode | bytecodeLength | handlersOffset | localVariablesOffset | localVariableTypesOffset
  | stackMapOffset | localVariables | localVariableTypes | stackMap => exact absurd rfl hreads
  | _ => exact .update _

/-! ### What is seen -/

/-- What a class answers about one of its methods. -/
structure MethodAnswers where
  info : Option Bytes
  isReplaced : Bool
  layout : Except ClassError (Option MethodLayout)
  bytecode : Except ClassError (Option Bytes)
  bytecodeLength : Except ClassError Nat
  handlersOffset : Except ClassError (Option Nat)
  localVariablesOffset : Except ClassError (Option Nat)
  localVariableTypesOffset : Except ClassError (Option Nat)
  stackMapOffset : Except ClassError (Option Nat)
  localVariables : Except ClassError (List Variable)
  localVariableTypes : Except ClassError (List Variable)
  stackMap : Except ClassError StackMap.Table

/-- All that can be asked of a class: what is noted on it, and its answers about the bodies of methods. -/
structure View where
  noted : LoadedClass
  methods : Nat → MethodAnswers

def answers (c : LoadedClass) (i : Nat) : MethodAnswers where
  info := c.info? i
  isReplaced := c.isReplaced i
  layout := ((layout i).start ⟨c, []⟩).1
  bytecode := ((bytecode i).start ⟨c, []⟩).1
  bytecodeLength := ((bytecodeLength i).start ⟨c, []⟩).1
  handlersOffset := ((handlersOffset i).start ⟨c, []⟩).1
  localVariablesOffset := ((localVariablesOffset i).start ⟨c, []⟩).1
  localVariableTypesOffset := ((localVariableTypesOffset i).start ⟨c, []⟩).1
  stackMapOffset := ((stackMapOffset i).start ⟨c, []⟩).1
  localVariables := ((localVariables i).start ⟨c, []⟩).1
  localVariableTypes := ((localVariableTypes i).start ⟨c, []⟩).1
  stackMap := ((stackMap i).start ⟨c, []⟩).1

def view (c : LoadedClass) : View := ⟨c.forgetLayouts, c.answers⟩

theorem Resembles.forgetLayouts_eq (h : Resembles c d) : d.forgetLayouts = c.forgetLayouts := by
  obtain ⟨methods, h⟩ := h
  have hmethods : methods.map (fun m => { m with layout := none }) =
      c.methods.map fun m => { m with layout := none } := by
    apply Array.ext_getElem?
    intro i
    rw [Array.getElem?_map, Array.getElem?_map]
    exact map_face (h i) fun _ _ hface =>
      congrArg (fun face : Face => MethodState.mk face.status face.instrumentationId face.replacement none) hface
  show { c with methods := methods.map _ } = { c with methods := c.methods.map _ }
  rw [hmethods]

theorem Resembles.answers_eq (h : Resembles c d) (i : Nat) : d.answers i = c.answers i := by
  have hseen : ∀ {α : Type} {a : Action LoadedClass α}, Blind a →
      (a.start ⟨d, []⟩).1 = (a.start ⟨c, []⟩).1 :=
    fun ha => (ha (s := ⟨c, []⟩) (t := ⟨d, []⟩) h).1
  have hcode := composes_codeLayout composes_blind (infoAndLayout_blind i)
  have hread : ∀ {α : Type} (f : Option (Bytes × MethodLayout × CodeLayout) → α),
      ((codeLayout i >>= fun found => pure (f found)).start ⟨d, []⟩).1 =
        ((codeLayout i >>= fun found => pure (f found)).start ⟨c, []⟩).1 :=
    fun f => hseen (composes_blind.bind hcode fun _ => composes_blind.pure _)
  have hinfo : d.info? i = c.info? i := by rw [info?_eq_face, info?_eq_face, h.face?_eq]
  have hreplaced : d.isReplaced i = c.isReplaced i := by rw [isReplaced_eq_face, isReplaced_eq_face, h.face?_eq]
  unfold answers
  congr 1
  · exact hseen (composes_blind.bind (infoAndLayout_blind i) fun _ => composes_blind.pure _)
  · exact hread _
  · exact hread _
  · exact hread _
  · exact hread _
  · exact hread _
  · exact hread _
  · exact hread _
  · exact hread _
  · exact hseen (stackMap_blind i)

theorem Resembles.view_eq (h : Resembles c d) : d.view = c.view := by
  rw [view, view, h.forgetLayouts_eq, funext h.answers_eq]

/-- **Failing calls.** Whatever the class and whatever call fails on it, the class is seen as it was: what is
noted on it, every body and all that is answered about it. It stays so whatever is done with it afterwards. -/
theorem failure_unseen (c : LoadedClass) (told : Journal) (call : Call)
    (h : ∃ e, ((perform call).start ⟨c, told⟩).1 = .error e) (calls : List Call) :
    (after calls ((perform call).start ⟨c, told⟩).2.state).view = (after calls c).view :=
  ((perform_atomic call ⟨c, told⟩ h).after calls).view_eq

/-- A class that has no name for stack maps: the layout is remembered before a frame is refused. -/
theorem failure_unseen_unnamed :
    let c := after [.addAttributeName 1 .code] (new sampleClass.record Loader.root (.supplied 0))
    let failed := (perform (.addFullFrame 0 0 [] [])).start ⟨c, []⟩
    failed.1 = .error (.misplaced (.noStackMapName "A")) ∧ failed.2.state ≠ c ∧
      failed.2.state.view = c.view := by
  intro c failed
  have herror : failed.1 = .error (.misplaced (.noStackMapName "A")) := by decide +kernel
  have hremembered : failed.2.state ≠ c := by decide +kernel
  exact ⟨herror, hremembered, failure_unseen c [] (.addFullFrame 0 0 [] []) ⟨_, herror⟩ []⟩

end LoadedClass
end ClassCatalog
