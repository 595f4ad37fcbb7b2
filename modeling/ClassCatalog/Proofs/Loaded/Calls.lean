import Mathlib.Logic.Relation
import ClassCatalog.Loaded.StackMap
import ClassCatalog.Proofs.Loaded.Notes

/-! What can be asked of a loaded class, and what that does to it.

A class is changed in few ways, one for each constructor of `Step`; every call, whether it succeeds or
fails, goes some of these steps one after the other (`perform_steps`). So what holds of a new class and
survives a step holds of every class there can be (`Reachable.invariant`).

A class stays what it is: its record, its loader and what has been noted on it (`Steps.grows`). And remembered
layouts are up to date (`Current`): the layout of a method can be taken from a fresh scan of its body
(`start_infoAndLayout`). -/
namespace ClassCatalog
open ClassCatalog.Action ClassFile Relation

namespace LoadedClass

inductive Call where
  | setStatus (i : Nat) (flags : Status)
  | clearStatus (i : Nat) (flags : Status)
  | mark (i : Nat)
  | unmark (i : Nat)
  | setInstrumentationId (i id : Nat)
  | setLoaded (loaded : Bool)
  | setRoots
  | setMarkers
  | adopt (roots markers : Bool) (subclasses : List ClassId)
  | setSuper (id : Option ClassId)
  | addInterface (id : ClassId)
  | addSubclass (id : ClassId)
  | reserve (purpose count : Nat)
  | layout (i : Nat)
  | bytecode (i : Nat)
  | bytecodeLength (i : Nat)
  | handlersOffset (i : Nat)
  | localVariablesOffset (i : Nat)
  | localVariableTypesOffset (i : Nat)
  | stackMapOffset (i : Nat)
  | localVariables (i : Nat)
  | localVariableTypes (i : Nat)
  | replaceBody (i : Nat) (info : Bytes)
  | restoreBody (i : Nat)
  | forgetLayouts
  | addAttributeName (index : UInt16) (kind : AttributeKind)
  | stackMap (i : Nat)
  | putStackMap (i : Nat) (t : StackMap.Table)
  | editStackMap (i : Nat) (e : StackMap.Edit)
  | addFullFrame (i offset : Nat) (locals stack : List StackMap.VerificationType)
deriving DecidableEq, Repr

/-- The calls that only look at the body of a method. -/
def Call.reads : Call → Bool
  | .layout _ | .bytecode _ | .bytecodeLength _ | .handlersOffset _ | .localVariablesOffset _
  | .localVariableTypesOffset _ | .stackMapOffset _ | .localVariables _ | .localVariableTypes _
  | .stackMap _ => true
  | _ => false

/-- Makes a call; its answer is dropped. -/
def perform : Call → Action LoadedClass Unit
  | .setStatus i flags => update fun c => c.setStatus i flags
  | .clearStatus i flags => update fun c => c.clearStatus i flags
  | .mark i => update fun c => c.mark i
  | .unmark i => update fun c => c.unmark i
  | .setInstrumentationId i id => update fun c => c.setInstrumentationId i id
  | .setLoaded loaded => update fun c => { c with loaded := loaded }
  | .setRoots => update fun c => { c with allRoots := true }
  | .setMarkers => update fun c => { c with allMarkers := true }
  | .adopt roots markers subclasses => update fun c => c.adopt roots markers subclasses
  | .setSuper id => update fun c => { c with superClass := id }
  | .addInterface id => update fun c => c.addInterface id
  | .addSubclass id => update fun c => c.addSubclass id
  | .reserve purpose count => update fun c => (c.reserve purpose count).2
  | .layout i => do discard (layout i)
  | .bytecode i => do discard (bytecode i)
  | .bytecodeLength i => do discard (bytecodeLength i)
  | .handlersOffset i => do discard (handlersOffset i)
  | .localVariablesOffset i => do discard (localVariablesOffset i)
  | .localVariableTypesOffset i => do discard (localVariableTypesOffset i)
  | .stackMapOffset i => do discard (stackMapOffset i)
  | .localVariables i => do discard (localVariables i)
  | .localVariableTypes i => do discard (localVariableTypes i)
  | .replaceBody i info => replaceBody i info
  | .restoreBody i => update fun c => c.restoreBody i
  | .forgetLayouts => update forgetLayouts
  | .addAttributeName index kind => update fun c => c.addAttributeName index kind
  | .stackMap i => do discard (stackMap i)
  | .putStackMap i t => putStackMap i t
  | .editStackMap i e => do discard (editStackMap i e)
  | .addFullFrame i offset locals stack => addFullFrame i offset locals stack

/-- The class after calls have been made, whatever they have answered. -/
def after : List Call → LoadedClass → LoadedClass
  | [], c => c
  | call :: rest, c => after rest ((perform call).start ⟨c, []⟩).2.state

/-- A class that can be come to. -/
def Reachable (c : LoadedClass) : Prop :=
  ∃ record loader location calls, c = after calls (.new record loader location)

/-! ### Looking at bodies -/

section
variable {P : ⦃α : Type⦄ → Action LoadedClass α → Prop}

theorem composes_codeLayout (hP : Composes P) {i : Nat} (h : P (infoAndLayout i)) : P (codeLayout i) :=
  hP.bind h fun _ => hP.pure _

/-- What looking for a body has, every call that looks at one has. -/
theorem perform_of_reads (hP : Composes P) (hlayout : ∀ i, P (infoAndLayout i)) (htable : ∀ i, P (stackMap i))
    {call : Call} (h : call.reads) : P (perform call) := by
  have hdiscard : ∀ {α : Type} {a : Action LoadedClass α}, P a → P (discard a) :=
    fun ha => hP.bind ha fun _ => hP.pure _
  have hread : ∀ {α : Type} (i : Nat) (f : Option (Bytes × MethodLayout × CodeLayout) → α),
      P (codeLayout i >>= fun found => pure (f found)) :=
    fun i _ => hP.bind (composes_codeLayout hP (hlayout i)) fun _ => hP.pure _
  cases call with
  | layout i => exact hdiscard (hP.bind (hlayout i) fun _ => hP.pure _)
  | bytecode i => exact hdiscard (hread i _)
  | bytecodeLength i => exact hdiscard (hread i _)
  | handlersOffset i => exact hdiscard (hread i _)
  | localVariablesOffset i => exact hdiscard (hread i _)
  | localVariableTypesOffset i => exact hdiscard (hread i _)
  | stackMapOffset i => exact hdiscard (hread i _)
  | localVariables i => exact hdiscard (hread i _)
  | localVariableTypes i => exact hdiscard (hread i _)
  | stackMap i => exact hdiscard (htable i)
  | _ => cases h

/-- What reading a table and putting one back have, editing the table has. -/
theorem composes_editStackMap (hP : Composes P) {i : Nat} (h : P (stackMap i)) (hput : ∀ t, P (putStackMap i t))
    (e : StackMap.Edit) : P (editStackMap i e) := by
  refine hP.bind h fun t => ?_
  dsimp only
  split
  · exact hP.fail _
  · split
    · exact hP.bind (hput _) fun _ => hP.pure _
    · exact hP.pure _

theorem composes_addFullFrame (hP : Composes P) {i : Nat} (h : P (stackMap i)) (hput : ∀ t, P (putStackMap i t))
    (offset : Nat) (locals stack : List StackMap.VerificationType) : P (addFullFrame i offset locals stack) := by
  refine hP.bind h fun t => ?_
  split
  · exact hP.fail _
  · exact hput _

end

theorem stackMap_keeps {R : LoadedClass → LoadedClass → Prop} [IsPreorder LoadedClass R] {i : Nat}
    (h : Keeps R (infoAndLayout i)) : Keeps R (stackMap i) := by
  refine Keeps.bind .state fun c => (composes_codeLayout (Keeps.composes R) h).bind fun found => ?_
  split
  · exact .pure _
  · split
    · exact .pure _
    · dsimp only
      split
      · exact .fail _
      · exact .ofExcept _

/-! ### Changing bodies -/

/-- A class with the layout of the method `i` remembered. -/
def remember (c : LoadedClass) (i : Nat) (l : MethodLayout) : LoadedClass :=
  c.setMethod i fun m => { m with layout := some l }

/-- A class with the body of the method `i` replaced. -/
def withBody (c : LoadedClass) (i : Nat) (info : Bytes) (l : MethodLayout) : LoadedClass :=
  c.setMethod i fun m => { m with replacement := some info, layout := some l }

section
variable {R : LoadedClass → LoadedClass → Prop} [IsPreorder LoadedClass R]

theorem keeps_infoAndLayout
    (h : ∀ {c : LoadedClass} {i info l}, c.info? i = some info → c.scan info = .ok l → R c (c.remember i l))
    (i : Nat) : Keeps R (infoAndLayout i) := by
  refine Keeps.state_bind fun s => ?_
  split
  · exact refl_of R s.state
  · rename_i info hinfo
    split
    · exact refl_of R s.state
    · rw [start_bind, start_ofExcept]
      cases hscan : s.state.scan info with
      | error e => exact refl_of R s.state
      | ok l => exact h hinfo hscan

theorem keeps_replaceBody
    (h : ∀ {c : LoadedClass} {info l} (i : Nat), c.scan info = .ok l → R c (c.withBody i info l))
    (i : Nat) (info : Bytes) : Keeps R (replaceBody i info) := by
  refine Keeps.state_bind fun s => ?_
  split
  · exact refl_of R s.state
  · rw [start_bind, start_ofExcept]
    cases hscan : s.state.scan info with
    | error e => exact refl_of R s.state
    | ok l => exact h i hscan

variable (hlook : ∀ i, Keeps R (infoAndLayout i)) (hreplace : ∀ i info, Keeps R (replaceBody i info))
include hlook hreplace

theorem keeps_putStackMap (i : Nat) (t : StackMap.Table) : Keeps R (putStackMap i t) := by
  refine Keeps.bind .state fun c => (composes_codeLayout (Keeps.composes R) (hlook i)).bind fun found => ?_
  split
  · exact .fail _
  · split
    · exact .fail _
    · exact .pure _
    · exact hreplace i _

theorem keeps_editStackMap (i : Nat) (e : StackMap.Edit) : Keeps R (editStackMap i e) :=
  composes_editStackMap (Keeps.composes R) (stackMap_keeps (hlook i)) (keeps_putStackMap hlook hreplace i) e

theorem keeps_addFullFrame (i offset : Nat) (locals stack : List StackMap.VerificationType) :
    Keeps R (addFullFrame i offset locals stack) :=
  composes_addFullFrame (Keeps.composes R) (stackMap_keeps (hlook i)) (keeps_putStackMap hlook hreplace i) offset
    locals stack

end

/-! ### Steps -/

inductive Step : LoadedClass → LoadedClass → Prop where
  | status (c : LoadedClass) (i : Nat) (f : Status → Status) : Step c (c.changeStatus i f)
  | identified (c : LoadedClass) (i id : Nat) : Step c (c.setInstrumentationId i id)
  | reserved (c : LoadedClass) (purpose count : Nat) : Step c (c.reserve purpose count).2
  | noted (c : LoadedClass) (superClass : Option ClassId) (interfaces : List ClassId) (loaded : Bool) {n : Notes}
      (hnotes : c.notes ≤ n) (honce : c.subclasses.Nodup → n.subclasses.Nodup) :
      Step c { c with
        superClass := superClass
        interfaces := interfaces
        loaded := loaded
        allRoots := n.roots
        allMarkers := n.markers
        subclasses := n.subclasses }
  | remembered {c : LoadedClass} {i : Nat} {info : Bytes} {l : MethodLayout} (hinfo : c.info? i = some info)
      (hscan : c.scan info = .ok l) : Step c (c.remember i l)
  | replaced {c : LoadedClass} {info : Bytes} {l : MethodLayout} (i : Nat) (hscan : c.scan info = .ok l) :
      Step c (c.withBody i info l)
  | restored (c : LoadedClass) (i : Nat) : Step c (c.restoreBody i)
  | forgotten (c : LoadedClass) : Step c c.forgetLayouts
  | named (c : LoadedClass) (index : UInt16) (kind : AttributeKind) : Step c (c.addAttributeName index kind)

abbrev Steps : LoadedClass → LoadedClass → Prop := ReflTransGen Step

instance : IsPreorder LoadedClass Steps where
  refl _ := .refl
  trans _ _ _ := .trans

/-- What every step keeps, any number of steps keep. -/
theorem holds_of_steps {P : LoadedClass → Prop} {c c' : LoadedClass} (h : P c) (hsteps : Steps c c')
    (hstep : ∀ {c c'}, P c → Step c c' → P c') : P c' := by
  induction hsteps with
  | refl => exact h
  | tail _ hlast ih => exact hstep ih hlast

theorem infoAndLayout_steps (i : Nat) : Keeps Steps (infoAndLayout i) :=
  keeps_infoAndLayout (fun hinfo hscan => .single (.remembered hinfo hscan)) i

theorem replaceBody_steps (i : Nat) (info : Bytes) : Keeps Steps (replaceBody i info) :=
  keeps_replaceBody (fun i hscan => .single (.replaced i hscan)) i info

theorem putStackMap_steps (i : Nat) (t : StackMap.Table) : Keeps Steps (putStackMap i t) :=
  keeps_putStackMap infoAndLayout_steps replaceBody_steps i t

theorem editStackMap_steps (i : Nat) (e : StackMap.Edit) : Keeps Steps (editStackMap i e) :=
  keeps_editStackMap infoAndLayout_steps replaceBody_steps i e

theorem addFullFrame_steps (i offset : Nat) (locals stack : List StackMap.VerificationType) :
    Keeps Steps (addFullFrame i offset locals stack) :=
  keeps_addFullFrame infoAndLayout_steps replaceBody_steps i offset locals stack

/-- Every call goes some steps, whether it succeeds or fails. -/
theorem perform_steps (call : Call) : Keeps Steps (perform call) := by
  by_cases hreads : call.reads
  · exact perform_of_reads (Keeps.composes Steps) infoAndLayout_steps
      (fun i => stackMap_keeps (infoAndLayout_steps i)) hreads
  cases call with
  | setStatus i flags => exact .update fun c => .single (.status c i _)
  | clearStatus i flags => exact .update fun c => .single (.status c i _)
  | mark i => exact .update fun c => .single (.status c i fun s => s.set .instrumented)
  | unmark i => exact .update fun c => .single (.status c i fun s => s.clear .instrumented)
  | setInstrumentationId i id => exact .update fun c => .single (.identified c i id)
  | reserve purpose count => exact .update fun c => .single (.reserved c purpose count)
  | setLoaded loaded => exact .update fun c => .single (.noted (n := c.notes) c _ _ loaded le_rfl id)
  | setRoots =>
    exact .update fun c => .single (.noted (n := ⟨true, _, _⟩) c _ _ _ ⟨fun _ => rfl, id, List.Subset.refl _⟩ id)
  | setMarkers =>
    exact .update fun c => .single (.noted (n := ⟨_, true, _⟩) c _ _ _ ⟨id, fun _ => rfl, List.Subset.refl _⟩ id)
  | adopt roots markers subclasses =>
    exact .update fun c =>
      .single (.noted c _ _ _ (c.grows_adopt roots markers subclasses).notes (foldl_addOnce_nodup · subclasses))
  | setSuper id => exact .update fun c => .single (.noted (n := c.notes) c id _ _ le_rfl fun h => h)
  | addInterface id => exact .update fun c => .single (.noted (n := c.notes) c _ _ _ le_rfl fun h => h)
  | addSubclass id =>
    exact .update fun c => .single (.noted c _ _ _ (c.grows_addSubclass id).notes (addOnce_nodup · id))
  | replaceBody i info => exact replaceBody_steps i info
  | restoreBody i => exact .update fun c => .single (.restored c i)
  | forgetLayouts => exact .update fun c => .single (.forgotten c)
  | addAttributeName index kind => exact .update fun c => .single (.named c index kind)
  | putStackMap i t => exact putStackMap_steps i t
  | editStackMap i e => exact (editStackMap_steps i e).bind fun _ => .pure _
  | addFullFrame i offset locals stack => exact addFullFrame_steps i offset locals stack
  | _ => exact absurd rfl hreads

theorem after_steps (calls : List Call) (c : LoadedClass) : Steps c (after calls c) := by
  induction calls generalizing c with
  | nil => exact .refl
  | cons call rest ih => exact (perform_steps call ⟨c, []⟩).trans (ih _)

/-- What a new class has and every step keeps, every class has. -/
theorem Reachable.invariant {P : LoadedClass → Prop} {c : LoadedClass} (h : c.Reachable)
    (hnew : ∀ record loader location, P (.new record loader location))
    (hstep : ∀ {c c'}, P c → Step c c' → P c') : P c := by
  obtain ⟨record, loader, location, calls, rfl⟩ := h
  exact holds_of_steps (hnew record loader location) (after_steps calls _) hstep

/-! ### What stays -/

section
variable {c c' : LoadedClass}

theorem Step.grows (h : Step c c') : Grows c c' := by
  cases h with
  | status i f =>
    unfold changeStatus
    split <;> exact ⟨rfl, rfl, le_refl c.notes⟩
  | reserved purpose count =>
    unfold reserve
    split <;> exact ⟨rfl, rfl, le_refl c.notes⟩
  | noted _ _ _ hnotes => exact ⟨rfl, rfl, hnotes⟩
  | _ => exact ⟨rfl, rfl, le_refl c.notes⟩

theorem Steps.grows (h : Steps c c') : Grows c c' := by
  induction h with
  | refl => exact refl_of Grows c
  | tail _ hlast ih => exact trans_of Grows ih hlast.grows

theorem Step.subclasses_nodup (h : Step c c') (hc : c.subclasses.Nodup) : c'.subclasses.Nodup := by
  cases h with
  | status i f =>
    unfold changeStatus
    split <;> exact hc
  | reserved purpose count =>
    unfold reserve
    split <;> exact hc
  | noted _ _ _ _ honce => exact honce hc
  | _ => exact hc

end

/-! ### Remembered layouts -/

end LoadedClass

/-- A layout that is remembered is what a scan of the body finds. -/
def MethodState.Current (m : MethodState) (record : Record) (names : AttributeNames) (i : Nat) : Prop :=
  ∀ l, m.layout = some l → ∃ info, (m.replacement <|> record.methodInfo? i) = some info ∧
    MethodLayout.ofInfo record.name info names = .ok l

theorem MethodState.Current.of_layout_none {m : MethodState} (h : m.layout = none) (record : Record)
    (names : AttributeNames) (i : Nat) : m.Current record names i := by
  intro l hl
  rw [h] at hl
  cases hl

namespace LoadedClass

def Current (c : LoadedClass) : Prop :=
  ∀ (i : Nat) (m : MethodState), c.methods[i]? = some m → m.Current c.record c.attributeNames i

variable {c c' : LoadedClass} {i : Nat} {info : Bytes} {l : MethodLayout}

theorem info?_of_method {m : MethodState} (h : c.methods[i]? = some m) :
    c.info? i = (m.replacement <|> c.record.methodInfo? i) := by
  unfold info?
  rw [h, Option.bind_eq_bind, Option.bind_some]
  cases m.replacement <;> rfl

theorem current_new (record : Record) (loader : LoaderId) (location : Location) :
    (new record loader location).Current := by
  intro i m hm
  obtain ⟨_, rfl⟩ := Array.getElem?_eq_some_iff.mp hm
  exact .of_layout_none (by simp [new, MethodState.fresh]) _ _ i

theorem getElem?_setMethod (c : LoadedClass) (i j : Nat) (f : MethodState → MethodState) :
    (c.setMethod i f).methods[j]? = if i = j then c.methods[j]?.map f else c.methods[j]? :=
  Array.getElem?_modify ..

theorem methods_changeStatus (c : LoadedClass) (i : Nat) (f : Status → Status) :
    (c.changeStatus i f).methods = c.methods.modify i fun m => { m with status := f m.status } := by
  apply Array.ext_getElem?
  intro j
  rw [Array.getElem?_modify]
  unfold changeStatus
  cases hm : c.methods[i]? with
  | none =>
    dsimp only
    by_cases heq : i = j
    · rw [if_pos heq, ← heq, hm, Option.map_none]
    · rw [if_neg heq]
  | some m =>
    dsimp only
    rw [Array.getElem?_setIfInBounds]
    by_cases heq : i = j
    · rw [if_pos heq, if_pos heq, ← heq, hm, if_pos (Array.getElem?_eq_some_iff.mp hm).1, Option.map_some]
    · rw [if_neg heq, if_neg heq]

theorem changeStatus_eq (c : LoadedClass) (i : Nat) (f : Status → Status) :
    c.changeStatus i f = { c.setMethod i fun m => { m with status := f m.status } with
      instrumentedCount :=
        match c.methods[i]?.map MethodState.status with
        | none => c.instrumentedCount
        | some before => recount c.instrumentedCount before (f before) } := by
  rw [setMethod, ← methods_changeStatus]
  unfold changeStatus
  cases c.methods[i]? <;> rfl

@[simp] theorem record_changeStatus (c : LoadedClass) (i : Nat) (f : Status → Status) :
    (c.changeStatus i f).record = c.record := by
  unfold changeStatus
  split <;> rfl

@[simp] theorem attributeNames_changeStatus (c : LoadedClass) (i : Nat) (f : Status → Status) :
    (c.changeStatus i f).attributeNames = c.attributeNames := by
  unfold changeStatus
  split <;> rfl

/-- Changing one method. -/
theorem Current.setMethod (h : c.Current) {f : MethodState → MethodState}
    (hf : ∀ m, c.methods[i]? = some m → (f m).Current c.record c.attributeNames i) :
    (c.setMethod i f).Current := by
  intro j m hm
  rw [getElem?_setMethod] at hm
  split at hm
  · rename_i heq
    subst heq
    obtain ⟨m', hm', rfl⟩ := Option.map_eq_some_iff.mp hm
    exact hf m' hm'
  · exact h j m hm

theorem current_forgetLayouts (c : LoadedClass) : c.forgetLayouts.Current := by
  intro i m hm
  have hmap : (c.methods.map fun m => { m with layout := none })[i]? = some m := hm
  rw [Array.getElem?_map] at hmap
  obtain ⟨m', _, rfl⟩ := Option.map_eq_some_iff.mp hmap
  exact .of_layout_none rfl _ _ i

theorem Current.step (h : c.Current) (hstep : Step c c') : c'.Current := by
  cases hstep with
  | status i f =>
    intro j m hm
    rw [methods_changeStatus] at hm
    rw [record_changeStatus, attributeNames_changeStatus]
    exact h.setMethod (f := fun m => { m with status := f m.status }) (fun m hm => h i m hm) j m hm
  | identified i id => exact h.setMethod fun m hm => h i m hm
  | reserved purpose count =>
    unfold reserve
    split <;> exact h
  | noted => exact h
  | remembered hinfo hscan =>
    refine h.setMethod fun m hm l' hl' => ?_
    cases hl'
    rw [info?_of_method hm] at hinfo
    exact ⟨_, hinfo, hscan⟩
  | replaced i hscan =>
    refine h.setMethod fun m hm l' hl' => ⟨_, rfl, ?_⟩
    cases hl'
    exact hscan
  | restored i => exact h.setMethod fun m hm => .of_layout_none rfl _ _ i
  | forgotten => exact current_forgetLayouts c
  | named index kind => exact current_forgetLayouts _

theorem Current.steps (h : c.Current) (hsteps : Steps c c') : c'.Current := holds_of_steps h hsteps .step

theorem Reachable.current (h : c.Reachable) : c.Current := h.invariant current_new .step

/-! ### Reading layouts -/

theorem exists_method_of_info? (h : c.info? i = some info) : ∃ m, c.methods[i]? = some m := by
  cases hm : c.methods[i]? with
  | none =>
    unfold info? at h
    rw [hm] at h
    cases h
  | some m => exact ⟨m, rfl⟩

theorem info?_setMethod_of_ne {j : Nat} (h : i ≠ j) (c : LoadedClass) (f : MethodState → MethodState) :
    (c.setMethod i f).info? j = c.info? j := by
  unfold info?
  rw [getElem?_setMethod, if_neg h]
  rfl

theorem info?_remember (c : LoadedClass) (i j : Nat) (l : MethodLayout) :
    (c.remember i l).info? j = c.info? j := by
  by_cases h : i = j
  · subst h
    unfold info?
    rw [remember, getElem?_setMethod, if_pos rfl]
    cases c.methods[i]? <;> rfl
  · exact info?_setMethod_of_ne h ..

theorem info?_withBody (h : i < c.methods.size) (info : Bytes) (l : MethodLayout) :
    (c.withBody i info l).info? i = some info := by
  unfold info?
  rw [withBody, getElem?_setMethod, if_pos rfl, Array.getElem?_eq_getElem h]
  rfl

/-- Remembering what is remembered already changes nothing. -/
theorem remember_of_layout {m : MethodState} (hm : c.methods[i]? = some m) (hl : m.layout = some l) :
    c.remember i l = c := by
  have hmethods : (c.remember i l).methods = c.methods := by
    apply Array.ext_getElem?
    intro j
    rw [remember, getElem?_setMethod]
    by_cases heq : i = j
    · subst heq
      rw [if_pos rfl, hm, Option.map_some, ← hl]
    · rw [if_neg heq]
  calc c.remember i l = { c with methods := (c.remember i l).methods } := rfl
    _ = { c with methods := c.methods } := by rw [hmethods]

/-- Reading a body and its layout answers what a fresh scan of the body finds, and only remembers it. -/
theorem start_infoAndLayout (hc : c.Current) (told : Journal) (hinfo : c.info? i = some info) :
    (infoAndLayout i).start ⟨c, told⟩ = match c.scan info with
      | .ok l => (.ok (some (info, l)), ⟨c.remember i l, told⟩)
      | .error e => (.error e, ⟨c, told⟩) := by
  obtain ⟨m, hm⟩ := exists_method_of_info? hinfo
  unfold infoAndLayout
  rw [start_state_bind]
  simp only [hinfo, hm, Option.bind_some]
  cases hl : m.layout with
  | none =>
    dsimp only
    rw [start_bind, start_ofExcept]
    cases c.scan info <;> rfl
  | some l =>
    obtain ⟨info', hinfo', hscan⟩ := hc i m hm l hl
    rw [← info?_of_method hm, hinfo] at hinfo'
    cases hinfo'
    have hfresh : c.scan info = .ok l := hscan
    rw [hfresh]
    dsimp only
    rw [remember_of_layout hm hl]
    rfl

theorem start_codeLayout (hc : c.Current) (told : Journal) (hinfo : c.info? i = some info)
    (hscan : MethodLayout.scan info c.attributeNames = .ok l) :
    (codeLayout i).start ⟨c, told⟩ =
      (.ok (l.code.map fun code => (info, l, code)), ⟨c.remember i l, told⟩) := by
  have hfound : c.scan info = .ok l := by
    rw [scan, MethodLayout.ofInfo, hscan]
  unfold codeLayout
  rw [start_bind, start_infoAndLayout hc told hinfo, hfound]
  rfl

theorem of_replaceBody {s t : Scene LoadedClass} (h : (replaceBody i info).start s = (.ok (), t)) :
    i < s.state.methods.size ∧
      ∃ l, s.state.scan info = .ok l ∧ t = ⟨s.state.withBody i info l, s.journal⟩ := by
  unfold replaceBody at h
  rw [start_state_bind] at h
  split at h
  · cases h
  · rename_i hsize
    rw [start_bind, start_ofExcept] at h
    cases hscan : s.state.scan info with
    | error e =>
      rw [hscan] at h
      cases h
    | ok l =>
      rw [hscan] at h
      cases h
      exact ⟨Nat.lt_of_not_le hsize, l, rfl, rfl⟩

end LoadedClass
end ClassCatalog
