import ClassCatalog.Proofs.ClassFile.Bytecode
import ClassCatalog.Proofs.Loaded.Fresh

/-! Classes with their original methods.

Whatever has been done with a class that was read from a file, what is remembered of its methods is right
(`Read`). While no body has been replaced and no attribute name added (`Original`), and neither happens by
looking at methods (`Intact`), the bytecode that is answered for a method is that of the record
(`Original.answer_bytecode`). -/
namespace ClassCatalog.LoadedClass
open ClassCatalog.Action ClassFile

variable {c c' : LoadedClass} {i : Nat} {b code info : Bytes} {l : MethodLayout} {told : Journal}

/-! ### Classes that were read -/

/-- There is a state for every method. -/
def Complete (c : LoadedClass) : Prop := c.methods.size = c.record.methods.size

/-- What holds of a class that was read from a file, whatever has been done with it since. -/
structure Read (c : LoadedClass) : Prop where
  parsed : ∃ (_ : Text.Encoding) (b : Bytes), Record.parse b = .ok c.record
  complete : c.Complete
  current : c.Current

theorem complete_new (record : Record) (loader : LoaderId) (location : Location) :
    (new record loader location).Complete := Array.size_replicate ..

theorem Complete.setMethod (h : c.Complete) (i : Nat) (f : MethodState → MethodState) :
    (c.setMethod i f).Complete := (Array.size_modify ..).trans h

theorem Complete.forgetLayouts (h : c.Complete) : c.forgetLayouts.Complete := (Array.size_map ..).trans h

theorem Complete.step (h : c.Complete) (hstep : Step c c') : c'.Complete := by
  cases hstep with
  | status i f =>
    show (c.changeStatus i f).methods.size = _
    rw [methods_changeStatus, record_changeStatus, Array.size_modify]
    exact h
  | identified i id => exact h.setMethod i _
  | reserved purpose count =>
    unfold reserve
    split <;> exact h
  | noted => exact h
  | remembered hinfo hscan => exact h.setMethod _ _
  | replaced i hscan => exact h.setMethod i _
  | restored i => exact h.setMethod i _
  | forgotten => exact h.forgetLayouts
  | named index kind => exact Complete.forgetLayouts (c := { c with attributeNames := _ }) h

theorem Complete.steps (h : c.Complete) (hsteps : Steps c c') : c'.Complete := holds_of_steps h hsteps .step

theorem read_new [e : Text.Encoding] {record : Record} (h : Record.parse b = .ok record) (loader : LoaderId)
    (location : Location) : (new record loader location).Read :=
  ⟨⟨e, b, h⟩, complete_new record loader location, current_new record loader location⟩

theorem Read.step (h : c.Read) (hstep : Step c c') : c'.Read :=
  ⟨hstep.grows.record ▸ h.parsed, h.complete.step hstep, h.current.step hstep⟩

theorem Read.steps (h : c.Read) (hsteps : Steps c c') : c'.Read := holds_of_steps h hsteps .step

/-! ### Methods that stay as they are -/

/-- The same class with the same methods, though other layouts of them may be remembered. -/
structure Intact (c c' : LoadedClass) : Prop where
  record : c'.record = c.record
  names : c'.attributeNames = c.attributeNames
  bodies : ∀ i, c'.isReplaced i = c.isReplaced i
  complete : c.Complete → c'.Complete
  current : c.Current → c'.Current

instance : IsPreorder LoadedClass Intact where
  refl _ := ⟨rfl, rfl, fun _ => rfl, id, id⟩
  trans _ _ _ h h' := {
    record := h'.record.trans h.record
    names := h'.names.trans h.names
    bodies := fun i => (h'.bodies i).trans (h.bodies i)
    complete := h'.complete ∘ h.complete
    current := h'.current ∘ h.current }

theorem Read.intact (h : c.Read) (hc : c.Intact c') : c'.Read :=
  ⟨hc.record ▸ h.parsed, hc.complete h.complete, hc.current h.current⟩

/-- What is noted of a class besides its methods makes no difference. -/
theorem Intact.of_methods (hrecord : c'.record = c.record) (hmethods : c'.methods = c.methods)
    (hnames : c'.attributeNames = c.attributeNames) : c.Intact c' := by
  refine ⟨hrecord, hnames, fun i => ?_, fun h => ?_, fun h i m hm => ?_⟩
  · rw [isReplaced, hmethods, isReplaced]
  · rw [Complete, hmethods, hrecord]
    exact h
  · rw [hrecord, hnames]
    exact h i m (hmethods ▸ hm)

theorem Intact.remember (hinfo : c.info? i = some info) (hscan : c.scan info = .ok l) :
    c.Intact (c.remember i l) := by
  refine ⟨rfl, rfl, fun j => ?_, fun h => h.step (.remembered hinfo hscan),
    fun h => h.step (.remembered hinfo hscan)⟩
  unfold isReplaced
  rw [LoadedClass.remember, getElem?_setMethod]
  split
  · cases c.methods[j]? <;> rfl
  · rfl

theorem infoAndLayout_intact (i : Nat) : Keeps Intact (infoAndLayout i) := keeps_infoAndLayout .remember i

theorem codeLayout_intact (i : Nat) : Keeps Intact (codeLayout i) :=
  (infoAndLayout_intact i).bind fun _ => .pure _

theorem bytecode_intact (i : Nat) : Keeps Intact (bytecode i) := (codeLayout_intact i).bind fun _ => .pure _

theorem bytecodeLength_intact (i : Nat) : Keeps Intact (bytecodeLength i) :=
  (codeLayout_intact i).bind fun _ => .pure _

/-! ### Original methods -/

/-- A class that was read from a file, with the methods it has there. -/
structure Original (c : LoadedClass) : Prop extends Read c where
  bodies : ∀ i, c.isReplaced i = false
  names : c.attributeNames = c.record.attributeNames

theorem original_new [Text.Encoding] {record : Record} (h : Record.parse b = .ok record) (loader : LoaderId)
    (location : Location) : (new record loader location).Original := by
  refine ⟨read_new h loader location, fun i => ?_, rfl⟩
  unfold isReplaced
  cases hm : (new record loader location).methods[i]? with
  | none => rfl
  | some m =>
    obtain ⟨_, rfl⟩ := Array.getElem?_eq_some_iff.mp hm
    simp [new, MethodState.fresh]

namespace Original

theorem intact (h : c.Original) (hc : c.Intact c') : c'.Original :=
  ⟨h.toRead.intact hc, fun i => (hc.bodies i).trans (h.bodies i), by rw [hc.names, hc.record, h.names]⟩

/-- The body of every method is the one in the record. -/
theorem info? (h : c.Original) (i : Nat) : c.info? i = c.record.methodInfo? i := by
  cases hm : c.methods[i]? with
  | some m =>
    have hbody : m.replacement = none := by
      have := h.bodies i
      rw [isReplaced, hm] at this
      exact Option.not_isSome_iff_eq_none.mp (Bool.eq_false_iff.mp this)
    rw [info?_of_method hm, hbody]
    rfl
  | none =>
    have hsize := Array.getElem?_eq_none_iff.mp hm
    have hrecord : c.record.methods[i]? = none := Array.getElem?_eq_none (h.complete ▸ hsize)
    unfold LoadedClass.info? Record.methodInfo?
    rw [hm, hrecord]
    rfl

/-- The bytecode that is answered for a method is that of the record. -/
theorem answer_bytecode (h : c.Original) {answer : Option Bytes}
    (hanswer : ((bytecode i).start ⟨c, told⟩).1 = .ok answer) (hcode : c.record.bytecode? i = some code) :
    answer.getD #[] = code := by
  obtain ⟨_, b, hparse⟩ := h.parsed
  obtain ⟨m, hm, _⟩ := Option.bind_eq_some_iff.mp hcode
  obtain ⟨info, hinfo, _⟩ := exists_methodInfo hparse hm
  unfold bytecode at hanswer
  rw [answer_map (answer_codeLayout h.current told i), rescanCode, rescan, h.info? i, hinfo] at hanswer
  dsimp only at hanswer
  cases hscan : c.scan info with
  | error e =>
    rw [hscan] at hanswer
    cases hanswer
  | ok l =>
    rw [hscan] at hanswer
    have hlayout : MethodLayout.ofInfo c.record.name info c.record.attributeNames = .ok l := h.names ▸ hscan
    rw [bytecode_of_layout hparse hinfo hlayout] at hcode
    cases hl : l.code with
    | none =>
      simp only [hl, Except.map, Option.bind_some, Option.map_none, Option.bind_none] at hanswer hcode
      cases hanswer
      cases hcode
      rfl
    | some found =>
      simp only [hl, Except.map, Option.bind_some, Option.map_some] at hanswer hcode
      cases hanswer
      rw [hcode]
      rfl

end Original
end ClassCatalog.LoadedClass
