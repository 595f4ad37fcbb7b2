import ClassCatalog.Proofs.Loaded.Calls
import ClassCatalog.Proofs.Loaded.StackMap

/-! What is remembered of layouts shows in no answer.

The layout of a body is scanned once and kept until the body or the attribute names change. Whatever has been
asked of a class before, and whatever has been changed, what it answers about the code of a method is what
the current body says when it is scanned anew by the current names (`rescan`): the same values, and the same
error where that scan fails (`answers_rescanned`). -/
namespace ClassCatalog
open ClassCatalog.Action ClassFile

namespace LoadedClass

/-! ### Scanning anew -/

/-- The current body of a method with its layout, scanned by the current names. -/
def rescan (c : LoadedClass) (i : Nat) : Except ClassError (Option (Bytes × MethodLayout)) :=
  match c.info? i with
  | none => .ok none
  | some info => (c.scan info).map fun l => some (info, l)

/-- The body of a method with code, its layout and where the code stands in it. -/
def rescanCode (c : LoadedClass) (i : Nat) : Except ClassError (Option (Bytes × MethodLayout × CodeLayout)) :=
  (c.rescan i).map fun found => found.bind fun (info, l) => l.code.map fun code => (info, l, code)

/-- The stack map that stands in a body, for the class called `name`. -/
def stackMapIn (name : String) (info : Bytes) (l : MethodLayout) : Except ClassError StackMap.Table :=
  match l.stackMap with
  | none => .ok .empty
  | some header =>
    match info.slice? (header + 6) (((info.long? (header + 2)).map UInt32.toNat).getD 0) with
    | none => .error (.format name header .truncatedStackMap)
    | some table => StackMap.Table.decode name table.toList

variable {c : LoadedClass} {told : Journal} {α β : Type}

/-! ### Answers -/

theorem answer_infoAndLayout (hc : c.Current) (told : Journal) (i : Nat) :
    ((infoAndLayout i).start ⟨c, told⟩).1 = c.rescan i := by
  unfold rescan
  cases hinfo : c.info? i with
  | none =>
    unfold infoAndLayout
    rw [start_state_bind]
    simp only [hinfo, start_pure]
  | some info =>
    rw [start_infoAndLayout hc told hinfo]
    show _ = (c.scan info).map fun l => some (info, l)
    cases c.scan info <;> rfl

/-- Reading from what another action has found. -/
theorem answer_map {a : Action LoadedClass α} {r : Except ClassError α} (h : (a.start ⟨c, told⟩).1 = r)
    (f : α → β) : ((a >>= fun x => pure (f x)).start ⟨c, told⟩).1 = r.map f := by
  rw [start_bind_pure, h]

theorem answer_codeLayout (hc : c.Current) (told : Journal) (i : Nat) :
    ((codeLayout i).start ⟨c, told⟩).1 = c.rescanCode i :=
  answer_map (answer_infoAndLayout hc told i) _

theorem answer_stackMap (hc : c.Current) (told : Journal) (i : Nat) :
    ((stackMap i).start ⟨c, told⟩).1 = (c.rescanCode i).bind fun found =>
      match found with
      | none => .ok .empty
      | some (info, l, _) => stackMapIn c.name info l := by
  rw [← answer_codeLayout hc told i]
  unfold stackMap
  rw [start_state_bind]
  rw [start_bind]
  rcases (codeLayout i).start ⟨c, told⟩ with ⟨_ | found, s⟩
  · rfl
  · rcases found with _ | ⟨info, l, code⟩
    · rfl
    · simp only [Except.bind, stackMapIn]
      cases l.stackMap with
      | none => rfl
      | some header =>
        dsimp only
        cases info.slice? (header + 6) (((info.long? (header + 2)).map UInt32.toNat).getD 0) <;> rfl

/-- Whatever has been done with a class before, it answers about a method as if the body had just been
scanned. -/
theorem answers_rescanned (h : c.Reachable) (told : Journal) (i : Nat) :
    ((layout i).start ⟨c, told⟩).1 = (c.rescan i).map (fun found => found.map Prod.snd) ∧
    ((bytecode i).start ⟨c, told⟩).1 =
      (c.rescanCode i).map (fun found => found.bind fun (info, _, code) => info.slice? code.start code.length) ∧
    ((bytecodeLength i).start ⟨c, told⟩).1 =
      (c.rescanCode i).map (fun found => (found.map fun (_, _, code) => code.length).getD 0) ∧
    ((handlersOffset i).start ⟨c, told⟩).1 =
      (c.rescanCode i).map (fun found => found.map fun (_, _, code) => code.handlers) ∧
    ((localVariablesOffset i).start ⟨c, told⟩).1 =
      (c.rescanCode i).map (fun found => found.bind fun (_, l, _) => l.localVariables) ∧
    ((localVariableTypesOffset i).start ⟨c, told⟩).1 =
      (c.rescanCode i).map (fun found => found.bind fun (_, l, _) => l.localVariableTypes) ∧
    ((stackMapOffset i).start ⟨c, told⟩).1 =
      (c.rescanCode i).map (fun found => found.bind fun (_, l, _) => l.stackMap) ∧
    ((localVariables i).start ⟨c, told⟩).1 =
      (c.rescanCode i).map (fun found => tableOf found MethodLayout.localVariables) ∧
    ((localVariableTypes i).start ⟨c, told⟩).1 =
      (c.rescanCode i).map (fun found => tableOf found MethodLayout.localVariableTypes) ∧
    ((stackMap i).start ⟨c, told⟩).1 = (c.rescanCode i).bind fun found =>
      match found with
      | none => .ok .empty
      | some (info, l, _) => stackMapIn c.name info l := by
  have hcode := answer_codeLayout h.current told i
  exact ⟨answer_map (answer_infoAndLayout h.current told i) _, answer_map hcode _, answer_map hcode _,
    answer_map hcode _, answer_map hcode _, answer_map hcode _, answer_map hcode _, answer_map hcode _,
    answer_map hcode _, answer_stackMap h.current told i⟩

/-- The small class again, asked for its layout before it knows the name of stack maps. -/
def lateNamed : LoadedClass :=
  after [.addAttributeName 1 .code, .layout 0, .addAttributeName 2 .stackMapTable]
    (new sampleClass.record Loader.root (.supplied 0))

theorem answers_rescanned_lateNamed :
    ((stackMapOffset 0).start ⟨lateNamed, []⟩).1 = .ok (some 27) ∧
      ((stackMap 0).start ⟨lateNamed, []⟩).1 = .ok .empty := by
  have hreachable : lateNamed.Reachable := ⟨_, _, _, _, rfl⟩
  obtain ⟨_, _, _, _, _, _, hoffset, _, _, htable⟩ := answers_rescanned hreachable [] 0
  rw [hoffset, htable]
  constructor <;> decide +kernel

end LoadedClass
end ClassCatalog
