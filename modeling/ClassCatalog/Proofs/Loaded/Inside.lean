import ClassCatalog.Proofs.ClassFile.Inside
import ClassCatalog.Proofs.Loaded.Fresh

/-! Bodies can be cut where their layouts say.

A layout lies inside the body that it is the layout of, and what is remembered of layouts is up to date. So the
bytecode of every method with code is there to be answered, and every stack map there to be decoded, whatever has
been done with the class before (`layouts_inside`). -/
namespace ClassCatalog.LoadedClass
open ClassCatalog.Action ClassFile

variable {c : LoadedClass} {i : Nat} {info : Bytes} {names : AttributeNames} {l : MethodLayout} {code : CodeLayout}
  {name : String} {e : ClassError} {told : Journal}

/-- There is no such method, the method is too short for a scan, or there is a layout, inside the method. -/
theorem rescan_cases (c : LoadedClass) (i : Nat) :
    c.rescan i = .ok none ∨ (∃ pos, c.rescan i = .error (.format c.name pos .truncatedMethod)) ∨
      ∃ info l, c.info? i = some info ∧ l.Inside info c.attributeNames ∧ c.rescan i = .ok (some (info, l)) := by
  unfold rescan scan MethodLayout.ofInfo
  cases hinfo : c.info? i with
  | none => exact .inl rfl
  | some info =>
    dsimp only
    cases hscan : MethodLayout.scan info c.attributeNames with
    | error pos => exact .inr (.inl ⟨pos, rfl⟩)
    | ok l => exact .inr (.inr ⟨info, l, rfl, MethodLayout.inside_of_scan hscan, rfl⟩)

/-- A method whose layout has code is answered its bytecode. -/
theorem exists_bytecode_of_layout (hc : c.Current) (h : ((layout i).start ⟨c, told⟩).1 = .ok (some l))
    (hcode : l.code = some code) :
    ∃ info bytes, c.info? i = some info ∧ l.Inside info c.attributeNames ∧
      info.slice? code.start code.length = some bytes ∧ ((bytecode i).start ⟨c, told⟩).1 = .ok (some bytes) := by
  have hlayout : ((layout i).start ⟨c, told⟩).1 = (c.rescan i).map fun found => found.map Prod.snd :=
    answer_map (answer_infoAndLayout hc told i) _
  rw [hlayout] at h
  obtain hnone | ⟨pos, herror⟩ | ⟨info, l', hinfo, hinside, hfound⟩ := rescan_cases c i
  · rw [hnone] at h
    cases h
  · rw [herror] at h
    cases h
  · rw [hfound] at h
    obtain rfl : l' = l := Option.some.inj (Except.ok.inj h)
    have hcodeFound : c.rescanCode i = .ok (some (info, l', code)) := by
      simp only [rescanCode, hfound, Except.map, Option.bind_some, hcode, Option.map_some]
    have hslice : info.slice? code.start code.length = some _ := if_pos (hinside.code code hcode).bytecode
    refine ⟨info, _, hinfo, hinside, hslice, (answer_map (answer_codeLayout hc told i) _).trans ?_⟩
    rw [hcodeFound]
    exact congrArg Except.ok hslice

/-- A stack map that stands inside the body may fail to decode, but not to be there. -/
theorem stackMapIn_error (hl : l.Inside info names) (h : stackMapIn name info l = .error e) :
    ∃ pos, e = .format name pos .malformedStackMap := by
  unfold stackMapIn at h
  cases hheader : l.stackMap with
  | none =>
    rw [hheader] at h
    cases h
  | some header =>
    obtain ⟨length, table, hlength, htable⟩ := hl.exists_stackMap hheader
    simp only [hheader, hlength, Option.map_some, Option.getD_some, htable] at h
    obtain ⟨pos, _, rfl⟩ := StackMap.Table.of_decode_error h
    exact ⟨pos, rfl⟩

/-- Reading a stack map fails for a method that cannot be scanned or a table that cannot be decoded. -/
theorem stackMap_error (hc : c.Current) (h : ((stackMap i).start ⟨c, told⟩).1 = .error e) :
    ∃ pos, e = .format c.name pos .truncatedMethod ∨ e = .format c.name pos .malformedStackMap := by
  rw [answer_stackMap hc told i, rescanCode] at h
  obtain hnone | ⟨pos, herror⟩ | ⟨info, l, _, hinside, hfound⟩ := rescan_cases c i
  · rw [hnone] at h
    cases h
  · rw [herror] at h
    cases h
    exact ⟨pos, .inl rfl⟩
  · rw [hfound] at h
    cases hcode : l.code with
    | none =>
      simp only [Except.map, Option.bind_some, hcode, Option.map_none, Except.bind] at h
      cases h
    | some code =>
      simp only [Except.map, Option.bind_some, hcode, Option.map_some, Except.bind] at h
      obtain ⟨pos, rfl⟩ := stackMapIn_error hinside h
      exact ⟨pos, .inr rfl⟩

/-- **Layouts point nowhere else.** Whatever the bytes of a method and the names of attributes, what a scan finds
lies inside these bytes, and its code ends there. So, whatever has been done with a class, every method whose
layout has code is answered its bytecode, and no stack map is found to be cut short. -/
theorem layouts_inside :
    (∀ {name : String} {info : Bytes} {names : AttributeNames} {l : MethodLayout} {code : CodeLayout},
      MethodLayout.ofInfo name info names = .ok l → l.code = some code →
        l.Inside info names ∧ ∃ stop, l.codeEnd? info = some stop ∧ stop ≤ info.size) ∧
    ∀ {c : LoadedClass}, c.Reachable → ∀ (told : Journal) (i : Nat),
      (∀ l code, ((layout i).start ⟨c, told⟩).1 = .ok (some l) → l.code = some code →
        ∃ info bytes, c.info? i = some info ∧ l.Inside info c.attributeNames ∧
          info.slice? code.start code.length = some bytes ∧
          ((bytecode i).start ⟨c, told⟩).1 = .ok (some bytes)) ∧
      ∀ name pos, ((stackMap i).start ⟨c, told⟩).1 ≠ .error (.format name pos .truncatedStackMap) := by
  constructor
  · intro name info names l code h hcode
    have hinside := MethodLayout.inside_of_scan (MethodLayout.scan_of_ofInfo h)
    exact ⟨hinside, hinside.codeEnd hcode⟩
  · intro c h told i
    refine ⟨fun l code hlayout hcode => exists_bytecode_of_layout h.current hlayout hcode, fun name pos herror => ?_⟩
    obtain ⟨_, hmethod | htable⟩ := stackMap_error h.current herror
    · cases hmethod
    · cases htable

/-- The small method with a second code attribute, which has no stack map. -/
def twiceCoded : Image.Method :=
  { sampleMethod with after := [Image.Code.asAttribute ⟨1, 1, 1, [0x00, 0xb1], [], []⟩] }

/-- The bytecode is that of the second attribute, the stack map that of the first. -/
theorem layouts_inside_twiceCoded :
    let c := after [.replaceBody 0 twiceCoded.bytes.toArray] sampleClass
    ∃ l, ((layout 0).start ⟨c, []⟩).1 = .ok (some l) ∧ l.code = some ⟨35, 49, 2, 51, 53⟩ ∧ l.stackMap = some 27 ∧
      l.Inside twiceCoded.bytes.toArray c.attributeNames ∧
      (∃ stop, l.codeEnd? twiceCoded.bytes.toArray = some stop ∧ stop ≤ twiceCoded.bytes.toArray.size) ∧
      ((bytecode 0).start ⟨c, []⟩).1 = .ok (some #[0x00, 0xb1]) ∧
      ∀ name pos, ((stackMap 0).start ⟨c, []⟩).1 ≠ .error (.format name pos .truncatedStackMap) := by
  intro c
  have hreachable : c.Reachable := ⟨_, _, _, [_, _, _], rfl⟩
  have hbody : c.info? 0 = some twiceCoded.bytes.toArray := by decide +kernel
  obtain ⟨l, hcode, hlayout, hscan, hheader⟩ :
      ∃ l : MethodLayout, l.code = some ⟨35, 49, 2, 51, 53⟩ ∧ ((layout 0).start ⟨c, []⟩).1 = .ok (some l) ∧
        MethodLayout.ofInfo c.name twiceCoded.bytes.toArray c.attributeNames = .ok l ∧ l.stackMap = some 27 := by
    refine ⟨⟨some ⟨35, 49, 2, 51, 53⟩, none, none, none, some 27⟩, rfl, ?_⟩
    decide +kernel
  obtain ⟨hinside, hends⟩ := layouts_inside.1 hscan hcode
  obtain ⟨hbytecode, htable⟩ := layouts_inside.2 hreachable [] 0
  obtain ⟨info, bytes, hinfo, _, hslice, hanswer⟩ := hbytecode l _ hlayout hcode
  obtain rfl : info = twiceCoded.bytes.toArray := Option.some.inj (hinfo.symm.trans hbody)
  have hcut : Bytes.slice? twiceCoded.bytes.toArray 49 2 = some #[0x00, 0xb1] := by decide +kernel
  obtain rfl : bytes = #[0x00, 0xb1] := Option.some.inj (hslice.symm.trans hcut)
  exact ⟨l, hlayout, hcode, hheader, hinside, hends, hanswer, htable⟩

end ClassCatalog.LoadedClass
