import ClassCatalog.Proofs.ClassFile.Layout

/-! Layouts stay inside their method.

A scan measures the attributes of a method against the end of the method and those of code against the end of
the code, but the parts of the code only by reading what stands behind them. All of it lies inside the bytes of
the method (`inside_of_scan`), whatever these bytes are and however often an attribute is repeated: what is
noted of one code attribute may come from another, but each has been measured by itself. -/
namespace ClassCatalog.ClassFile

/-- The parts of code stand one behind the other, as long as their numbers say, and inside the method. -/
structure CodeLayout.Inside (info : Bytes) (c : CodeLayout) : Prop where
  start : c.start = c.header + 14
  length : ∃ n, info.long? (c.header + 10) = some n ∧ c.length = n.toNat
  bytecode : c.start + c.length ≤ info.size
  handlers : c.handlers = c.start + c.length
  /-- The handlers end where the number of attributes stands. -/
  handlerCount : ∃ n, info.word? c.handlers = some n ∧ c.attributeCount = c.handlers + 2 + 8 * n.toNat
  attributeCount : c.attributeCount + 2 ≤ info.size

namespace MethodLayout

/-- An attribute of this kind stands at `pos`, header and contents inside the method. -/
def HasAttribute (info : Bytes) (names : AttributeNames) (kind : AttributeKind) (pos : Nat) : Prop :=
  ∃ index length, info.word? pos = some index ∧ names.kindOf? index = some kind ∧
    info.long? (pos + 2) = some length ∧ pos + 6 + length.toNat ≤ info.size

/-- Where the contents start of the attribute of a kind that a layout has noted. -/
def contents? (l : MethodLayout) : AttributeKind → Option Nat
  | .code => l.code.map fun c => c.header + 6
  | .lineNumberTable => l.lines
  | .localVariableTable => l.localVariables
  | .localVariableTypeTable => l.localVariableTypes
  | .stackMapTable => l.stackMap.map fun header => header + 6
  | .innerClasses => none

/-- All that a layout has noted lies inside the method, and the attributes are of the kinds they are noted for. -/
structure Inside (info : Bytes) (names : AttributeNames) (l : MethodLayout) : Prop where
  code : ∀ c, l.code = some c → c.Inside info
  attributes : ∀ kind start, l.contents? kind = some start →
    ∃ pos, start = pos + 6 ∧ HasAttribute info names kind pos

variable {info : Bytes} {names : AttributeNames} {limit pos stop count : Nat} {l l' : MethodLayout}
  {kind : Option AttributeKind}

theorem hasAttribute_of_attributeAt {k : AttributeKind}
    (h : attributeAt info names limit pos = .ok (some k, stop)) (hlimit : limit ≤ info.size) :
    HasAttribute info names k pos := by
  obtain ⟨index, length, hindex, hlength, rfl, hle, hkind⟩ := of_attributeAt h
  exact ⟨index, length, hindex, hkind.symm, hlength, Nat.le_trans hle hlimit⟩

/-- Noting an attribute leaves what is noted of other kinds. -/
theorem contents?_note_of_ne {k : AttributeKind} (h : kind ≠ some k) (l : MethodLayout) (pos : Nat) :
    (l.note kind pos).contents? k = l.contents? k := by
  unfold note
  split <;> cases k <;> first | rfl | exact absurd rfl h

/-- What is noted was noted before, or is the attribute at `pos`. -/
theorem contents?_note {k : AttributeKind} {start : Nat} (h : (l.note kind pos).contents? k = some start) :
    l.contents? k = some start ∨ kind = some k ∧ start = pos + 6 := by
  by_cases hkind : kind = some k
  · subst hkind
    cases k with
    | code => exact .inl h
    | innerClasses => exact .inl h
    | _ => exact .inr ⟨rfl, (Option.some.inj h).symm⟩
  · rw [contents?_note_of_ne hkind] at h
    exact .inl h

theorem inside_empty : empty.Inside info names := by
  refine ⟨nofun, fun kind start h => ?_⟩
  cases kind <;> cases h

theorem Inside.note (hl : l.Inside info names) (h : attributeAt info names limit pos = .ok (kind, stop))
    (hlimit : limit ≤ info.size) : (l.note kind pos).Inside info names := by
  constructor
  · rw [note_code]
    exact hl.code
  · intro k start hstart
    rcases contents?_note hstart with hbefore | ⟨rfl, rfl⟩
    · exact hl.attributes k start hbefore
    · exact ⟨pos, rfl, hasAttribute_of_attributeAt h hlimit⟩

/-- Attributes of code, by induction on their number. -/
theorem Inside.scanInside (hl : l.Inside info names) (h : scanInside info names limit count l pos = .ok l')
    (hlimit : limit ≤ info.size) : l'.Inside info names := by
  induction count generalizing l pos with
  | zero =>
    cases h
    exact hl
  | succ count ih =>
    unfold MethodLayout.scanInside at h
    split at h
    · rename_i kind stop hfirst
      exact ih (hl.note hfirst hlimit) h
    · cases h

/-- The parts of code: what stands behind them could be read. -/
theorem Inside.scanCode (hl : l.Inside info names)
    (hat : attributeAt info names info.size pos = .ok (some .code, stop))
    (h : scanCode info names pos stop l = .ok l') : l'.Inside info names := by
  obtain ⟨_, _, _, _, rfl, hstop, _⟩ := of_attributeAt hat
  obtain ⟨length, handlers, count, hlength, hhandlers, hcount, hinside⟩ := scanInside_of_scanCode h
  obtain ⟨hlengthLt, hlengthAt⟩ := holds_of_longAt hlength
  obtain ⟨hhandlersLt, hhandlersAt⟩ := holds_of_wordAt hhandlers
  have hcountIn := (holds_of_wordAt hcount).2.le_size
  rw [wordBytes_length] at hcountIn
  refine Inside.scanInside (l := { l with code := some _ }) ⟨?_, ?_⟩ hinside hstop
  · rintro _ ⟨⟩
    refine ⟨rfl, ⟨_, hlengthAt.long?, (Image.toNat_length hlengthLt).symm⟩, ?_, rfl, ⟨_, hhandlersAt.word?, ?_⟩,
      hcountIn⟩
    · show pos + 14 + length ≤ info.size
      omega
    · rw [Image.toNat_count hhandlersLt]
  · intro k start hstart
    cases k with
    | code =>
      cases hstart
      exact ⟨pos, rfl, hasAttribute_of_attributeAt hat (Nat.le_refl _)⟩
    | _ => exact hl.attributes _ start hstart

/-- Attributes of a method, by induction on their number. -/
theorem Inside.scanAttributes (hl : l.Inside info names) (h : scanAttributes info names count l pos = .ok l') :
    l'.Inside info names := by
  induction count generalizing l pos with
  | zero =>
    cases h
    exact hl
  | succ count ih =>
    unfold MethodLayout.scanAttributes at h
    split at h
    · rename_i kind stop hfirst
      split at h
      · rename_i hcode
        subst hcode
        split at h
        · rename_i hscan
          exact ih (hl.scanCode hfirst hscan) h
        · cases h
      · exact ih hl h
    · cases h

/-- What a scan finds lies inside the bytes it has scanned. -/
theorem inside_of_scan (h : scan info names = .ok l) : l.Inside info names := by
  obtain ⟨_, _, hattributes⟩ := of_scan h
  exact inside_empty.scanAttributes hattributes

/-- Code ends where its attribute does. -/
theorem Inside.codeEnd (h : l.Inside info names) {c : CodeLayout} (hc : l.code = some c) :
    ∃ stop, l.codeEnd? info = some stop ∧ stop ≤ info.size := by
  obtain ⟨pos, hpos, _, length, _, _, hlength, hle⟩ := h.attributes .code (c.header + 6) (by rw [contents?, hc]; rfl)
  obtain rfl : c.header = pos := Nat.add_right_cancel hpos
  refine ⟨_, ?_, hle⟩
  rw [codeEnd?, hc, Option.bind_eq_bind, Option.bind_some, hlength]
  rfl

/-- The stack map that a layout has noted can be cut out. -/
theorem Inside.exists_stackMap (h : l.Inside info names) {header : Nat} (hheader : l.stackMap = some header) :
    ∃ length table, info.long? (header + 2) = some length ∧ info.slice? (header + 6) length.toNat = some table := by
  obtain ⟨pos, hpos, _, length, _, _, hlength, hle⟩ :=
    h.attributes .stackMapTable (header + 6) (by rw [contents?, hheader]; rfl)
  obtain rfl : header = pos := Nat.add_right_cancel hpos
  exact ⟨length, _, hlength, if_pos hle⟩

end MethodLayout
end ClassCatalog.ClassFile
