import ClassCatalog.ClassFile.MethodLayout
import ClassCatalog.Proofs.ClassFile.Image

/-! What a scan finds in the image of a method.

The scan of a written method answers the places where the parts of its code are written
(`Stands.scan_eq`). The other way round, a method that scans, has one `Code` attribute and in which the
attributes of the code end where it does (`Regular`) is a written one (`Regular.exists_stands`). -/
namespace ClassCatalog.ClassFile
open Image

namespace MethodLayout
variable {info : Bytes} {names : AttributeNames} {limit pos : Nat} {l : MethodLayout}

theorem wordAt_of_holds {w : UInt16} (h : info.Holds pos (wordBytes w)) : wordAt info pos = .ok w.toNat := by
  rw [wordAt, h.word?]

theorem longAt_of_holds {n : UInt32} (h : info.Holds pos (longBytes n)) : longAt info pos = .ok n.toNat := by
  rw [longAt, h.long?]

/-! ### Attributes inside code -/

theorem attributeAt_of_holds (names : AttributeNames) (limit : Nat) {a : Attribute}
    (h : info.Holds pos a.bytes) (hf : a.Fits) (hlimit : pos + a.bytes.length ≤ limit) :
    attributeAt info names limit pos = .ok (names.kindOf? a.name, pos + a.bytes.length) := by
  have hlen := toNat_length (Contents.Fits.length_lt hf)
  obtain ⟨hname, hlengthAt, _⟩ := Attribute.holds_bytes.mp h
  have hlength := longAt_of_holds hlengthAt
  have hstop : pos + 6 + a.contents.bytes.length = pos + a.bytes.length := by
    rw [a.bytes_length]
    omega
  simp only [attributeAt, wordAt_of_holds hname, hlength, hlen, bind, Except.bind, hstop,
    Nat.not_lt.mpr hlimit, if_false, UInt16.ofNat_toNat]
  rfl

/-- What is noted of attributes from `pos` on. -/
def noteAll (names : AttributeNames) : List Attribute → MethodLayout → Nat → MethodLayout
  | [], l, _ => l
  | a :: rest, l, pos => noteAll names rest (l.note (names.kindOf? a.name) pos) (pos + a.bytes.length)

theorem scanInside_of_holds {as : List Attribute} (h : info.Holds pos (as.flatMap Attribute.bytes))
    (hf : ∀ a ∈ as, a.Fits) (hlimit : pos + (as.flatMap Attribute.bytes).length ≤ limit) :
    scanInside info names limit as.length l pos = .ok (noteAll names as l pos) := by
  induction as generalizing l pos with
  | nil => rfl
  | cons a rest ih =>
    rw [List.flatMap_cons, Bytes.holds_append] at h
    rw [List.flatMap_cons, List.length_append] at hlimit
    rw [List.forall_mem_cons] at hf
    have hfirst := attributeAt_of_holds names limit h.1 hf.1 (by omega)
    simp only [List.length_cons, scanInside, hfirst, noteAll]
    exact ih h.2 hf.2 (by omega)

theorem note_code (l : MethodLayout) (kind : Option AttributeKind) (pos : Nat) :
    (l.note kind pos).code = l.code := by
  unfold note
  split <;> rfl

theorem noteAll_code (names : AttributeNames) (as : List Attribute) (l : MethodLayout) (pos : Nat) :
    (noteAll names as l pos).code = l.code := by
  induction as generalizing l pos with
  | nil => rfl
  | cons a rest ih => rw [noteAll, ih, note_code]

theorem noteAll_append (names : AttributeNames) (as more : List Attribute) (l : MethodLayout) (pos : Nat) :
    noteAll names (as ++ more) l pos =
      noteAll names more (noteAll names as l pos) (pos + (as.flatMap Attribute.bytes).length) := by
  induction as generalizing l pos with
  | nil => rfl
  | cons a rest ih =>
    rw [List.cons_append, noteAll, noteAll, ih, List.flatMap_cons, List.length_append, Nat.add_assoc]

theorem note_stackMap {kind : Option AttributeKind} (h : kind ≠ some .stackMapTable) (l : MethodLayout)
    (pos : Nat) : (l.note kind pos).stackMap = l.stackMap := by
  unfold note
  split <;> first | rfl | exact absurd rfl h

theorem noteAll_stackMap {as : List Attribute} (h : ∀ a ∈ as, names.kindOf? a.name ≠ some .stackMapTable)
    (l : MethodLayout) (pos : Nat) : (noteAll names as l pos).stackMap = l.stackMap := by
  induction as generalizing l pos with
  | nil => rfl
  | cons a rest ih =>
    rw [List.forall_mem_cons] at h
    rw [noteAll, ih h.2, note_stackMap h.1]

/-- The last stack map among attributes is the one that counts. -/
theorem noteAll_stackMap_last {before after : List Attribute} {a : Attribute}
    (ha : names.kindOf? a.name = some .stackMapTable)
    (hafter : ∀ b ∈ after, names.kindOf? b.name ≠ some .stackMapTable) (l : MethodLayout) (pos : Nat) :
    (noteAll names (before ++ a :: after) l pos).stackMap =
      some (pos + (before.flatMap Attribute.bytes).length) := by
  rw [noteAll_append, noteAll, noteAll_stackMap hafter, ha]
  rfl

/-! ### Code -/

/-- Where the parts of code written at `pos` stand. -/
def spansAt (pos : Nat) (c : Code) : CodeLayout where
  header := pos
  start := pos + 14
  length := c.bytecode.length
  handlers := pos + 14 + c.bytecode.length
  attributeCount := pos + 6 + c.front.length

/-- The layout of a method whose code is written at `pos`. -/
def ofCode (names : AttributeNames) (pos : Nat) (c : Code) (l : MethodLayout) : MethodLayout :=
  noteAll names c.attributes { l with code := some (spansAt pos c) } (pos + 8 + c.front.length)

theorem code_ofCode (names : AttributeNames) (pos : Nat) (c : Code) (l : MethodLayout) :
    (ofCode names pos c l).code = some (spansAt pos c) := noteAll_code names _ _ _

/-- Code ends where its attribute does. -/
theorem codeEnd_ofCode (names : AttributeNames) (l : MethodLayout) {c : Code}
    (h : info.Holds pos c.asAttribute.bytes) (hf : c.Fits) :
    (ofCode names pos c l).codeEnd? info = some (pos + c.asAttribute.bytes.length) := by
  have hlength := (Attribute.holds_bytes.mp h).2.1.long?
  have hlen : (UInt32.ofNat c.asAttribute.contents.bytes.length).toNat = c.contents.length :=
    toNat_length hf.contents
  simp only [codeEnd?, code_ofCode, spansAt, hlength, hlen, Option.bind_eq_bind, Option.bind_some,
    Option.pure_def, c.asAttribute_length, Nat.add_assoc]

theorem exists_last {α : Type} (p : α → Prop) [DecidablePred p] (xs : List α) :
    (∀ x ∈ xs, ¬ p x) ∨ ∃ before x after, xs = before ++ x :: after ∧ p x ∧ ∀ y ∈ after, ¬ p y := by
  induction xs with
  | nil => exact .inl nofun
  | cons x rest ih =>
    rcases ih with hnone | ⟨before, y, after, rfl, hy, hafter⟩
    · by_cases hx : p x
      · exact .inr ⟨[], x, rest, rfl, hx, hnone⟩
      · exact .inl (List.forall_mem_cons.mpr ⟨hx, hnone⟩)
    · exact .inr ⟨x :: before, y, after, rfl, hy, hafter⟩

/-- The stack map that a layout of code names is the last one there is. -/
theorem stackMap_ofCode (names : AttributeNames) (pos : Nat) (c : Code) :
    ((ofCode names pos c empty).stackMap = none ∧
        ∀ a ∈ c.attributes, names.kindOf? a.name ≠ some .stackMapTable) ∨
      ∃ before a after, c.attributes = before ++ a :: after ∧ names.kindOf? a.name = some .stackMapTable ∧
        (∀ b ∈ after, names.kindOf? b.name ≠ some .stackMapTable) ∧
        (ofCode names pos c empty).stackMap =
          some (pos + 8 + c.front.length + (before.flatMap Attribute.bytes).length) := by
  rcases exists_last (fun a : Attribute => names.kindOf? a.name = some .stackMapTable) c.attributes with
    hnone | ⟨before, a, after, hsplit, ha, hlast⟩
  · exact .inl ⟨noteAll_stackMap hnone _ _, hnone⟩
  · refine .inr ⟨before, a, after, hsplit, ha, hlast, ?_⟩
    rw [ofCode, hsplit]
    exact noteAll_stackMap_last ha hlast _ _

theorem scanCode_of_holds (names : AttributeNames) (l : MethodLayout) {c : Code}
    (h : info.Holds pos c.asAttribute.bytes) (hf : c.Fits) :
    scanCode info names pos (pos + c.asAttribute.bytes.length) l = .ok (ofCode names pos c l) := by
  obtain ⟨_, _, hcontents⟩ := Attribute.holds_bytes.mp h
  obtain ⟨_, _, hlength, _, hhandlers, _, hcount, hattributes⟩ := Code.holds_contents.mp hcontents
  have hfront := c.front_length
  have hend := c.asAttribute_length
  have hparts := c.contents_length
  have hlength' : longAt info (pos + 10) = .ok c.bytecode.length := by
    rw [← toNat_length hf.bytecode]
    exact longAt_of_holds hlength
  have hhandlers' : wordAt info (pos + 14 + c.bytecode.length) = .ok c.handlers.length := by
    rw [← toNat_count hf.handlers]
    exact wordAt_of_holds hhandlers
  have hcount' : wordAt info (pos + 6 + c.front.length) = .ok c.attributes.length := by
    rw [← toNat_count hf.count]
    exact wordAt_of_holds hcount
  have hat : pos + 14 + c.bytecode.length + 2 + 8 * c.handlers.length = pos + 6 + c.front.length := by omega
  have hinside : pos + 6 + c.front.length + 2 = pos + 8 + c.front.length := by omega
  rw [hinside] at hattributes
  simp only [scanCode, hlength', hhandlers', hat, hcount', bind, Except.bind, hinside]
  exact scanInside_of_holds hattributes hf.attributes (by omega)

/-! ### Methods -/

theorem scanAttributes_of_holds (l : MethodLayout) {as : List Attribute}
    (h : info.Holds pos (as.flatMap Attribute.bytes)) (hf : ∀ a ∈ as, a.Fits)
    (hkinds : ∀ a ∈ as, names.kindOf? a.name ≠ some .code) (count : Nat) :
    scanAttributes info names (as.length + count) l pos =
      scanAttributes info names count l (pos + (as.flatMap Attribute.bytes).length) := by
  induction as generalizing pos with
  | nil => simp
  | cons a rest ih =>
    rw [List.flatMap_cons, Bytes.holds_append] at h
    rw [List.forall_mem_cons] at hf hkinds
    have hfirst := attributeAt_of_holds names info.size h.1 hf.1 h.1.le_size
    rw [List.length_cons, Nat.add_right_comm, scanAttributes, hfirst]
    simp only [hkinds.1, if_false]
    rw [ih h.2 hf.2 hkinds.2, List.flatMap_cons, List.length_append, Nat.add_assoc]

/-- The method `m`, whose only code is `c`, stands at the front of `info`. -/
structure Stands (info : Bytes) (names : AttributeNames) (m : Image.Method) (c : Code) : Prop where
  code : m.code = some c
  fits : m.Fits
  holds : info.Holds 0 m.bytes
  named : names.kindOf? c.name = some .code
  others : ∀ a ∈ m.before ++ m.after, names.kindOf? a.name ≠ some .code

theorem Stands.holds_code {m : Image.Method} {c : Code} (h : Stands info names m c) :
    info.Holds m.front.length c.asAttribute.bytes := by
  have hat := h.holds
  rw [Image.Method.bytes_of_code h.code, Bytes.holds_append, Bytes.holds_append, Nat.zero_add] at hat
  exact hat.1.2

/-- A method that stands at the front is scanned to the places of the parts of its code. -/
theorem Stands.scan_eq {m : Image.Method} {c : Code} (h : Stands info names m c) :
    scan info names = .ok (ofCode names m.front.length c empty) := by
  have hothers := List.forall_mem_append.mp h.others
  obtain ⟨_, _, _, hcount, hattributes⟩ := holds_memberBytes.mp h.holds
  have hnumber : m.attributes.length = m.before.length + (m.after.length + 1) := by
    rw [Image.Method.attributes_of_code h.code, List.length_append, List.length_cons]
  have hcount' : wordAt info 6 = .ok (m.before.length + (m.after.length + 1)) := by
    rw [← hnumber, ← toNat_count h.fits.count]
    exact wordAt_of_holds hcount
  rw [Image.Method.attributes_of_code h.code, List.flatMap_append, List.flatMap_cons, Bytes.holds_append,
    Bytes.holds_append, Nat.zero_add, ← m.front_length] at hattributes
  obtain ⟨hbefore, hcodeAt, hafter⟩ := hattributes
  have hcode := h.fits.code c h.code
  have hfits : c.asAttribute.Fits := hcode.contents
  have hfirst := attributeAt_of_holds names info.size hcodeAt hfits hcodeAt.le_size
  have hscan := scanCode_of_holds names empty hcodeAt hcode
  have hrest := scanAttributes_of_holds (ofCode names m.front.length c empty) hafter h.fits.after hothers.2 0
  rw [scan, hcount']
  show scanAttributes info names (m.before.length + (m.after.length + 1)) empty 8 = _
  rw [scanAttributes_of_holds empty hbefore h.fits.before hothers.1, ← m.front_length, scanAttributes, hfirst]
  simp only
  rw [if_pos (show names.kindOf? c.asAttribute.name = some .code from h.named), hscan]
  exact hrest

/-! ### From bytes to images

A method that scans and in which lengths match contents is one that has been written. -/

/-- The kinds and places of the next `count` attributes, and where the last of them ends. -/
def headsFrom (info : Bytes) (names : AttributeNames) (limit : Nat) : Nat → Nat →
    Scan (List (Option AttributeKind × Nat) × Nat)
  | 0, pos => .ok ([], pos)
  | count + 1, pos =>
    match attributeAt info names limit pos with
    | .ok (kind, stop) =>
      match headsFrom info names limit count stop with
      | .ok (rest, last) => .ok ((kind, pos) :: rest, last)
      | .error e => .error e
    | .error e => .error e

theorem holds_of_wordAt {n : Nat} (h : wordAt info pos = .ok n) :
    n < countLimit ∧ info.Holds pos (wordBytes (UInt16.ofNat n)) := by
  unfold wordAt at h
  split at h
  · rename_i w hw
    cases h
    rw [UInt16.ofNat_toNat]
    exact ⟨w.toNat_lt, Bytes.word?_eq_some_iff_holds.mp hw⟩
  · cases h

theorem holds_of_longAt {n : Nat} (h : longAt info pos = .ok n) :
    n < lengthLimit ∧ info.Holds pos (longBytes (UInt32.ofNat n)) := by
  unfold longAt at h
  split at h
  · rename_i w hw
    cases h
    rw [UInt32.ofNat_toNat]
    exact ⟨w.toNat_lt, Bytes.long?_eq_some_iff_holds.mp hw⟩
  · cases h

theorem of_attributeAt {kind : Option AttributeKind} {stop : Nat}
    (h : attributeAt info names limit pos = .ok (kind, stop)) :
    ∃ index length, info.word? pos = some index ∧ info.long? (pos + 2) = some length ∧
      stop = pos + 6 + length.toNat ∧ stop ≤ limit ∧ kind = names.kindOf? index := by
  unfold attributeAt wordAt longAt at h
  cases hindex : info.word? pos with
  | none => simp [hindex, bind, Except.bind] at h
  | some index =>
    cases hlength : info.long? (pos + 2) with
    | none => simp [hindex, hlength, bind, Except.bind] at h
    | some length =>
      simp only [hindex, hlength, bind, Except.bind, UInt16.ofNat_toNat] at h
      split at h
      · cases h
      · rename_i hle
        cases h
        exact ⟨index, length, rfl, rfl, rfl, Nat.le_of_not_lt hle, rfl⟩

theorem exists_attribute {kind : Option AttributeKind} {stop : Nat}
    (h : attributeAt info names limit pos = .ok (kind, stop)) (hlimit : limit ≤ info.size) :
    ∃ a : Attribute, a.Fits ∧ info.Holds pos a.bytes ∧ stop = pos + a.bytes.length ∧
      kind = names.kindOf? a.name := by
  obtain ⟨index, length, hindex, hlength, rfl, hle, rfl⟩ := of_attributeAt h
  obtain ⟨contents, hlen, hcontents⟩ := Bytes.exists_holds info (pos + 6) length.toNat (by omega)
  have hfits : (⟨index, .raw contents⟩ : Attribute).Fits := by
    show contents.length < lengthLimit
    rw [hlen]
    exact length.toNat_lt
  refine ⟨⟨index, .raw contents⟩, hfits, Attribute.holds_bytes.mpr ⟨?_, ?_, hcontents⟩, ?_, rfl⟩
  · exact Bytes.word?_eq_some_iff_holds.mp hindex
  · show info.Holds (pos + 2) (longBytes (UInt32.ofNat contents.length))
    rw [hlen, UInt32.ofNat_toNat]
    exact Bytes.long?_eq_some_iff_holds.mp hlength
  · rw [Attribute.bytes_length, ← hlen, Nat.add_assoc]
    rfl

theorem exists_attributes {count last : Nat} {heads : List (Option AttributeKind × Nat)}
    (h : headsFrom info names limit count pos = .ok (heads, last)) (hlimit : limit ≤ info.size)
    (hpos : pos ≤ info.size) :
    ∃ as : List Attribute, as.length = count ∧ (∀ a ∈ as, a.Fits) ∧
      info.Holds pos (as.flatMap Attribute.bytes) ∧ last = pos + (as.flatMap Attribute.bytes).length ∧
      heads.map Prod.fst = as.map fun a => names.kindOf? a.name := by
  induction count generalizing pos heads with
  | zero =>
    cases h
    exact ⟨[], rfl, by simp, Bytes.holds_nil.mpr hpos, rfl, rfl⟩
  | succ count ih =>
    unfold headsFrom at h
    split at h
    · rename_i kind stop hfirst
      obtain ⟨a, ha, haAt, rfl, rfl⟩ := exists_attribute hfirst hlimit
      split at h
      · rename_i rest last' hrest
        cases h
        obtain ⟨as, rfl, has, hasAt, rfl, hkinds⟩ := ih hrest haAt.le_size
        refine ⟨a :: as, rfl, List.forall_mem_cons.mpr ⟨ha, has⟩, ?_, ?_, ?_⟩
        · exact Bytes.holds_append.mpr ⟨haAt, hasAt⟩
        · rw [List.flatMap_cons, List.length_append, Nat.add_assoc]
        · rw [List.map_cons, List.map_cons, hkinds]
      · cases h
    · cases h

theorem exists_handlers (info : Bytes) (pos n : Nat) (h : pos + 8 * n ≤ info.size) :
    ∃ hs : List Handler, hs.length = n ∧ info.Holds pos (hs.flatMap Handler.bytes) := by
  induction n generalizing pos with
  | zero => exact ⟨[], rfl, Bytes.holds_nil.mpr h⟩
  | succ n ih =>
    obtain ⟨start, hstart⟩ := Bytes.exists_holds_word info pos (by omega)
    obtain ⟨stop, hstop⟩ := Bytes.exists_holds_word info (pos + 2) (by omega)
    obtain ⟨target, htarget⟩ := Bytes.exists_holds_word info (pos + 4) (by omega)
    obtain ⟨caught, hcaught⟩ := Bytes.exists_holds_word info (pos + 6) (by omega)
    obtain ⟨hs, rfl, hrest⟩ := ih (pos + 8) (by omega)
    refine ⟨⟨start, stop, target, caught⟩ :: hs, rfl, ?_⟩
    simp only [List.flatMap_cons, Handler.bytes, Bytes.holds_append, List.length_append, wordBytes_length]
    exact ⟨⟨⟨⟨hstart, hstop⟩, htarget⟩, hcaught⟩, hrest⟩

theorem scanInside_code {count : Nat} {l' : MethodLayout}
    (h : scanInside info names limit count l pos = .ok l') : l'.code = l.code := by
  induction count generalizing l pos with
  | zero =>
    cases h
    rfl
  | succ count ih =>
    unfold scanInside at h
    split at h
    · rw [ih h, note_code]
    · cases h

/-- A scan of code that answers has read the numbers of the code and scanned the attributes behind them. -/
theorem scanInside_of_scanCode {stop : Nat} {l' : MethodLayout} (h : scanCode info names pos stop l = .ok l') :
    ∃ length handlers count, longAt info (pos + 10) = .ok length ∧
      wordAt info (pos + 14 + length) = .ok handlers ∧
      wordAt info (pos + 14 + length + 2 + 8 * handlers) = .ok count ∧
      scanInside info names stop count
        { l with code := some ⟨pos, pos + 14, length, pos + 14 + length, pos + 14 + length + 2 + 8 * handlers⟩ }
        (pos + 14 + length + 2 + 8 * handlers + 2) = .ok l' := by
  unfold scanCode at h
  cases hlength : longAt info (pos + 10) with
  | error e => simp [hlength, bind, Except.bind] at h
  | ok length =>
    cases hhandlers : wordAt info (pos + 14 + length) with
    | error e => simp [hlength, hhandlers, bind, Except.bind] at h
    | ok handlers =>
      cases hcount : wordAt info (pos + 14 + length + 2 + 8 * handlers) with
      | error e => simp [hlength, hhandlers, hcount, bind, Except.bind] at h
      | ok count =>
        simp only [hlength, hhandlers, hcount, bind, Except.bind] at h
        exact ⟨length, handlers, count, rfl, hhandlers, hcount, h⟩

/-- What a scan of code has read when it answers. -/
theorem of_scanCode {stop : Nat} {l' : MethodLayout} (h : scanCode info names pos stop l = .ok l') :
    ∃ length handlers count, longAt info (pos + 10) = .ok length ∧
      wordAt info (pos + 14 + length) = .ok handlers ∧
      wordAt info (pos + 14 + length + 2 + 8 * handlers) = .ok count ∧
      l'.code = some ⟨pos, pos + 14, length, pos + 14 + length, pos + 14 + length + 2 + 8 * handlers⟩ := by
  obtain ⟨length, handlers, count, hlength, hhandlers, hcount, hinside⟩ := scanInside_of_scanCode h
  exact ⟨length, handlers, count, hlength, hhandlers, hcount, scanInside_code hinside⟩

/-- A scan of a method that answers has read how many attributes there are and scanned them. -/
theorem of_scan (h : scan info names = .ok l) :
    ∃ count, wordAt info 6 = .ok count ∧ scanAttributes info names count empty 8 = .ok l := by
  unfold scan at h
  cases hcount : wordAt info 6 with
  | error e => simp [hcount, bind, Except.bind] at h
  | ok count =>
    simp only [hcount, bind, Except.bind] at h
    exact ⟨count, rfl, h⟩

theorem scan_of_ofInfo {name : String} (h : ofInfo name info names = .ok l) : scan info names = .ok l := by
  unfold ofInfo at h
  split at h
  · cases h
    assumption
  · cases h

/-- Code whose attributes end where it ends is written code. -/
theorem exists_code {a : Attribute} {l' : MethodLayout} {code : CodeLayout} {count : Nat}
    {heads : List (Option AttributeKind × Nat)} (ha : a.Fits) (haAt : info.Holds pos a.bytes)
    (hscan : scanCode info names pos (pos + a.bytes.length) l = .ok l') (hcode : l'.code = some code)
    (hcount : wordAt info code.attributeCount = .ok count)
    (hheads : headsFrom info names (pos + a.bytes.length) count (code.attributeCount + 2) =
      .ok (heads, pos + a.bytes.length)) :
    ∃ c : Code, c.name = a.name ∧ c.Fits ∧ c.attributes.length = count ∧ code = spansAt pos c ∧
      info.Holds pos c.asAttribute.bytes ∧ c.asAttribute.bytes.length = a.bytes.length := by
  obtain ⟨length, handlers, count', hlength, hhandlers, hcount', hspans⟩ := of_scanCode hscan
  rw [hcode] at hspans
  cases hspans
  dsimp only at hcount hheads
  rw [hcount] at hcount'
  cases hcount'
  obtain ⟨hlengthLt, hlengthAt⟩ := holds_of_longAt hlength
  obtain ⟨hhandlersLt, hhandlersAt⟩ := holds_of_wordAt hhandlers
  obtain ⟨hcountLt, hcountAt⟩ := holds_of_wordAt hcount
  have hcountIn := hcountAt.le_size
  rw [wordBytes_length] at hcountIn
  obtain ⟨maxStack, hmaxStack⟩ := Bytes.exists_holds_word info (pos + 6) (by omega)
  obtain ⟨maxLocals, hmaxLocals⟩ := Bytes.exists_holds_word info (pos + 8) (by omega)
  obtain ⟨bytecode, rfl, hbytecode⟩ := Bytes.exists_holds info (pos + 14) length (by omega)
  obtain ⟨hs, rfl, hhs⟩ :=
    exists_handlers info (pos + 14 + bytecode.length + 2) handlers (by omega)
  obtain ⟨as, rfl, has, hasAt, hend, _⟩ := exists_attributes hheads haAt.le_size hcountIn
  obtain ⟨c, hname, rfl, rfl, rfl, rfl, rfl⟩ : ∃ c : Code, c.name = a.name ∧ c.maxStack = maxStack ∧
      c.maxLocals = maxLocals ∧ c.bytecode = bytecode ∧ c.handlers = hs ∧ c.attributes = as :=
    ⟨⟨a.name, maxStack, maxLocals, bytecode, hs, as⟩, rfl, rfl, rfl, rfl, rfl, rfl⟩
  have hfront := c.front_length
  have hlen : c.contents.length = a.contents.bytes.length := by
    have := a.bytes_length
    have := c.contents_length
    omega
  obtain ⟨hnameAt, hlengthAt', _⟩ := Attribute.holds_bytes.mp haAt
  have hcountPos : pos + 14 + c.bytecode.length + 2 + 8 * c.handlers.length = pos + 6 + c.front.length := by
    omega
  rw [hcountPos] at hcountAt hasAt
  refine ⟨c, hname, ⟨hlengthLt, hhandlersLt, hcountLt, has, ?_⟩, rfl, ?_, ?_, ?_⟩
  · rw [hlen]
    exact Contents.Fits.length_lt ha
  · rw [spansAt, hcountPos]
  · rw [← hname] at hnameAt
    rw [← hlen] at hlengthAt'
    refine Attribute.holds_bytes.mpr ⟨hnameAt, hlengthAt', Code.holds_contents.mpr ?_⟩
    have hhandlersPos : pos + 14 + c.bytecode.length + 2 = pos + 6 + 10 + c.bytecode.length := by omega
    rw [hhandlersPos] at hhs
    exact ⟨hmaxStack, hmaxLocals, hlengthAt, hbytecode, hhandlersAt, hhs, hcountAt, hasAt⟩
  · rw [Code.asAttribute_length, hlen, a.bytes_length]

/-- Code ends where the attribute does that it was read from. -/
theorem codeEnd_of_holds {a : Attribute} {stop : Nat} {l' : MethodLayout} {code : CodeLayout}
    (h : scanCode info names pos stop l = .ok l') (hcode : l'.code = some code) (ha : a.Fits)
    (haAt : info.Holds pos a.bytes) : l'.codeEnd? info = some (pos + a.bytes.length) := by
  obtain ⟨length, handlers, count, _, _, _, hspans⟩ := of_scanCode h
  rw [hcode] at hspans
  cases hspans
  have hlength := (Attribute.holds_bytes.mp haAt).2.1.long?
  have hlen := toNat_length (Contents.Fits.length_lt ha)
  simp only [codeEnd?, hcode, hlength, Option.bind_eq_bind, Option.bind_some, hlen, a.bytes_length,
    Nat.add_assoc]
  rfl

/-- A method that scans to `l`, with its only `Code` attribute at `code` and the attributes inside
ending where it ends. -/
structure Regular (info : Bytes) (names : AttributeNames) (l : MethodLayout) (code : CodeLayout) : Prop where
  scans : scan info names = .ok l
  hasCode : l.code = some code
  single : ∃ count heads last, wordAt info 6 = .ok count ∧
    headsFrom info names info.size count 8 = .ok (heads, last) ∧ (heads.map Prod.fst).count (some .code) = 1
  closed : ∃ count heads stop, wordAt info code.attributeCount = .ok count ∧ l.codeEnd? info = some stop ∧
    headsFrom info names stop count (code.attributeCount + 2) = .ok (heads, stop)

/-- The one attribute of a kind among attributes. -/
theorem exists_single {as : List Attribute} {kind : Option AttributeKind}
    (h : (as.map fun a => names.kindOf? a.name).count kind = 1) :
    ∃ before a after, as = before ++ a :: after ∧ names.kindOf? a.name = kind ∧
      ∀ b ∈ before ++ after, names.kindOf? b.name ≠ kind := by
  have hmem : kind ∈ as.map fun a => names.kindOf? a.name := List.count_pos_iff.mp (by omega)
  obtain ⟨a, ha, hkind⟩ := List.mem_map.mp hmem
  obtain ⟨before, after, rfl⟩ := List.append_of_mem ha
  simp only [List.map_append, List.map_cons, List.count_append, hkind, List.count_cons_self] at h
  refine ⟨before, a, after, rfl, hkind, fun b hb heq => ?_⟩
  have hnone : ((before ++ after).map fun a => names.kindOf? a.name).count kind = 0 := by
    rw [List.map_append, List.count_append]
    omega
  exact List.count_eq_zero.mp hnone (List.mem_map.mpr ⟨b, hb, heq⟩)

/-- A method made of parts that stand one behind the other stands at the front. -/
theorem exists_stands_of_parts {before after : List Attribute} {c : Code} (hc : c.Fits)
    (hbefore : ∀ a ∈ before, a.Fits) (hafter : ∀ a ∈ after, a.Fits)
    (hnumber : before.length + (after.length + 1) < countLimit)
    (hnumberAt : info.Holds 6 (wordBytes (UInt16.ofNat (before.length + (after.length + 1)))))
    (hat : info.Holds 8 (before.flatMap Attribute.bytes ++ (c.asAttribute.bytes ++ after.flatMap Attribute.bytes)))
    (hnamed : names.kindOf? c.name = some .code)
    (hothers : ∀ a ∈ before ++ after, names.kindOf? a.name ≠ some .code) :
    ∃ m, Stands info names m c ∧ m.before = before := by
  have hin := hnumberAt.le_size
  obtain ⟨access, haccess⟩ := Bytes.exists_holds_word info 0 (by omega)
  obtain ⟨name, hname⟩ := Bytes.exists_holds_word info (0 + 2) (by omega)
  obtain ⟨descriptor, hdescriptor⟩ := Bytes.exists_holds_word info (0 + 4) (by omega)
  obtain ⟨m, hm⟩ : ∃ m : Image.Method, m = ⟨access, name, descriptor, before, some c, after⟩ := ⟨_, rfl⟩
  have hattributes : m.attributes = before ++ c.asAttribute :: after := by
    rw [hm]
    exact Image.Method.attributes_of_code rfl
  have hlen : m.attributes.length = before.length + (after.length + 1) := by
    rw [hattributes, List.length_append, List.length_cons]
  have hfits : m.Fits := by
    refine ⟨hlen ▸ hnumber, ?_, ?_, ?_⟩
    · rwa [hm]
    · rw [hm]
      rintro _ ⟨⟩
      exact hc
    · rwa [hm]
  have hmAt : info.Holds 0 m.bytes := by
    rw [Image.Method.bytes, holds_memberBytes, hlen, hattributes, List.flatMap_append, List.flatMap_cons, hm]
    exact ⟨haccess, hname, hdescriptor, hnumberAt, hat⟩
  refine ⟨m, ⟨by rw [hm], hfits, hmAt, hnamed, ?_⟩, by rw [hm]⟩
  rwa [hm]

/-- A scan passes over other attributes and answers what it reads from the code among them. -/
theorem scanCode_of_scan {before after : List Attribute} {a : Attribute}
    (hscan : scan info names = .ok l) (hnumber : wordAt info 6 = .ok (before ++ a :: after).length)
    (hbefore : ∀ a ∈ before, a.Fits) (ha : a.Fits) (hafter : ∀ a ∈ after, a.Fits)
    (hat : info.Holds 8 (before.flatMap Attribute.bytes ++ (a.bytes ++ after.flatMap Attribute.bytes)))
    (hkind : names.kindOf? a.name = some .code)
    (hothers : ∀ a ∈ before ++ after, names.kindOf? a.name ≠ some .code) :
    scanCode info names (8 + (before.flatMap Attribute.bytes).length)
      (8 + (before.flatMap Attribute.bytes).length + a.bytes.length) empty = .ok l := by
  obtain ⟨hbeforeOthers, hafterOthers⟩ := List.forall_mem_append.mp hothers
  rw [Bytes.holds_append, Bytes.holds_append] at hat
  obtain ⟨hbeforeAt, haAt, hafterAt⟩ := hat
  have hpassed : scanAttributes info names (before.length + (after.length + 1)) empty 8 = .ok l := by
    rw [scan, hnumber, List.length_append, List.length_cons] at hscan
    exact hscan
  rw [scanAttributes_of_holds empty hbeforeAt hbefore hbeforeOthers, scanAttributes,
    attributeAt_of_holds names info.size haAt ha haAt.le_size] at hpassed
  simp only [hkind, if_true] at hpassed
  split at hpassed
  · rename_i l' hcode
    have hrest := scanAttributes_of_holds l' hafterAt hafter hafterOthers 0
    rw [hcode, ← hpassed]
    exact hrest.symm
  · cases hpassed

/-- A regular method is a written one. -/
theorem Regular.exists_stands {code : CodeLayout} (h : Regular info names l code) :
    ∃ m c, Stands info names m c ∧ code = spansAt m.front.length c ∧
      l = ofCode names m.front.length c empty := by
  obtain ⟨number, heads, last, hnumber, hheads, hsingle⟩ := h.single
  obtain ⟨hnumberLt, hnumberAt⟩ := holds_of_wordAt hnumber
  obtain ⟨as, rfl, has, hasAt, _, hkinds⟩ := exists_attributes hheads (Nat.le_refl _) hnumberAt.le_size
  rw [hkinds] at hsingle
  obtain ⟨before, a, after, rfl, hkind, hothers⟩ := exists_single hsingle
  rw [List.forall_mem_append, List.forall_mem_cons] at has
  obtain ⟨hbefore, ha, hafter⟩ := has
  rw [List.flatMap_append, List.flatMap_cons] at hasAt
  have hscan := scanCode_of_scan h.scans hnumber hbefore ha hafter hasAt hkind hothers
  rw [Bytes.holds_append, Bytes.holds_append] at hasAt
  obtain ⟨hbeforeAt, haAt, hafterAt⟩ := hasAt
  -- What the scan reads as code is written code, and takes as much room as the attribute.
  obtain ⟨count, heads', stop, hcount, hstop, hheads'⟩ := h.closed
  rw [codeEnd_of_holds hscan h.hasCode ha haAt] at hstop
  cases hstop
  obtain ⟨c, hname, hc, _, hspans, hcAt, hlen⟩ := exists_code ha haAt hscan h.hasCode hcount hheads'
  rw [List.length_append, List.length_cons] at hnumberLt hnumberAt
  rw [← hlen] at hafterAt
  have hat := Bytes.holds_append.mpr ⟨hbeforeAt, Bytes.holds_append.mpr ⟨hcAt, hafterAt⟩⟩
  obtain ⟨m, hstands, rfl⟩ :=
    exists_stands_of_parts hc hbefore hafter hnumberLt hnumberAt hat (hname ▸ hkind) hothers
  refine ⟨m, c, hstands, ?_, Except.ok.inj (h.scans.symm.trans hstands.scan_eq)⟩
  rw [Image.Method.front_length]
  exact hspans

end MethodLayout
end ClassCatalog.ClassFile
