import ClassCatalog.Proofs.ClassFile.Agreement
import ClassCatalog.Proofs.ClassFile.Confined
import ClassCatalog.Proofs.ClassFile.Containment
import ClassCatalog.Proofs.ClassFile.Slots

/-! The parts of a record and its bytes.

A file is read section by section, and a record remembers where each one starts (`Opening.ReadFrom`,
`Record.Continues`). The sections follow one another, the methods lie side by side (`Tiles`), and all that is
cut out of the bytes later is there, whatever the lengths in the file say (`parse_fits`). -/
namespace ClassCatalog.ClassFile
open Image Reader

variable [Text.Encoding] {b : Bytes} {pool : ConstantPool} {infoStart codeEnd pos stop : Nat}
  {body body' : MethodBody}

/-! ### Section by section -/

omit [Text.Encoding] in
theorem of_version {u : Unit} (h : Reads version b pos u stop) :
    pos + 8 = stop ∧ ∃ major minor, b.long? pos = some Version.magic ∧ b.word? (pos + 4) = some minor ∧
      b.word? (pos + 6) = some major ∧ Version.supported major minor = true := by
  unfold version at h
  obtain ⟨start, _, hstart, h⟩ := reads_bind.mp h
  obtain ⟨hlong, rfl⟩ := reads_u32.mp hstart
  dsimp only at h
  split at h
  · obtain ⟨_, _, hfail, _⟩ := reads_bind.mp h
    exact absurd hfail not_reads_fail
  · rename_i hmagic
    simp only [reads_bind, reads_u16] at h
    obtain ⟨minor, _, ⟨hminor, rfl⟩, major, _, ⟨hmajor, rfl⟩, h⟩ := h
    split at h
    · rename_i hsupported
      obtain ⟨_, rfl⟩ := reads_pure.mp h
      exact ⟨rfl, major, minor, Decidable.not_not.mp hmagic ▸ hlong, hminor, hmajor, hsupported⟩
    · exact absurd h not_reads_fail

theorem of_classAt {index : UInt16} {role : Role} {name : String}
    (h : Reads (classAt pool index role) b pos name stop) :
    pos = stop ∧ ∃ text, pool.constant? index = some (.classRef text) ∧ pool.className text = .ok name := by
  unfold classAt at h
  split at h
  · rename_i text hclass
    obtain ⟨hname, hstop⟩ := reads_ofExcept.mp h
    exact ⟨hstop, text, hclass, hname⟩
  · exact absurd h not_reads_fail

/-- What is known of the part up to the class's own name: the version takes eight bytes, the number of slots two,
then come the constants, and behind them the access bits and the index of the class. -/
structure Opening.ReadFrom (b : Bytes) (f : Opening) (stop : Nat) : Prop where
  poolStart : f.poolStart = 8
  count : b.word? 8 = some f.poolCount
  size : f.pool.size = f.poolCount.toNat
  pool : ∃ cs, f.pool.Written b 10 cs ∧ f.headerStart = 10 + (cs.flatMap constantBytes).length
  references : f.pool.references = .ok f.references
  ends : stop = f.headerStart + 4

theorem opening_readFrom {f : Opening} (h : Reads opening b 0 f stop) : f.ReadFrom b stop := by
  unfold opening at h
  simp only [reads_bind, reads_position, reads_u16, reads_ofExcept, reads_pure] at h
  obtain ⟨_, _, hversion, _, _, ⟨rfl, rfl⟩, count, _, ⟨hcount, rfl⟩, pool, _, hpool, references, _,
    ⟨hreferences, rfl⟩, _, _, ⟨rfl, rfl⟩, access, _, ⟨_, rfl⟩, index, _, ⟨_, rfl⟩, name, _, hname, rfl, rfl⟩ := h
  obtain ⟨rfl, _⟩ := of_version hversion
  obtain ⟨rfl, _⟩ := of_classAt hname
  have hin := (Bytes.word?_eq_some_iff_holds.mp hcount).le_size
  exact ⟨rfl, hcount, of_constantPool hpool, exists_written hin hpool, hreferences, rfl⟩

/-- What is known of a record whose class name stood in front of `pos`: each part was read where the part
before it had ended. -/
structure Record.Continues (b : Bytes) (f : Opening) (pos : Nat) (r : Record) (stop : Nat) : Prop where
  name : r.name = f.name
  pool : r.pool = f.pool
  references : r.references = f.references
  start : r.sections.pool = f.poolStart
  header : r.sections.header = f.headerStart
  superName : ∃ mid, Reads (superClass f.pool f.name) b pos r.superName mid ∧
    Reads (ClassFile.interfaceNames f.pool) b mid r.interfaces r.sections.fields
  fields : Reads skipFields b r.sections.fields () r.sections.methods
  methods : Reads (methodList f.pool) b r.sections.methods r.methods r.sections.attributes
  nested : Reads (nestedClasses f.pool f.name) b r.sections.attributes r.nested stop

theorem continues_of_remainder {f : Opening} {bytes : Bytes} {r : Record}
    (h : Reads (remainder f bytes) b pos r stop) : r.bytes = bytes ∧ r.Continues b f pos stop := by
  unfold remainder at h
  simp only [reads_bind, reads_position, reads_pure] at h
  obtain ⟨superName, mid, hsuper, interfaces, _, hinterfaces, _, _, ⟨rfl, rfl⟩, _, _, hfields, _, _, ⟨rfl, rfl⟩,
    methods, _, hmethods, _, _, ⟨rfl, rfl⟩, nested, _, hnested, rfl, rfl⟩ := h
  exact ⟨rfl, rfl, rfl, rfl, rfl, rfl, ⟨mid, hsuper, hinterfaces⟩, hfields, hmethods, hnested⟩

/-! ### Sections go forward -/

theorem of_superClass {name : String} {superName : Option String}
    (h : Reads (superClass pool name) b pos superName stop) :
    pos + 2 = stop ∧ (superName = none → name = Name.object) := by
  unfold superClass at h
  obtain ⟨index, _, hindex, h⟩ := reads_bind.mp h
  obtain ⟨_, rfl⟩ := reads_u16.mp hindex
  split at h
  · rename_i hnone
    exact ⟨(reads_pure.mp h).2, fun _ => hnone.2⟩
  · obtain ⟨superClass, _, hclass, hname⟩ := reads_bind.mp h
    obtain ⟨rfl, rfl⟩ := reads_pure.mp hname
    exact ⟨(of_classAt hclass).1, nofun⟩

theorem lt_of_interfaceNames {names : List String} (h : Reads (interfaceNames pool) b pos names stop) :
    pos < stop := by
  unfold interfaceNames at h
  simp only [reads_bind, reads_u16, reads_pure] at h
  obtain ⟨count, _, ⟨_, rfl⟩, _, _, hloop, _, rfl⟩ := h
  have := le_of_loop (fun names q names' q' hstep => by
    simp only [reads_bind, reads_u16, reads_pure] at hstep
    obtain ⟨_, _, ⟨_, rfl⟩, _, _, hclass, _, rfl⟩ := hstep
    have := (of_classAt hclass).1
    omega) hloop
  omega

omit [Text.Encoding] in
theorem lt_of_skipFields {u : Unit} (h : Reads skipFields b pos u stop) : pos < stop := by
  have skipAttribute {pos stop : Nat} {u : Unit} (h : Reads skipAttribute b pos u stop) : pos ≤ stop := by
    unfold ClassFile.skipAttribute at h
    simp only [reads_bind, reads_skip, reads_u32] at h
    obtain ⟨_, _, ⟨_, rfl⟩, _, _, ⟨_, rfl⟩, _, rfl⟩ := h
    omega
  have skipField {pos stop : Nat} {u : Unit} (h : Reads skipField b pos u stop) : pos ≤ stop := by
    unfold ClassFile.skipField at h
    simp only [reads_bind, reads_skip, reads_u16] at h
    obtain ⟨_, _, ⟨_, rfl⟩, _, _, ⟨_, rfl⟩, hloop⟩ := h
    have := le_of_loop (fun _ _ _ _ => skipAttribute) hloop
    omega
  unfold skipFields at h
  simp only [reads_bind, reads_u16] at h
  obtain ⟨_, _, ⟨_, rfl⟩, hloop⟩ := h
  have := le_of_loop (fun _ _ _ _ => skipField) hloop
  omega

/-! ### Methods side by side -/

/-- The methods stand one after another from `pos` to `stop`. -/
def Tiles : Nat → Nat → List Method → Prop
  | pos, stop, [] => pos = stop
  | pos, stop, m :: rest => m.infoStart = pos ∧ Tiles (pos + m.infoLength) stop rest

omit [Text.Encoding] in
theorem Tiles.concat {ms : List Method} {m : Method} (h : Tiles pos m.infoStart ms) :
    Tiles pos (m.infoStart + m.infoLength) (ms ++ [m]) := by
  induction ms generalizing pos with
  | nil =>
    cases h
    exact ⟨rfl, rfl⟩
  | cons first rest ih => exact ⟨h.1, ih h.2⟩

omit [Text.Encoding] in
theorem Tiles.le {ms : List Method} (h : Tiles pos stop ms) : pos ≤ stop := by
  induction ms generalizing pos with
  | nil => exact Nat.le_of_eq h
  | cons m rest ih => exact Nat.le_trans (Nat.le_add_right _ _) (ih h.2)

theorem tiles_of_methodList {ms : Array Method} (h : Reads (methodList pool) b pos ms stop) :
    Tiles (pos + 2) stop ms.toList := by
  unfold methodList at h
  simp only [reads_bind, reads_u16] at h
  obtain ⟨count, _, ⟨_, rfl⟩, hloop⟩ := h
  have hnone : Tiles (pos + 2) (pos + 2) [] := rfl
  refine of_loop (P := fun _ ms q => Tiles (pos + 2) q ms.toList) ?_ (i := 0) hnone hloop
  intro _ ms q ms' q' hms hstep
  simp only [reads_bind, reads_pure] at hstep
  obtain ⟨m, _, hm, rfl, rfl⟩ := hstep
  obtain ⟨rfl, rfl, _⟩ := of_method hm
  rw [Array.toList_push]
  exact hms.concat

/-! ### Line tables have as many entries as they say -/

/-- In front of the first entry of a line table stands their number. -/
def LineSpan.Declared (b : Bytes) (infoStart : Nat) (l : LineSpan) : Prop :=
  ∃ n, b.word? (infoStart + l.start - 2) = some n ∧ l.count = n.toNat

def MethodBody.Declared (b : Bytes) (infoStart : Nat) (body : MethodBody) : Prop :=
  ∀ l, body.lines = some l → l.Declared b infoStart

theorem MethodBody.Declared.codeAttribute (h : body.Declared b infoStart) (hpos : infoStart ≤ pos)
    (hreads : Reads (codeAttribute pool infoStart codeEnd body) b pos body' stop) :
    body'.Declared b infoStart := by
  obtain ⟨_, _, _, ⟨_, count, hcount, _, rfl⟩ | ⟨_, rfl⟩⟩ := of_codeAttribute hreads
  · rintro _ ⟨⟩
    refine ⟨count, ?_, rfl⟩
    rw [show infoStart + (pos + 8 - infoStart) - 2 = pos + 6 by omega]
    exact hcount
  · exact h

theorem MethodBody.Declared.methodAttribute (h : body.Declared b infoStart) (hpos : infoStart ≤ pos)
    (hreads : Reads (methodAttribute pool infoStart body) b pos body' stop) : body'.Declared b infoStart := by
  obtain ⟨_, _, _, ⟨_, _, hcode⟩ | ⟨_, rfl⟩⟩ := of_methodAttribute hreads
  · obtain ⟨_, _, _, _, _, _, hloop⟩ := of_codeBody hcode
    refine And.right (of_loop (P := fun _ body q => infoStart ≤ q ∧ body.Declared b infoStart) ?_ (i := 0)
      ⟨by omega, h⟩ hloop)
    rintro _ body q body' q' ⟨hq, hbody⟩ hstep
    obtain ⟨_, hheads, _⟩ := of_codeAttribute hstep
    have := hheads.le_stop
    exact ⟨by omega, hbody.codeAttribute hq hstep⟩
  · exact h

theorem declared_of_method {m : Method} (h : Reads (method pool) b pos m stop) :
    ∀ l, m.lines = some l → l.Declared b m.infoStart := by
  obtain ⟨rfl, rfl, _, count, _, hloop⟩ := of_method h
  refine And.right (of_loop (P := fun _ body q => m.infoStart ≤ q ∧ body.Declared b m.infoStart) ?_ (i := 0)
    ⟨Nat.le_add_right _ _, nofun⟩ hloop)
  rintro _ body q body' q' ⟨hq, hbody⟩ hstep
  obtain ⟨_, hheads, _⟩ := of_methodAttribute hstep
  have := hheads.le_stop
  exact ⟨by omega, hbody.methodAttribute hq hstep⟩

/-! ### What is cut out of the bytes -/

namespace Record
variable {r : Record} {i : Nat} {m : Method}

theorem exists_bytecode (h : parse b = .ok r) (hm : r.methods[i]? = some m) :
    ∃ code, r.bytecode? i = some code := by
  obtain ⟨hbytes, hmethods, _⟩ := parse_readFrom h
  unfold bytecode?
  rw [hm, hbytes, Option.bind_eq_bind, Option.bind_some]
  cases hc : m.code with
  | none => exact ⟨_, rfl⟩
  | some c =>
    obtain ⟨_, _, hreads⟩ := hmethods m (Array.mem_of_getElem? hm)
    have hwithin := (within_of_method hreads).2.code c hc
    have hend := hwithin.handlers
    have hin := hwithin.inFile
    unfold CodeSpan.handlersEnd at hin
    exact ⟨_, if_pos (by omega)⟩

theorem exists_lineTable {l : LineSpan} (h : parse b = .ok r) (hm : r.methods[i]? = some m)
    (hl : m.lines = some l) : ∃ t n, r.lineTable? i = some t ∧
      LineTable.read? b (m.infoStart + l.start) l.count = some t ∧
      b.word? (m.infoStart + l.start - 2) = some n ∧ l.count = n.toNat ∧ t.length = n.toNat := by
  obtain ⟨hbytes, hmethods, _⟩ := parse_readFrom h
  obtain ⟨_, _, hreads⟩ := hmethods m (Array.mem_of_getElem? hm)
  obtain ⟨n, hn, hcount⟩ := declared_of_method hreads l hl
  have hin := ((within_of_method hreads).2.lines l hl).inFile
  unfold LineSpan.entriesEnd at hin
  have hread : ∃ t, LineTable.read? b (m.infoStart + l.start) l.count = some t := ⟨_, if_pos (by omega)⟩
  obtain ⟨t, ht⟩ := hread
  refine ⟨t, n, ?_, ht, hn, hcount, (LineTable.read?_length ht).trans hcount⟩
  rw [lineTable?, hm, Option.bind_some, lineTableOf, hl, Option.bind_some, hbytes]
  exact ht

/-- Behind the offset of a text its bytes are found again. -/
theorem textBytesAt?_eq {index : UInt16} {offset : Nat} {bytes : Bytes} (h : parse b = .ok r)
    (hslot : r.pool.slot? index = some ⟨offset, .utf8 bytes⟩) : r.textBytesAt? offset = some bytes := by
  obtain ⟨f, pos, stop, hopening, hrest⟩ := parse_eq_ok_iff.mp h
  obtain ⟨hbytes, hcontinues⟩ := continues_of_remainder hrest
  obtain ⟨cs, hwritten, _⟩ := (opening_readFrom hopening).pool
  rw [hcontinues.pool] at hslot
  obtain ⟨hshort, hholds⟩ := hwritten.holds_payload hslot
  obtain ⟨hlength, htext⟩ := Bytes.holds_append.mp hholds
  have hsize : (UInt16.ofNat bytes.size).toNat = bytes.size := UInt16.toNat_ofNat_of_lt' hshort
  rw [textBytesAt?, hbytes, hlength.word?, Option.bind_eq_bind, Option.bind_some, hsize]
  exact Bytes.slice?_eq_some_iff_holds.mpr ⟨htext, rfl⟩

/-- A text that is read from the file again is the one that the pool has. -/
theorem text_eq (h : parse b = .ok r) (index : UInt16) : r.text index =
    match r.pool.slot? index with
    | some ⟨offset, .utf8 bytes⟩ =>
      match Text.Encoding.decode bytes.toList with
      | some s => .ok s
      | none => .error (.format r.name offset .invalidText)
    | _ => .error (.format r.name 0 (.notUtf8 index)) := by
  unfold text
  cases hslot : r.pool.slot? index with
  | none => rfl
  | some slot =>
    obtain ⟨offset, constant⟩ := slot
    cases constant with
    | utf8 bytes =>
      cases hdecode : Text.Encoding.decode bytes.toList <;> simp only [textBytesAt?_eq h hslot, hdecode]
    | _ => rfl

theorem text_ne_truncated (h : parse b = .ok r) (index : UInt16) (name : String) (position : Nat) :
    r.text index ≠ .error (.format name position .truncatedText) := by
  rw [text_eq h]
  split
  · split <;> simp
  · simp

/-! ### Whole files -/

/-- The parts of a record fit its bytes: the sections follow one another in them, the methods fill theirs, and
the methods, their bytecode, the line tables and the texts can be cut out. -/
structure Fits (r : Record) : Prop where
  pool : r.sections.pool = 8
  header : r.sections.pool < r.sections.header
  fields : r.sections.header < r.sections.fields
  methods : r.sections.fields < r.sections.methods
  attributes : r.sections.methods < r.sections.attributes
  inside : r.sections.attributes < r.bytes.size
  tiles : Tiles (r.sections.methods + 2) r.sections.attributes r.methods.toList
  cut : ∀ i < r.methods.size, (r.methodInfo? i).isSome ∧ (r.bytecode? i).isSome
  lines : ∀ i m l, r.methods[i]? = some m → m.lines = some l → ∃ t n, r.lineTable? i = some t ∧
    r.bytes.word? (m.infoStart + l.start - 2) = some n ∧ l.count = n.toNat ∧ t.length = n.toNat
  texts : ∀ index name position, r.text index ≠ .error (.format name position .truncatedText)

theorem fits_of_parse (h : parse b = .ok r) : r.Fits := by
  obtain ⟨f, pos, stop, hopening, hrest⟩ := parse_eq_ok_iff.mp h
  obtain ⟨hpoolStart, _, _, ⟨cs, _, hheader⟩, _, rfl⟩ := opening_readFrom hopening
  obtain ⟨hbytes, hcontinues⟩ := continues_of_remainder hrest
  obtain ⟨mid, hsuper, hinterfaces⟩ := hcontinues.superName
  have hstart := hcontinues.start
  have hheaderStart := hcontinues.header
  have hmid := (of_superClass hsuper).1
  have hfields := lt_of_interfaceNames hinterfaces
  have hmethods := lt_of_skipFields hcontinues.fields
  have htiles := tiles_of_methodList hcontinues.methods
  have hattributes := htiles.le
  have hcut (i : Nat) (hi : i < r.methods.size) : (r.methodInfo? i).isSome ∧ (r.bytecode? i).isSome := by
    obtain ⟨info, hinfo, _⟩ := exists_methodInfo h (Array.getElem?_eq_getElem hi)
    obtain ⟨code, hcode⟩ := exists_bytecode h (Array.getElem?_eq_getElem hi)
    exact ⟨Option.isSome_iff_exists.mpr ⟨info, hinfo⟩, Option.isSome_iff_exists.mpr ⟨code, hcode⟩⟩
  -- The number of attributes was read where the last section starts.
  have hinside : r.sections.attributes + 2 ≤ b.size := by
    have hnested := hcontinues.nested
    unfold nestedClasses at hnested
    obtain ⟨count, _, hcount, _⟩ := reads_bind.mp hnested
    exact (Bytes.word?_eq_some_iff_holds.mp (reads_u16.mp hcount).1).le_size
  rw [← hbytes] at hinside
  refine ⟨by omega, by omega, by omega, hmethods, by omega, by omega, htiles, hcut, ?_, ?_⟩
  · intro i m l hm hl
    obtain ⟨t, n, ht, _, hn, hcount, hlength⟩ := exists_lineTable h hm hl
    exact ⟨t, n, ht, by rwa [hbytes], hcount, hlength⟩
  · exact text_ne_truncated h

/-- Whatever the bytes are, they are refused at a position in them, or they are read and the parts of the record
fit them. -/
theorem parse_fits (b : Bytes) :
    (∃ name position fault, parse b = .error (.format name position fault) ∧ position ≤ b.size) ∨
      ∃ r, parse b = .ok r ∧ r.bytes = b ∧ r.Fits := by
  cases hparse : parse b with
  | ok r => exact .inr ⟨r, rfl, (parse_readFrom hparse).bytes, fits_of_parse hparse⟩
  | error e =>
    refine .inl ?_
    unfold parse at hparse
    split at hparse
    · rename_i failure hopening
      cases hparse
      exact ⟨_, _, _, rfl, (confined_opening (Nat.zero_le _)).position_le hopening⟩
    · rename_i f pos hopening
      have hpos := (confined_opening (Nat.zero_le _)).stop_le hopening
      split at hparse
      · rename_i failure hrest
        cases hparse
        exact ⟨_, _, _, rfl, (confined_remainder f b hpos).position_le hrest⟩
      · cases hparse

end Record
end ClassCatalog.ClassFile
