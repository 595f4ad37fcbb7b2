import ClassCatalog.Proofs.ClassFile.Accepted
import ClassCatalog.Proofs.ClassFile.Parse

/-! Where the code of a method may stand.

Attributes end inside their method, and attributes of code inside the code; but the bytecode, the handlers
behind it and the entries of a line table are only known to stand in the file. They stay in the method if the
attributes that hold them are as long as their contents, which is certain for code with attributes of its own
(`contained_of_closed`). Otherwise they may reach into what follows the method (`not_contained`). -/
namespace ClassCatalog.ClassFile
open Image Reader

/-! ### Ends of attributes and of their contents

All ends count from the start of the method, like the spans do. -/

namespace CodeSpan
variable (b : Bytes) (infoStart : Nat) (c : CodeSpan)

/-- Where the last handler ends. -/
def handlersEnd : Nat := c.handlers + 2 + 8 * ((b.word? (infoStart + c.handlers)).getD 0).toNat

/-- How many attributes the code has of its own. -/
def attributeCount : Nat := ((b.word? (infoStart + c.handlersEnd b infoStart)).getD 0).toNat

/-- Where the attribute ends by its length, which stands twelve bytes before the bytecode. -/
def attributeEnd : Nat := c.start - 8 + ((b.long? (infoStart + c.start - 12)).getD 0).toNat

end CodeSpan

namespace LineSpan
variable (b : Bytes) (infoStart : Nat) (l : LineSpan)

/-- Where the last entry ends. -/
def entriesEnd : Nat := l.start + 4 * l.count

/-- Where the attribute ends by its length, which stands six bytes before the entries. -/
def attributeEnd : Nat := l.start - 2 + ((b.long? (infoStart + l.start - 6)).getD 0).toNat

end LineSpan

/-! ### Spans and their attributes -/

/-- Code in an attribute that ends before `stop`. -/
structure CodeSpan.Within (b : Bytes) (infoStart stop : Nat) (c : CodeSpan) : Prop where
  handlers : c.handlers = c.start + c.length
  inFile : infoStart + c.handlersEnd b infoStart + 2 ≤ b.size
  ends : infoStart + c.attributeEnd b infoStart ≤ stop
  closed : c.attributeCount b infoStart ≠ 0 → c.handlersEnd b infoStart ≤ c.attributeEnd b infoStart

/-- A line table in an attribute that ends before `stop`. -/
structure LineSpan.Within (b : Bytes) (infoStart stop : Nat) (l : LineSpan) : Prop where
  inFile : infoStart + l.entriesEnd ≤ b.size
  ends : infoStart + l.attributeEnd b infoStart ≤ stop

variable {b : Bytes} {pool : ConstantPool} {infoStart codeEnd pos stop last : Nat} {body body' : MethodBody}

theorem CodeSpan.Within.mono {c : CodeSpan} (h : c.Within b infoStart stop) (hle : stop ≤ last) :
    c.Within b infoStart last := { h with ends := Nat.le_trans h.ends hle }

theorem LineSpan.Within.mono {l : LineSpan} (h : l.Within b infoStart stop) (hle : stop ≤ last) :
    l.Within b infoStart last := { h with ends := Nat.le_trans h.ends hle }

/-- All that is noted is in attributes that end before `stop`. -/
structure MethodBody.Within (b : Bytes) (infoStart stop : Nat) (body : MethodBody) : Prop where
  code : ∀ c, body.code = some c → c.Within b infoStart stop
  lines : ∀ l, body.lines = some l → l.Within b infoStart stop

theorem MethodBody.Within.mono (h : body.Within b infoStart stop) (hle : stop ≤ last) :
    body.Within b infoStart last :=
  ⟨fun c hc => (h.code c hc).mono hle, fun l hl => (h.lines l hl).mono hle⟩

/-- An attribute of code keeps the code, and a table it notes ends where the code does or before. -/
theorem lines_of_codeAttribute [Text.Encoding] (hpos : infoStart ≤ pos)
    (h : Reads (codeAttribute pool infoStart codeEnd body) b pos body' stop)
    (hlines : ∀ l, body.lines = some l → l.Within b infoStart codeEnd) :
    body'.code = body.code ∧ ∀ l, body'.lines = some l → l.Within b infoStart codeEnd := by
  obtain ⟨name, hheads, hend, ⟨_, count, _, hentries, rfl⟩ | ⟨_, rfl⟩⟩ := of_codeAttribute h
  · refine ⟨rfl, ?_⟩
    rintro _ ⟨⟩
    obtain ⟨length, hlength, rfl⟩ := hheads.measured
    have hlengthAt : infoStart + (pos + 8 - infoStart) - 6 = pos + 2 := by omega
    constructor
    · simp only [LineSpan.entriesEnd]
      omega
    · simp only [LineSpan.attributeEnd, hlengthAt, hlength, Option.getD_some]
      omega
  · exact ⟨rfl, hlines⟩

/-- The attributes of code, which end before it does if there are any. -/
theorem lines_of_codeAttributes [Text.Encoding] {count : Nat} (hpos : infoStart ≤ pos)
    (h : Reads (loop count (codeAttribute pool infoStart codeEnd) body) b pos body' stop)
    (hlines : ∀ l, body.lines = some l → l.Within b infoStart codeEnd) :
    body'.code = body.code ∧ (∀ l, body'.lines = some l → l.Within b infoStart codeEnd) ∧
      (count ≠ 0 → pos ≤ codeEnd) := by
  suffices hinvariant : pos ≤ stop ∧ body'.code = body.code ∧
      (∀ l, body'.lines = some l → l.Within b infoStart codeEnd) ∧ (0 + count ≠ 0 → pos ≤ codeEnd) by
    obtain ⟨_, hcode, hlines, hends⟩ := hinvariant
    exact ⟨hcode, hlines, fun hcount => hends (by omega)⟩
  refine of_loop (P := fun i body₁ q => pos ≤ q ∧ body₁.code = body.code ∧
    (∀ l, body₁.lines = some l → l.Within b infoStart codeEnd) ∧ (i ≠ 0 → pos ≤ codeEnd)) ?_
    ⟨Nat.le_refl _, rfl, hlines, fun h => absurd rfl h⟩ h
  rintro i body₁ q body₂ q' ⟨hq, hcode, hlines, -⟩ hstep
  obtain ⟨hcode', hlines'⟩ := lines_of_codeAttribute (by omega) hstep hlines
  obtain ⟨_, hheads, hend, _⟩ := of_codeAttribute hstep
  have := hheads.le_stop
  exact ⟨by omega, hcode'.trans hcode, hlines', fun _ => by omega⟩

theorem within_of_codeBody [Text.Encoding] (hpos : infoStart ≤ pos) {length : UInt32}
    (hlength : b.long? (pos + 2) = some length)
    (h : Reads (codeBody pool infoStart (pos + 6 + length.toNat) body) b (pos + 6) body' stop)
    (hbody : body.Within b infoStart pos) : body'.Within b infoStart (pos + 6 + length.toNat) := by
  obtain ⟨codeLength, handlers, count, hcodeLength, hhandlers, hcount, hloop⟩ := of_codeBody h
  have hcountIn := (Bytes.word?_eq_some_iff_holds.mp hcount).le_size
  rw [wordBytes_length] at hcountIn
  generalize hc : CodeSpan.mk _ _ _ = c at hloop
  obtain ⟨hcode, hlines, hends⟩ := lines_of_codeAttributes (by omega) hloop fun l hl =>
    (hbody.lines l hl).mono (by omega)
  refine ⟨?_, hlines⟩
  rw [hcode]
  rintro _ ⟨⟩
  have hhandlersAt : infoStart + c.handlers = pos + 6 + 8 + codeLength.toNat := by
    rw [← hc]
    dsimp only
    omega
  have hhandlersEnd : infoStart + c.handlersEnd b infoStart = pos + 6 + 10 + codeLength.toNat + 8 * handlers.toNat := by
    rw [CodeSpan.handlersEnd, hhandlersAt, hhandlers, Option.getD_some]
    omega
  have hattributeCount : c.attributeCount b infoStart = count.toNat := by
    rw [CodeSpan.attributeCount, hhandlersEnd, hcount, Option.getD_some]
  have hstart : infoStart + c.start = pos + 14 := by
    rw [← hc]
    dsimp only
    omega
  have hattributeEnd : infoStart + c.attributeEnd b infoStart = pos + 6 + length.toNat := by
    have hlengthAt : infoStart + c.start - 12 = pos + 2 := by omega
    rw [CodeSpan.attributeEnd, hlengthAt, hlength, Option.getD_some]
    omega
  refine ⟨?_, by omega, by omega, ?_⟩
  · rw [← hc]
    dsimp only
    omega
  · rw [hattributeCount]
    omega

theorem within_of_methodAttribute [Text.Encoding] (hpos : infoStart ≤ pos)
    (h : Reads (methodAttribute pool infoStart body) b pos body' stop) (hbody : body.Within b infoStart pos) :
    body'.Within b infoStart stop := by
  obtain ⟨name, hheads, _, ⟨_, mid, hinner⟩ | ⟨_, rfl⟩⟩ := of_methodAttribute h
  · obtain ⟨length, hlength, rfl⟩ := hheads.measured
    exact within_of_codeBody hpos hlength hinner hbody
  · exact hbody.mono (by have := hheads.le_stop; omega)

/-! ### Methods -/

namespace Method

/-- What is recorded of the method stays in it. -/
structure Contained (b : Bytes) (m : Method) : Prop where
  bytecode : ∀ c, m.code = some c → c.start + c.length ≤ m.infoLength
  handlers : ∀ c, m.code = some c → c.handlersEnd b m.infoStart ≤ m.infoLength
  lines : ∀ l, m.lines = some l → l.entriesEnd ≤ m.infoLength

/-- Code without attributes of its own ends where its handlers end or behind them, and so does a line table
behind its entries. -/
structure Closed (b : Bytes) (m : Method) : Prop where
  code : ∀ c, m.code = some c → c.attributeCount b m.infoStart = 0 →
    c.handlersEnd b m.infoStart ≤ c.attributeEnd b m.infoStart
  lines : ∀ l, m.lines = some l → l.entriesEnd ≤ l.attributeEnd b m.infoStart

end Method

theorem within_of_method [Text.Encoding] {m : Method} (h : Reads (method pool) b pos m stop) :
    m.infoStart + m.infoLength ≤ b.size ∧
      (⟨m.code, m.lines⟩ : MethodBody).Within b m.infoStart (m.infoStart + m.infoLength) := by
  obtain ⟨rfl, rfl, hsize, count, _, hloop⟩ := of_method h
  refine ⟨hsize, And.right (of_loop (P := fun _ body q => m.infoStart ≤ q ∧ body.Within b m.infoStart q) ?_
    (i := 0) ⟨Nat.le_add_right _ _, nofun, nofun⟩ hloop)⟩
  rintro _ body q body' q' ⟨hq, hbody⟩ hstep
  obtain ⟨_, hheads, _⟩ := of_methodAttribute hstep
  have := hheads.le_stop
  exact ⟨by omega, within_of_methodAttribute hq hstep hbody⟩

/-- The attributes of a method end in it. What is recorded of them stands in the file, and in the method if
the attributes are as long as their contents. -/
theorem contained_of_closed [Text.Encoding] {r : Record} (h : Record.parse b = .ok r) {m : Method}
    (hm : m ∈ r.methods) :
    m.infoStart + m.infoLength ≤ b.size ∧
      (∀ c, m.code = some c → c.Within b m.infoStart (m.infoStart + m.infoLength)) ∧
      (∀ l, m.lines = some l → l.Within b m.infoStart (m.infoStart + m.infoLength)) ∧
      (m.Closed b → m.Contained b) := by
  obtain ⟨first, last, hreads⟩ := (parse_readFrom h).methods m hm
  obtain ⟨hsize, hwithin⟩ := within_of_method hreads
  refine ⟨hsize, hwithin.code, hwithin.lines, fun hclosed => ?_⟩
  have hhandlers : ∀ c, m.code = some c → c.handlersEnd b m.infoStart ≤ m.infoLength := by
    intro c hc
    have hcode := hwithin.code c hc
    have hends := hcode.ends
    by_cases hcount : c.attributeCount b m.infoStart = 0
    · have := hclosed.code c hc hcount
      omega
    · have := hcode.closed hcount
      omega
  refine ⟨fun c hc => ?_, hhandlers, fun l hl => ?_⟩
  · have heq := (hwithin.code c hc).handlers
    have hend := hhandlers c hc
    unfold CodeSpan.handlersEnd at hend
    omega
  · have hends := (hwithin.lines l hl).ends
    have := hclosed.lines l hl
    omega

/-- The method of the sample file, whose attributes are as long as their contents. -/
theorem contained_sample : ∃ r m, Record.parse File.sample.bytes.toArray = .ok r ∧ m ∈ r.methods ∧
    m.code = some ⟨22, 1, 23⟩ ∧ m.lines = some ⟨35, 1⟩ ∧ m.Contained File.sample.bytes.toArray := by
  obtain ⟨r, hparse, hm⟩ := exists_parsed (b := File.sample.bytes.toArray) (i := 0)
    (m := ⟨"m", "()V", 1, 121, 39, some ⟨22, 1, 23⟩, some ⟨35, 1⟩⟩) (by decide +kernel)
  have hm := Array.mem_of_getElem? hm
  refine ⟨r, _, hparse, hm, rfl, rfl, (contained_of_closed hparse hm).2.2.2 ⟨?_, ?_⟩⟩
  · rintro _ ⟨⟩
    decide +kernel
  · rintro _ ⟨⟩
    decide +kernel

/-! ### Two files in which a method is left -/

namespace Image.File

/-- The code of the first method has ten bytes, its attribute room for four; the second method has no
attributes. -/
def longCode : File where
  minor := 0
  major := 52
  pool := ⟨[.utf8 (ascii "A"), .classRef 1, .utf8 (ascii "Code")]⟩
  access := 0x21
  thisClass := 2
  superClass := 2
  interfaces := []
  fields := []
  methods := [⟨1, 1, 1, [⟨3, .raw [0, 0, 0, 0, 0, 0, 0, 10, 0, 0, 0, 0]⟩], none, []⟩, ⟨1, 1, 1, [], none, []⟩]
  attributes := []

/-- The line table of the first method has two entries, its attribute room for none. -/
def longTable : File where
  minor := 0
  major := 52
  pool := ⟨[.utf8 (ascii "A"), .classRef 1, .utf8 (ascii "Code"), .utf8 (ascii "LineNumberTable")]⟩
  access := 0x21
  thisClass := 2
  superClass := 2
  interfaces := []
  fields := []
  methods := [⟨1, 1, 1, [], some ⟨3, 0, 0, [0xb1], [], [⟨4, .raw [0, 2]⟩]⟩, []⟩, ⟨1, 1, 1, [], none, []⟩]
  attributes := []

end Image.File

/-- Bytecode, handlers and the entries of a line table may stand outside their method. -/
theorem not_contained :
    (∃ r m c, Record.parse File.longCode.bytes.toArray = .ok r ∧ m ∈ r.methods ∧ m.code = some c ∧
      m.infoLength < c.start + c.length ∧ m.infoLength < c.handlersEnd File.longCode.bytes.toArray m.infoStart) ∧
    ∃ r m l, Record.parse File.longTable.bytes.toArray = .ok r ∧ m ∈ r.methods ∧ m.lines = some l ∧
      m.infoLength < l.entriesEnd := by
  constructor
  · obtain ⟨r, hparse, hm⟩ := exists_parsed (b := File.longCode.bytes.toArray) (i := 0)
      (m := ⟨"A", "A", 1, 36, 26, some ⟨22, 10, 32⟩, none⟩) (by decide +kernel)
    exact ⟨r, _, _, hparse, Array.mem_of_getElem? hm, rfl, by decide, by decide +kernel⟩
  · obtain ⟨r, hparse, hm⟩ := exists_parsed (b := File.longTable.bytes.toArray) (i := 0)
      (m := ⟨"A", "A", 1, 54, 35, some ⟨22, 1, 23⟩, some ⟨35, 2⟩⟩) (by decide +kernel)
    exact ⟨r, _, _, hparse, Array.mem_of_getElem? hm, rfl, by decide⟩

end ClassCatalog.ClassFile
