import Mathlib.Data.List.Forall2
import ClassCatalog.Proofs.ClassFile.Pool

/-! What is read of written fields and methods.

Fields are passed over by their lengths. Of a method the reader notes the names, where it stands, where
its code stands and the last line table of the code (`reads_method`), and from what it has noted the
method, its bytecode and its lines are read off again (`Noted`). -/
namespace ClassCatalog.ClassFile
open Image Reader

namespace Image
variable [Text.Encoding]

/-- The lines in an attribute, if it is a line table. -/
def Attribute.lines? (p : Pool) (a : Attribute) : Option LineTable :=
  if p.text? a.name = some AttributeKind.lineNumberTable.name then
    match a.contents with
    | .lines t => some t
    | _ => none
  else none

namespace Code

/-- The last line table of the code. -/
def lineTable? (p : Pool) (c : Code) : Option LineTable :=
  (c.attributes.filterMap (Attribute.lines? p)).getLast?

/-- Attributes inside code are named, and line tables hold lines. -/
structure Valid (p : Pool) (c : Code) : Prop where
  named : p.text? c.name = some AttributeKind.code.name
  attributes : ∀ a ∈ c.attributes, (p.text? a.name).isSome ∧
    (p.text? a.name = some AttributeKind.lineNumberTable.name → ∃ t, a.contents = .lines t)

end Code

namespace Method

def lineTable? (p : Pool) (m : Image.Method) : Option LineTable := m.code.bind (Code.lineTable? p)

/-- Names are texts, and at most one attribute is called `Code`. -/
structure Valid (p : Pool) (m : Image.Method) : Prop where
  fits : m.Fits
  name : (p.text? m.name).isSome
  descriptor : (p.text? m.descriptor).isSome
  others : ∀ a ∈ m.before ++ m.after, ∃ s, p.text? a.name = some s ∧ s ≠ AttributeKind.code.name
  code : ∀ c ∈ m.code, c.Valid p

end Method
end Image

variable {b : Bytes} {pos : Nat} {p : Pool}

/-! ### Fields -/

theorem reads_skipAttribute {a : Attribute} (ha : a.Fits) (h : b.Holds pos a.bytes) :
    Reads skipAttribute b pos () (pos + a.bytes.length) := by
  have hin := h.le_size
  rw [a.bytes_length] at hin ⊢
  obtain ⟨_, hlength, _⟩ := Attribute.holds_bytes.mp h
  have hlen := toNat_length (Contents.Fits.length_lt ha)
  refine (Reads.skip (by omega)).bind ((Reads.u32 hlength).bind ?_)
  rw [hlen, ← Nat.add_assoc]
  exact Reads.skip (by omega)

theorem reads_skipField {f : Field} (hf : f.Fits) (h : b.Holds pos f.bytes) :
    Reads skipField b pos () (pos + f.bytes.length) := by
  have hin := h.le_size
  obtain ⟨_, _, _, hcount, hattributes⟩ := holds_memberBytes.mp h
  have hlen : f.bytes.length = 8 + (f.attributes.flatMap Attribute.bytes).length := memberBytes_length ..
  rw [hlen, ← Nat.add_assoc]
  refine (Reads.skip (by omega)).bind ((Reads.u16 hcount).bind ?_)
  rw [toNat_count hf.count]
  exact Reads.loop_over (fun a q ha hat _ => reads_skipAttribute (hf.attributes a ha) hat) hattributes

theorem reads_skipFields {fs : List Field} (hcount : fs.length < countLimit) (hfs : ∀ f ∈ fs, f.Fits)
    (h : b.Holds pos (counted Field.bytes fs)) :
    Reads skipFields b pos () (pos + (counted Field.bytes fs).length) := by
  obtain ⟨hnumber, hfields⟩ := Bytes.holds_append.mp h
  rw [counted_length, ← Nat.add_assoc]
  refine (Reads.u16 hnumber).bind ?_
  rw [toNat_count hcount]
  exact Reads.loop_over (fun f q hf hat _ => reads_skipField (hfs f hf) hat) hfields

/-! ### Code -/

/-- A line table that has been noted relative to `start`. -/
def Located (b : Bytes) (start : Nat) : Option LineSpan → Option LineTable → Prop
  | none, none => True
  | some span, some t => span.count = t.length ∧ b.Holds (start + span.start) (t.flatMap lineBytes)
  | _, _ => False

variable [Text.Encoding] {pool : ConstantPool} {start codeEnd : Nat} {body : MethodBody}

/-- An attribute inside code: its lines are noted if it has some. -/
theorem reads_codeAttribute (hm : pool.Matches p) {a : Attribute} {before : Option LineTable} (ha : a.Fits)
    (hname : (p.text? a.name).isSome)
    (hlines : p.text? a.name = some AttributeKind.lineNumberTable.name → ∃ t, a.contents = .lines t)
    (h : b.Holds pos a.bytes) (hstart : start ≤ pos) (hend : pos + a.bytes.length ≤ codeEnd)
    (hbody : Located b start body.lines before) :
    ∃ body' : MethodBody, Reads (codeAttribute pool start codeEnd body) b pos body' (pos + a.bytes.length) ∧
      body'.code = body.code ∧ Located b start body'.lines ((a.lines? p).or before) := by
  obtain ⟨hnameAt, hlengthAt, hcontents⟩ := Attribute.holds_bytes.mp h
  have hlen := toNat_length (Contents.Fits.length_lt ha)
  obtain ⟨text, htext⟩ := Option.isSome_iff_exists.mp hname
  have hstop : pos + 2 + 4 + (UInt32.ofNat a.contents.bytes.length).toNat = pos + a.bytes.length := by
    rw [hlen, a.bytes_length]
    omega
  by_cases heq : text = AttributeKind.lineNumberTable.name
  · -- A line table: its entries start behind their number.
    obtain ⟨t, ht⟩ := hlines (heq ▸ htext)
    have hlinesEq : a.lines? p = some t := by
      rw [Attribute.lines?, if_pos (heq ▸ htext), ht]
    have ha' : t.length < countLimit := by
      unfold Attribute.Fits at ha
      rwa [ht] at ha
    rw [ht] at hcontents
    obtain ⟨hnumber, hentries⟩ := Bytes.holds_append.mp hcontents
    have hin := hentries.le_size
    have hsize : (t.flatMap lineBytes).length = 4 * t.length := flatMap_length_of_const lineBytes_length t
    rw [wordBytes_length] at hentries hin
    refine ⟨{ body with lines := some ⟨pos + 6 + 2 - start, t.length⟩ }, ?_, rfl, ?_⟩
    · refine (Reads.u16 hnameAt).bind ((Reads.u32 hlengthAt).bind (Reads.position.bind ?_))
      dsimp only
      rw [hstop, if_neg (Nat.not_lt.mpr hend)]
      refine (Reads.ofExcept (hm.text_eq htext)).bind ?_
      rw [if_pos heq]
      refine (Reads.u16 hnumber).bind (Reads.position.bind ?_)
      rw [toNat_count ha']
      exact (Reads.skip (by omega)).bind ((Reads.moveTo _).bind (.pure _))
    · rw [hlinesEq, Option.some_or]
      refine ⟨rfl, ?_⟩
      rwa [show start + (pos + 6 + 2 - start) = pos + 6 + 2 by omega]
  · have hlinesEq : a.lines? p = none := by
      rw [Attribute.lines?, if_neg]
      rw [htext]
      exact fun h => heq (Option.some.inj h)
    refine ⟨body, ?_, rfl, by rwa [hlinesEq, Option.none_or]⟩
    refine (Reads.u16 hnameAt).bind ((Reads.u32 hlengthAt).bind (Reads.position.bind ?_))
    dsimp only
    rw [hstop, if_neg (Nat.not_lt.mpr hend)]
    refine (Reads.ofExcept (hm.text_eq htext)).bind ?_
    rw [if_neg heq]
    exact (Reads.moveTo _).bind (.pure _)

/-- The attributes inside code: the last lines among them stay noted. -/
theorem reads_codeAttributes (hm : pool.Matches p) {c : Code} (hc : c.Fits) (hvalid : c.Valid p)
    (code : Option CodeSpan) (h : b.Holds pos (c.attributes.flatMap Attribute.bytes)) (hstart : start ≤ pos)
    (hend : pos + (c.attributes.flatMap Attribute.bytes).length ≤ codeEnd) :
    ∃ body : MethodBody,
      Reads (loop c.attributes.length (codeAttribute pool start codeEnd) ⟨code, none⟩) b pos body
        (pos + (c.attributes.flatMap Attribute.bytes).length) ∧
      body.code = code ∧ Located b start body.lines (c.lineTable? p) := by
  refine Reads.loop_list (P := fun (done : List Attribute) (body : MethodBody) => body.code = code ∧
    Located b start body.lines (done.filterMap (Attribute.lines? p)).getLast?) ?_ ⟨rfl, trivial⟩ h
  intro done a body q ha hbody hat hfirst hlast
  obtain ⟨hname, hlines⟩ := hvalid.attributes a ha
  obtain ⟨body', hreads, hcode, hlocated⟩ := reads_codeAttribute hm (hc.attributes a ha) hname hlines hat
    (Nat.le_trans hstart hfirst) (Nat.le_trans hlast hend) hbody.2
  refine ⟨body', hreads, hcode.trans hbody.1, ?_⟩
  rw [List.filterMap_append, List.getLast?_append]
  cases hlinesEq : a.lines? p with
  | none => simpa [hlinesEq] using hlocated
  | some t => simpa [hlinesEq] using hlocated

/-- Where code written at `header` stands relative to the method. -/
def codeSpanAt (header : Nat) (c : Code) : CodeSpan :=
  ⟨header + 14, c.bytecode.length, header + 14 + c.bytecode.length⟩

theorem reads_codeBody (code : Option CodeSpan) (hm : pool.Matches p) {c : Code} (hc : c.Fits)
    (hvalid : c.Valid p) {header : Nat} (h : b.Holds (start + header + 6) c.contents) :
    ∃ body' : MethodBody,
      Reads (codeBody pool start (start + header + 6 + c.contents.length) ⟨code, none⟩) b (start + header + 6)
        body' (start + header + 6 + c.contents.length) ∧
      body'.code = some (codeSpanAt header c) ∧ Located b start body'.lines (c.lineTable? p) := by
  obtain ⟨hmaxStack, hmaxLocals, hlength, hbytecode, hhandlers, hentries, hcount, hattributes⟩ :=
    Code.holds_contents.mp h
  have hfront := c.front_length
  have hparts := c.contents_length
  have hsize : (c.handlers.flatMap Handler.bytes).length = 8 * c.handlers.length :=
    flatMap_length_of_const Handler.bytes_length _
  have hbytecodeIn := hbytecode.le_size
  have hentriesIn := hentries.le_size
  have hend : start + header + 6 + c.front.length + 2 + (c.attributes.flatMap Attribute.bytes).length =
      start + header + 6 + c.contents.length := by omega
  have hstart : start ≤ start + header + 6 + c.front.length + 2 := by omega
  obtain ⟨body', hreads, hbody'⟩ :=
    reads_codeAttributes hm hc hvalid (some (codeSpanAt header c)) hattributes hstart (Nat.le_of_eq hend)
  refine ⟨body', ?_, hbody'⟩
  unfold codeBody
  refine (Reads.skip (by omega)).bind ((Reads.u32 hlength).bind (Reads.position.bind ?_))
  rw [toNat_length hc.bytecode]
  refine (Reads.skip (by omega)).bind (Reads.position.bind ((Reads.u16 hhandlers).bind ?_))
  rw [toNat_count hc.handlers]
  have hstop : start + header + 6 + 4 + 4 + c.bytecode.length + 2 + 8 * c.handlers.length =
      start + header + 6 + c.front.length := by omega
  refine (Reads.skip (by omega)).bind ?_
  rw [hstop]
  refine (Reads.u16 hcount).bind ?_
  have hspan : (⟨start + header + 6 + 4 + 4 - start, c.bytecode.length,
      start + header + 6 + 4 + 4 + c.bytecode.length - start⟩ : CodeSpan) = codeSpanAt header c := by
    rw [codeSpanAt]
    congr 1 <;> omega
  dsimp only
  rw [toNat_count hc.count, hspan, ← hend]
  rw [← hend] at hreads
  exact hreads

/-! ### Methods -/

theorem reads_otherAttribute (hm : pool.Matches p) {a : Attribute} {text : String} (ha : a.Fits)
    (htext : p.text? a.name = some text) (hother : text ≠ AttributeKind.code.name) (h : b.Holds pos a.bytes) :
    Reads (methodAttribute pool start body) b pos body (pos + a.bytes.length) := by
  obtain ⟨hname, hlength, _⟩ := Attribute.holds_bytes.mp h
  have hlen := toNat_length (Contents.Fits.length_lt ha)
  have hin := h.le_size
  rw [a.bytes_length] at hin ⊢
  unfold methodAttribute
  refine (Reads.u16 hname).bind ((Reads.u32 hlength).bind (Reads.position.bind ?_))
  dsimp only
  rw [hlen]
  refine (Reads.reach (by omega) _).bind ((Reads.ofExcept (hm.text_eq htext)).bind ?_)
  rw [if_neg hother, ← Nat.add_assoc]
  exact (Reads.pure body).bind ((Reads.moveTo _).bind (.pure _))

theorem reads_codeAsAttribute (hm : pool.Matches p) {c : Code} (hc : c.Fits) (hvalid : c.Valid p)
    {header : Nat} (h : b.Holds (start + header) c.asAttribute.bytes) :
    ∃ body : MethodBody, Reads (methodAttribute pool start ⟨none, none⟩) b (start + header) body
        (start + header + c.asAttribute.bytes.length) ∧
      body.code = some (codeSpanAt header c) ∧ Located b start body.lines (c.lineTable? p) := by
  obtain ⟨hname, hlength, hcontents⟩ := Attribute.holds_bytes.mp h
  have hlen : (UInt32.ofNat c.asAttribute.contents.bytes.length).toNat = c.contents.length :=
    toNat_length hc.contents
  have hin := h.le_size
  rw [c.asAttribute_length] at hin ⊢
  obtain ⟨body, hreads, hbody⟩ := reads_codeBody none hm hc hvalid hcontents
  refine ⟨body, ?_, hbody⟩
  unfold methodAttribute
  refine (Reads.u16 hname).bind ((Reads.u32 hlength).bind (Reads.position.bind ?_))
  dsimp only
  rw [hlen]
  refine (Reads.reach (by omega) _).bind ((Reads.ofExcept (hm.text_eq hvalid.named)).bind ?_)
  rw [if_pos rfl, ← Nat.add_assoc]
  exact hreads.bind ((Reads.moveTo _).bind (.pure _))

/-- What the attributes of a method tell. -/
theorem reads_methodAttributes (hm : pool.Matches p) {m : Image.Method} (hvalid : m.Valid p)
    (h : b.Holds (start + 8) (m.attributes.flatMap Attribute.bytes)) :
    ∃ body : MethodBody,
      Reads (loop m.attributes.length (methodAttribute pool start) ⟨none, none⟩) b (start + 8) body
        (start + 8 + (m.attributes.flatMap Attribute.bytes).length) ∧
      body.code = m.code.map (codeSpanAt m.front.length) ∧ Located b start body.lines (m.lineTable? p) := by
  have hothers := List.forall_mem_append.mp hvalid.others
  have hover : ∀ (body : MethodBody) {as : List Attribute} {q : Nat},
      (∀ a ∈ as, ∃ s, p.text? a.name = some s ∧ s ≠ AttributeKind.code.name) → (∀ a ∈ as, a.Fits) →
      b.Holds q (as.flatMap Attribute.bytes) →
      Reads (loop as.length (methodAttribute pool start) body) b q body
        (q + (as.flatMap Attribute.bytes).length) := by
    intro body as q hnames hfits hat
    refine Reads.loop_over (fun a q ha hat _ => ?_) hat
    obtain ⟨text, htext, hne⟩ := hnames a ha
    exact reads_otherAttribute hm (hfits a ha) htext hne hat
  have hbefore := hvalid.fits.before
  have hafter := hvalid.fits.after
  cases hcode : m.code with
  | none =>
    have hattributes : m.attributes = m.before ++ m.after := by simp [Image.Method.attributes, hcode]
    rw [hattributes] at h ⊢
    refine ⟨⟨none, none⟩, hover _ hvalid.others (List.forall_mem_append.mpr ⟨hbefore, hafter⟩) h, rfl, ?_⟩
    rw [Image.Method.lineTable?, hcode]
    trivial
  | some c =>
    rw [Image.Method.attributes_of_code hcode, List.flatMap_append, List.flatMap_cons, Bytes.holds_append,
      Bytes.holds_append, Nat.add_assoc start, ← m.front_length] at h
    obtain ⟨hbeforeAt, hcodeAt, hafterAt⟩ := h
    obtain ⟨body, hreads, hspan, hlines⟩ :=
      reads_codeAsAttribute hm (hvalid.fits.code c hcode) (hvalid.code c hcode) hcodeAt
    refine ⟨body, ?_, hspan, by rwa [Image.Method.lineTable?, hcode]⟩
    rw [Image.Method.attributes_of_code hcode, List.length_append, List.length_cons, List.flatMap_append,
      List.flatMap_cons, List.length_append, List.length_append]
    have hfirst := hover ⟨none, none⟩ hothers.1 hbefore hbeforeAt
    have hrest := hover body hothers.2 hafter hafterAt
    rw [Nat.add_assoc start, ← m.front_length] at hfirst
    have hstop : start + 8 + ((m.before.flatMap Attribute.bytes).length +
          (c.asAttribute.bytes.length + (m.after.flatMap Attribute.bytes).length)) =
        start + m.front.length + c.asAttribute.bytes.length + (m.after.flatMap Attribute.bytes).length := by
      rw [m.front_length]
      omega
    rw [hstop]
    exact hfirst.loop_add (hreads.loop_succ hrest)

/-- What is noted of a written method. -/
structure Noted (b : Bytes) (p : Pool) (m : Image.Method) (x : Method) : Prop where
  name : p.text? m.name = some x.name
  signature : p.text? m.descriptor = some x.signature
  access : x.access = m.access
  holds : b.Holds x.infoStart m.bytes
  length : x.infoLength = m.bytes.length
  code : x.code = m.code.map (codeSpanAt m.front.length)
  lines : Located b x.infoStart x.lines (m.lineTable? p)

theorem reads_method (hm : pool.Matches p) {m : Image.Method} (hvalid : m.Valid p) (h : b.Holds pos m.bytes) :
    ∃ x, Reads (method pool) b pos x (pos + m.bytes.length) ∧ Noted b p m x := by
  obtain ⟨haccess, hname, hdescriptor, hcount, hattributes⟩ := holds_memberBytes.mp h
  obtain ⟨name, hname'⟩ := Option.isSome_iff_exists.mp hvalid.name
  obtain ⟨signature, hsignature⟩ := Option.isSome_iff_exists.mp hvalid.descriptor
  obtain ⟨body, hreads, hcode, hlines⟩ := reads_methodAttributes hm hvalid hattributes
  have hlen : m.bytes.length = 8 + (m.attributes.flatMap Attribute.bytes).length := memberBytes_length ..
  have hend : pos + 8 + (m.attributes.flatMap Attribute.bytes).length = pos + m.bytes.length := by
    rw [hlen, Nat.add_assoc]
  rw [hend] at hreads
  refine ⟨⟨name, signature, m.access, pos, m.bytes.length, body.code, body.lines⟩, ?_,
    ⟨hname', hsignature, rfl, h, rfl, hcode, hlines⟩⟩
  unfold method
  refine Reads.position.bind ((Reads.u16 haccess).bind ((Reads.u16 hname).bind ?_))
  refine (Reads.ofExcept (hm.text_eq hname')).bind ((Reads.u16 hdescriptor).bind ?_)
  refine (Reads.ofExcept (hm.text_eq hsignature)).bind ((Reads.u16 hcount).bind ?_)
  rw [toNat_count hvalid.fits.count]
  refine hreads.bind (Reads.position.bind ?_)
  rw [Nat.add_sub_cancel_left]
  exact .pure _

theorem reads_methodList (hm : pool.Matches p) {ms : List Image.Method} (hcount : ms.length < countLimit)
    (hvalid : ∀ m ∈ ms, m.Valid p) (h : b.Holds pos (counted Image.Method.bytes ms)) :
    ∃ xs : Array Method, Reads (methodList pool) b pos xs (pos + (counted Image.Method.bytes ms).length) ∧
      List.Forall₂ (Noted b p) ms xs.toList := by
  obtain ⟨hnumber, hmethods⟩ := Bytes.holds_append.mp h
  have hloop : ∃ xs : Array Method,
      Reads (loop ms.length (fun methods => do return methods.push (← method pool)) #[]) b (pos + 2) xs
        (pos + 2 + (ms.flatMap Image.Method.bytes).length) ∧ List.Forall₂ (Noted b p) ms xs.toList := by
    refine Reads.loop_list (P := fun done (xs : Array Method) => List.Forall₂ (Noted b p) done xs.toList) ?_ .nil
      hmethods
    intro done m xs q hmem hdone hat _ _
    obtain ⟨x, hreads, hx⟩ := reads_method hm (hvalid m hmem) hat
    refine ⟨xs.push x, hreads.bind (.pure _), ?_⟩
    rw [Array.toList_push]
    exact List.rel_append hdone (.cons hx .nil)
  obtain ⟨xs, hreads, hxs⟩ := hloop
  refine ⟨xs, ?_, hxs⟩
  rw [counted_length, ← Nat.add_assoc]
  refine (Reads.u16 hnumber).bind ?_
  rw [toNat_count hcount]
  exact hreads

/-! ### Reading off what has been noted -/

omit [Text.Encoding] in
theorem read?_of_holds {t : LineTable} (h : b.Holds pos (t.flatMap lineBytes)) :
    LineTable.read? b pos t.length = some t := by
  have hin := h.le_size
  rw [flatMap_length_of_const lineBytes_length] at hin
  rw [LineTable.read?, if_pos hin]
  congr 1
  clear hin
  induction t generalizing pos with
  | nil => rfl
  | cons e rest ih =>
    rw [List.flatMap_cons, Bytes.holds_append, lineBytes_length, lineBytes, Bytes.holds_append] at h
    obtain ⟨⟨hstart, hline⟩, hrest⟩ := h
    have hentry : LineTable.entryAt b (pos + 4 * 0) = e := by
      rw [Nat.mul_zero, Nat.add_zero, LineTable.entryAt, hstart.word?]
      rw [wordBytes_length] at hline
      rw [hline.word?]
      rfl
    rw [List.length_cons, List.range_succ_eq_map, List.map_cons, hentry, List.map_map]
    refine congrArg (e :: ·) (Eq.trans (List.map_congr_left fun i _ => ?_) (ih hrest))
    show LineTable.entryAt b (pos + 4 * (i + 1)) = LineTable.entryAt b (pos + 4 + 4 * i)
    congr 1
    omega

namespace Noted
variable {r : Record} {m : Image.Method} {x : Method} {i : Nat}

theorem methodInfo?_eq (h : Noted r.bytes p m x) (hx : r.methods[i]? = some x) :
    r.methodInfo? i = some m.bytes.toArray := by
  unfold Record.methodInfo?
  rw [hx]
  show r.bytes.slice? x.infoStart x.infoLength = _
  rw [h.length]
  exact h.holds.slice?

theorem bytecode?_eq (h : Noted r.bytes p m x) (hx : r.methods[i]? = some x) :
    r.bytecode? i = some ((m.code.map Code.bytecode).getD []).toArray := by
  unfold Record.bytecode?
  rw [hx, Option.bind_eq_bind, Option.bind_some, h.code]
  cases hcode : m.code with
  | none => rfl
  | some c =>
    have hat := h.holds
    rw [Image.Method.bytes_of_code hcode, Bytes.holds_append, Bytes.holds_append] at hat
    obtain ⟨_, _, hcontents⟩ := Attribute.holds_bytes.mp hat.1.2
    obtain ⟨_, _, _, hbytecode, _⟩ := Code.holds_contents.mp hcontents
    show r.bytes.slice? (x.infoStart + (m.front.length + 14)) c.bytecode.length = some c.bytecode.toArray
    rw [show x.infoStart + (m.front.length + 14) = x.infoStart + m.front.length + 6 + 8 by omega]
    exact hbytecode.slice?

theorem lineTable?_eq (h : Noted r.bytes p m x) (hx : r.methods[i]? = some x) :
    r.lineTable? i = m.lineTable? p := by
  have hlines := h.lines
  unfold Record.lineTable?
  rw [hx]
  show (x.lines.bind fun l => LineTable.read? r.bytes (x.infoStart + l.start) l.count) = _
  cases hspan : x.lines with
  | none =>
    cases ht : m.lineTable? p with
    | none => rfl
    | some t =>
      rw [hspan, ht] at hlines
      cases hlines
  | some span =>
    cases ht : m.lineTable? p with
    | none =>
      rw [hspan, ht] at hlines
      cases hlines
    | some t =>
      rw [hspan, ht] at hlines
      show LineTable.read? r.bytes (x.infoStart + span.start) span.count = some t
      rw [hlines.1]
      exact read?_of_holds hlines.2

end Noted

end ClassCatalog.ClassFile
