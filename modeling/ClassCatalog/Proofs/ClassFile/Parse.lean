import ClassCatalog.Proofs.ClassFile.Members
import ClassCatalog.Text.ModifiedUtf8

/-! Reading a class file gives what has been written.

A well-formed class file is any image in which the names and the references that the reader follows lead
where they should (`File.Valid`). Its bytes are read without failure, and the record says what the image
does (`parse_image`). -/
namespace ClassCatalog.ClassFile
open Image Reader

namespace Image

structure File where
  minor : UInt16
  major : UInt16
  pool : Pool
  access : UInt16
  thisClass : UInt16
  superClass : UInt16
  interfaces : List UInt16
  fields : List Field
  methods : List Image.Method
  attributes : List Attribute
deriving DecidableEq, Repr

variable [Text.Encoding]

/-- A named attribute of a class; one called `InnerClasses` lists classes with their names. -/
structure Attribute.Valid (p : Pool) (a : Attribute) : Prop where
  fits : a.Fits
  name : (p.text? a.name).isSome
  nested : p.text? a.name = some AttributeKind.innerClasses.name → ∃ cs, a.contents = .nested cs ∧
    ∀ c ∈ cs, (p.className? c.inner).isSome ∧ (c.name = 0 ∨ (p.text? c.name).isSome)

namespace File

/-- What stands behind the name of the class. -/
def remainder (f : File) : List UInt8 :=
  wordBytes f.superClass ++ counted wordBytes f.interfaces ++ counted Field.bytes f.fields ++
    counted Image.Method.bytes f.methods ++ counted Attribute.bytes f.attributes

def bytes (f : File) : List UInt8 :=
  longBytes Version.magic ++ wordBytes f.minor ++ wordBytes f.major ++ f.pool.bytes ++ wordBytes f.access ++
    wordBytes f.thisClass ++ f.remainder

structure Valid (f : File) : Prop where
  version : Version.supported f.major f.minor
  pool : f.pool.Fits
  thisClass : (f.pool.className? f.thisClass).isSome
  /-- Only the class at the root has no super class. -/
  superClass : (f.pool.className? f.superClass).isSome ∨
    f.superClass = 0 ∧ f.pool.className? f.thisClass = some Name.object
  interfaceCount : f.interfaces.length < countLimit
  interfaces : ∀ i ∈ f.interfaces, (f.pool.className? i).isSome
  fieldCount : f.fields.length < countLimit
  fields : ∀ x ∈ f.fields, x.Fits
  methodCount : f.methods.length < countLimit
  methods : ∀ m ∈ f.methods, m.Valid f.pool
  attributeCount : f.attributes.length < countLimit
  attributes : ∀ a ∈ f.attributes, a.Valid f.pool

end File
end Image

variable {b : Bytes} {pos : Nat} {p : Pool} {pool : ConstantPool}

/-! ### The header -/

theorem reads_version {major minor : UInt16} (hversion : Version.supported major minor)
    (h : b.Holds pos (longBytes Version.magic ++ wordBytes minor ++ wordBytes major)) :
    Reads version b pos () (pos + 8) := by
  obtain ⟨hfront, hmajor⟩ := Bytes.holds_append.mp h
  obtain ⟨hmagic, hminor⟩ := Bytes.holds_append.mp hfront
  unfold version
  refine (Reads.u32 hmagic).bind ?_
  dsimp only
  rw [if_neg (fun hne => hne rfl)]
  refine (Reads.u16 hminor).bind ((Reads.u16 hmajor).bind ?_)
  rw [if_pos hversion]
  exact .pure _

section Reading
variable [Text.Encoding]

theorem className?_zero (p : Pool) : p.className? 0 = none := rfl

theorem reads_superClass (hm : pool.Matches p) {index : UInt16} {name : String}
    (hindex : (p.className? index).isSome ∨ index = 0 ∧ name = Name.object)
    (h : b.Holds pos (wordBytes index)) : Reads (superClass pool name) b pos (p.className? index) (pos + 2) := by
  refine (Reads.u16 h).bind ?_
  rcases hindex with hsome | hroot
  · obtain ⟨sup, hsup⟩ := Option.isSome_iff_exists.mp hsome
    have hne : index ≠ 0 := by
      rintro rfl
      rw [className?_zero] at hsup
      cases hsup
    rw [if_neg fun h => hne h.1, hsup]
    exact (hm.reads_classAt hsup _).bind (.pure _)
  · rw [if_pos hroot, hroot.1, className?_zero]
    exact .pure _

theorem reads_interfaceNames (hm : pool.Matches p) {is : List UInt16} (hcount : is.length < countLimit)
    (his : ∀ i ∈ is, (p.className? i).isSome) (h : b.Holds pos (counted wordBytes is)) :
    ∃ names, Reads (interfaceNames pool) b pos names (pos + (counted wordBytes is).length) ∧
      is.map p.className? = names.map some := by
  obtain ⟨hnumber, hindices⟩ := Bytes.holds_append.mp h
  have hloop : ∃ names : Array String,
      Reads (loop is.length (fun (names : Array String) => do
          return names.push (← classAt pool (← u16) .interface)) #[]) b (pos + 2) names
        (pos + 2 + (is.flatMap wordBytes).length) ∧ is.map p.className? = names.toList.map some := by
    refine Reads.loop_list (P := fun done (names : Array String) => done.map p.className? = names.toList.map some)
      ?_ rfl hindices
    intro done i names q hi hdone hat _ _
    obtain ⟨name, hname⟩ := Option.isSome_iff_exists.mp (his i hi)
    refine ⟨names.push name, (Reads.u16 hat).bind ((hm.reads_classAt hname _).bind (.pure _)), ?_⟩
    rw [List.map_append, hdone, Array.toList_push, List.map_append, List.map_singleton, hname, List.map_singleton]
  obtain ⟨names, hreads, hnames⟩ := hloop
  refine ⟨names.toList, ?_, hnames⟩
  rw [counted_length, ← Nat.add_assoc]
  refine (Reads.u16 hnumber).bind ?_
  rw [toNat_count hcount]
  exact hreads.bind (.pure _)

/-! ### Attributes of the class -/

theorem reads_innerClass (hm : pool.Matches p) (outer : String) (n : Nesting) {c : InnerClass}
    (hinner : (p.className? c.inner).isSome) (hname : c.name = 0 ∨ (p.text? c.name).isSome)
    (h : b.Holds pos c.bytes) :
    Answers (innerClass pool outer n) b pos fun _ stop => stop = pos + c.bytes.length := by
  simp only [InnerClass.bytes, Bytes.holds_append, List.length_append, wordBytes_length] at h
  obtain ⟨⟨⟨hinnerAt, houter⟩, hnameAt⟩, haccess⟩ := h
  obtain ⟨full, hfull⟩ := Option.isSome_iff_exists.mp hinner
  have hskip : ∀ {w : UInt16} {q : Nat}, b.Holds q (wordBytes w) → Reads innerClass.skipOuter b q () (q + 2) :=
    fun hw => (Reads.u16 hw).bind (.pure _)
  unfold innerClass
  refine (Reads.u16 hinnerAt).answers ((hskip houter).answers ?_)
  refine (Reads.u16 hnameAt).answers ((hskip haccess).answers ?_)
  refine (hm.reads_classAt hfull _).answers ?_
  by_cases hzero : c.name = 0
  · rw [if_pos hzero]
    dsimp only
    split <;> exact .pure rfl
  · obtain ⟨simple, hsimple⟩ := Option.isSome_iff_exists.mp (hname.resolve_left hzero)
    rw [if_neg hzero]
    refine (Reads.ofExcept (hm.text_eq hsimple)).answers ?_
    split
    · exact .pure rfl
    · dsimp only
      split <;> exact .pure rfl

theorem reads_innerClasses (hm : pool.Matches p) (outer : String) {cs : List InnerClass}
    (hcs : ∀ c ∈ cs, (p.className? c.inner).isSome ∧ (c.name = 0 ∨ (p.text? c.name).isSome))
    (h : b.Holds pos (cs.flatMap InnerClass.bytes)) :
    ∃ n, Reads (loop cs.length (innerClass pool outer) ⟨0, #[]⟩) b pos n
      (pos + (cs.flatMap InnerClass.bytes).length) := by
  obtain ⟨n, hreads, _⟩ := Reads.loop_list (P := fun _ _ => True) (fun done c n q hc _ hat _ _ => by
    obtain ⟨n', _, hn', rfl⟩ := reads_innerClass hm outer n (hcs c hc).1 (hcs c hc).2 hat
    exact ⟨n', hn', trivial⟩) trivial h
  exact ⟨n, hreads⟩

/-- The attributes of a class are read up to the first list of inner classes. -/
theorem reads_classAttributes (hm : pool.Matches p) (outer : String) {as : List Attribute}
    (has : ∀ a ∈ as, a.Valid p) (h : b.Holds pos (as.flatMap Attribute.bytes)) :
    ∃ found stop, Reads (loop as.length (classAttribute pool outer) none) b pos found stop := by
  induction as generalizing pos with
  | nil => exact ⟨none, pos, rfl⟩
  | cons a rest ih =>
    rw [List.forall_mem_cons] at has
    rw [List.flatMap_cons, Bytes.holds_append] at h
    obtain ⟨hnameAt, hlength, hcontents⟩ := Attribute.holds_bytes.mp h.1
    obtain ⟨text, htext⟩ := Option.isSome_iff_exists.mp has.1.name
    have hlen := toNat_length (Contents.Fits.length_lt has.1.fits)
    by_cases heq : text = AttributeKind.innerClasses.name
    · obtain ⟨cs, hnested, hcs⟩ := has.1.nested (heq ▸ htext)
      have hfits : cs.length < countLimit := by
        have := has.1.fits
        rwa [Attribute.Fits, hnested] at this
      rw [hnested] at hcontents
      obtain ⟨hnumber, hclasses⟩ := Bytes.holds_append.mp hcontents
      obtain ⟨n, hn⟩ := reads_innerClasses hm outer hcs hclasses
      have hfirst : Reads (classAttribute pool outer none) b pos (some n.members.toList)
          (pos + 6 + 2 + (cs.flatMap InnerClass.bytes).length) := by
        refine (Reads.u16 hnameAt).bind ((Reads.u32 hlength).bind ?_)
        refine (Reads.ofExcept (hm.text_eq htext)).bind ?_
        rw [if_pos heq]
        refine (Reads.u16 hnumber).bind ?_
        rw [toNat_count hfits]
        exact hn.bind (.pure _)
      have hstay : ∀ q,
          Reads (classAttribute pool outer (some n.members.toList)) b q (some n.members.toList) q :=
        fun q => .pure _
      exact ⟨_, _, hfirst.loop_succ (Reads.loop_stay (hstay _) _)⟩
    · have hfirst : Reads (classAttribute pool outer none) b pos none (pos + a.bytes.length) := by
        have hin := hcontents.le_size
        rw [a.bytes_length, ← Nat.add_assoc]
        refine (Reads.u16 hnameAt).bind ((Reads.u32 hlength).bind ?_)
        refine (Reads.ofExcept (hm.text_eq htext)).bind ?_
        rw [if_neg heq, hlen]
        exact (Reads.skip (by omega)).bind (.pure _)
      obtain ⟨found, stop, hrest⟩ := ih has.2 h.2
      exact ⟨found, stop, hfirst.loop_succ hrest⟩

theorem reads_nestedClasses (hm : pool.Matches p) (outer : String) {as : List Attribute}
    (hcount : as.length < countLimit) (has : ∀ a ∈ as, a.Valid p)
    (h : b.Holds pos (counted Attribute.bytes as)) :
    ∃ nested stop, Reads (nestedClasses pool outer) b pos nested stop := by
  obtain ⟨hnumber, hattributes⟩ := Bytes.holds_append.mp h
  obtain ⟨found, stop, hreads⟩ := reads_classAttributes hm outer has hattributes
  refine ⟨found.getD [], stop, (Reads.u16 hnumber).bind ?_⟩
  rw [toNat_count hcount]
  exact hreads.bind (.pure _)

/-! ### The whole file -/

/-- The record of a written class file, as far as it goes into the record. -/
structure Describes (f : File) (r : Record) : Prop where
  name : f.pool.className? f.thisClass = some r.name
  superName : r.superName = f.pool.className? f.superClass
  interfaces : f.interfaces.map f.pool.className? = r.interfaces.map some
  access : r.access = f.access
  methods : List.Forall₂ (Noted r.bytes f.pool) f.methods r.methods.toList

theorem opening_answers {f : File} (hf : f.Valid) (h : b.Holds 0 f.bytes) :
    Answers opening b 0 fun o stop => o.pool.Matches f.pool ∧ o.access = f.access ∧
      f.pool.className? f.thisClass = some o.name ∧ b.Holds stop f.remainder := by
  obtain ⟨name, hname⟩ := Option.isSome_iff_exists.mp hf.thisClass
  obtain ⟨hfront, hremainder⟩ := Bytes.holds_append.mp h
  obtain ⟨hfront, hthisClass⟩ := Bytes.holds_append.mp hfront
  obtain ⟨hfront, haccess⟩ := Bytes.holds_append.mp hfront
  obtain ⟨hversion, hpool⟩ := Bytes.holds_append.mp hfront
  obtain ⟨hsize, hconstants⟩ := Bytes.holds_append.mp hpool
  simp only [Pool.bytes, List.length_append, longBytes_length, wordBytes_length, Nat.zero_add, Nat.reduceAdd,
    ← Nat.add_assoc] at hsize hconstants haccess hthisClass hremainder
  obtain ⟨pool, hreads, hm⟩ := reads_constantPool hf.pool hconstants
  obtain ⟨refs, hrefs⟩ := hm.exists_references hf.pool
  unfold opening
  refine (reads_version hf.version hversion).answers (Reads.position.answers ((Reads.u16 hsize).answers ?_))
  refine hreads.answers ((Reads.ofExcept hrefs).answers (Reads.position.answers ((Reads.u16 haccess).answers ?_)))
  refine (Reads.u16 hthisClass).answers ((hm.reads_classAt hname _).answers ?_)
  exact .pure ⟨hm, rfl, hname, hremainder⟩

theorem remainder_answers {f : File} (hf : f.Valid) {o : Opening} (hm : o.pool.Matches f.pool)
    (haccess : o.access = f.access) (hname : f.pool.className? f.thisClass = some o.name)
    (h : b.Holds pos f.remainder) : Answers (remainder o b) b pos fun r _ => r.bytes = b ∧ Describes f r := by
  obtain ⟨h, hattributes⟩ := Bytes.holds_append.mp h
  obtain ⟨h, hmethods⟩ := Bytes.holds_append.mp h
  obtain ⟨h, hfields⟩ := Bytes.holds_append.mp h
  obtain ⟨hsuper, hinterfaces⟩ := Bytes.holds_append.mp h
  simp only [List.length_append, wordBytes_length, ← Nat.add_assoc] at hattributes hmethods hfields hinterfaces
  have hroot : (f.pool.className? f.superClass).isSome ∨ f.superClass = 0 ∧ o.name = Name.object := by
    refine hf.superClass.imp_right fun h => ⟨h.1, ?_⟩
    rw [hname] at h
    exact Option.some.inj h.2
  obtain ⟨names, hnames, hnames'⟩ := reads_interfaceNames hm hf.interfaceCount hf.interfaces hinterfaces
  obtain ⟨methods, hreads, hnoted⟩ := reads_methodList hm hf.methodCount hf.methods hmethods
  obtain ⟨nested, stop, hnested⟩ := reads_nestedClasses hm o.name hf.attributeCount hf.attributes hattributes
  unfold remainder
  refine (reads_superClass hm hroot hsuper).answers (hnames.answers (Reads.position.answers ?_))
  refine (reads_skipFields hf.fieldCount hf.fields hfields).answers (Reads.position.answers (hreads.answers ?_))
  exact Reads.position.answers (hnested.answers (.pure ⟨rfl, ⟨hname, rfl, hnames', haccess, hnoted⟩⟩))

theorem parse_describes {f : File} (hf : f.Valid) :
    ∃ r, Record.parse f.bytes.toArray = .ok r ∧ r.bytes = f.bytes.toArray ∧ Describes f r := by
  obtain ⟨o, mid, hopening, hm, haccess, hname, hremainder⟩ := opening_answers hf (Bytes.holds_toArray f.bytes)
  obtain ⟨r, stop, hrest, hbytes, hdescribes⟩ := remainder_answers hf hm haccess hname hremainder
  refine ⟨r, ?_, hbytes, hdescribes⟩
  unfold Record.parse Reader.run
  rw [hopening]
  dsimp only
  rw [hrest]

/-- Every well-formed class file is read, and the record gives back what has been written: the names and
the access bits of the class and of its methods, and of each method, in the order in which they stand, its
bytes, its bytecode and the last line table of its code. -/
theorem parse_image {f : File} (hf : f.Valid) :
    ∃ r, Record.parse f.bytes.toArray = .ok r ∧ f.pool.className? f.thisClass = some r.name ∧
      r.superName = f.pool.className? f.superClass ∧ f.interfaces.map f.pool.className? = r.interfaces.map some ∧
      r.access = f.access ∧ r.methods.size = f.methods.length ∧
      ∀ i m, f.methods[i]? = some m → ∃ x, r.methods[i]? = some x ∧ f.pool.text? m.name = some x.name ∧
        f.pool.text? m.descriptor = some x.signature ∧ x.access = m.access ∧
        r.methodInfo? i = some m.bytes.toArray ∧ x.hasCode = m.code.isSome ∧
        r.bytecode? i = some ((m.code.map Code.bytecode).getD []).toArray ∧
        r.lineTable? i = m.lineTable? f.pool := by
  obtain ⟨r, hparse, hbytes, h⟩ := parse_describes hf
  refine ⟨r, hparse, h.name, h.superName, h.interfaces, h.access, h.methods.length_eq.symm, ?_⟩
  intro i m hmethod
  obtain ⟨hi, rfl⟩ := List.getElem?_eq_some_iff.mp hmethod
  have hj : i < r.methods.toList.length := h.methods.length_eq ▸ hi
  have hnoted : Noted r.bytes f.pool f.methods[i] r.methods.toList[i] := h.methods.get hi hj
  have hx : r.methods[i]? = some r.methods.toList[i] := Array.getElem?_eq_getElem hj
  refine ⟨_, hx, hnoted.name, hnoted.signature, hnoted.access, hnoted.methodInfo?_eq hx, ?_,
    hnoted.bytecode?_eq hx, hnoted.lineTable?_eq hx⟩
  rw [Method.hasCode, hnoted.code, Option.isSome_map]

end Reading

/-! ### A small class file -/

namespace Image.File

def ascii (s : String) : Bytes := (s.toList.map fun c => UInt8.ofNat c.toNat).toArray

/-- The class `A` with a method `m`, in which one instruction stands on line 3. -/
def sample : File where
  minor := 0
  major := 52
  pool := ⟨[.long 0 1, .utf8 (ascii "A"), .classRef 3, .utf8 (ascii "java/lang/Object"), .classRef 5,
    .utf8 (ascii "m"), .utf8 (ascii "()V"), .nameAndType 7 8, .methodRef 4 9, .utf8 (ascii "Code"),
    .utf8 (ascii "LineNumberTable")]⟩
  access := 0x21
  thisClass := 4
  superClass := 6
  interfaces := []
  fields := [⟨0, 7, 8, [⟨0, .raw [1, 2]⟩]⟩]
  methods := [⟨1, 7, 8, [], some ⟨11, 1, 1, [0xb1], [], [⟨12, .lines [⟨0, 3⟩]⟩]⟩, []⟩]
  attributes := []

theorem sample_pool : sample.pool.Fits := by
  have htext : ∀ s : String, s.toList.length < countLimit → (ascii s).size < countLimit := by
    intro s hs
    simpa [ascii] using hs
  refine ⟨by decide, fun c hc => ?_⟩
  simp only [sample, List.mem_cons, List.not_mem_nil, or_false] at hc
  rcases hc with rfl | rfl | rfl | rfl | rfl | rfl | rfl | rfl | rfl | rfl | rfl
  case inr.inr.inl => exact (by decide +kernel : (sample.pool.text? 3).isSome)
  case inr.inr.inr.inr.inl => exact (by decide +kernel : (sample.pool.text? 5).isSome)
  case inr.inr.inr.inr.inr.inr.inr.inr.inl =>
    refine ⟨by decide +kernel, 7, 8, by decide +kernel, by decide +kernel, by decide +kernel⟩
  all_goals first | trivial | exact htext _ (by decide)

theorem sample_valid : sample.Valid where
  version := by decide
  pool := sample_pool
  thisClass := by decide +kernel
  superClass := .inl (by decide +kernel)
  interfaceCount := by decide
  interfaces := nofun
  fieldCount := by decide
  fields := by
    intro f hf
    cases List.mem_singleton.mp hf
    exact ⟨by decide, List.forall_mem_singleton.mpr (by decide : 2 < lengthLimit)⟩
  methodCount := by decide
  methods := by
    intro m hm
    cases List.mem_singleton.mp hm
    refine ⟨⟨by decide, nofun, ?_, nofun⟩, by decide +kernel, by decide +kernel, nofun, ?_⟩
    · rintro c ⟨⟩
      exact ⟨by decide, by decide, by decide, List.forall_mem_singleton.mpr (by decide : 1 < countLimit),
        by decide⟩
    · rintro c ⟨⟩
      exact ⟨by decide +kernel, List.forall_mem_singleton.mpr ⟨by decide +kernel, fun _ => ⟨_, rfl⟩⟩⟩
  attributeCount := by decide
  attributes := nofun

end Image.File

theorem parse_image_sample :
    ∃ r, Record.parse File.sample.bytes.toArray = .ok r ∧ r.lineTable? 0 = some [⟨0, 3⟩] := by
  obtain ⟨r, hparse, _, _, _, _, _, hmethods⟩ := parse_image File.sample_valid
  obtain ⟨x, _, _, _, _, _, _, _, hlines⟩ := hmethods 0 _ rfl
  refine ⟨r, hparse, hlines.trans ?_⟩
  decide +kernel

end ClassCatalog.ClassFile
