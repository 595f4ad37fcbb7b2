import ClassCatalog.Proofs.ClassFile.Accepted
import ClassCatalog.Proofs.ClassFile.Inside
import ClassCatalog.Proofs.ClassFile.Parse

/-! The reader of class files and the scan of a method agree.

The one goes through the file and compares the texts of attribute names, the other through the bytes of one
method and looks up the indices of the names. The indices it knows are those of the constants whose bytes
spell a name, and no other bytes decode to one (`kindOf?_of_text`). Walked side by side (`Agrees`), both note
the same of every attribute, so that they find the same code and the same line table (`scan_agrees`). -/
namespace ClassCatalog.ClassFile
open Reader MethodLayout

/-! ### Names of attributes -/

namespace AttributeKind

theorem ofBytes?_eq_some_iff {bytes : List UInt8} {k : AttributeKind} :
    ofBytes? bytes = some k ↔ bytes = k.nameBytes := by
  unfold ofBytes?
  constructor
  · intro h
    have := List.find?_some h
    exact (of_decide_eq_true this).symm
  · rintro rfl
    cases k <;> decide

theorem isAscii_of_mem_name (k : AttributeKind) : ∀ c ∈ k.name.toList, Text.IsAscii c := by
  have hname : k.name.toList.all (fun c => decide (Text.IsAscii c)) = true := by
    cases k <;> decide
  exact fun c hc => of_decide_eq_true (List.all_eq_true.mp hname c hc)

/-- The bytes of a name are the only ones that decode to it. -/
theorem ofBytes?_of_decode [Text.Encoding] {bytes : List UInt8} {text : String}
    (h : Text.Encoding.decode bytes = some text) (k : AttributeKind) :
    ofBytes? bytes = some k ↔ text = k.name := by
  rw [ofBytes?_eq_some_iff]
  constructor
  · rintro rfl
    have hname : Text.Encoding.decode k.nameBytes = some k.name :=
      Text.Encoding.decode_ascii k.name k.isAscii_of_mem_name
    exact Option.some.inj (h.symm.trans hname)
  · rintro rfl
    exact Text.Encoding.eq_ascii_of_decode h k.isAscii_of_mem_name

end AttributeKind

namespace AttributeNames
variable {names : AttributeNames} {index : UInt16} {k : AttributeKind}

theorem mem_of_kindOf? (h : names.kindOf? index = some k) : (index, k) ∈ names.entries := by
  obtain ⟨e, he, rfl⟩ := Option.map_eq_some_iff.mp h
  have hindex : e.1 = index := by simpa using List.find?_some he
  rw [← hindex]
  exact List.mem_of_find?_eq_some he

theorem exists_kindOf? (h : (index, k) ∈ names.entries) : ∃ k', names.kindOf? index = some k' := by
  obtain ⟨e, he⟩ : ∃ e, names.entries.find? (fun e => e.1 = index) = some e :=
    Option.isSome_iff_exists.mp (List.find?_isSome.mpr ⟨_, h, by simp⟩)
  exact ⟨e.2, by rw [kindOf?, he, Option.map_some]⟩

end AttributeNames

namespace ConstantPool
variable {pool : ConstantPool} {index : UInt16} {k : AttributeKind}

theorem mem_entries {slot : Slot} (hsize : pool.size < UInt16.size) :
    (index, slot) ∈ pool.entries ↔ pool.slot? index = some slot := by
  unfold entries slot?
  simp only [List.mem_filterMap, Option.map_eq_some_iff, Prod.exists, Prod.mk.injEq,
    List.mem_zipIdx_iff_getElem?, Array.getElem?_toList, Option.join_eq_some_iff]
  constructor
  · rintro ⟨_, i, hi, _, rfl, rfl, rfl⟩
    have hlt : i < UInt16.size := Nat.lt_trans (Array.getElem?_eq_some_iff.mp hi).1 hsize
    rw [UInt16.toNat_ofNat_of_lt' hlt]
    exact hi
  · intro h
    exact ⟨some slot, index.toNat, h, slot, rfl, UInt16.ofNat_toNat, rfl⟩

theorem mem_attributeNames (hsize : pool.size < UInt16.size) :
    (index, k) ∈ pool.attributeNames.entries ↔
      ∃ bytes, pool.constant? index = some (.utf8 bytes) ∧ AttributeKind.ofBytes? bytes.toList = some k := by
  unfold attributeNames constant?
  simp only [List.mem_filterMap, Prod.exists, mem_entries hsize, Option.map_eq_some_iff]
  constructor
  · rintro ⟨i, slot, hslot, h⟩
    split at h
    · rename_i bytes hbytes
      obtain ⟨_, hk, heq⟩ := Option.map_eq_some_iff.mp h
      cases heq
      exact ⟨bytes, ⟨slot, hslot, hbytes⟩, hk⟩
    · cases h
  · rintro ⟨bytes, ⟨slot, hslot, hbytes⟩, hk⟩
    refine ⟨index, slot, hslot, ?_⟩
    simp only [hbytes, hk, Option.map_some]

/-- An index leads to the kind of attribute that its text names. -/
theorem kindOf?_of_text [Text.Encoding] {text : String} (hsize : pool.size < UInt16.size)
    (h : pool.text index = .ok text)
    (k : AttributeKind) : pool.attributeNames.kindOf? index = some k ↔ text = k.name := by
  unfold ConstantPool.text at h
  split at h
  · rename_i bytes hbytes
    split at h
    · rename_i text' hdecode
      cases h
      rw [← AttributeKind.ofBytes?_of_decode hdecode]
      -- All entries for an index have the kind that its bytes spell.
      have hmem : ∀ k, (index, k) ∈ pool.attributeNames.entries ↔ AttributeKind.ofBytes? bytes.toList = some k := by
        intro k
        rw [mem_attributeNames hsize, hbytes]
        simp
      constructor
      · intro hk
        exact (hmem k).mp (AttributeNames.mem_of_kindOf? hk)
      · intro hk
        obtain ⟨k', hk'⟩ := AttributeNames.exists_kindOf? ((hmem k).mpr hk)
        rw [hk', ← (hmem k').mp (AttributeNames.mem_of_kindOf? hk'), hk]
    · cases h
  · cases h

end ConstantPool

/-! ### Reading a slice -/

section Slice
variable {b info : Bytes} {start n pos : Nat}

theorem getElem?_of_slice? (h : b.slice? start n = some info) {x : UInt8} (hx : info[pos]? = some x) :
    b[start + pos]? = some x := by
  unfold Bytes.slice? at h
  split at h
  · cases h
    rw [Array.getElem?_extract] at hx
    split at hx
    · exact hx
    · cases hx
  · cases h

theorem word?_of_slice? (h : b.slice? start n = some info) {w : UInt16} (hw : info.word? pos = some w) :
    b.word? (start + pos) = some w := by
  unfold Bytes.word? at hw ⊢
  split at hw
  · rename_i hi lo hhi hlo
    rw [getElem?_of_slice? h hhi, Nat.add_assoc, getElem?_of_slice? h hlo]
    exact hw
  · cases hw

theorem long?_of_slice? (h : b.slice? start n = some info) {w : UInt32} (hw : info.long? pos = some w) :
    b.long? (start + pos) = some w := by
  unfold Bytes.long? at hw ⊢
  split at hw
  · rename_i hi lo hhi hlo
    rw [word?_of_slice? h hhi, Nat.add_assoc, word?_of_slice? h hlo]
    exact hw
  · cases hw

theorem word_of_slice {w w' : UInt16} {place : Nat} (h : b.slice? start n = some info) (hw : info.word? pos = some w)
    (hw' : b.word? place = some w') (hat : place = start + pos) : w = w' := by
  rw [hat, word?_of_slice? h hw] at hw'
  exact Option.some.inj hw'

theorem long_of_slice {w w' : UInt32} {place : Nat} (h : b.slice? start n = some info) (hw : info.long? pos = some w)
    (hw' : b.long? place = some w') (hat : place = start + pos) : w = w' := by
  rw [hat, long?_of_slice? h hw] at hw'
  exact Option.some.inj hw'

end Slice

/-! ### Side by side -/

/-- The places that a record keeps of code. -/
def CodeLayout.span (c : CodeLayout) : CodeSpan := ⟨c.start, c.length, c.handlers⟩

/-- The reader and the scan have noted the same. The reader notes a line table by its first entry, the scan by
its count, two bytes before. -/
structure Agrees (body : MethodBody) (l : MethodLayout) : Prop where
  code : body.code = l.code.map CodeLayout.span
  lines : body.lines.map LineSpan.start = l.lines.map (· + 2)

section Walk
variable {b info : Bytes} {pool : ConstantPool} {infoStart n limit codeEnd pos stop stop' : Nat}
  {kind : Option AttributeKind} {name : String} {body body' : MethodBody} {l l' : MethodLayout}

/-- Both see the same attribute at the same place: its name is that of its kind, and it ends where it ends. -/
theorem heads_agree [Text.Encoding] (hsize : pool.size < UInt16.size) (hslice : b.slice? infoStart n = some info)
    (hscan : attributeAt info pool.attributeNames limit pos = .ok (kind, stop))
    (hheads : Heads b pool (infoStart + pos) name stop') :
    stop' = infoStart + stop ∧ ∀ k, kind = some k ↔ name = k.name := by
  obtain ⟨index, length, hindex, hlength, rfl, _, rfl⟩ := of_attributeAt hscan
  obtain ⟨⟨index', hindex', htext⟩, length', hlength', rfl⟩ := hheads
  obtain rfl : index = index' := word_of_slice hslice hindex hindex' rfl
  obtain rfl : length = length' := long_of_slice hslice hlength hlength' rfl
  exact ⟨by omega, ConstantPool.kindOf?_of_text hsize htext⟩

theorem Agrees.note [Text.Encoding] (hsize : pool.size < UInt16.size) (hslice : b.slice? infoStart n = some info)
    (hscan : attributeAt info pool.attributeNames limit pos = .ok (kind, stop))
    (hreads : Reads (codeAttribute pool infoStart codeEnd body) b (infoStart + pos) body' stop')
    (h : Agrees body l) : stop' = infoStart + stop ∧ Agrees body' (l.note kind pos) := by
  obtain ⟨name, hheads, _, hnoted⟩ := of_codeAttribute hreads
  obtain ⟨hstop, hkind⟩ := heads_agree hsize hslice hscan hheads
  refine ⟨hstop, ?_⟩
  rcases hnoted with ⟨htable, count, _, _, rfl⟩ | ⟨hother, rfl⟩
  · rw [(hkind _).mpr htable]
    refine ⟨h.code, ?_⟩
    have hstart : infoStart + pos + 8 - infoStart = pos + 8 := by omega
    show some (infoStart + pos + 8 - infoStart) = some (pos + 6 + 2)
    rw [hstart]
  · have hne : kind ≠ some .lineNumberTable := fun heq => hother ((hkind _).mp heq)
    have hlines : (l.note kind pos).lines = l.lines := contents?_note_of_ne hne l pos
    exact ⟨by rw [note_code, h.code], by rw [hlines, h.lines]⟩

/-- Attributes of code, by induction on their number. -/
theorem Agrees.inside [Text.Encoding] (hsize : pool.size < UInt16.size) (hslice : b.slice? infoStart n = some info)
    {count : Nat} (hscan : scanInside info pool.attributeNames limit count l pos = .ok l')
    (hreads : Reads (loop count (codeAttribute pool infoStart codeEnd) body) b (infoStart + pos) body' stop')
    (h : Agrees body l) : Agrees body' l' := by
  induction count generalizing body l pos with
  | zero =>
    cases hscan
    obtain ⟨rfl, _⟩ := reads_loop_zero.mp hreads
    exact h
  | succ count ih =>
    obtain ⟨next, mid, hfirst, hrest⟩ := reads_loop_succ.mp hreads
    unfold scanInside at hscan
    split at hscan
    · rename_i kind stop hhead
      obtain ⟨rfl, hnext⟩ := h.note hsize hslice hhead hfirst
      exact ih hscan hrest hnext
    · cases hscan

theorem exists_word {m : Nat} (h : wordAt info pos = .ok m) : ∃ w, info.word? pos = some w ∧ w.toNat = m := by
  obtain ⟨hlt, hholds⟩ := holds_of_wordAt h
  exact ⟨_, hholds.word?, UInt16.toNat_ofNat_of_lt' hlt⟩

theorem exists_long {m : Nat} (h : longAt info pos = .ok m) : ∃ w, info.long? pos = some w ∧ w.toNat = m := by
  obtain ⟨hlt, hholds⟩ := holds_of_longAt h
  exact ⟨_, hholds.long?, UInt32.toNat_ofNat_of_lt' hlt⟩

theorem Agrees.inCode [Text.Encoding] (hsize : pool.size < UInt16.size) (hslice : b.slice? infoStart n = some info)
    (hscan : scanCode info pool.attributeNames pos stop l = .ok l')
    (hreads : Reads (codeBody pool infoStart codeEnd body) b (infoStart + (pos + 6)) body' stop')
    (h : Agrees body l) : Agrees body' l' := by
  obtain ⟨_, _, _, hlength, hhandlers, hcount, hinside⟩ := scanInside_of_scanCode hscan
  obtain ⟨length, hlengthAt, rfl⟩ := exists_long hlength
  obtain ⟨handlers, hhandlersAt, rfl⟩ := exists_word hhandlers
  obtain ⟨count, hcountAt, rfl⟩ := exists_word hcount
  obtain ⟨length', handlers', count', hlength', hhandlers', hcount', hloop⟩ := of_codeBody hreads
  -- The numbers that the reader has read are those of the scan, one after the other.
  obtain rfl : length = length' := long_of_slice hslice hlengthAt hlength' (by omega)
  obtain rfl : handlers = handlers' := word_of_slice hslice hhandlersAt hhandlers' (by omega)
  obtain rfl : count = count' := word_of_slice hslice hcountAt hcount' (by omega)
  have hloopPos : infoStart + (pos + 6) + 12 + length.toNat + 8 * handlers.toNat =
      infoStart + (pos + 14 + length.toNat + 2 + 8 * handlers.toNat + 2) := by omega
  rw [hloopPos] at hloop
  refine Agrees.inside hsize hslice hinside hloop ⟨?_, h.lines⟩
  have hstart : infoStart + (pos + 6) + 8 - infoStart = pos + 14 := by omega
  have hhandlersStart : infoStart + (pos + 6) + 8 + length.toNat - infoStart = pos + 14 + length.toNat := by omega
  rw [hstart, hhandlersStart]
  rfl

/-- Attributes of a method, by induction on their number. -/
theorem Agrees.attributes [Text.Encoding] (hsize : pool.size < UInt16.size) (hslice : b.slice? infoStart n = some info)
    {count : Nat} (hscan : scanAttributes info pool.attributeNames count l pos = .ok l')
    (hreads : Reads (loop count (methodAttribute pool infoStart) body) b (infoStart + pos) body' stop')
    (h : Agrees body l) : Agrees body' l' := by
  induction count generalizing body l pos with
  | zero =>
    cases hscan
    obtain ⟨rfl, _⟩ := reads_loop_zero.mp hreads
    exact h
  | succ count ih =>
    obtain ⟨next, mid, hfirst, hrest⟩ := reads_loop_succ.mp hreads
    obtain ⟨name, hheads, _, hnoted⟩ := of_methodAttribute hfirst
    unfold scanAttributes at hscan
    split at hscan
    · rename_i kind stop hhead
      obtain ⟨rfl, hkind⟩ := heads_agree hsize hslice hhead hheads
      rcases hnoted with ⟨hcode, _, hbody⟩ | ⟨hother, rfl⟩
      · rw [if_pos ((hkind _).mpr hcode)] at hscan
        split at hscan
        · rename_i l'' hinner
          exact ih hscan hrest (h.inCode hsize hslice hinner hbody)
        · cases hscan
      · rw [if_neg fun heq => hother ((hkind _).mp heq)] at hscan
        exact ih hscan hrest h
    · cases hscan

end Walk

/-! ### The two of a whole method -/

variable {b : Bytes} {r : Record} {i : Nat} {m : Method}

theorem exists_methodInfo [Text.Encoding] (h : Record.parse b = .ok r) (hm : r.methods[i]? = some m) :
    ∃ info, r.methodInfo? i = some info ∧ b.slice? m.infoStart m.infoLength = some info := by
  obtain ⟨hbytes, hmethods, _⟩ := parse_readFrom h
  obtain ⟨first, last, hreads⟩ := hmethods m (Array.mem_of_getElem? hm)
  obtain ⟨rfl, rfl, hsize, _⟩ := of_method hreads
  refine ⟨_, ?_, if_pos hsize⟩
  rw [Record.methodInfo?, hm, hbytes]
  exact if_pos hsize

/-- A method that can be scanned by the names of its record is scanned to what has been read of it. -/
theorem agrees_of_parse [Text.Encoding] {info : Bytes} {l : MethodLayout} (h : Record.parse b = .ok r)
    (hm : r.methods[i]? = some m) (hslice : b.slice? m.infoStart m.infoLength = some info)
    (hl : ofInfo r.name info r.attributeNames = .ok l) : Agrees ⟨m.code, m.lines⟩ l := by
  obtain ⟨hbytes, hmethods, hsize⟩ := parse_readFrom h
  obtain ⟨first, last, hreads⟩ := hmethods m (Array.mem_of_getElem? hm)
  obtain ⟨rfl, _, _, count, hcount, hloop⟩ := of_method hreads
  obtain ⟨number, hnumber, hscan⟩ := of_scan (scan_of_ofInfo hl)
  obtain ⟨w, hw, rfl⟩ := exists_word hnumber
  obtain rfl : w = count := word_of_slice hslice hw hcount rfl
  exact Agrees.attributes hsize hslice hscan hloop ⟨rfl, rfl⟩

/-- The bytes of every method of a record are there, and if they can be scanned by the names of the record,
the scan finds code where the reader has found it, and the line table in front of whose first entry it stops. -/
theorem scan_agrees [Text.Encoding] (h : Record.parse b = .ok r) (hm : r.methods[i]? = some m) :
    ∃ info, r.methodInfo? i = some info ∧ ∀ l, ofInfo r.name info r.attributeNames = .ok l →
      l.hasCode = m.hasCode ∧ l.code.map CodeLayout.span = m.code ∧
        l.lines.map (· + 2) = m.lines.map LineSpan.start := by
  obtain ⟨info, hinfo, hslice⟩ := exists_methodInfo h hm
  refine ⟨info, hinfo, fun l hl => ?_⟩
  have hagrees := agrees_of_parse h hm hslice hl
  have hcode : m.code = l.code.map CodeLayout.span := hagrees.code
  refine ⟨?_, hcode.symm, hagrees.lines.symm⟩
  rw [Method.hasCode, hcode, Option.isSome_map]
  rfl

/-- The sample file, in which the method can be scanned. -/
theorem scan_agrees_sample : ∃ r info l, Record.parse Image.File.sample.bytes.toArray = .ok r ∧
    r.methodInfo? 0 = some info ∧ ofInfo r.name info r.attributeNames = .ok l ∧ l.hasCode = true ∧
    l.code.map CodeLayout.span = some ⟨22, 1, 23⟩ ∧ l.lines.map (· + 2) = some 35 := by
  obtain ⟨r, hparse, hm⟩ := exists_parsed (b := Image.File.sample.bytes.toArray) (i := 0)
    (m := ⟨"m", "()V", 1, 121, 39, some ⟨22, 1, 23⟩, some ⟨35, 1⟩⟩) (by decide +kernel)
  obtain ⟨info, hinfo, hagrees⟩ := scan_agrees hparse hm
  have hscans : ((Record.parse Image.File.sample.bytes.toArray).toOption.bind fun r => (r.methodInfo? 0).bind
      fun info => (ofInfo r.name info r.attributeNames).toOption).isSome := by decide +kernel
  cases hl : ofInfo r.name info r.attributeNames with
  | error e =>
    simp only [hparse, Except.toOption, Option.bind_some, hinfo, hl] at hscans
    cases hscans
  | ok l => exact ⟨r, info, l, hparse, hinfo, hl, hagrees l hl⟩

end ClassCatalog.ClassFile
