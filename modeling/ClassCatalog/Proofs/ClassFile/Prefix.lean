import ClassCatalog.Proofs.ClassFile.Sections

/-! Files that start with a class.

No reader looks at the length of the input except to see that it is long enough, so what is read of a file is
read of every longer file that starts with it (`parse_append`). The bytes that go into the record are the only
difference (`remainder_bytes`), and not one that shows where something is cut out of them
(`parse_of_prefix`). -/
namespace ClassCatalog.ClassFile
open Reader

variable {b : Bytes} {pos stop : Nat}

theorem remainder_bytes [Text.Encoding] {f : Opening} {bytes : Bytes} {r : Record}
    (h : Reads (remainder f bytes) b pos r stop)
    (bytes' : Bytes) : Reads (remainder f bytes') b pos { r with bytes := bytes' } stop := by
  unfold remainder at h ⊢
  simp only [reads_bind, reads_position, reads_pure] at h
  obtain ⟨superName, _, hsuper, interfaces, _, hinterfaces, _, _, ⟨rfl, rfl⟩, _, _, hfields, _, _, ⟨rfl, rfl⟩,
    methods, _, hmethods, _, _, ⟨rfl, rfl⟩, nested, _, hnested, rfl, rfl⟩ := h
  exact hsuper.bind (hinterfaces.bind (Reads.position.bind (hfields.bind (Reads.position.bind
    (hmethods.bind (Reads.position.bind (hnested.bind (.pure _))))))))

theorem LineTable.read?_append {start count : Nat} {t : LineTable} (h : read? b start count = some t)
    (x : Bytes) : read? (b ++ x) start count = some t := by
  unfold read? at h ⊢
  split at h
  · rename_i hin
    cases h
    rw [if_pos (Confined.le_size_append hin x)]
    refine congrArg some (List.map_congr_left fun i hi => ?_)
    have hi : i < count := List.mem_range.mp hi
    obtain ⟨startPc, hstartPc⟩ := Bytes.exists_holds_word b (start + 4 * i) (by omega)
    obtain ⟨line, hline⟩ := Bytes.exists_holds_word b (start + 4 * i + 2) (by omega)
    rw [entryAt, entryAt, hstartPc.word?, hline.word?, Bytes.word?_append hstartPc.word? x,
      Bytes.word?_append hline.word? x]
  · cases h

namespace Record
variable {r : Record}

theorem parse_append [Text.Encoding] (h : parse b = .ok r) (x : Bytes) :
    parse (b ++ x) = .ok { r with bytes := b ++ x } := by
  obtain ⟨f, pos, stop, hopening, hrest⟩ := parse_eq_ok_iff.mp h
  have hpos := (confined_opening (Nat.zero_le _)).stop_le hopening
  have hrest := (confined_remainder f b hpos).append hrest x
  exact parse_eq_ok_iff.mpr
    ⟨f, pos, stop, (confined_opening (Nat.zero_le _)).append hopening x, remainder_bytes hrest (b ++ x)⟩

/-- The same is cut out of the longer bytes. -/
theorem cut_append [Text.Encoding] (h : parse b = .ok r) (x : Bytes) (i : Nat) :
    { r with bytes := b ++ x }.methodInfo? i = r.methodInfo? i ∧
      { r with bytes := b ++ x }.bytecode? i = r.bytecode? i ∧
      { r with bytes := b ++ x }.lineTable? i = r.lineTable? i := by
  have hbytes := (parse_readFrom h).bytes
  cases hm : r.methods[i]? with
  | none => simp [methodInfo?, bytecode?, lineTable?, hm]
  | some m =>
    obtain ⟨info, hinfo, hslice⟩ := exists_methodInfo h hm
    obtain ⟨code, hcode⟩ := exists_bytecode h hm
    refine ⟨?_, ?_, ?_⟩
    · rw [hinfo, methodInfo?, hm]
      exact Bytes.slice?_append hslice x
    · rw [hcode]
      unfold bytecode? at hcode ⊢
      rw [hm, Option.bind_eq_bind, Option.bind_some] at hcode ⊢
      cases hc : m.code with
      | none =>
        rw [hc] at hcode
        exact hcode
      | some c =>
        rw [hc, hbytes] at hcode
        exact Bytes.slice?_append hcode x
    · cases hl : m.lines with
      | none => simp [lineTable?, lineTableOf, hm, hl]
      | some l =>
        obtain ⟨t, _, ht, hread, _⟩ := exists_lineTable h hm hl
        rw [ht, lineTable?, hm, Option.bind_some, lineTableOf, hl, Option.bind_some]
        exact LineTable.read?_append hread x

theorem text_append [Text.Encoding] (h : parse b = .ok r) (x : Bytes) (index : UInt16) :
    { r with bytes := b ++ x }.text index = r.text index := by
  rw [text_eq (parse_append h x), text_eq h]

/-- A class stays what it is with more bytes behind it, and every file that starts with it is this class: only
the bytes of the record differ, and neither the methods and their line tables nor the texts that are cut out of
them. -/
theorem parse_of_prefix [Text.Encoding] (h : parse b = .ok r) :
    (∀ x, parse (b ++ x) = .ok { r with bytes := b ++ x }) ∧
    ∀ file r', b.toList <+: file.toList → parse file = .ok r' →
      r' = { r with bytes := file } ∧
      (∀ i, r'.methodInfo? i = r.methodInfo? i ∧ r'.bytecode? i = r.bytecode? i ∧
        r'.lineTable? i = r.lineTable? i) ∧
      ∀ index, r'.text index = r.text index := by
  refine ⟨parse_append h, ?_⟩
  rintro file r' ⟨rest, hfile⟩ hparse
  obtain rfl : b ++ rest.toArray = file := Array.toList_inj.mp (by simp [hfile])
  rw [parse_append h] at hparse
  obtain rfl := Except.ok.inj hparse
  exact ⟨rfl, cut_append h _, text_append h _⟩

/-- The sample file with three more bytes behind it. -/
theorem parse_of_prefix_sample : ∃ r, parse Image.File.sample.bytes.toArray = .ok r ∧
    parse (Image.File.sample.bytes.toArray ++ #[1, 2, 3]) =
      .ok { r with bytes := Image.File.sample.bytes.toArray ++ #[1, 2, 3] } ∧
    { r with bytes := Image.File.sample.bytes.toArray ++ #[1, 2, 3] }.lineTable? 0 = some [⟨0, 3⟩] := by
  obtain ⟨r, hparse, _⟩ := parse_describes Image.File.sample_valid
  obtain ⟨happend, hprefix⟩ := parse_of_prefix hparse
  obtain ⟨_, hcut, _⟩ := hprefix _ _ (by simp) (happend #[1, 2, 3])
  refine ⟨r, hparse, happend _, (hcut 0).2.2.trans ?_⟩
  have hlines : (parse Image.File.sample.bytes.toArray).toOption.bind (fun r => r.lineTable? 0) =
      some [⟨0, 3⟩] := by
    decide +kernel
  rwa [hparse] at hlines

end Record
end ClassCatalog.ClassFile
