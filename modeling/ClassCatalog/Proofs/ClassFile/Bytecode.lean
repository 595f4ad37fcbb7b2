import ClassCatalog.Proofs.ClassFile.Agreement

/-! Bytecode, in the file and in the bytes of one method.

Where a method can be scanned, the code that the scan has found lies inside it, and it is the code that the
reader of the file has found (`bytecode_of_layout`). -/
namespace ClassCatalog.ClassFile

/-- A slice of a slice. -/
theorem slice?_of_slice? {b info : Bytes} {start n pos length : Nat} (h : b.slice? start n = some info)
    (hinside : pos + length ≤ info.size) : b.slice? (start + pos) length = info.slice? pos length := by
  have hsize := Bytes.slice?_size h
  unfold Bytes.slice? at h ⊢
  split at h
  · rename_i hfits
    cases h
    rw [if_pos hinside, if_pos (by omega), Array.extract_extract, Nat.min_eq_left (by omega), Nat.add_assoc]
  · cases h

/-- The bytecode of a record is what a scan of the method finds, if it finds anything. -/
theorem bytecode_of_layout [Text.Encoding] {b info : Bytes} {r : Record} {i : Nat} {l : MethodLayout}
    (h : Record.parse b = .ok r) (hinfo : r.methodInfo? i = some info)
    (hl : MethodLayout.ofInfo r.name info r.attributeNames = .ok l) :
    r.bytecode? i = match l.code with
      | some c => info.slice? c.start c.length
      | none => some #[] := by
  obtain ⟨m, hm, _⟩ := Option.bind_eq_some_iff.mp hinfo
  obtain ⟨info', hinfo', hslice⟩ := exists_methodInfo h hm
  obtain rfl : info = info' := Option.some.inj (hinfo.symm.trans hinfo')
  have hcode : m.code = l.code.map CodeLayout.span := (agrees_of_parse h hm hslice hl).code
  obtain ⟨hbytes, _⟩ := parse_readFrom h
  unfold Record.bytecode?
  rw [hm, Option.bind_eq_bind, Option.bind_some, hcode, hbytes]
  cases hc : l.code with
  | none => rfl
  | some c =>
    have hinside := MethodLayout.inside_of_scan (MethodLayout.scan_of_ofInfo hl)
    exact slice?_of_slice? hslice (hinside.code c hc).bytecode

end ClassCatalog.ClassFile
