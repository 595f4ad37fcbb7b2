import ClassCatalog.Proofs.ClassFile.References

/-! The names that a record has.

The name of a class is no longer than the length of a text can say (`name_length_lt`), and the classes nested in it
have names that go on where its own ends (`nests_of_mem_nested`). So nesting has a bottom. -/
namespace ClassCatalog
open ClassFile

namespace Name

theorem Trims.length_le {text name : List Char} (h : Trims text name) : name.length ≤ text.length := by
  cases h with
  | closed n element | unclosed n element _ =>
    simp only [List.length_append, List.length_cons, List.length_nil]
    omega
  | other => exact Nat.le_refl _

end Name

namespace ClassFile
open Image Reader

variable [Text.Encoding] {b : Bytes} {r : Record} {pool : ConstantPool} {pos stop : Nat} {outer name : String}

/-! ### The name of the class -/

/-- The name of a class is what a text of the pool says. -/
theorem className_of_opening {f : Opening} (h : Reads opening b pos f stop) :
    ∃ textIndex, f.pool.className textIndex = .ok f.name := by
  unfold opening at h
  simp only [reads_bind, reads_pure] at h
  obtain ⟨_, _, _, _, _, _, _, _, _, pool, _, _, _, _, _, _, _, _, _, _, _, _, _, _, name, _, hname, rfl, _⟩ := h
  obtain ⟨_, textIndex, _, hsame⟩ := of_classAt hname
  exact ⟨textIndex, hsame⟩

theorem Record.name_length_lt (h : Record.parse b = .ok r) : r.name.length < countLimit := by
  obtain ⟨f, pos, stop, hopening, hrest⟩ := parse_eq_ok_iff.mp h
  obtain ⟨cs, hwritten, _⟩ := (opening_readFrom hopening).pool
  obtain ⟨textIndex, hname⟩ := className_of_opening hopening
  obtain ⟨text, ⟨bytes, hconstant, hdecode⟩, htrims⟩ := ConstantPool.className_eq_ok_iff.mp hname
  obtain ⟨slot, hslot, hutf8⟩ := Option.map_eq_some_iff.mp hconstant
  have hshort := (hwritten.holds_payload hslot).1
  rw [hutf8] at hshort
  have hbytes : bytes.size < countLimit := hshort
  have htext := Text.Encoding.length_le_of_decode hdecode
  have hless := htrims.length_le
  rw [String.length_toList, String.length_toList] at hless
  rw [(continues_of_remainder hrest).2.name]
  rw [Array.length_toList] at htext
  omega

/-! ### The names of nested classes -/

/-- The name of a class nested in `outer`. -/
def Nests (outer nested : String) : Prop := ∃ simple, nested = outer ++ "$" ++ simple

theorem of_innerClass {n n' : Nesting} (h : Reads (innerClass pool outer n) b pos n' stop)
    (hn : ∀ x ∈ n.members, Nests outer x) : ∀ x ∈ n'.members, Nests outer x := by
  have hpush : ∀ {full simple : String}, full = outer ++ "$" ++ simple →
      ∀ x ∈ n.members.push full, Nests outer x := by
    intro full simple hfull x hx
    rcases Array.mem_push.mp hx with hx | rfl
    · exact hn x hx
    · exact ⟨simple, hfull⟩
  unfold innerClass at h
  simp only [reads_bind] at h
  obtain ⟨_, _, _, _, _, _, simple, _, _, _, _, _, full, _, _, h⟩ := h
  split at h
  · split at h
    · rename_i hfull
      obtain ⟨rfl, _⟩ := reads_pure.mp h
      exact hpush hfull
    · obtain ⟨rfl, _⟩ := reads_pure.mp h
      exact hn
  · obtain ⟨text, _, _, h⟩ := reads_bind.mp h
    split at h
    · rename_i hfull
      obtain ⟨rfl, _⟩ := reads_pure.mp h
      exact hpush hfull
    · split at h
      · rename_i hfull
        obtain ⟨rfl, _⟩ := reads_pure.mp h
        have hlocal : full = outer ++ "$" ++ (toString (n.unnamed + 1) ++ "$" ++ text) := by
          rw [hfull]
          simp only [String.append_assoc]
        exact hpush hlocal
      · obtain ⟨rfl, _⟩ := reads_pure.mp h
        exact hn

theorem of_classAttribute {found found' : Option (List String)}
    (h : Reads (classAttribute pool outer found) b pos found' stop)
    (hfound : ∀ x ∈ found.getD [], Nests outer x) : ∀ x ∈ found'.getD [], Nests outer x := by
  cases found with
  | some members =>
    obtain ⟨rfl, _⟩ := reads_pure.mp h
    exact hfound
  | none =>
    unfold classAttribute at h
    simp only [reads_bind] at h
    obtain ⟨_, _, _, _, _, _, _, _, _, h⟩ := h
    split at h
    · simp only [reads_bind, reads_pure] at h
      obtain ⟨_, _, _, n, _, hloop, rfl, _⟩ := h
      have hmembers := of_loop (P := fun _ n _ => ∀ x ∈ n.members, Nests outer x)
        (fun _ _ _ _ _ hn hstep => of_innerClass hstep hn) (i := 0) (fun x hx => absurd hx (Array.not_mem_empty x))
        hloop
      simpa using hmembers
    · simp only [reads_bind, reads_pure] at h
      obtain ⟨_, _, _, rfl, _⟩ := h
      exact nofun

theorem Record.nests_of_mem_nested (h : Record.parse b = .ok r) (hname : name ∈ r.nested) : Nests r.name name := by
  obtain ⟨f, pos, stop, _, hrest⟩ := parse_eq_ok_iff.mp h
  obtain ⟨_, hcontinues⟩ := continues_of_remainder hrest
  have hnested := hcontinues.nested
  unfold nestedClasses at hnested
  simp only [reads_bind, reads_pure] at hnested
  obtain ⟨_, _, _, found, _, hloop, hsame, _⟩ := hnested
  have hall := of_loop (P := fun _ found _ => ∀ x ∈ found.getD [], Nests f.name x)
    (fun _ _ _ _ _ hfound hstep => of_classAttribute hstep hfound) (i := 0)
    (fun _ hx => absurd hx List.not_mem_nil) hloop
  rw [hcontinues.name]
  rw [← hsame] at hname
  exact hall name hname

end ClassFile
end ClassCatalog
