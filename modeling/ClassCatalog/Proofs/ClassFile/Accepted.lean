import ClassCatalog.ClassFile.Parse
import ClassCatalog.Proofs.ClassFile.Reads

/-! What stands in a file that was read.

The bytes are any bytes here; all that is known is that a reader has answered. Each reader of a method has
its own lemma, which says where the numbers stood that it read and what it made of them: `of_codeAttribute`,
`of_codeBody`, `of_methodAttribute` and `of_method`. Every method of a record stands in the bytes that the
record was read from (`parse_readFrom`). -/
namespace ClassCatalog.ClassFile
open Reader

variable [Text.Encoding]

/-- At `pos` stands the head of an attribute called `name` that ends, by its length, at `stop`. -/
structure Heads (b : Bytes) (pool : ConstantPool) (pos : Nat) (name : String) (stop : Nat) : Prop where
  named : ∃ index, b.word? pos = some index ∧ pool.text index = .ok name
  measured : ∃ length, b.long? (pos + 2) = some length ∧ pos + 6 + length.toNat = stop

variable {b : Bytes} {pool : ConstantPool} {infoStart codeEnd pos stop : Nat} {body body' : MethodBody}

/-! ### Attributes -/

theorem Heads.le_stop {name : String} (h : Heads b pool pos name stop) : pos + 6 ≤ stop := by
  obtain ⟨length, _, rfl⟩ := h.measured
  omega

/-- A line table is noted behind its count; whether its attribute reaches as far as its entries is not asked. -/
theorem of_codeAttribute (h : Reads (codeAttribute pool infoStart codeEnd body) b pos body' stop) :
    ∃ name, Heads b pool pos name stop ∧ stop ≤ codeEnd ∧
      ((name = AttributeKind.lineNumberTable.name ∧ ∃ count, b.word? (pos + 6) = some count ∧
          pos + 8 + 4 * count.toNat ≤ b.size ∧
          body' = { body with lines := some ⟨pos + 8 - infoStart, count.toNat⟩ }) ∨
        name ≠ AttributeKind.lineNumberTable.name ∧ body' = body) := by
  unfold codeAttribute at h
  simp only [reads_bind, reads_u16, reads_u32, reads_position] at h
  obtain ⟨index, _, ⟨hindex, rfl⟩, length, _, ⟨hlength, rfl⟩, _, _, ⟨rfl, rfl⟩, h⟩ := h
  split at h
  · obtain ⟨_, _, hfail, _⟩ := reads_bind.mp h
    exact absurd hfail not_reads_fail
  · rename_i hend
    simp only [reads_bind, reads_ofExcept] at h
    obtain ⟨name, _, ⟨hname, rfl⟩, h⟩ := h
    have hheads : Heads b pool pos name (pos + 2 + 4 + length.toNat) :=
      ⟨⟨index, hindex, hname⟩, length, hlength, by omega⟩
    by_cases htable : name = AttributeKind.lineNumberTable.name
    · simp only [if_pos htable, reads_bind, reads_u16, reads_position, reads_skip, reads_moveTo, reads_pure] at h
      obtain ⟨count, _, ⟨hcount, rfl⟩, _, _, ⟨rfl, rfl⟩, _, _, ⟨hentries, rfl⟩, _, _, rfl, rfl, rfl⟩ := h
      exact ⟨name, hheads, by omega, .inl ⟨htable, count, hcount, hentries, rfl⟩⟩
    · simp only [if_neg htable, reads_bind, reads_moveTo, reads_pure] at h
      obtain ⟨_, _, rfl, rfl, rfl⟩ := h
      exact ⟨name, hheads, by omega, .inr ⟨htable, rfl⟩⟩

theorem of_codeBody (h : Reads (codeBody pool infoStart codeEnd body) b pos body' stop) :
    ∃ length handlers count, b.long? (pos + 4) = some length ∧
      b.word? (pos + 8 + length.toNat) = some handlers ∧
      b.word? (pos + 10 + length.toNat + 8 * handlers.toNat) = some count ∧
      Reads (loop count.toNat (codeAttribute pool infoStart codeEnd)
        { body with code := some ⟨pos + 8 - infoStart, length.toNat, pos + 8 + length.toNat - infoStart⟩ })
        b (pos + 12 + length.toNat + 8 * handlers.toNat) body' stop := by
  unfold codeBody at h
  simp only [reads_bind, reads_u16, reads_u32, reads_skip, reads_position] at h
  obtain ⟨_, _, ⟨_, rfl⟩, length, _, ⟨hlength, rfl⟩, _, _, ⟨rfl, rfl⟩, _, _, ⟨_, rfl⟩, _, _, ⟨rfl, rfl⟩,
    handlers, _, ⟨hhandlers, rfl⟩, _, _, ⟨_, rfl⟩, count, _, ⟨hcount, rfl⟩, hloop⟩ := h
  have hcountAt : pos + 4 + 4 + length.toNat + 2 + 8 * handlers.toNat =
    pos + 10 + length.toNat + 8 * handlers.toNat := by omega
  have hloopAt : pos + 10 + length.toNat + 8 * handlers.toNat + 2 =
    pos + 12 + length.toNat + 8 * handlers.toNat := by omega
  rw [hcountAt] at hcount hloop
  rw [hloopAt] at hloop
  exact ⟨length, handlers, count, hlength, hhandlers, hcount, hloop⟩

theorem of_methodAttribute (h : Reads (methodAttribute pool infoStart body) b pos body' stop) :
    ∃ name, Heads b pool pos name stop ∧ stop ≤ b.size ∧
      ((name = AttributeKind.code.name ∧ ∃ mid, Reads (codeBody pool infoStart stop body) b (pos + 6) body' mid) ∨
        name ≠ AttributeKind.code.name ∧ body' = body) := by
  unfold methodAttribute at h
  simp only [reads_bind, reads_u16, reads_u32, reads_position, reads_reach, reads_ofExcept] at h
  obtain ⟨index, _, ⟨hindex, rfl⟩, length, _, ⟨hlength, rfl⟩, _, _, ⟨rfl, rfl⟩, _, _, ⟨hreach, rfl⟩,
    name, _, ⟨hname, rfl⟩, h⟩ := h
  have hheads : Heads b pool pos name (pos + 2 + 4 + length.toNat) :=
    ⟨⟨index, hindex, hname⟩, length, hlength, by omega⟩
  by_cases hcode : name = AttributeKind.code.name
  · simp only [if_pos hcode, reads_bind, reads_moveTo, reads_pure] at h
    obtain ⟨inner, mid, hinner, _, _, rfl, rfl, rfl⟩ := h
    exact ⟨name, hheads, hreach, .inl ⟨hcode, mid, hinner⟩⟩
  · simp only [if_neg hcode, reads_bind, reads_moveTo, reads_pure] at h
    obtain ⟨_, _, ⟨rfl, rfl⟩, _, _, rfl, rfl, rfl⟩ := h
    exact ⟨name, hheads, hreach, .inr ⟨hcode, rfl⟩⟩

/-! ### Methods -/

theorem of_method {m : Method} (h : Reads (method pool) b pos m stop) :
    m.infoStart = pos ∧ pos + m.infoLength = stop ∧ stop ≤ b.size ∧
      ∃ count, b.word? (pos + 6) = some count ∧
        Reads (loop count.toNat (methodAttribute pool pos) ⟨none, none⟩) b (pos + 8) ⟨m.code, m.lines⟩ stop := by
  unfold method at h
  simp only [reads_bind, reads_position, reads_u16, reads_ofExcept, reads_pure] at h
  obtain ⟨_, _, ⟨rfl, rfl⟩, access, _, ⟨_, rfl⟩, _, _, ⟨_, rfl⟩, _, _, ⟨_, rfl⟩, _, _, ⟨_, rfl⟩, _, _, ⟨_, rfl⟩,
    count, _, ⟨hcount, rfl⟩, last, stop, hloop, _, _, ⟨rfl, rfl⟩, rfl, rfl⟩ := h
  have hcountIn := (Bytes.word?_eq_some_iff b _).mp (Option.isSome_iff_exists.mpr ⟨count, hcount⟩)
  -- The attributes start behind the number of them and end one after the other.
  have hends : pos + 8 ≤ stop ∧ stop ≤ b.size := by
    refine of_loop (P := fun _ _ q => pos + 8 ≤ q ∧ q ≤ b.size) ?_ (i := 0) (by omega) hloop
    intro _ body q body' q' hq hstep
    obtain ⟨_, hheads, hsize, _⟩ := of_methodAttribute hstep
    have := hheads.le_stop
    omega
  refine ⟨rfl, ?_, hends.2, count, hcount, hloop⟩
  dsimp only
  omega

theorem of_methodList {ms : Array Method} (h : Reads (methodList pool) b pos ms stop) {m : Method} (hm : m ∈ ms) :
    ∃ first last, Reads (method pool) b first m last := by
  unfold methodList at h
  obtain ⟨count, _, _, hloop⟩ := reads_bind.mp h
  refine of_loop (P := fun _ ms _ => ∀ m ∈ ms, ∃ first last, Reads (method pool) b first m last) ?_ (i := 0)
    (by simp) hloop m hm
  intro _ ms q ms' q' hms hstep m' hm'
  simp only [reads_bind, reads_pure] at hstep
  obtain ⟨new, _, hnew, rfl, rfl⟩ := hstep
  rcases Array.mem_push.mp hm' with hold | rfl
  · exact hms m' hold
  · exact ⟨_, _, hnew⟩

/-! ### Records -/

omit [Text.Encoding] in
theorem of_fillSlot {f f' : Filling} (h : Reads (fillSlot f) b pos f' stop) : f'.slots.size = f.slots.size + 1 := by
  unfold fillSlot at h
  split at h
  · obtain ⟨rfl, _⟩ := reads_pure.mp h
    exact Array.size_push _
  · simp only [reads_bind, reads_pure] at h
    obtain ⟨_, _, _, _, _, _, _, _, _, rfl, _⟩ := h
    exact Array.size_push _

omit [Text.Encoding] in
/-- A pool has as many slots as are announced. -/
theorem of_constantPool {count : UInt16} (h : Reads (constantPool count) b pos pool stop) :
    pool.size = count.toNat := by
  unfold constantPool at h
  simp only [reads_bind, reads_pure] at h
  obtain ⟨f, _, hloop, rfl, _⟩ := h
  show f.slots.size = count.toNat
  have hfilled := of_loop (P := fun i f _ => f.slots.size = (if count = 0 then 0 else 1) + i)
    (fun i f q f' q' hf hstep => by rw [of_fillSlot hstep, hf, Nat.add_assoc])
    (i := 0) (by split <;> rfl) hloop
  rw [hfilled]
  by_cases hcount : count = 0
  · simp [hcount]
  · have hpos : count.toNat ≠ 0 := fun h => hcount (UInt16.toNat_inj.mp h)
    rw [if_neg hcount]
    omega

theorem of_opening {f : Opening} (h : Reads opening b pos f stop) : f.pool.size < UInt16.size := by
  unfold opening at h
  simp only [reads_bind, reads_pure] at h
  obtain ⟨_, _, _, _, _, _, count, _, _, pool, _, hpool, _, _, _, _, _, _, _, _, _, _, _, _, _, _, _, rfl, _⟩ := h
  show pool.size < UInt16.size
  rw [of_constantPool hpool]
  exact count.toNat_lt

/-- What is known of a record that was read from `b`: its methods stand in `b`, and an index of two bytes
reaches all of its pool. -/
structure Record.ReadFrom (b : Bytes) (r : Record) : Prop where
  bytes : r.bytes = b
  methods : ∀ m ∈ r.methods, ∃ first last, Reads (method r.pool) b first m last
  slots : r.pool.size < UInt16.size

theorem parse_eq_ok_iff {r : Record} : Record.parse b = .ok r ↔
    ∃ f pos stop, Reads opening b 0 f pos ∧ Reads (remainder f b) b pos r stop := by
  constructor
  · intro h
    unfold Record.parse at h
    split at h
    · cases h
    · rename_i f pos hopening
      split at h
      · cases h
      · rename_i r' stop hrest
        cases h
        exact ⟨f, pos, stop, hopening, hrest⟩
  · rintro ⟨f, pos, stop, hopening, hrest⟩
    unfold Record.parse run
    rw [hopening]
    dsimp only
    rw [hrest]

theorem parse_readFrom {r : Record} (h : Record.parse b = .ok r) : r.ReadFrom b := by
  obtain ⟨f, pos, _, hopening, hrest⟩ := parse_eq_ok_iff.mp h
  unfold remainder at hrest
  simp only [reads_bind, reads_pure] at hrest
  obtain ⟨_, _, _, _, _, _, _, _, _, _, _, _, _, _, _, ms, _, hms, _, _, _, _, _, _, rfl, _⟩ := hrest
  exact ⟨rfl, fun m hm => of_methodList hms hm, of_opening hopening⟩

theorem exists_parsed {i : Nat} {m : Method}
    (h : (Record.parse b).toOption.bind (fun r => r.methods[i]?) = some m) :
    ∃ r, Record.parse b = .ok r ∧ r.methods[i]? = some m := by
  cases hparse : Record.parse b with
  | error e =>
    rw [hparse] at h
    cases h
  | ok r =>
    rw [hparse] at h
    exact ⟨r, rfl, h⟩

end ClassCatalog.ClassFile
