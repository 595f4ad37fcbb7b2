import ClassCatalog.ClassFile.Reader
import ClassCatalog.Proofs.Bytes

/-! What a reader answers where something is written.

`Reads r b pos a stop` says that `r`, started at `pos`, answers `a` and stops at `stop`. Readers that
follow one another read what is written one after the other (`Reads.bind`), and a loop reads the items
of a list if its step reads each of them (`Reads.loop_list`). The other way round, a reader that has
answered is taken apart into its parts (`reads_bind` and what follows it). -/
namespace ClassCatalog.ClassFile.Reader

def Reads {α : Type} (r : Reader α) (b : Bytes) (pos : Nat) (a : α) (stop : Nat) : Prop :=
  r b pos = .ok (a, stop)

/-- `r`, started at `pos`, answers something of which `P` holds, and of where it stops. -/
def Answers {α : Type} (r : Reader α) (b : Bytes) (pos : Nat) (P : α → Nat → Prop) : Prop :=
  ∃ a stop, Reads r b pos a stop ∧ P a stop

variable {α β σ ι : Type} {b : Bytes} {pos mid stop n : Nat}

/-- What follows a reader that fails is not reached. -/
theorem bind_eq_error {r : Reader α} {f : α → Reader β} {failure : Failure} (h : r b pos = .error failure) :
    (r >>= f) b pos = .error failure := by
  show Reader.bind r f b pos = _
  rw [Reader.bind, h]

namespace Reads

theorem bind_eq {r : Reader α} {f : α → Reader β} {x : α} (h : Reads r b pos x mid) :
    (r >>= f) b pos = f x b mid := by
  show Reader.bind r f b pos = _
  unfold Reader.bind
  rw [h]

theorem bind {r : Reader α} {f : α → Reader β} {x : α} {y : β} (h : Reads r b pos x mid)
    (h' : Reads (f x) b mid y stop) : Reads (r >>= f) b pos y stop := h.bind_eq.trans h'

theorem pure (x : α) : Reads (Pure.pure x) b pos x pos := rfl

theorem position : Reads position b pos pos pos := rfl

theorem moveTo (target : Nat) : Reads (moveTo target) b pos () target := rfl

theorem ofExcept {r : Except Fault α} {x : α} (h : r = .ok x) : Reads (ofExcept r) b pos x pos := by
  rw [h]
  rfl

theorem reach (h : n ≤ b.size) (fault : Fault) : Reads (reach n fault) b pos () pos := if_pos h

theorem ahead (h : pos + n ≤ b.size) : Reads (ahead n) b pos () pos := if_pos h

theorem skip (h : pos + n ≤ b.size) : Reads (skip n) b pos () (pos + n) := if_pos h

theorem u8 {x : UInt8} (h : b.Holds pos [x]) : Reads u8 b pos x (pos + 1) := by
  unfold Reads Reader.u8
  rw [(Bytes.holds_cons.mp h).1]

theorem u16 {w : UInt16} (h : b.Holds pos (wordBytes w)) : Reads u16 b pos w (pos + 2) := by
  unfold Reads Reader.u16
  rw [h.word?]

theorem u32 {n : UInt32} (h : b.Holds pos (longBytes n)) : Reads u32 b pos n (pos + 4) := by
  unfold Reads Reader.u32
  rw [h.long?]

theorem take {part : List UInt8} (h : b.Holds pos part) :
    Reads (take part.length) b pos part.toArray (pos + part.length) := by
  unfold Reads Reader.take
  rw [h.slice?]

/-! ### Loops -/

theorem loop_succ {step : σ → Reader σ} {s t u : σ} (h : Reads (step s) b pos t mid)
    (h' : Reads (loop n step t) b mid u stop) : Reads (loop (n + 1) step s) b pos u stop := by
  rw [Reader.loop_succ]
  exact h.bind h'

theorem loop_add {m : Nat} {step : σ → Reader σ} {s t u : σ} (h : Reads (loop m step s) b pos t mid)
    (h' : Reads (loop n step t) b mid u stop) : Reads (loop (m + n) step s) b pos u stop := by
  induction m generalizing s pos with
  | zero =>
    cases h
    rwa [Nat.zero_add]
  | succ m ih =>
    unfold Reads loop loopFrom at h
    split at h
    · rename_i hfirst
      rw [Nat.add_right_comm]
      exact loop_succ hfirst (ih h)
    · cases h

/-- A loop whose steps do nothing. -/
theorem loop_stay {step : σ → Reader σ} {s : σ} (h : Reads (step s) b pos s pos) (n : Nat) :
    Reads (loop n step s) b pos s pos := by
  induction n with
  | zero => rfl
  | succ n ih => exact loop_succ h ih

theorem loop_from {write : ι → List UInt8} {step : σ → Reader σ} {P : List ι → σ → Prop} {items : List ι}
    {first last : Nat}
    (hstep : ∀ done x s pos, x ∈ items → P done s → b.Holds pos (write x) → first ≤ pos →
      pos + (write x).length ≤ last →
      ∃ t, Reads (step s) b pos t (pos + (write x).length) ∧ P (done ++ [x]) t)
    {done : List ι} {s : σ} (hs : P done s) (h : b.Holds pos (items.flatMap write)) (hfirst : first ≤ pos)
    (hlast : pos + (items.flatMap write).length ≤ last) :
    ∃ t, Reads (loop items.length step s) b pos t (pos + (items.flatMap write).length) ∧
      P (done ++ items) t := by
  induction items generalizing done s pos with
  | nil => exact ⟨s, rfl, by rwa [List.append_nil]⟩
  | cons x rest ih =>
    rw [List.flatMap_cons, Bytes.holds_append] at h
    rw [List.flatMap_cons, List.length_append] at hlast ⊢
    obtain ⟨t, hhead, ht⟩ := hstep done x s pos (List.mem_cons_self ..) hs h.1 hfirst (by omega)
    obtain ⟨u, hrest, hu⟩ :=
      ih (fun done y s pos hy => hstep done y s pos (List.mem_cons_of_mem x hy)) ht h.2 (by omega) (by omega)
    refine ⟨u, ?_, ?_⟩
    · rw [← Nat.add_assoc]
      exact loop_succ hhead hrest
    · rwa [List.append_assoc] at hu

/-- A loop over written items: what a step makes of one more item holds of all of them at the end. -/
theorem loop_list {write : ι → List UInt8} {step : σ → Reader σ} {P : List ι → σ → Prop} {items : List ι}
    (hstep : ∀ done x s q, x ∈ items → P done s → b.Holds q (write x) → pos ≤ q →
      q + (write x).length ≤ pos + (items.flatMap write).length →
      ∃ t, Reads (step s) b q t (q + (write x).length) ∧ P (done ++ [x]) t)
    {s : σ} (hs : P [] s) (h : b.Holds pos (items.flatMap write)) :
    ∃ t, Reads (loop items.length step s) b pos t (pos + (items.flatMap write).length) ∧ P items t :=
  loop_from hstep hs h (Nat.le_refl _) (Nat.le_refl _)

/-- A loop whose steps pass over items without learning anything. -/
theorem loop_over {write : ι → List UInt8} {step : σ → Reader σ} {items : List ι} {s : σ}
    (hstep : ∀ x q, x ∈ items → b.Holds q (write x) → pos ≤ q →
      Reads (step s) b q s (q + (write x).length))
    (h : b.Holds pos (items.flatMap write)) :
    Reads (loop items.length step s) b pos s (pos + (items.flatMap write).length) := by
  obtain ⟨t, hreads, rfl⟩ := loop_list (P := fun _ t => t = s) (fun done x t q hx ht hat hle _ => by
    subst ht
    exact ⟨t, hstep x q hx hat hle, rfl⟩) rfl h
  exact hreads

end Reads

/-! ### Taking readers apart -/

section Parts
variable {r : Reader α} {f : α → Reader β} {x a : α} {y : β} {w : UInt16} {k : UInt32} {u : Unit}

theorem reads_bind :
    Reads (r >>= f) b pos y stop ↔ ∃ x mid, Reads r b pos x mid ∧ Reads (f x) b mid y stop := by
  constructor
  · intro h
    change Reader.bind r f b pos = _ at h
    unfold Reader.bind at h
    split at h
    · rename_i x mid hfirst
      exact ⟨x, mid, hfirst, h⟩
    · cases h
  · rintro ⟨x, mid, hfirst, hrest⟩
    exact hfirst.bind hrest

theorem reads_pure : Reads (pure x) b pos a stop ↔ x = a ∧ pos = stop := by
  show Except.ok (x, pos) = .ok (a, stop) ↔ _
  rw [Except.ok.injEq, Prod.mk.injEq]

theorem reads_position : Reads position b pos n stop ↔ pos = n ∧ pos = stop := reads_pure (b := b)

theorem reads_moveTo : Reads (moveTo n) b pos u stop ↔ n = stop := by
  show Except.ok ((), n) = .ok (u, stop) ↔ _
  simp

theorem not_reads_fail {fault : Fault} : ¬ Reads (fail fault) b pos x stop := nofun

theorem reads_ofExcept {e : Except Fault α} : Reads (ofExcept e) b pos x stop ↔ e = .ok x ∧ pos = stop := by
  cases e with
  | ok a => rw [Except.ok.injEq]; exact reads_pure
  | error fault => simp [ofExcept, not_reads_fail]

theorem reads_reach {fault : Fault} : Reads (reach n fault) b pos u stop ↔ n ≤ b.size ∧ pos = stop := by
  unfold Reads reach
  by_cases h : n ≤ b.size <;> simp [h]

theorem reads_skip : Reads (skip n) b pos u stop ↔ pos + n ≤ b.size ∧ pos + n = stop := by
  unfold Reads skip
  by_cases h : pos + n ≤ b.size <;> simp [h]

theorem reads_ahead : Reads (ahead n) b pos u stop ↔ pos + n ≤ b.size ∧ pos = stop := by
  unfold Reads ahead
  by_cases h : pos + n ≤ b.size <;> simp [h]

theorem reads_take {s : Bytes} : Reads (take n) b pos s stop ↔ b.slice? pos n = some s ∧ pos + n = stop := by
  unfold Reads take
  split <;> simp_all

theorem reads_u8 {x : UInt8} : Reads u8 b pos x stop ↔ b[pos]? = some x ∧ pos + 1 = stop := by
  unfold Reads u8
  split <;> simp_all

theorem reads_u16 : Reads u16 b pos w stop ↔ b.word? pos = some w ∧ pos + 2 = stop := by
  unfold Reads u16
  split <;> simp_all

theorem reads_u32 : Reads u32 b pos k stop ↔ b.long? pos = some k ∧ pos + 4 = stop := by
  unfold Reads u32
  split <;> simp_all

theorem reads_loop_zero {step : σ → Reader σ} {s t : σ} :
    Reads (loop 0 step s) b pos t stop ↔ s = t ∧ pos = stop := reads_pure (b := b)

theorem reads_loop_succ {step : σ → Reader σ} {s u : σ} :
    Reads (loop (n + 1) step s) b pos u stop ↔
      ∃ t mid, Reads (step s) b pos t mid ∧ Reads (loop n step t) b mid u stop := by
  rw [loop_succ]
  exact reads_bind

/-- What every step of a loop carries on holds at its end; `P` may count the steps. -/
theorem of_loop {step : σ → Reader σ} {P : Nat → σ → Nat → Prop}
    (hstep : ∀ i s pos t mid, P i s pos → Reads (step s) b pos t mid → P (i + 1) t mid) {i : Nat} {s t : σ}
    (hs : P i s pos) (h : Reads (loop n step s) b pos t stop) : P (i + n) t stop := by
  induction n generalizing i s pos with
  | zero =>
    obtain ⟨rfl, rfl⟩ := reads_loop_zero.mp h
    exact hs
  | succ n ih =>
    obtain ⟨u, mid, hfirst, hrest⟩ := reads_loop_succ.mp h
    rw [Nat.add_comm n 1, ← Nat.add_assoc]
    exact ih (hstep i s pos u mid hs hfirst) hrest

/-- A loop whose steps go forward goes forward. -/
theorem le_of_loop {step : σ → Reader σ} {s t : σ}
    (hstep : ∀ s pos t mid, Reads (step s) b pos t mid → pos ≤ mid)
    (h : Reads (loop n step s) b pos t stop) : pos ≤ stop :=
  of_loop (P := fun _ _ q => pos ≤ q) (fun _ s q t q' hq hfirst => Nat.le_trans hq (hstep s q t q' hfirst))
    (i := 0) (Nat.le_refl _) h

end Parts

/-! ### Answers -/

theorem Answers.pure {P : α → Nat → Prop} {x : α} (h : P x pos) : Answers (Pure.pure x) b pos P :=
  ⟨x, pos, rfl, h⟩

theorem Reads.answers {r : Reader α} {f : α → Reader β} {x : α} {P : β → Nat → Prop}
    (h : Reads r b pos x mid) (h' : Answers (f x) b mid P) : Answers (r >>= f) b pos P := by
  obtain ⟨y, stop, hreads, hy⟩ := h'
  exact ⟨y, stop, h.bind hreads, hy⟩

end ClassCatalog.ClassFile.Reader
