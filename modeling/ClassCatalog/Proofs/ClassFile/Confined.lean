import ClassCatalog.ClassFile.Parse
import ClassCatalog.Proofs.ClassFile.Reads

/-! Readers and the end of the input.

A reader is confined where it stops or fails in the bytes it was given and, if it answers, does not notice
bytes behind them (`Confined`). Reading a number is confined, and so is what is put together of confined
readers (`Confined.bind`). Moving on without reading is confined as long as it goes to a place in the bytes;
both readers of attributes have made sure of that before they move. -/
namespace ClassCatalog.ClassFile.Reader

/-- Started at `pos`, the reader stops or fails in `b`, and an answer stays the same with more bytes behind. -/
def Confined {α : Type} (r : Reader α) (b : Bytes) (pos : Nat) : Prop :=
  match r b pos with
  | .ok (a, stop) => stop ≤ b.size ∧ ∀ x, Reads r (b ++ x) pos a stop
  | .error f => f.position ≤ b.size

namespace Confined
variable {α β σ : Type} {r : Reader α} {f : α → Reader β} {b : Bytes} {pos stop n : Nat} {a : α}

theorem stop_le (h : Confined r b pos) (hr : Reads r b pos a stop) : stop ≤ b.size := by
  unfold Confined at h
  rw [hr] at h
  exact h.1

theorem append (h : Confined r b pos) (hr : Reads r b pos a stop) (x : Bytes) : Reads r (b ++ x) pos a stop := by
  unfold Confined at h
  rw [hr] at h
  exact h.2 x

theorem position_le (h : Confined r b pos) {failure : Failure} (hr : r b pos = .error failure) :
    failure.position ≤ b.size := by
  unfold Confined at h
  rw [hr] at h
  exact h

/-- The second reader starts where the first one has stopped. -/
theorem bind (h : Confined r b pos)
    (hf : ∀ a mid, Reads r b pos a mid → mid ≤ b.size → Confined (f a) b mid) : Confined (r >>= f) b pos := by
  cases hr : r b pos with
  | error failure =>
    unfold Confined
    rw [bind_eq_error hr]
    exact h.position_le hr
  | ok answer =>
    obtain ⟨a, mid⟩ := answer
    have hrest := hf a mid hr (h.stop_le hr)
    unfold Confined
    rw [Reads.bind_eq hr]
    cases hanswer : f a b mid with
    | error failure => exact hrest.position_le hanswer
    | ok answer => exact ⟨hrest.stop_le hanswer, fun x => (h.append hr x).bind (hrest.append hanswer x)⟩

/-! ### Reading -/

theorem pure (h : pos ≤ b.size) : Confined (Pure.pure a : Reader α) b pos := ⟨h, fun _ => .pure a⟩

theorem fail (fault : Fault) (h : pos ≤ b.size) : Confined (fail fault : Reader α) b pos := h

theorem fail_bind (fault : Fault) (h : pos ≤ b.size) : Confined (Reader.fail fault >>= f) b pos :=
  (fail fault h).bind fun _ _ hr _ => absurd hr not_reads_fail

theorem position (h : pos ≤ b.size) : Confined position b pos := ⟨h, fun _ => .position⟩

theorem moveTo (h : n ≤ b.size) : Confined (moveTo n) b pos := ⟨h, fun _ => .moveTo n⟩

theorem ofExcept (e : Except Fault α) (h : pos ≤ b.size) : Confined (ofExcept e) b pos := by
  cases e with
  | ok a => exact pure h
  | error fault => exact fail fault h

/-- A reader that answers what stands in front of it, and fails there if it does not stand in the bytes. -/
theorem of_part (part : α → List UInt8) (h : pos ≤ b.size)
    (hok : ∀ b a stop, Reads r b pos a stop ↔ b.Holds pos (part a) ∧ pos + (part a).length = stop)
    (herror : ∀ failure, r b pos = .error failure → failure.position = pos) : Confined r b pos := by
  unfold Confined
  cases hr : r b pos with
  | error failure =>
    show failure.position ≤ b.size
    rw [herror failure hr]
    exact h
  | ok answer =>
    obtain ⟨hholds, hstop⟩ := (hok b _ _).mp hr
    exact ⟨hstop ▸ hholds.le_size, fun x => (hok _ _ _).mpr ⟨hholds.append x, hstop⟩⟩

theorem u16 (h : pos ≤ b.size) : Confined u16 b pos := by
  refine of_part wordBytes h (fun b w stop => ?_) (fun failure hr => ?_)
  · rw [reads_u16, Bytes.word?_eq_some_iff_holds]
    rfl
  · unfold Reader.u16 at hr
    split at hr
    · cases hr
    · cases hr
      rfl

theorem u32 (h : pos ≤ b.size) : Confined u32 b pos := by
  refine of_part longBytes h (fun b n stop => ?_) (fun failure hr => ?_)
  · rw [reads_u32, Bytes.long?_eq_some_iff_holds]
    rfl
  · unfold Reader.u32 at hr
    split at hr
    · cases hr
    · cases hr
      rfl

theorem u8 (h : pos ≤ b.size) : Confined u8 b pos := by
  refine of_part (fun x => [x]) h (fun b x stop => ?_) (fun failure hr => ?_)
  · rw [reads_u8, Bytes.holds_cons, Bytes.holds_nil]
    exact and_congr_left' (and_iff_left_of_imp fun hx => (Array.getElem?_eq_some_iff.mp hx).1).symm
  · unfold Reader.u8 at hr
    split at hr
    · cases hr
    · cases hr
      rfl

/-! ### Passing over bytes -/

theorem take (n : Nat) (h : pos ≤ b.size) : Confined (take n) b pos := by
  unfold Confined
  cases hr : Reader.take n b pos with
  | error failure =>
    unfold Reader.take at hr
    split at hr
    · cases hr
    · cases hr
      exact h
  | ok answer =>
    obtain ⟨hslice, hstop⟩ := reads_take.mp hr
    obtain ⟨hholds, hsize⟩ := Bytes.slice?_eq_some_iff_holds.mp hslice
    have hin := hholds.le_size
    rw [Array.length_toList, hsize, hstop] at hin
    exact ⟨hin, fun x => reads_take.mpr ⟨Bytes.slice?_append hslice x, hstop⟩⟩

theorem le_size_append (h : n ≤ b.size) (x : Bytes) : n ≤ (b ++ x).size := by
  rw [Array.size_append]
  omega

theorem reach (fault : Fault) (h : pos ≤ b.size) : Confined (reach n fault) b pos := by
  unfold Confined Reader.reach
  by_cases hn : n ≤ b.size
  · rw [if_pos hn]
    exact ⟨h, fun x => .reach (le_size_append hn x) fault⟩
  · rw [if_neg hn]
    exact h

theorem ahead (n : Nat) (h : pos ≤ b.size) : Confined (ahead n) b pos := by
  unfold Confined Reader.ahead
  by_cases hn : pos + n ≤ b.size
  · rw [if_pos hn]
    exact ⟨h, fun x => .ahead (le_size_append hn x)⟩
  · rw [if_neg hn]
    exact h

theorem skip (n : Nat) (h : pos ≤ b.size) : Confined (skip n) b pos := by
  unfold Confined Reader.skip
  by_cases hn : pos + n ≤ b.size
  · rw [if_pos hn]
    exact ⟨hn, fun x => .skip (le_size_append hn x)⟩
  · rw [if_neg hn]
    exact h

theorem loop {step : σ → Reader σ} (hstep : ∀ s pos, pos ≤ b.size → Confined (step s) b pos) (n : Nat) (s : σ)
    (h : pos ≤ b.size) : Confined (loop n step s) b pos := by
  induction n generalizing s pos with
  | zero => exact pure h
  | succ n ih =>
    rw [loop_succ]
    exact (hstep s pos h).bind fun t mid _ hmid => ih t hmid

end Confined
end Reader

/-! ### The readers of a class file -/

open Reader
variable {b : Bytes} {pos : Nat}

theorem confined_version (h : pos ≤ b.size) : Confined version b pos := by
  refine (Confined.u32 h).bind fun start _ _ h => ?_
  dsimp only
  split
  · exact .fail_bind _ h
  · refine (Confined.u16 h).bind fun minor _ _ h => (Confined.u16 h).bind fun major _ _ h => ?_
    split
    · exact .pure h
    · exact .fail _ h

theorem confined_constant (tag : UInt8) (h : pos ≤ b.size) : Confined (constant tag) b pos := by
  have word (f : UInt16 → Constant) : Confined (do ahead 2; return f (← u16)) b pos :=
    (Confined.ahead 2 h).bind fun _ _ _ h => (Confined.u16 h).bind fun _ _ _ h => .pure h
  have words (f : UInt16 → UInt16 → Constant) : Confined (do ahead 4; return f (← u16) (← u16)) b pos :=
    (Confined.ahead 4 h).bind fun _ _ _ h => (Confined.u16 h).bind fun _ _ _ h =>
      (Confined.u16 h).bind fun _ _ _ h => .pure h
  have long (f : UInt32 → Constant) : Confined (do ahead 4; return f (← u32)) b pos :=
    (Confined.ahead 4 h).bind fun _ _ _ h => (Confined.u32 h).bind fun _ _ _ h => .pure h
  have longs (f : UInt32 → UInt32 → Constant) : Confined (do ahead 8; return f (← u32) (← u32)) b pos :=
    (Confined.ahead 8 h).bind fun _ _ _ h => (Confined.u32 h).bind fun _ _ _ h =>
      (Confined.u32 h).bind fun _ _ _ h => .pure h
  unfold constant
  split
  case h_1 =>
    exact (Confined.u16 h).bind fun n _ _ h => (Confined.take _ h).bind fun _ _ _ h => .pure h
  case h_2 | h_3 => exact long _
  case h_4 | h_5 => exact longs _
  case h_6 | h_7 | h_13 | h_16 | h_17 => exact word _
  case h_8 | h_9 | h_10 | h_11 | h_14 | h_15 => exact words _
  case h_12 =>
    exact (Confined.ahead 3 h).bind fun _ _ _ h => (Confined.u8 h).bind fun _ _ _ h =>
      (Confined.u16 h).bind fun _ _ _ h => .pure h
  case h_18 =>
    -- The tag in front is read again before the reader fails at it.
    refine (Confined.position h).bind fun tagEnd _ hr h => ?_
    obtain ⟨rfl, rfl⟩ := reads_position.mp hr
    exact (Confined.moveTo (by omega)).bind fun _ _ _ h => .fail _ h

theorem confined_fillSlot (f : Filling) (h : pos ≤ b.size) : Confined (fillSlot f) b pos := by
  unfold fillSlot
  split
  · exact .pure h
  · exact (Confined.u8 h).bind fun tag _ _ h => (Confined.position h).bind fun _ _ _ h =>
      (confined_constant tag h).bind fun _ _ _ h => .pure h

theorem confined_constantPool (count : UInt16) (h : pos ≤ b.size) : Confined (constantPool count) b pos :=
  (Confined.loop (fun f _ => confined_fillSlot f) _ _ h).bind fun _ _ _ h => .pure h

theorem confined_classAt [Text.Encoding] (pool : ConstantPool) (index : UInt16) (role : Role) (h : pos ≤ b.size) :
    Confined (classAt pool index role) b pos := by
  unfold classAt
  split
  · exact .ofExcept _ h
  · exact .fail _ h

theorem confined_opening [Text.Encoding] (h : pos ≤ b.size) : Confined opening b pos :=
  (confined_version h).bind fun _ _ _ h => (Confined.position h).bind fun _ _ _ h =>
    (Confined.u16 h).bind fun _ _ _ h => (confined_constantPool _ h).bind fun _ _ _ h =>
    (Confined.ofExcept _ h).bind fun _ _ _ h => (Confined.position h).bind fun _ _ _ h =>
    (Confined.u16 h).bind fun _ _ _ h => (Confined.u16 h).bind fun _ _ _ h =>
    (confined_classAt _ _ _ h).bind fun _ _ _ h => .pure h

theorem confined_superClass [Text.Encoding] (pool : ConstantPool) (name : String) (h : pos ≤ b.size) :
    Confined (superClass pool name) b pos := by
  refine (Confined.u16 h).bind fun index _ _ h => ?_
  split
  · exact .pure h
  · exact (confined_classAt _ _ _ h).bind fun _ _ _ h => .pure h

theorem confined_interfaceNames [Text.Encoding] (pool : ConstantPool) (h : pos ≤ b.size) :
    Confined (interfaceNames pool) b pos := by
  refine (Confined.u16 h).bind fun count _ _ h => ?_
  refine (Confined.loop (fun names _ h => ?_) _ _ h).bind fun _ _ _ h => .pure h
  exact (Confined.u16 h).bind fun _ _ _ h => (confined_classAt _ _ _ h).bind fun _ _ _ h => .pure h

theorem confined_skipFields (h : pos ≤ b.size) : Confined skipFields b pos := by
  have skipAttribute {pos : Nat} (h : pos ≤ b.size) : Confined skipAttribute b pos :=
    (Confined.skip 2 h).bind fun _ _ _ h => (Confined.u32 h).bind fun _ _ _ h => .skip _ h
  have skipField {pos : Nat} (h : pos ≤ b.size) : Confined skipField b pos :=
    (Confined.skip 6 h).bind fun _ _ _ h => (Confined.u16 h).bind fun _ _ _ h =>
      .loop (fun _ _ => skipAttribute) _ _ h
  exact (Confined.u16 h).bind fun _ _ _ h => .loop (fun _ _ => skipField) _ _ h

/-! ### Methods -/

variable (pool : ConstantPool) (infoStart : Nat) (body : MethodBody)

/-- The end of an attribute is compared with the end of the code, and that with the end of the bytes. -/
theorem confined_codeAttribute [Text.Encoding] {codeEnd : Nat} (hend : codeEnd ≤ b.size) (h : pos ≤ b.size) :
    Confined (codeAttribute pool infoStart codeEnd body) b pos := by
  refine (Confined.u16 h).bind fun nameIndex _ _ h => (Confined.u32 h).bind fun length _ _ h =>
    (Confined.position h).bind fun start _ _ h => ?_
  dsimp only
  split
  · exact .fail_bind _ h
  · rename_i hstop
    refine (Confined.ofExcept _ h).bind fun name _ _ h => ?_
    split
    · exact (Confined.u16 h).bind fun count _ _ h => (Confined.position h).bind fun _ _ _ h =>
        (Confined.skip _ h).bind fun _ _ _ _ => (Confined.moveTo (by omega)).bind fun _ _ _ h => .pure h
    · exact (Confined.moveTo (by omega)).bind fun _ _ _ h => .pure h

theorem confined_codeBody [Text.Encoding] {codeEnd : Nat} (hend : codeEnd ≤ b.size) (h : pos ≤ b.size) :
    Confined (codeBody pool infoStart codeEnd body) b pos :=
  (Confined.skip 4 h).bind fun _ _ _ h => (Confined.u32 h).bind fun _ _ _ h =>
    (Confined.position h).bind fun _ _ _ h => (Confined.skip _ h).bind fun _ _ _ h =>
    (Confined.position h).bind fun _ _ _ h => (Confined.u16 h).bind fun _ _ _ h =>
    (Confined.skip _ h).bind fun _ _ _ h => (Confined.u16 h).bind fun _ _ _ h =>
    .loop (fun body _ => confined_codeAttribute pool infoStart body hend) _ _ h

theorem confined_methodAttribute [Text.Encoding] (h : pos ≤ b.size) :
    Confined (methodAttribute pool infoStart body) b pos := by
  refine (Confined.u16 h).bind fun nameIndex _ _ h => (Confined.u32 h).bind fun length _ _ h =>
    (Confined.position h).bind fun start _ _ h => (Confined.reach _ h).bind fun _ _ hreach h => ?_
  have hstop := (reads_reach.mp hreach).1
  refine (Confined.ofExcept _ h).bind fun name _ _ h => ?_
  split
  · exact (confined_codeBody pool infoStart body hstop h).bind fun body _ _ _ =>
      (Confined.moveTo hstop).bind fun _ _ _ h => .pure h
  · exact (Confined.pure h).bind fun body _ _ _ => (Confined.moveTo hstop).bind fun _ _ _ h => .pure h

theorem confined_method [Text.Encoding] (h : pos ≤ b.size) : Confined (method pool) b pos :=
  (Confined.position h).bind fun infoStart _ _ h => (Confined.u16 h).bind fun _ _ _ h =>
    (Confined.u16 h).bind fun _ _ _ h => (Confined.ofExcept _ h).bind fun _ _ _ h =>
    (Confined.u16 h).bind fun _ _ _ h => (Confined.ofExcept _ h).bind fun _ _ _ h =>
    (Confined.u16 h).bind fun _ _ _ h =>
    (Confined.loop (fun body _ => confined_methodAttribute pool infoStart body) _ _ h).bind fun _ _ _ h =>
    (Confined.position h).bind fun _ _ _ h => .pure h

theorem confined_methodList [Text.Encoding] (h : pos ≤ b.size) : Confined (methodList pool) b pos :=
  (Confined.u16 h).bind fun _ _ _ h =>
    .loop (fun _ _ h => (confined_method pool h).bind fun _ _ _ h => .pure h) _ _ h

/-! ### Nested classes -/

theorem confined_innerClass [Text.Encoding] (outer : String) (n : Nesting) (h : pos ≤ b.size) :
    Confined (innerClass pool outer n) b pos := by
  have skipOuter {pos : Nat} (h : pos ≤ b.size) : Confined innerClass.skipOuter b pos :=
    (Confined.u16 h).bind fun _ _ _ h => .pure h
  refine (Confined.u16 h).bind fun inner _ _ h => (skipOuter h).bind fun _ _ _ h =>
    (Confined.u16 h).bind fun simple _ _ h => (skipOuter h).bind fun _ _ _ h =>
    (confined_classAt pool inner _ h).bind fun full _ _ h => ?_
  dsimp only
  split
  · split <;> exact .pure h
  · refine (Confined.ofExcept _ h).bind fun simple _ _ h => ?_
    split
    · exact .pure h
    · split <;> exact .pure h

theorem confined_classAttribute [Text.Encoding] (outer : String) (found : Option (List String)) (h : pos ≤ b.size) :
    Confined (classAttribute pool outer found) b pos := by
  cases found with
  | some members => exact .pure h
  | none =>
    refine (Confined.u16 h).bind fun nameIndex _ _ h => (Confined.u32 h).bind fun length _ _ h =>
      (Confined.ofExcept _ h).bind fun name _ _ h => ?_
    split
    · exact (Confined.u16 h).bind fun _ _ _ h =>
        (Confined.loop (fun n _ => confined_innerClass pool outer n) _ _ h).bind fun _ _ _ h => .pure h
    · exact (Confined.skip _ h).bind fun _ _ _ h => .pure h

theorem confined_nestedClasses [Text.Encoding] (outer : String) (h : pos ≤ b.size) :
    Confined (nestedClasses pool outer) b pos :=
  (Confined.u16 h).bind fun _ _ _ h =>
    (Confined.loop (fun found _ => confined_classAttribute pool outer found) _ _ h).bind fun _ _ _ h => .pure h

/-- What follows the class's name; the bytes that go into the record are not read. -/
theorem confined_remainder [Text.Encoding] (f : Opening) (bytes : Bytes) (h : pos ≤ b.size) :
    Confined (remainder f bytes) b pos :=
  (confined_superClass f.pool f.name h).bind fun _ _ _ h => (confined_interfaceNames f.pool h).bind fun _ _ _ h =>
    (Confined.position h).bind fun _ _ _ h => (confined_skipFields h).bind fun _ _ _ h =>
    (Confined.position h).bind fun _ _ _ h => (confined_methodList f.pool h).bind fun _ _ _ h =>
    (Confined.position h).bind fun _ _ _ h => (confined_nestedClasses f.pool f.name h).bind fun _ _ _ h => .pure h

end ClassCatalog.ClassFile
