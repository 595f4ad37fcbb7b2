import Mathlib.Logic.Basic
import Mathlib.Tactic.SplitIfs
import ClassCatalog.StackMap.Table

/-! Stack map tables are read as they are written.

Each reader of the format, from a verification type to a whole table, accepts exactly what its
writer produces and leaves what follows: `decode?_eq_some_iff` for types and frames,
`takeTypes?_eq_some_iff` and `takeFrames_eq_ok_iff` for lists of them. What can be written are the
well-formed frames and tables. `decode_eq_ok_iff` puts this together for a table at the front of
some bytes. -/
namespace ClassCatalog.StackMap

/-! ### Verification types -/

namespace VerificationType

theorem decode?_encode (t : VerificationType) (rest : List UInt8) :
    decode? (t.encode ++ rest) = some (t, rest) := by
  cases t with
  | object i => simp [encode, decode?, wordBytes, word_high_low]
  | uninitialized o => simp [encode, decode?, wordBytes, word_high_low]
  | _ => rfl

theorem eq_of_decode? {bytes rest : List UInt8} {t : VerificationType}
    (h : decode? bytes = some (t, rest)) : bytes = t.encode ++ rest := by
  match bytes, h with
  | tag :: bytes, h =>
    unfold decode? at h
    dsimp only at h
    -- The first seven types are their tags, the other two carry a word.
    iterate 7
      obtain ⟨rfl, heq⟩ | ⟨_, h⟩ := ite_eq_iff.mp h
      · cases heq
        rfl
    match bytes, h with
    | hi :: lo :: bytes, h =>
      obtain ⟨rfl, heq⟩ | ⟨_, h⟩ := ite_eq_iff.mp h
      · cases heq
        rw [encode, wordBytes, high_word, low_word]
        rfl
      obtain ⟨rfl, heq⟩ | ⟨_, h⟩ := ite_eq_iff.mp h
      · cases heq
        rw [encode, wordBytes, high_word, low_word]
        rfl
      · cases h

theorem decode?_eq_some_iff {bytes rest : List UInt8} {t : VerificationType} :
    decode? bytes = some (t, rest) ↔ bytes = t.encode ++ rest :=
  ⟨eq_of_decode?, fun h => h ▸ decode?_encode t rest⟩

end VerificationType

/-! ### Frames -/

namespace Frame

/-- What the forms of frames can hold. -/
def WellFormed : Frame → Prop
  | same d ext | sameOne d _ ext => shortMax < d → ext = true
  | chop _ n => 1 ≤ n ∧ n ≤ 3
  | append _ ls => 1 ≤ ls.length ∧ ls.length ≤ 3
  | full _ ls ss => ls.length ≤ 65535 ∧ ss.length ≤ 65535

instance : DecidablePred WellFormed := fun f => by
  cases f <;> unfold WellFormed <;> infer_instance

theorem takeWord?_eq_some_iff {bytes rest : List UInt8} {w : UInt16} :
    takeWord? bytes = some (w, rest) ↔ bytes = wordBytes w ++ rest := by
  constructor
  · intro h
    match bytes, h with
    | hi :: lo :: bytes, h =>
      cases h
      simp [wordBytes, high_word, low_word]
  · rintro rfl
    simp [takeWord?, wordBytes, word_high_low]

theorem takeTypesFrom?_eq_some_iff {n : Nat} {taken ts : List VerificationType} {bytes rest : List UInt8} :
    takeTypesFrom? n taken bytes = some (ts, rest) ↔
      ∃ more, more.length = n ∧ ts = taken.reverse ++ more ∧ bytes = encodeTypes more ++ rest := by
  induction n generalizing taken bytes with
  | zero =>
    constructor
    · intro h
      cases h
      exact ⟨[], rfl, by simp, rfl⟩
    · rintro ⟨more, hlen, rfl, rfl⟩
      rw [List.length_eq_zero_iff] at hlen
      subst hlen
      simp [takeTypesFrom?, encodeTypes]
  | succ n ih =>
    constructor
    · intro h
      simp only [takeTypesFrom?] at h
      split at h
      · rename_i t left hdecode
        obtain ⟨more, hlen, rfl, rfl⟩ := ih.mp h
        rw [VerificationType.decode?_eq_some_iff] at hdecode
        exact ⟨t :: more, by simp [hlen], by simp, by simp [hdecode, encodeTypes]⟩
      · cases h
    · rintro ⟨_ | ⟨t, more⟩, hlen, rfl, rfl⟩
      · cases hlen
      · have hfirst : encodeTypes (t :: more) ++ rest = t.encode ++ (encodeTypes more ++ rest) := by
          simp [encodeTypes]
        simp only [takeTypesFrom?, hfirst, VerificationType.decode?_encode]
        exact ih.mpr ⟨more, Nat.succ.inj hlen, by simp, rfl⟩

theorem takeTypes?_eq_some_iff {n : Nat} {ts : List VerificationType} {bytes rest : List UInt8} :
    takeTypes? n bytes = some (ts, rest) ↔ ts.length = n ∧ bytes = encodeTypes ts ++ rest := by
  rw [takeTypes?, takeTypesFrom?_eq_some_iff]
  constructor
  · rintro ⟨more, hlen, rfl, hbytes⟩
    exact ⟨hlen, hbytes⟩
  · rintro ⟨hlen, hbytes⟩
    exact ⟨ts, hlen, rfl, hbytes⟩

/-! Short tags hold the delta itself. -/

theorem toNat_low {d : UInt16} (h : ¬ shortMax < d) : (low d).toNat = d.toNat ∧ d.toNat < 64 := by
  have hle : d.toNat ≤ 63 := UInt16.le_iff_toNat_le.mp (UInt16.not_lt.mp h)
  rw [low, UInt8.toNat_ofNat']
  omega

theorem toUInt16_low {d : UInt16} (h : ¬ shortMax < d) : (low d).toUInt16 = d := by
  apply UInt16.toNat_inj.mp
  rw [UInt8.toNat_toUInt16, (toNat_low h).1]

theorem low_toUInt16 (tag : UInt8) : low tag.toUInt16 = tag := by
  rw [low, UInt8.toNat_toUInt16, UInt8.ofNat_toNat]

theorem not_shortMax_lt {tag : UInt8} (h : tag < 64) : ¬ shortMax < tag.toUInt16 := by
  rw [UInt16.not_lt, UInt16.le_iff_toNat_le, UInt8.toNat_toUInt16]
  have := UInt8.lt_iff_toNat_lt.mp h
  exact Nat.le_of_lt_succ this

theorem encode_same_short {d : UInt16} (h : ¬ shortMax < d) : (same d false).encode = [low d] := by
  simp [encode, h]

theorem encode_sameOne_short {d : UInt16} (t : VerificationType) (h : ¬ shortMax < d) :
    (sameOne d t false).encode = (64 + low d) :: t.encode := by
  simp [encode, h]

theorem decode?_encode {f : Frame} (hf : f.WellFormed) (rest : List UInt8) :
    decode? (f.encode ++ rest) = some (f, rest) := by
  have hword {d : UInt16} {more : List UInt8} : takeWord? (wordBytes d ++ more) = some (d, more) :=
    takeWord?_eq_some_iff.mpr rfl
  have htypes {ts : List VerificationType} {more : List UInt8} :
      takeTypes? ts.length (encodeTypes ts ++ more) = some (ts, more) :=
    takeTypes?_eq_some_iff.mpr ⟨rfl, rfl⟩
  cases f with
  | same d ext =>
    cases ext with
    | true => simp [encode, decode?, decodeTagged?, hword]
    | false =>
      have hshort : ¬ shortMax < d := fun h => Bool.noConfusion (hf h)
      have htag : low d < 64 := by
        rw [UInt8.lt_iff_toNat_lt, (toNat_low hshort).1]
        exact (toNat_low hshort).2
      rw [encode_same_short hshort]
      simp [decode?, decodeTagged?, htag, toUInt16_low hshort]
  | sameOne d t ext =>
    cases ext with
    | true => simp [encode, decode?, decodeTagged?, hword, VerificationType.decode?_encode]
    | false =>
      have hshort : ¬ shortMax < d := fun h => Bool.noConfusion (hf h)
      have hnat : (64 + low d).toNat = 64 + d.toNat := by
        rw [UInt8.toNat_add, (toNat_low hshort).1]
        have := (toNat_low hshort).2
        show (64 + d.toNat) % 256 = 64 + d.toNat
        omega
      have hsame : ¬ 64 + low d < 64 := by
        rw [UInt8.lt_iff_toNat_lt, hnat]
        exact Nat.not_lt.mpr (Nat.le_add_right 64 _)
      have htag : 64 + low d < 128 := by
        rw [UInt8.lt_iff_toNat_lt, hnat]
        have := (toNat_low hshort).2
        show 64 + d.toNat < 128
        omega
      have hdelta : 64 + low d - 64 = low d := by
        rw [UInt8.add_comm, UInt8.add_sub_cancel]
      rw [encode_sameOne_short t hshort, List.cons_append]
      simp only [decode?, decodeTagged?, hsame, htag, if_true, if_false, hdelta,
        VerificationType.decode?_encode, toUInt16_low hshort]
      rfl
  | chop d n =>
    have hcases : n = 1 ∨ n = 2 ∨ n = 3 := by
      obtain ⟨h1, h3⟩ := hf
      rw [UInt8.le_iff_toNat_le] at h1 h3
      simp only [← UInt8.toNat_inj]
      change 1 ≤ n.toNat at h1
      change n.toNat ≤ 3 at h3
      show n.toNat = 1 ∨ n.toNat = 2 ∨ n.toNat = 3
      omega
    rcases hcases with rfl | rfl | rfl <;> simp [encode, decode?, decodeTagged?, hword]
  | append d ls =>
    have hcases : ls.length = 1 ∨ ls.length = 2 ∨ ls.length = 3 := by
      obtain ⟨h1, h3⟩ := hf
      omega
    have hlocals : takeTypes? ls.length (encodeTypes ls ++ rest) = some (ls, rest) := htypes
    rcases hcases with h | h | h <;> rw [h] at hlocals <;>
      simp [encode, decode?, decodeTagged?, hword, h, hlocals]
  | full d ls ss =>
    obtain ⟨hlocals, hstack⟩ := hf
    have hl : (UInt16.ofNat ls.length).toNat = ls.length :=
      UInt16.toNat_ofNat_of_lt' (Nat.lt_succ_of_le hlocals)
    have hs : (UInt16.ofNat ss.length).toNat = ss.length :=
      UInt16.toNat_ofNat_of_lt' (Nat.lt_succ_of_le hstack)
    simp [encode, decode?, decodeTagged?, lengthBytes, hword, hl, hs, htypes]

section Tags
variable {tag : UInt8}

theorem chop_tag (h : ¬ tag < 247) (hne : ¬ tag = 247) (hlt : tag < 251) :
    tag = 248 ∨ tag = 249 ∨ tag = 250 := by
  simp only [UInt8.lt_iff_toNat_lt, ← UInt8.toNat_inj, UInt8.reduceToNat] at *
  omega

theorem append_tag (h : ¬ tag < 251) (hne : ¬ tag = 251) (hlt : tag < 255) :
    tag = 252 ∨ tag = 253 ∨ tag = 254 := by
  simp only [UInt8.lt_iff_toNat_lt, ← UInt8.toNat_inj, UInt8.reduceToNat] at *
  omega

theorem full_tag (h : ¬ tag < 255) : tag = 255 := by
  have := tag.toNat_lt
  simp only [UInt8.lt_iff_toNat_lt, ← UInt8.toNat_inj, UInt8.reduceToNat] at *
  omega

end Tags

theorem of_decodeTagged? {tag : UInt8} {bytes rest : List UInt8} {f : Frame}
    (h : decodeTagged? tag bytes = some (f, rest)) : f.WellFormed ∧ tag :: bytes = f.encode ++ rest := by
  unfold decodeTagged? at h
  split_ifs at h with hsame hone hreserved hone' hchop hlong happend
  · cases h
    have hshort := not_shortMax_lt hsame
    refine ⟨fun h => absurd h hshort, ?_⟩
    rw [encode_same_short hshort, low_toUInt16]
    rfl
  · obtain ⟨⟨t, left⟩, ht, h⟩ := Option.bind_eq_some_iff.mp h
    cases h
    rw [VerificationType.decode?_eq_some_iff] at ht
    have hshort : ¬ shortMax < (tag - 64).toUInt16 := by
      apply not_shortMax_lt
      rw [UInt8.not_lt] at hsame
      rw [UInt8.lt_iff_toNat_lt] at hone ⊢
      rw [UInt8.toNat_sub_of_le _ _ hsame]
      change tag.toNat < 128 at hone
      show tag.toNat - 64 < 64
      omega
    refine ⟨fun h => absurd h hshort, ?_⟩
    rw [encode_sameOne_short t hshort, low_toUInt16, ht, UInt8.add_comm, UInt8.sub_add_cancel]
    rfl
  · obtain ⟨⟨d, left⟩, hd, h⟩ := Option.bind_eq_some_iff.mp h
    obtain ⟨⟨t, left⟩, ht, h⟩ := Option.bind_eq_some_iff.mp h
    cases h
    rw [takeWord?_eq_some_iff] at hd
    rw [VerificationType.decode?_eq_some_iff] at ht
    exact ⟨fun _ => rfl, by simp [encode, hd, ht, hone']⟩
  · obtain ⟨⟨d, left⟩, hd, h⟩ := Option.bind_eq_some_iff.mp h
    cases h
    rw [takeWord?_eq_some_iff] at hd
    rcases chop_tag hreserved hone' hchop with rfl | rfl | rfl <;>
      exact ⟨by simp [WellFormed], by simp [encode, hd]⟩
  · obtain ⟨⟨d, left⟩, hd, h⟩ := Option.bind_eq_some_iff.mp h
    cases h
    rw [takeWord?_eq_some_iff] at hd
    exact ⟨fun _ => rfl, by simp [encode, hd, hlong]⟩
  · obtain ⟨⟨d, left⟩, hd, h⟩ := Option.bind_eq_some_iff.mp h
    obtain ⟨⟨ls, left⟩, hls, h⟩ := Option.bind_eq_some_iff.mp h
    cases h
    rw [takeWord?_eq_some_iff] at hd
    rw [takeTypes?_eq_some_iff] at hls
    rcases append_tag hchop hlong happend with rfl | rfl | rfl <;>
      exact ⟨by simp [WellFormed, hls.1], by simp [encode, hd, hls]⟩
  · obtain ⟨⟨d, left⟩, hd, h⟩ := Option.bind_eq_some_iff.mp h
    obtain ⟨⟨n, left⟩, hn, h⟩ := Option.bind_eq_some_iff.mp h
    obtain ⟨⟨ls, left⟩, hls, h⟩ := Option.bind_eq_some_iff.mp h
    obtain ⟨⟨m, left⟩, hm, h⟩ := Option.bind_eq_some_iff.mp h
    obtain ⟨⟨ss, left⟩, hss, h⟩ := Option.bind_eq_some_iff.mp h
    cases h
    rw [takeWord?_eq_some_iff] at hd hn hm
    rw [takeTypes?_eq_some_iff] at hls hss
    refine ⟨⟨?_, ?_⟩, ?_⟩
    · rw [hls.1]
      exact Nat.le_of_lt_succ n.toNat_lt
    · rw [hss.1]
      exact Nat.le_of_lt_succ m.toNat_lt
    · simp [encode, lengthBytes, hd, hn, hm, hls, hss, full_tag happend]

theorem decode?_eq_some_iff {bytes rest : List UInt8} {f : Frame} :
    decode? bytes = some (f, rest) ↔ f.WellFormed ∧ bytes = f.encode ++ rest := by
  constructor
  · intro h
    match bytes, h with
    | tag :: bytes, h => exact of_decodeTagged? h
  · rintro ⟨hf, rfl⟩
    exact decode?_encode hf rest

end Frame

/-! ### Tables -/

namespace Table

structure WellFormed (t : Table) : Prop where
  count : t.frames.length ≤ 65535
  frames : ∀ f ∈ t.frames, f.WellFormed

theorem wellFormed_iff (t : Table) :
    t.WellFormed ↔ t.frames.length ≤ 65535 ∧ ∀ f ∈ t.frames, f.WellFormed :=
  ⟨fun h => ⟨h.count, h.frames⟩, fun h => ⟨h.1, h.2⟩⟩

instance : DecidablePred WellFormed := fun t => decidable_of_iff _ (wellFormed_iff t).symm

theorem takeFrames_eq_ok_iff {n : Nat} {taken fs : List Frame} {bytes : List UInt8} :
    takeFrames n taken bytes = .ok fs ↔
      ∃ more rest, more.length = n ∧ (∀ f ∈ more, f.WellFormed) ∧ fs = taken.reverse ++ more ∧
        bytes = more.flatMap Frame.encode ++ rest := by
  induction n generalizing taken bytes with
  | zero =>
    constructor
    · intro h
      cases h
      exact ⟨[], bytes, rfl, by simp, by simp, rfl⟩
    · rintro ⟨more, rest, hlen, _, rfl, _⟩
      rw [List.length_eq_zero_iff] at hlen
      subst hlen
      simp [takeFrames]
  | succ n ih =>
    constructor
    · intro h
      simp only [takeFrames] at h
      split at h
      · rename_i f left hdecode
        obtain ⟨more, rest, hlen, hmore, rfl, rfl⟩ := ih.mp h
        obtain ⟨hf, rfl⟩ := Frame.decode?_eq_some_iff.mp hdecode
        exact ⟨f :: more, rest, by simp [hlen], List.forall_mem_cons.mpr ⟨hf, hmore⟩, by simp, by simp⟩
      · cases h
    · rintro ⟨_ | ⟨f, more⟩, rest, hlen, hmore, rfl, rfl⟩
      · cases hlen
      · rw [List.forall_mem_cons] at hmore
        simp only [takeFrames, List.flatMap_cons, List.append_assoc, Frame.decode?_encode hmore.1]
        exact ih.mpr ⟨more, rest, Nat.succ.inj hlen, hmore.2, by simp, rfl⟩

theorem decode_eq_ok_iff {className : String} {bytes : List UInt8} {t : Table} :
    decode className bytes = .ok t ↔ t.WellFormed ∧ t.encode <+: bytes := by
  unfold decode
  constructor
  · intro h
    split at h
    · cases h
    · rename_i n rest hn
      rw [Frame.takeWord?_eq_some_iff] at hn
      split at h
      · rename_i frames hframes
        cases h
        obtain ⟨_, last, hlen, hwell, rfl, rfl⟩ := takeFrames_eq_ok_iff.mp hframes
        refine ⟨⟨?_, hwell⟩, last, ?_⟩
        · show frames.length ≤ 65535
          rw [hlen]
          exact Nat.le_of_lt_succ n.toNat_lt
        · simp [encode, hn, hlen]
      · cases h
  · rintro ⟨ht, rest, rfl⟩
    have hcount : (UInt16.ofNat t.frames.length).toNat = t.frames.length :=
      UInt16.toNat_ofNat_of_lt' (Nat.lt_succ_of_le ht.count)
    have hframes : takeFrames t.frames.length [] (t.frames.flatMap Frame.encode ++ rest) = .ok t.frames :=
      takeFrames_eq_ok_iff.mpr ⟨t.frames, rest, rfl, ht.frames, rfl, rfl⟩
    have hword : Frame.takeWord? (t.encode ++ rest) =
        some (UInt16.ofNat t.frames.length, t.frames.flatMap Frame.encode ++ rest) :=
      Frame.takeWord?_eq_some_iff.mpr (by simp [encode])
    rw [hword]
    simp only [hcount, hframes]

theorem of_decode_error {className : String} {bytes : List UInt8} {e : ClassError}
    (h : decode className bytes = .error e) :
    ∃ pos, pos ≤ bytes.length ∧ e = .format className pos .malformedStackMap := by
  unfold decode at h
  split at h
  · cases h
    exact ⟨0, Nat.zero_le _, rfl⟩
  · split at h
    · cases h
    · cases h
      exact ⟨_, Nat.sub_le .., rfl⟩

/-- Reading is the inverse of writing, on all bytes: a table is read exactly where a well-formed
one is written at the front, and that one; everything else is a format error inside the bytes. -/
theorem decode_exact (className : String) (bytes : List UInt8) :
    (∀ t, decode className bytes = .ok t ↔ t.WellFormed ∧ t.encode <+: bytes) ∧
      ((∃ pos, pos ≤ bytes.length ∧ decode className bytes = .error (.format className pos .malformedStackMap)) ↔
        ¬ ∃ t : Table, t.WellFormed ∧ t.encode <+: bytes) := by
  refine ⟨fun t => decode_eq_ok_iff, ?_, ?_⟩
  · rintro ⟨pos, _, herror⟩ ⟨t, ht⟩
    rw [decode_eq_ok_iff.mpr ht] at herror
    cases herror
  · intro hnone
    cases h : decode className bytes with
    | ok t => exact absurd ⟨t, decode_eq_ok_iff.mp h⟩ hnone
    | error e =>
      obtain ⟨pos, hle, rfl⟩ := of_decode_error h
      exact ⟨pos, hle, rfl⟩

end Table
end ClassCatalog.StackMap
