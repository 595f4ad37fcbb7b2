import ClassCatalog.Proofs.Cache.Recency
import ClassCatalog.Proofs.Cache.Sound

/-! The byte cache is an ideal cache by last use.

`Mirrors` relates a cache to a list of entries by last use: the same entries in the order of
their stamps. Every request keeps it and is answered the same on both sides, so
`answers_eq_recency` holds of every run, whatever the hash function. -/
namespace ClassCatalog.Cache

/-! ### The relation -/

/-- The key and bytes of a slot. -/
def Slot.entry (s : Slot) : String × Bytes := (s.key, s.bytes)

/-- `m` lists the entries of `c` by their stamps, which lie in the past. -/
structure Mirrors (m : Recency) (c : ByteCache) : Prop where
  sound : c.Sound
  past : ∀ s ∈ c.contents, s.stamp ≤ c.clock
  order : ∃ l : List Slot, l.Perm c.contents ∧ l.Pairwise (fun s t => s.stamp < t.stamp) ∧
    m.entries = l.map Slot.entry
  limit : m.limit = limitOf c.capacity

/-! ### Steps on both sides -/

namespace Mirrors
variable {m : Recency} {c d : ByteCache} {s t : Slot} {key : String}

theorem entries_without (l : List Slot) (h : m.entries = l.map Slot.entry) (key : String) :
    m.without key = (others key l).map Slot.entry := by
  rw [Recency.without, h, List.filter_map]
  rfl

theorem find?_of_mem (h : Mirrors m c) (hs : s ∈ c.contents) : m.find? s.key = some s.bytes := by
  obtain ⟨l, hperm, _, hentries⟩ := h.order
  have hsl := hperm.mem_iff.mpr hs
  have hkeys := ((hperm.map Slot.key).nodup_iff).mpr h.sound.keys
  unfold Recency.find?
  rw [hentries, List.find?_map]
  cases hfind : l.find? ((fun e => decide (e.1 = s.key)) ∘ Slot.entry) with
  | none =>
    have := List.find?_eq_none.mp hfind s hsl
    simp [Slot.entry] at this
  | some t =>
    have htkey : t.key = s.key := by
      have := List.find?_some hfind
      exact of_decide_eq_true this
    rw [List.inj_on_of_nodup_map hkeys (List.mem_of_find?_eq_some hfind) hsl htkey]
    rfl

theorem find?_eq_none (h : Mirrors m c) (hno : ∀ s ∈ c.contents, s.key ≠ key) : m.find? key = none := by
  obtain ⟨l, hperm, _, hentries⟩ := h.order
  unfold Recency.find?
  rw [hentries, List.find?_map, List.find?_eq_none.mpr]
  · rfl
  · intro t ht e
    exact hno t (hperm.mem_iff.mp ht) (of_decide_eq_true e)

/-- A key is found on both sides or on neither. -/
theorem contains_eq (h : Mirrors m c) (key : String) : c.contains key = m.contains key := by
  unfold ByteCache.contains Recency.contains
  cases hfind : c.find? key with
  | none =>
    rw [h.find?_eq_none ((ByteCache.find?_eq_none_iff h.sound.reachable h.sound.keys).mp hfind)]
    rfl
  | some i =>
    obtain ⟨s, hi, rfl⟩ := ByteCache.slot?_of_probe hfind
    rw [h.find?_of_mem (ByteCache.mem_contents.mpr ⟨i, hi⟩)]
    rfl

theorem size_eq (h : Mirrors m c) : c.size = m.entries.length := by
  obtain ⟨l, hperm, _, hentries⟩ := h.order
  rw [h.sound.size, hentries, List.length_map, hperm.length_eq]

theorem without_of_missed (h : Mirrors m c) (hno : ∀ s ∈ c.contents, s.key ≠ key) :
    m.without key = m.entries := by
  obtain ⟨l, hperm, _, hentries⟩ := h.order
  rw [entries_without l hentries, others_of_not_mem fun s hs => hno s (hperm.mem_iff.mp hs), hentries]

/-- The cache after an entry has been stamped with the present time or put in with it. -/
theorem touch (h : Mirrors m c) (hd : d.Sound) (hcap : d.capacity = c.capacity)
    (hperm : d.contents.Perm (t :: others t.key c.contents)) (hnow : t.stamp = d.clock)
    (hlater : ∀ s ∈ c.contents, s.stamp < t.stamp) : Mirrors (m.touch t.key t.bytes) d := by
  obtain ⟨l, hl, hsorted, hentries⟩ := h.order
  have hpast : ∀ s ∈ others t.key l, s.stamp < t.stamp := by
    intro s hs
    exact hlater s (hl.mem_iff.mp (List.mem_filter.mp hs).1)
  have hperm' : (others t.key l ++ [t]).Perm d.contents :=
    (List.perm_append_singleton t _).trans (((others_perm hl).cons t).trans hperm.symm)
  refine ⟨hd, fun s hs => ?_, ⟨others t.key l ++ [t], hperm', ?_, ?_⟩, by rw [hcap]; exact h.limit⟩
  · rcases List.mem_append.mp (hperm'.mem_iff.mpr hs) with hs | hs
    · have := hpast s hs
      omega
    · rw [List.mem_singleton.mp hs, hnow]
  · rw [List.pairwise_append]
    refine ⟨hsorted.filter _, List.pairwise_singleton _ _, fun a ha b hb => ?_⟩
    rw [List.mem_singleton.mp hb]
    exact hpast a ha
  · rw [List.map_append, ← entries_without l hentries]
    rfl

/-- The cache after an entry has been taken out. -/
theorem drop (h : Mirrors m c) (hd : d.Sound) (hcap : d.capacity = c.capacity)
    (hclock : d.clock = c.clock) (hperm : d.contents.Perm (others key c.contents)) :
    Mirrors { m with entries := m.without key } d := by
  obtain ⟨l, hl, hsorted, hentries⟩ := h.order
  refine ⟨hd, fun s hs => ?_, ⟨others key l, (others_perm hl).trans hperm.symm, hsorted.filter _,
    entries_without l hentries key⟩, by rw [hcap]; exact h.limit⟩
  rw [hclock]
  exact h.past s (List.mem_filter.mp (hperm.mem_iff.mp hs)).1

theorem past_lt (h : Mirrors m c) : ∀ s ∈ c.contents, s.stamp < c.clock + 1 :=
  fun s hs => Nat.lt_succ_of_le (h.past s hs)

/-- The clock alone may run on. -/
theorem tick (h : Mirrors m c) : Mirrors m { c with clock := c.clock + 1 } :=
  ⟨⟨h.sound.roomy, h.sound.reachable, h.sound.keys, h.sound.size, h.sound.limit⟩,
    fun s hs => Nat.le_succ_of_le (h.past s hs), h.order, h.limit⟩

/-- The entry with the least stamp is the first of the list. -/
theorem without_oldest (h : Mirrors m c) (hs : s ∈ c.contents)
    (holdest : ∀ t ∈ c.contents, s.stamp ≤ t.stamp) : m.without s.key = m.entries.tail := by
  obtain ⟨l, hl, hsorted, hentries⟩ := h.order
  have hsl := hl.mem_iff.mpr hs
  have hkeys := ((hl.map Slot.key).nodup_iff).mpr h.sound.keys
  cases l with
  | nil => cases hsl
  | cons a rest =>
    have ha : a = s := by
      rcases List.mem_cons.mp hsl with rfl | hrest
      · rfl
      · have := List.rel_of_pairwise_cons hsorted hrest
        have := holdest a (hl.mem_iff.mp (List.mem_cons_self ..))
        omega
    subst ha
    rw [List.map_cons, List.nodup_cons] at hkeys
    have hothers : others a.key (a :: rest) = rest := by
      have hrest : others a.key rest = rest := others_of_not_mem fun t ht e =>
        hkeys.1 (e ▸ List.mem_map_of_mem ht)
      rw [← hrest]
      simp [others]
    rw [entries_without _ hentries, hothers, hentries]
    rfl

/-! ### Requests on both sides -/

theorem new (hash : String → Nat) (capacity : Nat) :
    Mirrors (Recency.new (limitOf (max capacity 4))) (ByteCache.new hash capacity) := by
  have hcap : (ByteCache.new hash capacity).capacity = max capacity 4 := by
    simp [ByteCache.new, ByteCache.capacity]
  have hnone : ∀ i, (ByteCache.new hash capacity).slot? i = none := by
    intro i
    simp only [ByteCache.slot?, ByteCache.new, Array.getElem?_replicate]
    split <;> rfl
  have hempty : (ByteCache.new hash capacity).contents = [] := by
    rw [List.eq_nil_iff_forall_not_mem]
    intro s hs
    obtain ⟨i, hi⟩ := ByteCache.mem_contents.mp hs
    rw [hnone] at hi
    cases hi
  refine ⟨⟨by rw [hcap]; exact Nat.le_max_right .., fun i s hi => ?_, ?_, ?_, ?_⟩, fun s hs => ?_,
    ⟨[], ?_, List.Pairwise.nil, rfl⟩, by rw [hcap]; rfl⟩
  · rw [hnone] at hi
    cases hi
  · rw [hempty]
    exact List.nodup_nil
  · rw [hempty]
    rfl
  · rw [hempty]
    exact Nat.zero_le _
  · rw [hempty] at hs
    cases hs
  · rw [hempty]

theorem clear (h : Mirrors m c) : Mirrors (Recency.new m.limit) c.clear := by
  have hnew := new c.hash c.capacity
  rw [Nat.max_eq_left h.sound.roomy, ← h.limit] at hnew
  exact hnew

/-- A slot found for a key, with its entry. -/
theorem found {i : Nat} (hfind : c.find? key = some i) : ∃ s, c.slot? i = some s ∧ s.key = key ∧ s ∈ c.contents := by
  obtain ⟨s, hi, hkey⟩ := ByteCache.slot?_of_probe hfind
  exact ⟨s, hi, hkey, ByteCache.mem_contents.mpr ⟨i, hi⟩⟩

theorem missed (h : Mirrors m c) (hfind : c.find? key = none) : ∀ s ∈ c.contents, s.key ≠ key :=
  (ByteCache.find?_eq_none_iff h.sound.reachable h.sound.keys).mp hfind

theorem get (h : Mirrors m c) (key : String) :
    (c.get key).1 = (m.get key).1 ∧ Mirrors (m.get key).2 (c.get key).2 := by
  unfold ByteCache.get Recency.get
  cases hfind : c.find? key with
  | none =>
    rw [h.find?_eq_none (h.missed hfind)]
    exact ⟨rfl, h⟩
  | some i =>
    obtain ⟨s, hi, rfl, hs⟩ := found hfind
    simp only [hi, h.find?_of_mem hs, true_and]
    let d : ByteCache := { c with
      slots := c.slots.setIfInBounds i (some { s with stamp := c.clock + 1 }), clock := c.clock + 1 }
    obtain ⟨hd, hperm⟩ := h.sound.replace (d := d) (t := { s with stamp := c.clock + 1 }) hi rfl rfl rfl rfl
    exact h.touch (t := { s with stamp := c.clock + 1 }) hd
      (ByteCache.capacity_assign (c := c) (d := d) rfl) hperm rfl h.past_lt

theorem remove (h : Mirrors m c) (key : String) :
    (c.remove key).1 = (m.remove key).1 ∧ Mirrors (m.remove key).2 (c.remove key).2 := by
  unfold ByteCache.remove Recency.remove
  cases hfind : c.find? key with
  | none =>
    have hno := h.missed hfind
    refine ⟨(h.find?_eq_none hno).symm, h.drop h.sound rfl rfl ?_⟩
    rw [others_of_not_mem hno]
  | some i =>
    obtain ⟨s, hi, rfl, hs⟩ := found hfind
    obtain ⟨hd, _, hcap, hclock, hperm⟩ := h.sound.vacate hi
    simp only [hi, h.find?_of_mem hs, Option.map_some]
    exact ⟨trivial, h.drop hd hcap hclock hperm⟩

/-- Making room costs the first entry when the limit is reached, and nothing otherwise. -/
theorem makeRoom (h : Mirrors m c) :
    Mirrors { m with entries := if m.entries.length = m.limit then m.entries.tail else m.entries }
        c.makeRoom ∧
      c.makeRoom.capacity = c.capacity ∧ c.makeRoom.clock = c.clock ∧
      c.makeRoom.contents.length < limitOf c.capacity ∧ c.makeRoom.contents.Subset c.contents := by
  have hlimit := h.sound.limit
  have hlen := h.size_eq
  have hsize := h.sound.size
  have hm := h.limit
  unfold ByteCache.makeRoom
  by_cases hfull : c.capacity * 3 / 4 < c.size
  · have hreached : m.entries.length = m.limit := by
      unfold limitOf at hlimit hm
      omega
    have hne : c.contents ≠ [] := by
      intro e
      rw [e] at hsize
      simp only [List.length_nil] at hsize
      omega
    obtain ⟨i, s, hold, hi, hleast⟩ := ByteCache.oldest?_spec hne
    have hs := ByteCache.mem_contents.mpr ⟨i, hi⟩
    obtain ⟨hd, _, hcap, hclock, hperm⟩ := h.sound.vacate hi
    have hshorter : (others s.key c.contents).length < c.contents.length := by
      rw [others, List.length_filter_lt_length_iff_exists]
      exact ⟨s, hs, by simp⟩
    rw [if_pos hfull, if_pos hreached, ByteCache.evictOldest, hold]
    rw [← h.without_oldest hs hleast]
    refine ⟨h.drop hd hcap hclock hperm, hcap, hclock, ?_, fun t ht => ?_⟩
    · rw [hperm.length_eq]
      omega
    · exact (List.mem_filter.mp (hperm.mem_iff.mp ht)).1
  · have hbelow : m.entries.length ≠ m.limit := by
      unfold limitOf at hm
      omega
    rw [if_neg hfull, if_neg hbelow]
    refine ⟨h, rfl, rfl, ?_, fun t ht => ht⟩
    unfold limitOf
    omega

theorem put (h : Mirrors m c) (key : String) (bytes : Bytes) :
    Mirrors (m.put key bytes) (c.put key bytes) := by
  have htick := h.tick
  let now : ByteCache := { c with clock := c.clock + 1 }
  unfold ByteCache.put Recency.put
  rw [← htick.contains_eq key]
  cases hfind : now.find? key with
  | some i =>
    obtain ⟨s, hi, rfl, hs⟩ := found hfind
    have hcontains : now.contains s.key = true := by
      rw [ByteCache.contains, hfind]
      rfl
    simp only [now, hfind, hcontains, Bool.not_true, Bool.false_and, Bool.false_eq_true, if_false]
    let d : ByteCache := { now with
      slots := now.slots.setIfInBounds i (some ⟨s.key, bytes, now.clock⟩) }
    obtain ⟨hd, hperm⟩ := htick.sound.replace (d := d) (t := ⟨s.key, bytes, now.clock⟩) hi rfl rfl rfl rfl
    exact h.touch (t := ⟨s.key, bytes, now.clock⟩) hd
      (ByteCache.capacity_assign (c := c) (d := d) rfl) hperm rfl h.past_lt
  | none =>
    have hcontains : now.contains key = false := by
      rw [ByteCache.contains, hfind]
      rfl
    simp only [now, hfind, hcontains, Bool.not_false, Bool.true_and, beq_iff_eq]
    obtain ⟨hroom, hcap, hclock, hlen, hsub⟩ := htick.makeRoom
    have hno : ∀ s ∈ now.makeRoom.contents, s.key ≠ key := fun s hs =>
      htick.missed hfind s (hsub hs)
    obtain ⟨_, hd, hdcap, hdclock, hperm⟩ := hroom.sound.insertNew bytes hno (by rw [hcap]; exact hlen)
    rw [← others_of_not_mem hno] at hperm
    have hput := hroom.touch (t := ⟨key, bytes, now.makeRoom.clock⟩) hd hdcap hperm hdclock.symm
      fun s hs => by
        show s.stamp < now.makeRoom.clock
        rw [hclock]
        exact h.past_lt s (hsub hs)
    rw [Recency.touch, hroom.without_of_missed hno] at hput
    split
    · rename_i hreached
      simpa only [hreached, if_true] using hput
    · rename_i hbelow
      rw [Recency.touch, h.without_of_missed fun s hs => htick.missed hfind s hs]
      simpa only [hbelow, if_false] using hput

theorem serve (h : Mirrors m c) (r : Request) :
    (ByteCache.serve r c).1 = (Recency.serve r m).1 ∧
      Mirrors (Recency.serve r m).2 (ByteCache.serve r c).2 := by
  cases r with
  | put key bytes => exact ⟨rfl, h.put key bytes⟩
  | get key => exact ⟨congrArg Answer.bytes (h.get key).1, (h.get key).2⟩
  | contains key => exact ⟨congrArg Answer.present (h.contains_eq key), h⟩
  | remove key => exact ⟨congrArg Answer.bytes (h.remove key).1, (h.remove key).2⟩
  | clear => exact ⟨rfl, h.clear⟩
  | length => exact ⟨congrArg Answer.length h.size_eq, h⟩

theorem answers (h : Mirrors m c) (requests : List Request) :
    (Cache.answers ByteCache.serve requests c).1 = (Cache.answers Recency.serve requests m).1 ∧
      Mirrors (Cache.answers Recency.serve requests m).2 (Cache.answers ByteCache.serve requests c).2 := by
  induction requests generalizing m c with
  | nil => exact ⟨rfl, h⟩
  | cons r rest ih =>
    obtain ⟨hanswer, hnext⟩ := h.serve r
    obtain ⟨hrest, hend⟩ := ih hnext
    refine ⟨?_, hend⟩
    show (ByteCache.serve r c).1 :: _ = (Recency.serve r m).1 :: _
    rw [hanswer, hrest]

end Mirrors

/-! ### The loops -/

/-- The loops that have no bound of their own come to an end: the walk over the gap an entry would
leave, at whatever time, and the search for an empty slot once there is room for a new key. -/
structure ByteCache.LoopsEnd (c : ByteCache) : Prop where
  gap : ∀ i s clock, c.slot? i = some s →
    ({ c with slots := c.slots.setIfInBounds i none, size := c.size - 1, clock }.shiftBack
      c.gapFuel i i).isSome
  room : ∀ key, c.contains key = false →
    let roomy := { c with clock := c.clock + 1 }.makeRoom
    (roomy.vacant? roomy.capacity (roomy.home key)).isSome

theorem Mirrors.loopsEnd {m : Recency} {c : ByteCache} (h : Mirrors m c) : c.LoopsEnd where
  gap i s clock hi := by
    let d : ByteCache := { c with
      slots := c.slots.setIfInBounds i none, size := c.size - 1, clock }
    have hd : d.slots = c.slots.setIfInBounds i none := rfl
    obtain ⟨e, he, _⟩ := ByteCache.closeGap_spec h.sound.reachable (ByteCache.slot?_lt hi) hd rfl
    have hfuel : d.gapFuel = c.gapFuel := by
      simp only [ByteCache.gapFuel, ByteCache.capacity_assign hd]
    rw [← hfuel, he]
    rfl
  room key hno := by
    obtain ⟨hroom, hcap, _, hlen, hsub⟩ := h.tick.makeRoom
    have hfind : c.find? key = none := by
      rw [← Option.not_isSome_iff_eq_none]
      exact Bool.eq_false_iff.mp hno
    exact (hroom.sound.insertNew #[] (fun s hs => h.missed hfind s (hsub hs))
      (by rw [hcap]; exact hlen)).1

/-- **The byte cache is an ideal cache by last use.** Whatever the hash function, the capacity and
the requests, all answers are those of a list that keeps at most three quarters of the slots and
one more; the two agree on every key and on the number of entries, and every loop ends. -/
theorem answers_eq_recency (hash : String → Nat) (capacity : Nat) (requests : List Request) :
    let c := answers ByteCache.serve requests (.new hash capacity)
    let m := answers Recency.serve requests (.new (max capacity 4 * 3 / 4 + 1))
    c.1 = m.1 ∧ (∀ key, c.2.contains key = m.2.contains key) ∧
      c.2.size = m.2.entries.length ∧ m.2.entries.length ≤ max capacity 4 * 3 / 4 + 1 ∧
      c.2.LoopsEnd := by
  obtain ⟨hanswers, hend⟩ := (Mirrors.new hash capacity).answers requests
  have hlimit := Recency.limit_answers requests (.new (max capacity 4 * 3 / 4 + 1))
  refine ⟨hanswers, hend.contains_eq, hend.size_eq, ?_, hend.loopsEnd⟩
  have hsize := hend.size_eq.symm.trans hend.sound.size
  exact Nat.le_trans (Nat.le_of_eq hsize)
    (Nat.le_trans hend.sound.limit (Nat.le_of_eq (hend.limit.symm.trans hlimit)))

end ClassCatalog.Cache
