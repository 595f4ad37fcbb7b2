import Mathlib.Data.Finset.Card
import ClassCatalog.Proofs.Loader

/-! Ancestries are complete.

An ancestry is cut off after as many steps as the graph has slots, so that a wrong table cannot keep it going.
Nothing is lost by that. Whoever has a parent has a slot; so a walk that is cut off has met some loader twice
(`exists_repeat`), and from there on it has been going round. Hence all that parents lead to is met
(`mem_ancestry_of_reaches`), and a walk that does not go round is never cut off: it comes to the root or to a loader
whose parent is not known (`Lineage`). -/
namespace ClassCatalog.Loader.Graph
variable {g : Graph} {l a p m : LoaderId} {i j n : Nat}

/-- `a` is reached from `l` through parents, or is `l`. -/
def Reaches (g : Graph) (l a : LoaderId) : Prop := Relation.ReflTransGen (fun m p => g.parent? m = some p) l a

/-! ### Step by step -/

/-- The loader `n` steps up the walk from `l`, if the walk goes that far. -/
def climb (g : Graph) : Nat → LoaderId → Option LoaderId
  | 0, l => some l
  | n + 1, l => (g.next? l).bind (climb g n)

theorem climb_add (g : Graph) (i j : Nat) (l : LoaderId) : g.climb (i + j) l = (g.climb i l).bind (g.climb j) := by
  induction i generalizing l with
  | zero => rw [Nat.zero_add]; rfl
  | succ i ih =>
    rw [Nat.succ_add]
    show (g.next? l).bind (g.climb (i + j)) = ((g.next? l).bind (g.climb i)).bind (g.climb j)
    rw [Option.bind_assoc]
    exact Option.bind_congr fun p _ => ih p

theorem exists_climb_of_le (h : g.climb n l ≠ .none) (hi : i ≤ n) : ∃ m, g.climb i l = some m := by
  obtain ⟨j, rfl⟩ := Nat.exists_eq_add_of_le hi
  rw [climb_add] at h
  cases hm : g.climb i l with
  | none =>
    rw [hm] at h
    exact absurd rfl h
  | some m => exact ⟨m, rfl⟩

/-- After two visits to one loader the walk goes on as it did after the first. -/
theorem climb_skip (hi : g.climb i l = some m) (hj : g.climb j l = some m) (n : Nat) :
    g.climb (i + n) l = g.climb (j + n) l := by
  rw [climb_add, climb_add, hi, hj]

theorem mem_walk_iff {steps : Nat} : a ∈ g.walk steps l ↔ ∃ n ≤ steps, g.climb n l = some a := by
  induction steps generalizing l with
  | zero => simp [walk, climb, eq_comm]
  | succ steps ih =>
    unfold walk
    rw [List.mem_cons]
    constructor
    · rintro (rfl | h)
      · exact ⟨0, Nat.zero_le _, rfl⟩
      · cases hp : g.next? l with
        | none =>
          rw [hp] at h
          cases h
        | some p =>
          rw [hp] at h
          obtain ⟨n, hn, hclimb⟩ := ih.mp h
          exact ⟨n + 1, Nat.succ_le_succ hn, by rw [climb, hp]; exact hclimb⟩
    · rintro ⟨_ | n, hn, hclimb⟩
      · exact .inl (Option.some.inj hclimb).symm
      · obtain ⟨p, hp, hclimb⟩ := Option.bind_eq_some_iff.mp hclimb
        rw [hp]
        exact .inr (ih.mpr ⟨n, Nat.le_of_succ_le_succ hn, hclimb⟩)

theorem reaches_of_climb (h : g.climb n l = some a) : g.Reaches l a :=
  of_mem_walk (mem_walk_iff.mpr ⟨n, le_refl n, h⟩)

/-! ### Going round -/

/-- Whoever has a parent has a slot. -/
theorem toNat_lt_of_parent? (h : g.parent? l = some p) : 0 ≤ l ∧ l.toNat < g.size := by
  unfold parent? at h
  split at h
  · cases h
  · rename_i hl
    obtain ⟨q, hq, _⟩ := Option.map_eq_some_iff.mp h
    have hslot := (Array.getElem?_eq_some_iff.mp (Option.join_eq_some_iff.mp hq)).1
    exact ⟨Int.not_lt.mp hl, hslot⟩

/-- A walk that has gone on for longer than there are slots has met a loader twice. -/
theorem exists_repeat (h : g.climb (g.size + 1) l ≠ .none) :
    ∃ i j m, i < j ∧ j ≤ g.size ∧ g.climb i l = some m ∧ g.climb j l = some m := by
  have hmet (n : Nat) (hn : n ≤ g.size) : ∃ m p, g.climb n l = some m ∧ g.next? m = some p := by
    obtain ⟨p, hp⟩ := exists_climb_of_le h (Nat.succ_le_succ hn)
    rw [climb_add g n 1] at hp
    obtain ⟨m, hm, hp⟩ := Option.bind_eq_some_iff.mp hp
    obtain ⟨p, hp, _⟩ := Option.bind_eq_some_iff.mp hp
    exact ⟨m, p, hm, hp⟩
  choose! visited next hvisited hnext using hmet
  have hslot (n : Nat) (hn : n ≤ g.size) := toNat_lt_of_parent? (parent?_of_next? (hnext n hn))
  obtain ⟨i, hi, j, hj, hne, heq⟩ := Finset.exists_ne_map_eq_of_card_lt_of_maps_to
    (s := Finset.range (g.size + 1)) (t := Finset.range g.size) (f := fun n => (visited n).toNat) (by simp)
    (fun n hn => Finset.mem_coe.mpr (Finset.mem_range.mpr (hslot n (by simpa [Nat.lt_succ_iff] using hn)).2))
  have hi : i ≤ g.size := Nat.lt_succ_iff.mp (Finset.mem_range.mp hi)
  have hj : j ≤ g.size := Nat.lt_succ_iff.mp (Finset.mem_range.mp hj)
  have hsame : visited i = visited j := by
    rw [← Int.toNat_of_nonneg (hslot i hi).1, ← Int.toNat_of_nonneg (hslot j hj).1, heq]
  rcases Nat.lt_or_gt_of_ne hne with hlt | hlt
  · exact ⟨i, j, visited i, hlt, hj, hvisited i hi, hsame ▸ hvisited j hj⟩
  · exact ⟨j, i, visited j, hlt, hi, hvisited j hj, hsame ▸ hvisited i hi⟩

/-- What a walk of any length comes to it comes to within as many steps as there are slots: of two visits to one
loader the steps between them can be left out. -/
theorem mem_ancestry_of_climb (h : g.climb n l = some a) : a ∈ g.ancestry l := by
  induction n using Nat.strong_induction_on with
  | _ n ih =>
    by_cases hn : n ≤ g.size
    · exact mem_walk_iff.mpr ⟨n, hn, h⟩
    · have hlong : g.climb n l ≠ .none := by rw [h]; exact Option.some_ne_none a
      obtain ⟨m, hm⟩ := exists_climb_of_le hlong (Nat.lt_of_not_le hn)
      obtain ⟨i, j, m, hlt, hj, hi, hm⟩ := exists_repeat (g := g) (l := l) (by rw [hm]; exact Option.some_ne_none _)
      have hskip := climb_skip hi hm (n - j)
      rw [Nat.add_sub_cancel' (by omega), h] at hskip
      exact ih _ (by omega) hskip

/-! ### The root -/

/-- The root is its own parent. -/
def Grounded (g : Graph) : Prop := g.parent? root = some root

theorem eq_of_next?_eq_none (hg : g.Grounded) (h : g.next? l = .none) (hp : g.parent? l = some p) : p = l := by
  unfold next? at h
  split at h
  · rename_i hroot
    rw [hroot] at hp ⊢
    exact Option.some.inj (hp.symm.trans hg)
  · rw [hp, Option.filter_some] at h
    split at h
    · cases h
    · rename_i hne
      simpa using hne

/-- The walk comes to all that parents lead to. -/
theorem exists_climb_of_reaches (hg : g.Grounded) (h : g.Reaches l a) : ∃ n, g.climb n l = some a := by
  induction h using Relation.ReflTransGen.head_induction_on with
  | refl => exact ⟨0, rfl⟩
  | @head l p hp _ ih =>
    obtain ⟨n, hn⟩ := ih
    cases hnext : g.next? l with
    | none => exact ⟨n, eq_of_next?_eq_none hg hnext hp ▸ hn⟩
    | some q =>
      cases hp.symm.trans (parent?_of_next? hnext)
      exact ⟨n + 1, by rw [climb, hnext]; exact hn⟩

theorem mem_ancestry_of_reaches (hg : g.Grounded) (h : g.Reaches l a) : a ∈ g.ancestry l := by
  obtain ⟨n, hn⟩ := exists_climb_of_reaches hg h
  exact mem_ancestry_of_climb hn

theorem isAncestor_iff (hg : g.Grounded) : g.isAncestor a l = true ↔ a ≠ l ∧ g.Above l a := by
  refine ⟨above_of_isAncestor, fun ⟨hne, habove⟩ => ?_⟩
  exact (mem_ancestry.mp (mem_ancestry_of_reaches hg habove.to_reflTransGen)).resolve_left hne

theorem eq_root_of_reaches (hg : g.Grounded) (h : g.Reaches root a) : a = root := by
  induction h with
  | refl => rfl
  | tail _ hstep ih =>
    subst ih
    exact Option.some.inj (hstep.symm.trans hg)

/-! ### Complete chains -/

/-- `chain` has `l` and all that parents lead to from it, each followed by its parent: it ends at the root or at the
first loader without a known parent. -/
inductive Lineage (g : Graph) : LoaderId → List LoaderId → Prop
  | root : Lineage g root [root]
  | unknown {l : LoaderId} (h : g.parent? l = .none) : Lineage g l [l]
  | parent {l p : LoaderId} {chain : List LoaderId} (hl : l ≠ Loader.root) (hp : g.parent? l = some p)
    (h : Lineage g p chain) : Lineage g l (l :: chain)

/-- The only cycle that the parents of `l` lead into is that of the root. -/
def Straight (g : Graph) (l : LoaderId) : Prop := ∀ m, g.Reaches l m → g.Above m m → m = root

theorem Straight.parent (h : g.Straight l) (hp : g.parent? l = some p) : g.Straight p :=
  fun m hm => h m (.head hp hm)

theorem above_of_climb (hij : i < j) (hi : g.climb i l = some m) (hj : g.climb j l = some m) :
    g.Above m m ∧ m ≠ root := by
  obtain ⟨k, rfl⟩ := Nat.exists_eq_add_of_lt hij
  rw [Nat.add_assoc, climb_add, hi, Option.bind_some] at hj
  obtain ⟨p, hp, hclimb⟩ := Option.bind_eq_some_iff.mp hj
  refine ⟨.head' (parent?_of_next? hp) (reaches_of_climb hclimb), ?_⟩
  rintro rfl
  cases hp

theorem Straight.not_repeat (h : g.Straight l) (hij : i < j) (hi : g.climb i l = some m) :
    g.climb j l ≠ some m := by
  intro hj
  obtain ⟨habove, hne⟩ := above_of_climb hij hi hj
  exact hne (h m (reaches_of_climb hi) habove)

/-- A straight walk ends before the steps run out. -/
theorem Straight.climb_eq_none (h : g.Straight l) : g.climb (g.size + 1) l = .none := by
  by_contra hlong
  obtain ⟨i, j, m, hij, _, hi, hj⟩ := exists_repeat hlong
  exact h.not_repeat hij hi hj

theorem Straight.lineage_of_next? (h : g.Straight l) (hnext : g.next? l = .none) : g.Lineage l [l] := by
  by_cases hl : l = Loader.root
  · subst hl
    exact .root
  · cases hp : g.parent? l with
    | none => exact .unknown hp
    | some p =>
      have hself : p = l := by
        unfold next? at hnext
        rw [if_neg hl, hp, Option.filter_some] at hnext
        split at hnext
        · cases hnext
        · rename_i hne
          simpa using hne
      subst hself
      exact absurd (h p .refl (.single hp)) hl

theorem Straight.lineage_walk {steps : Nat} (h : g.Straight l) (hend : g.climb (steps + 1) l = .none) :
    g.Lineage l (g.walk steps l) := by
  induction steps generalizing l with
  | zero =>
    refine h.lineage_of_next? ?_
    cases hnext : g.next? l with
    | none => rfl
    | some p =>
      rw [climb, hnext] at hend
      cases hend
  | succ steps ih =>
    unfold walk
    cases hnext : g.next? l with
    | none => exact h.lineage_of_next? hnext
    | some p =>
      have hp := parent?_of_next? hnext
      have hl : l ≠ Loader.root := by
        rintro rfl
        cases hnext
      rw [climb, hnext] at hend
      exact .parent hl hp (ih (h.parent hp) hend)

theorem Straight.nodup_walk {steps : Nat} (h : g.Straight l) : (g.walk steps l).Nodup := by
  induction steps generalizing l with
  | zero => exact List.nodup_singleton l
  | succ steps ih =>
    unfold walk
    cases hnext : g.next? l with
    | none => exact List.nodup_singleton l
    | some p =>
      refine List.nodup_cons.mpr ⟨fun hmem => ?_, ih (h.parent (parent?_of_next? hnext))⟩
      obtain ⟨n, _, hn⟩ := mem_walk_iff.mp hmem
      exact h.not_repeat (Nat.succ_pos n) rfl (by rw [climb, hnext]; exact hn)

/-- What has a complete chain does not go round. -/
theorem Lineage.straight (hg : g.Grounded) {chain : List LoaderId} (h : g.Lineage l chain) : g.Straight l := by
  induction h with
  | root => exact fun m hm _ => eq_root_of_reaches hg hm
  | @unknown l hl =>
    intro m hm habove
    have hnone (q : LoaderId) : ¬ g.parent? l = some q := fun hq => nomatch hl.symm.trans hq
    rcases Relation.ReflTransGen.cases_head hm with rfl | ⟨q, hq, _⟩
    · obtain ⟨q, hq, _⟩ := Relation.TransGen.head'_iff.mp habove
      exact absurd hq (hnone q)
    · exact absurd hq (hnone q)
  | @parent l p chain hl hp _ ih =>
    intro m hm habove
    rcases Relation.ReflTransGen.cases_head hm with rfl | ⟨q, hq, hqm⟩
    · obtain ⟨q, hq, hql⟩ := Relation.TransGen.head'_iff.mp habove
      cases hp.symm.trans hq
      exact ih l hql habove
    · cases hp.symm.trans hq
      exact ih m hqm habove

/-! ### Recorded graphs -/

/-- The graph that comes of a table and of what has been reported since, child and parent. -/
def recorded (table : List LoaderId) (reports : List (LoaderId × LoaderId)) : Graph :=
  reports.foldl (fun g r => g.add r.1 r.2) (ofTable table)

theorem grounded_of_first (h : g.parents[0]? = some (some root)) : g.Grounded := by
  unfold Grounded parent?
  rw [if_neg (by decide), show root.toNat = 0 from rfl, h]
  rfl

theorem first_ofTable (table : List LoaderId) : (ofTable table).parents[0]? = some (some root) := by
  cases table <;> rfl

theorem first_add (h : g.parents[0]? = some (some root)) (child parent : LoaderId) :
    (g.add child parent).parents[0]? = some (some root) := by
  have hsize : 0 < g.parents.size := (Array.getElem?_eq_some_iff.mp h).1
  unfold add
  split
  · exact h
  · rename_i hchild
    dsimp only
    have hne : child.toNat ≠ 0 := fun hzero => hchild (Int.toNat_eq_zero.mp hzero)
    rw [Array.getElem?_setIfInBounds_ne hne]
    split
    · exact h
    · rw [Array.getElem?_append_left hsize, h]

theorem grounded_recorded (table : List LoaderId) (reports : List (LoaderId × LoaderId)) :
    (recorded table reports).Grounded := by
  refine grounded_of_first ?_
  unfold recorded
  have hfirst := first_ofTable table
  generalize ofTable table = g at hfirst
  induction reports generalizing g with
  | nil => exact hfirst
  | cons r rest ih => exact ih _ (first_add hfirst r.1 r.2)

/-- **Ancestries are complete.** In every graph that comes of a table and of reports, right or wrong, the ancestry of
a loader starts with it and has at most one loader more than there are slots; the ancestors of a loader are all the
others that its parents lead to; and the ancestry is the whole chain of parents, without repetition, exactly if that
chain does not run into a cycle other than the root's. -/
theorem ancestry_exact (table : List LoaderId) (reports : List (LoaderId × LoaderId)) (l : LoaderId) :
    ((recorded table reports).ancestry l).head? = some l ∧
      ((recorded table reports).ancestry l).length ≤ (recorded table reports).size + 1 ∧
      (∀ a, (recorded table reports).isAncestor a l = true ↔ a ≠ l ∧ (recorded table reports).Above l a) ∧
      ((recorded table reports).Straight l ↔
        (recorded table reports).Lineage l ((recorded table reports).ancestry l) ∧
          ((recorded table reports).ancestry l).Nodup) := by
  have hg := grounded_recorded table reports
  generalize recorded table reports = g at hg
  refine ⟨walk_head g _ l, walk_length g _ l, fun a => isAncestor_iff hg, fun h => ?_, fun h => h.1.straight hg⟩
  exact ⟨h.lineage_walk h.climb_eq_none, h.nodup_walk⟩

/-- Loaders 1 and 2 are the parents of each other: each is an ancestor of the other, and the walk is cut off. -/
example : (recorded [0, 2, 1] []).ancestry 1 = [1, 2, 1, 2] ∧ (recorded [0, 2, 1] []).isAncestor 2 1 = true := by
  decide

end ClassCatalog.Loader.Graph
