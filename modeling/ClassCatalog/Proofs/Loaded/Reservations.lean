import Mathlib.Algebra.Order.Ring.Nat
import Mathlib.Order.Interval.Finset.Nat
import ClassCatalog.Proofs.Loaded.StackMap

/-! Entries reserved in the constant pool.

Each purpose is given entries once, behind all that have been given before. The count of the pool stops at
65535, though, and a reservation that goes beyond is answered like any other (`Grants.fits`): it starts where the
pool has ended, and what is reserved next starts where it does. As long as the pool has room for all that is
reserved, no entry is given twice and all that are given are in the pool (`reservations_exact`); what does not fit
is given away twice or lies outside (`not_reserved_apart`). -/
namespace ClassCatalog.LoadedClass

/-- The entries of one reservation. -/
structure Slots where
  start : Nat
  count : Nat
deriving DecidableEq, Repr

namespace Slots

def stop (s : Slots) : Nat := s.start + s.count

def entries (s : Slots) : Finset Nat := Finset.Ico s.start s.stop

/-- Those entries that a pool can have. -/
def existing (s : Slots) : Finset Nat := Finset.Ico s.start (min s.stop poolMax)

end Slots

/-- Reservations one after another, each for a purpose and a number of entries: what is given, and what the class
is afterwards. -/
def reserveAll : LoadedClass → List (Nat × Nat) → List Slots × LoadedClass
  | c, [] => ([], c)
  | c, (purpose, count) :: rest =>
    let reserved := c.reserve purpose count
    let later := reserveAll reserved.2 rest
    (reserved.1.toList.map (⟨·, count⟩) ++ later.1, later.2)

variable {c d : LoadedClass} {purpose count : Nat} {granted : List Slots} {requests : List (Nat × Nat)}

/-! ### One reservation -/

theorem reserve_of_repeated (h : c.poolBases.contains purpose) (count : Nat) :
    c.reserve purpose count = (none, c) := by
  rw [reserve, if_pos h]

theorem reserve_of_new (h : ¬ c.poolBases.contains purpose) (count : Nat) :
    c.reserve purpose count = (some c.poolCount, { c with
      poolBases := c.poolBases.insert purpose c.poolCount
      poolCount := min (c.poolCount + count) poolMax }) := by
  rw [reserve, if_neg h]

/-- A purpose that has its entries keeps them, and one that has asked has them. -/
theorem contains_reserve (c : LoadedClass) (purpose count other : Nat) :
    (c.reserve purpose count).2.poolBases.contains other ↔ c.poolBases.contains other ∨ purpose = other := by
  by_cases h : c.poolBases.contains purpose
  · rw [reserve_of_repeated h]
    exact ⟨.inl, Or.rec id fun heq => heq ▸ h⟩
  · rw [reserve_of_new h, Table.contains, Table.contains, Table.get?_insert]
    by_cases heq : purpose = other <;> simp [heq]

/-! ### Any number of reservations -/

/-- What holds of the entries given between one state of a class and another. -/
structure Grants (c : LoadedClass) (granted : List Slots) (d : LoadedClass) : Prop where
  count : d.poolCount = min (c.poolCount + (granted.map Slots.count).sum) poolMax
  above : ∀ s ∈ granted, c.poolCount ≤ s.start
  below : ∀ s ∈ granted, min s.stop poolMax ≤ d.poolCount
  ordered : granted.Pairwise fun s t => min s.stop poolMax ≤ t.start
  fits : (∀ s ∈ granted, s.stop ≤ d.poolCount) ↔ c.poolCount + (granted.map Slots.count).sum ≤ poolMax

theorem grants_nil (h : c.poolCount ≤ poolMax) : Grants c [] c where
  count := (Nat.min_eq_left h).symm
  above := nofun
  below := nofun
  ordered := .nil
  fits := ⟨fun _ => h, fun _ => nofun⟩

/-- One more reservation before others. -/
theorem Grants.cons {bases : Table Nat Nat} (hmax : c.poolCount ≤ poolMax)
    (h : Grants { c with poolBases := bases, poolCount := min (c.poolCount + count) poolMax } granted d) :
    Grants c (⟨c.poolCount, count⟩ :: granted) d := by
  obtain ⟨hcount, habove, hbelow, hordered, hfits⟩ := h
  simp only at hcount habove hfits
  refine ⟨?_, ?_, ?_, ?_, ?_⟩
  · simp only [List.map_cons, List.sum_cons]
    omega
  · exact List.forall_mem_cons.mpr ⟨Nat.le_refl _, fun s hs =>
      (Nat.le_min.mpr ⟨Nat.le_add_right .., hmax⟩).trans (habove s hs)⟩
  · refine List.forall_mem_cons.mpr ⟨?_, hbelow⟩
    show min (c.poolCount + count) poolMax ≤ d.poolCount
    omega
  · exact .cons (fun s hs => habove s hs) hordered
  · rw [List.forall_mem_cons, hfits]
    simp only [List.map_cons, List.sum_cons, Slots.stop]
    omega

theorem reserveAll_grants (h : c.poolCount ≤ poolMax) (requests : List (Nat × Nat)) :
    Grants c (c.reserveAll requests).1 (c.reserveAll requests).2 := by
  induction requests generalizing c with
  | nil => exact grants_nil h
  | cons request rest ih =>
    obtain ⟨purpose, count⟩ := request
    rw [reserveAll]
    by_cases hpurpose : c.poolBases.contains purpose
    · rw [reserve_of_repeated hpurpose]
      exact ih h
    · rw [reserve_of_new hpurpose]
      exact (ih (Nat.min_le_right _ _)).cons h

theorem contains_reserveAll (c : LoadedClass) (requests : List (Nat × Nat)) (purpose : Nat) :
    (c.reserveAll requests).2.poolBases.contains purpose ↔
      c.poolBases.contains purpose ∨ purpose ∈ requests.map Prod.fst := by
  induction requests generalizing c with
  | nil => simp [reserveAll]
  | cons request rest ih =>
    rw [reserveAll, ih, contains_reserve, List.map_cons, List.mem_cons, or_assoc,
      @eq_comm _ purpose]

/-! ### The count of the pool -/

/-- The count never falls below that of the file, and never passes 65535. -/
theorem Reachable.poolCount (h : c.Reachable) :
    c.record.sections.poolCount.toNat ≤ c.poolCount ∧ c.poolCount ≤ poolMax := by
  refine h.invariant (P := fun c => c.record.sections.poolCount.toNat ≤ c.poolCount ∧ c.poolCount ≤ poolMax)
    (fun record _ _ => ⟨Nat.le_refl _, Nat.le_of_lt_succ record.sections.poolCount.toNat_lt⟩)
    fun {c c'} hc hstep => ?_
  cases hstep with
  | status i f => rwa [changeStatus_eq]
  | reserved purpose count =>
    by_cases hpurpose : c.poolBases.contains purpose
    · rwa [reserve_of_repeated hpurpose]
    · rw [reserve_of_new hpurpose]
      exact ⟨Nat.le_min.mpr ⟨hc.1.trans (Nat.le_add_right ..), hc.1.trans hc.2⟩, Nat.min_le_right _ _⟩
  | _ => exact hc

theorem disjoint_of_le {a b x y : Nat} (h : b ≤ x) : Disjoint (Finset.Ico a b) (Finset.Ico x y) := by
  rw [Finset.disjoint_left]
  intro n hn hn'
  have := Finset.mem_Ico.mp hn
  have := Finset.mem_Ico.mp hn'
  omega

/-- **Reservations.** A purpose that asks again is given nothing and nothing changes. What is given starts behind
the pool of the file; those of the entries that a pool can have are in the pool and given once. All are, if and
only if the pool has room for everything that has been given. -/
theorem reservations_exact (h : c.Reachable) (requests : List (Nat × Nat)) :
    let granted := (c.reserveAll requests).1
    let d := (c.reserveAll requests).2
    (∀ purpose count, (c.poolBase? purpose).isSome ∨ purpose ∈ requests.map Prod.fst →
      d.reserve purpose count = (none, d)) ∧
    (∀ s ∈ granted, c.record.sections.poolCount.toNat ≤ s.start) ∧
    (granted.Pairwise fun s t => Disjoint s.existing t.existing) ∧
    (∀ s ∈ granted, ∀ entry ∈ s.existing, entry < d.poolCount) ∧
    ((granted.Pairwise (fun s t => Disjoint s.entries t.entries) ∧ ∀ s ∈ granted, s.stop ≤ d.poolCount) ↔
      c.poolCount + (granted.map Slots.count).sum ≤ poolMax) := by
  intro granted d
  obtain ⟨horiginal, hmax⟩ := h.poolCount
  obtain ⟨hcount, habove, hbelow, hordered, hfits⟩ := reserveAll_grants hmax requests
  refine ⟨fun purpose count hpurpose => reserve_of_repeated ?_ count, fun s hs => horiginal.trans (habove s hs),
    hordered.imp disjoint_of_le, fun s hs entry hentry => ?_, ?_⟩
  · exact (contains_reserveAll c requests purpose).mpr hpurpose
  · exact (Finset.mem_Ico.mp hentry).2.trans_le (hbelow s hs)
  · rw [← hfits, and_iff_right_iff_imp]
    intro hinside
    refine hordered.imp_of_mem fun {s t} hs _ hst => disjoint_of_le ?_
    -- What ends inside the pool has not been cut off.
    have hstop : s.stop ≤ poolMax := (hinside s hs).trans (hcount ▸ Nat.min_le_right _ _)
    rwa [Nat.min_eq_left hstop] at hst

/-- A class whose pool has three entries. -/
def smallPool : LoadedClass :=
  let record := sampleClass.record
  new { record with sections := { record.sections with poolCount := 3 } } Loader.root (.supplied 0)

theorem reservations_exact_small :
    (smallPool.reserveAll [(1, 4), (2, 5), (1, 6)]).1 = [⟨3, 4⟩, ⟨7, 5⟩] ∧
      Disjoint (Slots.entries ⟨3, 4⟩) (Slots.entries ⟨7, 5⟩) := by
  have hreachable : smallPool.Reachable := ⟨_, _, _, [], rfl⟩
  have hgranted : (smallPool.reserveAll [(1, 4), (2, 5), (1, 6)]).1 = [⟨3, 4⟩, ⟨7, 5⟩] := by decide +kernel
  have hroom : smallPool.poolCount + ([⟨3, 4⟩, ⟨7, 5⟩].map Slots.count).sum ≤ poolMax := by decide +kernel
  obtain ⟨_, _, _, _, hall⟩ := reservations_exact hreachable [(1, 4), (2, 5), (1, 6)]
  rw [hgranted] at hall
  obtain ⟨hdisjoint, _⟩ := hall.mpr hroom
  exact ⟨hgranted, List.rel_of_pairwise_cons hdisjoint (List.mem_singleton_self _)⟩

/-- Twice 40000 entries are too many but are given, and the five that are given next lie among them. -/
theorem not_reserved_apart :
    ¬ ∀ c : LoadedClass, c.Reachable → ∀ requests : List (Nat × Nat), (∀ request ∈ requests, request.2 ≤ 65535) →
      (c.reserveAll requests).1.Pairwise (fun s t => Disjoint s.entries t.entries) ∧
        ∀ s ∈ (c.reserveAll requests).1, s.stop ≤ (c.reserveAll requests).2.poolCount := by
  intro hall
  obtain ⟨hdisjoint, _⟩ := hall smallPool ⟨_, _, _, [], rfl⟩ [(1, 40000), (2, 40000), (3, 5)] (by decide)
  have hgranted : (smallPool.reserveAll [(1, 40000), (2, 40000), (3, 5)]).1 =
      [⟨3, 40000⟩, ⟨40003, 40000⟩, ⟨65535, 5⟩] := by decide +kernel
  rw [hgranted] at hdisjoint
  have hlast : Disjoint (Slots.entries ⟨40003, 40000⟩) (Slots.entries ⟨65535, 5⟩) :=
    List.rel_of_pairwise_cons hdisjoint.of_cons (List.mem_singleton_self _)
  have hfirst : 65535 ∈ Slots.entries ⟨40003, 40000⟩ := Finset.mem_Ico.mpr (by decide)
  have hagain : 65535 ∈ Slots.entries ⟨65535, 5⟩ := Finset.mem_Ico.mpr (by decide)
  exact Finset.disjoint_left.mp hlast hfirst hagain

end ClassCatalog.LoadedClass
