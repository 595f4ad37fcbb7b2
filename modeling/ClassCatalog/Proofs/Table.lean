import Mathlib.Data.List.Nodup
import Mathlib.Data.List.Perm.Lattice
import ClassCatalog.Table

/-! Tables without a repeated key.

A table that starts empty and is changed by `insert` and `erase` holds every key once
(`Distinct`). Looking a key up then finds whatever stands under it, so that the order of the
entries makes no difference (`Distinct.get?_perm`). Bringing one key after another to the
front gives the same entries in whatever order is wanted (`Distinct.foldr_bring`). -/
namespace ClassCatalog.Table
variable {κ ν : Type} [DecidableEq κ] {t u : Table κ ν} {k : κ} {v : ν}

def Distinct (t : Table κ ν) : Prop := t.keys.Nodup

omit [DecidableEq κ] in
theorem distinct_empty : (empty : Table κ ν).Distinct := List.nodup_nil

/-! ### Keys after a change -/

theorem keys_put (k : κ) (v : ν) (l : List (κ × ν)) :
    (put k v l).map Prod.fst = if k ∈ l.map Prod.fst then l.map Prod.fst else l.map Prod.fst ++ [k] := by
  induction l with
  | nil => rfl
  | cons e rest ih =>
    obtain ⟨a, x⟩ := e
    by_cases hk : a = k
    · simp [put, hk]
    · simp only [put, hk, if_false, List.map_cons, ih, List.mem_cons, Ne.symm hk, false_or]
      split <;> rfl

theorem Distinct.insert (h : t.Distinct) (k : κ) (v : ν) : (t.insert k v).Distinct := by
  unfold Distinct keys Table.insert
  rw [keys_put]
  split
  · exact h
  · rename_i hk
    exact List.nodup_append.mpr ⟨h, List.nodup_singleton k, fun a ha b hb => by
      rintro rfl
      exact hk (List.mem_singleton.mp hb ▸ ha)⟩

theorem Distinct.erase (h : t.Distinct) (k : κ) : (t.erase k).Distinct :=
  List.Nodup.sublist (List.filter_sublist.map Prod.fst) h

omit [DecidableEq κ] in
theorem Distinct.of_perm (h : t.Distinct) (hperm : u.entries.Perm t.entries) : u.Distinct :=
  ((hperm.map Prod.fst).nodup_iff).mpr h

/-! ### What a look-up finds -/

theorem Distinct.get?_iff (h : t.Distinct) : t.get? k = some v ↔ (k, v) ∈ t.entries := by
  refine ⟨mem_of_get?, fun hmem => ?_⟩
  obtain ⟨l⟩ := t
  unfold get?
  induction l with
  | nil => cases hmem
  | cons e rest ih =>
    obtain ⟨a, x⟩ := e
    have hnodup := List.nodup_cons.mp h
    rcases List.mem_cons.mp hmem with heq | hrest
    · cases heq
      simp [find]
    · have hne : a ≠ k := fun ha => hnodup.1 (ha ▸ List.mem_map.mpr ⟨_, hrest, rfl⟩)
      simp only [find, hne, if_false]
      exact ih hnodup.2 hrest

theorem Distinct.get?_perm (h : t.Distinct) (hperm : u.entries.Perm t.entries) (k : κ) :
    u.get? k = t.get? k := by
  refine Option.ext fun v => ?_
  rw [(h.of_perm hperm).get?_iff, h.get?_iff, hperm.mem_iff]

/-! ### Keys brought to the front -/

theorem perm_bring (t : Table κ ν) (k : κ) : (t.bring k).entries.Perm t.entries := by
  simpa [bring] using List.filter_append_perm (fun e : κ × ν => decide (e.1 = k)) t.entries

theorem find_append (j : κ) (l m : List (κ × ν)) : find j (l ++ m) = (find j l <|> find j m) := by
  induction l with
  | nil => rfl
  | cons e rest ih =>
    obtain ⟨a, x⟩ := e
    by_cases ha : a = j
    · simp [find, ha]
    · simpa [find, ha] using ih

theorem find_filter_eq (k j : κ) (l : List (κ × ν)) :
    find j (l.filter fun e => e.1 = k) = if k = j then find j l else none := by
  induction l with
  | nil => simp [find]
  | cons e rest ih =>
    obtain ⟨a, x⟩ := e
    by_cases hk : a = k
    · subst hk
      by_cases hj : a = j
      · simp [find, hj]
      · simpa [find, hj] using ih
    · by_cases hj : a = j
      · subst hj
        simpa [hk, find, Ne.symm hk] using ih
      · simpa [hk, find, hj] using ih

/-- Also with repeated keys: entries of one key stay in their order. -/
@[simp] theorem get?_bring (t : Table κ ν) (k j : κ) : (t.bring k).get? j = t.get? j := by
  show find j (_ ++ _) = find j t.entries
  rw [find_append, find_filter_eq, find_filter]
  by_cases hk : k = j
  · rw [if_pos hk, if_pos hk]
    cases find j t.entries <;> rfl
  · rw [if_neg hk, if_neg hk]
    rfl

theorem Distinct.filter_eq (h : t.Distinct) (hmem : (k, v) ∈ t.entries) :
    (t.entries.filter fun e => e.1 = k) = [(k, v)] := by
  have hsub : [(k, v)].Sublist (t.entries.filter fun e => e.1 = k) :=
    List.singleton_sublist.mpr (List.mem_filter.mpr ⟨hmem, decide_eq_true rfl⟩)
  have hone : (t.entries.filter fun e => e.1 = k).length ≤ 1 := by
    have hcount := List.nodup_iff_count_le_one.mp h k
    rwa [Table.keys, List.count_eq_countP, List.countP_map, List.countP_eq_length_filter] at hcount
  exact (hsub.eq_of_length_le hone).symm

/-- The keys of some entries brought to the front, the last of them first. -/
theorem Distinct.foldr_bring_sub (h : t.Distinct) {front : List (κ × ν)} (hsub : front ⊆ t.entries)
    (hnodup : (front.map Prod.fst).Nodup) :
    ((front.map Prod.fst).foldr (fun key u => u.bring key) t).entries =
      front ++ t.entries.filter fun e => e.1 ∉ front.map Prod.fst := by
  induction front with
  | nil => exact (List.filter_eq_self.mpr fun _ _ => decide_eq_true List.not_mem_nil).symm
  | cons e rest ih =>
    obtain ⟨k, v⟩ := e
    obtain ⟨hk, hrest⟩ := List.nodup_cons.mp hnodup
    obtain ⟨hmem, hsub⟩ := List.cons_subset.mp hsub
    have hother : ∀ e ∈ rest, e.1 ≠ k := fun e he heq =>
      hk (List.mem_map.mpr ⟨e, he, heq⟩)
    have hfirst : (rest.filter fun e => e.1 = k) = [] :=
      List.filter_eq_nil_iff.mpr fun e he => by simpa using hother e he
    have hsame : (rest.filter fun e => e.1 ≠ k) = rest :=
      List.filter_eq_self.mpr fun e he => by simpa using hother e he
    have hthis : ([(k, v)].filter fun e => e.1 ∉ rest.map Prod.fst) = [(k, v)] :=
      List.filter_eq_self.mpr fun e he => by simpa [List.mem_singleton.mp he] using hk
    have hlast : (t.entries.filter fun e => decide (e.1 ≠ k) && decide (e.1 ∉ rest.map Prod.fst)) =
        t.entries.filter fun e => e.1 ∉ ((k, v) :: rest).map Prod.fst :=
      List.filter_congr fun e _ => Bool.eq_iff_iff.mpr (by simp)
    show (_ ++ _ : List (κ × ν)) = _
    rw [ih hsub hrest, List.filter_append, List.filter_append, hfirst, hsame, List.filter_comm, h.filter_eq hmem,
      hthis, List.filter_filter, hlast]
    rfl

/-- Every order of the entries is had by bringing their keys to the front. -/
theorem Distinct.foldr_bring (h : t.Distinct) (hperm : u.entries.Perm t.entries) :
    u.keys.foldr (fun key t => t.bring key) t = u := by
  have hall : (t.entries.filter fun e => e.1 ∉ u.keys) = [] :=
    List.filter_eq_nil_iff.mpr fun e he => by
      have hkey : e.1 ∈ u.keys := List.mem_map.mpr ⟨e, hperm.mem_iff.mpr he, rfl⟩
      simpa using hkey
  have hentries := h.foldr_bring_sub hperm.subset (h.of_perm hperm)
  rw [show u.entries.map Prod.fst = u.keys from rfl, hall, List.append_nil] at hentries
  exact congrArg Table.mk hentries

end ClassCatalog.Table
