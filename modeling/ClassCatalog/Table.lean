/-! Finite tables kept in the order in which their keys first came.

`get?_insert` and `get?_erase` say what the two changes do to a look-up; nothing else
is needed of a table whose entries stay in order. -/
namespace ClassCatalog

structure Table (κ ν : Type) where
  entries : List (κ × ν)
deriving Repr, DecidableEq

namespace Table
variable {κ ν : Type}

def empty : Table κ ν := ⟨[]⟩

instance : Inhabited (Table κ ν) := ⟨empty⟩

def size (t : Table κ ν) : Nat := t.entries.length

def keys (t : Table κ ν) : List κ := t.entries.map Prod.fst

def values (t : Table κ ν) : List ν := t.entries.map Prod.snd

variable [DecidableEq κ]

def find (k : κ) : List (κ × ν) → Option ν
  | [] => none
  | (a, x) :: rest => if a = k then some x else find k rest

def put (k : κ) (v : ν) : List (κ × ν) → List (κ × ν)
  | [] => [(k, v)]
  | (a, x) :: rest => if a = k then (a, v) :: rest else (a, x) :: put k v rest

def get? (t : Table κ ν) (k : κ) : Option ν := find k t.entries

def contains (t : Table κ ν) (k : κ) : Bool := (t.get? k).isSome

/-- A key that is present keeps its place. -/
def insert (t : Table κ ν) (k : κ) (v : ν) : Table κ ν := ⟨put k v t.entries⟩

def erase (t : Table κ ν) (k : κ) : Table κ ν := ⟨t.entries.filter fun e => e.1 ≠ k⟩

/-- Brings the entry of a key to the front. -/
def bring (t : Table κ ν) (k : κ) : Table κ ν :=
  ⟨(t.entries.filter fun e => e.1 = k) ++ t.entries.filter fun e => e.1 ≠ k⟩

/-! ### Look-ups after a change -/

theorem find_put (k j : κ) (v : ν) (l : List (κ × ν)) :
    find j (put k v l) = if k = j then some v else find j l := by
  induction l with
  | nil => simp [put, find]
  | cons e rest ih =>
    obtain ⟨a, x⟩ := e
    by_cases hk : a = k
    · subst hk
      by_cases hj : a = j <;> simp [put, find, hj]
    · by_cases hj : a = j
      · subst hj
        simp [put, find, hk, Ne.symm hk]
      · simp [put, find, hk, hj, ih]

theorem find_filter (k j : κ) (l : List (κ × ν)) :
    find j (l.filter fun e => e.1 ≠ k) = if k = j then none else find j l := by
  induction l with
  | nil => simp [find]
  | cons e rest ih =>
    obtain ⟨a, x⟩ := e
    by_cases hk : a = k
    · subst hk
      by_cases hj : a = j
      · subst hj
        simpa [find] using ih
      · simpa [find, hj] using ih
    · by_cases hj : a = j
      · subst hj
        simp [find, hk, Ne.symm hk]
      · simp only [ne_eq, decide_not, List.filter_cons, hk, decide_false, Bool.not_false, if_true, find, hj, if_false]
        simpa using ih

theorem get?_insert (t : Table κ ν) (k j : κ) (v : ν) :
    (t.insert k v).get? j = if k = j then some v else t.get? j :=
  find_put k j v t.entries

theorem get?_erase (t : Table κ ν) (k j : κ) :
    (t.erase k).get? j = if k = j then none else t.get? j :=
  find_filter k j t.entries

theorem mem_of_get? {t : Table κ ν} {k : κ} {v : ν} (h : t.get? k = some v) :
    (k, v) ∈ t.entries := by
  obtain ⟨l⟩ := t
  unfold get? at h
  induction l with
  | nil => cases h
  | cons e rest ih =>
    obtain ⟨a, x⟩ := e
    by_cases hk : a = k
    · subst hk
      simp only [find, if_true] at h
      cases h
      exact List.mem_cons_self ..
    · simp only [find, hk, if_false] at h
      exact List.mem_cons_of_mem _ (ih h)

end Table
end ClassCatalog
