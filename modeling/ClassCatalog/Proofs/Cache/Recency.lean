import ClassCatalog.Cache.ByteCache

/-! What a byte cache is for, without slots, stamps or hashes: a list of entries by last use.

The least recently used entry comes first, and the list has a limit. `answers` runs a list
of requests through anything that serves them, so that a cache and its list can be
compared request by request. -/
namespace ClassCatalog.Cache

/-! ### Requests -/

inductive Request where
  | put (key : String) (bytes : Bytes)
  | get (key : String)
  | contains (key : String)
  | remove (key : String)
  | clear
  | length

inductive Answer where
  | done
  | bytes (b : Option Bytes)
  | present (b : Bool)
  | length (n : Nat)

/-- The answers to requests made one after the other, and what is left after them. -/
def answers {σ : Type} (serve : Request → σ → Answer × σ) : List Request → σ → List Answer × σ
  | [], x => ([], x)
  | r :: rest, x => ((serve r x).1 :: (answers serve rest (serve r x).2).1,
      (answers serve rest (serve r x).2).2)

def ByteCache.serve : Request → ByteCache → Answer × ByteCache
  | .put key bytes, c => (.done, c.put key bytes)
  | .get key, c => (.bytes (c.get key).1, (c.get key).2)
  | .contains key, c => (.present (c.contains key), c)
  | .remove key, c => (.bytes (c.remove key).1, (c.remove key).2)
  | .clear, c => (.done, c.clear)
  | .length, c => (.length c.size, c)

/-! ### Entries by last use -/

/-- Keys with their bytes, the least recently used first. -/
structure Recency where
  limit : Nat
  entries : List (String × Bytes)

namespace Recency

def new (limit : Nat) : Recency := ⟨limit, []⟩

def find? (m : Recency) (key : String) : Option Bytes :=
  (m.entries.find? fun e => e.1 = key).map Prod.snd

def contains (m : Recency) (key : String) : Bool := (m.find? key).isSome

def without (m : Recency) (key : String) : List (String × Bytes) := m.entries.filter fun e => e.1 ≠ key

/-- Makes `key` the most recently used, with these bytes. -/
def touch (m : Recency) (key : String) (bytes : Bytes) : Recency :=
  { m with entries := m.without key ++ [(key, bytes)] }

/-- A new key costs the least recently used entry when the limit is reached. -/
def put (m : Recency) (key : String) (bytes : Bytes) : Recency :=
  if !m.contains key && m.entries.length == m.limit then
    { m with entries := m.entries.tail ++ [(key, bytes)] }
  else m.touch key bytes

def get (m : Recency) (key : String) : Option Bytes × Recency :=
  match m.find? key with
  | none => (none, m)
  | some bytes => (some bytes, m.touch key bytes)

def remove (m : Recency) (key : String) : Option Bytes × Recency :=
  (m.find? key, { m with entries := m.without key })

def serve : Request → Recency → Answer × Recency
  | .put key bytes, m => (.done, m.put key bytes)
  | .get key, m => (.bytes (m.get key).1, (m.get key).2)
  | .contains key, m => (.present (m.contains key), m)
  | .remove key, m => (.bytes (m.remove key).1, (m.remove key).2)
  | .clear, m => (.done, new m.limit)
  | .length, m => (.length m.entries.length, m)

variable {m : Recency} {key : String} {b : Bytes} {e : String × Bytes}

theorem mem_of_find? (h : m.find? key = some b) : (key, b) ∈ m.entries := by
  obtain ⟨e, hfind, rfl⟩ := Option.map_eq_some_iff.mp h
  have hkey : e.1 = key := of_decide_eq_true (List.find?_some (p := fun e : String × Bytes => e.1 = key) hfind)
  exact hkey ▸ List.mem_of_find?_eq_some hfind

theorem mem_touch (h : e ∈ (m.touch key b).entries) : e ∈ m.entries ∨ e = (key, b) := by
  rcases List.mem_append.mp h with h | h
  · exact .inl (List.mem_filter.mp h).1
  · exact .inr (List.mem_singleton.mp h)

theorem mem_get (h : e ∈ (m.get key).2.entries) : e ∈ m.entries := by
  unfold get at h
  split at h
  · exact h
  · rename_i hfind
    rcases mem_touch h with h | rfl
    · exact h
    · exact mem_of_find? hfind

theorem mem_of_get (h : (m.get key).1 = some b) : (key, b) ∈ m.entries := by
  unfold get at h
  split at h
  · cases h
  · rename_i hfind
    cases h
    exact mem_of_find? hfind

theorem mem_put (h : e ∈ (m.put key b).entries) : e ∈ m.entries ∨ e = (key, b) := by
  unfold put at h
  split at h
  · rcases List.mem_append.mp h with h | h
    · exact .inl (List.mem_of_mem_tail h)
    · exact .inr (List.mem_singleton.mp h)
  · exact mem_touch h

theorem limit_serve (r : Request) (m : Recency) : (serve r m).2.limit = m.limit := by
  cases r with
  | put key bytes =>
    simp only [serve, put]
    split <;> rfl
  | get key =>
    simp only [serve, get]
    cases m.find? key <;> rfl
  | _ => rfl

theorem limit_answers (requests : List Request) (m : Recency) :
    (answers serve requests m).2.limit = m.limit := by
  induction requests generalizing m with
  | nil => rfl
  | cons r rest ih => exact (ih _).trans (limit_serve r m)

end Recency

end ClassCatalog.Cache
