import Mathlib.Algebra.Order.Floor.Div
import Mathlib.Tactic.Tauto
import ClassCatalog.Cache.Supplied
import ClassCatalog.Proofs.Action
import ClassCatalog.Proofs.Table

/-! Fetching what the running program has announced.

The entries may lie in any order, and in another one at every request: which pending entries go along with
the one asked for is then left open, and everything here holds whichever they are (`Run`). That an entry is
served as they lie by then is a request among these (`run_serve`). A call settles the entries it asked for and
no other (`Settled`), so a call that succeeds leaves as many pending entries fewer as it asked for, and the calls
still needed at worst, `trips`, are one fewer. -/
namespace ClassCatalog.Cache.Supplied
open ClassCatalog.Action

variable {s t x : Supplied} {key k : ClassKey} {b : Bytes} {answer : Option Bytes} {asked : List ClassKey}
  {answers : List Bytes} {client : Client}

/-! ### The state -/

/-- Every key once, and room for one entry in a batch. -/
structure Sound (s : Supplied) : Prop where
  distinct : s.entries.Distinct
  roomy : 1 ≤ s.batchLimit

theorem sound_new (limit : Nat) : (new limit).Sound := ⟨Table.distinct_empty, Nat.le_max_right ..⟩

/-- The same entries in another order. -/
structure Reordered (x s : Supplied) : Prop where
  entries : x.entries.entries.Perm s.entries.entries
  limit : x.batchLimit = s.batchLimit

namespace Reordered

theorem rfl : Reordered s s := ⟨.rfl, Eq.refl _⟩

theorem sound (h : Reordered x s) (hs : s.Sound) : x.Sound :=
  ⟨hs.distinct.of_perm h.entries, h.limit ▸ hs.roomy⟩

theorem get? (h : Reordered x s) (hs : s.Sound) (k : ClassKey) : x.entries.get? k = s.entries.get? k :=
  hs.distinct.get?_perm h.entries k

end Reordered

@[simp] theorem get?_reorder (s : Supplied) (keys : List ClassKey) (k : ClassKey) :
    (s.reorder keys).entries.get? k = s.entries.get? k := by
  show (keys.foldr (fun key t => t.bring key) s.entries).get? k = _
  induction keys with
  | nil => rfl
  | cons key rest ih => exact (Table.get?_bring ..).trans ih

theorem reordered_reorder (s : Supplied) (keys : List ClassKey) : Reordered (s.reorder keys) s := by
  refine ⟨?_, rfl⟩
  show (keys.foldr (fun key t => t.bring key) s.entries).entries.Perm s.entries.entries
  induction keys with
  | nil => exact .rfl
  | cons key rest ih => exact (Table.perm_bring ..).trans ih

/-- There is no order that `reorder` does not give. -/
theorem Sound.reordered_iff (hs : s.Sound) : Reordered x s ↔ ∃ keys, s.reorder keys = x := by
  constructor
  · intro h
    obtain ⟨entries, limit⟩ := x
    refine ⟨entries.keys, ?_⟩
    rw [reorder, hs.distinct.foldr_bring h.entries, ← h.limit]
  · rintro ⟨keys, rfl⟩
    exact reordered_reorder s keys

/-! ### Pending entries -/

theorem Sound.mem_pending (h : s.Sound) : k ∈ s.pending ↔ s.entries.get? k = some #[] := by
  rw [h.distinct.get?_iff, pending, List.mem_map]
  constructor
  · rintro ⟨⟨_, b⟩, hb, rfl⟩
    obtain ⟨hmem, hempty⟩ := List.mem_filter.mp hb
    rwa [show b = #[] from Array.isEmpty_iff.mp hempty] at hmem
  · exact fun h => ⟨(k, #[]), List.mem_filter.mpr ⟨h, Eq.refl _⟩, Eq.refl _⟩

theorem Sound.nodup_pending (h : s.Sound) : s.pending.Nodup :=
  h.distinct.sublist (List.filter_sublist.map Prod.fst)

/-- What is asked for together with `key`: as many pending entries as the limit allows. -/
structure Batch (s : Supplied) (key : ClassKey) (asked : List ClassKey) : Prop where
  first : asked.head? = some key
  nodup : asked.Nodup
  pending : ∀ k ∈ asked, s.entries.get? k = some #[]
  length : asked.length = min s.batchLimit s.pending.length

theorem Sound.batch (h : s.Sound) (hkey : s.entries.get? key = some #[]) : Batch s key (s.batch key) := by
  have hmem := h.mem_pending.mpr hkey
  have hothers : (s.pending.filter (· ≠ key)).length = s.pending.length - 1 := by
    rw [← List.length_erase_of_mem hmem, h.nodup_pending.erase_eq_filter]
    congr 1
    exact List.filter_congr fun k _ => Bool.eq_iff_iff.mpr (by simp)
  refine ⟨rfl, ?_, ?_, ?_⟩
  · refine List.nodup_cons.mpr ⟨fun hk => ?_, ((h.nodup_pending.filter _).sublist (List.take_sublist ..))⟩
    exact of_decide_eq_true (List.mem_filter.mp (List.mem_of_mem_take hk)).2 rfl
  · intro k hk
    rcases List.mem_cons.mp hk with rfl | hk
    · exact hkey
    · exact h.mem_pending.mp (List.mem_filter.mp (List.mem_of_mem_take hk)).1
  · have hpos := List.length_pos_of_mem hmem
    have hroomy := h.roomy
    simp only [Supplied.batch, List.length_cons, List.length_take, hothers]
    omega

/-! ### Settling -/

@[simp] theorem batchLimit_settle (s : Supplied) (k : ClassKey) (answer : Option Bytes) :
    (s.settle k answer).batchLimit = s.batchLimit := by
  unfold settle
  split <;> try split
  all_goals rfl

theorem get?_settle (s : Supplied) (k j : ClassKey) (answer : Option Bytes) :
    (s.settle k answer).entries.get? j =
      if k = j then answer.filter fun b => !b.isEmpty else s.entries.get? j := by
  cases answer with
  | none => exact Table.get?_erase ..
  | some b =>
    unfold settle
    cases hb : b.isEmpty with
    | true => simp [hb, Option.filter_some, Table.get?_erase]
    | false => simp [hb, Option.filter_some, Table.get?_insert]

theorem Sound.settle (h : s.Sound) (k : ClassKey) (answer : Option Bytes) : (s.settle k answer).Sound := by
  refine ⟨?_, (batchLimit_settle s k answer).symm ▸ h.roomy⟩
  unfold Supplied.settle
  split <;> try split
  · exact h.distinct.erase _
  · exact h.distinct.insert ..
  · exact h.distinct.erase _

/-- The entries asked for hold what was answered, those without an answer are gone, and no other entry is
touched. -/
structure Settled (s : Supplied) (asked : List ClassKey) (answers : List Bytes) (t : Supplied) : Prop where
  answered : ∀ i (h : i < asked.length), t.entries.get? asked[i] = answers[i]?.filter fun b => !b.isEmpty
  others : ∀ k, k ∉ asked → t.entries.get? k = s.entries.get? k
  limit : t.batchLimit = s.batchLimit

theorem settleAll_cons (s : Supplied) (k : ClassKey) (keys : List ClassKey) (answers : List Bytes) :
    s.settleAll (k :: keys) answers = (s.settle k answers[0]?).settleAll keys answers.tail := by
  cases answers <;> rfl

theorem settled_settleAll (hnodup : asked.Nodup) : Settled s asked answers (s.settleAll asked answers) := by
  induction asked generalizing s answers with
  | nil => exact ⟨fun i h => absurd h (Nat.not_lt_zero i), fun _ _ => rfl, rfl⟩
  | cons k keys ih =>
    obtain ⟨hk, hkeys⟩ := List.nodup_cons.mp hnodup
    have hrest : Settled (s.settle k answers[0]?) keys answers.tail _ := ih hkeys
    rw [settleAll_cons]
    refine ⟨fun i hi => ?_, fun j hj => ?_, hrest.limit.trans (batchLimit_settle ..)⟩
    · cases i with
      | zero =>
        rw [List.getElem_cons_zero, hrest.others k hk, get?_settle, if_pos rfl]
      | succ i =>
        rw [List.getElem_cons_succ, hrest.answered i (Nat.lt_of_succ_lt_succ hi), List.getElem?_tail]
    · obtain ⟨hne, hj⟩ := not_or.mp (fun h => hj (List.mem_cons.mpr h))
      rw [hrest.others j hj, get?_settle, if_neg (Ne.symm hne)]

theorem Sound.settleAll (h : s.Sound) (asked : List ClassKey) (answers : List Bytes) :
    (s.settleAll asked answers).Sound := by
  induction asked generalizing s answers with
  | nil => exact h
  | cons k keys ih =>
    rw [settleAll_cons]
    exact ih (h.settle ..) _

theorem Settled.mem_pending (h : Settled s asked answers t) (hs : s.Sound) (ht : t.Sound) :
    k ∈ t.pending ↔ k ∈ s.pending ∧ k ∉ asked := by
  rw [ht.mem_pending, hs.mem_pending]
  by_cases hk : k ∈ asked
  · obtain ⟨i, hi, rfl⟩ := List.getElem_of_mem hk
    rw [h.answered i hi]
    simp [Option.filter_eq_some_iff, hk]
  · simp [h.others k hk, hk]

/-- What was asked for is no longer pending, and everything else that was still is. -/
theorem Settled.length_pending (h : Settled s asked answers t) (hs : s.Sound) (ht : t.Sound)
    (hbatch : Batch s key asked) : asked.length + t.pending.length = s.pending.length := by
  rw [← List.length_append]
  refine List.Perm.length_eq ((List.perm_ext_iff_of_nodup ?_ hs.nodup_pending).mpr fun k => ?_)
  · refine List.nodup_append.mpr ⟨hbatch.nodup, ht.nodup_pending, fun j hj k hk => ?_⟩
    rintro rfl
    exact ((h.mem_pending hs ht).mp hk).2 hj
  · have hpending : k ∈ asked → k ∈ s.pending := fun hk => hs.mem_pending.mpr (hbatch.pending k hk)
    rw [List.mem_append, h.mem_pending hs ht]
    tauto

/-! ### Asking -/

section Asking
variable {s : Scene Supplied} {key : ClassKey}

/-- An entry that is there with its bytes, or not there at all, needs no call. -/
theorem start_bytes_settled (client : Option Client) (h : s.state.entries.get? key ≠ some #[]) :
    (bytes key client).start s = (.ok (s.state.entries.get? key), s) := by
  unfold bytes
  rw [start_state_bind]
  cases hkey : s.state.entries.get? key with
  | none => simp only [start_pure]
  | some b =>
    have hb : b.isEmpty = false := by
      cases hb : b.isEmpty with
      | false => rfl
      | true => exact absurd (hkey.trans (congrArg some (Array.isEmpty_iff.mp hb))) h
    simp only [hb, Bool.not_false, if_true, start_pure]

theorem start_bytes_alone (h : s.state.entries.get? key = some #[]) :
    (bytes key none).start s = (.ok none, s) := by
  rw [bytes, start_state_bind]
  simp [h]

theorem start_bytes_pending (client : Client) (h : s.state.entries.get? key = some #[]) :
    (bytes key (some client)).start s =
      match client.bytesFor (s.journal ++ [.askedBytes (s.state.batch key)]) (s.state.batch key) with
      | .error failure => (.error failure.toError, ⟨s.state, s.journal ++ [.askedBytes (s.state.batch key)]⟩)
      | .ok answers => (.ok ((s.state.settleAll (s.state.batch key) answers).entries.get? key),
          ⟨s.state.settleAll (s.state.batch key) answers, s.journal ++ [.askedBytes (s.state.batch key)]⟩) := by
  rw [bytes, start_state_bind]
  simp only [h, Array.isEmpty_empty, Bool.not_true, Bool.false_eq_true, if_false]
  rw [start_bind, fetch, start_state_bind]
  simp only [start_bind, start_ask]
  cases client.bytesFor (s.journal ++ [.askedBytes (s.state.batch key)]) (s.state.batch key) with
  | error failure => rfl
  | ok answers => rfl

/-- How a request for bytes is served. A call is made for a pending entry only, and only one; one that fails
changes nothing. -/
inductive Served (s : Scene Supplied) (key : ClassKey) :
    Option Client → Except ClassError (Option Bytes) → Scene Supplied → Prop
  | settled {client : Option Client} (h : s.state.entries.get? key ≠ some #[]) :
      Served s key client (.ok (s.state.entries.get? key)) s
  | alone (h : s.state.entries.get? key = some #[]) : Served s key none (.ok none) s
  | failed {client : Client} {asked : List ClassKey} {failure : ClientFailure}
      (h : s.state.entries.get? key = some #[]) (batch : Batch s.state key asked)
      (call : client.bytesFor (s.journal ++ [.askedBytes asked]) asked = .error failure) :
      Served s key (some client) (.error failure.toError) ⟨s.state, s.journal ++ [.askedBytes asked]⟩
  | fetched {client : Client} {asked : List ClassKey} {answers : List Bytes} {t : Supplied}
      (h : s.state.entries.get? key = some #[]) (batch : Batch s.state key asked)
      (call : client.bytesFor (s.journal ++ [.askedBytes asked]) asked = .ok answers)
      (settled : Settled s.state asked answers t) (sound : t.Sound) :
      Served s key (some client) (.ok (t.entries.get? key)) ⟨t, s.journal ++ [.askedBytes asked]⟩

theorem bytes_served (hs : s.state.Sound) (key : ClassKey) (client : Option Client) :
    Served s key client ((bytes key client).start s).1 ((bytes key client).start s).2 := by
  by_cases h : s.state.entries.get? key = some #[]
  · have hbatch := hs.batch h
    cases client with
    | none =>
      rw [start_bytes_alone h]
      exact .alone h
    | some client =>
      rw [start_bytes_pending client h]
      split
      · rename_i failure hcall
        exact .failed h hbatch hcall
      · rename_i answers hcall
        exact .fetched h hbatch hcall (settled_settleAll hbatch.nodup) (hs.settleAll ..)
  · rw [start_bytes_settled client h]
    exact .settled h

/-- What asking answers is never an entry that is still pending. -/
theorem Served.nonempty {client : Option Client} {answer : Except ClassError (Option Bytes)} {t : Scene Supplied}
    (h : Served s key client answer t) : answer ≠ .ok (some #[]) := by
  cases h with
  | settled h => exact fun heq => h (Except.ok.inj heq)
  | alone h => exact fun heq => nomatch heq
  | failed h batch call => exact fun heq => nomatch heq
  | @fetched client asked answers t h batch call settled sound =>
    have hfirst : asked[0]? = some key := List.head?_eq_getElem? ▸ batch.first
    obtain ⟨hlen, hzero⟩ := List.getElem?_eq_some_iff.mp hfirst
    rw [← hzero, settled.answered 0 hlen]
    simp [Option.filter_eq_some_iff]

end Asking

/-! ### Runs -/

inductive Request where
  | add (key : ClassKey) (b : Bytes)
  | announce (names : List String) (loaders : List LoaderId)
  | bytes (key : ClassKey) (client : Option Client)
  | clear

def Request.perform : Request → Action Supplied (Option Bytes)
  | .add key b => do
    Action.update fun s => s.add key b
    return none
  | .announce names loaders => do
    Action.update fun s => s.announce names loaders
    return none
  | .bytes key client => Supplied.bytes key client
  | .clear => do
    Action.update Supplied.clear
    return none

/-- A request with its answer. -/
abbrev Exchange := Request × Except ClassError (Option Bytes)

/-- Requests one after another. The entries may come to lie in another order before each and after the last. -/
inductive Run : Scene Supplied → List Exchange → Scene Supplied → Prop
  | done {s : Scene Supplied} {x : Supplied} (order : Reordered x s.state) : Run s [] ⟨x, s.journal⟩
  | request {s t u : Scene Supplied} {x : Supplied} {r : Request} {answer : Except ClassError (Option Bytes)}
      {rest : List Exchange} (order : Reordered x s.state)
      (step : r.perform.start ⟨x, s.journal⟩ = (answer, t)) (run : Run t rest u) :
      Run s ((r, answer) :: rest) u

/-- Serving an entry is a request for it, in the order in which the entries lie by then. -/
theorem run_serve [Arrangement] (s : Scene Supplied) (key : ClassKey) (client : Option Client) :
    Run s [(.bytes key client, ((serve key client).start s).1)] ((serve key client).start s).2 :=
  .request (reordered_reorder s.state (Arrangement.front s.journal)) rfl (.done .rfl)

theorem get?_add (s : Supplied) (key k : ClassKey) (b : Bytes) :
    (s.add key b).entries.get? k =
      if key = k ∧ (b = #[] → s.entries.get? k = none) then some b else s.entries.get? k := by
  unfold add
  split
  · rename_i h
    obtain ⟨hb, hkey⟩ := Bool.and_eq_true_iff.mp h
    rw [if_neg]
    rintro ⟨rfl, hnone⟩
    rw [Table.contains, hnone (Array.isEmpty_iff.mp hb)] at hkey
    cases hkey
  · rename_i h
    rw [Table.get?_insert]
    by_cases hk : key = k
    · subst hk
      have hnone : b = #[] → s.entries.get? key = none := by
        rintro rfl
        simpa [Table.contains] using h
      rw [if_pos rfl, if_pos ⟨rfl, hnone⟩]
    · rw [if_neg hk, if_neg fun h => hk h.1]

theorem Sound.add (h : s.Sound) (key : ClassKey) (b : Bytes) : (s.add key b).Sound := by
  unfold Supplied.add
  split
  · exact h
  · exact ⟨h.distinct.insert .., h.roomy⟩

theorem Sound.announce (h : s.Sound) (names : List String) (loaders : List LoaderId) :
    (s.announce names loaders).Sound := by
  unfold Supplied.announce
  induction names.zip loaders generalizing s with
  | nil => exact h
  | cons key keys ih => exact ih (h.add key #[])

section Steps
variable {s t u : Scene Supplied} {key : ClassKey} {client : Option Client} {r : Request}
  {answer : Except ClassError (Option Bytes)} {exchanges : List Exchange}

theorem Served.sound (h : Served s key client answer t) (hs : s.state.Sound) : t.state.Sound := by
  cases h with
  | settled h | alone h | failed h batch call => exact hs
  | fetched h batch call settled sound => exact sound

theorem Request.sound (hs : s.state.Sound) (r : Request) : (r.perform.start s).2.state.Sound := by
  cases r with
  | add key b => exact hs.add key b
  | announce names loaders => exact hs.announce names loaders
  | bytes key client => exact (bytes_served hs key client).sound hs
  | clear => exact ⟨Table.distinct_empty, hs.roomy⟩

theorem Run.sound (h : Run s exchanges t) (hs : s.state.Sound) : t.state.Sound := by
  induction h with
  | done order => exact order.sound hs
  | @request s t u x r answer rest order step run ih =>
    have hstep := Request.sound (s := ⟨x, s.journal⟩) (order.sound hs) r
    rw [step] at hstep
    exact ih hstep

/-! ### Bytes that are there -/

def Real (s : Supplied) (key : ClassKey) : Prop := ∃ b, b ≠ #[] ∧ s.entries.get? key = some b

theorem Real.of_get? {x y : Supplied} (h : Real x key) (heq : y.entries.get? key = x.entries.get? key) :
    Real y key := by
  obtain ⟨b, hb, hkey⟩ := h
  exact ⟨b, hb, heq.trans hkey⟩

theorem Real.add {x : Supplied} (h : Real x key) (j : ClassKey) (b : Bytes) : Real (x.add j b) key := by
  by_cases hadd : j = key ∧ (b = #[] → x.entries.get? j = none)
  · obtain ⟨rfl, hb⟩ := hadd
    have hreal : b ≠ #[] := by
      rintro rfl
      obtain ⟨_, _, hkey⟩ := h
      rw [hb rfl] at hkey
      cases hkey
    exact ⟨b, hreal, by rw [get?_add, if_pos ⟨rfl, hb⟩]⟩
  · refine h.of_get? ?_
    rw [get?_add, if_neg]
    rintro ⟨rfl, hb⟩
    exact hadd ⟨rfl, hb⟩

theorem Real.announce {x : Supplied} (h : Real x key) (names : List String) (loaders : List LoaderId) :
    Real (x.announce names loaders) key := by
  unfold Supplied.announce
  induction names.zip loaders generalizing x with
  | nil => exact h
  | cons j keys ih => exact ih (h.add j #[])

/-- Bytes that are there are served, however the entries lie. -/
theorem serve_of_real [Arrangement] (h : Real s.state key) (client : Option Client) :
    ∃ b, ((serve key client).start s).1 = .ok (some b) := by
  obtain ⟨b, hb, hkey⟩ := h
  let there := s.state.reorder (Arrangement.front s.journal)
  have hthere : there.entries.get? key = some b := (get?_reorder ..).trans hkey
  have hsettled := start_bytes_settled (s := ⟨there, s.journal⟩) client
    fun h => hb (Option.some.inj (hthere.symm.trans h))
  exact ⟨b, (congrArg Prod.fst hsettled).trans (congrArg Except.ok hthere)⟩

/-- A call asks for pending entries only. -/
theorem Served.real {k : ClassKey} (h : Served s k client answer t) (hreal : Real s.state key) :
    Real t.state key := by
  cases h with
  | settled h | alone h | failed h batch call => exact hreal
  | fetched h batch call settled sound =>
    refine hreal.of_get? (settled.others key fun hmem => ?_)
    obtain ⟨b, hb, hkey⟩ := hreal
    exact hb (Option.some.inj (hkey.symm.trans (batch.pending key hmem)))

theorem Request.real (hs : s.state.Sound) (hr : r ≠ .clear) (h : Real s.state key) :
    Real (r.perform.start s).2.state key := by
  cases r with
  | add j b => exact h.add j b
  | announce names loaders => exact h.announce names loaders
  | bytes k client => exact (bytes_served hs k client).real h
  | clear => exact absurd rfl hr

theorem Run.real (h : Run s exchanges t) (hs : s.state.Sound) (hkept : ∀ e ∈ exchanges, e.1 ≠ .clear)
    (hreal : Real s.state key) : Real t.state key := by
  induction h with
  | done order => exact hreal.of_get? (order.get? hs key)
  | @request s t u x r answer rest order step run ih =>
    have hx := order.sound hs
    have hsound := Request.sound (s := ⟨x, s.journal⟩) hx r
    have hstep := Request.real (s := ⟨x, s.journal⟩) hx (hkept _ (List.mem_cons_self ..))
      (hreal.of_get? (order.get? hs key))
    rw [step] at hsound hstep
    exact ih hsound (fun e he => hkept e (List.mem_cons_of_mem _ he)) hstep

/-! ### Round trips -/

/-- How often the program has been asked for bytes. -/
def calls (told : Journal) : Nat :=
  told.countP fun | .askedBytes _ => true | _ => false

/-- The calls it takes at worst to settle every pending entry. -/
def trips (s : Supplied) : Nat := s.pending.length ⌈/⌉ s.batchLimit

theorem Batch.length_pos {x : Supplied} {asked : List ClassKey} (h : Batch x key asked) : 0 < asked.length :=
  List.length_pos_of_mem (List.mem_of_mem_head? h.first)

/-- A successful call settles a full batch, or all that is pending. -/
theorem Settled.trips {x y : Supplied} {asked : List ClassKey} {answers : List Bytes}
    (h : Settled x asked answers y) (hx : x.Sound) (hy : y.Sound) (hbatch : Batch x key asked) :
    y.trips + 1 ≤ x.trips := by
  have hlen := h.length_pending hx hy hbatch
  have hsize := hbatch.length
  have hpos := hbatch.length_pos
  have hworst : x.pending.length ≤ x.batchLimit * x.trips := (ceilDiv_le_iff_le_mul hx.roomy).mp le_rfl
  have hone : 1 ≤ x.trips := by
    by_contra hzero
    rw [Nat.lt_one_iff.mp (Nat.lt_of_not_le hzero)] at hworst
    omega
  have hfewer : y.pending.length ≤ x.batchLimit * (x.trips - 1) := by
    rw [Nat.mul_sub_one]
    omega
  have hleft : y.trips ≤ x.trips - 1 := by
    rw [Supplied.trips, h.limit]
    exact (ceilDiv_le_iff_le_mul hx.roomy).mpr hfewer
  omega

theorem Served.trips {b : Option Bytes} (h : Served s key client (.ok b) t) (hs : s.state.Sound) :
    calls t.journal + t.state.trips ≤ calls s.journal + s.state.trips := by
  cases h with
  | settled h | alone h => exact Nat.le_refl _
  | @fetched client asked answers y h batch call settled sound =>
    have hcalls : calls (s.journal ++ [.askedBytes asked]) = calls s.journal + 1 := List.countP_append
    have htrips := settled.trips hs sound batch
    show calls (s.journal ++ [.askedBytes asked]) + y.trips ≤ _
    omega

/-- Nothing is pending after a request that was not before. -/
theorem Served.pending_subset (h : Served s key client answer t) (hs : s.state.Sound) :
    t.state.pending ⊆ s.state.pending := by
  cases h with
  | settled h | alone h | failed h batch call => exact List.Subset.refl _
  | fetched h batch call settled sound => exact fun k hk => ((settled.mem_pending hs sound).mp hk).1

theorem Served.key_settled {c : Client} {b : Option Bytes} (h : Served s key (some c) (.ok b) t)
    (hs : s.state.Sound) : key ∉ t.state.pending := by
  cases h with
  | settled h => exact fun hk => h (hs.mem_pending.mp hk)
  | fetched h batch call settled sound =>
    exact fun hk => ((settled.mem_pending hs sound).mp hk).2 (List.mem_of_mem_head? batch.first)

theorem Reordered.pending {x y : Supplied} (h : Reordered x y) : x.pending.Perm y.pending :=
  (h.entries.filter _).map _

theorem Reordered.trips {x y : Supplied} (h : Reordered x y) : x.trips = y.trips := by
  rw [Supplied.trips, Supplied.trips, h.pending.length_eq, h.limit]

/-- Nothing but requests for bytes, all of them answered. -/
def Asks (exchanges : List Exchange) : Prop :=
  ∀ e ∈ exchanges, ∃ key client b, e = (.bytes key client, .ok b)

theorem Run.trips (h : Run s exchanges t) (hs : s.state.Sound) (hasks : Asks exchanges) :
    calls t.journal + t.state.trips ≤ calls s.journal + s.state.trips ∧
      t.state.pending ⊆ s.state.pending ∧
      ∀ key c b, (Request.bytes key (some c), .ok b) ∈ exchanges → key ∉ t.state.pending := by
  induction h with
  | done order =>
    refine ⟨?_, order.pending.subset, fun _ _ _ h => nomatch h⟩
    rw [order.trips]
  | @request s t u x r answer rest order step run ih =>
    obtain ⟨key, client, b, he⟩ := hasks _ (List.mem_cons_self ..)
    cases he
    have hx : (⟨x, s.journal⟩ : Scene Supplied).state.Sound := order.sound hs
    have hserved := bytes_served hx key client
    rw [show (bytes key client).start ⟨x, s.journal⟩ = (.ok b, t) from step] at hserved
    obtain ⟨hcalls, hpending, hsettled⟩ :=
      ih (hserved.sound hx) fun e he => hasks e (List.mem_cons_of_mem _ he)
    refine ⟨?_, ?_, fun k c b hk => ?_⟩
    · have hstep := hserved.trips hx
      rw [order.trips] at hstep
      exact hcalls.trans hstep
    · exact fun k hk => order.pending.subset (hserved.pending_subset hx (hpending hk))
    · rcases List.mem_cons.mp hk with heq | hk
      · cases heq
        exact fun hk => hserved.key_settled hx (hpending hk)
      · exact hsettled k c b hk

/-- **The running program is asked no more often than it must be.** After any requests, whatever order the
entries lie in, a request for bytes is served as `Served` says: a pending entry costs one call for a full batch
with that entry first, which settles what was asked for if it succeeds and changes nothing if it fails; any
other entry costs none, and an empty one is never answered. An entry with its bytes keeps bytes until
everything is cleared. Asking for what is pending, in any order and with repeats, takes no more successful calls
than it fills batches, after which everything asked for is settled. -/
theorem served_in_batches {limit : Nat} {told : Journal} {past : List Exchange}
    (h : Run ⟨new limit, told⟩ past s) :
    (∀ key client, Served s key client ((bytes key client).start s).1 ((bytes key client).start s).2) ∧
      (∀ key client, ((bytes key client).start s).1 ≠ .ok (some #[])) ∧
      (∀ later t key, Run s later t → (∀ e ∈ later, e.1 ≠ .clear) → Real s.state key → Real t.state key) ∧
      ∀ asks t, Run s asks t → Asks asks →
        calls t.journal ≤ calls s.journal + s.state.pending.length ⌈/⌉ s.state.batchLimit ∧
          ((∀ key ∈ s.state.pending, ∃ c b, (Request.bytes key (some c), .ok b) ∈ asks) →
            t.state.pending = []) := by
  have hs := h.sound (sound_new limit)
  refine ⟨bytes_served hs, fun key client => (bytes_served hs key client).nonempty,
    fun later t key hrun hkept => hrun.real hs hkept, fun asks t hrun hasks => ?_⟩
  obtain ⟨hcalls, hpending, hsettled⟩ := hrun.trips hs hasks
  refine ⟨(Nat.le_add_right ..).trans hcalls, fun hall => List.eq_nil_iff_forall_not_mem.mpr fun key hkey => ?_⟩
  obtain ⟨c, b, hasked⟩ := hall key (hpending hkey)
  exact hsettled key c b hasked hkey

/-- Three classes announced to a cache that asks for two at once. -/
def announced : Supplied := ⟨⟨[(("A", 0), #[]), (("B", 0), #[]), (("C", 1), #[])]⟩, 2⟩

theorem served_in_batches_announced :
    Run ⟨new 2, []⟩ [(.announce ["A", "B", "C"] [0, 0, 1], .ok none)] ⟨announced, []⟩ ∧
      ∀ asks t, Run ⟨announced, []⟩ asks t → Asks asks → calls t.journal ≤ 2 := by
  have hrun : Run ⟨new 2, []⟩ [(.announce ["A", "B", "C"] [0, 0, 1], .ok none)] ⟨announced, []⟩ :=
    .request .rfl rfl (.done .rfl)
  exact ⟨hrun, fun asks t h hasks => ((served_in_batches hrun).2.2.2 asks t h hasks).1⟩

end Steps
end ClassCatalog.Cache.Supplied
