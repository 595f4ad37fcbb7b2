import Mathlib.Data.List.Dedup
import Mathlib.Data.List.DropRight
import ClassCatalog.Proofs.Cache.Direct
import ClassCatalog.Proofs.ClassPath.Contents

/-! Which archives are open.

A pool is watched while it is used: archives are accessed, over files that may be other ones each time, and now and
then all of them are closed. `accessed` lists the paths for which there was an archive, the last one at the end. The
pool then holds the last of them, each path once, and as many as it has room for (`recent_open`). Nothing else of what
has happened can be told from it, neither the accesses that failed nor which of the others had to open a file. -/
namespace ClassCatalog.ClassPath.Pool
open Files

/-! ### Lists by last occurrence -/

section Lists
variable {α : Type} {l front back : List α} {n : Nat}

theorem rtake_of_length_le (h : l.length ≤ n) : l.rtake n = l := by
  rw [List.rtake, Nat.sub_eq_zero_of_le h, List.drop_zero]

theorem rtake_append_of_le (h : n ≤ back.length) : (front ++ back).rtake n = back.rtake n := by
  unfold List.rtake
  rw [List.length_append, Nat.add_sub_assoc h, List.drop_length_add_append]

variable [BEq α] [LawfulBEq α]

/-- An element put at the end does not count where it was before. -/
theorem dedup_concat [DecidableEq α] (l : List α) (a : α) : (l ++ [a]).dedup = l.dedup.erase a ++ [a] := by
  induction l with
  | nil => rfl
  | cons b rest ih =>
    rw [List.cons_append]
    by_cases hb : b ∈ rest
    · rw [List.dedup_cons_of_mem (List.mem_append_left _ hb), List.dedup_cons_of_mem hb, ih]
    · rw [List.dedup_cons_of_notMem hb]
      by_cases ha : b = a
      · subst ha
        rw [List.dedup_cons_of_mem (List.mem_append_right _ (List.mem_singleton_self b)), ih, List.erase_cons_head,
          List.erase_of_not_mem (mt List.mem_dedup.mp hb)]
      · have hother : b ∉ rest ++ [a] := by simp [hb, ha]
        rw [List.dedup_cons_of_notMem hother, ih, List.erase_cons_tail (by simpa using ha), List.cons_append]

/-- When an element goes to the end, only those that were among the last before can be among the last then. -/
theorem rtake_erase_concat (h : l.Nodup) (a : α) (n : Nat) :
    ((l.rtake (n + 1)).erase a ++ [a]).rtake (n + 1) = (l.erase a ++ [a]).rtake (n + 1) := by
  rw [List.rtake_concat_succ, List.rtake_concat_succ]
  congr 1
  rcases Nat.le_total l.length (n + 1) with hle | hle
  · rw [rtake_of_length_le hle]
  · have hsplit : l.take (l.length - (n + 1)) ++ l.rtake (n + 1) = l := List.take_append_drop ..
    have hlength : (l.rtake (n + 1)).length = n + 1 := by
      rw [List.rtake, List.length_drop]
      omega
    generalize l.take (l.length - (n + 1)) = front at hsplit
    generalize l.rtake (n + 1) = back at hsplit hlength
    subst hsplit
    -- the element is taken out of the front or of the last ones, of which all but one are needed
    rw [List.erase_append]
    split
    · rename_i ha
      have hback : a ∉ back := fun hmem => (List.nodup_append.mp h).2.2 a ha a hmem rfl
      rw [List.erase_of_not_mem hback, rtake_append_of_le (by omega)]
    · have hleft : n ≤ (back.erase a).length := by
        rw [List.length_erase]
        split <;> omega
      rw [rtake_append_of_le hleft]

end Lists

/-! ### Single accesses -/

variable {files : Tree} {path : Path} {p : Pool} {a : Archive.Opened}

/-- The paths of the open archives, up to their spelling, the one used last at the end. -/
def paths (p : Pool) : List (List Path.Part) := p.opened.map fun e => e.1.parts

theorem length_paths (p : Pool) : p.paths.length = p.size := List.length_map _

theorem same_eq_beq (q path : Path) : q.same path = (path.parts == q.parts) := by
  rw [Path.same, beq_eq_decide, decide_eq_decide]
  exact eq_comm

theorem find?_eq_none_iff : p.find? path = none ↔ path.parts ∉ p.paths := by
  unfold find? paths
  rw [List.find?_eq_none, List.mem_map]
  simp [Path.same]

/-- An archive that is found goes to the end. -/
theorem paths_touch {e : Path × Archive.Opened} (h : p.find? path = some e) :
    (p.touch path e).paths = p.paths.erase path.parts ++ [path.parts] := by
  obtain ⟨_, hsame⟩ := find?_some h
  have hparts : e.1.parts = path.parts := of_decide_eq_true hsame
  unfold paths touch
  rw [List.map_append, List.erase_eq_eraseP, List.eraseP_map, List.map_singleton, hparts]
  simp only [same_eq_beq]
  rfl

/-- A new archive goes to the end, and as many are closed in front as there is no room for. -/
theorem paths_push (e : Path × Archive.Opened) (hpos : 0 < p.capacity) :
    (p.push e).paths = (p.paths ++ [e.1.parts]).rtake p.capacity := by
  have hroom : p.size + 1 - p.capacity ≤ p.paths.length := by
    rw [length_paths]
    omega
  rw [List.rtake, List.length_append, List.length_singleton, length_paths, List.drop_append_of_le_length hroom]
  simp only [paths, push, size, List.map_append, List.map_drop, List.map_singleton]

/-- A path that is not in the pool is opened. -/
theorem access_of_not_mem [Archive.Format] (hnew : path.parts ∉ p.paths) (files : Tree) :
    (p.access files path).1 = openFile files path := by
  unfold access
  rw [find?_eq_none_iff.mpr hnew]
  dsimp only
  split <;> rename_i hopen <;> rw [hopen]

/-- Everything that an access can do to the pool. -/
theorem access_cases [Archive.Format] (files : Tree) (path : Path) (p : Pool) :
    (∃ e, p.find? path = some e ∧ p.access files path = (.ok e.2, p.touch path e)) ∨
    (path.parts ∉ p.paths ∧ ∃ a, p.access files path = (.ok a, p.push (path, a))) ∨
    path.parts ∉ p.paths ∧ ∃ failure, p.access files path = (.error failure, p) := by
  unfold access
  cases hfind : p.find? path with
  | some e => exact .inl ⟨e, rfl, rfl⟩
  | none =>
    have hnew := find?_eq_none_iff.mp hfind
    cases openFile files path with
    | ok a => exact .inr (.inl ⟨hnew, a, rfl⟩)
    | error failure => exact .inr (.inr ⟨hnew, failure, rfl⟩)

theorem find?_of_mem {e : Path × Archive.Opened} (hdistinct : p.paths.Nodup) (he : e ∈ p.opened)
    (hsame : e.1.same path = true) : p.find? path = some e := by
  cases hfind : p.find? path with
  | none =>
    have hpath : e.1.parts ∈ p.paths := List.mem_map_of_mem he
    rw [of_decide_eq_true hsame] at hpath
    exact absurd hpath (find?_eq_none_iff.mp hfind)
  | some e' =>
    obtain ⟨he', hsame'⟩ := find?_some hfind
    have hparts := (of_decide_eq_true hsame').trans (of_decide_eq_true hsame).symm
    rw [List.inj_on_of_nodup_map hdistinct he' he hparts]

theorem perm_touch {e : Path × Archive.Opened} (h : p.find? path = some e) :
    (p.touch path e).opened.Perm p.opened := by
  obtain ⟨hsame, front, back, hsplit, hfront⟩ := List.find?_eq_some_iff_append.mp h
  have herase : p.opened.eraseP (fun e => e.1.same path) = front ++ back := by
    rw [hsplit, List.eraseP_append_right _ (by simpa using hfront)]
    exact congrArg (front ++ ·) (List.eraseP_cons_of_pos (p := fun e : Path × Archive.Opened => e.1.same path) hsame)
  show (p.opened.eraseP (fun e => e.1.same path) ++ [e]).Perm p.opened
  rw [herase, hsplit]
  exact (List.perm_append_singleton e _).trans List.perm_middle.symm

/-- An archive that is open is answered as it is, whatever the files are by now, and none is opened or closed. -/
theorem access_of_mem [Archive.Format] {e : Path × Archive.Opened} (hdistinct : p.paths.Nodup) (he : e ∈ p.opened)
    (hsame : e.1.same path = true) (files : Tree) :
    (p.access files path).1 = .ok e.2 ∧ (p.access files path).2.opened.Perm p.opened := by
  have hfind := find?_of_mem hdistinct he hsame
  unfold access
  rw [hfind]
  exact ⟨rfl, perm_touch hfind⟩

/-- An access without an archive leaves the pool as it was. -/
theorem access_of_error [Archive.Format] {failure : ClassError} (h : (p.access files path).1 = .error failure) :
    (p.access files path).2 = p := by
  obtain ⟨e, _, haccess⟩ | ⟨_, a, haccess⟩ | ⟨_, _, haccess⟩ := access_cases files path p
  · rw [haccess] at h
    cases h
  · rw [haccess] at h
    cases h
  · rw [haccess]

/-- After an access with an archive its path is the last one. -/
theorem paths_access [Archive.Format] (hpos : 0 < p.capacity) (hsize : p.size ≤ p.capacity)
    (h : (p.access files path).1 = .ok a) :
    (p.access files path).2.paths = (p.paths.erase path.parts ++ [path.parts]).rtake p.capacity := by
  obtain ⟨e, hfind, haccess⟩ | ⟨hnew, a, haccess⟩ | ⟨_, _, haccess⟩ := access_cases files path p
  · have hmem : path.parts ∈ p.paths := by
      by_contra hnew
      rw [find?_eq_none_iff.mpr hnew] at hfind
      cases hfind
    have hlength := List.length_erase_of_mem hmem
    have hfirst := List.length_pos_of_mem hmem
    rw [haccess, paths_touch hfind, rtake_of_length_le]
    rw [List.length_append, List.length_singleton, hlength, Nat.sub_add_cancel hfirst, length_paths]
    exact hsize
  · rw [haccess, paths_push _ hpos, List.erase_of_not_mem hnew]
  · rw [haccess] at h
    cases h

theorem capacity_access [Archive.Format] (files : Tree) (path : Path) (p : Pool) :
    (p.access files path).2.capacity = p.capacity := by
  obtain ⟨_, _, haccess⟩ | ⟨_, _, haccess⟩ | ⟨_, _, haccess⟩ := access_cases files path p
  all_goals exact congrArg (·.2.capacity) haccess

/-! ### A pool in use -/

section Uses
variable [Archive.Format]

/-- What is done with a pool. An access finds the files as they are at the time. -/
inductive Use where
  | access (files : Tree) (path : Path)
  | close

/-- A pool and the paths that have been accessed with success since it was closed, the last one at the end. -/
structure Watched where
  pool : Pool
  accessed : List Path

def Watched.use (w : Watched) : Use → Watched
  | .access files path =>
    { pool := (w.pool.access files path).2
      accessed := if (w.pool.access files path).1.isOk then w.accessed ++ [path] else w.accessed }
  | .close => ⟨w.pool.close, []⟩

theorem Watched.use_of_ok {w : Watched} (h : (w.pool.access files path).1 = .ok a) :
    w.use (.access files path) = ⟨(w.pool.access files path).2, w.accessed ++ [path]⟩ := by
  rw [Watched.use, h]
  rfl

/-- An access that fails is not noticed. -/
theorem Watched.use_of_error {w : Watched} {failure : ClassError}
    (h : (w.pool.access files path).1 = .error failure) : w.use (.access files path) = w := by
  rw [Watched.use, h, access_of_error h]
  rfl

/-- A new pool after some uses. -/
def watched (capacity : Nat) (uses : List Use) : Watched := uses.foldl Watched.use ⟨.new capacity, []⟩

/-- The pool has room for `n` archives and holds those of the last `n` different paths. -/
structure Watched.Recent (n : Nat) (w : Watched) : Prop where
  capacity : w.pool.capacity = n
  paths : w.pool.paths = (w.accessed.map Path.parts).dedup.rtake n

namespace Watched.Recent
variable {w : Watched} {n : Nat}

omit [Archive.Format] in
theorem size_le (h : w.Recent n) : w.pool.size ≤ n := by
  rw [← length_paths, h.paths, List.rtake, List.length_drop]
  omega

omit [Archive.Format] in
theorem nodup (h : w.Recent n) : w.pool.paths.Nodup := by
  rw [h.paths]
  exact (List.drop_sublist _ _).nodup (List.nodup_dedup _)

theorem use (h : w.Recent (n + 1)) (u : Use) : (w.use u).Recent (n + 1) := by
  cases u with
  | close => exact ⟨h.capacity, (List.rtake_nil _).symm⟩
  | access files path =>
    cases haccess : (w.pool.access files path).1 with
    | ok a =>
      have hpos : 0 < w.pool.capacity := by
        rw [h.capacity]
        exact Nat.succ_pos n
      have hpaths := paths_access hpos (h.capacity ▸ h.size_le) haccess
      rw [Watched.use_of_ok haccess]
      refine ⟨(capacity_access files path w.pool).trans h.capacity, hpaths.trans ?_⟩
      rw [h.capacity, h.paths, rtake_erase_concat (List.nodup_dedup _), ← dedup_concat, List.map_append,
        List.map_singleton]
    | error failure =>
      rw [Watched.use_of_error haccess]
      exact h

end Watched.Recent

theorem watched_recent (capacity : Nat) (uses : List Use) : (watched capacity uses).Recent (max capacity 1) := by
  obtain ⟨n, hn⟩ : ∃ n, max capacity 1 = n + 1 := ⟨max capacity 1 - 1, by omega⟩
  have hrun : ∀ w : Watched, w.Recent (n + 1) → (uses.foldl Watched.use w).Recent (n + 1) := by
    induction uses with
    | nil => exact fun _ hw => hw
    | cons u rest ih => exact fun w hw => ih (w.use u) (hw.use u)
  rw [hn]
  exact hrun _ ⟨hn, (List.rtake_nil _).symm⟩

/-- **Which archives are open.** However a pool has been used, it holds at most as many archives as it has room for,
no two of them for one path. Their paths are the last ones that have been accessed with success since the pool was
closed, each counted once, in the order of their last accesses and as many as fit. An access to a path that is in the
pool answers the archive that is open, whatever the files are by now, and opens and closes none. An access to any
other path is answered by opening the file, and if that fails the pool is left as it was. -/
theorem recent_open (capacity : Nat) (uses : List Use) :
    (watched capacity uses).pool.size ≤ max capacity 1 ∧
    (watched capacity uses).pool.paths.Nodup ∧
    (watched capacity uses).pool.paths =
      ((watched capacity uses).accessed.map Path.parts).dedup.rtake (max capacity 1) ∧
    (∀ e ∈ (watched capacity uses).pool.opened, ∀ files path, e.1.same path = true →
      ((watched capacity uses).pool.access files path).1 = .ok e.2 ∧
        ((watched capacity uses).pool.access files path).2.opened.Perm (watched capacity uses).pool.opened) ∧
    (∀ files path, path.parts ∉ (watched capacity uses).pool.paths →
      ((watched capacity uses).pool.access files path).1 = openFile files path) ∧
    ∀ files path failure, ((watched capacity uses).pool.access files path).1 = .error failure →
      ((watched capacity uses).pool.access files path).2 = (watched capacity uses).pool := by
  have h := watched_recent capacity uses
  exact ⟨h.size_le, h.nodup, h.paths, fun e he files _ hsame => access_of_mem h.nodup he hsame files,
    fun files _ hnew => access_of_not_mem hnew files, fun _ _ _ hfailure => access_of_error hfailure⟩

end Uses

/-- Two archives, used one after the other, and a file between them that is not there. -/
def twoArchives : List Use :=
  let files : Tree := ⟨⟨[(["a.jar"], .file Cache.FileCache.smallArchive),
    (["b.jar"], .file Cache.FileCache.smallArchive)]⟩⟩
  [.access files ⟨"a.jar"⟩, .access files ⟨"c.jar"⟩, .access files ⟨"b.jar"⟩]

theorem recent_open_pair : (watched 1 twoArchives).pool.paths = [[.name "b.jar"]] ∧
    ∃ a, ((watched 1 twoArchives).pool.access .empty ⟨"b.jar"⟩).1 = .ok a := by
  obtain ⟨_, _, hpaths, hopen, _⟩ := recent_open 1 twoArchives
  have haccessed : (watched 1 twoArchives).accessed = [⟨"a.jar"⟩, ⟨"b.jar"⟩] := by decide +kernel
  rw [haccessed] at hpaths
  have hmem : Path.parts ⟨"b.jar"⟩ ∈ (watched 1 twoArchives).pool.paths := by
    rw [hpaths]
    decide
  obtain ⟨e, he, hparts⟩ := List.mem_map.mp hmem
  exact ⟨hpaths.trans (by decide), e.2, (hopen e he .empty ⟨"b.jar"⟩ (decide_eq_true hparts)).1⟩

/-! ### The pool of a class path -/

variable [Archive.Format]

/-- The second pool is what comes of the first by some uses. -/
def Used (p q : Pool) : Prop := ∃ uses : List Use, ∀ accessed, (uses.foldl Watched.use ⟨p, accessed⟩).pool = q

instance : IsPreorder Pool Used where
  refl p := ⟨[], fun _ => rfl⟩
  trans := by
    rintro p q r ⟨first, hfirst⟩ ⟨second, hsecond⟩
    refine ⟨first ++ second, fun accessed => ?_⟩
    rw [List.foldl_append, ← hsecond (first.foldl Watched.use ⟨p, accessed⟩).accessed, ← hfirst accessed]

theorem used_access (files : Tree) (p : Pool) (path : Path) : Used p (p.access files path).2 :=
  ⟨[.access files path], fun _ => rfl⟩

end ClassCatalog.ClassPath.Pool

namespace ClassCatalog.ClassPath
open Files ClassCatalog.Action

variable [Archive.Format]

theorem ask_used (files : Tree) (q : Query) : Keeps (Pools Pool.Used) (ask files q) := by
  have haccess := Pool.used_access files
  cases q with
  | locate name => exact .bind (fun s => locateFrom_pools haccess name s.state.elements 0 s) fun _ => .pure _
  | list => exact .bind (fun s => listFrom_pools haccess s.state.elements 0 [] s) fun _ => .pure _
  | read name location => exact .bind (read_pools haccess name location) fun _ => .pure _
  | close => exact .bind (.update fun cp => ⟨[.close], fun _ => rfl⟩) fun _ => .pure _

/-- Queries over files that may be other ones each time. -/
def session (steps : List (Tree × Query)) (s : Scene ClassPath) : Scene ClassPath :=
  steps.foldl (fun s step => ((ask step.1 step.2).start s).2) s

/-- Whatever a class path is asked, its pool is one that has been used. -/
theorem exists_uses (files : Tree) (locations : List Path) (capacity : Nat) (told : Journal)
    (steps : List (Tree × Query)) : ∃ uses,
      (session steps ⟨.new files locations capacity, told⟩).state.pool = (Pool.watched capacity uses).pool := by
  have hrun : ∀ s : Scene ClassPath, Pools Pool.Used s.state (session steps s).state := by
    induction steps with
    | nil => exact fun s => refl_of Pool.Used s.state.pool
    | cons step rest ih => exact fun s => trans_of (Pools Pool.Used) (ask_used step.1 step.2 s) (ih _)
  obtain ⟨uses, huses⟩ := hrun ⟨.new files locations capacity, told⟩
  exact ⟨uses, (huses []).symm⟩

/-- A class path has no more archives open than it has been given room for, and room for one it has in any case. -/
theorem openCount_le (files : Tree) (locations : List Path) (capacity : Nat) (told : Journal)
    (steps : List (Tree × Query)) :
    (session steps ⟨.new files locations capacity, told⟩).state.openCount ≤ max capacity 1 := by
  obtain ⟨uses, huses⟩ := exists_uses files locations capacity told steps
  rw [openCount, huses]
  exact (Pool.watched_recent capacity uses).size_le

end ClassCatalog.ClassPath
