import ClassCatalog.ClassPath.Search
import ClassCatalog.Proofs.Action
import ClassCatalog.Proofs.Files.Paths

/-! Reading classes directly.

An archive that is open was opened under a spelling of the path it is asked for, and two spellings of one path lead
to the same place if both lead anywhere. So all direct reads of a class that succeed answer the same bytes, whatever
is open at the time, and one can only fail where the location leads nowhere as it is spelled (`readsAs_of_read`). -/
namespace ClassCatalog
open Files

/-! ### Open archives -/

namespace ClassPath
variable [Archive.Format] {files : Tree} {cp : ClassPath} {location path : Path} {name : String} {b : Bytes}
  {a a' : Archive.Opened} {pool : Pool}

/-- Every open archive was opened from these files. -/
def Pool.Faithful (files : Tree) (p : Pool) : Prop := ∀ e ∈ p.opened, Pool.openFile files e.1 = .ok e.2

namespace Pool

theorem openFile_ok (h : openFile files path = .ok a) :
    ∃ b, files.read path = .ok b ∧ Archive.Format.open? b = some a := by
  unfold openFile at h
  split at h
  · cases h
  · rename_i b hread
    split at h
    · rename_i hopen
      cases h
      exact ⟨b, hread, hopen⟩
    · cases h

theorem openFile_same {q : Path} (hsame : path.same q = true) (h : openFile files path = .ok a)
    (h' : openFile files q = .ok a') : a = a' := by
  obtain ⟨b, hread, hopen⟩ := openFile_ok h
  obtain ⟨b', hread', hopen'⟩ := openFile_ok h'
  cases Tree.read_same hsame hread hread'
  exact Option.some.inj (hopen.symm.trans hopen')

/-- What can be read under another spelling and is a file under this one can be opened under this one. -/
theorem openFile_of_isFile {q : Path} (hsame : q.same path = true) (h : openFile files q = .ok a)
    (hfile : files.isFile path = true) : openFile files path = .ok a := by
  obtain ⟨b, hread, hopen⟩ := openFile_ok h
  obtain ⟨b', hread'⟩ := Tree.read_of_isFile hfile
  cases Tree.read_same hsame hread hread'
  simp only [openFile, hread', hopen]

omit [Archive.Format] in
theorem find?_some {e : Path × Archive.Opened} (h : pool.find? path = some e) :
    e ∈ pool.opened ∧ e.1.same path = true :=
  ⟨List.mem_of_find?_eq_some h, List.find?_some (p := fun e : Path × Archive.Opened => e.1.same path) h⟩

theorem access_faithful (h : pool.Faithful files) (path : Path) :
    (pool.access files path).2.Faithful files := by
  unfold access
  split
  · rename_i e hfind
    intro x hx
    rcases List.mem_append.mp hx with hx | hx
    · exact h x (List.mem_of_mem_eraseP hx)
    · rw [List.mem_singleton.mp hx]
      exact h e (find?_some hfind).1
  · split
    · rename_i hopen
      intro x hx
      rcases List.mem_append.mp hx with hx | hx
      · exact h x (List.mem_of_mem_drop hx)
      · rw [List.mem_singleton.mp hx]
        exact hopen
    · exact h

theorem access_ok (h : pool.Faithful files) (ha : (pool.access files path).1 = .ok a) :
    ∃ q, Path.same q path = true ∧ openFile files q = .ok a := by
  unfold access at ha
  split at ha
  · rename_i e hfind
    cases ha
    obtain ⟨hmem, hsame⟩ := find?_some hfind
    exact ⟨e.1, hsame, h e hmem⟩
  · split at ha
    · rename_i hopen
      cases ha
      exact ⟨path, path.same_refl, hopen⟩
    · cases ha

theorem access_error {e : ClassError} (he : (pool.access files path).1 = .error e) :
    openFile files path = .error e := by
  unfold access at he
  split at he
  · cases he
  · split at he
    · cases he
    · rename_i hopen
      cases he
      exact hopen

end Pool

/-! ### Class paths over files -/

/-- What becomes of a class path over unchanging files, whatever it is used for. -/
inductive Reachable (files : Tree) : ClassPath → Prop
  | new (locations : List Path) (capacity : Nat) : Reachable files (.new files locations capacity)
  | locate {cp : ClassPath} (h : Reachable files cp) (name : String) (told : Journal) :
      Reachable files ((ClassPath.locate files name).start ⟨cp, told⟩).2.state
  | list {cp : ClassPath} (h : Reachable files cp) (told : Journal) :
      Reachable files ((ClassPath.list files).start ⟨cp, told⟩).2.state
  | read {cp : ClassPath} (h : Reachable files cp) (name : String) (location : Path) (told : Journal) :
      Reachable files ((ClassPath.read files name location).start ⟨cp, told⟩).2.state
  | close {cp : ClassPath} (h : Reachable files cp) : Reachable files cp.close

/-- The pools of the class paths are related. -/
def Pools (R : Pool → Pool → Prop) (c d : ClassPath) : Prop := R c.pool d.pool

instance (R : Pool → Pool → Prop) [IsPreorder Pool R] : IsPreorder ClassPath (Pools R) where
  refl c := refl_of R c.pool
  trans _ _ _ h h' := trans_of R h h'

open ClassCatalog.Action

theorem start_archiveAt (location : Path) (s : Scene ClassPath) :
    (archiveAt files location).start s = (.ok (s.state.pool.access files location).1,
      ⟨{ s.state with pool := (s.state.pool.access files location).2 }, s.journal⟩) := rfl

theorem start_read (name : String) (location : Path) (s : Scene ClassPath) :
    (read files name location).start s =
      if files.isDirectory location then
        ((files.read (location.join (Name.fileName name))).mapError
          (.read (location.join (Name.fileName name))), s)
      else
        ((s.state.pool.access files location).1 >>= Pool.readEntry location (Name.fileName name),
          ⟨{ s.state with pool := (s.state.pool.access files location).2 }, s.journal⟩) := by
  unfold read
  split
  · rfl
  · rw [start_bind, start_archiveAt]
    cases (s.state.pool.access files location).1 <;> rfl

section Pools
variable {R : Pool → Pool → Prop} [IsPreorder Pool R] (haccess : ∀ p location, R p (p.access files location).2)
include haccess

theorem listClasses_pools (e : Element) : Keeps (Pools R) (listClasses files e) := by
  unfold listClasses
  cases e.kind with
  | directory => exact .pure _
  | archive =>
    refine .bind (fun s => haccess s.state.pool e.location) fun r => ?_
    cases r with
    | ok a => exact .pure _
    | error e => exact .bind (.report _) fun _ => .pure _

theorem classesOf_pools (i : Nat) (e : Element) : Keeps (Pools R) (classesOf files i e) := by
  unfold classesOf
  cases e.classes with
  | some classes => exact .pure _
  | none =>
    exact .bind (listClasses_pools haccess e) fun _ => .bind (.update fun cp => refl_of R cp.pool) fun _ => .pure _

theorem locateFrom_pools (name : String) (elements : List Element) (i : Nat) :
    Keeps (Pools R) (locateFrom files name i elements) := by
  induction elements generalizing i with
  | nil => exact .pure _
  | cons e rest ih =>
    refine .bind (classesOf_pools haccess i e) fun classes => ?_
    split
    · exact .pure _
    · exact ih (i + 1)

theorem listFrom_pools (elements : List Element) (i : Nat) (seen : List String) :
    Keeps (Pools R) (listFrom files i elements seen) := by
  induction elements generalizing i seen with
  | nil => exact .pure _
  | cons e rest ih => exact .bind (classesOf_pools haccess i e) fun _ => ih _ _

theorem read_pools (name : String) (location : Path) : Keeps (Pools R) (read files name location) := by
  intro s
  rw [start_read]
  split
  · exact refl_of R s.state.pool
  · exact haccess s.state.pool location

end Pools

/-- The second pool has only archives of the files if the first has. -/
def Pool.Trusting (files : Tree) (p q : Pool) : Prop := p.Faithful files → q.Faithful files

instance : IsPreorder Pool (Pool.Trusting files) where
  refl _ h := h
  trans _ _ _ h h' := fun hp => h' (h hp)

theorem Reachable.faithful (h : Reachable files cp) : cp.pool.Faithful files := by
  have haccess (p : Pool) (location : Path) : Pool.Trusting files p (p.access files location).2 :=
    fun hp => Pool.access_faithful hp location
  induction h with
  | new locations capacity => exact fun _ h => nomatch h
  | @locate cp h name told ih => exact locateFrom_pools haccess name cp.elements 0 ⟨cp, told⟩ ih
  | @list cp h told ih => exact listFrom_pools haccess cp.elements 0 [] ⟨cp, told⟩ ih
  | @read cp h name location told ih => exact read_pools haccess name location ⟨cp, told⟩ ih
  | close h ih => exact fun _ h => nomatch h

/-! ### Direct reads -/

/-- `b` is what reading a class directly answers, at any time and whatever has been read before; a read can
fail only where the location leads nowhere as it is spelled. -/
structure ReadsAs (files : Tree) (name : String) (location : Path) (b : Bytes) : Prop where
  once : ∃ cp told, Reachable files cp ∧ ((read files name location).start ⟨cp, told⟩).1 = .ok b
  always : ∀ cp told, Reachable files cp → ((read files name location).start ⟨cp, told⟩).1 = .ok b ∨
    files.isFile location = false ∧ files.isDirectory location = false ∧
      ∃ e, ((read files name location).start ⟨cp, told⟩).1 = .error e

/-- **All direct reads agree.** What one of them answers is what the others answer. -/
theorem readsAs_of_read {told : Journal} (hcp : Reachable files cp)
    (h : ((read files name location).start ⟨cp, told⟩).1 = .ok b) : ReadsAs files name location b := by
  refine ⟨⟨cp, told, hcp, h⟩, fun cp' told' hcp' => ?_⟩
  rw [start_read] at h ⊢
  cases hdir : files.isDirectory location with
  | true =>
    rw [hdir] at h
    exact .inl h
  | false =>
    rw [hdir] at h
    simp only [Bool.false_eq_true, if_false] at h ⊢
    cases ha : (cp.pool.access files location).1 with
    | error e =>
      rw [ha] at h
      cases h
    | ok a =>
      obtain ⟨q, hq, hopen⟩ := Pool.access_ok hcp.faithful ha
      rw [ha] at h
      cases ha' : (cp'.pool.access files location).1 with
      | ok a' =>
        obtain ⟨q', hq', hopen'⟩ := Pool.access_ok hcp'.faithful ha'
        have hsame : q.same q' = true := decide_eq_true ((of_decide_eq_true hq).trans (of_decide_eq_true hq').symm)
        cases Pool.openFile_same hsame hopen hopen'
        exact .inl h
      | error e =>
        refine .inr ⟨?_, trivial, e, rfl⟩
        rw [Bool.eq_false_iff]
        intro hfile
        have := Pool.openFile_of_isFile hq hopen hfile
        rw [Pool.access_error ha'] at this
        cases this

end ClassPath
end ClassCatalog
