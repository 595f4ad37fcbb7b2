import ClassCatalog.Archive.Content
import ClassCatalog.Cache.FileCache
import ClassCatalog.Proofs.Cache.Mirror
import ClassCatalog.Proofs.ClassPath.Reads

/-! Cached reads along the class path.

What the byte cache holds under a key was read for some class asked for under that key, and all direct
reads of that class agree. So a cached answer is a direct read of a class with the same key as the one asked
for (`classBytes_readsAs`). The key is the name and the location put together, so that it is the class asked for
unless names with the separator in them have been asked for as well (`cacheKey_injective`, `not_readsAs`). -/
namespace ClassCatalog.Cache
open Files ClassPath

/-- Names without the separator are told apart by the key, and so are their locations. -/
theorem cacheKey_injective {name name' : String} {path path' : Path} (hname : '#' ∉ name.toList)
    (hname' : '#' ∉ name'.toList) (h : cacheKey name (.path path) = cacheKey name' (.path path')) :
    name = name' ∧ path = path' := by
  have hchars : name.toList ++ '#' :: path.text.toList = name'.toList ++ '#' :: path'.text.toList := by
    have := congrArg String.toList h
    simpa [cacheKey, Location.text] using this
  have hbefore : ∀ n rest : List Char, '#' ∉ n → (n ++ '#' :: rest).takeWhile (· ≠ '#') = n := by
    intro n rest hn
    have hall : ∀ c ∈ n, decide (c ≠ '#') = true := fun c hc => decide_eq_true fun heq => hn (heq ▸ hc)
    rw [List.takeWhile_append_of_pos hall]
    simp
  have hnames : name.toList = name'.toList := by
    rw [← hbefore _ path.text.toList hname, hchars, hbefore _ _ hname']
  rw [hnames] at hchars
  have htexts : path.text.toList = path'.text.toList := (List.cons.inj (List.append_cancel_left hchars)).2
  exact ⟨String.toList_inj.mp hnames, congrArg Path.mk (String.toList_inj.mp htexts)⟩

namespace FileCache
open ClassCatalog.Action

section Requests
variable [Archive.Format] {files : Tree} {c d : FileCache} {cp : ClassPath} {client : Option Client} {name : String}
  {path : Path} {past : List (String × Path)} {told : Journal} {b : Bytes} {answer : Except ClassError (Option Bytes)}
  {t : Scene Sources}

/-- The bytes are a direct read of something asked for under the key. -/
def Sourced (files : Tree) (past : List (String × Path)) (key : String) (b : Bytes) : Prop :=
  ∃ r ∈ past, cacheKey r.1 (.path r.2) = key ∧ ReadsAs files r.1 r.2 b

theorem Sourced.later {key : String} (h : Sourced files past key b) (r : String × Path) :
    Sourced files (past ++ [r]) key b := by
  obtain ⟨r', hr', hkey, hreads⟩ := h
  exact ⟨r', List.mem_append_left _ hr', hkey, hreads⟩

/-- Everything in the cache is sourced. -/
def Kept (files : Tree) (past : List (String × Path)) (c : FileCache) : Prop :=
  ∃ m, Mirrors m c.bytes ∧ ∀ e ∈ m.entries, Sourced files past e.1 e.2

theorem kept_new (hash : String → Nat) (capacity : Nat) (supplied : Supplied) :
    Kept files [] ⟨.new hash capacity, supplied⟩ :=
  ⟨_, .new hash capacity, fun _ h => nomatch h⟩

variable [Supplied.Arrangement]

theorem start_classBytes (client : Option Client) (name : String) (path : Path) (c : FileCache) (cp : ClassPath)
    (told : Journal) :
    (classBytes files client name (.path path)).start ⟨⟨c, some cp⟩, told⟩ =
      match (c.bytes.get (cacheKey name (.path path))).1 with
      | some b => (.ok (some b),
          ⟨⟨{ c with bytes := (c.bytes.get (cacheKey name (.path path))).2 }, some cp⟩, told⟩)
      | none =>
        match (ClassPath.read files name path).start ⟨cp, told⟩ with
        | (.ok b, u) => (.ok (some b), ⟨⟨{ c with bytes :=
            (c.bytes.get (cacheKey name (.path path))).2.put (cacheKey name (.path path)) b }, some u.state⟩,
            u.journal⟩)
        | (.error e, u) => (.error e,
            ⟨⟨{ c with bytes := (c.bytes.get (cacheKey name (.path path))).2 }, some u.state⟩, u.journal⟩) := by
  unfold classBytes
  simp only [start_bind, start_state, start_put]
  cases (c.bytes.get (cacheKey name (.path path))).1 with
  | some b => rfl
  | none =>
    simp only [start_bind, readAndKeep, start_within]
    cases (ClassPath.read files name path).start ⟨cp, told⟩ with
    | mk r u => cases r <;> rfl

/-- Requests for classes along the class path, the one made last at the end. The class path at hand may be
another one at each. -/
inductive Run (files : Tree) (c : FileCache) : List (String × Path) → FileCache → Prop
  | start : Run files c [] c
  | request {past : List (String × Path)} {d : FileCache} {cp : ClassPath} {client : Option Client} {name : String}
      {path : Path} {told : Journal} {answer : Except ClassError (Option Bytes)} {t : Scene Sources}
      (run : Run files c past d) (reachable : Reachable files cp)
      (step : (classBytes files client name (.path path)).start ⟨⟨d, some cp⟩, told⟩ = (answer, t)) :
      Run files c (past ++ [(name, path)]) t.state.files

/-- One request: what it answers is sourced, and so is everything that is in the cache after it. -/
theorem Kept.request (h : Kept files past d) (hcp : Reachable files cp)
    (hstep : (classBytes files client name (.path path)).start ⟨⟨d, some cp⟩, told⟩ = (answer, t)) :
    Kept files (past ++ [(name, path)]) t.state.files ∧
      ∀ b, answer = .ok (some b) → Sourced files (past ++ [(name, path)]) (cacheKey name (.path path)) b := by
  obtain ⟨m, hm, hentries⟩ := h
  obtain ⟨hhit, hget⟩ := hm.get (cacheKey name (.path path))
  have hkept : ∀ e ∈ (m.get (cacheKey name (.path path))).2.entries,
      Sourced files (past ++ [(name, path)]) e.1 e.2 :=
    fun e he => (hentries e (Recency.mem_get he)).later _
  rw [start_classBytes, hhit] at hstep
  cases hfound : (m.get (cacheKey name (.path path))).1 with
  | some b =>
    rw [hfound] at hstep
    cases hstep
    refine ⟨⟨_, hget, hkept⟩, fun b' hb' => ?_⟩
    cases hb'
    exact (hentries _ (Recency.mem_of_get hfound)).later _
  | none =>
    rw [hfound] at hstep
    cases hread : (ClassPath.read files name path).start ⟨cp, told⟩ with
    | mk r u =>
      rw [hread] at hstep
      cases r with
      | error e =>
        cases hstep
        exact ⟨⟨_, hget, hkept⟩, fun _ h => nomatch h⟩
      | ok b =>
        cases hstep
        have hreads : ReadsAs files name path b := readsAs_of_read hcp (congrArg Prod.fst hread)
        have hsourced : Sourced files (past ++ [(name, path)]) (cacheKey name (.path path)) b :=
          ⟨(name, path), List.mem_append_right _ (List.mem_singleton_self _), rfl, hreads⟩
        refine ⟨⟨_, hget.put _ b, fun e he => ?_⟩, fun b' hb' => ?_⟩
        · rcases Recency.mem_put he with he | rfl
          · exact hkept e he
          · exact hsourced
        · cases hb'
          exact hsourced

theorem Run.kept (h : Run files c past d) (hc : Kept files [] c) : Kept files past d := by
  induction h with
  | start => exact hc
  | request run reachable step ih => exact (ih.request reachable step).1

/-- **A cached answer is a direct read.** Whatever the hash function, the capacity and the requests before, the
bytes answered for a class are what direct reads answer for a class with the same key that has been asked for,
this one or an earlier one; so they are those of the class itself, unless another one with its key has been
asked for, and always if no name asked for has the separator in it. -/
theorem classBytes_readsAs {hash : String → Nat} {capacity : Nat} {supplied : Supplied}
    (hrun : Run files ⟨.new hash capacity, supplied⟩ past c) (hcp : Reachable files cp)
    (hanswer : ((classBytes files client name (.path path)).start ⟨⟨c, some cp⟩, told⟩).1 = .ok (some b)) :
    (∃ r ∈ past ++ [(name, path)], cacheKey r.1 (.path r.2) = cacheKey name (.path path) ∧
        ReadsAs files r.1 r.2 b) ∧
      ((∀ r ∈ past, cacheKey r.1 (.path r.2) = cacheKey name (.path path) → r = (name, path)) →
        ReadsAs files name path b) ∧
      ((∀ r ∈ past ++ [(name, path)], '#' ∉ r.1.toList) → ReadsAs files name path b) := by
  obtain ⟨r, hr, hkey, hreads⟩ : Sourced files (past ++ [(name, path)]) (cacheKey name (.path path)) b := by
    cases hstep : (classBytes files client name (.path path)).start ⟨⟨c, some cp⟩, told⟩ with
    | mk answer t =>
      rw [hstep] at hanswer
      exact ((hrun.kept (kept_new ..)).request hcp hstep).2 b hanswer
  refine ⟨⟨r, hr, hkey, hreads⟩, fun hapart => ?_, fun hnames => ?_⟩
  · rcases List.mem_append.mp hr with hpast | hlast
    · cases hapart r hpast hkey
      exact hreads
    · cases List.mem_singleton.mp hlast
      exact hreads
  · have hlast := hnames _ (List.mem_append_right _ (List.mem_singleton_self _))
    obtain ⟨rfl, rfl⟩ := cacheKey_injective (hnames r hr) hlast hkey
    exact hreads

end Requests

/-- An archive with one class, of one byte. -/
def smallArchive : Bytes :=
  #[80, 75, 3, 4, 20, 0, 0, 0, 0, 0, 0, 0, 33, 0, 27, 223, 5, 165, 1, 0, 0, 0, 1, 0, 0, 0, 7, 0, 0, 0, 65, 46, 99,
    108, 97, 115, 115, 1, 80, 75, 1, 2, 20, 3, 20, 0, 0, 0, 0, 0, 0, 0, 33, 0, 27, 223, 5, 165, 1, 0, 0, 0, 1, 0, 0,
    0, 7, 0, 0, 0, 0, 0, 0, 0, 0, 0, 0, 0, 128, 1, 0, 0, 0, 0, 65, 46, 99, 108, 97, 115, 115, 80, 75, 5, 6, 0, 0, 0,
    0, 1, 0, 1, 0, 53, 0, 0, 0, 38, 0, 0, 0, 0, 0]

/-- An archive, and two classes in directories. -/
def sampleTree : Tree :=
  ⟨⟨[(["a.jar"], .file smallArchive), (["c"], .directory), (["c", "a#b.class"], .file #[2]),
    (["b#c"], .directory), (["b#c", "a.class"], .file #[3])]⟩⟩

def sampleClassPath : ClassPath := .new sampleTree [⟨"a.jar"⟩] 1

/-- After a class has been asked for once. -/
def sampleAfter (name : String) (path : Path) : Scene Sources :=
  ((classBytes sampleTree none name (.path path)).start
    ⟨⟨⟨.new polynomialHash 4, .new 1⟩, some sampleClassPath⟩, []⟩).2

theorem classBytes_readsAs_again :
    ((classBytes sampleTree none "A" (.path ⟨"a.jar"⟩)).start
        ⟨⟨(sampleAfter "A" ⟨"a.jar"⟩).state.files, some sampleClassPath⟩, []⟩).1 = .ok (some #[1]) ∧
      ReadsAs sampleTree "A" ⟨"a.jar"⟩ #[1] := by
  have hcp : Reachable sampleTree sampleClassPath := .new [⟨"a.jar"⟩] 1
  have hrun : Run sampleTree ⟨.new polynomialHash 4, .new 1⟩ [("A", ⟨"a.jar"⟩)]
      (sampleAfter "A" ⟨"a.jar"⟩).state.files := .request .start hcp (Prod.eta _).symm
  have hanswer : ((classBytes sampleTree none "A" (.path ⟨"a.jar"⟩)).start
      ⟨⟨(sampleAfter "A" ⟨"a.jar"⟩).state.files, some sampleClassPath⟩, []⟩).1 = .ok (some #[1]) := by
    decide +kernel
  exact ⟨hanswer, (classBytes_readsAs hrun hcp hanswer).2.2 (by decide +kernel)⟩

/-- Of two classes with one key the second is answered with the bytes of the first. And an archive that is open
is used under a spelling that does not lead to it, where a direct read fails. -/
theorem not_readsAs :
    (((classBytes sampleTree none "a" (.path ⟨"b#c"⟩)).start (sampleAfter "a#b" ⟨"c"⟩)).1 = .ok (some #[2]) ∧
        ((ClassPath.read sampleTree "a" ⟨"b#c"⟩).start ⟨sampleClassPath, []⟩).1 = .ok #[3]) ∧
      ((classBytes sampleTree none "A" (.path ⟨"a.jar/"⟩)).start (sampleAfter "A" ⟨"a.jar"⟩)).1 = .ok (some #[1]) ∧
        ((ClassPath.read sampleTree "A" ⟨"a.jar/"⟩).start ⟨sampleClassPath, []⟩).1 =
          .error (.read ⟨"a.jar/"⟩ .notADirectory) := by
  decide +kernel

end FileCache
end ClassCatalog.Cache
