import Mathlib.Data.List.Induction
import ClassCatalog.Proofs.Files.Paths
import ClassCatalog.Proofs.Table

/-! Trees as files are kept in them.

A tree is a table of places, and not every table is one that writing and deleting leave. Those are `Made`, and they
are `Sound`: each place has a name and stands in a directory (`Made.sound`). In a sound tree a path to a directory,
continued by the names that lead further down, comes to what stands there, unless it gets too long or has a character
in it that no path can have (`Sound.read_join`). -/
namespace ClassCatalog

/-- What can be called so: the text is neither empty nor a step of its own, and no slash divides it. -/
def Path.IsName (n : String) : Prop := n ≠ "" ∧ n ≠ "." ∧ n ≠ ".." ∧ '/' ∉ n.toList

namespace Files.Tree
variable {t : Tree} {place rel k : Place} {node : Node} {p : Path} {content : Bytes}

/-! ### Sound trees -/

/-- Each place stands once and has a name, and what it stands in is a directory. -/
structure Sound (t : Tree) : Prop where
  distinct : t.nodes.Distinct
  named : ∀ k ∈ t.nodes.keys, k ≠ [] ∧ ∀ n ∈ k, Path.IsName n
  inside : ∀ k ∈ t.nodes.keys, t.at? k.dropLast = some .directory

theorem mem_keys_of_at? (h : t.at? place = some node) (hne : place ≠ []) : place ∈ t.nodes.keys := by
  rw [at?, if_neg hne] at h
  exact List.mem_map.mpr ⟨_, Table.mem_of_get? h, rfl⟩

theorem Sound.at?_of_mem (h : t.Sound) (hmem : (place, node) ∈ t.nodes.entries) : t.at? place = some node := by
  have hkey : place ∈ t.nodes.keys := List.mem_map.mpr ⟨_, hmem, rfl⟩
  rw [at?, if_neg (h.named place hkey).1]
  exact h.distinct.get?_iff.mpr hmem

/-- What is listed as a file below a place stands there. -/
theorem Sound.at?_of_mem_filesBelow (h : t.Sound) (hrel : rel ∈ t.filesBelow place) :
    ∃ content, t.at? (place ++ rel) = some (.file content) := by
  obtain ⟨⟨k, node⟩, hmem, hbelow⟩ := List.mem_filterMap.mp hrel
  cases node with
  | directory => cases hbelow
  | file content =>
    unfold below? at hbelow
    dsimp only at hbelow
    split at hbelow
    · rename_i hprefix
      obtain ⟨rest, rfl⟩ := List.isPrefixOf_iff_prefix.mp hprefix
      rw [List.drop_left] at hbelow
      cases hbelow
      exact ⟨content, h.at?_of_mem hmem⟩
    · cases hbelow

/-- What leads to something leads through directories. -/
theorem Sound.above (h : t.Sound) (hat : t.at? (place ++ rel) = some node) (hne : rel ≠ []) :
    t.at? place = some .directory := by
  induction rel using List.reverseRecOn generalizing node with
  | nil => exact absurd rfl hne
  | append_singleton front n ih =>
    have hkey := mem_keys_of_at? hat (by simp)
    have hinside := h.inside _ hkey
    rw [← List.append_assoc, List.dropLast_concat] at hinside
    by_cases hfront : front = []
    · subst hfront
      rwa [List.append_nil] at hinside
    · exact ih hinside hfront

theorem Sound.isName (h : t.Sound) (hat : t.at? (place ++ rel) = some node) : ∀ n ∈ rel, Path.IsName n := by
  intro n hn
  have hmem : n ∈ place ++ rel := List.mem_append_right _ hn
  exact (h.named _ (mem_keys_of_at? hat (List.ne_nil_of_mem hmem))).2 n hmem

/-! ### Reading below a directory -/

/-- The names that lead to something can be followed, if none is too long. -/
theorem Sound.follow_names (h : t.Sound) (hat : t.at? (place ++ rel) = some node) :
    t.follow place (rel.map String.toList) = .ok (place ++ rel) ∨
      t.follow place (rel.map String.toList) = .error .nameTooLong := by
  induction rel generalizing place with
  | nil => exact .inl (by rw [List.append_nil]; rfl)
  | cons n rest ih =>
    have habove := h.above hat (List.cons_ne_nil n rest)
    obtain ⟨hempty, hhere, hparent, _⟩ := h.isName hat n (List.mem_cons_self ..)
    have hnot (s : String) (hs : n ≠ s) : n.toList ≠ s.toList := fun e => hs (String.toList_inj.mp e)
    have hstep : ¬(n.toList = [] ∨ n.toList = ['.']) := not_or.mpr ⟨hnot "" hempty, hnot "." hhere⟩
    have hback : n.toList ≠ ['.', '.'] := hnot ".." hparent
    rw [List.map_cons, follow, habove]
    dsimp only
    rw [if_neg hstep, if_neg hback, String.ofList_toList]
    split
    · exact .inr rfl
    · rw [List.append_cons place n rest] at hat ⊢
      exact ih hat

theorem not_isAbsolute_intercalate (h : ∀ n ∈ rel, Path.IsName n) :
    Path.isAbsolute ⟨String.intercalate "/" rel⟩ = false := by
  unfold Path.isAbsolute
  rw [decide_eq_false_iff_not, String.toList_intercalate]
  cases rel with
  | nil => simp
  | cons n rest =>
    obtain ⟨hempty, _, _, hslash⟩ := h n (List.mem_cons_self ..)
    cases hn : n.toList with
    | nil => exact absurd (String.toList_inj.mp hn) hempty
    | cons c cs =>
      have hc : c ≠ '/' := fun e => hslash (by rw [hn, e]; exact List.mem_cons_self ..)
      cases rest with
      | nil => simpa [hn] using hc
      | cons m rest => simpa [hn] using hc

/-- The path to a directory, continued by names, leads on from there. -/
theorem follow_join (hlocation : t.locate p = .ok (place, .directory)) (hrel : rel ≠ [])
    (hnames : ∀ n ∈ rel, Path.IsName n) :
    t.follow [] (Path.pieces (p.join (String.intercalate "/" rel)).text.toList) =
      t.follow place (rel.map String.toList) := by
  obtain ⟨hempty, hfollow, _⟩ := of_locate hlocation
  obtain ⟨front, hpieces, hfront⟩ := Path.pieces_join hempty (not_isAbsolute_intercalate hnames)
  have hthere : t.follow [] front = .ok place := by
    rcases hfront with hfront | hfront
    · rwa [hfront] at hfollow
    · rw [hfront] at hfollow
      exact follow_concat_nil hfollow
  rw [hpieces, Path.pieces_intercalate hrel fun n hn => (hnames n hn).2.2.2, follow_append, hthere]
  rfl

theorem Sound.locate_join (h : t.Sound) (hlocation : t.locate p = .ok (place, .directory))
    (hat : t.at? (place ++ rel) = some node) (hrel : rel ≠ []) :
    t.locate (p.join (String.intercalate "/" rel)) = .ok (place ++ rel, node) ∨
      t.locate (p.join (String.intercalate "/" rel)) = .error .nameTooLong ∨
      t.locate (p.join (String.intercalate "/" rel)) = .error .invalidInput := by
  have hfollow := follow_join hlocation hrel (h.isName hat)
  have hempty := Path.isEmpty_join (of_locate hlocation).1 (String.intercalate "/" rel)
  unfold locate
  rw [hfollow, hempty]
  split
  · exact .inr (.inr rfl)
  · rw [if_neg Bool.false_ne_true]
    split
    · exact .inr (.inl rfl)
    · rcases h.follow_names hat with hnamed | hlong
      · rw [hnamed]
        dsimp only
        rw [hat]
        exact .inl rfl
      · rw [hlong]
        exact .inr (.inl rfl)

/-- A file below a directory is read by the names that lead to it from there. -/
theorem Sound.read_join (h : t.Sound) (hlocation : t.locate p = .ok (place, .directory))
    (hat : t.at? (place ++ rel) = some (.file content)) :
    t.read (p.join (String.intercalate "/" rel)) = .ok content ∨
      t.read (p.join (String.intercalate "/" rel)) = .error .nameTooLong ∨
      t.read (p.join (String.intercalate "/" rel)) = .error .invalidInput := by
  have hrel : rel ≠ [] := by
    rintro rfl
    rw [List.append_nil, (of_locate hlocation).2.2] at hat
    cases hat
  unfold read
  rcases h.locate_join hlocation hat hrel with hq | hq | hq <;> rw [hq] <;> simp

/-! ### Trees that are made -/

/-- The trees that writing, making directories and deleting lead to. -/
inductive Made : Tree → Prop
  | empty : Made .empty
  | write {t : Tree} (h : Made t) (p : Path) (content : Bytes) : Made (t.write p content)
  | makeDirectories {t : Tree} (h : Made t) (p : Path) : Made (t.makeDirectories (target p))
  | delete {t : Tree} (h : Made t) (p : Path) : Made (t.delete p)

theorem at?_insert (hne : place ≠ []) (node : Node) (k : Place) :
    at? ⟨t.nodes.insert place node⟩ k = if place = k then some node else t.at? k := by
  unfold at?
  rw [Table.get?_insert]
  by_cases hk : k = []
  · rw [if_pos hk, if_pos hk, if_neg fun h => hne (h.trans hk)]
  · rw [if_neg hk, if_neg hk]

theorem isName_target (p : Path) : ∀ n ∈ target p, Path.IsName n := by
  unfold target
  refine List.foldlRecOn (motive := fun place => ∀ n ∈ place, Path.IsName n) _ _ (fun n h => nomatch h) ?_
  intro place hplace piece hpiece
  split
  · exact hplace
  · rename_i hstep
    split
    · exact fun n hn => hplace n (List.dropLast_subset _ hn)
    · rename_i hparent
      intro n hn
      rcases List.mem_append.mp hn with hn | hn
      · exact hplace n hn
      · rw [List.mem_singleton.mp hn]
        refine ⟨fun e => hstep (.inl ?_), fun e => hstep (.inr ?_), fun e => hparent ?_, ?_⟩
        · exact String.ofList_injective e
        · exact String.ofList_injective e
        · exact String.ofList_injective e
        · rw [String.toList_ofList]
          exact Path.no_slash_of_mem_pieces hpiece

/-- What is put where no directory is, in a directory, leaves the tree sound. -/
theorem Sound.insert (h : t.Sound) (hne : place ≠ []) (hnames : ∀ n ∈ place, Path.IsName n)
    (hinside : t.at? place.dropLast = some .directory) (hnew : t.at? place ≠ some .directory) (node : Node) :
    Sound ⟨t.nodes.insert place node⟩ where
  distinct := h.distinct.insert _ _
  named k hk := by
    unfold Table.keys Table.insert at hk
    rw [Table.keys_put] at hk
    split at hk
    · exact h.named k hk
    · rcases List.mem_append.mp hk with hk | hk
      · exact h.named k hk
      · rw [List.mem_singleton.mp hk]
        exact ⟨hne, hnames⟩
  inside k hk := by
    have hk' : k = place ∨ k ∈ t.nodes.keys := by
      unfold Table.keys Table.insert at hk
      rw [Table.keys_put] at hk
      split at hk
      · exact .inr hk
      · exact (List.mem_append.mp hk).symm.imp List.mem_singleton.mp id
    rw [at?_insert hne]
    rcases hk' with rfl | hk'
    · rw [if_neg fun e => hnew (by rwa [← e] at hinside), hinside]
    · rw [if_neg fun e => hnew (by rw [e, h.inside k hk']), h.inside k hk']

theorem not_file_of_not_blocked (h : t.blocked place = false) (n : Nat) (content : Bytes) :
    t.at? (place.take n) ≠ some (.file content) := by
  intro hfile
  unfold blocked at h
  rw [List.any_eq_false] at h
  have hn : place.take n = place.take (min n place.length) := by rw [List.take_eq_take_min]
  refine h (min n place.length) (List.mem_range.mpr (by omega)) ?_
  rw [← hn, hfile]

/-- The tree with the first directories on the way to a place made, and no file more than before. -/
structure Opens (t : Tree) (place : Place) (count : Nat) (made : Tree) : Prop where
  sound : made.Sound
  directories : ∀ n < count, made.at? (place.take n) = some .directory
  files : ∀ k content, made.at? k = some (.file content) → t.at? k = some (.file content)

theorem Opens.step {made : Tree} {count : Nat} (h : t.Opens place count made) (hnames : ∀ n ∈ place, Path.IsName n)
    (hblocked : t.blocked place = false) : t.Opens place (count + 1) (made.makeDirectory (place.take count)) := by
  unfold makeDirectory
  cases hat : made.at? (place.take count) with
  | some node =>
    refine ⟨h.sound, fun n hn => ?_, h.files⟩
    rcases Nat.lt_succ_iff_lt_or_eq.mp hn with hn | rfl
    · exact h.directories n hn
    · cases node with
      | directory => exact hat
      | file content => exact absurd (h.files _ _ hat) (not_file_of_not_blocked hblocked _ _)
  | none =>
    have hne : place.take count ≠ [] := by
      intro e
      rw [e, at?, if_pos rfl] at hat
      cases hat
    have hinside : made.at? (place.take count).dropLast = some .directory := by
      have hcount : count ≠ 0 := fun e => hne (by rw [e, List.take_zero])
      rw [List.dropLast_eq_take, List.take_take]
      exact h.directories _ (by rw [List.length_take]; omega)
    refine ⟨h.sound.insert hne (fun n hn => hnames n (List.mem_of_mem_take hn)) hinside (by simp [hat]) _,
      fun n hn => ?_, fun k content hk => ?_⟩
    · rw [at?_insert hne]
      split
      · rfl
      · rename_i hother
        exact h.directories n ((Nat.lt_succ_iff_lt_or_eq.mp hn).resolve_right fun e => hother (by rw [e]))
    · rw [at?_insert hne] at hk
      split at hk
      · cases hk
      · exact h.files k content hk

/-- Where no file is in the way, all directories on the way to a place can be made. -/
theorem Sound.opens (h : t.Sound) (hnames : ∀ n ∈ place, Path.IsName n) (hblocked : t.blocked place = false)
    (count : Nat) : t.Opens place count ((List.range count).foldl (fun t n => t.makeDirectory (place.take n)) t) := by
  induction count with
  | zero => exact ⟨h, fun n hn => absurd hn (Nat.not_lt_zero n), fun _ _ hk => hk⟩
  | succ count ih =>
    rw [List.range_succ, List.foldl_append]
    exact ih.step hnames hblocked

theorem Sound.makeDirectories (h : t.Sound) (hnames : ∀ n ∈ place, Path.IsName n) :
    (t.makeDirectories place).Sound := by
  unfold Tree.makeDirectories
  split
  · exact h
  · rename_i hblocked
    exact (h.opens hnames (Bool.eq_false_iff.mpr hblocked) _).sound

theorem Sound.write (h : t.Sound) (p : Path) (content : Bytes) : (t.write p content).Sound := by
  have hnames := isName_target p
  have habove : ∀ n ∈ (target p).dropLast, Path.IsName n := fun n hn => hnames n (List.dropLast_subset _ hn)
  unfold Tree.write
  dsimp only
  split
  · exact h
  · rename_i hblocked
    split
    · exact h.makeDirectories habove
    · rename_i hnew
      have hne : target p ≠ [] := fun e => hnew (by rw [e]; rfl)
      refine (h.makeDirectories habove).insert hne hnames ?_ hnew _
      rw [Tree.makeDirectories, if_neg hblocked]
      have hopens := h.opens habove (Bool.eq_false_iff.mpr hblocked) ((target p).dropLast.length + 1)
      have hmade := hopens.directories (target p).dropLast.length (Nat.lt_succ_self _)
      rwa [List.take_length] at hmade

theorem below?_eq_none : below? place k = none ↔ ¬place <+: k := by
  rw [below?]
  simp

theorem Sound.delete (h : t.Sound) (p : Path) : (t.delete p).Sound := by
  unfold Tree.delete
  split
  · rename_i place node hlocate
    have hkept {k : Place} (hk : k ∈ Table.keys ⟨t.nodes.entries.filter fun e => (below? place e.1).isNone⟩) :
        k ∈ t.nodes.keys ∧ ¬place <+: k := by
      obtain ⟨e, he, rfl⟩ := List.mem_map.mp hk
      obtain ⟨hmem, hnone⟩ := List.mem_filter.mp he
      exact ⟨List.mem_map_of_mem hmem, below?_eq_none.mp (Option.isNone_iff_eq_none.mp hnone)⟩
    have hdistinct : Table.Distinct ⟨t.nodes.entries.filter fun e => (below? place e.1).isNone⟩ :=
      List.Nodup.sublist (List.filter_sublist.map Prod.fst) h.distinct
    refine ⟨hdistinct, fun k hk => h.named k (hkept hk).1, fun k hk => ?_⟩
    obtain ⟨hmem, hbelow⟩ := hkept hk
    by_cases hroot : k.dropLast = []
    · rw [hroot]
      rfl
    · have hinside := h.inside k hmem
      rw [at?, if_neg hroot] at hinside ⊢
      have habove := Table.mem_of_get? hinside
      refine hdistinct.get?_iff.mpr (List.mem_filter.mpr ⟨habove, ?_⟩)
      rw [Option.isNone_iff_eq_none, below?_eq_none]
      exact fun e => hbelow (e.trans (List.dropLast_prefix k))
  · exact h

/-- A tree that is made is sound. -/
theorem Made.sound (h : t.Made) : t.Sound := by
  induction h with
  | empty => exact ⟨Table.distinct_empty, fun _ hk => absurd hk List.not_mem_nil, fun _ hk => nomatch hk⟩
  | write _ p content ih => exact ih.write p content
  | makeDirectories _ p ih => exact ih.makeDirectories (isName_target p)
  | delete _ p ih => exact ih.delete p

end Files.Tree
end ClassCatalog
