import ClassCatalog.Proofs.Catalog.Supplies
import ClassCatalog.Proofs.Catalog.Telling

/-! What is reported once.

A catalog notes which names it has missed, which bytes are of no use and what is known about defining loaders. It
reports nothing of the kind, nor asks, where there is a note, and takes a note when it does (`Report`). A
request does nothing else of the kind, however many lookups it makes. So as long as no request makes the catalog
forget its notes, everything is reported once and asked once (`reported_once`), except for questions at
which the client turns out to be gone: they leave no note. -/
namespace ClassCatalog

/-- What the catalog takes notes on. -/
inductive Topic where
  | missing (name : String)
  | unusable (name : String) (loader : LoaderId)
  | defining (name : String) (loader : LoaderId)
deriving DecidableEq, Repr

def Event.topic? : Event → Option Topic
  | missing name _ => some (.missing name)
  | unusable name loader => some (.unusable name loader)
  | askedDefining name loader => some (.defining name loader)
  | askedBytes _ | unreadableArchive _ => none

theorem Event.OfSources.topic?_eq_none {e : Event} (h : e.OfSources) : e.topic? = none := by
  cases h <;> rfl

/-- The notes. -/
structure Memory where
  missing : List String
  unusable : List ClassKey
  defining : Table ClassKey LoaderId

namespace Memory

def Has (m : Memory) : Topic → Prop
  | .missing name => name ∈ m.missing
  | .unusable name loader => (name, loader) ∈ m.unusable
  | .defining name loader => (m.defining.get? (name, loader)).isSome = true

/-- What is noted in the first is noted in the second. -/
instance : Preorder Memory where
  le m n := ∀ x, m.Has x → n.Has x
  le_refl _ _ h := h
  le_trans _ _ _ h h' x hx := h' x (h x hx)

end Memory

namespace Catalog
open ClassCatalog.Action Relation

def memory (c : Catalog) : Memory := ⟨c.index.missing, c.index.unusable, c.index.defining⟩

/-- The client is gone when it is asked on a topic with `told` behind it. -/
def Terminated (o : Outside) : Topic → Journal → Prop
  | .defining name loader, told =>
    ∃ client, o.client = some client ∧ client.definingLoader told name loader = .error .terminated
  | _, _ => False

/-- What is told in one go, and what is noted of it. -/
inductive Report (o : Outside) (s t : Scene Catalog) : Prop where
  | sources (h : Tells Event.OfSources s t) (hkept : s.state.memory ≤ t.state.memory)
  | noted {e : Event} {x : Topic} (he : e.topic? = some x) (htold : t.journal = s.journal ++ [e])
      (hnew : ¬ s.state.memory.Has x) (hnoted : t.state.memory.Has x) (hkept : s.state.memory ≤ t.state.memory)
  /-- A question that is not answered. -/
  | lost {e : Event} {x : Topic} (he : e.topic? = some x) (htold : t.journal = s.journal ++ [e])
      (hnew : ¬ s.state.memory.Has x) (hgone : Terminated o x t.journal) (hkept : s.state.memory ≤ t.state.memory)

abbrev Reports (o : Outside) : Scene Catalog → Scene Catalog → Prop := ReflTransGen (Report o)

instance (o : Outside) : IsPreorder (Scene Catalog) (Reports o) where
  refl _ := .refl
  trans _ _ _ := .trans

variable {o : Outside} {name : String} {loader : LoaderId} {placeholder : Option Nat} {x : Topic}
  {s t u : Scene Catalog} {c d : Catalog} {requests : List (Outside × Request)}

/-! ### Looking up -/

theorem Reports.of_silent (hjournal : t.journal = s.journal) (hmemory : s.state.memory ≤ t.state.memory) :
    Reports o s t :=
  .single (.sources (.of_journal hjournal) hmemory)

theorem memory_remember (c : Catalog) (name : String) (loader l : LoaderId) :
    c.memory ≤ (c.remember (name, loader) l).memory ∧
      (c.remember (name, loader) l).memory.Has (.defining name loader) := by
  have hget : ∀ key, (c.index.defining.insert (name, loader) l).get? key =
      if (name, loader) = key then some l else c.index.defining.get? key :=
    fun key => Table.get?_insert _ _ key l
  refine ⟨fun x hx => ?_, ?_⟩
  · cases x with
    | missing _ | unusable _ _ => exact hx
    | defining other m =>
      show ((c.index.defining.insert (name, loader) l).get? (other, m)).isSome = true
      rw [hget]
      split
      · rfl
      · exact hx
  · show ((c.index.defining.insert (name, loader) l).get? (name, loader)).isSome = true
    rw [hget, if_pos rfl]
    rfl

theorem definingLoader_reports (o : Outside) (name : String) (loader : LoaderId) :
    Leads (Reports o) (definingLoader o name loader) := by
  intro s
  cases hknown : s.state.index.defining.get? (name, loader) with
  | some l =>
    rw [start_definingLoader_of_known hknown]
  | none =>
    have hnew : ¬ s.state.memory.Has (.defining name loader) := by
      intro (h : (s.state.index.defining.get? (name, loader)).isSome = true)
      rw [hknown] at h
      cases h
    have hremembered := memory_remember s.state name loader
    rw [start_definingLoader hknown]
    split
    · exact .of_silent rfl (hremembered _).1
    · rename_i client hclient
      dsimp only
      split
      · exact .single (.noted rfl rfl hnew (hremembered _).2 (hremembered _).1)
      · rename_i hgone
        exact .single (.lost rfl rfl hnew ⟨client, hclient, hgone⟩ (le_refl _))
      · exact .single (.noted rfl rfl hnew (hremembered _).2 (hremembered _).1)

theorem reportMissing_reports (o : Outside) (name : String) (loader : LoaderId) :
    Leads (Reports o) (reportMissing name loader) := by
  intro s
  unfold reportMissing
  rw [start_state_bind]
  split
  · exact .refl
  · rename_i hnew
    refine .single (.noted (x := .missing name) rfl rfl ?_ ?_ fun y hy => ?_)
    · exact fun h => hnew (List.contains_iff_mem.mpr h)
    · exact List.mem_append_right _ (List.mem_singleton_self name)
    · cases y with
      | missing _ => exact List.mem_append_left _ hy
      | unusable _ _ | defining _ _ => exact hy

theorem findFitting_reports (o : Outside) (name : String) (loader : LoaderId) (placeholders : Bool) :
    Leads (Reports o) (findFitting o name loader placeholders) := by
  refine (surveys_leads (Reports o)).findFitting (fun e s => .of_silent rfl (le_of_eq ?_))
    (definingLoader_reports o name loader)
  cases e <;> rfl

theorem onSources_reports (o : Outside) {α : Type} {a : Action Cache.FileCache.Sources α}
    (h : Leads (Tells Event.OfSources) a) : Leads (Reports o) (onSources a) :=
  fun s => .single (.sources (onSources_tells h s) (le_refl _))

theorem onClassPath_reports (o : Outside) {α : Type} (absent : α) {a : Action ClassPath α}
    (h : Leads (Tells Event.OfSources) a) : Leads (Reports o) (onClassPath absent a) :=
  (surveys_leads (Reports o)).onClassPath fun _ s => .single (.sources (leads_within h _ _ s) (le_refl _))

theorem load_reports (o : Outside) (name : String) (loader : LoaderId) : Leads (Reports o) (load o name loader) := by
  have h := surveys_leads (Reports o)
  have hlocate := onClassPath_reports o none (o.locate_tells name)
  have hread := fun client location => onSources_reports o (o.classBytes_tells client name location)
  exact h.load (fun loaders _ => h.loadFirst_of_sources hlocate hread loaders)
    (definingLoader_reports o name loader) (reportMissing_reports o name loader)

theorem load_unusable (o : Outside) (name : String) (loader : LoaderId) :
    Keeps (Same fun c : Catalog => c.index.unusable) (load o name loader) := by
  have h := surveys_keeps (Same fun c : Catalog => c.index.unusable)
  have hlocate : Keeps _ (onClassPath none (o.locate name)) := h.onClassPath fun _ _ => rfl
  have hdefining := (definingLoader_untouched o name loader).mono fun _ _ => Untouched.unusable
  exact h.load (fun _ _ => h.loadFirst_of_sources hlocate (fun _ _ _ => rfl) _) hdefining
    (h.reportMissing (Keeps.update fun _ => rfl) (.report _))

theorem memory_register (c : Catalog) (name : String) (e : Entry) : (c.register name e).memory = c.memory := by
  obtain ⟨groups, h⟩ := register_eq c name e
  rw [h]
  rfl

theorem memory_newPlaceholder (c : Catalog) (name : String) (loader : LoaderId) :
    (c.newPlaceholder name loader).2.memory = c.memory :=
  memory_register ..

theorem memory_newSpecial (c : Catalog) (name : String) : (c.newSpecial name).2.memory = c.memory :=
  memory_register ..

theorem memory_enroll (c : Catalog) (name : String) (placeholder : Option Nat) (k : LoadedClass) :
    (c.enroll name placeholder k).2.memory = c.memory := by
  obtain ⟨groups, h⟩ := index_enroll c name placeholder k
  unfold memory
  rw [h]

/-- Bytes are said to be of no use only where that is not known, and loading does not find it out. -/
theorem loadAndEnroll_reports (o : Outside) (name : String) (loader : LoaderId) (placeholder : Option Nat) :
    Leads (Reports o) (loadAndEnroll o name loader placeholder) := by
  intro s
  unfold loadAndEnroll
  rw [start_state_bind]
  split
  · exact .refl
  · rename_i husable
    rw [start_bind, start_attempt]
    have hloaded := load_reports o name loader s
    have hunusable := load_unusable o name loader s
    rcases hload : (load o name loader).start s with ⟨e | _ | k, t⟩
    all_goals rw [hload] at hloaded hunusable
    · refine trans_of (Reports o) hloaded ?_
      cases he : e.isFormat with
      | false =>
        simp only [noteUnusable, he, Bool.false_eq_true, if_false, start_bind, start_pure, start_fail]
        exact .refl
      | true =>
        simp only [noteUnusable, he, if_true, start_bind, start_update, start_report, start_fail]
        refine .single (.noted (x := .unusable name loader) rfl rfl ?_ ?_ fun y hy => ?_)
        · have hsame : t.state.index.unusable = s.state.index.unusable := hunusable
          intro (h : (name, loader) ∈ t.state.index.unusable)
          exact husable (List.contains_iff_mem.mpr (hsame ▸ h))
        · exact List.mem_append_right _ (List.mem_singleton_self _)
        · cases y with
          | unusable _ _ => exact List.mem_append_left _ hy
          | missing _ | defining _ _ => exact hy
    · exact hloaded
    · have henrolled : Reports o t ⟨(t.state.enroll name placeholder k).2, t.journal⟩ :=
        .of_silent rfl (le_of_eq (memory_enroll ..).symm)
      exact trans_of (Reports o) hloaded henrolled

/-! ### Requests -/

theorem onClass_reports (o : Outside) {α : Type} (absent : α) (id : ClassId) {a : Action LoadedClass α}
    (h : Leads (Tells Event.OfSources) a) : Leads (Reports o) (onClass absent id a) :=
  (surveys_leads (Reports o)).onClass fun _ s => .single (.sources (leads_within h _ _ s) (le_refl _))

theorem reports_parts (o : Outside) : Parts o fun _ a => Leads (Reports o) a where
  toTraverses := (surveys_leads (Reports o)).toTraverses
  find := findFitting_reports o
  load name loader placeholder _ := loadAndEnroll_reports o name loader placeholder
  defining := definingLoader_reports o
  list := onClassPath_reports o [] o.list_tells
  code id i := onClass_reports o none id (LoadedClass.bytecode_tells _ i)
  length id i := onClass_reports o 0 id (LoadedClass.bytecodeLength_tells _ i)
  expected name loader s := .of_silent rfl (le_of_eq (memory_newPlaceholder s.state name loader).symm)
  placeholder name loader s := .of_silent rfl <| le_of_eq <|
    (addPlaceholder_of_new (R := Same memory) memory_newPlaceholder s.state name loader).symm
  special name s := .of_silent rfl <| le_of_eq <|
    (special_of_new (R := Same memory) memory_newSpecial s.state name).symm
  noted _ _ _ _ := .of_silent rfl (le_refl _)
  linked _ _ _ := .of_silent rfl (le_refl _)
  implemented _ _ _ := .of_silent rfl (le_refl _)

/-! ### Once -/

/-- From one scene to the next a topic comes up where there is no note on it, and not again once it has, unless it
came up with a question that was lost. -/
def Once (x : Topic) (Lost : Journal → Prop) (s t : Scene Catalog) : Prop :=
  ∃ told, t.journal = s.journal ++ told ∧
    (s.state.memory.Has x → t.state.memory.Has x ∧ ∀ e ∈ told, e.topic? ≠ some x) ∧
    ∀ front e back, told = front ++ e :: back → e.topic? = some x →
      Lost (s.journal ++ front ++ [e]) ∨ (t.state.memory.Has x ∧ ∀ e' ∈ back, e'.topic? ≠ some x)

namespace Once
variable {Lost Lost' : Journal → Prop}

theorem of_untold {told : Journal} (htold : t.journal = s.journal ++ told) (h : ∀ e ∈ told, e.topic? ≠ some x)
    (hkept : s.state.memory.Has x → t.state.memory.Has x) : Once x Lost s t := by
  refine ⟨told, htold, fun hx => ⟨hkept hx, h⟩, fun front e back heq he => ?_⟩
  subst heq
  exact absurd he (h e (List.mem_append_right _ (List.mem_cons_self ..)))

theorem refl (x : Topic) (Lost : Journal → Prop) (s : Scene Catalog) : Once x Lost s s :=
  of_untold (List.append_nil _).symm nofun id

theorem trans (h : Once x Lost s t) (h' : Once x Lost t u) : Once x Lost s u := by
  obtain ⟨first, ht, hkept, honce⟩ := h
  obtain ⟨second, hu, hkept', honce'⟩ := h'
  refine ⟨first ++ second, by rw [hu, ht, List.append_assoc], fun hx => ?_, fun front e back heq he => ?_⟩
  · obtain ⟨hx, hfirst⟩ := hkept hx
    obtain ⟨hx, hsecond⟩ := hkept' hx
    exact ⟨hx, List.forall_mem_append.mpr ⟨hfirst, hsecond⟩⟩
  · rcases List.append_eq_append_iff.mp heq with ⟨mid, rfl, hmid⟩ | ⟨mid, hmid, hback⟩
    · -- It comes up in the second part.
      have hlater := honce' mid e back hmid he
      rwa [ht, List.append_assoc s.journal] at hlater
    · cases mid with
      | nil =>
        rw [List.append_nil] at hmid
        subst hmid
        have hlater := honce' [] e back hback.symm he
        rwa [ht, List.append_nil] at hlater
      | cons e' rest =>
        obtain ⟨rfl, rfl⟩ := List.cons.inj hback
        rcases honce front e rest hmid he with hlost | ⟨hx, hrest⟩
        · exact .inl hlost
        · obtain ⟨hx, hsecond⟩ := hkept' hx
          exact .inr ⟨hx, List.forall_mem_append.mpr ⟨hrest, hsecond⟩⟩

theorem mono (h : Once x Lost s t)
    (hLost : ∀ told, s.journal.length < told.length → told <+: t.journal → Lost told → Lost' told) :
    Once x Lost' s t := by
  obtain ⟨told, ht, hkept, honce⟩ := h
  refine ⟨told, ht, hkept, fun front e back heq he => (honce front e back heq he).imp_left (hLost _ ?_ ?_)⟩
  · simp only [List.length_append, List.length_cons]
    omega
  · rw [ht, heq]
    exact ⟨back, by simp⟩

end Once

theorem Report.once (h : Report o s t) (x : Topic) : Once x (Terminated o x) s t := by
  -- Where one event is told there is nothing behind it.
  have hsingle : ∀ {e : Event} {y : Topic}, e.topic? = some y → t.journal = s.journal ++ [e] →
      ¬ s.state.memory.Has y → s.state.memory ≤ t.state.memory →
      (Terminated o y t.journal ∨ t.state.memory.Has y) → Once x (Terminated o x) s t := by
    intro e y he htold hnew hkept houtcome
    by_cases hxy : y = x
    · subst hxy
      refine ⟨[e], htold, fun hx => absurd hx hnew, fun front e' back heq _ => ?_⟩
      cases front with
      | nil =>
        obtain ⟨rfl, rfl⟩ := List.cons.inj heq
        rw [List.append_nil, ← htold]
        exact houtcome.imp_right fun hx => ⟨hx, nofun⟩
      | cons _ _ => simp at heq
    · refine .of_untold htold (List.forall_mem_singleton.mpr fun h => hxy ?_) (hkept x)
      exact Option.some.inj (he.symm.trans h)
  cases h with
  | sources h hkept =>
    obtain ⟨told, htold, hsources⟩ := h
    refine .of_untold htold (fun e he => ?_) (hkept x)
    rw [(hsources e he).topic?_eq_none]
    nofun
  | noted he htold hnew hnoted hkept => exact hsingle he htold hnew hkept (.inr hnoted)
  | lost he htold hnew hgone hkept => exact hsingle he htold hnew hkept (.inl hgone)

theorem Reports.once (h : Reports o s t) (x : Topic) : Once x (Terminated o x) s t := by
  induction h with
  | refl => exact .refl x _ s
  | tail _ hlast ih => exact ih.trans (hlast.once x)

/-- Whether what is noted on a topic is still noted after a request. -/
def Request.remembers (x : Topic) : Request → Bool
  | clear | close => false
  | initClassPath =>
    match x with
    | .defining _ _ => true
    | _ => false
  | _ => true

theorem perform_once (o : Outside) {r : Request} (hr : r.remembers x = true) :
    Leads (Once x (Terminated o x)) (perform o r) := by
  have hquiet : ∀ {f : Catalog → Catalog}, (∀ c, c.memory.Has x → (f c).memory.Has x) →
      Leads (Once x (Terminated o x)) (change f) := fun hf s =>
    .of_untold (List.append_nil _).symm nofun (hf s.state)
  cases r with
  | clear | close => cases hr
  | initClassPath =>
    refine hquiet fun c hc => ?_
    cases x with
    | defining _ _ => exact hc
    | missing _ | unusable _ _ => cases hr
  | initLoaders _ | addLoader _ _ | addSupplied _ _ _ | announce _ _ => exact hquiet fun c hc => hc
  | _ => exact fun s => ((reports_parts o).perform rfl s).once x

/-! ### Runs -/

/-- One of the requests was told that the client is gone when it asked the question at the end of `told`. -/
def Unanswered (requests : List (Outside × Request)) (s : Scene Catalog) (x : Topic) (told : Journal) : Prop :=
  ∃ before o r rest, requests = before ++ (o, r) :: rest ∧ (after before s).journal.length < told.length ∧
    told <+: ((perform o r).start (after before s)).2.journal ∧ Terminated o x told

theorem after_once (h : ∀ y ∈ requests, y.2.remembers x = true) (s : Scene Catalog) :
    Once x (Unanswered requests s x) s (after requests s) := by
  induction requests generalizing s with
  | nil => exact .refl x _ s
  | cons y rest ih =>
    obtain ⟨o, r⟩ := y
    rw [after_cons]
    have hfirst := perform_once o (h (o, r) (List.mem_cons_self ..)) s
    have hrest := ih (fun z hz => h z (List.mem_cons_of_mem _ hz)) ((perform o r).start s).2
    refine (hfirst.mono fun told hlt hle hgone => ?_).trans (hrest.mono fun told _ _ hgone => ?_)
    · exact ⟨[], o, r, rest, rfl, hlt, hle, hgone⟩
    · obtain ⟨before, o', r', rest', rfl, hlt, hle, hgone⟩ := hgone
      refine ⟨(o, r) :: before, o', r', rest', rfl, ?_⟩
      rw [after_cons]
      exact ⟨hlt, hle, hgone⟩

/-- What comes up once is there once. -/
theorem countP_le_one {told : Journal}
    (h : ∀ front e back, told = front ++ e :: back → e.topic? = some x → ∀ e' ∈ back, e'.topic? ≠ some x) :
    told.countP (fun e => e.topic? = some x) ≤ 1 := by
  induction told with
  | nil => exact Nat.zero_le 1
  | cons e rest ih =>
    by_cases he : e.topic? = some x
    · have hnone : rest.countP (fun e => e.topic? = some x) = 0 :=
        List.countP_eq_zero.mpr fun e' he' => by simpa using h [] e rest rfl he e' he'
      rw [List.countP_cons, hnone]
      split <;> omega
    · rw [List.countP_cons_of_neg (by simpa using he)]
      refine ih fun front e' back heq => h (e :: front) e' back ?_
      rw [heq, List.cons_append]

theorem Once.of_told {Lost : Journal → Prop} {told front back : Journal} {e : Event} (h : Once x Lost s t)
    (ht : t.journal = s.journal ++ told) (heq : told = front ++ e :: back) (he : e.topic? = some x) :
    Lost (s.journal ++ front ++ [e]) ∨ ∀ e' ∈ back, e'.topic? ≠ some x := by
  obtain ⟨told', ht', _, honce⟩ := h
  cases List.append_cancel_left (ht.symm.trans ht')
  exact (honce front e back heq he).imp_right And.right

theorem Request.remembers_defining {r : Request} (h : r.forgets = false) (name : String) (loader : LoaderId) :
    r.remembers (.defining name loader) = true := by
  cases r with
  | clear | close => cases h
  | _ => rfl

theorem Request.remembers_of_ne {r : Request} (h : r.forgets = false) (hr : r ≠ .initClassPath) (x : Topic) :
    r.remembers x = true := by
  cases r with
  | clear | close => cases h
  | initClassPath => exact absurd rfl hr
  | _ => rfl

/-- Whether a request looks up `name` for `loader`. -/
def Request.looksUp (name : String) (loader : LoaderId) : Request → Bool
  | lookup other l => Name.canonical other = name && Loader.normalize l = loader
  | _ => false

/-- How many of the lookups of a class for a loader fail at bytes that are not the class. -/
def formatFailures (name : String) (loader : LoaderId) : List (Outside × Request) → Scene Catalog → Nat
  | [], _ => 0
  | (o, r) :: rest, s =>
    let outcome := (perform o r).start s
    (if r.looksUp name loader && failsFormat outcome.1 then 1 else 0) +
      formatFailures name loader rest outcome.2

theorem perform_complains {r : Request} (hr : r.looksUp name loader = true) (o : Outside) (s : Scene Catalog) :
    Complains name loader ((perform o r).start s).1 s ((perform o r).start s).2 := by
  cases r with
  | lookup other l =>
    obtain ⟨rfl, rfl⟩ : Name.canonical other = name ∧ Loader.normalize l = loader := by
      simpa [Request.looksUp] using hr
    have h := lookup_complains o other l s
    have hperform : (perform o (.lookup other l)).start s = _ := start_bind (lookup o other l) _ s
    rcases hlookup : (lookup o other l).start s with ⟨_ | found, t⟩
    all_goals
      rw [hlookup] at h hperform
      rw [hperform]
      exact h
  | _ => cases hr

/-- Each such failure is reported. -/
theorem formatFailures_le (h : ∀ y ∈ requests, y.2.remembers (.unusable name loader) = true) {told : Journal}
    (htold : (after requests s).journal = s.journal ++ told) :
    formatFailures name loader requests s ≤ told.count (.unusable name loader) := by
  induction requests generalizing s told with
  | nil => exact Nat.zero_le _
  | cons y rest ih =>
    obtain ⟨o, r⟩ := y
    have hrest := fun z hz => h z (List.mem_cons_of_mem _ hz)
    obtain ⟨first, hfirst, _⟩ := perform_once o (h (o, r) (List.mem_cons_self ..)) s
    obtain ⟨second, hsecond, _⟩ := after_once hrest ((perform o r).start s).2
    rw [after_cons, hsecond, hfirst, List.append_assoc] at htold
    cases List.append_cancel_left htold
    rw [List.count_append]
    refine Nat.add_le_add ?_ (ih hrest hsecond)
    split
    · rename_i hfails
      obtain ⟨hlooks, hfails⟩ := Bool.and_eq_true_iff.mp hfails
      obtain ⟨told, ht, hcomplains⟩ := perform_complains hlooks o s
      cases List.append_cancel_left (hfirst.symm.trans ht)
      rw [if_pos hfails] at hcomplains
      have hmem : Event.unusable name loader ∈ first.filter Event.isUnusable := hcomplains ▸ List.mem_singleton_self _
      exact List.count_pos_iff.mpr (List.mem_filter.mp hmem).1
    · exact Nat.zero_le _

/-- **Failures are reported once**, in a run of any requests, with any clients, that does not make the catalog
forget everything. As long as the class path is not set up anew, at most one lookup of a class for a loader fails at
bytes that are not the class, and a name is said to be missing at most once. Lookups inside other requests count as
well: each that fails so says it (`Complains`), and that is said once. The client is not asked twice which loader
defines a class for another, unless it was gone when it was asked before. -/
theorem reported_once (h : ∀ y ∈ requests, y.2.forgets = false) (s : Scene Catalog) :
    (∀ o name loader u, Complains (Name.canonical name) (Loader.normalize loader)
      ((lookup o name loader).start u).1 u ((lookup o name loader).start u).2) ∧
    ∃ told, (after requests s).journal = s.journal ++ told ∧
      ((∀ y ∈ requests, y.2 ≠ .initClassPath) →
        (∀ name loader, formatFailures name loader requests s ≤ 1 ∧ told.count (.unusable name loader) ≤ 1) ∧
        ∀ name, told.countP (fun e => e.topic? = some (.missing name)) ≤ 1) ∧
      ∀ name loader front back, told = front ++ .askedDefining name loader :: back →
        .askedDefining name loader ∈ back →
        Unanswered requests s (.defining name loader) (s.journal ++ front ++ [.askedDefining name loader]) := by
  have hdefining : ∀ name loader, ∀ y ∈ requests, y.2.remembers (.defining name loader) = true :=
    fun name loader y hy => Request.remembers_defining (h y hy) name loader
  obtain ⟨told, ht, _⟩ := after_once (hdefining "" Loader.root) s
  refine ⟨lookup_complains, told, ht, fun hpath => ?_, fun name loader front back heq hback => ?_⟩
  · -- Such questions are not asked on other topics, so that none is lost.
    have hremembers : ∀ x, ∀ y ∈ requests, y.2.remembers x = true := fun x y hy =>
      Request.remembers_of_ne (h y hy) (hpath y hy) x
    have hcount : ∀ x, (∀ o told, ¬ Terminated o x told) → told.countP (fun e => e.topic? = some x) ≤ 1 := by
      intro x hanswered
      have honce := after_once (hremembers x) s
      refine countP_le_one fun front e back heq he => (honce.of_told ht heq he).resolve_left ?_
      rintro ⟨_, o, _, _, _, _, _, hgone⟩
      exact hanswered o _ hgone
    refine ⟨fun name loader => ?_, fun name => hcount _ fun _ _ => id⟩
    have hle : told.count (.unusable name loader) ≤ 1 := by
      have := hcount (.unusable name loader) fun _ _ => id
      rwa [List.count, List.countP_congr (q := fun e => e.topic? = some (.unusable name loader)) fun e _ => ?_]
      cases e <;> simp [Event.topic?]
    exact ⟨(formatFailures_le (hremembers _) ht).trans hle, hle⟩
  · have honce := after_once (hdefining name loader) s
    exact (honce.of_told ht heq rfl).resolve_right fun hnone => hnone _ hback rfl

/-- Two lookups of `B`, whose bytes are those of `A`, and four of `C`, which is nowhere; the client is gone for the
first two of these. -/
def failing : List (Outside × Request) :=
  let gone : Outside := ⟨default, some (Script.client ⟨[], [], Loader.none, none, false, true, .terminated⟩)⟩
  let there := sampleOutside Loader.none
  [(there, .addSupplied "B" 0 sampleFile), (there, .lookup "B" 0), (there, .lookup "B" 0), (gone, .lookup "C" 0),
    (gone, .lookup "C" 0), (there, .lookup "C" 0), (there, .lookup "C" 0)]

theorem reported_once_failing :
    (after failing (opening sampleConfig)).journal = [.unusable "B" 0, .askedDefining "C" 0, .askedDefining "C" 0,
      .askedDefining "C" 0, .missing "C" 0] ∧
    formatFailures "B" 0 failing (opening sampleConfig) = 1 ∧
    (∀ o name loader u, Complains (Name.canonical name) (Loader.normalize loader)
      ((lookup o name loader).start u).1 u ((lookup o name loader).start u).2) ∧
    ∃ told, (after failing (opening sampleConfig)).journal = (opening sampleConfig).journal ++ told ∧
      ((∀ y ∈ failing, y.2 ≠ .initClassPath) →
        (∀ name loader, formatFailures name loader failing (opening sampleConfig) ≤ 1 ∧
          told.count (.unusable name loader) ≤ 1) ∧
        ∀ name, told.countP (fun e => e.topic? = some (.missing name)) ≤ 1) ∧
      ∀ name loader front back, told = front ++ .askedDefining name loader :: back →
        .askedDefining name loader ∈ back →
        Unanswered failing (opening sampleConfig) (.defining name loader)
          ((opening sampleConfig).journal ++ front ++ [.askedDefining name loader]) :=
  ⟨by decide +kernel, by decide +kernel, reported_once (by decide +kernel) _⟩

end Catalog
end ClassCatalog
