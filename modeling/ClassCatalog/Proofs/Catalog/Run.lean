import ClassCatalog.Catalog.Request
import ClassCatalog.Proofs.Loaded.Calls

/-! Sessions.

Requests are made of a catalog and, in between, calls on the classes that it has given out. What each operation keeps
any number of them keep (`afterAll_keeps`), so an invariant of sessions is what their opening has and every operation
keeps (`Used.invariant`). What calls on classes would break is an invariant of sessions without them
(`Reachable.invariant`); they are sessions like any other (`Reachable.used`). -/
namespace ClassCatalog.Catalog
open ClassCatalog.Action

/-- A session that begins. -/
def opening (config : Config) : Scene Catalog := ⟨.new config, []⟩

/-- The scene after requests have been made. -/
def after (requests : List (Outside × Request)) (s : Scene Catalog) : Scene Catalog :=
  ((run requests).start s).2

/-- A scene that a session can come to by requests alone. -/
def Reachable (s : Scene Catalog) : Prop := ∃ config requests, s = after requests (opening config)

/-- What can be done in a session. -/
inductive Operation where
  | request (o : Outside) (r : Request)
  | call (id : ClassId) (call : LoadedClass.Call)

def operate (s : Scene Catalog) : Operation → Scene Catalog
  | .request o r => ((perform o r).start s).2
  | .call id call => ((onClass () id (LoadedClass.perform call)).start s).2

/-- The scene after operations, whatever they have answered. -/
def afterAll (operations : List Operation) (s : Scene Catalog) : Scene Catalog := operations.foldl operate s

/-- A scene that a session can come to in which classes are called as well. -/
inductive Used : Scene Catalog → Prop where
  | opening (config : Config) : Used (opening config)
  | request {s : Scene Catalog} (h : Used s) (o : Outside) (r : Request) : Used ((perform o r).start s).2
  | call {s : Scene Catalog} (h : Used s) (id : ClassId) (call : LoadedClass.Call) :
      Used ((onClass () id (LoadedClass.perform call)).start s).2

variable {requests rest : List (Outside × Request)} {operations : List Operation} {o : Outside} {r : Request}
  {s : Scene Catalog}

/-! ### Runs of requests -/

theorem start_run_cons (o : Outside) (r : Request) (rest : List (Outside × Request)) (s : Scene Catalog) :
    (run ((o, r) :: rest)).start s =
      match (run rest).start ((perform o r).start s).2 with
      | (.ok answers, t) => (.ok (((perform o r).start s).1 :: answers), t)
      | (.error e, t) => (.error e, t) := by
  show ((Action.attempt (perform o r)) >>= _).start s = _
  rw [start_bind, start_attempt]
  dsimp only
  rw [start_bind]
  cases (run rest).start ((perform o r).start s).2 with
  | mk answers t => cases answers <;> rfl

@[simp] theorem after_nil (s : Scene Catalog) : after [] s = s := rfl

@[simp] theorem after_cons (o : Outside) (r : Request) (rest : List (Outside × Request)) (s : Scene Catalog) :
    after ((o, r) :: rest) s = after rest ((perform o r).start s).2 := by
  unfold after
  rw [start_run_cons]
  cases (run rest).start ((perform o r).start s).2 with
  | mk answers t => cases answers <;> rfl

theorem after_append (front back : List (Outside × Request)) (s : Scene Catalog) :
    after (front ++ back) s = after back (after front s) := by
  induction front generalizing s with
  | nil => rfl
  | cons x rest ih => rw [List.cons_append, after_cons, ih, after_cons]

/-- A session goes on. -/
theorem Reachable.after (h : Reachable s) : Reachable (after requests s) := by
  obtain ⟨config, before, rfl⟩ := h
  exact ⟨config, before ++ requests, (after_append before requests _).symm⟩

/-- What holds when a session begins and every request keeps holds throughout. -/
theorem Reachable.invariant {P : Catalog → Prop} (hopening : ∀ config, P (.new config))
    (hperform : ∀ o r, Keeps (Preserves P) (perform o r))
    (h : Reachable s) : P s.state := by
  obtain ⟨config, requests, rfl⟩ := h
  have hstart : P (opening config).state := hopening config
  generalize opening config = t at hstart
  induction requests generalizing t with
  | nil => exact hstart
  | cons x rest ih =>
    rw [after_cons]
    exact ih _ (hperform x.1 x.2 t hstart)

/-- What holds after a run and did not hold before comes with one of its requests. -/
theorem exists_request {P : Catalog → Prop} (hbefore : ¬ P s.state) (hafter : P (after requests s).state) :
    ∃ front o r back, requests = front ++ (o, r) :: back ∧
      ¬ P (after front s).state ∧ P ((perform o r).start (after front s)).2.state := by
  induction requests generalizing s with
  | nil => exact absurd hafter hbefore
  | cons x rest ih =>
    obtain ⟨o, r⟩ := x
    by_cases hfirst : P ((perform o r).start s).2.state
    · exact ⟨[], o, r, rest, rfl, hbefore, hfirst⟩
    · rw [after_cons] at hafter
      obtain ⟨front, o', r', back, rfl, hnot, h⟩ := ih hfirst hafter
      refine ⟨(o, r) :: front, o', r', back, rfl, ?_⟩
      rw [after_cons]
      exact ⟨hnot, h⟩

/-- What every request keeps a run keeps. -/
theorem after_keeps {R : Catalog → Catalog → Prop} [IsPreorder Catalog R]
    (h : ∀ x ∈ requests, Keeps R (perform x.1 x.2)) (s : Scene Catalog) : R s.state (after requests s).state := by
  induction requests generalizing s with
  | nil => exact refl_of R s.state
  | cons x rest ih =>
    obtain ⟨o, r⟩ := x
    rw [after_cons]
    have hfirst := h (o, r) (List.mem_cons_self ..) s
    have hrest := ih (fun y hy => h y (List.mem_cons_of_mem _ hy)) ((perform o r).start s).2
    exact trans_of R hfirst hrest

/-! ### Operations -/

theorem Used.operate (h : Used s) (x : Operation) : Used (operate s x) := by
  cases x with
  | request o r => exact h.request o r
  | call id call => exact h.call id call

theorem Used.afterAll (h : Used s) (operations : List Operation) : Used (afterAll operations s) :=
  List.foldlRecOn operations Catalog.operate h fun _ hs x _ => hs.operate x

theorem Used.after (h : Used s) (requests : List (Outside × Request)) : Used (after requests s) := by
  induction requests generalizing s with
  | nil => exact h
  | cons x rest ih =>
    rw [after_cons]
    exact ih (h.request x.1 x.2)

theorem Reachable.used (h : Reachable s) : Used s := by
  obtain ⟨config, requests, rfl⟩ := h
  exact (Used.opening config).after requests

/-- What holds when a session begins and every operation keeps holds throughout. -/
theorem Used.invariant {P : Catalog → Prop} (hopening : ∀ config, P (.new config))
    (hperform : ∀ o r, Keeps (Preserves P) (perform o r))
    (hcall : ∀ id call, Keeps (Preserves P) (onClass () id (LoadedClass.perform call)))
    (h : Used s) : P s.state := by
  induction h with
  | opening config => exact hopening config
  | request _ o r ih => exact hperform o r _ ih
  | call _ id call ih => exact hcall id call _ ih

/-- What every operation keeps any number of them keep. -/
theorem afterAll_keeps {R : Catalog → Catalog → Prop} [IsPreorder Catalog R]
    (h : ∀ x ∈ operations, ∀ s, R s.state (operate s x).state) (s : Scene Catalog) :
    R s.state (afterAll operations s).state :=
  List.foldlRecOn (motive := fun t : Scene Catalog => R s.state t.state) operations operate (refl_of R s.state)
    fun t ht x hx => trans_of R ht (h x hx t)

/-! ### A small session -/

/-- The class file of a class `A` without members, which calls itself its super class. -/
def sampleFile : Bytes :=
  #[0xca, 0xfe, 0xba, 0xbe, 0, 0, 0, 52, 0, 3, 1, 0, 1, 65, 7, 0, 1, 0, 0x21, 0, 2, 0, 2, 0, 0, 0, 0, 0, 0, 0, 0]

/-- No files, and a client that has no bytes and answers the same about each defining loader. -/
def sampleOutside (defining : LoaderId) : Outside :=
  ⟨default, some (Script.client ⟨[], [], defining, none, false, false, .terminated⟩)⟩

def sampleConfig : Config := ⟨4, 1, 1, none, .default⟩

end ClassCatalog.Catalog
