import FlatFourier.Builder.Simplify

namespace FlatFourier.Build

/-- The step succeeds, and its result and the state after it are as described. -/
def Yields (step : Build α) (b : Builder) (post : α → Builder → Prop) : Prop :=
  ∃ a b', step b = .ok a b' ∧ post a b'

theorem yields_of_run {step : Build α} (h : step b = .ok a b') (hp : post a b') :
    Yields step b post :=
  ⟨a, b', h, hp⟩

theorem yields_pure (h : post a b) : Yields (pure a) b post :=
  ⟨a, b, rfl, h⟩

/-- A step that has run hands its result and its state to the rest. -/
theorem run_bind {step : Build α} {rest : α → Build β} (h : step b = .ok a b') :
    (step >>= rest) b = rest a b' := by
  change EStateM.bind step rest b = rest a b'
  simp only [EStateM.bind, h]

theorem run_bind_error {step : Build α} {rest : α → Build β} (h : step b = .error e b') :
    (step >>= rest) b = .error e b' := by
  change EStateM.bind step rest b = .error e b'
  simp only [EStateM.bind, h]

/-- A run of two steps that succeeds is made of two runs that do. -/
theorem run_bind_ok {step : Build α} {rest : α → Build β} (h : (step >>= rest) b = .ok c b'') :
    ∃ a b', step b = .ok a b' ∧ rest a b' = .ok c b'' := by
  cases hs : step b with
  | ok a b' =>
    rw [run_bind hs] at h
    exact ⟨a, b', rfl, h⟩
  | error e b' =>
    rw [run_bind_error hs] at h
    cases h

theorem run_bind_congr {step step' : Build α} {rest : α → Build β} (h : step b = step' b') :
    (step >>= rest) b = (step' >>= rest) b' := by
  change EStateM.bind step rest b = EStateM.bind step' rest b'
  simp only [EStateM.bind, h]

theorem Yields.bind {step : Build α} {rest : α → Build β} (h : Yields step b mid)
    (hr : ∀ a b', mid a b' → Yields (rest a) b' post) : Yields (step >>= rest) b post := by
  obtain ⟨a, b', he, hm⟩ := h
  obtain ⟨c, b'', hc, hp⟩ := hr a b' hm
  exact ⟨c, b'', (run_bind he).trans hc, hp⟩

theorem Yields.mono {step : Build α} (h : Yields step b post)
    (hp : ∀ a b', post a b' → post' a b') : Yields step b post' := by
  obtain ⟨a, b', he, h⟩ := h
  exact ⟨a, b', he, hp a b' h⟩

theorem Yields.of_run_eq {step step' : Build α} (h : Yields step' b' post)
    (he : step b = step' b') : Yields step b post := by
  obtain ⟨a, b'', hr, hp⟩ := h
  exact ⟨a, b'', he.trans hr, hp⟩

theorem get_run (b : Builder) : (get : Build Builder) b = .ok b b := rfl

theorem add_run (kind : Kind) (b : Builder) : add kind b = .ok (b.add kind).1 (b.add kind).2 := rfl

theorem countAnswer_run (name : String) (b : Builder) :
    countAnswer name b = .ok () (b.countAnswer name) := rfl

theorem ask_run {question : Builder → Except Error α} (h : question b = .ok a) :
    ask question b = .ok a b := by
  refine (run_bind (get_run b)).trans ?_
  simp only [h]
  rfl

theorem ask_error {question : Builder → Except Error α} (h : question b = .error e) :
    ask question b = .error e b := by
  refine (run_bind (get_run b)).trans ?_
  simp only [h]
  rfl

theorem array_run {a : ArrayId} (h : b.arrays[a]? = some info) : array a b = .ok info b :=
  ask_run (by simp [Builder.array, h])

theorem array_error {a : ArrayId} (h : b.arrays[a]? = none) :
    array a b = .error (.unknownArray a) b :=
  ask_error (by simp [Builder.array, h])

theorem node_run {id : NodeId} (h : b.graph.node? id = some n) : node id b = .ok n b :=
  ask_run (by simp [Builder.node, Graph.lookup, h])

theorem node_error {id : NodeId} (h : b.graph.node? id = none) :
    node id b = .error (.unknownNode id b.graph.size) b :=
  ask_error (by simp [Builder.node, Graph.lookup, h])

theorem constant?_run {id : NodeId} (h : b.graph.node? id = some n) :
    constant? id b = .ok n.kind.constant? b :=
  (run_bind (node_run h)).trans rfl

theorem constant?_error {id : NodeId} (h : b.graph.node? id = none) :
    constant? id b = .error (.unknownNode id b.graph.size) b :=
  run_bind_error (node_error h)

theorem isConstant_run {id : NodeId} (h : b.graph.node? id = some n) (x : Float) :
    isConstant id x b = .ok (n.kind.constant?.any (· == x)) b :=
  (run_bind (constant?_run h)).trans rfl

theorem isConstant_error {id : NodeId} (h : b.graph.node? id = none) (x : Float) :
    isConstant id x b = .error (.unknownNode id b.graph.size) b :=
  run_bind_error (constant?_error h)

end FlatFourier.Build
