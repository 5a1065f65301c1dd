import FlatFourier.Kernel
import FlatFourier.Proofs.Assembly
import FlatFourier.Proofs.Staging
import FlatFourier.Proofs.Values

namespace FlatFourier

open Build

variable {b b' : Builder} {array : ArrayId} {info : ArrayInfo}

namespace Builder

/-- Kinds that are admitted and are no writes. -/
def Quiet (b : Builder) (kind : Kind) : Prop :=
  b.Admits kind ∧ kind.isPure = true

/-- A disciplined builder in which nothing has been written. -/
structure Unwritten (b : Builder) : Prop where
  disciplined : b.Disciplined
  pure : ∀ n ∈ b.graph.list, n.kind.isPure = true

theorem Computes.quiet (h : b.Computes b') : Grows Quiet b b' :=
  h.mono fun _ _ hk => ⟨admits_of_arithmetic hk.1, hk.1.isPure⟩

theorem Grows.admitted (h : Grows Quiet b b') : Grows Admits b b' :=
  h.mono fun _ _ hk => hk.1

theorem mem_list_add {kind : Kind} (hn : n ∈ (b.add kind).2.graph.list) :
    n ∈ b.graph.list ∨ n.kind = kind := by
  rcases add_cases b kind with ⟨i, _, he⟩ | ⟨_, he⟩
  · rw [he] at hn
    exact .inl hn
  · rw [he, Graph.append_list, List.mem_append, List.mem_singleton] at hn
    rcases hn with hn | rfl
    · exact .inl hn
    · exact .inr rfl

namespace Unwritten

theorem grows (h : b.Unwritten) (hg : Grows Quiet b b') : b'.Unwritten := by
  refine ⟨h.disciplined.grows hg.admitted, ?_⟩
  induction hg with
  | refl => exact h.pure
  | add _ kind ha _ ih =>
    intro n hn
    rcases mem_list_add hn with hn | rfl
    · exact ih n hn
    · exact ha.2
  | count _ name ih => exact ih

theorem writesTo_eq_zero (h : b.Unwritten) (a : ArrayId) : writesTo a b.graph.list = 0 := by
  rw [writesTo, List.countP_eq_zero]
  intro n hn hw
  have hp := h.pure n hn
  cases hk : n.kind with
  | write a' c v => simp [hk, Kind.isPure] at hp
  | _ => simp [Node.writesTo, hk] at hw

theorem epoch_eq_zero (h : b.Unwritten) (a : ArrayId) : b.log.epoch a = 0 := by
  rw [h.disciplined.epoch, h.writesTo_eq_zero]

end Unwritten

end Builder

/-- What the cells hold that reads see before any write. -/
def Kind.input (initial : ArrayId → List Float) : Kind → Float
  | .read a c _ => (initial a).getD c 0
  | _ => 0

/-- Reads made before any write have the values that come in, whatever is written later. -/
theorem Builder.Unwritten.input (h : b.Unwritten) (h' : b'.Disciplined)
    (hk : b.graph.Keeps b'.graph) (initial : ArrayId → List Float) (j : Nat) (n : Node)
    (hn : b.graph.node? j = some n) (ha : n.kind.array?.isSome) :
    ((Execution.start .float initial).run .float b'.graph.list).values j =
      n.kind.input initial := by
  obtain ⟨hv, _⟩ := h'.orderly.solves .float initial
  have hn' := hk j n hn
  obtain rfl := h'.id_eq hn'
  have hl := h.disciplined.mem_list.mpr hn
  have hp := h.pure n hl
  rw [hv n (h'.mem_list.mpr hn')]
  cases hkind : n.kind with
  | read a c e =>
    have he : e = 0 := by
      have hle := h.disciplined.orderly.epoch_le hl hkind
      rw [h.writesTo_eq_zero] at hle
      omega
    subst he
    rfl
  | write a c v => simp [hkind, Kind.isPure] at hp
  | _ => simp [hkind, Kind.array?] at ha

namespace Build

open Builder

theorem read_yields (h : b.Unwritten) (hinfo : b.arrays[array]? = some info)
    (hc : c < info.length) :
    Yields (read array c) b fun i b' => Grows Quiet b b' ∧
      Unfolds Node.kind b'.graph i (.leaf (.read array c 0)) := by
  have hrun : read array c b = add (.read array c 0) b := by
    refine (run_bind (checkCell_run hinfo hc)).trans ((run_bind (get_run b)).trans ?_)
    rw [h.epoch_eq_zero]
  refine (yields_of_run (add_run _ b) ⟨?_, ?_⟩).of_run_eq hrun
  · refine .add .refl _ ⟨⟨⟨info, hinfo, hc⟩, ?_⟩, rfl⟩ nofun
    intro a c' e he
    cases he
    exact (h.epoch_eq_zero array).symm
  · obtain ⟨n, hn, hk⟩ := add_node h.disciplined.consistent (.read array c 0)
    have hleaf : Unfolds Node.kind _ _ (.leaf n.kind) := .leaf hn (by simp [hk, Kind.array?])
    rwa [hk] at hleaf

theorem readFrom_yields (h : b.Unwritten) (hinfo : b.arrays[array]? = some info)
    (index count : Nat) (hc : index + count ≤ info.length) :
    Yields (readFrom array index count) b fun ids b' => Grows Quiet b b' ∧ ids.length = count ∧
      ∀ (j i : Nat), ids[j]? = some i →
        Unfolds Node.kind b'.graph i (.leaf (.read array (index + j) 0)) := by
  induction count generalizing index b with
  | zero => exact yields_pure ⟨.refl, rfl, nofun⟩
  | succ count ih =>
    refine (read_yields h hinfo (by omega)).bind ?_
    intro i b₁ hi
    obtain ⟨hg, hu⟩ := hi
    refine (ih (h.grows hg) (hg.arrays_eq ▸ hinfo) (index + 1) (by omega)).bind ?_
    intro ids b₂ hids
    obtain ⟨hg₂, hl, hus⟩ := hids
    refine yields_pure ⟨hg.trans hg₂, by simp [hl], ?_⟩
    intro j k hk
    cases j with
    | zero =>
      obtain rfl := Option.some.inj hk
      exact hu.keeps hg₂.keeps
    | succ j =>
      have hj := hus j k hk
      rwa [Nat.add_assoc, Nat.add_comm 1 j] at hj

end Build

/-- The trees of the samples whose parts are in consecutive cells. -/
def cells (array : ArrayId) (i : Nat) : Point (Expr Kind) :=
  ⟨.leaf (.read array (2 * i) 0), .leaf (.read array (2 * i + 1) 0)⟩

theorem getElem?_ofNodes (ids : List NodeId) (i : Nat) (x : Sample)
    (h : (Sample.ofNodes ids)[i]? = some x) :
    ids[2 * i]? = some x.re ∧ ids[2 * i + 1]? = some x.im := by
  induction ids using Sample.ofNodes.induct generalizing i with
  | case1 re im rest ih =>
    cases i with
    | zero =>
      obtain rfl := Option.some.inj h
      exact ⟨rfl, rfl⟩
    | succ i =>
      have hi := ih i h
      simpa [Nat.mul_add] using hi
  | case2 ids hn =>
    match ids with
    | [] => cases h
    | [a] => cases h
    | a :: c :: rest => exact absurd rfl (hn a c rest)

theorem length_ofNodes (ids : List NodeId) : (Sample.ofNodes ids).length = ids.length / 2 := by
  induction ids using Sample.ofNodes.induct with
  | case1 re im rest ih =>
    simp only [Sample.ofNodes, List.length_cons, ih]
    omega
  | case2 ids hn =>
    match ids with
    | [] => rfl
    | [a] => simp [Sample.ofNodes]
    | a :: c :: rest => exact absurd rfl (hn a c rest)

theorem flatMap_ofNodes {ids : List NodeId} (h : ids.length = 2 * n) :
    (Sample.ofNodes ids).flatMap Sample.nodes = ids := by
  induction ids using Sample.ofNodes.induct generalizing n with
  | case1 re im rest ih =>
    simp only [List.length_cons] at h
    simp [Sample.ofNodes, Sample.nodes, ih (n := n - 1) (by omega)]
  | case2 ids hn =>
    cases ids with
    | nil => rfl
    | cons a ids =>
      cases ids with
      | nil =>
        simp only [List.length_singleton] at h
        omega
      | cons c rest => exact absurd rfl (hn a c rest)

theorem samples_cells {g : Graph} {ids : List NodeId}
    (h : ∀ (j i : Nat), ids[j]? = some i →
      Unfolds Node.kind g i (.leaf (.read array (0 + j) 0))) :
    Samples Node.kind g (Sample.ofNodes ids) (cells array) := by
  intro i x hx
  obtain ⟨hre, him⟩ := getElem?_ofNodes ids i x hx
  refine ⟨?_, ?_⟩
  · have hu := h _ _ hre
    rwa [Nat.zero_add] at hu
  · have hu := h _ _ him
    rwa [Nat.zero_add] at hu

def Point.parts (p : Point α) : List α :=
  [p.re, p.im]

/-- The parts of the first points of a signal, in turn. -/
def interleaved (n : Nat) (s : Nat → Point α) : List α :=
  (List.range n).flatMap fun i => (s i).parts

theorem length_interleaved (n : Nat) (s : Nat → Point α) : (interleaved n s).length = 2 * n := by
  simp [interleaved, List.length_flatMap, Point.parts, List.map_const', Nat.mul_comm]

theorem interleaved_congr {s s' : Nat → Point α} (h : ∀ k, k < n → s k = s' k) :
    interleaved n s = interleaved n s' := by
  rw [interleaved, interleaved, List.flatMap_def, List.flatMap_def]
  refine congrArg List.flatten (List.map_congr_left ?_)
  intro k hk
  rw [h k (List.mem_range.mp hk)]

theorem interleaved_eq {xs : List γ} {f : γ → Point α} {s : Nat → Point α}
    (h : ∀ (i : Nat) x, xs[i]? = some x → f x = s i) :
    xs.flatMap (fun x => (f x).parts) = interleaved xs.length s := by
  induction xs generalizing s with
  | nil => rfl
  | cons x xs ih =>
    have hrest : xs.flatMap (fun x => (f x).parts) = interleaved xs.length fun i => s (i + 1) :=
      ih fun i y hy => h (i + 1) y hy
    rw [List.flatMap_cons, h 0 x rfl, hrest]
    simp [interleaved, List.range_succ_eq_map, List.flatMap_map]

/-- What a kernel hands over for outputs with the given trees. -/
structure Delivers (array : ArrayId) (n : Nat) (t : Nat → Point (Expr Kind)) (b : Builder)
    (roots : List NodeId) (binding : Binding) : Prop where
  disciplined : b.Disciplined
  rooted : ∀ i : Nat, i ∈ roots → i < b.graph.size
  values : ∀ n ∈ b.graph.list, ∀ i : Nat, i ∈ n.kind.operands →
    ∀ m, b.graph.node? i = some m → m.kind.isPure = true
  slots : ∀ slots, binding = .results slots → slots = roots ∧ slots.length = 2 * n ∧
    ∀ i : Nat, i ∈ slots → ∃ m, b.graph.node? i = some m ∧ m.kind.isPure = true
  delivered : ∀ initial : ArrayId → List Float, (initial array).length = 2 * n →
    ((Execution.start .float initial).run .float b.graph.list).delivered array binding =
      interleaved n fun k => (t k).map (Expr.eval .float (Kind.input initial))

/-- The values of outputs that were computed before anything was written. -/
theorem Builder.Unwritten.outputs (h : b.Unwritten) (h' : b'.Disciplined)
    (hk : b.graph.Keeps b'.graph) (hs : Samples Node.kind b.graph xs t)
    (initial : ArrayId → List Float) :
    (xs.flatMap Sample.nodes).map
        ((Execution.start .float initial).run .float b'.graph.list).values =
      interleaved xs.length fun k => (t k).map (Expr.eval .float (Kind.input initial)) := by
  rw [List.map_flatMap]
  refine interleaved_eq (f := Sample.point _) ?_
  intro i x hx
  exact (hs i x hx).value ((h'.respects .float initial).of_keeps hk) (h.input h' hk initial)

namespace Kernel

open Builder

/-- Results are new nodes with the values of the marked ones. -/
theorem mapM_result_yields (h : b.Unwritten) (ids : List NodeId)
    (hids : ∀ i : Nat, i ∈ ids → i < b.graph.size) :
    Yields (ids.mapM result) b fun slots b' => Grows Quiet b b' ∧ slots.length = ids.length ∧
      (∀ i : Nat, i ∈ slots → i < b'.graph.size) ∧
      ∀ values : NodeId → Float, b'.graph.Respects .float values →
        slots.map values = ids.map values := by
  induction ids generalizing b with
  | nil => exact yields_pure ⟨.refl, rfl, nofun, fun _ _ => rfl⟩
  | cons i ids ih =>
    have hg : Grows Quiet b (b.add (.result i)).2 := by
      refine .add .refl _ ⟨⟨trivial, nofun⟩, rfl⟩ ?_
      intro j hj
      exact hids j (by simp [List.mem_singleton.mp hj])
    obtain ⟨n, hn, hk⟩ := add_node h.disciplined.consistent (.result i)
    obtain ⟨slots, b', hrun, hg', hl, hlt, hv⟩ :=
      ih (h.grows hg) fun j hj => Nat.lt_of_lt_of_le (hids j (List.mem_cons_of_mem _ hj))
        (Graph.Keeps.size_le hg.keeps)
    have hn' := hg'.keeps _ _ hn
    refine ⟨(b.add (.result i)).1 :: slots, b', ?_, hg.trans hg', by simp [hl], ?_, ?_⟩
    · rw [List.mapM_cons]
      exact (run_bind (add_run (.result i) b)).trans (run_bind hrun)
    · exact List.forall_mem_cons.mpr ⟨Graph.lt_of_node? hn', hlt⟩
    · intro values hr
      have hval := hr _ _ hn' (by simp [hk, Kind.array?])
      rw [hk] at hval
      rw [List.map_cons, List.map_cons, hv values hr, hval]
      rfl

theorem results_yields {outputs : List Sample} {t : Nat → Point (Expr Kind)} (h : b.Unwritten)
    (hs : Samples Node.kind b.graph outputs t) :
    Yields (deliver array outputs .results) b fun z b' =>
      b'.arrays = b.arrays ∧ Delivers array outputs.length t b' z.1 z.2 := by
  refine (mapM_result_yields h (outputs.flatMap Sample.nodes) hs.lt).bind ?_
  intro slots b' hb'
  obtain ⟨hg, hl, hlt, hv⟩ := hb'
  have hu := h.grows hg
  have hpure : ∀ (i : Nat) m, b'.graph.node? i = some m → m.kind.isPure = true := by
    intro i m hm
    rw [Graph.node?_eq] at hm
    exact hu.pure m (List.mem_of_getElem? hm)
  refine yields_pure ⟨hg.arrays_eq, hu.disciplined, hlt, ?_, ?_, ?_⟩
  · intro n _ i _ m hm
    exact hpure i m hm
  · intro slots' he
    obtain rfl := Binding.results.inj he
    refine ⟨rfl, ?_, ?_⟩
    · simp [hl, List.length_flatMap, Sample.nodes, List.map_const', Nat.mul_comm]
    · intro i hi
      obtain ⟨m, hm⟩ := Graph.node?_of_lt (hlt i hi)
      exact ⟨m, hm, hpure i m hm⟩
  · intro initial _
    exact (hv _ (hu.disciplined.respects .float initial)).trans
      (h.outputs hu.disciplined hg.keeps hs initial)

/-- The writes that put samples into consecutive cells. -/
def writes (array : ArrayId) : Nat → List Sample → List Kind
  | _, [] => []
  | k, x :: xs =>
    .write array (2 * k) x.re :: .write array (2 * k + 1) x.im :: writes array (k + 1) xs

theorem write_yields (hinfo : b.arrays[array]? = some info)
    (hc : c < info.length) {v : Nat} (hv : v < b.graph.size) :
    Yields (write array c v) b fun _ b' => Grows Admits b b' ∧
      ∃ n, b'.graph.list = b.graph.list ++ [n] ∧ n.kind = .write array c v := by
  refine (yields_of_run (add_run _ b) ⟨?_, ?_⟩).of_run_eq (run_bind (checkCell_run hinfo hc))
  · refine .add .refl _ ⟨⟨info, hinfo, hc⟩, nofun⟩ ?_
    intro j hj
    exact List.mem_singleton.mp hj ▸ hv
  · rcases add_cases b (.write array c v) with ⟨i, hx, _⟩ | ⟨_, he⟩
    · rw [existing?_write] at hx
      cases hx
    · rw [he, Graph.append_list]
      exact ⟨_, rfl, rfl⟩

theorem writeSamples_yields (xs : List Sample) (hinfo : b.arrays[array]? = some info) (k : Nat)
    (hlen : 2 * (k + xs.length) ≤ info.length)
    (hxs : ∀ i : Nat, i ∈ xs.flatMap Sample.nodes → i < b.graph.size) :
    Yields (writeSamples array k xs) b fun _ b' => Grows Admits b b' ∧
      ∃ ws, b'.graph.list = b.graph.list ++ ws ∧ ws.map Node.kind = writes array k xs := by
  induction xs generalizing b k with
  | nil => exact yields_pure ⟨.refl, [], by simp, rfl⟩
  | cons x xs ih =>
    simp only [List.length_cons] at hlen
    simp only [List.flatMap_cons, Sample.nodes, List.cons_append, List.nil_append,
      List.forall_mem_cons] at hxs
    obtain ⟨hre, him, hrest⟩ := hxs
    refine (write_yields hinfo (by omega) hre).bind ?_
    intro _ b₁ h₁
    obtain ⟨hg₁, n₁, hl₁, hk₁⟩ := h₁
    have hle₁ := Graph.Keeps.size_le hg₁.keeps
    refine (write_yields (hg₁.arrays_eq ▸ hinfo) (by omega)
      (Nat.lt_of_lt_of_le him hle₁)).bind ?_
    intro _ b₂ h₂
    obtain ⟨hg₂, n₂, hl₂, hk₂⟩ := h₂
    have hg := hg₁.trans hg₂
    have hle := Graph.Keeps.size_le hg.keeps
    refine (ih (hg.arrays_eq ▸ hinfo) (k + 1) (by omega)
      fun i hi => Nat.lt_of_lt_of_le (hrest i hi) hle).mono ?_
    intro _ b₃ h₃
    obtain ⟨hg₃, ws, hl₃, hks⟩ := h₃
    refine ⟨hg.trans hg₃, n₁ :: n₂ :: ws, ?_, ?_⟩
    · rw [hl₃, hl₂, hl₁]
      simp
    · simp [writes, hk₁, hk₂, hks]

theorem operands_writes (array : ArrayId) (k : Nat) (xs : List Sample) :
    ∀ kind ∈ writes array k xs, ∀ i ∈ kind.operands, i ∈ xs.flatMap Sample.nodes := by
  induction xs generalizing k with
  | nil => nofun
  | cons x xs ih =>
    simp only [writes, List.forall_mem_cons]
    refine ⟨?_, ?_, ?_⟩
    · simp [Kind.operands, Sample.nodes]
    · simp [Kind.operands, Sample.nodes]
    · intro kind hk i hi
      exact List.mem_append_right _ (ih (k + 1) kind hk i hi)

theorem writesTo_writes (array : ArrayId) (k : Nat) (xs : List Sample) (n : Node)
    (h : n.kind ∈ writes array k xs) : n.writesTo array = true := by
  induction xs generalizing k with
  | nil => cases h
  | cons x xs ih =>
    simp only [writes, List.mem_cons] at h
    rcases h with h | h | h
    · simp [Node.writesTo, h]
    · simp [Node.writesTo, h]
    · exact ih (k + 1) h

/-- The writes leave the samples' values in the cells. -/
theorem foldl_writes (array : ArrayId) (values : NodeId → α) (xs : List Sample) (k : Nat)
    (cells : List α) (hlen : cells.length = 2 * (k + xs.length)) :
    (writes array k xs).foldl (fun cells kind => kind.stored values array cells) cells =
      cells.take (2 * k) ++ (xs.flatMap Sample.nodes).map values := by
  induction xs generalizing k cells with
  | nil =>
    have hall : cells.take (2 * k) = cells := List.take_of_length_le (by simp [hlen])
    simp [writes, hall]
  | cons x xs ih =>
    simp only [List.length_cons] at hlen
    have hfirst : ((cells.set (2 * k) (values x.re)).set (2 * k + 1) (values x.im)).take
        (2 * (k + 1)) = cells.take (2 * k) ++ [values x.re, values x.im] := by
      have hre : 2 * k < cells.length := by omega
      have him : 2 * k + 1 < cells.length := by omega
      have htwo : 2 * (k + 1) = 2 * k + 1 + 1 := by omega
      rw [htwo, List.take_add_one, List.getElem?_set_self (by simpa using him),
        List.take_set_of_le (Nat.le_refl _), List.take_add_one, List.getElem?_set_self hre,
        List.take_set_of_le (Nat.le_refl _)]
      simp
    have hstored : ∀ c v cells, Kind.stored values array cells (.write array c v) =
        cells.set c (values v) := by simp [Kind.stored]
    simp only [writes, List.foldl_cons, hstored]
    rw [ih (k + 1) _ (by simp; omega), hfirst]
    simp [Sample.nodes]

theorem inPlace_yields {outputs : List Sample} {t : Nat → Point (Expr Kind)} (h : b.Unwritten)
    (hs : Samples Node.kind b.graph outputs t) (hinfo : b.arrays[array]? = some info)
    (hlen : info.length = 2 * outputs.length) :
    Yields (deliver array outputs .inPlace) b fun z b' =>
      b'.arrays = b.arrays ∧ Delivers array outputs.length t b' z.1 z.2 := by
  refine (writeSamples_yields outputs hinfo 0 (by omega) hs.lt).bind ?_
  intro _ b' hb'
  obtain ⟨hg, ws, hl, hks⟩ := hb'
  have hd := h.disciplined.grows hg
  refine yields_pure ⟨hg.arrays_eq, hd, nofun, ?_, nofun, ?_⟩
  · intro n hn i hi m hm
    -- operands are older than all writes
    have hlt : i < b.graph.size := by
      rw [hl, List.mem_append] at hn
      rcases hn with hn | hn
      · have hnode := h.disciplined.mem_list.mp hn
        exact Nat.lt_trans (h.disciplined.ordered _ n hnode i hi) (Graph.lt_of_node? hnode)
      · have hkind : n.kind ∈ writes array 0 outputs := hks ▸ List.mem_map_of_mem hn
        exact hs.lt i (operands_writes array 0 outputs _ hkind i hi)
    obtain ⟨m', hm'⟩ := Graph.node?_of_lt hlt
    have he : m' = m := Option.some.inj ((hg.keeps i m' hm').symm.trans hm)
    rw [Graph.node?_eq] at hm'
    exact he ▸ h.pure m' (List.mem_of_getElem? hm')
  · intro initial hi
    have hws : b'.graph.list.filter (·.writesTo array) = ws := by
      have hold : b.graph.list.filter (·.writesTo array) = [] := by
        rw [← List.length_eq_zero_iff, ← List.countP_eq_length_filter]
        exact h.writesTo_eq_zero array
      have hnew : ws.filter (·.writesTo array) = ws := by
        refine List.filter_eq_self.mpr ?_
        intro n hn
        exact writesTo_writes array 0 outputs n (hks ▸ List.mem_map_of_mem hn)
      rw [hl, List.filter_append, hold, hnew, List.nil_append]
    change ((Execution.start .float initial).run .float b'.graph.list).contents array = _
    rw [hd.orderly.contents_eq, hws]
    have hfold := foldl_writes array
      ((Execution.start .float initial).run .float b'.graph.list).values outputs 0 (initial array)
      (by omega)
    rw [← hks, List.foldl_map] at hfold
    rw [hfold, List.take_zero, List.nil_append]
    exact h.outputs hd hg.keeps hs initial

end Kernel

end FlatFourier
