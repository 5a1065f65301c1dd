import FlatFourier.Proofs.PlanValidity

namespace FlatFourier

open Build

variable {α : Type u} {I : Interpretation α}

/-- The write to a cell with the largest number below an epoch. -/
def Graph.LastWrite (g : Graph) (id : NodeId) (array : ArrayId) (cell epoch : Nat) : Prop :=
  ∃ s, g.IsWrite id array cell s ∧ s < epoch ∧
    ∀ j t, g.IsWrite j array cell t → t < epoch → t ≤ s

/-- There is no write to a cell with a number below an epoch. -/
def Graph.Untouched (g : Graph) (array : ArrayId) (cell epoch : Nat) : Prop :=
  ∀ j t, g.IsWrite j array cell t → epoch ≤ t

/-- A node that has the value of the last write to a cell before an epoch, or what the cell held at
first if there is no such write. -/
def Execution.Observes (s : Execution α) (g : Graph) (initial : ArrayId → List α) (id : NodeId)
    (array : ArrayId) (cell epoch : Nat) : Prop :=
  (∃ j, g.LastWrite j array cell epoch ∧ s.values id = s.values j) ∨
    g.Untouched array cell epoch ∧ (initial array)[cell]? = some (s.values id)

/-- Executes the nodes of a plan in its order. -/
def Plan.execute (p : Plan) (I : Interpretation α) (g : Graph) (initial : ArrayId → List α) :
    Execution α :=
  (Execution.start I initial).run I (p.nodes g)

theorem Graph.LastWrite.isWrite {g : Graph} (h : g.LastWrite i a c e) : ∃ s, g.IsWrite i a c s := by
  obtain ⟨s, hs, _⟩ := h
  exact ⟨s, hs⟩

/-- Only the values of the node and of writes matter for what it observes. -/
theorem Execution.Observes.congr {s s' : Execution α} {g : Graph} {initial : ArrayId → List α}
    (h : s.Observes g initial i a c e) (hi : s'.values i = s.values i)
    (hw : ∀ j c t, g.IsWrite j a c t → s'.values j = s.values j) :
    s'.Observes g initial i a c e := by
  rcases h with ⟨j, hj, hv⟩ | ⟨hu, hv⟩
  · obtain ⟨t, ht⟩ := hj.isWrite
    exact .inl ⟨j, hj, by rw [hi, hv, hw j c t ht]⟩
  · exact .inr ⟨hu, by rw [hv, hi]⟩

theorem length_contentsAt (values : NodeId → α) (initial : ArrayId → List α) (nodes : List Node)
    (array : ArrayId) (k : Nat) :
    (contentsAt values initial nodes array k).length = (initial array).length := by
  unfold contentsAt
  generalize (nodes.filter (·.writesTo array)).take k = writes
  generalize initial array = cells
  induction writes generalizing cells with
  | nil => rfl
  | cons n writes ih => rw [List.foldl_cons, ih, Kind.length_stored]

namespace Builder.Disciplined

variable {b : Builder} {initial : ArrayId → List α} {values : NodeId → α} {a c k : Nat}

/-- If write number `k` goes to one cell, it does not go to another. -/
theorem ne_of_isWrite (h : b.Disciplined) {n : Node} (hn : n ∈ b.graph.list)
    (hk : n.kind = .write a c' v) (hs : n.seq = some k) (hc : c' ≠ c)
    (hw : b.graph.IsWrite j a c t) : t ≠ k := by
  rintro rfl
  obtain ⟨m, v', hm, hmk, hms⟩ := hw
  obtain rfl := h.id_eq hm
  obtain rfl := h.orderly.numbered.write_unique (h.mem_list.mpr hm) hn hmk hk hms hs
  rw [hk] at hmk
  cases hmk
  exact hc rfl

/-- What a cell holds after `k` writes to its array. -/
theorem contentsAt_cell (h : b.Disciplined) (hv : Solves I initial b.graph.list values)
    (hk : k ≤ writesTo a b.graph.list) (hc : c < (initial a).length) :
    (∃ j, b.graph.LastWrite j a c k ∧
      (contentsAt values initial b.graph.list a k)[c]? = some (values j)) ∨
    b.graph.Untouched a c k ∧
      (contentsAt values initial b.graph.list a k)[c]? = (initial a)[c]? := by
  induction k with
  | zero => exact .inr ⟨fun _ _ _ => Nat.zero_le _, rfl⟩
  | succ k ih =>
    obtain ⟨n, hn, c', v, hnk, hns⟩ := h.orderly.numbered.exists_write hk
    have hnext : contentsAt values initial b.graph.list a (k + 1) =
        (contentsAt values initial b.graph.list a k).set c' (values v) := by
      rw [contentsAt_succ (h.orderly.numbered.write_at hn hnk hns), hnk]
      exact if_pos rfl
    rw [hnext]
    -- write number `k` is the last one to the cell, or the cell has not changed since
    by_cases hcell : c' = c
    · subst hcell
      refine .inl ⟨n.id, ⟨k, ⟨n, v, h.mem_list.mp hn, hnk, hns⟩, Nat.lt_succ_self k, ?_⟩, ?_⟩
      · intro j t _ ht
        exact Nat.le_of_lt_succ ht
      · rw [List.getElem?_set_self (by rwa [length_contentsAt]), hv n hn, hnk]
        rfl
    · have hne : ∀ j t, b.graph.IsWrite j a c t → t ≠ k :=
        fun j t => h.ne_of_isWrite hn hnk hns hcell
      rw [List.getElem?_set_ne hcell]
      rcases ih (Nat.le_of_lt hk) with ⟨j, ⟨s, hw, hs, hlast⟩, hj⟩ | ⟨hu, hj⟩
      · refine .inl ⟨j, ⟨s, hw, Nat.lt_succ_of_lt hs, ?_⟩, hj⟩
        intro i t ht hlt
        exact hlast i t ht (Nat.lt_of_le_of_ne (Nat.le_of_lt_succ hlt) (hne i t ht))
      · refine .inr ⟨?_, hj⟩
        intro i t ht
        exact Nat.lt_of_le_of_ne (hu i t ht) (hne i t ht).symm

/-- In the order of creation, a read sees the last write to its cell. -/
theorem observes (h : b.Disciplined) (I : Interpretation α)
    (hinitial : ∀ a info, b.arrays[a]? = some info → (initial a).length = info.length)
    (hi : b.graph.IsRead i a c e) :
    ((Execution.start I initial).run I b.graph.list).Observes b.graph initial i a c e := by
  obtain ⟨n, hn, hk⟩ := hi
  obtain rfl := h.id_eq hn
  have hlist := h.mem_list.mpr hn
  have hc : c < (initial a).length := by
    have hcell := h.cells n hlist
    rw [hk] at hcell
    obtain ⟨info, hinfo, hlt⟩ := hcell
    rwa [hinitial a info hinfo]
  obtain ⟨hv, _⟩ := h.orderly.solves I initial
  have hread := hv n hlist
  rw [hk, Kind.value, List.getD_eq_getElem?_getD] at hread
  rcases h.contentsAt_cell hv (h.orderly.epoch_le hlist hk) hc with ⟨j, hj, he⟩ | ⟨hu, he⟩
  · rw [he] at hread
    exact .inl ⟨j, hj, hread⟩
  · rw [he, List.getElem?_eq_getElem hc] at hread
    exact .inr ⟨hu, by rw [hread, List.getElem?_eq_getElem hc]; rfl⟩

/-- Executing a plan computes what executing all nodes in the order of their creation computes. -/
theorem execute_agrees (h : b.Disciplined) {p : Plan} (hp : p.Faithful b) (I : Interpretation α)
    (initial : ArrayId → List α) :
    (∀ i : Nat, i ∈ p.order → (p.execute I b.graph initial).values i =
        ((Execution.start I initial).run I b.graph.list).values i) ∧
      (p.execute I b.graph initial).contents =
        ((Execution.start I initial).run I b.graph.list).contents := by
  have hsub : ∀ n ∈ p.nodes b.graph, n ∈ b.graph.list := fun n hn => (h.mem_nodes.mp hn).1
  obtain ⟨hv, hc⟩ := hp.orderly.run_agrees h.orderly hsub I initial
  refine ⟨?_, funext fun a => hc a (hp.writes a)⟩
  intro i hi
  obtain ⟨n, hn⟩ := Graph.node?_of_lt (hp.exist i hi)
  obtain ⟨hmem, rfl⟩ := h.mem_nodes_of_mem_order hi hn
  exact hv n hmem

/-- A read that is planned sees the last write to its cell. -/
theorem execute_observes (h : b.Disciplined) {p : Plan} (hp : p.Faithful b) (I : Interpretation α)
    (hinitial : ∀ a info, b.arrays[a]? = some info → (initial a).length = info.length)
    (hi : b.graph.IsRead i a c e) (hplanned : i ∈ p.order) :
    (p.execute I b.graph initial).Observes b.graph initial i a c e := by
  obtain ⟨hv, _⟩ := h.execute_agrees hp I initial
  refine (h.observes I hinitial hi).congr (hv i hplanned) ?_
  intro j c t hw
  exact hv j ((h.valid hp).written hw)

/-- Without pruning all nodes are planned, in the order of their creation. -/
theorem range_complete (h : b.Disciplined) : (Plan.complete b).order = List.range b.graph.size := by
  rw [Plan.order_complete]
  refine List.ext_getElem (by simp) ?_
  intro i hi _
  rw [List.length_map] at hi
  rw [List.getElem_map, List.getElem_range]
  exact (Chained.orderly h.chained).2 i _ (List.getElem?_eq_getElem hi)

end Builder.Disciplined

/-- Pruning changes nothing. For any roots of a staged builder, its pruned plan and the plan of all
nodes in the order of their creation give the same values to the nodes of the former and leave the
same in all arrays, and in both a read sees the last write to its cell. -/
theorem staged_plans_agree {b : Builder} (h : Staged b) (roots : List NodeId)
    (hroots : ∀ i ∈ roots, i < b.graph.size) (I : Interpretation α) (initial : ArrayId → List α)
    (hinitial : ∀ a info, b.arrays[a]? = some info → (initial a).length = info.length) :
    ∃ p b₁ q b₂, plan roots true b = .ok p b₁ ∧ plan roots false b = .ok q b₂ ∧
      (∀ i ∈ roots, i ∈ p.order) ∧ q.order = List.range b.graph.size ∧
      (∀ i ∈ p.order, (p.execute I b.graph initial).values i =
        (q.execute I b.graph initial).values i) ∧
      (∀ a, (p.execute I b.graph initial).contents a = (q.execute I b.graph initial).contents a) ∧
      ∀ i a c e, b.graph.IsRead i a c e →
        (q.execute I b.graph initial).Observes b.graph initial i a c e ∧
        (i ∈ p.order → (p.execute I b.graph initial).Observes b.graph initial i a c e) := by
  have hd := h.disciplined
  obtain ⟨p, b₁, hplan, _, hp, hplanned⟩ := hd.plan_yields hroots true
  have hq := hd.complete_faithful
  obtain ⟨hpv, hpc⟩ := hd.execute_agrees hp I initial
  obtain ⟨hqv, hqc⟩ := hd.execute_agrees hq I initial
  refine ⟨p, b₁, .complete b, _, hplan, run_bind (ask_run rfl), hplanned, hd.range_complete, ?_, ?_,
    ?_⟩
  · intro i hi
    rw [hpv i hi, hqv i (hd.mem_complete.mpr (hp.exist i hi))]
  · intro a
    rw [hpc, hqc]
  · intro i a c e hr
    have hall : i ∈ (Plan.complete b).order := by
      obtain ⟨n, hn, _⟩ := hr
      exact hd.mem_complete.mpr (Graph.lt_of_node? hn)
    exact ⟨hd.execute_observes hq I hinitial hr hall, hd.execute_observes hp I hinitial hr⟩

theorem swapBuilder_plans_agree : ∃ p b', plan [4, 7, 7] true swapBuilder = .ok p b' ∧
    let s := p.execute .float swapBuilder.graph fun a => if a = 0 then [2, 3] else [0]
    s.values 7 = 2 * 3 ∧ s.contents 0 = [3, 2] ∧ s.contents 1 = [3] ∧
      swapBuilder.graph.IsRead 4 0 0 2 ∧
      s.Observes swapBuilder.graph (fun a => if a = 0 then [2, 3] else [0]) 4 0 0 2 := by
  have hinitial : ∀ a info, swapBuilder.arrays[a]? = some info →
      (if a = 0 then [2, 3] else [0] : List Float).length = info.length := by
    have harrays : swapBuilder.arrays = #[⟨"pair", 2⟩, ⟨"copy", 1⟩] := by decide
    intro a info hinfo
    rw [harrays] at hinfo
    rcases a with _ | _ | a
    · cases hinfo
      rfl
    · cases hinfo
      rfl
    · cases hinfo
  have hread : swapBuilder.graph.IsRead 4 0 0 2 :=
    ⟨⟨4, .read 0 0 2, none⟩, by decide +kernel, rfl⟩
  obtain ⟨p, b', q, _, hp, _, hroots, hq, hv, hc, hr⟩ := staged_plans_agree staged_swapBuilder
    [4, 7, 7] (by decide) .float _ hinitial
  have hsize : swapBuilder.graph.size = 9 := by decide
  have hrange : q = ⟨List.range 9⟩ := by
    rw [← hsize, ← hq]
  subst hrange
  refine ⟨p, b', hp, (hv 7 (hroots 7 (by decide))).trans rfl, (hc 0).trans rfl, (hc 1).trans rfl,
    hread, (hr 4 0 0 2 hread).2 (hroots 4 (by decide))⟩

end FlatFourier
