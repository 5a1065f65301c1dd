import FlatFourier.Proofs.PlanOrder
import FlatFourier.Proofs.Staging

namespace FlatFourier

open Build

namespace Graph

/-- A node that is write number `seq` to an array, and writes to the given cell. -/
def IsWrite (g : Graph) (id : NodeId) (array : ArrayId) (cell seq : Nat) : Prop :=
  ∃ n v, g.node? id = some n ∧ n.kind = .write array cell v ∧ n.seq = some seq

/-- A node that reads a cell of an array in an epoch. -/
def IsRead (g : Graph) (id : NodeId) (array : ArrayId) (cell epoch : Nat) : Prop :=
  ∃ n, g.node? id = some n ∧ n.kind = .read array cell epoch

end Graph

namespace Plan

/-- Both nodes are planned, and the first comes first. -/
def Precedes (p : Plan) (i j : NodeId) : Prop :=
  ∃ k l, p.position? i = some k ∧ p.position? j = some l ∧ k < l

/-- A plan that has everything in time. All writes are planned, as their effects can be seen. -/
structure Valid (b : Builder) (p : Plan) : Prop where
  once : p.order.Nodup
  operands : ∀ {i n}, i ∈ p.order → b.graph.node? i = some n →
    ∀ j ∈ n.kind.operands, p.Precedes j i
  written : ∀ {i a c s}, b.graph.IsWrite i a c s → i ∈ p.order
  writes : ∀ {i j a c c' s t}, b.graph.IsWrite i a c s → b.graph.IsWrite j a c' t → s < t →
    p.Precedes i j
  seen : ∀ {i j a c c' s e}, b.graph.IsWrite i a c s → b.graph.IsRead j a c' e → j ∈ p.order →
    s < e → p.Precedes i j
  unseen : ∀ {i j a c c' s e}, b.graph.IsRead i a c e → b.graph.IsWrite j a c' s → i ∈ p.order →
    e ≤ s → p.Precedes i j

theorem precedes_of_split {p : Plan} {before after : List NodeId} {i j : NodeId}
    (h : p.order = before ++ j :: after) (hi : i ∈ before) (hj : j ∉ before) :
    p.Precedes i j := by
  have hposition : ∀ x, p.position? x =
      (before.idxOf? x).or ((j :: after).idxOf? x |>.map (· + before.length)) := by
    intro x
    rw [position?, h]
    exact List.findIdx?_append
  cases hk : before.idxOf? i with
  | none => exact absurd hi (List.idxOf?_eq_none_iff.mp hk)
  | some k =>
    obtain ⟨hlt, _⟩ := List.idxOf?_eq_some_iff.mp hk
    refine ⟨k, before.length, ?_, ?_, hlt⟩
    · rw [hposition, hk, Option.some_or]
    · rw [hposition, List.idxOf?_eq_none_iff.mpr hj, List.idxOf?_cons]
      simp

end Plan

theorem Orderly.nodup_ids {nodes : List Node} (h : Orderly nodes) :
    (nodes.map (·.id)).Nodup := by
  induction h with
  | nil => exact .nil
  | @snoc nodes n h hn ih =>
    rw [List.map_append, List.nodup_append]
    refine ⟨ih, by simp, ?_⟩
    intro i hi j hj
    obtain ⟨m, hm, rfl⟩ := List.mem_map.mp hi
    obtain rfl := List.mem_singleton.mp hj
    exact hn.fresh m hm

namespace Builder.Disciplined

variable {b : Builder} {p : Plan} {m n : Node} {before after : List Node}

theorem order_eq (h : b.Disciplined) (hp : p.Faithful b) :
    p.order = (p.nodes b.graph).map (·.id) :=
  (Plan.map_id_nodes h.consistent hp.exist).symm

theorem precedes_of_mem (h : b.Disciplined) (hp : p.Faithful b)
    (he : p.nodes b.graph = before ++ n :: after) (hm : m ∈ before) : p.Precedes m.id n.id := by
  have ho : p.order = before.map (·.id) ++ n.id :: after.map (·.id) := by
    rw [h.order_eq hp, he, List.map_append, List.map_cons]
  refine Plan.precedes_of_split ho (List.mem_map.mpr ⟨m, hm, rfl⟩) ?_
  intro hn
  obtain ⟨k, hk, hid⟩ := List.mem_map.mp hn
  exact (hp.orderly.at he).fresh k hk hid

/-- A node before which `k` writes to an array are planned comes behind those with smaller numbers
and before all others. -/
theorem precedes_of_count (h : b.Disciplined) (hp : p.Faithful b) (hm : m ∈ p.nodes b.graph)
    (hk : m.kind = .write a c v) (hs : m.seq = some s) (hn : n ∈ p.nodes b.graph)
    (hcount : ∀ before after, p.nodes b.graph = before ++ n :: after → k = writesTo a before) :
    (s < k → p.Precedes m.id n.id) ∧ (k ≤ s → m ≠ n → p.Precedes n.id m.id) := by
  obtain ⟨before, after, he⟩ := List.append_of_mem hn
  have hcount := hcount before after he
  have hside : m ∈ before ↔ s < k := by
    rw [hcount]
    exact Numbered.mem_left_iff (he ▸ hp.orderly.numbered) (he ▸ hm) hk hs
  refine ⟨fun hlt => h.precedes_of_mem hp he (hside.mpr hlt), ?_⟩
  intro hle hne
  have hafter : m ∈ after := by
    rw [he, List.mem_append, List.mem_cons] at hm
    rcases hm with hm | hm | hm
    · exact absurd (hside.mp hm) (Nat.not_lt.mpr hle)
    · exact absurd hm hne
    · exact hm
  obtain ⟨between, rest, rfl⟩ := List.append_of_mem hafter
  have hsplit : p.nodes b.graph = (before ++ n :: between) ++ m :: rest := by simp [he]
  exact h.precedes_of_mem hp hsplit (by simp)

/-- All writes of the builder are planned. -/
theorem mem_nodes_of_isWrite (h : b.Disciplined) (hp : p.Faithful b)
    (hw : b.graph.IsWrite i a c s) :
    ∃ m ∈ p.nodes b.graph, m.id = i ∧ (∃ v, m.kind = .write a c v) ∧ m.seq = some s := by
  obtain ⟨m, v, hm, hk, hs⟩ := hw
  obtain rfl := h.id_eq hm
  have hlist := h.mem_list.mpr hm
  have hlt := h.orderly.numbered.lt_writesTo hlist hk hs
  rw [← hp.writes a] at hlt
  obtain ⟨n, hn, c', v', hnk, hns⟩ := hp.orderly.numbered.exists_write hlt
  obtain rfl := h.orderly.numbered.write_unique hlist (h.mem_nodes.mp hn).1 hk hnk hs hns
  exact ⟨m, hn, rfl, ⟨v, hk⟩, hs⟩

/-- A plan that lists existing nodes in an orderly way and holds all writes is valid. -/
theorem valid (h : b.Disciplined) (hp : p.Faithful b) : p.Valid b where
  once := h.order_eq hp ▸ hp.orderly.nodup_ids
  operands := by
    intro i n hi hn j hj
    obtain ⟨hmem, rfl⟩ := h.mem_nodes_of_mem_order hi hn
    obtain ⟨before, after, he⟩ := List.append_of_mem hmem
    obtain ⟨m, hm, rfl⟩ := (hp.orderly.at he).operands j hj
    exact h.precedes_of_mem hp he hm
  written := by
    intro i a c s hw
    obtain ⟨m, hm, rfl, _⟩ := h.mem_nodes_of_isWrite hp hw
    exact (h.mem_nodes.mp hm).2
  writes := by
    intro i j a c c' s t hi hj hlt
    obtain ⟨m, hm, rfl, ⟨v, hk⟩, hs⟩ := h.mem_nodes_of_isWrite hp hi
    obtain ⟨n, hn, rfl, ⟨v', hk'⟩, ht⟩ := h.mem_nodes_of_isWrite hp hj
    refine (h.precedes_of_count hp hm hk hs hn ?_).1 hlt
    intro before after he
    have hcount := (hp.orderly.at he).written a c' v' hk'
    exact Option.some.inj (ht.symm.trans hcount)
  seen := by
    intro i j a c c' s e hi hj hplanned hlt
    obtain ⟨m, hm, rfl, ⟨v, hk⟩, hs⟩ := h.mem_nodes_of_isWrite hp hi
    obtain ⟨n, hj, hk'⟩ := hj
    obtain ⟨hn, rfl⟩ := h.mem_nodes_of_mem_order hplanned hj
    exact (h.precedes_of_count hp hm hk hs hn fun before after he =>
      (hp.orderly.at he).epoch a c' e hk').1 hlt
  unseen := by
    intro i j a c c' s e hi hj hplanned hle
    obtain ⟨m, hm, rfl, ⟨v, hk⟩, hs⟩ := h.mem_nodes_of_isWrite hp hj
    obtain ⟨n, hi, hk'⟩ := hi
    obtain ⟨hn, rfl⟩ := h.mem_nodes_of_mem_order hplanned hi
    refine (h.precedes_of_count hp hm hk hs hn fun before after he =>
      (hp.orderly.at he).epoch a c e hk').2 hle ?_
    intro hmn
    rw [hmn, hk'] at hk
    cases hk

end Builder.Disciplined

/-- Any roots of a staged builder can be planned, pruned or not, and the plan has everything in
time. -/
theorem staged_plan_valid {b : Builder} (h : Staged b) (roots : List NodeId)
    (hroots : ∀ i ∈ roots, i < b.graph.size) (prune : Bool) :
    ∃ p b', plan roots prune b = .ok p b' ∧ p.Valid b ∧ ∀ i ∈ roots, i ∈ p.order := by
  obtain ⟨p, b', hplan, _, hp, hplanned⟩ := h.disciplined.plan_yields hroots prune
  exact ⟨p, b', hplan, h.disciplined.valid hp, hplanned⟩

/-- Two cells are swapped, the first goes on to another array, and what is read there is multiplied
by the old value. The last node is of no use. -/
def swapBuilder : Builder :=
  [Call.declare "pair" 2, .declare "copy" 1, .read 0 0, .read 0 1, .write 0 0 1, .write 0 1 0,
    .read 0 0, .write 1 0 4, .read 1 0, .operation (.binary .times 0 6),
    .operation (.binary .plus 4 6)].foldl (fun b c => c.run.after b)
    (.withRules ⟨false, true⟩ Rule.standard)

theorem staged_swapBuilder : Staged swapBuilder := by
  simp only [swapBuilder, List.foldl_cons, List.foldl_nil]
  refine .call (.call (.call (.call (.call (.call (.call (.call (.call (.call (.call (.start _ _)
    _ ?_) _ ?_) _ ?_) _ ?_) _ ?_) _ ?_) _ ?_) _ ?_) _ ?_) _ ?_) _ ?_
  · exact ⟨(by decide : 2 < Text.countBound), by decide⟩
  · exact ⟨(by decide : 1 < Text.countBound), by decide⟩
  all_goals exact ⟨trivial, by decide⟩

theorem swapBuilder_plan_valid :
    ∃ p b', plan [7, 7] true swapBuilder = .ok p b' ∧ p.Valid swapBuilder ∧
      ∀ i ∈ [7, 7], i ∈ p.order :=
  staged_plan_valid staged_swapBuilder [7, 7] (by decide) true

end FlatFourier
