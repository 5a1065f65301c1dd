import FlatFourier.Proofs.PlanValidity

namespace FlatFourier

open Build

/-- How many writes to an array have smaller ids. -/
def Graph.writesBefore (g : Graph) (array : ArrayId) (id : NodeId) : Nat :=
  g.list.countP fun n => n.writesTo array && n.id < id

namespace Builder

structure WellFormed (b : Builder) : Prop where
  ids : ∀ {i n}, b.graph.node? i = some n → n.id = i
  operands : ∀ {i n}, b.graph.node? i = some n → ∀ j ∈ n.kind.operands, j < i
  numbered : ∀ {i n}, b.graph.node? i = some n →
    (n.seq.isSome ↔ ∃ a c v, n.kind = .write a c v)
  reads : ∀ {i a c e}, b.graph.IsRead i a c e →
    (∃ info, b.arrays[a]? = some info ∧ c < info.length) ∧ b.graph.writesBefore a i = e
  writes : ∀ {i a c s}, b.graph.IsWrite i a c s →
    (∃ info, b.arrays[a]? = some info ∧ c < info.length) ∧ b.graph.writesBefore a i = s

/-- What stands in the first builder stands unchanged in the second, before anything else. -/
structure Appends (b b' : Builder) : Prop where
  nodes : b.graph.list <+: b'.graph.list
  entries : b.log.entries.toList <+: b'.log.entries.toList
  arrays : b.arrays.toList <+: b'.arrays.toList

namespace Appends

variable {b b' : Builder}

theorem refl (b : Builder) : b.Appends b :=
  ⟨List.prefix_rfl, List.prefix_rfl, List.prefix_rfl⟩

theorem trans {b₁ b₂ b₃ : Builder} (h : b₁.Appends b₂) (h' : b₂.Appends b₃) : b₁.Appends b₃ :=
  ⟨h.nodes.trans h'.nodes, h.entries.trans h'.entries, h.arrays.trans h'.arrays⟩

theorem declare (b : Builder) (name : String) (length : Nat) :
    b.Appends (b.declare name length).2 := by
  refine ⟨List.prefix_rfl, List.prefix_rfl, ?_⟩
  rw [Builder.declare, Array.toList_push]
  apply List.prefix_append

theorem add (b : Builder) (kind : Kind) : b.Appends (b.add kind).2 := by
  rcases add_cases b kind with ⟨i, _, he⟩ | ⟨_, he⟩ <;> rw [he]
  · exact ⟨List.prefix_rfl, List.prefix_rfl, List.prefix_rfl⟩
  · refine ⟨?_, ?_, List.prefix_rfl⟩
    · rw [Graph.append_list]
      apply List.prefix_append
    · rw [entries_enter]
      apply List.prefix_append

theorem grows (h : Grows admits b b') : b.Appends b' := by
  induction h with
  | refl => exact refl b
  | add _ kind _ _ ih => exact ih.trans (add _ kind)
  | count _ name ih => exact ⟨ih.nodes, ih.entries, ih.arrays⟩

theorem evolves (h : b.Evolves b') : b.Appends b' := by
  rcases h with ⟨name, length, _, rfl⟩ | hg
  · exact declare b name length
  · exact grows hg

end Appends

end Builder

/-- Ids are places, so the writes with smaller ids are those that stand further in front. -/
theorem Graph.Consistent.writesBefore_eq {g : Graph} (h : g.Consistent) (a : ArrayId) (i : Nat) :
    g.writesBefore a i = writesTo a (g.list.take i) := by
  have hid : ∀ (k : Nat) n, g.list[k]? = some n → n.id = k :=
    fun k n hn => h.ids k n (g.node?_eq k ▸ hn)
  have hfront : ∀ n ∈ g.list.take i, n.id < i := by
    intro n hn
    obtain ⟨k, hk⟩ := List.mem_iff_getElem?.mp hn
    simp only [List.getElem?_take, Option.ite_none_right_eq_some] at hk
    rw [hid k n hk.2]
    exact hk.1
  have hback : ∀ n ∈ g.list.drop i, i ≤ n.id := by
    intro n hn
    obtain ⟨k, hk⟩ := List.mem_iff_getElem?.mp hn
    rw [List.getElem?_drop] at hk
    rw [hid _ n hk]
    apply Nat.le_add_right
  calc g.writesBefore a i
    _ = (g.list.take i ++ g.list.drop i).countP fun n => n.writesTo a && n.id < i := by
      rw [List.take_append_drop]
      rfl
    _ = writesTo a (g.list.take i) + 0 := by
      rw [List.countP_append]
      congr 1
      · apply List.countP_congr
        intro n hn
        simp [hfront n hn]
      · rw [List.countP_eq_zero]
        intro n hn
        simp [Nat.not_lt.mpr (hback n hn)]
    _ = writesTo a (g.list.take i) := Nat.add_zero _

namespace Builder.Disciplined

variable {b : Builder} {n : Node}

theorem seq_isSome_iff (h : b.Disciplined) {i : Nat} (hn : b.graph.node? i = some n) :
    n.seq.isSome ↔ ∃ a c v, n.kind = .write a c v := by
  have hf := h.follows hn
  constructor
  · intro hs
    cases hk : n.kind with
    | write a c v => exact ⟨a, c, v, rfl⟩
    | _ =>
      rw [hf.unnumbered (by rw [hk]; rfl)] at hs
      cases hs
  · intro hw
    obtain ⟨a, c, v, hk⟩ := hw
    rw [hf.written a c v hk]
    rfl

theorem wellFormed (h : b.Disciplined) : b.WellFormed where
  ids := h.id_eq
  operands hn := h.ordered _ _ hn
  numbered := h.seq_isSome_iff
  reads := by
    intro i a c e hread
    obtain ⟨n, hn, hk⟩ := hread
    have hcell := h.cells n (List.mem_of_getElem? (b.graph.node?_eq i ▸ hn))
    rw [hk] at hcell
    refine ⟨hcell, ?_⟩
    rw [h.consistent.writesBefore_eq]
    exact ((h.follows hn).epoch a c e hk).symm
  writes := by
    intro i a c s hwrite
    obtain ⟨n, v, hn, hk, hs⟩ := hwrite
    have hcell := h.cells n (List.mem_of_getElem? (b.graph.node?_eq i ▸ hn))
    rw [hk] at hcell
    refine ⟨hcell, ?_⟩
    rw [h.consistent.writesBefore_eq]
    exact Option.some.inj (((h.follows hn).written a c v hk).symm.trans hs)

end Builder.Disciplined

/-- A builder that is only staged is well formed, and a further call on nodes that exist, even one
that is refused, keeps it so and changes nothing that stands. -/
theorem staged_wellFormed {b : Builder} (h : Staged b) (c : Call) (hc : c.Stages)
    (hn : ∀ i ∈ c.nodes, i < b.graph.size) :
    b.WellFormed ∧ (c.run.after b).WellFormed ∧ b.Appends (c.run.after b) := by
  have hafter : Staged (c.run.after b) := h.call c ⟨hc, hn⟩
  exact ⟨h.disciplined.wellFormed, hafter.disciplined.wellFormed,
    .evolves (c.evolves_of_stages h.disciplined hc hn)⟩

/-- A write behind the end of an array is refused, a read of a cell that has been written is not. -/
theorem swapBuilder_wellFormed :
    (∃ e, (Call.write 1 1 3).run swapBuilder = .error e swapBuilder) ∧
      (swapBuilder.WellFormed ∧ ((Call.write 1 1 3).run.after swapBuilder).WellFormed ∧
        swapBuilder.Appends ((Call.write 1 1 3).run.after swapBuilder)) ∧
      (swapBuilder.WellFormed ∧ ((Call.read 0 1).run.after swapBuilder).WellFormed ∧
        swapBuilder.Appends ((Call.read 0 1).run.after swapBuilder)) := by
  refine ⟨⟨.cellOutOfBounds 1 "copy" 1, by rfl⟩, ?_, ?_⟩
  · exact staged_wellFormed staged_swapBuilder (.write 1 1 3) trivial (by decide)
  · exact staged_wellFormed staged_swapBuilder (.read 0 1) trivial (by decide)

end FlatFourier
