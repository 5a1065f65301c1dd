import Mathlib
import FlatFourier.Proofs.Calls
import FlatFourier.Proofs.PlanOrder

namespace FlatFourier

open Build

/-- What roots and logged writes need: the least set that holds them and, with every node that
exists, its operands and the write that it has to come after. -/
inductive Builder.Needed (b : Builder) (roots : List NodeId) : NodeId → Prop where
  | root {i : NodeId} (h : i ∈ roots) : Needed b roots i
  | write {w : Write} (h : w ∈ b.log.entries) : Needed b roots w.node
  | operand {i j : NodeId} {n : Node} (h : Needed b roots i) (hn : b.graph.node? i = some n)
      (hj : j ∈ n.kind.operands) : Needed b roots j
  | predecessor {i j : NodeId} {n : Node} (h : Needed b roots i) (hn : b.graph.node? i = some n)
      (hj : (WriteOrder.ofLog b.log).predecessor? n.kind n.seq = some j) : Needed b roots j

namespace Plan

variable {b : Builder} {roots : List NodeId}

theorem mem_dependencies {g : Graph} {writes : WriteOrder} {i j : Nat} :
    j ∈ dependencies g writes i ↔ ∃ n, g.node? i = some n ∧
      (j ∈ n.kind.operands ∨ writes.predecessor? n.kind n.seq = some j) := by
  unfold dependencies
  cases g.node? i with
  | none => simp
  | some n => simp [List.mem_append, Option.mem_toList]

/-- The nodes that a pruned plan is about are those that are needed. -/
theorem kept_iff_needed {i : Nat} : Kept b roots i ↔ b.Needed roots i := by
  constructor
  · intro h
    induction h with
    | start h =>
      rcases List.mem_append.mp h with h | h
      · exact .root h
      · obtain ⟨w, hw, rfl⟩ := WriteOrder.mem_all_ofLog.mp h
        exact .write hw
    | need _ hj ih =>
      obtain ⟨n, hn, hj | hj⟩ := mem_dependencies.mp hj
      · exact .operand ih hn hj
      · exact .predecessor ih hn hj
  · intro h
    induction h with
    | root h => exact .start (List.mem_append_left _ h)
    | write h =>
      exact .start (List.mem_append_right _ (WriteOrder.mem_all_ofLog.mpr ⟨_, h, rfl⟩))
    | operand _ hn hj ih => exact ih.need (mem_dependencies.mpr ⟨_, hn, .inl hj⟩)
    | predecessor _ hn hj ih => exact ih.need (mem_dependencies.mpr ⟨_, hn, .inr hj⟩)

/-- A list without repetitions is as long as the set that it lists. -/
theorem ncard_of_lists {order : List NodeId} {P : NodeId → Prop} (hd : order.Nodup)
    (hm : ∀ i, i ∈ order ↔ P i) : {i | P i}.ncard = order.length := by
  have hset : {i | P i} = (order.toFinset : Set NodeId) := by
    ext i
    simp [hm]
  rw [hset, Set.ncard_coe_finset, List.toFinset_card_of_nodup hd]

end Plan

/-- A pruned plan fails exactly if a node that does not exist is needed, and then nothing has
changed. Otherwise it lists the needed nodes once each, and nothing has changed but the length of
the last plan, which is their number. -/
theorem plan_lists_needed (b : Builder) (roots : List NodeId) :
    ((∃ e, plan roots true b = .error e b) ↔ ∃ i, b.Needed roots i ∧ b.graph.size ≤ i) ∧
      ((∀ i, b.Needed roots i → i < b.graph.size) →
        ∃ p, plan roots true b =
            .ok p { b with tally := { b.tally with planned := {i | b.Needed roots i}.ncard } } ∧
          p.order.Nodup ∧ ∀ i, i ∈ p.order ↔ b.Needed roots i) := by
  rcases Plan.pruned_cases b roots with ⟨_, p, _, hbound, hp, hnodup, hmem, _⟩ | ⟨i, hi, hge, hp⟩
  · have hrun : plan roots true b = .ok p (b.countPlanned p.length) := run_bind (ask_run hp)
    have hneeded : ∀ i, i ∈ p.order ↔ b.Needed roots i :=
      fun i => (hmem i).trans Plan.kept_iff_needed
    refine ⟨⟨?_, ?_⟩, fun _ => ⟨p, ?_, hnodup, hneeded⟩⟩
    · intro h
      obtain ⟨e, he⟩ := h
      rw [hrun] at he
      cases he
    · intro h
      obtain ⟨i, hi, hge⟩ := h
      exact absurd (hbound i (Plan.kept_iff_needed.mpr hi)) (Nat.not_lt.mpr hge)
    · rw [Plan.ncard_of_lists hnodup hneeded]
      exact hrun
  · have hrun : plan roots true b = .error (.unplannableNode i b.graph.size) b :=
      run_bind_error (ask_error hp)
    have hneeded := Plan.kept_iff_needed.mp hi
    refine ⟨⟨fun _ => ⟨i, hneeded, hge⟩, fun _ => ⟨_, hrun⟩⟩, ?_⟩
    intro h
    exact absurd (h i hneeded) (Nat.not_lt.mpr hge)

/-- Two nodes in a circle, a read of an epoch that is yet to come, two writes, and a node whose
operand does not exist. -/
def tangled : Builder :=
  [Call.make (.binary .plus 1 2), .make (.binary .minus 0 0), .make (.read 0 0 1),
    .make (.write 0 0 1), .make (.write 0 0 2), .make (.unary .sin 9)].foldl
    (fun b c => c.run.after b) (.withRules ⟨false, true⟩ Rule.standard)

theorem reachable_tangled : Reachable tangled :=
  Reachable.calls (.start _ _) _

theorem list_tangled : tangled.graph.list = [⟨0, .binary .plus 1 2, none⟩,
    ⟨1, .binary .minus 0 0, none⟩, ⟨2, .read 0 0 1, none⟩, ⟨3, .write 0 0 1, some 0⟩,
    ⟨4, .write 0 0 2, some 1⟩, ⟨5, .unary .sin 9, none⟩] := by
  cbv

theorem entries_tangled : tangled.log.entries = #[⟨0, 0, 3⟩, ⟨0, 1, 4⟩] := by
  cbv

/-- The circle needs neither the last node nor the one that does not exist. -/
theorem lt_of_needed_tangled {i : Nat} (h : tangled.Needed [0] i) : i < 5 := by
  have hdeps : ∀ j < 5, ∀ k ∈ Plan.dependencies tangled.graph (WriteOrder.ofLog tangled.log) j,
      k < 5 := by
    decide +kernel
  induction h with
  | root h =>
    cases List.mem_singleton.mp h
    decide
  | write h =>
    rw [entries_tangled, List.mem_toArray, List.mem_pair] at h
    rcases h with rfl | rfl
    · decide
    · decide
  | operand _ hn hj ih => exact hdeps _ ih _ (Plan.mem_dependencies.mpr ⟨_, hn, .inl hj⟩)
  | predecessor _ hn hj ih => exact hdeps _ ih _ (Plan.mem_dependencies.mpr ⟨_, hn, .inr hj⟩)

theorem tangled_plan_lists_needed :
    Reachable tangled ∧
      (∃ p, plan [0] true tangled = .ok p { tangled with
          tally := { tangled.tally with planned := {i | tangled.Needed [0] i}.ncard } } ∧
        p.order.Nodup ∧ ∀ i, i ∈ p.order ↔ tangled.Needed [0] i) ∧
      ∃ e, plan [5] true tangled = .error e tangled := by
  have hsize : tangled.graph.size = 6 := by
    rw [← Graph.length_list, list_tangled]
    rfl
  refine ⟨reachable_tangled, (plan_lists_needed tangled [0]).2 ?_,
    (plan_lists_needed tangled [5]).1.mpr ⟨9, ?_, ?_⟩⟩
  · intro i hi
    rw [hsize]
    exact Nat.lt_succ_of_lt (lt_of_needed_tangled hi)
  · have hn : tangled.graph.node? 5 = some ⟨5, .unary .sin 9, none⟩ := by
      rw [Graph.node?_eq, list_tangled]
      rfl
    exact .operand (.root (by simp)) hn (by simp [Kind.operands])
  · omega

end FlatFourier
