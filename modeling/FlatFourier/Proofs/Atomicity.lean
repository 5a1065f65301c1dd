import Mathlib
import FlatFourier.Proofs.OperatorTable
import FlatFourier.Proofs.Staging

namespace FlatFourier

open Build

/-- The step fails exactly in the bad case, and then it has changed nothing. -/
structure Build.FailsIff (step : Build α) (b : Builder) (bad : Prop) : Prop where
  fails_iff : (∃ e b', step b = .error e b') ↔ bad
  unchanged : ∀ e b', step b = .error e b' → b' = b

/-- The array is not declared, or it has no such cell. -/
def Builder.LacksCell (b : Builder) (a : ArrayId) (c : Nat) : Prop :=
  b.arrays.size ≤ a ∨ ∃ info, b.arrays[a]? = some info ∧ info.length ≤ c

theorem Graph.node?_eq_none {g : Graph} {i : Nat} (h : g.size ≤ i) : g.node? i = none :=
  Array.getElem?_eq_none h

namespace Build.FailsIff

variable {step : Build α} {b : Builder} {bad : Prop}

theorem of_ok (h : step b = .ok a b') (hbad : ¬bad) : FailsIff step b bad where
  fails_iff := by
    simp only [h, reduceCtorEq, exists_false, false_iff]
    exact hbad
  unchanged e b'' he := by
    rw [h] at he
    cases he

theorem of_error (h : step b = .error e b) (hbad : bad) : FailsIff step b bad where
  fails_iff := ⟨fun _ => hbad, fun _ => ⟨e, b, h⟩⟩
  unchanged e' b' he := by
    rw [h] at he
    cases he
    rfl

theorem error (h : FailsIff step b bad) (hbad : bad) : ∃ e, step b = .error e b := by
  obtain ⟨e, b', he⟩ := h.fails_iff.mpr hbad
  obtain rfl := h.unchanged e b' he
  exact ⟨e, he⟩

theorem ok (h : FailsIff step b bad) (hbad : ¬bad) : ∃ a b', step b = .ok a b' := by
  cases hs : step b with
  | ok a b' => exact ⟨a, b', rfl⟩
  | error e b' => exact absurd (h.fails_iff.mp ⟨e, b', hs⟩) hbad

end Build.FailsIff

namespace Rule

variable {b : Builder} {kind : Kind} {a c : NodeId}

/-- Without its second operand an operation passes the first rule untouched, or stops there. -/
theorem foldConstants_right (op : BinaryOp) (ha : b.graph.node? a = some n)
    (hc : b.graph.node? c = none) :
    foldConstants (.binary op a c) b = .ok none b ∨
      foldConstants (.binary op a c) b = .error (.unknownNode c b.graph.size) b := by
  have hrun : foldConstants (.binary op a c) b = _ := run_bind (constant?_run ha)
  cases hx : n.kind.constant? with
  | none =>
    rw [hx] at hrun
    exact .inl hrun
  | some x =>
    rw [hx] at hrun
    exact .inr (hrun.trans (run_bind_error (constant?_error hc)))

/-- The second rule looks at the second operand first, whatever the operator. -/
theorem dropIdentity_right (op : BinaryOp) (hc : b.graph.node? c = none) :
    dropIdentity (.binary op a c) b = .error (.unknownNode c b.graph.size) b := by
  cases op with
  | plus => exact run_bind_error (isConstant_error hc 0)
  | minus => exact run_bind_error (isConstant_error hc 0)
  | times => exact run_bind_error (isConstant_error hc 1)
  | div => exact run_bind_error (isConstant_error hc 1)

/-- The standard rules report the first operand that does not exist. -/
theorem firstAnswer?_missing (build : Kind → Build NodeId) (hk : kind.IsArithmetic)
    (h : kind.operands.find? (b.graph.size ≤ ·) = some i) :
    firstAnswer? build standard kind b = .error (.unknownNode i b.graph.size) b := by
  cases kind with
  | const x => cases h
  | unary op a =>
    simp only [Kind.operands, List.find?_singleton] at h
    split at h
    · obtain rfl := Option.some.inj h
      have ha := Graph.node?_eq_none (of_decide_eq_true ‹_›)
      exact run_bind_error (run_bind_error (constant?_error ha))
    · cases h
  | binary op a c =>
    simp only [Kind.operands, List.find?_cons] at h
    split at h
    · obtain rfl := Option.some.inj h
      have ha := Graph.node?_eq_none (of_decide_eq_true ‹_›)
      exact run_bind_error (run_bind_error (constant?_error ha))
    · rename_i hlt
      obtain ⟨n, hn⟩ := Graph.node?_of_lt (Nat.not_le.mp (of_decide_eq_false hlt))
      split at h
      · obtain rfl := Option.some.inj h
        have hc := Graph.node?_eq_none (of_decide_eq_true ‹_›)
        rcases foldConstants_right op hn hc with hfold | hfold
        · exact (run_bind hfold).trans (run_bind_error (dropIdentity_right op hc))
        · exact run_bind_error hfold
      · cases h
  | _ => cases hk

end Rule

namespace Build

variable {b : Builder} {kind : Kind}

theorem operation_missing (hr : b.rules = Rule.standard) (hk : kind.IsArithmetic)
    (h : kind.operands.find? (b.graph.size ≤ ·) = some i) :
    operation kind b = .error (.unknownNode i b.graph.size) b := by
  refine (run_bind (get_run b)).trans ((run_bind (get_run b)).trans ?_)
  rw [hr]
  exact run_bind_error (Rule.firstAnswer?_missing _ hk h)

theorem operation_failsIff (hb : b.Standard) (ho : b.graph.Ordered) (kind : Kind)
    (hk : kind.IsArithmetic) :
    FailsIff (operation kind) b (∃ i ∈ kind.operands, b.graph.size ≤ i) := by
  cases hfind : kind.operands.find? (b.graph.size ≤ ·) with
  | some i =>
    have hsize : b.graph.size ≤ i := by simpa using List.find?_some hfind
    apply FailsIff.of_error (operation_missing hb.rules hk hfind)
    exact ⟨i, List.mem_of_find?_eq_some hfind, hsize⟩
  | none =>
    have hbelow : kind.Below b.graph.size := by
      intro i hi
      simpa using List.find?_eq_none.mp hfind i hi
    obtain ⟨e, he⟩ := Spells.exists_of_ordered ho Node.id hk hbelow
    obtain ⟨i, b', hrun, _⟩ := operation_yields ⟨hb.consistent, ho⟩ (.refl b) he
    refine .of_ok hrun ?_
    intro hmissing
    obtain ⟨i, hi, hle⟩ := hmissing
    exact absurd (hbelow i hi) (Nat.not_lt.mpr hle)

/-- A step that checks a cell and then cannot fail. -/
theorem checked_failsIff {a : ArrayId} {c : Nat} {rest : Unit → Build α}
    (hrest : ∃ x b', rest () b = .ok x b') :
    FailsIff (checkCell a c >>= rest) b (b.LacksCell a c) := by
  have hlacks : b.LacksCell a c ↔ ¬∃ info, b.arrays[a]? = some info ∧ c < info.length := by
    unfold Builder.LacksCell
    cases ha : b.arrays[a]? with
    | none => simpa using Array.getElem?_eq_none_iff.mp ha
    | some info =>
      have hlt : a < b.arrays.size := (Array.getElem?_eq_some_iff.mp ha).choose
      simp [Nat.not_le.mpr hlt]
  rw [hlacks]
  rcases checkCell_cases b a c with ⟨info, ha, hc, hrun⟩ | ⟨e, he⟩
  · obtain ⟨x, b', hx⟩ := hrest
    exact .of_ok ((run_bind hrun).trans hx) (not_not.mpr ⟨info, ha, hc⟩)
  · refine .of_error (run_bind_error he) ?_
    intro hcell
    obtain ⟨info, ha, hc⟩ := hcell
    rw [checkCell_run ha hc] at he
    cases he

end Build

/-- With the standard rules and an ordered graph, an operation fails exactly if an operand does not
exist, and a read or a write exactly if the cell does not; the builder is then as it was before. -/
theorem construction_atomic {b : Builder} (hb : b.Standard) (ho : b.graph.Ordered) :
    (∀ a c : Nat, ∀ step ∈ [plus a c, minus a c, times a c, div a c],
      FailsIff step b (b.graph.size ≤ a ∨ b.graph.size ≤ c)) ∧
    (∀ a : Nat, ∀ step ∈ [sin a, cos a], FailsIff step b (b.graph.size ≤ a)) ∧
    (∀ a c, FailsIff (read a c) b (b.LacksCell a c)) ∧
    ∀ a c v, FailsIff (write a c v) b (b.LacksCell a c) := by
  refine ⟨?_, ?_, ?_, ?_⟩
  · intro a c
    have hbinary : ∀ op, FailsIff (operation (.binary op a c)) b
        (b.graph.size ≤ a ∨ b.graph.size ≤ c) := by
      intro op
      simpa [Kind.operands] using operation_failsIff hb ho (.binary op a c) trivial
    simp only [List.forall_mem_cons]
    exact ⟨hbinary .plus, hbinary .minus, hbinary .times, hbinary .div, List.forall_mem_nil _⟩
  · intro a
    have hunary : ∀ op, FailsIff (operation (.unary op a)) b (b.graph.size ≤ a) := by
      intro op
      simpa [Kind.operands] using operation_failsIff hb ho (.unary op a) trivial
    simp only [List.forall_mem_cons]
    exact ⟨hunary .sin, hunary .cos, List.forall_mem_nil _⟩
  · intro a c
    exact checked_failsIff ⟨_, _, rfl⟩
  · intro a c v
    exact checked_failsIff ⟨_, _, rfl⟩

theorem construction_atomic_negatedRead :
    (∃ e, times 2 9 negatedRead = .error e negatedRead) ∧
      (∃ i b', times 2 3 negatedRead = .ok i b') ∧
      (∃ e, cos 4 negatedRead = .error e negatedRead) ∧
      (∃ e, read 0 1 negatedRead = .error e negatedRead) ∧
      (∃ e, write 1 0 2 negatedRead = .error e negatedRead) ∧
      ∃ i b', write 0 0 9 negatedRead = .ok i b' := by
  have hstandard : negatedRead.Standard := ⟨_, _, rfl⟩
  have hordered : negatedRead.graph.Ordered := by
    apply hstandard.consistent.ordered_of_list
    rw [list_negatedRead]
    decide
  have hsize : negatedRead.graph.size = 4 := by decide
  have harrays : negatedRead.arrays = #[⟨"data", 1⟩] := by decide
  obtain ⟨hbinary, hunary, hread, hwrite⟩ := construction_atomic hstandard hordered
  rw [hsize] at hbinary hunary
  refine ⟨(hbinary 2 9 (times 2 9) (by simp)).error (by decide),
    (hbinary 2 3 (times 2 3) (by simp)).ok (by decide),
    (hunary 4 (cos 4) (by simp)).error (by decide), (hread 0 1).error ?_,
    (hwrite 1 0 2).error ?_, (hwrite 0 0 9).ok ?_⟩
  · exact .inr ⟨⟨"data", 1⟩, by simp [harrays], by decide⟩
  · exact .inl (by simp [harrays])
  · simp [Builder.LacksCell, harrays]

end FlatFourier
