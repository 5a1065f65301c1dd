import FlatFourier.Proofs.Parsing

namespace FlatFourier

namespace Instr

/-- The register that is set. -/
def target? : Instr → Option Nat
  | load target _ _ | binary target _ _ _ | unary target _ _ | copy target _ => some target
  | store _ _ _ => none

def operands : Instr → List Operand
  | load _ _ _ => []
  | binary _ _ left right => [left, right]
  | unary _ _ argument => [argument]
  | copy _ source | store _ _ source => [source]

/-- The cell that is read or written. -/
def cell? : Instr → Option (Buffer × Nat)
  | load _ buffer index | store buffer index _ => some (buffer, index)
  | _ => none

/-- The registers that instructions set, in order. -/
def targets (code : List Instr) : List Nat :=
  code.filterMap target?

theorem targets_snoc (code : List Instr) (x : Instr) :
    targets (code ++ [x]) = targets code ++ x.target?.toList := by
  rw [targets, List.filterMap_append, targets]
  cases h : x.target? <;> simp [h]

/-- An instruction that may stand behind the given ones: it sets the next register, if any, and
looks only at registers that they set. -/
structure Follows (before : List Instr) (x : Instr) : Prop where
  target : ∀ r, x.target? = some r → r = (targets before).length
  operands : ∀ r, .register r ∈ x.operands → r ∈ targets before

/-- Instructions each of which may stand behind those before it. -/
abbrev Wired : List Instr → Prop :=
  Successive fun before x => x.Follows before

/-- The registers are set in the order of their numbers. -/
theorem Wired.targets_eq {code : List Instr} (h : Wired code) :
    targets code = List.range (targets code).length := by
  induction h with
  | nil => rfl
  | @snoc code x h hx ih =>
    rw [targets_snoc]
    cases ht : x.target? with
    | none => simpa using ih
    | some r =>
      rw [hx.target r ht]
      simp [List.range_succ, ← ih]

end Instr

namespace Machine

open Instr

variable {m n : Machine} {x : Instr} {known : List Nat}

/-- Machines that differ at most in registers that are not known, and that have the known ones. -/
structure Agrees (known : List Nat) (m n : Machine) : Prop where
  data : n.data = m.data
  out : n.out = m.out
  size : n.registers.size = m.registers.size
  present : ∀ r ∈ known, r < m.registers.size
  registers : ∀ r ∈ known, n.registers[r]? = m.registers[r]?

/-- Machines with as many cells and registers. -/
structure SameShape (m n : Machine) : Prop where
  buffer : ∀ b, (n.buffer b).size = (m.buffer b).size
  registers : n.registers.size = m.registers.size

/-- An instruction whose operands have values stops at a cell that its buffer does not have. -/
theorem step_overrun {b : Buffer} {i : Nat} (hv : ∀ o ∈ x.operands, ∃ v, m.value o = .ok v)
    (hx : x.cell? = some (b, i)) (hi : (m.buffer b).size ≤ i) :
    m.step x = .error (.outOfBounds i (m.buffer b).size) := by
  have hnot := Nat.not_lt.mpr hi
  cases x with
  | load t b' i' =>
    cases hx
    have hload : m.load b i = .error (.outOfBounds i (m.buffer b).size) := by simp [load, hnot]
    rw [Machine.step, hload]
    rfl
  | store b' i' a =>
    cases hx
    obtain ⟨v, hv⟩ := hv a (by simp [Instr.operands])
    rw [Machine.step, hv]
    exact if_neg hnot
  | _ => cases hx

namespace Agrees

theorem buffer (h : m.Agrees known n) (b : Buffer) : n.buffer b = m.buffer b := by
  cases b with
  | data => exact h.data
  | out => exact h.out

theorem value (h : m.Agrees known n) {o : Operand} (ho : ∀ r, o = .register r → r ∈ known) :
    ∃ v, m.value o = .ok v ∧ n.value o = .ok v := by
  cases o with
  | immediate v => exact ⟨v, rfl, rfl⟩
  | register r =>
    have hr := h.present r (ho r rfl)
    refine ⟨m.registers[r], ?_, ?_⟩
    · simp [Machine.value, hr]
    · simp [Machine.value, h.registers r (ho r rfl), hr]

theorem setRegister (h : m.Agrees known n) {r : Nat} (hr : r < m.registers.size) (v : Float) :
    ∃ m' n', m.setRegister r v = .ok m' ∧ n.setRegister r v = .ok n' ∧
      m'.Agrees (known ++ [r]) n' ∧ m.SameShape m' := by
  refine ⟨_, _, if_pos hr, if_pos (h.size.symm ▸ hr), ⟨h.data, h.out, by simp [h.size], ?_, ?_⟩,
    ⟨fun b => by cases b <;> rfl, by simp⟩⟩
  · intro s hs
    simp only [List.mem_append, List.mem_singleton] at hs
    rcases hs with hs | rfl
    · simpa using h.present s hs
    · simpa using hr
  · intro s hs
    simp only [List.mem_append, List.mem_singleton] at hs
    by_cases he : r = s
    · subst he
      simp [hr, h.size]
    · have hs : s ∈ known := by
        rcases hs with hs | rfl
        · exact hs
        · exact absurd rfl he
      simp [he, h.registers s hs]

theorem store (h : m.Agrees known n) {b : Buffer} {i : Nat} (hi : i < (m.buffer b).size)
    (v : Float) : ∃ m' n', m.store b i v = .ok m' ∧ n.store b i v = .ok n' ∧
      m'.Agrees known n' ∧ m.SameShape m' := by
  have hi' : i < (n.buffer b).size := h.buffer b ▸ hi
  refine ⟨_, _, if_pos hi, if_pos hi', ?_, ?_⟩
  · rw [h.buffer b]
    cases b with
    | data => exact ⟨rfl, h.out, h.size, h.present, h.registers⟩
    | out => exact ⟨h.data, rfl, h.size, h.present, h.registers⟩
  · refine ⟨?_, by cases b <;> rfl⟩
    intro c
    cases b <;> cases c <;> simp [Machine.buffer, setBuffer]

theorem operands (h : m.Agrees known n) (ho : ∀ r, .register r ∈ x.operands → r ∈ known) :
    ∀ o ∈ x.operands, ∃ v, m.value o = .ok v ∧ n.value o = .ok v := by
  intro o hm
  apply h.value
  intro r hr
  exact ho r (hr ▸ hm)

/-- Both machines stop at a cell that their buffers do not have. -/
theorem overrun (h : m.Agrees known n) (ho : ∀ r, .register r ∈ x.operands → r ∈ known)
    {b : Buffer} {i : Nat} (hx : x.cell? = some (b, i)) (hi : (m.buffer b).size ≤ i) :
    m.step x = .error (.outOfBounds i (m.buffer b).size) ∧
      n.step x = .error (.outOfBounds i (m.buffer b).size) := by
  have hv := h.operands ho
  refine ⟨step_overrun (fun o hm => (hv o hm).imp fun _ => And.left) hx hi, ?_⟩
  rw [← h.buffer b] at hi ⊢
  exact step_overrun (fun o hm => (hv o hm).imp fun _ => And.right) hx hi

/-- An instruction that looks only at known registers and sets one that exists does the same to both
machines, and it only fails if its buffer does not have the cell. -/
theorem step (h : m.Agrees known n) (ho : ∀ r, .register r ∈ x.operands → r ∈ known)
    (ht : ∀ r, x.target? = some r → r < m.registers.size) :
    (∃ m' n', m.step x = .ok m' ∧ n.step x = .ok n' ∧
      m'.Agrees (known ++ x.target?.toList) n' ∧ m.SameShape m') ∨
    ∃ b i, x.cell? = some (b, i) ∧ (m.buffer b).size ≤ i ∧
      m.step x = .error (.outOfBounds i (m.buffer b).size) ∧
      n.step x = .error (.outOfBounds i (m.buffer b).size) := by
  have operand := h.operands ho
  cases x with
  | load t b i =>
    by_cases hi : i < (m.buffer b).size
    · have hload : m.load b i = .ok (m.buffer b)[i] := by simp [load, hi]
      have hload' : n.load b i = .ok (m.buffer b)[i] := by simp [load, h.buffer b, hi]
      obtain ⟨m', n', hm, hn, ha, hs⟩ := h.setRegister (ht t rfl) (m.buffer b)[i]
      refine .inl ⟨m', n', ?_, ?_, ha, hs⟩
      · rw [Machine.step, hload]
        exact hm
      · rw [Machine.step, hload']
        exact hn
    · have hle := Nat.not_lt.mp hi
      exact .inr ⟨b, i, rfl, hle, h.overrun ho rfl hle⟩
  | binary t op l r =>
    obtain ⟨v, hv, hv'⟩ := operand l (by simp [Instr.operands])
    obtain ⟨w, hw, hw'⟩ := operand r (by simp [Instr.operands])
    obtain ⟨m', n', hm, hn, ha, hs⟩ := h.setRegister (ht t rfl) (op.apply v w)
    refine .inl ⟨m', n', ?_, ?_, ha, hs⟩
    · rw [Machine.step, hv, hw]
      exact hm
    · rw [Machine.step, hv', hw']
      exact hn
  | unary t op a =>
    obtain ⟨v, hv, hv'⟩ := operand a (by simp [Instr.operands])
    obtain ⟨m', n', hm, hn, ha, hs⟩ := h.setRegister (ht t rfl) (op.apply v)
    refine .inl ⟨m', n', ?_, ?_, ha, hs⟩
    · rw [Machine.step, hv]
      exact hm
    · rw [Machine.step, hv']
      exact hn
  | copy t a =>
    obtain ⟨v, hv, hv'⟩ := operand a (by simp [Instr.operands])
    obtain ⟨m', n', hm, hn, ha, hs⟩ := h.setRegister (ht t rfl) v
    refine .inl ⟨m', n', ?_, ?_, ha, hs⟩
    · rw [Machine.step, hv]
      exact hm
    · rw [Machine.step, hv']
      exact hn
  | store b i a =>
    by_cases hi : i < (m.buffer b).size
    · obtain ⟨v, hv, hv'⟩ := operand a (by simp [Instr.operands])
      obtain ⟨m', n', hm, hn, ha, hs⟩ := h.store hi v
      refine .inl ⟨m', n', ?_, ?_, (List.append_nil known).symm ▸ ha, hs⟩
      · rw [Machine.step, hv]
        exact hm
      · rw [Machine.step, hv']
        exact hn
    · have hle := Nat.not_lt.mp hi
      exact .inr ⟨b, i, rfl, hle, h.overrun ho rfl hle⟩

end Agrees

theorem SameShape.trans (h : m.SameShape n) (h' : n.SameShape k) : m.SameShape k :=
  ⟨fun b => (h'.buffer b).trans (h.buffer b), h'.registers.trans h.registers⟩

/-- Wired code never looks at a register that it has not set: two machines of one shape with the
same buffers go the same way. It only stops at a cell that its buffer does not have. -/
theorem run_wired {code : List Instr} (h : Wired code) (ha : m.Agrees [] n)
    (hr : (targets code).length ≤ m.registers.size) :
    (∃ m' n', m.run code = .ok m' ∧ n.run code = .ok n' ∧ m'.Agrees (targets code) n' ∧
      m.SameShape m') ∨
    ∃ i length, m.run code = .error (.outOfBounds i length) ∧
      n.run code = .error (.outOfBounds i length) := by
  induction h with
  | nil => exact .inl ⟨m, n, rfl, rfl, ha, fun _ => rfl, rfl⟩
  | @snoc code x h hx ih =>
    rw [targets_snoc, List.length_append] at hr
    rw [run_append, run_append]
    rcases ih (by omega) with ⟨m₁, n₁, hm, hn, ha₁, hs⟩ | ⟨i, length, hm, hn⟩
    · have ht : ∀ r, x.target? = some r → r < m₁.registers.size := by
        intro r ht
        rw [ht, Option.toList_some, List.length_singleton] at hr
        rw [hs.registers, hx.target r ht]
        omega
      rw [hm, hn, targets_snoc]
      rcases ha₁.step hx.operands ht with ⟨m₂, n₂, hm₂, hn₂, ha₂, hs₂⟩ | ⟨b, i, _, _, hm₂, hn₂⟩
      · exact .inl ⟨m₂, n₂, (run_singleton m₁ x).trans hm₂, (run_singleton n₁ x).trans hn₂, ha₂,
          hs.trans hs₂⟩
      · exact .inr ⟨i, _, (run_singleton m₁ x).trans hm₂, (run_singleton n₁ x).trans hn₂⟩
    · rw [hm, hn]
      exact .inr ⟨i, length, rfl, rfl⟩

end Machine

namespace Program

namespace Body

variable {b b' : Body} {s : Text}

/-- An instruction over bound names and buffers that there are. -/
structure Accepts (b : Body) (x : Instr) : Prop where
  operands : ∀ r, .register r ∈ x.operands → ∃ key : String, b.names[key]? = some r
  out : ∀ i, x.cell? = some (.out, i) → b.out.isSome = true

/-- All that a statement can do. -/
inductive Step (b : Body) : Body → Prop where
  | assert (length : Nat) : Step b { b with inputLength := some length }
  | copy : Step b b
  | declare (name : Text) (length : Nat) : Step b { b with out := some (name, length) }
  | bind (key : String) (x : Instr) (fresh : key ∉ b.names)
      (target : x.target? = some b.names.size) (accepted : b.Accepts x) :
      Step b { b with names := b.names.insert key b.names.size, instrs := b.instrs.push x }
  | store (x : Instr) (target : x.target? = none) (accepted : b.Accepts x) :
      Step b { b with instrs := b.instrs.push x }
  | give (buffer : Buffer) (out : buffer = .out → b.out.isSome = true) :
      Step b { b with returns := some buffer }

theorem register_of_operand (h : b.operand s = .ok o) :
    ∀ r, o = .register r → ∃ key : String, b.names[key]? = some r := by
  intro r hr
  subst hr
  unfold operand at h
  split at h
  · rename_i k hk
    cases h
    exact ⟨_, hk⟩
  · split at h
    · cases h
    · cases h

theorem out_of_bufferNamed (h : b.bufferNamed s = .ok .out) : b.out.isSome = true := by
  unfold bufferNamed at h
  split at h
  · cases h
  · split at h
    · rename_i ho
      exact Option.isSome_of_any ho
    · cases h

theorem out_of_cell (h : b.cell s = .ok (.out, i)) : b.out.isSome = true := by
  unfold cell at h
  split at h
  · obtain ⟨buffer, hb, h⟩ := ok_of_bind h
    split at h
    · cases h
      exact out_of_bufferNamed hb
    · cases h
  · cases h

/-- The instruction of an expression computes into the given register. -/
theorem accepts_of_expression (h : b.expression target s = .ok x) :
    x.target? = some target ∧ b.Accepts x := by
  have single {t : Text} {o : Operand} (ho : b.operand t = .ok o) :
      ∀ r, .register r ∈ [o] → ∃ key : String, b.names[key]? = some r :=
    fun r hr => register_of_operand ho r (List.mem_singleton.mp hr).symm
  unfold expression at h
  split at h
  · obtain ⟨o, ho, h⟩ := ok_of_bind h
    cases h
    exact ⟨rfl, single ho, nofun⟩
  · split at h
    · obtain ⟨o, ho, h⟩ := ok_of_bind h
      cases h
      exact ⟨rfl, single ho, nofun⟩
    · split at h
      · obtain ⟨⟨buffer, i⟩, hc, h⟩ := ok_of_bind h
        cases h
        refine ⟨rfl, nofun, ?_⟩
        intro j hj
        cases hj
        exact out_of_cell hc
      · split at h
        · split at h
          · obtain ⟨l, hl, h⟩ := ok_of_bind h
            obtain ⟨r, hr, h⟩ := ok_of_bind h
            cases h
            refine ⟨rfl, ?_, nofun⟩
            intro k hk
            simp only [Instr.operands, List.mem_cons, List.not_mem_nil, or_false] at hk
            rcases hk with hk | hk
            · exact register_of_operand hl k hk.symm
            · exact register_of_operand hr k hk.symm
          · cases h
        · obtain ⟨o, ho, h⟩ := ok_of_bind h
          cases h
          exact ⟨rfl, single ho, nofun⟩
        · cases h

theorem step_of_bindName (h : b.bindName s = .ok b') : b.Step b' := by
  unfold bindName at h
  split at h
  · dsimp only at h
    split at h
    · cases h
    · rename_i hfresh
      obtain ⟨x, hx, h⟩ := ok_of_bind h
      cases h
      obtain ⟨ht, ha⟩ := accepts_of_expression hx
      exact .bind _ x hfresh ht ha
  · cases h

theorem step_of_declare (h : b.declare s = .ok b') : b.Step b' := by
  unfold declare at h
  split at h
  · split at h
    · cases h
      exact .copy
    · split at h
      · split at h
        · cases h
          exact .declare _ _
        · cases h
      · cases h
  · cases h

theorem step_of_assertLength (h : b.assertLength s = .ok b') : b.Step b' := by
  unfold assertLength at h
  split at h
  · split at h
    · cases h
      exact .assert _
    · cases h
  · cases h

theorem step_of_assign (h : b.assign target value = .ok b') : b.Step b' := by
  unfold assign at h
  obtain ⟨⟨buffer, i⟩, hc, h⟩ := ok_of_bind h
  obtain ⟨o, ho, h⟩ := ok_of_bind h
  cases h
  refine .store _ rfl ⟨?_, ?_⟩
  · intro r hr
    exact register_of_operand ho r (List.mem_singleton.mp hr).symm
  · intro j hj
    cases hj
    exact out_of_cell hc

theorem step_of_statement (h : b.statement s = .ok b') : b.Step b' := by
  unfold statement at h
  split at h
  · exact step_of_assertLength h
  · split at h
    · exact step_of_declare h
    · split at h
      · exact step_of_bindName h
      · split at h
        · cases h
          exact .give .data nofun
        · split at h
          · rename_i ho
            cases h
            exact .give .out fun _ => Option.isSome_of_any ho
          · split at h
            · exact step_of_assign h
            · cases h

/-- What holds of all that has been read of a body. -/
structure Safe (b : Body) : Prop where
  wired : Instr.Wired b.instrs.toList
  size : b.names.size = (Instr.targets b.instrs.toList).length
  registers : ∀ (key : String) r, b.names[key]? = some r → r < b.names.size
  cells : ∀ x ∈ b.instrs.toList, ∀ i, x.cell? = some (.out, i) → b.out.isSome = true
  returns : b.returns = some .out → b.out.isSome = true

theorem safe_ofParameter (name : Text) : (ofParameter name).Safe where
  wired := .nil
  size := Std.HashMap.size_empty
  registers key r h := by simp [ofParameter] at h
  cells := nofun
  returns := nofun

/-- Bound names are those of registers that have been set. -/
theorem Safe.mem_targets (h : b.Safe) (hr : r < b.names.size) :
    r ∈ Instr.targets b.instrs.toList := by
  rw [h.wired.targets_eq, List.mem_range, ← h.size]
  exact hr

theorem Safe.follows (h : b.Safe) (ht : ∀ r, x.target? = some r → r = b.names.size)
    (ha : b.Accepts x) : x.Follows b.instrs.toList := by
  refine ⟨fun r hr => (ht r hr).trans h.size, ?_⟩
  intro r hr
  obtain ⟨key, hk⟩ := ha.operands r hr
  exact h.mem_targets (h.registers key r hk)

theorem Safe.cells_push (h : b.Safe) (ha : b.Accepts x) :
    ∀ y ∈ (b.instrs.push x).toList, ∀ i, y.cell? = some (.out, i) → b.out.isSome = true := by
  intro y hy
  simp only [Array.toList_push, List.mem_append, List.mem_singleton] at hy
  rcases hy with hy | hy
  · exact h.cells y hy
  · exact hy ▸ ha.out

theorem Safe.step (h : b.Safe) (hs : b.Step b') : b'.Safe := by
  cases hs with
  | assert length => exact ⟨h.wired, h.size, h.registers, h.cells, h.returns⟩
  | copy => exact h
  | declare name length =>
    exact ⟨h.wired, h.size, h.registers, fun _ _ _ _ => rfl, fun _ => rfl⟩
  | bind key x fresh target accepted =>
    have hsize : (b.names.insert key b.names.size).size = b.names.size + 1 := by
      rw [Std.HashMap.size_insert, if_neg fresh]
    refine ⟨?_, ?_, ?_, h.cells_push accepted, h.returns⟩
    · rw [Array.toList_push]
      refine h.wired.snoc (h.follows ?_ accepted)
      intro r hr
      rw [target] at hr
      exact (Option.some.inj hr).symm
    · rw [hsize, Array.toList_push, Instr.targets_snoc, target, h.size]
      simp
    · intro k r hr
      simp only [Std.HashMap.getElem?_insert] at hr
      rw [hsize]
      split at hr
      · cases hr
        omega
      · have := h.registers k r hr
        omega
  | store x target accepted =>
    refine ⟨?_, ?_, h.registers, h.cells_push accepted, h.returns⟩
    · rw [Array.toList_push]
      refine h.wired.snoc (h.follows ?_ accepted)
      intro r hr
      rw [target] at hr
      cases hr
    · rw [Array.toList_push, Instr.targets_snoc, target, h.size]
      simp
  | give buffer out =>
    refine ⟨h.wired, h.size, h.registers, h.cells, ?_⟩
    intro hr
    exact out (Option.some.inj hr)

end Body

namespace Reader

/-- What has been read so far is safe. -/
def Safe : Reader → Prop
  | start => True
  | body b | closed b => b.Safe

variable {r r' : Reader}

theorem Safe.line (h : r.Safe) (hs : r.line s = .ok r') : r'.Safe := by
  unfold Reader.line at hs
  split at hs
  · cases hs
  · split at hs
    · obtain ⟨name, _, hs⟩ := ok_of_bind hs
      cases hs
      exact Body.safe_ofParameter name
    · cases hs
  · split at hs
    · obtain ⟨name, _, hs⟩ := ok_of_bind hs
      cases hs
    · split at hs
      · cases hs
        exact h
      · obtain ⟨b', hb, hs⟩ := ok_of_bind hs
        cases hs
        exact Body.Safe.step h (Body.step_of_statement hb)

theorem Safe.lines (h : r.Safe) {ls : List Text} (hs : r.lines count ls = .ok r') : r'.Safe := by
  induction ls generalizing r count with
  | nil =>
    cases hs
    exact h
  | cons raw rest ih =>
    unfold Reader.lines at hs
    split at hs
    · exact ih h hs
    · split at hs
      · rename_i hl
        exact ih (h.line hl) hs
      · cases hs

end Reader

/-- What holds of a program that is safe to run. -/
structure Safe (p : Program) : Prop where
  targets : Instr.targets p.instrs.toList = List.range p.registers
  operands : ∀ before x after, p.instrs.toList = before ++ x :: after →
    ∀ r, .register r ∈ x.operands → ∃ y ∈ before, y.target? = some r
  cells : ∀ x ∈ p.instrs.toList, ∀ i, x.cell? = some (.out, i) → p.outLength.isSome = true
  returns : p.returns = .out → p.outLength.isSome = true

theorem Body.Safe.program {b : Body} (h : b.Safe) (hp : b.program = .ok p) :
    p.Safe ∧ Instr.Wired p.instrs.toList := by
  unfold Body.program at hp
  split at hp
  · split at hp
    · rename_i hreturns
      cases hp
      refine ⟨⟨?_, ?_, ?_, ?_⟩, h.wired⟩
      · exact h.size ▸ h.wired.targets_eq
      · intro before x after he r hr
        exact List.mem_filterMap.mp ((Successive.at h.wired he).operands r hr)
      · intro x hx i hi
        simpa using h.cells x hx i hi
      · intro hout
        simpa using h.returns (hreturns.trans (congrArg some hout))
    · cases hp
  · cases hp

theorem wired_of_parse {source : Text} (h : parse source = .ok p) :
    p.Safe ∧ Instr.Wired p.instrs.toList := by
  unfold parse at h
  obtain ⟨r, hr, h⟩ := ok_of_bind h
  have hstart : Reader.start.Safe := trivial
  have hsafe := hstart.lines hr
  split at h
  · rename_i q hq
    cases h
    cases r with
    | closed b => exact Body.Safe.program hsafe hq
    | start => cases hq
    | body b => cases hq
  · cases h

/-- A call with anything in the registers at the start. -/
def callWith (p : Program) (registers : Array Float) (input : List Float) :
    Except Error (List Float) :=
  if input.length ≠ p.inputLength then .error (.lengthMismatch p.inputLength input.length)
  else
    match Machine.run { p.start input with registers } p.instrs.toList with
    | .ok m => .ok (m.buffer p.returns).toList
    | .error fault => .error (.execution fault)

/-- A program that is read from any text is safe. What is in its registers at the start does not
matter, and a call succeeds, or it is refused for the input's length, or it stops at a cell that its
buffer does not have. -/
theorem parse_safe {source : Text} {p : Program} (h : parse source = .ok p) :
    p.Safe ∧ ∀ input : List Float,
      (∀ registers : Array Float, registers.size = p.registers →
        p.callWith registers input = p.call input) ∧
      ((∃ out, p.call input = .ok out) ∨
        p.call input = .error (.lengthMismatch p.inputLength input.length) ∨
        ∃ index length, p.call input = .error (.execution (.outOfBounds index length))) := by
  obtain ⟨hsafe, hwired⟩ := wired_of_parse h
  have hcount : (Instr.targets p.instrs.toList).length = p.registers := by
    rw [hsafe.targets, List.length_range]
  refine ⟨hsafe, fun input => ?_⟩
  by_cases hlen : input.length = p.inputLength
  · have hsame : ¬input.length ≠ p.inputLength := fun hne => hne hlen
    have hrun (registers : Array Float) (hr : registers.size = p.registers) :=
      Machine.run_wired (m := p.start input) (n := { p.start input with registers }) hwired
        ⟨rfl, rfl, by simp [start, hr], nofun, nofun⟩ (by simp [start, hcount])
    refine ⟨?_, ?_⟩
    · intro registers hr
      rw [callWith, call, if_neg hsame, if_neg hsame]
      rcases hrun registers hr with ⟨m, n, hm, hn, ha, _⟩ | ⟨i, length, hm, hn⟩
      · rw [hm, hn]
        exact congrArg (fun cells => Except.ok (Array.toList cells)) (ha.buffer p.returns)
      · rw [hm, hn]
    · rcases hrun (.replicate p.registers 0) Array.size_replicate with
        ⟨m, _, hm, _⟩ | ⟨i, length, hm, _⟩
      · exact .inl ⟨_, call_of_run hlen hm⟩
      · refine .inr (.inr ⟨i, length, ?_⟩)
        rw [call, if_neg hsame, hm]
  · have hcall : p.call input = .error (.lengthMismatch p.inputLength input.length) := if_pos hlen
    exact ⟨fun registers _ => (if_pos hlen).trans hcall.symm, .inr (.inl hcall)⟩

open Listing Reader

/-- A name that looks like a number is bound to a cell and stored in the fourth cell of a result
buffer, which is then declared again with two cells. -/
def shadowing : List Text :=
  "pub fn f(v: &[f64]) -> Vec<f64> \x7b".toList ::
    ["assert_eq!(v.len(), 1);", "let mut w = vec![0.0_f64; 5];", "let 1.0 = v[0];", "w[3] = 1.0;",
      "let mut z = vec![0.0_f64; 2];", "z"].map (fun s => indent s.toList) ++ [['\x7d']]

namespace Body

/-- What has been read before the name is bound. -/
def unshadowed : Body :=
  { ofParameter ['v'] with out := some (['w'], 5), inputLength := some 1 }

def shadowed : Body :=
  unshadowed.extend (unshadowed.names.insert "1.0" 0) [.load 0 .data 0]

/-- What has been read when the result buffer is declared again. -/
def narrowed : Body :=
  { shadowed.extend shadowed.names [.store .out 3 (.register 0)] with out := some (['z'], 2) }

theorem size_shadowed : shadowed.names.size = 1 := by
  have hfresh : "1.0" ∉ unshadowed.names := Std.HashMap.not_mem_empty
  have hsize : unshadowed.names.size = 0 := Std.HashMap.size_empty
  change (unshadowed.names.insert "1.0" 0).size = 1
  rw [Std.HashMap.size_insert, if_neg hfresh, hsize]

theorem statement_unshadowed :
    unshadowed.statement "let 1.0 = v[0];".toList = .ok shadowed := by
  have hsides : assignment? "1.0 = v[0];".toList = some ("1.0".toList, "v[0]".toList) := rfl
  have hfresh : String.ofList "1.0".toList ∉ unshadowed.names := Std.HashMap.not_mem_empty
  have hsize : unshadowed.names.size = 0 := Std.HashMap.size_empty
  have he : unshadowed.expression 0 "v[0]".toList = .ok (.load 0 .data 0) := rfl
  change unshadowed.bindName "1.0 = v[0];".toList = _
  simp only [bindName, hsides, hfresh, if_false, hsize, he]
  rfl

/-- The bound name is meant, not the number. -/
theorem statement_shadowed : shadowed.statement "w[3] = 1.0;".toList =
    .ok (shadowed.extend shadowed.names [.store .out 3 (.register 0)]) := by
  have hname : shadowed.names[String.ofList "1.0".toList]? = some 0 :=
    Std.HashMap.getElem?_insert_self
  have hop : shadowed.operand "1.0".toList = .ok (.register 0) := by rw [operand, hname]
  change (do let source ← shadowed.operand "1.0".toList; _) = _
  rw [hop]
  rfl

end Body

theorem parse_shadowing : parse (shadowing.flatMap (· ++ ['\n'])) =
    .ok ⟨1, some 2, .out, 1, #[.load 0 .data 0, .store .out 3 (.register 0)]⟩ := by
  have hheader : Reads .start ["pub fn f(v: &[f64]) -> Vec<f64> \x7b".toList]
      (.body (.ofParameter ['v'])) := .line rfl rfl
  have hlength : Reads (.body (.ofParameter ['v'])) [indent "assert_eq!(v.len(), 1);".toList]
      (.body { Body.ofParameter ['v'] with inputLength := some 1 }) := .line rfl rfl
  have hbuffer : Reads (.body { Body.ofParameter ['v'] with inputLength := some 1 })
      [indent "let mut w = vec![0.0_f64; 5];".toList] (.body .unshadowed) := .line rfl rfl
  have hbind := Reads.sentence (by constructor <;> decide) Body.statement_unshadowed
  have hstore := Reads.sentence (by constructor <;> decide) Body.statement_shadowed
  have hagain : Reads (.body (Body.shadowed.extend Body.shadowed.names
      [.store .out 3 (.register 0)])) [indent "let mut z = vec![0.0_f64; 2];".toList]
      (.body .narrowed) := .line rfl rfl
  have hreturn : Reads (.body .narrowed) [indent "z".toList]
      (.body { Body.narrowed with returns := some .out }) := .line rfl rfl
  refine parse_of_reads (by decide) (hheader.trans (hlength.trans (hbuffer.trans (hbind.trans
    (hstore.trans (hagain.trans (hreturn.trans (reads_brace _)))))))) ?_
  change Except.ok _ = _
  simp only [Body.narrowed, Body.extend, Body.size_shadowed]
  rfl

theorem parse_safe_shadowing : ∃ p, parse (shadowing.flatMap (· ++ ['\n'])) = .ok p ∧ p.Safe ∧
    p.call [7] = .error (.execution (.outOfBounds 3 2)) ∧
    p.call [] = .error (.lengthMismatch 1 0) ∧
    ∀ register : Float, p.callWith #[register] [7] = p.call [7] := by
  obtain ⟨hsafe, hcalls⟩ := parse_safe parse_shadowing
  exact ⟨_, parse_shadowing, hsafe, rfl, rfl, fun register => (hcalls [7]).1 #[register] rfl⟩

end Program

end FlatFourier
