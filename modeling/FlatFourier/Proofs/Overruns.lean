import FlatFourier.Proofs.Safety

namespace FlatFourier

open Instr

/-- The instructions run to their end without changing the length of a buffer, or the given fault
stops them. -/
def Machine.Ends (m : Machine) (code : List Instr) : Option RunFault → Prop
  | none => ∃ m', m.run code = .ok m' ∧ m.SameShape m'
  | some fault => m.run code = .error fault

namespace Program

/-- How many cells a buffer has during a call. -/
def size (p : Program) : Buffer → Nat
  | .data => p.inputLength
  | .out => p.outLength.getD 0

/-- What stops an instruction that uses a cell which its buffer does not have. -/
def overrun? (p : Program) (x : Instr) : Option RunFault :=
  x.cell?.bind fun cell =>
    if cell.2 < p.size cell.1 then none else some (.outOfBounds cell.2 (p.size cell.1))

/-- A machine whose buffers are as long as the program says. -/
def Fits (p : Program) (m : Machine) : Prop :=
  ∀ b, (m.buffer b).size = p.size b

variable {p : Program} {m m' : Machine} {x : Instr}

theorem Fits.sameShape (h : p.Fits m) (hs : m.SameShape m') : p.Fits m' :=
  fun b => (hs.buffer b).trans (h b)

/-- An instruction over registers that exist is stopped exactly if it overruns its buffer. -/
theorem Fits.step (h : p.Fits m) (ho : ∀ r, .register r ∈ x.operands → r < m.registers.size)
    (ht : ∀ r, x.target? = some r → r < m.registers.size) : m.Ends [x] (p.overrun? x) := by
  have ha : m.Agrees (List.range m.registers.size) m :=
    ⟨rfl, rfl, rfl, fun r hr => List.mem_range.mp hr, fun _ _ => rfl⟩
  have hknown : ∀ r, .register r ∈ x.operands → r ∈ List.range m.registers.size :=
    fun r hr => List.mem_range.mpr (ho r hr)
  have hok : (∀ b i, x.cell? = some (b, i) → i < p.size b) → m.Ends [x] none := by
    intro hcell
    rcases ha.step hknown ht with ⟨m', _, hm, _, _, hs⟩ | ⟨b, i, hx, hle, _⟩
    · exact ⟨m', (Machine.run_singleton m x).trans hm, hs⟩
    · exact absurd (h b ▸ hcell b i hx) (Nat.not_lt.mpr hle)
  cases hx : x.cell? with
  | none =>
    rw [overrun?, hx]
    exact hok (by simp [hx])
  | some cell =>
    obtain ⟨b, i⟩ := cell
    rw [overrun?, hx, Option.bind_some]
    by_cases hi : i < p.size b
    · rw [if_pos hi]
      exact hok (by simpa [hx] using hi)
    · rw [if_neg hi, ← h b]
      have hstop := (ha.overrun hknown hx (h b ▸ Nat.not_lt.mp hi)).1
      exact (Machine.run_singleton m x).trans hstop

/-- Wired code is stopped by the first instruction that overruns its buffer, or not at all. -/
theorem Fits.run {code : List Instr} (h : p.Fits m) (hw : Wired code)
    (hr : (targets code).length ≤ m.registers.size) :
    m.Ends code (code.findSome? p.overrun?) := by
  induction hw with
  | nil => exact ⟨m, rfl, fun _ => rfl, rfl⟩
  | @snoc code x hw hx ih =>
    rw [targets_snoc, List.length_append] at hr
    have ih := ih (by omega)
    rw [List.findSome?_append]
    cases hfirst : code.findSome? p.overrun? with
    | some fault =>
      rw [hfirst] at ih
      have hrun : m.run code = .error fault := ih
      rw [Option.some_or, Machine.Ends, Machine.run_append, hrun]
      rfl
    | none =>
      rw [hfirst] at ih
      obtain ⟨m₁, hm, hs⟩ := ih
      have hset : ∀ r ∈ targets code, r < m₁.registers.size := by
        intro r hmem
        rw [Wired.targets_eq hw, List.mem_range] at hmem
        rw [hs.registers]
        omega
      have hnext : ∀ r, x.target? = some r → r < m₁.registers.size := by
        intro r ht
        rw [ht, Option.toList_some, List.length_singleton] at hr
        rw [hs.registers, hx.target r ht]
        omega
      have hstep := (h.sameShape hs).step (fun r hmem => hset r (hx.operands r hmem)) hnext
      have hrun : m.run (code ++ [x]) = m₁.run [x] := by
        rw [Machine.run_append, hm]
        rfl
      rw [Option.none_or, List.findSome?_singleton]
      cases hover : p.overrun? x with
      | none =>
        rw [hover] at hstep
        obtain ⟨m₂, hm₂, hs₂⟩ := hstep
        exact ⟨m₂, hrun.trans hm₂, hs.trans hs₂⟩
      | some fault =>
        rw [hover] at hstep
        exact hrun.trans hstep

section Parsed

variable {source : Text} {input : List Float}

end Parsed

section Invoke

variable {input : List Float}

end Invoke

end Program

end FlatFourier
