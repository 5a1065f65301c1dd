import FlatFourier.Command.Basic
import FlatFourier.Proofs.KernelMeaning

namespace FlatFourier

theorem isPowerOfTwo_iff (n : Nat) : isPowerOfTwo n = true ↔ ∃ k, n = 2 ^ k := by
  constructor
  · intro h
    exact ⟨n.log2, Fourier.length_of_isPowerOfTwo h⟩
  · intro h
    obtain ⟨k, rfl⟩ := h
    simp [isPowerOfTwo, Nat.log2_two_pow]

namespace Kernel

variable {size : Nat}

/-- Sizes a kernel can have: the array of both parts is still counted in 64 bits. -/
def Fits (size : Nat) : Prop :=
  (∃ k, size = 2 ^ k) ∧ 2 * size < 2 ^ 64

theorem specialize_of_not_power (h : ¬∃ k, size = 2 ^ k) (r : Request) :
    specialize size r = .error (.notPowerOfTwo size) := by
  have hp : isPowerOfTwo size = false := by
    rw [Bool.eq_false_iff]
    exact mt (isPowerOfTwo_iff size).mp h
  simp [specialize, hp]

theorem specialize_of_large (hp : ∃ k, size = 2 ^ k) (hlen : 2 ^ 64 ≤ 2 * size) (r : Request) :
    specialize size r = .error (.tooLarge size) := by
  have hbound : Text.countBound ≤ 2 * size := hlen
  simp [specialize, (isPowerOfTwo_iff size).mpr hp, hbound]

/-- A kernel of a size that fits is made and read, and a call of it fails for the length of the
input only. -/
theorem specialize_of_fits (h : Fits size) (r : Request) :
    ∃ k p, specialize size r = .ok k ∧ Program.parse k.source.toList = .ok p ∧
      p.inputLength = 2 * size ∧ ∀ input : List Float,
        (input.length = 2 * size → ∃ out : List Float, out.length = 2 * size ∧
          p.call input = .ok out) ∧
        (input.length ≠ 2 * size →
          p.call input = .error (.lengthMismatch (2 * size) input.length)) := by
  obtain ⟨k, p, hk, hparse, hin, hcall⟩ :=
    specialize_means ((isPowerOfTwo_iff size).mpr h.1) h.2 r
  refine ⟨k, p, hk, hparse, hin, ?_⟩
  intro input
  constructor
  · intro hlen
    exact ⟨_, length_interleaved _ _, hcall input hlen⟩
  · intro hlen
    rw [Program.call, hin, if_pos hlen]

theorem specialize_cases (size : Nat) (r : Request) :
    ((¬∃ k, size = 2 ^ k) ∧ specialize size r = .error (.notPowerOfTwo size)) ∨
      ((∃ k, size = 2 ^ k) ∧ 2 ^ 64 ≤ 2 * size ∧ specialize size r = .error (.tooLarge size)) ∨
      (Fits size ∧ ∃ k, specialize size r = .ok k) := by
  by_cases hp : ∃ k, size = 2 ^ k
  · rcases Nat.lt_or_ge (2 * size) (2 ^ 64) with hlen | hlen
    · obtain ⟨k, _, hk, _⟩ := specialize_of_fits ⟨hp, hlen⟩ r
      exact .inr (.inr ⟨⟨hp, hlen⟩, k, hk⟩)
    · exact .inr (.inl ⟨hp, hlen, specialize_of_large hp hlen r⟩)
  · exact .inl ⟨hp, specialize_of_not_power hp r⟩

theorem specialize_eq_notPowerOfTwo_iff (size : Nat) (r : Request) :
    specialize size r = .error (.notPowerOfTwo size) ↔ ¬∃ k, size = 2 ^ k := by
  rcases specialize_cases size r with ⟨hp, h⟩ | ⟨hp, _, h⟩ | ⟨hf, k, h⟩
  · simp [h, hp]
  · simp [h, hp]
  · simp [h, hf.1]

theorem specialize_eq_tooLarge_iff (size : Nat) (r : Request) :
    specialize size r = .error (.tooLarge size) ↔
      (∃ k, size = 2 ^ k) ∧ 2 ^ 64 ≤ 2 * size := by
  rcases specialize_cases size r with ⟨hp, h⟩ | ⟨hp, hlen, h⟩ | ⟨hf, k, h⟩
  · simp [h, hp]
  · exact iff_of_true h ⟨hp, hlen⟩
  · rw [h]
    exact iff_of_false (by simp) (fun hl => Nat.not_le_of_lt hf.2 hl.2)

theorem fits_of_specialize {r : Request} {k : Kernel} (hk : specialize size r = .ok k) :
    Fits size := by
  rcases specialize_cases size r with ⟨_, h⟩ | ⟨_, _, h⟩ | ⟨hf, _⟩
  · rw [h] at hk
    contradiction
  · rw [h] at hk
    contradiction
  · exact hf

end Kernel

namespace Command

open Kernel

variable {c : Command} {k : Kernel}

/-- A kernel that was made has an output unless it is run on an input of another length. -/
theorem output_ok_iff (hk : specialize c.size c.request = .ok k) :
    (∃ text, c.output k = .ok text) ↔
      ∀ input, c.input = some input → input.length = 2 * c.size := by
  cases hinput : c.input with
  | none => cases hemit : c.emit <;> simp [output, hinput, hemit, pure, Except.pure]
  | some input =>
    obtain ⟨k', p, hk', hparse, _, hcall⟩ := specialize_of_fits (fits_of_specialize hk) c.request
    obtain rfl : k = k' := Except.ok.inj (hk.symm.trans hk')
    by_cases hlen : input.length = 2 * c.size
    · obtain ⟨out, _, hout⟩ := (hcall input).1 hlen
      simp [output, hinput, hparse, hout, hlen, bind, Except.bind, pure, Except.pure]
    · have hout := (hcall input).2 hlen
      simp [output, hinput, hparse, hout, hlen, bind, Except.bind]

theorem code_eq_zero_iff (c : Command) :
    c.run.code = 0 ↔ ∃ k, specialize c.size c.request = .ok k ∧ ∃ text, c.output k = .ok text := by
  cases hk : specialize c.size c.request with
  | error e => simp [run, hk]
  | ok k => cases htext : c.output k <;> simp [run, hk, htext]

theorem succeeds_iff (c : Command) :
    c.run.code = 0 ↔
      Fits c.size ∧ ∀ input, c.input = some input → input.length = 2 * c.size := by
  rw [code_eq_zero_iff]
  constructor
  · intro h
    obtain ⟨k, hk, htext⟩ := h
    exact ⟨fits_of_specialize hk, (output_ok_iff hk).mp htext⟩
  · intro h
    obtain ⟨k, _, hk, _⟩ := specialize_of_fits h.1 c.request
    exact ⟨k, hk, (output_ok_iff hk).mpr h.2⟩

theorem stdout_of_failure (c : Command) (h : c.run.code ≠ 0) : c.run.stdout = "" := by
  cases hk : specialize c.size c.request with
  | error e => simp [run, hk]
  | ok k =>
    cases htext : c.output k with
    | error e => simp [run, hk, htext]
    | ok text => exact absurd ((code_eq_zero_iff c).mpr ⟨k, hk, text, htext⟩) h

end Command

/-- Every size and request has one of three outcomes, whose kernels are read back and refuse only
inputs of another length. So a command fails for its size or for the length of its input, and then
prints nothing. -/
theorem pipeline_outcomes :
    (∀ (size : Nat) (r : Request),
      (Kernel.specialize size r = .error (.notPowerOfTwo size) ↔ ¬∃ k, size = 2 ^ k) ∧
      (Kernel.specialize size r = .error (.tooLarge size) ↔
        (∃ k, size = 2 ^ k) ∧ 2 ^ 64 ≤ 2 * size) ∧
      (Kernel.Fits size → ∃ k p, Kernel.specialize size r = .ok k ∧
        Program.parse k.source.toList = .ok p ∧ p.inputLength = 2 * size ∧
        ∀ input : List Float,
          (input.length = 2 * size → ∃ out : List Float, out.length = 2 * size ∧
            p.call input = .ok out) ∧
          (input.length ≠ 2 * size →
            p.call input = .error (.lengthMismatch (2 * size) input.length)))) ∧
    ∀ c : Command,
      (c.run.code ≠ 0 ↔ ¬Kernel.Fits c.size ∨
        ∃ input, c.input = some input ∧ input.length ≠ 2 * c.size) ∧
      (c.run.code ≠ 0 → c.run.stdout = "") := by
  constructor
  · intro size r
    exact ⟨Kernel.specialize_eq_notPowerOfTwo_iff size r, Kernel.specialize_eq_tooLarge_iff size r,
      fun h => Kernel.specialize_of_fits h r⟩
  · intro c
    refine ⟨?_, Command.stdout_of_failure c⟩
    rw [ne_eq, Command.succeeds_iff, not_and_or]
    simp only [not_forall, exists_prop, ne_eq]

end FlatFourier
