import FlatFourier.Proofs.Making

namespace FlatFourier

open Build Builder Text

/-- Floating-point arithmetic, with the sines and cosines of the angles as they are. -/
def Arithmetic.float : Arithmetic Float where
  plus := (· + ·)
  minus := (· - ·)
  times := (· * ·)
  polar angle := ⟨angle.cos, angle.sin⟩

/-- The points whose parts a list holds in turn. -/
def signal (input : List Float) (i : Nat) : Point Float :=
  ⟨input.getD (2 * i) 0, input.getD (2 * i + 1) 0⟩

namespace Kernel

variable {size : Nat}

/-- The values that the transform's trees have on an input. -/
def outputs (size : Nat) (rules : List Rule) (input : List Float) : List Float :=
  interleaved size fun k => ((Expr.arithmetic rules).transform size (cells 0) k).map
    (Expr.eval .float (Kind.input fun _ => input))

/-- Every kernel can be made and read, and returns the values of the transform's trees. -/
theorem specialize_means (hp : isPowerOfTwo size = true) (hlen : 2 * size < countBound)
    (r : Request) :
    ∃ k p, specialize size r = .ok k ∧ Program.parse k.source.toList = .ok p ∧
      p.inputLength = 2 * size ∧ ∀ input : List Float, input.length = 2 * size →
        p.call input = .ok (outputs size (Builder.new r.options).rules input) := by
  obtain ⟨k, hk, ⟨m⟩⟩ := exists_making hp hlen r
  have hinfo : m.delivered.arrays[0]? = some ⟨"data", 2 * size⟩ := by simp [m.arrays]
  obtain ⟨source, p, htext, hparse, hin, hcall⟩ :=
    (m.delivers.disciplined.planned m.plan.length).text_means hinfo
      (by decide : isIdentifier "data".toList = true) (by decide : "data" ≠ "out")
      m.faithful m.suits
  obtain rfl : source = k.source := Except.ok.inj (htext.symm.trans m.source_eq)
  refine ⟨k, p, hk, hparse, hin, ?_⟩
  intro input hi
  have hvalues : _ = outputs size _ input := m.delivers.delivered (fun _ => input) hi
  rw [← hvalues]
  exact hcall (fun _ => input) hi

/-- Sharing, pruning and the way of delivery do not matter: kernels that agree on simplification
return the same values. -/
theorem specialize_agrees (hp : isPowerOfTwo size = true) (hlen : 2 * size < countBound)
    (r r' : Request) (hs : r.simplify = r'.simplify) :
    ∃ k k' p p', specialize size r = .ok k ∧ specialize size r' = .ok k' ∧
      Program.parse k.source.toList = .ok p ∧ Program.parse k'.source.toList = .ok p' ∧
      ∀ input : List Float, input.length = 2 * size →
        ∃ out : List Float, out.length = 2 * size ∧
          p.call input = .ok out ∧ p'.call input = .ok out := by
  obtain ⟨k, p, hk, hparse, _, hcall⟩ := specialize_means hp hlen r
  obtain ⟨k', p', hk', hparse', _, hcall'⟩ := specialize_means hp hlen r'
  refine ⟨k, k', p, p', hk, hk', hparse, hparse', ?_⟩
  intro input hi
  have hrules : (Builder.new r.options).rules = (Builder.new r'.options).rules := by
    change (if r.simplify then _ else _) = if r'.simplify then _ else _
    rw [hs]
  exact ⟨_, length_interleaved _ _, hcall input hi, hrules ▸ hcall' input hi⟩

theorem specialize_agrees_eight :
    ∃ k k' p p', specialize 8 ⟨true, true, true, .inPlace⟩ = .ok k ∧
      specialize 8 ⟨false, true, false, .results⟩ = .ok k' ∧
      Program.parse k.source.toList = .ok p ∧ Program.parse k'.source.toList = .ok p' ∧
      ∀ input : List Float, input.length = 2 * 8 →
        ∃ out : List Float, out.length = 2 * 8 ∧
          p.call input = .ok out ∧ p'.call input = .ok out :=
  specialize_agrees (by decide) (by decide) _ _ rfl

/-- Without rules the trees have the values of the transform. -/
theorem outputs_nil (hp : isPowerOfTwo size = true) (input : List Float) :
    outputs size [] input = interleaved size (Arithmetic.float.transform size (signal input)) := by
  refine interleaved_congr ?_
  intro k hk
  rw [Fourier.length_of_isPowerOfTwo hp] at hk ⊢
  exact Expr.eval_transform size.log2 (fun d _ => by rw [Expr.simplify_nil]) hk

/-- Without simplification a kernel returns, bit for bit, the radix-2 transform of its input. -/
theorem specialize_transforms (hp : isPowerOfTwo size = true) (hlen : 2 * size < countBound)
    (r : Request) (hs : r.simplify = false) :
    ∃ k p, specialize size r = .ok k ∧ Program.parse k.source.toList = .ok p ∧
      ∀ input : List Float, input.length = 2 * size →
        p.call input = .ok (interleaved size (Arithmetic.float.transform size (signal input))) := by
  obtain ⟨k, p, hk, hparse, _, hcall⟩ := specialize_means hp hlen r
  refine ⟨k, p, hk, hparse, ?_⟩
  intro input hi
  have hrules : (Builder.new r.options).rules = [] := by
    change (if r.simplify then _ else _) = _
    rw [hs]
    rfl
  rw [hcall input hi, hrules, outputs_nil hp]

theorem specialize_transforms_eight :
    ∃ k p, specialize 8 ⟨true, false, true, .inPlace⟩ = .ok k ∧
      Program.parse k.source.toList = .ok p ∧ ∀ input : List Float, input.length = 2 * 8 →
        p.call input = .ok (interleaved 8 (Arithmetic.float.transform 8 (signal input))) :=
  specialize_transforms (by decide) (by decide) _ rfl

end Kernel

end FlatFourier
