import Mathlib
import FlatFourier.Proofs.OperatorTable
import FlatFourier.Proofs.Radix

namespace FlatFourier

open Build

/-- Floating-point arithmetic as the rules carry it out, with true zeros among the cosines. -/
def Arithmetic.folded : Arithmetic Float where
  plus := (· + ·)
  minus := (· - ·)
  times := (· * ·)
  polar angle := ⟨if OddQuarters angle then 0 else angle.cos, angle.sin⟩

/-- The operation is one on constants, and this is its value. -/
inductive Graph.Folds (g : Graph) : Kind → Float → Prop where
  | binary (op : BinaryOp) (ha : g.HasKind a (.const x)) (hc : g.HasKind c (.const y)) :
      Folds g (.binary op a c) (op.apply x y)
  | unary (op : UnaryOp) (ha : g.HasKind a (.const x)) : Folds g (.unary op a) (op.fold x)

/-- Both nodes of the sample are constants, with the parts of the number as their values. -/
structure Sample.Constant (g : Graph) (x : Sample) (p : Point Float) : Prop where
  re : g.HasKind x.re (.const p.re)
  im : g.HasKind x.im (.const p.im)

namespace Build

variable {b : Builder} {kind : Kind}

theorem constant?_of_hasKind (h : b.graph.HasKind i (.const x)) :
    constant? i b = .ok (some x) b := by
  obtain ⟨n, hn, hk⟩ := h
  rw [constant?_run hn, hk]
  rfl

theorem foldConstants_folds (h : b.graph.Folds kind x) :
    Rule.foldConstants kind b = .ok (some (b.add (.const x)).1) (b.add (.const x)).2 := by
  cases h with
  | binary op ha hc =>
    refine (run_bind (constant?_of_hasKind ha)).trans ?_
    exact (run_bind (constant?_of_hasKind hc)).trans (run_bind (add_run _ b))
  | unary op ha => exact (run_bind (constant?_of_hasKind ha)).trans (run_bind (add_run _ b))

/-- Under the standard rules an operation on constants gets the node of its value. -/
theorem operation_folds (hr : b.rules = Rule.standard) (h : b.graph.Folds kind x) :
    operation kind b =
      .ok (b.add (.const x)).1 ((b.add (.const x)).2.countAnswer Rule.constantFold.name) := by
  have hanswer : Rule.constantFold.answer? (within (b.graph.size + 1)) kind b = _ :=
    foldConstants_folds h
  exact (run_bind (get_run b)).trans (within_answered (by rw [hr]; rfl) hanswer)

end Build

/-- The builder has grown by constants alone, and the nodes handed out are constants. -/
structure Builder.Evaluates (b : Builder) (handed : List (NodeId × Float)) (b' : Builder) :
    Prop where
  lifts : b.Lifts b'
  values : ∀ u ∈ handed, b'.graph.HasKind u.1 (.const u.2)

namespace Builder.Evaluates

variable {b b₁ : Builder} {handed : List (NodeId × Float)}

theorem start (h : Along (Sample.Constant b.graph) xs s) :
    b.Evaluates (Sample.handed xs s) b := by
  refine ⟨.refl, ?_⟩
  intro u hu
  obtain ⟨i, x, hx, rfl | rfl⟩ := Sample.mem_handed hu
  · exact (h i x hx).re
  · exact (h i x hx).im

theorem sample {x : Sample} (h : b.Evaluates handed b₁) (hx : x.Handed handed p) :
    x.Constant b₁.graph p :=
  ⟨h.values _ hx.re, h.values _ hx.im⟩

/-- One more constant is handed out. -/
theorem add (h : b.Evaluates handed b₁) (hc : b.graph.Consistent) (x : Float) :
    b.Evaluates (((b₁.add (.const x)).1, x) :: handed) (b₁.add (.const x)).2 := by
  refine ⟨.add h.lifts _ ⟨x, rfl⟩ nofun, ?_⟩
  simp only [List.forall_mem_cons]
  refine ⟨add_node (h.lifts.consistent hc) _, ?_⟩
  exact fun u hu => (h.values u hu).keeps (add_keeps b₁ _)

theorem operation (h : b.Evaluates handed b₁) (hc : b.graph.Consistent)
    (hr : b.rules = Rule.standard) (hf : b₁.graph.Folds kind x) :
    Yields (operation kind) b₁ fun k b₂ => b.Evaluates ((k, x) :: handed) b₂ := by
  have hnext := h.add hc x
  refine yields_of_run (operation_folds (h.lifts.rules_eq.trans hr) hf) ?_
  exact ⟨.count hnext.lifts _, hnext.values⟩

theorem carried (hc : b.graph.Consistent) (hr : b.rules = Rule.standard) :
    Arithmetic.folded.Carried fun _ => b.Evaluates where
  polar := by
    intro _ handed b₁ h angle
    have hlift : Yields (lift angle) b₁ fun θ b₂ => b.Evaluates ((θ, angle) :: handed) b₂ :=
      yields_of_run (add_run _ b₁) (h.add hc angle)
    refine hlift.bind ?_
    intro θ b₂ h₂
    refine (h₂.operation hc hr (.unary .cos (h₂.values _ (.head _)))).bind ?_
    intro re b₃ h₃
    have hcos : UnaryOp.cos.fold angle = if OddQuarters angle then 0 else angle.cos :=
      exactCos_eq angle
    rw [hcos] at h₃
    refine (h₃.operation hc hr (.unary .sin (h₃.values _ (.tail _ (.head _))))).bind ?_
    intro im b₄ h₄
    refine yields_pure ⟨h₄.lifts, ?_⟩
    have hall := h₄.values
    simp only [List.forall_mem_cons] at hall ⊢
    exact ⟨hall.2.1, hall.1, hall.2.2.2⟩
  operation := by
    intro op f _ handed b₁ i x j y hop h hi hj
    have hf : f x y = op.apply x y := by
      rcases Arithmetic.mem_operators hop with ⟨rfl, rfl⟩ | ⟨rfl, rfl⟩ | ⟨rfl, rfl⟩ <;> rfl
    rw [hf]
    exact h.operation hc hr (.binary op (h.values _ hi) (h.values _ hj))

end Builder.Evaluates

/-- With the standard rules, the transform of constants succeeds and adds only constants. Its
outputs are constants too, and their values are the transform of the values of the inputs. -/
theorem Fourier.transform_constants {b : Builder} (hb : b.Standard) {xs : List Sample}
    (hp : isPowerOfTwo xs.length = true) {s : Nat → Point Float}
    (hx : Along (Sample.Constant b.graph) xs s) :
    Yields (transform xs) b fun ys b' => b.graph.Keeps b'.graph ∧
      (∀ i kind, b.graph.size ≤ i → b'.graph.HasKind i kind → ∃ x, kind = .const x) ∧
      ys.length = xs.length ∧
      Along (Sample.Constant b'.graph) ys (Arithmetic.folded.transform xs.length s) := by
  have hcarried := Builder.Evaluates.carried hb.consistent hb.rules
  refine (hcarried.transform s hp (.start hx)).mono ?_
  intro ys b' hys
  obtain ⟨handed, h, hl, hs⟩ := hys
  refine ⟨h.lifts.keeps, ?_, hl, hs.mono fun x p hx => h.sample hx⟩
  exact fun i kind hi hk => h.lifts.const_of_new hi hk

/-- Three constants, beside a difference from a node that does not exist. -/
def looseConstants : Builder :=
  (Builder.withRules ⟨false, true⟩ Rule.standard).after
    ([.lift 0.5, .lift (-0.0), .lift 3, .make (.binary .minus 4 0)].map Event.call)

theorem list_looseConstants : looseConstants.graph.list = [⟨0, .const 0.5, none⟩,
    ⟨1, .const (-0.0), none⟩, ⟨2, .const 3, none⟩, ⟨3, .binary .minus 4 0, none⟩] := by
  decide

theorem Fourier.transform_constants_looseConstants :
    Yields (transform [⟨0, 1⟩, ⟨2, 2⟩, ⟨1, 0⟩, ⟨2, 1⟩]) looseConstants fun ys b' =>
      looseConstants.graph.Keeps b'.graph ∧
      (∀ i kind, 4 ≤ i → b'.graph.HasKind i kind → ∃ x, kind = .const x) ∧ ys.length = 4 ∧
      Along (Sample.Constant b'.graph) ys (Arithmetic.folded.transform 4
        ([⟨0.5, -0.0⟩, ⟨3, 3⟩, ⟨-0.0, 0.5⟩, ⟨3, -0.0⟩].getD · ⟨0, 0⟩)) := by
  have hnode : ∀ (i : Nat) n, looseConstants.graph.list[i]? = some n →
      looseConstants.graph.HasKind i n.kind :=
    fun i n hn => ⟨n, (Graph.node?_eq _ i).trans hn, rfl⟩
  rw [list_looseConstants] at hnode
  have hhalf := hnode 0 _ rfl
  have hzero := hnode 1 _ rfl
  have hthree := hnode 2 _ rfl
  have hx : Along (Sample.Constant looseConstants.graph) [⟨0, 1⟩, ⟨2, 2⟩, ⟨1, 0⟩, ⟨2, 1⟩]
      ([⟨0.5, -0.0⟩, ⟨3, 3⟩, ⟨-0.0, 0.5⟩, ⟨3, -0.0⟩].getD · ⟨0, 0⟩) :=
    .cons ⟨hhalf, hzero⟩ (.cons ⟨hthree, hthree⟩ (.cons ⟨hzero, hhalf⟩
      (.cons ⟨hthree, hzero⟩ nofun)))
  have hstandard : looseConstants.Standard := ⟨_, _, rfl⟩
  have hsize : looseConstants.graph.size = 4 := by decide
  have h := transform_constants hstandard (by decide) hx
  rwa [hsize] at h

end FlatFourier
