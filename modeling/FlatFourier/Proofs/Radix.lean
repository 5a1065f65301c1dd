import FlatFourier.Proofs.Butterflies
import FlatFourier.Proofs.Simplify

namespace FlatFourier

/-- Trees under rules. -/
def Expr.arithmetic (rules : List Rule) : Arithmetic (Expr ι) where
  plus l r := simplify rules (.binary .plus l r)
  minus l r := simplify rules (.binary .minus l r)
  times l r := simplify rules (.binary .times l r)
  polar angle := ⟨simplify rules (.unary .cos (.const angle)),
    simplify rules (.unary .sin (.const angle))⟩

/-- The trees of a sample's parts. -/
structure Sample.Unfolds (label : Node → ι) (g : Graph) (x : Sample) (p : Point (Expr ι)) :
    Prop where
  re : FlatFourier.Unfolds label g x.re p.re
  im : FlatFourier.Unfolds label g x.im p.im

/-- The samples are the first points of a signal. -/
def Samples (label : Node → ι) (g : Graph) (xs : List Sample) (s : Nat → Point (Expr ι)) : Prop :=
  ∀ (i : Nat) x, xs[i]? = some x → x.Unfolds label g (s i)

/-- The tree of a request, before the rules have their say. -/
def Demand.tree : Demand (Expr ι) → Expr ι
  | unary op angle => .unary op (.const angle)
  | binary op x y => .binary op x y

variable {b b₁ : Builder} {label : Node → ι} {asked : List (Expr ι)} {p q : Point (Expr ι)}

theorem Sample.Unfolds.keeps {g g' : Graph} {x : Sample} (h : x.Unfolds label g p)
    (hk : g.Keeps g') : x.Unfolds label g' p :=
  ⟨h.re.keeps hk, h.im.keeps hk⟩

namespace Sample

open Build

theorem polar_yields (label : Node → ι) (hb : b.graph.Sound) (h : b.Performs asked b₁)
    (angle : Float) :
    Yields (polar angle) b₁ fun z b₂ =>
      b.Performs (asked ++ (Demand.polar angle).map Demand.tree) b₂ ∧ b₁.graph.Keeps b₂.graph ∧
      z.Unfolds label b₂.graph ((Expr.arithmetic b.rules).polar angle) := by
  refine (lift_yields label (h.grows.sound hb).toConsistent angle).bind ?_
  rintro t b₂ ⟨hc, ht, ut⟩
  have h₂ : b.Performs asked b₂ := by
    refine ⟨h.grows.trans hc, ?_⟩
    rw [ht]
    exact h.counted
  refine (operation_yields hb h₂ (.unary .cos ut)).bind ?_
  rintro re b₃ ⟨h₃, k₃, u₃⟩
  refine (operation_yields hb h₃ (.unary .sin (ut.keeps k₃))).bind ?_
  rintro im b₄ ⟨h₄, k₄, u₄⟩
  refine yields_pure ⟨?_, (hc.keeps.trans k₃).trans k₄, u₃.keeps k₄, u₄⟩
  simpa [Demand.polar, Demand.tree] using h₄

end Sample

/-- The demands have been met, and the nodes handed out stand for trees. -/
structure Builder.Meets (label : Node → ι) (b : Builder) (demands : List (Demand (Expr ι)))
    (handed : List (NodeId × Expr ι)) (b' : Builder) : Prop where
  performs : b.Performs (demands.map Demand.tree) b'
  unfolds : ∀ u ∈ handed, Unfolds label b'.graph u.1 u.2

namespace Builder.Meets

open Build

theorem sample {x : Sample} (h : Meets label b demands handed b') (hx : x.Handed handed p) :
    x.Unfolds label b'.graph p :=
  ⟨h.unfolds _ hx.re, h.unfolds _ hx.im⟩

theorem start (hx : Samples label b.graph xs s) : Meets label b [] (Sample.handed xs s) b := by
  refine ⟨.refl b, ?_⟩
  intro u hu
  obtain ⟨i, x, hi, rfl | rfl⟩ := Sample.mem_handed hu
  · exact (hx i x hi).re
  · exact (hx i x hi).im

theorem carried (label : Node → ι) (hb : b.graph.Sound) :
    (Expr.arithmetic b.rules).Carried (Meets label b) where
  polar := by
    intro demands handed b₁ h angle
    refine (Sample.polar_yields label hb h.performs angle).mono ?_
    intro z b₂ hpolar
    obtain ⟨h₂, k₂, hz⟩ := hpolar
    refine ⟨by rwa [List.map_append], ?_⟩
    simp only [List.forall_mem_cons]
    exact ⟨hz.re, hz.im, fun u hu => (h.unfolds u hu).keeps k₂⟩
  operation := by
    intro op f demands handed b₁ i x j y hop h hi hj
    have hf : f x y = Expr.simplify b.rules (.binary op x y) := by
      rcases Arithmetic.mem_operators hop with ⟨rfl, rfl⟩ | ⟨rfl, rfl⟩ | ⟨rfl, rfl⟩ <;> rfl
    have hs : Spells label b₁.graph (.binary op i j) (.binary op x y) :=
      .binary op (h.unfolds _ hi) (h.unfolds _ hj)
    refine (operation_yields hb h.performs hs).mono ?_
    intro k b₂ hoperation
    obtain ⟨h₂, k₂, hk⟩ := hoperation
    refine ⟨by simpa [Demand.tree] using h₂, ?_⟩
    simp only [List.forall_mem_cons, hf]
    exact ⟨hk, fun u hu => (h.unfolds u hu).keeps k₂⟩

/-- A step on two samples, once the parts of both have been handed out. -/
theorem pair_yields {step : Build Sample} {x y : Sample} (hx : x.Unfolds label b.graph p)
    (hy : y.Unfolds label b.graph q)
    (h : ∀ handed, Meets label b [] handed b → x.Handed handed p → y.Handed handed q →
      Yields step b fun z b' => ∃ handed', handed ⊆ handed' ∧ Meets label b demands handed' b' ∧
        z.Handed handed' r) :
    Yields step b fun z b' => b.Computes b' ∧ z.Unfolds label b'.graph r := by
  have hpair : Samples label b.graph [x, y] fun i => i.casesOn p fun _ => q :=
    Along.cons hx (Along.cons hy nofun)
  have hh := Sample.along_handed [x, y] fun i => i.casesOn p fun _ => q
  refine (h _ (start hpair) hh.head hh.tail.head).mono ?_
  intro z b' hpair
  obtain ⟨handed, _, hm, hz⟩ := hpair
  exact ⟨hm.performs.grows, hm.sample hz⟩

end Builder.Meets

namespace Sample

open Build Builder

variable {x y : Sample}

theorem add_yields (hb : b.graph.Sound) (hx : x.Unfolds label b.graph p)
    (hy : y.Unfolds label b.graph q) :
    Yields (x.add y) b fun z b' => b.Computes b' ∧
      z.Unfolds label b'.graph ((Expr.arithmetic b.rules).add p q) :=
  Meets.pair_yields hx hy fun _ h => (Meets.carried label hb).parts (.head _) h

theorem sub_yields (hb : b.graph.Sound) (hx : x.Unfolds label b.graph p)
    (hy : y.Unfolds label b.graph q) :
    Yields (x.sub y) b fun z b' => b.Computes b' ∧
      z.Unfolds label b'.graph ((Expr.arithmetic b.rules).sub p q) :=
  Meets.pair_yields hx hy fun _ h => (Meets.carried label hb).parts (.tail _ (.head _)) h

theorem mul_yields (hb : b.graph.Sound) (hx : x.Unfolds label b.graph p)
    (hy : y.Unfolds label b.graph q) :
    Yields (x.mul y) b fun z b' => b.Computes b' ∧
      z.Unfolds label b'.graph ((Expr.arithmetic b.rules).mul p q) :=
  Meets.pair_yields hx hy fun _ h => (Meets.carried label hb).mul h

end Sample

namespace Fourier

open Build

/-- The transform of samples whose number is a power of two succeeds. It asks for the operations
of the radix-2 scheme, and the trees of its outputs are the transform of the trees of its inputs. -/
theorem transform_yields (hb : b.graph.Sound) (hx : Samples label b.graph xs s)
    (hp : isPowerOfTwo xs.length = true) :
    Yields (transform xs) b fun ys b' =>
      b.Performs ((Demand.transform (Expr.arithmetic b.rules) xs.length s).map Demand.tree) b' ∧
      ys.length = xs.length ∧
      Samples label b'.graph ys ((Expr.arithmetic b.rules).transform xs.length s) := by
  refine ((Builder.Meets.carried label hb).transform s hp (.start hx)).mono ?_
  intro ys b' hys
  obtain ⟨handed, h, hl, hs⟩ := hys
  exact ⟨h.performs, hl, hs.mono fun x p hx => h.sample hx⟩

end Fourier

end FlatFourier
