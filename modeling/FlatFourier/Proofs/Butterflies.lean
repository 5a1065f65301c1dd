import FlatFourier.Fourier
import FlatFourier.Proofs.Yields

namespace FlatFourier

open Build

/-- The angle of a twiddle factor, with its digits. -/
theorem Fourier.angle_eq (k n : Nat) :
    angle k n = -2 * 3.141592653589793 * Float.ofNat k / Float.ofNat n := by
  have hpi : pi = 3.141592653589793 := rfl
  rw [angle, hpi]

/-- A complex number by its parts. -/
structure Point (α : Type u) where
  re : α
  im : α
deriving DecidableEq, Repr

/-- What a transform needs to know about numbers. -/
structure Arithmetic (α : Type u) where
  plus : α → α → α
  minus : α → α → α
  times : α → α → α
  /-- The number of modulus one at an angle. -/
  polar : Float → Point α

namespace Arithmetic

variable {α : Type u} (A : Arithmetic α)

def add (x y : Point α) : Point α :=
  ⟨A.plus x.re y.re, A.plus x.im y.im⟩

def sub (x y : Point α) : Point α :=
  ⟨A.minus x.re y.re, A.minus x.im y.im⟩

def mul (x y : Point α) : Point α :=
  ⟨A.minus (A.times x.re y.re) (A.times x.im y.im),
    A.plus (A.times x.re y.im) (A.times x.im y.re)⟩

/-- Point `k` of the transform of the first `n` points of a signal. One point is its own transform.
Otherwise the transforms of the points at even and at odd places are combined: with `z` the point of
the second turned by `-2 * π * k / n`, points `k` and `k + n / 2` are the sum and the difference of
the first and `z`. -/
def transform (n : Nat) (x : Nat → Point α) (k : Nat) : Point α :=
  if n ≤ 1 then x k
  else
    let even := transform (n / 2) fun i => x (2 * i)
    let odd := transform (n / 2) fun i => x (2 * i + 1)
    let z k := A.mul (A.polar (-2 * 3.141592653589793 * Float.ofNat k / Float.ofNat n)) (odd k)
    if k < n / 2 then A.add (even k) (z k)
    else A.sub (even (k - n / 2)) (z (k - n / 2))
termination_by n

theorem transform_one (x : Nat → Point α) (k : Nat) : A.transform 1 x k = x k := by
  rw [transform]
  rfl

/-- Point `k` of the first half. -/
theorem transform_upper (x : Nat → Point α) (hk : k < h) :
    A.transform (2 * h) x k = A.add (A.transform h (fun i => x (2 * i)) k)
      (A.mul (A.polar (Fourier.angle k (2 * h))) (A.transform h (fun i => x (2 * i + 1)) k)) := by
  rw [transform, if_neg (by omega), show 2 * h / 2 = h by omega]
  simp only [hk, if_true, Fourier.angle_eq]

/-- Point `k` of the second half. -/
theorem transform_lower (x : Nat → Point α) (hk : k < h) :
    A.transform (2 * h) x (h + k) = A.sub (A.transform h (fun i => x (2 * i)) k)
      (A.mul (A.polar (Fourier.angle k (2 * h))) (A.transform h (fun i => x (2 * i + 1)) k)) := by
  rw [transform, if_neg (by omega), show 2 * h / 2 = h by omega]
  simp only [show ¬h + k < h by omega, if_false, Nat.add_sub_cancel_left, Fourier.angle_eq]

end Arithmetic

/-- What a transform asks for: the cosine or the sine of an angle, or an operation on values that it
has been given before. -/
inductive Demand (α : Type u) where
  | unary (op : UnaryOp) (angle : Float)
  | binary (op : BinaryOp) (x y : α)

namespace Demand

variable {α : Type u} (A : Arithmetic α)

def polar (angle : Float) : List (Demand α) :=
  [.unary .cos angle, .unary .sin angle]

/-- One operation on the parts of two numbers. -/
def parts (op : BinaryOp) (x y : Point α) : List (Demand α) :=
  [.binary op x.re y.re, .binary op x.im y.im]

def mul (x y : Point α) : List (Demand α) :=
  [.binary .times x.re y.re, .binary .times x.im y.im,
    .binary .times x.re y.im, .binary .times x.im y.re,
    .binary .minus (A.times x.re y.re) (A.times x.im y.im),
    .binary .plus (A.times x.re y.im) (A.times x.im y.re)]

def butterfly (n k : Nat) (x y : Point α) : List (Demand α) :=
  let twiddle := A.polar (Fourier.angle k n)
  let z := A.mul twiddle y
  polar (Fourier.angle k n) ++ mul A twiddle y ++ parts .plus x z ++ parts .minus x z

/-- All that a transform asks for, in order. -/
def transform (n : Nat) (s : Nat → Point α) : List (Demand α) :=
  if n ≤ 1 then []
  else
    let even i := s (2 * i)
    let odd i := s (2 * i + 1)
    transform (n / 2) even ++ transform (n / 2) odd ++
      (List.range (n / 2)).flatMap fun k =>
        butterfly A n k (A.transform (n / 2) even k) (A.transform (n / 2) odd k)
termination_by n

theorem transform_one (s : Nat → Point α) : transform A 1 s = [] := by
  rw [transform]
  rfl

theorem transform_double (s : Nat → Point α) (hh : 0 < h) :
    transform A (2 * h) s =
      transform A h (fun i => s (2 * i)) ++ transform A h (fun i => s (2 * i + 1)) ++
      (List.range h).flatMap fun k => butterfly A (2 * h) k
        (A.transform h (fun i => s (2 * i)) k) (A.transform h (fun i => s (2 * i + 1)) k) := by
  rw [transform, if_neg (by omega), show 2 * h / 2 = h by omega]

end Demand

theorem getElem?_evens (xs : List α) (i : Nat) : (evens xs)[i]? = xs[2 * i]? := by
  induction xs using evens.induct generalizing i with
  | case1 => rfl
  | case2 a => cases i <;> simp [evens, Nat.mul_add]
  | case3 a b rest ih =>
    cases i with
    | zero => rfl
    | succ i => simpa [evens, Nat.mul_add] using ih i

theorem getElem?_odds (xs : List α) (i : Nat) : (odds xs)[i]? = xs[2 * i + 1]? := by
  induction xs using odds.induct generalizing i with
  | case1 a b rest ih =>
    cases i with
    | zero => rfl
    | succ i => simpa [odds, Nat.mul_add] using ih i
  | case2 xs h =>
    match xs with
    | [] => rfl
    | [a] => simp [odds]
    | a :: b :: rest => exact absurd rfl (h a b rest)

theorem length_evens (xs : List α) : (evens xs).length = (xs.length + 1) / 2 := by
  induction xs using evens.induct with
  | case1 => simp [evens]
  | case2 a => simp [evens]
  | case3 a b rest ih => simp only [evens, List.length_cons, ih]; omega

theorem length_odds (xs : List α) : (odds xs).length = xs.length / 2 := by
  induction xs using odds.induct with
  | case1 a b rest ih => simp only [odds, List.length_cons, ih]; omega
  | case2 xs h =>
    match xs with
    | [] => simp [odds]
    | [a] => simp [odds]
    | a :: b :: rest => exact absurd rfl (h a b rest)

/-- Each element fits the value of a signal at its place. -/
def Along (fits : γ → β → Prop) (xs : List γ) (s : Nat → β) : Prop :=
  ∀ (i : Nat) x, xs[i]? = some x → fits x (s i)

namespace Along

variable {fits fits' : γ → β → Prop} {s : Nat → β}

theorem mono (h : Along fits xs s) (hf : ∀ x y, fits x y → fits' x y) : Along fits' xs s :=
  fun i x hx => hf x _ (h i x hx)

theorem evens (h : Along fits xs s) : Along fits (evens xs) fun i => s (2 * i) :=
  fun i x hx => h _ x (getElem?_evens xs i ▸ hx)

theorem odds (h : Along fits xs s) : Along fits (odds xs) fun i => s (2 * i + 1) :=
  fun i x hx => h _ x (getElem?_odds xs i ▸ hx)

theorem head (h : Along fits (x :: xs) s) : fits x (s 0) :=
  h 0 x rfl

theorem tail (h : Along fits (x :: xs) s) : Along fits xs fun i => s (i + 1) :=
  fun i y hy => h (i + 1) y hy

theorem cons (hx : fits x (s 0)) (h : Along fits xs fun i => s (i + 1)) :
    Along fits (x :: xs) s := by
  intro i y hy
  cases i with
  | zero => cases hy; exact hx
  | succ i => exact h i y hy

theorem append (h : Along fits xs s) (h' : Along fits ys fun i => s (xs.length + i)) :
    Along fits (xs ++ ys) s := by
  intro i x hx
  rcases Nat.lt_or_ge i xs.length with hi | hi
  · exact h i x (List.getElem?_append_left hi ▸ hx)
  · rw [List.getElem?_append_right hi] at hx
    have hs : s (xs.length + (i - xs.length)) = s i := by rw [Nat.add_sub_cancel' hi]
    exact hs ▸ h' (i - xs.length) x hx

/-- A signal that takes the same values is as good. -/
theorem congr (h : Along fits xs s) (he : ∀ i, i < xs.length → s i = s' i) :
    Along fits xs s' := by
  intro i x hx
  obtain ⟨hi, _⟩ := List.getElem?_eq_some_iff.mp hx
  exact he i hi ▸ h i x hx

end Along

theorem Fourier.length_of_isPowerOfTwo (h : isPowerOfTwo n = true) : n = Nat.pow 2 n.log2 := by
  simp only [isPowerOfTwo, Bool.and_eq_true, decide_eq_true_eq] at h
  exact h.2.symm

/-- The nodes of the sample have been handed out for the parts of the number. -/
structure Sample.Handed (handed : List (NodeId × α)) (x : Sample) (p : Point α) : Prop where
  re : (x.re, p.re) ∈ handed
  im : (x.im, p.im) ∈ handed

theorem Sample.Handed.mono {x : Sample} (h : x.Handed handed p) (hs : handed ⊆ handed') :
    x.Handed handed' p :=
  ⟨hs h.re, hs h.im⟩

/-- The nodes of samples, each with its part of a signal's value. -/
def Sample.handed : List Sample → (Nat → Point α) → List (NodeId × α)
  | [], _ => []
  | x :: xs, s => (x.re, (s 0).re) :: (x.im, (s 0).im) :: handed xs fun i => s (i + 1)

theorem Sample.along_handed (xs : List Sample) (s : Nat → Point α) :
    Along (Sample.Handed (Sample.handed xs s)) xs s := by
  induction xs generalizing s with
  | nil => exact nofun
  | cons x xs ih =>
    refine .cons ⟨by simp [handed], by simp [handed]⟩ ((ih _).mono fun y q h => h.mono ?_)
    exact fun p hp => List.mem_cons_of_mem _ (List.mem_cons_of_mem _ hp)

theorem Sample.mem_handed {xs : List Sample} {s : Nat → Point α} (h : p ∈ Sample.handed xs s) :
    ∃ (i : Nat) (x : Sample), xs[i]? = some x ∧ (p = (x.re, (s i).re) ∨ p = (x.im, (s i).im)) := by
  induction xs generalizing s with
  | nil => cases h
  | cons x xs ih =>
    simp only [handed, List.mem_cons] at h
    rcases h with h | h | h
    · exact ⟨0, x, rfl, .inl h⟩
    · exact ⟨0, x, rfl, .inr h⟩
    · obtain ⟨i, y, hy, hp⟩ := ih h
      exact ⟨i + 1, y, hy, hp⟩

theorem Sample.map_fst_handed (xs : List Sample) (s : Nat → Point α) :
    (Sample.handed xs s).map Prod.fst = xs.flatMap Sample.nodes := by
  induction xs generalizing s with
  | nil => rfl
  | cons x xs ih =>
    rw [handed, List.map_cons, List.map_cons, ih]
    rfl

/-- The operators of a transform with what they do to values. -/
def Arithmetic.operators (A : Arithmetic α) : List (BinaryOp × (α → α → α)) :=
  [(.plus, A.plus), (.minus, A.minus), (.times, A.times)]

theorem Arithmetic.mem_operators {A : Arithmetic α} (h : (op, f) ∈ A.operators) :
    op = .plus ∧ f = A.plus ∨ op = .minus ∧ f = A.minus ∨ op = .times ∧ f = A.times := by
  simpa [operators] using h

/-- Numbers of which nothing is known. -/
def Arithmetic.unknown : Arithmetic Unit :=
  ⟨fun _ _ => (), fun _ _ => (), fun _ _ => (), fun _ => ⟨(), ()⟩⟩

/-- Each request of a transform succeeds and carries on a property of what has been asked for, of
the nodes handed out with the values that they stand for, and of the builder. -/
structure Arithmetic.Carried (A : Arithmetic α)
    (inv : List (Demand α) → List (NodeId × α) → Builder → Prop) : Prop where
  polar : inv asked handed b → ∀ angle, Yields (Sample.polar angle) b fun z b' =>
    inv (asked ++ Demand.polar angle)
      ((z.re, (A.polar angle).re) :: (z.im, (A.polar angle).im) :: handed) b'
  operation : (op, f) ∈ A.operators → inv asked handed b → (i, x) ∈ handed → (j, y) ∈ handed →
    Yields (operation (.binary op i j)) b fun k b' =>
      inv (asked ++ [.binary op x y]) ((k, f x y) :: handed) b'

namespace Arithmetic.Carried

variable {A : Arithmetic α} {inv : List (Demand α) → List (NodeId × α) → Builder → Prop}
  {asked : List (Demand α)} {handed : List (NodeId × α)} {b : Builder}

/-- An operation on the parts of two samples. -/
theorem parts (hc : A.Carried inv) {x y : Sample} (hop : (op, f) ∈ A.operators)
    (h : inv asked handed b) (hx : x.Handed handed p) (hy : y.Handed handed q) :
    Yields (do
      let re ← Build.operation (.binary op x.re y.re)
      let im ← Build.operation (.binary op x.im y.im)
      return (⟨re, im⟩ : Sample)) b fun z b' => ∃ handed', handed ⊆ handed' ∧
      inv (asked ++ Demand.parts op p q) handed' b' ∧
      z.Handed handed' ⟨f p.re q.re, f p.im q.im⟩ := by
  refine (hc.operation hop h hx.re hy.re).bind ?_
  intro re b₂ h₂
  refine (hc.operation hop h₂ (.tail _ hx.im) (.tail _ hy.im)).bind ?_
  intro im b₃ h₃
  simp only [List.append_assoc, List.cons_append, List.nil_append] at h₃
  exact yields_pure ⟨_, fun p hp => .tail _ (.tail _ hp), h₃, .tail _ (.head _), .head _⟩

theorem mul (hc : A.Carried inv) {x y : Sample} (h : inv asked handed b)
    (hx : x.Handed handed p) (hy : y.Handed handed q) :
    Yields (x.mul y) b fun z b' => ∃ handed', handed ⊆ handed' ∧
      inv (asked ++ Demand.mul A p q) handed' b' ∧ z.Handed handed' (A.mul p q) := by
  have hplus : (.plus, A.plus) ∈ A.operators := .head _
  have hminus : (.minus, A.minus) ∈ A.operators := .tail _ (.head _)
  have htimes : (.times, A.times) ∈ A.operators := .tail _ (.tail _ (.head _))
  refine (hc.operation htimes h hx.re hy.re).bind ?_
  intro reRe b₂ h₂
  refine (hc.operation htimes h₂ (.tail _ hx.im) (.tail _ hy.im)).bind ?_
  intro imIm b₃ h₃
  refine (hc.operation htimes h₃ (.tail _ (.tail _ hx.re)) (.tail _ (.tail _ hy.im))).bind ?_
  intro reIm b₄ h₄
  refine (hc.operation htimes h₄ (.tail _ (.tail _ (.tail _ hx.im)))
    (.tail _ (.tail _ (.tail _ hy.re)))).bind ?_
  intro imRe b₅ h₅
  refine (hc.operation hminus h₅ (.tail _ (.tail _ (.tail _ (.head _))))
    (.tail _ (.tail _ (.head _)))).bind ?_
  intro re b₆ h₆
  refine (hc.operation hplus h₆ (.tail _ (.tail _ (.head _))) (.tail _ (.head _))).bind ?_
  intro im b₇ h₇
  simp only [List.append_assoc, List.cons_append, List.nil_append] at h₇
  refine yields_pure ⟨_, ?_, h₇, .tail _ (.head _), .head _⟩
  exact fun p hp => .tail _ (.tail _ (.tail _ (.tail _ (.tail _ (.tail _ hp)))))

theorem butterfly (hc : A.Carried inv) {x y : Sample} (h : inv asked handed b)
    (hx : x.Handed handed p) (hy : y.Handed handed q) (n k : Nat) :
    Yields (Fourier.butterfly n k x y) b fun z b' => ∃ handed', handed ⊆ handed' ∧
      inv (asked ++ Demand.butterfly A n k p q) handed' b' ∧
      z.1.Handed handed' (A.add p (A.mul (A.polar (Fourier.angle k n)) q)) ∧
      z.2.Handed handed' (A.sub p (A.mul (A.polar (Fourier.angle k n)) q)) := by
  refine (hc.polar h (Fourier.angle k n)).bind ?_
  intro w b₂ h₂
  have s₂ : ∀ u v : NodeId × α, handed ⊆ u :: v :: handed := fun _ _ _ hp => .tail _ (.tail _ hp)
  refine (hc.mul h₂ ⟨.head _, .tail _ (.head _)⟩ (hy.mono (s₂ _ _))).bind ?_
  intro z b₃ hmul
  obtain ⟨handed₃, s₃, h₃, hz⟩ := hmul
  refine (hc.parts (.head _) h₃ (hx.mono fun p hp => s₃ (s₂ _ _ hp)) hz).bind ?_
  intro upper b₄ hadd
  obtain ⟨handed₄, s₄, h₄, hu⟩ := hadd
  refine (hc.parts (.tail _ (.head _)) h₄ (hx.mono fun p hp => s₄ (s₃ (s₂ _ _ hp)))
    (hz.mono s₄)).bind ?_
  intro lower b₅ hsub
  obtain ⟨handed₅, s₅, h₅, hl⟩ := hsub
  refine yields_pure ⟨handed₅, ?_, ?_, hu.mono s₅, hl⟩
  · exact fun p hp => s₅ (s₄ (s₃ (s₂ _ _ hp)))
  · simpa [Demand.butterfly] using h₅

/-- The butterflies from the `k`-th on. -/
theorem stage (hc : A.Carried inv) (h : inv asked handed b)
    (hx : Along (Sample.Handed handed) xs s) (hy : Along (Sample.Handed handed) ys t)
    (hl : xs.length = ys.length) (n k : Nat) :
    Yields (Fourier.stage n k xs ys) b fun z b' => ∃ handed', handed ⊆ handed' ∧
      inv (asked ++ (List.range xs.length).flatMap fun i =>
        Demand.butterfly A n (k + i) (s i) (t i)) handed' b' ∧
      z.1.length = xs.length ∧ z.2.length = xs.length ∧
      Along (Sample.Handed handed') z.1
        (fun i => A.add (s i) (A.mul (A.polar (Fourier.angle (k + i) n)) (t i))) ∧
      Along (Sample.Handed handed') z.2
        (fun i => A.sub (s i) (A.mul (A.polar (Fourier.angle (k + i) n)) (t i))) := by
  induction xs generalizing ys k b asked handed s t with
  | nil =>
    cases ys with
    | nil => exact yields_pure ⟨handed, fun _ hp => hp, by simpa using h, rfl, rfl, nofun, nofun⟩
    | cons y ys => cases hl
  | cons x xs ih =>
    cases ys with
    | nil => cases hl
    | cons y ys =>
      refine (hc.butterfly h hx.head hy.head n k).bind ?_
      intro first b₂ hfirst
      obtain ⟨handed₂, s₂, h₂, hu, hl₂⟩ := hfirst
      have hx₂ := hx.tail.mono fun _ _ h => h.mono s₂
      have hy₂ := hy.tail.mono fun _ _ h => h.mono s₂
      refine (ih h₂ hx₂ hy₂ (by simpa using hl) (k + 1)).bind ?_
      intro rest b₃ hrest
      obtain ⟨handed₃, s₃, h₃, len₁, len₂, us, ls⟩ := hrest
      have hshift : ∀ i, k + 1 + i = k + (i + 1) := by omega
      simp only [hshift] at h₃ us ls
      refine yields_pure ⟨handed₃, fun p hp => s₃ (s₂ hp), ?_, by simp [len₁], by simp [len₂],
        .cons (hu.mono s₃) us, .cons (hl₂.mono s₃) ls⟩
      simpa [List.range_succ_eq_map, List.flatMap_map] using h₃

theorem stages (hc : A.Carried inv) (h : inv asked handed b)
    (hx : Along (Sample.Handed handed) xs s) (hl : xs.length = Nat.pow 2 depth) :
    Yields (Fourier.stages depth xs) b fun ys b' => ∃ handed', handed ⊆ handed' ∧
      inv (asked ++ Demand.transform A xs.length s) handed' b' ∧ ys.length = xs.length ∧
      Along (Sample.Handed handed') ys (A.transform xs.length s) := by
  -- The recursion halves the length: the two halves are transformed first, then joined.
  induction depth generalizing xs s b asked handed with
  | zero =>
    have h1 : xs.length = 1 := hl
    rw [h1, Demand.transform_one, List.append_nil]
    refine yields_pure ⟨handed, fun _ hp => hp, h, h1, hx.congr fun i _ => ?_⟩
    rw [Arithmetic.transform_one]
  | succ depth ih =>
    have hpos : 0 < Nat.pow 2 depth := Nat.pow_pos (by omega)
    have hl2 : xs.length = 2 * Nat.pow 2 depth := by
      rw [hl, Nat.mul_comm]
      rfl
    have he : (evens xs).length = Nat.pow 2 depth := by rw [length_evens]; omega
    have ho : (odds xs).length = Nat.pow 2 depth := by rw [length_odds]; omega
    refine (ih h hx.evens he).bind ?_
    intro es b₂ hes
    obtain ⟨handed₂, s₂, h₂, le, se⟩ := hes
    refine (ih h₂ (hx.odds.mono fun _ _ h => h.mono s₂) ho).bind ?_
    intro os b₃ hos
    obtain ⟨handed₃, s₃, h₃, lo, so⟩ := hos
    refine (hc.stage h₃ (se.mono fun _ _ h => h.mono s₃) so (by rw [le, lo, he, ho])
      xs.length 0).bind ?_
    intro halves b₄ hhalves
    obtain ⟨handed₄, s₄, h₄, lu, ll, su, sl⟩ := hhalves
    rw [he] at le
    simp only [Nat.zero_add, hl2, le, he, ho] at h₄ lu ll su sl ⊢
    refine yields_pure ⟨handed₄, fun p hp => s₄ (s₃ (s₂ hp)), ?_, by simp [lu, ll]; omega, ?_⟩
    · rw [Demand.transform_double _ _ hpos]
      simpa using h₄
    · refine .append (su.congr fun i hi => ?_) (sl.congr fun i hi => ?_)
      · rw [Arithmetic.transform_upper _ _ (lu ▸ hi)]
      · rw [lu, Arithmetic.transform_lower _ _ (ll ▸ hi)]

/-- A transform of samples whose number is a power of two succeeds, and carries on what each of its
requests does. -/
theorem transform (hc : A.Carried inv) (s : Nat → Point α) (hp : isPowerOfTwo xs.length = true)
    (h : inv [] (Sample.handed xs s) b) :
    Yields (Fourier.transform xs) b fun ys b' => ∃ handed,
      inv (Demand.transform A xs.length s) handed b' ∧ ys.length = xs.length ∧
      Along (Sample.Handed handed) ys (A.transform xs.length s) := by
  unfold Fourier.transform
  rw [if_pos hp]
  refine (hc.stages h (Sample.along_handed xs s) (Fourier.length_of_isPowerOfTwo hp)).mono ?_
  intro ys b' hys
  obtain ⟨handed, _, h', hl, hs⟩ := hys
  exact ⟨handed, by simpa using h', hl, hs⟩

end Arithmetic.Carried

end FlatFourier
