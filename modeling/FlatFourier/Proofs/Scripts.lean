import FlatFourier.Proofs.Lockstep

namespace FlatFourier

open Build

variable {l r : Builder}

structure Sample.Same (g h : Graph) (x y : Sample) : Prop where
  re : SameTree g h x.re y.re
  im : SameTree g h x.im y.im

theorem Twins.Grown.sample {l' r' : Builder} {x y : Sample} (hg : Twins.Grown l r l' r')
    (hs : x.Same l.graph r.graph y) : x.Same l'.graph r'.graph y :=
  ⟨hg.same hs.re, hg.same hs.im⟩

theorem Twins.Grown.samples {l' r' : Builder} {xs ys : List Sample} (hg : Twins.Grown l r l' r')
    (hs : List.Forall₂ (Sample.Same l.graph r.graph) xs ys) :
    List.Forall₂ (Sample.Same l'.graph r'.graph) xs ys :=
  hs.imp fun _ _ => hg.sample

namespace Sample

variable {x x' y y' : Sample}

theorem polar_lockstep (hw : Twins l r) (angle : Float) :
    Lockstep l r Sample.Same (polar angle l) (polar angle r) := by
  refine (hw.lift_lockstep angle).bind fun h₁ theta => ?_
  refine (operation_lockstep h₁.twins (.unary .cos theta)).bind fun h₂ re => ?_
  refine (operation_lockstep h₂.twins (.unary .sin (h₂.same theta))).bind fun h₃ im => ?_
  exact .pure h₃.twins ⟨h₃.same re, im⟩

/-- An operation on the parts of two samples. -/
theorem parts_lockstep (hw : Twins l r) (hx : x.Same l.graph r.graph x')
    (hy : y.Same l.graph r.graph y') (op : BinaryOp) :
    Lockstep l r Sample.Same
      ((do
        let re ← operation (.binary op x.re y.re)
        let im ← operation (.binary op x.im y.im)
        return ⟨re, im⟩ : Build Sample) l)
      ((do
        let re ← operation (.binary op x'.re y'.re)
        let im ← operation (.binary op x'.im y'.im)
        return ⟨re, im⟩ : Build Sample) r) := by
  refine (operation_lockstep hw (.binary op hx.re hy.re)).bind fun h₁ re => ?_
  refine (operation_lockstep h₁.twins (.binary op (h₁.same hx.im) (h₁.same hy.im))).bind
    fun h₂ im => ?_
  exact .pure h₂.twins ⟨h₂.same re, im⟩

theorem add_lockstep (hw : Twins l r) (hx : x.Same l.graph r.graph x')
    (hy : y.Same l.graph r.graph y') : Lockstep l r Sample.Same (x.add y l) (x'.add y' r) :=
  parts_lockstep hw hx hy .plus

theorem sub_lockstep (hw : Twins l r) (hx : x.Same l.graph r.graph x')
    (hy : y.Same l.graph r.graph y') : Lockstep l r Sample.Same (x.sub y l) (x'.sub y' r) :=
  parts_lockstep hw hx hy .minus

theorem mul_lockstep (hw : Twins l r) (hx : x.Same l.graph r.graph x')
    (hy : y.Same l.graph r.graph y') : Lockstep l r Sample.Same (x.mul y l) (x'.mul y' r) := by
  refine (operation_lockstep hw (.binary .times hx.re hy.re)).bind fun h₁ reRe => ?_
  have hx₁ := h₁.sample hx
  have hy₁ := h₁.sample hy
  refine (operation_lockstep h₁.twins (.binary .times hx₁.im hy₁.im)).bind fun h₂ imIm => ?_
  have hx₂ := h₂.sample hx₁
  have hy₂ := h₂.sample hy₁
  refine (operation_lockstep h₂.twins (.binary .times hx₂.re hy₂.im)).bind fun h₃ reIm => ?_
  have hx₃ := h₃.sample hx₂
  have hy₃ := h₃.sample hy₂
  refine (operation_lockstep h₃.twins (.binary .times hx₃.im hy₃.re)).bind fun h₄ imRe => ?_
  have h₃₄ := h₃.trans h₄
  refine (operation_lockstep h₄.twins (.binary .minus ((h₂.trans h₃₄).same reRe)
    (h₃₄.same imIm))).bind fun h₅ re => ?_
  refine (operation_lockstep h₅.twins (.binary .plus ((h₄.trans h₅).same reIm)
    (h₅.same imRe))).bind fun h₆ im => ?_
  exact .pure h₆.twins ⟨h₆.same re, im⟩

end Sample

theorem forall₂_evens {R : α → β → Prop} {xs : List α} {ys : List β} (h : List.Forall₂ R xs ys) :
    List.Forall₂ R (evens xs) (evens ys) := by
  induction xs using evens.induct generalizing ys with
  | case1 =>
    cases h
    exact .nil
  | case2 x =>
    cases h with
    | cons hx ht =>
      cases ht
      exact .cons hx .nil
  | case3 x _ xs ih =>
    cases h with
    | cons hx ht =>
      cases ht with
      | cons _ ht => exact .cons hx (ih ht)

/-- The odd places are the even places behind the first. -/
theorem odds_cons (x : α) (xs : List α) : odds (x :: xs) = evens xs := by
  induction xs using evens.induct generalizing x with
  | case1 => rfl
  | case2 a => rfl
  | case3 a b rest ih => rw [odds, evens, ih b]

theorem forall₂_odds {R : α → β → Prop} {xs : List α} {ys : List β} (h : List.Forall₂ R xs ys) :
    List.Forall₂ R (odds xs) (odds ys) := by
  cases h with
  | nil => exact .nil
  | cons hx ht =>
    rw [odds_cons, odds_cons]
    exact forall₂_evens ht

namespace Fourier

/-- The two halves of a stage correspond. -/
abbrev SameHalves (g h : Graph) (p q : List Sample × List Sample) : Prop :=
  List.Forall₂ (Sample.Same g h) p.1 q.1 ∧ List.Forall₂ (Sample.Same g h) p.2 q.2

theorem butterfly_lockstep {x x' y y' : Sample} (hw : Twins l r) (hx : x.Same l.graph r.graph x')
    (hy : y.Same l.graph r.graph y') (n k : Nat) :
    Lockstep l r (fun g h p q => p.1.Same g h q.1 ∧ p.2.Same g h q.2)
      (butterfly n k x y l) (butterfly n k x' y' r) := by
  refine (Sample.polar_lockstep hw _).bind fun h₁ twiddle => ?_
  refine (Sample.mul_lockstep h₁.twins twiddle (h₁.sample hy)).bind fun h₂ z => ?_
  have hx₂ := (h₁.trans h₂).sample hx
  refine (Sample.add_lockstep h₂.twins hx₂ z).bind fun h₃ upper => ?_
  refine (Sample.sub_lockstep h₃.twins (h₃.sample hx₂) (h₃.sample z)).bind fun h₄ lower => ?_
  exact .pure h₄.twins ⟨h₄.sample upper, lower⟩

theorem stage_lockstep {xs xs' ys ys' : List Sample} (hw : Twins l r)
    (hx : List.Forall₂ (Sample.Same l.graph r.graph) xs xs')
    (hy : List.Forall₂ (Sample.Same l.graph r.graph) ys ys') (n k : Nat) :
    Lockstep l r SameHalves (stage n k xs ys l) (stage n k xs' ys' r) := by
  induction xs generalizing l r xs' ys ys' k with
  | nil =>
    cases hx
    exact .pure hw ⟨.nil, .nil⟩
  | cons x xs ih =>
    cases hx with
    | cons hx hxs =>
      cases hy with
      | nil => exact .pure hw ⟨.nil, .nil⟩
      | cons hy hys =>
        refine (butterfly_lockstep hw hx hy n k).bind fun h₁ hp => ?_
        refine (ih h₁.twins (h₁.samples hxs) (h₁.samples hys) (k + 1)).bind fun h₂ hps => ?_
        exact .pure h₂.twins ⟨.cons (h₂.sample hp.1) hps.1, .cons (h₂.sample hp.2) hps.2⟩

theorem stages_lockstep {xs xs' : List Sample} (hw : Twins l r)
    (hx : List.Forall₂ (Sample.Same l.graph r.graph) xs xs') (depth : Nat) :
    Lockstep l r (fun g h => List.Forall₂ (Sample.Same g h)) (stages depth xs l)
      (stages depth xs' r) := by
  induction depth generalizing l r xs xs' with
  | zero => exact .pure hw hx
  | succ depth ih =>
    refine (ih hw (forall₂_evens hx)).bind fun h₁ hes => ?_
    refine (ih h₁.twins (h₁.samples (forall₂_odds hx))).bind fun h₂ hos => ?_
    rw [hx.length_eq]
    refine (stage_lockstep h₂.twins (h₂.samples hes) hos _ 0).bind fun h₃ hps => ?_
    exact .pure h₃.twins (List.rel_append hps.1 hps.2)

theorem transform_lockstep {xs xs' : List Sample} (hw : Twins l r)
    (hx : List.Forall₂ (Sample.Same l.graph r.graph) xs xs') :
    Lockstep l r (fun g h => List.Forall₂ (Sample.Same g h)) (transform xs l)
      (transform xs' r) := by
  unfold transform
  rw [hx.length_eq]
  split
  · exact stages_lockstep hw hx _
  · exact .throw hw _

end Fourier

/-- The operation over other nodes. -/
def Kind.map (f : NodeId → NodeId) : Kind → Kind
  | const x => const x
  | binary op a b => binary op (f a) (f b)
  | unary op a => unary op (f a)
  | read array index epoch => read array index epoch
  | write array index v => write array index (f v)
  | result v => result (f v)

def Sample.map (f : NodeId → NodeId) (x : Sample) : Sample :=
  ⟨f x.re, f x.im⟩

namespace Call

/-- The call on other nodes. -/
def map (f : NodeId → NodeId) : Call → Call
  | declare name length => declare name length
  | lift x => lift x
  | read array index => read array index
  | write array index v => write array index (f v)
  | result v => result (f v)
  | make kind => make (kind.map f)
  | operation kind => operation (kind.map f)
  | negate v => negate (f v)
  | polar angle => polar angle
  | add x y => add (x.map f) (y.map f)
  | sub x y => sub (x.map f) (y.map f)
  | mul x y => mul (x.map f) (y.map f)
  | transform xs => transform (xs.map (·.map f))
  | answer kind => answer (kind.map f)
  | ask rule kind => ask rule (kind.map f)
  | count name => count name
  | plan roots prune => plan (roots.map f) prune

def isPlan : Call → Bool
  | plan _ _ => true
  | _ => false

end Call

section Map

variable {f f' : NodeId → NodeId}

theorem Kind.rel_map {same : NodeId → NodeId → Prop} {kind : Kind}
    (h : ∀ i ∈ kind.operands, same (f i) (f' i)) : (kind.map f).Rel same (kind.map f') := by
  cases kind with
  | const x => exact .const x
  | binary op a b => exact .binary op (h a (by simp [operands])) (h b (by simp [operands]))
  | unary op a => exact .unary op (h a (by simp [operands]))
  | read a c e => exact .read a c e
  | write a c v => exact .write a c (h v (by simp [operands]))
  | result v => exact .result (h v (by simp [operands]))

theorem Sample.Same.map {g h : Graph} {x : Sample}
    (hs : ∀ i ∈ x.nodes, SameTree g h (f i) (f' i)) : (x.map f).Same g h (x.map f') :=
  ⟨hs x.re (by simp [Sample.nodes]), hs x.im (by simp [Sample.nodes])⟩

theorem Sample.forall₂_map {g h : Graph} {xs : List Sample}
    (hs : ∀ i ∈ xs.flatMap Sample.nodes, SameTree g h (f i) (f' i)) :
    List.Forall₂ (Sample.Same g h) (xs.map (·.map f)) (xs.map (·.map f')) := by
  rw [List.forall₂_map_left_iff, List.forall₂_map_right_iff, List.forall₂_same]
  intro x hx
  exact .map fun i hi => hs i (List.mem_flatMap.mpr ⟨x, hx, hi⟩)

end Map

/-- Nodes handed back correspond one by one. -/
abbrev SameNodes (g h : Graph) : List NodeId → List NodeId → Prop :=
  List.Forall₂ (SameTree g h)

theorem Sample.Same.nodes {g h : Graph} {x y : Sample} (hs : x.Same g h y) :
    SameNodes g h x.nodes y.nodes :=
  .cons hs.re (.cons hs.im .nil)

namespace Lockstep

theorem node {s t : Build NodeId} (h : Lockstep l r SameTree (s l) (t r)) :
    Lockstep l r SameNodes ((do return [← s] : Build (List NodeId)) l)
      ((do return [← t] : Build (List NodeId)) r) :=
  h.bind fun hg hs => .pure hg.twins (.cons hs .nil)

theorem sample {s t : Build Sample} (h : Lockstep l r Sample.Same (s l) (t r)) :
    Lockstep l r SameNodes ((do return (← s).nodes : Build (List NodeId)) l)
      ((do return (← t).nodes : Build (List NodeId)) r) :=
  h.bind fun hg hs => .pure hg.twins hs.nodes

end Lockstep

namespace Twins

theorem checkCell_lockstep (hw : Twins l r) (a : ArrayId) (c : Nat) :
    Lockstep l r (fun _ _ => Eq) (checkCell a c l) (checkCell a c r) := by
  cases ha : l.arrays[a]? with
  | none =>
    have ha' : r.arrays[a]? = none := hw.arrays ▸ ha
    rw [checkCell, run_bind_error (array_error ha), run_bind_error (array_error ha')]
    exact .error hw.grown_self _
  | some info =>
    have ha' : r.arrays[a]? = some info := hw.arrays ▸ ha
    rw [checkCell, run_bind (array_run ha), run_bind (array_run ha')]
    split
    · exact .pure hw rfl
    · exact .throw hw _

theorem read_lockstep (hw : Twins l r) (a : ArrayId) (c : Nat) :
    Lockstep l r SameTree (Build.read a c l) (Build.read a c r) := by
  refine (hw.checkCell_lockstep a c).bind fun hg _ => .get_bind ?_
  rw [hg.twins.epoch a]
  exact hg.twins.add_lockstep (.read a c _)

theorem write_lockstep (hw : Twins l r) (a : ArrayId) (c : Nat) {v v' : NodeId}
    (hv : SameTree l.graph r.graph v v') :
    Lockstep l r SameTree (Build.write a c v l) (Build.write a c v' r) :=
  (hw.checkCell_lockstep a c).bind fun hg _ => hg.twins.add_lockstep (.write a c (hg.same hv))

end Twins

/-- A call on corresponding nodes ends alike for twins. Plans are another matter: they list nodes,
and of these a builder that shares has fewer. -/
theorem Call.run_lockstep (c : Call) (hc : c.isPlan = false) {f f' : NodeId → NodeId}
    (hw : Twins l r) (hn : ∀ i ∈ c.nodes, SameTree l.graph r.graph (f i) (f' i)) :
    Lockstep l r SameNodes ((c.map f).run l) ((c.map f').run r) := by
  have first {x y : Sample}
      (hn : ∀ i ∈ x.nodes ++ y.nodes, SameTree l.graph r.graph (f i) (f' i)) :
      (x.map f).Same l.graph r.graph (x.map f') :=
    .map fun i hi => hn i (List.mem_append_left _ hi)
  have second {x y : Sample}
      (hn : ∀ i ∈ x.nodes ++ y.nodes, SameTree l.graph r.graph (f i) (f' i)) :
      (y.map f).Same l.graph r.graph (y.map f') :=
    .map fun i hi => hn i (List.mem_append_right _ hi)
  cases c with
  | declare name length => exact .ok ⟨hw.declare name length, .refl _, .refl _⟩ .nil
  | lift x => exact (hw.lift_lockstep x).node
  | read a c => exact (hw.read_lockstep a c).node
  | write a c v => exact (hw.write_lockstep a c (hn v (by simp [nodes]))).node
  | result v => exact (hw.add_lockstep (.result (hn v (by simp [nodes])))).node
  | make kind => exact (hw.add_lockstep (kind.rel_map hn)).node
  | operation kind => exact (operation_lockstep hw (kind.rel_map hn)).node
  | negate v => exact (negate_lockstep hw (hn v (by simp [nodes]))).node
  | polar angle => exact (Sample.polar_lockstep hw angle).sample
  | add x y => exact (Sample.add_lockstep hw (first hn) (second hn)).sample
  | sub x y => exact (Sample.sub_lockstep hw (first hn) (second hn)).sample
  | mul x y => exact (Sample.mul_lockstep hw (first hn) (second hn)).sample
  | transform xs =>
    refine (Fourier.transform_lockstep hw (Sample.forall₂_map hn)).bind fun hg hs => ?_
    exact .pure hg.twins (List.rel_flatMap hs fun _ _ hx => hx.nodes)
  | answer kind =>
    refine (ownAnswer?_lockstep hw (kind.rel_map hn)).bind ?_
    rintro l' r' _ _ hg (⟨_, hs⟩ | _)
    · exact .pure hg.twins (.cons hs .nil)
    · exact .pure hg.twins .nil
  | ask rule kind =>
    refine (answer?_lockstep (operation_builtAlike _ _) hw (kind.rel_map hn) rule).bind ?_
    rintro l' r' _ _ hg (hs | _)
    · exact .pure hg.twins (.cons hs .nil)
    · exact .pure hg.twins .nil
  | count name => exact (hw.countAnswer_lockstep name).bind fun hg _ => .pure hg.twins .nil
  | plan roots prune => cases hc

/-- What has come of a script: the builder, and for each call the nodes that it has handed back or
the cause of its failure. -/
structure Transcript where
  builder : Builder
  answers : List (Except Error (List NodeId))

namespace Transcript

def start (options : Options) (rules : List Rule) : Transcript :=
  ⟨.withRules options rules, []⟩

/-- All nodes that have been handed back, in order. -/
def results (t : Transcript) : List NodeId :=
  t.answers.flatMap fun answer => answer.toOption.getD []

def next (t : Transcript) (c : Call) : Transcript :=
  match c.run t.builder with
  | .ok is b => ⟨b, t.answers ++ [.ok is]⟩
  | .error e b => ⟨b, t.answers ++ [.error e]⟩

/-- Goes on with a call that names each of its nodes by the place among the results so far. -/
def call? (t : Transcript) (c : Call) : Option Transcript :=
  if ∀ i ∈ c.nodes, i < t.results.length then some (t.next (c.map fun i => t.results.getD i 0))
  else none

/-- Follows a script. There is no outcome if a call refers to a result that does not exist. -/
def run? (t : Transcript) : List Call → Option Transcript
  | [] => some t
  | c :: script => (t.call? c).bind (·.run? script)

end Transcript

/-- Two answers: the same failure, or nodes that correspond one by one. -/
inductive SameOutcome (g h : Graph) :
    Except Error (List NodeId) → Except Error (List NodeId) → Prop where
  | ok (hs : SameNodes g h is js) : SameOutcome g h (.ok is) (.ok js)
  | error (e : Error) : SameOutcome g h (.error e) (.error e)

theorem Twins.Grown.outcome {l' r' : Builder} (hg : Twins.Grown l r l' r')
    (hs : SameOutcome l.graph r.graph x y) : SameOutcome l'.graph r'.graph x y := by
  cases hs with
  | ok hs => exact .ok (hs.imp fun _ _ => hg.same)
  | error e => exact .error e

namespace Transcript

/-- With and without sharing, the same has come of a script. -/
structure Alike (s t : Transcript) : Prop where
  answers : List.Forall₂ (SameOutcome s.builder.graph t.builder.graph) s.answers t.answers
  entries : List.Forall₂ (Write.Same s.builder.graph t.builder.graph)
    s.builder.log.entries.toList t.builder.log.entries.toList
  simplified : s.builder.tally.simplified = t.builder.tally.simplified
  byRule : s.builder.tally.byRule = t.builder.tally.byRule
  writes : s.builder.tally.writes = t.builder.tally.writes
  created : s.builder.tally.created + s.builder.tally.reused = t.builder.tally.created

/-- Transcripts of twins, with corresponding answers. -/
structure Paired (s t : Transcript) : Prop where
  twins : Twins s.builder t.builder
  answers : List.Forall₂ (SameOutcome s.builder.graph t.builder.graph) s.answers t.answers

variable {s t : Transcript}

theorem next_builder (t : Transcript) (c : Call) : (t.next c).builder = c.run.after t.builder := by
  unfold next Build.after
  cases c.run t.builder <;> rfl

/-- A relation holds along a script if it carries over from each call to the next. Related
transcripts have equally many results, so a call is possible in both or in none. -/
theorem rel_run? {R : Transcript → Transcript → Prop} {script : List Call}
    (hlen : ∀ s t, R s t → s.results.length = t.results.length)
    (hnext : ∀ s t, R s t → ∀ c ∈ script, (∀ i ∈ c.nodes, i < s.results.length) →
      R (s.next (c.map fun i => s.results.getD i 0)) (t.next (c.map fun i => t.results.getD i 0)))
    (h : R s t) : Option.Rel R (s.run? script) (t.run? script) := by
  induction script generalizing s t with
  | nil => exact .some h
  | cons c script ih =>
    unfold Transcript.run? Transcript.call?
    rw [← hlen s t h]
    split
    · rename_i hnodes
      exact ih (fun s t h d hd => hnext s t h d (by simp [hd])) (hnext s t h c (by simp) hnodes)
    · exact .none

theorem invariant_run? {I : Transcript → Prop} {script : List Call}
    (hnext : ∀ t, ∀ c ∈ script, I t → (∀ i ∈ c.nodes, i < t.results.length) →
      I (t.next (c.map fun i => t.results.getD i 0)))
    (h : I s) (hr : s.run? script = some t) : I t := by
  have hrel : Option.Rel (fun s t => s = t ∧ I s) (s.run? script) (s.run? script) := by
    refine rel_run? ?_ ?_ ⟨rfl, h⟩
    · intro s t h
      rw [h.1]
    · intro s t h c hc hn
      obtain ⟨rfl, h⟩ := h
      exact ⟨rfl, hnext s c hc h hn⟩
  rw [hr] at hrel
  cases hrel with
  | some h => exact h.2

theorem Paired.results (h : s.Paired t) :
    SameNodes s.builder.graph t.builder.graph s.results t.results := by
  refine List.rel_flatMap h.answers ?_
  intro x y hs
  cases hs with
  | ok hs => exact hs
  | error e => exact .nil

theorem Paired.getD (h : s.Paired t) {i : Nat} (hi : i < s.results.length) :
    SameTree s.builder.graph t.builder.graph (s.results.getD i 0) (t.results.getD i 0) := by
  have hj : i < t.results.length := h.results.length_eq ▸ hi
  rw [List.getD_eq_getElem?_getD, List.getD_eq_getElem?_getD, List.getElem?_eq_getElem hi,
    List.getElem?_eq_getElem hj]
  exact h.results.get hi hj

theorem Paired.next (h : s.Paired t) (c : Call) (hc : c.isPlan = false)
    (hn : ∀ i ∈ c.nodes, i < s.results.length) :
    (s.next (c.map fun i => s.results.getD i 0)).Paired
      (t.next (c.map fun i => t.results.getD i 0)) := by
  have hrun := c.run_lockstep hc h.twins fun i hi => h.getD (hn i hi)
  unfold Transcript.next
  generalize (c.map fun i => s.results.getD i 0).run s.builder = p at hrun
  generalize (c.map fun i => t.results.getD i 0).run t.builder = q at hrun
  cases hrun with
  | ok hg hs =>
    refine ⟨hg.twins, List.rel_append ?_ (.cons (.ok hs) .nil)⟩
    exact h.answers.imp fun _ _ => hg.outcome
  | error hg e =>
    refine ⟨hg.twins, List.rel_append ?_ (.cons (.error e) .nil)⟩
    exact h.answers.imp fun _ _ => hg.outcome

theorem Paired.run? (h : s.Paired t) (script : List Call) (hs : ∀ c ∈ script, c.isPlan = false) :
    Option.Rel Paired (s.run? script) (t.run? script) := by
  refine rel_run? ?_ ?_ h
  · intro s t h
    exact h.results.length_eq
  · intro s t h c hc
    exact h.next c (hs c hc)

/-- What lasts holds after a script if it holds before. -/
theorem maintains_run? {inv : Builder → Prop} (hl : Lasting inv) {script : List Call}
    (hi : inv s.builder) (hr : s.run? script = some t) : inv t.builder := by
  refine invariant_run? (I := fun t => inv t.builder) ?_ hi hr
  intro t c _ hi _
  rw [next_builder]
  exact hl.maintains_run _ _ hi

end Transcript

/-- Without sharing no node is used again. -/
theorem unshared_lasting : Lasting fun b => b.graph.sharing = false ∧ b.tally.reused = 0 where
  add := by
    intro b h kind
    rcases Builder.add_cases b kind with ⟨i, hx, he⟩ | ⟨_, he⟩ <;> rw [he]
    · simp [Graph.existing?, Graph.shares, h.1] at hx
    · exact h
  declare h _ _ := h
  count h _ := h
  planned h _ := h

/-- Sharing cannot be told from what comes of a script. -/
theorem sharing_invisible (simplify : Bool) (rules : List Rule) (script : List Call)
    (hs : ∀ c ∈ script, c.isPlan = false) :
    Option.Rel Transcript.Alike ((Transcript.start ⟨true, simplify⟩ rules).run? script)
      ((Transcript.start ⟨false, simplify⟩ rules).run? script) := by
  have hstart : (Transcript.start ⟨true, simplify⟩ rules).Paired
      (.start ⟨false, simplify⟩ rules) := ⟨.withRules _ _ rules, .nil⟩
  have hrun := hstart.run? script hs
  have hunshared : ∀ t, (Transcript.start ⟨false, simplify⟩ rules).run? script = some t →
      t.builder.tally.reused = 0 :=
    fun t ht => (Transcript.maintains_run? unshared_lasting ⟨rfl, rfl⟩ ht).2
  generalize (Transcript.start ⟨true, simplify⟩ rules).run? script = p at hrun
  generalize (Transcript.start ⟨false, simplify⟩ rules).run? script = q at hrun hunshared
  cases hrun with
  | none => exact .none
  | @some s t h =>
    have hmade := h.twins.made
    rw [hunshared t rfl, Nat.add_zero] at hmade
    exact .some ⟨h.answers, h.twins.entries, h.twins.simplified, h.twins.byRule, h.twins.writes,
      hmade⟩

/-- A cell is read twice and sums of both reads are subtracted, one cell is written and a cell that
does not exist is asked for; a read of an epoch far ahead, a negation and a product follow. -/
def repeatedReads : List Call :=
  [.declare "data" 2, .read 0 0, .read 0 0, .operation (.binary .plus 0 1),
    .operation (.binary .plus 1 0), .operation (.binary .minus 2 3), .write 0 1 4, .read 0 2,
    .make (.read 0 0 7), .negate 2, .mul ⟨0, 2⟩ ⟨1, 3⟩, .transform [⟨7, 8⟩]]

theorem sharing_invisible_repeatedReads :
    (∀ c ∈ repeatedReads, c.isPlan = false) ∧
      ((Transcript.start ⟨false, true⟩ Rule.standard).run? repeatedReads).isSome ∧
      Option.Rel Transcript.Alike
        ((Transcript.start ⟨true, true⟩ Rule.standard).run? repeatedReads)
        ((Transcript.start ⟨false, true⟩ Rule.standard).run? repeatedReads) := by
  have hs : ∀ c ∈ repeatedReads, c.isPlan = false := by simp [repeatedReads, Call.isPlan]
  exact ⟨hs, by decide +kernel, sharing_invisible true Rule.standard repeatedReads hs⟩

end FlatFourier
