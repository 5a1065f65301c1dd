import FlatFourier.Proofs.Calls
import FlatFourier.Proofs.Discipline
import FlatFourier.Proofs.Radix

namespace FlatFourier

open Build

namespace Builder

theorem admits_of_arithmetic {b : Builder} {kind : Kind} (h : kind.IsArithmetic) :
    b.Admits kind := by
  cases kind with
  | read a c e => cases h
  | write a c v => cases h
  | result v => cases h
  | _ => exact ⟨trivial, nofun⟩

/-- Kinds that staging gives to new nodes, once the rules have had their say. -/
def AdmitsSettled (b : Builder) (kind : Kind) : Prop :=
  b.Admits kind ∧ b.Settled kind

theorem Computes.admitted {b b' : Builder} (h : b.Computes b') : Grows AdmitsSettled b b' :=
  h.mono fun _ _ hk => ⟨admits_of_arithmetic hk.1, hk.2⟩

/-- What a staging call does: it declares an array, or lets the builder grow. -/
def Evolves (b b' : Builder) : Prop :=
  (∃ name length, length < Text.countBound ∧ b' = (b.declare name length).2) ∨
    Grows AdmitsSettled b b'

theorem Disciplined.evolves {b b' : Builder} (h : b.Disciplined) (he : b.Evolves b') :
    b'.Disciplined := by
  rcases he with ⟨name, length, hl, rfl⟩ | hg
  · exact h.declare name hl
  · exact h.grows (hg.mono fun _ _ => And.left)

end Builder

theorem Sample.exists_unfolds {g : Graph} (ho : g.Ordered) (label : Node → ι) {x : Sample}
    (h : ∀ i : Nat, i ∈ x.nodes → i < g.size) : ∃ p, x.Unfolds label g p := by
  obtain ⟨re, hre⟩ := Unfolds.exists_of_ordered ho label (h x.re (by simp [nodes]))
  obtain ⟨im, him⟩ := Unfolds.exists_of_ordered ho label (h x.im (by simp [nodes]))
  exact ⟨⟨re, im⟩, hre, him⟩

theorem Sample.Unfolds.lt {g : Graph} {x : Sample} (h : x.Unfolds label g p) :
    ∀ i : Nat, i ∈ x.nodes → i < g.size := by
  intro i hi
  simp only [Sample.nodes, List.mem_cons, List.not_mem_nil, or_false] at hi
  rcases hi with rfl | rfl
  · exact h.re.lt
  · exact h.im.lt

theorem Samples.exists {g : Graph} (ho : g.Ordered) (label : Node → ι) {xs : List Sample}
    (h : ∀ i : Nat, i ∈ xs.flatMap Sample.nodes → i < g.size) : ∃ s, Samples label g xs s := by
  induction xs with
  | nil => exact ⟨fun _ => ⟨.const 0, .const 0⟩, nofun⟩
  | cons x xs ih =>
    simp only [List.flatMap_cons, List.mem_append] at h
    obtain ⟨p, hp⟩ := Sample.exists_unfolds ho label fun i hi => h i (.inl hi)
    obtain ⟨s, hs⟩ := ih fun i hi => h i (.inr hi)
    refine ⟨fun i => i.casesOn p s, ?_⟩
    exact Along.cons hp hs

theorem Samples.lt {g : Graph} (h : Samples label g xs s) :
    ∀ i : Nat, i ∈ xs.flatMap Sample.nodes → i < g.size := by
  intro i hi
  obtain ⟨x, hx, hi⟩ := List.mem_flatMap.mp hi
  obtain ⟨j, hj⟩ := List.mem_iff_getElem?.mp hx
  exact (h j x hj).lt i hi

namespace Build

variable {b : Builder}

/-- A step that only computes, as a staging call sees it. -/
theorem computes_evolves {step : Build α} (ids : α → List NodeId)
    (h : Yields step b fun a b' => b.Computes b' ∧ ∀ i : Nat, i ∈ ids a → i < b'.graph.size) :
    Yields (do return ids (← step)) b fun is b' => b.Evolves b' ∧
      ∀ i : Nat, i ∈ is → i < b'.graph.size := by
  refine h.bind ?_
  rintro a b' ⟨hg, hi⟩
  exact yields_pure ⟨.inr hg.admitted, hi⟩

/-- A new node of an admitted kind about which rules say nothing, as a staging call sees it. -/
theorem add_evolves (hb : b.Disciplined) (kind : Kind) (hk : kind.Below b.graph.size)
    (ha : b.Admits kind) (hr : ∀ rule : Rule, ¬rule.Applies b.graph kind) :
    Yields (do return [← add kind]) b fun is b' => b.Evolves b' ∧
      ∀ i : Nat, i ∈ is → i < b'.graph.size := by
  refine yields_of_run (run_bind (add_run kind b))
    ⟨.inr (.add .refl kind ⟨ha, fun rule _ => hr rule⟩ hk), ?_⟩
  intro i hi
  cases List.mem_singleton.mp hi
  obtain ⟨n, hn, _⟩ := Builder.add_node hb.consistent kind
  exact Graph.lt_of_node? hn

theorem checkCell_run {a : ArrayId} (h : b.arrays[a]? = some info) (hc : c < info.length) :
    checkCell a c b = .ok () b := by
  refine (run_bind (array_run h)).trans ?_
  simp only [hc]
  rfl

/-- A cell is there, or the call stops before anything has changed. -/
theorem checkCell_cases (b : Builder) (a : ArrayId) (c : Nat) :
    (∃ info, b.arrays[a]? = some info ∧ c < info.length ∧ checkCell a c b = .ok () b) ∨
      ∃ e, checkCell a c b = .error e b := by
  cases h : b.arrays[a]? with
  | none => exact .inr ⟨_, run_bind_error (array_error h)⟩
  | some info =>
    by_cases hc : c < info.length
    · exact .inl ⟨info, rfl, hc, checkCell_run h hc⟩
    · refine .inr ⟨.cellOutOfBounds c info.name info.length, (run_bind (array_run h)).trans ?_⟩
      simp only [hc]
      rfl

end Build

namespace Call

variable {b : Builder} {c : Call}

/-- A staging call on nodes that exist succeeds and hands back nodes that exist, or it fails and
has changed nothing. -/
theorem run_of_stages (hb : b.Disciplined) (hc : c.Stages)
    (hn : ∀ i : Nat, i ∈ c.nodes → i < b.graph.size) :
    (Yields c.run b fun is b' => b.Evolves b' ∧ ∀ i : Nat, i ∈ is → i < b'.graph.size) ∨
      ∃ e, c.run b = .error e b := by
  have ho := hb.ordered
  have hs := hb.sound
  have samples : ∀ {x y : Sample}, (∀ i : Nat, i ∈ x.nodes ++ y.nodes → i < b.graph.size) →
      (∃ p, x.Unfolds Node.id b.graph p) ∧ ∃ q, y.Unfolds Node.id b.graph q := fun h =>
    ⟨Sample.exists_unfolds ho _ fun i hi => h i (List.mem_append_left _ hi),
      Sample.exists_unfolds ho _ fun i hi => h i (List.mem_append_right _ hi)⟩
  cases c with
  | declare name length => exact .inl ⟨_, _, rfl, .inl ⟨name, length, hc, rfl⟩, nofun⟩
  | lift x => exact .inl (add_evolves hb (.const x) nofun ⟨trivial, nofun⟩ nofun)
  | result v => exact .inl (add_evolves hb (.result v) hn ⟨trivial, nofun⟩ nofun)
  | read a c =>
    rcases checkCell_cases b a c with ⟨info, ha, hl, hr⟩ | ⟨e, he⟩
    · refine .inl ((add_evolves hb (.read a c (b.log.epoch a)) nofun ⟨⟨info, ha, hl⟩, ?_⟩
        nofun).of_run_eq (run_bind_congr ((run_bind hr).trans (run_bind (get_run b)))))
      rintro a c e ⟨⟩
      rfl
    · exact .inr ⟨e, run_bind_error (run_bind_error he)⟩
  | write a c v =>
    rcases checkCell_cases b a c with ⟨info, ha, hl, hr⟩ | ⟨e, he⟩
    · exact .inl ((add_evolves hb (.write a c v) hn ⟨⟨info, ha, hl⟩, nofun⟩ nofun).of_run_eq
        (run_bind_congr (run_bind hr)))
    · exact .inr ⟨e, run_bind_error (run_bind_error he)⟩
  | operation kind =>
    have harith : kind.IsArithmetic := by
      cases kind with
      | binary op x y => trivial
      | unary op x => trivial
      | _ => exact absurd hc id
    obtain ⟨e, he⟩ := Spells.exists_of_ordered ho Node.id harith hn
    refine .inl (computes_evolves (fun i => [i]) ((operation_yields hs (.refl b) he).mono ?_))
    rintro i b' ⟨hp, _, hu⟩
    exact ⟨hp.grows, fun j hj => List.mem_singleton.mp hj ▸ hu.lt⟩
  | negate v =>
    obtain ⟨t, ht⟩ := Unfolds.exists_of_ordered ho Node.id (hn v (by simp [nodes]))
    refine .inl (computes_evolves (fun i => [i]) ?_)
    refine (lift_yields Node.id hb.consistent 0).bind ?_
    rintro z b₁ ⟨hz, _, uz⟩
    refine (operation_yields (hz.sound hs) (.refl b₁)
      (.binary .minus uz (ht.keeps hz.keeps))).mono ?_
    rintro i b' ⟨hp, _, hu⟩
    exact ⟨hz.trans hp.grows, fun j hj => List.mem_singleton.mp hj ▸ hu.lt⟩
  | polar angle =>
    refine .inl (computes_evolves Sample.nodes ?_)
    refine (Sample.polar_yields Node.id hs (.refl b) angle).mono ?_
    rintro z b' ⟨hp, _, hu⟩
    exact ⟨hp.grows, hu.lt⟩
  | add x y =>
    obtain ⟨⟨p, hx⟩, q, hy⟩ := samples hn
    refine .inl (computes_evolves Sample.nodes ((Sample.add_yields hs hx hy).mono ?_))
    rintro z b' ⟨hg, hu⟩
    exact ⟨hg, hu.lt⟩
  | sub x y =>
    obtain ⟨⟨p, hx⟩, q, hy⟩ := samples hn
    refine .inl (computes_evolves Sample.nodes ((Sample.sub_yields hs hx hy).mono ?_))
    rintro z b' ⟨hg, hu⟩
    exact ⟨hg, hu.lt⟩
  | mul x y =>
    obtain ⟨⟨p, hx⟩, q, hy⟩ := samples hn
    refine .inl (computes_evolves Sample.nodes ((Sample.mul_yields hs hx hy).mono ?_))
    rintro z b' ⟨hg, hu⟩
    exact ⟨hg, hu.lt⟩
  | transform xs =>
    by_cases hp : isPowerOfTwo xs.length = true
    · obtain ⟨s, hxs⟩ := Samples.exists ho Node.id hn
      refine .inl (computes_evolves (fun ys : List Sample => ys.flatMap Sample.nodes)
        ((Fourier.transform_yields hs hxs hp).mono ?_))
      rintro ys b' ⟨h, _, hys⟩
      exact ⟨h.grows, hys.lt⟩
    · refine .inr ⟨.notPowerOfTwo xs.length, run_bind_error ?_⟩
      unfold Fourier.transform
      rw [if_neg hp]
      rfl
  | _ => exact absurd hc id

theorem evolves_of_stages (hb : b.Disciplined) (hc : c.Stages)
    (hn : ∀ i : Nat, i ∈ c.nodes → i < b.graph.size) : b.Evolves (c.run.after b) := by
  rcases run_of_stages hb hc hn with hy | ⟨e, he⟩
  · exact after_of_yields (hy.mono fun _ _ h => h.1)
  · rw [after_error he]
    exact .inr .refl

end Call

/-- Staging keeps the discipline of reads and writes. -/
theorem Staged.disciplined {b : Builder} (h : Staged b) : b.Disciplined := by
  induction h with
  | start options rules => exact .withRules options rules
  | call _ c hc ih => exact ih.evolves (Call.evolves_of_stages ih hc.1 hc.2)

end FlatFourier
