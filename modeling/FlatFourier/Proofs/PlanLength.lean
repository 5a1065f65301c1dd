import Mathlib
import FlatFourier.Proofs.PlanContents
import FlatFourier.Proofs.Residue
import FlatFourier.Proofs.Sharing
import FlatFourier.Proofs.WriteRecord

namespace FlatFourier

open Build

/-- The number of butterflies in a transform. -/
def Fourier.butterflies (size : Nat) : Nat :=
  size / 2 * size.log2

theorem Fourier.butterflies_pow_succ (d : Nat) :
    butterflies (2 ^ (d + 1)) = 2 * butterflies (2 ^ d) + 2 ^ d := by
  have hhalf : ∀ e, 2 ^ (e + 1) / 2 = 2 ^ e := fun e => Nat.mul_div_cancel _ (by decide)
  simp only [butterflies, Nat.log2_two_pow, hhalf]
  cases d with
  | zero => rfl
  | succ d =>
    rw [hhalf]
    ring

namespace Demand

variable {size : Nat} (A : Arithmetic α)

/-- The nodes that a request takes where each operation gets a node of its own. An angle gets one
when its cosine is asked for. -/
def cost : Demand α → Nat
  | unary .cos _ => 2
  | _ => 1

/-- If all butterflies weigh the same, a transform weighs as much as its butterflies. -/
theorem sum_map_transform {weight : Demand α → Nat}
    (hw : ∀ n k x y, ((butterfly A n k x y).map weight).sum = c) (hp : ∃ d, size = 2 ^ d)
    (s : Nat → Point α) :
    ((transform A size s).map weight).sum = c * Fourier.butterflies size := by
  obtain ⟨d, rfl⟩ := hp
  induction d generalizing s with
  | zero =>
    rw [pow_zero, transform_one]
    rfl
  | succ d ih =>
    have hstage : ∀ stage : Nat → List (Demand α), (∀ k, ((stage k).map weight).sum = c) →
        (((List.range (2 ^ d)).flatMap stage).map weight).sum = 2 ^ d * c := by
      intro stage hc
      rw [List.map_flatMap, List.flatMap_def, List.sum_flatten, List.map_map]
      simp [Function.comp_def, hc]
    rw [Fourier.butterflies_pow_succ, pow_succ', transform_double A s (Nat.two_pow_pos d),
      List.map_append, List.map_append, List.sum_append, List.sum_append, ih, ih,
      hstage _ fun k => hw _ _ _ _]
    ring

theorem length_transform (hp : ∃ d, size = 2 ^ d) (s : Nat → Point α) :
    (transform A size s).length = 12 * Fourier.butterflies size := by
  have hone : ∀ n k x y, ((butterfly A n k x y).map fun _ => 1).sum = 12 := by
    simp [butterfly, polar, mul, parts]
  simpa using sum_map_transform A hone hp s

theorem sum_cost_transform (hp : ∃ d, size = 2 ^ d) (s : Nat → Point α) :
    ((transform A size s).map cost).sum = 13 * Fourier.butterflies size := by
  apply sum_map_transform A _ hp
  simp [butterfly, polar, mul, parts, cost]

end Demand

/-- Nothing is simplified, nothing is shared, and there are so many nodes. -/
structure Builder.Bare (b : Builder) (count : Nat) : Prop where
  rules : b.rules = []
  sharing : b.graph.sharing = false
  size : b.graph.size = count

namespace Builder.Bare

variable {b b' : Builder}

/-- Each operation gets a node of its own. -/
theorem add (h : b.Bare count) (kind : Kind) : (b.add kind).2.Bare (count + 1) := by
  have hnone : b.graph.existing? kind = none := by
    simp [Graph.existing?, Graph.shares, h.sharing]
  rcases add_cases b kind with ⟨i, hi, _⟩ | ⟨_, he⟩
  · rw [hnone] at hi
    cases hi
  · rw [he]
    refine ⟨h.rules, h.sharing, ?_⟩
    rw [← h.size]
    exact Array.size_push ..

theorem operation (h : b.Bare count) (kind : Kind) :
    Yields (operation kind) b fun _ b' => b'.Bare (count + 1) := by
  have hrun : Build.operation kind b = .ok (b.add kind).1 (b.add kind).2 := by
    refine (run_bind (get_run b)).trans ((run_bind (get_run b)).trans ?_)
    rw [h.rules]
    rfl
  exact yields_of_run hrun (h.add kind)

theorem enters (h : b.Bare count) (he : b.Enters kinds ids b') :
    b'.Bare (count + kinds.length) := by
  induction he generalizing count with
  | nil => exact h
  | cons _ ih =>
    have hnext := ih (h.add _)
    rwa [Nat.add_assoc, Nat.add_comm 1] at hnext

theorem carried (count : Nat) : Arithmetic.unknown.Carried fun asked _ b =>
    b.Bare (count + (asked.map Demand.cost).sum) where
  polar := by
    intro asked handed b h angle
    have hlift : Yields (lift angle) b fun _ b' => b'.Bare _ :=
      yields_of_run (add_run (.const angle) b) (h.add _)
    refine hlift.bind ?_
    intro theta b₂ h₂
    refine (h₂.operation _).bind ?_
    intro re b₃ h₃
    refine (h₃.operation _).bind ?_
    intro im b₄ h₄
    apply yields_pure
    rw [List.map_append, List.sum_append]
    exact h₄
  operation := by
    intro op f asked handed b i x j y _ h _ _
    rw [List.map_append, List.sum_append]
    exact h.operation _

end Builder.Bare

theorem Kernel.Making.length_unoptimized {size : Nat} {delivery : Delivery} {k : Kernel}
    (m : Making size { Request.unoptimized with delivery } k) :
    k.planLength = 4 * size + 13 * Fourier.butterflies size := by
  have hstart : (start size { Request.unoptimized with delivery }).Bare 0 := ⟨rfl, rfl, rfl⟩
  obtain ⟨reads, hread, hcount, _⟩ := readFrom_enters m.inputs_run
  have hcarried := Builder.Bare.carried (0 + reads.length)
  obtain ⟨handed, hcomputed, _⟩ := m.carries hcarried (fun _ => ⟨(), ()⟩) (hstart.enters hread)
  obtain ⟨kinds, ids, hdeliver, hover, _⟩ := deliver_enters m.roots_run
  have hdelivered := hcomputed.enters hdeliver
  have hplan : m.plan = Plan.complete m.delivered :=
    (EStateM.Result.ok.inj m.plan_run).1.symm
  have hp := (isPowerOfTwo_iff size).mp m.power
  rw [m.length_eq, hplan, Plan.length, Plan.order_complete, List.length_map, Graph.length_list,
    hdelivered.size, Demand.sum_cost_transform _ hp, hover.length, m.outputs_length, hcount]
  omega

/-- The node is in the supply, or it is zero and a zero may be used as well. -/
def Graph.Supplied (g : Graph) (supply : List NodeId) (zero : Bool) (i : NodeId) : Prop :=
  i ∈ supply ∨ zero = true ∧ g.HasKind i (.const 0)

/-- All writes are in a supply of nodes, and all operands are supplied. -/
structure Builder.Draws (b : Builder) (supply : List NodeId) (zero : Bool) : Prop where
  exist : ∀ i ∈ supply, i < b.graph.size
  logged : ∀ w ∈ b.log.entries, w.node ∈ supply
  operands : ∀ i kind, b.graph.HasKind i kind →
    ∀ j ∈ kind.operands, b.graph.Supplied supply zero j

theorem Graph.Supplied.mono {g g' : Graph} {i : NodeId} (h : g.Supplied supply zero i)
    (hk : g.Keeps g') (hs : supply ⊆ supply') (hz : zero = true → zero' = true) :
    g'.Supplied supply' zero' i := by
  rcases h with hmem | ⟨hzero, hkind⟩
  · exact .inl (hs hmem)
  · exact .inr ⟨hz hzero, hkind.keeps hk⟩

theorem Builder.Computes.log_eq {b b' : Builder} (h : b.Computes b') : b'.log = b.log := by
  induction h with
  | refl => rfl
  | add _ kind ha _ ih =>
    rw [add_log, ih]
    cases kind with
    | write a c v => cases ha.1
    | _ => rfl
  | count _ name ih => exact ih

theorem WriteOrder.mem_all_of_predecessor? {order : WriteOrder} {i : NodeId}
    (h : order.predecessor? kind seq = some i) : i ∈ order.all := by
  have hlast : ∀ a epoch, order.lastBefore? a epoch = some i → i ∈ order.all := by
    intro a epoch he
    cases epoch with
    | zero => cases he
    | succ epoch => exact mem_all.mpr ⟨a, Array.mem_of_getElem? he⟩
  cases kind with
  | read a c epoch => exact hlast a epoch h
  | write a c v =>
    obtain ⟨epoch, _, he⟩ := Option.bind_eq_some_iff.mp h
    exact hlast a epoch he
  | _ => cases h

namespace Builder.Draws

variable {b b' : Builder} {supply : List NodeId} {zero : Bool}

theorem mono (h : b.Draws supply zero) (hs : supply ⊆ supply')
    (he : ∀ i ∈ supply', i < b.graph.size) (hz : zero = true → zero' = true) :
    b.Draws supply' zero' where
  exist := he
  logged w hw := hs (h.logged w hw)
  operands i kind hi j hj := (h.operands i kind hi j hj).mono (.refl _) hs hz

theorem cons {i : NodeId} (h : b.Draws supply zero) (hi : i < b.graph.size) :
    b.Draws (i :: supply) zero :=
  h.mono (List.subset_cons_self ..) (List.forall_mem_cons.mpr ⟨hi, h.exist⟩) id

theorem add (h : b.Draws supply zero) (hc : b.graph.Consistent) (hk : kind.operands ⊆ supply) :
    (b.add kind).2.Draws ((b.add kind).1 :: supply) zero where
  exist := by
    obtain ⟨n, hn, _⟩ := add_node hc kind
    refine List.forall_mem_cons.mpr ⟨Graph.lt_of_node? hn, ?_⟩
    exact fun i hi => Nat.lt_of_lt_of_le (h.exist i hi) (add_keeps b kind).size_le
  logged w hw := by
    rw [add_log, ← Array.mem_toList_iff, entries_enter, List.mem_append] at hw
    rcases hw with hold | hnew
    · exact .tail _ (h.logged w (Array.mem_toList_iff.mp hold))
    · rw [← (Node.entry?_eq_some (Option.mem_toList.mp hnew)).2.2]
      exact .head _
  operands i kind' hi j hj := by
    rcases hasKind_of_add hi with hold | ⟨_, rfl⟩
    · exact (h.operands i kind' hold j hj).mono (add_keeps b kind) (List.subset_cons_self ..) id
    · exact .inl (.tail _ (hk hj))

theorem enters (h : b.Draws supply zero) (hc : b.graph.Consistent) (he : b.Enters kinds ids b')
    (hk : ∀ kind ∈ kinds, kind.operands ⊆ supply) : b'.Draws (ids.reverse ++ supply) zero := by
  induction he generalizing supply with
  | nil => exact h
  | cons _ ih =>
    obtain ⟨hkind, hkinds⟩ := List.forall_mem_cons.mp hk
    rw [List.reverse_cons, List.append_assoc]
    apply ih (h.add hc hkind) (add_consistent hc _)
    exact fun kind hm => List.subset_cons_of_subset _ (hkinds kind hm)

/-- What is new draws on the supply. -/
theorem computes (h : b.Draws supply zero) (hg : b.Computes b') (hz : zero = true → zero' = true)
    (hnew : ∀ i kind, b.graph.size ≤ i → b'.graph.HasKind i kind →
      ∀ j ∈ kind.operands, b'.graph.Supplied supply zero' j) : b'.Draws supply zero' where
  exist i hi := Nat.lt_of_lt_of_le (h.exist i hi) hg.keeps.size_le
  logged w hw := h.logged w (hg.log_eq ▸ hw)
  operands i kind hi j hj := by
    rcases Nat.lt_or_ge i b.graph.size with hlt | hge
    · have hold := h.operands i kind (hg.keeps.hasKind_of_lt hlt hi) j hj
      exact hold.mono hg.keeps (fun _ hm => hm) hz
    · exact hnew i kind hge hi j hj

theorem precomputes (h : b.Draws supply zero) (hpre : b.Precomputes b') :
    b'.Draws supply zero := by
  apply h.computes hpre.computes id
  intro i kind hge hi
  obtain ⟨x, rfl⟩ := hpre.constant i kind hge hi
  exact List.forall_mem_nil _

/-- A turn goes to the operand of a negation, which has been supplied for the negation itself, or
brings in a zero. -/
theorem turns (h : b.Draws supply zero) (hk : b.graph.Keeps b'.graph)
    (ht : b'.graph.Turns kind kind')
    (hs : ∀ i ∈ kind.operands, b'.graph.Supplied supply true i) :
    ∀ i ∈ kind'.operands, b'.graph.Supplied supply true i := by
  have hinner : ∀ {c z y}, b'.graph.HasKind c (.binary .minus z y) →
      b'.graph.Supplied supply true c → b'.graph.Supplied supply true y := by
    intro c z y hc hsupplied
    rcases hsupplied with hmem | ⟨_, n, hn, hzero⟩
    · have hold := hk.hasKind_of_lt (h.exist c hmem) hc
      have hy := h.operands c _ hold y (by simp [Kind.operands])
      exact hy.mono hk (fun _ hm => hm) fun _ => rfl
    · obtain ⟨n', hn', hminus⟩ := hc
      cases hn.symm.trans hn'
      cases hzero.symm.trans hminus
  cases ht with
  | plus hc | minus hc =>
    simp only [Kind.operands, List.forall_mem_cons] at hs ⊢
    exact ⟨hs.1, hinner hc hs.2.1, List.forall_mem_nil _⟩
  | times hz ha =>
    simp only [Kind.operands, List.forall_mem_cons]
    exact ⟨.inr ⟨rfl, hz⟩, hs _ ha, List.forall_mem_nil _⟩

theorem derives (h : b.Draws supply zero) (hk : b.graph.Keeps b'.graph)
    (hd : b'.graph.Derives kind kind')
    (hs : ∀ i ∈ kind.operands, b'.graph.Supplied supply true i) :
    ∀ i ∈ kind'.operands, b'.graph.Supplied supply true i := by
  induction hd with
  | refl => exact hs
  | turn ht _ ih => exact ih (h.turns hk ht hs)

theorem binary {i j : NodeId} (h : b.Draws supply zero) (hb : b.graph.Sound) (op : BinaryOp)
    (hi : i ∈ supply) (hj : j ∈ supply) :
    Yields (operation (.binary op i j)) b fun k b' =>
      b.Computes b' ∧ b'.Draws (k :: supply) true := by
  refine (binary_derives hb op (h.exist i hi) (h.exist j hj)).mono ?_
  intro k b' hk
  obtain ⟨hg, hlt, hnew⟩ := hk
  refine ⟨hg, .cons (h.computes hg (fun _ => rfl) ?_) hlt⟩
  intro l kind hge hl
  rcases hnew l kind hge hl with ⟨x, rfl⟩ | hd
  · exact List.forall_mem_nil _
  · apply h.derives hg.keeps hd
    simp only [Kind.operands, List.forall_mem_cons]
    exact ⟨.inl hi, .inl hj, List.forall_mem_nil _⟩

theorem supplied_of_needed {i : NodeId} (h : b.Draws supply zero) (hr : roots ⊆ supply)
    (hn : b.Needed roots i) : b.graph.Supplied supply zero i := by
  induction hn with
  | root hi => exact .inl (hr hi)
  | write hw => exact .inl (h.logged _ hw)
  | operand _ hn hj _ => exact h.operands _ _ ⟨_, hn, rfl⟩ _ hj
  | predecessor _ _ hj _ =>
    obtain ⟨w, hw, rfl⟩ := WriteOrder.mem_all_ofLog.mp (WriteOrder.mem_all_of_predecessor? hj)
    exact .inl (h.logged w hw)

/-- A pruned plan is no longer than the supply, up to a zero: shared, there is only one. -/
theorem length_le (h : b.Draws supply zero) (hi : b.graph.Indexed) (hr : roots ⊆ supply)
    (hp : plan roots true b = .ok p b') : p.length ≤ supply.length + zero.toNat := by
  rcases Plan.pruned_cases b roots with ⟨_, q, _, _, hq, hnodup, hmem, _⟩ | ⟨_, _, _, hq⟩
  · have hrun : plan roots true b = .ok q (b.countPlanned q.length) := run_bind (ask_run hq)
    cases hrun.symm.trans hp
    have hsupplied : ∀ i ∈ p.order, b.graph.Supplied supply zero i := fun i hi =>
      h.supplied_of_needed hr (Plan.kept_iff_needed.mp ((hmem i).mp hi))
    by_cases hz : ∃ z, zero = true ∧ b.graph.HasKind z (.const 0)
    · obtain ⟨z, rfl, n, hn, hk⟩ := hz
      have hsub : p.order ⊆ z :: supply := by
        intro i hmem
        rcases hsupplied i hmem with hold | ⟨_, n', hn', hk'⟩
        · exact .tail _ hold
        · rw [hi.eq_of_kind hn' hk' hn hk rfl]
          exact .head _
      exact hnodup.length_le_of_subset hsub
    · have hsub : p.order ⊆ supply := fun i hi => (hsupplied i hi).resolve_right fun h => hz ⟨i, h⟩
      exact Nat.le_add_right_of_le (hnodup.length_le_of_subset hsub)
  · have hrun : plan roots true b = .error _ b := run_bind_error (ask_error hq)
    cases hrun.symm.trans hp

end Builder.Draws

/-- The builder has computed, and each request has added one node to a supply from which all is
drawn. -/
structure Builder.Stocks (b : Builder) (count : Nat) (asked : List (Demand Unit))
    (handed : List (NodeId × Unit)) (b' : Builder) : Prop where
  computes : b.Computes b'
  draws : b'.Draws (handed.map Prod.fst) (!asked.isEmpty)
  length : handed.length = count + asked.length

theorem Builder.Stocks.carried {b : Builder} (hb : b.graph.Sound) (hr : .constantFold ∈ b.rules)
    (count : Nat) : Arithmetic.unknown.Carried (b.Stocks count) where
  polar := by
    intro asked handed b₁ h angle
    have hrules : Rule.constantFold ∈ b₁.rules := h.computes.rules_eq ▸ hr
    refine (polar_precomputes (h.computes.sound hb) hrules angle).mono ?_
    intro z b₂ hz
    obtain ⟨hpre, hre, him⟩ := hz
    refine ⟨h.computes.trans hpre.computes, ?_, ?_⟩
    · have hdraws := ((h.draws.precomputes hpre).cons him).cons hre
      exact hdraws.mono (fun _ hi => hi) hdraws.exist (by simp [Demand.polar])
    · simp [Demand.polar, h.length]
      omega
  operation := by
    intro op f asked handed b₁ i x j y _ h hi hj
    have hmem : ∀ {u : NodeId × Unit}, u ∈ handed → u.1 ∈ handed.map Prod.fst :=
      List.mem_map_of_mem
    refine (h.draws.binary (h.computes.sound hb) op (hmem hi) (hmem hj)).mono ?_
    intro k b₂ hk
    obtain ⟨hg, hdraws⟩ := hk
    refine ⟨h.computes.trans hg, ?_, ?_⟩
    · have hsome : (!(asked ++ [Demand.binary op x y]).isEmpty) = true := by simp
      rwa [hsome]
    · simp [h.length]
      omega

theorem Sample.nodes_subset_handed {handed : List (NodeId × α)} {xs : List Sample}
    (h : Along (Sample.Handed handed) xs s) : xs.flatMap Sample.nodes ⊆ handed.map Prod.fst := by
  intro i hi
  obtain ⟨x, hx, hi⟩ := List.mem_flatMap.mp hi
  obtain ⟨j, hj⟩ := List.mem_iff_getElem?.mp hx
  have hx := h j x hj
  simp only [nodes, List.mem_cons, List.not_mem_nil, or_false] at hi
  rcases hi with rfl | rfl
  · exact List.mem_map_of_mem hx.re
  · exact List.mem_map_of_mem hx.im

namespace Kernel.Making

variable {size : Nat} {k : Kernel}

theorem indexed {r : Request} (m : Making size r k) (hs : r.sharing = true) :
    m.delivered.graph.Indexed := by
  have hoptions := m.lasting (settings_lasting r.options _) ⟨rfl, rfl⟩
  have hindexed := m.lasting indexed_lasting ⟨rfl, fun _ => nofun⟩
  apply hindexed.2
  rw [hoptions.1]
  exact hs

/-- At first the inputs are the supply. -/
theorem stocks_opened {r : Request} (m : Making size r k) (s : Nat → Point Unit) :
    m.opened.Stocks (2 * size) [] (Sample.handed (Sample.ofNodes m.inputs) s) m.opened := by
  have hstart : (start size r).Draws [] false := ⟨nofun, nofun, fun i kind hi => nomatch hi⟩
  obtain ⟨reads, hread, _, hkind⟩ := readFrom_enters m.inputs_run
  have hreads : ∀ kind ∈ reads, kind.operands ⊆ [] := by
    intro kind hk
    obtain ⟨c, e, rfl⟩ := hkind kind hk
    exact List.nil_subset _
  have hdraws := hstart.enters (Graph.consistent_empty r.sharing) hread hreads
  refine ⟨.refl, ?_, ?_⟩
  · rw [m.map_fst_handed]
    exact hdraws.mono (by simp) m.inputs_lt id
  · rw [← List.length_map Prod.fst, m.map_fst_handed, m.inputs_length]
    rfl

/-- In the end the supply holds the inputs, a node for each request, and the nodes that hand over
the outputs. -/
theorem exists_draws {delivery : Delivery}
    (m : Making size { Request.optimized with delivery } k) :
    ∃ supply zero, m.delivered.Draws supply zero ∧ m.roots ⊆ supply ∧
      supply.length + zero.toNat ≤ 4 * size + 13 * Fourier.butterflies size := by
  have hfold : Rule.constantFold ∈ m.opened.rules := by
    rw [m.rules]
    exact .head _
  let s : Nat → Point Unit := fun _ => ⟨(), ()⟩
  obtain ⟨handed, hcomputed, houts⟩ :=
    m.carries (Builder.Stocks.carried m.sound hfold (2 * size)) s (m.stocks_opened s)
  obtain ⟨kinds, ids, hdeliver, hover, hroots⟩ := deliver_enters m.roots_run
  have hdelivered := hcomputed.draws.enters
    (hcomputed.computes.consistent m.sound.toConsistent) hdeliver fun kind hk i hi =>
      Sample.nodes_subset_handed houts (hover.operands kind hk i hi)
  refine ⟨_, _, hdelivered, ?_, ?_⟩
  · exact fun i hi => List.mem_append_left _ (List.mem_reverse.mpr (hroots hi))
  · have hasked := Demand.length_transform Arithmetic.unknown ((isPowerOfTwo_iff size).mp m.power) s
    rw [List.length_append, List.length_reverse, hdeliver.length_eq, hover.length,
      m.outputs_length, List.length_map, hcomputed.length, hasked]
    -- Without a butterfly nothing is asked for, and so there is no zero.
    cases hempty : (Demand.transform Arithmetic.unknown size s).isEmpty with
    | true =>
      simp only [Bool.not_true, Bool.toNat_false]
      omega
    | false =>
      have hpos := List.length_pos_iff.mpr (List.isEmpty_eq_false_iff.mp hempty)
      simp only [Bool.not_false, Bool.toNat_true]
      omega

end Kernel.Making

/-- For each size and delivery an optimized plan is at most as long as one with nothing simplified,
shared or left out, which has four nodes for a sample and thirteen for a butterfly. -/
theorem Kernel.optimized_not_longer {size : Nat} (hf : Fits size) (delivery : Delivery) :
    ∃ k k', specialize size { Request.optimized with delivery } = .ok k ∧
      specialize size { Request.unoptimized with delivery } = .ok k' ∧
      k'.planLength = 4 * size + 13 * (size / 2) * size.log2 ∧ k.planLength ≤ k'.planLength := by
  have hp := (isPowerOfTwo_iff size).mpr hf.1
  obtain ⟨k, hk, ⟨m⟩⟩ := exists_making hp hf.2 { Request.optimized with delivery }
  obtain ⟨k', hk', ⟨m'⟩⟩ := exists_making hp hf.2 { Request.unoptimized with delivery }
  have hlength : k'.planLength = 4 * size + 13 * (size / 2) * size.log2 := by
    rw [m'.length_unoptimized, Fourier.butterflies, Nat.mul_assoc]
  obtain ⟨supply, zero, hdraws, hroots, hsupply⟩ := m.exists_draws
  refine ⟨k, k', hk, hk', hlength, ?_⟩
  calc k.planLength = m.plan.length := m.length_eq
    _ ≤ supply.length + zero.toNat := hdraws.length_le (m.indexed rfl) hroots m.plan_run
    _ ≤ 4 * size + 13 * Fourier.butterflies size := hsupply
    _ = k'.planLength := m'.length_unoptimized.symm

theorem Kernel.optimized_not_longer_eight :
    Fits 8 ∧ ∃ k k', specialize 8 { Request.optimized with delivery := .results } = .ok k ∧
      specialize 8 { Request.unoptimized with delivery := .results } = .ok k' ∧
      k'.planLength = 188 ∧ k.planLength ≤ k'.planLength := by
  have hf : Fits 8 := ⟨⟨3, rfl⟩, by decide⟩
  exact ⟨hf, optimized_not_longer hf .results⟩

end FlatFourier
