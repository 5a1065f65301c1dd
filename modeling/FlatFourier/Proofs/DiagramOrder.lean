import FlatFourier.Proofs.DiagramText
import FlatFourier.Proofs.WriteRecord

namespace FlatFourier

open Build

namespace Graph

variable {g : Graph}

/-- The place of a node among the reads and writes of its array. The reads of an epoch stand between
the writes before and behind it. -/
def moment (g : Graph) (i : NodeId) : Nat :=
  match g.node? i with
  | some ⟨_, .read _ _ epoch, _⟩ => 2 * epoch
  | some ⟨_, .write _ _ _, some seq⟩ => 2 * seq + 1
  | _ => 0

theorem IsWrite.moment_eq (h : g.IsWrite i a c s) : g.moment i = 2 * s + 1 := by
  obtain ⟨⟨id, kind, seq⟩, v, hn, rfl, rfl⟩ := h
  simp only [moment, hn]

theorem IsRead.moment_eq (h : g.IsRead i a c e) : g.moment i = 2 * e := by
  obtain ⟨⟨id, kind, seq⟩, hn, rfl⟩ := h
  simp only [moment, hn]

end Graph

namespace Builder.Disciplined

variable {b : Builder} {i j : NodeId} {a : ArrayId}

theorem found (h : b.Disciplined) :
    (WriteOrder.ofLog b.log).write? a s = some i ↔ ∃ c, b.graph.IsWrite i a c s :=
  h.logged.write?_iff_isWrite h.consistent

theorem isWrite_unique (h : b.Disciplined) (hi : b.graph.IsWrite i a c s)
    (hj : b.graph.IsWrite j a c' s) : i = j := by
  have hi := h.found.mpr ⟨c, hi⟩
  have hj := h.found.mpr ⟨c', hj⟩
  exact Option.some.inj (hi.symm.trans hj)

theorem exists_isWrite (h : b.Disciplined) (hs : s < writesTo a b.graph.list) :
    ∃ i c, b.graph.IsWrite i a c s := by
  obtain ⟨m, hm, c, v, hk, hseq⟩ := h.orderly.numbered.exists_write hs
  exact ⟨m.id, c, m, v, h.mem_list.mp hm, hk, hseq⟩

/-- The writes before a write are there. -/
theorem exists_before_write (h : b.Disciplined) (hj : b.graph.IsWrite j a c t) (hs : s ≤ t) :
    ∃ i c, b.graph.IsWrite i a c s := by
  obtain ⟨m, v, hm, hk, ht⟩ := hj
  obtain rfl := h.id_eq hm
  have hlt := h.orderly.numbered.lt_writesTo (h.mem_list.mpr hm) hk ht
  exact h.exists_isWrite (Nat.lt_of_le_of_lt hs hlt)

/-- The writes that a read has seen are there. -/
theorem exists_before_read (h : b.Disciplined) (hj : b.graph.IsRead j a c e) (hs : s < e) :
    ∃ i c, b.graph.IsWrite i a c s := by
  obtain ⟨n, hn, hk⟩ := hj
  have hle : writesTo a (b.graph.list.take j) ≤ writesTo a b.graph.list :=
    (List.take_sublist _ _).countP_le
  rw [← (h.follows hn).epoch a c e hk] at hle
  exact h.exists_isWrite (Nat.lt_of_lt_of_le hs hle)

end Builder.Disciplined

namespace Diagram

/-- Reads and writes that are next to each other: a write and the write behind it, a write and a
read that has seen it last, a read and the first write that it has not seen. -/
inductive Adjacent (b : Builder) (p : Plan) : NodeId → NodeId → Prop where
  | writes (hi : b.graph.IsWrite i a c s) (hj : b.graph.IsWrite j a c' (s + 1)) : Adjacent b p i j
  | seen (hi : b.graph.IsWrite i a c s) (hj : b.graph.IsRead j a c' (s + 1))
      (planned : j ∈ p.order) : Adjacent b p i j
  | unseen (hi : b.graph.IsRead i a c e) (planned : i ∈ p.order) (hj : b.graph.IsWrite j a c' e) :
      Adjacent b p i j

/-- A way along adjacent reads and writes. -/
abbrev Leads (b : Builder) (p : Plan) : NodeId → NodeId → Prop :=
  Relation.TransGen (Adjacent b p)

variable {b : Builder} {p : Plan} {i j : NodeId} {a : ArrayId}

theorem Adjacent.moment_lt (h : Adjacent b p i j) : b.graph.moment i < b.graph.moment j := by
  cases h with
  | writes hi hj =>
    rw [hi.moment_eq, hj.moment_eq]
    omega
  | seen hi hj =>
    rw [hi.moment_eq, hj.moment_eq]
    omega
  | unseen hi _ hj =>
    rw [hi.moment_eq, hj.moment_eq]
    omega

theorem Leads.moment_lt (h : Leads b p i j) : b.graph.moment i < b.graph.moment j := by
  induction h with
  | single h => exact h.moment_lt
  | tail _ h ih => exact Nat.lt_trans ih h.moment_lt

theorem Adjacent.precedes (hv : p.Valid b) (h : Adjacent b p i j) : p.Precedes i j := by
  cases h with
  | writes hi hj => exact hv.writes hi hj (Nat.lt_succ_self _)
  | seen hi hj planned => exact hv.seen hi hj planned (Nat.lt_succ_self _)
  | unseen hi planned hj => exact hv.unseen hi hj planned (Nat.le_refl _)

/-- A write leads through all writes in between. -/
theorem reflTransGen_writes (h : b.Disciplined) (hi : b.graph.IsWrite i a c s)
    (hj : b.graph.IsWrite j a c' t) (hle : s ≤ t) : Relation.ReflTransGen (Adjacent b p) i j := by
  -- On the later number: the write just before it exists, as numbers have no gaps.
  induction t generalizing j c' with
  | zero =>
    obtain rfl := Nat.le_zero.mp hle
    rw [h.isWrite_unique hi hj]
  | succ t ih =>
    rcases Nat.le_succ_iff.mp hle with hle | rfl
    · obtain ⟨k, d, hk⟩ := h.exists_before_write hj (Nat.le_succ t)
      exact (ih hk hle).tail (.writes hk hj)
    · rw [h.isWrite_unique hi hj]

theorem leads_writes_iff (h : b.Disciplined) (hi : b.graph.IsWrite i a c s)
    (hj : b.graph.IsWrite j a c' t) : Leads b p i j ↔ s < t := by
  constructor
  · intro hl
    have hmoment := hl.moment_lt
    rw [hi.moment_eq, hj.moment_eq] at hmoment
    omega
  · intro hlt
    cases t with
    | zero => cases hlt
    | succ t =>
      obtain ⟨k, d, hk⟩ := h.exists_before_write hj (Nat.le_succ t)
      exact .tail' (reflTransGen_writes h hi hk (Nat.le_of_lt_succ hlt)) (.writes hk hj)

theorem leads_seen_iff (h : b.Disciplined) (hi : b.graph.IsWrite i a c s)
    (hj : b.graph.IsRead j a c' e) (planned : j ∈ p.order) : Leads b p i j ↔ s < e := by
  constructor
  · intro hl
    have hmoment := hl.moment_lt
    rw [hi.moment_eq, hj.moment_eq] at hmoment
    omega
  · intro hlt
    cases e with
    | zero => cases hlt
    | succ e =>
      obtain ⟨k, d, hk⟩ := h.exists_before_read hj (Nat.lt_succ_self e)
      exact .tail' (reflTransGen_writes h hi hk (Nat.le_of_lt_succ hlt)) (.seen hk hj planned)

theorem leads_unseen_iff (h : b.Disciplined) (hi : b.graph.IsRead i a c e)
    (planned : i ∈ p.order) (hj : b.graph.IsWrite j a c' s) : Leads b p i j ↔ e ≤ s := by
  constructor
  · intro hl
    have hmoment := hl.moment_lt
    rw [hi.moment_eq, hj.moment_eq] at hmoment
    omega
  · intro hle
    obtain ⟨k, d, hk⟩ := h.exists_before_write hj hle
    exact .head' (.unseen hi planned hk) (reflTransGen_writes h hk hj hle)

/-- The dashed edges of a plan's diagram join what is next to each other. -/
theorem mem_dashed_iff (h : b.Disciplined) (hp : p.Faithful b) :
    .edge true i j ∈ (p.nodes b.graph).flatMap (statements (.ofLog b.log)) ↔ Adjacent b p i j := by
  rw [List.mem_flatMap]
  constructor
  · intro he
    obtain ⟨n, hn, he⟩ := he
    obtain ⟨hlist, planned⟩ := h.mem_nodes.mp hn
    have hnode := h.mem_list.mp hlist
    simp only [statements, List.mem_append, List.mem_cons, List.mem_map, Option.mem_toList,
      Statement.edge.injEq, reduceCtorEq, Bool.false_eq_true, false_and, and_false, exists_false,
      false_or, true_and] at he
    rcases he with ⟨w, hw, rfl, rfl⟩ | ⟨w, hw, rfl, rfl⟩
    · cases hk : n.kind with
      | read a c e =>
        rw [hk] at hw
        cases e with
        | zero => cases hw
        | succ e =>
          obtain ⟨d, hd⟩ := h.found.mp hw
          exact .seen hd ⟨n, hnode, hk⟩ planned
      | write a c v =>
        rw [hk] at hw
        obtain ⟨s, hs, hw⟩ := Option.bind_eq_some_iff.mp hw
        cases s with
        | zero => cases hw
        | succ s =>
          obtain ⟨d, hd⟩ := h.found.mp hw
          exact .writes hd ⟨n, v, hnode, hk, hs⟩
      | _ =>
        rw [hk] at hw
        cases hw
    · cases hk : n.kind with
      | read a c e =>
        rw [hk] at hw
        obtain ⟨d, hd⟩ := h.found.mp hw
        exact .unseen ⟨n, hnode, hk⟩ planned hd
      | _ =>
        rw [hk] at hw
        cases hw
  · intro ha
    cases ha with
    | writes hi hj =>
      obtain ⟨m, hm, rfl, ⟨v, hk⟩, hs⟩ := h.mem_nodes_of_isWrite hp hj
      have hpred := h.found.mpr ⟨_, hi⟩
      refine ⟨m, hm, ?_⟩
      simp [statements, hk, hs, WriteOrder.predecessor?, WriteOrder.lastBefore?, hpred]
    | seen hi hj planned =>
      obtain ⟨n, hn, hk⟩ := hj
      obtain ⟨hmem, rfl⟩ := h.mem_nodes_of_mem_order planned hn
      have hpred := h.found.mpr ⟨_, hi⟩
      refine ⟨n, hmem, ?_⟩
      simp [statements, hk, WriteOrder.predecessor?, WriteOrder.lastBefore?, hpred]
    | unseen hi planned hj =>
      obtain ⟨n, hn, hk⟩ := hi
      obtain ⟨hmem, rfl⟩ := h.mem_nodes_of_mem_order planned hn
      have hsucc := h.found.mpr ⟨_, hj⟩
      refine ⟨n, hmem, ?_⟩
      simp [statements, hk, WriteOrder.successor?, hsucc]

/-- A way along dashed edges. -/
abbrev DashedPath (ss : List Statement) : NodeId → NodeId → Prop :=
  Relation.TransGen fun i j => (i, j) ∈ edges true ss

/-- Statements that show a plan: its nodes and their operands as they are planned, and the order of
the reads and writes of an array. -/
structure Shows (b : Builder) (array : ArrayId) (p : Plan) (ss : List Statement) : Prop where
  once : (vertices ss).Nodup
  vertices_eq : vertices ss = p.order
  ends : ∀ {dashed i j}, (i, j) ∈ edges dashed ss →
    i ∈ vertices ss ∧ j ∈ vertices ss ∧ p.Precedes i j
  operands : edges false ss = (p.nodes b.graph).flatMap fun n => n.kind.operands.map (·, n.id)
  writes : ∀ {i j c c' s t}, b.graph.IsWrite i array c s → b.graph.IsWrite j array c' t →
    (DashedPath ss i j ↔ s < t)
  seen : ∀ {i j c c' s e}, b.graph.IsWrite i array c s → b.graph.IsRead j array c' e →
    j ∈ p.order → (DashedPath ss i j ↔ s < e)
  unseen : ∀ {i j c c' s e}, b.graph.IsRead i array c e → b.graph.IsWrite j array c' s →
    i ∈ p.order → (DashedPath ss i j ↔ e ≤ s)

end Diagram

theorem Plan.Precedes.planned {p : Plan} {i j : NodeId} (h : p.Precedes i j) :
    i ∈ p.order ∧ j ∈ p.order := by
  obtain ⟨k, l, hi, hj, _⟩ := h
  have hmem : ∀ {i k}, p.position? i = some k → i ∈ p.order := by
    intro i k hk
    rw [← List.isSome_idxOf?, ← position?, hk]
    rfl
  exact ⟨hmem hi, hmem hj⟩

open Diagram in
theorem Builder.Disciplined.shows {b : Builder} {p : Plan} (h : b.Disciplined) (hp : p.Faithful b)
    (array : ArrayId) :
    Shows b array p ((p.nodes b.graph).flatMap (statements (.ofLog b.log))) := by
  have hv := h.valid hp
  have hvertices : vertices ((p.nodes b.graph).flatMap (statements (.ofLog b.log))) = p.order := by
    rw [h.order_eq hp, vertices, List.filterMap_flatMap, List.map_eq_flatMap]
    exact List.flatMap_congr fun n _ => vertices_statements _ n
  have hoperands : edges false ((p.nodes b.graph).flatMap (statements (.ofLog b.log))) =
      (p.nodes b.graph).flatMap fun n => n.kind.operands.map (·, n.id) := by
    rw [edges, List.filterMap_flatMap]
    exact List.flatMap_congr fun n _ => solid_statements _ n
  have hprecedes : ∀ {dashed i j}, (i, j) ∈ edges dashed
      ((p.nodes b.graph).flatMap (statements (.ofLog b.log))) → p.Precedes i j := by
    intro dashed i j he
    cases dashed with
    | true => exact ((mem_dashed_iff h hp).mp (mem_edges.mp he)).precedes hv
    | false =>
      rw [hoperands, List.mem_flatMap] at he
      obtain ⟨n, hn, he⟩ := he
      obtain ⟨k, hk, he⟩ := List.mem_map.mp he
      cases he
      obtain ⟨hlist, planned⟩ := h.mem_nodes.mp hn
      exact hv.operands planned (h.mem_list.mp hlist) _ hk
  have hpath : DashedPath ((p.nodes b.graph).flatMap (statements (.ofLog b.log))) = Leads b p := by
    simp only [DashedPath, mem_edges, mem_dashed_iff h hp]
  refine ⟨?_, hvertices, ?_, hoperands, ?_, ?_, ?_⟩
  · rw [hvertices]
    exact hv.once
  · intro dashed i j he
    rw [hvertices]
    exact ⟨(hprecedes he).planned.1, (hprecedes he).planned.2, hprecedes he⟩
  · intro i j c c' s t hi hj
    rw [hpath]
    exact leads_writes_iff h hi hj
  · intro i j c c' s e hi hj planned
    rw [hpath]
    exact leads_seen_iff h hi hj planned
  · intro i j c c' s e hi hj planned
    rw [hpath]
    exact leads_unseen_iff h hi planned hj

open Text Diagram in
/-- Any roots of a staged builder can be planned, pruned or not. If the plan touches only one array,
and that has an identifier for a name, the plan's diagram reads back as statements that show the
plan. -/
theorem staged_diagram_shows {b : Builder} {array : ArrayId} {info : ArrayInfo} (h : Staged b)
    (hinfo : b.arrays[array]? = some info) (hident : isIdentifier info.name.toList = true)
    (roots : List NodeId) (hroots : ∀ i ∈ roots, i < b.graph.size) (prune : Bool) :
    ∃ p b', plan roots prune b = .ok p b' ∧
      ((∀ i ∈ p.order, ∀ n, b.graph.node? i = some n → ∀ a, n.kind.array? = some a → a = array) →
        ∃ source ss, Diagram.text b' array p = .ok source ∧ read? source.toList = some ss ∧
          Shows b array p ss) := by
  obtain ⟨p, b', hplan, rfl, hp, _⟩ := h.disciplined.plan_yields hroots prune
  refine ⟨p, _, hplan, ?_⟩
  intro htouched
  have hnodes : ∀ i ∈ p.order, ∃ n, b.graph.node? i = some n ∧
      ∀ a, n.kind.array? = some a → a = array := by
    intro i hi
    obtain ⟨n, hn⟩ := Graph.node?_of_lt (hp.exist i hi)
    exact ⟨n, hn, htouched i hi n hn⟩
  have hcounted : (b.countPlanned p.length).arrays[array]? = some info := hinfo
  obtain ⟨source, hsource, hread⟩ := read?_text hcounted hident hnodes
  exact ⟨source, _, hsource, hread, h.disciplined.shows hp array⟩

open Diagram in
/-- The sum is written before the copy, and nothing leads back. -/
theorem sumBuilder_diagram_shows : ∃ p b' source ss, plan [] true sumBuilder = .ok p b' ∧
    Diagram.text b' 0 p = .ok source ∧ read? source.toList = some ss ∧ Shows sumBuilder 0 p ss ∧
    DashedPath ss 3 5 ∧ ¬DashedPath ss 5 3 := by
  obtain ⟨p, b', hplan, hshows⟩ := staged_diagram_shows staged_sumBuilder
    (by decide : sumBuilder.arrays[0]? = some ⟨"data", 2⟩) (by decide) []
    (List.forall_mem_nil _) true
  have htouched : ∀ n ∈ sumBuilder.graph.list, n.kind.array?.all (· = 0) = true := by
    rw [list_sumBuilder]
    decide
  obtain ⟨source, ss, hsource, hread, hs⟩ := hshows <| by
    intro i _ n hn a ha
    have hall := htouched n (List.mem_of_getElem? (Graph.node?_eq _ i ▸ hn))
    simpa [ha] using hall
  have hnode : ∀ (i : Nat) n, sumBuilder.graph.list[i]? = some n →
      sumBuilder.graph.node? i = some n := fun i n hn => (Graph.node?_eq _ i).trans hn
  rw [list_sumBuilder] at hnode
  have hsum : sumBuilder.graph.IsWrite 3 0 0 0 := ⟨_, _, hnode 3 _ rfl, rfl, rfl⟩
  have hcopy : sumBuilder.graph.IsWrite 5 0 1 1 := ⟨_, _, hnode 5 _ rfl, rfl, rfl⟩
  exact ⟨p, b', source, ss, hplan, hsource, hread, hs, (hs.writes hsum hcopy).mpr (by decide),
    mt (hs.writes hcopy hsum).mp (by decide)⟩

end FlatFourier
