import FlatFourier.Proofs.Execution
import FlatFourier.Proofs.Search

namespace FlatFourier

open Build

namespace WriteOrder

theorem getD_insert (order : WriteOrder) (w : Write) (a : ArrayId) :
    ((order.insert w).writes.getD a #[]).toList =
      (order.writes.getD a #[]).toList ++ if w.array = a then [w.node] else [] := by
  simp only [insert, Std.TreeMap.getD_alter, Nat.compare_eq_eq]
  by_cases h : w.array = a
  · subst h
    simp [Std.TreeMap.getD_eq_getD_getElem?]
  · simp [h]

theorem getD_foldl (order : WriteOrder) (entries : List Write) (a : ArrayId) :
    ((entries.foldl insert order).writes.getD a #[]).toList =
      (order.writes.getD a #[]).toList ++ (entries.filter (·.array = a)).map (·.node) := by
  induction entries generalizing order with
  | nil => simp
  | cons w entries ih =>
    rw [List.foldl_cons, ih, getD_insert]
    by_cases h : w.array = a
    · simp [h]
    · simp [h]

theorem getD_ofLog (log : WriteLog) (a : ArrayId) :
    ((ofLog log).writes.getD a #[]).toList =
      (log.entries.toList.filter (·.array = a)).map (·.node) := by
  rw [ofLog, ← Array.foldl_toList, getD_foldl]
  simp

theorem mem_all {order : WriteOrder} {i : Nat} :
    i ∈ order.all ↔ ∃ a, i ∈ order.writes.getD a #[] := by
  simp only [all, List.mem_flatMap, Array.mem_toList_iff]
  constructor
  · intro h
    obtain ⟨⟨a, ids⟩, he, hi⟩ := h
    have ha := Std.TreeMap.mem_toList_iff_getElem?_eq_some.mp he
    exact ⟨a, by simpa [Std.TreeMap.getD_eq_getD_getElem?, ha] using hi⟩
  · intro h
    obtain ⟨a, hi⟩ := h
    rw [Std.TreeMap.getD_eq_getD_getElem?] at hi
    cases ha : order.writes[a]? with
    | none => simp [ha] at hi
    | some ids =>
      exact ⟨(a, ids), Std.TreeMap.mem_toList_iff_getElem?_eq_some.mpr ha, by simpa [ha] using hi⟩

theorem mem_all_ofLog {log : WriteLog} {i : Nat} :
    i ∈ (ofLog log).all ↔ ∃ w ∈ log.entries, w.node = i := by
  rw [mem_all]
  simp only [← Array.mem_toList_iff, getD_ofLog, List.mem_map, List.mem_filter, decide_eq_true_eq]
  constructor
  · intro h
    obtain ⟨_, w, ⟨hw, _⟩, hi⟩ := h
    exact ⟨w, hw, hi⟩
  · intro h
    obtain ⟨w, hw, hi⟩ := h
    exact ⟨w.array, w, ⟨hw, rfl⟩, hi⟩

end WriteOrder

/-- A chain of nodes is orderly, and ids are places. -/
theorem Chained.orderly {nodes : List Node} (h : Chained nodes) :
    Orderly nodes ∧ ∀ (i : Nat) n, nodes[i]? = some n → n.id = i := by
  induction h with
  | nil => exact ⟨.nil, nofun⟩
  | @snoc nodes n h hn ih =>
    obtain ⟨ho, hids⟩ := ih
    refine ⟨ho.snoc ⟨?_, ?_, hn.written, hn.epoch⟩, ?_⟩
    · intro m hm
      obtain ⟨i, hi⟩ := List.mem_iff_getElem?.mp hm
      have hlt := (List.getElem?_eq_some_iff.mp hi).1
      rw [hids i m hi, hn.id_eq]
      exact Nat.ne_of_lt hlt
    · intro i hi
      have hlt := hn.below i hi
      exact ⟨nodes[i], List.getElem_mem hlt, hids i _ (List.getElem?_eq_getElem hlt)⟩
    · intro i m hm
      rw [List.getElem?_append] at hm
      split at hm
      · exact hids i m hm
      · rename_i hge
        simp only [List.getElem?_singleton, Option.ite_none_right_eq_some, Option.some.injEq] at hm
        obtain ⟨hz, rfl⟩ := hm
        rw [hn.id_eq]
        exact Nat.le_antisymm (Nat.le_of_not_lt hge) (Nat.le_of_sub_eq_zero hz)

/-- What the log holds of an array are its writes among the nodes. -/
theorem filter_entries {nodes : List Node} (a : ArrayId)
    (h : ∀ n ∈ nodes, ∀ a c v, n.kind = .write a c v → n.seq.isSome) :
    ((nodes.filterMap Node.entry?).filter (·.array = a)).map (·.node) =
      (nodes.filter (·.writesTo a)).map (·.id) := by
  induction nodes with
  | nil => rfl
  | cons n nodes ih =>
    have ih := ih fun m hm => h m (by simp [hm])
    have hn := h n (by simp)
    cases hk : n.kind with
    | write a' c v =>
      obtain ⟨s, hs⟩ := Option.isSome_iff_exists.mp (hn a' c v hk)
      by_cases ha : a' = a
      · simp [Node.entry?, Node.writesTo, hk, hs, ha, ih]
      · simp [Node.entry?, Node.writesTo, hk, hs, ha, ih]
    | _ => simp [Node.entry?, Node.writesTo, hk, ih]

namespace Builder.Logged

variable {b : Builder} {i : Nat}

theorem writes_eq (h : b.Logged) (a : ArrayId) :
    ((WriteOrder.ofLog b.log).writes.getD a #[]).toList =
      (b.graph.list.filter (·.writesTo a)).map (·.id) := by
  rw [WriteOrder.getD_ofLog, h.entries]
  refine filter_entries a ?_
  intro n hn a c v hk
  obtain ⟨before, after, he⟩ := List.append_of_mem hn
  rw [h.numbered.at he a c v hk]
  rfl

theorem write?_iff (h : b.Logged) {j : Nat} :
    (WriteOrder.ofLog b.log).write? a k = some j ↔
      ∃ m ∈ b.graph.list, (∃ c v, m.kind = .write a c v) ∧ m.seq = some k ∧ m.id = j := by
  rw [WriteOrder.write?, ← Array.getElem?_toList, h.writes_eq, List.getElem?_map,
    Option.map_eq_some_iff]
  constructor
  · intro hj
    obtain ⟨m, hm, hj⟩ := hj
    have hlt : k < writesTo a b.graph.list := by
      rw [writesTo, List.countP_eq_length_filter]
      exact (List.getElem?_eq_some_iff.mp hm).1
    obtain ⟨n, hn, c, v, hk, hs⟩ := h.numbered.exists_write hlt
    have hat := h.numbered.write_at hn hk hs
    rw [hm] at hat
    cases hat
    exact ⟨m, hn, ⟨c, v, hk⟩, hs, hj⟩
  · intro hm
    obtain ⟨m, hm, ⟨c, v, hk⟩, hs, hj⟩ := hm
    exact ⟨m, h.numbered.write_at hm hk hs, hj⟩

theorem mem_all (h : b.Logged) :
    i ∈ (WriteOrder.ofLog b.log).all ↔
      ∃ m ∈ b.graph.list, (∃ a c v, m.kind = .write a c v) ∧ m.id = i := by
  rw [WriteOrder.mem_all]
  simp only [← Array.mem_toList_iff, h.writes_eq, List.mem_map, List.mem_filter]
  constructor
  · intro hi
    obtain ⟨a, m, ⟨hm, hw⟩, hi⟩ := hi
    refine ⟨m, hm, ?_, hi⟩
    cases hk : m.kind with
    | write a c v => exact ⟨a, c, v, rfl⟩
    | _ => simp [Node.writesTo, hk] at hw
  · intro hm
    obtain ⟨m, hm, ⟨a, c, v, hk⟩, hi⟩ := hm
    exact ⟨a, m, ⟨hm, by simp [Node.writesTo, hk]⟩, hi⟩

end Builder.Logged

namespace Builder.Disciplined

variable {b : Builder} {n : Node} {i : Nat}

theorem orderly (h : b.Disciplined) : Orderly b.graph.list :=
  (Chained.orderly h.chained).1

theorem mem_list (h : b.Disciplined) : n ∈ b.graph.list ↔ b.graph.node? n.id = some n :=
  h.consistent.mem_list

theorem id_eq (h : b.Disciplined) (hn : b.graph.node? i = some n) : n.id = i :=
  h.consistent.ids i n hn

theorem mem_take (h : b.Disciplined) : n ∈ b.graph.list.take i ↔ n ∈ b.graph.list ∧ n.id < i := by
  rw [List.mem_iff_getElem?, h.mem_list, Graph.node?_eq]
  simp only [List.getElem?_take, Option.ite_none_right_eq_some]
  constructor
  · intro hj
    obtain ⟨j, hlt, hj⟩ := hj
    have hid := (Chained.orderly h.chained).2 j n hj
    subst hid
    exact ⟨hj, hlt⟩
  · intro hn
    exact ⟨n.id, hn.2, hn.1⟩

theorem orderly_take (h : b.Disciplined) (i : Nat) : Orderly (b.graph.list.take i) := by
  have ho := h.orderly
  rw [← List.take_append_drop i b.graph.list] at ho
  exact ho.left

/-- A write stands before a place if its number is below the count of the array's writes there. -/
theorem write_before (h : b.Disciplined) {m : Node} (hm : m ∈ b.graph.list)
    (hk : m.kind = .write a c v) (hs : m.seq = some k) :
    m.id < i ↔ k < writesTo a (b.graph.list.take i) := by
  have hsplit := List.take_append_drop i b.graph.list
  rw [← Numbered.mem_left_iff (hsplit.symm ▸ h.orderly.numbered) (hsplit.symm ▸ hm) hk hs,
    h.mem_take]
  exact (and_iff_right hm).symm

end Builder.Disciplined

namespace Plan

/-- The nodes of a plan in its order. -/
def nodes (p : Plan) (g : Graph) : List Node :=
  p.order.filterMap g.node?

/-- Nodes that exist are found at their ids. -/
theorem map_id_nodes {g : Graph} (h : g.Consistent) {p : Plan} (hp : ∀ i ∈ p.order, i < g.size) :
    (p.nodes g).map (·.id) = p.order := by
  unfold nodes
  generalize p.order = order at hp ⊢
  induction order with
  | nil => rfl
  | cons i order ih =>
    obtain ⟨n, hn⟩ := Graph.node?_of_lt (hp i (by simp))
    rw [List.filterMap_cons, hn, List.map_cons, h.ids i n hn, ih fun j hj => hp j (by simp [hj])]

/-- Whether a marked node is entered as a reader of a write. -/
def Reads (writes : WriteOrder) (marks : Array Bool) (w i : Nat) (n : Node) : Prop :=
  n.id = i ∧ marks.getD i false = true ∧ writes.successor? n.kind = some w

/-- Enters a node at the write that waits for it, if it is marked and there is one. -/
def enterReader (writes : WriteOrder) (marks : Array Bool)
    (table : Std.HashMap NodeId (Array NodeId)) (n : Node) : Std.HashMap NodeId (Array NodeId) :=
  if marks.getD n.id false then
    match writes.successor? n.kind with
    | some write => table.alter write fun ids => some ((ids.getD #[]).push n.id)
    | none => table
  else table

theorem mem_enterReader {writes : WriteOrder} {marks : Array Bool} {w i : Nat} {n : Node}
    {table : Std.HashMap NodeId (Array NodeId)} :
    i ∈ (enterReader writes marks table n).getD w #[] ↔
      i ∈ table.getD w #[] ∨ Reads writes marks w i n := by
  unfold enterReader
  by_cases hm : marks.getD n.id false = true
  · rw [if_pos hm]
    cases hs : writes.successor? n.kind with
    | none => simp [Reads, hs]
    | some w' =>
      by_cases hw : w' = w
      · subst hw
        simp only [Std.HashMap.getD_alter_self, Option.getD_some, Array.mem_push,
          ← Std.HashMap.getD_eq_getD_getElem?]
        refine or_congr_right ⟨?_, fun hr => hr.1.symm⟩
        intro he
        subst he
        exact ⟨rfl, hm, hs⟩
      · simp [Std.HashMap.getD_alter, hw, Reads, hs]
  · rw [if_neg hm]
    have hnot : ¬Reads writes marks w i n := by
      intro hr
      obtain ⟨rfl, hr, _⟩ := hr
      exact hm hr
    simp [hnot]

theorem mem_readers {g : Graph} {writes : WriteOrder} {marks : Array Bool} {w i : Nat} :
    i ∈ (readers g writes marks).getD w #[] ↔ ∃ n ∈ g.list, Reads writes marks w i n := by
  have main : ∀ (ns : List Node) (table : Std.HashMap NodeId (Array NodeId)),
      i ∈ (ns.foldl (enterReader writes marks) table).getD w #[] ↔
        i ∈ table.getD w #[] ∨ ∃ n ∈ ns, Reads writes marks w i n := by
    intro ns
    induction ns with
    | nil => simp
    | cons n ns ih =>
      intro table
      rw [List.foldl_cons, ih, mem_enterReader]
      simp only [List.mem_cons, exists_eq_or_imp, or_assoc]
  rw [readers, ← Array.foldl_toList]
  exact (main g.nodes.toList ∅).trans (by simp [Graph.list])

/-- Where both searches of a pruned plan start. -/
def starts (b : Builder) (roots : List NodeId) : List NodeId :=
  roots ++ (WriteOrder.ofLog b.log).all

/-- What has to be placed before a node: what it depends on, and the reads that it overwrites. -/
def obligations (b : Builder) (marks : Array Bool) (id : NodeId) : List NodeId :=
  dependencies b.graph (WriteOrder.ofLog b.log) id ++
    ((readers b.graph (WriteOrder.ofLog b.log) marks).getD id #[]).toList

variable {b : Builder} {roots : List NodeId} {marks : Array Bool}

/-- The nodes that a pruned plan is about. -/
abbrev Kept (b : Builder) (roots : List NodeId) : Nat → Prop :=
  Reaches (dependencies b.graph (WriteOrder.ofLog b.log)) (starts b roots)

/-- The second search goes no further than the first, since only reads that have been found are
entered as readers. -/
theorem reaches_obligations (hm : ∀ i : Nat, marks.getD i false = true ↔ Kept b roots i) {i : Nat} :
    Reaches (obligations b marks) (starts b roots) i ↔ Kept b roots i := by
  constructor
  · intro hi
    induction hi with
    | start h => exact .start h
    | need _ hj ih =>
      rcases List.mem_append.mp hj with hj | hj
      · exact ih.need hj
      · obtain ⟨n, _, _, hmark, _⟩ := mem_readers.mp (Array.mem_toList_iff.mp hj)
        exact (hm _).mp hmark
  · intro hi
    induction hi with
    | start h => exact .start h
    | need _ hj ih => exact ih.need (List.mem_append_left _ hj)

/-- A pruned plan lists the nodes that it is about once each, and behind their obligations where
these are smaller. There is one unless it would be about a node that does not exist. -/
theorem pruned_cases (b : Builder) (roots : List NodeId) :
    (∃ marks p, (∀ i : Nat, marks.getD i false = true ↔ Kept b roots i) ∧
      (∀ i, Kept b roots i → i < b.graph.size) ∧ pruned b roots = .ok p ∧ p.order.Nodup ∧
      (∀ i : Nat, i ∈ p.order ↔ Kept b roots i) ∧
      ((∀ i, Kept b roots i → ∀ j : Nat, j ∈ obligations b marks i → j < i) →
        Sequenced (obligations b marks) p.order)) ∨
    ∃ i, Kept b roots i ∧ b.graph.size ≤ i ∧
      pruned b roots = .error (.unplannableNode i b.graph.size) := by
  have hreverse : ∀ i, Reaches (dependencies b.graph (WriteOrder.ofLog b.log))
      (starts b roots).reverse i ↔ Kept b roots i :=
    fun i => ⟨(·.mono fun _ => List.mem_reverse.mp), (·.mono fun _ => List.mem_reverse.mpr)⟩
  rcases reach_unmarked (dependencies b.graph (WriteOrder.ofLog b.log)) b.graph.size
    (starts b roots).reverse with ⟨marks, hr, hsize, hm⟩ | ⟨i, hi, hge, hr⟩
  · have hkept : ∀ i : Nat, marks.getD i false = true ↔ Kept b roots i :=
      fun i => (hm i).trans (hreverse i)
    have hbound : ∀ i, Kept b roots i → i < b.graph.size :=
      fun i hi => hsize ▸ lt_of_getD ((hkept i).mpr hi)
    have hreach : ∀ i, Reaches (obligations b marks) (starts b roots) i ↔ Kept b roots i :=
      fun i => reaches_obligations hkept
    have hexist : ∀ i, Reaches (obligations b marks) (starts b roots) i → i < b.graph.size :=
      fun i hi => hbound i ((hreach i).mp hi)
    obtain ⟨hnodup, hmem⟩ := place_reaches hexist
    refine .inl ⟨marks, ⟨_⟩, hkept, hbound, ?_, hnodup, ?_, ?_⟩
    · rw [starts] at hr
      rw [pruned, hr]
      rfl
    · intro i
      rw [Array.mem_toList_iff, hmem, hreach]
    · intro hsmaller
      exact sequenced_reaches hexist fun i hi => hsmaller i ((hreach i).mp hi)
  · refine .inr ⟨i, (hreverse i).mp hi, hge, ?_⟩
    rw [starts] at hr
    rw [pruned, hr]
    rfl

end Plan

namespace Builder.Disciplined

variable {b : Builder} {n : Node} {i j : Nat}

/-- The write that has to come before a node was made before it. -/
theorem predecessor_lt (h : b.Disciplined) (hn : b.graph.node? i = some n)
    (hp : (WriteOrder.ofLog b.log).predecessor? n.kind n.seq = some j) : j < i := by
  have hf := h.follows hn
  have last : ∀ a k, k = writesTo a (b.graph.list.take i) →
      (WriteOrder.ofLog b.log).lastBefore? a k = some j → j < i := by
    intro a k hk hl
    cases k with
    | zero => cases hl
    | succ k =>
      obtain ⟨m, hm, ⟨c, v, hw⟩, hs, rfl⟩ := h.logged.write?_iff.mp hl
      exact (h.write_before hm hw hs).mpr (by omega)
  cases hk : n.kind with
  | read a c e =>
    rw [hk] at hp
    exact last a e (hf.epoch a c e hk) hp
  | write a c v =>
    rw [hk, hf.written a c v hk] at hp
    exact last a _ rfl hp
  | _ =>
    rw [hk] at hp
    cases hp

/-- The write that has to come after a read was made after it. -/
theorem lt_successor (h : b.Disciplined) (hn : b.graph.node? i = some n)
    (hs : (WriteOrder.ofLog b.log).successor? n.kind = some j) : i < j := by
  cases hk : n.kind with
  | read a c e =>
    rw [hk] at hs
    obtain ⟨m, hm, ⟨c', v', hw⟩, hseq, rfl⟩ := h.logged.write?_iff.mp hs
    have hnot := mt (h.write_before hm hw hseq).mp
      (Nat.not_lt.mpr (Nat.le_of_eq ((h.follows hn).epoch a c e hk).symm))
    have hne : m.id ≠ i := by
      intro he
      have hm := h.mem_list.mp hm
      rw [he, hn] at hm
      cases hm
      rw [hk] at hw
      cases hw
    exact Nat.lt_of_le_of_ne (Nat.le_of_not_lt hnot) hne.symm
  | _ =>
    rw [hk] at hs
    cases hs

theorem mem_nodes (h : b.Disciplined) {p : Plan} :
    n ∈ p.nodes b.graph ↔ n ∈ b.graph.list ∧ n.id ∈ p.order := by
  rw [h.mem_list, Plan.nodes, List.mem_filterMap]
  constructor
  · intro hn
    obtain ⟨i, hi, hn⟩ := hn
    have hid := h.id_eq hn
    subst hid
    exact ⟨hn, hi⟩
  · intro hn
    exact ⟨n.id, hn.2, hn.1⟩

theorem mem_nodes_of_mem_order (h : b.Disciplined) {p : Plan} {i : Nat} (hi : i ∈ p.order)
    (hn : b.graph.node? i = some n) : n ∈ p.nodes b.graph ∧ n.id = i := by
  obtain rfl := h.id_eq hn
  exact ⟨h.mem_nodes.mpr ⟨h.mem_list.mpr hn, hi⟩, rfl⟩

/-- Where an array's write number `k` is missing, though the write before it is there, the array
has been written `k` times. -/
theorem eq_writesTo (h : b.Disciplined) {nodes : List Node} (ho : Orderly nodes)
    (hk : k = writesTo a (b.graph.list.take i))
    (hlast : ∀ m ∈ b.graph.list, (WriteOrder.ofLog b.log).lastBefore? a k = some m.id → m ∈ nodes)
    (hnext : ∀ m ∈ nodes, ∀ c v, m.kind = .write a c v → m.seq ≠ some k) :
    k = writesTo a nodes := by
  rcases Nat.lt_trichotomy k (writesTo a nodes) with hlt | heq | hgt
  · obtain ⟨m, hm, c, v, hw, hs⟩ := ho.numbered.exists_write hlt
    exact absurd hs (hnext m hm c v hw)
  · exact heq
  · cases k with
    | zero => cases hgt
    | succ k =>
      have hlt : k < writesTo a (b.graph.list.take i) := by omega
      obtain ⟨m, hm, c, v, hw, hs⟩ := (h.orderly_take i).numbered.exists_write hlt
      have hm := (h.mem_take.mp hm).1
      have hin := hlast m hm (h.logged.write?_iff.mpr ⟨m, hm, ⟨c, v, hw⟩, hs, rfl⟩)
      have := ho.numbered.lt_writesTo hin hw hs
      omega

/-- Nodes that come behind all they depend on, and reads that come before the writes they must not
see, are orderly. -/
theorem orderly_of_sequenced (h : b.Disciplined) {needs : NodeId → List NodeId}
    {order : List NodeId} (hs : Plan.Sequenced needs order)
    (hex : ∀ i : Nat, i ∈ order → i < b.graph.size)
    (hdeps : ∀ i : Nat, i ∈ order →
      ∀ j ∈ Plan.dependencies b.graph (WriteOrder.ofLog b.log) i, j ∈ needs i)
    (hreads : ∀ i : Nat, i ∈ order → ∀ n, b.graph.node? i = some n →
      ∀ w, (WriteOrder.ofLog b.log).successor? n.kind = some w → i ∈ needs w) :
    Orderly (Plan.nodes ⟨order⟩ b.graph) := by
  induction hs with
  | nil => exact .nil
  | @snoc order i hs hi ih =>
    have ho := ih (fun j hj => hex j (by simp [hj])) (fun j hj => hdeps j (by simp [hj]))
      (fun j hj => hreads j (by simp [hj]))
    obtain ⟨hnew, hneeds⟩ := hi
    obtain ⟨n, hn⟩ := Graph.node?_of_lt (hex i (by simp))
    have hid := h.id_eq hn
    have he : Plan.nodes ⟨order ++ [i]⟩ b.graph = Plan.nodes ⟨order⟩ b.graph ++ [n] := by
      simp [Plan.nodes, hn]
    have dep : ∀ m ∈ b.graph.list, m.id ∈ Plan.dependencies b.graph (WriteOrder.ofLog b.log) i →
        m ∈ Plan.nodes ⟨order⟩ b.graph := by
      intro m hm hj
      exact h.mem_nodes.mpr ⟨hm, hneeds _ (hdeps i (by simp) _ hj)⟩
    have pred : ∀ m ∈ b.graph.list,
        (WriteOrder.ofLog b.log).predecessor? n.kind n.seq = some m.id →
        m ∈ Plan.nodes ⟨order⟩ b.graph := by
      intro m hm hp
      exact dep m hm (by simp [Plan.dependencies, hn, hp])
    rw [he]
    refine ho.snoc ⟨?_, ?_, ?_, ?_⟩
    · intro m hm hmid
      exact hnew (hid ▸ hmid ▸ (h.mem_nodes.mp hm).2)
    · intro j hj
      obtain ⟨m, hm⟩ := Graph.node?_of_lt (Nat.lt_trans (h.ordered i n hn j hj) (hex i (by simp)))
      have hmid := h.id_eq hm
      subst hmid
      exact ⟨m, dep m (h.mem_list.mpr hm) (by simp [Plan.dependencies, hn, hj]), rfl⟩
    · intro a c v hk
      have hseq := (h.follows hn).written a c v hk
      rw [hseq, Option.some.injEq]
      refine h.eq_writesTo ho rfl ?_ ?_
      · intro m hm hl
        exact pred m hm (by simpa [WriteOrder.predecessor?, hk, hseq] using hl)
      · intro m hm c' v' hw hms
        have hm := h.mem_nodes.mp hm
        have hnl : n ∈ b.graph.list := h.mem_list.mpr (hid ▸ hn)
        have hmn := h.orderly.numbered.write_unique hm.1 hnl hw hk hms hseq
        exact hnew (hid ▸ hmn ▸ hm.2)
    · intro a c e hk
      have hep := (h.follows hn).epoch a c e hk
      refine h.eq_writesTo ho hep ?_ ?_
      · intro m hm hl
        exact pred m hm (by simpa [WriteOrder.predecessor?, hk] using hl)
      · intro m hm c' v' hw hms
        have hm := h.mem_nodes.mp hm
        have hsucc : (WriteOrder.ofLog b.log).successor? n.kind = some m.id := by
          rw [hk]
          exact h.logged.write?_iff.mpr ⟨m, hm.1, ⟨c', v', hw⟩, hms, rfl⟩
        -- the read is needed by a write that has been placed, so it has been placed as well
        obtain ⟨before, after, rfl⟩ := List.append_of_mem (show m.id ∈ order from hm.2)
        have hin := (hs.at rfl).2 i (hreads i (by simp) n hn m.id hsucc)
        exact hnew (List.mem_append_left _ hin)

end Builder.Disciplined

/-- A plan that lists existing nodes in an orderly way and holds all writes. -/
structure Plan.Faithful (b : Builder) (p : Plan) : Prop where
  exist : ∀ i : Nat, i ∈ p.order → i < b.graph.size
  orderly : Orderly (p.nodes b.graph)
  writes : ∀ a, writesTo a (p.nodes b.graph) = writesTo a b.graph.list

theorem Plan.order_complete (b : Builder) : (complete b).order = b.graph.list.map (·.id) := by
  simp [complete, Graph.list]

namespace Builder.Disciplined

variable {b : Builder} {roots : List NodeId}

/-- A plan that holds all writes of the builder counts as many of them. -/
theorem writesTo_nodes (h : b.Disciplined) {p : Plan} (ho : Orderly (p.nodes b.graph))
    (hw : ∀ m ∈ b.graph.list, (∃ a c v, m.kind = .write a c v) → m.id ∈ p.order) (a : ArrayId) :
    writesTo a (p.nodes b.graph) = writesTo a b.graph.list := by
  rcases Nat.lt_trichotomy (writesTo a (p.nodes b.graph)) (writesTo a b.graph.list) with
    hlt | heq | hgt
  · obtain ⟨m, hm, c, v, hk, hs⟩ := h.orderly.numbered.exists_write hlt
    have hin := h.mem_nodes.mpr ⟨hm, hw m hm ⟨a, c, v, hk⟩⟩
    exact absurd (ho.numbered.lt_writesTo hin hk hs) (Nat.lt_irrefl _)
  · exact heq
  · obtain ⟨m, hm, c, v, hk, hs⟩ := ho.numbered.exists_write hgt
    exact absurd (h.orderly.numbered.lt_writesTo (h.mem_nodes.mp hm).1 hk hs) (Nat.lt_irrefl _)

theorem nodes_complete (h : b.Disciplined) : (Plan.complete b).nodes b.graph = b.graph.list := by
  have main : ∀ ns : List Node, (∀ n ∈ ns, n ∈ b.graph.list) →
      (ns.map (·.id)).filterMap b.graph.node? = ns := by
    intro ns hns
    induction ns with
    | nil => rfl
    | cons n ns ih =>
      have hn := h.mem_list.mp (hns n (by simp))
      simp only [List.map_cons, List.filterMap_cons, hn]
      rw [ih fun m hm => hns m (by simp [hm])]
  rw [Plan.nodes, Plan.order_complete]
  exact main _ fun _ hn => hn

theorem mem_complete (h : b.Disciplined) {i : Nat} :
    i ∈ (Plan.complete b).order ↔ i < b.graph.size := by
  rw [Plan.order_complete, List.mem_map]
  constructor
  · intro hi
    obtain ⟨n, hn, rfl⟩ := hi
    exact Graph.lt_of_node? (h.mem_list.mp hn)
  · intro hi
    obtain ⟨n, hn⟩ := Graph.node?_of_lt hi
    have hid := h.id_eq hn
    subst hid
    exact ⟨n, h.mem_list.mpr hn, rfl⟩

theorem complete_faithful (h : b.Disciplined) : (Plan.complete b).Faithful b where
  exist _ hi := h.mem_complete.mp hi
  orderly := h.nodes_complete ▸ h.orderly
  writes a := by rw [h.nodes_complete]

/-- What a node depends on was made before it. -/
theorem dependencies_lt (h : b.Disciplined) {i j : Nat}
    (hj : j ∈ Plan.dependencies b.graph (WriteOrder.ofLog b.log) i) : j < i := by
  unfold Plan.dependencies at hj
  cases hn : b.graph.node? i with
  | none => simp [hn] at hj
  | some n =>
    simp only [hn, List.mem_append, Option.mem_toList] at hj
    rcases hj with hj | hj
    · exact h.ordered i n hn j hj
    · exact h.predecessor_lt hn hj

/-- The nodes of a pruned plan exist, if its roots do. -/
theorem lt_of_kept (h : b.Disciplined) (hr : ∀ i : Nat, i ∈ roots → i < b.graph.size) {i : Nat}
    (hi : Plan.Kept b roots i) : i < b.graph.size := by
  induction hi with
  | start hi =>
    rcases List.mem_append.mp hi with hi | hi
    · exact hr _ hi
    · obtain ⟨m, hm, _, rfl⟩ := h.logged.mem_all.mp hi
      exact Graph.lt_of_node? (h.mem_list.mp hm)
  | need _ hj ih => exact Nat.lt_trans (h.dependencies_lt hj) ih

/-- Pruning succeeds for roots that exist, and keeps them. -/
theorem pruned_faithful (h : b.Disciplined) (hr : ∀ i : Nat, i ∈ roots → i < b.graph.size) :
    ∃ p, Plan.pruned b roots = .ok p ∧ p.Faithful b ∧ ∀ i : Nat, i ∈ roots → i ∈ p.order := by
  rcases Plan.pruned_cases b roots with ⟨marks, p, hm, hb, hp, _, hmem, hseq⟩ | ⟨i, hi, hge, _⟩
  · have hexist : ∀ i : Nat, i ∈ p.order → i < b.graph.size :=
      fun i hi => hb i ((hmem i).mp hi)
    have hsmaller : ∀ i, Plan.Kept b roots i →
        ∀ j : Nat, j ∈ Plan.obligations b marks i → j < i := by
      intro i _ j hj
      rcases List.mem_append.mp hj with hj | hj
      · exact h.dependencies_lt hj
      · obtain ⟨n, hn, rfl, _, hs⟩ := Plan.mem_readers.mp (Array.mem_toList_iff.mp hj)
        exact h.lt_successor (h.mem_list.mp hn) hs
    have hreads : ∀ i : Nat, i ∈ p.order → ∀ n, b.graph.node? i = some n →
        ∀ w, (WriteOrder.ofLog b.log).successor? n.kind = some w → i ∈ Plan.obligations b marks w := by
      intro i hi n hn w hs
      have hmark := (hm i).mpr ((hmem i).mp hi)
      refine List.mem_append_right _ (Array.mem_toList_iff.mpr (Plan.mem_readers.mpr ?_))
      obtain rfl := h.id_eq hn
      exact ⟨n, h.mem_list.mpr hn, rfl, hmark, hs⟩
    have ho : Orderly (p.nodes b.graph) :=
      h.orderly_of_sequenced (hseq hsmaller) hexist (fun _ _ _ => List.mem_append_left _) hreads
    refine ⟨p, hp, ⟨hexist, ho, h.writesTo_nodes ho ?_⟩, ?_⟩
    · intro m hm hw
      have hall := h.logged.mem_all.mpr ⟨m, hm, hw, rfl⟩
      exact (hmem m.id).mpr (.start (List.mem_append_right _ hall))
    · intro i hi
      exact (hmem i).mpr (.start (List.mem_append_left _ hi))
  · exact absurd (h.lt_of_kept hr hi) (Nat.not_lt.mpr hge)

/-- A plan for roots that exist can always be made. It changes nothing but a count. -/
theorem plan_yields (h : b.Disciplined) (hr : ∀ i : Nat, i ∈ roots → i < b.graph.size)
    (prune : Bool) :
    Yields (plan roots prune) b fun p b' =>
      b' = b.countPlanned p.length ∧ p.Faithful b ∧ ∀ i : Nat, i ∈ roots → i ∈ p.order := by
  have made : ∃ p, (if prune then Plan.pruned b roots else .ok (Plan.complete b)) = .ok p ∧
      p.Faithful b ∧ ∀ i : Nat, i ∈ roots → i ∈ p.order := by
    cases prune with
    | true => exact h.pruned_faithful hr
    | false =>
      exact ⟨_, rfl, h.complete_faithful, fun i hi => h.mem_complete.mpr (hr i hi)⟩
  obtain ⟨p, hp, hf, hroots⟩ := made
  exact yields_of_run (run_bind (ask_run hp)) ⟨rfl, hf, hroots⟩

end Builder.Disciplined

end FlatFourier
