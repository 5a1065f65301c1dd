import FlatFourier.Proofs.Meaning

namespace FlatFourier

open Text Listing Assembly

/-- Either each element may stand where it does, or there is a first that may not. -/
theorem Successive.or_first (may : List α → α → Prop) (xs : List α) : Successive may xs ∨
    ∃ before x after, xs = before ++ x :: after ∧ Successive may before ∧ ¬may before x := by
  induction xs using List.reverseRecOn with
  | nil => exact .inl .nil
  | append_singleton xs x ih =>
    rcases ih with h | ⟨before, y, after, rfl, h, hy⟩
    · by_cases hx : may xs x
      · exact .inl (h.snoc hx)
      · exact .inr ⟨xs, x, [], rfl, h, hx⟩
    · exact .inr ⟨before, y, after ++ [x], by simp, h, hy⟩

theorem Successive.of_splits {may : List α → α → Prop} {xs : List α}
    (h : ∀ before x after, xs = before ++ x :: after → may before x) : Successive may xs := by
  rcases Successive.or_first may xs with hs | ⟨before, x, after, he, _, hx⟩
  · exact hs
  · exact absurd (h before x after he) hx

theorem Successive.forall_mem {good : α → Prop} {xs : List α}
    (h : Successive (fun _ x => good x) xs) : ∀ x ∈ xs, good x := by
  intro x hx
  obtain ⟨before, after, rfl⟩ := List.append_of_mem hx
  exact h.at rfl

/-- Where the listed nodes have been computed, a node can be used if it is a constant, or one of
them and no write. -/
def Graph.Usable (g : Graph) (listed : List NodeId) (i : NodeId) : Prop :=
  (∃ x, g.constant? i = some x) ∨ i ∈ listed ∧ ∃ n, g.node? i = some n ∧ n.kind.isPure = true

instance (g : Graph) (listed : List NodeId) (i : NodeId) : Decidable (g.Usable listed i) :=
  decidable_of_iff ((g.constant? i).isSome = true ∨
      i ∈ listed ∧ ∃ n ∈ g.node? i, n.kind.isPure = true)
    (or_congr Option.isSome_iff_exists Iff.rfl)

/-- A node whose operands can be used where the listed nodes have been computed. -/
def Graph.Computable (g : Graph) (listed : List NodeId) (k : NodeId) : Prop :=
  ∀ n, g.node? k = some n → ∀ i ∈ n.kind.operands, g.Usable listed i

instance (g : Graph) (listed : List NodeId) (k : NodeId) : Decidable (g.Computable listed k) :=
  inferInstanceAs (Decidable (∀ n ∈ g.node? k, ∀ i ∈ n.kind.operands, g.Usable listed i))

/-- How many of the nodes have a line of their own. -/
def Graph.lineCount (g : Graph) (ids : List NodeId) : Nat :=
  ids.countP fun i => (g.constant? i).isNone

/-- How many lines come before those of the nodes. -/
def Binding.opening : Binding → Nat
  | inPlace => 5
  | results _ => 6

namespace Plan

/-- A plan that can be put into a text: it lists nodes once, which exist with their operands, touch
only the bound array and have small indices. -/
structure Listable (b : Builder) (array : ArrayId) (binding : Binding) (p : Plan) : Prop where
  nodup : p.order.Nodup
  exist : ∀ k ∈ p.order, k < b.graph.size
  touched : ∀ k ∈ p.order, ∀ n, b.graph.node? k = some n →
    ∀ a, n.kind.array? = some a → a = array
  cells : ∀ k ∈ p.order, ∀ n, b.graph.node? k = some n →
    ∀ c, n.kind.cell? = some c → c < countBound
  operands : ∀ k ∈ p.order, ∀ n, b.graph.node? k = some n →
    ∀ i ∈ n.kind.operands, i < b.graph.size
  slots : ∀ slots, binding = .results slots →
    slots.length < countBound ∧ ∀ i ∈ slots, i < b.graph.size

/-- Every value can be used where the text of the plan uses it. -/
structure Readable (g : Graph) (binding : Binding) (p : Plan) : Prop where
  operands : Successive g.Computable p.order
  slots : ∀ slots, binding = .results slots → ∀ i ∈ slots, g.Usable p.order i

/-- The line and the node of the first use of a value that cannot be used there. The operands of a
node are used from left to right, and the slots behind all nodes. -/
inductive FirstUnbound (g : Graph) (binding : Binding) (p : Plan) : Nat → NodeId → Prop where
  | operand {before after done rest : List NodeId} {k i : NodeId} {n : Node}
    (order : p.order = before ++ k :: after) (earlier : Successive g.Computable before)
    (node : g.node? k = some n) (uses : n.kind.operands = done ++ i :: rest)
    (usable : ∀ j ∈ done, g.Usable before j) (unbound : ¬g.Usable before i) :
    FirstUnbound g binding p (binding.opening + g.lineCount before + 1) i
  | slot {done rest : List NodeId} {i : NodeId} (earlier : Successive g.Computable p.order)
    (slots : binding = .results (done ++ i :: rest)) (usable : ∀ j ∈ done, g.Usable p.order j)
    (unbound : ¬g.Usable p.order i) :
    FirstUnbound g binding p (binding.opening + g.lineCount p.order + done.length + 1) i

end Plan

variable {g : Graph} {nodes : List Node} {n : Node} {info : ArrayInfo} {binding : Binding}

/-- Among nodes of a graph, those that can be used are the constants and the named ones. -/
theorem Graph.usable_iff (h : ∀ n ∈ nodes, g.node? n.id = some n) (i : NodeId) :
    g.Usable (nodes.map (·.id)) i ↔ (g.constant? i = none → i ∈ names nodes) := by
  constructor
  · rintro (⟨x, hx⟩ | ⟨hm, n, hn, hpure⟩) hnone
    · rw [hx] at hnone
      cases hnone
    · obtain ⟨m, hmem, rfl⟩ := List.mem_map.mp hm
      obtain rfl := Option.some.inj ((h m hmem).symm.trans hn)
      rw [Graph.constant?, hn] at hnone
      have hconst : m.kind.constant? = none := hnone
      exact mem_names.mpr ⟨m, hmem, by simp [isNamed, hpure, hconst], rfl⟩
  · intro himp
    cases hx : g.constant? i with
    | some x => exact .inl ⟨x, hx⟩
    | none =>
      obtain ⟨m, hm, hnamed, rfl⟩ := mem_names.mp (himp hx)
      simp only [isNamed, Bool.and_eq_true] at hnamed
      exact .inr ⟨List.mem_map_of_mem hm, m, h m hm, hnamed.1⟩

theorem Graph.not_usable_iff (h : ∀ n ∈ nodes, g.node? n.id = some n) (i : NodeId) :
    ¬g.Usable (nodes.map (·.id)) i ↔ g.constant? i = none ∧ i ∉ names nodes := by
  rw [Graph.usable_iff h, Classical.not_imp]

namespace Listing

theorem length_line (g : Graph) (array : Text) (n : Node) :
    (line g array n).length = if n.kind.constant?.isNone then 1 else 0 := by
  cases hk : n.kind <;> simp [line, hk, Kind.constant?]

theorem length_lines (h : ∀ n ∈ nodes, g.node? n.id = some n) (array : Text) :
    (nodes.flatMap (line g array)).length = g.lineCount (nodes.map (·.id)) := by
  induction nodes with
  | nil => rfl
  | cons n nodes ih =>
    have hn : g.constant? n.id = n.kind.constant? := by
      rw [Graph.constant?, h n (by simp)]
      rfl
    rw [List.flatMap_cons, List.length_append, ih fun m hm => h m (by simp [hm]), length_line]
    simp [Graph.lineCount, List.countP_cons, hn, Nat.add_comm]

theorem length_storeLines (g : Graph) (slot : Nat) (slots : List NodeId) :
    (storeLines g slot slots).length = slots.length := by
  induction slots generalizing slot with
  | nil => rfl
  | cons i slots ih => simp [storeLines, ih]

theorem storeLines_append (g : Graph) (slot : Nat) (slots rest : List NodeId) :
    storeLines g slot (slots ++ rest) =
      storeLines g slot slots ++ storeLines g (slot + slots.length) rest := by
  induction slots generalizing slot with
  | nil => rfl
  | cons i slots ih => simp [storeLines, ih, Nat.add_assoc, Nat.add_comm 1]

end Listing

namespace Program

open Reader

theorem length_openingLines (h : ∀ n ∈ nodes, g.node? n.id = some n) (info : ArrayInfo)
    (count : Nat) (binding : Binding) : (openingLines g info count nodes binding).length =
      binding.opening + g.lineCount (nodes.map (·.id)) := by
  rw [openingLines, List.length_append, List.length_map, length_lines h]
  cases binding <;> rfl

/-- A kernel is refused at the line of a node for the first of its operands without a name. -/
theorem parse_operand_refused {before after : List Node} (h : Printed g before)
    (hcell : ∀ m ∈ before ++ n :: after, ∀ c, m.kind.cell? = some c → c < countBound)
    (hident : isIdentifier info.name.toList = true) (hlen : info.length < countBound) (count : Nat)
    (binding : Binding) (hslots : ∀ slots, binding = .results slots → slots.length < countBound)
    (hfresh : ∀ m ∈ before, m.id ≠ n.id) {done rest : List NodeId} {i : NodeId}
    (huse : n.kind.operands = done ++ i :: rest)
    (hdone : ∀ j ∈ done, g.constant? j = none → j ∈ names before) (hx : g.constant? i = none)
    (hi : i ∉ names before) :
    parse ((kernelLines g info count (before ++ n :: after) binding).flatMap (· ++ ['\n'])) =
      .error (.badLine ((openingLines g info count before binding).length + 1)
        (.unboundName (name i))) := by
  have hnewline : '\n' ∉ info.name.toList :=
    not_mem_of_word (isWordChar_of_isIdentifier hident) rfl
  obtain ⟨bound, hr, hreads⟩ := reads_opening h (fun m hm => hcell m (by simp [hm])) hident hlen
    count binding hslots
  obtain ⟨s, hline, hs, he⟩ := line_refused
    (b := (prepared info binding).extend bound (code g before)) hr hident
    (by cases binding <;> simp [prepared, Body.extend]) hfresh (hcell n (by simp)) huse hdone hx hi
  have hlines : kernelLines g info count (before ++ n :: after) binding =
      openingLines g info count before binding ++ indent s ::
        ((after.flatMap (line g info.name.toList) ++ deliveryLines g info.name.toList binding).map
          indent ++ [['\x7d']]) := by
    have hline : line g info.name.toList n = [s] := hline
    simp [kernelLines, bodyLines, openingLines, hline]
  have hsolid := newline_not_mem_kernelLines (g := g) hnewline count (before ++ n :: after) binding
  rw [hlines] at hsolid ⊢
  exact parse_of_refused hsolid hreads hs he

/-- A kernel is refused at the line of a slot that has no name. -/
theorem parse_slot_refused (h : Printed g nodes)
    (hcell : ∀ n ∈ nodes, ∀ c, n.kind.cell? = some c → c < countBound)
    (hident : isIdentifier info.name.toList = true) (hlen : info.length < countBound) (count : Nat)
    {done rest : List NodeId} {i : NodeId} (hslots : (done ++ i :: rest).length < countBound)
    (hdone : ∀ j ∈ done, g.constant? j = none → j ∈ names nodes) (hx : g.constant? i = none)
    (hi : i ∉ names nodes) :
    parse ((kernelLines g info count nodes (.results (done ++ i :: rest))).flatMap (· ++ ['\n'])) =
      .error (.badLine ((openingLines g info count nodes (.results (done ++ i :: rest))).length +
        done.length + 1) (.unboundName (name i))) := by
  have hword := isWordChar_of_isIdentifier hident
  have hbracket : '[' ∉ info.name.toList := not_mem_of_word hword rfl
  have hfit : done.length < countBound := by
    rw [List.length_append] at hslots
    omega
  obtain ⟨bound, hr, hreads⟩ := reads_opening h hcell hident hlen count
    (.results (done ++ i :: rest)) (by intro slots hs; cases hs; exact hslots)
  have hstores := reads_stores (b := (prepared info (.results (done ++ i :: rest))).extend bound
    (code g nodes)) hbracket rfl hr done hdone 0 (by omega)
  rw [Body.extend_extend] at hstores
  have he := statement_slot (b := (prepared info (.results (done ++ i :: rest))).extend bound
    (code g nodes ++ stores g (prepared info (.results (done ++ i :: rest))).slotBuffer
      (names nodes) 0 done)) hbracket rfl g i hfit
  rw [Body.operand_unbound hr hx hi] at he
  have hlines : kernelLines g info count nodes (.results (done ++ i :: rest)) =
      (openingLines g info count nodes (.results (done ++ i :: rest)) ++
        (storeLines g 0 done).map indent) ++
      indent (assignment (indexed "out".toList done.length) (token g i)) ::
        ((storeLines g (done.length + 1) rest ++ ["out".toList]).map indent ++ [['\x7d']]) := by
    simp [kernelLines, bodyLines, openingLines, deliveryLines, storeLines_append, storeLines]
  have hsolid := newline_not_mem_kernelLines (g := g) (not_mem_of_word hword rfl) count nodes
    (.results (done ++ i :: rest))
  rw [hlines] at hsolid ⊢
  have hrefused := parse_of_refused hsolid (hreads.trans hstores)
    (sentence_store (by decide) done.length _) he
  rw [hrefused, List.length_append, List.length_map, length_storeLines]

end Program

namespace Plan

variable {p : Plan}

/-- Every use of a value can be made, or there is a first that cannot. -/
theorem readable_or_firstUnbound (g : Graph) (binding : Binding) (p : Plan) :
    p.Readable g binding ∨ ∃ line i, p.FirstUnbound g binding line i := by
  rcases Successive.or_first g.Computable p.order with
    hall | ⟨before, k, after, horder, hbefore, hk⟩
  · cases binding with
    | inPlace => exact .inl ⟨hall, nofun⟩
    | results slots =>
      rcases Successive.or_first (fun _ i => g.Usable p.order i) slots with
        hslots | ⟨done, i, rest, hsplit, hdone, hi⟩
      · refine .inl ⟨hall, ?_⟩
        intro slots' hs
        cases hs
        exact hslots.forall_mem
      · exact .inr ⟨_, i, .slot hall (congrArg Binding.results hsplit) hdone.forall_mem hi⟩
  · simp only [Graph.Computable, Classical.not_forall] at hk
    obtain ⟨n, hn, j, hj, hbad⟩ := hk
    rcases Successive.or_first (fun _ i => g.Usable before i) n.kind.operands with
      huses | ⟨done, i, rest, huses, hdone, hi⟩
    · exact absurd (huses.forall_mem j hj) hbad
    · exact .inr ⟨_, i, .operand horder hbefore hn huses hdone.forall_mem hi⟩

/-- Nodes that use only what can be used may be printed one after another. -/
theorem printed_of_computable (h : Successive g.Computable (nodes.map (·.id)))
    (hpresent : ∀ n ∈ nodes, g.node? n.id = some n) (hnodup : (nodes.map (·.id)).Nodup) :
    Printed g nodes := by
  apply Successive.of_splits
  intro before n after hsplit
  subst hsplit
  rw [List.map_append, List.map_cons] at h hnodup
  constructor
  · intro m hm
    exact (List.nodup_append.mp hnodup).2.2 _ (List.mem_map_of_mem hm) n.id (by simp)
  · intro i hi
    have husable := h.at rfl n (hpresent n (by simp)) i hi
    exact (Graph.usable_iff (fun m hm => hpresent m (by simp [hm])) i).mp husable

variable {b : Builder} {array : ArrayId}

theorem present_of_mem_nodes (hc : b.graph.Consistent) :
    ∀ n ∈ p.nodes b.graph, b.graph.node? n.id = some n := by
  intro n hn
  obtain ⟨k, _, hk⟩ := List.mem_filterMap.mp hn
  rwa [hc.ids k n hk]

namespace Listable

theorem cell_lt (h : p.Listable b array binding) (hc : b.graph.Consistent) :
    ∀ n ∈ p.nodes b.graph, ∀ c, n.kind.cell? = some c → c < countBound := by
  intro n hn
  have hplanned : n.id ∈ p.order := by
    rw [← map_id_nodes hc h.exist]
    exact List.mem_map_of_mem hn
  exact h.cells n.id hplanned n (present_of_mem_nodes hc n hn)

theorem usable_iff (h : p.Listable b array binding) (hc : b.graph.Consistent) (i : NodeId) :
    b.graph.Usable p.order i ↔
      (b.graph.constant? i = none → i ∈ names (p.nodes b.graph)) := by
  rw [← map_id_nodes hc h.exist]
  exact Graph.usable_iff (present_of_mem_nodes hc) i

theorem printed (h : p.Listable b array binding) (hc : b.graph.Consistent)
    (hs : Successive b.graph.Computable p.order) : Printed b.graph (p.nodes b.graph) := by
  have hids := map_id_nodes hc h.exist
  exact printed_of_computable (hids ▸ hs) (present_of_mem_nodes hc) (hids ▸ h.nodup)

theorem text_eq (h : p.Listable b array binding) (hinfo : b.arrays[array]? = some info) :
    ∃ source, Listing.text b array p binding = .ok source ∧ source.toList =
      (kernelLines b.graph info p.length (p.nodes b.graph) binding).flatMap (· ++ ['\n']) := by
  apply Listing.text_eq hinfo
  · intro k hk
    obtain ⟨n, hn⟩ := Graph.node?_of_lt (h.exist k hk)
    refine ⟨n, hn, h.touched k hk n hn, ?_⟩
    intro i hi
    exact Graph.node?_of_lt (h.operands k hk n hn i hi)
  · intro slots hs i hi
    exact Graph.node?_of_lt ((h.slots slots hs).2 i hi)

/-- The text of a readable plan is read as the program of its nodes. -/
theorem parse_of_readable (h : p.Listable b array binding) (hc : b.graph.Consistent)
    (hident : isIdentifier info.name.toList = true) (hlen : info.length < countBound)
    (hread : p.Readable b.graph binding) :
    Program.parse ((kernelLines b.graph info p.length (p.nodes b.graph) binding).flatMap
      (· ++ ['\n'])) = .ok (reading b.graph info (p.nodes b.graph) binding) := by
  apply Program.parse_kernel (h.printed hc hread.operands) (h.cell_lt hc) hident hlen
  intro slots hs
  refine ⟨(h.slots slots hs).1, ?_⟩
  intro i hi
  exact (h.usable_iff hc i).mp (hread.slots slots hs i hi)

/-- The text of any other plan is refused for the first value that cannot be used. -/
theorem parse_of_firstUnbound (h : p.Listable b array binding) (hc : b.graph.Consistent)
    (hident : isIdentifier info.name.toList = true) (hlen : info.length < countBound)
    (hfirst : p.FirstUnbound b.graph binding count i) :
    Program.parse ((kernelLines b.graph info p.length (p.nodes b.graph) binding).flatMap
      (· ++ ['\n'])) = .error (.badLine count (.unboundName (name i))) := by
  have hids := map_id_nodes hc h.exist
  have hpresent := present_of_mem_nodes (p := p) hc
  cases hfirst with
  | @operand before after done rest k i n order earlier node uses usable unbound =>
    rw [order] at hids
    obtain ⟨first, others, hsplit, rfl, hcons⟩ := List.map_eq_append_iff.mp hids
    obtain ⟨m, last, rfl, rfl, rfl⟩ := List.map_eq_cons_iff.mp hcons
    rw [hsplit] at hpresent
    obtain rfl := Option.some.inj ((hpresent m (by simp)).symm.trans node)
    have hbefore : ∀ k ∈ first, b.graph.node? k.id = some k :=
      fun k hk => hpresent k (by simp [hk])
    have hnodup := h.nodup
    rw [order, List.nodup_append] at hnodup
    have hfresh : ∀ k ∈ first, k.id ≠ m.id := by
      intro k hk
      exact hnodup.2.2 _ (List.mem_map_of_mem hk) m.id (by simp)
    have hcell := h.cell_lt hc
    obtain ⟨hx, hunnamed⟩ := (Graph.not_usable_iff hbefore i).mp unbound
    rw [hsplit] at hcell ⊢
    rw [Program.parse_operand_refused (printed_of_computable earlier hbefore hnodup.1) hcell hident
      hlen p.length binding (fun slots hs => (h.slots slots hs).1) hfresh uses
      (fun j hj => (Graph.usable_iff hbefore j).mp (usable j hj)) hx hunnamed,
      Program.length_openingLines hbefore]
  | @slot done rest i earlier slots usable unbound =>
    subst slots
    obtain ⟨hx, hunnamed⟩ := Classical.not_imp.mp (mt (h.usable_iff hc i).mpr unbound)
    rw [Program.parse_slot_refused (h.printed hc earlier) (h.cell_lt hc) hident hlen p.length
      (h.slots _ rfl).1 (fun j hj => (h.usable_iff hc j).mp (usable j hj)) hx hunnamed,
      Program.length_openingLines hpresent, hids]

end Listable

end Plan

variable {b : Builder} {array : ArrayId} {p : Plan}

/-- If all nodes of a builder touch only the bound array, any of them can be listed in any order. -/
theorem Plan.listable_of_all (hnode : ∀ n ∈ b.graph.list, n.kind.array?.all (· = array) = true ∧
      n.kind.cell?.all (· < countBound) = true ∧ ∀ i ∈ n.kind.operands, i < b.graph.size)
    (hnodup : p.order.Nodup) (hexist : ∀ k ∈ p.order, k < b.graph.size)
    (hslots : ∀ slots, binding = .results slots →
      slots.length < countBound ∧ ∀ i ∈ slots, i < b.graph.size) :
    p.Listable b array binding := by
  have hmem : ∀ (k : Nat) n, b.graph.node? k = some n → n ∈ b.graph.list := by
    intro k n hn
    exact List.mem_of_getElem? (Graph.node?_eq _ k ▸ hn)
  constructor
  · exact hnodup
  · exact hexist
  · intro k _ n hn a ha
    simpa [ha] using (hnode n (hmem k n hn)).1
  · intro k _ n hn c hc
    simpa [hc] using (hnode n (hmem k n hn)).2.1
  · intro k _ n hn
    exact (hnode n (hmem k n hn)).2.2
  · exact hslots

end FlatFourier
