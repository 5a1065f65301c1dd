import FlatFourier.Proofs.Parsing
import FlatFourier.Proofs.PlanOrder
import FlatFourier.Proofs.Staging

namespace FlatFourier

open Text Build

/-- A plan that can be put into a text: it touches only the bound array, no planned node uses a
write as a value, and each slot is a constant or a planned node that is no write. -/
structure Plan.Suits (b : Builder) (array : ArrayId) (binding : Binding) (p : Plan) : Prop where
  touched : ∀ i ∈ p.order, ∀ n, b.graph.node? i = some n →
    ∀ a, n.kind.array? = some a → a = array
  values : ∀ i ∈ p.order, ∀ n, b.graph.node? i = some n → ∀ j ∈ n.kind.operands,
    ∀ m, b.graph.node? j = some m → m.kind.isPure = true
  slots : ∀ slots, binding = .results slots → slots.length < countBound ∧
    ∀ i ∈ slots, (∃ x, b.graph.constant? i = some x) ∨
      i ∈ p.order ∧ ∃ n, b.graph.node? i = some n ∧ n.kind.isPure = true

variable {b : Builder} {array : ArrayId} {info : ArrayInfo} {p : Plan} {binding : Binding}

namespace Listing

theorem ok_bind (a : α) (f : α → Except ε β) : (Except.ok a >>= f) = f a := rfl

theorem forM_ok {f : α → Except ε PUnit} (xs : List α) (hf : ∀ x ∈ xs, f x = .ok ()) :
    xs.forM f = .ok () := by
  induction xs with
  | nil => rfl
  | cons x xs ih =>
    change (f x >>= fun _ => xs.forM f) = _
    rw [hf x (by simp), ok_bind]
    exact ih fun y hy => hf y (by simp [hy])

theorem node_eq (h : b.graph.node? i = some n) : b.node i = .ok n := by
  simp [Builder.node, Graph.lookup, h]

theorem operand_eq {i : Nat} (h : b.graph.node? i = some n) :
    operand b i = .ok (String.ofList (token b.graph i)) := by
  rw [operand, node_eq h, token, Graph.constant?, h]
  cases hk : n.kind with
  | const x =>
    simp only [ok_bind, Option.bind_some, hk, Kind.constant?]
    rfl
  | _ =>
    have hname : s!"x{i}" = String.ofList (name i) := by
      apply String.toList_inj.mp
      simp [toString, name]
    simp only [ok_bind, Option.bind_some, hk, Kind.constant?]
    exact congrArg Except.ok hname

theorem statement_eq (array : String) (n : Node)
    (h : ∀ i : Nat, i ∈ n.kind.operands → ∃ m, b.graph.node? i = some m) :
    statement b array n = .ok ((line b.graph array.toList n).map String.ofList) := by
  have hop : ∀ i : Nat, i ∈ n.kind.operands →
      operand b i = .ok (String.ofList (token b.graph i)) := by
    intro i hi
    obtain ⟨m, hm⟩ := h i hi
    exact operand_eq hm
  have hone : ∀ {s : String} {t : Text}, s.toList = t →
      (Except.ok [s] : Except Error (List String)) = .ok ([t].map String.ofList) := by
    intro s t hs
    simp [← hs]
  unfold statement line
  cases hk : n.kind with
  | const x => rfl
  | binary op i j =>
    have hi := hop i (by simp [hk, Kind.operands])
    have hj := hop j (by simp [hk, Kind.operands])
    simp only [hi, hj, ok_bind]
    exact hone (by simp [toString, binding, assignment, name])
  | unary op i =>
    have hi := hop i (by simp [hk, Kind.operands])
    simp only [hi, ok_bind]
    exact hone (by simp [toString, binding, assignment, name])
  | read a c e => exact hone (by simp [toString, binding, assignment, name, indexed])
  | write a c i =>
    have hi := hop i (by simp [hk, Kind.operands])
    simp only [hi, ok_bind]
    exact hone (by simp [toString, assignment, indexed])
  | result i =>
    have hi := hop i (by simp [hk, Kind.operands])
    simp only [hi, ok_bind]
    exact hone (by simp [toString, binding, assignment, name])

theorem stores_eq (slot : Nat) (slots : List NodeId)
    (h : ∀ i : Nat, i ∈ slots → ∃ m, b.graph.node? i = some m) :
    stores b slot slots = .ok ((storeLines b.graph slot slots).map String.ofList) := by
  induction slots generalizing slot with
  | nil => rfl
  | cons i slots ih =>
    obtain ⟨m, hm⟩ := h i (by simp)
    have hline : s!"out[{slot}] = {String.ofList (token b.graph i)};" =
        String.ofList (assignment (indexed "out".toList slot) (token b.graph i)) := by
      apply String.toList_inj.mp
      simp [toString, assignment, indexed]
    rw [stores, operand_eq hm, ih (slot + 1) fun j hj => h j (by simp [hj])]
    simp only [ok_bind, hline]
    rfl

theorem toList_ofLines (ls : List String) :
    (ofLines ls).toList = (ls.map String.toList).flatMap (· ++ ['\n']) := by
  simp [ofLines, List.flatMap_map]

theorem checkNode_eq {i : Nat} (hn : b.graph.node? i = some n)
    (h : ∀ a, n.kind.array? = some a → a = array) : Plan.checkNode b array i = .ok () := by
  rw [Plan.checkNode, node_eq hn, ok_bind]
  cases ha : n.kind.array? with
  | none => rfl
  | some a =>
    obtain rfl := h a ha
    simp
    rfl

theorem bound_eq (hinfo : b.arrays[array]? = some info)
    (h : ∀ i ∈ p.order, ∃ n, b.graph.node? i = some n ∧
      ∀ a, n.kind.array? = some a → a = array) : p.bound b array = .ok info := by
  have hcheck : p.order.forM (Plan.checkNode b array) = .ok () := by
    refine forM_ok _ ?_
    intro i hi
    obtain ⟨n, hn, ha⟩ := h i hi
    exact checkNode_eq hn ha
  rw [Plan.bound, hcheck, ok_bind, Builder.array, hinfo]

theorem delivery_eq (info : ArrayInfo) (h : ∀ slots, binding = .results slots →
    ∀ i : Nat, i ∈ slots → ∃ m, b.graph.node? i = some m) :
    delivery b info binding =
      .ok ((deliveryLines b.graph info.name.toList binding).map String.ofList) := by
  cases binding with
  | inPlace => simp [delivery, deliveryLines, pure, Except.pure]
  | results slots =>
    rw [delivery, stores_eq 0 slots (h slots rfl), ok_bind]
    simp [deliveryLines, pure, Except.pure]

/-- The statements of nodes that exist, with operands that exist. -/
theorem statements_eq (array : String) (order : List NodeId)
    (h : ∀ i ∈ order, ∃ n, b.graph.node? i = some n ∧
      ∀ j : Nat, j ∈ n.kind.operands → ∃ m, b.graph.node? j = some m) :
    ∃ ls, (order.mapM fun i => do statement b array (← b.node i)) = .ok ls ∧ ls.flatten =
      ((order.filterMap b.graph.node?).flatMap (line b.graph array.toList)).map String.ofList := by
  induction order with
  | nil => exact ⟨[], rfl, rfl⟩
  | cons i order ih =>
    obtain ⟨n, hn, hops⟩ := h i (by simp)
    obtain ⟨ls, hmap, hls⟩ := ih fun j hj => h j (by simp [hj])
    refine ⟨(line b.graph array.toList n).map String.ofList :: ls, ?_, ?_⟩
    · rw [List.mapM_cons, node_eq hn, ok_bind, statement_eq array n hops, ok_bind, hmap]
      rfl
    · rw [List.flatten_cons, hls]
      simp [hn]

/-- The text of a plan that touches only the bound array. -/
theorem text_eq (hinfo : b.arrays[array]? = some info)
    (hnode : ∀ i ∈ p.order, ∃ n, b.graph.node? i = some n ∧
      (∀ a, n.kind.array? = some a → a = array) ∧
      ∀ j : Nat, j ∈ n.kind.operands → ∃ m, b.graph.node? j = some m)
    (hslots : ∀ slots, binding = .results slots →
      ∀ i : Nat, i ∈ slots → ∃ m, b.graph.node? i = some m) :
    ∃ source, text b array p binding = .ok source ∧ source.toList =
      (kernelLines b.graph info p.length (p.nodes b.graph) binding).flatMap (· ++ ['\n']) := by
  have hbound : p.bound b array = .ok info := by
    refine bound_eq hinfo ?_
    intro i hi
    obtain ⟨n, hn, ha, _⟩ := hnode i hi
    exact ⟨n, hn, ha⟩
  obtain ⟨ls, hmap, hls⟩ : ∃ ls, (p.order.mapM fun i => do statement b info.name (← b.node i)) =
      .ok ls ∧ ls.flatten = ((p.nodes b.graph).flatMap (line b.graph info.name.toList)).map
        String.ofList := by
    refine statements_eq info.name p.order ?_
    intro i hi
    obtain ⟨n, hn, _, hops⟩ := hnode i hi
    exact ⟨n, hn, hops⟩
  rw [text, hbound, ok_bind, hmap, ok_bind, delivery_eq info hslots, ok_bind]
  refine ⟨_, rfl, ?_⟩
  rw [toList_ofLines, hls]
  congr 1
  have hindent : ∀ s, (indented s).toList = indent s.toList := by
    intro s
    simp [indented, indent]
  simp [kernelLines, bodyLines, Plan.nodes, hindent, Function.comp_def]

end Listing

namespace Builder.Disciplined

open Assembly

theorem confined (h : b.Disciplined) (hinfo : b.arrays[array]? = some info)
    (hs : p.Suits b array binding) : Confined b.graph array info.length (p.nodes b.graph) := by
  have hnode : ∀ n ∈ p.nodes b.graph, b.graph.node? n.id = some n ∧ n.id ∈ p.order := by
    intro n hn
    obtain ⟨hl, ho⟩ := h.mem_nodes.mp hn
    exact ⟨h.mem_list.mp hl, ho⟩
  refine ⟨fun n hn => (hnode n hn).1, ?_, ?_, ?_⟩
  · intro n hn
    exact hs.touched _ (hnode n hn).2 n (hnode n hn).1
  · intro n hn c hc
    have hin := h.cells n (h.mem_nodes.mp hn).1
    have hbound : ∀ {a}, n.kind.array? = some a →
        (∃ known, b.arrays[a]? = some known ∧ c < known.length) → c < info.length := by
      intro a ha hex
      obtain ⟨known, hk, hlt⟩ := hex
      rw [hs.touched _ (hnode n hn).2 n (hnode n hn).1 a ha, hinfo] at hk
      rwa [Option.some.inj hk]
    cases hk : n.kind with
    | read a c' e =>
      rw [hk] at hc hin hbound
      obtain rfl := Option.some.inj hc
      exact hbound rfl hin
    | write a c' v =>
      rw [hk] at hc hin hbound
      obtain rfl := Option.some.inj hc
      exact hbound rfl hin
    | _ => simp [hk, Kind.cell?] at hc
  · intro n hn
    exact hs.values _ (hnode n hn).2 n (hnode n hn).1

/-- The text of a faithful plan can be made. -/
theorem exists_text (h : b.Disciplined) (hinfo : b.arrays[array]? = some info)
    (hp : p.Faithful b) (hs : p.Suits b array binding) :
    ∃ source, Listing.text b array p binding = .ok source ∧ source.toList =
      (Listing.kernelLines b.graph info p.length (p.nodes b.graph) binding).flatMap
        (· ++ ['\n']) := by
  have hconf := h.confined hinfo hs
  refine Listing.text_eq hinfo ?_ ?_
  · intro i hi
    obtain ⟨n, hn⟩ := Graph.node?_of_lt (hp.exist i hi)
    refine ⟨n, hn, hs.touched i hi n hn, ?_⟩
    intro j hj
    obtain ⟨m, hm, rfl⟩ := hp.orderly.operands (h.mem_nodes_of_mem_order hi hn).1 j hj
    exact ⟨m, hconf.present m hm⟩
  · intro slots hb i hi
    rcases (hs.slots slots hb).2 i hi with ⟨x, hx⟩ | ⟨_, n, hn, _⟩
    · obtain ⟨m, hm, _⟩ := Option.bind_eq_some_iff.mp hx
      exact ⟨m, hm⟩
    · exact ⟨n, hn⟩

/-- The text of a faithful plan can be made and read, and its program delivers what executing all
nodes in the order of their creation delivers. -/
theorem text_means (h : b.Disciplined) (hinfo : b.arrays[array]? = some info)
    (hident : isIdentifier info.name.toList = true) (hout : info.name ≠ "out")
    (hp : p.Faithful b) (hs : p.Suits b array binding) :
    ∃ source prog, Listing.text b array p binding = .ok source ∧
      Program.parse source.toList = .ok prog ∧ prog.inputLength = info.length ∧
      ∀ initial : ArrayId → List Float, (initial array).length = info.length →
        prog.call (initial array) =
          .ok (((Execution.start .float initial).run .float b.graph.list).delivered array
            binding) := by
  have hconf := h.confined hinfo hs
  have hlen : info.length < countBound := h.lengths info (Array.mem_of_getElem? hinfo)
  obtain ⟨source, htext, hsource⟩ := h.exists_text hinfo hp hs
  refine ⟨source, program b.graph info.length (p.nodes b.graph) binding, htext, ?_, ?_, ?_⟩
  · rw [hsource, ← reading_of_free (Binding.captures_of_ne hout binding)]
    have hcell : ∀ n ∈ p.nodes b.graph, ∀ c, n.kind.cell? = some c → c < countBound :=
      fun n hn c hc => Nat.lt_trans (hconf.cells n hn c hc) hlen
    refine Program.parse_kernel (hp.orderly.printed hconf) hcell hident hlen p.length binding ?_
    intro slots hb
    obtain ⟨hcount, hslots⟩ := hs.slots slots hb
    refine ⟨hcount, ?_⟩
    intro i hi hx
    rcases hslots i hi with ⟨x, hx'⟩ | ⟨ho, n, hn, hpure⟩
    · rw [hx] at hx'
      cases hx'
    · obtain ⟨hm, rfl⟩ := h.mem_nodes_of_mem_order ho hn
      exact hconf.mem_names hm hpure hx
  · cases binding <;> rfl
  · intro initial hl
    have hsub : ∀ n ∈ p.nodes b.graph, n ∈ b.graph.list := fun n hn => (h.mem_nodes.mp hn).1
    obtain ⟨hv, hc⟩ := hp.orderly.run_agrees h.orderly hsub .float initial
    refine call_program hp.orderly hconf initial hl binding _ hv (hc array (hp.writes array)) ?_
    intro slots hb i hi
    rcases (hs.slots slots hb).2 i hi with ⟨x, hx⟩ | ⟨ho, n, hn, hpure⟩
    · obtain ⟨m, hm, hk⟩ := Option.bind_eq_some_iff.mp hx
      obtain rfl := h.id_eq hm
      exact .inl ⟨x, hx, h.orderly.value_of_constant (h.mem_list.mpr hm) hk initial⟩
    · obtain ⟨hm, hid⟩ := h.mem_nodes_of_mem_order ho hn
      exact .inr ⟨n, hm, hid, hpure⟩

end Builder.Disciplined

/-- Any roots of a staged builder can be planned. The text of a suitable plan can be made and read,
takes an input of the array's length, and delivers what executing the builder's nodes in the order
of their creation delivers. -/
theorem staged_text_means (h : Staged b) (hinfo : b.arrays[array]? = some info)
    (hident : isIdentifier info.name.toList = true) (hout : info.name ≠ "out")
    (roots : List NodeId) (hroots : ∀ i ∈ roots, i < b.graph.size) (prune : Bool)
    (binding : Binding) :
    ∃ p b', plan roots prune b = .ok p b' ∧ (p.Suits b array binding →
      ∃ source prog, Listing.text b' array p binding = .ok source ∧
        Program.parse source.toList = .ok prog ∧ prog.inputLength = info.length ∧
        ∀ initial : ArrayId → List Float, (initial array).length = info.length →
          prog.call (initial array) = .ok
            (((Execution.start .float initial).run .float b.graph.list).delivered array
              binding)) := by
  obtain ⟨p, b', hplan, hb', hp, _⟩ := h.disciplined.plan_yields hroots prune
  refine ⟨p, b', hplan, ?_⟩
  intro hs
  subst hb'
  exact (h.disciplined.planned p.length).text_means hinfo hident hout
    ⟨hp.exist, hp.orderly, hp.writes⟩ ⟨hs.touched, hs.values, hs.slots⟩

/-- A builder in which the first of two cells is set to their sum and then copied to the second. -/
def sumBuilder : Builder :=
  [Call.declare "data" 2, .read 0 0, .read 0 1, .operation (.binary .plus 0 1), .write 0 0 2,
    .read 0 0, .write 0 1 4].foldl (fun b c => c.run.after b)
    (.withRules ⟨false, true⟩ Rule.standard)

theorem staged_sumBuilder : Staged sumBuilder := by
  simp only [sumBuilder, List.foldl_cons, List.foldl_nil]
  refine .call (.call (.call (.call (.call (.call (.call (.start _ _) _ ?_) _ ?_) _ ?_) _ ?_)
    _ ?_) _ ?_) _ ?_
  · exact ⟨(by decide : 2 < countBound), by decide⟩
  all_goals exact ⟨trivial, by decide⟩

theorem list_sumBuilder : sumBuilder.graph.list = [⟨0, .read 0 0 0, none⟩, ⟨1, .read 0 1 0, none⟩,
    ⟨2, .binary .plus 0 1, none⟩, ⟨3, .write 0 0 2, some 0⟩, ⟨4, .read 0 0 1, none⟩,
    ⟨5, .write 0 1 4, some 1⟩] := by
  decide +kernel

theorem sumBuilder_text_means : ∃ p b' source prog, plan [] true sumBuilder = .ok p b' ∧
    Listing.text b' 0 p .inPlace = .ok source ∧ Program.parse source.toList = .ok prog ∧
    prog.inputLength = 2 ∧ ∀ x y : Float, prog.call [x, y] = .ok [x + y, x + y] := by
  obtain ⟨p, b', hplan, hmeans⟩ := staged_text_means staged_sumBuilder
    (by decide : sumBuilder.arrays[0]? = some ⟨"data", 2⟩) (by decide) (by decide) [] nofun
    true .inPlace
  have htouched : ∀ n ∈ sumBuilder.graph.list, n.kind.array?.all (· = 0) = true := by
    rw [list_sumBuilder]
    decide
  have hvalues : ∀ n ∈ sumBuilder.graph.list, ∀ j ∈ n.kind.operands,
      sumBuilder.graph.list[j]?.all (·.kind.isPure) = true := by
    rw [list_sumBuilder]
    decide
  have hs : p.Suits sumBuilder 0 .inPlace := by
    refine ⟨?_, ?_, nofun⟩
    · intro i _ n hn a ha
      have hall := htouched n (List.mem_of_getElem? (Graph.node?_eq _ i ▸ hn))
      simpa [ha] using hall
    · intro i _ n hn j hj m hm
      have hall := hvalues n (List.mem_of_getElem? (Graph.node?_eq _ i ▸ hn)) j hj
      rw [← Graph.node?_eq, hm] at hall
      exact hall
  obtain ⟨source, prog, htext, hparse, hlen, hcall⟩ := hmeans hs
  refine ⟨p, b', source, prog, hplan, htext, hparse, hlen, ?_⟩
  intro x y
  have hxy := hcall (fun _ => [x, y]) rfl
  rw [list_sumBuilder] at hxy
  exact hxy

end FlatFourier
