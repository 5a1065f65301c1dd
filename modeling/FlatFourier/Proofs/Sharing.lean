import FlatFourier.Proofs.Scripts

namespace FlatFourier

open Build

/-- Builders reached by any calls on nodes that exist. -/
abbrev Connected : Builder → Prop :=
  Reached fun b c => ∀ i ∈ c.nodes, i < b.graph.size

namespace Graph

/-- The table leads from the kind of each pure node to that node. -/
def Indexed (g : Graph) : Prop :=
  ∀ (i : Nat) n, g.node? i = some n → n.kind.isPure = true → g.table[n.kind]? = some i

/-- Nothing that could be shared is there twice. -/
structure FullyShared (g : Graph) : Prop where
  unfolds : ∀ i < g.size, ∃ e, Unfolds (Node.leaf Node.id) g i e
  trees : ∀ {i j n m e}, g.node? i = some n → g.node? j = some m → n.kind.isPure = true →
    m.kind.isPure = true → Unfolds (Node.leaf Node.id) g i e →
    Unfolds (Node.leaf Node.id) g j e → i = j
  kinds : ∀ {i j n m}, g.node? i = some n → g.node? j = some m → n.kind.isPure = true →
    n.kind = m.kind → i = j
  table : ∀ {i n}, g.node? i = some n → n.kind.isPure = true → g.table[n.kind]? = some i

variable {g : Graph} {i j : Nat} {n m : Node}

theorem Indexed.append (h : g.Indexed) (hs : g.sharing = true) (hx : g.existing? kind = none)
    (seq : Option Nat) : (g.append kind seq).Indexed := by
  intro i n hn hp
  rw [append_node?] at hn
  rw [append_table]
  split at hn
  · rename_i hi
    cases hn
    simp only [shares, hs, hp, Bool.and_self, if_true, Std.HashMap.getElem?_insert_self, hi]
  · have hold := h i n hn hp
    split
    · rename_i hshares
      -- An old node of this kind would have been found.
      have hne : kind ≠ n.kind := by
        intro he
        rw [existing?, if_pos hshares, he, hold] at hx
        cases hx
      rw [Std.HashMap.getElem?_insert, if_neg (by simpa using hne), hold]
    · exact hold

theorem Indexed.eq_of_kind (h : g.Indexed) (hn : g.node? i = some n) (hk : n.kind = kind)
    (hm : g.node? j = some m) (hk' : m.kind = kind) (hp : kind.isPure = true) : i = j := by
  subst hk
  have hi := h i n hn hp
  have hj := h j m hm (hk' ▸ hp)
  rw [hk'] at hj
  exact Option.some.inj (hi.symm.trans hj)

/-- Leaves that are told apart by nothing are one node: of reads the kinds agree, of writes the
ids. -/
theorem Indexed.eq_of_leaf (h : g.Indexed) (hc : g.Consistent) (hn : g.node? i = some n)
    (hm : g.node? j = some m) (ha : n.kind.array?.isSome) (ha' : m.kind.array?.isSome)
    (hl : n.leaf Node.id = m.leaf Node.id) : i = j := by
  cases hk : n.kind with
  | read a c e =>
    cases hk' : m.kind with
    | read a' c' e' =>
      simp only [Node.leaf, hk, hk', Leaf.read.injEq] at hl
      obtain ⟨rfl, rfl, rfl⟩ := hl
      exact h.eq_of_kind hn hk hm hk' rfl
    | write a' c' v => simp [Node.leaf, hk, hk'] at hl
    | _ => simp [hk', Kind.array?] at ha'
  | write a c v =>
    cases hk' : m.kind with
    | read a' c' e' => simp [Node.leaf, hk, hk'] at hl
    | write a' c' v' =>
      simp only [Node.leaf, hk, hk', Leaf.write.injEq] at hl
      rw [← hc.ids i n hn, ← hc.ids j m hm, hl]
    | _ => simp [hk', Kind.array?] at ha'
  | _ => simp [hk, Kind.array?] at ha

/-- Nodes with one tree are one node. -/
theorem Indexed.eq_of_unfolds (h : g.Indexed) (hc : g.Consistent)
    (hi : Unfolds (Node.leaf Node.id) g i e) (hj : Unfolds (Node.leaf Node.id) g j e) : i = j := by
  -- By induction the operands are the same, so the kinds are equal, and the table has one node.
  induction hi generalizing j with
  | const hn hk =>
    cases hj with
    | const hm hk' => exact h.eq_of_kind hn hk hm hk' rfl
  | binary hn hk _ _ ihl ihr =>
    cases hj with
    | binary hm hk' hl hr =>
      obtain rfl := ihl hl
      obtain rfl := ihr hr
      exact h.eq_of_kind hn hk hm hk' rfl
  | unary hn hk _ ih =>
    cases hj with
    | unary hm hk' ha =>
      obtain rfl := ih ha
      exact h.eq_of_kind hn hk hm hk' rfl
  | result hn hk _ ih =>
    cases hj with
    | result hm hk' ha =>
      obtain rfl := ih ha
      exact h.eq_of_kind hn hk hm hk' rfl
  | @leaf i n hn ha =>
    generalize he : Expr.leaf (n.leaf Node.id) = e at hj
    cases hj with
    | leaf hm ha' => exact h.eq_of_leaf hc hn hm ha ha' (Expr.leaf.inj he)
    | _ => cases he

theorem Indexed.fullyShared (h : g.Indexed) (hs : g.Sound) : g.FullyShared where
  unfolds _ hi := Unfolds.exists_of_ordered hs.ordered _ hi
  trees _ _ _ _ hi hj := h.eq_of_unfolds hs.toConsistent hi hj
  kinds hn hm hp hk := h.eq_of_kind hn rfl hm hk.symm hp
  table hn hp := h _ _ hn hp

end Graph

/-- The graph shares if the options say so, and then its table is complete. -/
theorem indexed_lasting : Lasting fun b =>
    b.graph.sharing = b.options.sharing ∧ (b.options.sharing = true → b.graph.Indexed) where
  add := by
    intro b h kind
    rcases Builder.add_cases b kind with ⟨i, _, he⟩ | ⟨hx, he⟩ <;> rw [he]
    · exact h
    · exact ⟨h.1, fun hs => (h.2 hs).append (h.1.trans hs) hx _⟩
  declare h _ _ := h
  count h _ := h
  planned h _ := h

theorem Reached.indexed {allowed : Builder → Call → Prop} {b : Builder} (h : Reached allowed b)
    (hs : b.options.sharing = true) : b.graph.sharing = true ∧ b.graph.Indexed := by
  have hboth := indexed_lasting.reached (fun _ _ => ⟨rfl, fun _ => nofun⟩) h
  exact ⟨hboth.1.trans hs, hboth.2 hs⟩

theorem Kind.map_id (kind : Kind) : kind.map id = kind := by
  cases kind <;> rfl

theorem Call.map_id (c : Call) : c.map id = c := by
  cases c with
  | transform xs => exact congrArg transform (List.map_id xs)
  | plan roots prune => exact congrArg (plan · prune) (List.map_id roots)
  | make kind => exact congrArg make kind.map_id
  | operation kind => exact congrArg operation kind.map_id
  | answer kind => exact congrArg answer kind.map_id
  | ask rule kind => exact congrArg (ask rule) kind.map_id
  | _ => rfl

theorem Lockstep.after {s : Build α} {t : Build β} (h : Lockstep l r same (s l) (t r)) :
    Twins (s.after l) (t.after r) := by
  unfold Build.after
  generalize s l = p at h
  generalize t r = q at h
  cases h with
  | ok hg _ => exact hg.twins
  | error hg _ => exact hg.twins

theorem Graph.Ordered.sameTree_self {g : Graph} (ho : g.Ordered) (hi : i < g.size) :
    SameTree g g i i := by
  obtain ⟨e, he⟩ := Unfolds.exists_of_ordered ho (Node.leaf Node.order) hi
  exact ⟨e, he, he⟩

theorem Connected.twins (h : Connected b) : Twins b b := by
  induction h with
  | start options rules => exact .withRules options options rules
  | @call b _ c hn ih =>
    cases hc : c.isPlan with
    | true =>
      -- no lockstep for a plan, but its count is all that it changes
      cases c with
      | plan roots prune =>
        have hplan : Maintains (fun b => Twins b b) (Call.plan roots prune).run :=
          maintains_plan (fun hb _ => { hb with }) roots prune
        exact hplan b ih
      | _ => cases hc
    | false =>
      have hrun := c.run_lockstep hc ih fun i hi => ih.left.ordered.sameTree_self (hn i hi)
      rw [← c.map_id]
      exact hrun.after

/-- An array of one cell is declared, and sharing is on. -/
def oneCell : Builder :=
  (Call.declare "data" 1).run.after (.withRules ⟨true, true⟩ Rule.standard)

/-- The cell is read. -/
def oneRead : Builder :=
  (Call.read 0 0).run.after oneCell

theorem staged_oneRead : Staged oneRead :=
  .call (.call (.start _ _) _ ⟨(by decide : 1 < Text.countBound), nofun⟩) _ ⟨trivial, nofun⟩

theorem oneRead_settings : oneRead.options = ⟨true, true⟩ ∧ oneRead.rules = Rule.standard :=
  (settings_lasting _ _).maintains_run (.read 0 0) oneCell ⟨rfl, rfl⟩

theorem oneRead_read : oneRead.graph.node? 0 = some ⟨0, .read 0 0 (oneCell.log.epoch 0), none⟩ := by
  have hc : oneCell.graph.Consistent := Graph.consistent_empty true
  rcases Builder.add_cases oneCell (.read 0 0 (oneCell.log.epoch 0)) with ⟨i, hi, _⟩ | ⟨_, he⟩
  · obtain ⟨n, hn, _⟩ := hc.existing hi
    exact absurd (Graph.lt_of_node? hn) (Nat.not_lt_zero i)
  · change (oneCell.add (.read 0 0 (oneCell.log.epoch 0))).2.graph.node? 0 = _
    rw [he]
    rfl

theorem oneRead_node : ∃ n, oneRead.graph.node? 0 = some n ∧ n.kind.isPure = true :=
  ⟨_, oneRead_read, rfl⟩

theorem oneRead_lt (h : oneRead.graph.Keeps g) : 0 < g.size := by
  obtain ⟨n, hn, _⟩ := oneRead_node
  exact Graph.lt_of_node? (h 0 n hn)

/-- With sharing on, calls on nodes that exist leave nothing in the graph twice. -/
theorem connected_fullyShared (h : Connected b) (hs : b.options.sharing = true) :
    b.graph.FullyShared :=
  (h.indexed hs).2.fullyShared h.twins.left

/-- What is read is squared, overwritten and squared again, and the first read is made by hand. -/
def squaredTwice : Builder :=
  [Call.operation (.binary .times 0 0), .write 0 0 0, .operation (.binary .times 0 0),
    .make (.read 0 0 0), .plan [0] true].foldl (fun b c => c.run.after b) oneRead

theorem squaredTwice_fullyShared :
    Connected squaredTwice ∧ squaredTwice.options.sharing = true ∧ 0 < squaredTwice.graph.size ∧
      squaredTwice.graph.FullyShared := by
  have hconn : Connected squaredTwice := by
    refine Reached.calls (staged_oneRead.mono fun _ _ => And.right) _ ?_
    intro c hc b hk i hi
    have hzero : i = 0 := by
      revert c
      simp +contextual [Call.nodes, Kind.operands]
    exact hzero ▸ oneRead_lt hk
  have hs : squaredTwice.options = ⟨true, true⟩ :=
    ((settings_lasting _ _).calls oneRead_settings _).1
  have hk : oneRead.graph.Keeps squaredTwice.graph := (keeps_lasting _).calls (.refl _) _
  exact ⟨hconn, hs ▸ rfl, oneRead_lt hk, connected_fullyShared hconn (hs ▸ rfl)⟩

end FlatFourier
