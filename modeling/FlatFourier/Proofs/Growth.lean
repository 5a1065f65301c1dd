import FlatFourier.Proofs.Yields

namespace FlatFourier

/-- All operands are ids below the bound. -/
def Kind.Below (kind : Kind) (bound : Nat) : Prop :=
  ∀ a : Nat, a ∈ kind.operands → a < bound

theorem Kind.Below.mono {kind : Kind} (h : kind.Below m) (hm : m ≤ n) : kind.Below n :=
  fun a ha => Nat.lt_of_lt_of_le (h a ha) hm

namespace Graph

/-- Every node of the first graph is a node of the second. -/
def Keeps (g g' : Graph) : Prop :=
  ∀ (id : Nat) n, g.node? id = some n → g'.node? id = some n

/-- Nodes stand at their ids, and the table only leads to nodes of the kind looked for. -/
structure Consistent (g : Graph) : Prop where
  ids : ∀ (id : Nat) n, g.node? id = some n → n.id = id
  table : ∀ kind (id : Nat), g.table[kind]? = some id → ∃ n, g.node? id = some n ∧ n.kind = kind

/-- Operands are older than the nodes that use them. -/
def Ordered (g : Graph) : Prop :=
  ∀ (id : Nat) n, g.node? id = some n → n.kind.Below id

structure Sound (g : Graph) : Prop extends Consistent g where
  ordered : g.Ordered

theorem Keeps.refl (g : Graph) : Keeps g g :=
  fun _ _ h => h

theorem Keeps.trans {g₁ g₂ g₃ : Graph} (h : Keeps g₁ g₂) (h' : Keeps g₂ g₃) : Keeps g₁ g₃ :=
  fun id n hn => h' id n (h id n hn)

theorem lt_of_node? {g : Graph} {id : Nat} (h : g.node? id = some n) : id < g.size :=
  (Array.getElem?_eq_some_iff.mp h).choose

theorem node?_of_lt {g : Graph} {id : Nat} (h : id < g.size) : ∃ n, g.node? id = some n :=
  ⟨g.nodes[id], Array.getElem?_eq_getElem h⟩

theorem Keeps.size_le {g g' : Graph} (h : Keeps g g') : g.size ≤ g'.size := by
  rcases Nat.eq_zero_or_pos g.size with h0 | h0
  · omega
  · have hlast : g.size - 1 < g.size := by omega
    obtain ⟨n, hn⟩ := node?_of_lt hlast
    have := lt_of_node? (h _ n hn)
    omega

@[simp] theorem append_nodes (g : Graph) (kind : Kind) (seq : Option Nat) :
    (g.append kind seq).nodes = g.nodes.push ⟨g.size, kind, seq⟩ := rfl

theorem append_node? (g : Graph) (kind : Kind) (seq : Option Nat) (id : Nat) :
    (g.append kind seq).node? id =
      if id = g.size then some ⟨g.size, kind, seq⟩ else g.node? id := by
  simp only [node?, append_nodes, Array.getElem?_push]
  rfl

theorem append_keeps (g : Graph) (kind : Kind) (seq : Option Nat) :
    Keeps g (g.append kind seq) := by
  intro id n h
  have := lt_of_node? h
  rw [append_node?, if_neg (by omega), h]

theorem append_table (g : Graph) (kind : Kind) (seq : Option Nat) :
    (g.append kind seq).table =
      if g.shares kind then g.table.insert kind g.size else g.table := rfl

theorem consistent_empty (sharing : Bool) : (Graph.empty sharing).Consistent :=
  ⟨nofun, by simp [Graph.empty]⟩

theorem Consistent.append {g : Graph} (h : g.Consistent) (kind : Kind) (seq : Option Nat) :
    (g.append kind seq).Consistent := by
  refine ⟨?_, ?_⟩
  · intro id n hn
    rw [append_node?] at hn
    split at hn
    · simp only [Option.some.injEq] at hn
      subst hn
      exact Eq.symm ‹_›
    · exact h.ids id n hn
  · intro k id hk
    rw [append_table] at hk
    split at hk
    · rw [Std.HashMap.getElem?_insert] at hk
      split at hk
      · rename_i he
        simp only [Option.some.injEq] at hk
        subst hk
        exact ⟨_, by rw [append_node?, if_pos rfl], by simpa using he⟩
      · obtain ⟨n, hn, he⟩ := h.table k id hk
        exact ⟨n, append_keeps g kind seq id n hn, he⟩
    · obtain ⟨n, hn, he⟩ := h.table k id hk
      exact ⟨n, append_keeps g kind seq id n hn, he⟩

theorem Ordered.append {g : Graph} (h : g.Ordered) (kind : Kind) (seq : Option Nat)
    (ho : kind.Below g.size) : (g.append kind seq).Ordered := by
  intro id n hn
  rw [append_node?] at hn
  split at hn
  · rename_i he
    simp only [Option.some.injEq] at hn
    subst hn he
    exact ho
  · exact h id n hn

theorem Consistent.existing {g : Graph} {id : Nat} (h : g.Consistent)
    (he : g.existing? kind = some id) :
    ∃ n, g.node? id = some n ∧ n.kind = kind := by
  unfold existing? at he
  split at he
  · exact h.table kind id he
  · cases he

end Graph

namespace WriteLog

/-- The log after an operation has got a new node: a write is entered under its number. -/
def enter (log : WriteLog) (id : NodeId) : Kind → WriteLog
  | .write a _ _ => (log.reserve a).2.record ⟨a, log.epoch a, id⟩
  | _ => log

end WriteLog

namespace Builder

/-- The number that a new node of the operation gets. -/
def numberFor (b : Builder) : Kind → Option Nat
  | .write a _ _ => some (b.log.epoch a)
  | _ => none

theorem existing?_write (g : Graph) (a : ArrayId) (i : Nat) (v : NodeId) :
    g.existing? (.write a i v) = none := by
  simp [Graph.existing?, Graph.shares, Kind.isPure]

/-- All that adding an operation can do. -/
theorem add_cases (b : Builder) (kind : Kind) :
    (∃ id : Nat, b.graph.existing? kind = some id ∧
      b.add kind = (id, { b with tally := { b.tally with reused := b.tally.reused + 1 } })) ∨
    (b.graph.existing? kind = none ∧
      b.add kind = (b.graph.size,
        { b with
          graph := b.graph.append kind (b.numberFor kind)
          log := b.log.enter b.graph.size kind
          tally := { b.tally with
            created := b.tally.created + 1
            writes := b.tally.writes + if kind.isPure then 0 else 1 } })) := by
  cases hk : b.graph.existing? kind with
  | some id =>
    refine .inl ⟨id, rfl, ?_⟩
    cases kind with
    | write a i v => simp [existing?_write] at hk
    | _ => simp [add, Graph.insert, hk]
  | none =>
    refine .inr ⟨rfl, ?_⟩
    cases kind with
    | write a i v =>
      simp [add, Graph.insert, hk, Placement.id, numberFor, WriteLog.enter, WriteLog.reserve,
        WriteLog.record, Kind.isPure]
    | _ => simp [add, Graph.insert, hk, numberFor, WriteLog.enter, Kind.isPure]

theorem add_keeps (b : Builder) (kind : Kind) : b.graph.Keeps (b.add kind).2.graph := by
  rcases add_cases b kind with ⟨id, _, h⟩ | ⟨_, h⟩ <;> rw [h]
  · exact .refl _
  · exact Graph.append_keeps _ _ _

theorem add_options (b : Builder) (kind : Kind) : (b.add kind).2.options = b.options := by
  rcases add_cases b kind with ⟨id, _, h⟩ | ⟨_, h⟩ <;> rw [h]

theorem add_rules (b : Builder) (kind : Kind) : (b.add kind).2.rules = b.rules := by
  rcases add_cases b kind with ⟨id, _, h⟩ | ⟨_, h⟩ <;> rw [h]

theorem add_arrays (b : Builder) (kind : Kind) : (b.add kind).2.arrays = b.arrays := by
  rcases add_cases b kind with ⟨id, _, h⟩ | ⟨_, h⟩ <;> rw [h]

theorem add_byRule (b : Builder) (kind : Kind) : (b.add kind).2.tally.byRule = b.tally.byRule := by
  rcases add_cases b kind with ⟨id, _, h⟩ | ⟨_, h⟩ <;> rw [h]

theorem add_simplified (b : Builder) (kind : Kind) :
    (b.add kind).2.tally.simplified = b.tally.simplified := by
  rcases add_cases b kind with ⟨id, _, h⟩ | ⟨_, h⟩ <;> rw [h]

/-- Each operation is counted once, as a new node or as one that is used again. -/
theorem add_made (b : Builder) (kind : Kind) :
    (b.add kind).2.tally.created + (b.add kind).2.tally.reused =
      b.tally.created + b.tally.reused + 1 := by
  rcases add_cases b kind with ⟨id, _, h⟩ | ⟨_, h⟩ <;> rw [h]
  · rfl
  · simp only
    omega

theorem isPure_of_existing? {g : Graph} {id : Nat} (h : g.existing? kind = some id) :
    kind.isPure = true := by
  cases kind with
  | write a i v => simp [existing?_write] at h
  | _ => rfl

theorem add_writes (b : Builder) (kind : Kind) :
    (b.add kind).2.tally.writes = b.tally.writes + if kind.isPure then 0 else 1 := by
  rcases add_cases b kind with ⟨id, hx, h⟩ | ⟨_, h⟩ <;> rw [h]
  simp [isPure_of_existing? hx]

theorem add_log (b : Builder) (kind : Kind) :
    (b.add kind).2.log = b.log.enter (b.add kind).1 kind := by
  rcases add_cases b kind with ⟨id, hx, h⟩ | ⟨_, h⟩ <;> rw [h]
  cases kind with
  | write a i v => simp [existing?_write] at hx
  | _ => rfl

theorem add_consistent {b : Builder} (h : b.graph.Consistent) (kind : Kind) :
    (b.add kind).2.graph.Consistent := by
  rcases add_cases b kind with ⟨id, _, he⟩ | ⟨_, he⟩ <;> rw [he]
  · exact h
  · exact h.append _ _

theorem add_ordered {b : Builder} (h : b.graph.Ordered)
    (ho : kind.Below b.graph.size) : (b.add kind).2.graph.Ordered := by
  rcases add_cases b kind with ⟨id, _, he⟩ | ⟨_, he⟩ <;> rw [he]
  · exact h
  · exact h.append _ _ ho

/-- The node that an operation gets is of its kind. -/
theorem add_node {b : Builder} (h : b.graph.Consistent) (kind : Kind) :
    ∃ n, (b.add kind).2.graph.node? (b.add kind).1 = some n ∧ n.kind = kind := by
  rcases add_cases b kind with ⟨id, hx, he⟩ | ⟨_, he⟩ <;> rw [he]
  · exact h.existing hx
  · exact ⟨⟨b.graph.size, kind, b.numberFor kind⟩, by simp [Graph.append_node?], rfl⟩

/-- Only writes are numbered, and a write always gets a new node. -/
theorem add_record {b : Builder} (h : b.graph.Consistent) (kind : Kind) :
    ∃ seq, (b.add kind).2.graph.node? (b.add kind).1 = some ⟨(b.add kind).1, kind, seq⟩ ∧
      (kind.isPure = false → seq = b.numberFor kind) := by
  rcases add_cases b kind with ⟨id, hx, he⟩ | ⟨_, he⟩ <;> rw [he]
  · obtain ⟨n, hn, rfl⟩ := h.existing hx
    obtain rfl := h.ids id n hn
    refine ⟨n.seq, hn, ?_⟩
    simp [isPure_of_existing? hx]
  · exact ⟨b.numberFor kind, by simp [Graph.append_node?], fun _ => rfl⟩

/-- Growth by operations of admitted kinds over nodes that exist, and by counting. -/
inductive Grows (admits : Builder → Kind → Prop) (b : Builder) : Builder → Prop where
  | refl : Grows admits b b
  | add {b' : Builder} (h : Grows admits b b') (kind : Kind) (admitted : admits b' kind)
      (operands : kind.Below b'.graph.size) : Grows admits b (b'.add kind).2
  | count {b' : Builder} (h : Grows admits b b') (name : String) :
      Grows admits b (b'.countAnswer name)

namespace Grows

theorem trans (h : Grows admits b₁ b₂) (h' : Grows admits b₂ b₃) : Grows admits b₁ b₃ := by
  induction h' with
  | refl => exact h
  | add _ kind ha ho ih => exact .add ih kind ha ho
  | count _ name ih => exact .count ih name

theorem mono (h : Grows admits b b') (hm : ∀ b k, admits b k → admits' b k) :
    Grows admits' b b' := by
  induction h with
  | refl => exact .refl
  | add _ kind ha ho ih => exact .add ih kind (hm _ _ ha) ho
  | count _ name ih => exact .count ih name

theorem keeps (h : Grows admits b b') : b.graph.Keeps b'.graph := by
  induction h with
  | refl => exact .refl _
  | add _ kind _ _ ih => exact ih.trans (add_keeps _ kind)
  | count _ name ih => exact ih

theorem rules_eq (h : Grows admits b b') : b'.rules = b.rules := by
  induction h with
  | refl => rfl
  | add _ kind _ _ ih => rw [add_rules, ih]
  | count _ name ih => exact ih

theorem arrays_eq (h : Grows admits b b') : b'.arrays = b.arrays := by
  induction h with
  | refl => rfl
  | add _ kind _ _ ih => rw [add_arrays, ih]
  | count _ name ih => exact ih

theorem consistent (h : Grows admits b b') (hc : b.graph.Consistent) : b'.graph.Consistent := by
  induction h with
  | refl => exact hc
  | add _ kind _ _ ih => exact add_consistent ih kind
  | count _ name ih => exact ih

theorem ordered (h : Grows admits b b') (ho : b.graph.Ordered) : b'.graph.Ordered := by
  induction h with
  | refl => exact ho
  | add _ kind _ hop ih => exact add_ordered ih hop
  | count _ name ih => exact ih

theorem sound (h : Grows admits b b') (hs : b.graph.Sound) : b'.graph.Sound :=
  ⟨h.consistent hs.toConsistent, h.ordered hs.ordered⟩

end Grows

end Builder

end FlatFourier
