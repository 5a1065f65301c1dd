import FlatFourier.Proofs.Discipline

namespace FlatFourier

/-- What operations mean in a domain of values. -/
structure Interpretation (α : Type u) where
  constant : Float → α
  binary : BinaryOp → α → α → α
  unary : UnaryOp → α → α

/-- Floating-point arithmetic. -/
def Interpretation.float : Interpretation Float where
  constant := id
  binary
    | .plus => (· + ·)
    | .minus => (· - ·)
    | .times => (· * ·)
    | .div => (· / ·)
  unary
    | .sin => Float.sin
    | .cos => Float.cos

theorem Interpretation.float_binary (op : BinaryOp) : float.binary op = op.apply := by
  cases op <;> rfl

theorem Interpretation.float_unary (op : UnaryOp) : float.unary op = op.apply := by
  cases op <;> rfl

/-- The values computed so far, and what the arrays hold. -/
structure Execution (α : Type u) where
  values : NodeId → α
  contents : ArrayId → List α

/-- A node that may be executed after the given ones. -/
structure Node.Fits (before : List Node) (n : Node) : Prop where
  fresh : ∀ m ∈ before, m.id ≠ n.id
  operands : ∀ i : Nat, i ∈ n.kind.operands → ∃ m ∈ before, m.id = i
  written : ∀ a c v, n.kind = .write a c v → n.seq = some (FlatFourier.writesTo a before)
  epoch : ∀ a c e, n.kind = .read a c e → e = FlatFourier.writesTo a before

/-- Nodes that may be executed one after another. -/
abbrev Orderly : List Node → Prop :=
  Successive fun before n => n.Fits before

variable {α : Type u} {I : Interpretation α}

namespace Kind

/-- The value of a node, by the values of other nodes and by what each array holds after some number
of writes. -/
def value (I : Interpretation α) (values : NodeId → α) (contents : ArrayId → Nat → List α) :
    Kind → α
  | const x => I.constant x
  | binary op a b => I.binary op (values a) (values b)
  | unary op a => I.unary op (values a)
  | read a c e => (contents a e).getD c (I.constant 0)
  | write _ _ v => values v
  | result v => values v

/-- What is left in an array that holds `cells`. -/
def stored (values : NodeId → α) (array : ArrayId) (cells : List α) : Kind → List α
  | write a c v => if a = array then cells.set c (values v) else cells
  | _ => cells

theorem value_congr {values values' : NodeId → α} {contents contents' : ArrayId → Nat → List α}
    {kind : Kind} (hv : ∀ i : Nat, i ∈ kind.operands → values i = values' i)
    (hc : ∀ a c e, kind = .read a c e → contents a e = contents' a e) :
    kind.value I values contents = kind.value I values' contents' := by
  cases kind with
  | const x => rfl
  | binary op a b => simp [value, hv a (by simp [operands]), hv b (by simp [operands])]
  | unary op a => simp [value, hv a (by simp [operands])]
  | read a c e => simp [value, hc a c e rfl]
  | write a c v => simp [value, hv v (by simp [operands])]
  | result v => simp [value, hv v (by simp [operands])]

theorem stored_congr {values values' : NodeId → α} {kind : Kind} (array : ArrayId)
    (cells : List α) (hv : ∀ i : Nat, i ∈ kind.operands → values i = values' i) :
    kind.stored values array cells = kind.stored values' array cells := by
  cases kind with
  | write a c v => simp [stored, hv v (by simp [operands])]
  | _ => rfl

theorem stored_of_not_writesTo {n : Node} {array : ArrayId} (values : NodeId → α) (cells : List α)
    (h : n.writesTo array = false) : n.kind.stored values array cells = cells := by
  unfold Node.writesTo at h
  cases hk : n.kind with
  | write a c v =>
    have hne : ¬a = array := by simpa [hk] using h
    simp [stored, hne]
  | _ => rfl

theorem length_stored (values : NodeId → α) (array : ArrayId) (cells : List α) (kind : Kind) :
    (kind.stored values array cells).length = cells.length := by
  cases kind with
  | write a c v =>
    by_cases h : a = array
    · simp [stored, h]
    · simp [stored, h]
  | _ => rfl

end Kind

namespace Execution

/-- Before anything is executed. -/
def start (I : Interpretation α) (contents : ArrayId → List α) : Execution α where
  values _ := I.constant 0
  contents := contents

def step (I : Interpretation α) (s : Execution α) (n : Node) : Execution α where
  values i := if i = n.id then n.kind.value I s.values fun a _ => s.contents a else s.values i
  contents a := n.kind.stored s.values a (s.contents a)

/-- Executes nodes in order. -/
def run (I : Interpretation α) (s : Execution α) (nodes : List Node) : Execution α :=
  nodes.foldl (step I) s

@[simp] theorem run_snoc (s : Execution α) (nodes : List Node) (n : Node) :
    s.run I (nodes ++ [n]) = (s.run I nodes).step I n := by
  simp [run]

theorem length_contents_run (s : Execution α) (nodes : List Node) (a : ArrayId) :
    ((s.run I nodes).contents a).length = (s.contents a).length := by
  induction nodes generalizing s with
  | nil => rfl
  | cons n nodes ih => exact (ih (s.step I n)).trans (Kind.length_stored ..)

end Execution

theorem writesTo_snoc (array : ArrayId) (nodes : List Node) (n : Node) :
    writesTo array (nodes ++ [n]) = writesTo array nodes + if n.writesTo array then 1 else 0 := by
  simp [writesTo, List.countP_append, List.countP_singleton]

/-- What an array holds after `k` of the nodes' writes to it, all of whose values are known. -/
def contentsAt (values : NodeId → α) (initial : ArrayId → List α) (nodes : List Node)
    (array : ArrayId) (k : Nat) : List α :=
  ((nodes.filter (·.writesTo array)).take k).foldl
    (fun cells n => n.kind.stored values array cells) (initial array)

theorem contentsAt_succ {values : NodeId → α} {initial : ArrayId → List α} {nodes : List Node}
    {array : ArrayId} {k : Nat} (h : (nodes.filter (·.writesTo array))[k]? = some n) :
    contentsAt values initial nodes array (k + 1) =
      n.kind.stored values array (contentsAt values initial nodes array k) := by
  simp [contentsAt, List.take_add_one, h, List.foldl_append]

namespace Orderly

variable {nodes all : List Node}

theorem operands (h : Orderly nodes) (hn : n ∈ nodes) :
    ∀ i : Nat, i ∈ n.kind.operands → ∃ m ∈ nodes, m.id = i := by
  intro i hi
  obtain ⟨before, after, rfl⟩ := List.append_of_mem hn
  obtain ⟨m, hm, he⟩ := (Successive.at h rfl).operands i hi
  exact ⟨m, List.mem_append_left _ hm, he⟩

theorem numbered (h : Orderly nodes) : Numbered nodes :=
  Successive.mono h fun _ _ hn => hn.written

end Orderly

namespace Numbered

variable {nodes : List Node}

/-- The number of a write is its place among the writes to its array. -/
theorem write_at (h : Numbered nodes) (hn : n ∈ nodes) (hk : n.kind = .write a c v)
    (hs : n.seq = some k) : (nodes.filter (·.writesTo a))[k]? = some n := by
  obtain ⟨before, after, rfl⟩ := List.append_of_mem hn
  have hw := Successive.at h rfl a c v hk
  rw [hs, Option.some.injEq, writesTo, List.countP_eq_length_filter] at hw
  have hn : n.writesTo a = true := by simp [Node.writesTo, hk]
  simp [hn, hw]

/-- The numbers of an array's writes go up to their count. -/
theorem exists_write (h : Numbered nodes) (hk : k < writesTo a nodes) :
    ∃ n ∈ nodes, ∃ c v, n.kind = .write a c v ∧ n.seq = some k := by
  induction h with
  | nil => cases hk
  | @snoc nodes m h hm ih =>
    by_cases hlt : k < writesTo a nodes
    · obtain ⟨n, hn, hw⟩ := ih hlt
      exact ⟨n, List.mem_append_left _ hn, hw⟩
    · rw [writesTo_snoc] at hk
      split at hk
      · rename_i hw
        cases hkind : m.kind with
        | write a' c v =>
          have ha : a' = a := by simpa [Node.writesTo, hkind] using hw
          subst ha
          have he : k = writesTo a' nodes := by omega
          exact ⟨m, by simp, c, v, hkind, he ▸ hm a' c v hkind⟩
        | _ => simp [Node.writesTo, hkind] at hw
      · exact absurd hk hlt

theorem lt_writesTo (h : Numbered nodes) (hn : n ∈ nodes) (hk : n.kind = .write a c v)
    (hs : n.seq = some k) : k < writesTo a nodes := by
  obtain ⟨hlt, _⟩ := List.getElem?_eq_some_iff.mp (h.write_at hn hk hs)
  rwa [writesTo, List.countP_eq_length_filter]

/-- Array and number tell writes apart. -/
theorem write_unique (h : Numbered nodes) (hm : m ∈ nodes) (hn : n ∈ nodes)
    (hmk : m.kind = .write a c v) (hnk : n.kind = .write a c' v') (hms : m.seq = some k)
    (hns : n.seq = some k) : m = n := by
  have hat := h.write_at hm hmk hms
  rw [h.write_at hn hnk hns] at hat
  exact (Option.some.inj hat).symm

/-- A write is among the first nodes if its number is below the count of the array's writes there. -/
theorem mem_left_iff (h : Numbered (before ++ after)) (hm : m ∈ before ++ after)
    (hk : m.kind = .write a c v) (hs : m.seq = some k) :
    m ∈ before ↔ k < writesTo a before := by
  constructor
  · intro hb
    exact lt_writesTo h.left hb hk hs
  · intro hlt
    obtain ⟨n, hn, c', v', hnk, hns⟩ := exists_write h.left hlt
    rwa [write_unique h hm (List.mem_append_left _ hn) hk hnk hs hns]

end Numbered

theorem contentsAt_snoc {values : NodeId → α} {initial : ArrayId → List α} {nodes : List Node}
    {array : ArrayId} {k : Nat} (h : k ≤ writesTo array nodes) (n : Node) :
    contentsAt values initial (nodes ++ [n]) array k = contentsAt values initial nodes array k := by
  rw [writesTo, List.countP_eq_length_filter] at h
  simp [contentsAt, List.filter_append, List.take_append_of_le_length h]

theorem contentsAt_congr {values values' : NodeId → α} {nodes : List Node}
    (initial : ArrayId → List α) (array : ArrayId) (k : Nat)
    (h : ∀ n ∈ nodes, ∀ i : Nat, i ∈ n.kind.operands → values i = values' i) :
    contentsAt values initial nodes array k = contentsAt values' initial nodes array k := by
  refine List.foldl_rel rfl ?_
  intro n hn cells _ he
  rw [he]
  exact Kind.stored_congr _ _ (h n (List.mem_filter.mp (List.mem_of_mem_take hn)).1)

/-- Values in which each node has the value that its kind gives to it. -/
def Solves (I : Interpretation α) (initial : ArrayId → List α) (nodes : List Node)
    (values : NodeId → α) : Prop :=
  ∀ n ∈ nodes, values n.id = n.kind.value I values (contentsAt values initial nodes)

namespace Orderly

variable {nodes all : List Node} {initial : ArrayId → List α} {values : NodeId → α}

theorem epoch_le (h : Orderly nodes) (hn : n ∈ nodes) (hk : n.kind = .read a c e) :
    e ≤ writesTo a nodes := by
  obtain ⟨before, after, rfl⟩ := List.append_of_mem hn
  rw [(Successive.at h rfl).epoch a c e hk]
  simp [writesTo, List.countP_append]

/-- Executing orderly nodes gives each of them the value of its kind. -/
theorem solves (h : Orderly nodes) (I : Interpretation α) (initial : ArrayId → List α) :
    Solves I initial nodes ((Execution.start I initial).run I nodes).values ∧
      ∀ a, ((Execution.start I initial).run I nodes).contents a =
        contentsAt ((Execution.start I initial).run I nodes).values initial nodes a
          (writesTo a nodes) := by
  induction h with
  | nil => exact ⟨nofun, fun a => rfl⟩
  | @snoc nodes n h hn ih =>
    rw [Execution.run_snoc]
    generalize (Execution.start I initial).run I nodes = s at ih
    obtain ⟨hv, hc⟩ := ih
    have kept : ∀ m ∈ nodes, (s.step I n).values m.id = s.values m.id := by
      intro m hm
      exact if_neg (hn.fresh m hm)
    have operand : ∀ m ∈ nodes ++ [n], ∀ i : Nat, i ∈ m.kind.operands →
        (s.step I n).values i = s.values i := by
      intro m hm i hi
      have hex : ∃ k ∈ nodes, k.id = i := by
        simp only [List.mem_append, List.mem_singleton] at hm
        rcases hm with hm | rfl
        · exact Orderly.operands h hm i hi
        · exact hn.operands i hi
      obtain ⟨k, hk, rfl⟩ := hex
      exact kept k hk
    have held : ∀ a k, k ≤ writesTo a nodes →
        contentsAt (s.step I n).values initial (nodes ++ [n]) a k =
          contentsAt s.values initial nodes a k := by
      intro a k hk
      rw [contentsAt_snoc hk]
      exact contentsAt_congr _ _ _ fun m hm => operand m (List.mem_append_left _ hm)
    refine ⟨?_, ?_⟩
    · intro m hm
      have hm' := hm
      simp only [List.mem_append, List.mem_singleton] at hm'
      rcases hm' with hm' | rfl
      · rw [kept m hm', hv m hm']
        refine Kind.value_congr (fun i hi => (operand m hm i hi).symm) ?_
        intro a c e he
        exact (held a e (Orderly.epoch_le h hm' he)).symm
      · have hx : (s.step I m).values m.id = m.kind.value I s.values fun a _ => s.contents a :=
          if_pos rfl
        rw [hx]
        refine Kind.value_congr (fun i hi => (operand m hm i hi).symm) ?_
        intro a c e he
        rw [hn.epoch a c e he, held a _ (Nat.le_refl _), hc a]
    · intro a
      change n.kind.stored s.values a (s.contents a) = _
      rw [writesTo_snoc, hc a, ← held a _ (Nat.le_refl _),
        ← Kind.stored_congr _ _ (operand n (by simp))]
      split
      · rename_i hw
        refine (contentsAt_succ ?_).symm
        simp [writesTo, List.countP_eq_length_filter, hw]
      · rename_i hw
        exact Kind.stored_of_not_writesTo _ _ (by simpa using hw)

/-- Executing orderly nodes leaves in an array what their writes to it put there. -/
theorem contents_eq (h : Orderly nodes) (I : Interpretation α) (initial : ArrayId → List α)
    (a : ArrayId) :
    ((Execution.start I initial).run I nodes).contents a =
      (nodes.filter (·.writesTo a)).foldl (fun cells n => n.kind.stored
        ((Execution.start I initial).run I nodes).values a cells) (initial a) := by
  obtain ⟨_, hc⟩ := h.solves I initial
  rw [hc a, contentsAt, writesTo, List.countP_eq_length_filter, List.take_length]

/-- Orderly nodes compute the values that they have in any larger orderly list, and leave in each
array what it holds there after as many writes. -/
theorem agrees (h : Orderly nodes) (hall : Orderly all) (hv : Solves I initial all values)
    (hsub : ∀ n ∈ nodes, n ∈ all) :
    (∀ n ∈ nodes, ((Execution.start I initial).run I nodes).values n.id = values n.id) ∧
      ∀ a, ((Execution.start I initial).run I nodes).contents a =
        contentsAt values initial all a (writesTo a nodes) := by
  induction h with
  | nil => exact ⟨nofun, fun a => rfl⟩
  | @snoc nodes n h hn ih =>
    obtain ⟨hvals, hc⟩ := ih fun m hm => hsub m (List.mem_append_left _ hm)
    rw [Execution.run_snoc]
    generalize (Execution.start I initial).run I nodes = s at hvals hc
    have operand : ∀ i : Nat, i ∈ n.kind.operands → s.values i = values i := by
      intro i hi
      obtain ⟨m, hm, rfl⟩ := hn.operands i hi
      exact hvals m hm
    refine ⟨?_, ?_⟩
    · intro m hm
      by_cases he : m.id = n.id
      · have hx : (s.step I n).values m.id = n.kind.value I s.values fun a _ => s.contents a :=
          if_pos he
        rw [hx, he, hv n (hsub n (by simp))]
        refine Kind.value_congr operand ?_
        intro a c e hk
        rw [hc a, hn.epoch a c e hk]
      · have hm : m ∈ nodes := by
          simp only [List.mem_append, List.mem_singleton] at hm
          rcases hm with hm | rfl
          · exact hm
          · exact absurd rfl he
        exact (if_neg he).trans (hvals m hm)
    · intro a
      change n.kind.stored s.values a (s.contents a) = _
      rw [writesTo_snoc, hc a, Kind.stored_congr _ _ operand]
      split
      · rename_i hw
        cases hk : n.kind with
        | write a' c v =>
          have ha : a' = a := by simpa [Node.writesTo, hk] using hw
          subst ha
          have hat := hall.numbered.write_at (hsub n (by simp)) hk (hn.written a' c v hk)
          rw [contentsAt_succ hat, hk]
        | _ => simp [Node.writesTo, hk] at hw
      · rename_i hw
        exact Kind.stored_of_not_writesTo _ _ (by simpa using hw)

/-- Part of the nodes of an orderly list, in any orderly arrangement, compute what they compute
there. An array all of whose writes are among them ends up the same. -/
theorem run_agrees (h : Orderly nodes) (hall : Orderly all) (hsub : ∀ n ∈ nodes, n ∈ all)
    (I : Interpretation α) (initial : ArrayId → List α) :
    (∀ n ∈ nodes, ((Execution.start I initial).run I nodes).values n.id =
        ((Execution.start I initial).run I all).values n.id) ∧
      ∀ a, writesTo a nodes = writesTo a all →
        ((Execution.start I initial).run I nodes).contents a =
          ((Execution.start I initial).run I all).contents a := by
  obtain ⟨hv, hc⟩ := hall.solves I initial
  obtain ⟨hvals, hcont⟩ := h.agrees hall hv hsub
  refine ⟨hvals, ?_⟩
  intro a ha
  rw [hcont a, hc a, ha]

end Orderly

end FlatFourier
