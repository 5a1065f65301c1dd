import FlatFourier.Proofs.Growth
import FlatFourier.Text

namespace FlatFourier

def Node.writesTo (array : ArrayId) (n : Node) : Bool :=
  match n.kind with
  | .write a _ _ => a = array
  | _ => false

/-- How many of the nodes write to an array. -/
def writesTo (array : ArrayId) (nodes : List Node) : Nat :=
  nodes.countP (·.writesTo array)

/-- The log's entry for a node. -/
def Node.entry? (n : Node) : Option Write :=
  match n.kind, n.seq with
  | .write a _ _, some seq => some ⟨a, seq, n.id⟩
  | _, _ => none

/-- A node that may stand behind the given ones. -/
structure Node.Follows (before : List Node) (n : Node) : Prop where
  id_eq : n.id = before.length
  below : n.kind.Below before.length
  written : ∀ a c v, n.kind = .write a c v → n.seq = some (FlatFourier.writesTo a before)
  unnumbered : n.kind.isPure → n.seq = none
  epoch : ∀ a c e, n.kind = .read a c e → e = FlatFourier.writesTo a before

/-- Elements each of which may stand behind those before it. -/
inductive Successive (may : List α → α → Prop) : List α → Prop where
  | nil : Successive may []
  | snoc (h : Successive may xs) (hx : may xs x) : Successive may (xs ++ [x])

/-- Nodes in the order of their creation. -/
abbrev Chained : List Node → Prop :=
  Successive fun before n => n.Follows before

/-- Nodes among which each write carries the number of writes to its array before it. -/
abbrev Numbered : List Node → Prop :=
  Successive fun before n => ∀ a c v, n.kind = .write a c v → n.seq = some (writesTo a before)

/-- Only cells that the arrays have are touched. -/
def Kind.InBounds (arrays : Array ArrayInfo) : Kind → Prop
  | read a c _ | write a c _ => ∃ info, arrays[a]? = some info ∧ c < info.length
  | _ => True

theorem Successive.mono {may may' : List α → α → Prop} (h : Successive may xs)
    (hm : ∀ xs x, may xs x → may' xs x) : Successive may' xs := by
  induction h with
  | nil => exact .nil
  | snoc _ hx ih => exact ih.snoc (hm _ _ hx)

theorem Successive.at {may : List α → α → Prop} (h : Successive may xs)
    (he : xs = before ++ x :: after) : may before x := by
  induction h generalizing after with
  | nil => simp at he
  | @snoc xs y h hy ih =>
    rcases List.eq_nil_or_concat after with rfl | ⟨rest, last, rfl⟩
    · obtain ⟨rfl, hm⟩ := List.append_inj' he rfl
      cases hm
      exact hy
    · have hcat : xs ++ [y] = (before ++ x :: rest) ++ [last] := by simpa using he
      exact ih (List.append_inj' hcat rfl).1

theorem Successive.left {may : List α → α → Prop} (h : Successive may (xs ++ ys)) :
    Successive may xs := by
  generalize he : xs ++ ys = zs at h
  induction h generalizing ys with
  | nil =>
    rw [(List.append_eq_nil_iff.mp he).1]
    exact .nil
  | @snoc zs z h hz ih =>
    rcases List.eq_nil_or_concat ys with rfl | ⟨rest, last, rfl⟩
    · rw [List.append_nil] at he
      rw [he]
      exact h.snoc hz
    · rw [List.concat_eq_append, ← List.append_assoc] at he
      exact ih (List.append_inj' he rfl).1

/-- A list is cut at each of its places. -/
theorem eq_take_append_cons {xs : List α} {i : Nat} (h : xs[i]? = some x) :
    xs = xs.take i ++ x :: xs.drop (i + 1) := by
  obtain ⟨hi, rfl⟩ := List.getElem?_eq_some_iff.mp h
  rw [← List.drop_eq_getElem_cons hi, List.take_append_drop]

namespace Graph

def list (g : Graph) : List Node :=
  g.nodes.toList

@[simp] theorem length_list (g : Graph) : g.list.length = g.size :=
  Array.length_toList

theorem node?_eq (g : Graph) (i : Nat) : g.node? i = g.list[i]? := by
  simp [node?, list]

theorem Consistent.mem_list {g : Graph} (h : g.Consistent) {n : Node} :
    n ∈ g.list ↔ g.node? n.id = some n := by
  rw [node?_eq]
  constructor
  · intro hn
    obtain ⟨i, hi⟩ := List.mem_iff_getElem?.mp hn
    rwa [h.ids i n (g.node?_eq i ▸ hi)]
  · exact List.mem_of_getElem?

theorem Consistent.ordered_of_list {g : Graph} (h : g.Consistent)
    (hl : ∀ n ∈ g.list, ∀ a ∈ n.kind.operands, a < n.id) : g.Ordered := by
  intro i n hn
  rw [← h.ids i n hn]
  exact hl n (List.mem_of_getElem? (g.node?_eq i ▸ hn))

@[simp] theorem append_list (g : Graph) (kind : Kind) (seq : Option Nat) :
    (g.append kind seq).list = g.list ++ [⟨g.size, kind, seq⟩] := by
  simp [list]

end Graph

namespace Builder

theorem epoch_enter (log : WriteLog) (i : Nat) (kind : Kind) (seq : Option Nat) (a : ArrayId) :
    (log.enter i kind).epoch a =
      log.epoch a + if (⟨i, kind, seq⟩ : Node).writesTo a then 1 else 0 := by
  cases kind with
  | write a' c v =>
    by_cases h : a' = a
    · simp [WriteLog.enter, WriteLog.reserve, WriteLog.record, WriteLog.epoch, Node.writesTo, h]
    · simp [WriteLog.enter, WriteLog.reserve, WriteLog.record, WriteLog.epoch, Node.writesTo, h,
        Std.HashMap.getD_insert]
  | _ => simp [WriteLog.enter, Node.writesTo]

theorem entries_enter (b : Builder) (i : Nat) (kind : Kind) :
    (b.log.enter i kind).entries.toList =
      b.log.entries.toList ++ (Node.entry? ⟨i, kind, b.numberFor kind⟩).toList := by
  cases kind <;>
    simp [WriteLog.enter, WriteLog.reserve, WriteLog.record, Node.entry?, numberFor]

/-- The log holds the writes among the nodes in their order, and its counts are their numbers. This
needs no discipline: it holds whatever is added. -/
structure Logged (b : Builder) : Prop where
  numbered : Numbered b.graph.list
  entries : b.log.entries.toList = b.graph.list.filterMap Node.entry?
  epoch : ∀ a, b.log.epoch a = writesTo a b.graph.list

namespace Logged

variable {b : Builder}

theorem withRules (options : Options) (rules : List Rule) :
    (Builder.withRules options rules).Logged where
  numbered := .nil
  entries := rfl
  epoch a := by simp [Builder.withRules, WriteLog.empty, WriteLog.epoch, writesTo, Graph.empty,
    Graph.list]

theorem add (h : b.Logged) (kind : Kind) : (b.add kind).2.Logged := by
  rcases add_cases b kind with ⟨i, _, he⟩ | ⟨_, he⟩ <;> rw [he]
  · exact ⟨h.numbered, h.entries, h.epoch⟩
  · refine ⟨?_, ?_, ?_⟩
    · rw [Graph.append_list]
      refine h.numbered.snoc ?_
      rintro a c v rfl
      simp [numberFor, h.epoch]
    · simp only [Graph.append_list, List.filterMap_append, entries_enter, h.entries]
      cases kind <;> rfl
    · intro a
      simp only [Graph.append_list, writesTo, List.countP_append, List.countP_singleton]
      rw [epoch_enter _ _ _ (b.numberFor kind), h.epoch]
      rfl

end Logged

/-- What holds of a builder that is only staged. -/
structure Disciplined (b : Builder) : Prop where
  consistent : b.graph.Consistent
  chained : Chained b.graph.list
  entries : b.log.entries.toList = b.graph.list.filterMap Node.entry?
  epoch : ∀ a, b.log.epoch a = writesTo a b.graph.list
  cells : ∀ n ∈ b.graph.list, n.kind.InBounds b.arrays
  lengths : ∀ info ∈ b.arrays, info.length < Text.countBound

/-- Kinds that staging gives to new nodes: a read carries the current epoch of its array. -/
def Admits (b : Builder) (kind : Kind) : Prop :=
  kind.InBounds b.arrays ∧ ∀ a c e, kind = .read a c e → e = b.log.epoch a

namespace Disciplined

variable {b b' : Builder} {kind : Kind} {n : Node}

theorem follows (h : b.Disciplined) {i : Nat} (hn : b.graph.node? i = some n) :
    n.Follows (b.graph.list.take i) :=
  h.chained.at (eq_take_append_cons (Graph.node?_eq b.graph i ▸ hn))

theorem ordered (h : b.Disciplined) : b.graph.Ordered := by
  intro i n hn
  exact (h.follows hn).below.mono (List.length_take_le _ _)

theorem sound (h : b.Disciplined) : b.graph.Sound :=
  ⟨h.consistent, h.ordered⟩

theorem logged (h : b.Disciplined) : b.Logged :=
  ⟨h.chained.mono fun _ _ hn => hn.written, h.entries, h.epoch⟩

theorem withRules (options : Options) (rules : List Rule) :
    (Builder.withRules options rules).Disciplined where
  consistent := Graph.consistent_empty options.sharing
  chained := .nil
  entries := (Logged.withRules options rules).entries
  epoch := (Logged.withRules options rules).epoch
  cells := nofun
  lengths := nofun

/-- A new node of an admitted kind follows all others. -/
theorem follows_new (h : b.Disciplined) (hk : kind.Below b.graph.size) (ha : b.Admits kind) :
    Node.Follows b.graph.list ⟨b.graph.size, kind, b.numberFor kind⟩ where
  id_eq := by simp
  below := by simpa using hk
  written := by
    rintro a c v rfl
    simp [numberFor, h.epoch]
  unnumbered hp := by
    cases kind with
    | write a c v => cases hp
    | _ => rfl
  epoch a c e he := (ha.2 a c e he).trans (h.epoch a)

theorem add (h : b.Disciplined) (hk : kind.Below b.graph.size) (ha : b.Admits kind) :
    (b.add kind).2.Disciplined := by
  have hlogged := h.logged.add kind
  rcases add_cases b kind with ⟨i, _, he⟩ | ⟨_, he⟩ <;> rw [he] at hlogged ⊢
  · exact ⟨h.consistent, h.chained, h.entries, h.epoch, h.cells, h.lengths⟩
  · refine ⟨h.consistent.append _ _, ?_, hlogged.entries, hlogged.epoch, ?_, h.lengths⟩
    · simpa using h.chained.snoc (h.follows_new hk ha)
    · intro n hn
      simp only [Graph.append_list, List.mem_append, List.mem_singleton] at hn
      rcases hn with hn | rfl
      · exact h.cells n hn
      · exact ha.1

theorem count (h : b.Disciplined) (name : String) : (b.countAnswer name).Disciplined :=
  ⟨h.consistent, h.chained, h.entries, h.epoch, h.cells, h.lengths⟩

theorem planned (h : b.Disciplined) (length : Nat) : (b.countPlanned length).Disciplined :=
  ⟨h.consistent, h.chained, h.entries, h.epoch, h.cells, h.lengths⟩

theorem grows (h : b.Disciplined) (hg : Grows Admits b b') : b'.Disciplined := by
  induction hg with
  | refl => exact h
  | add _ kind ha ho ih => exact ih.add ho ha
  | count _ name ih => exact ih.count name

end Disciplined

end Builder

theorem Kind.InBounds.push {arrays : Array ArrayInfo} {kind : Kind} (h : kind.InBounds arrays)
    (info : ArrayInfo) : kind.InBounds (arrays.push info) := by
  have keep : ∀ {a : Nat} {x}, arrays[a]? = some x → (arrays.push info)[a]? = some x := by
    intro a x hx
    obtain ⟨hlt, _⟩ := Array.getElem?_eq_some_iff.mp hx
    rw [Array.getElem?_push_lt hlt, ← Array.getElem?_eq_getElem hlt, hx]
  cases kind with
  | read a c e =>
    obtain ⟨x, hx, hc⟩ := h
    exact ⟨x, keep hx, hc⟩
  | write a c v =>
    obtain ⟨x, hx, hc⟩ := h
    exact ⟨x, keep hx, hc⟩
  | _ => trivial

theorem Builder.Disciplined.declare {b : Builder} (h : b.Disciplined) (name : String)
    (hl : length < Text.countBound) : (b.declare name length).2.Disciplined := by
  refine ⟨h.consistent, h.chained, h.entries, h.epoch, fun n hn => (h.cells n hn).push _, ?_⟩
  intro info hi
  rcases Array.mem_push.mp hi with hi | rfl
  · exact h.lengths info hi
  · exact hl

end FlatFourier
