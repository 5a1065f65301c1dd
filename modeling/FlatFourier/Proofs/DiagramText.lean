import Mathlib
import FlatFourier.Diagram
import FlatFourier.Proofs.Meaning

namespace FlatFourier.Diagram

open Text

/-- What a line of a diagram says. -/
inductive Statement where
  | vertex (id : NodeId)
  | edge (dashed : Bool) (source target : NodeId)
deriving DecidableEq, Repr

namespace Statement

def vertex? : Statement → Option NodeId
  | vertex i => some i
  | edge _ _ _ => none

/-- The ends of an edge of the given style. -/
def edge? (dashed : Bool) : Statement → Option (NodeId × NodeId)
  | vertex _ => none
  | edge style i j => if style = dashed then some (i, j) else none

end Statement

/-- The vertices that are declared, in the order of their declarations. -/
def vertices (ss : List Statement) : List NodeId :=
  ss.filterMap Statement.vertex?

/-- The edges of one style, with repetitions. -/
def edges (dashed : Bool) (ss : List Statement) : List (NodeId × NodeId) :=
  ss.filterMap (Statement.edge? dashed)

theorem mem_edges {dashed : Bool} {ss : List Statement} :
    (i, j) ∈ edges dashed ss ↔ .edge dashed i j ∈ ss := by
  rw [edges, List.mem_filterMap]
  constructor
  · intro h
    obtain ⟨s, hs, he⟩ := h
    cases s with
    | vertex k => cases he
    | edge style k l =>
      simp only [Statement.edge?, Option.ite_none_right_eq_some, Option.some.injEq,
        Prod.mk.injEq] at he
      obtain ⟨rfl, rfl, rfl⟩ := he
      exact hs
  · intro h
    exact ⟨_, h, if_pos rfl⟩

/-- A vertex that is named `n` and a number, and what follows the name. -/
def vertexName? (s : Text) : Option (NodeId × Text) := do
  let s ← ['n'].isPrefixOf? s
  let (digits, rest) := s.span Char.isDigit
  if isNumeral digits then some (numeral digits, rest) else none

/-- Characters that stand for themselves between quotes. -/
def isPlain (c : Char) : Bool :=
  c ≠ '"' && c ≠ '\\' && c ≠ '\n'

/-- What may follow a label up to the end of the line. -/
def endings : List Text :=
  ["\"];".toList, "\", shape=plaintext];".toList, "\", style=bold];".toList]

/-- Whether this is a list of attributes with a label, up to the end of the line. -/
def isLabelled (s : Text) : Bool :=
  (" [label=\"".toList.isPrefixOf? s).any fun rest => endings.contains (rest.dropWhile isPlain)

def statement? (line : Text) : Option Statement := do
  let line ← "  ".toList.isPrefixOf? line
  let (source, rest) ← vertexName? line
  if isLabelled rest then return .vertex source
  let rest ← " -> ".toList.isPrefixOf? rest
  let (target, rest) ← vertexName? rest
  if rest = ";".toList then return .edge false source target
  if rest = " [style=dashed];".toList then return .edge true source target
  none

def opening : Text :=
  "digraph fft \x7b\n  node [shape=box, fontname=monospace];\n".toList

def closing : Text :=
  "\x7d\n".toList

/-- The statements of a diagram, one on each line. -/
def read? (source : Text) : Option (List Statement) := do
  let body ← between opening closing source
  body.lines.mapM statement?

/-- The statements about a node. -/
def statements (writes : WriteOrder) (n : Node) : List Statement :=
  .vertex n.id ::
    n.kind.operands.map (.edge false · n.id) ++
    (writes.predecessor? n.kind n.seq).toList.map (.edge true · n.id) ++
    (writes.successor? n.kind).toList.map (.edge true n.id ·)

theorem vertices_statements (writes : WriteOrder) (n : Node) :
    vertices (statements writes n) = [n.id] := by
  simp [vertices, statements, Statement.vertex?, List.filterMap_map, Function.comp_def]

theorem solid_statements (writes : WriteOrder) (n : Node) :
    edges false (statements writes n) = n.kind.operands.map (·, n.id) := by
  simp [edges, statements, Statement.edge?, List.filterMap_cons, List.filterMap_map,
    Function.comp_def]

/-- A text that can stand between quotes as it is. -/
def Plain (s : Text) : Prop :=
  ∀ c ∈ s, isPlain c = true

/-- Characters of a class that has neither quotes nor backslashes nor newlines. -/
theorem plain_of_class {p : Char → Bool} (hs : ∀ c ∈ s, p c = true)
    (hp : ['"', '\\', '\n'].all (p · = false) = true) : Plain s := by
  intro c hc
  simp only [List.all_cons, List.all_nil, Bool.and_true, Bool.and_eq_true, decide_eq_true_eq] at hp
  have hne : ∀ d, p d = false → c ≠ d := by
    rintro d hd rfl
    rw [hs c hc] at hd
    cases hd
  simp [isPlain, hne _ hp.1, hne _ hp.2.1, hne _ hp.2.2]

theorem Plain.append (hs : Plain s) (ht : Plain t) : Plain (s ++ t) :=
  List.forall_mem_append.mpr ⟨hs, ht⟩

theorem plain_digits (n : Nat) : Plain (Nat.toDigits 10 n) :=
  plain_of_class (digits_toDigits n) rfl

theorem plain_literal (x : Float) : Plain (Listing.literal x) := by
  rcases Listing.literal_cases x with hname | ⟨hnumber, _⟩
  · have hall : Listing.constantNames.all (·.all isPlain) = true := rfl
    exact List.all_eq_true.mp (List.all_eq_true.mp hall _ hname)
  · exact plain_of_class hnumber rfl

theorem plain_of_all (h : s.all isPlain = true) : Plain s :=
  List.all_eq_true.mp h

/-- A label that starts with the name of a value. -/
theorem plain_named (i : Nat) (hs : Plain s) :
    Plain ("x".toList ++ (Nat.toDigits 10 i ++ (" = ".toList ++ s))) :=
  (plain_of_all rfl).append ((plain_digits i).append ((plain_of_all rfl).append hs))

theorem plain_cell (h : Plain array) (i : Nat) (hs : Plain s) :
    Plain (array ++ ("[".toList ++ (Nat.toDigits 10 i ++ ("]".toList ++ s)))) :=
  h.append ((plain_of_all rfl).append ((plain_digits i).append ((plain_of_all rfl).append hs)))

theorem plain_label {array : String} (h : Plain array.toList) (n : Node) :
    Plain (label array n).toList := by
  unfold label
  cases n.kind with
  | const x => simpa using plain_literal x
  | binary op a c =>
    have hop : Plain op.symbol.toList := by cases op <;> exact plain_of_all rfl
    simpa [toString] using plain_named n.id hop
  | unary op a =>
    have hop : Plain op.symbol.toList := by cases op <;> exact plain_of_all rfl
    simpa [toString] using plain_named n.id hop
  | read a c e =>
    have hepoch : Plain (" @".toList ++ Nat.toDigits 10 e) :=
      (plain_of_all rfl).append (plain_digits e)
    simpa [toString] using plain_named n.id (plain_cell h c hepoch)
  | write a c v =>
    have hseq : Plain (" := #".toList ++ Nat.toDigits 10 (n.seq.getD 0)) :=
      (plain_of_all rfl).append (plain_digits _)
    simpa [toString] using plain_cell h c hseq
  | result v => simpa [toString] using plain_named n.id (plain_of_all (s := "result".toList) rfl)

def vertexName (i : Nat) : Text :=
  'n' :: Nat.toDigits 10 i

theorem vertexName?_append (i : Nat) (hr : EndsNumber rest) :
    vertexName? (vertexName i ++ rest) = some (i, rest) := by
  have hstart : ['n'].isPrefixOf? (vertexName i ++ rest) = some (Nat.toDigits 10 i ++ rest) :=
    isPrefixOf?_append ['n'] _
  simp only [vertexName?, hstart, span_digits (digits_toDigits i) hr, isNumeral_toDigits,
    numeral_toDigits, Option.bind_eq_bind, Option.bind_some, if_true]

theorem isLabelled_append (hs : Plain s) (he : '"' :: rest ∈ endings) :
    isLabelled (" [label=\"".toList ++ (s ++ '"' :: rest)) = true := by
  rw [isLabelled, isPrefixOf?_append, Option.any_some, List.dropWhile_append_of_pos hs]
  simpa [List.dropWhile_cons, isPlain] using he

theorem statement?_vertex (n : Node) (h : Plain (label array n).toList) :
    statement? (vertex array n).toList = some (.vertex n.id) := by
  have hline : (vertex array n).toList = "  ".toList ++ (vertexName n.id ++ (" [label=\"".toList ++
      ((label array n).toList ++ '"' :: ((style n.kind).toList ++ "];".toList)))) := by
    simp [vertex, vertexName, toString]
  have hending : '"' :: ((style n.kind).toList ++ "];".toList) ∈ endings := by
    cases n.kind <;> simp [style, endings]
  have hends : ∀ t, EndsNumber (" [label=\"".toList ++ t) := by
    intro t
    simp [EndsNumber]
  rw [hline, statement?, isPrefixOf?_append]
  simp only [Option.bind_eq_bind, Option.bind_some, vertexName?_append n.id (hends _),
    isLabelled_append h hending, if_true]
  rfl

/-- An arrow is told from a list of attributes by its second character. -/
theorem statement?_arrow (i j : Nat) (hr : EndsNumber rest) :
    statement? ("  ".toList ++ (vertexName i ++ (" -> ".toList ++ (vertexName j ++ rest)))) =
      if rest = ";".toList then some (.edge false i j)
      else if rest = " [style=dashed];".toList then some (.edge true i j) else none := by
  have hends : ∀ t, EndsNumber (" -> ".toList ++ t) := by
    intro t
    simp [EndsNumber]
  have harrow : ∀ t, isLabelled (" -> ".toList ++ t) = false := by
    intro t
    simp [isLabelled, List.isPrefixOf?]
  rw [statement?, isPrefixOf?_append]
  simp only [Option.bind_eq_bind, Option.bind_some, vertexName?_append i (hends _), harrow,
    Bool.false_eq_true, if_false, isPrefixOf?_append, vertexName?_append j hr]
  rfl

theorem statement?_solid (i j : Nat) : statement? (solid i j).toList = some (.edge false i j) := by
  have hline : (solid i j).toList =
      "  ".toList ++ (vertexName i ++ (" -> ".toList ++ (vertexName j ++ ";".toList))) := by
    simp [solid, vertexName, toString]
  rw [hline, statement?_arrow i j (by simp [EndsNumber]), if_pos rfl]

theorem statement?_dashed (i j : Nat) : statement? (dashed i j).toList = some (.edge true i j) := by
  have hline : (dashed i j).toList = "  ".toList ++ (vertexName i ++ (" -> ".toList ++
      (vertexName j ++ " [style=dashed];".toList))) := by
    simp [dashed, vertexName, toString]
  rw [hline, statement?_arrow i j (by simp [EndsNumber]), if_neg (by decide), if_pos rfl]

/-- Lines that are read one by one. -/
theorem mapM_statement? {f : α → String} {g : α → Statement}
    (h : ∀ a, statement? (f a).toList = some (g a)) (xs : List α) :
    ((xs.map f).map String.toList).mapM statement? = some (xs.map g) := by
  have hread : statement? ∘ String.toList ∘ f = fun a => pure (g a) := funext h
  rw [List.map_map, List.mapM_map, hread, List.mapM_pure]
  rfl

theorem mapM_entry (writes : WriteOrder) (n : Node) (h : Plain (label array n).toList) :
    ((entry writes array n).map String.toList).mapM statement? = some (statements writes n) := by
  simp only [entry, statements, List.map_append, List.map_cons, List.mapM_append, List.mapM_cons,
    List.cons_append,
    statement?_vertex n h, mapM_statement? (statement?_solid · n.id),
    mapM_statement? (statement?_dashed · n.id), mapM_statement? (statement?_dashed n.id)]
  rfl

theorem newline_not_mem_entry (writes : WriteOrder) (n : Node) (h : Plain (label array n).toList) :
    ∀ l ∈ (entry writes array n).map String.toList, '\n' ∉ l := by
  have hlabel : '\n' ∉ (label array n).toList := fun hc => absurd (h _ hc) (by decide)
  have hstyle : '\n' ∉ (style n.kind).toList := by cases n.kind <;> simp [style]
  simp only [entry, List.map_append, List.map_cons, List.map_map, List.forall_mem_append,
    List.cons_append, List.forall_mem_cons, List.forall_mem_map]
  refine ⟨?_, ⟨?_, ?_⟩, ?_⟩
  · simp [vertex, toString, Listing.newline_not_mem_digits, hlabel, hstyle]
  all_goals
    intro i _
    simp [solid, dashed, toString, Listing.newline_not_mem_digits]

theorem opening_eq : (["digraph fft \x7b", "  node [shape=box, fontname=monospace];"].map
    String.toList).flatMap (· ++ ['\n']) = opening := rfl

theorem closing_eq : (["\x7d"].map String.toList).flatMap (· ++ ['\n']) = closing := rfl

variable {b : Builder} {array : ArrayId} {info : ArrayInfo} {p : Plan}

/-- The text of a plan that touches only the given array: between opening and closing each node has
its lines. -/
theorem text_eq (hinfo : b.arrays[array]? = some info)
    (h : ∀ i ∈ p.order, ∃ n, b.graph.node? i = some n ∧
      ∀ a, n.kind.array? = some a → a = array) :
    ∃ s, text b array p = .ok s ∧ s.toList = opening ++
      (((p.nodes b.graph).flatMap (entry (.ofLog b.log) info.name)).map String.toList).flatMap
        (· ++ ['\n']) ++ closing := by
  have hentries : ∀ order : List NodeId, (∀ i ∈ order, ∃ n, b.graph.node? i = some n) →
      (order.mapM fun i => do return entry (.ofLog b.log) info.name (← b.node i)) =
        .ok ((order.filterMap b.graph.node?).map (entry (.ofLog b.log) info.name)) := by
    intro order ho
    induction order with
    | nil => rfl
    | cons i order ih =>
      obtain ⟨n, hn⟩ := ho i (by simp)
      rw [List.mapM_cons, Listing.node_eq hn, Listing.ok_bind, ih fun j hj => ho j (by simp [hj]),
        List.filterMap_cons, hn]
      rfl
  rw [text, Listing.bound_eq hinfo h, Listing.ok_bind]
  simp only [hentries p.order fun i hi => (h i hi).imp fun _ hn => hn.1]
  refine ⟨_, rfl, ?_⟩
  rw [Listing.toList_ofLines, ← List.flatMap_def, List.map_append, List.map_append,
    List.flatMap_append, List.flatMap_append, opening_eq, closing_eq]
  rfl

/-- A diagram reads back as the statements about its nodes. -/
theorem read?_text (hinfo : b.arrays[array]? = some info)
    (hident : isIdentifier info.name.toList = true)
    (h : ∀ i ∈ p.order, ∃ n, b.graph.node? i = some n ∧
      ∀ a, n.kind.array? = some a → a = array) :
    ∃ s, text b array p = .ok s ∧
      read? s.toList = some ((p.nodes b.graph).flatMap (statements (.ofLog b.log))) := by
  have hlabel : ∀ n, Plain (label info.name n).toList :=
    plain_label (plain_of_class (isWordChar_of_isIdentifier hident) rfl)
  obtain ⟨s, hs, htext⟩ := text_eq hinfo h
  refine ⟨s, hs, ?_⟩
  have hlines : ∀ l ∈ ((p.nodes b.graph).flatMap (entry (.ofLog b.log) info.name)).map
      String.toList, '\n' ∉ l := by
    rw [List.map_flatMap]
    intro l hl
    obtain ⟨n, _, hl⟩ := List.mem_flatMap.mp hl
    exact newline_not_mem_entry _ n (hlabel n) l hl
  rw [read?, htext, between_append, Option.bind_eq_bind, Option.bind_some, lines_flatMap _ hlines]
  induction p.nodes b.graph with
  | nil => rfl
  | cons n nodes ih =>
    rw [List.flatMap_cons, List.map_append, List.mapM_append, mapM_entry _ n (hlabel n), ih]
    rfl

example : read? (opening ++ "  n0 [label=\"x0 = data[0] @0\"];\n".toList ++
    "  n1 [label=\"data[0] := #0\", style=bold];\n  n0 -> n1;\n".toList ++
    "  n0 -> n1 [style=dashed];\n".toList ++ closing) =
      some [.vertex 0, .vertex 1, .edge false 0 1, .edge true 0 1] := by
  decide

end FlatFourier.Diagram
