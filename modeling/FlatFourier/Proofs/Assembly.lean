import FlatFourier.Listing
import FlatFourier.Program.Basic
import FlatFourier.Proofs.Execution

namespace FlatFourier

/-- The value of a node that is a constant. -/
def Graph.constant? (g : Graph) (i : NodeId) : Option Float :=
  (g.node? i).bind (·.kind.constant?)

def Kind.cell? : Kind → Option Nat
  | read _ c _ => some c
  | write _ c _ => some c
  | _ => none

/-- Nodes of a graph that touch one array only, within its length, and use no write as a value. -/
structure Confined (g : Graph) (array : ArrayId) (length : Nat) (nodes : List Node) : Prop where
  present : ∀ n ∈ nodes, g.node? n.id = some n
  touched : ∀ n ∈ nodes, ∀ a, n.kind.array? = some a → a = array
  cells : ∀ n ∈ nodes, ∀ c, n.kind.cell? = some c → c < length
  values : ∀ n ∈ nodes, ∀ i ∈ n.kind.operands, ∀ m, g.node? i = some m → m.kind.isPure = true

theorem Confined.left {g : Graph} (h : Confined g array length (nodes ++ rest)) :
    Confined g array length nodes where
  present n hn := h.present n (List.mem_append_left _ hn)
  touched n hn := h.touched n (List.mem_append_left _ hn)
  cells n hn := h.cells n (List.mem_append_left _ hn)
  values n hn := h.values n (List.mem_append_left _ hn)

/-- What a kernel hands over. -/
def Execution.delivered (s : Execution α) (array : ArrayId) : Binding → List α
  | .inPlace => s.contents array
  | .results slots => slots.map s.values

namespace Assembly

/-- Whether a node has a register. -/
def isNamed (n : Node) : Bool :=
  n.kind.isPure && n.kind.constant?.isNone

/-- The nodes that have registers, in the order of the registers. -/
def names (nodes : List Node) : List NodeId :=
  (nodes.filter isNamed).map (·.id)

def operand (g : Graph) (named : List NodeId) (i : NodeId) : Operand :=
  match g.constant? i with
  | some x => .immediate x
  | none => .register (named.idxOf i)

/-- The instruction of a node, if it has one, behind nodes with the given registers. -/
def instr (g : Graph) (named : List NodeId) (n : Node) : List Instr :=
  match n.kind with
  | .const _ => []
  | .binary op a b => [.binary named.length op (operand g named a) (operand g named b)]
  | .unary op a => [.unary named.length op (operand g named a)]
  | .read _ c _ => [.load named.length .data c]
  | .write _ c a => [.store .data c (operand g named a)]
  | .result a => [.copy named.length (operand g named a)]

/-- The instructions of nodes behind nodes with the given registers. -/
def codeFrom (g : Graph) : List NodeId → List Node → List Instr
  | _, [] => []
  | before, n :: nodes => instr g before n ++ codeFrom g (before ++ names [n]) nodes

def code (g : Graph) (nodes : List Node) : List Instr :=
  codeFrom g [] nodes

/-- The instructions that fill the slots of a buffer from the given one on. -/
def stores (g : Graph) (buffer : Buffer) (named : List NodeId) : Nat → List NodeId → List Instr
  | _, [] => []
  | slot, i :: slots =>
    .store buffer slot (operand g named i) :: stores g buffer named (slot + 1) slots

def program (g : Graph) (length : Nat) (nodes : List Node) : Binding → Program
  | .inPlace => ⟨length, none, .data, (names nodes).length, (code g nodes).toArray⟩
  | .results slots => ⟨length, some slots.length, .out, (names nodes).length,
      (code g nodes ++ stores g .out (names nodes) 0 slots).toArray⟩

variable {g : Graph} {nodes : List Node} {n : Node}

theorem names_append (nodes rest : List Node) :
    names (nodes ++ rest) = names nodes ++ names rest := by
  simp [names]

theorem names_snoc (h : isNamed n = true) : names (nodes ++ [n]) = names nodes ++ [n.id] := by
  simp [names, h]

theorem names_snoc_unnamed (h : isNamed n = false) : names (nodes ++ [n]) = names nodes := by
  simp [names, h]

theorem mem_names {i : Nat} : i ∈ names nodes ↔ ∃ n ∈ nodes, isNamed n = true ∧ n.id = i := by
  simp [names, and_assoc]

theorem codeFrom_append (g : Graph) (before : List NodeId) (nodes rest : List Node) :
    codeFrom g before (nodes ++ rest) =
      codeFrom g before nodes ++ codeFrom g (before ++ names nodes) rest := by
  induction nodes generalizing before with
  | nil => simp [codeFrom, names]
  | cons n nodes ih =>
    have hcat : names (n :: nodes) = names [n] ++ names nodes := names_append [n] nodes
    rw [List.cons_append, codeFrom, ih, codeFrom, hcat, List.append_assoc, List.append_assoc]

theorem code_snoc (g : Graph) (nodes : List Node) (n : Node) :
    code g (nodes ++ [n]) = code g nodes ++ instr g (names nodes) n := by
  simp [code, codeFrom_append, codeFrom]

end Assembly

theorem Orderly.value_of_constant {nodes : List Node} (h : Orderly nodes) (hn : n ∈ nodes)
    (hx : n.kind.constant? = some x) (initial : ArrayId → List Float) :
    ((Execution.start .float initial).run .float nodes).values n.id = x := by
  obtain ⟨hv, _⟩ := h.solves .float initial
  rw [hv n hn]
  cases hk : n.kind with
  | const y =>
    rw [hk] at hx
    exact Option.some.inj hx
  | _ => simp [hk, Kind.constant?] at hx

namespace Confined

open Assembly

variable {g : Graph} {nodes : List Node} {n : Node}

theorem constant?_eq (h : Confined g array length nodes) (hn : n ∈ nodes) :
    g.constant? n.id = n.kind.constant? := by
  rw [Graph.constant?, h.present n hn]
  rfl

theorem value_of_constant (h : Confined g array length nodes) (ho : Orderly nodes)
    (hn : n ∈ nodes) (hx : g.constant? n.id = some x) (initial : ArrayId → List Float) :
    ((Execution.start .float initial).run .float nodes).values n.id = x :=
  ho.value_of_constant hn (h.constant?_eq hn ▸ hx) initial

theorem mem_names (h : Confined g array length nodes) (hn : n ∈ nodes)
    (hp : n.kind.isPure = true) (hx : g.constant? n.id = none) : n.id ∈ names nodes := by
  rw [h.constant?_eq hn] at hx
  exact Assembly.mem_names.mpr ⟨n, hn, by simp [isNamed, hp, hx], rfl⟩

/-- An operand of the next node is one of the nodes before, and not a write. -/
theorem operand_mem (h : Confined g array length (nodes ++ [n])) (hn : n.Fits nodes) {i : Nat}
    (hi : i ∈ n.kind.operands) : ∃ k ∈ nodes, k.id = i ∧ k.kind.isPure = true := by
  obtain ⟨k, hk, rfl⟩ := hn.operands i hi
  exact ⟨k, hk, rfl, h.values n (by simp) _ hi k (h.present k (by simp [hk]))⟩

theorem operand_named (h : Confined g array length (nodes ++ [n])) (hn : n.Fits nodes) :
    ∀ i : Nat, i ∈ n.kind.operands → g.constant? i = none → i ∈ names nodes := by
  intro i hi hx
  obtain ⟨k, hk, rfl, hp⟩ := h.operand_mem hn hi
  exact h.left.mem_names hk hp hx

end Confined

namespace Machine

open Assembly

theorem run_append (m : Machine) (xs ys : List Instr) :
    m.run (xs ++ ys) = m.run xs >>= fun m' => m'.run ys := by
  induction xs generalizing m with
  | nil => rfl
  | cons x xs ih =>
    rw [List.cons_append, run, run]
    cases h : m.step x with
    | error e => rfl
    | ok m' => exact ih m'

theorem run_singleton (m : Machine) (x : Instr) : m.run [x] = m.step x := by
  rw [run]
  cases h : m.step x with
  | error e => rfl
  | ok m' => rfl

/-- A machine that has computed what an execution has: the array is the data buffer, and each named
node's value is in its register. -/
structure Holds (s : Execution Float) (array : ArrayId) (named : List NodeId) (m : Machine) :
    Prop where
  data : m.data.toList = s.contents array
  values : ∀ r i : Nat, named[r]? = some i → m.registers[r]? = some (s.values i)

variable {m : Machine} {s : Execution Float} {array : ArrayId} {g : Graph} {nodes : List Node}
  {n : Node} {named : List NodeId}

/-- An operand that is a constant or has a register stands for its node's value. -/
theorem Holds.value {i : Nat} (h : m.Holds s array named)
    (hconst : ∀ x, g.constant? i = some x → s.values i = x)
    (hnamed : g.constant? i = none → i ∈ named) :
    m.value (operand g named i) = .ok (s.values i) := by
  unfold operand
  cases hx : g.constant? i with
  | some x => exact congrArg Except.ok (hconst x hx).symm
  | none =>
    have hlt := List.idxOf_lt_length_iff.mpr (hnamed hx)
    have hr := h.values _ i (List.getElem?_eq_some_iff.mpr ⟨hlt, List.getElem_idxOf hlt⟩)
    simp [Machine.value, hr]

/-- A value that is put into the next register becomes the value of the next name. -/
theorem Holds.setRegister {i : Nat} {t : Execution Float} (h : m.Holds s array named)
    (hsize : named.length < m.registers.size) (hdata : t.contents array = s.contents array)
    (hkept : ∀ j ∈ named, t.values j = s.values j) (hx : t.values i = x) :
    ∃ m', m.setRegister named.length x = .ok m' ∧ m'.Holds t array (named ++ [i]) ∧
      m'.out = m.out ∧ m'.registers.size = m.registers.size := by
  refine ⟨_, if_pos hsize, ⟨h.data.trans hdata.symm, ?_⟩, rfl, by simp⟩
  intro r j hj
  by_cases hr : r = named.length
  · subst hr
    have hji : i = j := by simpa using hj
    subst hji
    simp [hsize, hx]
  · have hlt : r < named.length := by
      obtain ⟨hlt, _⟩ := List.getElem?_eq_some_iff.mp hj
      simp only [List.length_append, List.length_singleton] at hlt
      omega
    rw [List.getElem?_append_left hlt] at hj
    have hv := h.values r j hj
    rw [← hkept j (List.mem_of_getElem? hj)] at hv
    simpa [Array.getElem?_setIfInBounds, Ne.symm hr] using hv

theorem step_kept (hfresh : ∀ k ∈ nodes, k.id ≠ n.id) {j : Nat} (hj : j ∈ names nodes) :
    (s.step .float n).values j = s.values j := by
  obtain ⟨k, hk, _, rfl⟩ := mem_names.mp hj
  exact if_neg (hfresh k hk)

/-- A node with a name puts its value into the next register. -/
theorem Holds.put (h : m.Holds s array (names nodes)) (hfresh : ∀ k ∈ nodes, k.id ≠ n.id)
    (hn : isNamed n = true) (hsize : (names (nodes ++ [n])).length ≤ m.registers.size)
    (hstored : n.kind.stored s.values array (s.contents array) = s.contents array)
    (hrun : m.run is = m.setRegister (names nodes).length
      (n.kind.value .float s.values fun a _ => s.contents a)) :
    ∃ m', m.run is = .ok m' ∧ m'.Holds (s.step .float n) array (names (nodes ++ [n])) ∧
      m'.out = m.out ∧ m'.registers.size = m.registers.size := by
  rw [names_snoc hn] at hsize ⊢
  simp only [List.length_append, List.length_singleton] at hsize
  rw [hrun]
  exact h.setRegister (by omega) hstored (fun j hj => step_kept hfresh hj) (if_pos rfl)

/-- A node without a name leaves the registers alone. -/
theorem Holds.leave (h : m.Holds s array (names nodes)) (hfresh : ∀ k ∈ nodes, k.id ≠ n.id)
    (hn : isNamed n = false) {m' : Machine} (hr : m'.registers = m.registers)
    (hdata : m'.data.toList = (s.step .float n).contents array) :
    m'.Holds (s.step .float n) array (names (nodes ++ [n])) := by
  refine ⟨hdata, ?_⟩
  intro r i hi
  rw [names_snoc_unnamed hn] at hi
  rw [hr, h.values r i hi, step_kept hfresh (List.mem_of_getElem? hi)]

/-- The instruction of a node does to the machine what the node does to the execution. -/
theorem Holds.run_instr (h : m.Holds s array (names nodes))
    (hsize : (names (nodes ++ [n])).length ≤ m.registers.size)
    (hfresh : ∀ k ∈ nodes, k.id ≠ n.id)
    (hconst : ∀ i : Nat, i ∈ n.kind.operands → ∀ x, g.constant? i = some x → s.values i = x)
    (hnamed : ∀ i : Nat, i ∈ n.kind.operands → g.constant? i = none → i ∈ names nodes)
    (harray : ∀ a, n.kind.array? = some a → a = array)
    (hcell : ∀ c, n.kind.cell? = some c → c < (s.contents array).length) :
    ∃ m', m.run (instr g (names nodes) n) = .ok m' ∧
      m'.Holds (s.step .float n) array (names (nodes ++ [n])) ∧
      m'.out = m.out ∧ m'.registers.size = m.registers.size := by
  have hval : ∀ i : Nat, i ∈ n.kind.operands → m.value (operand g (names nodes) i) =
      .ok (s.values i) := by
    intro i hi
    exact h.value (hconst i hi) (hnamed i hi)
  cases hk : n.kind with
  | const x =>
    have hun : isNamed n = false := by simp [isNamed, hk, Kind.constant?]
    refine ⟨m, by simp [instr, hk, run], h.leave hfresh hun rfl ?_, rfl, rfl⟩
    exact h.data.trans (by simp [Execution.step, Kind.stored, hk])
  | binary op a b =>
    have ha := hval a (by simp [hk, Kind.operands])
    have hb := hval b (by simp [hk, Kind.operands])
    refine h.put hfresh (by simp [isNamed, hk, Kind.isPure, Kind.constant?]) hsize
      (by simp [hk, Kind.stored]) ?_
    simp only [instr, hk, run_singleton, step, ha, hb, Kind.value, Interpretation.float_binary]
    rfl
  | unary op a =>
    have ha := hval a (by simp [hk, Kind.operands])
    refine h.put hfresh (by simp [isNamed, hk, Kind.isPure, Kind.constant?]) hsize
      (by simp [hk, Kind.stored]) ?_
    simp only [instr, hk, run_singleton, step, ha, Kind.value, Interpretation.float_unary]
    rfl
  | result a =>
    have ha := hval a (by simp [hk, Kind.operands])
    refine h.put hfresh (by simp [isNamed, hk, Kind.isPure, Kind.constant?]) hsize
      (by simp [hk, Kind.stored]) ?_
    simp only [instr, hk, run_singleton, step, ha]
    rfl
  | read a c e =>
    have ha := harray a (by simp [hk, Kind.array?])
    have hc := hcell c (by simp [hk, Kind.cell?])
    subst ha
    have hload : m.load .data c = .ok ((s.contents a).getD c 0) := by
      rw [← h.data, Array.length_toList] at hc
      simp [load, buffer, ← h.data, hc]
    refine h.put hfresh (by simp [isNamed, hk, Kind.isPure, Kind.constant?]) hsize
      (by simp [hk, Kind.stored]) ?_
    simp only [instr, hk, run_singleton, step, hload]
    rfl
  | write a c v =>
    have ha := harray a (by simp [hk, Kind.array?])
    have hc := hcell c (by simp [hk, Kind.cell?])
    subst ha
    have hun : isNamed n = false := by simp [isNamed, hk, Kind.isPure]
    have hlt : c < m.data.size := by rwa [← h.data, Array.length_toList] at hc
    refine ⟨{ m with data := m.data.setIfInBounds c (s.values v) }, ?_,
      h.leave hfresh hun rfl ?_, rfl, rfl⟩
    · have hv := hval v (by simp [hk, Kind.operands])
      simp only [instr, hk, run_singleton, step, hv]
      exact if_pos hlt
    · have hset : (s.step .float n).contents a = (s.contents a).set c (s.values v) := by
        simp [Execution.step, hk, Kind.stored]
      rw [hset, ← h.data]
      exact Array.toList_setIfInBounds

/-- Running the code of orderly nodes executes them. -/
theorem run_code (h : Orderly nodes) (hconf : Confined g array length nodes)
    (initial : ArrayId → List Float) (hlen : (initial array).length = length)
    (hdata : m.data.toList = initial array) (hsize : (names nodes).length ≤ m.registers.size) :
    ∃ m', m.run (code g nodes) = .ok m' ∧
      m'.Holds ((Execution.start .float initial).run .float nodes) array (names nodes) ∧
      m'.out = m.out := by
  suffices hrun : ∃ m', m.run (code g nodes) = .ok m' ∧
      m'.Holds ((Execution.start .float initial).run .float nodes) array (names nodes) ∧
      m'.out = m.out ∧ m'.registers.size = m.registers.size by
    obtain ⟨m', hm, hh, ho, _⟩ := hrun
    exact ⟨m', hm, hh, ho⟩
  induction h with
  | nil => exact ⟨m, rfl, ⟨hdata, nofun⟩, rfl, rfl⟩
  | @snoc nodes n h hn ih =>
    have hle : (names nodes).length ≤ m.registers.size := by
      rw [names_append, List.length_append] at hsize
      omega
    obtain ⟨m₁, hrun, hh, ho, hr⟩ := ih hconf.left hle
    have hcl : ((Execution.start .float initial).run .float nodes |>.contents array).length =
        length := (Execution.length_contents_run ..).trans hlen
    have hconst : ∀ i : Nat, i ∈ n.kind.operands → ∀ x, g.constant? i = some x →
        ((Execution.start .float initial).run .float nodes).values i = x := by
      intro i hi x hx
      obtain ⟨k, hk, rfl, _⟩ := hconf.operand_mem hn hi
      exact hconf.left.value_of_constant h hk hx initial
    obtain ⟨m₂, hrun₂, hh₂, ho₂, hr₂⟩ := hh.run_instr (hr ▸ hsize) hn.fresh hconst
      (hconf.operand_named hn) (hconf.touched n (by simp)) (hcl ▸ hconf.cells n (by simp))
    refine ⟨m₂, ?_, by rwa [Execution.run_snoc], ho₂.trans ho, hr₂.trans hr⟩
    rw [code_snoc, run_append, hrun]
    exact hrun₂

/-- The stores fill the result buffer from the given slot on. -/
theorem Holds.run_stores (h : m.Holds s array named) (slots : List NodeId)
    (hconst : ∀ i ∈ slots, ∀ x, g.constant? i = some x → s.values i = x)
    (hnamed : ∀ i ∈ slots, g.constant? i = none → i ∈ named)
    (hout : m.out.toList = done ++ rest) (hlen : rest.length = slots.length) :
    ∃ m', m.run (stores g .out named done.length slots) = .ok m' ∧
      m'.out.toList = done ++ slots.map s.values := by
  induction slots generalizing m done rest with
  | nil =>
    have hrest : rest = [] := List.length_eq_zero_iff.mp hlen
    exact ⟨m, rfl, by rw [hout, hrest]; rfl⟩
  | cons i slots ih =>
    obtain ⟨x, rest, rfl⟩ := List.exists_cons_of_length_eq_add_one hlen
    have hv : m.value (operand g named i) = .ok (s.values i) :=
      h.value (hconst i (by simp)) (hnamed i (by simp))
    have hlt : done.length < m.out.size := by
      rw [← Array.length_toList, hout]
      simp
    obtain ⟨m', hrun, hm'⟩ := @ih { m with out := m.out.setIfInBounds done.length (s.values i) }
      (done ++ [s.values i]) rest ⟨h.data, h.values⟩
      (fun j hj => hconst j (List.mem_cons_of_mem _ hj))
      (fun j hj => hnamed j (List.mem_cons_of_mem _ hj)) (by simp [hout]) (by simpa using hlen)
    refine ⟨m', ?_, by simpa using hm'⟩
    rw [stores, run, step, hv]
    have hstore : m.store .out done.length (s.values i) =
        .ok { m with out := m.out.setIfInBounds done.length (s.values i) } := if_pos hlt
    change (m.store .out done.length (s.values i)).bind (run · _) = _
    rw [hstore]
    rw [List.length_append] at hrun
    exact hrun

end Machine

theorem Program.call_of_run {p : Program} {m : Machine} (hlen : input.length = p.inputLength)
    (h : (p.start input).run p.instrs.toList = .ok m) :
    p.call input = .ok (m.buffer p.returns).toList := by
  rw [call, h]
  simp [hlen]

/-- The assembled program, called on what an array holds, returns what executing the nodes
delivers. The values may be those of a larger execution. -/
theorem Assembly.call_program {g : Graph} {nodes : List Node} (h : Orderly nodes)
    (hconf : Confined g array length nodes) (initial : ArrayId → List Float)
    (hlen : (initial array).length = length) (binding : Binding) (s : Execution Float)
    (hv : ∀ n ∈ nodes, ((Execution.start .float initial).run .float nodes).values n.id =
      s.values n.id)
    (hc : ((Execution.start .float initial).run .float nodes).contents array = s.contents array)
    (hslots : ∀ slots, binding = .results slots → ∀ i ∈ slots,
      (∃ x, g.constant? i = some x ∧ s.values i = x) ∨
        ∃ n ∈ nodes, n.id = i ∧ n.kind.isPure = true) :
    (program g length nodes binding).call (initial array) = .ok (s.delivered array binding) := by
  obtain ⟨m, hrun, hm, hout⟩ := Machine.run_code h hconf initial hlen
    (m := (program g length nodes binding).start (initial array)) rfl
    (by cases binding <;> simp [Program.start, program])
  have hm : m.Holds s array (names nodes) := by
    refine ⟨hm.data.trans hc, ?_⟩
    intro r i hr
    obtain ⟨n, hn, _, rfl⟩ := mem_names.mp (List.mem_of_getElem? hr)
    exact (hm.values r _ hr).trans (congrArg some (hv n hn))
  cases binding with
  | inPlace =>
    rw [Program.call_of_run hlen hrun]
    exact congrArg Except.ok hm.data
  | results slots =>
    have hslot := hslots slots rfl
    have hconst : ∀ i ∈ slots, ∀ x, g.constant? i = some x → s.values i = x := by
      intro i hi x hx
      rcases hslot i hi with ⟨y, hy, hs⟩ | ⟨n, hn, rfl, _⟩
      · rw [hs]
        exact Option.some.inj (hy.symm.trans hx)
      · rw [← hv n hn]
        exact hconf.value_of_constant h hn hx initial
    have hnamed : ∀ i ∈ slots, g.constant? i = none → i ∈ names nodes := by
      intro i hi hx
      rcases hslot i hi with ⟨y, hy, _⟩ | ⟨n, hn, rfl, hp⟩
      · rw [hx] at hy
        cases hy
      · exact hconf.mem_names hn hp hx
    have hzero : m.out.toList = [] ++ List.replicate slots.length 0 := by
      rw [hout]
      simp [Program.start, program]
    obtain ⟨m', hrun', hout'⟩ := hm.run_stores slots hconst hnamed hzero (by simp)
    have hall : ((program g length nodes (.results slots)).start (initial array)).run
        (code g nodes ++ stores g .out (names nodes) 0 slots) = .ok m' := by
      rw [Machine.run_append, hrun]
      exact hrun'
    rw [Program.call_of_run hlen hall]
    exact congrArg Except.ok hout'

end FlatFourier
