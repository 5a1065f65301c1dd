import FlatFourier.Proofs.Lines

namespace FlatFourier

open Text Listing

/-- A result behind a step that has succeeded. -/
theorem ok_of_bind {x : Except ε α} {f : α → Except ε β} (h : x >>= f = .ok c) :
    ∃ a, x = .ok a ∧ f a = .ok c := by
  cases x with
  | error e => cases h
  | ok a => exact ⟨a, rfl, h⟩

namespace Listing

/-- Lines of a body are indented. -/
def indent (s : Text) : Text :=
  ' ' :: ' ' :: ' ' :: ' ' :: s

/-- The lines that fill the slots from the given one on. -/
def storeLines (g : Graph) : Nat → List NodeId → List Text
  | _, [] => []
  | slot, i :: slots =>
    assignment (indexed "out".toList slot) (token g i) :: storeLines g (slot + 1) slots

def deliveryLines (g : Graph) (array : Text) : Binding → List Text
  | .inPlace => [array]
  | .results slots => storeLines g 0 slots ++ ["out".toList]

def bodyLines (g : Graph) (info : ArrayInfo) (nodes : List Node) (binding : Binding) : List Text :=
  (preparation info binding).map String.toList ++ nodes.flatMap (line g info.name.toList) ++
    deliveryLines g info.name.toList binding

/-- The lines of a kernel text. -/
def kernelLines (g : Graph) (info : ArrayInfo) (count : Nat) (nodes : List Node)
    (binding : Binding) : List Text :=
  (header info count).map String.toList ++ (bodyLines g info nodes binding).map indent ++
    [['\x7d']]

variable {g : Graph} {array : Text} {info : ArrayInfo}

theorem newline_not_mem_digits (n : Nat) : '\n' ∉ Nat.toDigits 10 n :=
  fun hm => nomatch digits_toDigits n _ hm

theorem newline_not_mem_token (g : Graph) (i : NodeId) : '\n' ∉ token g i :=
  fun hm => nomatch (isOperand_token g i).solid _ hm

theorem newline_not_mem_line (harray : '\n' ∉ array) (n : Node) :
    ∀ l ∈ line g array n, '\n' ∉ l := by
  have hbinding : ∀ s, '\n' ∉ s → '\n' ∉ binding n.id s := by
    intro s hs
    simp [binding, assignment, name, newline_not_mem_digits, hs]
  cases hk : n.kind with
  | const x => simp [line, hk]
  | binary op i j =>
    have hop : '\n' ∉ op.symbol.toList := by cases op <;> decide
    simp [line, hk, hbinding, newline_not_mem_token, hop]
  | unary op i =>
    have hop : '\n' ∉ op.symbol.toList := by cases op <;> decide
    simp [line, hk, hbinding, newline_not_mem_token, hop]
  | read a c e => simp [line, hk, hbinding, indexed, newline_not_mem_digits, harray]
  | write a c i =>
    simp [line, hk, assignment, indexed, newline_not_mem_digits, newline_not_mem_token, harray]
  | result i => simp [line, hk, hbinding, newline_not_mem_token]

theorem newline_not_mem_storeLines (g : Graph) (slot : Nat) (slots : List NodeId) :
    ∀ l ∈ storeLines g slot slots, '\n' ∉ l := by
  induction slots generalizing slot with
  | nil => nofun
  | cons i slots ih =>
    refine List.forall_mem_cons.mpr ⟨?_, ih _⟩
    simp [assignment, indexed, newline_not_mem_digits, newline_not_mem_token]

/-- No line of a kernel holds a newline. -/
theorem newline_not_mem_kernelLines (h : '\n' ∉ info.name.toList) (count : Nat)
    (nodes : List Node) (binding : Binding) :
    ∀ l ∈ kernelLines g info count nodes binding, '\n' ∉ l := by
  have hheader : ∀ l ∈ (header info count).map String.toList, '\n' ∉ l := by
    simp [header, quoted, toString, newline_not_mem_digits, h]
  have hprep : ∀ l ∈ (preparation info binding).map String.toList, '\n' ∉ l := by
    cases binding <;> simp [preparation, toString, newline_not_mem_digits, h]
  have hnodes : ∀ l ∈ nodes.flatMap (line g info.name.toList), '\n' ∉ l := by
    intro l hl
    obtain ⟨n, _, hl⟩ := List.mem_flatMap.mp hl
    exact newline_not_mem_line h n l hl
  have hbody : ∀ l ∈ bodyLines g info nodes binding, '\n' ∉ l := by
    refine List.forall_mem_append.mpr ⟨List.forall_mem_append.mpr ⟨hprep, hnodes⟩, ?_⟩
    cases binding with
    | inPlace => simpa [deliveryLines] using h
    | results slots =>
      exact List.forall_mem_append.mpr ⟨newline_not_mem_storeLines g 0 slots, by decide⟩
  refine List.forall_mem_append.mpr ⟨List.forall_mem_append.mpr ⟨hheader, ?_⟩, by decide⟩
  intro l hl
  obtain ⟨m, hm, rfl⟩ := List.mem_map.mp hl
  simpa [indent] using hbody m hm

end Listing

/-- A node whose line may stand behind those of the given nodes: it is none of them, and each of
its operands is a constant or has a name there. -/
structure Node.Printable (g : Graph) (before : List Node) (n : Node) : Prop where
  fresh : ∀ m ∈ before, m.id ≠ n.id
  operands : ∀ i ∈ n.kind.operands, g.constant? i = none → i ∈ Assembly.names before

/-- Nodes that may be printed one after another. -/
abbrev Printed (g : Graph) : List Node → Prop :=
  Successive fun before n => n.Printable g before

theorem Orderly.printed {nodes : List Node} (h : Orderly nodes)
    (hconf : Confined g array length nodes) : Printed g nodes := by
  induction h with
  | nil => exact .nil
  | snoc h hn ih => exact (ih hconf.left).snoc ⟨hn.fresh, hconf.operand_named hn⟩

theorem Assembly.not_mem_names {nodes : List Node} (h : ∀ m ∈ nodes, m.id ≠ i) :
    i ∉ names nodes := by
  intro hm
  obtain ⟨m, hm, _, hid⟩ := mem_names.mp hm
  exact h m hm hid

/-- A store goes into the data. -/
def Instr.intoData : Instr → Instr
  | store _ index source => store .data index source
  | x => x

/-- The program with the data in the place of its result buffer. -/
def Program.captured (p : Program) : Program :=
  { p with returns := .data, instrs := p.instrs.map Instr.intoData }

/-- Whether an array of the given name hides the result buffer. -/
def Binding.captures (array : String) : Binding → Bool
  | inPlace => false
  | results _ => array = "out"

theorem Binding.captures_of_ne (h : array ≠ "out") (binding : Binding) :
    binding.captures array = false := by
  cases binding <;> simp [captures, h]

namespace Assembly

variable {g : Graph} {info : ArrayInfo} {binding : Binding}

/-- The program that the text of a kernel is read as. -/
def reading (g : Graph) (info : ArrayInfo) (nodes : List Node) (binding : Binding) : Program :=
  if binding.captures info.name then (program g info.length nodes binding).captured
  else program g info.length nodes binding

theorem reading_of_free (h : binding.captures info.name = false) (nodes : List Node) :
    reading g info nodes binding = program g info.length nodes binding := by
  rw [reading, h]
  rfl

theorem map_intoData_stores (buffer : Buffer) (named : List NodeId) (slot : Nat)
    (slots : List NodeId) :
    (stores g buffer named slot slots).map Instr.intoData = stores g .data named slot slots := by
  induction slots generalizing slot with
  | nil => rfl
  | cons i slots ih => rw [stores, List.map_cons, ih, stores, Instr.intoData]

/-- Only the slots lie in the result buffer. -/
theorem map_intoData_codeFrom (before : List NodeId) (nodes : List Node) :
    (codeFrom g before nodes).map Instr.intoData = codeFrom g before nodes := by
  induction nodes generalizing before with
  | nil => rfl
  | cons n nodes ih =>
    have hinstr : (instr g before n).map Instr.intoData = instr g before n := by
      unfold instr
      cases n.kind <;> rfl
    rw [codeFrom, List.map_append, hinstr, ih]

theorem captured_program (length : Nat) (nodes : List Node) (slots : List NodeId) :
    (program g length nodes (.results slots)).captured = ⟨length, some slots.length, .data,
      (names nodes).length,
      (code g nodes ++ stores g .data (names nodes) 0 slots).toArray⟩ := by
  simp only [Program.captured, program, List.map_toArray, List.map_append, map_intoData_stores, code,
    map_intoData_codeFrom]

end Assembly

namespace Program

namespace Body

/-- A body that has gone on with some instructions. -/
def extend (b : Body) (bound : Std.HashMap String Nat) (instrs : List Instr) : Body :=
  { b with names := bound, instrs := b.instrs ++ instrs.toArray }

/-- Where the name of the result buffer leads: to the data, if the array bears that name too. -/
def slotBuffer (b : Body) : Buffer :=
  if b.data = "out".toList then .data else .out

@[simp] theorem extend_data (b : Body) (bound : Std.HashMap String Nat) (instrs : List Instr) :
    (b.extend bound instrs).data = b.data := rfl

theorem extend_nil (b : Body) : b.extend b.names [] = b := by
  simp [extend]

theorem extend_singleton (b : Body) (bound : Std.HashMap String Nat) (x : Instr) :
    b.extend bound [x] = { b with names := bound, instrs := b.instrs.push x } := by
  rw [extend, Array.push_eq_append]

theorem extend_extend (b : Body) (bound bound' : Std.HashMap String Nat) (xs ys : List Instr) :
    (b.extend bound xs).extend bound' ys = b.extend bound' (xs ++ ys) := by
  simp [extend]

end Body

namespace Reader

/-- Lines that take the reader from one state to another, whatever comes behind them. -/
def Reads (r : Reader) (ls : List Text) (r' : Reader) : Prop :=
  ∀ count rest, r.lines count (ls ++ rest) = r'.lines (count + ls.length) rest

variable {r r' r'' : Reader} {ls ls' : List Text} {b b' : Body} {s : Text}

theorem Reads.nil (r : Reader) : Reads r [] r :=
  fun _ _ => rfl

theorem Reads.trans (h : Reads r ls r') (h' : Reads r' ls' r'') : Reads r (ls ++ ls') r'' := by
  intro count rest
  rw [List.append_assoc, h, h', List.length_append, Nat.add_assoc]

theorem Reads.filler (hf : isFiller s.trim = true) : Reads r [s] r := by
  intro count rest
  rw [List.singleton_append, lines, if_pos hf]
  rfl

theorem Reads.line (hf : isFiller s.trim = false) (hs : r.line s.trim = .ok r') :
    Reads r [s] r' := by
  intro count rest
  rw [List.singleton_append, lines, hf, hs]
  rfl

/-- A statement of a body. -/
structure Sentence (s : Text) : Prop where
  trimmed : s.trim = s
  filler : isFiller s = false
  header : "pub fn ".toList.isPrefixOf? s = none
  brace : s ≠ ['\x7d']

theorem Sentence.of_ends (hh : s.head? = some c) (hc : isWordChar c = true)
    (hl : s.getLast? = some d) (hd : isBlank d = false)
    (hp : "pub fn ".toList.isPrefixOf? s = none) : Sentence s := by
  obtain ⟨t, rfl⟩ : ∃ t, s = c :: t := by
    cases s with
    | nil => cases hh
    | cons e t => exact ⟨t, by rw [Option.some.inj hh]⟩
  have hne : ∀ e, isWordChar e = false → e ≠ c := by
    intro e he hec
    rw [hec, hc] at he
    cases he
  refine ⟨trim_of_ends hh (isBlank_of_isWordChar hc) hl hd, ?_, hp, ?_⟩
  · simp [isFiller, List.isPrefixOf, hne '/' rfl, hne '#' rfl]
  · intro he
    exact hne _ rfl (List.head_eq_of_cons_eq he).symm

theorem Reads.sentence (h : Sentence s) (hs : b.statement s = .ok b') :
    Reads (.body b) [indent s] (.body b') := by
  have htrim : (indent s).trim = s := h.trimmed
  refine .line (htrim.symm ▸ h.filler) ?_
  rw [htrim, Reader.line, h.header]
  simp only [h.brace, if_false, hs]
  rfl

/-- A statement that is refused is reported with the number of its line. -/
theorem Reads.refused (h : Reads r ls (.body b)) (hs : Sentence s)
    (he : b.statement s = .error fault) (rest : List Text) :
    r.lines 0 (ls ++ indent s :: rest) = .error (.badLine (ls.length + 1) fault) := by
  have htrim : (indent s).trim = s := hs.trimmed
  have hline : (Reader.body b).line s = .error fault := by
    rw [Reader.line, hs.header]
    simp only [hs.brace, if_false, he]
    rfl
  rw [h, lines, htrim, hs.filler, hline, Nat.zero_add]
  rfl

theorem sentence_binding (i : Nat) (s : Text) : Sentence (binding i s) := by
  have hl : (binding i s).getLast? = some ';' := by
    rw [binding, assignment, ← List.append_assoc]
    exact List.getLast?_concat
  exact .of_ends (c := 'l') rfl rfl hl rfl rfl

theorem sentence_store (hs : isIdentifier s = true) (c : Nat) (t : Text) :
    Sentence (assignment (indexed s c) t) := by
  have hword := isWordChar_of_isIdentifier hs
  obtain ⟨d, u, rfl⟩ := List.exists_cons_of_ne_nil (isIdentifier_ne_nil hs)
  exact .of_ends (c := d) rfl (hword d (by simp)) List.getLast?_concat rfl
    (isPrefixOf?_store hword "pub".toList ' ' "fn ".toList (by decide) rfl (by decide))

variable {g : Graph} {nodes : List Node} {n : Node}

open Assembly

/-- The line of a node with a name binds it to an expression. -/
theorem reads_binding (h : Registers (names nodes) b.names) (hn : n.Printable g nodes)
    (hnamed : isNamed n = true) (he : b.expression (names nodes).length s = .ok x)
    (hx : instr g (names nodes) n = [x]) (hline : Listing.line g b.data n = [binding n.id s]) :
    ∃ bound, Registers (names (nodes ++ [n])) bound ∧
      Reads (.body b) ((Listing.line g b.data n).map indent)
        (.body (b.extend bound (instr g (names nodes) n))) := by
  have hi := not_mem_names hn.fresh
  refine ⟨_, names_snoc hnamed ▸ h.insert hi, ?_⟩
  rw [hline, hx]
  refine .sentence (sentence_binding _ _) ?_
  rw [Body.statement_binding h hi, he, Body.extend_singleton]
  rfl

/-- The line of a node is read as its instruction. -/
theorem reads_line (h : Registers (names nodes) b.names) (hb : isIdentifier b.data = true)
    (hout : ∀ o ∈ b.out, '[' ∉ o.1) (hn : n.Printable g nodes)
    (hcell : ∀ c, n.kind.cell? = some c → c < countBound) :
    ∃ bound, Registers (names (nodes ++ [n])) bound ∧
      Reads (.body b) ((Listing.line g b.data n).map indent)
        (.body (b.extend bound (instr g (names nodes) n))) := by
  have hop : ∀ i : Nat, i ∈ n.kind.operands →
      b.operand (token g i) = .ok (Assembly.operand g (names nodes) i) :=
    fun i hi => Body.operand_token h (hn.operands i hi)
  cases hk : n.kind with
  | const x =>
    have hline : Listing.line g b.data n = [] := by simp [Listing.line, hk]
    have hcode : instr g (names nodes) n = [] := by simp [instr, hk]
    have hcat : names (nodes ++ [n]) = names nodes :=
      names_snoc_unnamed (by simp [isNamed, hk, Kind.constant?])
    refine ⟨b.names, hcat ▸ h, ?_⟩
    rw [hline, hcode, Body.extend_nil]
    exact .nil _
  | binary op i j =>
    have hi := hop i (by simp [hk, Kind.operands])
    have hj := hop j (by simp [hk, Kind.operands])
    have he := Body.expression_binary (isOperand_token g i) (isOperand_token g j) b
      (names nodes).length op
    rw [hi, hj] at he
    exact reads_binding h hn (by simp [isNamed, hk, Kind.isPure, Kind.constant?]) he
      (by simp [instr, hk]) (by simp [Listing.line, hk])
  | unary op i =>
    have hi := hop i (by simp [hk, Kind.operands])
    have he := b.expression_unary (names nodes).length op (token g i)
    rw [hi] at he
    exact reads_binding h hn (by simp [isNamed, hk, Kind.isPure, Kind.constant?]) he
      (by simp [instr, hk]) (by simp [Listing.line, hk])
  | read a c e =>
    have he := Body.expression_indexed hb (hcell c (by simp [hk, Kind.cell?]))
      (names nodes).length
    exact reads_binding h hn (by simp [isNamed, hk, Kind.isPure, Kind.constant?]) he
      (by simp [instr, hk]) (by simp [Listing.line, hk])
  | result i =>
    have hi := hop i (by simp [hk, Kind.operands])
    have he := Body.expression_operand (isOperand_token g i) b (names nodes).length
    rw [hi] at he
    exact reads_binding h hn (by simp [isNamed, hk, Kind.isPure, Kind.constant?]) he
      (by simp [instr, hk]) (by simp [Listing.line, hk])
  | write a c i =>
    have hi := hop i (by simp [hk, Kind.operands])
    have hline : Listing.line g b.data n = [assignment (indexed b.data c) (token g i)] := by
      simp [Listing.line, hk]
    have hcode :
        instr g (names nodes) n = [.store .data c (Assembly.operand g (names nodes) i)] := by
      simp [instr, hk]
    have hcat : names (nodes ++ [n]) = names nodes :=
      names_snoc_unnamed (by simp [isNamed, hk, Kind.isPure])
    have hword := isWordChar_of_isIdentifier hb
    refine ⟨b.names, hcat ▸ h, ?_⟩
    rw [hline, hcode]
    refine .sentence (sentence_store hb c _) ?_
    rw [Body.statement_store hword (not_mem_of_word hword rfl) hout b.bufferNamed_data
      (hcell c (by simp [hk, Kind.cell?])), hi, Body.extend_singleton]
    rfl

/-- The lines of nodes, each printable behind those before it, are read as their code. -/
theorem reads_lines (h : Printed g nodes) (hb : isIdentifier b.data = true)
    (hout : ∀ o ∈ b.out, '[' ∉ o.1) (hnames : Registers [] b.names)
    (hcell : ∀ n ∈ nodes, ∀ c, n.kind.cell? = some c → c < countBound) :
    ∃ bound, Registers (names nodes) bound ∧
      Reads (.body b) ((nodes.flatMap (Listing.line g b.data)).map indent)
        (.body (b.extend bound (code g nodes))) := by
  induction h with
  | nil => exact ⟨b.names, hnames, b.extend_nil.symm ▸ .nil _⟩
  | @snoc nodes n h hn ih =>
    obtain ⟨bound, hr, hreads⟩ := ih fun m hm => hcell m (by simp [hm])
    obtain ⟨bound', hr', hreads'⟩ :=
      reads_line (b := b.extend bound (code g nodes)) hr hb hout hn (hcell n (by simp))
    refine ⟨bound', hr', ?_⟩
    rw [code_snoc, ← Body.extend_extend, List.flatMap_append, List.map_append,
      List.flatMap_singleton]
    exact hreads.trans hreads'

/-- The line of a node is refused for the first of its operands that has no name. -/
theorem line_refused (h : Registers (names nodes) b.names) (hb : isIdentifier b.data = true)
    (hout : ∀ o ∈ b.out, '[' ∉ o.1) (hfresh : ∀ m ∈ nodes, m.id ≠ n.id)
    (hcell : ∀ c, n.kind.cell? = some c → c < countBound) {done rest : List NodeId} {i : NodeId}
    (huse : n.kind.operands = done ++ i :: rest)
    (hdone : ∀ j ∈ done, g.constant? j = none → j ∈ names nodes) (hx : g.constant? i = none)
    (hi : i ∉ names nodes) :
    ∃ s, Listing.line g b.data n = [s] ∧ Sentence s ∧
      b.statement s = .error (.unboundName (name i)) := by
  have hunbound := Body.operand_unbound h hx hi
  -- a name is bound only when its expression has been read
  have hbinding : ∀ s, Listing.line g b.data n = [binding n.id s] →
      b.expression (names nodes).length s = .error (.unboundName (name i)) →
      ∃ s, Listing.line g b.data n = [s] ∧ Sentence s ∧
        b.statement s = .error (.unboundName (name i)) := by
    intro s hline he
    refine ⟨_, hline, sentence_binding _ _, ?_⟩
    rw [Body.statement_binding h (not_mem_names hfresh), he]
    rfl
  have hmem : i ∈ n.kind.operands := by simp [huse]
  cases hk : n.kind with
  | const x => simp [hk, Kind.operands] at hmem
  | read a c e => simp [hk, Kind.operands] at hmem
  | binary op j k =>
    have he := Body.expression_binary (isOperand_token g j) (isOperand_token g k) b
      (names nodes).length op
    rw [hk, Kind.operands] at huse
    cases done with
    | nil =>
      obtain rfl := List.head_eq_of_cons_eq huse
      rw [hunbound] at he
      exact hbinding _ (by simp [Listing.line, hk]) he
    | cons d done =>
      obtain ⟨rfl, htail⟩ := List.cons_eq_cons.mp huse
      obtain rfl : i = k := by
        have hm : i ∈ [k] := by simp [htail]
        simpa using hm
      rw [Body.operand_token h (hdone j (by simp)), hunbound] at he
      exact hbinding _ (by simp [Listing.line, hk]) he
  | unary op j =>
    obtain rfl : i = j := by simpa [hk, Kind.operands] using hmem
    have he := b.expression_unary (names nodes).length op (token g i)
    rw [hunbound] at he
    exact hbinding _ (by simp [Listing.line, hk]) he
  | result j =>
    obtain rfl : i = j := by simpa [hk, Kind.operands] using hmem
    have he := Body.expression_operand (isOperand_token g i) b (names nodes).length
    rw [hunbound] at he
    exact hbinding _ (by simp [Listing.line, hk]) he
  | write a c j =>
    obtain rfl : i = j := by simpa [hk, Kind.operands] using hmem
    have hword := isWordChar_of_isIdentifier hb
    have hline : Listing.line g b.data n = [assignment (indexed b.data c) (token g i)] := by
      simp [Listing.line, hk]
    refine ⟨_, hline, sentence_store hb c _, ?_⟩
    rw [Body.statement_store hword (not_mem_of_word hword rfl) hout b.bufferNamed_data
      (hcell c (by simp [hk, Kind.cell?])), hunbound]
    rfl

theorem statement_slot (hdata : '[' ∉ b.data) (hout : b.out = some ("out".toList, length))
    (g : Graph) (i : NodeId) {slot : Nat} (hlen : slot < countBound) :
    b.statement (assignment (indexed "out".toList slot) (token g i)) = (do
      let source ← b.operand (token g i)
      return { b with instrs := b.instrs.push (.store b.slotBuffer slot source) }) := by
  have hbuf : b.bufferNamed "out".toList = .ok b.slotBuffer := by
    simp only [Body.bufferNamed, Body.slotBuffer, hout, eq_comm]
    split <;> rfl
  have hword := isWordChar_of_isIdentifier (by decide : isIdentifier "out".toList = true)
  exact Body.statement_store hword hdata (by simp [hout]) hbuf hlen (token g i)

theorem reads_stores (hdata : '[' ∉ b.data) (hout : b.out = some ("out".toList, length))
    (h : Registers named b.names) (slots : List NodeId)
    (hnamed : ∀ i ∈ slots, g.constant? i = none → i ∈ named) (slot : Nat)
    (hlen : slot + slots.length ≤ countBound) :
    Reads (.body b) ((storeLines g slot slots).map indent)
      (.body (b.extend b.names (stores g b.slotBuffer named slot slots))) := by
  induction slots generalizing slot b with
  | nil => exact b.extend_nil.symm ▸ .nil _
  | cons i slots ih =>
    simp only [List.length_cons] at hlen
    have hfirst : Reads (.body b) [indent (assignment (indexed "out".toList slot) (token g i))]
        (.body (b.extend b.names [.store b.slotBuffer slot (Assembly.operand g named i)])) := by
      refine .sentence (sentence_store (by decide) slot _) ?_
      rw [statement_slot hdata hout g i (by omega), Body.operand_token h (hnamed i (by simp)),
        Body.extend_singleton]
      rfl
    have hrest := ih (b := b.extend b.names [.store b.slotBuffer slot
      (Assembly.operand g named i)]) hdata hout h
      (fun j hj => hnamed j (List.mem_cons_of_mem _ hj)) (slot + 1) (by omega)
    rw [Body.extend_extend] at hrest
    exact hfirst.trans hrest

/-- What has been read when the computation starts. -/
def prepared (info : ArrayInfo) (binding : Binding) : Body :=
  { Body.ofParameter info.name.toList with
    inputLength := some info.length
    out := match binding with
      | .inPlace => none
      | .results slots => some ("out".toList, slots.length) }

variable {info : ArrayInfo}

@[simp] theorem prepared_data (info : ArrayInfo) (binding : Binding) :
    (prepared info binding).data = info.name.toList := rfl

theorem reads_header (h : isIdentifier info.name.toList = true) (count : Nat) :
    Reads .start ((header info count).map String.toList)
      (.body (.ofParameter info.name.toList)) := by
  have htext : (s!"pub fn transform({info.name}: &[f64]) -> Vec<f64> \x7b").toList =
      "pub fn ".toList ++ ("transform(".toList ++ (info.name.toList ++
        ": &[f64]) -> Vec<f64> \x7b".toList)) := by
    simp [toString]
  have htrim : trim (s!"pub fn transform({info.name}: &[f64]) -> Vec<f64> \x7b").toList =
      (s!"pub fn transform({info.name}: &[f64]) -> Vec<f64> \x7b").toList :=
    trim_of_ends (c := 'p') (d := '\x7b') (by simp [toString]) rfl
      (by simp [toString, List.getLast?_cons]) rfl
  have hparam : parameter ("transform(".toList ++ (info.name.toList ++
      ": &[f64]) -> Vec<f64> \x7b".toList)) = .ok info.name.toList := by
    have hword := isWordChar_of_isIdentifier h
    have hcolon : ':' ∉ info.name.toList := not_mem_of_word hword rfl
    have hopen : cut ['('] ("transform(".toList ++ (info.name.toList ++
        ": &[f64]) -> Vec<f64> \x7b".toList)) =
        some ("transform".toList, info.name.toList ++ ": &[f64]) -> Vec<f64> \x7b".toList) :=
      cut_append (s := "transform".toList) (by decide) [] _
    have hname : cut ": &[f64]) -> Vec<f64> \x7b".toList (info.name.toList ++
        ": &[f64]) -> Vec<f64> \x7b".toList) = some (info.name.toList, []) :=
      cut_append hcolon " &[f64]) -> Vec<f64> \x7b".toList []
    have hsolid : trim info.name.toList = info.name.toList :=
      trim_of_solid fun c hc => isBlank_of_isWordChar (hword c hc)
    rw [parameter, hopen, Option.bind_some, hname]
    exact congrArg Except.ok hsolid
  refine (Reads.filler ?_).trans ((Reads.filler ?_).trans (.line ?_ ?_))
  · rw [trim_of_ends (c := '/') (d := '.') (by simp [toString]) rfl
      (by simp [toString, List.getLast?_cons]) rfl]
    simp [isFiller, toString]
  · decide
  · rw [htrim, htext]
    rfl
  · rw [htrim, htext, Reader.line, isPrefixOf?_append]
    simp only [hparam]
    rfl

theorem reads_assertion (hb : b.data = info.name.toList) (hlen : info.length < countBound) :
    Reads (.body b) [indent (s!"assert_eq!({info.name}.len(), {info.length});").toList]
      (.body { b with inputLength := some info.length }) := by
  have htext : (s!"assert_eq!({info.name}.len(), {info.length});").toList = "assert_eq!(".toList ++
      (b.data ++ ".len(), ".toList ++ Nat.toDigits 10 info.length ++ ");".toList) := by
    simp [toString, hb]
  have hs : b.statement (s!"assert_eq!({info.name}.len(), {info.length});").toList =
      .ok { b with inputLength := some info.length } := by
    rw [htext, Body.statement, isPrefixOf?_append]
    simp only [Body.assertLength, between_append, count?_toDigits hlen]
    rfl
  have hl : (s!"assert_eq!({info.name}.len(), {info.length});").toList.getLast? = some ';' := by
    simp [toString, List.getLast?_cons]
  exact .sentence (.of_ends (c := 'a') (by simp [toString]) rfl hl rfl (htext ▸ rfl)) hs

theorem reads_copy (h : isIdentifier b.data = true) (hb : b.data = info.name.toList) :
    Reads (.body b) [indent (s!"let mut {info.name} = {info.name}.to_vec();").toList]
      (.body b) := by
  have htext : (s!"let mut {info.name} = {info.name}.to_vec();").toList =
      "let mut ".toList ++ assignment b.data (b.data ++ ".to_vec()".toList) := by
    simp [toString, assignment, hb]
  have hblank : ' ' ∉ b.data := not_mem_of_word (isWordChar_of_isIdentifier h) rfl
  have hs : b.statement (s!"let mut {info.name} = {info.name}.to_vec();").toList = .ok b := by
    rw [htext]
    change b.declare (assignment b.data (b.data ++ ".to_vec()".toList)) = _
    simp only [Body.declare, Body.assignment?_assignment hblank, and_self, if_true]
    rfl
  have hl : (s!"let mut {info.name} = {info.name}.to_vec();").toList.getLast? = some ';' := by
    simp [toString, List.getLast?_cons]
  exact .sentence (.of_ends (c := 'l') (by simp [toString]) rfl hl rfl (htext ▸ rfl)) hs

theorem reads_declaration (b : Body) (hlen : length < countBound) :
    Reads (.body b) [indent (s!"let mut out = vec![0.0_f64; {length}];").toList]
      (.body { b with out := some ("out".toList, length) }) := by
  have htext : (s!"let mut out = vec![0.0_f64; {length}];").toList = "let mut ".toList ++
      assignment "out".toList ("vec![0.0_f64; ".toList ++ Nat.toDigits 10 length ++ [']']) := by
    simp [toString, assignment]
  have hs : b.statement (s!"let mut out = vec![0.0_f64; {length}];").toList =
      .ok { b with out := some ("out".toList, length) } := by
    have hcopy : "vec![0.0_f64; ".toList ++ Nat.toDigits 10 length ++ [']'] ≠
        b.data ++ ".to_vec()".toList := by
      intro he
      have hlast := congrArg List.reverse he
      simp at hlast
    rw [htext]
    change b.declare (assignment "out".toList _) = _
    simp only [Body.declare, Body.assignment?_assignment (s := "out".toList) (by decide), hcopy,
      and_false, if_false, between_append, count?_toDigits hlen]
    rfl
  have hl : (s!"let mut out = vec![0.0_f64; {length}];").toList.getLast? = some ';' := by
    simp [toString, List.getLast?_cons]
  exact .sentence (.of_ends (c := 'l') (by simp [toString]) rfl hl rfl (htext ▸ rfl)) hs

theorem reads_preparation (h : isIdentifier info.name.toList = true)
    (hlen : info.length < countBound) (binding : Binding)
    (hslots : ∀ slots, binding = .results slots → slots.length < countBound) :
    Reads (.body (.ofParameter info.name.toList))
      (((preparation info binding).map String.toList).map indent)
      (.body (prepared info binding)) := by
  have hfirst : Reads (.body (.ofParameter info.name.toList))
      (((preparation info .inPlace).map String.toList).map indent)
      (.body (prepared info .inPlace)) :=
    (reads_assertion rfl hlen).trans (reads_copy h rfl)
  cases binding with
  | inPlace => exact hfirst
  | results slots => exact hfirst.trans (reads_declaration _ (hslots slots rfl))

theorem reads_return (h : isIdentifier b.data = true) :
    Reads (.body b) [indent b.data] (.body { b with returns := some .data }) := by
  have hword := isWordChar_of_isIdentifier h
  have hblank : ' ' ∉ b.data := not_mem_of_word hword rfl
  have hparen : '(' ∉ b.data := not_mem_of_word hword rfl
  have hs : b.statement b.data = .ok { b with returns := some .data } := by
    rw [Body.statement, isPrefixOf?_of_not_mem (c := '(') (by decide) hparen,
      isPrefixOf?_of_not_mem (c := ' ') (by decide) hblank,
      isPrefixOf?_of_not_mem (c := ' ') (by decide) hblank]
    exact if_pos rfl
  obtain ⟨c, t, ht⟩ := List.exists_cons_of_ne_nil (isIdentifier_ne_nil h)
  have hlast : b.data.getLast?.isSome = true := by simpa using isIdentifier_ne_nil h
  obtain ⟨d, hd⟩ := Option.isSome_iff_exists.mp hlast
  exact .sentence (.of_ends (c := c) (by rw [ht]; rfl) (hword c (by simp [ht])) hd
    (isBlank_of_isWordChar (hword d (List.mem_of_getLast? hd)))
    (isPrefixOf?_of_not_mem (c := ' ') (by decide) hblank)) hs

theorem reads_return_out (hout : b.out = some ("out".toList, length)) :
    Reads (.body b) [indent "out".toList] (.body { b with returns := some b.slotBuffer }) := by
  have hs : b.statement "out".toList = .ok { b with returns := some b.slotBuffer } := by
    change (if "out".toList = b.data then _ else if _ then _ else _) = _
    simp only [Body.slotBuffer, hout, eq_comm]
    split <;> rfl
  exact .sentence (.of_ends (c := 'o') (d := 't') rfl rfl rfl rfl rfl) hs

theorem reads_brace (b : Body) : Reads (.body b) [['\x7d']] (.closed b) :=
  .line rfl rfl

end Reader

variable {g : Graph} {nodes : List Node} {info : ArrayInfo}

open Reader Assembly

theorem parse_of_reads {ls : List Text} (hl : ∀ l ∈ ls, '\n' ∉ l)
    (h : Reads .start ls (.closed b)) (hp : b.program = .ok p) :
    parse (ls.flatMap (· ++ ['\n'])) = .ok p := by
  have hlines := h 0 []
  rw [List.append_nil] at hlines
  rw [parse, lines_flatMap _ hl]
  simp only [hlines, Reader.lines, bind, Except.bind, Reader.finish, hp]

theorem parse_of_refused {ls rest : List Text} (hl : ∀ l ∈ ls ++ indent s :: rest, '\n' ∉ l)
    (h : Reads .start ls (.body b)) (hs : Sentence s) (he : b.statement s = .error fault) :
    parse ((ls ++ indent s :: rest).flatMap (· ++ ['\n'])) =
      .error (.badLine (ls.length + 1) fault) := by
  rw [parse, lines_flatMap _ hl]
  simp only [h.refused hs he rest, bind, Except.bind]

/-- The lines of a kernel before those of the last nodes and of the delivery. -/
def openingLines (g : Graph) (info : ArrayInfo) (count : Nat) (nodes : List Node)
    (binding : Binding) : List Text :=
  (header info count).map String.toList ++ ((preparation info binding).map String.toList).map indent
    ++ (nodes.flatMap (line g info.name.toList)).map indent

/-- The lines of the first nodes of a kernel are read as their code. -/
theorem reads_opening (h : Printed g nodes)
    (hcell : ∀ n ∈ nodes, ∀ c, n.kind.cell? = some c → c < countBound)
    (hident : isIdentifier info.name.toList = true) (hlen : info.length < countBound) (count : Nat)
    (binding : Binding) (hslots : ∀ slots, binding = .results slots → slots.length < countBound) :
    ∃ bound, Registers (names nodes) bound ∧
      Reads .start (openingLines g info count nodes binding)
        (.body ((prepared info binding).extend bound (code g nodes))) := by
  have hstart := (reads_header hident count).trans
    (reads_preparation hident hlen binding hslots)
  obtain ⟨bound, hr, hnodes⟩ := reads_lines (b := prepared info binding) h hident
    (by cases binding <;> simp [prepared]) .empty hcell
  exact ⟨bound, hr, hstart.trans hnodes⟩

theorem reading_results (g : Graph) (info : ArrayInfo) (nodes : List Node) (slots : List NodeId) :
    reading g info nodes (.results slots) = ⟨info.length, some slots.length,
      (prepared info (.results slots)).slotBuffer, (names nodes).length,
      (code g nodes ++ stores g (prepared info (.results slots)).slotBuffer (names nodes) 0
        slots).toArray⟩ := by
  unfold reading Binding.captures Body.slotBuffer
  by_cases hname : info.name = "out"
  · simp [hname, captured_program]
  · have hne : info.name.toList ≠ "out".toList := fun he => hname (String.toList_inj.mp he)
    simp only [hname, prepared_data, hne, if_false, decide_false, Bool.false_eq_true, program]

/-- The lines of a kernel are read as the program of its nodes. -/
theorem reads_kernel (h : Printed g nodes)
    (hcell : ∀ n ∈ nodes, ∀ c, n.kind.cell? = some c → c < countBound)
    (hident : isIdentifier info.name.toList = true) (hlen : info.length < countBound) (count : Nat)
    (binding : Binding)
    (hslots : ∀ slots, binding = .results slots → slots.length < countBound ∧
      ∀ i ∈ slots, g.constant? i = none → i ∈ names nodes) :
    ∃ b : Body, Reads .start (kernelLines g info count nodes binding) (.closed b) ∧
      b.program = .ok (reading g info nodes binding) := by
  have hword := isWordChar_of_isIdentifier hident
  obtain ⟨bound, hr, hbody⟩ := reads_opening h hcell hident hlen count binding
    fun slots hs => (hslots slots hs).1
  cases binding with
  | inPlace =>
    have hreturn := reads_return (b := (prepared info .inPlace).extend bound (code g nodes)) hident
    have hall := (hbody.trans hreturn).trans (reads_brace _)
    refine ⟨_, by simpa [kernelLines, openingLines, bodyLines, deliveryLines] using hall, ?_⟩
    simp [Body.program, prepared, Body.extend, Body.ofParameter, reading, Binding.captures, program,
      hr.size]
    rfl
  | results slots =>
    obtain ⟨hcount, hnamed⟩ := hslots slots rfl
    have hstores := reads_stores
      (b := (prepared info (.results slots)).extend bound (code g nodes))
      (not_mem_of_word hword rfl) rfl hr slots hnamed 0 (by omega)
    rw [Body.extend_extend] at hstores
    have hreturn := reads_return_out (b := (prepared info (.results slots)).extend bound
      (code g nodes ++ stores g (prepared info (.results slots)).slotBuffer (names nodes) 0 slots))
      rfl
    have hall := ((hbody.trans hstores).trans hreturn).trans (reads_brace _)
    refine ⟨_, by simpa [kernelLines, openingLines, bodyLines, deliveryLines] using hall, ?_⟩
    rw [reading_results]
    simp [Body.program, prepared, Body.extend, Body.ofParameter, hr.size]
    rfl

/-- The text of a kernel is read as the program of its nodes. -/
theorem parse_kernel (h : Printed g nodes)
    (hcell : ∀ n ∈ nodes, ∀ c, n.kind.cell? = some c → c < countBound)
    (hident : isIdentifier info.name.toList = true) (hlen : info.length < countBound) (count : Nat)
    (binding : Binding)
    (hslots : ∀ slots, binding = .results slots → slots.length < countBound ∧
      ∀ i ∈ slots, g.constant? i = none → i ∈ names nodes) :
    parse ((kernelLines g info count nodes binding).flatMap (· ++ ['\n'])) =
      .ok (reading g info nodes binding) := by
  have hline : '\n' ∉ info.name.toList :=
    not_mem_of_word (isWordChar_of_isIdentifier hident) rfl
  obtain ⟨b, hreads, hprogram⟩ := reads_kernel h hcell hident hlen count binding hslots
  exact parse_of_reads (newline_not_mem_kernelLines hline count nodes binding) hreads hprogram

end Program

end FlatFourier
