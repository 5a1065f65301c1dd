import Mathlib
import FlatFourier.Proofs.Outcomes

namespace FlatFourier

open Build

/-- Constants, sums, differences and products. -/
def Kind.IsPolynomial : Kind → Prop
  | const _ => True
  | binary op _ _ => op ≠ .div
  | _ => False

/-- When a node was made, no rule applied to its operation. -/
theorem Builder.Computes.settled_of_new {b b' : Builder} {i : Nat} (h : b.Computes b')
    (hi : b.graph.size ≤ i) (hk : b'.graph.HasKind i kind) : ∃ b₁, b.Computes b₁ ∧ b₁.Settled kind := by
  rcases Grows.made h hk with hold | ⟨b₁, hg, _, hs⟩
  · exact absurd hold.lt (Nat.not_lt.mpr hi)
  · exact ⟨b₁, hg, hs⟩

namespace Graph

variable {g : Graph} {kind kind' : Kind}

theorem Derives.of_unary (h : g.Derives (.unary op a) kind) : kind = .unary op a := by
  cases h with
  | refl => rfl
  | turn ht => cases ht

theorem Derives.isPolynomial (h : g.Derives kind kind') (hk : kind.IsPolynomial) :
    kind'.IsPolynomial := by
  induction h with
  | refl => exact hk
  | turn ht _ ih =>
    apply ih
    cases ht with
    | plus => exact nofun
    | minus => exact nofun
    | times => exact nofun

end Graph

/-- The builder has computed, and every node that it made is a constant. -/
structure Builder.Precomputes (b b' : Builder) : Prop where
  computes : b.Computes b'
  constant : ∀ i kind, b.graph.size ≤ i → b'.graph.HasKind i kind → ∃ x, kind = .const x

theorem Builder.Precomputes.trans {b₁ b₂ b₃ : Builder} (h : b₁.Precomputes b₂)
    (h' : b₂.Precomputes b₃) : b₁.Precomputes b₃ := by
  refine ⟨h.computes.trans h'.computes, ?_⟩
  intro i kind hi hk
  rcases Nat.lt_or_ge i b₂.graph.size with hlt | hge
  · exact h.constant i kind hi (h'.computes.keeps.hasKind_of_lt hlt hk)
  · exact h'.constant i kind hge hk

theorem Builder.Lifts.precomputes {b b' : Builder} (h : b.Lifts b') : b.Precomputes b' :=
  ⟨h.computes, fun _ _ hi hk => h.const_of_new hi hk⟩

namespace Build

variable {b : Builder}

/-- The sine or cosine of a constant is folded before it gets a node. -/
theorem unary_precomputes (hb : b.graph.Sound) (hr : .constantFold ∈ b.rules) (op : UnaryOp)
    (ht : b.graph.HasKind t (.const x)) :
    Yields (operation (.unary op t)) b fun i b' => b.Precomputes b' ∧ i < b'.graph.size := by
  obtain ⟨n, hn, hk⟩ := ht
  have hs : Spells Node.id b.graph (.unary op t) (.unary op (.const x)) := .unary op (.const hn hk)
  refine (operation_built hb hs).mono ?_
  intro i b' hbuilt
  refine ⟨⟨hbuilt.grows, ?_⟩, hbuilt.unfolds.lt⟩
  intro j kind hj hkind
  rcases hbuilt.made hj hkind with hconst | ⟨_, hd⟩
  · exact hconst
  · obtain rfl := hd.of_unary
    obtain ⟨b₁, hg, hsettled⟩ := hbuilt.grows.settled_of_new hj hkind
    have hrules : Rule.constantFold ∈ b₁.rules := by
      rw [hg.rules_eq]
      exact hr
    exact absurd (.foldUnary op ⟨n, hg.keeps t n hn, hk⟩) (hsettled _ hrules)

theorem polar_precomputes (hb : b.graph.Sound) (hr : .constantFold ∈ b.rules) (angle : Float) :
    Yields (Sample.polar angle) b fun z b' =>
      b.Precomputes b' ∧ z.re < b'.graph.size ∧ z.im < b'.graph.size := by
  refine (lift_lifts Node.id hb.toConsistent angle).bind ?_
  intro theta b₁ hlift
  obtain ⟨hlifts, _, htheta⟩ := hlift
  have h₁ := hlifts.precomputes
  have hconst := htheta.hasKind_const_iff.mpr rfl
  refine (unary_precomputes (h₁.computes.sound hb) (h₁.computes.rules_eq ▸ hr) .cos hconst).bind ?_
  intro re b₂ hcos
  obtain ⟨hre, hlt⟩ := hcos
  have h₂ := h₁.trans hre
  refine (unary_precomputes (h₂.computes.sound hb) (h₂.computes.rules_eq ▸ hr) .sin
    (hconst.keeps hre.computes.keeps)).bind ?_
  intro im b₃ hsin
  obtain ⟨him, hlt'⟩ := hsin
  exact yields_pure
    ⟨h₂.trans him, Nat.lt_of_lt_of_le hlt him.computes.keeps.size_le, hlt'⟩

theorem binary_derives {i j : Nat} (hb : b.graph.Sound) (op : BinaryOp) (hi : i < b.graph.size)
    (hj : j < b.graph.size) :
    Yields (operation (.binary op i j)) b fun k b' => b.Computes b' ∧ k < b'.graph.size ∧
      ∀ l kind, b.graph.size ≤ l → b'.graph.HasKind l kind →
        (∃ y, kind = .const y) ∨ b'.graph.Derives (.binary op i j) kind := by
  have hbelow : (Kind.binary op i j).Below b.graph.size := by
    intro a ha
    simp only [Kind.operands, List.mem_cons, List.not_mem_nil, or_false] at ha
    rcases ha with rfl | rfl
    · exact hi
    · exact hj
  have harith : (Kind.binary op i j).IsArithmetic := trivial
  obtain ⟨e, he⟩ := Spells.exists_of_ordered hb.ordered Node.id harith hbelow
  refine (operation_built hb he).mono ?_
  intro k b' hbuilt
  refine ⟨hbuilt.grows, hbuilt.unfolds.lt, ?_⟩
  intro l kind hl hkind
  exact (hbuilt.made hl hkind).imp_right And.right

end Build

/-- The builder has computed, all that it made is polynomial, and the nodes handed out exist. -/
structure Builder.Expands (b : Builder) (handed : List (NodeId × Unit)) (b' : Builder) : Prop where
  computes : b.Computes b'
  made : ∀ i kind, b.graph.size ≤ i → b'.graph.HasKind i kind → kind.IsPolynomial
  exist : ∀ u ∈ handed, u.1 < b'.graph.size

namespace Builder.Expands

variable {b b₁ b₂ : Builder} {handed : List (NodeId × Unit)}

theorem start {xs : List Sample} (h : ∀ i : Nat, i ∈ xs.flatMap Sample.nodes → i < b.graph.size) :
    b.Expands (Sample.handed xs fun _ => ⟨(), ()⟩) b := by
  refine ⟨.refl, fun i kind hi hk => absurd hk.lt (Nat.not_lt.mpr hi), ?_⟩
  intro u hu
  apply h
  rw [← Sample.map_fst_handed xs fun _ => ⟨(), ()⟩]
  exact List.mem_map_of_mem hu

theorem grow (h : b.Expands handed b₁) (hg : b₁.Computes b₂)
    (hm : ∀ i kind, b₁.graph.size ≤ i → b₂.graph.HasKind i kind → kind.IsPolynomial) :
    b.Expands handed b₂ := by
  refine ⟨h.computes.trans hg, ?_, ?_⟩
  · intro i kind hi hk
    rcases Nat.lt_or_ge i b₁.graph.size with hlt | hge
    · exact h.made i kind hi (hg.keeps.hasKind_of_lt hlt hk)
    · exact hm i kind hge hk
  · exact fun u hu => Nat.lt_of_lt_of_le (h.exist u hu) hg.keeps.size_le

/-- One more node is handed out. -/
theorem hand {i : Nat} (h : b.Expands handed b₁) (hi : i < b₁.graph.size) :
    b.Expands ((i, ()) :: handed) b₁ :=
  ⟨h.computes, h.made, List.forall_mem_cons.mpr ⟨hi, h.exist⟩⟩

theorem carried (hb : b.graph.Sound) (hr : .constantFold ∈ b.rules) :
    Arithmetic.unknown.Carried fun _ => b.Expands where
  polar := by
    intro _ handed b₁ h angle
    have hrules : Rule.constantFold ∈ b₁.rules := h.computes.rules_eq ▸ hr
    refine (polar_precomputes (h.computes.sound hb) hrules angle).mono ?_
    intro z b₂ hz
    obtain ⟨hpre, hre, him⟩ := hz
    have h₂ : b.Expands handed b₂ := by
      apply h.grow hpre.computes
      intro i kind hi hk
      obtain ⟨x, rfl⟩ := hpre.constant i kind hi hk
      trivial
    exact (h₂.hand him).hand hre
  operation := by
    intro op f _ handed b₁ i x j y hop h hi hj
    have hne : op ≠ .div := by
      rcases Arithmetic.mem_operators hop with ⟨rfl, _⟩ | ⟨rfl, _⟩ | ⟨rfl, _⟩ <;> nofun
    refine (binary_derives (h.computes.sound hb) op (h.exist _ hi) (h.exist _ hj)).mono ?_
    intro k b₂ hk
    obtain ⟨hg, hlt, hmade⟩ := hk
    have h₂ : b.Expands handed b₂ := by
      apply h.grow hg
      intro l kind hl hkind
      rcases hmade l kind hl hkind with ⟨x, rfl⟩ | hd
      · trivial
      · exact hd.isPolynomial hne
    exact h₂.hand hlt

end Builder.Expands

namespace Kernel.Making

variable {size : Nat} {r : Request} {k : Kernel}

/-- A kernel whose rules fold constants has no sine and no cosine among its nodes. -/
theorem not_unary (m : Making size r k) (hr : .constantFold ∈ (Builder.new r.options).rules)
    (i : NodeId) (op : UnaryOp) (a : NodeId) :
    ¬m.delivered.graph.HasKind i (.unary op a) := by
  intro hi
  obtain ⟨kinds, ids, hdeliver, hover, _⟩ := deliver_enters m.roots_run
  rcases hdeliver.hasKind hi with hcomputed | hmem
  · have hcarried := Builder.Expands.carried m.sound (m.rules ▸ hr)
    have hstart : m.opened.Expands (Sample.handed (Sample.ofNodes m.inputs) fun _ => ⟨(), ()⟩)
        m.opened := by
      apply Builder.Expands.start
      rw [flatMap_ofNodes m.inputs_length]
      exact m.inputs_lt
    obtain ⟨handed, hexpands, _⟩ := m.carries hcarried _ hstart
    rcases Nat.lt_or_ge i m.opened.graph.size with hlt | hge
    · obtain ⟨reads, hread, _, hkind⟩ := readFrom_enters m.inputs_run
      rcases hread.hasKind (hexpands.computes.keeps.hasKind_of_lt hlt hcomputed) with hold | hmem
      · obtain ⟨n, hn, _⟩ := hold
        cases hn
      · obtain ⟨c, e, he⟩ := hkind _ hmem
        cases he
    · exact hexpands.made i _ hge hcomputed
  · exact hover.idle _ hmem trivial

end Kernel.Making

namespace Listing

open Text

/-- After a double colon there is no letter with which a function starts, and none can follow. -/
def Callless (s : Text) : Prop :=
  (∀ c ∈ ['s', 'c'], ¬[':', ':', c] <:+: s) ∧ s.getLast? ≠ some ':'

instance (s : Text) : Decidable (Callless s) :=
  @instDecidableAnd _ _ (List.decidableBAll _ _) inferInstance

theorem callless_of_not_mem {s : Text} (h : ':' ∉ s) : Callless s := by
  refine ⟨?_, ?_⟩
  · intro c _ hsub
    exact h (hsub.subset (.head _))
  · intro hlast
    exact h (List.mem_of_getLast? hlast)

theorem Callless.append {s t : Text} (hs : Callless s) (ht : Callless t) : Callless (s ++ t) := by
  refine ⟨?_, ?_⟩
  · intro c hc hsub
    rcases List.infix_append_iff.mp hsub with h | h | ⟨u, v, he, hu, hv⟩
    · exact hs.1 c hc h
    · exact ht.1 c hc h
    · -- Where the texts meet, the first would have to end in a colon.
      match u with
      | [] =>
        rw [List.nil_append] at he
        exact ht.1 c hc (he ▸ hv.isInfix)
      | [x] =>
        cases he
        obtain ⟨front, rfl⟩ := hu
        exact hs.2 (by simp)
      | [x, y] =>
        cases he
        obtain ⟨front, rfl⟩ := hu
        exact hs.2 (by simp)
      | [x, y, z] =>
        cases he
        exact hs.1 c hc hu.isInfix
      | x :: y :: z :: d :: u => cases he
  · rw [List.getLast?_append]
    cases hlast : t.getLast? with
    | none => simpa using hs.2
    | some d => simpa [hlast] using ht.2

theorem callless_flatten {ls : List Text} (h : ∀ l ∈ ls, Callless l) : Callless ls.flatten := by
  induction ls with
  | nil => exact callless_of_not_mem (by simp)
  | cons l ls ih =>
    obtain ⟨hl, hls⟩ := List.forall_mem_cons.mp h
    exact hl.append (ih hls)

theorem callless_digits (n : Nat) : Callless (Nat.toDigits 10 n) :=
  callless_of_not_mem fun hm => nomatch digits_toDigits n _ hm

theorem callless_name (i : Nat) : Callless (name i) :=
  callless_of_not_mem (not_mem_of_word (isWordChar_name i) rfl)

theorem callless_literal (x : Float) : Callless (literal x) := by
  rcases literal_cases x with hname | ⟨hnumber, _⟩
  · have hall : ∀ s ∈ constantNames, Callless s := by decide
    exact hall _ hname
  · exact callless_of_not_mem fun hm => nomatch hnumber _ hm

theorem callless_token (g : Graph) (i : NodeId) : Callless (token g i) := by
  unfold token
  split
  · exact callless_literal _
  · exact callless_name i

theorem Callless.cons {c : Char} {s : Text} (hc : ':' ≠ c) (hs : Callless s) :
    Callless (c :: s) :=
  .append (callless_of_not_mem (by simpa using hc) : Callless [c]) hs

theorem callless_indexed {array : Text} (h : Callless array) (c : Nat) :
    Callless (indexed array c) :=
  (h.append (.cons (by decide) (callless_digits c))).append (by decide)

theorem callless_assignment {target value : Text} (ht : Callless target) (hv : Callless value) :
    Callless (assignment target value) :=
  ((ht.append (by decide)).append hv).append (by decide)

theorem callless_binding (i : Nat) {value : Text} (hv : Callless value) :
    Callless (binding i value) :=
  .append (by decide) (callless_assignment (callless_name i) hv)

variable {g : Graph} {array : Text} {info : ArrayInfo}

theorem callless_line (h : Callless array) {n : Node} (hn : ∀ op a, n.kind ≠ .unary op a) :
    ∀ l ∈ line g array n, Callless l := by
  intro l hl
  cases hk : n.kind with
  | const x => simp [line, hk] at hl
  | binary op a c =>
    have hop : Callless op.symbol.toList := by cases op <;> decide
    simp only [line, hk, List.mem_singleton] at hl
    subst hl
    apply callless_binding
    exact (callless_token g a).append
      (.cons (by decide) (hop.append (.cons (by decide) (callless_token g c))))
  | unary op a => exact absurd hk (hn op a)
  | read a c e =>
    simp only [line, hk, List.mem_singleton] at hl
    exact hl ▸ callless_binding _ (callless_indexed h c)
  | write a c v =>
    simp only [line, hk, List.mem_singleton] at hl
    exact hl ▸ callless_assignment (callless_indexed h c) (callless_token g v)
  | result a =>
    simp only [line, hk, List.mem_singleton] at hl
    exact hl ▸ callless_binding _ (callless_token g a)

theorem callless_header (h : Callless info.name.toList) (count : Nat) :
    ∀ l ∈ (header info count).map String.toList, Callless l := by
  have hfirst : (s!"// Generated by fftgen: {count} scheduled nodes over {quoted info.name} " ++
      s!"({info.length} values, interleaved re/im).").toList =
      ["// Generated by fftgen: ".toList, Nat.toDigits 10 count, " scheduled nodes over ".toList,
        "`".toList, info.name.toList, "` (".toList, Nat.toDigits 10 info.length,
        " values, interleaved re/im).".toList].flatten := by
    simp [quoted, toString]
  have hlast : (s!"pub fn transform({info.name}: &[f64]) -> Vec<f64> \x7b").toList =
      ["pub fn transform(".toList, info.name.toList,
        ": &[f64]) -> Vec<f64> \x7b".toList].flatten := by
    simp [toString]
  simp only [header, List.map_cons, List.map_nil, List.forall_mem_cons, hfirst, hlast]
  refine ⟨callless_flatten ?_, by decide, callless_flatten ?_, List.forall_mem_nil _⟩
  · simp only [List.forall_mem_cons]
    exact ⟨by decide, callless_digits _, by decide, by decide, h, by decide,
      callless_digits _, by decide, List.forall_mem_nil _⟩
  · simp only [List.forall_mem_cons]
    exact ⟨by decide, h, by decide, List.forall_mem_nil _⟩

theorem callless_preparation (h : Callless info.name.toList) (binding : Binding) :
    ∀ l ∈ (preparation info binding).map String.toList, Callless l := by
  have hassert : (s!"assert_eq!({info.name}.len(), {info.length});").toList =
      ["assert_eq!(".toList, info.name.toList, ".len(), ".toList, Nat.toDigits 10 info.length,
        ");".toList].flatten := by
    simp [toString]
  have hcopy : (s!"let mut {info.name} = {info.name}.to_vec();").toList =
      ["let mut ".toList, info.name.toList, " = ".toList, info.name.toList,
        ".to_vec();".toList].flatten := by
    simp [toString]
  have hout : ∀ slots : List NodeId, (s!"let mut out = vec![0.0_f64; {slots.length}];").toList =
      ["let mut out = vec![0.0_f64; ".toList, Nat.toDigits 10 slots.length, "];".toList].flatten :=
    fun slots => by simp [toString]
  unfold preparation
  rw [List.map_append]
  refine List.forall_mem_append.mpr ⟨?_, ?_⟩
  · simp only [List.map_cons, List.map_nil, List.forall_mem_cons, hassert, hcopy]
    refine ⟨callless_flatten ?_, callless_flatten ?_, List.forall_mem_nil _⟩
    · simp only [List.forall_mem_cons]
      exact ⟨by decide, h, by decide, callless_digits _, by decide, List.forall_mem_nil _⟩
    · simp only [List.forall_mem_cons]
      exact ⟨by decide, h, by decide, h, by decide, List.forall_mem_nil _⟩
  · cases binding with
    | inPlace => exact List.forall_mem_nil _
    | results slots =>
      simp only [List.map_cons, List.map_nil, List.forall_mem_cons, hout]
      refine ⟨callless_flatten ?_, List.forall_mem_nil _⟩
      simp only [List.forall_mem_cons]
      exact ⟨by decide, callless_digits _, by decide, List.forall_mem_nil _⟩

theorem callless_storeLines (g : Graph) (slot : Nat) (slots : List NodeId) :
    ∀ l ∈ storeLines g slot slots, Callless l := by
  induction slots generalizing slot with
  | nil => exact List.forall_mem_nil _
  | cons i slots ih =>
    refine List.forall_mem_cons.mpr ⟨?_, ih _⟩
    exact callless_assignment (callless_indexed (by decide) slot) (callless_token g i)

/-- The text of nodes without sines and cosines calls nothing. -/
theorem callless_kernelLines (h : Callless info.name.toList) (count : Nat) {nodes : List Node}
    (hn : ∀ n ∈ nodes, ∀ op a, n.kind ≠ .unary op a) (binding : Binding) :
    Callless ((kernelLines g info count nodes binding).flatMap (· ++ ['\n'])) := by
  have hnodes : ∀ l ∈ nodes.flatMap (line g info.name.toList), Callless l := by
    intro l hl
    obtain ⟨n, hmem, hl⟩ := List.mem_flatMap.mp hl
    exact callless_line h (hn n hmem) l hl
  have hdelivery : ∀ l ∈ deliveryLines g info.name.toList binding, Callless l := by
    cases binding with
    | inPlace => exact List.forall_mem_singleton.mpr h
    | results slots =>
      refine List.forall_mem_append.mpr ⟨callless_storeLines g 0 slots, ?_⟩
      exact List.forall_mem_singleton.mpr (by decide)
  have hbody : ∀ l ∈ bodyLines g info nodes binding, Callless l :=
    List.forall_mem_append.mpr
      ⟨List.forall_mem_append.mpr ⟨callless_preparation h binding, hnodes⟩, hdelivery⟩
  have hall : ∀ l ∈ kernelLines g info count nodes binding, Callless l := by
    refine List.forall_mem_append.mpr
      ⟨List.forall_mem_append.mpr ⟨callless_header h count, ?_⟩, ?_⟩
    · intro l hl
      obtain ⟨s, hs, rfl⟩ := List.mem_map.mp hl
      exact .append (by decide : Callless "    ".toList) (hbody s hs)
    · exact List.forall_mem_singleton.mpr (by decide)
  rw [List.flatMap_def]
  apply callless_flatten
  intro l hl
  obtain ⟨s, hs, rfl⟩ := List.mem_map.mp hl
  exact (hall s hs).append (by decide)

theorem Callless.calls_nothing {s : Text} (h : Callless s) :
    ∀ call ∈ ["f64::sin", "f64::cos"], ¬call.toList <:+: s := by
  have hsin : [':', ':', 's'] <:+: "f64::sin".toList := by decide
  have hcos : [':', ':', 'c'] <:+: "f64::cos".toList := by decide
  intro call hcall hsub
  simp only [List.mem_cons, List.not_mem_nil, or_false] at hcall
  rcases hcall with rfl | rfl
  · exact h.1 's' (by simp) (hsin.trans hsub)
  · exact h.1 'c' (by simp) (hcos.trans hsub)

end Listing

/-- Where constants are folded, a transform of nodes that exist, in an ordered graph, adds nothing
but constants, sums, differences and products. So the text of a simplified kernel calls no
function. -/
theorem trigonometry_folded :
    (∀ (options : Options) (rules : List Rule) (events : List Event) (xs : List Sample),
      .constantFold ∈ rules → isPowerOfTwo xs.length = true →
      let b := (Builder.withRules options rules).after events
      b.graph.Ordered → (∀ i : Nat, i ∈ xs.flatMap Sample.nodes → i < b.graph.size) →
      Yields (Fourier.transform xs) b fun _ b' => b.graph.Keeps b'.graph ∧
        ∀ i kind, b.graph.size ≤ i → b'.graph.HasKind i kind → kind.IsPolynomial) ∧
    ∀ (size : Nat) (r : Request), Kernel.Fits size → r.simplify = true →
      ∃ k, Kernel.specialize size r = .ok k ∧
        ∀ call ∈ ["f64::sin", "f64::cos"], ¬call.toList <:+: k.source.toList := by
  refine ⟨?_, ?_⟩
  · intro options rules events xs hfold hp b ho hx
    have hrules : b.rules = rules := (Builder.settings_after options rules events).2
    have hsound : b.graph.Sound := ⟨Builder.consistent_after options rules events, ho⟩
    have hcarried := Builder.Expands.carried hsound (hrules ▸ hfold)
    refine (hcarried.transform _ hp (.start hx)).mono ?_
    intro ys b' h
    obtain ⟨handed, hexpands, _⟩ := h
    exact ⟨hexpands.computes.keeps, hexpands.made⟩
  · intro size r hf hs
    obtain ⟨k, hk, ⟨m⟩⟩ := Kernel.exists_making ((isPowerOfTwo_iff size).mpr hf.1) hf.2 r
    refine ⟨k, hk, ?_⟩
    have hfold : Rule.constantFold ∈ (Builder.new r.options).rules := by
      change Rule.constantFold ∈ if r.simplify then Rule.standard else []
      rw [hs]
      exact .head _
    have hinfo : m.delivered.arrays[0]? = some ⟨"data", 2 * size⟩ := by simp [m.arrays]
    obtain ⟨source, htext, hsource⟩ :=
      (m.delivers.disciplined.planned m.plan.length).exists_text hinfo m.faithful m.suits
    obtain rfl : source = k.source := Except.ok.inj (htext.symm.trans m.source_eq)
    rw [hsource]
    apply Listing.Callless.calls_nothing
    apply Listing.callless_kernelLines (by decide : Listing.Callless "data".toList)
    intro n hn op a hkind
    have hnode := (m.delivers.disciplined.planned m.plan.length).mem_nodes.mp hn
    exact m.not_unary hfold n.id op a
      ⟨n, (m.delivers.disciplined.planned m.plan.length).mem_list.mp hnode.1, hkind⟩

/-- Constants are folded after the other rules have been asked, and there is a difference that no
rule has seen. -/
def foldedLast : Builder :=
  (Builder.withRules ⟨false, true⟩ [.negationFold, .absorb, .negationFold, .constantFold]).after
    ([.declare "data" 1, .read 0 0, .lift (-0.0), .make (.binary .minus 1 0), .lift (-1)].map
      Event.call)

theorem list_foldedLast : foldedLast.graph.list = [⟨0, .read 0 0 0, none⟩,
    ⟨1, .const (-0.0), none⟩, ⟨2, .binary .minus 1 0, none⟩, ⟨3, .const (-1), none⟩] := by
  decide +kernel

theorem trigonometry_folded_foldedLast :
    (Yields (Fourier.transform [⟨0, 2⟩, ⟨3, 1⟩]) foldedLast fun _ b' =>
      foldedLast.graph.Keeps b'.graph ∧
        ∀ i kind, 4 ≤ i → b'.graph.HasKind i kind → kind.IsPolynomial) ∧
    ∃ k, Kernel.specialize 8 ⟨true, true, false, .results⟩ = .ok k ∧
      ∀ call ∈ ["f64::sin", "f64::cos"], ¬call.toList <:+: k.source.toList := by
  have hconsistent : foldedLast.graph.Consistent := Builder.consistent_after _ _ _
  have hordered : foldedLast.graph.Ordered := by
    apply hconsistent.ordered_of_list
    rw [list_foldedLast]
    decide
  have hsize : foldedLast.graph.size = 4 := by decide
  have hbelow : ∀ i : Nat, i ∈ [⟨0, 2⟩, ⟨3, 1⟩].flatMap Sample.nodes →
      i < foldedLast.graph.size := by
    rw [hsize]
    exact (by decide : ∀ i ∈ [0, 2, 3, 1], i < 4)
  refine ⟨?_, ?_⟩
  · have hyields : Yields (Fourier.transform [⟨0, 2⟩, ⟨3, 1⟩]) foldedLast fun _ b' =>
        foldedLast.graph.Keeps b'.graph ∧
          ∀ i kind, foldedLast.graph.size ≤ i → b'.graph.HasKind i kind → kind.IsPolynomial :=
      trigonometry_folded.1 _ _ _ _ (by decide) (by decide) hordered hbelow
    rwa [hsize] at hyields
  · exact trigonometry_folded.2 8 _ ⟨⟨3, rfl⟩, by decide⟩ rfl

end FlatFourier
