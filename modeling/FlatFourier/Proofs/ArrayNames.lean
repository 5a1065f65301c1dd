import FlatFourier.Proofs.LastWrite
import FlatFourier.Proofs.ReadingBack
import FlatFourier.Proofs.Scripts

namespace FlatFourier

open Text Build

namespace Builder

/-- Builders that differ at most in the names of their arrays. -/
structure SameButNames (l r : Builder) : Prop where
  options : l.options = r.options
  rules : l.rules = r.rules
  graph : l.graph = r.graph
  log : l.log = r.log
  lengths : l.arrays.map (·.length) = r.arrays.map (·.length)
  tally : l.tally = r.tally

variable {l r : Builder}

theorem SameButNames.add (h : l.SameButNames r) (kind : Kind) :
    (l.add kind).1 = (r.add kind).1 ∧ (l.add kind).2.SameButNames (r.add kind).2 := by
  have hnumber : l.numberFor kind = r.numberFor kind := by
    cases kind <;> simp [numberFor, h.log]
  rcases add_cases l kind with ⟨i, hi, hl⟩ | ⟨hi, hl⟩
  · rcases add_cases r kind with ⟨j, hj, hr⟩ | ⟨hj, hr⟩
    · rw [h.graph, hj] at hi
      rw [hl, hr]
      exact ⟨(Option.some.inj hi).symm, h.options, h.rules, h.graph, h.log, h.lengths,
        by simp only [h.tally]⟩
    · rw [h.graph, hj] at hi
      cases hi
  · rcases add_cases r kind with ⟨j, hj, hr⟩ | ⟨hj, hr⟩
    · rw [h.graph, hj] at hi
      cases hi
    · rw [hl, hr]
      exact ⟨by rw [h.graph], h.options, h.rules, by simp only [h.graph, hnumber],
        by simp only [h.graph, h.log], h.lengths, by simp only [h.tally]⟩

theorem SameButNames.declare (h : l.SameButNames r) (name name' : String) (length : Nat) :
    (l.declare name length).2.SameButNames (r.declare name' length).2 := by
  refine ⟨h.options, h.rules, h.graph, h.log, ?_, h.tally⟩
  simp only [Builder.declare, Array.map_push, h.lengths]

theorem sameButNames_congruence : Congruence SameButNames := by
  constructor
  · intro l r h
    exact h.graph
  · intro l r h
    exact h.rules
  · intro l r h
    exact h.log
  · intro l r h a
    rw [← Array.getElem?_map, ← Array.getElem?_map, h.lengths]
  · intro l r h kind
    exact h.add kind
  · intro l r h name length
    exact h.declare name name length
  · intro l r h rule
    exact ⟨h.options, h.rules, h.graph, h.log, h.lengths, by simp only [countAnswer, h.tally]⟩
  · intro l r h length
    exact ⟨h.options, h.rules, h.graph, h.log, h.lengths, by simp only [countPlanned, h.tally]⟩

end Builder

namespace Transcript

/-- Transcripts of one script under different names of arrays. -/
structure SameButNames (s t : Transcript) : Prop where
  builder : s.builder.SameButNames t.builder
  results : s.results = t.results

variable {s t u : Transcript}

theorem results_next_ok (h : c.run t.builder = .ok is b) :
    (t.next c).results = t.results ++ is := by
  simp [next, h, results, Except.toOption]

theorem results_next_error (h : c.run t.builder = .error e b) :
    (t.next c).results = t.results := by
  simp [next, h, results, Except.toOption]

theorem SameButNames.next (h : s.SameButNames t) (c : Call) :
    (s.next c).SameButNames (t.next c) := by
  have hrun := Builder.sameButNames_congruence.uniform_run c _ _ h.builder
  generalize hp : c.run s.builder = p at hrun
  generalize hq : c.run t.builder = q at hrun
  cases hrun with
  | ok hb is =>
    refine ⟨?_, by rw [results_next_ok hp, results_next_ok hq, h.results]⟩
    simpa only [Transcript.next, hp, hq] using hb
  | error hb e e' =>
    refine ⟨?_, by rw [results_next_error hp, results_next_error hq, h.results]⟩
    simpa only [Transcript.next, hp, hq] using hb

theorem SameButNames.run? (h : s.SameButNames t) (script : List Call) :
    Option.Rel SameButNames (s.run? script) (t.run? script) := by
  refine rel_run? ?_ ?_ h
  · intro s t h
    rw [h.results]
  · intro s t h c _ _
    rw [h.results]
    exact h.next _

end Transcript

theorem Kind.operands_map (f : NodeId → NodeId) (kind : Kind) :
    (kind.map f).operands = kind.operands.map f := by
  cases kind <;> rfl

namespace Call

variable {c : Call}

theorem nodes_map (f : NodeId → NodeId) (c : Call) : (c.map f).nodes = c.nodes.map f := by
  cases c with
  | make kind | operation kind | answer kind | ask rule kind => exact kind.operands_map f
  | transform xs =>
    simp [map, nodes, List.flatMap_map, List.map_flatMap, Sample.nodes, Sample.map]
  | _ => rfl

theorem Stages.map (h : c.Stages) (f : NodeId → NodeId) : (c.map f).Stages := by
  cases c with
  | operation kind =>
    cases kind with
    | binary op a b => trivial
    | unary op a => trivial
    | _ => exact absurd h id
  | make kind | answer kind | ask rule kind | count name | plan roots prune => exact absurd h id
  | declare name length => exact h
  | _ => trivial

end Call

namespace Transcript

variable {t u : Transcript}

/-- Only staging calls have been made, and the results are nodes that exist. -/
structure Founded (t : Transcript) : Prop where
  staged : Staged t.builder
  results : ∀ i ∈ t.results, i < t.builder.graph.size

theorem founded_start (options : Options) (rules : List Rule) : (start options rules).Founded :=
  ⟨.start options rules, nofun⟩

theorem Founded.next (h : t.Founded) (hc : c.Stages)
    (hn : ∀ i ∈ c.nodes, i < t.builder.graph.size) : (t.next c).Founded := by
  have hkeeps : t.builder.graph.Keeps (t.next c).builder.graph := by
    rw [next_builder]
    exact (keeps_lasting _).maintains_run c _ (.refl _)
  constructor
  · rw [next_builder]
    exact .call h.staged c ⟨hc, hn⟩
  · intro i hi
    rcases Call.run_of_stages h.staged.disciplined hc hn with ⟨is, b, hrun, _, his⟩ | ⟨e, hrun⟩
    · rw [results_next_ok hrun] at hi
      rcases List.mem_append.mp hi with hi | hi
      · exact Nat.lt_of_lt_of_le (h.results i hi) hkeeps.size_le
      · simpa only [Transcript.next, hrun] using his i hi
    · rw [results_next_error hrun] at hi
      exact Nat.lt_of_lt_of_le (h.results i hi) hkeeps.size_le

theorem Founded.run? (h : t.Founded) {script : List Call} (hs : ∀ c ∈ script, c.Stages)
    (hr : t.run? script = some u) : u.Founded := by
  refine invariant_run? ?_ h hr
  intro t c hc h hnodes
  refine h.next ((hs c hc).map _) ?_
  intro i hi
  rw [Call.nodes_map] at hi
  obtain ⟨j, hj, rfl⟩ := List.mem_map.mp hi
  have hlt := hnodes j hj
  rw [List.getD_eq_getElem?_getD, List.getElem?_eq_getElem hlt]
  exact h.results _ (List.getElem_mem hlt)

theorem run?_append (t : Transcript) (script rest : List Call) :
    t.run? (script ++ rest) = (t.run? script).bind (·.run? rest) := by
  induction script generalizing t with
  | nil => rfl
  | cons c script ih =>
    rw [List.cons_append, run?, run?, Option.bind_assoc]
    congr 1
    funext u
    exact ih u

end Transcript

/-- An array stays what it has been declared as. -/
theorem array_lasting (array : ArrayId) (info : ArrayInfo) :
    Lasting fun b => b.arrays[array]? = some info where
  add h kind := by rwa [Builder.add_arrays]
  declare := by
    intro b h name length
    obtain ⟨hlt, _⟩ := Array.getElem?_eq_some_iff.mp h
    change (b.arrays.push ⟨name, length⟩)[array]? = some info
    rw [Array.getElem?_push, if_neg (Nat.ne_of_lt hlt)]
    exact h
  count h _ := h
  planned h _ := h

namespace Listing

variable {b : Builder} {array : ArrayId} {p : Plan} {binding : Binding}

theorem lt_of_node (h : b.node i = .ok n) : i < b.graph.size ∧ b.graph.node? i = some n := by
  unfold Builder.node Graph.lookup at h
  split at h
  · rename_i m hm
    cases h
    exact ⟨Graph.lt_of_node? hm, hm⟩
  · cases h

theorem lt_of_operand (h : operand b i = .ok s) : i < b.graph.size := by
  obtain ⟨n, hn, _⟩ := ok_of_bind h
  exact (lt_of_node hn).1

theorem operands_of_statement {name : String} (h : statement b name n = .ok ls) :
    ∀ i ∈ n.kind.operands, i < b.graph.size := by
  unfold statement at h
  cases hk : n.kind with
  | const x => nofun
  | read a c e => nofun
  | binary op x y =>
    rw [hk] at h
    obtain ⟨_, hx, h⟩ := ok_of_bind h
    obtain ⟨_, hy, _⟩ := ok_of_bind h
    intro i hi
    simp only [Kind.operands, List.mem_cons, List.not_mem_nil, or_false] at hi
    rcases hi with rfl | rfl
    · exact lt_of_operand hx
    · exact lt_of_operand hy
  | unary op x | result x | write a c x =>
    rw [hk] at h
    obtain ⟨_, hx, _⟩ := ok_of_bind h
    intro i hi
    obtain rfl : i = x := by simpa [Kind.operands] using hi
    exact lt_of_operand hx

theorem slots_of_stores {slot : Nat} {slots : List NodeId} (h : stores b slot slots = .ok ls) :
    ∀ i ∈ slots, i < b.graph.size := by
  induction slots generalizing slot ls with
  | nil => nofun
  | cons j slots ih =>
    obtain ⟨_, hj, h⟩ := ok_of_bind h
    obtain ⟨_, hrest, _⟩ := ok_of_bind h
    exact List.forall_mem_cons.mpr ⟨lt_of_operand hj, ih hrest⟩

theorem forall_of_forM {f : α → Except ε PUnit} {xs : List α} (h : xs.forM f = .ok u) :
    ∀ x ∈ xs, ∃ v, f x = .ok v := by
  induction xs with
  | nil => nofun
  | cons x xs ih =>
    obtain ⟨v, hv, h⟩ := ok_of_bind h
    exact List.forall_mem_cons.mpr ⟨⟨v, hv⟩, ih h⟩

theorem forall_of_mapM {f : α → Except ε β} {xs : List α} (h : xs.mapM f = .ok ys) :
    ∀ x ∈ xs, ∃ y, f x = .ok y := by
  induction xs generalizing ys with
  | nil => nofun
  | cons x xs ih =>
    rw [List.mapM_cons] at h
    obtain ⟨y, hy, h⟩ := ok_of_bind h
    obtain ⟨ys, hys, _⟩ := ok_of_bind h
    exact List.forall_mem_cons.mpr ⟨⟨y, hy⟩, ih hys⟩

theorem touched_of_checkNode (h : Plan.checkNode b array i = .ok u)
    (hn : b.graph.node? i = some n) : ∀ a, n.kind.array? = some a → a = array := by
  intro a ha
  rw [Plan.checkNode, node_eq hn, ok_bind, ha] at h
  by_cases he : a = array
  · exact he
  · dsimp only at h
    rw [if_neg he] at h
    obtain ⟨_, _, h⟩ := ok_of_bind h
    cases h

end Listing

namespace Builder.Disciplined

variable {b : Builder} {array : ArrayId} {p : Plan} {binding : Binding}

theorem cell_lt (h : b.Disciplined) (hn : b.graph.node? i = some n)
    (hc : n.kind.cell? = some c) : c < countBound := by
  have hin := h.cells n (List.mem_of_getElem? (Graph.node?_eq _ i ▸ hn))
  have hbound : ∀ {a : ArrayId} {c : Nat},
      (∃ info, b.arrays[a]? = some info ∧ c < info.length) → c < countBound := by
    intro a c hex
    obtain ⟨info, hinfo, hlt⟩ := hex
    exact Nat.lt_trans hlt (h.lengths info (Array.mem_of_getElem? hinfo))
  cases hk : n.kind with
  | read a c' e | write a c' v =>
    rw [hk] at hc hin
    obtain rfl := Option.some.inj hc
    exact hbound hin
  | _ => simp [hk, Kind.cell?] at hc

/-- A plan lists each node once. -/
theorem plan_cases (h : b.Disciplined) (hp : plan roots prune b = .ok p b') :
    b' = b.countPlanned p.length ∧ p.order.Nodup := by
  cases prune with
  | true =>
    rcases Plan.pruned_cases b roots with ⟨_, q, _, _, hq, hnodup, _⟩ | ⟨i, _, _, he⟩
    · have hrun : plan roots true b = .ok q (b.countPlanned q.length) :=
        (run_bind (ask_run hq)).trans rfl
      rw [hrun] at hp
      cases hp
      exact ⟨rfl, hnodup⟩
    · have hrun : plan roots true b = .error _ b := run_bind_error (ask_error he)
      rw [hrun] at hp
      cases hp
  | false =>
    cases hp
    refine ⟨rfl, ?_⟩
    rw [h.range_complete]
    exact List.nodup_range

/-- A plan whose text has been made is one whose text can be made. -/
theorem listable_of_text (h : b.Disciplined) (hnodup : p.order.Nodup)
    (hslots : ∀ slots, binding = .results slots → slots.length < countBound)
    (htext : Listing.text b array p binding = .ok source) :
    p.Listable b array binding := by
  obtain ⟨info, hbound, htext⟩ := ok_of_bind htext
  obtain ⟨statements, hstatements, htext⟩ := ok_of_bind htext
  obtain ⟨last, hlast, _⟩ := ok_of_bind htext
  obtain ⟨_, hchecked, _⟩ := ok_of_bind hbound
  have hstatement := Listing.forall_of_mapM hstatements
  constructor
  · exact hnodup
  · intro k hk
    obtain ⟨ls, hls⟩ := hstatement k hk
    obtain ⟨n, hn, _⟩ := ok_of_bind hls
    exact (Listing.lt_of_node hn).1
  · intro k hk n hn
    obtain ⟨_, hcheck⟩ := Listing.forall_of_forM hchecked k hk
    exact Listing.touched_of_checkNode hcheck hn
  · intro k hk n hn c hc
    exact h.cell_lt hn hc
  · intro k hk n hn
    obtain ⟨ls, hls⟩ := hstatement k hk
    obtain ⟨m, hm, hls⟩ := ok_of_bind hls
    obtain rfl := Option.some.inj (hn.symm.trans (Listing.lt_of_node hm).2)
    exact Listing.operands_of_statement hls
  · intro slots hs
    refine ⟨hslots slots hs, ?_⟩
    subst hs
    obtain ⟨ls, hstores, _⟩ := ok_of_bind hlast
    exact Listing.slots_of_stores hstores

end Builder.Disciplined

namespace Builder.SameButNames

variable {l r : Builder} {array : ArrayId} {p : Plan} {binding : Binding}

theorem listable (h : l.SameButNames r) (hp : p.Listable l array binding) :
    p.Listable r array binding := by
  obtain ⟨nodup, exist, touched, cells, operands, slots⟩ := hp
  rw [h.graph] at exist touched cells operands slots
  exact ⟨nodup, exist, touched, cells, operands, slots⟩

/-- The texts of a plan are read alike, but a name may hide the result buffer. -/
theorem parse_text (h : l.SameButNames r) (hl : l.graph.Consistent)
    (hp : p.Listable l array binding) (hinfo : l.arrays[array]? = some info)
    (hinfo' : r.arrays[array]? = some info') (hsame : info'.length = info.length)
    (hident : isIdentifier info.name.toList = true)
    (hident' : isIdentifier info'.name.toList = true) (hlen : info.length < countBound)
    (hfree : binding.captures info.name = false) :
    ∃ source source', Listing.text l array p binding = .ok source ∧
      Listing.text r array p binding = .ok source' ∧ Program.parse source'.toList =
        if binding.captures info'.name then (Program.parse source.toList).map Program.captured
        else Program.parse source.toList := by
  have hp' := h.listable hp
  have hr : r.graph.Consistent := h.graph ▸ hl
  have hlen' : info'.length < countBound := hsame ▸ hlen
  obtain ⟨source, htext, hsource⟩ := hp.text_eq hinfo
  obtain ⟨source', htext', hsource'⟩ := hp'.text_eq hinfo'
  refine ⟨source, source', htext, htext', ?_⟩
  rw [hsource, hsource']
  rcases p.readable_or_firstUnbound l.graph binding with hread | ⟨line, i, hfirst⟩
  · rw [hp.parse_of_readable hl hident hlen hread, Assembly.reading_of_free hfree,
      hp'.parse_of_readable hr hident' hlen' (h.graph ▸ hread), Assembly.reading, h.graph, hsame]
    split <;> rfl
  · rw [hp.parse_of_firstUnbound hl hident hlen hfirst,
      hp'.parse_of_firstUnbound hr hident' hlen' (h.graph ▸ hfirst)]
    split <;> rfl

end Builder.SameButNames

variable {t t₀ : Transcript} {b : Builder} {p : Plan} {binding : Binding}
  {before script : List Call}

/-- If a script declares an array under another name, the same plans can be made, and texts of them
for this array whenever they could be made before. Both texts are read as the same program or
refused for the same reason, unless the values fill a buffer of their own and the other name hides
that buffer: then the slots are written into the array, and the array is returned. -/
theorem array_name_irrelevant (options : Options) (rules : List Rule) (hlen : length < countBound)
    (hname : isIdentifier name.toList = true) (hname' : isIdentifier name'.toList = true)
    (hstages : ∀ c ∈ before ++ script, c.Stages)
    (hbefore : (Transcript.start options rules).run? before = some t₀)
    (hrun : (Transcript.start options rules).run? (before ++ .declare name length :: script) =
      some t)
    (hplan : plan roots prune t.builder = .ok p b) (hfree : binding.captures name = false)
    (hslots : ∀ slots, binding = .results slots → slots.length < countBound)
    (htext : Listing.text b t₀.builder.arrays.size p binding = .ok source) :
    ∃ t' b' source',
      (Transcript.start options rules).run? (before ++ .declare name' length :: script) =
        some t' ∧
      t.results = t'.results ∧ plan roots prune t'.builder = .ok p b' ∧
      Listing.text b' t₀.builder.arrays.size p binding = .ok source' ∧
      Program.parse source'.toList =
        if binding.captures name' then (Program.parse source.toList).map Program.captured
        else Program.parse source.toList := by
  obtain ⟨hfirst, hrest⟩ := List.forall_mem_append.mp hstages
  have hfounded := (Transcript.founded_start options rules).run? hfirst hbefore
  rw [Transcript.run?_append, hbefore, Option.bind_some] at hrun ⊢
  have harray : ∀ {given : String} {u : Transcript},
      t₀.run? (.declare given length :: script) = some u →
        u.builder.arrays[t₀.builder.arrays.size]? = some ⟨given, length⟩ := by
    intro given u hu
    exact Transcript.maintains_run? (s := t₀.next (.declare given length)) (array_lasting _ _)
      Array.getElem?_push_size hu
  have hdisciplined : ∀ {given : String} {u : Transcript},
      t₀.run? (.declare given length :: script) = some u → u.builder.Disciplined := by
    intro given u hu
    have hdeclared := hfounded.next (c := .declare given length) hlen nofun
    exact (hdeclared.run? hrest hu).staged.disciplined
  have hdeclared : (t₀.next (.declare name length)).SameButNames
      (t₀.next (.declare name' length)) := by
    refine ⟨Builder.SameButNames.declare ⟨rfl, rfl, rfl, rfl, rfl, rfl⟩ name name' length, ?_⟩
    rw [Transcript.results_next_ok rfl, Transcript.results_next_ok rfl]
  have hboth : Option.Rel Transcript.SameButNames (t₀.run? (.declare name length :: script))
      (t₀.run? (.declare name' length :: script)) :=
    hdeclared.run? script
  rw [hrun] at hboth
  generalize hrun' : t₀.run? (.declare name' length :: script) = q at hboth ⊢
  obtain @⟨_, t', hsame⟩ := hboth
  have hmatched := Builder.sameButNames_congruence.uniform_plan roots prune _ _ hsame.builder
  rw [hplan] at hmatched
  obtain ⟨b', hplan', hb⟩ := hmatched.of_ok
  obtain ⟨rfl, hnodup⟩ := (hdisciplined hrun).plan_cases hplan
  obtain ⟨rfl, _⟩ := (hdisciplined hrun').plan_cases hplan'
  have hplanned := (hdisciplined hrun).planned p.length
  have hlist := hplanned.listable_of_text hnodup hslots htext
  obtain ⟨source₁, source', htext₁, htext', hparse⟩ := hb.parse_text hplanned.consistent hlist
    (harray hrun) (harray hrun') rfl hname hname' hlen hfree
  obtain rfl := Except.ok.inj (htext.symm.trans htext₁)
  exact ⟨t', _, source', rfl, hsame.results, hplan', htext', hparse⟩

/-- The difference of two cells is marked as a result. -/
def difference : List Call :=
  [.read 0 0, .read 0 1, .operation (.binary .minus 0 1), .result 2]

/-- What is called before the array is declared, and the name of the array. -/
def openings : List (List Call × String) :=
  [([], "data"), ([], "out"), ([.read 0 0], "data")]

/-- What comes of the script behind an opening. -/
@[irreducible] def differenceOf (o : List Call × String) : Transcript :=
  ((Transcript.start ⟨false, true⟩ Rule.standard).run? (o.1 ++ .declare o.2 2 :: difference)).getD
    (.start ⟨false, true⟩ Rule.standard)

theorem run_difference : ∀ o ∈ openings,
    (Transcript.start ⟨false, true⟩ Rule.standard).run? (o.1 ++ .declare o.2 2 :: difference) =
      some (differenceOf o) := by
  have hsome : ∀ o ∈ openings, ((Transcript.start ⟨false, true⟩ Rule.standard).run?
      (o.1 ++ .declare o.2 2 :: difference)).isSome = true := by
    decide +kernel
  intro o ho
  obtain ⟨t, ht⟩ := Option.isSome_iff_exists.mp (hsome o ho)
  rw [differenceOf, ht]
  rfl

/-- The builder after the plan of all nodes. -/
def plannedDifference (o : List Call × String) : Builder :=
  (differenceOf o).builder.countPlanned 4

theorem plan_difference : ∀ o ∈ openings, plan [3] false (differenceOf o).builder =
    .ok ⟨[0, 1, 2, 3]⟩ (plannedDifference o) := by
  have horder : ∀ o ∈ openings, Plan.complete (differenceOf o).builder = ⟨[0, 1, 2, 3]⟩ := by
    decide +kernel
  intro o ho
  have hask : (if false = true then Plan.pruned (differenceOf o).builder [3]
      else .ok (Plan.complete (differenceOf o).builder)) = .ok ⟨[0, 1, 2, 3]⟩ :=
    congrArg Except.ok (horder o ho)
  exact run_bind (ask_run hask)

theorem listable_difference : ∀ o ∈ openings,
    Plan.Listable (plannedDifference o) 0 (.results [3]) ⟨[0, 1, 2, 3]⟩ := by
  have hnode : ∀ o ∈ openings, ∀ n ∈ (plannedDifference o).graph.list,
      n.kind.array?.all (· = 0) = true ∧ n.kind.cell?.all (· < countBound) = true ∧
        ∀ i ∈ n.kind.operands, i < (plannedDifference o).graph.size := by
    decide +kernel
  have hsize : ∀ o ∈ openings, (plannedDifference o).graph.size = 4 := by
    decide +kernel
  intro o ho
  refine Plan.listable_of_all (hnode o ho) (by decide) ?_ ?_
  · rw [hsize o ho]
    decide
  · intro slots hs
    cases hs
    rw [hsize o ho]
    decide

/-- The text of the difference is read behind every opening. -/
theorem text_difference : ∀ o ∈ openings, ∃ source,
    Listing.text (plannedDifference o) 0 ⟨[0, 1, 2, 3]⟩ (.results [3]) = .ok source ∧
    Program.parse source.toList = .ok (Assembly.reading (plannedDifference o).graph ⟨o.2, 2⟩
      (Plan.nodes ⟨[0, 1, 2, 3]⟩ (plannedDifference o).graph) (.results [3])) := by
  have hinfo : ∀ o ∈ openings, (plannedDifference o).arrays[0]? = some ⟨o.2, 2⟩ := by
    decide +kernel
  have hident : ∀ o ∈ openings, isIdentifier (ArrayInfo.mk o.2 2).name.toList = true := by
    decide
  have hcomputable : ∀ o ∈ openings, (plannedDifference o).graph.Computable [] 0 ∧
      (plannedDifference o).graph.Computable [0] 1 ∧
      (plannedDifference o).graph.Computable [0, 1] 2 ∧
      (plannedDifference o).graph.Computable [0, 1, 2] 3 ∧
      (plannedDifference o).graph.Usable [0, 1, 2, 3] 3 := by
    decide +kernel
  intro o ho
  have hlist := listable_difference o ho
  obtain ⟨h₀, h₁, h₂, h₃, hslot⟩ := hcomputable o ho
  have hread : Plan.Readable (plannedDifference o).graph (.results [3]) ⟨[0, 1, 2, 3]⟩ := by
    refine ⟨(((Successive.nil.snoc h₀).snoc h₁).snoc h₂).snoc h₃, ?_⟩
    intro slots hs
    cases hs
    exact List.forall_mem_cons.mpr ⟨hslot, nofun⟩
  have hc : (differenceOf o).builder.graph.Consistent :=
    Transcript.maintains_run? consistent_lasting (Graph.consistent_empty false)
      (run_difference o ho)
  obtain ⟨source, htext, hsource⟩ := hlist.text_eq (hinfo o ho)
  refine ⟨source, htext, ?_⟩
  rw [hsource]
  refine hlist.parse_of_readable hc (hident o ho) ?_ hread
  exact (by decide : 2 < countBound)

/-- An array with the name of the result buffer takes in the results: the difference of two cells
comes back with the second cell behind it. -/
theorem out_hides_results : ∃ t t' b b' source source' prog prog',
    (Transcript.start ⟨false, true⟩ Rule.standard).run? (.declare "data" 2 :: difference) = some t ∧
    (Transcript.start ⟨false, true⟩ Rule.standard).run? (.declare "out" 2 :: difference) = some t' ∧
    plan [3] false t.builder = .ok ⟨[0, 1, 2, 3]⟩ b ∧
    plan [3] false t'.builder = .ok ⟨[0, 1, 2, 3]⟩ b' ∧
    Listing.text b 0 ⟨[0, 1, 2, 3]⟩ (.results [3]) = .ok source ∧
    Listing.text b' 0 ⟨[0, 1, 2, 3]⟩ (.results [3]) = .ok source' ∧
    Program.parse source.toList = .ok prog ∧ Program.parse source'.toList = .ok prog' ∧
    prog.call [1, 2.5] = .ok [-1.5] ∧ prog'.call [1, 2.5] = .ok [-1.5, 2.5] := by
  have hdata : ([], "data") ∈ openings := .head _
  have hout : ([], "out") ∈ openings := .tail _ (.head _)
  obtain ⟨source, htext, hparse⟩ := text_difference _ hdata
  obtain ⟨source', htext', hparse'⟩ := text_difference _ hout
  exact ⟨_, _, _, _, source, source', _, _, run_difference _ hdata, run_difference _ hout,
    plan_difference _ hdata, plan_difference _ hout, htext, htext', hparse, hparse',
    by decide +kernel, by decide +kernel⟩

/-- A read that comes too early fails and changes nothing. -/
theorem array_name_irrelevant_difference : ∃ source t' b' source',
    Listing.text (plannedDifference ([.read 0 0], "data")) 0 ⟨[0, 1, 2, 3]⟩ (.results [3]) =
      .ok source ∧
    (Transcript.start ⟨false, true⟩ Rule.standard).run?
      (.read 0 0 :: .declare "samples" 2 :: difference) = some t' ∧
    plan [3] false t'.builder = .ok ⟨[0, 1, 2, 3]⟩ b' ∧
    Listing.text b' 0 ⟨[0, 1, 2, 3]⟩ (.results [3]) = .ok source' ∧
    Program.parse source'.toList = Program.parse source.toList := by
  have hearly : ([.read 0 0], "data") ∈ openings := .tail _ (.tail _ (.head _))
  have hbefore : (Transcript.start ⟨false, true⟩ Rule.standard).run? [.read 0 0] =
      some ((Transcript.start ⟨false, true⟩ Rule.standard).next (.read 0 0)) := rfl
  obtain ⟨source, htext, _⟩ := text_difference _ hearly
  obtain ⟨t', b', source', hrun, _, hplan, htext', hparse⟩ := array_name_irrelevant
    ⟨false, true⟩ Rule.standard (by decide : 2 < countBound) (by decide)
    (by decide : isIdentifier "samples".toList = true) (by simp [difference, Call.Stages])
    hbefore (run_difference _ hearly) (plan_difference _ hearly) (by decide)
    (by intro slots hs; cases hs; decide) htext
  exact ⟨source, t', b', source', htext, hrun, hplan, htext', hparse⟩

end FlatFourier
