import FlatFourier.Proofs.Delivery
import FlatFourier.Proofs.DiagramText

namespace FlatFourier

open Build Builder Text

/-- Operations entered one after another, with the nodes that they get. -/
inductive Builder.Enters : Builder → List Kind → List NodeId → Builder → Prop where
  | nil : Enters b [] [] b
  | cons (h : Enters (b.add kind).2 kinds ids b') :
      Enters b (kind :: kinds) ((b.add kind).1 :: ids) b'

namespace Builder.Enters

variable {b b' : Builder} {kinds : List Kind} {ids : List NodeId}

theorem length_eq (h : b.Enters kinds ids b') : ids.length = kinds.length := by
  induction h with
  | nil => rfl
  | cons _ ih => simp [ih]

theorem hasKind {i : Nat} (h : b.Enters kinds ids b') (hi : b'.graph.HasKind i kind) :
    b.graph.HasKind i kind ∨ kind ∈ kinds := by
  induction h with
  | nil => exact .inl hi
  | cons _ ih =>
    rcases ih hi with hold | hmem
    · rcases hasKind_of_add hold with hold | ⟨_, rfl⟩
      · exact .inl hold
      · exact .inr (.head _)
    · exact .inr (.tail _ hmem)

theorem lasting {P : Builder → Prop} (h : b.Enters kinds ids b') (hp : Lasting P) (hb : P b) :
    P b' := by
  induction h with
  | nil => exact hb
  | cons _ ih => exact ih (hp.add hb _)

end Builder.Enters

variable {b b' : Builder} {array : ArrayId} {info : ArrayInfo} {p : Plan}

namespace Build

theorem add_ok (h : add kind b = .ok i b') : i = (b.add kind).1 ∧ b' = (b.add kind).2 := by
  rw [add_run] at h
  obtain ⟨rfl, rfl⟩ := EStateM.Result.ok.inj h
  exact ⟨rfl, rfl⟩

theorem checkCell_ok (h : checkCell a c b = .ok u b') : b' = b := by
  rcases checkCell_cases b a c with ⟨_, _, _, he⟩ | ⟨e, he⟩
  · rw [he] at h
    cases h
    rfl
  · rw [he] at h
    cases h

theorem readFrom_enters (h : readFrom array index count b = .ok ids b') :
    ∃ kinds, b.Enters kinds ids b' ∧ kinds.length = count ∧
      ∀ kind ∈ kinds, ∃ c e, kind = .read array c e := by
  induction count generalizing index ids b with
  | zero =>
    cases h
    exact ⟨[], .nil, rfl, nofun⟩
  | succ count ih =>
    obtain ⟨i, b₁, hread, h⟩ := run_bind_ok h
    obtain ⟨rest, b₂, hrest, h⟩ := run_bind_ok h
    cases h
    obtain ⟨u, b₀, hcheck, hadd⟩ := run_bind_ok hread
    obtain rfl := checkCell_ok hcheck
    obtain ⟨rfl, rfl⟩ := add_ok hadd
    obtain ⟨kinds, hkinds, hl, hreads⟩ := ih hrest
    refine ⟨_ :: kinds, .cons hkinds, by simp [hl], ?_⟩
    exact List.forall_mem_cons.mpr ⟨⟨_, _, rfl⟩, hreads⟩

end Build

namespace Kernel

theorem mapM_result_enters {ids : List NodeId} (h : ids.mapM result b = .ok slots b') :
    b.Enters (ids.map .result) slots b' := by
  induction ids generalizing b slots with
  | nil =>
    cases h
    exact .nil
  | cons i ids ih =>
    rw [List.mapM_cons] at h
    obtain ⟨slot, b₁, hslot, hnext⟩ := run_bind_ok h
    obtain ⟨rest, b₂, hrest, hlast⟩ := run_bind_ok hnext
    obtain ⟨rfl, rfl⟩ := add_ok hslot
    cases hlast
    exact .cons (ih hrest)

theorem writeSamples_enters (h : writeSamples array k xs b = .ok u b') :
    ∃ ids, b.Enters (writes array k xs) ids b' := by
  induction xs generalizing b k with
  | nil =>
    cases h
    exact ⟨[], .nil⟩
  | cons x xs ih =>
    obtain ⟨re, b₁, hre, h⟩ := run_bind_ok h
    obtain ⟨im, b₂, him, h⟩ := run_bind_ok h
    obtain ⟨_, b₀, hcheck, hadd⟩ := run_bind_ok hre
    obtain rfl := checkCell_ok hcheck
    obtain ⟨rfl, rfl⟩ := add_ok hadd
    obtain ⟨_, b₀, hcheck, hadd⟩ := run_bind_ok him
    obtain rfl := checkCell_ok hcheck
    obtain ⟨rfl, rfl⟩ := add_ok hadd
    obtain ⟨ids, hids⟩ := ih h
    exact ⟨_, .cons (.cons hids)⟩

theorem length_writes (array : ArrayId) (k : Nat) (xs : List Sample) :
    (writes array k xs).length = 2 * xs.length := by
  induction xs generalizing k with
  | nil => rfl
  | cons x xs ih =>
    simp only [writes, List.length_cons, ih]
    omega

/-- What is entered to hand over the outputs: one operation for each part, and none computes. -/
structure Handover (outputs : List Sample) (kinds : List Kind) : Prop where
  length : kinds.length = 2 * outputs.length
  idle : ∀ kind ∈ kinds, ¬kind.IsArithmetic
  operands : ∀ kind ∈ kinds, ∀ i ∈ kind.operands, i ∈ outputs.flatMap Sample.nodes

theorem handover_writes (array : ArrayId) (outputs : List Sample) :
    Handover outputs (writes array 0 outputs) where
  length := length_writes array 0 outputs
  idle kind hk ha := by
    have hw := writesTo_writes array 0 outputs ⟨0, kind, none⟩ hk
    cases kind with
    | write a c v => exact ha
    | _ => simp [Node.writesTo] at hw
  operands := operands_writes array 0 outputs

theorem handover_results (outputs : List Sample) :
    Handover outputs ((outputs.flatMap Sample.nodes).map .result) where
  length := by
    simp [List.length_flatMap, Sample.nodes, List.map_const', Nat.mul_comm]
  idle kind hk ha := by
    obtain ⟨i, _, rfl⟩ := List.mem_map.mp hk
    exact ha
  operands kind hk i hi := by
    obtain ⟨j, hj, rfl⟩ := List.mem_map.mp hk
    rwa [List.mem_singleton.mp hi]

theorem deliver_enters (h : deliver array outputs delivery b = .ok (roots, binding) b') :
    ∃ kinds ids, b.Enters kinds ids b' ∧ Handover outputs kinds ∧ roots ⊆ ids := by
  cases delivery with
  | inPlace =>
    obtain ⟨u, b₁, hwrite, h⟩ := run_bind_ok h
    cases h
    obtain ⟨ids, hids⟩ := writeSamples_enters hwrite
    exact ⟨_, ids, hids, handover_writes array outputs, nofun⟩
  | results =>
    obtain ⟨slots, b₁, hresult, h⟩ := run_bind_ok h
    cases h
    exact ⟨_, _, mapM_result_enters hresult, handover_results outputs, fun _ hi => hi⟩

end Kernel

namespace Kernel

variable {size : Nat}

theorem unwritten_start (o : Options) (hlen : length < countBound) :
    ((Builder.new o).declare "data" length).2.Unwritten :=
  ⟨(Disciplined.withRules o _).declare "data" hlen, nofun⟩

/-- With one array declared, all reads and writes are of that one. -/
theorem touched (h : b.Disciplined) (harrays : b.arrays = #[info]) {i : Nat} {n : Node}
    (hn : b.graph.node? i = some n) {a : Nat} (ha : n.kind.array? = some a) : a = 0 := by
  have hzero : ∀ {known}, b.arrays[a]? = some known → a = 0 := by
    intro known hk
    obtain ⟨hlt, _⟩ := Array.getElem?_eq_some_iff.mp hk
    simp only [harrays, List.size_toArray, List.length_singleton] at hlt
    omega
  obtain rfl := h.id_eq hn
  have hin := h.cells n (h.mem_list.mpr hn)
  cases hk : n.kind with
  | read a' c e =>
    rw [hk] at ha hin
    obtain rfl := Option.some.inj ha
    obtain ⟨known, hknown, _⟩ := hin
    exact hzero hknown
  | write a' c v =>
    rw [hk] at ha hin
    obtain rfl := Option.some.inj ha
    obtain ⟨known, hknown, _⟩ := hin
    exact hzero hknown
  | _ => simp [hk, Kind.array?] at ha

theorem suits {roots : List NodeId} {binding : Binding} (hd : Delivers 0 size t b roots binding)
    (harrays : b.arrays = #[info]) (hlen : 2 * size < countBound)
    (hp : ∀ i : Nat, i ∈ roots → i ∈ p.order) : p.Suits b 0 binding where
  touched i _ n hn a ha := touched hd.disciplined harrays hn ha
  values i _ n hn := by
    obtain rfl := hd.disciplined.id_eq hn
    exact hd.values n (hd.disciplined.mem_list.mpr hn)
  slots slots hb := by
    obtain ⟨rfl, hl, hs⟩ := hd.slots slots hb
    exact ⟨hl ▸ hlen, fun i hi => .inr ⟨hp i hi, hs i hi⟩⟩

theorem deliver_yields {outputs : List Sample} {t : Nat → Point (Expr Kind)} (h : b.Unwritten)
    (hs : Samples Node.kind b.graph outputs t) (hinfo : b.arrays[array]? = some info)
    (hlen : info.length = 2 * outputs.length) (delivery : Delivery) :
    Yields (deliver array outputs delivery) b fun z b' =>
      b'.arrays = b.arrays ∧ Delivers array outputs.length t b' z.1 z.2 := by
  cases delivery with
  | inPlace => exact inPlace_yields h hs hinfo hlen
  | results => exact results_yields h hs

/-- The builder with the kernel's array and nothing else. -/
def start (size : Nat) (r : Request) : Builder :=
  ((Builder.new r.options).declare "data" (2 * size)).2

/-- The trees of the transform. -/
def trees (size : Nat) (rules : List Rule) : Nat → Point (Expr Kind) :=
  (Expr.arithmetic rules).transform size (cells 0)

/-- The work behind a kernel. -/
structure Making (size : Nat) (r : Request) (k : Kernel) where
  inputs : List NodeId
  outputs : List Sample
  roots : List NodeId
  binding : Binding
  plan : Plan
  /-- The builder when the array has been read. -/
  opened : Builder
  /-- The builder when the outputs have been computed. -/
  computed : Builder
  /-- The builder when the outputs have been handed over. -/
  delivered : Builder
  power : isPowerOfTwo size = true
  inputs_run : readCells 0 (2 * size) (start size r) = .ok inputs opened
  outputs_run : Fourier.transform (Sample.ofNodes inputs) opened = .ok outputs computed
  roots_run : deliver 0 outputs r.delivery computed = .ok (roots, binding) delivered
  plan_run : Build.plan roots r.prune delivered = .ok plan (delivered.countPlanned plan.length)
  source_eq : Listing.text (delivered.countPlanned plan.length) 0 plan binding = .ok k.source
  length_eq : k.planLength = plan.length
  sound : opened.graph.Sound
  rules : opened.rules = (Builder.new r.options).rules
  inputs_lt : ∀ i ∈ inputs, i < opened.graph.size
  inputs_length : inputs.length = 2 * size
  outputs_length : outputs.length = size
  arrays : delivered.arrays = #[⟨"data", 2 * size⟩]
  delivers : Delivers 0 size (trees size (Builder.new r.options).rules) delivered roots binding
  faithful : plan.Faithful (delivered.countPlanned plan.length)
  suits : plan.Suits (delivered.countPlanned plan.length) 0 binding

theorem build_made (hp : isPowerOfTwo size = true) (hlen : 2 * size < countBound) (r : Request) :
    Yields (build size r) (.new r.options) fun k _ => Nonempty (Making size r k) := by
  have hu : (start size r).Unwritten := unwritten_start r.options hlen
  have hinfo : (start size r).arrays[0]? = some ⟨"data", 2 * size⟩ := rfl
  have hdeclare : declare "data" (2 * size) (.new r.options) = .ok 0 (start size r) := rfl
  obtain ⟨inputs, opened, hread, hg₁, hids, hcells⟩ :=
    readFrom_yields hu hinfo 0 (2 * size) (by simp)
  have hu₁ := hu.grows hg₁
  have hlt : ∀ i ∈ inputs, i < opened.graph.size := by
    intro i hi
    obtain ⟨j, hj⟩ := List.mem_iff_getElem?.mp hi
    exact (hcells j i hj).lt
  have hcount : (Sample.ofNodes inputs).length = size := by
    rw [length_ofNodes, hids]
    omega
  obtain ⟨outputs, computed, htransform, hperf, houts, hs⟩ :=
    Fourier.transform_yields hu₁.disciplined.sound (samples_cells hcells) (hcount ▸ hp)
  rw [hcount] at houts hs
  have hg₂ := hg₁.trans hperf.grows.quiet
  obtain ⟨⟨roots, binding⟩, delivered, hdeliver, harrays, hd⟩ :=
    deliver_yields (hu.grows hg₂) hs (hg₂.arrays_eq ▸ hinfo) (by rw [houts]) r.delivery
  rw [houts, hg₁.rules_eq] at hd
  have harrays : delivered.arrays = #[⟨"data", 2 * size⟩] := by rw [harrays, hg₂.arrays_eq]; rfl
  have hinfo₃ : delivered.arrays[0]? = some ⟨"data", 2 * size⟩ := by simp [harrays]
  obtain ⟨p, b', hplan, rfl, hf, hroots⟩ := hd.disciplined.plan_yields hd.rooted r.prune
  have hfaithful : p.Faithful (delivered.countPlanned p.length) :=
    ⟨hf.exist, hf.orderly, hf.writes⟩
  have hsuits := suits hd harrays hlen hroots
  have hsuits : p.Suits (delivered.countPlanned p.length) 0 binding :=
    ⟨hsuits.touched, hsuits.values, hsuits.slots⟩
  obtain ⟨source, htext, _⟩ :=
    (hd.disciplined.planned p.length).exists_text hinfo₃ hfaithful hsuits
  have hplanned : (delivered.countPlanned p.length).arrays[0]? = some ⟨"data", 2 * size⟩ := hinfo₃
  obtain ⟨diagram, hdiagram, _⟩ := Diagram.text_eq hplanned fun i hi => by
    obtain ⟨n, hn⟩ := Graph.node?_of_lt (hf.exist i hi)
    exact ⟨n, hn, hsuits.touched i hi n hn⟩
  refine ⟨_, _, (run_bind hdeclare).trans ((run_bind hread).trans ((run_bind htransform).trans
    ((run_bind hdeliver).trans ((run_bind hplan).trans ((run_bind (ask_run htext)).trans
      ((run_bind (ask_run hdiagram)).trans rfl)))))), ⟨?_⟩⟩
  exact { inputs, outputs, roots, binding, plan := p, opened, computed, delivered
          inputs_run := hread, outputs_run := htransform, roots_run := hdeliver
          plan_run := hplan, source_eq := htext, length_eq := rfl, power := hp
          sound := hu₁.disciplined.sound, rules := hg₁.rules_eq, inputs_lt := hlt
          inputs_length := hids, outputs_length := houts, arrays := harrays, delivers := hd
          faithful := hfaithful, suits := hsuits }

namespace Making

variable {r : Request} {k : Kernel}

/-- What each request of the transform carries on holds when the outputs have been computed. -/
theorem carries (m : Making size r k) {A : Arithmetic α}
    {inv : List (Demand α) → List (NodeId × α) → Builder → Prop} (hc : A.Carried inv)
    (s : Nat → Point α) (h : inv [] (Sample.handed (Sample.ofNodes m.inputs) s) m.opened) :
    ∃ handed, inv (Demand.transform A size s) handed m.computed ∧
      Along (Sample.Handed handed) m.outputs (A.transform size s) := by
  have hcount : (Sample.ofNodes m.inputs).length = size := by
    rw [length_ofNodes, m.inputs_length]
    omega
  have hpower : isPowerOfTwo (Sample.ofNodes m.inputs).length = true := by
    rw [hcount]
    exact m.power
  obtain ⟨outputs, b', hrun, handed, hinv, _, hs⟩ := hc.transform s hpower h
  cases hrun.symm.trans m.outputs_run
  rw [hcount] at hinv hs
  exact ⟨handed, hinv, hs⟩

/-- What every change to a builder keeps holds at the end as it does at the start. -/
theorem lasting (m : Making size r k) {P : Builder → Prop} (hp : Lasting P)
    (h : P (start size r)) : P m.delivered := by
  obtain ⟨reads, hread, _⟩ := readFrom_enters m.inputs_run
  obtain ⟨kinds, ids, hdeliver, _⟩ := deliver_enters m.roots_run
  have htransform : (Call.transform (Sample.ofNodes m.inputs)).run.after m.opened = m.computed :=
    after_ok (run_bind m.outputs_run)
  have hcomputed := hp.maintains_run (.transform (Sample.ofNodes m.inputs)) _ (hread.lasting hp h)
  rw [htransform] at hcomputed
  exact hdeliver.lasting hp hcomputed

theorem map_fst_handed (m : Making size r k) (s : Nat → Point α) :
    (Sample.handed (Sample.ofNodes m.inputs) s).map Prod.fst = m.inputs := by
  rw [Sample.map_fst_handed, flatMap_ofNodes m.inputs_length]

end Making

theorem exists_making (hp : isPowerOfTwo size = true) (hlen : 2 * size < countBound)
    (r : Request) : ∃ k, specialize size r = .ok k ∧ Nonempty (Making size r k) := by
  obtain ⟨k, b, hk, hm⟩ := build_made hp hlen r
  refine ⟨k, ?_, hm⟩
  have hbound : ¬countBound ≤ 2 * size := by omega
  simp only [specialize, hp, hbound, EStateM.run, hk]
  rfl

end Kernel

end FlatFourier
