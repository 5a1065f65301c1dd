import FlatFourier.Proofs.PlanValidity

namespace FlatFourier

open Build

namespace WriteLog

/-- Enters a write, which has to carry the number that its array has given out last. -/
def record? (log : WriteLog) (write : Write) : Option WriteLog :=
  if write.seq + 1 = log.epoch write.array then some (log.record write) else none

/-- Takes a number for each write in turn and enters the write, as long as the numbers fit. -/
def replay? (writes : List Write) : Option WriteLog :=
  writes.foldlM (fun log write => (log.reserve write.array).2.record? write) .empty

end WriteLog

namespace WriteOrder

/-- Puts a write behind those of its array, which have to be as many as its number says. -/
def insert? (order : WriteOrder) (write : Write) : Option WriteOrder :=
  if (order.writes.getD write.array #[]).size = write.seq then some (order.insert write) else none

def ofLog? (log : WriteLog) : Option WriteOrder :=
  log.entries.toList.foldlM insert? ⟨∅⟩

end WriteOrder

/-- Both nodes are writes. The first has the smaller array or, in the same array, the smaller
number. -/
def Graph.WriteLt (g : Graph) (i j : NodeId) : Prop :=
  ∃ a c s a' c' s', g.IsWrite i a c s ∧ g.IsWrite j a' c' s' ∧ (a < a' ∨ a = a' ∧ s < s')

/-- Nothing in the log has been out of sequence, when it was entered and when it is put in order. -/
structure WriteLog.InSequence (log : WriteLog) : Prop where
  replayed : replay? log.entries.toList = some log
  ordered : WriteOrder.ofLog? log = some (.ofLog log)

/-- Log, counts, graph and order of writes agree. -/
structure Builder.Recorded (b : Builder) : Prop where
  numbers : ∀ a, (b.log.entries.toList.filter (·.array = a)).map (·.seq) =
    List.range (b.log.epoch a)
  ascending : b.log.entries.toList.Pairwise (·.node < ·.node)
  written : ∀ w ∈ b.log.entries, ∃ c, b.graph.IsWrite w.node w.array c w.seq
  entered : ∀ {i n a c v}, b.graph.node? i = some n → n.kind = .write a c v →
    ∃ s, n.seq = some s ∧ ⟨a, s, i⟩ ∈ b.log.entries
  found : ∀ {a s i}, (WriteOrder.ofLog b.log).write? a s = some i ↔ ∃ c, b.graph.IsWrite i a c s
  listed : ∀ {i}, i ∈ (WriteOrder.ofLog b.log).all ↔ ∃ a c s, b.graph.IsWrite i a c s
  once : (WriteOrder.ofLog b.log).all.Nodup
  sorted : (WriteOrder.ofLog b.log).all.Pairwise b.graph.WriteLt
  inSequence : b.log.InSequence

namespace WriteLog

variable {log : WriteLog}

theorem epoch_reserve (log : WriteLog) (a : ArrayId) :
    (log.reserve a).2.epoch a = log.epoch a + 1 := by
  simp [reserve, epoch]

/-- A number that has just been given out fits. -/
theorem record?_reserve (log : WriteLog) (a : ArrayId) (i : NodeId) :
    (log.reserve a).2.record? ⟨a, log.epoch a, i⟩ =
      some ((log.reserve a).2.record ⟨a, log.epoch a, i⟩) := by
  rw [record?, epoch_reserve, if_pos rfl]

theorem InSequence.empty : WriteLog.empty.InSequence :=
  ⟨rfl, rfl⟩

theorem InSequence.enter (h : log.InSequence)
    (hcount : ∀ a, ((WriteOrder.ofLog log).writes.getD a #[]).size = log.epoch a)
    (i : NodeId) (kind : Kind) : (log.enter i kind).InSequence := by
  cases kind with
  | write a c v =>
    have hentries : (log.enter i (.write a c v)).entries.toList =
        log.entries.toList ++ [⟨a, log.epoch a, i⟩] := by
      simp [WriteLog.enter, reserve, record]
    constructor
    · have hold := h.replayed
      unfold replay? at hold ⊢
      rw [hentries, List.foldlM_append, hold]
      exact congrArg (· >>= pure) (record?_reserve log a i)
    · have hold := h.ordered
      have hnew : WriteOrder.ofLog (log.enter i (.write a c v)) =
          (WriteOrder.ofLog log).insert ⟨a, log.epoch a, i⟩ := by
        rw [WriteOrder.ofLog, ← Array.foldl_toList, hentries, List.foldl_append,
          WriteOrder.ofLog, ← Array.foldl_toList]
        rfl
      unfold WriteOrder.ofLog? at hold ⊢
      rw [hentries, List.foldlM_append, hold, hnew]
      simp [WriteOrder.insert?, hcount a]
  | _ => exact h

end WriteLog

/-- The numbers of an array's writes count up from zero. -/
theorem Numbered.seqs {nodes : List Node} (h : Numbered nodes) (a : ArrayId) :
    ((nodes.filterMap Node.entry?).filter (·.array = a)).map (·.seq) =
      List.range (writesTo a nodes) := by
  induction h with
  | nil => rfl
  | @snoc nodes n h hn ih =>
    rw [List.filterMap_append, List.filter_append, List.map_append, ih, writesTo_snoc]
    cases hk : n.kind with
    | write a' c v =>
      have hs := hn a' c v hk
      by_cases ha : a' = a
      · subst ha
        simp [Node.entry?, Node.writesTo, hk, hs, List.range_succ]
      · simp [Node.entry?, Node.writesTo, hk, hs, ha]
    | _ => simp [Node.entry?, Node.writesTo, hk]

theorem Node.entry?_eq_some {n : Node} (h : n.entry? = some w) :
    (∃ c v, n.kind = .write w.array c v) ∧ n.seq = some w.seq ∧ n.id = w.node := by
  unfold Node.entry? at h
  split at h
  · rename_i a c v s hk hs
    cases h
    exact ⟨⟨c, v, hk⟩, hs, rfl⟩
  · cases h

theorem Graph.Consistent.ascending {g : Graph} (h : g.Consistent) :
    g.list.Pairwise (·.id < ·.id) := by
  have hid : ∀ (i : Nat) (hi : i < g.list.length), g.list[i].id = i := fun i hi =>
    h.ids i _ ((g.node?_eq i).trans (List.getElem?_eq_getElem hi))
  rw [List.pairwise_iff_getElem]
  intro i j hi hj hlt
  rwa [hid i hi, hid j hj]

/-- A node is in one place among the writes. -/
theorem Graph.WriteLt.ne {g : Graph} {i j : NodeId} (h : g.WriteLt i j) : i ≠ j := by
  rintro rfl
  obtain ⟨a, c, s, a', c', s', ⟨n, v, hn, hk, hs⟩, ⟨n', v', hn', hk', hs'⟩, hlt⟩ := h
  cases hn.symm.trans hn'
  cases hk.symm.trans hk'
  cases hs.symm.trans hs'
  rcases hlt with hlt | ⟨_, hlt⟩
  · exact Nat.lt_irrefl a hlt
  · exact Nat.lt_irrefl s hlt

namespace Builder.Logged

variable {b : Builder}

theorem size_writes (h : b.Logged) (a : ArrayId) :
    ((WriteOrder.ofLog b.log).writes.getD a #[]).size = b.log.epoch a := by
  rw [← Array.length_toList, h.writes_eq, List.length_map, h.epoch, writesTo,
    List.countP_eq_length_filter]

theorem isWrite_iff (hc : b.graph.Consistent) {i : NodeId} :
    (∃ c, b.graph.IsWrite i a c s) ↔
      ∃ n ∈ b.graph.list, (∃ c v, n.kind = .write a c v) ∧ n.seq = some s ∧ n.id = i := by
  constructor
  · rintro ⟨c, n, v, hn, hk, hs⟩
    obtain rfl := hc.ids i n hn
    exact ⟨n, hc.mem_list.mpr hn, ⟨c, v, hk⟩, hs, rfl⟩
  · rintro ⟨n, hn, ⟨c, v, hk⟩, hs, rfl⟩
    exact ⟨c, n, v, hc.mem_list.mp hn, hk, hs⟩

theorem write?_iff_isWrite (h : b.Logged) (hc : b.graph.Consistent) {i : NodeId} :
    (WriteOrder.ofLog b.log).write? a s = some i ↔ ∃ c, b.graph.IsWrite i a c s :=
  h.write?_iff.trans (isWrite_iff hc).symm

theorem seq_isSome (h : b.Logged) (hc : b.graph.Consistent) {i : NodeId}
    (hn : b.graph.node? i = some n) (hk : n.kind = .write a c v) : ∃ s, n.seq = some s := by
  obtain rfl := hc.ids i n hn
  obtain ⟨before, after, he⟩ := List.append_of_mem (hc.mem_list.mpr hn)
  exact ⟨_, h.numbered.at he a c v hk⟩

/-- The writes of an array stand in the order of their numbers, and arrays in the order of their
ids. -/
theorem sorted_all (h : b.Logged) (hc : b.graph.Consistent) :
    (WriteOrder.ofLog b.log).all.Pairwise b.graph.WriteLt := by
  have hplace : ∀ {a ids}, (a, ids) ∈ (WriteOrder.ofLog b.log).writes.toList →
      ∀ {s i : Nat}, ids.toList[s]? = some i → ∃ c, b.graph.IsWrite i a c s := by
    intro a ids hmem s i hi
    have hids := Std.TreeMap.mem_toList_iff_getElem?_eq_some.mp hmem
    apply (h.write?_iff_isWrite hc).mp
    rw [WriteOrder.write?, Std.TreeMap.getD_eq_getD_getElem?, hids]
    simpa using hi
  rw [WriteOrder.all, List.pairwise_flatMap]
  constructor
  · rintro ⟨a, ids⟩ hmem
    rw [List.pairwise_iff_getElem]
    intro s t hs ht hlt
    obtain ⟨c, hi⟩ := hplace hmem (List.getElem?_eq_getElem hs)
    obtain ⟨c', hj⟩ := hplace hmem (List.getElem?_eq_getElem ht)
    exact ⟨a, c, s, a, c', t, hi, hj, .inr ⟨rfl, hlt⟩⟩
  · refine Std.TreeMap.ordered_keys_toList.imp_of_mem ?_
    rintro ⟨a, ids⟩ ⟨a', ids'⟩ hmem hmem' hlt i hi j hj
    obtain ⟨s, hs⟩ := List.mem_iff_getElem?.mp hi
    obtain ⟨t, ht⟩ := List.mem_iff_getElem?.mp hj
    obtain ⟨c, hi⟩ := hplace hmem hs
    obtain ⟨c', hj⟩ := hplace hmem' ht
    exact ⟨a, c, s, a', c', t, hi, hj, .inl (Nat.compare_eq_lt.mp hlt)⟩

theorem recorded (h : b.Logged) (hc : b.graph.Consistent) (hs : b.log.InSequence) :
    b.Recorded where
  numbers a := by
    rw [h.entries, h.numbered.seqs, h.epoch]
  ascending := by
    rw [h.entries]
    refine hc.ascending.filterMap _ ?_
    intro n n' hlt w hw w' hw'
    rwa [← (Node.entry?_eq_some hw).2.2, ← (Node.entry?_eq_some hw').2.2]
  written w hw := by
    rw [← Array.mem_toList_iff, h.entries] at hw
    obtain ⟨n, hn, he⟩ := List.mem_filterMap.mp hw
    obtain ⟨hk, hseq, hid⟩ := Node.entry?_eq_some he
    exact (isWrite_iff hc).mpr ⟨n, hn, hk, hseq, hid⟩
  entered := by
    intro i n a c v hn hk
    obtain ⟨s, hseq⟩ := h.seq_isSome hc hn hk
    refine ⟨s, hseq, ?_⟩
    obtain rfl := hc.ids i n hn
    rw [← Array.mem_toList_iff, h.entries]
    exact List.mem_filterMap.mpr ⟨n, hc.mem_list.mpr hn, by simp [Node.entry?, hk, hseq]⟩
  found := h.write?_iff_isWrite hc
  listed := by
    intro i
    rw [h.mem_all]
    constructor
    · rintro ⟨n, hn, ⟨a, c, v, hk⟩, rfl⟩
      have hn := hc.mem_list.mp hn
      obtain ⟨s, hseq⟩ := h.seq_isSome hc hn hk
      exact ⟨a, c, s, n, v, hn, hk, hseq⟩
    · rintro ⟨a, c, s, n, v, hn, hk, hseq⟩
      obtain rfl := hc.ids i n hn
      exact ⟨n, hc.mem_list.mpr hn, ⟨a, c, v, hk⟩, rfl⟩
  once := (h.sorted_all hc).imp Graph.WriteLt.ne
  sorted := h.sorted_all hc
  inSequence := hs

end Builder.Logged

theorem logged_lasting : Lasting fun b => b.Logged ∧ b.log.InSequence where
  add h kind := by
    refine ⟨h.1.add kind, ?_⟩
    rw [Builder.add_log]
    exact h.2.enter h.1.size_writes _ kind
  declare h _ _ := ⟨⟨h.1.numbered, h.1.entries, h.1.epoch⟩, h.2⟩
  count h _ := ⟨⟨h.1.numbered, h.1.entries, h.1.epoch⟩, h.2⟩
  planned h _ := ⟨⟨h.1.numbered, h.1.entries, h.1.epoch⟩, h.2⟩

/-- Whatever has happened to a builder, its record of writes is in agreement. -/
theorem writes_recorded (options : Options) (rules : List Rule) (events : List Event) :
    ((Builder.withRules options rules).after events).Recorded := by
  obtain ⟨hlogged, hsequence⟩ := logged_lasting.events
    (b := .withRules options rules) ⟨.withRules options rules, .empty⟩ events
  exact hlogged.recorded (Builder.consistent_after options rules events) hsequence

end FlatFourier
