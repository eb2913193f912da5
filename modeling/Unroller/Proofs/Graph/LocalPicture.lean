import Mathlib.Tactic
import Unroller.Proofs.Graph.Threading

/-!
# What threading records about locals

Threading goes over the nodes of every reachable block once and fills two tables as it goes.  Here
its result is described by the node lists alone: by the accesses of each local in the order in which
they stand there.

* `accesses`, `firstReads`: the accesses of a local, and the reads that come before every other
  access of their local.
* `LocalPicture`: what the snapshots, the phis and the reads of a block then are.
* `Picturing.step`, `Picturing.run`: one node of a block, all of them.
* `pictured_threadBlock`: a block comes to have its picture when it is threaded.
-/

namespace Unroller.Graph

variable {g h : Graph} {b c : BlockId} {n m r p : NodeId} {l : Local} {node read : Node}
  {block new : Block} {done nodes phis : List NodeId} {head tail : Snapshot} {s : Threaded}

/-! ## Accesses of locals -/

/-- The local that a node reads. -/
def readOf? (g : Graph) (n : NodeId) : Option Local :=
  (g.node? n).bind fun node => if node.kind = .getLocal then node.slot? else none

/-- The local that a node reads or writes. -/
def accessOf? (g : Graph) (n : NodeId) : Option Local :=
  (g.node? n).bind fun node =>
    if node.kind = .getLocal ∨ node.kind = .setLocal then node.slot? else none

/-- The accesses of a local in a node list, in order. -/
def accesses (g : Graph) (l : Local) (nodes : List NodeId) : List NodeId :=
  nodes.filter fun n => g.accessOf? n = some l

/-- The reads in a node list that are the first access of their local there, in order. -/
def firstReads (g : Graph) (nodes : List NodeId) : List NodeId :=
  nodes.filter fun n => (g.readOf? n).any fun l => (g.accesses l nodes).head? = some n

theorem readOf?_eq_some_iff :
    g.readOf? n = some l ↔
      ∃ node, g.node? n = some node ∧ node.kind = .getLocal ∧ node.slot? = some l := by
  simp [readOf?, Option.bind_eq_some_iff]

theorem accessOf?_eq_some_iff :
    g.accessOf? n = some l ↔ ∃ node, g.node? n = some node ∧
      (node.kind = .getLocal ∨ node.kind = .setLocal) ∧ node.slot? = some l := by
  simp [accessOf?, Option.bind_eq_some_iff]

theorem accessOf?_of_readOf? (h : g.readOf? n = some l) : g.accessOf? n = some l := by
  obtain ⟨node, hnode, hkind, hl⟩ := readOf?_eq_some_iff.1 h
  exact accessOf?_eq_some_iff.2 ⟨node, hnode, .inl hkind, hl⟩

theorem mem_accesses : n ∈ g.accesses l nodes ↔ n ∈ nodes ∧ g.accessOf? n = some l := by
  simp [accesses]

theorem mem_firstReads :
    n ∈ g.firstReads nodes ↔
      ∃ l, g.readOf? n = some l ∧ (g.accesses l nodes).head? = some n := by
  simp only [firstReads, List.mem_filter, Option.any_eq_true, decide_eq_true_eq]
  constructor
  · exact fun hn => hn.2
  · rintro ⟨l, hread, hhead⟩
    exact ⟨(mem_accesses.1 (List.mem_of_head? hhead)).1, l, hread, hhead⟩

theorem mem_of_mem_firstReads (hn : n ∈ g.firstReads nodes) : n ∈ nodes :=
  (List.mem_filter.1 hn).1

/-- A local has a first read when its first access is a read. -/
theorem exists_firstRead_iff :
    (∃ r ∈ g.firstReads nodes, g.readOf? r = some l) ↔
      ∃ r, (g.accesses l nodes).head? = some r ∧ g.readOf? r = some l := by
  constructor
  · rintro ⟨r, hr, hread⟩
    obtain ⟨l', hread', hhead⟩ := mem_firstReads.1 hr
    rw [hread] at hread'
    obtain rfl := Option.some.inj hread'
    exact ⟨r, hhead, hread⟩
  · rintro ⟨r, hhead, hread⟩
    exact ⟨r, mem_firstReads.2 ⟨l, hread, hhead⟩, hread⟩

theorem accesses_concat (g : Graph) (l : Local) (done : List NodeId) (n : NodeId) :
    g.accesses l (done ++ [n]) =
      g.accesses l done ++ if g.accessOf? n = some l then [n] else [] := by
  rw [accesses, List.filter_append, List.filter_singleton]
  simp [accesses]

/-- One more node is a first read when it reads a local that was not accessed before it. -/
theorem firstReads_concat (hn : n ∉ done) :
    g.firstReads (done ++ [n]) = g.firstReads done ++
      if (g.readOf? n).any fun l => g.accesses l done = [] then [n] else [] := by
  rw [firstReads, List.filter_append, firstReads]
  congr 1
  · refine List.filter_congr fun m hm => ?_
    cases hread : g.readOf? m with
    | none => rfl
    | some l =>
      have hmem : m ∈ g.accesses l done := mem_accesses.2 ⟨hm, accessOf?_of_readOf? hread⟩
      rw [Option.any_some, Option.any_some, accesses_concat,
        List.head?_append_of_ne_nil _ (List.ne_nil_of_mem hmem)]
  · rw [List.filter_singleton]
    cases hread : g.readOf? n with
    | none => rfl
    | some l =>
      rw [Option.any_some, Option.any_some, accesses_concat, if_pos (accessOf?_of_readOf? hread)]
      cases hacc : g.accesses l done with
      | nil => simp
      | cons m rest =>
        have hm : m ∈ g.accesses l done := by simp [hacc]
        have hne : m ≠ n := by
          rintro rfl
          exact hn (mem_accesses.1 hm).1
        simp [hne]

theorem accesses_congr (hg : ∀ n ∈ nodes, h.node? n = g.node? n) (l : Local) :
    h.accesses l nodes = g.accesses l nodes :=
  List.filter_congr fun n hn => by rw [accessOf?, accessOf?, hg n hn]

theorem firstReads_congr (hg : ∀ n ∈ nodes, h.node? n = g.node? n) :
    h.firstReads nodes = g.firstReads nodes :=
  List.filter_congr fun n hn => by simp only [readOf?, hg n hn, accesses_congr hg]

/-! ## The picture of a block -/

/-- The phi `p` stands at the head for the local that the node `r` reads, and `r` refers to it. -/
def PhiFor (g h : Graph) (head : Snapshot) (r p : NodeId) : Prop :=
  ∃ l read children, g.node? r = some read ∧ read.kind = .getLocal ∧ read.slot? = some l ∧
    head.get? l = some p ∧ h.node? p = some { phiOf l read with children := children } ∧
    h.node? r = some { read with children := .one (.untyped p) }

/-- What is recorded about the locals of a block of `g` that runs `nodes`. -/
structure LocalPicture (g h : Graph) (nodes phis : List NodeId) (head tail : Snapshot) : Prop where
  /-- The end records the last access of each local. -/
  last : ∀ l, tail.get? l = (g.accesses l nodes).getLast?
  /-- The head records something for exactly the locals whose first access is a read. -/
  first : ∀ l, (head.get? l).isSome = true ↔
    ∃ r, (g.accesses l nodes).head? = some r ∧ g.readOf? r = some l
  /-- What it records are the phis, one for each of these reads and in their order. -/
  phi : List.Forall₂ (g.PhiFor h head) (g.firstReads nodes) phis
  /-- None of them was there before. -/
  fresh : ∀ p ∈ phis, g.nodes.size ≤ p
  nodup : phis.Nodup
  /-- All other reads have no operands. -/
  later : ∀ n ∈ nodes, n ∉ g.firstReads nodes → ∀ read, g.node? n = some read →
    read.kind = .getLocal → h.node? n = some { read with children := .none }

theorem forall₂_of_mem {α β : Type} {R S : α → β → Prop} {xs : List α} {ys : List β}
    (h : List.Forall₂ R xs ys) (himp : ∀ x ∈ xs, ∀ y ∈ ys, R x y → S x y) :
    List.Forall₂ S xs ys := by
  rw [List.forall₂_iff_zip] at h ⊢
  refine ⟨h.1, fun hmem => ?_⟩
  obtain ⟨hx, hy⟩ := List.of_mem_zip hmem
  exact himp _ hx _ hy (h.2 hmem)

/-- The phi of a read stays one when at most its operands change. -/
theorem PhiFor.transfer {g' h' : Graph} {head' : Snapshot} (hphi : g.PhiFor h head r p)
    (hg : g'.node? r = g.node? r) (hr : h'.node? r = h.node? r)
    (hp : ∀ node, h.node? p = some node → ∃ c, h'.node? p = some { node with children := c })
    (hhead : ∀ l, head.get? l = some p → head'.get? l = some p) : g'.PhiFor h' head' r p := by
  obtain ⟨l, read, children, hread, hkind, hl, hget, hnode, hlink⟩ := hphi
  obtain ⟨c, hc⟩ := hp _ hnode
  exact ⟨l, read, c, hg.trans hread, hkind, hl, hhead l hget, hc, hr.trans hlink⟩

/-- The picture of a block depends on its nodes and on its phis, operands of phis apart. -/
theorem LocalPicture.transfer {g' h' : Graph} (hpic : LocalPicture g h nodes phis head tail)
    (hsize : g'.nodes.size ≤ g.nodes.size) (hg : ∀ n ∈ nodes, g'.node? n = g.node? n)
    (hread : ∀ n ∈ nodes, h'.node? n = h.node? n)
    (hphi : ∀ p ∈ phis, ∀ node, h.node? p = some node →
      ∃ c, h'.node? p = some { node with children := c }) :
    LocalPicture g' h' nodes phis head tail := by
  refine ⟨fun l => ?_, fun l => ?_, ?_, fun p hp => hsize.trans (hpic.fresh p hp), hpic.nodup, ?_⟩
  · rw [accesses_congr hg]
    exact hpic.last l
  · rw [accesses_congr hg, hpic.first]
    refine exists_congr fun r => and_congr_right fun hr => ?_
    rw [readOf?, readOf?, hg r (mem_accesses.1 (List.mem_of_head? hr)).1]
  · rw [firstReads_congr hg]
    refine forall₂_of_mem hpic.phi fun r hr p hp h => ?_
    have hmem := mem_of_mem_firstReads hr
    exact h.transfer (hg r hmem) (hread r hmem) (hphi p hp) fun _ hl => hl
  · intro n hn hnot read hnode hkind
    rw [firstReads_congr hg] at hnot
    rw [hg n hn] at hnode
    exact (hread n hn).trans (hpic.later n hn hnot read hnode hkind)

theorem LocalPicture.exists_phi (hpic : LocalPicture g h nodes phis head tail)
    (hr : r ∈ g.firstReads nodes) : ∃ p ∈ phis, g.PhiFor h head r p := by
  obtain ⟨i, rfl⟩ := List.mem_iff_get.1 hr
  have hi : i.1 < phis.length := hpic.phi.length_eq ▸ i.2
  exact ⟨_, phis.get_mem ⟨i.1, hi⟩, hpic.phi.get i.2 hi⟩

theorem LocalPicture.exists_read (hpic : LocalPicture g h nodes phis head tail) (hp : p ∈ phis) :
    ∃ r ∈ g.firstReads nodes, g.PhiFor h head r p := by
  obtain ⟨i, rfl⟩ := List.mem_iff_get.1 hp
  have hi : i.1 < (g.firstReads nodes).length := hpic.phi.length_eq.symm ▸ i.2
  exact ⟨_, List.get_mem _ ⟨i.1, hi⟩, hpic.phi.get hi i.2⟩

theorem LocalPicture.lt_size (hpic : LocalPicture g h nodes phis head tail) (hp : p ∈ phis) :
    p < h.nodes.size := by
  obtain ⟨_, _, _, _, _, _, _, _, _, hphi, _⟩ := hpic.exists_read hp
  exact lt_size_of_node? hphi

/-- A read differs from what it was in its operands only. -/
theorem LocalPicture.sameNode (hpic : LocalPicture g h nodes phis head tail) (hn : n ∈ nodes)
    (hnode : g.node? n = some node) (hkind : node.kind = .getLocal) :
    ∃ image, h.node? n = some image ∧ SameNode node image := by
  by_cases hfirst : n ∈ g.firstReads nodes
  · obtain ⟨_, _, _, read, _, hread, _, _, _, _, hlink⟩ := hpic.exists_phi hfirst
    rw [hnode] at hread
    obtain rfl := Option.some.inj hread
    exact ⟨_, hlink, rfl, rfl, .inl hkind⟩
  · exact ⟨_, hpic.later n hn hfirst node hnode hkind, rfl, rfl, .inl hkind⟩

/-! ## The nodes of a block -/

/-- What is known when the nodes `done` of a block of `g` have been gone through. -/
structure Picturing (g : Graph) (done : List NodeId) (s : Threaded) : Prop
    extends ThreadingOf g done s where
  picture : LocalPicture g s.graph done s.phis s.head s.tail
  other : ∀ n node, g.node? n = some node → (n ∈ done → node.kind ≠ .getLocal) →
    s.graph.node? n = some node

/-- Going through a node changes no other node that is there. -/
theorem node?_threadNode (hm : m < s.graph.nodes.size) (hne : n ≠ m) :
    (threadNode s n).graph.node? m = s.graph.node? m := by
  rcases ThreadingOf.threadNode_cases s n with ⟨heq, _⟩ | ⟨node, l, _, _, hcase⟩
  · rw [heq]
  rcases hcase with ⟨_, heq⟩ | ⟨_, _, heq⟩ | ⟨_, _, heq⟩
  · rw [heq]
  · simp [heq, hne]
  · simp [heq, hne, hm.ne]

namespace Picturing

theorem start (g : Graph) (locals : Nat) :
    Picturing g [] ⟨g, [], .ofLocals locals, .ofLocals locals⟩ where
  toThreadingOf := .start g locals
  picture := by
    refine ⟨fun l => ?_, fun l => ?_, .nil, by simp, List.nodup_nil, by simp⟩
    · exact Snapshot.get?_ofLocals locals l
    · simp [Snapshot.get?_ofLocals, accesses]
  other := fun _ _ hnode _ => hnode

variable (hs : Picturing g done s) (hn : n ∉ done) (hnode : g.node? n = some node)

include hs in
/-- What the head records stays: there is no second first access. -/
theorem head_threadNode (hp : s.head.get? l = some p) : (threadNode s n).head.get? l = some p := by
  rcases ThreadingOf.threadNode_cases s n with ⟨heq, _⟩ | ⟨node, l', _, _, hcase⟩
  · rwa [heq]
  rcases hcase with ⟨_, heq⟩ | ⟨_, _, heq⟩ | ⟨_, hnone, heq⟩
  · rwa [heq]
  · rwa [heq]
  · have hne : l ≠ l' := by
      rintro rfl
      obtain ⟨r, hr, _⟩ := (hs.picture.first l).1 (by simp [hp])
      rw [hs.picture.last, List.getLast?_eq_none_iff] at hnone
      simp [hnone] at hr
    rw [heq]
    simpa [Snapshot.get?_set, hne] using hp

include hs hn hnode in
theorem phis_threadNode : List.Forall₂
    (g.PhiFor (threadNode s n).graph (threadNode s n).head) (g.firstReads done) s.phis := by
  refine forall₂_of_mem hs.picture.phi fun r hr p hp hphi => ?_
  have hr' : n ≠ r := by
    rintro rfl
    exact hn (mem_of_mem_firstReads hr)
  have hp' : n ≠ p := Nat.ne_of_lt (Nat.lt_of_lt_of_le (lt_size_of_node? hnode) (hs.phi p hp).1)
  have hkeep : ∀ {m node}, n ≠ m → s.graph.node? m = some node →
      (threadNode s n).graph.node? m = s.graph.node? m :=
    fun hne hm => node?_threadNode (lt_size_of_node? hm) hne
  have ⟨_, _, _, _, _, _, _, _, hlink⟩ := hphi
  refine hphi.transfer rfl (hkeep hr' hlink) (fun node hp => ⟨node.children, ?_⟩)
    fun _ => hs.head_threadNode
  rw [hkeep hp' hp, hp]

include hs hn in
theorem later_threadNode (hm : m ∈ done) (hnot : m ∉ g.firstReads done)
    (hread : g.node? m = some read) (hkind : read.kind = .getLocal) :
    (threadNode s n).graph.node? m = some { read with children := .none } := by
  have hold := hs.picture.later m hm hnot read hread hkind
  have hne : n ≠ m := by
    rintro rfl
    exact hn hm
  rw [node?_threadNode (lt_size_of_node? hold) hne, hold]

include hs in
/-- Nothing but reads changes. -/
theorem other_threadNode (hread : g.node? m = some read)
    (hm : m ∈ done ++ [n] → read.kind ≠ .getLocal) :
    (threadNode s n).graph.node? m = some read := by
  have hold := hs.other m read hread fun h => hm (List.mem_append_left _ h)
  by_cases hne : n = m
  · subst hne
    rcases ThreadingOf.threadNode_cases s n with ⟨heq, _⟩ | ⟨node', l, hnode', _, hcase⟩
    · rw [heq, hold]
    rw [hold] at hnode'
    obtain rfl := Option.some.inj hnode'
    have hkind := hm (by simp)
    rcases hcase with ⟨_, heq⟩ | ⟨hget, _⟩ | ⟨hget, _⟩
    · rw [heq, hold]
    · exact absurd hget hkind
    · exact absurd hget hkind
  · rw [node?_threadNode (lt_size_of_node? hold) hne, hold]

include hs in
/-- The node gone through becomes the last access of its local. -/
theorem tail_access (hl : g.accessOf? n = some l) (k : Local) :
    (s.tail.set l (some n)).get? k = (g.accesses k (done ++ [n])).getLast? := by
  rw [Snapshot.get?_set, accesses_concat, hl, hs.picture.last]
  by_cases hk : k = l
  · simp [hk]
  · simp [hk, Ne.symm hk]

include hs hn hnode in
/-- A node that is no first read. -/
theorem picture_of_settled (hsettled : (g.readOf? n).all fun l => g.accesses l done ≠ [])
    (hphis : (threadNode s n).phis = s.phis) (hhead : (threadNode s n).head = s.head)
    (htail : ∀ l, (threadNode s n).tail.get? l = (g.accesses l (done ++ [n])).getLast?)
    (hread : node.kind = .getLocal →
      (threadNode s n).graph.node? n = some { node with children := .none }) :
    LocalPicture g (threadNode s n).graph (done ++ [n]) (threadNode s n).phis (threadNode s n).head
      (threadNode s n).tail := by
  have hfirst : g.firstReads (done ++ [n]) = g.firstReads done := by
    rw [firstReads_concat hn]
    cases hr : g.readOf? n with
    | none => simp
    | some l => simpa [hr] using hsettled
  have hstep := hs.toThreadingOf.step (lt_size_of_node? hnode)
  refine ⟨htail, fun l => ?_, ?_, fun p hp => (hstep.phi p hp).1, hstep.nodup, ?_⟩
  · rw [← exists_firstRead_iff, hfirst, hhead, exists_firstRead_iff]
    exact hs.picture.first l
  · rw [hfirst, hphis]
    exact hs.phis_threadNode hn hnode
  · intro m hm hnot read hm' hkind
    rw [hfirst] at hnot
    rcases List.mem_append.1 hm with hm | hm
    · exact hs.later_threadNode hn hm hnot hm' hkind
    · obtain rfl := List.mem_singleton.1 hm
      rw [hnode] at hm'
      obtain rfl := Option.some.inj hm'
      exact hread hkind

include hs hn hnode in
/-- The first read of a local. -/
theorem picture_of_firstRead (hread : g.readOf? n = some l) (hfirst : s.tail.get? l = none)
    (hstep : threadNode s n =
      { graph := (s.graph.addNode (phiOf l node)).2.modifyNode n fun node =>
          { node with children := .one (.untyped s.graph.nodes.size) }
        phis := s.phis ++ [s.graph.nodes.size]
        head := s.head.set l (some s.graph.nodes.size)
        tail := s.tail.set l (some n) }) :
    LocalPicture g (threadNode s n).graph (done ++ [n]) (threadNode s n).phis (threadNode s n).head
      (threadNode s n).tail := by
  have hnone : g.accesses l done = [] := by
    rw [← List.getLast?_eq_none_iff, ← hs.picture.last, hfirst]
  have hreads : g.firstReads (done ++ [n]) = g.firstReads done ++ [n] := by
    rw [firstReads_concat hn, hread]
    simp [hnone]
  obtain ⟨node', hnode', hkind, hl⟩ := readOf?_eq_some_iff.1 hread
  rw [hnode] at hnode'
  obtain rfl := Option.some.inj hnode'
  have hold : s.graph.node? n = some node := hs.other n node hnode fun h => absurd h hn
  have hne : n ≠ s.graph.nodes.size := (lt_size_of_node? hold).ne
  have hnew : g.PhiFor (threadNode s n).graph (threadNode s n).head n s.graph.nodes.size := by
    refine ⟨l, node, .none, hnode, hkind, hl, ?_, ?_, ?_⟩
    · simp [hstep, Snapshot.get?_set]
    · simp [hstep, hne, phiOf]
    · simp [hstep, hne, hold]
  have hthread := hs.toThreadingOf.step (lt_size_of_node? hnode)
  refine ⟨fun k => ?_, fun k => ?_, ?_, fun p hp => (hthread.phi p hp).1, hthread.nodup, ?_⟩
  · rw [hstep]
    exact hs.tail_access (accessOf?_of_readOf? hread) k
  · rw [← exists_firstRead_iff, hreads, hstep, Snapshot.get?_set]
    by_cases hk : k = l
    · simp [hk, hread]
    · have hne' : g.readOf? n ≠ some k := by simp [hread, Ne.symm hk]
      simp [hk, hne', hs.picture.first, ← exists_firstRead_iff, or_and_right, exists_or]
  · have hphis : (threadNode s n).phis = s.phis ++ [s.graph.nodes.size] := by rw [hstep]
    rw [hreads, hphis]
    exact List.rel_append (hs.phis_threadNode hn hnode) (.cons hnew .nil)
  · intro m hm hnot read hm' hkind'
    rw [hreads, List.mem_append, not_or] at hnot
    rcases List.mem_append.1 hm with hm | hm
    · exact hs.later_threadNode hn hm hnot.1 hm' hkind'
    · exact absurd hm hnot.2

/-- **One node of a block.** -/
theorem step (hs : Picturing g done s) (hn : n ∉ done) (hnode : g.node? n = some node)
    (hslot : node.kind = .getLocal → node.slot?.isSome = true) :
    Picturing g (done ++ [n]) (threadNode s n) := by
  have hold : s.graph.node? n = some node := hs.other n node hnode fun h => absurd h hn
  refine ⟨hs.toThreadingOf.step (lt_size_of_node? hnode), ?_,
    fun m read hm hread => hs.other_threadNode hm hread⟩
  rcases ThreadingOf.threadNode_cases s n with ⟨heq, hquiet⟩ | ⟨node', l, hnode', hl, hcase⟩
  · -- no access: a read would name a local
    have haccess : g.accessOf? n = none := by
      simp only [accessOf?, hnode, Option.bind_some, ite_eq_right_iff]
      exact hquiet node hold
    have hread : g.readOf? n = none := by
      by_contra hsome
      obtain ⟨l, hl⟩ := Option.ne_none_iff_exists'.1 hsome
      rw [accessOf?_of_readOf? hl] at haccess
      cases haccess
    refine hs.picture_of_settled hn hnode (by simp [hread]) (by rw [heq]) (by rw [heq]) ?_ ?_
    · intro l
      rw [heq, accesses_concat, haccess]
      simpa using hs.picture.last l
    · intro hkind
      have := hslot hkind
      rw [hquiet node hold (.inl hkind)] at this
      cases this
  rw [hold] at hnode'
  obtain rfl := Option.some.inj hnode'
  rcases hcase with ⟨hkind, heq⟩ | ⟨hkind, hsome, heq⟩ | ⟨hkind, hnone, heq⟩
  · have haccess := accessOf?_eq_some_iff.2 ⟨node, hnode, .inr hkind, hl⟩
    refine hs.picture_of_settled hn hnode ?_ (by rw [heq]) (by rw [heq]) ?_ ?_
    · simp [readOf?, hnode, hkind]
    · rw [heq]
      exact hs.tail_access haccess
    · rw [hkind]
      exact nofun
  · have hread := readOf?_eq_some_iff.2 ⟨node, hnode, hkind, hl⟩
    refine hs.picture_of_settled hn hnode ?_ (by rw [heq]) (by rw [heq]) ?_ ?_
    · rw [hs.picture.last, ne_eq, List.getLast?_eq_none_iff] at hsome
      simp [hread, hsome]
    · rw [heq]
      exact hs.tail_access (accessOf?_of_readOf? hread)
    · intro _
      simp [heq, hold]
  · exact hs.picture_of_firstRead hn hnode (readOf?_eq_some_iff.2 ⟨node, hnode, hkind, hl⟩) hnone
      heq

/-- **All nodes of a block.** -/
theorem run (hs : Picturing g done s) (hnodup : (done ++ nodes).Nodup)
    (hnodes : ∀ n ∈ nodes, ∃ node, g.node? n = some node ∧
      (node.kind = .getLocal → node.slot?.isSome = true)) :
    Picturing g (done ++ nodes) (nodes.foldl threadNode s) := by
  induction nodes generalizing done s with
  | nil => simpa using hs
  | cons n nodes ih =>
    obtain ⟨node, hnode, hslot⟩ := hnodes n (List.mem_cons_self ..)
    have hn : n ∉ done := by
      intro hmem
      exact (List.nodup_append.1 hnodup).2.2 n hmem n (List.mem_cons_self ..) rfl
    have hrest := ih (hs.step hn hnode hslot) (by simpa using hnodup)
      fun m hm => hnodes m (List.mem_cons_of_mem _ hm)
    simpa using hrest

end Picturing

/-! ## One block -/

/-- The block `b` of `g` has come to have its picture, and all else in `h` is as it was. -/
structure Pictured (g : Graph) (b : BlockId) (block : Block) (h : Graph) (phis : List NodeId)
    (head tail : Snapshot) : Prop where
  block? : ∀ c, h.block? c =
    if b = c then some { block with phis := phis, head := head, tail := tail } else g.block? c
  rest : h = { g with nodes := h.nodes, blocks := h.blocks }
  slots : h.blocks.size = g.blocks.size
  size : g.nodes.size ≤ h.nodes.size
  picture : LocalPicture g h block.nodes phis head tail
  other : ∀ n node, g.node? n = some node → (n ∈ block.nodes → node.kind ≠ .getLocal) →
    h.node? n = some node

/-- **One block.** -/
theorem pictured_threadBlock (hb : g.block? b = some block) (hnodup : block.nodes.Nodup)
    (hnodes : ∀ n ∈ block.nodes, ∃ node, g.node? n = some node ∧
      (node.kind = .getLocal → node.slot?.isSome = true)) :
    ∃ phis head tail, Pictured g b block (g.threadBlock b) phis head tail := by
  have hrun := (Picturing.start g g.locals).run (by simpa using hnodup) hnodes
  simp only [threadBlock, hb]
  generalize block.nodes.foldl threadNode _ = s at hrun
  refine ⟨s.phis, s.head, s.tail, hrun.block?_record hb, ?_, ?_, hrun.size, ?_, ?_⟩
  · rw [hrun.graph]
    rfl
  · rw [size_blocks_modifyBlock, hrun.graph]
  · exact hrun.picture.transfer (Nat.le_refl _) (fun _ _ => rfl) (fun _ _ => rfl)
      fun _ _ node hnode => ⟨node.children, hnode⟩
  · simpa using hrun.other

end Unroller.Graph
