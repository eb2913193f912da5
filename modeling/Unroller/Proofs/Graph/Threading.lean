import Mathlib.Tactic
import Unroller.Proofs.Graph.Cleanup

/-!
# Threading keeps a graph sound

Threading gives every reachable block new phis and snapshots and then links the phis.

* `ThreadingOf`: what is known while the nodes of one block are gone through; `step` and `run` are
  the lemmas for one node and for all of them.
* `Rethreaded`: a change of phis and snapshots that leaves reachability and analyses alone.
* `rethreaded_threadBlock`, `rethreaded_linkPhi`: each of the two passes is such a change, and keeps
  a graph sound.
* `threadedFrom_threadLocals`: what a graph is like after threading.
-/

namespace Unroller

/-! ## Snapshots -/

namespace Snapshot

variable {s : Snapshot} {l : Local} {n : NodeId}

theorem mem_entries : (l, n) ∈ s.entries ↔ s.get? l = some n := by
  simp only [entries, List.mem_filterMap, Prod.exists, Option.map_eq_some_iff, Prod.mk.injEq,
    List.mem_zipIdx_iff_getElem?, get?, Array.getD_eq_getD_getElem?]
  constructor
  · rintro ⟨slot, i, hi, m, rfl, rfl, rfl⟩
    simp only [Array.getElem?_toList] at hi
    simp [hi]
  · intro h
    refine ⟨some n, l, ?_, n, rfl, rfl, rfl⟩
    simp only [Array.getElem?_toList]
    cases hs : s.slots[l]? with
    | none => simp [hs] at h
    | some slot =>
      simp only [hs, Option.getD_some] at h
      rw [h]

theorem get?_set (s : Snapshot) (l k : Nat) (n : Option NodeId) :
    (s.set l n).get? k = if k = l then n else s.get? k := by
  simp only [get?, set, Array.getD_eq_getD_getElem?, Array.getElem?_setIfInBounds,
    Array.size_append, Array.size_replicate]
  by_cases hk : k = l
  · subst hk
    have hlt : k < s.slots.size + (k + 1 - s.slots.size) := by omega
    simp [hlt]
  · rw [if_neg fun h => hk h.symm, if_neg hk, Array.getElem?_append]
    by_cases hlt : k < s.slots.size
    · simp [hlt]
    · rw [if_neg hlt, Array.getElem?_replicate]
      split <;> simp [hlt]

theorem get?_ofLocals (locals : Nat) (l : Local) : (ofLocals locals).get? l = none := by
  simp only [get?, ofLocals, Array.getD_eq_getD_getElem?, Array.getElem?_replicate]
  split <;> rfl

theorem entries_ofLocals (locals : Nat) : (ofLocals locals).entries = [] := by
  refine List.eq_nil_iff_forall_not_mem.2 ?_
  rintro ⟨l, n⟩ h
  rw [mem_entries, get?_ofLocals] at h
  cases h

/-- What a snapshot records after recording one more node. -/
theorem mem_entries_set {e : Local × NodeId} (h : e ∈ (s.set l (some n)).entries) :
    e.2 = n ∨ e ∈ s.entries := by
  obtain ⟨k, m⟩ := e
  rw [mem_entries, get?_set] at h
  split at h
  · exact .inl (Option.some.inj h).symm
  · exact .inr (mem_entries.2 h)

end Snapshot

namespace Graph

variable {g h : Graph} {b c : BlockId} {n : NodeId} {node image : Node} {block : Block}

/-! ## The nodes of one block -/

/-- The phi that stands at the head of a block for the first read of a local. -/
def phiOf (l : Local) (read : Node) : Node :=
  { kind := .phi, payload := .slot l, origin := read.origin, prediction := read.prediction }

/-- What is known when the nodes `done` of a block of `g` have been gone through. -/
structure ThreadingOf (g : Graph) (done : List NodeId) (s : Threaded) : Prop where
  graph : s.graph = { g with nodes := s.graph.nodes }
  size : g.nodes.size ≤ s.graph.nodes.size
  node : ∀ n node, g.node? n = some node →
    ∃ image, s.graph.node? n = some image ∧ SameNode node image ∧ (n ∉ done → image = node) ∧
      (n ∈ done → node.kind = .getLocal → node.slot?.isSome = true →
        image.children = .none ∨ ∃ p ∈ s.phis, image.children = .one (.untyped p))
  phi : ∀ p ∈ s.phis, g.nodes.size ≤ p ∧
    ∃ node, s.graph.node? p = some node ∧ node.kind = .phi ∧ node.children = .none
  nodup : s.phis.Nodup
  head : ∀ e ∈ s.head.entries, e.2 ∈ s.phis
  tail : ∀ e ∈ s.tail.entries, e.2 ∈ done ∧
    ∃ node, g.node? e.2 = some node ∧ node.kind.isTerminal = false

namespace ThreadingOf

variable {done : List NodeId} {s : Threaded}

theorem start (g : Graph) (locals : Nat) :
    ThreadingOf g [] ⟨g, [], .ofLocals locals, .ofLocals locals⟩ where
  graph := rfl
  size := Nat.le_refl _
  node := fun _ node hnode => ⟨node, hnode, .refl node, fun _ => rfl, fun h => by simp at h⟩
  phi := by simp
  nodup := List.nodup_nil
  head := by simp [Snapshot.entries_ofLocals]
  tail := by simp [Snapshot.entries_ofLocals]

/-- What the next node of a block can do: nothing, record a write, record a read of a local that the
block has accessed before, or put a phi at the head for the first access of a local. -/
theorem threadNode_cases (s : Threaded) (n : NodeId) :
    (threadNode s n = s ∧ ∀ node, s.graph.node? n = some node →
      node.kind = .getLocal ∨ node.kind = .setLocal → node.slot? = none) ∨
    ∃ node l, s.graph.node? n = some node ∧ node.slot? = some l ∧
      ((node.kind = .setLocal ∧ threadNode s n = { s with tail := s.tail.set l (some n) }) ∨
      (node.kind = .getLocal ∧ s.tail.get? l ≠ none ∧ threadNode s n = { s with
        graph := s.graph.modifyNode n fun n => { n with children := .none }
        tail := s.tail.set l (some n) }) ∨
      (node.kind = .getLocal ∧ s.tail.get? l = none ∧ threadNode s n =
        { graph := (s.graph.addNode (phiOf l node)).2.modifyNode n fun node =>
            { node with children := .one (.untyped s.graph.nodes.size) }
          phis := s.phis ++ [s.graph.nodes.size]
          head := s.head.set l (some s.graph.nodes.size)
          tail := s.tail.set l (some n) })) := by
  rw [threadNode]
  cases hnode : s.graph.node? n with
  | none => exact .inl ⟨rfl, by simp⟩
  | some node =>
    simp only
    split
    case h_1 l hl hk =>
      refine .inr ⟨node, l, rfl, hl, .inr ?_⟩
      split
      case isTrue hnone => exact .inr ⟨hk, Option.isNone_iff_eq_none.1 hnone, rfl⟩
      case isFalse hsome => exact .inl ⟨hk, fun h => hsome (Option.isNone_iff_eq_none.2 h), rfl⟩
    case h_2 l hl hk => exact .inr ⟨node, l, rfl, hl, .inl ⟨hk, rfl⟩⟩
    case h_3 hget hset =>
      refine .inl ⟨rfl, ?_⟩
      intro node' heq hk
      obtain rfl := Option.some.inj heq
      cases hl : node.slot? with
      | none => rfl
      | some l => exact absurd hk (not_or.2 ⟨hget l hl, hset l hl⟩)

/-- Reading the node at a position that existed before. -/
theorem exists_image (hs : ThreadingOf g done s) (hn : n < g.nodes.size)
    (himage : s.graph.node? n = some image) :
    ∃ node, g.node? n = some node ∧ SameNode node image := by
  obtain ⟨node, hnode⟩ := exists_node? hn
  obtain ⟨image', himage', hsame, _⟩ := hs.node n node hnode
  rw [himage] at himage'
  obtain rfl := Option.some.inj himage'
  exact ⟨node, hnode, hsame⟩

/-- The node just gone through becomes the last access of its local. -/
theorem tail_set (hs : ThreadingOf g done s) (hnode : g.node? n = some node)
    (hterm : node.kind.isTerminal = false) (l : Local) :
    ∀ e ∈ (s.tail.set l (some n)).entries, e.2 ∈ done ++ [n] ∧
      ∃ node, g.node? e.2 = some node ∧ node.kind.isTerminal = false := by
  intro e he
  rcases Snapshot.mem_entries_set he with heq | he
  · exact ⟨by simp [heq], node, by rw [heq, hnode], hterm⟩
  · obtain ⟨hmem, hrest⟩ := hs.tail e he
    exact ⟨List.mem_append_left _ hmem, hrest⟩

/-- A node that is gone through without being changed. -/
theorem node_append (hs : ThreadingOf g done s)
    (hn : ∀ node, g.node? n = some node → node.kind = .getLocal → node.slot?.isSome = false) :
    ∀ m node, g.node? m = some node → ∃ image, s.graph.node? m = some image ∧
      SameNode node image ∧ (m ∉ done ++ [n] → image = node) ∧
      (m ∈ done ++ [n] → node.kind = .getLocal → node.slot?.isSome = true →
        image.children = .none ∨ ∃ p ∈ s.phis, image.children = .one (.untyped p)) := by
  intro m node hnode
  obtain ⟨image, himage, hsame, hold, hread⟩ := hs.node m node hnode
  refine ⟨image, himage, hsame, fun hm => hold fun h => hm (List.mem_append_left _ h), ?_⟩
  intro hm hget hslot
  rcases List.mem_append.1 hm with hm | hm
  · exact hread hm hget hslot
  · obtain rfl : m = n := by simpa using hm
    rw [hn node hnode hget] at hslot
    cases hslot

/-- A read that is gone through gets other operands. -/
theorem node_modify (hs : ThreadingOf g done s) (hnode : g.node? n = some node)
    (hget : node.kind = .getLocal) {children : Children} {phis : List NodeId} {h : Graph}
    (hphis : s.phis ⊆ phis)
    (hchildren : children = .none ∨ ∃ p ∈ phis, children = .one (.untyped p))
    (hh : ∀ m < g.nodes.size, h.node? m = s.graph.node? m) :
    ∀ m node, g.node? m = some node → ∃ image,
      (h.modifyNode n fun node => { node with children := children }).node? m = some image ∧
      SameNode node image ∧ (m ∉ done ++ [n] → image = node) ∧
      (m ∈ done ++ [n] → node.kind = .getLocal → node.slot?.isSome = true →
        image.children = .none ∨ ∃ p ∈ phis, image.children = .one (.untyped p)) := by
  intro m node' hnode'
  obtain ⟨image, himage, hsame, hold, hread⟩ := hs.node m node' hnode'
  have himage' : h.node? m = some image := (hh m (lt_size_of_node? hnode')).trans himage
  by_cases hm : n = m
  · subst hm
    rw [hnode] at hnode'
    obtain rfl := Option.some.inj hnode'
    exact ⟨{ image with children := children }, by simp [himage'],
      ⟨hsame.kind, hsame.payload, .inl hget⟩, by simp, fun _ _ _ => hchildren⟩
  · refine ⟨image, by simp [hm, himage'], hsame,
      fun h => hold fun h' => h (List.mem_append_left _ h'), fun hmem hk hslot => ?_⟩
    rcases List.mem_append.1 hmem with hmem | hmem
    · exact (hread hmem hk hslot).imp_right fun ⟨p, hp, hc⟩ => ⟨p, hphis hp, hc⟩
    · exact absurd (by simpa using hmem : m = n).symm hm

/-- A node that reads no local is gone through. -/
theorem pass (hs : ThreadingOf g done s)
    (hn : ∀ node, g.node? n = some node → node.kind = .getLocal → node.slot?.isSome = false) :
    ThreadingOf g (done ++ [n]) s where
  __ := hs
  node := hs.node_append hn
  tail := by
    intro e he
    obtain ⟨hmem, hrest⟩ := hs.tail e he
    exact ⟨List.mem_append_left _ hmem, hrest⟩

/-- A write is recorded. -/
theorem write (hs : ThreadingOf g done s) (hnode : g.node? n = some node)
    (hkind : node.kind = .setLocal) (l : Local) :
    ThreadingOf g (done ++ [n]) { s with tail := s.tail.set l (some n) } where
  __ := hs
  node := by
    refine hs.node_append fun node' hnode' hget => ?_
    rw [hnode] at hnode'
    obtain rfl := Option.some.inj hnode'
    rw [hkind] at hget
    cases hget
  tail := hs.tail_set hnode (by rw [hkind]; rfl) l

/-- A read of a local that the block has accessed before is recorded. -/
theorem read (hs : ThreadingOf g done s) (hnode : g.node? n = some node)
    (hkind : node.kind = .getLocal) (l : Local) :
    ThreadingOf g (done ++ [n])
      { s with
        graph := s.graph.modifyNode n fun node => { node with children := .none }
        tail := s.tail.set l (some n) } where
  graph := by
    show s.graph.modifyNode n _ = _
    rw [hs.graph]
    rfl
  size := by simpa [modifyNode] using hs.size
  node := hs.node_modify hnode hkind (List.Subset.refl _) (.inl rfl) fun _ _ => rfl
  phi := by
    intro p hp
    obtain ⟨hle, phi, hphi, hrest⟩ := hs.phi p hp
    have hne : n ≠ p := Nat.ne_of_lt (Nat.lt_of_lt_of_le (lt_size_of_node? hnode) hle)
    exact ⟨hle, phi, by simp [hne, hphi], hrest⟩
  nodup := hs.nodup
  head := hs.head
  tail := hs.tail_set hnode (by rw [hkind]; rfl) l

/-- The first access of a local, when it reads, puts a phi at the head. -/
theorem read_first (hs : ThreadingOf g done s) (hnode : g.node? n = some node)
    (hkind : node.kind = .getLocal) (l : Local) (image : Node) :
    ThreadingOf g (done ++ [n])
      { graph := (s.graph.addNode (phiOf l image)).2.modifyNode n fun node =>
          { node with children := .one (.untyped s.graph.nodes.size) }
        phis := s.phis ++ [s.graph.nodes.size]
        head := s.head.set l (some s.graph.nodes.size)
        tail := s.tail.set l (some n) } := by
  have hsize := hs.size
  have hn := lt_size_of_node? hnode
  have hne : n ≠ s.graph.nodes.size := Nat.ne_of_lt (Nat.lt_of_lt_of_le hn hsize)
  refine
    { graph := ?graph
      size := ?size
      node := ?node
      phi := ?phi
      nodup := ?nodup
      head := ?head
      tail := hs.tail_set hnode (by rw [hkind]; rfl) l }
  case graph =>
    show ((s.graph.addNode (phiOf l image)).2.modifyNode n _) = _
    rw [hs.graph]
    rfl
  case size =>
    show g.nodes.size ≤ ((s.graph.addNode (phiOf l image)).2.modifyNode n _).nodes.size
    simp only [modifyNode, addNode, Array.size_modify, Array.size_push]
    omega
  case node =>
    refine hs.node_modify hnode hkind (List.subset_append_left _ _)
      (.inr ⟨s.graph.nodes.size, by simp, rfl⟩) ?_
    intro m hm
    simp [Nat.ne_of_lt (Nat.lt_of_lt_of_le hm hsize)]
  case phi =>
    intro p hp
    rcases List.mem_append.1 hp with hp | hp
    · obtain ⟨hle, old, hold, hrest⟩ := hs.phi p hp
      have hlt : p ≠ s.graph.nodes.size := Nat.ne_of_lt (lt_size_of_node? hold)
      have hne' : n ≠ p := Nat.ne_of_lt (Nat.lt_of_lt_of_le hn hle)
      exact ⟨hle, old, by simp [hne', hlt, hold], hrest⟩
    · obtain rfl : p = s.graph.nodes.size := by simpa using hp
      exact ⟨hsize, phiOf l image, by simp [hne], rfl, rfl⟩
  case nodup =>
    refine List.nodup_append.2 ⟨hs.nodup, by simp, ?_⟩
    rintro p hp q hq rfl
    obtain ⟨_, old, hold, _⟩ := hs.phi p hp
    exact Nat.ne_of_lt (lt_size_of_node? hold) (by simpa using hq)
  case head =>
    intro e he
    rcases Snapshot.mem_entries_set he with heq | he
    · simp [heq]
    · exact List.mem_append_left _ (hs.head e he)

/-- **One more node.** -/
theorem step (hs : ThreadingOf g done s) (hn : n < g.nodes.size) :
    ThreadingOf g (done ++ [n]) (threadNode s n) := by
  rcases threadNode_cases s n with ⟨heq, hquiet⟩ | ⟨image, l, himage, _, hcase⟩
  · rw [heq]
    refine hs.pass fun node hnode hk => ?_
    obtain ⟨image, himage, hsame, _⟩ := hs.node n node hnode
    have hslot := hquiet image himage (.inl (hsame.kind.trans hk))
    rw [Node.slot?, hsame.payload] at hslot
    rw [Node.slot?, hslot]
    rfl
  · obtain ⟨node, hnode, hsame⟩ := hs.exists_image hn himage
    rcases hcase with ⟨hk, heq⟩ | ⟨hk, _, heq⟩ | ⟨hk, _, heq⟩
    · exact heq ▸ hs.write hnode (hsame.kind.symm.trans hk) l
    · exact heq ▸ hs.read hnode (hsame.kind.symm.trans hk) l
    · exact heq ▸ hs.read_first hnode (hsame.kind.symm.trans hk) l image

/-- **All nodes of a block.** -/
theorem run (hs : ThreadingOf g done s) {nodes : List NodeId} (hn : ∀ n ∈ nodes, n < g.nodes.size) :
    ThreadingOf g (done ++ nodes) (nodes.foldl threadNode s) := by
  induction nodes generalizing done s with
  | nil => simpa using hs
  | cons n nodes ih =>
    have hstep := hs.step (hn n (List.mem_cons_self ..))
    have := ih hstep fun m hm => hn m (List.mem_cons_of_mem _ hm)
    simpa using this

/-- Recording what was found changes one block. -/
theorem block?_record (hs : ThreadingOf g done s) (hb : g.block? b = some block) (c : BlockId) :
    (s.graph.modifyBlock b fun block =>
      { block with phis := s.phis, head := s.head, tail := s.tail }).block? c =
      if b = c then some { block with phis := s.phis, head := s.head, tail := s.tail }
      else g.block? c := by
  have hsame : s.graph.block? c = g.block? c := by
    rw [hs.graph]
    rfl
  rw [block?_modifyBlock, hsame]
  split
  · rename_i heq
    rw [← heq, hb]
    rfl
  · rfl

end ThreadingOf

/-! ## One block -/

/-- A read that a well-formed block lists names its local. -/
theorem WellFormed.isSome_slot? (hg : g.WellFormed) (hb : g.block? b = some block)
    (hn : n ∈ block.nodes) (hnode : g.node? n = some node) (hkind : node.kind = .getLocal) :
    node.slot?.isSome = true := by
  obtain ⟨before, after, hsplit⟩ := List.append_of_mem hn
  have hadmits := ((hg.block b block hb).node before n after hsplit node hnode).admits
  rw [hkind] at hadmits
  rw [Node.slot?]
  cases hp : node.payload <;> simp [hp, admits, Kind.hasLocal, Kind.isConstant] at hadmits
  rfl

/-- A change of phis and snapshots that leaves reachability and analyses alone. -/
structure Rethreaded (g h : Graph) : Prop extends Rephrased g h where
  reach : ∀ b, (h.block? b).map reachOf = (g.block? b).map reachOf
  form : h.form = g.form
  dominatorCache : h.dominatorCache = g.dominatorCache
  loopCache : h.loopCache = g.loopCache

theorem Rethreaded.refl (g : Graph) : Rethreaded g g :=
  ⟨.refl g, fun _ => rfl, rfl, rfl, rfl⟩

theorem Rethreaded.trans {k : Graph} (h₁ : Rethreaded g h) (h₂ : Rethreaded h k) :
    Rethreaded g k :=
  ⟨h₁.toRephrased.trans h₂.toRephrased, fun b => (h₂.reach b).trans (h₁.reach b),
    h₂.form.trans h₁.form, h₂.dominatorCache.trans h₁.dominatorCache,
    h₂.loopCache.trans h₁.loopCache⟩

/-- What threading does to one block: its phis are new, its reads refer to them, and its snapshots
record its phis and its accesses of locals. -/
structure BlockThreaded (g : Graph) (b : BlockId) (block : Block) (h : Graph) (new : Block) :
    Prop where
  old : g.block? b = some block
  block? : ∀ c, h.block? c = if b = c then some new else g.block? c
  index : new.index = block.index
  code : new.nodes = block.nodes ∧ new.flags = block.flags ∧ new.preds = block.preds
  rest : ∃ k, h = { g with nodes := k, blocks := h.blocks }
  size : h.blocks.size = g.blocks.size
  node : ∀ n node, g.node? n = some node → ∃ image, h.node? n = some image ∧
    SameNode node image ∧ (n ∉ block.nodes → image = node) ∧
    (n ∈ block.nodes → node.kind = .getLocal → node.slot?.isSome = true →
      image.children = .none ∨ ∃ p ∈ new.phis, image.children = .one (.untyped p))
  phi : ∀ p ∈ new.phis, g.nodes.size ≤ p ∧
    ∃ node, h.node? p = some node ∧ node.kind = .phi ∧ node.children = .none
  nodup : new.phis.Nodup
  head : ∀ e ∈ new.head.entries, e.2 ∈ new.phis
  tail : ∀ e ∈ new.tail.entries, e.2 ∈ block.nodes ∧
    ∃ node, g.node? e.2 = some node ∧ node.kind.isTerminal = false

theorem exists_blockThreaded (hb : g.block? b = some block)
    (hexists : ∀ n ∈ block.nodes, n < g.nodes.size) :
    ∃ new, BlockThreaded g b block (g.threadBlock b) new := by
  have hrun := (ThreadingOf.start g g.locals).run hexists
  simp only [threadBlock, hb]
  generalize block.nodes.foldl threadNode _ = s at hrun
  refine ⟨{ block with phis := s.phis, head := s.head, tail := s.tail }, ⟨hb, hrun.block?_record hb,
    rfl, ⟨rfl, rfl, rfl⟩, ?_, ?_, ?_, ?_, hrun.nodup, hrun.head, ?_⟩⟩
  · refine ⟨s.graph.nodes, ?_⟩
    rw [hrun.graph]
    rfl
  · rw [size_blocks_modifyBlock, hrun.graph]
  · simpa using hrun.node
  · simpa using hrun.phi
  · simpa using hrun.tail

theorem blockThreaded_threadBlock (hg : g.WellFormed) (hb : g.block? b = some block) :
    ∃ new, BlockThreaded g b block (g.threadBlock b) new :=
  exists_blockThreaded hb fun n hn => hg.exists_node b block hb n (List.mem_append_right _ hn)

namespace BlockThreaded

variable {new : Block} (ht : BlockThreaded g b block h new)

include ht

theorem rethreaded : Rethreaded g h := by
  have hmap : ∀ {β : Type} (f : Block → β), f new = f block → ∀ c,
      (h.block? c).map f = (g.block? c).map f := by
    intro β f hf c
    rw [ht.block?]
    split
    · rename_i heq
      rw [← heq, ht.old, Option.map_some, Option.map_some, hf]
    · rfl
  obtain ⟨k, hrest⟩ := ht.rest
  refine ⟨⟨ht.size, hmap codeOf ?_, by rw [hrest], by rw [hrest], by rw [hrest], by rw [hrest],
    by rw [hrest], ?_⟩, hmap reachOf ?_, by rw [hrest], by rw [hrest], by rw [hrest]⟩
  · simp [codeOf, ht.index, ht.code]
  · intro n node hnode _
    obtain ⟨image, himage, hsame, _⟩ := ht.node n node hnode
    exact ⟨image, himage, hsame⟩
  · simp [reachOf, ht.code]

/-- A block of the new graph is the new one, or was there before. -/
theorem block_cases {copy : Block} (hc : h.block? c = some copy) :
    (c = b ∧ copy = new) ∨ (c ≠ b ∧ g.block? c = some copy) := by
  rw [ht.block?] at hc
  split at hc
  · rename_i heq
    exact .inl ⟨heq.symm, (Option.some.inj hc).symm⟩
  · rename_i hne
    exact .inr ⟨fun heq => hne heq.symm, hc⟩

/-- The node that a node of a block was before. -/
theorem node_before (hg : g.WellFormed) {copy : Block} (hc : g.block? c = some copy)
    (hn : n ∈ copy.phis ++ copy.nodes) (himage : h.node? n = some image) :
    ∃ node, g.node? n = some node ∧ SameNode node image ∧ (n ∉ block.nodes → image = node) ∧
      (n ∈ block.nodes → node.kind = .getLocal → node.slot?.isSome = true →
        image.children = .none ∨ ∃ p ∈ new.phis, image.children = .one (.untyped p)) := by
  obtain ⟨node, hnode⟩ := exists_node? (hg.exists_node c copy hc n hn)
  obtain ⟨image', himage', hsame⟩ := ht.node n node hnode
  rw [himage] at himage'
  obtain rfl := Option.some.inj himage'
  exact ⟨node, hnode, hsame⟩

/-- A phi of a block that was there before has the operands it had. -/
theorem phi_before (hg : g.WellFormed) {copy : Block} (hc : g.block? c = some copy)
    (hn : n ∈ copy.phis) (himage : h.node? n = some image) :
    ∃ node, g.node? n = some node ∧ image.kind = .phi ∧ image.children = node.children := by
  obtain ⟨node, hnode, hsame, _⟩ := ht.node_before hg hc (List.mem_append_left _ hn) himage
  have hkind : node.kind = .phi := by
    have := (hg.block c copy hc).phis n hn
    simpa [isPhi, hnode] using this
  exact ⟨node, hnode, hsame.kind.trans hkind, hsame.children.resolve_left (by simp [hkind])⟩

theorem unlinked (hu : g.Unlinked) (hg : g.WellFormed) : h.Unlinked := by
  intro c copy hc n hn node hnode
  rcases ht.block_cases hc with ⟨rfl, rfl⟩ | ⟨_, hc⟩
  · obtain ⟨_, phi, hphi, _, hchildren⟩ := ht.phi n hn
    rw [hnode] at hphi
    obtain rfl := Option.some.inj hphi
    rw [operands, hchildren]
    rfl
  · obtain ⟨old, hold, _, hchildren⟩ := ht.phi_before hg hc hn hnode
    rw [ht.rethreaded.operands_eq hchildren]
    exact hu c copy hc n hn old hold

theorem isPhi_of_mem (hg : g.WellFormed) {copy : Block} (hc : h.block? c = some copy)
    (hn : n ∈ copy.phis) : h.isPhi n = true := by
  rcases ht.block_cases hc with ⟨rfl, rfl⟩ | ⟨_, hc⟩
  · obtain ⟨_, phi, hphi, hkind, _⟩ := ht.phi n hn
    simp [isPhi, hphi, hkind]
  · obtain ⟨old, hold⟩ := exists_node? (hg.exists_node c copy hc n (List.mem_append_left _ hn))
    obtain ⟨image, himage, _⟩ := ht.node n old hold
    obtain ⟨_, _, hkind, _⟩ := ht.phi_before hg hc hn himage
    simp [isPhi, himage, hkind]

/-- The new phis stand behind all nodes there were. -/
theorem phis_apart (hg : g.WellFormed) {copy other : Block} {d : BlockId}
    (hc : h.block? c = some copy) (hd : h.block? d = some other) (hn : n ∈ copy.phis)
    (hn' : n ∈ other.phis) : c = d := by
  have hnew : ∀ d other, g.block? d = some other → n ∈ other.phis → n ∉ new.phis := by
    intro d other hd hn hmem
    exact Nat.not_lt.2 (ht.phi n hmem).1 (hg.exists_node d other hd n (List.mem_append_left _ hn))
  rcases ht.block_cases hc with ⟨rfl, rfl⟩ | ⟨_, hc⟩ <;>
    rcases ht.block_cases hd with ⟨rfl, rfl⟩ | ⟨_, hd⟩
  · rfl
  · exact absurd hn (hnew d other hd hn')
  · exact absurd hn' (hnew c copy hc hn)
  · exact hg.apart c copy d other n hc hd (List.mem_append_left _ hn) (List.mem_append_left _ hn')

theorem inRange_phi (hg : g.Sound) {copy : Block} (hc : h.block? c = some copy) (hn : n ∈ copy.phis)
    (himage : h.node? n = some image) : h.InRange image.children := by
  rcases ht.block_cases hc with ⟨rfl, rfl⟩ | ⟨_, hc⟩
  · obtain ⟨_, phi, hphi, _, hchildren⟩ := ht.phi n hn
    rw [himage] at hphi
    obtain rfl := Option.some.inj hphi
    rw [hchildren]
    trivial
  · obtain ⟨old, hold, _, hchildren⟩ := ht.phi_before hg.wellFormed hc hn himage
    rw [hchildren, ht.rethreaded.inRange_iff]
    exact (hg.phrased.phi c copy hc n hn old hold).1

/-- A read of a local in the block itself refers to one of its phis or to nothing. -/
theorem read_new (hg : g.WellFormed) (hn : n ∈ block.nodes) (himage : h.node? n = some image)
    (hget : image.kind = .getLocal) :
    h.InRange image.children ∧ ∀ c ∈ h.operands image, c ∈ new.phis := by
  obtain ⟨old, hold, hsame, _, hread⟩ :=
    ht.node_before hg ht.old (List.mem_append_right _ hn) himage
  have hkind : old.kind = .getLocal := hsame.kind.symm.trans hget
  have hslot := hg.isSome_slot? ht.old hn hold hkind
  rcases hread hn hkind hslot with hchildren | ⟨p, hp, hchildren⟩
  · rw [operands, hchildren]
    exact ⟨trivial, fun c hc => absurd hc (by simp [edgesOf, Children.none, Edge.empty])⟩
  · rw [operands, hchildren]
    refine ⟨trivial, fun c hc => ?_⟩
    obtain rfl : c = p := by
      simpa [edgesOf, Children.one, Edge.empty, Edge.untyped] using hc
    exact hp

theorem read (hg : g.Sound) {copy : Block} (hc : h.block? c = some copy) (hn : n ∈ copy.nodes)
    (himage : h.node? n = some image) (hget : image.kind = .getLocal) :
    h.InRange image.children ∧ ∀ before after, copy.nodes = before ++ n :: after →
      ∀ d ∈ h.operands image, d ∈ before ∨ d ∈ copy.phis := by
  have hw := hg.wellFormed
  rcases ht.block_cases hc with ⟨rfl, rfl⟩ | ⟨hne, hc⟩
  · obtain ⟨hrange, hphis⟩ := ht.read_new hw (ht.code.1 ▸ hn) himage hget
    exact ⟨hrange, fun _ _ _ d hd => .inr (hphis d hd)⟩
  · have hnot : n ∉ block.nodes := fun h => hne (hw.apart c copy b block n hc ht.old
      (List.mem_append_right _ hn) (List.mem_append_right _ h))
    obtain ⟨old, hold, _, hsame, _⟩ := ht.node_before hw hc (List.mem_append_right _ hn) himage
    obtain rfl := hsame hnot
    obtain ⟨hrange, hvisible⟩ := hg.phrased.read c copy hc n hn image hold hget
    exact ⟨(ht.rethreaded.inRange_iff _).2 hrange, by
      rw [ht.rethreaded.operands_eq rfl]; exact hvisible⟩

theorem recorded_mem (hg : g.Sound) {copy : Block} (hc : h.block? c = some copy)
    (hn : n ∈ recorded copy) : n ∈ copy.phis ++ copy.nodes.dropLast := by
  rcases ht.block_cases hc with ⟨rfl, rfl⟩ | ⟨_, hc⟩
  · rw [recorded, List.map_append, List.mem_append, List.mem_map, List.mem_map] at hn
    rcases hn with ⟨e, he, rfl⟩ | ⟨e, he, rfl⟩
    · exact List.mem_append_left _ (ht.head e he)
    · -- an access of a local is not the last node
      obtain ⟨hmem, node, hnode, hterm⟩ := ht.tail e he
      refine List.mem_append_right _ ?_
      rw [ht.code.1]
      obtain ⟨body, last, lastNode, hsplit, hlast, hlastOk, _⟩ := hg.wellFormed.terminal ht.old
      rw [hsplit] at hmem ⊢
      rcases List.mem_append.1 hmem with hmem | hmem
      · simpa using hmem
      · have heq : e.2 = last := by simpa using hmem
        rw [heq, hlast] at hnode
        obtain rfl := Option.some.inj hnode
        have := hlastOk.terminal
        simp [hterm] at this
  · exact hg.snapshot c copy hc n hn

/-- **Threading a block keeps a graph sound** when no phi is linked. -/
theorem sound (hg : g.Sound) (hu : g.Unlinked) : h.Sound := by
  have hw := hg.wellFormed
  refine hg.of_rephrased ht.rethreaded.toRephrased
    ⟨fun _ _ hc _ hn => ht.isPhi_of_mem hw hc hn, ?_,
      fun _ _ _ _ _ hc hd hn hn' => ht.phis_apart hw hc hd hn hn', ?_,
      fun _ _ hc _ hn _ hnode hget => ht.read hg hc hn hnode hget,
      fun _ _ hc _ hn => ht.recorded_mem hg hc hn⟩
  · intro c copy hc
    rcases ht.block_cases hc with ⟨rfl, rfl⟩ | ⟨_, hc⟩
    · exact ht.nodup
    · exact hg.phrased.nodup c copy hc
  · intro c copy hc n hn node hnode
    have hnone := ht.unlinked hu hw c copy hc n hn node hnode
    exact ⟨ht.inRange_phi hg hc hn hnode, by simp [hnone]⟩

end BlockThreaded

theorem rethreaded_threadBlock (hg : g.Sound) (hu : g.Unlinked) (b : BlockId) :
    Rethreaded g (g.threadBlock b) ∧ (g.threadBlock b).Sound ∧ (g.threadBlock b).Unlinked := by
  cases hb : g.block? b with
  | none => simpa [threadBlock, hb] using ⟨Rethreaded.refl g, hg, hu⟩
  | some block =>
    obtain ⟨new, ht⟩ := blockThreaded_threadBlock hg.wellFormed hb
    exact ⟨ht.rethreaded, ht.sound hg hu, ht.unlinked hu hg.wellFormed⟩

theorem rethreaded_foldl_threadBlock (hg : g.Sound) (hu : g.Unlinked) (ids : List BlockId) :
    Rethreaded g (ids.foldl threadBlock g) ∧ (ids.foldl threadBlock g).Sound := by
  induction ids generalizing g with
  | nil => exact ⟨.refl g, hg⟩
  | cons b ids ih =>
    obtain ⟨hr, hs, hu'⟩ := rethreaded_threadBlock hg hu b
    obtain ⟨hr', hs'⟩ := ih hs hu'
    exact ⟨hr.trans hr', hs'⟩

/-! ## Linking -/

/-- The values of a local at the end of the predecessors are recorded there. -/
theorem mem_incoming {preds : List BlockId} {l : Local} (hn : n ∈ g.incoming preds l) :
    ∃ p block, g.block? p = some block ∧ n ∈ recorded block := by
  have hmem := List.mem_of_mem_take hn
  obtain ⟨p, _, hp⟩ := List.mem_filterMap.1 hmem
  obtain ⟨block, hblock, htail⟩ := Option.bind_eq_some_iff.1 hp
  refine ⟨p, block, hblock, List.mem_map.2 ⟨(l, n), ?_, rfl⟩⟩
  exact List.mem_append_right _ (Snapshot.mem_entries.2 htail)

theorem mem_operands_ofList {ns : List NodeId} (hc : node.children = .ofList (ns.map Edge.untyped))
    (hn : n ∈ g.operands node) : n ∈ ns := by
  have hget : ∀ i, ((ns.map Edge.untyped).getD i .empty).node? = some n → n ∈ ns := by
    intro i hi
    rw [List.getD_eq_getElem?_getD, List.getElem?_map] at hi
    cases hns : ns[i]? with
    | none => simp [hns, Edge.empty] at hi
    | some m =>
      obtain rfl : m = n := by simpa [hns, Edge.untyped] using hi
      exact List.mem_of_getElem? hns
  rw [operands, hc] at hn
  obtain ⟨e, he, hnode⟩ := List.mem_filterMap.1 hn
  simp only [Children.ofList, edgesOf, List.mem_cons, List.not_mem_nil, or_false] at he
  rcases he with rfl | rfl | rfl
  · exact hget 0 hnode
  · exact hget 1 hnode
  · exact hget 2 hnode

/-- A change of the operands of one phi. -/
theorem Sound.modifyPhi (hg : g.Sound) {phi : NodeId} (hphi : g.isPhi phi = true) {ns : List NodeId}
    (hns : ∀ n ∈ ns, ∃ b block, g.block? b = some block ∧ n ∈ recorded block) :
    (g.modifyNode phi fun n => { n with children := .ofList (ns.map Edge.untyped) }).Sound ∧
    Rethreaded g (g.modifyNode phi fun n =>
      { n with children := .ofList (ns.map Edge.untyped) }) := by
  have hp := hg.phrased
  have hr : Rethreaded g (g.modifyNode phi fun n =>
      { n with children := .ofList (ns.map Edge.untyped) }) := by
    refine ⟨⟨rfl, fun _ => rfl, rfl, rfl, rfl, rfl, rfl, ?_⟩, fun _ => rfl, rfl, rfl, rfl⟩
    intro n node hnode hkind
    have hne : phi ≠ n := by
      rintro rfl
      simp [isPhi, hnode, hkind] at hphi
    exact ⟨node, by simp [hne, hnode], .refl node⟩
  refine ⟨hg.of_rephrased hr.toRephrased ⟨?_, hp.nodup, hp.apart, ?_, ?_, hp.snapshot⟩, hr⟩
  · intro b block hb n hn
    have hold := hp.exists_phi b block hb n hn
    rw [isPhi] at hold ⊢
    rw [node?_modifyNode]
    split
    · cases hnode : g.node? n with
      | none => simp [hnode] at hold
      | some node => simpa [hnode] using hold
    · exact hold
  · intro b block hb n hn node hnode
    rw [node?_modifyNode] at hnode
    split at hnode
    · obtain ⟨old, hold, rfl⟩ := Option.map_eq_some_iff.1 hnode
      refine ⟨trivial, fun c hc => ?_⟩
      obtain ⟨d, other, hd, hmem⟩ := hns c (mem_operands_ofList rfl hc)
      exact ⟨d, other, hd, hg.snapshot d other hd c hmem⟩
    · exact hp.phi b block hb n hn node hnode
  · intro b block hb n hn node hnode hget
    have hne : phi ≠ n := by
      rintro rfl
      have := (hg.wellFormed.block b block hb).nodes phi hn
      simp [hphi] at this
    rw [node?_modifyNode, if_neg hne] at hnode
    exact hp.read b block hb n hn node hnode hget

theorem rethreaded_linkPhi (hg : g.Sound) (preds : List BlockId) {phi : NodeId}
    (hphi : g.isPhi phi = true) :
    (linkPhi preds g phi).Sound ∧ Rethreaded g (linkPhi preds g phi) ∧
      ∀ n, (linkPhi preds g phi).isPhi n = g.isPhi n := by
  rw [linkPhi]
  split
  · exact ⟨hg, .refl g, fun _ => rfl⟩
  · rename_i l _
    obtain ⟨hs, hr⟩ := hg.modifyPhi hphi fun n (hn : n ∈ g.incoming preds l) => mem_incoming hn
    refine ⟨hs, hr, fun n => ?_⟩
    rw [isPhi, isPhi, node?_modifyNode]
    split
    · cases g.node? n <;> rfl
    · rfl

theorem rethreaded_foldl_linkPhi (hg : g.Sound) (preds : List BlockId) {phis : List NodeId}
    (hphis : ∀ n ∈ phis, g.isPhi n = true) :
    (phis.foldl (linkPhi preds) g).Sound ∧ Rethreaded g (phis.foldl (linkPhi preds) g) := by
  induction phis generalizing g with
  | nil => exact ⟨hg, .refl g⟩
  | cons phi phis ih =>
    obtain ⟨hs, hr, hsame⟩ := rethreaded_linkPhi hg preds (hphis phi (List.mem_cons_self ..))
    obtain ⟨hs', hr'⟩ := ih hs fun n hn => by
      rw [hsame]
      exact hphis n (List.mem_cons_of_mem _ hn)
    exact ⟨hs', hr.trans hr'⟩

theorem rethreaded_foldl_linkPhis (hg : g.Sound) (ids : List BlockId) :
    (ids.foldl linkPhis g).Sound ∧ Rethreaded g (ids.foldl linkPhis g) := by
  induction ids generalizing g with
  | nil => exact ⟨hg, .refl g⟩
  | cons b ids ih =>
    have hstep : (g.linkPhis b).Sound ∧ Rethreaded g (g.linkPhis b) := by
      cases hb : g.block? b with
      | none => simpa [linkPhis, hb] using ⟨hg, Rethreaded.refl g⟩
      | some block =>
        simp only [linkPhis, hb]
        exact rethreaded_foldl_linkPhi hg block.preds (hg.wellFormed.block b block hb).phis
    obtain ⟨hs', hr'⟩ := ih hstep.1
    exact ⟨hs', hstep.2.trans hr'⟩

/-! ## All blocks -/

/-- What the graph `g` has become by threading. -/
structure ThreadedFrom (g h : Graph) : Prop where
  sound : h.Sound
  form : h.form = .threaded
  rephrased : Rephrased g h
  reachExact : h.ReachExact
  dominatorCache : h.dominatorCache = g.dominatorCache
  loopCache : h.loopCache = g.loopCache

/-- **Threading** gives an unlinked sound graph the threaded form and changes no code. -/
theorem threadedFrom_threadLocals (hg : g.Sound) (hu : g.Unlinked) :
    ThreadedFrom g g.threadLocals := by
  have hentry := hg.wellFormed.entry_live
  have hreset := Recast.resetReachability hentry
  have hs := hreset.sound hg
  obtain ⟨hr₁, hs₁⟩ := rethreaded_foldl_threadBlock hs (hreset.unlinked hu)
    g.resetReachability.reachableIds
  obtain ⟨hs₂, hr₂⟩ := rethreaded_foldl_linkPhis hs₁ g.resetReachability.reachableIds
  have hr := hr₁.trans hr₂
  have hform := recast_form (g.resetReachability.reachableIds.foldl linkPhis
    (g.resetReachability.reachableIds.foldl threadBlock g.resetReachability)) .threaded
  have hexact := hr.reachExact hs.wellFormed (reachExact_resetReachability hentry) hr.reach
  refine ⟨hform.sound hs₂, rfl,
    (hreset.toRephrased.trans hr.toRephrased).trans hform.toRephrased,
    hform.reachExact hs₂.wellFormed hexact fun _ => rfl, ?_, ?_⟩
  · refine hr.dominatorCache.trans ?_
    rw [resetReachability_eq hentry]
    rfl
  · refine hr.loopCache.trans ?_
    rw [resetReachability_eq hentry]
    rfl

end Graph

end Unroller
