import Mathlib.Tactic
import Unroller.Digraph.LoopForest
import Unroller.Proofs.BitSet
import Unroller.Proofs.Digraph.DominatorTree
import Unroller.Proofs.Digraph.Searches

/-!
# Natural loops

What a loop of the loop forest is, in terms of walks and dominance.

* `IsNaturalLoop`: the header dominates all members; a reachable block that leads to a member other
  than the header is a member; of the blocks that lead to the header, those are members that the
  header dominates; and every member leads on.
* `IsBackEdge`, `mem_sourcesOf`: the sources of a loop are those of the back edges to its header.
* `isNaturalLoop_of_mem`: every loop of the forest is one.
* `IsNaturalLoop.edge_into`: so control comes into a loop at its header only.
-/

namespace Unroller.Digraph

variable {g : Digraph} {entry : Nat}

/-- A set of vertices that is entered at the header only. -/
structure IsNaturalLoop (g : Digraph) (entry : Nat) (loop : NaturalLoop) : Prop where
  header_mem : loop.header ∈ loop.blocks
  contains_iff : ∀ v, loop.contains v = true ↔ v ∈ loop.blocks
  dominated : ∀ v ∈ loop.blocks, g.Dominates entry loop.header v
  closed : ∀ p v, v ∈ loop.blocks → v ≠ loop.header → g.Reaches entry p → g.Edge p v →
    p ∈ loop.blocks
  back : ∀ p, g.Edge p loop.header → g.Dominates entry loop.header p → p ∈ loop.blocks
  leads : ∀ v ∈ loop.blocks, ∃ w, g.Edge v w

theorem mem_backEdges {tree : DominatorTree} {order : List Nat} {h n : Nat} :
    (h, n) ∈ g.backEdges tree order ↔ n ∈ order ∧ h ∈ g.succs n ∧ tree.dominates h n = true := by
  simp only [backEdges, List.mem_flatMap, List.mem_map, List.mem_filter, Prod.mk.injEq]
  constructor
  · rintro ⟨m, hm, k, ⟨hk, hdom⟩, rfl, rfl⟩
    exact ⟨hm, hk, hdom⟩
  · rintro ⟨hn, hh, hdom⟩
    exact ⟨n, hn, h, ⟨hh, hdom⟩, rfl, rfl⟩

theorem mem_succs_reversed {vertices : List Nat} {v p : Nat} (hv : v < g.size) :
    p ∈ (g.reversed vertices).succs v ↔ p ∈ vertices ∧ v ∈ g.succs p := by
  simp only [reversed]
  exact mem_predecessors hv

section naturalLoop

variable {index header : Nat} {sources : List Nat}

theorem isMarked_loopBody_header (hlt : header < g.size) :
    (loopBody g header sources).isMarked header = true :=
  flood_marks _ _ _ (Marks.isMarked_mark.2 (.inr ⟨rfl, by simpa [Marks.none] using hlt⟩))

theorem isMarked_loopBody_source {p : Nat} (hp : p ∈ sources) (hlt : p < g.size) :
    (loopBody g header sources).isMarked p = true :=
  flood_marks_stack _ _ _ hp (by simpa [Marks.none] using hlt)

theorem isMarked_loopBody_succ {v w : Nat} (hv : (loopBody g header sources).isMarked v = true)
    (hne : v ≠ header) (hw : w ∈ g.succs v) (hlt : w < g.size) :
    (loopBody g header sources).isMarked w = true := by
  refine flood_closed _ _ _ hv ?_ hw (by simpa [Marks.none] using hlt)
  rw [Marks.isMarked_mark]
  rintro (h | ⟨h, _⟩)
  · exact Marks.not_isMarked_none h
  · exact hne h

theorem loopBody_induction {P : Nat → Prop} (hheader : P header) (hsources : ∀ p ∈ sources, P p)
    (hstep : ∀ v w, v < g.size → v ≠ header → P v → w ∈ g.succs v → P w) {v : Nat}
    (hv : (loopBody g header sources).isMarked v = true) : P v := by
  have hfresh : ∀ u, ((Marks.none g.size).mark header).isFresh u = true →
      u < g.size ∧ u ≠ header := by
    intro u hu
    rw [Marks.isFresh_mark, Marks.isFresh_none] at hu
    simpa using hu
  have h := flood_induction (P := P) g _ sources (fun p hp _ => hsources p hp)
    (fun u w hu hPu hw _ => hstep u w (hfresh u hu).1 (hfresh u hu).2 hPu hw) hv
  rcases h with h | h
  · rcases Marks.isMarked_mark.1 h with h | ⟨rfl, _⟩
    · exact absurd h Marks.not_isMarked_none
    · exact hheader
  · exact h

theorem mem_blocks_naturalLoop (hlt : header < g.size) {v : Nat} :
    v ∈ (naturalLoop g index header sources).blocks ↔
      v < g.size ∧ (loopBody g header sources).isMarked v = true := by
  simp only [naturalLoop, List.mem_cons, List.mem_filter, List.mem_range, Bool.and_eq_true,
    bne_iff_ne, ne_eq]
  constructor
  · rintro (rfl | ⟨hv, _, hm⟩)
    · exact ⟨hlt, isMarked_loopBody_header hlt⟩
    · exact ⟨hv, hm⟩
  · rintro ⟨hv, hm⟩
    by_cases hh : v = header
    · exact .inl hh
    · exact .inr ⟨hv, hh, hm⟩

end naturalLoop

/-- The loop that the search backwards from the sources of all back edges to a header finds. -/
theorem isNaturalLoop_naturalLoop {index header : Nat} {sources : List Nat}
    (hheader : g.Reaches entry header) (hne : sources ≠ [])
    (hsources : ∀ p, p ∈ sources ↔ g.Edge p header ∧ g.Dominates entry header p) :
    g.IsNaturalLoop entry
      (naturalLoop (g.reversed (g.reversePostorder entry)) index header sources) := by
  have hlt : header < g.size := hheader.right_lt
  have hmem := @mem_blocks_naturalLoop (g.reversed (g.reversePostorder entry)) index header sources
    hlt
  refine
    { header_mem := hmem.2 ⟨hlt, isMarked_loopBody_header hlt⟩
      contains_iff := ?contains_iff
      dominated := ?dominated
      closed := ?closed
      back := ?back
      leads := ?leads }
  case contains_iff =>
    intro v
    simp only [NaturalLoop.contains, naturalLoop, BitSet.contains_ofList, List.contains_iff_mem]
  case dominated =>
    intro v hv
    refine loopBody_induction (.refl hheader) (fun p hp => ((hsources p).1 hp).2) ?_ (hmem.1 hv).2
    intro u p hu hne hPu hp
    have hu : u < g.size := hu
    rw [mem_succs_reversed hu, mem_reversePostorder] at hp
    exact hPu.of_edge hne.symm hp.1 ⟨hp.1.right_lt, hu, hp.2⟩
  case closed =>
    intro p v hv hne hp hpv
    obtain ⟨hvs, hm⟩ := hmem.1 hv
    refine hmem.2 ⟨hpv.left_lt, isMarked_loopBody_succ hm hne ?_ hpv.left_lt⟩
    have hvs : v < g.size := hvs
    rw [mem_succs_reversed hvs, mem_reversePostorder]
    exact ⟨hp, hpv.2.2⟩
  case back =>
    intro p hp hdom
    exact hmem.2 ⟨hp.left_lt, isMarked_loopBody_source ((hsources p).2 ⟨hp, hdom⟩) hp.left_lt⟩
  case leads =>
    intro v hv
    -- the header leads on because it reaches the source of a back edge
    have hfirst : ∃ w, g.Edge header w := by
      obtain ⟨p, hp⟩ := List.exists_mem_of_ne_nil _ hne
      obtain ⟨hedge, ⟨vs, hw⟩, hall⟩ := (hsources p).1 hp
      obtain ⟨_, ws, _, hws, _⟩ := hw.split (hall vs hw)
      cases hws with
      | single _ => exact ⟨_, hedge⟩
      | cons edge _ => exact ⟨_, edge⟩
    refine loopBody_induction (P := fun v => ∃ w, g.Edge v w) hfirst
      (fun p hp => ⟨header, ((hsources p).1 hp).1⟩) ?_ (hmem.1 hv).2
    intro u p hu _ _ hp
    have hu : u < g.size := hu
    rw [mem_succs_reversed hu, mem_reversePostorder] at hp
    exact ⟨u, hp.1.right_lt, hu, hp.2⟩

/-- A vertex that the entry reaches has an edge to a vertex that dominates it. -/
def IsBackEdge (g : Digraph) (entry n h : Nat) : Prop :=
  g.Reaches entry n ∧ g.Edge n h ∧ g.Dominates entry h n

/-- The vertices with back edges to `h`, in the order of the list, each once. -/
def sourcesOf (g : Digraph) (tree : DominatorTree) (order : List Nat) (h : Nat) : List Nat :=
  (((g.backEdges tree order).filter fun e => e.1 == h).map fun e => e.2).eraseDups

theorem mem_sourcesOf {h n : Nat} :
    n ∈ g.sourcesOf (g.dominatorTree entry) (g.reversePostorder entry) h ↔
      g.IsBackEdge entry n h := by
  simp only [sourcesOf, List.mem_eraseDups, List.mem_map, List.mem_filter, beq_iff_eq]
  constructor
  · rintro ⟨⟨h', n'⟩, ⟨hmem, rfl⟩, rfl⟩
    rw [mem_backEdges, mem_reversePostorder, dominates_dominatorTree_iff] at hmem
    obtain ⟨hn, hsucc, hdom⟩ := hmem
    exact ⟨hn, ⟨hn.right_lt, hdom.reaches_left.right_lt, hsucc⟩, hdom⟩
  · rintro ⟨hn, hedge, hdom⟩
    refine ⟨(h, n), ⟨?_, rfl⟩, rfl⟩
    rw [mem_backEdges, mem_reversePostorder, dominates_dominatorTree_iff]
    exact ⟨hn, hedge.2.2, hdom⟩

/-- The forest made of one loop for each listed vertex with back edges to it. -/
theorem loops_loopForest (tree : DominatorTree) (entry : Nat) :
    (g.loopForest tree entry).loops =
      (((g.reversePostorder entry).map fun h =>
          (h, g.sourcesOf tree (g.reversePostorder entry) h)).filter
        fun e => !e.2.isEmpty).zipIdx.map fun e =>
          naturalLoop (g.reversed (g.reversePostorder entry)) e.2 e.1.1 e.1.2 :=
  rfl

theorem eq_naturalLoop_of_mem {loop : NaturalLoop}
    (h : loop ∈ (g.loopForest (g.dominatorTree entry) entry).loops) :
    ∃ index header, g.Reaches entry header ∧
      g.sourcesOf (g.dominatorTree entry) (g.reversePostorder entry) header ≠ [] ∧
      loop = naturalLoop (g.reversed (g.reversePostorder entry)) index header
        (g.sourcesOf (g.dominatorTree entry) (g.reversePostorder entry) header) := by
  rw [loops_loopForest, List.mem_map] at h
  obtain ⟨⟨⟨header, sources⟩, index⟩, he, rfl⟩ := h
  have he := List.fst_mem_of_mem_zipIdx he
  simp only [List.mem_filter, List.mem_map] at he
  obtain ⟨⟨h, hh, heq⟩, hsome⟩ := he
  obtain ⟨rfl, rfl⟩ := Prod.mk.inj heq
  exact ⟨index, h, mem_reversePostorder.1 hh, by simpa using hsome, rfl⟩

/-- **The loop forest holds natural loops.** -/
theorem isNaturalLoop_of_mem {loop : NaturalLoop}
    (h : loop ∈ (g.loopForest (g.dominatorTree entry) entry).loops) :
    g.IsNaturalLoop entry loop := by
  obtain ⟨index, header, hreach, hne, rfl⟩ := eq_naturalLoop_of_mem h
  refine isNaturalLoop_naturalLoop hreach hne fun p => ?_
  rw [mem_sourcesOf]
  exact ⟨fun hp => hp.2, fun hp => ⟨hp.2.reaches, hp⟩⟩

namespace IsNaturalLoop

variable {loop : NaturalLoop} {p v : Nat}

theorem header_reaches (h : g.IsNaturalLoop entry loop) : g.Reaches entry loop.header :=
  (h.dominated _ h.header_mem).reaches

theorem reaches (h : g.IsNaturalLoop entry loop) (hv : v ∈ loop.blocks) : g.Reaches entry v :=
  (h.dominated v hv).reaches

/-- Control comes into a loop at its header only. -/
theorem edge_into (h : g.IsNaturalLoop entry loop) (hp : g.Reaches entry p) (hpv : g.Edge p v)
    (hout : p ∉ loop.blocks) (hin : v ∈ loop.blocks) : v = loop.header := by
  by_contra hne
  exact hout (h.closed p v hin hne hp hpv)

/-- The entry is a member of a loop only as its header. -/
theorem eq_header_of_entry_mem (h : g.IsNaturalLoop entry loop) (hmem : entry ∈ loop.blocks) :
    loop.header = entry :=
  (h.dominated entry hmem).eq_entry

end IsNaturalLoop

end Unroller.Digraph
