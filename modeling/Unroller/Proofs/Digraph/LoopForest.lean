import Mathlib.Tactic
import Unroller.Proofs.Digraph.NaturalLoops

/-!
# The loop forest is exact

`isNaturalLoop_of_mem` says what a loop of the forest satisfies.  Here the forest is described
completely: which headers it has, in which order, and what each field of a loop holds.

* `IsLoopOf`: the sources are those of the back edges to the header, and the members are the header
  and the vertices that reach a source without passing through the header.
* `loopForest_exact`: the forest holds one such loop for each target of a back edge, numbered in
  reverse postorder.
-/

namespace Unroller.Digraph

variable {g : Digraph} {entry : Nat}

/-- All fields of a loop but its number, given its header. -/
structure IsLoopOf (g : Digraph) (entry : Nat) (loop : NaturalLoop) : Prop where
  mem_sources : ∀ n, n ∈ loop.sources ↔ g.IsBackEdge entry n loop.header
  nodup_sources : loop.sources.Nodup
  mem_blocks : ∀ v, v ∈ loop.blocks ↔
    v = loop.header ∨ g.Reaches entry v ∧ ∃ n, g.IsBackEdge entry n loop.header ∧
      g.Avoids loop.header v n
  contains_iff : ∀ v, loop.contains v = true ↔ v ∈ loop.blocks
  listed : ∃ others, loop.blocks = loop.header :: others ∧ others.Pairwise (· < ·) ∧
    loop.header ∉ others
  dominated : ∀ v ∈ loop.blocks, g.Dominates entry loop.header v

theorem nodup_eraseDups (ns : List Nat) : ns.eraseDups.Nodup := by
  induction hlen : ns.length using Nat.strong_induction_on generalizing ns with
  | _ len ih =>
    cases ns with
    | nil => simp
    | cons n ns =>
      rw [List.eraseDups_cons]
      have hshort : (ns.filter fun m => !m == n).length < len := by
        have := List.length_filter_le (fun m => !m == n) ns
        simp only [List.length_cons] at hlen
        omega
      exact List.nodup_cons.2 ⟨by simp, ih _ hshort _ rfl⟩

theorem nodup_sourcesOf (tree : DominatorTree) (order : List Nat) (h : Nat) :
    (g.sourcesOf tree order h).Nodup :=
  nodup_eraseDups _

/-- A member other than the header reaches a source without passing through the header. -/
theorem avoids_of_mem_naturalLoop {index header : Nat} {sources : List Nat} {v : Nat}
    (hlt : header < g.size) (hsources : ∀ n, n ∈ sources ↔ g.IsBackEdge entry n header)
    (hv : v ∈ (naturalLoop (g.reversed (g.reversePostorder entry)) index header sources).blocks) :
    v = header ∨ g.Reaches entry v ∧ ∃ n, g.IsBackEdge entry n header ∧ g.Avoids header v n := by
  have hlt' : header < (g.reversed (g.reversePostorder entry)).size := hlt
  refine loopBody_induction
    (P := fun v => v = header ∨
      g.Reaches entry v ∧ ∃ n, g.IsBackEdge entry n header ∧ g.Avoids header v n)
    (.inl rfl) ?_ ?_ ((mem_blocks_naturalLoop hlt').1 hv).2
  · intro n hn
    have hback := (hsources n).1 hn
    by_cases hne : n = header
    · exact .inl hne
    · exact .inr ⟨hback.1, n, hback, .refl hback.1.right_lt hne⟩
  · intro u p hu hne hPu hp
    obtain ⟨hreach, n, hback, hav⟩ := hPu.resolve_left hne
    have hu : u < g.size := hu
    rw [mem_succs_reversed hu, mem_reversePostorder] at hp
    by_cases hph : p = header
    · exact .inl hph
    · have hedge : g.Edge p u := ⟨hp.1.right_lt, hu, hp.2⟩
      exact .inr ⟨hp.1, n, hback, (hedge.avoids hph hne).trans hav⟩

/-- A vertex that reaches a source without passing through the header is a member. -/
theorem IsNaturalLoop.mem_of_avoids {loop : NaturalLoop} {v n : Nat}
    (h : g.IsNaturalLoop entry loop) (hv : g.Reaches entry v)
    (hback : g.IsBackEdge entry n loop.header) (hav : g.Avoids loop.header v n) :
    v ∈ loop.blocks := by
  obtain ⟨vs, hw, hd⟩ := hav
  induction hw with
  | single _ => exact h.back _ hback.2.1 hback.2.2
  | cons hedge hw ih =>
    simp only [List.mem_cons, not_or] at hd
    have hmem := ih (hv.step hedge) hback hd.2
    exact h.closed _ _ hmem (fun heq => hd.2 (heq ▸ hw.left_mem)) hv hedge

theorem isLoopOf_naturalLoop {index header : Nat} {sources : List Nat}
    (hheader : g.Reaches entry header) (hne : sources ≠ []) (hnodup : sources.Nodup)
    (hsources : ∀ n, n ∈ sources ↔ g.IsBackEdge entry n header) :
    g.IsLoopOf entry
      (naturalLoop (g.reversed (g.reversePostorder entry)) index header sources) := by
  have hloop : g.IsNaturalLoop entry
      (naturalLoop (g.reversed (g.reversePostorder entry)) index header sources) := by
    refine isNaturalLoop_naturalLoop hheader hne fun p => ?_
    rw [hsources]
    exact ⟨fun h => h.2, fun h => ⟨h.2.reaches, h⟩⟩
  refine ⟨hsources, hnodup, fun v => ⟨avoids_of_mem_naturalLoop hheader.right_lt hsources, ?_⟩,
    hloop.contains_iff, ⟨_, rfl, ?_, ?_⟩, hloop.dominated⟩
  · rintro (rfl | ⟨hv, n, hback, hav⟩)
    · exact hloop.header_mem
    · exact hloop.mem_of_avoids hv hback hav
  · exact List.pairwise_lt_range.filter _
  · simp [naturalLoop]

/-- A loop of the forest is that of its header. -/
theorem isLoopOf_of_mem {loop : NaturalLoop}
    (h : loop ∈ (g.loopForest (g.dominatorTree entry) entry).loops) : g.IsLoopOf entry loop := by
  obtain ⟨index, header, hreach, hne, rfl⟩ := eq_naturalLoop_of_mem h
  exact isLoopOf_naturalLoop hreach hne (nodup_sourcesOf _ _ _) fun n => mem_sourcesOf

theorem IsLoopOf.nodup_blocks {loop : NaturalLoop} (h : g.IsLoopOf entry loop) :
    loop.blocks.Nodup := by
  obtain ⟨others, heq, hsorted, hheader⟩ := h.listed
  rw [heq]
  exact List.nodup_cons.2 ⟨hheader, hsorted.imp fun hlt => Nat.ne_of_lt hlt⟩

/-- The headers, in the order of the loops. -/
theorem header_loopForest (tree : DominatorTree) (entry : Nat) :
    (g.loopForest tree entry).loops.map NaturalLoop.header =
      (g.reversePostorder entry).filter fun h =>
        !(g.sourcesOf tree (g.reversePostorder entry) h).isEmpty := by
  rw [loops_loopForest, List.map_map]
  have hfst : ∀ l : List (Nat × List Nat),
      l.zipIdx.map (NaturalLoop.header ∘ fun e =>
        naturalLoop (g.reversed (g.reversePostorder entry)) e.2 e.1.1 e.1.2) = l.map Prod.fst := by
    intro l
    rw [← List.zipIdx_map_fst 0 l, List.map_map, List.zipIdx_map_fst]
    rfl
  rw [hfst, List.filter_map, List.map_map]
  exact List.map_id _

theorem index_loopForest (tree : DominatorTree) (entry : Nat) :
    (g.loopForest tree entry).loops.map NaturalLoop.index =
      List.range (g.loopForest tree entry).loops.length := by
  rw [loops_loopForest, List.map_map, List.length_map, List.length_zipIdx, List.range_eq_range',
    ← List.zipIdx_map_snd]
  rfl

/-- The headers are the vertices that back edges lead to. -/
theorem mem_headers_iff {h : Nat} :
    h ∈ (g.loopForest (g.dominatorTree entry) entry).loops.map NaturalLoop.header ↔
      ∃ n, g.IsBackEdge entry n h := by
  rw [header_loopForest, List.mem_filter, Bool.not_eq_true', List.isEmpty_eq_false_iff_exists_mem,
    mem_reversePostorder]
  simp only [mem_sourcesOf]
  exact ⟨fun hh => hh.2, fun ⟨n, hn⟩ => ⟨hn.2.2.reaches_left, n, hn⟩⟩

/-- No two loops have the same header. -/
theorem nodup_headers (tree : DominatorTree) (entry : Nat) :
    ((g.loopForest tree entry).loops.map NaturalLoop.header).Nodup := by
  rw [header_loopForest]
  exact (nodup_reversePostorder entry).filter _

/-- A vertex that a back edge leads to is the header of one loop. -/
theorem exists_filter_header_eq {h n : Nat} (hback : g.IsBackEdge entry n h) :
    ∃ l ∈ (g.loopForest (g.dominatorTree entry) entry).loops, l.header = h ∧
      (g.loopForest (g.dominatorTree entry) entry).loops.filter (fun m => m.header == h) = [l] := by
  obtain ⟨l, hl, rfl⟩ := List.mem_map.1 (mem_headers_iff.2 ⟨n, hback⟩)
  have hnodup := nodup_headers (g := g) (g.dominatorTree entry) entry
  refine ⟨l, hl, rfl, List.perm_singleton.1 ?_⟩
  refine (List.perm_ext_iff_of_nodup (hnodup.of_map.filter _)
    (List.nodup_singleton l)).2 fun m => ?_
  rw [List.mem_filter, List.mem_singleton, beq_iff_eq]
  constructor
  · exact fun hm => List.inj_on_of_nodup_map hnodup hm.1 hl hm.2
  · rintro rfl
    exact ⟨hl, rfl⟩

/-- **Natural loops are found exactly.**  For every digraph and entry, with the dominator tree that
is computed for it, the forest holds one loop for each vertex that a back edge leads to; sources and
members of each are what `IsLoopOf` says; and the loops are numbered by their place in the list,
which follows the reverse postorder of the headers. -/
theorem loopForest_exact (g : Digraph) (entry : Nat) :
    let loops := (g.loopForest (g.dominatorTree entry) entry).loops
    (∀ h, h ∈ loops.map NaturalLoop.header ↔ ∃ n, g.IsBackEdge entry n h) ∧
      (loops.map NaturalLoop.header).Nodup ∧
      (∀ loop ∈ loops, g.IsLoopOf entry loop) ∧
      loops.map NaturalLoop.index = List.range loops.length ∧
      (loops.map NaturalLoop.header).Sublist (g.reversePostorder entry) := by
  have hsome : ∀ h, (!(g.sourcesOf (g.dominatorTree entry) (g.reversePostorder entry) h).isEmpty)
      = true ↔ ∃ n, g.IsBackEdge entry n h := by
    intro h
    simp only [Bool.not_eq_true', List.isEmpty_eq_false_iff_exists_mem, mem_sourcesOf]
  refine ⟨?_, ?_, ?_, index_loopForest _ _, ?_⟩
  · intro h
    rw [header_loopForest, List.mem_filter, hsome, mem_reversePostorder]
    exact ⟨fun hh => hh.2, fun ⟨n, hn⟩ => ⟨hn.2.2.reaches_left, n, hn⟩⟩
  · rw [header_loopForest]
    exact (nodup_reversePostorder entry).filter _
  · intro loop hloop
    obtain ⟨index, header, hreach, hne, rfl⟩ := eq_naturalLoop_of_mem hloop
    exact isLoopOf_naturalLoop hreach hne (nodup_sourcesOf _ _ _) fun n => mem_sourcesOf
  · rw [header_loopForest]
    exact List.filter_sublist

end Unroller.Digraph
