import Mathlib.Tactic
import Unroller.Proofs.Cloning.Appending
import Unroller.Proofs.Cloning.Region

/-!
# Each source is copied once

A session remembers its copies, and nothing is copied that it remembers.  A block is remembered
before the work goes on to its successors, so a cycle of blocks comes to an end; a node is
remembered after its operands, which in a valid graph stand before it.

* `Enters`: what the work does to a list of copies, of nodes as of blocks.
* `Fills`: what the copying of nodes does to a session; `ends_nodeFrom`: it is that, and ends.
* `Memo`: what is known of a session at any time; `Later`: what stays when the work goes on.
* `ends_region`: the copying of a block ends, and keeps to this; when it succeeds, all blocks it has
  copied have been handed to the hook.
-/

namespace Unroller

open Unroller.Graph

/-- Some call of the hook reports that copying does not end. -/
def Hook.Endless (hook : Hook) : Prop := ∃ b c k k', hook b c k = .error .endlessCopy k'

namespace Cloning

variable {g k : Graph} {hook : Hook} {b c d target : BlockId} {n m : NodeId} {node : Node}
  {block : Block} {s t u : Session} {fuel i : Nat}

/-! ## Lists of copies -/

/-- Entries have been put before those of `old`: sources among `sources` that had no copy, each
once, with distinct copies from `low` on and before `high`. -/
def Enters (sources : Set Nat) (low high : Nat) (old new : List (Nat × Nat)) : Prop :=
  ∃ added, new = added ++ old ∧ (added.map Prod.fst).Nodup ∧ (added.map Prod.snd).Nodup ∧
    ∀ e ∈ added, e.1 ∈ sources ∧ old.lookup e.1 = none ∧ low ≤ e.2 ∧ e.2 < high

theorem lookup_eq_none_iff {copies : List (Nat × Nat)} {x : Nat} :
    copies.lookup x = none ↔ x ∉ copies.map Prod.fst := by
  rw [List.lookup_eq_none_iff]
  simp only [List.mem_map, bne_iff_ne]
  constructor
  · rintro h ⟨e, he, rfl⟩
    exact h e he rfl
  · intro h e he heq
    exact h ⟨e, he, heq.symm⟩

theorem lookup_eq_some_iff_mem {copies : List (Nat × Nat)} {x y : Nat}
    (hkeys : (copies.map Prod.fst).Nodup) : copies.lookup x = some y ↔ (x, y) ∈ copies := by
  induction copies with
  | nil => simp
  | cons e copies ih =>
    obtain ⟨key, value⟩ := e
    rw [List.map_cons, List.nodup_cons] at hkeys
    rw [List.mem_cons, Prod.mk.injEq]
    by_cases hx : x = key
    · subst hx
      rw [List.lookup_cons_self, Option.some.injEq]
      constructor
      · exact fun heq => .inl ⟨rfl, heq.symm⟩
      · rintro (⟨_, rfl⟩ | hmem)
        · rfl
        · exact absurd (List.mem_map_of_mem hmem) hkeys.1
    · rw [lookup_cons_of_ne hx, ih hkeys.2]
      simp [hx]

namespace Enters

variable {sources sources' : Set Nat} {low mid high low' high' x y z : Nat}
  {old new newer copies : List (Nat × Nat)}

theorem refl (sources : Set Nat) (low high : Nat) (old : List (Nat × Nat)) :
    Enters sources low high old old :=
  ⟨[], rfl, .nil, .nil, by simp⟩

theorem single (hx : x ∈ sources) (hnone : old.lookup x = none) (hlow : low ≤ y)
    (hhigh : y < high) :
    Enters sources low high old ((x, y) :: old) :=
  ⟨[(x, y)], rfl, List.nodup_singleton _, List.nodup_singleton _, by
    rintro e he
    obtain rfl := List.mem_singleton.1 he
    exact ⟨hx, hnone, hlow, hhigh⟩⟩

theorem mono (h : Enters sources low high old new) (hsources : sources ⊆ sources')
    (hlow : low' ≤ low) (hhigh : high ≤ high') : Enters sources' low' high' old new := by
  obtain ⟨added, hnew, hkeys, hcopies, hadded⟩ := h
  refine ⟨added, hnew, hkeys, hcopies, fun e he => ?_⟩
  obtain ⟨hmem, hnone, hle, hlt⟩ := hadded e he
  exact ⟨hsources hmem, hnone, hlow.trans hle, hlt.trans_le hhigh⟩

theorem lookup_of_none (h : Enters sources low high old new) (hnone : old.lookup x = none)
    (hx : x ∉ sources) : new.lookup x = none := by
  obtain ⟨added, rfl, _, _, hadded⟩ := h
  rw [lookup_eq_none_iff] at hnone ⊢
  rw [List.map_append, List.mem_append]
  rintro (hmem | hmem)
  · obtain ⟨e, he, rfl⟩ := List.mem_map.1 hmem
    exact hx (hadded e he).1
  · exact hnone hmem

theorem lookup_of_some (h : Enters sources low high old new) (hsome : old.lookup x = some y) :
    new.lookup x = some y := by
  obtain ⟨added, rfl, _, _, hadded⟩ := h
  have hnone : added.lookup x = none := by
    rw [lookup_eq_none_iff]
    intro hmem
    obtain ⟨e, he, rfl⟩ := List.mem_map.1 hmem
    rw [(hadded e he).2.1] at hsome
    cases hsome
  rw [List.lookup_append, hnone, hsome]
  rfl

/-- Stretches of work add up: what the second enters has no copy after the first. -/
theorem trans (h : Enters sources low mid old new) (h' : Enters sources mid high new newer)
    (hlow : low ≤ mid) (hhigh : mid ≤ high) : Enters sources low high old newer := by
  have hnone : ∀ x, new.lookup x = none → old.lookup x = none := by
    intro x hx
    by_contra hold
    obtain ⟨y, hy⟩ := Option.ne_none_iff_exists'.1 hold
    rw [h.lookup_of_some hy] at hx
    cases hx
  obtain ⟨added, rfl, hkeys, hcopies, hadded⟩ := h
  obtain ⟨added', rfl, hkeys', hcopies', hadded'⟩ := h'
  refine ⟨added' ++ added, by rw [List.append_assoc], ?_, ?_, ?_⟩
  · rw [List.map_append]
    refine hkeys'.append hkeys fun x hx' hx => ?_
    obtain ⟨e, he, rfl⟩ := List.mem_map.1 hx'
    refine lookup_eq_none_iff.1 (hadded' e he).2.1 ?_
    rw [List.map_append]
    exact List.mem_append_left _ hx
  · rw [List.map_append]
    refine hcopies'.append hcopies fun y hy' hy => ?_
    obtain ⟨e', he', rfl⟩ := List.mem_map.1 hy'
    obtain ⟨e, he, heq⟩ := List.mem_map.1 hy
    have hlt := (hadded e he).2.2.2
    have hle := (hadded' e' he').2.2.1
    omega
  · intro e he
    rcases List.mem_append.1 he with he | he
    · obtain ⟨hmem, hold, hle, hlt⟩ := hadded' e he
      exact ⟨hmem, hnone _ hold, hlow.trans hle, hlt⟩
    · obtain ⟨hmem, hold, hle, hlt⟩ := hadded e he
      exact ⟨hmem, hold, hle, hlt.trans_le hhigh⟩

section All

variable (h : Enters sources low high [] copies)

include h

theorem nodup : (copies.map Prod.fst).Nodup := by
  obtain ⟨added, rfl, hkeys, _, _⟩ := h
  rwa [List.append_nil]

theorem lookup_eq_some_iff : copies.lookup x = some y ↔ (x, y) ∈ copies :=
  lookup_eq_some_iff_mem h.nodup

/-- No two sources have the same copy. -/
theorem injective (hx : copies.lookup x = some z) (hy : copies.lookup y = some z) : x = y := by
  have hmem := h.lookup_eq_some_iff.1 hx
  have hmem' := h.lookup_eq_some_iff.1 hy
  obtain ⟨added, rfl, _, hcopies, _⟩ := h
  rw [List.append_nil] at hmem hmem'
  exact congrArg Prod.fst (List.inj_on_of_nodup_map hcopies hmem hmem' rfl)

theorem range (hx : copies.lookup x = some y) : low ≤ y ∧ y < high := by
  have hmem := h.lookup_eq_some_iff.1 hx
  obtain ⟨added, rfl, _, _, hadded⟩ := h
  rw [List.append_nil] at hmem
  exact (hadded _ hmem).2.2

end All

end Enters

/-! ## Nodes -/

/-- Nodes have been copied, sources among `sources`, and nothing else has happened in the
session. -/
structure Fills (sources : Set NodeId) (s t : Session) : Prop where
  grows : Grows s.graph t.graph
  size_blocks : t.graph.blocks.size = s.graph.blocks.size
  entered : Enters sources s.graph.nodes.size t.graph.nodes.size s.nodeCopies t.nodeCopies
  blockCopies : t.blockCopies = s.blockCopies
  offered : t.offered = s.offered

namespace Fills

variable {sources sources' : Set NodeId}

theorem refl (sources : Set NodeId) (s : Session) : Fills sources s s :=
  ⟨.refl _, rfl, .refl _ _ _ _, rfl, rfl⟩

theorem mono (h : Fills sources s t) (hsources : sources ⊆ sources') : Fills sources' s t :=
  ⟨h.grows, h.size_blocks, h.entered.mono hsources le_rfl le_rfl, h.blockCopies, h.offered⟩

theorem trans (h : Fills sources s t) (h' : Fills sources t u) : Fills sources s u :=
  ⟨h.grows.trans h'.grows, h'.size_blocks.trans h.size_blocks,
    h.entered.trans h'.entered h.grows.nodes.size_le h'.grows.nodes.size_le,
    h'.blockCopies.trans h.blockCopies, h'.offered.trans h.offered⟩

/-- An edit of the graph that only adds to it. -/
theorem onto (h : Fills sources s t) (hg : Grows t.graph k)
    (hsize : k.blocks.size = t.graph.blocks.size) : Fills sources s (onto t k) :=
  ⟨h.grows.trans hg, hsize.trans h.size_blocks,
    h.entered.mono subset_rfl le_rfl hg.nodes.size_le, h.blockCopies, h.offered⟩

/-- A node has been added and is remembered as a copy. -/
theorem remember (h : Fills sources s t) (hn : n ∈ sources) (hnone : t.nodeCopies.lookup n = none)
    {list : NodeId → Block → Block} :
    Fills sources s { t with
      graph := withNode t.graph target list node
      nodeCopies := (n, t.graph.nodes.size) :: t.nodeCopies } := by
  refine h.trans
    ⟨grows_withNode _ _ _ _, size_blocks_withNode _ _ _ _, .single hn hnone le_rfl ?_, rfl, rfl⟩
  show t.graph.nodes.size < (withNode t.graph target list node).nodes.size
  rw [nodes_withNode, Array.size_push]
  exact Nat.lt_succ_self _

end Fills

/-- The work has failed when it had copied nodes, and not because there was no end to it. -/
def FillsUntil (sources : Set NodeId) (s : Session) (e : Error) (t : Session) : Prop :=
  Fills sources s t ∧ e ≠ .endlessCopy

section Parts

variable {α : Type} {sources sources' : Set NodeId}

/-- One part after another. -/
theorem Fills.ends_after {x : Cloning α} (h : Fills sources s t)
    (hx : Ends (fun _ => Fills sources' t) (FillsUntil sources' t) x t)
    (hsub : sources' ⊆ sources) :
    Ends (fun _ => Fills sources s) (FillsUntil sources s) x t :=
  hx.mono (fun _ _ hu => h.trans (hu.mono hsub)) fun _ _ hu => ⟨h.trans (hu.1.mono hsub), hu.2⟩

theorem fills_payload (h : Fills sources s t) (n : NodeId) (node : Node) :
    Ends (fun _ => Fills sources s) (FillsUntil sources s) (payload n node) t := by
  unfold payload
  split
  · rename_i shape _
    rcases record_cases n shape node.payload t with ⟨r, _, hok⟩ | ⟨v, herror⟩
    · have hmore := moreRecords_addRecord t.graph r
      exact .of_ok hok (h.onto hmore.toGrows (congrArg Array.size hmore.blocks_eq))
    · exact .of_error herror ⟨h, by rintro ⟨⟩⟩
  · exact .of_ok rfl h

/-- A node is added to a block, if that is live. -/
theorem ends_addNode (list : NodeId → Block → Block)
    (change : Graph → Except Defect (NodeId × Graph))
    (hchange : ∀ e, change t.graph = .ok e →
      e = (t.graph.nodes.size, withNode t.graph target list node)) :
    Ends (fun c u => c = t.graph.nodes.size ∧ u = onto t (withNode t.graph target list node))
      (fun e u => u = t ∧ e ≠ .endlessCopy) (tryGraph .defect change) t := by
  cases hrun : change t.graph with
  | error e =>
    exact .of_error (e := .defect e) (by simp only [tryGraph, hrun]) ⟨rfl, by rintro ⟨⟩⟩
  | ok result =>
    obtain rfl := hchange result hrun
    have hadded : tryGraph .defect change t =
        .ok t.graph.nodes.size (onto t (withNode t.graph target list node)) := by
      simp only [tryGraph, hrun]
      rfl
    exact .of_ok hadded ⟨rfl, rfl⟩

end Parts

/-- The first `i` nodes of a block, its phis apart. -/
def firstNodes (block : Block) (i : Nat) : Set NodeId :=
  {n | n ∈ block.nodes ∧ block.nodes.idxOf n < i}

/-- In a valid graph, an operand of a node of a block is a phi or stands before it. -/
theorem idxOf_operand_lt (hw : g.WellFormed) (hb : g.block? b = some block) (hn : n ∈ block.nodes)
    (hnode : g.node? n = some node) (hm : m ∈ g.operands node) (hmem : m ∈ block.nodes) :
    block.nodes.idxOf m < block.nodes.idxOf n := by
  obtain ⟨before, after, hsplit⟩ := List.append_of_mem hn
  have hnodup := hw.nodup b block hb
  rcases ((hw.block b block hb).node before n after hsplit node hnode).visible m hm with hv | hv
  · have hnot : n ∉ before := by
      have hnodes := hnodup.of_append_right
      rw [hsplit] at hnodes
      exact fun hin => (List.nodup_append'.1 hnodes).2.2 hin List.mem_cons_self
    rw [hsplit, List.idxOf_append_of_mem hv, List.idxOf_append_of_notMem hnot, List.idxOf_cons_self]
    exact (List.idxOf_lt_length_of_mem hv).trans_le (Nat.le_add_right _ _)
  · exact absurd hmem ((List.nodup_append'.1 hnodup).2.2 hv)

section Fill

variable (hw : g.WellFormed) (hb : g.block? b = some block)

include hw hb

/-- **A node of a block** is copied, or some node cannot be; the operands lead back in the block, so
that there is an end to it. -/
theorem ends_nodeFrom (fuel : Nat) (hg : Grows g s.graph) (hn : n ∈ block.phis ++ block.nodes)
    (hi : n ∈ block.nodes → block.nodes.idxOf n < i) (hfuel : i < fuel) :
    Ends (fun c t => Fills (firstNodes block i) s t ∧ t.nodeCopies.lookup n = some c)
      (FillsUntil (firstNodes block i) s) (nodeFrom target fuel n) s := by
  induction fuel generalizing s n i with
  | zero => exact absurd hfuel (Nat.not_lt_zero _)
  | succ fuel ih =>
    obtain ⟨node, hnode⟩ := exists_node? (hw.exists_node b block hb n hn)
    have hnode' := hg.node?_of_some hnode
    cases hcopied : s.nodeCopies.lookup n with
    | some copy => exact .of_ok (nodeFrom_of_copied hcopied) ⟨.refl _ _, hcopied⟩
    | none =>
      by_cases hphi : node.kind = .phi
      · exact .of_error (nodeFrom_of_phi hcopied hnode' hphi) ⟨.refl _ _, by rintro ⟨⟩⟩
      by_cases hstrategy : node.kind.cloneStrategy = .unsupported
      · exact .of_error (nodeFrom_of_unsupported hcopied hnode' hstrategy)
          ⟨.refl _ _, by rintro ⟨⟩⟩
      have hmem : n ∈ block.nodes :=
        (List.mem_append.1 hn).resolve_left fun hp => hphi (hw.kind_eq_phi hb hp hnode)
      have hlt := hi hmem
      have hsub : firstNodes block (block.nodes.idxOf n) ⊆ firstNodes block i :=
        fun m hm => ⟨hm.1, hm.2.trans hlt⟩
      obtain ⟨before, after, hsplit⟩ := List.append_of_mem hmem
      have hok := (hw.block b block hb).node before n after hsplit node hnode
      refine .congr (nodeFrom_eq fuel hcopied hnode' hphi hstrategy) ?_
      -- the operands come before the node, which is therefore still without a copy
      have hoperands : ∀ e ∈ s.graph.edgesOf node.children, ∀ m, e.node? = some m → ∀ t,
          Fills (firstNodes block (block.nodes.idxOf n)) s t →
          Ends (fun _ => Fills (firstNodes block (block.nodes.idxOf n)) s)
            (FillsUntil (firstNodes block (block.nodes.idxOf n)) s) (nodeFrom target fuel m) t := by
        intro e he m hm t ht
        rw [hg.edgesOf_eq hok.inRange] at he
        have hoperand : m ∈ g.operands node := List.mem_filterMap.2 ⟨e, he, hm⟩
        have hends := ih (hg.trans ht.grows) (hw.operand_mem hb hmem hnode hoperand)
          (idxOf_operand_lt hw hb hmem hnode hoperand) (by omega)
        exact ht.ends_after (hends.mono (fun _ _ hu => hu.1) fun _ _ => id) subset_rfl
      have hchildren := ends_operands (.refl _ s) hoperands
        fun t args ht => ht.onto (grows_withArgs t.graph args) rfl
      refine (hchildren.mono (fun _ _ ht => ht.1) fun _ _ ht => ⟨ht.1.mono hsub, ht.2⟩).bind
        fun c t ht => ?_
      refine ((fills_payload ht n node).mono (fun _ _ => id)
        fun _ _ hu => ⟨hu.1.mono hsub, hu.2⟩).bind fun p u hu => ?_
      have huncopied : u.nodeCopies.lookup n = none :=
        hu.entered.lookup_of_none hcopied fun hin => lt_irrefl _ hin.2
      have happend := ends_addNode (t := u) listNode
        (·.appendNode target { node with children := c, payload := p }) fun _ => appendNode_eq_ok
      refine (happend.mono (fun _ _ => id) ?_).bind ?_
      · rintro e _ ⟨rfl, he⟩
        exact ⟨hu.mono hsub, he⟩
      · rintro _ _ ⟨rfl, rfl⟩
        exact .of_ok rfl ⟨(hu.mono hsub).remember ⟨hmem, hlt⟩ huncopied, List.lookup_cons_self⟩

theorem length_nodes_le : block.nodes.length ≤ g.nodes.size := by
  have hnodup := (hw.nodup b block hb).of_append_right
  rw [← List.toFinset_card_of_nodup hnodup, ← Finset.card_range g.nodes.size]
  refine Finset.card_le_card fun n hn => Finset.mem_range.2 ?_
  exact hw.exists_node b block hb n (List.mem_append_right _ (List.mem_toFinset.1 hn))

theorem ends_node (target : BlockId) (hg : Grows g s.graph) (hn : n ∈ block.phis ++ block.nodes) :
    Ends (fun c t => Fills {m | m ∈ block.nodes} s t ∧ t.nodeCopies.lookup n = some c)
      (FillsUntil {m | m ∈ block.nodes} s) (Cloning.node target n) s := by
  have hlength := (length_nodes_le hw hb).trans hg.nodes.size_le
  have hfuel : block.nodes.length <
      (s.graph.nodes.size + 1) * (s.graph.edgeBound + 1) :=
    (Nat.lt_succ_of_le hlength).trans_le (Nat.le_mul_of_pos_right _ (Nat.succ_pos _))
  have hsub : firstNodes block block.nodes.length ⊆ {m | m ∈ block.nodes} := fun _ hm => hm.1
  unfold Cloning.node
  exact .get ((ends_nodeFrom hw hb _ hg hn List.idxOf_lt_length_of_mem hfuel).mono
    (fun _ _ ht => ⟨ht.1.mono hsub, ht.2⟩) fun _ _ ht => ⟨ht.1.mono hsub, ht.2⟩)

omit hw hb in
/-- **Phis** are copied one by one; none of them may have a copy. -/
theorem ends_forM_phi (target : BlockId) (phis : List NodeId) (hnodup : phis.Nodup)
    (hnone : ∀ n ∈ phis, s.nodeCopies.lookup n = none) :
    Ends (fun _ => Fills {n | n ∈ phis} s) (FillsUntil {n | n ∈ phis} s)
      (phis.forM (phi target)) s := by
  induction phis generalizing s with
  | nil => exact .of_ok rfl (.refl _ s)
  | cons n phis ih =>
    rw [List.nodup_cons] at hnodup
    have hself : {n} ⊆ {m | m ∈ n :: phis} := by rintro m rfl; exact List.mem_cons_self
    have hrest : {m | m ∈ phis} ⊆ {m | m ∈ n :: phis} := fun m hm => List.mem_cons_of_mem _ hm
    have hphi :
        Ends (fun _ => Fills {n} s) (FillsUntil {m | m ∈ n :: phis} s) (phi target n) s := by
      unfold phi
      refine .get ?_
      split
      · exact .of_error rfl ⟨.refl _ s, by rintro ⟨⟩⟩
      rename_i node _
      have happend := ends_addNode (t := s) listPhi
        (·.appendPhi target { node with children := .none }) fun _ => appendPhi_eq_ok
      refine (happend.mono (fun _ _ => id) ?_).bind ?_
      · rintro e _ ⟨rfl, he⟩
        exact ⟨.refl _ _, he⟩
      · rintro _ _ ⟨rfl, rfl⟩
        exact .of_ok rfl ((Fills.refl {n} s).remember (Set.mem_singleton n)
          (hnone n List.mem_cons_self))
    refine hphi.bind fun _ t ht => ?_
    have huncopied : ∀ m ∈ phis, t.nodeCopies.lookup m = none := fun m hm =>
      ht.entered.lookup_of_none (hnone m (List.mem_cons_of_mem _ hm)) fun hin =>
        hnodup.1 (Set.mem_singleton_iff.1 hin ▸ hm)
    exact (ht.mono hself).ends_after (ih hnodup.2 huncopied) hrest

omit hw hb in
theorem ends_snapshot {sources : Set NodeId} (h : Fills sources s t) (source : BlockId)
    (operands : Snapshot) :
    Ends (fun _ => Fills sources s) (FillsUntil sources s) (snapshot source operands) t := by
  unfold snapshot
  refine .foldlM h (fun acc e u hu => .get ?_) _
  split
  · exact .of_ok rfl hu
  · exact .of_error rfl ⟨hu, by rintro ⟨⟩⟩

/-- **Filling a copy** copies nodes of the source, and ends. -/
theorem ends_fill (hg : Grows g s.graph) (hnone : ∀ n ∈ block.phis, s.nodeCopies.lookup n = none)
    (source : BlockId) :
    Ends (fun _ => Fills {n | n ∈ block.phis ++ block.nodes} s)
      (FillsUntil {n | n ∈ block.phis ++ block.nodes} s) (fill source target block) s := by
  have hphis : {n | n ∈ block.phis} ⊆ {n | n ∈ block.phis ++ block.nodes} :=
    fun n hn => List.mem_append_left _ hn
  have hnodes : {n | n ∈ block.nodes} ⊆ {n | n ∈ block.phis ++ block.nodes} :=
    fun n hn => List.mem_append_right _ hn
  unfold fill
  have hfirst := ends_forM_phi target block.phis
    (hw.nodup b block hb).of_append_left hnone
  refine ((Fills.refl _ s).ends_after hfirst hphis).bind fun _ t ht => ?_
  refine (Ends.forM ht fun n hn u hu => ?_).bind fun _ u hu => ?_
  · have hends := ends_node hw hb target (hg.trans hu.grows)
      (List.mem_append_right _ hn)
    exact (hu.ends_after (hends.mono (fun _ _ hv => hv.1) fun _ _ => id) hnodes).bind
      fun _ _ hv => .of_ok rfl hv
  refine (ends_snapshot hu source block.head).bind fun head v hv => ?_
  refine (ends_snapshot hv source block.tail).bind fun tail w hw' => ?_
  exact .of_ok rfl (hw'.onto (.of_eq rfl rfl rfl rfl rfl rfl rfl) (size_blocks_modifyBlock _ _ _))

end Fill

/-! ## Sessions -/

/-- What is known at any time of a session in which blocks of `g` are copied and which began with
the graph `k`. -/
structure Memo (g k : Graph) (s : Session) : Prop where
  apart : Apart k s.graph
  nodes : Enters {n | ∃ d, g.Lists d n} k.nodes.size s.graph.nodes.size [] s.nodeCopies
  blocks : Enters {b | b < g.blocks.size} k.blocks.size s.graph.blocks.size [] s.blockCopies
  phi : ∀ b block, g.block? b = some block → s.blockCopies.lookup b = none →
    ∀ n ∈ block.phis, s.nodeCopies.lookup n = none
  once : (s.offered.map Prod.fst).Nodup
  offered : ∀ e ∈ s.offered, s.blockCopies.lookup e.1 = some e.2

/-- The work has gone on: what was copied is copied, what was offered was offered. -/
structure Later (s t : Session) : Prop where
  nodes : ∀ n m, s.nodeCopies.lookup n = some m → t.nodeCopies.lookup n = some m
  blocks : ∀ b c, s.blockCopies.lookup b = some c → t.blockCopies.lookup b = some c
  offered : ∀ e ∈ s.offered, e ∈ t.offered

namespace Later

theorem refl (s : Session) : Later s s := ⟨fun _ _ => id, fun _ _ => id, fun _ => id⟩

theorem trans (h : Later s t) (h' : Later t u) : Later s u :=
  ⟨fun n m hm => h'.nodes n m (h.nodes n m hm), fun b c hc => h'.blocks b c (h.blocks b c hc),
    fun e he => h'.offered e (h.offered e he)⟩

theorem of_fills {sources : Set NodeId} (h : Fills sources s t) : Later s t :=
  ⟨fun _ _ => h.entered.lookup_of_some, fun _ _ hc => h.blockCopies ▸ hc,
    fun _ he => h.offered ▸ he⟩

theorem of_blockAdded (h : BlockAdded s b block t) (hnone : s.blockCopies.lookup b = none) :
    Later s t := by
  refine ⟨fun _ _ hm => h.nodeCopies ▸ hm, fun d e hd => ?_, fun _ he => h.offered ▸ he⟩
  have hne : d ≠ b := by
    rintro rfl
    rw [hnone] at hd
    cases hd
  rw [h.blockCopies, lookup_cons_of_ne hne, hd]

end Later

namespace Memo

theorem start (g k : Graph) : Memo g k { graph := k } :=
  ⟨.refl k, .refl _ _ _ _, .refl _ _ _ _, fun _ _ _ _ _ _ => rfl, .nil, by simp⟩

variable (hm : Memo g k s)

include hm

/-- A copy has been edited. -/
theorem edit {h : Graph} (hc : k.blocks.size ≤ c) (he : EditsOnly s.graph c h) :
    Memo g k (onto s h) :=
  ⟨hm.apart.edit hc he, hm.nodes.mono subset_rfl le_rfl he.roomier.nodes,
    hm.blocks.mono subset_rfl le_rfl he.size_blocks.ge, hm.phi, hm.once, hm.offered⟩

/-- Nodes have been copied, but no phis of blocks that have not. -/
theorem fill {sources : Set NodeId} (hf : Fills sources s t) (ha : Apart k t.graph)
    (hsources : ∀ n ∈ sources, ∃ d, g.Lists d n)
    (hphis : ∀ b block, g.block? b = some block → s.blockCopies.lookup b = none →
      ∀ n ∈ block.phis, n ∉ sources) : Memo g k t := by
  refine
    { apart := ha
      nodes := ?nodes
      blocks := ?blocks
      phi := ?phi
      once := ?once
      offered := ?offered }
  case nodes =>
    exact hm.nodes.trans (hf.entered.mono hsources le_rfl le_rfl) hm.apart.nodes.size_le
      hf.grows.nodes.size_le
  case blocks =>
    rw [hf.blockCopies, hf.size_blocks]
    exact hm.blocks
  case phi =>
    intro b block hb hnone n hn
    rw [hf.blockCopies] at hnone
    exact hf.entered.lookup_of_none (hm.phi b block hb hnone n hn) (hphis b block hb hnone n hn)
  case once =>
    rw [hf.offered]
    exact hm.once
  case offered =>
    rw [hf.offered, hf.blockCopies]
    exact hm.offered

/-- The copy of a block has been added. -/
theorem fresh (hlt : b < g.blocks.size) (hnone : s.blockCopies.lookup b = none)
    (ha : BlockAdded s b block t) : Memo g k t := by
  have hsize : s.graph.blocks.size ≤ t.graph.blocks.size := ha.size_blocks ▸ Nat.le_succ _
  refine
    { apart := apart_of_blockAdded hm.apart ha
      nodes := ?nodes
      blocks := ?blocks
      phi := ?phi
      once := ?once
      offered := ?offered }
  case nodes =>
    rw [ha.nodeCopies]
    exact hm.nodes.mono subset_rfl le_rfl ha.grows.nodes.size_le
  case blocks =>
    rw [ha.blockCopies]
    exact hm.blocks.trans (.single hlt hnone le_rfl (ha.size_blocks ▸ Nat.lt_succ_self _))
      hm.apart.blocks.size_le hsize
  case phi =>
    intro d other hd hdnone n hn
    have hdb : d ≠ b := by
      rintro rfl
      rw [ha.blockCopies, List.lookup_cons_self] at hdnone
      cases hdnone
    rw [ha.blockCopies, lookup_cons_of_ne hdb] at hdnone
    rw [ha.nodeCopies]
    exact hm.phi d other hd hdnone n hn
  case once =>
    rw [ha.offered]
    exact hm.once
  case offered =>
    intro e he
    rw [ha.offered] at he
    exact (Later.of_blockAdded ha hnone).blocks e.1 e.2 (hm.offered e he)

/-- A copy has been handed to the hook. -/
theorem offer (hself : s.blockCopies.lookup b = some c) (hnew : ∀ e ∈ s.offered, e.1 ≠ b) :
    Memo g k { s with offered := s.offered ++ [(b, c)] } := by
  refine
    { apart := hm.apart
      nodes := hm.nodes
      blocks := hm.blocks
      phi := hm.phi
      once := ?once
      offered := ?offered }
  case once =>
    show ((s.offered ++ [(b, c)]).map Prod.fst).Nodup
    rw [List.map_append]
    refine hm.once.append (List.nodup_singleton b) fun d hd hdb => ?_
    obtain ⟨e, he, rfl⟩ := List.mem_map.1 hd
    exact hnew e he (List.mem_singleton.1 hdb)
  case offered =>
    intro e he
    rcases List.mem_append.1 he with he | he
    · exact hm.offered e he
    · obtain rfl := List.mem_singleton.1 he
      exact hself

end Memo

/-- The work has gone on, and all blocks copied meanwhile have been handed to the hook. -/
structure Advance (g k : Graph) (s t : Session) : Prop where
  memo : Memo g k t
  later : Later s t
  offered : ∀ b c, t.blockCopies.lookup b = some c → s.blockCopies.lookup b = none →
    (b, c) ∈ t.offered

theorem Advance.refl (hm : Memo g k s) : Advance g k s s :=
  ⟨hm, .refl s, fun b c hc hnone => by simp [hc] at hnone⟩

theorem Advance.trans (h : Advance g k s t) (h' : Advance g k t u) : Advance g k s u := by
  refine ⟨h'.memo, h.later.trans h'.later, fun b c hc hnone => ?_⟩
  cases hb : t.blockCopies.lookup b with
  | none => exact h'.offered b c hc hb
  | some d =>
    obtain rfl : d = c := Option.some.inj ((h'.later.blocks b d hb).symm.trans hc)
    exact h'.later.offered _ (h.offered b d hb hnone)

/-- The work has broken off, and not because there was no end to it. -/
structure BrokenOff (g k : Graph) (hook : Hook) (s : Session) (e : Error) (t : Session) : Prop where
  memo : Memo g k t
  later : Later s t
  ended : e = .endlessCopy → hook.Endless

theorem BrokenOff.after {e : Error} (h : Later s t) (h' : BrokenOff g k hook t e u) :
    BrokenOff g k hook s e u :=
  ⟨h'.memo, h.trans h'.later, h'.ended⟩

/-! ## Blocks -/

section Blocks

variable (hw : g.WellFormed) (hgk : Apart g k)

include hw hgk

/-- What a new copy is filled with. -/
theorem ends_fill_memo (hm : Memo g k s) (hnone : s.blockCopies.lookup b = none)
    (hb : g.block? b = some block) (hadded : BlockAdded s b block t) :
    Ends (fun _ u => Memo g k u ∧ Later s u ∧ u.blockCopies = t.blockCopies ∧ u.offered = s.offered)
      (BrokenOff g k hook s) (fill b s.graph.blocks.size block) t := by
  have hfresh := hm.fresh (lt_size_of_block? hb) hnone hadded
  have hlater := Later.of_blockAdded hadded hnone
  have hself : t.blockCopies.lookup b = some s.graph.blocks.size := by
    rw [hadded.blockCopies, List.lookup_cons_self]
  have hnotcopied : ∀ n ∈ block.phis, t.nodeCopies.lookup n = none := by
    rw [hadded.nodeCopies]
    exact hm.phi b block hb hnone
  have hsources : ∀ n ∈ {n | n ∈ block.phis ++ block.nodes}, ∃ d, g.Lists d n := fun n hn =>
    ⟨b, block, hb, hn⟩
  have hphis : ∀ d other, g.block? d = some other → t.blockCopies.lookup d = none →
      ∀ n ∈ other.phis, n ∉ {n | n ∈ block.phis ++ block.nodes} := by
    intro d other hd hdnone n hn hin
    obtain rfl := hw.apart d other b block n hd hb (List.mem_append_left _ hn) hin
    rw [hself] at hdnone
    cases hdnone
  have hfill := (adds_fill hw hgk hfresh.apart
    hm.apart.blocks.size_le hb).and
    (ends_fill hw hb (hgk.trans hw hfresh.apart).toGrows hnotcopied b)
  refine hfill.mono (fun _ u hu => ?_) fun e u hu => ?_
  · exact ⟨hfresh.fill hu.2 hu.1 hsources hphis, hlater.trans (.of_fills hu.2), hu.2.blockCopies,
      hu.2.offered.trans hadded.offered⟩
  · exact ⟨hfresh.fill hu.2.1 hu.1 hsources hphis, hlater.trans (.of_fills hu.2.1),
      fun he => absurd he hu.2.2⟩

variable (hhook : hook.EditsOnlyCopy)

include hhook

/-- The hook is handed a copy. -/
theorem ends_offer (hm : Memo g k s) (hc : k.blocks.size ≤ c)
    (hself : s.blockCopies.lookup b = some c) (hnew : ∀ e ∈ s.offered, e.1 ≠ b) :
    Ends (fun _ t => Memo g k t ∧ Later s t ∧ t.blockCopies = s.blockCopies ∧ (b, c) ∈ t.offered)
      (BrokenOff g k hook s) (offer hook b c) s := by
  have hedits := hhook b c s.graph ((hgk.trans hw hm.apart).closed hw)
  have hmemo := hm.offer hself hnew
  have hlater : ∀ h : Graph, Later s { s with graph := h, offered := s.offered ++ [(b, c)] } :=
    fun _ => ⟨fun _ _ => id, fun _ _ => id, fun _ => List.mem_append_left _⟩
  cases hrun : hook b c s.graph with
  | ok handled h =>
    rw [hrun] at hedits
    exact .of_ok (a := handled) (t := { s with graph := h, offered := s.offered ++ [(b, c)] })
      (by simp only [offer, hrun])
      ⟨hmemo.edit hc hedits, hlater h, rfl, List.mem_append_right _ (List.mem_singleton_self _)⟩
  | error e h =>
    rw [hrun] at hedits
    refine .of_error (e := e) (t := { s with graph := h, offered := s.offered ++ [(b, c)] })
      (by simp only [offer, hrun]) ⟨hmemo.edit hc hedits, hlater h, ?_⟩
    rintro rfl
    exact ⟨b, c, s.graph, h, hrun⟩

omit hw hgk hhook in
/-- A slot of a copy is set. -/
theorem ends_setSuccessor (hm : Memo g k s) (hc : k.blocks.size ≤ c) (slot : Nat) (d : BlockId) :
    Ends (fun _ t => Advance g k s t ∧ t.blockCopies = s.blockCopies) (BrokenOff g k hook s)
      (tryGraph .violation fun g => (g.setSuccessor c slot d).map fun g => ((), g)) s := by
  cases hset : s.graph.setSuccessor c slot d with
  | error e =>
    exact .of_error (e := .violation e) (by simp only [tryGraph, hset, Except.map])
      ⟨hm, .refl s, by rintro ⟨⟩⟩
  | ok h =>
    have hrun : tryGraph .violation (fun g => (g.setSuccessor c slot d).map fun g => ((), g)) s =
        .ok () (onto s h) := by
      simp only [tryGraph, hset, Except.map]
      rfl
    refine .of_ok hrun ⟨⟨hm.edit hc (editsOnly_setSuccessor hset).1, ?_, ?_⟩, rfl⟩
    · exact ⟨fun _ _ => id, fun _ _ => id, fun _ => id⟩
    · intro b e he hnone
      have he : s.blockCopies.lookup b = some e := he
      rw [hnone] at he
      cases he

/-- **Blocks of the graph** and what they lead to are copied, or something stands in the way; there
is an end to it, since whatever is copied is copied once. -/
theorem ends_region (hm : Memo g k s)
    (hb : ∀ block, s.graph.block? b = some block → b < g.blocks.size) (fuel : Nat)
    (hfuel : (uncopied g s).card < fuel) :
    Ends (fun c t => Advance g k s t ∧ t.blockCopies.lookup b = some c) (BrokenOff g k hook s)
      (blockFrom hook fuel b) s := by
  induction fuel generalizing s b with
  | zero => exact absurd hfuel (Nat.not_lt_zero _)
  | succ fuel ih =>
    unfold blockFrom
    refine .get ?_
    cases hlookup : s.blockCopies.lookup b with
    | some c => exact .of_ok rfl ⟨.refl hm, hlookup⟩
    | none =>
      refine .get ?_
      cases hblock : s.graph.block? b with
      | none => exact .of_error rfl ⟨hm, .refl s, by rintro ⟨⟩⟩
      | some block =>
        have hlt := hb block hblock
        rw [(hgk.trans hw hm.apart).block?_eq hlt] at hblock
        obtain ⟨s₀, hadded, hnew⟩ := freshBlock_ok b block s
        refine .bind_ok hadded ?_
        have htarget := hm.apart.blocks.size_le
        refine (ends_fill_memo hw hgk hm hlookup hblock hnew).bind fun _ t ht => ?_
        obtain ⟨htm, hst, htcopies, htoffered⟩ := ht
        have hself : t.blockCopies.lookup b = some s.graph.blocks.size := by
          rw [htcopies, hnew.blockCopies, List.lookup_cons_self]
        have hnotoffered : ∀ e ∈ t.offered, e.1 ≠ b := by
          rintro e he rfl
          rw [htoffered] at he
          rw [hm.offered e he] at hlookup
          cases hlookup
        refine ((ends_offer hw hgk hhook htm htarget hself hnotoffered).mono (fun _ _ => id)
          fun _ _ hu => hu.after hst).bind fun handled u hu => ?_
        obtain ⟨hum, htu, hucopies, huoffered⟩ := hu
        have hsu : Advance g k s u := by
          refine ⟨hum, hst.trans htu, fun d e hd hdnone => ?_⟩
          by_cases hdb : d = b
          · subst hdb
            rw [hucopies, hself] at hd
            obtain rfl := Option.some.inj hd
            exact huoffered
          · rw [hucopies, htcopies, hnew.blockCopies, lookup_cons_of_ne hdb, hdnone] at hd
            cases hd
        rw [← hucopies] at hself
        cases handled with
        | true => exact .of_ok rfl ⟨hsu, hself⟩
        | false =>
          have hslots : Ends (fun _ v => Advance g k s v ∧ Later u v) (BrokenOff g k hook s)
              (successors (blockFrom hook fuel) b s.graph.blocks.size) u := by
            unfold successors
            refine .get (.forM ⟨hsu, .refl u⟩ fun slot _ v hv => .get ?_)
            split
            · exact .of_error rfl ⟨hv.1.memo, hv.1.later, by rintro ⟨⟩⟩
            rename_i successor hsucc
            have hsuccessor := successor_lt_size hw (hgk.trans hw hv.1.memo.apart) hblock hsucc
            have hfewer := card_uncopied_lt (g := g) hlt hlookup
              (hucopies.trans (htcopies.trans hnew.blockCopies))
            have hno_more := card_uncopied_le (g := g) hv.2.blocks
            refine ((ih hv.1.memo (fun _ _ => hsuccessor) (by omega)).mono (fun _ _ => id)
              fun _ _ hx => hx.after hv.1.later).bind fun c x hx => ?_
            have hsx := hv.1.trans hx.1
            refine (ends_setSuccessor hsx.memo htarget slot c).mono (fun _ y hy => ?_)
              fun _ _ hy => hy.after hsx.later
            exact ⟨hsx.trans hy.1, (hv.2.trans hx.1.later).trans hy.1.later⟩
          exact hslots.bind fun _ v hv => .of_ok rfl ⟨hv.1, hv.2.blocks _ _ hself⟩

end Blocks

end Cloning

end Unroller
