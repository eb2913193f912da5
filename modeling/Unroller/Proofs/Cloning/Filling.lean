import Mathlib.Tactic
import Unroller.Proofs.Cloning.Nodes
import Unroller.Proofs.Graph.Threading

/-!
# Copying one block

A new block is filled with copies of the phis and the nodes of its source, in their order, and its
snapshots record the copies of what the source's snapshots record.

* `Filling`: what is known when some phis and nodes have been copied; `step_phi` and
  `step_node` are the steps, `forM_phi_ok` and `forM_node_ok` the runs.
* `Ordered`, `Supported`: what a block has to be like for that.
* `Replica`: a block that is the copy of another one, item by item; `BlockCopied`: what a graph is
  like when a block has been copied.
* `fill_ok`: filling the copy of such a block succeeds; `fill_of_not_supported`: it does not for
  others.
-/

namespace Unroller

/-! ## Renamed snapshots -/

namespace Snapshot

variable {t u : Snapshot} {l : Local}

/-- The snapshot with every recorded node renamed. -/
def rename (rename : NodeId → NodeId) (t : Snapshot) : Snapshot :=
  ⟨t.slots.map fun slot => slot.map rename⟩

theorem get?_rename (rename : NodeId → NodeId) (t : Snapshot) (l : Local) :
    (t.rename rename).get? l = (t.get? l).map rename := by
  simp only [get?, Snapshot.rename, Array.getD_eq_getD_getElem?, Array.getElem?_map]
  cases t.slots[l]? <;> rfl

theorem lt_size_of_get? {n : NodeId} (h : t.get? l = some n) : l < t.size := by
  by_contra hl
  have hnone : t.slots[l]? = none := Array.getElem?_eq_none (Nat.le_of_not_lt hl)
  simp [get?, Array.getD_eq_getD_getElem?, hnone] at h

theorem size_set (n : Option NodeId) (hl : l < t.size) : (t.set l n).size = t.size := by
  have hroom : l + 1 - t.slots.size = 0 := Nat.sub_eq_zero_of_le hl
  simp [size, set, hroom]

theorem ext_get? (hsize : t.size = u.size) (h : ∀ l, t.get? l = u.get? l) : t = u := by
  obtain ⟨xs⟩ := t
  obtain ⟨ys⟩ := u
  have hsize : xs.size = ys.size := hsize
  refine congrArg Snapshot.mk (Array.ext hsize fun l hx hy => ?_)
  have hl := h l
  simpa [get?, Array.getD_eq_getD_getElem?, hx, hy] using hl

end Snapshot

namespace Cloning

open Unroller.Graph

variable {s s₀ s' : Session} {n : NodeId} {node : Node} {b c target : BlockId} {block : Block}
  {rename : NodeId → NodeId} {phis nodes : List NodeId}

/-! ## Phis and nodes -/

/-- Lists a phi after the phis of a block. -/
def listPhi (n : NodeId) (block : Block) : Block := { block with phis := block.phis ++ [n] }

/-- What is known when copies of `phis` and `nodes` have been put into the block `c`. -/
structure Filling (s₀ : Session) (c : BlockId) (rename : NodeId → NodeId) (phis nodes : List NodeId)
    (s : Session) : Prop where
  grows : Grows s₀.graph s.graph
  size_nodes : s.graph.nodes.size = s₀.graph.nodes.size + (phis ++ nodes).length
  size_blocks : s.graph.blocks.size = s₀.graph.blocks.size
  block : ∀ b, s.graph.block? b = if c = b then (s₀.graph.block? b).map fun old =>
    { old with phis := old.phis ++ phis.map rename, nodes := old.nodes ++ nodes.map rename }
    else s₀.graph.block? b
  copied : ∀ n ∈ phis ++ nodes, s.nodeCopies.lookup n = some (rename n)
  others : ∀ n ∉ phis ++ nodes, s.nodeCopies.lookup n = s₀.nodeCopies.lookup n
  phi_copy : ∀ n ∈ phis, ∀ node, s₀.graph.node? n = some node →
    s.graph.node? (rename n) = some { node with children := .none }
  node_copy : ∀ n ∈ nodes, ∀ node, s₀.graph.node? n = some node →
    ∃ image, s.graph.node? (rename n) = some image ∧ CopyOf s₀.graph node s.graph image rename
  blockCopies : s.blockCopies = s₀.blockCopies
  offered : s.offered = s₀.offered

namespace Filling

theorem start (s₀ : Session) (c : BlockId) (rename : NodeId → NodeId) :
    Filling s₀ c rename [] [] s₀ where
  grows := .refl _
  size_nodes := rfl
  size_blocks := rfl
  block := fun b => by
    split
    · cases s₀.graph.block? b <;> simp
    · rfl
  copied := by simp
  others := fun _ _ => rfl
  phi_copy := by simp
  node_copy := by simp
  blockCopies := rfl
  offered := rfl

theorem isLive_eq (hf : Filling s₀ c rename phis nodes s) (b : BlockId) :
    s.graph.isLive b = s₀.graph.isLive b := by
  rw [isLive, isLive, hf.block]
  split <;> simp

/-- The copies that are known when one more has been recorded. -/
theorem lookup_next (hf : Filling s₀ c rename phis nodes s)
    (hrename : rename n = s.graph.nodes.size)
    (listed : List NodeId) (hlisted : ∀ m, m ∈ listed ↔ m ∈ phis ++ nodes ∨ m = n) :
    (∀ m ∈ listed, ((n, s.graph.nodes.size) :: s.nodeCopies).lookup m = some (rename m)) ∧
      ∀ m ∉ listed,
        ((n, s.graph.nodes.size) :: s.nodeCopies).lookup m = s₀.nodeCopies.lookup m := by
  refine ⟨fun m hm => ?_, fun m hm => ?_⟩
  · by_cases hmn : m = n
    · rw [hmn, List.lookup_cons_self, hrename]
    · rw [lookup_cons_of_ne hmn]
      exact hf.copied m (((hlisted m).1 hm).resolve_right hmn)
  · rw [hlisted, not_or] at hm
    rw [lookup_cons_of_ne hm.2]
    exact hf.others m hm.1

/-- **One more phi.** -/
theorem step_phi (hf : Filling s₀ c rename phis [] s) (hnode : s₀.graph.node? n = some node)
    (hlive : s₀.graph.isLive c = true) (hrename : rename n = s.graph.nodes.size) :
    ∃ s', phi c n s = .ok ⟨⟩ s' ∧ Filling s₀ c rename (phis ++ [n]) [] s' := by
  have hlive' : s.graph.isLive c = true := (hf.isLive_eq c).trans hlive
  obtain ⟨hcopied, hothers⟩ :=
    hf.lookup_next (n := n) hrename ((phis ++ [n]) ++ []) (by simp)
  have hphi : tryGraph .defect (·.appendPhi c { node with children := .none }) s =
      .ok s.graph.nodes.size
        (onto s (withNode s.graph c listPhi { node with children := .none })) := by
    simp only [tryGraph, appendPhi, hlive', if_true]
    rfl
  have hself := node?_withNode_self s.graph c listPhi { node with children := .none }
  have hgrows := grows_withNode s.graph c listPhi { node with children := .none }
  refine ⟨{ onto s (withNode s.graph c listPhi { node with children := .none }) with
    nodeCopies := (n, s.graph.nodes.size) :: s.nodeCopies }, ?_, hf.grows.trans hgrows, ?_, ?_, ?_,
    hcopied, hothers, ?_, by simp, hf.blockCopies, hf.offered⟩
  · rw [phi, get_bind, hf.grows.node?_of_some hnode]
    simp only
    rw [bind_ok hphi]
    rfl
  · show (withNode _ _ _ _).nodes.size = _
    rw [nodes_withNode, Array.size_push, hf.size_nodes]
    simp
    omega
  · exact (size_blocks_withNode ..).trans hf.size_blocks
  · intro b
    show (withNode _ _ _ _).block? b = _
    rw [block?_withNode, hf.block]
    by_cases hb : c = b
    · subst hb
      cases s₀.graph.block? c <;> simp [listPhi, hrename]
    · simp [hb]
  · intro m hm old hold
    rcases List.mem_append.1 hm with hm | hm
    · exact hgrows.node?_of_some (hf.phi_copy m hm old hold)
    · obtain rfl : m = n := by simpa using hm
      rw [hnode] at hold
      obtain rfl := Option.some.inj hold
      rw [hrename]
      exact hself

/-- **One more node.** -/
theorem step_node (hf : Filling s₀ c rename phis nodes s) (fuel : Nat)
    (hnode : s₀.graph.node? n = some node) (ha : s₀.graph.admits node.kind node.payload = true)
    (hr : s₀.graph.InRange node.children) (hphi : node.kind ≠ .phi)
    (hs : node.kind.cloneStrategy ≠ .unsupported)
    (hoperands : ∀ d ∈ s₀.graph.operands node, d ∈ phis ++ nodes)
    (hlive : s₀.graph.isLive c = true) (hrename : rename n = s.graph.nodes.size)
    (hn : n ∉ phis ++ nodes) (hfresh : s₀.nodeCopies.lookup n = none) :
    ∃ s', nodeFrom c (fuel + 2) n s = .ok s.graph.nodes.size s' ∧
      Filling s₀ c rename phis (nodes ++ [n]) s' := by
  have hlive' : s.graph.isLive c = true := (hf.isLive_eq c).trans hlive
  have hoperands' : ∀ d ∈ s.graph.operands node, s.nodeCopies.lookup d = some (rename d) := by
    intro d hd
    rw [hf.grows.operands_eq hr] at hd
    exact hf.copied d (hoperands d hd)
  obtain ⟨s', hok, hc⟩ := nodeFrom_ok fuel ((hf.others n hn).trans hfresh)
    (hf.grows.node?_of_some hnode) (hf.grows.admits ha) (hf.grows.inRange hr) hphi hs hoperands'
    hlive'
  obtain ⟨hcopied, hothers⟩ :=
    hf.lookup_next (n := n) hrename (phis ++ (nodes ++ [n])) (by simp [or_assoc])
  refine ⟨s', hok, hf.grows.trans hc.grows, ?_, hc.size_blocks.trans hf.size_blocks, ?_,
    by rw [hc.nodeCopies]; exact hcopied, by rw [hc.nodeCopies]; exact hothers, ?_, ?_,
    hc.blockCopies.trans hf.blockCopies, hc.offered.trans hf.offered⟩
  · rw [hc.size_nodes, hf.size_nodes]
    simp
    omega
  · intro b
    rw [hc.block, hf.block]
    by_cases hb : c = b
    · subst hb
      cases s₀.graph.block? c <;> simp [hrename]
    · simp [hb]
  · intro m hm old hold
    exact hc.grows.node?_of_some (hf.phi_copy m hm old hold)
  · intro m hm old hold
    rcases List.mem_append.1 hm with hm | hm
    · obtain ⟨image, himage, hcopy⟩ := hf.node_copy m hm old hold
      exact ⟨image, hc.grows.node?_of_some himage, hcopy.grow hc.grows⟩
    · obtain rfl : m = n := by simpa using hm
      rw [hnode] at hold
      obtain rfl := Option.some.inj hold
      obtain ⟨image, himage, hcopy⟩ := hc.copy
      exact ⟨image, hrename ▸ himage, hcopy.shrink_of_grows hf.grows ha hr⟩

end Filling

/-- The name of a copy: copies are appended in the order of the phis, then the nodes. -/
def copyName (g : Graph) (block : Block) (n : NodeId) : NodeId :=
  g.nodes.size + (block.phis ++ block.nodes).idxOf n

theorem forM_phi_ok (hlive : s₀.graph.isLive c = true)
    (hexists : ∀ n ∈ block.phis, ∃ node, s₀.graph.node? n = some node)
    (hnodup : (block.phis ++ block.nodes).Nodup) (done rest : List NodeId)
    (hsplit : block.phis = done ++ rest)
    (hf : Filling s₀ c (copyName s₀.graph block) done [] s) :
    ∃ s', rest.forM (phi c) s = .ok ⟨⟩ s' ∧
      Filling s₀ c (copyName s₀.graph block) block.phis [] s' := by
  induction rest generalizing done s with
  | nil => exact ⟨s, rfl, by simpa [hsplit] using hf⟩
  | cons n rest ih =>
    have hn : n ∉ done := by
      rw [hsplit] at hnodup
      simp only [List.append_assoc, List.cons_append] at hnodup
      intro h
      exact (List.nodup_append.1 hnodup).2.2 n h n (by simp) rfl
    have hname : copyName s₀.graph block n = s.graph.nodes.size := by
      rw [copyName, hf.size_nodes, hsplit]
      simp [List.idxOf_append, hn]
    obtain ⟨node, hnode⟩ := hexists n (by simp [hsplit])
    obtain ⟨s₁, hok, hf₁⟩ := hf.step_phi hnode hlive hname
    obtain ⟨s₂, hok₂, hf₂⟩ := ih (done ++ [n]) (by simp [hsplit]) hf₁
    refine ⟨s₂, ?_, hf₂⟩
    rw [forM_cons_ok rest hok]
    exact hok₂

/-- The depth that copying a node is given suffices to look up its operands. -/
theorem exists_fuel {g : Graph} (hnode : g.node? n = some node) :
    ∃ fuel, (g.nodes.size + 1) * (g.edgeBound + 1) = fuel + 2 := by
  have hsize : 1 ≤ g.nodes.size := Nat.one_le_of_lt (lt_size_of_node? hnode)
  have hbound : 1 ≤ g.edgeBound + 1 := Nat.le_add_left ..
  have : 2 * 1 ≤ (g.nodes.size + 1) * (g.edgeBound + 1) :=
    Nat.mul_le_mul (by omega) hbound
  exact ⟨(g.nodes.size + 1) * (g.edgeBound + 1) - 2, by omega⟩

/-- What copying relies on in a block: its nodes exist and are distinct, and a node uses phis of the
block and what stands before it. -/
structure Ordered (g : Graph) (block : Block) : Prop where
  nodup : (block.phis ++ block.nodes).Nodup
  phi : ∀ n ∈ block.phis, ∃ node, g.node? n = some node
  node : ∀ before n after, block.nodes = before ++ n :: after → ∃ node, g.node? n = some node ∧
    g.admits node.kind node.payload = true ∧ g.InRange node.children ∧ node.kind ≠ .phi ∧
    ∀ d ∈ g.operands node, d ∈ block.phis ++ before

/-- No node of a block rules copying out. -/
def Supported (g : Graph) (block : Block) : Prop :=
  ∀ n ∈ block.nodes, ∀ node, g.node? n = some node → node.kind.cloneStrategy ≠ .unsupported

theorem ordered_of_wellFormed {g : Graph} (hw : g.WellFormed) (hb : g.block? b = some block) :
    Ordered g block := by
  refine ⟨hw.nodup b block hb,
    fun n hn => exists_node? (hw.exists_node b block hb n (List.mem_append_left _ hn)), ?_⟩
  intro before n after hsplit
  have hn : n ∈ block.nodes := by simp [hsplit]
  obtain ⟨node, hnode⟩ := exists_node? (hw.exists_node b block hb n (List.mem_append_right _ hn))
  have hok := (hw.block b block hb).node before n after hsplit node hnode
  refine ⟨node, hnode, hok.admits, hok.inRange, hw.kind_ne_phi hb hn hnode, ?_⟩
  intro d hd
  rcases hok.visible d hd with hmem | hmem
  · exact List.mem_append_right _ hmem
  · exact List.mem_append_left _ hmem

/-- The next node to be copied has not been listed yet, and its copy is the next node there is. -/
theorem Filling.next {done rest : List NodeId} (hb : Ordered s₀.graph block)
    (hsplit : block.nodes = done ++ n :: rest)
    (hf : Filling s₀ c (copyName s₀.graph block) block.phis done s) :
    n ∉ block.phis ++ done ∧ copyName s₀.graph block n = s.graph.nodes.size := by
  have hn : n ∉ block.phis ++ done := by
    have hnodup := hb.nodup
    rw [hsplit, ← List.append_assoc] at hnodup
    intro h
    exact (List.nodup_append.1 hnodup).2.2 n h n (by simp) rfl
  refine ⟨hn, ?_⟩
  rw [copyName, hf.size_nodes, hsplit, ← List.append_assoc, List.idxOf_append, if_neg hn]
  simp

/-- **One more node**, with the depth that copying a node is given. -/
theorem Filling.step_next {done rest : List NodeId} (hlive : s₀.graph.isLive c = true)
    (hb : Ordered s₀.graph block) (hfresh : ∀ n ∈ block.nodes, s₀.nodeCopies.lookup n = none)
    (hsplit : block.nodes = done ++ n :: rest) (hnode : s₀.graph.node? n = some node)
    (hs : node.kind.cloneStrategy ≠ .unsupported)
    (hf : Filling s₀ c (copyName s₀.graph block) block.phis done s) :
    ∃ s', (discard (Cloning.node c n) : Cloning Unit) s = .ok () s' ∧
      Filling s₀ c (copyName s₀.graph block) block.phis (done ++ [n]) s' := by
  obtain ⟨hn, hname⟩ := hf.next hb hsplit
  obtain ⟨node', hnode', ha, hr, hphi, hoperands⟩ := hb.node done n rest hsplit
  rw [hnode] at hnode'
  obtain rfl := Option.some.inj hnode'
  obtain ⟨fuel, hfuel⟩ := exists_fuel (hf.grows.node?_of_some hnode)
  obtain ⟨s', hok, hf'⟩ := hf.step_node fuel hnode ha hr hphi hs hoperands hlive hname hn
    (hfresh n (by simp [hsplit]))
  refine ⟨s', ?_, hf'⟩
  have hnode' : Cloning.node c n s = .ok s.graph.nodes.size s' := by
    rw [Cloning.node, get_bind, hfuel]
    exact hok
  simp only [discard, Functor.discard, Functor.mapConst, EStateM.map, Function.comp, hnode']

theorem forM_node_ok (hlive : s₀.graph.isLive c = true) (hb : Ordered s₀.graph block)
    (hs : Supported s₀.graph block)
    (hfresh : ∀ n ∈ block.nodes, s₀.nodeCopies.lookup n = none) (done rest : List NodeId)
    (hsplit : block.nodes = done ++ rest)
    (hf : Filling s₀ c (copyName s₀.graph block) block.phis done s) :
    ∃ s', (rest.forM fun n => do discard (Cloning.node c n)) s = .ok ⟨⟩ s' ∧
      Filling s₀ c (copyName s₀.graph block) block.phis block.nodes s' := by
  induction rest generalizing done s with
  | nil => exact ⟨s, rfl, by simpa [hsplit] using hf⟩
  | cons n rest ih =>
    obtain ⟨node, hnode, _⟩ := hb.node done n rest hsplit
    obtain ⟨s₁, hok, hf₁⟩ := hf.step_next hlive hb hfresh hsplit hnode
      (hs n (by simp [hsplit]) node hnode)
    obtain ⟨s₂, hok₂, hf₂⟩ := ih (done ++ [n]) (by simp [hsplit]) hf₁
    refine ⟨s₂, ?_, hf₂⟩
    rw [forM_cons_ok rest hok]
    exact hok₂

/-- A node that cannot be copied ends the copying. -/
theorem node_of_unsupported (hnone : s.nodeCopies.lookup n = none)
    (hnode : s.graph.node? n = some node) (hs : node.kind.cloneStrategy = .unsupported) :
    ∃ v, Cloning.node c n s = .error (.violation v) s := by
  obtain ⟨fuel, hfuel⟩ := exists_fuel hnode
  refine ⟨.notCloneable n node.kind, ?_⟩
  rw [Cloning.node, get_bind, hfuel]
  exact nodeFrom_of_unsupported hnone hnode hs

/-- Where one of the nodes cannot be copied, the copying ends at the first such. -/
theorem forM_node_of_unsupported (hlive : s₀.graph.isLive c = true) (hb : Ordered s₀.graph block)
    (hfresh : ∀ n ∈ block.nodes, s₀.nodeCopies.lookup n = none) (done rest : List NodeId)
    (hsplit : block.nodes = done ++ rest)
    (hf : Filling s₀ c (copyName s₀.graph block) block.phis done s)
    (hs : ∃ n ∈ rest, ∃ node, s₀.graph.node? n = some node ∧
      node.kind.cloneStrategy = .unsupported) :
    ∃ v s', (rest.forM fun n => do discard (Cloning.node c n)) s = .error (.violation v) s' := by
  induction rest generalizing done s with
  | nil => simp at hs
  | cons n rest ih =>
    obtain ⟨node, hnode, _⟩ := hb.node done n rest hsplit
    by_cases hfirst : node.kind.cloneStrategy = .unsupported
    · have hnone : s.nodeCopies.lookup n = none :=
        (hf.others n (hf.next hb hsplit).1).trans (hfresh n (by simp [hsplit]))
      obtain ⟨v, hv⟩ := node_of_unsupported (c := c) hnone (hf.grows.node?_of_some hnode) hfirst
      exact ⟨v, s, bind_error (bind_error hv)⟩
    · obtain ⟨s₁, hok₁, hf₁⟩ := hf.step_next hlive hb hfresh hsplit hnode hfirst
      have hlater : ∃ m ∈ rest, ∃ other, s₀.graph.node? m = some other ∧
          other.kind.cloneStrategy = .unsupported := by
        obtain ⟨m, hm, other, hother, hkind⟩ := hs
        rcases List.mem_cons.1 hm with rfl | hm
        · rw [hnode] at hother
          obtain rfl := Option.some.inj hother
          exact absurd hkind hfirst
        · exact ⟨m, hm, other, hother, hkind⟩
      rw [forM_cons_ok rest hok₁]
      exact ih (done ++ [n]) (by simp [hsplit]) hf₁ hlater

/-! ## Snapshots -/

/-- One more local of a snapshot. -/
theorem snapshot_step {source : BlockId} {e : Local × NodeId}
    (h : s.nodeCopies.lookup e.2 = some (rename e.2)) (acc : Snapshot) :
    (do
      match (← get).nodeCopy? e.2 with
      | some copy => return acc.set e.1 (some copy)
      | none => throw (.violation (.foreignSnapshot e.1 source e.2)) : Cloning Snapshot) s =
        .ok (acc.set e.1 (some (rename e.2))) s := by
  rw [get_bind]
  simp only [Session.nodeCopy?, h]
  rfl

/-- The snapshot of a copy records the copies of what the source's snapshot records. -/
theorem snapshot_ok (source : BlockId) (operands : Snapshot)
    (h : ∀ e ∈ operands.entries, s.nodeCopies.lookup e.2 = some (rename e.2)) :
    snapshot source operands s = .ok (operands.rename rename) s := by
  -- what is yet to come is all that is missing
  have hfold : ∀ (es : List (Local × NodeId)) (acc : Snapshot), (∀ e ∈ es, e ∈ operands.entries) →
      acc.size = operands.size →
      (∀ l, acc.get? l = (operands.rename rename).get? l ∨ l ∈ es.map Prod.fst) →
      es.foldlM (fun (acc : Snapshot) (e : Local × NodeId) => do
          match (← get).nodeCopy? e.2 with
          | some copy => return acc.set e.1 (some copy)
          | none => throw (.violation (.foreignSnapshot e.1 source e.2)) : _ → _ → Cloning _) acc
            s =
            .ok (operands.rename rename) s := by
    intro es
    induction es with
    | nil =>
      intro acc _ hsize hget
      obtain rfl : acc = operands.rename rename := by
        refine Snapshot.ext_get? ?_ fun l => by simpa using hget l
        rw [hsize]
        simp [Snapshot.rename, Snapshot.size]
      rfl
    | cons e es ih =>
      intro acc hes hsize hget
      have he := hes e (List.mem_cons_self ..)
      have hsome : operands.get? e.1 = some e.2 := Snapshot.mem_entries.1 he
      have hlt : e.1 < acc.size := hsize ▸ Snapshot.lt_size_of_get? hsome
      rw [List.foldlM_cons, bind_ok (snapshot_step (h e he) acc)]
      refine ih _ (fun d hd => hes d (List.mem_cons_of_mem _ hd))
        ((Snapshot.size_set _ hlt).trans hsize) fun l => ?_
      rw [Snapshot.get?_set]
      by_cases hl : l = e.1
      · rw [if_pos hl, hl, Snapshot.get?_rename, hsome]
        exact .inl rfl
      · rw [if_neg hl]
        simpa [hl] using hget l
  refine hfold operands.entries (.ofLocals operands.size) (fun _ he => he)
    (by simp [Snapshot.size, Snapshot.ofLocals]) fun l => ?_
  rw [Snapshot.get?_ofLocals, Snapshot.get?_rename]
  cases hl : operands.get? l with
  | none => exact .inl rfl
  | some n => exact .inr (List.mem_map.2 ⟨(l, n), Snapshot.mem_entries.2 hl, rfl⟩)

/-! ## The block as a whole -/

/-- The block `copy` of `h` is a copy of the block `block` of `g`, node by node. -/
structure Replica (g : Graph) (block : Block) (h : Graph) (copy : Block)
    (rename : NodeId → NodeId) : Prop where
  executionCount : copy.executionCount = block.executionCount
  flags : copy.flags = { edgePad := block.flags.edgePad, excludedFromSize := true }
  phis : copy.phis = block.phis.map rename
  nodes : copy.nodes = block.nodes.map rename
  head : copy.head = block.head.rename rename
  tail : copy.tail = block.tail.rename rename
  phi : ∀ n ∈ block.phis, ∀ node, g.node? n = some node →
    h.node? (rename n) = some { node with children := .none }
  node : ∀ n ∈ block.nodes, ∀ node, g.node? n = some node →
    ∃ image, h.node? (rename n) = some image ∧ CopyOf g node h image rename
  injective : ∀ m ∈ block.phis ++ block.nodes, ∀ n ∈ block.phis ++ block.nodes,
    rename m = rename n → m = n

namespace Replica

variable {g h : Graph} {copy : Block} (hr : Replica g block h copy rename)

include hr

theorem pad : copy.flags.edgePad = block.flags.edgePad := by rw [hr.flags]

theorem recorded (hn : n ∈ recorded copy) : ∃ m ∈ Graph.recorded block, n = rename m := by
  have hentries : ∀ (t : Snapshot) e, e ∈ (t.rename rename).entries →
      ∃ d ∈ t.entries, e.2 = rename d.2 := by
    rintro t ⟨l, n⟩ he
    rw [Snapshot.mem_entries, Snapshot.get?_rename, Option.map_eq_some_iff] at he
    obtain ⟨m, hm, rfl⟩ := he
    exact ⟨(l, m), Snapshot.mem_entries.2 hm, rfl⟩
  rw [Graph.recorded, List.map_append, List.mem_append, List.mem_map, List.mem_map, hr.head,
    hr.tail] at hn
  rcases hn with ⟨e, he, rfl⟩ | ⟨e, he, rfl⟩
  · obtain ⟨d, hd, heq⟩ := hentries block.head e he
    exact ⟨d.2, List.mem_map.2 ⟨d, List.mem_append_left _ hd, rfl⟩, heq⟩
  · obtain ⟨d, hd, heq⟩ := hentries block.tail e he
    exact ⟨d.2, List.mem_map.2 ⟨d, List.mem_append_right _ hd, rfl⟩, heq⟩

end Replica

/-- What a graph is like when a block has been copied. -/
structure BlockCopied (g : Graph) (block : Block) (h : Graph) (copy : Block)
    (rename : NodeId → NodeId) : Prop extends Replica g block h copy rename where
  grows : Grows g h
  size_blocks : h.blocks.size = g.blocks.size + 1
  index : copy.index = g.blocks.size
  block? : ∀ d, h.block? d = if d = g.blocks.size then some copy else g.block? d
  fresh : ∀ n, g.nodes.size ≤ rename n

/-- The session when a block without nodes has been added. -/
structure BlockAdded (s : Session) (source : BlockId) (block : Block) (s' : Session) : Prop where
  rest : s'.graph = { s.graph with blocks := s'.graph.blocks, pending := s'.graph.pending }
  size_blocks : s'.graph.blocks.size = s.graph.blocks.size + 1
  block? : ∃ new : Block, new.index = s.graph.blocks.size ∧ new.phis = [] ∧ new.nodes = [] ∧
    new.executionCount = block.executionCount ∧
    new.flags = { edgePad := block.flags.edgePad, excludedFromSize := true } ∧
    ∀ d, s'.graph.block? d = if d = s.graph.blocks.size then some new else s.graph.block? d
  nodeCopies : s'.nodeCopies = s.nodeCopies
  blockCopies : s'.blockCopies = (source, s.graph.blocks.size) :: s.blockCopies
  offered : s'.offered = s.offered

namespace BlockAdded

variable {source : BlockId} (ha : BlockAdded s source block s₀)

include ha

theorem grows : Grows s.graph s₀.graph := by
  rw [ha.rest]
  exact .of_eq rfl rfl rfl rfl rfl rfl rfl

theorem node?_eq (n : NodeId) : s₀.graph.node? n = s.graph.node? n := by
  rw [ha.rest]
  rfl

theorem copyName_eq : copyName s₀.graph block = copyName s.graph block := by
  funext n
  rw [copyName, ha.rest]
  rfl

theorem isLive_new : s₀.graph.isLive s.graph.blocks.size = true := by
  obtain ⟨new, _, _, _, _, _, hblock⟩ := ha.block?
  rw [isLive, hblock]
  simp

theorem ordered (hb : Ordered s.graph block) : Ordered s₀.graph block := by
  refine ⟨hb.nodup, fun n hn => by rw [ha.node?_eq]; exact hb.phi n hn, ?_⟩
  intro before n after hsplit
  obtain ⟨node, hn, hadmits, hrange, hphi, hoperands⟩ := hb.node before n after hsplit
  refine ⟨node, by rw [ha.node?_eq, hn], ha.grows.admits hadmits, ha.grows.inRange hrange, hphi, ?_⟩
  rw [ha.grows.operands_eq hrange]
  exact hoperands

/-- The phis can be copied. -/
theorem forM_phi (hb : Ordered s.graph block) :
    ∃ s', block.phis.forM (phi s.graph.blocks.size) s₀ = .ok ⟨⟩ s' ∧
      Filling s₀ s.graph.blocks.size (copyName s₀.graph block) block.phis [] s' :=
  forM_phi_ok ha.isLive_new (ha.ordered hb).phi hb.nodup [] block.phis rfl
    (.start s₀ s.graph.blocks.size _)

end BlockAdded

theorem freshBlock_ok (source : BlockId) (block : Block) (s : Session) :
    ∃ s', freshBlock source block s = .ok s.graph.blocks.size s' ∧
      BlockAdded s source block s' := by
  refine ⟨_, rfl, rfl, ?_, ?_, rfl, rfl, rfl⟩
  · show (Graph.modifyBlock (s.graph.insertBlock block.executionCount).2 _ _).blocks.size = _
    rw [size_blocks_modifyBlock]
    simp [insertBlock, addBlock]
  · have hpush : ∀ d, (s.graph.insertBlock block.executionCount).2.block? d =
        if d = s.graph.blocks.size then
          some (.ofCount s.graph.blocks.size s.graph.locals block.executionCount)
        else s.graph.block? d :=
      block?_push { s.graph with pending := s.graph.pending + 1 } _
    refine ⟨{ Block.ofCount s.graph.blocks.size s.graph.locals block.executionCount with
      flags := { edgePad := block.flags.edgePad, excludedFromSize := true } },
      rfl, rfl, rfl, rfl, rfl, ?_⟩
    intro d
    show (Graph.modifyBlock (s.graph.insertBlock block.executionCount).2 s.graph.blocks.size
      _).block? d = _
    rw [block?_modifyBlock, hpush]
    by_cases hd : d = s.graph.blocks.size
    · subst hd
      simp
    · rw [if_neg fun h => hd h.symm, if_neg hd, if_neg hd]

/-- The session when a block has been copied. -/
structure CopyMade (s : Session) (source : BlockId) (block : Block) (s' : Session) : Prop where
  copied : ∃ copy, BlockCopied s.graph block s'.graph copy (copyName s.graph block)
  others : ∀ n ∉ block.phis ++ block.nodes, s'.nodeCopies.lookup n = s.nodeCopies.lookup n
  blockCopies : s'.blockCopies = (source, s.graph.blocks.size) :: s.blockCopies

/-- A block that is filled, once its snapshots have been set. -/
theorem BlockAdded.blockCopied {source : BlockId} (ha : BlockAdded s source block s₀)
    (hb : Ordered s.graph block)
    (hf : Filling s₀ s.graph.blocks.size (copyName s.graph block) block.phis block.nodes s') :
    ∃ copy, BlockCopied s.graph block (s'.graph.modifyBlock s.graph.blocks.size fun b =>
      { b with head := block.head.rename (copyName s.graph block)
               tail := block.tail.rename (copyName s.graph block) }) copy
      (copyName s.graph block) := by
  obtain ⟨new, hindex, hphis, hnodes, hcount, hflags, hblock⟩ := ha.block?
  let copy : Block := { new with phis := block.phis.map (copyName s.graph block)
                                 nodes := block.nodes.map (copyName s.graph block)
                                 head := block.head.rename (copyName s.graph block)
                                 tail := block.tail.rename (copyName s.graph block) }
  have hset : Grows s'.graph (s'.graph.modifyBlock s.graph.blocks.size fun b =>
      { b with head := block.head.rename (copyName s.graph block)
               tail := block.tail.rename (copyName s.graph block) }) :=
    .of_eq rfl rfl rfl rfl rfl rfl rfl
  refine ⟨copy, ⟨hcount, hflags, rfl, rfl, rfl, rfl, ?_, ?_, ?_⟩,
    (ha.grows.trans hf.grows).trans hset, ?_, ?_, ?_, fun n => Nat.le_add_right ..⟩
  · intro n hn node hnode
    rw [node?_modifyBlock]
    exact hf.phi_copy n hn node (by rw [ha.node?_eq, hnode])
  · intro n hn node hnode
    obtain ⟨image, himage, hcopy⟩ := hf.node_copy n hn node (by rw [ha.node?_eq, hnode])
    refine ⟨image, by rw [node?_modifyBlock]; exact himage, ?_⟩
    obtain ⟨before, after, hsplit⟩ := List.append_of_mem hn
    obtain ⟨node', hn', hadmits, hrange, _⟩ := hb.node before n after hsplit
    rw [hnode] at hn'
    obtain rfl := Option.some.inj hn'
    exact (hcopy.grow hset).shrink_of_grows ha.grows hadmits hrange
  · intro m hm n hn heq
    have hidx : (block.phis ++ block.nodes).idxOf m = (block.phis ++ block.nodes).idxOf n :=
      Nat.add_left_cancel heq
    exact (List.idxOf_inj hm).1 hidx
  · rw [size_blocks_modifyBlock, hf.size_blocks, ha.size_blocks]
  · exact hindex
  · intro d
    rw [block?_modifyBlock, hf.block, hblock]
    by_cases hd : d = s.graph.blocks.size
    · subst hd
      simp [copy, hphis, hnodes]
    · have hd' : ¬ s.graph.blocks.size = d := fun h => hd h.symm
      simp [hd, hd']

/-- **Copying one block** of which nothing has been copied yet. -/
theorem fill_ok {source : BlockId} (hb : Ordered s.graph block) (hs : Supported s.graph block)
    (hrecorded : ∀ n ∈ recorded block, n ∈ block.phis ++ block.nodes)
    (hfresh : ∀ n ∈ block.nodes, s.nodeCopies.lookup n = none)
    (ha : BlockAdded s source block s₀) :
    ∃ s', fill source s.graph.blocks.size block s₀ = .ok ⟨⟩ s' ∧ CopyMade s source block s' ∧
      s'.offered = s.offered := by
  obtain ⟨s₁, hok₁, hf₁⟩ := ha.forM_phi hb
  obtain ⟨s₂, hok₂, hf₂⟩ := forM_node_ok ha.isLive_new (ha.ordered hb)
    (fun n hn node hnode => hs n hn node (by rw [← ha.node?_eq, hnode]))
    (by rw [ha.nodeCopies]; exact hfresh) [] block.nodes rfl hf₁
  rw [ha.copyName_eq] at hf₂
  have hcopied : ∀ n ∈ recorded block, s₂.nodeCopies.lookup n = some (copyName s.graph block n) :=
    fun n hn => hf₂.copied n (hrecorded n hn)
  have hhead := snapshot_ok source block.head fun e he =>
    hcopied e.2 (List.mem_map.2 ⟨e, List.mem_append_left _ he, rfl⟩)
  have htail := snapshot_ok source block.tail fun e he =>
    hcopied e.2 (List.mem_map.2 ⟨e, List.mem_append_right _ he, rfl⟩)
  refine ⟨onto s₂ (s₂.graph.modifyBlock s.graph.blocks.size fun b =>
    { b with head := block.head.rename (copyName s.graph block)
             tail := block.tail.rename (copyName s.graph block) }), ?_,
    ⟨ha.blockCopied hb hf₂, ?_, hf₂.blockCopies.trans ha.blockCopies⟩, hf₂.offered.trans ha.offered⟩
  · rw [fill, bind_ok hok₁, bind_ok hok₂, bind_ok hhead, bind_ok htail]
    rfl
  · intro n hn
    exact (hf₂.others n hn).trans (by rw [ha.nodeCopies])

/-- A block with a node that cannot be copied cannot be filled. -/
theorem fill_of_not_supported {source : BlockId} (hb : Ordered s.graph block)
    (hs : ¬ Supported s.graph block) (hfresh : ∀ n ∈ block.nodes, s.nodeCopies.lookup n = none)
    (ha : BlockAdded s source block s₀) :
    ∃ v s', fill source s.graph.blocks.size block s₀ = .error (.violation v) s' := by
  obtain ⟨s₁, hok₁, hf₁⟩ := ha.forM_phi hb
  have hunsupported : ∃ n ∈ block.nodes, ∃ node, s₀.graph.node? n = some node ∧
      node.kind.cloneStrategy = .unsupported := by
    simp only [Supported, not_forall, not_not] at hs
    obtain ⟨n, hn, node, hnode, hkind⟩ := hs
    exact ⟨n, hn, node, by rw [ha.node?_eq, hnode], hkind⟩
  obtain ⟨v, s', hv⟩ := forM_node_of_unsupported ha.isLive_new (ha.ordered hb)
    (by rw [ha.nodeCopies]; exact hfresh) [] block.nodes rfl hf₁ hunsupported
  refine ⟨v, s', ?_⟩
  rw [fill, bind_ok hok₁]
  exact bind_error hv

/-- A block that was filled could be. -/
theorem supported_of_fill {source : BlockId} (hb : Ordered s.graph block)
    (hfresh : ∀ n ∈ block.nodes, s.nodeCopies.lookup n = none)
    (ha : BlockAdded s source block s₀)
    (hok : fill source s.graph.blocks.size block s₀ = .ok ⟨⟩ s') : Supported s.graph block := by
  by_contra hs
  obtain ⟨v, s₁, hv⟩ := fill_of_not_supported hb hs hfresh ha
  rw [hok] at hv
  cases hv

end Cloning

end Unroller
