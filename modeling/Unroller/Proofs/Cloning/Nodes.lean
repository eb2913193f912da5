import Mathlib.Tactic
import Unroller.Cloning
import Unroller.Proofs.Graph.NodeCopy

/-!
# Copying nodes

Copying a node whose operands have been copied appends one node, and nothing can go wrong
(`nodeFrom_ok`).  It is put together from a lemma for each part of the work.

* `edge_ok`, `children_ok`: the operands of the copy are the copies of the operands.
* `payload_ok`: where the payload names a record, the copy has one of its own.
* `NodeCopied`: what the session is like afterwards.
-/

namespace Unroller.Cloning

open Unroller.Graph

variable {s s' : Session} {n : NodeId} {node : Node} {target : BlockId} {fuel : Nat}
  {rename : NodeId → NodeId}

/-! ## Sessions -/

theorem bind_ok {ε σ α β : Type} {x : EStateM ε σ α} {f : α → EStateM ε σ β} {s s' : σ} {a : α}
    (h : x s = .ok a s') : (x >>= f) s = f a s' := by
  simp [bind, EStateM.bind, h]

theorem bind_error {ε σ α β : Type} {x : EStateM ε σ α} {f : α → EStateM ε σ β} {s s' : σ} {e : ε}
    (h : x s = .error e s') : (x >>= f) s = .error e s' := by
  simp [bind, EStateM.bind, h]

theorem bind_eq_ok {ε σ α β : Type} {x : EStateM ε σ α} {f : α → EStateM ε σ β} {s s' : σ} {b : β}
    (h : (x >>= f) s = .ok b s') : ∃ a s₁, x s = .ok a s₁ ∧ f a s₁ = .ok b s' := by
  simp only [bind, EStateM.bind] at h
  cases hx : x s with
  | ok a s₁ => exact ⟨a, s₁, rfl, by simpa [hx] using h⟩
  | error e s₁ => simp [hx] at h

theorem get_bind {ε σ β : Type} (f : σ → EStateM ε σ β) (s : σ) : (get >>= f) s = f s s := rfl

theorem modify_bind {ε σ β : Type} (change : σ → σ) (f : PUnit → EStateM ε σ β) (s : σ) :
    (modify change >>= f) s = f ⟨⟩ (change s) := rfl

theorem forM_cons_ok {ε σ α : Type} {f : α → EStateM ε σ PUnit} {x : α} (xs : List α) {s s' : σ}
    (h : f x s = .ok ⟨⟩ s') : (x :: xs).forM f s = xs.forM f s' :=
  bind_ok (f := fun _ => xs.forM f) h

theorem lookup_cons_of_ne {m key value : Nat} (hne : m ≠ key) (copies : List (Nat × Nat)) :
    ((key, value) :: copies).lookup m = copies.lookup m := by
  rw [List.lookup_cons, beq_false_of_ne hne]

/-- The session with another graph. -/
def onto (s : Session) (g : Graph) : Session := { s with graph := g }

theorem onto_onto (s : Session) (g h : Graph) : onto (onto s g) h = onto s h := rfl

/-- The graph with more variadic operands. -/
def withArgs (g : Graph) (args : Array Edge) : Graph := { g with varArgs := g.varArgs ++ args }

theorem grows_withArgs (g : Graph) (args : Array Edge) : Grows g (withArgs g args) :=
  ⟨.refl _, .append _ _, .refl _, .refl _, .refl _, .refl _, rfl⟩

/-! ## Operands -/

theorem nodeFrom_of_copied {copy : NodeId} (h : s.nodeCopies.lookup n = some copy) :
    nodeFrom target (fuel + 1) n s = .ok copy s := by
  rw [nodeFrom, get_bind]
  simp only [Session.nodeCopy?, h]
  rfl

theorem nodeFrom_of_phi (hnone : s.nodeCopies.lookup n = none) (hnode : s.graph.node? n = some node)
    (hphi : node.kind = .phi) :
    nodeFrom target (fuel + 1) n s = .error (.violation (.phiCloned n node.kind)) s := by
  rw [nodeFrom, get_bind]
  simp only [Session.nodeCopy?, hnone]
  rw [get_bind]
  simp only [hnode, hphi, Kind.cloneStrategy]
  rfl

theorem nodeFrom_of_unsupported (hnone : s.nodeCopies.lookup n = none)
    (hnode : s.graph.node? n = some node) (hs : node.kind.cloneStrategy = .unsupported) :
    nodeFrom target (fuel + 1) n s = .error (.violation (.notCloneable n node.kind)) s := by
  rw [nodeFrom, get_bind]
  simp only [Session.nodeCopy?, hnone]
  rw [get_bind]
  simp only [hnode, hs]
  rfl

theorem edge_ok {e : Edge} (h : ∀ d, e.node? = some d → s.nodeCopies.lookup d = some (rename d)) :
    edge (nodeFrom target (fuel + 1)) e s = .ok (renameEdge rename e) s := by
  rw [edge, renameEdge]
  cases he : e.node? with
  | none => rfl
  | some d => exact bind_ok (nodeFrom_of_copied (h d he))

theorem mapM_edge_ok {es : List Edge}
    (h : ∀ e ∈ es, ∀ d, e.node? = some d → s.nodeCopies.lookup d = some (rename d)) :
    es.mapM (edge (nodeFrom target (fuel + 1))) s = .ok (es.map (renameEdge rename)) s := by
  induction es with
  | nil => rfl
  | cons e es ih =>
    rw [List.mapM_cons, bind_ok (edge_ok (h e (List.mem_cons_self ..))),
      bind_ok (ih fun e' he' => h e' (List.mem_cons_of_mem _ he'))]
    rfl

theorem forM_addVarArg_ok (es : List Edge) (s : Session) :
    (es.forM fun e => do discard (onGraph (·.addVarArg e))) s =
      .ok ⟨⟩ (onto s (withArgs s.graph es.toArray)) := by
  induction es generalizing s with
  | nil => simp [onto, withArgs]; rfl
  | cons e es ih =>
    have hstep : (discard (onGraph (·.addVarArg e)) : Cloning Unit) s =
        .ok () (onto s { s.graph with varArgs := s.graph.varArgs.push e }) := rfl
    rw [forM_cons_ok es hstep, ih]
    simp [onto, withArgs]

/-- The operands of a copy: they are the copies of the operands, in a range of their own. -/
theorem children_ok {c : Children} (hc : s.graph.InRange c)
    (h : ∀ d ∈ (s.graph.edgesOf c).filterMap Edge.node?, s.nodeCopies.lookup d = some (rename d)) :
    ∃ c' args, children (nodeFrom target (fuel + 1)) c s =
        .ok c' (onto s (withArgs s.graph args)) ∧
      c'.isVariadic = c.isVariadic ∧ (withArgs s.graph args).InRange c' ∧
      (withArgs s.graph args).edgesOf c' = (s.graph.edgesOf c).map (renameEdge rename) := by
  have hmem : ∀ e ∈ s.graph.edgesOf c, ∀ d, e.node? = some d →
      s.nodeCopies.lookup d = some (rename d) :=
    fun e he d hd => h d (List.mem_filterMap.2 ⟨e, he, hd⟩)
  cases c with
  | fixed a b c =>
    refine ⟨.fixed (renameEdge rename a) (renameEdge rename b) (renameEdge rename c), #[], ?_, rfl,
      trivial, rfl⟩
    rw [children, bind_ok (edge_ok (hmem a (by simp [edgesOf]))),
      bind_ok (edge_ok (hmem b (by simp [edgesOf]))),
      bind_ok (edge_ok (hmem c (by simp [edgesOf])))]
    simp [onto, withArgs]
    rfl
  | variadic first count =>
    have hle : first + count ≤ s.graph.varArgs.size := hc
    have hlen : (s.graph.varArgRange first count).length = count := by
      rw [varArgRange, if_pos hle]
      simp
      omega
    refine ⟨.variadic s.graph.varArgs.size count,
      ((s.graph.varArgRange first count).map (renameEdge rename)).toArray, ?_, rfl, ?_, ?_⟩
    · have hcopies : (s.graph.varArgRange first count).mapM (edge (nodeFrom target (fuel + 1))) s =
          .ok ((s.graph.varArgRange first count).map (renameEdge rename)) s := mapM_edge_ok hmem
      rw [children, get_bind, bind_ok hcopies, get_bind, bind_ok (forM_addVarArg_ok _ s)]
      rfl
    · simp [InRange, withArgs, hlen]
    · simp only [edgesOf]
      rw [varArgRange, if_pos (by simp [withArgs, hlen])]
      simp [withArgs, hlen]

/-! ## Payloads -/

/-- A graph with more records. -/
structure MoreRecords (g h : Graph) : Prop extends Grows g h where
  nodes_eq : h.nodes = g.nodes
  blocks_eq : h.blocks = g.blocks
  varArgs_eq : h.varArgs = g.varArgs

/-- Adds a record; the result is the payload that names it. -/
def addRecord (g : Graph) : Record → Payload × Graph
  | .branch r => (.branch g.branches.size, (g.addBranch r).2)
  | .switch r => (.switch g.switches.size, (g.addSwitch r).2)
  | .callVarargs r => (.callVarargs g.callLayouts.size, (g.addCallLayout r).2)
  | .loadVarargs r => (.loadVarargs g.loadLayouts.size, (g.addLoadLayout r).2)

theorem moreRecords_addRecord (g : Graph) (r : Record) : MoreRecords g (addRecord g r).2 := by
  cases r
  · exact ⟨⟨.refl _, .refl _, .push _ _, .refl _, .refl _, .refl _, rfl⟩, rfl, rfl, rfl⟩
  · exact ⟨⟨.refl _, .refl _, .refl _, .push _ _, .refl _, .refl _, rfl⟩, rfl, rfl, rfl⟩
  · exact ⟨⟨.refl _, .refl _, .refl _, .refl _, .push _ _, .refl _, rfl⟩, rfl, rfl, rfl⟩
  · exact ⟨⟨.refl _, .refl _, .refl _, .refl _, .refl _, .push _ _, rfl⟩, rfl, rfl, rfl⟩

theorem payloadCopy_addRecord {g : Graph} {p : Payload} {r : Record} (hr : g.record? p = some r) :
    PayloadCopy g p (addRecord g r).2 (addRecord g r).1 := by
  refine .own r hr ?_ ?_
  · cases r <;> simp [addRecord, record?, addBranch, addSwitch, addCallLayout, addLoadLayout]
  · cases r <;> simp [addRecord, record?]

theorem admits_addRecord {g : Graph} {kind : Kind} {p : Payload} {r : Record}
    (ha : g.admits kind p = true) (hr : g.record? p = some r) :
    (addRecord g r).2.admits kind (addRecord g r).1 = true := by
  cases p <;> simp only [record?, Option.map_eq_some_iff, reduceCtorEq] at hr
  all_goals
    obtain ⟨data, hdata, rfl⟩ := hr
    cases kind <;>
      simp [admits, addRecord, addBranch, addSwitch, addCallLayout, addLoadLayout] at ha ⊢

theorem payload_shared (hs : ∀ shape, node.kind.cloneStrategy ≠ .special shape) (n : NodeId)
    (s : Session) : payload n node s = .ok node.payload (onto s s.graph) := by
  cases h : node.kind.cloneStrategy with
  | special shape => exact absurd h (hs shape)
  | common | preCloned | unsupported =>
    simp only [payload, h]
    rfl

theorem payload_own {shape : RecordShape} {r : Record}
    (hs : node.kind.cloneStrategy = .special shape) (hshape : node.payload.shape? = some shape)
    (hr : s.graph.record? node.payload = some r) (n : NodeId) :
    payload n node s = .ok (addRecord s.graph r).1 (onto s (addRecord s.graph r).2) := by
  simp only [payload, hs]
  revert hshape hr
  cases node.payload <;>
    simp only [Payload.shape?, record?, Option.some.injEq, Option.map_eq_some_iff, reduceCtorEq,
      false_implies]
  all_goals
    rintro rfl ⟨data, hdata, rfl⟩
    rw [record, get_bind]
    simp only [hdata]
    rfl

/-- A kind that can be copied is copied with a record exactly when its payload names one. -/
theorem strategy_of_admits {g : Graph} {kind : Kind} {p : Payload} (ha : g.admits kind p = true)
    (hs : kind.cloneStrategy ≠ .unsupported) (shape : RecordShape) :
    kind.cloneStrategy = .special shape ↔ p.shape? = some shape := by
  cases p <;> cases kind <;>
    simp [admits, Kind.hasLocal, Kind.isConstant, Kind.cloneStrategy, Payload.shape?] at ha hs ⊢

/-- **The payload of a copy.** -/
theorem payload_ok (ha : s.graph.admits node.kind node.payload = true)
    (hs : node.kind.cloneStrategy ≠ .unsupported) (n : NodeId) :
    ∃ q h, payload n node s = .ok q (onto s h) ∧ MoreRecords s.graph h ∧
      PayloadCopy s.graph node.payload h q ∧ h.admits node.kind q = true := by
  cases hshape : node.payload.shape? with
  | none =>
    refine ⟨node.payload, s.graph, payload_shared (fun shape h => ?_) n s,
      ⟨.refl _, rfl, rfl, rfl⟩, .shared (by simp [Payload.isRecord, hshape]) rfl, ha⟩
    rw [strategy_of_admits ha hs, hshape] at h
    cases h
  | some shape =>
    obtain ⟨r, hr⟩ := exists_record?_of_admits ha (by simp [Payload.isRecord, hshape])
    exact ⟨_, _, payload_own ((strategy_of_admits ha hs shape).2 hshape) hshape hr n,
      moreRecords_addRecord _ r, payloadCopy_addRecord hr, admits_addRecord ha hr⟩

/-! ## Nodes -/

/-- What has happened when a node has been copied into a block. -/
structure NodeCopied (s : Session) (target : BlockId) (n : NodeId) (node : Node)
    (rename : NodeId → NodeId) (s' : Session) : Prop where
  copy : ∃ image, s'.graph.node? s.graph.nodes.size = some image ∧
    CopyOf s.graph node s'.graph image rename
  grows : Grows s.graph s'.graph
  size_nodes : s'.graph.nodes.size = s.graph.nodes.size + 1
  size_blocks : s'.graph.blocks.size = s.graph.blocks.size
  block : ∀ b, s'.graph.block? b = if target = b then (s.graph.block? b).map fun block =>
    { block with nodes := block.nodes ++ [s.graph.nodes.size] } else s.graph.block? b
  nodeCopies : s'.nodeCopies = (n, s.graph.nodes.size) :: s.nodeCopies
  blockCopies : s'.blockCopies = s.blockCopies
  offered : s'.offered = s.offered

/-- The graph with one more node, which a block has come to list. -/
def withNode (g : Graph) (target : BlockId) (list : NodeId → Block → Block) (node : Node) : Graph :=
  (g.addNode node).2.modifyBlock target (list g.nodes.size)

section withNode

variable (g : Graph) (target : BlockId) (list : NodeId → Block → Block) (node : Node)

theorem nodes_withNode : (withNode g target list node).nodes = g.nodes.push node := rfl

theorem node?_withNode_self : (withNode g target list node).node? g.nodes.size = some node := by
  rw [node?, nodes_withNode]
  simp

theorem grows_withNode : Grows g (withNode g target list node) :=
  ⟨.push _ _, .refl _, .refl _, .refl _, .refl _, .refl _, rfl⟩

theorem size_blocks_withNode : (withNode g target list node).blocks.size = g.blocks.size := by
  rw [withNode, size_blocks_modifyBlock]
  rfl

theorem block?_withNode (b : BlockId) : (withNode g target list node).block? b =
    if target = b then (g.block? b).map (list g.nodes.size) else g.block? b := by
  rw [withNode, block?_modifyBlock, block?_addNode]

end withNode

/-- Lists a node after the nodes of a block. -/
def listNode (n : NodeId) (block : Block) : Block := { block with nodes := block.nodes ++ [n] }

theorem appendNode_ok (hlive : s.graph.isLive target = true) (node : Node) :
    tryGraph .defect (·.appendNode target node) s =
      .ok s.graph.nodes.size (onto s (withNode s.graph target listNode node)) := by
  simp only [tryGraph, appendNode, hlive, if_true]
  rfl

/-- The strategies that copy a node all do the same. -/
theorem nodeFrom_eq (fuel : Nat) (hfresh : s.nodeCopies.lookup n = none)
    (hnode : s.graph.node? n = some node) (hphi : node.kind ≠ .phi)
    (hs : node.kind.cloneStrategy ≠ .unsupported) :
    nodeFrom target (fuel + 1) n s = (do
      let children ← children (nodeFrom target fuel) node.children
      let payload ← payload n node
      let copy ← tryGraph .defect
        (·.appendNode target { node with children := children, payload := payload })
      modify fun s => { s with nodeCopies := (n, copy) :: s.nodeCopies }
      return copy : Cloning NodeId) s := by
  rw [nodeFrom, get_bind]
  simp only [Session.nodeCopy?, hfresh]
  rw [get_bind]
  simp only [hnode]
  cases hk : node.kind.cloneStrategy with
  | common | special _ => rfl
  | preCloned =>
    have : node.kind = .phi := by
      cases hkind : node.kind <;> simp [hkind, Kind.cloneStrategy] at hk ⊢
    exact absurd this hphi
  | unsupported => exact absurd hk hs

/-- A node with copied operands and with a record of its own is a copy. -/
theorem copyOf_of_parts {g h : Graph} {args : Array Edge} {c : Children} {p : Payload}
    (hvariadic : c.isVariadic = node.children.isVariadic) (hrange : (withArgs g args).InRange c)
    (hedges : (withArgs g args).edgesOf c = (g.edgesOf node.children).map (renameEdge rename))
    (hmore : MoreRecords (withArgs g args) h)
    (hcopy : PayloadCopy (withArgs g args) node.payload h p)
    (hadmits : h.admits node.kind p = true) :
    CopyOf g node h { node with children := c, payload := p } rename where
  kind := rfl
  origin := rfl
  prediction := rfl
  isVariadic := hvariadic
  edges := (hmore.edgesOf_eq hrange).trans hedges
  payload := by
    -- the operands added first leave the records as they are
    cases hcopy with
    | shared plain same => exact .shared plain same
    | own r source copy fresh => exact .own r source copy fresh
  admits := hadmits
  inRange := hmore.inRange hrange

/-- **Copying a node** whose operands have been copied. -/
theorem nodeFrom_ok (fuel : Nat) (hfresh : s.nodeCopies.lookup n = none)
    (hnode : s.graph.node? n = some node) (ha : s.graph.admits node.kind node.payload = true)
    (hr : s.graph.InRange node.children) (hphi : node.kind ≠ .phi)
    (hs : node.kind.cloneStrategy ≠ .unsupported)
    (hoperands : ∀ d ∈ s.graph.operands node, s.nodeCopies.lookup d = some (rename d))
    (hlive : s.graph.isLive target = true) :
    ∃ s', nodeFrom target (fuel + 2) n s = .ok s.graph.nodes.size s' ∧
      NodeCopied s target n node rename s' := by
  obtain ⟨c, args, hchildren, hvariadic, hrange, hedges⟩ :=
    children_ok (s := s) hr hoperands
  obtain ⟨p, h, hpayload, hmore, hcopy, hadmits⟩ :=
    payload_ok (s := onto s (withArgs s.graph args)) ha hs n
  replace hmore : MoreRecords (withArgs s.graph args) h := hmore
  have hgrows : Grows s.graph h := (grows_withArgs s.graph args).trans hmore.toGrows
  have hsize : h.nodes.size = s.graph.nodes.size := by
    rw [hmore.nodes_eq]
    rfl
  have hblock : ∀ b, h.block? b = s.graph.block? b := fun b => by
    rw [Graph.block?, hmore.blocks_eq]
    rfl
  have hlive' : h.isLive target = true := by
    rw [isLive, hblock]
    exact hlive
  have himage := copyOf_of_parts hvariadic hrange hedges hmore hcopy hadmits
  obtain ⟨image, heq⟩ : ∃ image : Node, { node with children := c, payload := p } = image :=
    ⟨_, rfl⟩
  rw [heq] at himage
  have happend := appendNode_ok (s := onto s h) hlive' image
  have hadded := grows_withNode h target listNode image
  refine ⟨{ onto s (withNode h target listNode image) with
    nodeCopies := (n, s.graph.nodes.size) :: s.nodeCopies }, ?_,
    ⟨image, ?_, himage.grow hadded⟩, hgrows.trans hadded, ?_, ?_, ?_, rfl, rfl, rfl⟩
  · rw [nodeFrom_eq (fuel + 1) hfresh hnode hphi hs, bind_ok hchildren, bind_ok hpayload, heq,
      onto_onto, bind_ok happend, modify_bind, ← hsize]
    rfl
  · rw [← hsize]
    exact node?_withNode_self h target listNode image
  · show (withNode h target listNode image).nodes.size = _
    rw [nodes_withNode, Array.size_push, hsize]
  · show (withNode h target listNode image).blocks.size = _
    rw [size_blocks_withNode, hmore.blocks_eq]
    rfl
  · intro b
    show (withNode h target listNode image).block? b = _
    rw [block?_withNode, hblock, hsize]
    rfl

end Unroller.Cloning
