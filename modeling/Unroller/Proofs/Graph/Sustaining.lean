import Unroller.Proofs.Graph.SingleOwner

/-!
# Edits that leave records with their owners

Every edit of a graph leaves a separate graph separate, whether or not it leaves a valid graph
valid: edges may come to lead to dead blocks, and phis to be listed by no block.

* `sustains_setSuccessor`, `sustains_convertToJump`: the edits of successors.
* `sustains_resetReachability`, `sustains_killUnreachable`, `sustains_commitInsertions`: cleaning
  up.
* `sustains_threadLocals`: threading, block by block and then phi by phi.
* `setSuccessor_redirects`: in a separate graph an edit of one slot changes that slot only.
-/

namespace Unroller.Graph

variable {g h k : Graph} {b c d t : BlockId} {m n : NodeId} {node image : Node} {block : Block}
  {r : RecordShape × Nat} {slot : Nat}

/-! ## Successors -/

/-- Giving a jump another target. -/
theorem sustains_modifyJump (g : Graph) (n : NodeId) (t : BlockId) :
    Sustains g (g.modifyNode n fun node => { node with payload := .jump t }) :=
  .of_blocks (.of_modifyNode fun _ _ => ⟨rfl, .inr rfl, .inr (.inl rfl)⟩) rfl

/-- **Pointing a slot elsewhere.** -/
theorem sustains_setSuccessor (hok : g.setSuccessor b slot t = .ok h) : Sustains g h := by
  unfold setSuccessor at hok
  split at hok
  case h_1 => cases hok
  case h_2 n node hterm =>
    split at hok
    case isTrue => cases hok
    case isFalse =>
      -- a record keeps its place, and with it its owner
      split at hok
      · cases hok
        exact .of_blocks ⟨⟨le_rfl, by simp, le_rfl, le_rfl, le_rfl⟩, .refl _,
          fun _ node hnode => ⟨node, hnode, .refl _ _ node⟩⟩ rfl
      · cases hok
        exact .of_blocks ⟨⟨le_rfl, le_rfl, by simp, le_rfl, le_rfl⟩, .refl _,
          fun _ node hnode => ⟨node, hnode, .refl _ _ node⟩⟩ rfl
      · cases hok
        exact sustains_modifyJump g n t

/-- A new node that holds no record. -/
theorem fresh_of_bare (hd : Develops g h) (hnew : g.nodes.size ≤ n)
    (hnode : h.node? n = some node) (hkind : node.kind ≠ .phi) (hbare : node.payload.handle? = none)
    (hrange : h.InRange node.children) (hoperands : ∀ c ∈ h.operands node, g.Proper c) :
    Fresh g h n where
  new := hnew
  notPhi := by simp [isPhi, hnode, hkind]
  proper :=
    proper_of_operands hnode ⟨by simp [hbare], hrange⟩ fun c hc => hd.proper (hoperands c hc)
  unheld := fun _ hr => absurd hr (not_holds_of_bare hnode hbare)

theorem Separate.operands_terminal (hg : g.Separate) (hterm : g.terminalNode? b = some (n, node)) :
    ∀ c ∈ g.operands node, g.Proper c := by
  obtain ⟨block, hb, hlast, hnode, _⟩ := terminalNode?_eq_some_iff.1 hterm
  exact (hg.wellMade ⟨block, hb, List.mem_of_getLast? hlast⟩ hnode).2

/-- Putting a jump in the place of the last node. -/
theorem Cut.sustains {kept : List NodeId} {jump : NodeId} (hcut : Cut g b block node t kept jump h)
    (hb : g.block? b = some block) (hterm : g.terminalNode? b = some (n, node)) : Sustains g h := by
  intro hg
  have hd := Develops.of_grows hcut.grows
  have hoperands := hg.operands_terminal hterm
  -- neither the phantom nor the jump holds a record
  have hfresh : ∀ m ∈ kept ++ [jump], Fresh g h m ∧ ∀ r, ¬ h.Holds m r := by
    intro m hm
    have hnew := hcut.fresh hm
    rcases List.mem_append.1 hm with hm | hm
    · obtain ⟨phantom, hphantom, hkind, hbare, hrange, hsub⟩ := hcut.kept_node m hm
      have hnone : phantom.payload.handle? = none := by rw [hbare]; rfl
      exact ⟨fresh_of_bare hd hnew hphantom (by simp [hkind]) hnone hrange
        fun c hc => hoperands c (hsub c hc), fun r => not_holds_of_bare hphantom hnone⟩
    · obtain rfl := List.mem_singleton.1 hm
      obtain ⟨last, hlast, hkind, hjump, hchildren⟩ := hcut.jump_node
      have hnone : last.payload.handle? = none := by rw [hjump]; rfl
      have hnil : h.operands last = [] := by rw [operands, hchildren]; rfl
      exact ⟨fresh_of_bare hd hnew hlast (by simp [hkind]) hnone (by rw [hchildren]; trivial)
        (by simp [hnil]), fun r => not_holds_of_bare hlast hnone⟩
  have hblocks : ∀ d other, h.block? d = some other → g.block? d = some other ∨
      d = b ∧ other = { block with nodes := block.nodes.dropLast ++ (kept ++ [jump]) } := by
    intro d other hother
    rw [hcut.block?] at hother
    split at hother
    case isTrue heq => exact .inr ⟨heq.symm, (Option.some.inj hother).symm⟩
    case isFalse => exact .inl hother
  have hruns : ∀ d m, h.Runs d m → g.Runs d m ∨ d = b ∧ m ∈ kept ++ [jump] := by
    rintro d m ⟨other, hother, hm⟩
    rcases hblocks d other hother with hold | ⟨rfl, rfl⟩
    · exact .inl ⟨other, hold, hm⟩
    · rcases List.mem_append.1 hm with hm | hm
      · exact .inl ⟨block, hb, List.mem_of_mem_dropLast hm⟩
      · exact .inr ⟨rfl, hm⟩
  refine ⟨hd, hg.of_develops hd b ?_ (fun d m hm => ?_) ?_⟩
  · rintro d p ⟨other, hother, hp⟩
    rcases hblocks d other hother with hold | ⟨rfl, rfl⟩
    · exact .inl ⟨other, hold, hp⟩
    · exact .inl ⟨block, hb, hp⟩
  · exact (hruns d m hm).imp_right fun hnew => ⟨hnew.1, (hfresh m hnew.2).1⟩
  · intro m _ r hm _ hf _ hr
    rcases hruns b m hm with hold | ⟨_, hnew⟩
    · exact absurd hold (hf.not_runs hg)
    · exact absurd hr ((hfresh m hnew).2 r)

/-- **Ending a block in a jump.** -/
theorem sustains_convertToJump (hok : g.convertToJump b t = .ok h) : Sustains g h := by
  rcases convertToJump_cases hok with ⟨n, last, _, _, rfl⟩ | ⟨n, last, block, kept, jump, hterm, _,
    hb, hcut⟩
  · exact sustains_modifyJump g n t
  · exact hcut.sustains hb hterm

/-! ## Cleaning up -/

/-- Analyses, forms and pending blocks do not matter. -/
theorem sustains_of_eq (hblocks : h.blocks = g.blocks) (hnodes : h.nodes = g.nodes)
    (hargs : h.varArgs = g.varArgs) (hbranches : h.branches = g.branches)
    (hswitches : h.switches = g.switches) (hcalls : h.callLayouts = g.callLayouts)
    (hloads : h.loadLayouts = g.loadLayouts) : Sustains g h := by
  refine .of_blocks ⟨⟨?_, ?_, ?_, ?_, ?_⟩, hargs ▸ .refl _, fun n node hnode => ?_⟩ hblocks
  · rw [hnodes]
  · rw [hbranches]
  · rw [hswitches]
  · rw [hcalls]
  · rw [hloads]
  · exact ⟨node, by rw [node?, hnodes]; exact hnode, .refl _ _ node⟩

theorem sustains_form (g : Graph) (form : Form) : Sustains g { g with form := form } :=
  sustains_of_eq rfl rfl rfl rfl rfl rfl rfl

theorem sustains_cacheLoops (g : Graph) : Sustains g g.cacheLoops := by
  unfold cacheLoops
  split
  · exact .refl g
  · exact sustains_of_eq rfl rfl rfl rfl rfl rfl rfl

theorem sustains_withReach (g : Graph) (reachable : BlockId → Bool)
    (preds : BlockId → List BlockId) : Sustains g (g.withReach reachable preds) := by
  refine .of_grows (.of_eq rfl rfl rfl rfl rfl rfl rfl) fun b block hb => .inr ?_
  rw [block?_withReach] at hb
  obtain ⟨old, hold, rfl⟩ := Option.map_eq_some_iff.1 hb
  exact ⟨old, hold, List.Subset.refl _, List.Subset.refl _⟩

theorem sustains_resetReachability (g : Graph) : Sustains g g.resetReachability := by
  obtain ⟨reachable, preds, heq⟩ := g.exists_withReach
  rw [heq]
  exact sustains_withReach g reachable preds

theorem sustains_killUnreachable (g : Graph) : Sustains g g.killUnreachable.2 := by
  have hgrows : Grows g g.killUnreachable.2 := by
    unfold killUnreachable
    dsimp only
    split
    · exact .refl g
    · exact .of_eq rfl rfl rfl rfl rfl rfl rfl
  refine .of_grows hgrows fun b block hb => .inr ?_
  rw [block?_killUnreachable] at hb
  exact ⟨block, (Option.filter_eq_some_iff.1 hb).1, List.Subset.refl _, List.Subset.refl _⟩

/-- Dropping the operands of a node. -/
theorem develops_dropOperands (g : Graph) (n : NodeId) :
    Develops g (g.modifyNode n fun node => { node with children := .none }) := by
  refine .of_modifyNode fun node _ => ⟨rfl, .inl rfl, .inr (.inr ⟨trivial, fun c hc => ?_⟩)⟩
  rw [operands_none] at hc
  cases hc

theorem sustains_dropOperands (g : Graph) (ns : List NodeId) : Sustains g (g.dropOperands ns) := by
  induction ns generalizing g with
  | nil => exact .refl g
  | cons n ns ih =>
    rw [dropOperands_cons]
    exact .trans (.of_blocks (develops_dropOperands g n) rfl) (ih _)

theorem sustains_dethread (g : Graph) : Sustains g g.dethread := by
  unfold dethread
  split
  · exact .refl g
  · exact (sustains_dropOperands g _).trans (sustains_form _ .loadStore)

theorem sustains_invalidate (g : Graph) : Sustains g g.invalidate :=
  sustains_of_eq rfl rfl rfl rfl rfl rfl rfl

theorem sustains_commitInsertions (g : Graph) : Sustains g g.commitInsertions.2 := by
  unfold commitInsertions
  split
  · exact .refl g
  · have hpending : Sustains g { g with pending := 0 }.invalidate :=
      sustains_of_eq rfl rfl rfl rfl rfl rfl rfl
    exact hpending.trans (sustains_dethread _)

/-! ## Threading -/

/-- What threading a block has done so far: blocks are what they were, and the phis found are
phis. -/
structure Threads (g : Graph) (s : Threaded) : Prop where
  develops : Develops g s.graph
  blocks : s.graph.blocks = g.blocks
  phis : ∀ p ∈ s.phis, s.graph.isPhi p = true

/-- **One node** of a block. -/
theorem Threads.step {s : Threaded} (hs : Threads g s) (n : NodeId) :
    Threads g (threadNode s n) := by
  rcases ThreadingOf.threadNode_cases s n with ⟨heq, _⟩ | ⟨node, l, hnode, _, hcase⟩
  · rw [heq]
    exact hs
  rcases hcase with ⟨_, heq⟩ | ⟨hkind, _, heq⟩ | ⟨hkind, _, heq⟩
  · rw [heq]
    exact ⟨hs.develops, hs.blocks, hs.phis⟩
  · rw [heq]
    have hd := develops_dropOperands s.graph n
    exact ⟨hs.develops.trans hd, hs.blocks, fun p hp => hd.isPhi (hs.phis p hp)⟩
  · rw [heq]
    have hadd := Develops.of_grows (s.graph.grows_addNode (phiOf l node))
    have hnew : (s.graph.addNode (phiOf l node)).2.isPhi s.graph.nodes.size = true :=
      isPhi_iff.2 ⟨phiOf l node, s.graph.node?_addNode_self _, rfl⟩
    -- the read comes to use the phi, which is there by now
    have hne : n ≠ s.graph.nodes.size := Nat.ne_of_lt (lt_size_of_node? hnode)
    have hkeep : ((s.graph.addNode (phiOf l node)).2.modifyNode n fun node =>
        { node with children := .one (.untyped s.graph.nodes.size) }).isPhi s.graph.nodes.size =
          true := by
      rw [isPhi, node?_modifyNode, if_neg hne]
      exact hnew
    have huse : Develops (s.graph.addNode (phiOf l node)).2
        ((s.graph.addNode (phiOf l node)).2.modifyNode n fun node =>
          { node with children := .one (.untyped s.graph.nodes.size) }) := by
      refine .of_modifyNode fun node _ => ⟨rfl, .inl rfl, .inr (.inr ⟨trivial, fun c hc => ?_⟩)⟩
      have hc : c = s.graph.nodes.size := by
        simpa [operands, edgesOf, Children.one, Edge.untyped, Edge.empty] using hc
      rw [hc]
      exact .inr (proper_of_isPhi hkeep)
    refine ⟨hs.develops.trans (hadd.trans huse), hs.blocks, fun p hp => ?_⟩
    rcases List.mem_append.1 hp with hp | hp
    · exact huse.isPhi (hadd.isPhi (hs.phis p hp))
    · obtain rfl := List.mem_singleton.1 hp
      exact hkeep

theorem Threads.run {s : Threaded} (hs : Threads g s) (ns : List NodeId) :
    Threads g (ns.foldl threadNode s) := by
  induction ns generalizing s with
  | nil => exact hs
  | cons n ns ih => exact ih (hs.step n)

theorem sustains_threadBlock (g : Graph) (b : BlockId) : Sustains g (g.threadBlock b) := by
  unfold threadBlock
  split
  · exact .refl g
  · rename_i block hb
    have hs := Threads.run (s := ⟨g, [], .ofLocals g.locals, .ofLocals g.locals⟩)
      ⟨.refl g, rfl, by simp⟩ block.nodes
    generalize block.nodes.foldl threadNode _ = s at hs ⊢
    have hgrows : Grows s.graph (s.graph.modifyBlock b fun block =>
        { block with phis := s.phis, head := s.head, tail := s.tail }) :=
      .of_eq rfl rfl rfl rfl rfl rfl rfl
    have hblock : ∀ d, s.graph.block? d = g.block? d := fun d => by rw [block?, block?, hs.blocks]
    refine .of_runs (hs.develops.trans (.of_grows hgrows)) ?_ ?_
    · rintro d p ⟨other, hother, hp⟩
      rw [block?_modifyBlock, hblock] at hother
      split at hother
      · obtain ⟨old, _, rfl⟩ := Option.map_eq_some_iff.1 hother
        exact .inr (hs.phis p hp)
      · exact .inl ⟨other, hother, hp⟩
    · rintro d m ⟨other, hother, hm⟩
      rw [block?_modifyBlock, hblock] at hother
      split at hother
      · obtain ⟨old, hold, rfl⟩ := Option.map_eq_some_iff.1 hother
        exact ⟨old, hold, hm⟩
      · exact ⟨other, hother, hm⟩

/-- A fold of steps each of which sustains. -/
theorem sustains_foldl {α : Type} {f : Graph → α → Graph} (hf : ∀ g a, Sustains g (f g a))
    (g : Graph) (as : List α) : Sustains g (as.foldl f g) := by
  induction as generalizing g with
  | nil => exact .refl g
  | cons a as ih => exact (hf g a).trans (ih (f g a))

theorem develops_linkPhi {preds : List BlockId} (hn : g.isPhi n = true) :
    Develops g (linkPhi preds g n) := by
  unfold linkPhi
  split
  · exact .refl g
  · exact .of_modifyNode fun node hnode => ⟨rfl, .inl rfl, .inl (kind_of_isPhi hn hnode)⟩

theorem blocks_linkPhi (preds : List BlockId) (g : Graph) (n : NodeId) :
    (linkPhi preds g n).blocks = g.blocks := by
  unfold linkPhi
  split <;> rfl

/-- The phis of a separate graph are phis, so linking them changes no other node. -/
theorem sustains_linkPhis (g : Graph) (b : BlockId) : Sustains g (g.linkPhis b) := by
  intro hg
  unfold linkPhis
  split
  · exact ⟨.refl g, hg⟩
  · rename_i block hb
    have hphis : ∀ p ∈ block.phis, g.isPhi p = true := fun p hp => hg.phi b p ⟨block, hb, hp⟩
    have hlink : ∀ (k : Graph) (ps : List NodeId), (∀ p ∈ ps, k.isPhi p = true) →
        Sustains k (ps.foldl (linkPhi block.preds) k) := by
      intro k ps
      induction ps generalizing k with
      | nil => exact fun _ => .refl k
      | cons p ps ih =>
        intro hps
        have hd : Develops k (linkPhi block.preds k p) :=
          develops_linkPhi (hps p List.mem_cons_self)
        refine .trans (.of_blocks hd (blocks_linkPhi _ _ _)) (ih _ fun q hq => ?_)
        exact hd.isPhi (hps q (List.mem_cons_of_mem _ hq))
    exact hlink g block.phis hphis hg

/-- **Threading the locals.** -/
theorem sustains_threadLocals (g : Graph) : Sustains g g.threadLocals := by
  have hreset := sustains_resetReachability g
  have hthread := sustains_foldl sustains_threadBlock g.resetReachability
    g.resetReachability.reachableIds
  have hlink := sustains_foldl sustains_linkPhis
    (g.resetReachability.reachableIds.foldl threadBlock g.resetReachability)
    g.resetReachability.reachableIds
  exact ((hreset.trans hthread).trans hlink).trans (sustains_form _ .threaded)

/-! ## Editing one slot -/

/-- The slots of a payload whose record exists lead somewhere. -/
theorem exists_slotTarget? {p : Payload} (hrecord : g.RecordIn p) (hslot : slot < g.slotCount p) :
    ∃ t, g.slotTarget? p slot = some t := by
  cases p with
  | jump t =>
    obtain rfl : slot = 0 := Nat.lt_one_iff.1 hslot
    exact ⟨t, rfl⟩
  | branch r =>
    obtain ⟨data, hdata⟩ : ∃ data, g.branches[r]? = some data :=
      ⟨_, Array.getElem?_eq_getElem hrecord⟩
    simp only [slotTarget?, hdata, Option.bind_eq_bind, Option.bind_some, BranchRecord.target?]
    have htwo : slot = 0 ∨ slot = 1 := by
      have hlt : slot < 2 := hslot
      omega
    rcases htwo with rfl | rfl
    · exact ⟨_, rfl⟩
    · exact ⟨_, rfl⟩
  | switch r =>
    obtain ⟨data, hdata⟩ : ∃ data, g.switches[r]? = some data :=
      ⟨_, Array.getElem?_eq_getElem hrecord⟩
    simp only [slotCount, hdata] at hslot
    simp only [slotTarget?, hdata, Option.bind_eq_bind, Option.bind_some, SwitchRecord.target?]
    split
    · exact ⟨_, rfl⟩
    · rename_i hnone
      have hlast : slot = data.cases.length := by
        have := List.getElem?_eq_none_iff.1 hnone
        omega
      rw [if_pos hlast]
      exact ⟨_, rfl⟩
  | _ => exact absurd hslot (Nat.not_lt_zero _)

theorem runs_of_terminalNode? (hterm : g.terminalNode? b = some (n, node)) : g.Runs b n := by
  obtain ⟨block, hb, hlast, _⟩ := terminalNode?_eq_some_iff.1 hterm
  exact ⟨block, hb, List.mem_of_getLast? hlast⟩

theorem holds_of_terminalNode? (hterm : g.terminalNode? b = some (n, node))
    (hr : node.payload.handle? = some r) : g.Holds n r := by
  obtain ⟨_, _, _, hnode, _⟩ := terminalNode?_eq_some_iff.1 hterm
  exact ⟨node, hnode, hr⟩

namespace Separate

variable (hg : g.Separate)

include hg

theorem ownTerminal (b : BlockId) : g.OwnTerminal b := by
  rintro d n node m other hne hb hd rfl
  exact hne (hg.apart d b n (runs_of_terminalNode? hd) (runs_of_terminalNode? hb))

/-- Blocks share no record of targets. -/
theorem not_sharesRecord (hne : d ≠ b) : ¬ SharesRecord g b d := by
  rintro ⟨⟨n, node⟩, ⟨m, other⟩, r, hb, hd, hboth⟩
  obtain ⟨r', hn, hm⟩ : ∃ r', node.payload.handle? = some r' ∧ other.payload.handle? = some r' := by
    rcases hboth with ⟨h₁, h₂⟩ | ⟨h₁, h₂⟩
    · exact ⟨(.branchTargets, r), by rw [h₁]; rfl, by rw [h₂]; rfl⟩
    · exact ⟨(.switchTable, r), by rw [h₁]; rfl, by rw [h₂]; rfl⟩
  have heq := singleOwner_iff.1 hg.owner b d n m r' (runs_of_terminalNode? hb)
    (runs_of_terminalNode? hd) (holds_of_terminalNode? hb hn) (holds_of_terminalNode? hd hm)
  exact hg.ownTerminal b d n node m other hne hb hd heq

theorem exists_successor? (hslot : slot < g.successorCount b) :
    ∃ t, g.successor? b slot = some t := by
  unfold successorCount at hslot
  cases hterm : g.terminalNode? b with
  | none => simp [hterm] at hslot
  | some e =>
    obtain ⟨n, node⟩ := e
    simp only [hterm] at hslot
    obtain ⟨_, _, _, hnode, _⟩ := terminalNode?_eq_some_iff.1 hterm
    obtain ⟨hmade, _⟩ := hg.wellMade (runs_of_terminalNode? hterm) hnode
    have hrecord : g.RecordIn node.payload := by
      by_cases hsome : node.payload.handle?.isSome = true
      · exact recordIn_of_admits (hmade.admits hsome)
      · cases hp : node.payload <;> simp [hp, Payload.handle?, RecordIn] at hsome ⊢
    rw [successor?_eq_slotTarget? hterm]
    exact exists_slotTarget? hrecord hslot

/-- **An edit of a slot changes that slot only**: it succeeds if the slot exists, and no other slot
of that block or of any other comes to lead elsewhere. -/
theorem setSuccessor_redirects (hslot : slot < g.successorCount b) (t : BlockId) :
    ∃ h, g.setSuccessor b slot t = .ok h ∧
      (∀ d i, h.successor? d i = if d = b ∧ i = slot then some t else g.successor? d i) ∧
      ∀ d, h.successorCount d = g.successorCount d := by
  obtain ⟨old, hold⟩ := hg.exists_successor? hslot
  obtain ⟨h, hok, hr⟩ := setSuccessor_of_ownTerminal (hg.ownTerminal b) hold t
  refine ⟨h, hok, fun d i => ?_, hr.toRetargeted.successorCount_eq⟩
  by_cases hd : d = b
  · subst hd
    rw [hr.self]
    simp
  · rw [hr.apart d hd (hg.not_sharesRecord hd), if_neg fun h => hd h.1]

end Separate

end Unroller.Graph
