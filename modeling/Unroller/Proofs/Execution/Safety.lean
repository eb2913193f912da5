import Mathlib.Tactic
import Unroller.Proofs.Execution.Body
import Unroller.Proofs.Graph.Building

/-!
# Runs of valid graphs do not go wrong in control flow

A run can fault in many ways.  Those that would mean that the graph is broken do not happen in a
graph without defects, and a missing operand value always has a reason that the graph shows.

* `Explained`: the faults that remain, each operand fault with its reason.
* `evalNode_meets`: the faults and effects of one node.  Of what can make a node fault, a place in a
  valid graph excludes most (`Placed.explained`), and it bounds what a node can do (`Placed.suits`).
* `Standing`: where a run can stand, and which values it has there.
* `step_safe`, `run_safe`: one step keeps to this, and so does a run.
-/

namespace Unroller

/-- Whether a node is a phi or of another kind without a value. -/
def Graph.isSilent (g : Graph) (n : NodeId) : Bool := (g.node? n).any fun node => node.kind.isSilent

theorem Graph.isSilent_of_isPhi {g : Graph} {n : NodeId} (h : g.isPhi n = true) :
    g.isSilent n = true := by
  obtain ⟨node, hnode, hk⟩ := (Option.any_eq_true _ _).1 h
  simp only [beq_iff_eq] at hk
  simp [isSilent, hnode, hk, Kind.isSilent, Kind.isBookkeeping, Kind.isZeroCost]

theorem Graph.isSilent_eq {g : Graph} {n : NodeId} {node : Node} (h : g.node? n = some node) :
    g.isSilent n = node.kind.isSilent := by
  simp [isSilent, h]

namespace Machine

open Unroller.Graph (entry)

variable {g : Graph} {b : BlockId} {n : NodeId} {node : Node} {values : Values}
  {store store' : Store}

/-! ## Faults -/

/-- The faults of a run in a valid graph.  No control-flow fault is among them; an operand is
missing because its slot is empty, or because it names a node that has no value. -/
def Explained (g : Graph) : RunFault → Prop
  | .deadBlock _ | .fellThrough _ | .missingNode _ | .noLocal _ | .noTarget _ | .noSuccessor _ _
  | .noSwitchTable _ | .danglingSwitchTable _ => False
  | .lacksOperand n i => ∃ node, g.node? n = some node ∧ (node.child i).node? = none
  | .noValue c n => (∃ node i, g.node? n = some node ∧ (node.child i).node? = some c) ∧
    g.isSilent c = true
  | .elementWithoutValue n => ∃ node, g.node? n = some node ∧
    ∃ c ∈ g.operands node, g.isSilent c = true
  | _ => True

/-- A computation that faults for an explained reason only. -/
abbrev Safe {α : Type} (g : Graph) (x : Except RunFault α) : Prop :=
  Meets (Explained g) (fun _ => True) x

/-! ## Operands -/

/-- All operands of a node have a value, but those that are silent. -/
def Seen (g : Graph) (values : Values) (node : Node) : Prop :=
  ∀ c ∈ g.operands node, g.isSilent c = true ∨ ∃ v, values.lookup c = some v

/-! ## Single nodes -/

/-- The effect a node of a kind can have in a valid graph: a value, or none if the kind is silent;
only nodes that end blocks go elsewhere, and only to live blocks. -/
def Suits (g : Graph) (kind : Kind) : Effect → Prop
  | .value _ => kind.isTerminal = false ∧ kind.isSilent = false
  | .quiet => kind.isTerminal = false ∧ kind.isSilent = true
  | .goto t => kind.isTerminal = true ∧ g.isLive t = true
  | .done _ => kind.isTerminal = true

/-- What a node of a valid block can rely on. -/
structure Placed (g : Graph) (b : BlockId) (n : NodeId) (node : Node) : Prop where
  admits : g.admits node.kind node.payload = true
  last : node.kind.isTerminal = true → g.terminalNode? b = some (n, node)
  successor : ∀ slot < g.successorCount b, ∃ t, g.successor? b slot = some t ∧ g.isLive t = true

theorem Placed.isLive_successor {slot : Nat} {t : BlockId} (h : Placed g b n node)
    (ht : g.successor? b slot = some t) : g.isLive t = true := by
  obtain ⟨t', ht', hlive⟩ := h.successor slot (Graph.slot_lt_of_successor? ht)
  rw [ht] at ht'
  obtain rfl := Option.some.inj ht'
  exact hlive

theorem Placed.isLive_slotTarget {slot : Nat} {t : BlockId} (h : Placed g b n node)
    (hterm : node.kind.isTerminal = true) (ht : g.slotTarget? node.payload slot = some t) :
    g.isLive t = true := by
  have hsucc : g.successor? b slot = some t := by simp [Graph.successor?, h.last hterm, ht]
  exact h.isLive_successor hsucc

theorem Placed.exists_slot (h : Placed g b n node)
    (hk : node.kind = .getLocal ∨ node.kind = .setLocal) : ∃ l, node.slot? = some l := by
  have hadmits := h.admits
  rcases hk with hk | hk <;> cases hp : node.payload <;>
    simp_all [Graph.admits, Kind.hasLocal, Kind.isConstant, Node.slot?, Payload.slot?]

theorem Placed.exists_branch (h : Placed g b n node) (hk : node.kind = .branch) {slot : Nat}
    (hslot : slot < 2) : ∃ t, g.successor? b slot = some t ∧ g.isLive t = true := by
  obtain ⟨record, -, hp⟩ := Graph.branch_of_admits hk h.admits
  refine h.successor slot ?_
  rw [Graph.successorCount, h.last (by simp [hk, Kind.isTerminal])]
  simpa [hp, Graph.slotCount] using hslot

theorem Placed.explained (hnode : g.node? n = some node) (hseen : Seen g values node)
    (hplaced : Placed g b n node) {fault : RunFault} (h : Cause g b n node values fault) :
    Explained g fault := by
  have hsilent : ∀ c ∈ g.operands node, values.lookup c = none → g.isSilent c = true := by
    intro c hc hnone
    rcases hseen c hc with hsilent | ⟨v, hv⟩
    · exact hsilent
    · rw [hnone] at hv
      cases hv
  cases fault with
  | deadBlock _ | fellThrough _ | missingNode _ => exact h
  | lacksOperand m i =>
    obtain ⟨rfl, hi⟩ := h
    exact ⟨node, hnode, hi⟩
  | noValue c m =>
    obtain ⟨rfl, ⟨i, hc⟩, hnone⟩ := h
    exact ⟨⟨node, i, hnode, hc⟩, hsilent c (mem_operands_of_child hc) hnone⟩
  | elementWithoutValue m =>
    obtain ⟨rfl, c, hc, hnone⟩ := h
    exact ⟨node, hnode, c, hc, hsilent c hc hnone⟩
  | noLocal m =>
    obtain ⟨-, hk, hslot⟩ := h
    obtain ⟨l, hl⟩ := hplaced.exists_slot hk
    rw [hslot] at hl
    cases hl
  | noTarget m =>
    obtain ⟨-, hk, hp⟩ := h
    obtain ⟨t, ht⟩ := Graph.jump_of_admits hk hplaced.admits
    exact hp t ht
  | noSuccessor m slot =>
    obtain ⟨-, hk, hslot, hnone⟩ := h
    obtain ⟨t, ht, -⟩ := hplaced.exists_branch hk hslot
    rw [hnone] at ht
    cases ht
  | noSwitchTable m =>
    obtain ⟨-, hk, hp⟩ := h
    obtain ⟨record, -, hrecord⟩ := Graph.switch_of_admits hk hplaced.admits
    exact hp record hrecord
  | danglingSwitchTable m =>
    obtain ⟨-, hk, record, hp, hnone⟩ := h
    obtain ⟨record', hlt, hp'⟩ := Graph.switch_of_admits hk hplaced.admits
    obtain rfl : record = record' := Payload.switch.inj (hp.symm.trans hp')
    exact absurd (Array.getElem?_eq_none_iff.1 hnone) (not_le.2 hlt)
  | _ => trivial

theorem Placed.suits (hplaced : Placed g b n node) {effect : Effect}
    (h : Yields g b n node values store effect store') : Suits g node.kind effect := by
  cases h with
  | value _ hk | quiet hk => exact hk
  | written _ _ hk | created _ hk | loaded _ _ hk =>
    rw [hk]
    exact ⟨rfl, rfl⟩
  | stored _ _ _ hk =>
    rcases hk with hk | hk <;> rw [hk] <;> exact ⟨rfl, rfl⟩
  | goto t slot hk ht =>
    rcases ht with ht | ht
    · exact ⟨hk, hplaced.isLive_slotTarget hk ht⟩
    · exact ⟨hk, hplaced.isLive_successor ht⟩
  | done _ hk =>
    rw [hk]
    rfl

/-- **One node of a valid graph** faults only for a reason that the graph shows, and has the effect
that suits its kind. -/
theorem evalNode_meets (hnode : g.node? n = some node) (hseen : Seen g values node)
    (hplaced : Placed g b n node) (store : Store) :
    Meets (Explained g) (fun out => Suits g node.kind out.1) (evalNode g b n values store) :=
  (evalNode_spec hnode store).imp (fun _ => hplaced.explained hnode hseen) fun _ => hplaced.suits

/-! ## Where a run stands -/

/-- A run stands at a node of a live block, has not been told where to go yet, and holds one value
for each node of the block before it that is not silent, the latest first. -/
def Standing (g : Graph) (s : State) : Prop :=
  ∃ block done, g.block? s.block = some block ∧ block.nodes = done ++ s.node :: s.rest ∧
    s.next = none ∧
    s.values.map Prod.fst = (done.filter fun c => !g.isSilent c).reverse

theorem exists_lookup_of_mem {c : NodeId} (h : c ∈ values.map Prod.fst) :
    ∃ v, values.lookup c = some v := by
  induction values with
  | nil => simp at h
  | cons e values ih =>
    rw [List.lookup_cons]
    by_cases hc : c = e.1
    · exact ⟨e.2, by simp [hc]⟩
    · have hne : (c == e.1) = false := by simpa using hc
      rw [hne]
      exact ih (by simpa [hc] using h)

/-- The node where a run stands, and what it can rely on. -/
theorem Standing.exists_node (hg : g.WellFormed) {s : State} (h : Standing g s) :
    ∃ node, g.node? s.node = some node ∧ g.InRange node.children ∧
      node.kind.isTerminal = s.rest.isEmpty ∧ Placed g s.block s.node node ∧
      Seen g s.values node := by
  obtain ⟨block, done, hb, hsplit, _, hvalues⟩ := h
  have hok := hg.block s.block block hb
  obtain ⟨node, hnode⟩ :=
    Graph.exists_node? (hg.exists_node s.block block hb s.node (by simp [hsplit]))
  have hnodeOk := hok.node done s.node s.rest hsplit node hnode
  refine ⟨node, hnode, hnodeOk.inRange, hnodeOk.terminal, ⟨hnodeOk.admits, ?_, hok.successor⟩, ?_⟩
  · intro hterm
    rw [hnodeOk.terminal, List.isEmpty_iff] at hterm
    refine Graph.terminalNode?_eq_some_iff.2 ⟨block, hb, by simp [hsplit, hterm], hnode, ?_⟩
    simp [hnodeOk.terminal, hterm]
  · intro c hc
    by_cases hsilent : g.isSilent c = true
    · exact .inl hsilent
    · refine .inr (exists_lookup_of_mem ?_)
      rcases hnodeOk.visible c hc with hdone | hphi
      · rw [hvalues, List.mem_reverse, List.mem_filter]
        exact ⟨hdone, by simpa using hsilent⟩
      · exact absurd (Graph.isSilent_of_isPhi (hok.phis c hphi)) hsilent

theorem standing_enter (hg : g.WellFormed) (store : Store) (steps : Nat)
    (hlive : g.isLive b = true) : ∃ s, enter g b store steps = .ok s ∧ Standing g s := by
  obtain ⟨block, hb⟩ := Graph.isLive_iff.1 hlive
  obtain ⟨n, rest, hn, hs⟩ := enter_of_block? store steps hb (hg.block b block hb).ne_nil
  exact ⟨_, hs, block, [], hb, hn.symm, rfl, rfl⟩

/-- From a node that does not end its block a run moves on to the next one. -/
theorem Standing.advance {s : State} {effect : Effect} (hs : Standing g s)
    (hnode : g.node? s.node = some node) (hterm : node.kind.isTerminal = s.rest.isEmpty)
    (hplain : effect = .quiet ∨ ∃ v, effect = .value v) (hsuits : Suits g node.kind effect)
    (store' : Store) :
    ∃ s', Machine.advance g (s.after effect store') = .ok s' ∧ Standing g s' := by
  obtain ⟨block, done, hb, hsplit, hnext, hvalues⟩ := hs
  have hsilent := Graph.isSilent_eq hnode
  cases hrest : s.rest with
  | nil =>
    rw [hrest] at hterm
    rcases hplain with rfl | ⟨v, rfl⟩ <;> simp [Suits, hterm] at hsuits
  | cons m rest =>
    rw [hrest] at hsplit
    have hsplit' : block.nodes = (done ++ [s.node]) ++ m :: rest := by simp [hsplit]
    rcases hplain with rfl | ⟨v, rfl⟩
    · refine ⟨_, by simp [Machine.advance, State.after, hrest]; rfl, ?_⟩
      refine ⟨block, done ++ [s.node], hb, hsplit', hnext, ?_⟩
      simp [hvalues, hsilent, hsuits.2]
    · refine ⟨_, by simp [Machine.advance, State.after, hrest]; rfl, ?_⟩
      refine ⟨block, done ++ [s.node], hb, hsplit', hnext, ?_⟩
      simp [hvalues, hsilent, hsuits.2]

/-- What a step from a standing run leads to. -/
def StepOk (g : Graph) : Except RunFault Outcome → Prop :=
  Meets (Explained g) fun
    | .running s => Standing g s
    | .returned _ => True

/-- **One step.** -/
theorem step_safe (hg : g.WellFormed) {s : State} (hs : Standing g s) : StepOk g (step g s) := by
  obtain ⟨node, hnode, _, hterm, hplaced, hseen⟩ := hs.exists_node hg
  have hmeets := evalNode_meets hnode hseen hplaced s.store
  rw [step]
  cases hev : evalNode g s.block s.node s.values s.store with
  | error fault => rwa [hev] at hmeets
  | ok out =>
    obtain ⟨effect, store'⟩ := out
    rw [hev] at hmeets
    have hsuits : Suits g node.kind effect := hmeets
    cases effect with
    | done v => trivial
    | value v =>
      obtain ⟨s', hs', hstanding⟩ := hs.advance hnode hterm (.inr ⟨v, rfl⟩) hsuits store'
      simp only [hs']
      exact hstanding
    | quiet =>
      obtain ⟨s', hs', hstanding⟩ := hs.advance hnode hterm (.inl rfl) hsuits store'
      simp only [hs']
      exact hstanding
    | goto t =>
      have hrest : s.rest = [] := by simpa [hsuits.1] using hterm.symm
      obtain ⟨s', hs', hstanding⟩ := standing_enter hg store' (s.steps + 1) hsuits.2
      simp only [Machine.advance, State.after, hrest, hs']
      exact hstanding

/-! ## Whole runs -/

/-- The states that a run from the given store passes through. -/
inductive Passes (g : Graph) (store : Store) : State → Prop where
  | start {s : State} (enter : enter g entry store 0 = .ok s) : Passes g store s
  | step {s s' : State} (passes : Passes g store s) (step : step g s = .ok (.running s')) :
    Passes g store s'

theorem Passes.standing (hg : g.WellFormed) {s : State} (h : Passes g store s) : Standing g s := by
  induction h with
  | start hs =>
    obtain ⟨s', hs', hstanding⟩ := standing_enter hg store 0 hg.entry_live
    rw [hs'] at hs
    obtain rfl := Except.ok.inj hs
    exact hstanding
  | step _ hstep ih =>
    have hsafe := step_safe hg ih
    rw [hstep] at hsafe
    exact hsafe

theorem exec_explained (hg : g.WellFormed) (budget : Nat) {s : State} (hs : Standing g s) :
    Safe g (exec g budget s) := by
  induction budget generalizing s with
  | zero => trivial
  | succ budget ih =>
    have hsafe := step_safe hg hs
    rw [exec]
    cases hstep : step g s with
    | error fault => rwa [hstep] at hsafe
    | ok outcome =>
      rw [hstep] at hsafe
      cases outcome with
      | returned e => trivial
      | running s' => exact ih hsafe

end Machine

end Unroller
