import Mathlib.Tactic
import Unroller.Loop.Shape
import Unroller.Proofs.Cloning.Cloneability
import Unroller.Proofs.Loop.Counting
import Unroller.Proofs.Loop.Progression

/-!
# What stops a look at a loop

A look at a loop of a well-formed graph comes upon no missing node, and the test for cloneability
always answers.  What is left is the counter of iterations, which can overflow under the largest
limit.

* `Refusal.StopsFor`: a rejection, or a stop for one of the given causes.
* `meets_inductionVariable`, `meets_measure`: nothing stops the search for the variable or the body
  scan.
* `meets_tripCount`: counting stops for the counter only.
* `meets_loopShape`: so does the look as a whole.
-/

namespace Unroller

/-- A rejection, or a stop for one of the given causes. -/
def Refusal.StopsFor (causes : Error → Prop) : Refusal → Prop
  | .rejected _ => True
  | .stopped e => causes e

/-- The only cause that there is in a well-formed graph: the counter overflows under the largest
limit. -/
def CounterOverflows (config : UnrollConfig) (e : Error) : Prop :=
  e = .counterOverflow ∧ config.maxIterations = Trips.last

variable {g : Graph} {b : BlockId} {n c : NodeId} {node : Node} {block : Block}
  {causes : Error → Prop} {config : UnrollConfig}

theorem Refusal.meets_rejecting {α : Type} {E : α → Prop} {r : Except Rejection α}
    (h : ∀ a, r = .ok a → E a) : Meets (StopsFor causes) E (rejecting r) := by
  cases r with
  | error reason => trivial
  | ok a => exact h a rfl

namespace Graph

/-! ## The nodes looked at -/

/-- An operand of what a block runs is listed there. -/
theorem WellFormed.child_mem (hg : g.WellFormed) (hb : g.block? b = some block)
    (hn : n ∈ block.nodes) (hnode : g.node? n = some node) {i : Nat}
    (hc : (node.child i).node? = some c) : c ∈ block.phis ++ block.nodes :=
  hg.operand_mem hb hn hnode (Machine.mem_operands_of_child hc)

theorem WellFormed.exists_listed (hg : g.WellFormed) (hb : g.block? b = some block)
    (hn : n ∈ block.phis ++ block.nodes) : ∃ node, g.node? n = some node :=
  exists_node? (hg.exists_node b block hb n hn)

theorem WellFormed.require_nodesOf (hg : g.WellFormed) (blocks : List BlockId) :
    g.require (blocks.flatMap g.nodesOf) = .ok () := by
  rw [require_eq_ok_iff]
  intro n hn
  obtain ⟨b, _, hn⟩ := List.mem_flatMap.1 hn
  obtain ⟨block, hb, hmem⟩ := mem_nodesOf.1 hn
  exact Option.isSome_iff_exists.2 (hg.exists_listed hb (List.mem_append_right _ hmem))

theorem mem_nodes_of_terminal? (h : g.terminal? b = some n) :
    ∃ block, g.block? b = some block ∧ n ∈ block.nodes := by
  simp only [terminal?, terminalNode?, Option.map_eq_some_iff, Option.bind_eq_bind,
    Option.bind_eq_some_iff] at h
  obtain ⟨_, ⟨block, hb, last, hlast, node, hnode, hterminal⟩, rfl⟩ := h
  split at hterminal
  · obtain rfl := Option.some.inj hterminal
    exact ⟨block, hb, List.mem_of_getLast? hlast⟩
  · cases hterminal

/-- The condition of a branch exists, and so does what a negation negates. -/
theorem meets_strippedCondition (hg : g.WellFormed) (hb : g.block? b = some block)
    (hn : n ∈ block.nodes) :
    Meets (Refusal.StopsFor causes) (fun out => g.require [out.1] = .ok ())
      (g.strippedCondition n) := by
  have hrequire : ∀ {m}, m ∈ block.phis ++ block.nodes → g.require [m] = .ok () := by
    intro m hm
    obtain ⟨other, hother⟩ := hg.exists_listed hb hm
    simp [require_eq_ok_iff, hother]
  obtain ⟨branch, hbranch⟩ := hg.exists_listed hb (List.mem_append_right _ hn)
  rw [strippedCondition]
  split
  · trivial
  rename_i condition hcondition
  have hmem := hg.child_mem hb hn hbranch ((firstOperand?_eq_some hbranch).1 hcondition)
  obtain ⟨other, hother⟩ := hg.exists_listed hb hmem
  simp only [node_eq_ok_iff.2 hother, Refusal.stopping_ok, bind, Except.bind]
  split
  · rename_i hnot
    split
    · trivial
    rename_i negated hnegated
    -- a negation is no phi, so what it negates is listed in the block as well
    have hrun : condition ∈ block.nodes := by
      rcases List.mem_append.1 hmem with hphi | hrun
      · rw [hg.kind_eq_phi hb hphi hother] at hnot
        cases hnot
      · exact hrun
    exact hrequire (hg.child_mem hb hrun hother hnegated)
  · exact hrequire hmem

/-- **The search for the variable** of a loop is not stopped. -/
theorem meets_inductionVariable (hg : g.WellFormed) (loop : NaturalLoop) (preHeader tail : BlockId)
    (inverse : Bool) :
    Meets (Refusal.StopsFor causes) (fun _ => True)
      (g.inductionVariable loop preHeader tail inverse) := by
  rw [inductionVariable]
  split
  · trivial
  rename_i branch hbranch
  obtain ⟨block, hb, hmem⟩ := mem_nodes_of_terminal? hbranch
  refine (meets_strippedCondition hg hb hmem).next fun out hcondition => ?_
  have hbefore := hg.require_nodesOf [preHeader]
  rw [List.flatMap_singleton] at hbefore
  simp only [hcondition, hbefore, hg.require_nodesOf loop.blocks, Refusal.stopping_ok, bind,
    Except.bind]
  split
  · trivial
  rename_i test htest
  split
  case h_2 => trivial
  rename_i store hstore
  split
  · trivial
  rename_i initial hinitial
  have hinitial : g.require [initial] = .ok () := by
    have hlisted : store ∈ g.storesTo preHeader test.slot := by simp [hstore]
    obtain ⟨before, hbefore, hrun⟩ := mem_nodesOf.1 (List.mem_of_mem_filter hlisted)
    obtain ⟨storeNode, hstoreNode⟩ := hg.exists_listed hbefore (List.mem_append_right _ hrun)
    obtain ⟨other, hother⟩ := hg.exists_listed hbefore
      (hg.child_mem hbefore hrun hstoreNode ((firstOperand?_eq_some hstoreNode).1 hinitial))
    simp [require_eq_ok_iff, hother]
  simp only [hinitial, Refusal.stopping_ok]
  split
  · split <;> trivial
  · trivial

end Graph

/-! ## The body -/

namespace BodyScan

variable {limit : Option Nat} {s : BodyScan}

/-- The verdicts so far are right, and no search is under way. -/
structure Settled (g : Graph) (s : BodyScan) : Prop where
  exact : s.scan.Exact g
  visiting : s.scan.visiting = []

theorem meets_node (hg : g.WellFormed) (hb : g.block? b = some block) (hn : n ∈ block.nodes)
    (hs : s.Settled g) :
    Meets (Refusal.StopsFor causes) (Settled g) (BodyScan.node g limit s n) := by
  have hlisted : n ∈ block.phis ++ block.nodes := List.mem_append_right _ hn
  obtain ⟨other, hother⟩ := hg.exists_listed hb hlisted
  obtain ⟨⟨verdict, scan⟩, hcheck, hsettles⟩ :=
    Scan.exists_settles_check hs.exact hs.visiting (hg.grounded hb hlisted)
  have hnext : ∀ stats, Settled g ⟨stats, scan⟩ := fun stats =>
    ⟨hsettles.exact, hsettles.visiting.trans hs.visiting⟩
  simp only [BodyScan.node, hother, hcheck]
  split
  · trivial
  cases verdict with
  | false => trivial
  | true =>
    cases limit with
    | none => exact hnext _
    | some limit =>
      simp only
      split
      · trivial
      · exact hnext _

theorem meets_block (hg : g.WellFormed) (hs : s.Settled g) :
    Meets (Refusal.StopsFor causes) (Settled g) (BodyScan.block g limit s b) := by
  rw [BodyScan.block]
  split
  · trivial
  rename_i found hfound
  split
  · exact hs
  split
  · trivial
  exact Meets.foldlM (fun s n hn hs => meets_node hg hfound hn hs) ⟨hs.exact, hs.visiting⟩

/-- **The body scan** is not stopped. -/
theorem meets_measure (hg : g.WellFormed) (blocks : List BlockId) :
    Meets (Refusal.StopsFor causes) (fun _ => True) (measure g limit blocks) := by
  have hscan : Meets (Refusal.StopsFor causes) (Settled g)
      (blocks.foldlM (BodyScan.block g limit) {}) :=
    .foldlM (fun s b _ hs => meets_block hg hs) ⟨Scan.exact_empty, rfl⟩
  rw [measure]
  generalize blocks.foldlM (BodyScan.block g limit) {} = result at hscan
  cases result with
  | error refusal => exact hscan
  | ok s => trivial

end BodyScan

/-! ## The look as a whole -/

/-- **Counting** stops for the counter only. -/
theorem InductionVariable.meets_tripCount (v : InductionVariable) (inverse : Bool) :
    Meets (Refusal.StopsFor (CounterOverflows config)) (fun _ => True)
      (v.tripCount inverse config.maxIterations) := by
  cases hcount : v.tripCount inverse config.maxIterations with
  | ok count => trivial
  | error refusal =>
    cases refusal with
    | rejected reason => trivial
    | stopped e =>
      cases hinitial : v.initial with
      | node m => simp [tripCount, ValueSource.constant?, hinitial] at hcount
      | constant initial =>
        cases hbound : v.bound with
        | node m => simp [tripCount, ValueSource.constant?, hinitial, hbound] at hcount
        | constant bound =>
          obtain ⟨rfl, hlimit, _⟩ := (tripCount_eq_stopped_iff hinitial hbound).1 hcount
          exact ⟨rfl, UInt32.toNat_inj.1 hlimit⟩

/-- **A look at a loop** of a well-formed graph is stopped by nothing but the counter. -/
theorem Graph.meets_loopShape (hg : g.WellFormed) (config : UnrollConfig) (loop : NaturalLoop) :
    Meets (Refusal.StopsFor (CounterOverflows config)) (fun _ => True)
      (g.loopShape config loop) := by
  rw [loopShape]
  refine .bind (Refusal.meets_rejecting fun _ _ => trivial) fun preHeader => ?_
  refine .bind (Refusal.meets_rejecting fun _ _ => trivial) fun bottom => ?_
  refine .bind (meets_inductionVariable hg ..) fun out => ?_
  refine .bind (out.1.meets_tripCount out.2) fun iterations => ?_
  refine .bind (BodyScan.meets_measure hg _) fun body => ?_
  exact .bind (Refusal.meets_rejecting fun _ _ => trivial) fun _ => trivial

/-- Where counting stops, so does the look. -/
theorem Graph.loopShape_of_stopped {loop : NaturalLoop} {p : BlockId} {bottom : LoopTail}
    {v : InductionVariable} {inverse : Bool} {e : Error} (hpre : g.preHeader loop = .ok p)
    (hbottom : g.loopTail loop = .ok bottom)
    (hv : g.inductionVariable loop p bottom.tail (bottom.inLoopSlot == 1) = .ok (v, inverse))
    (hcount : v.tripCount inverse config.maxIterations = .error (.stopped e)) :
    g.loopShape config loop = .error (.stopped e) := by
  rw [loopShape, hpre]
  simp only [bind, Except.bind, Refusal.rejecting_ok, hbottom, hv, hcount]

end Unroller
