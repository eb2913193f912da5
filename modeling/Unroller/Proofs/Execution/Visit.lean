import Mathlib.Tactic
import Unroller.Proofs.Execution.SingleNode
import Unroller.Proofs.Graph.WellFormed

/-!
# Runs, block by block

A visit of a block evaluates its body and then picks a successor slot or returns.  Seen from block
to block, a run of a well-formed graph is a sequence of visits.

* `visit` is what one visit does to the store, and how it ends; it does not say where a slot leads.
* `trail` lists the blocks that a run enters, whatever it ends in, and `itinerary` starts with the
  entry.
* `run_visit_steps`: what a run does from the head of a block is one visit, in as many steps as the
  block has nodes, and then the rest.
* `follows_itinerary`: the blocks a run enters follow one another by visits.
* `run_ok_iff`: a run returns under some budget exactly when the visits from the entry do.
-/

namespace Unroller.Machine

open Unroller.Graph (entry)

/-! ## Visits -/

/-- What the last node of a block decides. -/
inductive Decision where
  /-- To go on by a successor slot. -/
  | slot (i : Nat)
  /-- To return a value. -/
  | ret (v : Value)
deriving DecidableEq

/-- The decision of a terminal, given the values of the visit so far. -/
def decision (g : Graph) (values : Values) (id : NodeId) (node : Node) : Option Decision :=
  match node.kind with
  | .jump => some (.slot 0)
  | .branch => (operand values id node 0).toOption.map fun v => .slot (if v.isTruthy then 0 else 1)
  | .switch =>
    (intOperand values id node 0).toOption.bind fun v =>
      match node.payload with
      | .switch record =>
        (g.switches[record]?).map fun r => .slot (r.cases.findIdx fun c => c.value == v)
      | _ => none
  | .ret =>
    if (node.child 0).isSet then (operand values id node 0).toOption.map .ret
    else some (.ret .undefined)
  | _ => none

/-- Evaluates nodes that do not end the visit, in order. -/
def evalBody (g : Graph) (b : BlockId) : List NodeId → Values → Store → Option (Values × Store)
  | [], values, store => some (values, store)
  | n :: rest, values, store =>
    match evalNode g b n values store with
    | .ok (.value v, store) => evalBody g b rest ((n, v) :: values) store
    | .ok (.quiet, store) => evalBody g b rest values store
    | _ => none

/-- How a visit of a block ends. -/
inductive Exit where
  | leave (slot : Nat) (store : Store)
  | returned (v : Value) (store : Store)
deriving DecidableEq

/-- The end of a visit by a decision. -/
def Decision.exit (store : Store) : Decision → Exit
  | .slot i => .leave i store
  | .ret v => .returned v store

/-- The evaluation of a list of nodes the last of which ends the visit. -/
def evalNodes (g : Graph) (b : BlockId) (nodes : List NodeId) (store : Store) : Option Exit := do
  let last ← nodes.getLast?
  let (values, store) ← evalBody g b nodes.dropLast [] store
  let node ← g.node? last
  (decision g values last node).map (·.exit store)

/-- One visit of a block; `none` when it faults. -/
def visit (g : Graph) (b : BlockId) (store : Store) : Option Exit :=
  (g.block? b).bind fun block => evalNodes g b block.nodes store

/-- The number of steps that a visit of a block takes when it does not fault: one for each node. -/
def stepCount? (g : Graph) (b : BlockId) : Option Nat :=
  (g.block? b).map fun block => block.nodes.length

/-! ## The blocks a run enters -/

/-- The blocks entered within a budget, the current one not counted. -/
def trail (g : Graph) : (budget : Nat) → State → List BlockId
  | 0, _ => []
  | budget + 1, s =>
    match step g s with
    | .ok (.running t) => (if s.rest.isEmpty then [t.block] else []) ++ trail g budget t
    | _ => []

/-- The blocks that a run enters, in order. -/
def itinerary (g : Graph) (store : Store) (budget : Nat) : List BlockId :=
  match enter g entry store 0 with
  | .ok s => s.block :: trail g budget s
  | .error _ => []

/-- `rest` are the blocks entered one after another from the head of a block, and `v?` is the value
if the last of them returns. -/
inductive Follows (g : Graph) : BlockId → Store → List BlockId → Option Value → Prop where
  | stop {b : BlockId} {store : Store} : Follows g b store [] none
  | returned {b : BlockId} {store final : Store} {v : Value}
    (visit : visit g b store = some (.returned v final)) : Follows g b store [] (some v)
  | step {b t : BlockId} {store next : Store} {slot : Nat} {rest : List BlockId}
    {v? : Option Value} (visit : visit g b store = some (.leave slot next))
    (target : g.successor? b slot = some t) (follows : Follows g t next rest v?) :
    Follows g b store (t :: rest) v?

/-- The visits from a block on come to a return. -/
inductive Returns (g : Graph) : BlockId → Store → Value → Store → Prop where
  | here {b : BlockId} {store final : Store} {v : Value}
    (visit : visit g b store = some (.returned v final)) : Returns g b store v final
  | step {b t : BlockId} {store next final : Store} {slot : Nat} {v : Value}
    (visit : visit g b store = some (.leave slot next)) (target : g.successor? b slot = some t)
    (returns : Returns g t next v final) : Returns g b store v final

/-! ## Single nodes -/

variable {g : Graph} {b t : BlockId} {n : NodeId} {node : Node} {values : Values}
  {store store' : Store}

/-- What a node that does not end blocks can do: it has a value or is quiet, and only a write of a
local touches the locals. -/
structure Plain (node : Node) (operand : Except RunFault Value) (store : Store) (effect : Effect)
    (store' : Store) : Prop where
  effect : effect = .quiet ∨ ∃ v, effect = .value v
  locals : store'.locals = store.locals ∨ ∃ l v, node.kind = .setLocal ∧ node.slot? = some l ∧
    operand = .ok v ∧ store' = store.setLocal l v

theorem Plain.value {operand : Except RunFault Value} {v : Value}
    (h : store'.locals = store.locals) : Plain node operand store (.value v) store' :=
  ⟨.inr ⟨v, rfl⟩, .inl h⟩

theorem Plain.quiet {operand : Except RunFault Value} (h : store'.locals = store.locals) :
    Plain node operand store .quiet store' :=
  ⟨.inl rfl, .inl h⟩

/-- A node that does not end blocks is plain. -/
theorem plain_evalNode {effect : Effect} (hnode : g.node? n = some node)
    (hterm : node.kind.isTerminal = false)
    (h : evalNode g b n values store = .ok (effect, store')) :
    Plain node (operand values n node 0) store effect store' := by
  cases yields_of_evalNode hnode h with
  | value _ _ | created _ _ | loaded _ _ _ => exact .value rfl
  | quiet _ | stored _ _ _ _ _ => exact .quiet rfl
  | written l v hk hslot hv => exact ⟨.inl rfl, .inr ⟨l, v, hk, hslot, hv, rfl⟩⟩
  | goto _ _ hk _ => simp [hk] at hterm
  | done _ hk => simp [hk, Kind.isTerminal] at hterm

/-- A terminal goes where its decision says, and leaves the store alone. -/
theorem evalNode_terminal (values : Values) (store : Store) (hnode : g.node? n = some node)
    (hlast : g.terminalNode? b = some (n, node))
    (hadmits : g.admits node.kind node.payload = true) :
    match decision g values n node with
    | none => ∃ fault, evalNode g b n values store = .error fault
    | some (.ret v) => evalNode g b n values store = .ok (.done v, store)
    | some (.slot i) => ∀ t, g.successor? b i = some t →
      evalNode g b n values store = .ok (.goto t, store) := by
  obtain ⟨_, _, _, _, hterm⟩ := Graph.terminalNode?_eq_some_iff.1 hlast
  have hsucc : ∀ i, g.successor? b i = g.slotTarget? node.payload i := by
    intro i
    rw [Graph.successor?, hlast]
  simp only [evalNode, hnode]
  cases hk : node.kind <;> simp [hk, Kind.isTerminal] at hterm
  case jump =>
    obtain ⟨target, hp⟩ := Graph.jump_of_admits hk hadmits
    simp only [decision, hk, binary?, evalOther, hp, hsucc]
    intro t ht
    obtain rfl : target = t := by simpa [Graph.slotTarget?] using ht
    rfl
  case branch =>
    simp only [decision, hk, binary?, evalOther]
    cases operand values n node 0 with
    | error fault => exact ⟨fault, rfl⟩
    | ok v =>
      intro t ht
      simp only [bind, Except.bind]
      rw [ht]
      rfl
  case switch =>
    obtain ⟨record, hlt, hp⟩ := Graph.switch_of_admits hk hadmits
    simp only [decision, hk, binary?, evalOther, hp, hsucc, Array.getElem?_eq_getElem hlt]
    cases intOperand values n node 0 with
    | error fault => exact ⟨fault, rfl⟩
    | ok v =>
      intro t ht
      simp only [Graph.slotTarget?, Array.getElem?_eq_getElem hlt, Option.bind_eq_bind,
        Option.bind_some, SwitchRecord.target?, ← List.find?_eq_getElem?_findIdx,
        Option.map_eq_some_iff] at ht
      obtain ⟨target, htarget, rfl⟩ := ht
      simp only [bind, Except.bind]
      cases hc : List.find? (fun c => c.value == v) g.switches[record].cases with
      | some c =>
        simp only [hc] at htarget
        obtain rfl := Option.some.inj htarget
        rfl
      | none =>
        simp only [hc] at htarget
        split at htarget
        · obtain rfl := Option.some.inj htarget
          rfl
        · cases htarget
  case ret =>
    simp only [decision, hk, binary?, evalOther]
    by_cases hset : (node.child 0).isSet = true
    · simp only [hset, if_true]
      cases operand values n node 0 with
      | error fault => exact ⟨fault, rfl⟩
      | ok v => rfl
    · simp [hset]
      rfl
  case raise =>
    simp only [decision, hk, binary?, evalOther]
    exact ⟨_, rfl⟩
  case unreachable =>
    simp only [decision, hk, binary?, evalOther]
    exact ⟨_, rfl⟩

/-! ## From node to node -/

/-- A run that gets no further than the current block, and does not return. -/
def Stuck (g : Graph) (budget : Nat) (s : State) : Prop :=
  trail g budget s = [] ∧ ∃ fault, exec g budget s = .error fault

theorem stuck_zero (s : State) : Stuck g 0 s := ⟨rfl, _, rfl⟩

theorem stuck_of_error {s : State} {fault : RunFault} (h : step g s = .error fault) (budget : Nat) :
    Stuck g budget s := by
  cases budget with
  | zero => exact stuck_zero s
  | succ budget => exact ⟨by simp [trail, h], fault, by simp [exec, h]⟩

/-- A run that faults, or spends its budget, without entering another block. -/
def Doomed (g : Graph) (s : State) : Prop := ∀ budget, Stuck g budget s

/-- From `s` a run comes to `s'` in `count` steps, all of them in one block. -/
structure Walks (g : Graph) (s : State) (count : Nat) (s' : State) : Prop where
  stuck : ∀ budget < count, Stuck g budget s
  exec_eq : ∀ k, exec g (count + k) s = exec g k s'
  trail_eq : ∀ k, trail g (count + k) s = trail g k s'

theorem Walks.refl (s : State) : Walks g s 0 s :=
  ⟨fun _ h => absurd h (Nat.not_lt_zero _), fun k => by simp, fun k => by simp⟩

theorem stuck_running {s s' : State} (h : step g s = .ok (.running s')) (hrest : s.rest ≠ [])
    {budget : Nat} : Stuck g (budget + 1) s ↔ Stuck g budget s' := by
  simp [Stuck, exec, trail, h, hrest]

theorem Doomed.cons {s s' : State} (h : step g s = .ok (.running s')) (hrest : s.rest ≠ [])
    (h' : Doomed g s') : Doomed g s := by
  intro budget
  cases budget with
  | zero => exact stuck_zero s
  | succ budget => exact (stuck_running h hrest).2 (h' budget)

theorem Walks.cons {s s' s'' : State} {count : Nat} (h : step g s = .ok (.running s'))
    (hrest : s.rest ≠ []) (h' : Walks g s' count s'') : Walks g s (count + 1) s'' where
  stuck := by
    intro budget hlt
    cases budget with
    | zero => exact stuck_zero s
    | succ budget => exact (stuck_running h hrest).2 (h'.stuck budget (by omega))
  exec_eq := by
    intro k
    have hsum : count + 1 + k = (count + k) + 1 := by omega
    rw [hsum, ← h'.exec_eq]
    simp [exec, h]
  trail_eq := by
    intro k
    have hsum : count + 1 + k = (count + k) + 1 := by omega
    rw [hsum, ← h'.trail_eq]
    simp [trail, h, hrest]

/-- The nodes of a body, evaluated one by one, lead a run to the node after them, unless one of them
faults. -/
theorem walks_evalBody {body : List NodeId} {last : NodeId}
    (hbody : ∀ n ∈ body, ∃ node, g.node? n = some node ∧ node.kind.isTerminal = false)
    (steps : Nat) (values : Values) (store : Store) {n : NodeId} {rest : List NodeId}
    (hsplit : n :: rest = body ++ [last]) :
    match evalBody g b body values store with
    | none => Doomed g ⟨b, n, rest, none, values, store, steps⟩
    | some (values', store') => Walks g ⟨b, n, rest, none, values, store, steps⟩ body.length
      ⟨b, last, [], none, values', store', steps + body.length⟩ := by
  induction body generalizing n rest values store steps with
  | nil =>
    obtain ⟨rfl, rfl⟩ : n = last ∧ rest = [] := by simpa using hsplit
    exact .refl _
  | cons x body ih =>
    obtain ⟨rfl, hrest⟩ : n = x ∧ rest = body ++ [last] := by simpa using hsplit
    obtain ⟨node, hnode, hterm⟩ := hbody n (List.mem_cons_self ..)
    have hbody' : ∀ m ∈ body, ∃ node, g.node? m = some node ∧ node.kind.isTerminal = false :=
      fun m hm => hbody m (List.mem_cons_of_mem _ hm)
    obtain ⟨m, rest', rfl⟩ : ∃ m rest', rest = m :: rest' := by
      cases body <;> exact ⟨_, _, hrest⟩
    -- one step leads to the next node, with the value of this one if it has one
    have hstep : ∀ values' store', step g ⟨b, n, m :: rest', none, values, store, steps⟩ =
          .ok (.running ⟨b, m, rest', none, values', store', steps + 1⟩) →
        match evalBody g b body values' store' with
        | none => Doomed g ⟨b, n, m :: rest', none, values, store, steps⟩
        | some (values'', store'') => Walks g ⟨b, n, m :: rest', none, values, store, steps⟩
          (n :: body).length
            ⟨b, last, [], none, values'', store'', steps + (n :: body).length⟩ := by
      intro values' store' hs
      have htail := ih hbody' (steps + 1) values' store' hrest
      cases hev : evalBody g b body values' store' with
      | none =>
        simp only [hev] at htail ⊢
        exact htail.cons hs (by simp)
      | some out =>
        simp only [hev] at htail ⊢
        have hsum : steps + (n :: body).length = steps + 1 + body.length := by
          simp only [List.length_cons]
          omega
        rw [hsum]
        exact htail.cons hs (by simp)
    cases hev : evalNode g b n values store with
    | error fault =>
      have hfault : step g ⟨b, n, m :: rest', none, values, store, steps⟩ = .error fault := by
        simp [step, hev]
      simp only [evalBody, hev]
      exact stuck_of_error hfault
    | ok out =>
      obtain ⟨effect, store'⟩ := out
      rcases (plain_evalNode hnode hterm hev).effect with rfl | ⟨v, rfl⟩
      · simp only [evalBody, hev]
        exact hstep values store' (by simp [step, hev, advance, State.after])
      · simp only [evalBody, hev]
        exact hstep ((n, v) :: values) store' (by simp [step, hev, advance, State.after])

/-! ## From block to block -/

theorem enter_of_block? {block : Block} (store : Store) (steps : Nat) (hb : g.block? b = some block)
    (hne : block.nodes ≠ []) :
    ∃ n rest, n :: rest = block.nodes ∧
      enter g b store steps = .ok ⟨b, n, rest, none, [], store, steps⟩ := by
  obtain ⟨n, rest, hn⟩ := List.exists_cons_of_ne_nil hne
  exact ⟨n, rest, hn.symm, by simp [enter, hb, hn]⟩

/-- What a run does from the head of a block: the visit of the block, and then what a run does from
the head of the next one. -/
structure Leads (g : Graph) (s : State) (count : Nat) (t : BlockId) (s' : State) : Prop where
  stuck : ∀ budget < count, Stuck g budget s
  exec_eq : ∀ k, exec g (count + k) s = exec g k s'
  trail_eq : ∀ k, trail g (count + k) s = t :: trail g k s'

/-- A run that returns within the block where it stands, in `count` steps. -/
structure Ends (g : Graph) (s : State) (count : Nat) (e : Execution) : Prop where
  stuck : ∀ budget < count, Stuck g budget s
  exec_eq : ∀ k, exec g (count + k) s = .ok e
  trail_eq : ∀ k, trail g (count + k) s = []

theorem Walks.doomed {s s' : State} {count : Nat} (h : Walks g s count s') (h' : Doomed g s') :
    Doomed g s := by
  intro budget
  by_cases hlt : budget < count
  · exact h.stuck budget hlt
  · obtain ⟨k, rfl⟩ := Nat.exists_eq_add_of_le (Nat.le_of_not_lt hlt)
    rw [Stuck, h.exec_eq, h.trail_eq]
    exact h' k

theorem Walks.stuck_le {s s' : State} {count budget : Nat} (h : Walks g s count s')
    (hle : budget ≤ count) : Stuck g budget s := by
  by_cases hlt : budget < count
  · exact h.stuck budget hlt
  · obtain rfl : budget = count := by omega
    have hexec := h.exec_eq 0
    have htrail := h.trail_eq 0
    rw [Nat.add_zero] at hexec htrail
    rw [Stuck, hexec, htrail]
    exact stuck_zero s'

theorem Walks.leads {s s' s'' : State} {count : Nat} (h : Walks g s count s')
    (hstep : step g s' = .ok (.running s'')) (hrest : s'.rest = []) :
    Leads g s (count + 1) s''.block s'' where
  stuck := fun budget hlt => h.stuck_le (Nat.le_of_lt_succ hlt)
  exec_eq := by
    intro k
    rw [Nat.add_assoc, h.exec_eq, Nat.add_comm 1 k]
    simp [exec, hstep]
  trail_eq := by
    intro k
    rw [Nat.add_assoc, h.trail_eq, Nat.add_comm 1 k]
    simp [trail, hstep, hrest]

theorem Walks.ends {s s' : State} {count : Nat} {e : Execution} (h : Walks g s count s')
    (hstep : step g s' = .ok (.returned e)) : Ends g s (count + 1) e where
  stuck := fun budget hlt => h.stuck_le (Nat.le_of_lt_succ hlt)
  exec_eq := by
    intro k
    rw [Nat.add_assoc, h.exec_eq, Nat.add_comm 1 k]
    simp [exec, hstep]
  trail_eq := by
    intro k
    rw [Nat.add_assoc, h.trail_eq, Nat.add_comm 1 k]
    simp [trail, hstep]

theorem body_not_terminal {block : Block} {body : List NodeId} {last : NodeId} (hg : g.WellFormed)
    (hb : g.block? b = some block) (hsplit : block.nodes = body ++ [last]) :
    ∀ n ∈ body, ∃ node, g.node? n = some node ∧ node.kind.isTerminal = false := by
  intro n hn
  obtain ⟨pre, post, rfl⟩ := List.append_of_mem hn
  obtain ⟨node, hnode⟩ := Graph.exists_node? (hg.exists_node b block hb n (by simp [hsplit]))
  have hok := (hg.block b block hb).node pre n (post ++ [last]) (by simp [hsplit]) node hnode
  refine ⟨node, hnode, ?_⟩
  rw [hok.terminal]
  simp

/-- A decision names a slot that the terminal has. -/
theorem slot_lt_of_decision {i : Nat} (hadmits : g.admits node.kind node.payload = true)
    (h : decision g values n node = some (.slot i)) : i < g.slotCount node.payload := by
  rw [decision] at h
  split at h
  case h_1 hk =>
    obtain ⟨target, hp⟩ := Graph.jump_of_admits hk hadmits
    cases h
    simp [hp, Graph.slotCount]
  case h_2 hk =>
    obtain ⟨record, -, hp⟩ := Graph.branch_of_admits hk hadmits
    obtain ⟨v, _, hv⟩ := Option.map_eq_some_iff.1 h
    obtain rfl : (if v.isTruthy then 0 else 1) = i := Decision.slot.inj hv
    simp only [hp, Graph.slotCount]
    split <;> omega
  case h_3 hk =>
    obtain ⟨v, _, h⟩ := Option.bind_eq_some_iff.1 h
    obtain ⟨record, -, hp⟩ := Graph.switch_of_admits hk hadmits
    simp only [hp] at h
    obtain ⟨r, hr, hi⟩ := Option.map_eq_some_iff.1 h
    obtain rfl := Decision.slot.inj hi
    simp only [hp, Graph.slotCount, hr]
    exact Nat.lt_succ_of_le List.findIdx_le_length
  case h_4 =>
    split at h
    · obtain ⟨v, _, hv⟩ := Option.map_eq_some_iff.1 h
      cases hv
    · cases h
  case h_5 => cases h

/-- **One visit of a run.**  From the head of a block of a well-formed graph a run does what the
visit says, in as many steps as the block has nodes: it faults, returns, or comes to the head of the
block that the slot names. -/
theorem run_visit_steps (hg : g.WellFormed) {s : State} {steps : Nat} {block : Block}
    (hb : g.block? b = some block) (hs : enter g b store steps = .ok s) :
    match visit g b store with
    | none => Doomed g s
    | some (.returned v final) =>
      Ends g s block.nodes.length ⟨v, final.trace, final.arrays, steps + block.nodes.length⟩
    | some (.leave slot next) => ∃ t s', g.successor? b slot = some t ∧
      enter g t next (steps + block.nodes.length) = .ok s' ∧ Leads g s block.nodes.length t s' := by
  obtain ⟨body, last, node, hsplit, hnode, hok, hlast⟩ := hg.terminal hb
  obtain ⟨n, rest, hn, hs'⟩ := enter_of_block? store steps hb (hg.block b block hb).ne_nil
  rw [hs] at hs'
  obtain rfl := Except.ok.inj hs'
  have hlength : block.nodes.length = body.length + 1 := by simp [hsplit]
  have hwalk := walks_evalBody (b := b) (body_not_terminal hg hb hsplit) steps [] store
    (hn.trans hsplit)
  have hvisit : visit g b store = (evalBody g b body [] store).bind fun out =>
      (decision g out.1 last node).map (·.exit out.2) := by
    simp [visit, hb, evalNodes, hsplit, hnode]
  rw [hvisit, hlength, ← Nat.add_assoc]
  cases hev : evalBody g b body [] store with
  | none =>
    simp only [hev] at hwalk
    exact hwalk
  | some out =>
    obtain ⟨values, store'⟩ := out
    simp only [hev] at hwalk
    simp only [Option.bind_some]
    have hterm := evalNode_terminal values store' hnode hlast hok.admits
    cases hdec : decision g values last node with
    | none =>
      simp only [hdec] at hterm
      obtain ⟨fault, hfault⟩ := hterm
      have hstep :
          step g ⟨b, last, [], none, values, store', steps + body.length⟩ = .error fault := by
        simp [step, hfault]
      exact hwalk.doomed (stuck_of_error hstep)
    | some d =>
      simp only [hdec] at hterm
      cases d with
      | ret v =>
        have hstep : step g ⟨b, last, [], none, values, store', steps + body.length⟩ =
            .ok (.returned ⟨v, store'.trace, store'.arrays, steps + body.length + 1⟩) := by
          simp [step, hterm]
        exact hwalk.ends hstep
      | slot i =>
        have hcount : g.successorCount b = g.slotCount node.payload := by
          rw [Graph.successorCount, hlast]
        obtain ⟨t, ht, hlive⟩ := (hg.block b block hb).successor i
          (hcount ▸ slot_lt_of_decision hok.admits hdec)
        obtain ⟨target, htarget⟩ := Graph.isLive_iff.1 hlive
        obtain ⟨m, rest', -, henter⟩ := enter_of_block? store' (steps + body.length + 1) htarget
          (hg.block t target htarget).ne_nil
        have hstep : step g ⟨b, last, [], none, values, store', steps + body.length⟩ =
            .ok (.running ⟨t, m, rest', none, [], store', steps + body.length + 1⟩) := by
          simp [step, hterm t ht, advance, State.after, henter]
        exact ⟨t, _, ht, henter, hwalk.leads hstep rfl⟩

theorem exists_block_of_enter {s : State} {steps : Nat} (hs : enter g b store steps = .ok s) :
    ∃ block, g.block? b = some block := by
  cases hb : g.block? b with
  | none => simp [enter, hb] at hs
  | some block => exact ⟨block, rfl⟩

/-- One visit of a run, however many steps it takes. -/
theorem run_visit (hg : g.WellFormed) {s : State} {steps : Nat}
    (hs : enter g b store steps = .ok s) :
    match visit g b store with
    | none => Doomed g s
    | some (.returned v final) => ∃ count steps',
      Ends g s count ⟨v, final.trace, final.arrays, steps'⟩
    | some (.leave slot next) => ∃ t count steps' s', g.successor? b slot = some t ∧
      enter g t next steps' = .ok s' ∧ 0 < count ∧ Leads g s count t s' := by
  obtain ⟨block, hb⟩ := exists_block_of_enter hs
  have hvisit := run_visit_steps hg hb hs
  cases hv : visit g b store with
  | none => simpa only [hv] using hvisit
  | some exit =>
    simp only [hv] at hvisit
    cases exit with
    | returned v final => exact ⟨_, _, hvisit⟩
    | leave slot next =>
      obtain ⟨t, s', ht, henter, hleads⟩ := hvisit
      exact ⟨t, _, _, s', ht, henter, List.length_pos_iff.2 (hg.block b block hb).ne_nil, hleads⟩

/-! ## Whole runs -/

/-- The blocks that a run enters follow one another by visits, and the run returns what they do. -/
theorem follows_trail (hg : g.WellFormed) (budget : Nat) {s : State} {steps : Nat}
    (hs : enter g b store steps = .ok s) :
    Follows g b store (trail g budget s)
      ((exec g budget s).toOption.map Execution.returnValue) := by
  induction budget using Nat.strong_induction_on generalizing b store s steps with
  | _ budget ih =>
    have hstuck : Stuck g budget s → Follows g b store (trail g budget s)
        ((exec g budget s).toOption.map Execution.returnValue) := by
      rintro ⟨htrail, fault, hexec⟩
      rw [htrail, hexec]
      exact .stop
    have hvisit := run_visit hg hs
    cases hv : visit g b store with
    | none =>
      simp only [hv] at hvisit
      exact hstuck (hvisit budget)
    | some exit =>
      simp only [hv] at hvisit
      cases exit with
      | returned v final =>
        obtain ⟨count, steps', hends⟩ := hvisit
        by_cases hlt : budget < count
        · exact hstuck (hends.stuck budget hlt)
        · obtain ⟨k, rfl⟩ := Nat.exists_eq_add_of_le (Nat.le_of_not_lt hlt)
          rw [hends.trail_eq, hends.exec_eq]
          exact .returned hv
      | leave slot next =>
        obtain ⟨t, count, steps', s', ht, henter, hpos, hleads⟩ := hvisit
        by_cases hlt : budget < count
        · exact hstuck (hleads.stuck budget hlt)
        · obtain ⟨k, rfl⟩ := Nat.exists_eq_add_of_le (Nat.le_of_not_lt hlt)
          rw [hleads.trail_eq, hleads.exec_eq]
          exact .step hv ht (ih k (by omega) henter)

theorem enter_entry (hg : g.WellFormed) (store : Store) :
    ∃ s, enter g entry store 0 = .ok s ∧ s.block = entry := by
  obtain ⟨block, hb⟩ := Graph.isLive_iff.1 hg.entry_live
  obtain ⟨n, rest, -, hs⟩ := enter_of_block? store 0 hb (hg.block entry block hb).ne_nil
  exact ⟨_, hs, rfl⟩

/-- **The itinerary of a run** starts at the entry and goes on by visits. -/
theorem follows_itinerary (hg : g.WellFormed) (store : Store) (budget : Nat) :
    ∃ rest, itinerary g store budget = entry :: rest ∧
      Follows g entry store rest ((run g store budget).toOption.map Execution.returnValue) := by
  obtain ⟨s, hs, hblock⟩ := enter_entry hg store
  refine ⟨trail g budget s, by simp [itinerary, hs, hblock], ?_⟩
  simpa [run, hs] using follows_trail hg budget hs

theorem returns_of_exec (hg : g.WellFormed) (budget : Nat) {s : State} {steps : Nat}
    {e : Execution} (hs : enter g b store steps = .ok s) (he : exec g budget s = .ok e) :
    ∃ final, Returns g b store e.returnValue final ∧ final.trace = e.trace ∧
      final.arrays = e.arrays := by
  induction budget using Nat.strong_induction_on generalizing b store s steps with
  | _ budget ih =>
    have hstuck : ¬ Stuck g budget s := by
      rintro ⟨_, fault, hexec⟩
      rw [he] at hexec
      cases hexec
    have hvisit := run_visit hg hs
    cases hv : visit g b store with
    | none =>
      simp only [hv] at hvisit
      exact absurd (hvisit budget) hstuck
    | some exit =>
      simp only [hv] at hvisit
      cases exit with
      | returned v final =>
        obtain ⟨count, steps', hends⟩ := hvisit
        by_cases hlt : budget < count
        · exact absurd (hends.stuck budget hlt) hstuck
        · obtain ⟨k, rfl⟩ := Nat.exists_eq_add_of_le (Nat.le_of_not_lt hlt)
          rw [hends.exec_eq] at he
          obtain rfl := Except.ok.inj he
          exact ⟨final, .here hv, rfl, rfl⟩
      | leave slot next =>
        obtain ⟨t, count, steps', s', ht, henter, hpos, hleads⟩ := hvisit
        by_cases hlt : budget < count
        · exact absurd (hleads.stuck budget hlt) hstuck
        · obtain ⟨k, rfl⟩ := Nat.exists_eq_add_of_le (Nat.le_of_not_lt hlt)
          rw [hleads.exec_eq] at he
          obtain ⟨final, hret, htrace, harrays⟩ := ih k (by omega) henter he
          exact ⟨final, .step hv ht hret, htrace, harrays⟩

theorem exec_of_returns (hg : g.WellFormed) {v : Value} {final : Store}
    (h : Returns g b store v final) {s : State} {steps : Nat}
    (hs : enter g b store steps = .ok s) :
    ∃ budget steps', exec g budget s = .ok ⟨v, final.trace, final.arrays, steps'⟩ := by
  induction h generalizing s steps with
  | here hv =>
    have hvisit := run_visit hg hs
    simp only [hv] at hvisit
    obtain ⟨count, steps', hends⟩ := hvisit
    exact ⟨count, steps', hends.exec_eq 0⟩
  | step hv ht _ ih =>
    have hvisit := run_visit hg hs
    simp only [hv] at hvisit
    obtain ⟨t, count, steps', s', ht', henter, hpos, hleads⟩ := hvisit
    rw [ht] at ht'
    obtain rfl := Option.some.inj ht'
    obtain ⟨budget, steps'', hexec⟩ := ih henter
    exact ⟨count + budget, steps'', by rw [hleads.exec_eq, hexec]⟩

/-- **A run returns** under some budget exactly when the visits from the entry come to a return, and
then with the same value, trace and arrays. -/
theorem run_ok_iff (hg : g.WellFormed) (store : Store) (v : Value) (trace : Array Access)
    (arrays : Array (Array Value)) :
    (∃ budget steps, run g store budget = .ok ⟨v, trace, arrays, steps⟩) ↔
      ∃ final, Returns g entry store v final ∧ final.trace = trace ∧ final.arrays = arrays := by
  obtain ⟨s, hs, -⟩ := enter_entry hg store
  constructor
  · rintro ⟨budget, steps, hrun⟩
    exact returns_of_exec hg budget hs (by simpa [run, hs] using hrun)
  · rintro ⟨final, hret, rfl, rfl⟩
    obtain ⟨budget, steps, hexec⟩ := exec_of_returns hg hret hs
    exact ⟨budget, steps, by simpa [run, hs] using hexec⟩

end Unroller.Machine
