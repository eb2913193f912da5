import Unroller.Proofs.Phase.Rounds

/-!
# No analysis is out of date when it is used

Copying a block, redirecting an edge and ending a block with a jump change the control flow and
leave the kept analyses and the predecessor lists as they were.  A phase looks at loops between such
edits, so what it reads there must have been brought up to date before.

* `Graph.Current`: the analyses and predecessor lists of a graph are those of its blocks.
* `Ready.withCaches`: absent and fresh caches are equally good.
* `Compilation.Runs`: a run of a phase together with its looks at loops, in order.
* `exists_runs`: every run of the phase is one, also where it stops.
* `Runs.looks_ready`: each look is at a graph ready for it, by induction on the rounds;
  `Runs.looks_ne_nil`: there are looks if there are candidates.
* `run_consults_current`: a phase never looks at what is out of date, and leaves nothing that is.
-/

namespace Unroller

open Unroller.Graph

variable {g : Graph} {loop : NaturalLoop} {shape : LoopShape}

/-! ## Up to date -/

/-- The dominator tree and the loops that a graph offers are those computed from its blocks, and the
predecessors listed for a live block are the reachable blocks that lead to it, each once. -/
structure Graph.Current (g : Graph) : Prop where
  dominators : g.dominatorTree = g.flow.dominatorTree entry
  loops : g.loopForest = g.flow.loopForest (g.flow.dominatorTree entry) entry
  mem_preds : ∀ b block, g.block? b = some block →
    ∀ q, q ∈ block.preds ↔ g.flow.Reaches entry q ∧ b ∈ g.successors q
  nodup_preds : ∀ b block, g.block? b = some block → block.preds.Nodup

theorem Graph.Ready.current (hg : g.Ready) : g.Current :=
  ⟨hg.analyzed.dominators, hg.analyzed.loops, hg.analyzed.reach.mem_preds_iff,
    hg.analyzed.reach.nodup_preds⟩

/-- A cache that holds nothing, or what would be computed. -/
def AbsentOrFresh {α : Type} (cache : Option α) (fresh : α) : Prop :=
  cache = none ∨ cache = some fresh

/-- Absent and fresh caches leave a ready graph ready. -/
theorem Graph.Ready.withCaches (hg : g.Ready) {trees : Option DominatorTree}
    {forests : Option LoopForest} (htree : AbsentOrFresh trees (g.flow.dominatorTree entry))
    (hforest : AbsentOrFresh forests (g.flow.loopForest (g.flow.dominatorTree entry) entry)) :
    { g with dominatorCache := trees, loopCache := forests }.Ready := by
  have hr : Recast g { g with dominatorCache := trees, loopCache := forests } :=
    .of_blocks rfl rfl rfl rfl rfl rfl rfl
  have hs := hr.sound hg.sound
  have hreach := hr.reachExact hg.sound.wellFormed hg.analyzed.reach fun _ => rfl
  -- the control flow is read off the blocks, which are the same
  have htrees : { g with dominatorCache := trees, loopCache := forests }.dominatorTree =
      g.flow.dominatorTree entry := by
    unfold dominatorTree
    rcases htree with rfl | rfl <;> rfl
  refine ⟨hs, ⟨hs.wellFormed, hreach, htrees, ?_⟩, fun hform => hr.unlinked (hg.unlinked hform)⟩
  unfold loopForest
  rw [htrees]
  rcases hforest with rfl | rfl <;> rfl

/-! ## Runs with their looks -/

namespace Compilation

/-- A look at a loop of a graph, to see whether it can be unrolled. -/
structure Look where
  graph : Graph
  loop : NaturalLoop

/-- Going through listed loops up to the first that is accepted, or that stops the phase. -/
inductive Selects : Compilation → List NaturalLoop → List Look →
    EStateM.Result Error Compilation (Option LoopShape) → Prop where
  | none {c : Compilation} : Selects c [] [] (.ok none c)
  | accepted {c : Compilation} {loop : NaturalLoop} {rest : List NaturalLoop} {shape : LoopShape}
      (look : c.graph.loopShape c.phase.config loop = .ok shape) :
      Selects c (loop :: rest) [⟨c.graph, loop⟩] (.ok (some shape) c)
  | rejected {c : Compilation} {loop : NaturalLoop} {rest : List NaturalLoop} {r : Rejection}
      {looks : List Look} {result : EStateM.Result Error Compilation (Option LoopShape)}
      (look : c.graph.loopShape c.phase.config loop = .error (.rejected r))
      (others : Selects (c.reject loop.header r) rest looks result) :
      Selects c (loop :: rest) (⟨c.graph, loop⟩ :: looks) result
  | stopped {c : Compilation} {loop : NaturalLoop} {rest : List NaturalLoop} {e : Error}
      (look : c.graph.loopShape c.phase.config loop = .error (.stopped e)) :
      Selects c (loop :: rest) [⟨c.graph, loop⟩] (.error e c)

/-- One search for a loop: the loops are found anew, and the candidates among them are gone
through. -/
inductive Searches : Compilation → List Look →
    EStateM.Result Error Compilation (Option LoopShape) → Prop where
  | unordered {c : Compilation} {e : Error}
      (order : c.phase.candidateLoops c.graph.cacheLoops.loopForest = .error e) :
      Searches c [] (.error e { c with graph := c.graph.cacheLoops })
  | ordered {c : Compilation} {loops : List NaturalLoop} {looks : List Look}
      {result : EStateM.Result Error Compilation (Option LoopShape)}
      (order : c.phase.candidateLoops c.graph.cacheLoops.loopForest = .ok loops)
      (select : Selects { c with graph := c.graph.cacheLoops } loops looks result) :
      Searches c looks result

/-- Unrolling loops, at most `budget` of them, with a search before each. -/
inductive Unrolls : Bool → Nat → Compilation → List Look →
    EStateM.Result Error Compilation Bool → Prop where
  | spent {changed : Bool} {c : Compilation} : Unrolls changed 0 c [] (.ok changed c)
  | exhausted {changed : Bool} {budget : Nat} {c c' : Compilation} {looks : List Look}
      (search : Searches c looks (.ok none c')) :
      Unrolls changed (budget + 1) c looks (.ok changed c')
  | stopped {changed : Bool} {budget : Nat} {c c' : Compilation} {looks : List Look} {e : Error}
      (search : Searches c looks (.error e c')) :
      Unrolls changed (budget + 1) c looks (.error e c')
  | failed {changed : Bool} {budget : Nat} {c c' : Compilation} {looks : List Look}
      {shape : LoopShape} {e : Error} {g : Graph} (search : Searches c looks (.ok (some shape) c'))
      (unroll : Graph.unrollLoop c'.phase.config shape c'.graph = .error e g) :
      Unrolls changed (budget + 1) c looks (.error e { c' with graph := g })
  | unrolled {changed : Bool} {budget : Nat} {c c' : Compilation} {looks looks' : List Look}
      {shape : LoopShape} {removed : List BlockId} {g : Graph}
      {result : EStateM.Result Error Compilation Bool}
      (search : Searches c looks (.ok (some shape) c'))
      (unroll : Graph.unrollLoop c'.phase.config shape c'.graph = .ok removed g)
      (others : Unrolls true budget (c'.finishUnroll shape removed g) looks' result) :
      Unrolls changed (budget + 1) c (looks ++ looks') result

/-- A run of the phase, successful or not, with all its looks. -/
inductive Runs : Compilation → List Look → EStateM.Result Error Compilation Bool → Prop where
  | refused {c : Compilation} (refuse : c.phase.config.allows c.graph.function = false) :
      Runs c [] (.ok false (c.record (c.phase.rejectionEvents c.graph entry .functionNotAllowed)))
  | unwritten {c c' : Compilation} {e : Error}
      (allow : c.phase.config.allows c.graph.function = true)
      (dump : dump "before loop unrolling" { c with graph := c.graph.resetReachability } =
        .error e c') : Runs c [] (.error e c')
  | stopped {c c' c'' : Compilation} {looks : List Look} {e : Error}
      (allow : c.phase.config.allows c.graph.function = true)
      (dump : dump "before loop unrolling" { c with graph := c.graph.resetReachability } =
        .ok () c')
      (rounds : Unrolls false (c'.phase.config.maxUnrolledLoops - c'.phase.unrolled.length) c' looks
        (.error e c'')) : Runs c looks (.error e c'')
  | done {c c' c'' : Compilation} {looks : List Look} {changed : Bool}
      {result : EStateM.Result Error Compilation Bool}
      (allow : c.phase.config.allows c.graph.function = true)
      (dump : dump "before loop unrolling" { c with graph := c.graph.resetReachability } =
        .ok () c')
      (rounds : Unrolls false (c'.phase.config.maxUnrolledLoops - c'.phase.unrolled.length) c' looks
        (.ok changed c''))
      (finish : finish changed c'' = result) : Runs c looks result

variable {c c' : Compilation} {looks : List Look} {loops : List NaturalLoop} {budget : Nat}
  {changed : Bool}

theorem exists_selects (c : Compilation) (loops : List NaturalLoop) :
    ∃ looks, Selects c loops looks (selectFrom loops c) := by
  induction loops generalizing c with
  | nil => exact ⟨[], .none⟩
  | cons loop rest ih =>
    rw [selectFrom]
    split
    · rename_i shape hshape
      exact ⟨_, .accepted hshape⟩
    · rename_i r hshape
      obtain ⟨looks, hrest⟩ := ih (c.reject loop.header r)
      exact ⟨_, .rejected hshape hrest⟩
    · rename_i e hshape
      exact ⟨_, .stopped hshape⟩

theorem exists_searches (c : Compilation) : ∃ looks, Searches c looks (select c) := by
  rw [select]
  simp only
  split
  · rename_i loops horder
    obtain ⟨looks, hselects⟩ := exists_selects { c with graph := c.graph.cacheLoops } loops
    exact ⟨looks, .ordered horder hselects⟩
  · rename_i e horder
    exact ⟨[], .unordered horder⟩

theorem exists_unrolls (changed : Bool) (budget : Nat) (c : Compilation) :
    ∃ looks, Unrolls changed budget c looks (rounds changed budget c) := by
  induction budget generalizing c changed with
  | zero => exact ⟨[], .spent⟩
  | succ budget ih =>
    obtain ⟨looks, hsearch⟩ := exists_searches c
    rw [rounds]
    cases hsel : select c with
    | error e c₁ => exact ⟨looks, .stopped (hsel ▸ hsearch)⟩
    | ok found c₁ =>
      rw [hsel] at hsearch
      cases found with
      | none => exact ⟨looks, .exhausted hsearch⟩
      | some shape =>
        simp only
        cases hunroll : Graph.unrollLoop c₁.phase.config shape c₁.graph with
        | error e g => exact ⟨looks, .failed hsearch hunroll⟩
        | ok removed g =>
          obtain ⟨looks', hrest⟩ := ih true (c₁.finishUnroll shape removed g)
          exact ⟨looks ++ looks', .unrolled hsearch hunroll hrest⟩

/-- **Every run of the phase** is a run with looks. -/
theorem exists_runs (c : Compilation) : ∃ looks, Runs c looks (run c) := by
  rw [run]
  split
  · rename_i hrefuse
    exact ⟨[], .refused (by simpa using hrefuse)⟩
  · rename_i hallow
    have hallow : c.phase.config.allows c.graph.function = true := by simpa using hallow
    cases hdump : dump "before loop unrolling" { c with graph := c.graph.resetReachability } with
    | error e c₁ => exact ⟨[], .unwritten hallow hdump⟩
    | ok _ c₁ =>
      obtain ⟨looks, hunrolls⟩ := exists_unrolls false
        (c₁.phase.config.maxUnrolledLoops - c₁.phase.unrolled.length) c₁
      refine ⟨looks, ?_⟩
      simp only
      cases hrounds : rounds false
          (c₁.phase.config.maxUnrolledLoops - c₁.phase.unrolled.length) c₁ with
      | error e c₂ => exact .stopped hallow hdump (hrounds ▸ hunrolls)
      | ok changed c₂ => exact .done hallow hdump (hrounds ▸ hunrolls) rfl

/-! ## What a phase looks at -/

/-- A look at one of the loops of a graph that is ready for it. -/
structure Look.OfReady (look : Look) : Prop where
  ready : look.graph.Ready
  mem_loops : look.loop ∈ look.graph.loopForest.loops

/-- Going through loops of a graph looks at them there. -/
theorem Selects.looks_eq {result : EStateM.Result Error Compilation (Option LoopShape)}
    (h : Selects c loops looks result) :
    ∀ look ∈ looks, look.graph = c.graph ∧ look.loop ∈ loops := by
  induction h with
  | none => simp
  | accepted _ | stopped _ => simp
  | @rejected c loop rest r looks result _ _ ih =>
    intro look hmem
    rcases List.mem_cons.1 hmem with rfl | hmem
    · exact ⟨rfl, List.mem_cons_self⟩
    · obtain ⟨hsame, hloop⟩ := ih look hmem
      exact ⟨hsame, List.mem_cons_of_mem _ hloop⟩

/-- It is what the phase does. -/
theorem Selects.eq_selectFrom {result : EStateM.Result Error Compilation (Option LoopShape)}
    (h : Selects c loops looks result) : selectFrom loops c = result := by
  induction h with
  | none => rfl
  | accepted look | stopped look => rw [selectFrom, look]
  | rejected look _ ih => rw [selectFrom, look, ← ih]

theorem Searches.eq_select {result : EStateM.Result Error Compilation (Option LoopShape)}
    (h : Searches c looks result) : select c = result := by
  cases h with
  | unordered order => simp only [select, order]
  | ordered order hselects => simp only [select, order, hselects.eq_selectFrom]

/-- The looks of one search. -/
theorem Searches.looks_ready {result : EStateM.Result Error Compilation (Option LoopShape)}
    (h : Searches c looks result) (hc : c.graph.Ready) : ∀ look ∈ looks, look.OfReady := by
  cases h with
  | unordered => simp
  | ordered order hselects =>
    intro look hmem
    obtain ⟨hsame, hloop⟩ := hselects.looks_eq look hmem
    refine ⟨hsame ▸ (kept_cacheLoops hc).ready, ?_⟩
    rw [hsame]
    exact Phase.mem_of_mem_candidateLoops order hloop

/-- A search that finds a loop leaves a graph whose unrolling is ready again. -/
theorem Searches.ready_unrolled {removed : List BlockId}
    (h : Searches c looks (.ok (some shape) c')) (hc : c.graph.Ready)
    (hunroll : Graph.unrollLoop c'.phase.config shape c'.graph = .ok removed g) : g.Ready := by
  have hselect := h.eq_select
  have hstate := select_state c
  rw [hselect] at hstate
  obtain ⟨hgraph, hconfig⟩ : c'.graph = c.graph.cacheLoops ∧
    c'.phase.config = c.phase.config := hstate
  obtain ⟨loop, hmem, hshape⟩ := select_found hselect
  obtain ⟨removed', g', hok, hkept, -⟩ := unrollLoop_kept (kept_cacheLoops hc).ready hmem hshape
  rw [hgraph, hconfig, hok] at hunroll
  cases hunroll
  exact hkept.ready

/-- **Any number of rounds** looks at ready graphs only: unrolling a loop ends with a clean-up, and
the next round starts from what that leaves. -/
theorem Unrolls.looks_ready {result : EStateM.Result Error Compilation Bool}
    (h : Unrolls changed budget c looks result) (hc : c.graph.Ready) :
    ∀ look ∈ looks, look.OfReady := by
  induction h with
  | spent => simp
  | exhausted search | stopped search | failed search => exact search.looks_ready hc
  | unrolled search unroll _ ih =>
    intro look hlook
    rcases List.mem_append.1 hlook with hlook | hlook
    · exact search.looks_ready hc look hlook
    · exact ih (search.ready_unrolled hc unroll) look hlook

theorem Runs.looks_ready {result : EStateM.Result Error Compilation Bool}
    (h : Runs c looks result) (hc : c.graph.Ready) : ∀ look ∈ looks, look.OfReady := by
  have hstart : ∀ {c' : Compilation},
      dump "before loop unrolling" { c with graph := c.graph.resetReachability } = .ok () c' →
        c'.graph.Ready := by
    intro c' hdump
    have hstate := (dump_state "before loop unrolling"
      { c with graph := c.graph.resetReachability }).1
    rw [hdump] at hstate
    have hgraph : c'.graph = c.graph.resetReachability := hstate
    exact hgraph ▸ (kept_resetReachability hc).ready
  cases h with
  | refused | unwritten => simp
  | stopped _ hdump hrounds => exact hrounds.looks_ready (hstart hdump)
  | done _ hdump hrounds _ => exact hrounds.looks_ready (hstart hdump)

/-- A phase that may unroll a loop and has a candidate does look: going through candidates looks at
the first, -/
theorem Selects.looks_ne_nil {result : EStateM.Result Error Compilation (Option LoopShape)}
    (h : Selects c (loop :: loops) looks result) : looks ≠ [] := by
  cases h <;> exact List.cons_ne_nil _ _

/-- and so does a search that finds candidates, -/
theorem Searches.looks_ne_nil {result : EStateM.Result Error Compilation (Option LoopShape)}
    (h : Searches c looks result)
    (horder : c.phase.candidateLoops c.graph.cacheLoops.loopForest = .ok (loop :: loops)) :
    looks ≠ [] := by
  cases h with
  | unordered order =>
    rw [horder] at order
    cases order
  | ordered order hselects =>
    rw [horder] at order
    cases order
    exact hselects.looks_ne_nil

/-- the first round, -/
theorem Unrolls.looks_ne_nil {result : EStateM.Result Error Compilation Bool}
    (h : Unrolls changed budget c looks result) (hbudget : 0 < budget)
    (horder : c.phase.candidateLoops c.graph.cacheLoops.loopForest = .ok (loop :: loops)) :
    looks ≠ [] := by
  cases h with
  | spent => exact absurd hbudget (Nat.lt_irrefl 0)
  | exhausted search | stopped search | failed search => exact search.looks_ne_nil horder
  | unrolled search => exact List.append_ne_nil_of_left_ne_nil (search.looks_ne_nil horder) _

/-- and the run. -/
theorem Runs.looks_ne_nil {result : EStateM.Result Error Compilation Bool}
    (h : Runs c looks result) (hc : c.graph.Ready)
    (hallow : c.phase.config.allows c.graph.function = true)
    (hbudget : 0 < c.phase.config.maxUnrolledLoops - c.phase.unrolled.length)
    (horder : c.phase.candidateLoops c.graph.resetReachability.cacheLoops.loopForest =
      .ok (loop :: loops)) : looks ≠ [] := by
  obtain ⟨events, hdump⟩ := dump_ok (c := { c with graph := c.graph.resetReachability })
    (kept_resetReachability hc).ready.sound.wellFormed.exists_node "before loop unrolling"
  cases h with
  | refused hrefuse =>
    rw [hallow] at hrefuse
    cases hrefuse
  | unwritten _ hstart =>
    rw [hdump] at hstart
    cases hstart
  | stopped _ hstart hrounds | done _ hstart hrounds =>
    rw [hdump] at hstart
    cases hstart
    exact hrounds.looks_ne_nil hbudget horder

/-- **No stale analysis is consulted.**  A phase with any settings and any history runs over a graph
that a builder returned, whose caches are absent or fresh.  Each time it looks at a loop, the
dominator tree, the loops and the predecessor lists are those of the blocks the graph has then, and
the loop is one of these loops; and so they are when the phase is over, whether or not it has
unrolled anything.  The phase returns, unless the counter of iterations overflows under the largest
limit. -/
theorem run_consults_current (hg : Finished g) (trees : Option DominatorTree)
    (forests : Option LoopForest) (htree : AbsentOrFresh trees (g.flow.dominatorTree entry))
    (hforest : AbsentOrFresh forests (g.flow.loopForest (g.flow.dominatorTree entry) entry))
    (phase : Phase) (log : EventLog) :
    ∃ looks result,
      run ⟨phase, { g with dominatorCache := trees, loopCache := forests }, log⟩ = result ∧
      Runs ⟨phase, { g with dominatorCache := trees, loopCache := forests }, log⟩ looks result ∧
      (∀ look ∈ looks, look.graph.Current ∧ look.loop ∈ look.graph.loopForest.loops) ∧
      ((∃ changed c, result = .ok changed c ∧ c.graph.Current) ∨
        phase.config.maxIterations = Trips.last ∧
          ∃ c, result = .error .counterOverflow c ∧ c.graph.Current) := by
  have hready := hg.ready.withCaches htree hforest
  obtain ⟨looks, hruns⟩ :=
    exists_runs ⟨phase, { g with dominatorCache := trees, loopCache := forests }, log⟩
  refine ⟨looks, _, rfl, hruns, fun look hlook => ?_, ?_⟩
  · obtain ⟨hcurrent, hmem⟩ := hruns.looks_ready hready look hlook
    exact ⟨hcurrent.current, hmem⟩
  · rcases ends_run
      (c := ⟨phase, { g with dominatorCache := trees, loopCache := forests }, log⟩) hready with
      ⟨changed, c, hok, hleft⟩ | ⟨e, c, hstopped, ⟨rfl, hlimit⟩, hkept⟩
    · exact .inl ⟨changed, c, hok, hleft.ready.current⟩
    · exact .inr ⟨hlimit, c, hstopped, hkept.ready.current⟩

/-- The counting loop, with its dominator tree kept. -/
def countingStart : Compilation :=
  let g := (Builder.countingLoop true).graph.threadLocals
  ⟨{ config := {} },
    { g with dominatorCache := some (g.flow.dominatorTree entry), loopCache := none }, {}⟩

theorem run_consults_current_countingLoop :
    ∃ looks changed c, run countingStart = .ok changed c ∧
      Runs countingStart looks (.ok changed c) ∧ looks ≠ [] ∧
      (∀ look ∈ looks, look.graph.Current ∧ look.loop ∈ look.graph.loopForest.loops) ∧
      c.graph.Current := by
  have hfinished := finished_countingLoop true
  obtain ⟨looks, result, hrun, hruns, hlooks, hend⟩ :=
    run_consults_current hfinished _ _ (.inr rfl) (.inl rfl) { config := {} } {}
  rcases hend with ⟨changed, c, rfl, hcurrent⟩ | ⟨hlimit, _⟩
  · refine ⟨looks, changed, c, hrun, hruns, ?_, hlooks, hcurrent⟩
    have hloops : ∃ loop rest, countingStart.phase.candidateLoops
        countingStart.graph.resetReachability.cacheLoops.loopForest = .ok (loop :: rest) :=
      ⟨_, _, by cbv⟩
    obtain ⟨loop, rest, hloops⟩ := hloops
    exact hruns.looks_ne_nil (hfinished.ready.withCaches (.inr rfl) (.inl rfl)) rfl (by decide)
      hloops
  · cases hlimit

end Compilation

end Unroller
