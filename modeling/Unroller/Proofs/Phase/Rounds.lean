import Mathlib.Tactic
import Unroller.Proofs.Cloning.Outcomes
import Unroller.Proofs.Loop.Entries
import Unroller.Proofs.Loop.Stops
import Unroller.Proofs.Phase.Candidates

/-!
# The unrolling phase

A phase unrolls one loop after another.  Each round takes a graph that is ready for it and leaves
one that is ready for the next.

* `Ready`: what a round needs of a graph.
* `Kept`: a ready graph that returns what another one returned.
* `unrollLoop_kept`: unrolling an accepted loop succeeds and leaves such a graph.
* `select_stopped`: the search for a loop is stopped by nothing but the counter of iterations.
* `ends_rounds`: so it is with all rounds, by induction on their number.
* `HoldsOverSteps.run`: what holds over every step of the phase holds over a run, failed or not.
* `run_preserves_outcome`: what the graph returns stays the same.
* `entryPad_outcome`: not so if the entry is a pad inside an outer loop.
-/

namespace Unroller

open Unroller.Graph Machine

variable {g h k : Graph} {loop : NaturalLoop} {shape : LoopShape} {config : UnrollConfig}

/-! ## Between two rounds -/

/-- A graph that a round may start from. -/
structure Graph.Ready (g : Graph) : Prop where
  sound : g.Sound
  analyzed : g.Analyzed
  unlinked : g.form = .loadStore → g.Unlinked

/-- A ready graph that returns what the graph `g` returns. -/
structure Kept (g h : Graph) : Prop where
  ready : h.Ready
  entryApart : g.EntryApart → h.EntryApart
  returns : g.EntryApart → ∀ store v final,
    Returns g entry store v final ↔ Returns h entry store v final

theorem Kept.refl (hg : g.Ready) : Kept g g := ⟨hg, fun h => h, fun _ _ _ _ => Iff.rfl⟩

theorem Kept.trans (h₁ : Kept g h) (h₂ : Kept h k) : Kept g k :=
  ⟨h₂.ready, fun he => h₂.entryApart (h₁.entryApart he), fun he store v final =>
    (h₁.returns he store v final).trans (h₂.returns (h₁.entryApart he) store v final)⟩

/-- What leads to the entry is read off the code of the reachable blocks. -/
theorem entryApart_of_sameCode (hg : g.WellFormed)
    (hreach : ∀ b, h.flow.Reaches entry b → g.flow.Reaches entry b)
    (hsame : ∀ b, g.flow.Reaches entry b → SameCode g h b) (he : g.EntryApart) : h.EntryApart := by
  intro block hblock hpad b hb hmem
  obtain ⟨⟨old, new, hold, hnew, _, hflag⟩, _⟩ := hsame entry hg.reaches_entry
  rw [hblock] at hnew
  obtain rfl := Option.some.inj hnew
  obtain ⟨i, hi⟩ := mem_successors_iff_successor?.1 hmem
  rw [(hsame b (hreach b hb)).successor] at hi
  exact he old hold (hflag ▸ hpad) b (hreach b hb) (mem_successors_of_successor? hi)

/-- A graph with the code of another one, as far as that is reachable, returns the same. -/
theorem Kept.of_sameCode (hg : g.WellFormed) (hh : h.Ready)
    (hreach : ∀ b, h.flow.Reaches entry b → g.flow.Reaches entry b)
    (hsame : ∀ b, g.flow.Reaches entry b → SameCode g h b) : Kept g h :=
  ⟨hh, entryApart_of_sameCode hg hreach hsame,
    fun _ _ _ _ => returns_iff_of_sameCode hg hsame⟩

/-- A change of phis and snapshots changes no code. -/
theorem Kept.of_rephrased (hg : g.WellFormed) (hh : h.Ready) (hr : Rephrased g h) : Kept g h := by
  refine .of_sameCode hg hh (fun b hb => ?_) fun b hb => hr.sameCode hg (hg.isLive_of_reaches hb)
  rwa [hr.flow_eq hg] at hb

/-! ## One loop -/

/-- An unrolled loop returns what it returned. -/
theorem returns_iff_unrolled (hg : g.Ready) (hloop : loop ∈ g.loopForest.loops)
    (ha : g.Accepted config loop shape) {first : BlockId}
    (hu : Unrolled g loop shape (shape.extraCopies config) first h) (he : g.EntryApart)
    (store : Store) (v : Value) (final : Store) :
    Returns g entry store v final ↔ Returns h entry store v final := by
  have hparts := loopParts_of_accepted hg.analyzed hloop ha
  cases hfull : shape.isFull with
  | false => exact returns_iff_part hg.sound hg.analyzed hparts ha.header hfull hu
  | true =>
    obtain ⟨count, hcount⟩ := Option.isSome_iff_exists.1 hfull
    obtain ⟨initial, bound, hc, hleft⟩ := CountedLoop.of_accepted hg.analyzed hloop ha hcount
    have hextra : shape.extraCopies config + 1 = count := by
      have := hleft.pos
      simp only [LoopShape.extraCopies, hcount]
      omega
    exact hc.returns_iff_full hg.sound ha.header hfull hu (hextra ▸ hleft)
      (he.notMem_lookedThrough hg.analyzed hparts)

/-- Nothing but reachable blocks, in the form in which loops are unrolled. -/
structure Graph.Tidy (g : Graph) : Prop where
  form : g.form = .loadStore
  reaches : ∀ b, g.isLive b = true → g.flow.Reaches entry b

/-- **Unrolling an accepted loop** succeeds and leaves a graph that returns the same. -/
theorem unrollLoop_kept (hg : g.Ready) (hloop : loop ∈ g.loopForest.loops)
    (hshape : g.loopShape config loop = .ok shape) :
    ∃ removed h, Graph.unrollLoop config shape g = .ok removed h ∧ Kept g h ∧ h.Tidy := by
  have ha := accepted_of_loopShape hshape
  have hparts := loopParts_of_accepted hg.analyzed hloop ha
  obtain ⟨removed, k, h, first, hok, hu, hclean⟩ := unrollLoop_ok hg.sound hg.unlinked
    (region_of_accepted hg.sound hg.analyzed hloop ha) hparts ha.header config
  have hready : h.Ready := ⟨hclean.sound, hclean.analyzed, fun _ => hclean.unlinked⟩
  have hsame : Kept k h := .of_sameCode hu.sound.wellFormed hready
    (fun b => (hclean.reaches_iff b).1) hclean.sameCode
  refine ⟨removed, h, hok, ⟨hready, fun he => ?_, fun he store v final => ?_⟩, hclean.form,
    hclean.live⟩
  · exact hsame.entryApart
      (entryApart_of_unrolled hg.sound.wellFormed hparts ha.header hu he)
  · exact (returns_iff_unrolled hg hloop ha hu he store v final).trans
      (hsame.returns (entryApart_of_unrolled hg.sound.wellFormed hparts ha.header hu he) store v
        final)

/-! ## What stops a phase -/

theorem Graph.thread_eq_ok (h : g.thread = .ok k) : k = g.threadLocals := by
  rw [thread] at h
  obtain ⟨_, _, h⟩ := bind_eq_ok h
  exact (Except.ok.inj h).symm

/-- In a sound graph no node that threading looks at is missing. -/
theorem Graph.Sound.thread (hg : g.Sound) : g.thread = .ok g.threadLocals := by
  have hreset := (Recast.resetReachability hg.wellFormed.entry_live).sound hg
  rw [Graph.thread, hreset.wellFormed.require_nodesOf]
  rfl

/-- Nothing but a missing node keeps a graph from being written as text. -/
theorem Graph.meets_render (g : Graph) :
    Meets (fun e => e.isStop = true ∧ ¬ g.NoneMissing) (fun _ => True) g.render := by
  have hblock : ∀ e ∈ g.liveBlocks, Meets (fun e => e.isStop = true ∧ ¬ g.NoneMissing)
      (fun _ => True) (g.blockLines e.2) := by
    rintro ⟨b, block⟩ hmem
    refine .bind (Meets.mapM fun n hn => ?_) fun lines => trivial
    rw [nodeLine, Graph.node]
    split
    · trivial
    · rename_i hnone
      refine ⟨rfl, fun hg => ?_⟩
      obtain ⟨node, hnode⟩ := exists_node? (hg b block (mem_liveBlocks.1 hmem) n hn)
      rw [hnode] at hnone
      cases hnone
  exact (Meets.mapM hblock).bind fun lines => trivial

theorem Graph.exists_render (hg : g.NoneMissing) : ∃ text, g.render = .ok text :=
  (g.meets_render.imp (fun _ h => h.2 hg) fun _ => id).exists_ok

namespace Compilation

open Cloning (Ends)

variable {c c' : Compilation}

theorem dump_ok (hc : c.graph.NoneMissing) (label : String) :
    ∃ events, dump label c = .ok () (c.record events) := by
  obtain ⟨text, htext⟩ := Graph.exists_render hc
  obtain ⟨events, hevents⟩ : ∃ events, c.phase.dumpEvents c.graph label = .ok events := by
    rw [Phase.dumpEvents, htext]
    split <;> exact ⟨_, rfl⟩
  exact ⟨events, by rw [dump, hevents]⟩

/-- Writing a graph down changes nothing but the log, -/
theorem dump_state (label : String) (c : Compilation) :
    (finalState (dump label c)).graph = c.graph ∧ (finalState (dump label c)).phase = c.phase := by
  rw [dump]
  split <;> exact ⟨rfl, rfl⟩

/-- and looking for a loop nothing but the log and the loops rejected. -/
theorem selectFrom_state (loops : List NaturalLoop) (c : Compilation) :
    (finalState (selectFrom loops c)).graph = c.graph ∧
      (finalState (selectFrom loops c)).phase.config = c.phase.config := by
  induction loops generalizing c with
  | nil => exact ⟨rfl, rfl⟩
  | cons loop rest ih =>
    rw [selectFrom]
    split
    · exact ⟨rfl, rfl⟩
    · exact ih _
    · exact ⟨rfl, rfl⟩

/-- What is found was accepted. -/
theorem selectFrom_found {loops : List NaturalLoop} (h : selectFrom loops c = .ok (some shape) c') :
    ∃ loop ∈ loops, c.graph.loopShape c.phase.config loop = .ok shape := by
  induction loops generalizing c with
  | nil => cases h
  | cons loop rest ih =>
    rw [selectFrom] at h
    split at h
    · rename_i shape' hshape
      cases h
      exact ⟨loop, List.mem_cons_self .., hshape⟩
    · obtain ⟨other, hother, hok⟩ := ih h
      exact ⟨other, List.mem_cons_of_mem _ hother, hok⟩
    · cases h

/-- In a well-formed graph nothing but the counter stops the search. -/
theorem selectFrom_stopped {loops : List NaturalLoop} {e : Error} (hc : c.graph.WellFormed)
    (h : selectFrom loops c = .error e c') : CounterOverflows c.phase.config e := by
  induction loops generalizing c with
  | nil => cases h
  | cons loop rest ih =>
    have hlook := meets_loopShape hc c.phase.config loop
    rw [selectFrom] at h
    split at h
    · cases h
    · rename_i r _
      exact ih (c := c.reject loop.header r) hc h
    · rename_i e' hstopped
      cases h
      rw [hstopped] at hlook
      exact hlook

theorem select_state (c : Compilation) :
    (finalState (select c)).graph = c.graph.cacheLoops ∧
      (finalState (select c)).phase.config = c.phase.config := by
  rw [select]
  simp only
  split
  · exact selectFrom_state _ _
  · exact ⟨rfl, rfl⟩

theorem select_found (h : select c = .ok (some shape) c') :
    ∃ loop ∈ c.graph.cacheLoops.loopForest.loops,
      c.graph.cacheLoops.loopShape c.phase.config loop = .ok shape := by
  rw [select] at h
  simp only at h
  split at h
  · rename_i loops hloops
    obtain ⟨loop, hmem, hshape⟩ := selectFrom_found h
    exact ⟨loop, Phase.mem_of_mem_candidateLoops hloops hmem, hshape⟩
  · cases h

/-! ## Rounds -/

/-- Keeping the analyses changes no code. -/
theorem kept_cacheLoops (hg : g.Ready) : Kept g g.cacheLoops := by
  have hr := recast_cacheLoops g
  refine .of_rephrased hg.sound.wellFormed
    ⟨hr.sound hg.sound, hg.analyzed.cacheLoops hg.sound, fun hform => hr.unlinked ?_⟩
    hr.toRephrased
  refine hg.unlinked ?_
  rw [← hform, cacheLoops]
  split <;> rfl

theorem tidy_cacheLoops (hg : g.WellFormed) (ht : g.Tidy) : g.cacheLoops.Tidy := by
  have hr := (recast_cacheLoops g).toRephrased
  refine ⟨?_, fun b hb => ?_⟩
  · rw [← ht.form, cacheLoops]
    split <;> rfl
  · rw [hr.flow_eq hg]
    exact ht.reaches b (by rwa [hr.isLive_eq] at hb)

theorem laminar_of_ready (hg : g.Ready) : g.loopForest.Laminar := by
  rw [hg.analyzed.loops]
  exact LoopForest.laminar_loopForest _ _

/-- The search for a loop of a ready graph: the depths of all loops are known, so nothing but the
counter stops it. -/
theorem select_stopped {e : Error} (hc : c.graph.Ready) (h : select c = .error e c') :
    CounterOverflows c.phase.config e := by
  have hcache := (kept_cacheLoops hc).ready
  rw [select] at h
  simp only [Phase.candidateLoops_eq (laminar_of_ready hcache)] at h
  exact selectFrom_stopped (c := { c with graph := c.graph.cacheLoops }) hcache.sound.wellFormed h

/-- A phase is stopped by the counter, at a graph that returns what the first one returned. -/
def Overflowed (c : Compilation) (e : Error) (c' : Compilation) : Prop :=
  CounterOverflows c.phase.config e ∧ Kept c.graph c'.graph

/-- **Any number of rounds** ends, unless the counter overflows, with a graph that returns the same;
it is tidy once a loop has been unrolled. -/
theorem ends_rounds (budget : Nat) (changed : Bool) (hc : c.graph.Ready)
    (ht : changed = true → c.graph.Tidy) :
    Ends (fun changed' c' => Kept c.graph c'.graph ∧ (changed' = true → c'.graph.Tidy))
      (Overflowed c) (rounds changed budget) c := by
  induction budget generalizing c changed with
  | zero => exact .of_ok rfl ⟨.refl hc, ht⟩
  | succ budget ih =>
    have hcache := kept_cacheLoops hc
    have hstate := select_state c
    cases hsel : select c with
    | error e c₁ =>
      rw [hsel] at hstate
      have hgraph : c₁.graph = c.graph.cacheLoops := hstate.1
      exact .of_error (by rw [rounds, hsel]) ⟨select_stopped hc hsel, hgraph ▸ hcache⟩
    | ok found c₁ =>
      rw [hsel] at hstate
      obtain ⟨hgraph, hconfig⟩ : c₁.graph = c.graph.cacheLoops ∧
        c₁.phase.config = c.phase.config := hstate
      cases found with
      | none =>
        refine .of_ok (by rw [rounds, hsel]) ⟨hgraph ▸ hcache, fun h => ?_⟩
        exact hgraph ▸ tidy_cacheLoops hc.sound.wellFormed (ht h)
      | some shape =>
        obtain ⟨loop, hmem, hshape⟩ := select_found hsel
        obtain ⟨removed, h, hok, hkept, hh⟩ := unrollLoop_kept hcache.ready hmem hshape
        have hround : rounds changed (budget + 1) c =
            rounds true budget (c₁.finishUnroll shape removed h) := by
          rw [rounds, hsel]
          simp only [hgraph, hconfig, hok]
        have hall := hcache.trans hkept
        rcases ih (c := c₁.finishUnroll shape removed h) true hkept.ready fun _ => hh with
          ⟨changed', c', hrun, hrest, htidy⟩ | ⟨e, c', hrun, hcounter, hrest⟩
        · exact .of_ok (hround.trans hrun) ⟨hall.trans hrest, htidy⟩
        · exact .of_error (hround.trans hrun) ⟨hconfig ▸ hcounter, hall.trans hrest⟩

/-- A relation between a graph and what a step of the phase leaves of it, also where it fails
midway. -/
structure HoldsOverSteps (R : Graph → Graph → Prop) : Prop where
  refl : ∀ g, R g g
  trans : ∀ {g h k}, R g h → R h k → R g k
  cacheLoops : ∀ g, R g g.cacheLoops
  unrollLoop : ∀ config shape g, R g (finalState (Graph.unrollLoop config shape g))
  resetReachability : ∀ g, R g g.resetReachability
  threadLocals : ∀ g, R g g.threadLocals

namespace HoldsOverSteps

variable {R : Graph → Graph → Prop} (hR : HoldsOverSteps R)

include hR

/-- What holds over every step holds over any number of rounds, -/
theorem rounds (budget : Nat) (changed : Bool) (c : Compilation) :
    R c.graph (finalState (Compilation.rounds changed budget c)).graph := by
  induction budget generalizing c changed with
  | zero => exact hR.refl _
  | succ budget ih =>
    have hcache := hR.cacheLoops c.graph
    have hstate := (select_state c).1
    unfold Compilation.rounds
    cases hsel : select c with
    | error e c₁ =>
      rw [hsel] at hstate
      exact hstate ▸ hcache
    | ok found c₁ =>
      rw [hsel] at hstate
      have hgraph : c₁.graph = c.graph.cacheLoops := hstate
      cases found with
      | none => exact hgraph ▸ hcache
      | some shape =>
        have hunroll := hR.unrollLoop c₁.phase.config shape c₁.graph
        simp only
        cases hrun : Graph.unrollLoop c₁.phase.config shape c₁.graph with
        | ok removed k =>
          rw [hrun, hgraph] at hunroll
          exact hR.trans (hR.trans hcache hunroll) (ih true (c₁.finishUnroll shape removed k))
        | error e k =>
          rw [hrun, hgraph] at hunroll
          exact hR.trans hcache hunroll

/-- over the end of a run, -/
theorem finish (changed : Bool) (c : Compilation) :
    R c.graph (finalState (Compilation.finish changed c)).graph := by
  unfold Compilation.finish
  split
  · split
    · exact hR.refl _
    · rename_i k hthread
      have hstate := (dump_state "after loop unrolling" { c with graph := k }).1
      have hk := Graph.thread_eq_ok hthread
      split <;> rename_i hdump <;> rw [hdump] at hstate <;>
        exact hstate ▸ hk ▸ hR.threadLocals c.graph
  · exact hR.refl _

/-- **and over a run**, whether or not it succeeds. -/
theorem run (c : Compilation) : R c.graph (finalState (Compilation.run c)).graph := by
  unfold Compilation.run
  split
  · exact hR.refl _
  have hreset := hR.resetReachability c.graph
  have hstate := (dump_state "before loop unrolling"
    { c with graph := c.graph.resetReachability }).1
  cases hdump : dump "before loop unrolling" { c with graph := c.graph.resetReachability } with
  | error e c₁ =>
    rw [hdump] at hstate
    exact hstate ▸ hreset
  | ok _ c₁ =>
    rw [hdump] at hstate
    have hgraph : c₁.graph = c.graph.resetReachability := hstate
    rw [← hgraph] at hreset
    have hrounds := hR.rounds (c₁.phase.config.maxUnrolledLoops - c₁.phase.unrolled.length) false c₁
    simp only
    cases hrun : Compilation.rounds false
        (c₁.phase.config.maxUnrolledLoops - c₁.phase.unrolled.length) c₁ with
    | error e c₂ =>
      rw [hrun] at hrounds
      exact hR.trans hreset hrounds
    | ok changed c₂ =>
      rw [hrun] at hrounds
      exact hR.trans (hR.trans hreset hrounds) (hR.finish changed c₂)

end HoldsOverSteps

/-! ## The whole phase -/

/-- Recomputing reachability leaves a ready graph ready. -/
theorem kept_resetReachability (hg : g.Ready) : Kept g g.resetReachability := by
  have hentry := hg.sound.wellFormed.entry_live
  have hr := Recast.resetReachability hentry
  have hs := hr.sound hg.sound
  have heq := resetReachability_eq hentry
  refine .of_rephrased hg.sound.wellFormed ⟨hs, ⟨hs.wellFormed,
    reachExact_resetReachability hentry, ?_, ?_⟩, fun hform => hr.unlinked ?_⟩ hr.toRephrased
  · rw [hr.toRephrased.flow_eq hg.sound.wellFormed, ← hg.analyzed.dominators, heq]
    simp only [dominatorTree, flow_withReach]
    rfl
  · rw [hr.toRephrased.flow_eq hg.sound.wellFormed, ← hg.analyzed.loops, heq]
    simp only [loopForest, dominatorTree, flow_withReach]
    rfl
  · refine hg.unlinked ?_
    rw [← hform, heq]
    rfl

/-- What threading the locals of an unrolled graph leaves. -/
theorem kept_threadLocals (hg : g.Ready) (ht : ThreadedFrom g g.threadLocals) :
    Kept g g.threadLocals := by
  have hw := hg.sound.wellFormed
  refine .of_rephrased hw ⟨ht.sound, ⟨ht.sound.wellFormed, ht.reachExact, ?_, ?_⟩, ?_⟩ ht.rephrased
  · rw [ht.rephrased.flow_eq hw, ← hg.analyzed.dominators, dominatorTree, dominatorTree,
      ht.dominatorCache, ht.rephrased.flow_eq hw]
  · rw [ht.rephrased.flow_eq hw, ← hg.analyzed.loops, loopForest, loopForest, ht.loopCache,
      ht.rephrased.flow_eq hw, dominatorTree, dominatorTree, ht.dominatorCache,
      ht.rephrased.flow_eq hw]
  · intro hform
    rw [ht.form] at hform
    cases hform

/-- What a phase leaves. -/
structure Left (g : Graph) (changed : Bool) (h : Graph) : Prop extends Kept g h where
  form : changed = true → h.form = .threaded
  reaches : changed = true → ∀ b, h.isLive b = true → h.flow.Reaches entry b

/-- The end of a run on a ready graph. -/
theorem finish_ok {changed : Bool} (hc : c.graph.Ready) (ht : changed = true → c.graph.Tidy) :
    ∃ c', finish changed c = .ok changed c' ∧ Left c.graph changed c'.graph ∧
      c'.graph = if changed then c.graph.threadLocals else c.graph := by
  rw [finish]
  cases changed with
  | false => exact ⟨c, rfl, ⟨.refl hc, by simp, by simp⟩, rfl⟩
  | true =>
    have htidy := ht rfl
    have hthread := threadedFrom_threadLocals hc.sound (hc.unlinked htidy.form)
    have hw := hc.sound.wellFormed
    obtain ⟨events, hdump⟩ := dump_ok (c := { c with graph := c.graph.threadLocals })
      hthread.sound.wellFormed.exists_node "after loop unrolling"
    refine ⟨({ c with graph := c.graph.threadLocals } : Compilation).record events, ?_,
      ⟨kept_threadLocals hc hthread, fun _ => hthread.form, fun _ b hb => ?_⟩, rfl⟩
    · simp only [if_true, hc.sound.thread, hdump]
    · show c.graph.threadLocals.flow.Reaches entry b
      rw [hthread.rephrased.flow_eq hw]
      exact htidy.reaches b (by rw [← hthread.rephrased.isLive_eq]; exact hb)

/-- A phase that a ready graph is for begins its rounds. -/
theorem run_allowed (hc : c.graph.Ready) (hallow : c.phase.config.allows c.graph.function = true) :
    ∃ events, run c =
      match rounds false (c.phase.config.maxUnrolledLoops - c.phase.unrolled.length)
        (({ c with graph := c.graph.resetReachability } : Compilation).record events) with
      | .error e c => .error e c
      | .ok changed c => finish changed c := by
  obtain ⟨events, hdump⟩ := dump_ok (c := { c with graph := c.graph.resetReachability })
    (kept_resetReachability hc).ready.sound.wellFormed.exists_node "before loop unrolling"
  refine ⟨events, ?_⟩
  simp only [run, hallow, Bool.not_true, Bool.false_eq_true, if_false, hdump]
  rfl

/-- **A phase** ends on every ready graph, unless the counter overflows. -/
theorem ends_run (hc : c.graph.Ready) :
    Ends (fun changed c' => Left c.graph changed c'.graph) (Overflowed c) run c := by
  cases hallow : c.phase.config.allows c.graph.function with
  | false =>
    refine .of_ok (a := false)
      (t := c.record (c.phase.rejectionEvents c.graph entry .functionNotAllowed)) ?_
      ⟨.refl hc, by simp, by simp⟩
    simp only [run, hallow, Bool.not_false, if_true]
  | true =>
    have hreset := kept_resetReachability hc
    obtain ⟨events, hstart⟩ := run_allowed hc hallow
    rcases ends_rounds
      (c := ({ c with graph := c.graph.resetReachability } : Compilation).record events)
      (c.phase.config.maxUnrolledLoops - c.phase.unrolled.length) false hreset.ready (by simp) with
      ⟨changed, c₁, hrun, hkept, htidy⟩ | ⟨e, c₁, hrun, hcounter, hkept⟩
    · obtain ⟨c', hfinish, hleft, _⟩ := finish_ok hkept.ready htidy
      refine .of_ok (a := changed) (t := c') ?_
        ⟨(hreset.trans hkept).trans hleft.toKept, hleft.form, hleft.reaches⟩
      rw [hstart, hrun]
      exact hfinish
    · refine .of_error (e := e) (t := c₁) ?_ ⟨hcounter, hreset.trans hkept⟩
      rw [hstart, hrun]

end Compilation

theorem Finished.ready (hg : Finished g) : g.Ready := by
  obtain ⟨hs, ha, hform⟩ := hg.sound_analyzed
  exact ⟨hs, ha, fun h => by rw [hform] at h; cases h⟩

/-! ## What a run of the graph returns -/

theorem Machine.Returns.unique {b : BlockId} {store final final' : Store} {v v' : Value}
    (h : Returns g b store v final) (h' : Returns g b store v' final') :
    v' = v ∧ final' = final := by
  induction h with
  | here hv =>
    cases h' with
    | here hv' =>
      rw [hv] at hv'
      cases hv'
      exact ⟨rfl, rfl⟩
    | step hv' _ _ =>
      rw [hv] at hv'
      cases hv'
  | step hv ht _ ih =>
    cases h' with
    | here hv' =>
      rw [hv] at hv'
      cases hv'
    | step hv' ht' hreturns =>
      rw [hv] at hv'
      cases hv'
      rw [ht] at ht'
      cases ht'
      exact ih hreturns

/-- Two graphs whose visits return the same have runs that return the same. -/
theorem Machine.run_ok_iff_of_returns (hg : g.WellFormed) (hh : h.WellFormed) {store : Store}
    (hreturns : ∀ v final, Returns g entry store v final ↔ Returns h entry store v final) :
    ((∃ budget e, Machine.run g store budget = .ok e) ↔
        ∃ budget e, Machine.run h store budget = .ok e) ∧
      ∀ budget e budget' e', Machine.run g store budget = .ok e →
        Machine.run h store budget' = .ok e' →
        e'.returnValue = e.returnValue ∧ e'.trace = e.trace ∧ e'.arrays = e.arrays := by
  have hrun : ∀ {k : Graph}, k.WellFormed → ∀ {budget e}, Machine.run k store budget = .ok e →
      ∃ final, Returns k entry store e.returnValue final ∧ final.trace = e.trace ∧
        final.arrays = e.arrays := by
    intro k hk budget e he
    exact (run_ok_iff hk store _ _ _).1 ⟨budget, e.steps, he⟩
  have hback : ∀ {k : Graph}, k.WellFormed → ∀ {v final}, Returns k entry store v final →
      ∃ budget e, Machine.run k store budget = .ok e := by
    intro k hk v final hret
    obtain ⟨budget, steps, he⟩ := (run_ok_iff hk store v _ _).2 ⟨final, hret, rfl, rfl⟩
    exact ⟨budget, _, he⟩
  refine ⟨⟨?_, ?_⟩, ?_⟩
  · rintro ⟨budget, e, he⟩
    obtain ⟨final, hret, _⟩ := hrun hg he
    exact hback hh ((hreturns _ _).1 hret)
  · rintro ⟨budget, e, he⟩
    obtain ⟨final, hret, _⟩ := hrun hh he
    exact hback hg ((hreturns _ _).2 hret)
  · intro budget e budget' e' he he'
    obtain ⟨final, hret, htrace, harrays⟩ := hrun hg he
    obtain ⟨final', hret', htrace', harrays'⟩ := hrun hh he'
    obtain ⟨hv, rfl⟩ := hret.unique ((hreturns _ _).2 hret')
    exact ⟨hv, htrace'.symm.trans htrace, harrays'.symm.trans harrays⟩

/-- **The phase preserves what a graph returns**, unless the entry is a pad that something leads to.
A run of the graph returns under some budget exactly when a run of what the phase leaves does, and
then with the same value, trace and arrays.  Under the largest limit on iterations the counter may
overflow, and then the phase stops instead. -/
theorem Compilation.run_preserves_outcome (hg : Finished g) (he : g.EntryApart) (phase : Phase)
    (log : EventLog) (store : Store) :
    (∃ changed c, Compilation.run ⟨phase, g, log⟩ = .ok changed c ∧
      ((∃ budget e, Machine.run g store budget = .ok e) ↔
        ∃ budget e, Machine.run c.graph store budget = .ok e) ∧
      ∀ budget e budget' e', Machine.run g store budget = .ok e →
        Machine.run c.graph store budget' = .ok e' →
        e'.returnValue = e.returnValue ∧ e'.trace = e.trace ∧ e'.arrays = e.arrays) ∨
    phase.config.maxIterations = Trips.last ∧
      ∃ c, Compilation.run ⟨phase, g, log⟩ = .error .counterOverflow c := by
  rcases Compilation.ends_run (c := ⟨phase, g, log⟩) hg.ready with
    ⟨changed, c, hok, hleft⟩ | ⟨e, c, hstopped, ⟨rfl, hlimit⟩, _⟩
  · exact .inl ⟨changed, c, hok, run_ok_iff_of_returns hg.ready.sound.wellFormed
      hleft.ready.sound.wellFormed (hleft.returns he store)⟩
  · exact .inr ⟨hlimit, c, hstopped⟩

theorem Compilation.run_preserves_outcome_countingLoop :
    ∃ changed c, Compilation.run
        ⟨{ config := {} }, (Builder.countingLoop true).graph.threadLocals, {}⟩ = .ok changed c ∧
      ((∃ budget e, Machine.run (Builder.countingLoop true).graph.threadLocals {} budget = .ok e) ↔
        ∃ budget e, Machine.run c.graph {} budget = .ok e) := by
  rcases Compilation.run_preserves_outcome (finished_countingLoop true)
    (entryApart_countingLoop true) { config := {} } {} {} with
    ⟨changed, c, hok, hiff, _⟩ | ⟨hlimit, _⟩
  · exact ⟨changed, c, hok, hiff⟩
  · cases hlimit

/-! ## An entry inside an outer loop -/

/-- A phase that may unroll one loop, and finds one. -/
theorem Compilation.run_single {c : Compilation} {rest : List NaturalLoop} (hc : c.graph.Ready)
    (hallow : c.phase.config.allows c.graph.function = true)
    (hlimit : c.phase.config.maxUnrolledLoops - c.phase.unrolled.length = 1)
    (hloops : c.phase.candidateLoops c.graph.resetReachability.cacheLoops.loopForest =
      .ok (loop :: rest))
    (hshape : c.graph.resetReachability.cacheLoops.loopShape c.phase.config loop = .ok shape) :
    ∃ removed h c',
      Graph.unrollLoop c.phase.config shape c.graph.resetReachability.cacheLoops = .ok removed h ∧
        Compilation.run c = .ok true c' ∧ c'.graph = h.threadLocals := by
  have hcache := kept_cacheLoops (kept_resetReachability hc).ready
  obtain ⟨removed, h, hok, hkept, htidy⟩ := unrollLoop_kept hcache.ready
    (Phase.mem_of_mem_candidateLoops hloops (List.mem_cons_self ..)) hshape
  obtain ⟨events, hstart⟩ := run_allowed hc hallow
  let c₁ : Compilation := { c with graph := c.graph.resetReachability.cacheLoops }
  obtain ⟨c', hfinish, _, hgraph⟩ :=
    @finish_ok ((c₁.record events).finishUnroll shape removed h) true hkept.ready fun _ => htidy
  refine ⟨removed, h, c', hok, ?_, hgraph⟩
  rw [hstart, hlimit]
  have hselect :
      select (({ c with graph := c.graph.resetReachability } : Compilation).record events) =
      .ok (some shape) (c₁.record events) := by
    simp only [select, record, hloops, selectFrom, hshape, c₁]
  rw [rounds, hselect]
  simp only [record, c₁, hok]
  exact hfinish

/-- The graph of `entryPadLoop` as a phase comes to look at it. -/
def entryPadReset : Graph := Builder.entryPadLoop.graph.threadLocals.resetReachability.cacheLoops

theorem accepted_entryPadReset :
    entryPadReset.Accepted { maxUnrolledLoops := 1 } entryPadInner entryPadShape where
  header := rfl
  preHeader := by cbv
  bottom := by cbv
  induction := by decide +kernel
  iterations := by cbv
  body := by decide +kernel
  profitable := by
    show BodyStats.profitable _ _ {} = .ok ()
    decide +kernel

/-- The graph that unrolling the inner loop of `entryPadLoop` leaves. -/
def entryPadUnrolled : Graph :=
  match Graph.unrollLoop { maxUnrolledLoops := 1 } entryPadShape entryPadReset with
  | .ok _ h | .error _ h => h

/-- Locals 0, 1 and 2 of a run that never goes back to the entry. -/
def entryPadStore : Store := { locals := #[.int32 (-5), .int32 0, .int32 0] }

/-- **What a graph returns can change** if the entry is a pad inside an outer loop: of the eight
trips that the inner loop makes the first time, three are left. -/
theorem Compilation.entryPad_outcome :
    Finished Builder.entryPadLoop.graph.threadLocals ∧
      ∃ c, Compilation.run ⟨{ config := { maxUnrolledLoops := 1 } },
          Builder.entryPadLoop.graph.threadLocals, {}⟩ = .ok true c ∧
        (Machine.run Builder.entryPadLoop.graph.threadLocals entryPadStore 100).toOption.map
          Execution.returnValue = some (.int32 8) ∧
        (Machine.run c.graph entryPadStore 100).toOption.map Execution.returnValue =
          some (.int32 3) := by
  refine ⟨finished_entryPadLoop, ?_⟩
  obtain ⟨rest, hloops⟩ : ∃ rest, ({ config := { maxUnrolledLoops := 1 } } : Phase).candidateLoops
      entryPadReset.loopForest = .ok (entryPadInner :: rest) := ⟨_, by cbv⟩
  obtain ⟨removed, h, c, hok, hrun, hgraph⟩ := Compilation.run_single
    (c := ⟨{ config := { maxUnrolledLoops := 1 } }, Builder.entryPadLoop.graph.threadLocals, {}⟩)
    finished_entryPadLoop.ready rfl rfl hloops (loopShape_of_accepted accepted_entryPadReset)
  have hunrolled : entryPadUnrolled = h := by
    rw [entryPadUnrolled, entryPadReset, hok]
  refine ⟨c, hrun, by decide +kernel, ?_⟩
  rw [hgraph, ← hunrolled]
  decide +kernel

end Unroller
