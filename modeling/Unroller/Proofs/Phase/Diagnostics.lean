import Mathlib.Tactic
import Unroller.Proofs.Phase.Edits

/-!
# Two runs of a phase side by side

A phase writes to its log and never reads it, and two of its settings, `verbose` and `dumpGraph`,
only decide what it writes.  Both are read off one comparison: two runs that start alike go on
alike, step by step, and differ at most in events that nobody asks for.  The one thing that can come
between them is a listed node that does not exist: writing such a graph down stops a run.

* `Agree`: two results of the same sort, with related states, or a run that was stopped for cause.
* `UnrollConfig.AgreesOn`: settings that differ at most in which events are recorded.
* `Compilation.Twin`: two phases that have done the same so far.
* `Twin.selectFrom`, `Twin.rounds`, `Twin.run`: twins stay twins.
* `run_ignores_diagnostics`: what is recorded has no influence on what is done.
-/

namespace Unroller

open Unroller.Graph (Edited)

/-- Both computations succeed with the same result, or both fail with the same error, and the states
they leave are related; or there is an excuse, and one of them is stopped. -/
inductive Agree {σ τ α : Type} (excuse : Prop) (R : σ → τ → Prop) :
    EStateM.Result Error σ α → EStateM.Result Error τ α → Prop where
  | ok {a : α} {s : σ} {t : τ} (related : R s t) : Agree excuse R (.ok a s) (.ok a t)
  | error {e : Error} {s : σ} {t : τ} (related : R s t) : Agree excuse R (.error e s) (.error e t)
  | left {e : Error} {s : σ} {y : EStateM.Result Error τ α} (excused : excuse)
      (stopped : e.isStop = true) : Agree excuse R (.error e s) y
  | right {e : Error} {x : EStateM.Result Error σ α} {t : τ} (excused : excuse)
      (stopped : e.isStop = true) : Agree excuse R x (.error e t)

theorem Agree.imp {σ τ α : Type} {excuse : Prop} {R S : σ → τ → Prop}
    {x : EStateM.Result Error σ α} {y : EStateM.Result Error τ α} (h : Agree excuse R x y)
    (himp : ∀ s t, R s t → S s t) : Agree excuse S x y := by
  cases h with
  | ok hR => exact .ok (himp _ _ hR)
  | error hR => exact .error (himp _ _ hR)
  | left excused stopped => exact .left excused stopped
  | right excused stopped => exact .right excused stopped

variable {keep : Event → Bool} {dumps : Prop}

/-! ## Logs -/

namespace EventLog

variable {log log' new new' : EventLog}

theorem recordAll_append (log : EventLog) (es fs : List Event) :
    log.recordAll (es ++ fs) = (log.recordAll es).recordAll fs := by
  unfold recordAll
  exact List.foldl_append

@[simp]
theorem events_recordAll (log : EventLog) (es : List Event) :
    (log.recordAll es).events.toList = log.events.toList ++ es := by
  induction es generalizing log with
  | nil => simp [recordAll]
  | cons e rest ih =>
    have hstep : log.recordAll (e :: rest) = (log.record e).recordAll rest := rfl
    rw [hstep, ih]
    simp [record]

/-- Each of two logs has grown, and among the events added those that `keep` selects are the
same. -/
def GrownAlike (keep : Event → Bool) (log new log' new' : EventLog) : Prop :=
  ∃ es es', new = log.recordAll es ∧ new' = log'.recordAll es' ∧ es.filter keep = es'.filter keep

theorem GrownAlike.refl (keep : Event → Bool) (log log' : EventLog) :
    GrownAlike keep log log log' log' :=
  ⟨[], [], rfl, rfl, rfl⟩

theorem GrownAlike.recordAll (h : GrownAlike keep log new log' new') {fs fs' : List Event}
    (hfs : fs.filter keep = fs'.filter keep) :
    GrownAlike keep log (new.recordAll fs) log' (new'.recordAll fs') := by
  obtain ⟨es, es', rfl, rfl, hes⟩ := h
  refine ⟨es ++ fs, es' ++ fs', (recordAll_append ..).symm, (recordAll_append ..).symm, ?_⟩
  rw [List.filter_append, List.filter_append, hes, hfs]

end EventLog

/-! ## Settings -/

/-- Settings that differ at most in `verbose` and `dumpGraph`, and there only if none of the events
in question is one that `keep` selects; in `dumpGraph` only if `dumps`. -/
structure UnrollConfig.AgreesOn (keep : Event → Bool) (dumps : Prop)
    (config config' : UnrollConfig) :
    Prop where
  limits : config' =
    { config with verbose := config'.verbose, dumpGraph := config'.dumpGraph }
  verbose : config'.verbose = config.verbose ∨ ∀ e, e.kind = .loopRejected → keep e = false
  dumpGraph : config'.dumpGraph = config.dumpGraph ∨ dumps ∧ ∀ e, e.kind = .info → keep e = false

namespace UnrollConfig.AgreesOn

variable {config config' : UnrollConfig}

theorem refl (keep : Event → Bool) (config : UnrollConfig) : config.AgreesOn keep False config :=
  ⟨rfl, .inl rfl, .inl rfl⟩

variable (h : config.AgreesOn keep dumps config')

include h

theorem allows_eq (function : Option FunctionHash) :
    config'.allows function = config.allows function := by
  rw [h.limits]
  rfl

theorem maxUnrolledLoops_eq : config'.maxUnrolledLoops = config.maxUnrolledLoops := by
  rw [h.limits]

theorem innermostOnly_eq : config'.innermostOnly = config.innermostOnly := by
  rw [h.limits]

/-- The shape of a loop does not depend on what is recorded. -/
theorem loopShape_eq (g : Graph) (loop : NaturalLoop) :
    g.loopShape config' loop = g.loopShape config loop := by
  rw [h.limits]
  rfl

/-- Nor does the way in which it is unrolled. -/
theorem unrollLoop_eq (shape : LoopShape) (g : Graph) :
    Graph.unrollLoop config' shape g = Graph.unrollLoop config shape g := by
  rw [h.limits]
  rfl

end UnrollConfig.AgreesOn

/-! ## Events -/

namespace Phase

/-- Writing a graph down gives notes only, and fails only where a node is missing. -/
theorem meets_dumpEvents (hdrop : ∀ e, e.kind = .info → keep e = false) (p : Phase) (g : Graph)
    (label : String) : Meets (fun e => e.isStop = true ∧ ¬ g.NoneMissing)
      (fun es => es.filter keep = []) (p.dumpEvents g label) := by
  rw [dumpEvents]
  split
  · refine g.meets_render.bind fun text => List.filter_eq_nil_iff.2 fun e he => ?_
    obtain rfl := List.mem_singleton.1 he
    simp [hdrop]
  · exact List.filter_nil

variable {p p' : Phase} (h : p.config.AgreesOn keep dumps p'.config)

include h

theorem filter_rejectionEvents (g : Graph) (header : BlockId) (r : Rejection) :
    (p.rejectionEvents g header r).filter keep = (p'.rejectionEvents g header r).filter keep := by
  unfold rejectionEvents
  rcases h.verbose with heq | hdrop
  · rw [heq]
  · -- the only event there can be is dropped
    cases p.config.verbose <;> cases p'.config.verbose <;> simp [hdrop]

theorem unrollEvents_eq (g : Graph) (shape : LoopShape) (removed : List BlockId) :
    p'.unrollEvents g shape removed = p.unrollEvents g shape removed := by
  unfold unrollEvents
  rw [h.limits]

theorem candidateLoops_congr (hunrolled : p'.unrolled = p.unrolled)
    (hrejected : p'.rejected = p.rejected) (forest : LoopForest) :
    p'.candidateLoops forest = p.candidateLoops forest := by
  have heligible : p'.isEligible forest = p.isEligible forest := by
    funext loop
    unfold isEligible
    rw [hunrolled, hrejected, h.innermostOnly_eq]
  unfold candidateLoops
  rw [heligible]

end Phase

/-! ## Twins -/

namespace Compilation

/-- Two phases that have done the same to the same graph since their logs were `log` and `log'`, and
have recorded the same events as far as `keep` selects them. -/
structure Twin (keep : Event → Bool) (dumps : Prop) (log log' : EventLog) (c d : Compilation) :
    Prop where
  config : c.phase.config.AgreesOn keep dumps d.phase.config
  unrolled : d.phase.unrolled = c.phase.unrolled
  rejected : d.phase.rejected = c.phase.rejected
  graph : d.graph = c.graph
  log : EventLog.GrownAlike keep log c.log log' d.log

namespace Twin

variable {log log' : EventLog} {c d : Compilation} {excuse : Prop}

theorem record (h : Twin keep dumps log log' c d) {es es' : List Event}
    (hes : es.filter keep = es'.filter keep) :
    Twin keep dumps log log' (c.record es) (d.record es') :=
  ⟨h.config, h.unrolled, h.rejected, h.graph, h.log.recordAll hes⟩

theorem withGraph (h : Twin keep dumps log log' c d) (g : Graph) :
    Twin keep dumps log log' { c with graph := g } { d with graph := g } :=
  ⟨h.config, h.unrolled, h.rejected, rfl, h.log⟩

/-- Rejecting a loop. -/
theorem reject (h : Twin keep dumps log log' c d) (header : BlockId) (r : Rejection) :
    Twin keep dumps log log' (c.reject header r) (d.reject header r) := by
  have hphase : Twin keep dumps log log'
      { c with phase := { c.phase with rejected := c.phase.rejected.insert header } }
      { d with phase := { d.phase with rejected := d.phase.rejected.insert header } } :=
    ⟨h.config, h.unrolled, congrArg (List.insert header) h.rejected, h.graph, h.log⟩
  apply hphase.record
  rw [h.graph]
  exact Phase.filter_rejectionEvents h.config c.graph header r

/-- **Writing the graph down**: twins go on, unless one of them writes, and a node is missing. -/
theorem dump (h : Twin keep dumps log log' c d) (hexcuse : ¬ c.graph.NoneMissing → excuse)
    (label : String) : Agree (dumps ∧ excuse) (Twin keep dumps log log')
      (Compilation.dump label c) (Compilation.dump label d) := by
  rw [Compilation.dump, Compilation.dump, h.graph]
  rcases h.config.dumpGraph with heq | ⟨hdumps, hdrop⟩
  · have hsame : d.phase.dumpEvents c.graph label = c.phase.dumpEvents c.graph label := by
      rw [Phase.dumpEvents, Phase.dumpEvents, heq]
    rw [hsame]
    cases c.phase.dumpEvents c.graph label with
    | ok es => exact .ok (h.record rfl)
    | error e => exact .error h
  · have hleft := Phase.meets_dumpEvents hdrop c.phase c.graph label
    have hright := Phase.meets_dumpEvents hdrop d.phase c.graph label
    generalize c.phase.dumpEvents c.graph label = left at hleft ⊢
    generalize d.phase.dumpEvents c.graph label = right at hright ⊢
    cases left with
    | error e => exact .left ⟨hdumps, hexcuse hleft.2⟩ hleft.1
    | ok es =>
      cases right with
      | error e => exact .right ⟨hdumps, hexcuse hright.2⟩ hright.1
      | ok es' => exact .ok (h.record (hleft.trans hright.symm))

/-- **Looking for a loop**: twins find the same. -/
theorem selectFrom (h : Twin keep dumps log log' c d) (loops : List NaturalLoop) :
    Agree excuse (Twin keep dumps log log') (Compilation.selectFrom loops c)
      (Compilation.selectFrom loops d) := by
  induction loops generalizing c d with
  | nil => exact .ok h
  | cons loop rest ih =>
    have hshape :
        d.graph.loopShape d.phase.config loop = c.graph.loopShape c.phase.config loop := by
      rw [h.graph, h.config.loopShape_eq]
    rw [Compilation.selectFrom, Compilation.selectFrom, hshape]
    rcases c.graph.loopShape c.phase.config loop with (r | e) | shape
    · exact ih (h.reject loop.header r)
    · exact .error h
    · exact .ok h

theorem select (h : Twin keep dumps log log' c d) :
    Agree excuse (Twin keep dumps log log') (Compilation.select c) (Compilation.select d) := by
  have hloops := Phase.candidateLoops_congr h.config h.unrolled h.rejected
  have hcached := h.withGraph c.graph.cacheLoops
  simp only [Compilation.select, h.graph, hloops]
  cases c.phase.candidateLoops c.graph.cacheLoops.loopForest with
  | error e => exact .error hcached
  | ok loops => exact hcached.selectFrom loops

/-- Taking an unrolled loop into account. -/
theorem finishUnroll (h : Twin keep dumps log log' c d) (shape : LoopShape) (removed : List BlockId)
    (g : Graph) :
    Twin keep dumps log log' (c.finishUnroll shape removed g) (d.finishUnroll shape removed g) := by
  have hphase : Twin keep dumps log log'
      { c with
        phase := { c.phase with unrolled := c.phase.unrolled.insert shape.header }, graph := g }
      { d with
        phase := { d.phase with unrolled := d.phase.unrolled.insert shape.header }, graph := g } :=
    ⟨h.config, congrArg (List.insert shape.header) h.unrolled, h.rejected, rfl, h.log⟩
  apply hphase.record
  rw [Phase.unrollEvents_eq h.config]

/-- **Any number of rounds**: twins unroll the same loops. -/
theorem rounds (h : Twin keep dumps log log' c d) (budget : Nat) (changed : Bool) :
    Agree excuse (Twin keep dumps log log') (Compilation.rounds changed budget c)
      (Compilation.rounds changed budget d) := by
  induction budget generalizing c d changed with
  | zero => exact .ok h
  | succ budget ih =>
    have hselect : Agree excuse (Twin keep dumps log log') (Compilation.select c)
        (Compilation.select d) := h.select
    rw [Compilation.rounds, Compilation.rounds]
    generalize Compilation.select c = left at hselect ⊢
    generalize Compilation.select d = right at hselect ⊢
    cases hselect with
    | error hnext => exact .error hnext
    | left excused stopped => exact .left excused stopped
    | right excused stopped => exact .right excused stopped
    | @ok found c' d' hnext =>
      cases found with
      | none => exact .ok hnext
      | some shape =>
        simp only
        rw [hnext.graph, hnext.config.unrollLoop_eq]
        cases Graph.unrollLoop c'.phase.config shape c'.graph with
        | ok removed g => exact ih (hnext.finishUnroll shape removed g) true
        | error e g => exact .error (hnext.withGraph g)

theorem finish (h : Twin keep dumps log log' c d) (hexcuse : ¬ c.graph.NoneMissing → excuse)
    (changed : Bool) : Agree (dumps ∧ excuse) (Twin keep dumps log log')
      (Compilation.finish changed c) (Compilation.finish changed d) := by
  cases changed with
  | false => exact .ok h
  | true =>
    simp only [Compilation.finish, if_true, h.graph]
    cases hthread : c.graph.thread with
    | error e => exact .error h
    | ok g =>
      have hg := Graph.thread_eq_ok hthread
      have hmissing : ¬ g.NoneMissing → excuse := fun hmissing => hexcuse fun hc =>
        hmissing (hg ▸ (Graph.relisted_threadLocals hc).noneMissing hc)
      have hdump := (h.withGraph g).dump hmissing "after loop unrolling"
      simp only
      generalize Compilation.dump "after loop unrolling" { c with graph := g } = left at hdump ⊢
      generalize Compilation.dump "after loop unrolling" { d with graph := g } = right at hdump ⊢
      cases hdump with
      | ok hnext => exact .ok hnext
      | error hnext => exact .error hnext
      | left excused stopped => exact .left excused stopped
      | right excused stopped => exact .right excused stopped

/-- **The whole phase**: twins end alike, unless one of them writes, and a node is missing. -/
theorem run (h : Twin keep dumps log log' c d) :
    Agree (dumps ∧ ¬ c.graph.NoneMissing) (Twin keep dumps log log') (Compilation.run c)
      (Compilation.run d) := by
  -- edits list no node that does not exist, so a missing one was missing from the start
  have hexcuse : ∀ {g : Graph}, Edited c.graph g → ¬ g.NoneMissing → ¬ c.graph.NoneMissing :=
    fun hedits hmissing hc => hmissing (hedits.noneMissing hc)
  have hreset : Edited c.graph c.graph.resetReachability := .single .resetReachability
  unfold Compilation.run
  rw [h.graph, h.config.allows_eq]
  split
  · exact .ok (h.record (Phase.filter_rejectionEvents h.config _ _ _))
  · have hdump := (h.withGraph c.graph.resetReachability).dump (hexcuse hreset)
      "before loop unrolling"
    have hstate := (dump_state "before loop unrolling"
      { c with graph := c.graph.resetReachability }).1
    generalize Compilation.dump _ { c with graph := c.graph.resetReachability } = left
      at hdump hstate ⊢
    generalize Compilation.dump _ { d with graph := c.graph.resetReachability } = right
      at hdump ⊢
    cases hdump with
    | error hnext => exact .error hnext
    | left excused stopped => exact .left excused stopped
    | right excused stopped => exact .right excused stopped
    | @ok _ c' d' hnext =>
      have hgraph : c'.graph = c.graph.resetReachability := hstate
      rw [← hgraph] at hreset
      have hrounds : Agree (dumps ∧ ¬ c.graph.NoneMissing) (Twin keep dumps log log')
          (Compilation.rounds false
            (c'.phase.config.maxUnrolledLoops - c'.phase.unrolled.length) c')
          (Compilation.rounds false
            (c'.phase.config.maxUnrolledLoops - c'.phase.unrolled.length) d') :=
        hnext.rounds _ _
      have hedits := holdsOverSteps_edited.rounds
        (c'.phase.config.maxUnrolledLoops - c'.phase.unrolled.length) false c'
      simp only [hnext.config.maxUnrolledLoops_eq, hnext.unrolled]
      generalize Compilation.rounds false _ c' = left at hrounds hedits ⊢
      generalize Compilation.rounds false _ d' = right at hrounds ⊢
      cases hrounds with
      | error hlast => exact .error hlast
      | left excused stopped => exact .left excused stopped
      | right excused stopped => exact .right excused stopped
      | ok hlast => exact hlast.finish (hexcuse (hreset.trans hedits)) _

end Twin

/-! ## Diagnostics -/

/-- Two phases have done the same to the same graph, and the transformations they have recorded
since their logs were `log` and `log'` are the same. -/
structure SameWork (log log' : EventLog) (c d : Compilation) : Prop where
  graph : d.graph = c.graph
  unrolled : d.phase.unrolled = c.phase.unrolled
  rejected : d.phase.rejected = c.phase.rejected
  transformations :
    EventLog.GrownAlike (fun e => e.kind.isTransformation) log c.log log' d.log

end Compilation

end Unroller
