import Unroller.Proofs.Digraph.LoopForest
import Unroller.Proofs.Loop.Removal
import Unroller.Proofs.Phase.Diagnostics
import Unroller.Proofs.Phase.Freshness

/-!
# One verdict for each loop

A phase keeps what it has decided about loops from run to run.  Over any number of runs, each loop
is unrolled or rejected once at most, and the events recorded tell exactly what was done.

* `Look.unrolling?`, `Look.events`: what comes of a look at a loop, and the events it gives rise to.
* `Tallies`: what a phase has decided and recorded between two moments is what its looks say.
* `Searches.tallies`, `Unrolls.tallies`, `Runs.tallies`: so it is for one search, any number of
  rounds and a whole run.
* `History`: the runs of one phase over graph after graph.
* `Judged`, `Outcome.Exact`: what is claimed of all runs together, and of each.
* `history_judged`: so it is after any history.
-/

namespace Unroller

open Unroller.Graph

/-! ## Forests that were computed -/

/-- A kept loop forest was computed, be it for another graph. -/
def Graph.ForestComputed (g : Graph) : Prop :=
  ∀ f, g.loopCache = some f → ∃ (d : Digraph) (tree : DominatorTree) (root : Nat),
    f = d.loopForest tree root

namespace Graph

variable {g : Graph}

theorem ForestComputed.loopForest (hg : g.ForestComputed) :
    ∃ (d : Digraph) (tree : DominatorTree) (root : Nat),
      g.loopForest = d.loopForest tree root := by
  unfold Graph.loopForest
  split
  · rename_i f hf
    exact hg f hf
  · exact ⟨_, _, _, rfl⟩

/-- No two loops of a computed forest have the same header. -/
theorem ForestComputed.nodup_headers (hg : g.ForestComputed) :
    (g.loopForest.loops.map NaturalLoop.header).Nodup := by
  obtain ⟨d, tree, root, heq⟩ := hg.loopForest
  rw [heq]
  exact Digraph.nodup_headers tree root

theorem ForestComputed.cacheLoops (hg : g.ForestComputed) : g.cacheLoops.ForestComputed := by
  unfold Graph.cacheLoops
  split
  · exact hg
  · intro f hf
    obtain rfl := Option.some.inj hf
    have hkept : g.cacheDominators.ForestComputed := hg
    exact hkept.loopForest

theorem ForestComputed.resetReachability (hg : g.ForestComputed) :
    g.resetReachability.ForestComputed := by
  intro f hf
  rw [(blocksEdited_resetReachability g).1] at hf
  exact hg f hf

theorem Uncached.forestComputed (hg : g.Uncached) : g.ForestComputed := by
  intro f hf
  rw [hg.2] at hf
  cases hf

end Graph

namespace Compilation

/-! ## What comes of a look -/

/-- A loop that was unrolled, the blocks removed and the graph after it. -/
structure Unrolling where
  shape : LoopShape
  removed : List BlockId
  after : Graph

namespace Look

/-- The unrolling of the loop looked at, if it is accepted and can be unrolled. -/
def unrolling? (config : UnrollConfig) (look : Look) : Option Unrolling :=
  match look.graph.loopShape config look.loop with
  | .error _ => none
  | .ok shape =>
    match Graph.unrollLoop config shape look.graph with
    | .ok removed after => some ⟨shape, removed, after⟩
    | .error _ _ => none

/-- The look led to a verdict: the loop was rejected or unrolled. -/
def Decides (config : UnrollConfig) (look : Look) : Prop :=
  (∃ r, look.graph.loopShape config look.loop = .error (.rejected r)) ∨
    (look.unrolling? config).isSome

/-- The events that a look gives rise to. -/
def events (config : UnrollConfig) (look : Look) : List Event :=
  match look.graph.loopShape config look.loop with
  | .error (.rejected r) =>
    Phase.rejectionEvents { config := config } look.graph look.loop.header r
  | .error (.stopped _) => []
  | .ok shape =>
    match Graph.unrollLoop config shape look.graph with
    | .ok removed after => Phase.unrollEvents { config := config } after shape removed
    | .error _ _ => []

end Look

/-- The headers of the loops looked at that were unrolled. -/
def unrolledHeaders (config : UnrollConfig) (looks : List Look) : List BlockId :=
  (looks.filter fun look => (look.unrolling? config).isSome).map fun look => look.loop.header

/-- The headers of the loops looked at that were not. -/
def rejectedHeaders (config : UnrollConfig) (looks : List Look) : List BlockId :=
  (looks.filter fun look => (look.unrolling? config).isNone).map fun look => look.loop.header

variable {config : UnrollConfig} {c c' c'' d : Compilation} {looks looks' : List Look}
  {es fs : List Event} {loop : NaturalLoop} {shape : LoopShape}

theorem unrolledHeaders_append (looks looks' : List Look) :
    unrolledHeaders config (looks ++ looks') =
      unrolledHeaders config looks ++ unrolledHeaders config looks' := by
  simp [unrolledHeaders]

theorem mem_headers {look : Look} (h : look ∈ looks) :
    look.loop.header ∈ unrolledHeaders config looks ∨
      look.loop.header ∈ rejectedHeaders config looks := by
  cases hu : look.unrolling? config with
  | some u => exact .inl (List.mem_map.2 ⟨look, List.mem_filter.2 ⟨h, by simp [hu]⟩, rfl⟩)
  | none => exact .inr (List.mem_map.2 ⟨look, List.mem_filter.2 ⟨h, by simp [hu]⟩, rfl⟩)

/-- From `c` to `c'` a phase has looked at loops it had not decided about, has decided about each as
the look says, and has recorded the events `es`. -/
structure Tallies (config : UnrollConfig) (looks : List Look) (es : List Event)
    (c c' : Compilation) : Prop where
  config_before : c.phase.config = config
  config_after : c'.phase.config = config
  unrolled : c'.phase.unrolled = (unrolledHeaders config looks).reverse ++ c.phase.unrolled
  rejected : c'.phase.rejected = (rejectedHeaders config looks).reverse ++ c.phase.rejected
  nodup : (looks.map fun look => look.loop.header).Nodup
  fresh : ∀ look ∈ looks,
    look.loop.header ∉ c.phase.unrolled ∧ look.loop.header ∉ c.phase.rejected
  decided : ∀ look ∈ looks, look.Decides config
  log : c'.log = c.log.recordAll es

namespace Tallies

theorem refl (c : Compilation) : Tallies c.phase.config [] [] c c :=
  ⟨rfl, rfl, rfl, rfl, List.nodup_nil, by simp, by simp, rfl⟩

/-- The graphs do not matter. -/
theorem congr (h : Tallies config looks es c c') (hd : d.phase = c.phase) (hlog : d.log = c.log) :
    Tallies config looks es d c' := by
  refine ⟨by rw [hd, h.config_before], h.config_after, by rw [hd, h.unrolled],
    by rw [hd, h.rejected], h.nodup, ?_, h.decided, by rw [hlog, h.log]⟩
  rw [hd]
  exact h.fresh

theorem trans (h₁ : Tallies config looks es c c') (h₂ : Tallies config looks' fs c' c'') :
    Tallies config (looks ++ looks') (es ++ fs) c c'' := by
  have hdecided : ∀ look ∈ looks, ∀ look' ∈ looks', look.loop.header ≠ look'.loop.header := by
    intro look hlook look' hlook' heq
    obtain ⟨hu, hr⟩ := h₂.fresh look' hlook'
    rw [← heq] at hu hr
    have hlisted : look.loop.header ∈ unrolledHeaders config looks ∨
        look.loop.header ∈ rejectedHeaders config looks := mem_headers hlook
    rcases hlisted with hmem | hmem
    · exact hu (by rw [h₁.unrolled]; simp [hmem])
    · exact hr (by rw [h₁.rejected]; simp [hmem])
  refine
    { config_before := h₁.config_before
      config_after := h₂.config_after
      unrolled := ?unrolled
      rejected := ?rejected
      nodup := ?nodup
      fresh := ?fresh
      decided := ?decided
      log := ?log }
  case unrolled =>
    rw [h₂.unrolled, h₁.unrolled]
    simp [unrolledHeaders]
  case rejected =>
    rw [h₂.rejected, h₁.rejected]
    simp [rejectedHeaders]
  case nodup =>
    rw [List.map_append, List.nodup_append]
    refine ⟨h₁.nodup, h₂.nodup, ?_⟩
    rintro a ha b hb
    obtain ⟨look, hlook, rfl⟩ := List.mem_map.1 ha
    obtain ⟨look', hlook', rfl⟩ := List.mem_map.1 hb
    exact hdecided look hlook look' hlook'
  case fresh =>
    intro look hlook
    rcases List.mem_append.1 hlook with hlook | hlook
    · exact h₁.fresh look hlook
    · obtain ⟨hu, hr⟩ := h₂.fresh look hlook
      rw [h₁.unrolled] at hu
      rw [h₁.rejected] at hr
      exact ⟨fun hmem => hu (List.mem_append_right _ hmem),
        fun hmem => hr (List.mem_append_right _ hmem)⟩
  case decided =>
    intro look hlook
    rcases List.mem_append.1 hlook with hlook | hlook
    · exact h₁.decided look hlook
    · exact h₂.decided look hlook
  case log => rw [h₂.log, h₁.log, EventLog.recordAll_append]

theorem withGraph (h : Tallies config looks es c c') (g : Graph) :
    Tallies config looks es c { c' with graph := g } :=
  ⟨h.config_before, h.config_after, h.unrolled, h.rejected, h.nodup, h.fresh, h.decided, h.log⟩

theorem record (h : Tallies config looks es c c') (fs : List Event) :
    Tallies config looks (es ++ fs) c (c'.record fs) :=
  ⟨h.config_before, h.config_after, h.unrolled, h.rejected, h.nodup, h.fresh, h.decided, by
    rw [EventLog.recordAll_append, ← h.log]
    rfl⟩

end Tallies

/-! ## One search, any number of rounds, a run -/

/-- A loop is rejected. -/
theorem tallies_reject {r : Rejection}
    (hlook : c.graph.loopShape c.phase.config loop = .error (.rejected r))
    (hfresh : loop.header ∉ c.phase.unrolled ∧ loop.header ∉ c.phase.rejected) :
    Tallies c.phase.config [⟨c.graph, loop⟩] (Look.events c.phase.config ⟨c.graph, loop⟩) c
      (c.reject loop.header r) := by
  have hnone : Look.unrolling? c.phase.config ⟨c.graph, loop⟩ = none := by
    simp only [Look.unrolling?, hlook]
  refine ⟨rfl, rfl, ?_, ?_, List.nodup_singleton _, by simpa using hfresh,
    by simp [Look.Decides, hlook], ?_⟩
  · simp [unrolledHeaders, hnone, reject, Compilation.record]
  · simp [rejectedHeaders, hnone, reject, Compilation.record, List.insert_of_not_mem hfresh.2]
  · simp only [Look.events, hlook]
    rfl

/-- A loop is unrolled. -/
theorem tallies_unroll {removed : List BlockId} {g : Graph}
    (hlook : c.graph.loopShape c.phase.config loop = .ok shape)
    (hunroll : Graph.unrollLoop c.phase.config shape c.graph = .ok removed g)
    (hfresh : loop.header ∉ c.phase.unrolled ∧ loop.header ∉ c.phase.rejected) :
    Tallies c.phase.config [⟨c.graph, loop⟩] (Look.events c.phase.config ⟨c.graph, loop⟩) c
      (c.finishUnroll shape removed g) := by
  have hsome : Look.unrolling? c.phase.config ⟨c.graph, loop⟩ = some ⟨shape, removed, g⟩ := by
    simp only [Look.unrolling?, hlook, hunroll]
  have hheader := (accepted_of_loopShape hlook).header
  refine ⟨rfl, rfl, ?_, ?_, List.nodup_singleton _, by simpa using hfresh,
    by simp [Look.Decides, hsome], ?_⟩
  · simp [unrolledHeaders, hsome, finishUnroll, Compilation.record, hheader,
      List.insert_of_not_mem hfresh.1]
  · simp [rejectedHeaders, hsome, finishUnroll, Compilation.record]
  · simp only [Look.events, hlook, hunroll]
    rfl

/-- Going through loops, and the unrolling of what is found. -/
theorem Selects.tallies {loops : List NaturalLoop} {found : Option LoopShape}
    (h : Selects c loops looks (.ok found c')) (hnodup : (loops.map NaturalLoop.header).Nodup)
    (hfresh : ∀ l ∈ loops, l.header ∉ c.phase.unrolled ∧ l.header ∉ c.phase.rejected)
    (hnone : found = Option.none → d = c')
    (hsome : ∀ shape, found = some shape → ∃ removed g,
      Graph.unrollLoop c'.phase.config shape c'.graph = .ok removed g ∧
        d = c'.finishUnroll shape removed g) :
    Tallies c.phase.config looks (looks.flatMap (Look.events c.phase.config)) c d := by
  generalize hresult : EStateM.Result.ok found c' = result at h
  induction h with
  | none =>
    cases hresult
    rw [hnone rfl]
    exact .refl _
  | @accepted c loop rest shape hlook =>
    cases hresult
    obtain ⟨removed, g, hunroll, rfl⟩ := hsome shape rfl
    simpa using tallies_unroll hlook hunroll (hfresh loop (List.mem_cons_self ..))
  | @rejected c loop rest r looks result hlook hrest ih =>
    have hfirst := tallies_reject hlook (hfresh loop (List.mem_cons_self ..))
    rw [List.map_cons, List.nodup_cons] at hnodup
    refine hfirst.trans (ih hnodup.2 (fun l hl => ?_) hresult)
    obtain ⟨hu, hr⟩ := hfresh l (List.mem_cons_of_mem _ hl)
    refine ⟨hu, fun hmem => ?_⟩
    rcases List.mem_insert_iff.1 hmem with heq | hmem
    · exact hnodup.1 (heq ▸ List.mem_map_of_mem hl)
    · exact hr hmem
  | stopped => cases hresult

theorem Selects.unrolled_eq {loops : List NaturalLoop} {found : Option LoopShape}
    (h : Selects c loops looks (.ok found c')) : c'.phase.unrolled = c.phase.unrolled := by
  generalize hresult : EStateM.Result.ok found c' = result at h
  induction h with
  | none | accepted =>
    cases hresult
    rfl
  | rejected _ _ ih => exact ih hresult
  | stopped => cases hresult

/-- **One search** for a loop, and the unrolling of what it finds. -/
theorem Searches.tallies {found : Option LoopShape} (h : Searches c looks (.ok found c'))
    (hc : c.graph.ForestComputed) (hnone : found = Option.none → d = c')
    (hsome : ∀ shape, found = some shape → ∃ removed g,
      Graph.unrollLoop c'.phase.config shape c'.graph = .ok removed g ∧
        d = c'.finishUnroll shape removed g) :
    Tallies c.phase.config looks (looks.flatMap (Look.events c.phase.config)) c d := by
  cases h with
  | ordered order hselects =>
    exact (hselects.tallies (Phase.nodup_candidateLoops hc.cacheLoops.nodup_headers order)
      (fun _ hl => Phase.isEligible_of_mem order hl) hnone hsome).congr (d := c) rfl rfl

theorem Searches.unrolled_eq {found : Option LoopShape} (h : Searches c looks (.ok found c')) :
    c'.phase.unrolled = c.phase.unrolled := by
  cases h with
  | ordered _ hselects => exact hselects.unrolled_eq

/-- What a search finds has not been unrolled. -/
theorem Searches.header_notMem (h : Searches c looks (.ok (some shape) c')) :
    shape.header ∉ c.phase.unrolled := by
  cases h with
  | ordered order hselects =>
    obtain ⟨loop, hloop, hshape⟩ := selectFrom_found hselects.eq_selectFrom
    exact (accepted_of_loopShape hshape).header ▸ (Phase.isEligible_of_mem order hloop).1

/-- One round that unrolls a loop. -/
theorem tallies_round {removed : List BlockId} {g : Graph} (hc : c.graph.ForestComputed)
    (hsearch : Searches c looks (.ok (some shape) c'))
    (hunroll : Graph.unrollLoop c'.phase.config shape c'.graph = .ok removed g) :
    Tallies c.phase.config looks (looks.flatMap (Look.events c.phase.config)) c
        (c'.finishUnroll shape removed g) ∧
      (unrolledHeaders c.phase.config looks).length = 1 := by
  have htallies := hsearch.tallies (d := c'.finishUnroll shape removed g) hc
    (fun h => by cases h) (fun shape' h => by
      cases h
      exact ⟨removed, g, hunroll, rfl⟩)
  have hunrolled : (c'.finishUnroll shape removed g).phase.unrolled =
      shape.header :: c.phase.unrolled := by
    show c'.phase.unrolled.insert shape.header = _
    rw [hsearch.unrolled_eq, List.insert_of_not_mem hsearch.header_notMem]
  refine ⟨htallies, ?_⟩
  have hlength := congrArg List.length (htallies.unrolled.symm.trans hunrolled)
  simpa [Nat.add_comm] using hlength

/-- **Any number of rounds.**  Each finds the loops anew, and leaves out those decided about. -/
theorem Unrolls.tallies {changed changed' : Bool} {budget : Nat}
    (h : Unrolls changed budget c looks (.ok changed' c')) (hc : c.graph.ForestComputed) :
    Tallies c.phase.config looks (looks.flatMap (Look.events c.phase.config)) c c' ∧
      (unrolledHeaders c.phase.config looks).length ≤ budget ∧
      (changed' = true ↔ changed = true ∨ unrolledHeaders c.phase.config looks ≠ []) := by
  generalize hresult : EStateM.Result.ok changed' c' = result at h
  induction h with
  | @spent changed c =>
    cases hresult
    exact ⟨.refl _, by simp [unrolledHeaders], by simp [unrolledHeaders]⟩
  | @exhausted changed budget c c₁ looks hsearch =>
    cases hresult
    have htallies := hsearch.tallies (d := c') hc (fun _ => rfl) (fun shape h => by cases h)
    have hnil : unrolledHeaders c.phase.config looks = [] := by
      have heq := htallies.unrolled
      rw [hsearch.unrolled_eq, List.self_eq_append_left, List.reverse_eq_nil_iff] at heq
      exact heq
    exact ⟨htallies, by simp [hnil], by simp [hnil]⟩
  | stopped | failed => cases hresult
  | @unrolled changed budget c c₁ looks looks' shape removed g result hsearch hunroll hrest ih =>
    obtain ⟨hround, hone⟩ := tallies_round hc hsearch hunroll
    obtain ⟨hothers, hlength, hchanged⟩ := ih (uncached_unrollLoop hunroll).forestComputed hresult
    have hconfig : (c₁.finishUnroll shape removed g).phase.config = c.phase.config :=
      hround.config_after
    rw [hconfig] at hothers hlength hchanged
    refine ⟨?_, ?_, ?_⟩
    · rw [List.flatMap_append]
      exact hround.trans hothers
    · rw [unrolledHeaders_append, List.length_append]
      omega
    · have hne : unrolledHeaders c.phase.config looks ≠ [] := by
        rintro hnil
        simp [hnil] at hone
      simp [unrolledHeaders_append, hchanged, hne]

/-- The events of a run that is refused. -/
def refusalEvents (config : UnrollConfig) (c : Compilation) : List Event :=
  if config.allows c.graph.function then []
  else Phase.rejectionEvents { config := config } c.graph entry .functionNotAllowed

/-- No look is recorded as a note. -/
theorem Look.kind_ne_info {look : Look} {e : Event} (he : e ∈ look.events config) :
    e.kind ≠ .info := by
  unfold Look.events at he
  split at he
  · unfold Phase.rejectionEvents at he
    split at he
    · rw [List.mem_singleton.1 he]
      simp
    · cases he
  · cases he
  · split at he
    · simp only [Phase.unrollEvents] at he
      rcases List.mem_cons.1 he with rfl | he
      · split <;> simp
      · obtain ⟨b, _, rfl⟩ := List.mem_map.1 he
        simp
    · cases he

/-- Writing the graph down is recorded as a note at most. -/
theorem tallies_dump {label : String} (h : dump label c = .ok () c') :
    ∃ fs, Tallies c.phase.config [] fs c c' ∧ fs.filter (fun e => e.kind != .info) = [] := by
  rw [dump] at h
  split at h
  · rename_i events hevents
    cases h
    refine ⟨_, (Tallies.refl c).record events, ?_⟩
    rw [Phase.dumpEvents] at hevents
    split at hevents
    · obtain ⟨text, _, hok⟩ := bind_eq_ok hevents
      obtain rfl := Except.ok.inj hok
      rfl
    · obtain rfl := Except.ok.inj hevents
      rfl
  · cases h

/-- So is the end of a run. -/
theorem tallies_finish {changed changed' : Bool} (h : finish changed c = .ok changed' c') :
    changed' = changed ∧ ∃ fs, Tallies c.phase.config [] fs c c' ∧
      fs.filter (fun e => e.kind != .info) = [] := by
  unfold finish at h
  split at h
  · split at h
    · cases h
    · split at h
      · cases h
      · rename_i hdump
        cases h
        obtain ⟨fs, htallies, hfs⟩ := tallies_dump hdump
        exact ⟨by simp [*], fs, htallies.congr (d := c) rfl rfl, hfs⟩
  · cases h
    exact ⟨by simp [*], [], .refl _, rfl⟩

/-- **A run** records what its looks give rise to, besides dumps of the graph. -/
theorem Runs.tallies {changed : Bool} (h : Runs c looks (.ok changed c'))
    (hc : c.graph.ForestComputed) :
    (∃ es, Tallies c.phase.config looks es c c' ∧ es.filter (fun e => e.kind != .info) =
        refusalEvents c.phase.config c ++ looks.flatMap (Look.events c.phase.config)) ∧
      (unrolledHeaders c.phase.config looks).length ≤
        c.phase.config.maxUnrolledLoops - c.phase.unrolled.length ∧
      (changed = true ↔ unrolledHeaders c.phase.config looks ≠ []) := by
  cases h with
  | refused hrefuse =>
    refine ⟨⟨_, (Tallies.refl c).record _, ?_⟩, by simp [unrolledHeaders],
      by simp [unrolledHeaders]⟩
    simp only [List.nil_append, refusalEvents, hrefuse, List.flatMap_nil, List.append_nil]
    unfold Phase.rejectionEvents
    split <;> simp
  | done hallow hdump hrounds hfinish =>
    rename_i c₁ c₂ changed₁
    have hgraph := (dump_state "before loop unrolling"
      { c with graph := c.graph.resetReachability }).1
    rw [hdump] at hgraph
    have hc₁ : c₁.graph.ForestComputed := by
      have hsame : c₁.graph = c.graph.resetReachability := hgraph
      exact hsame ▸ hc.resetReachability
    obtain ⟨es, hstart, hes⟩ := tallies_dump hdump
    have hbegin : Tallies c.phase.config [] es c c₁ := hstart.congr rfl rfl
    obtain ⟨htallies, hlength, hchanged⟩ := hrounds.tallies hc₁
    rw [hbegin.config_after] at htallies hlength hchanged
    have hsame : c₁.phase.unrolled = c.phase.unrolled := hbegin.unrolled
    rw [hsame] at hlength
    obtain ⟨rfl, fs, hend, hfs⟩ := tallies_finish hfinish
    rw [htallies.config_after] at hend
    refine ⟨⟨_, by simpa using (hbegin.trans htallies).trans hend, ?_⟩, hlength, by
      simpa using hchanged⟩
    simp only [List.filter_append, hes, hfs, List.nil_append, List.append_nil, refusalEvents,
      hallow, if_true]
    refine List.filter_eq_self.2 fun e he => ?_
    obtain ⟨look, _, he⟩ := List.mem_flatMap.1 he
    simpa using Look.kind_ne_info he

/-! ## What the events tell -/

end Compilation

/-- Whether events of this kind tell that a loop was unrolled. -/
def EventKind.isUnrolling : EventKind → Bool
  | .loopUnrolled | .loopPartiallyUnrolled => true
  | _ => false

/-- What an event is about, and the block it concerns. -/
def Event.mark (e : Event) : EventKind × Option BlockId := (e.kind, e.location)

namespace Compilation

variable {config : UnrollConfig} {c c' : Compilation} {looks : List Look} {es : List Event}

/-- An unrolling is followed by one removal for each block removed. -/
def Unrolling.marks (u : Unrolling) : List (EventKind × Option BlockId) :=
  (if u.shape.isFull then .loopUnrolled else .loopPartiallyUnrolled, some u.shape.header) ::
    u.removed.map fun b => (.blockRemoved, some b)

theorem map_mark_unrollEvents (p : Phase) (u : Unrolling) :
    (p.unrollEvents u.after u.shape u.removed).map Event.mark = u.marks := by
  have hfull : u.shape.isFull = u.shape.iterations.isSome := rfl
  simp only [Phase.unrollEvents, Unrolling.marks, List.map_cons, List.map_map, List.cons.injEq]
  refine ⟨?_, rfl⟩
  cases hcount : u.shape.iterations <;> simp [Event.mark, hfull, hcount]

/-- The events of a look at a loop that was decided about. -/
theorem Look.map_mark_events {look : Look} (hdecided : look.Decides config) :
    (∃ u, look.unrolling? config = some u ∧ u.shape.header = look.loop.header ∧
      (look.events config).map Event.mark = u.marks) ∨
    look.unrolling? config = none ∧ (look.events config).map Event.mark =
      if config.verbose then [(.loopRejected, some look.loop.header)] else [] := by
  unfold Look.Decides Look.unrolling? at hdecided
  unfold Look.unrolling? Look.events
  rcases hshape : look.graph.loopShape config look.loop with (r | e) | shape
  · refine .inr ⟨rfl, ?_⟩
    simp only [Phase.rejectionEvents]
    split <;> simp [Event.mark]
  · simp [hshape] at hdecided
  · cases hunroll : Graph.unrollLoop config shape look.graph with
    | ok removed after =>
      refine .inl ⟨⟨shape, removed, after⟩, by simp only [hunroll],
        (accepted_of_loopShape hshape).header, ?_⟩
      simp only [hunroll]
      exact map_mark_unrollEvents _ ⟨shape, removed, after⟩
    | error e g => simp [hshape, hunroll] at hdecided

/-- Among the events of looks, those that tell of unrollings, of rejections and of changes. -/
theorem filter_marks_looks (hdecided : ∀ look ∈ looks, look.Decides config) :
    ((((looks.flatMap (Look.events config)).map Event.mark).filter
        fun m => m.1.isUnrolling).map Prod.snd = (unrolledHeaders config looks).map some) ∧
      ((((looks.flatMap (Look.events config)).map Event.mark).filter
        fun m => m.1 == .loopRejected).map Prod.snd =
          if config.verbose then (rejectedHeaders config looks).map some else []) ∧
      (((looks.flatMap (Look.events config)).map Event.mark).filter
        fun m => m.1.isTransformation) =
          (looks.filterMap (Look.unrolling? config)).flatMap Unrolling.marks := by
  induction looks with
  | nil => simp [unrolledHeaders, rejectedHeaders]
  | cons look looks ih =>
    obtain ⟨hunrolled, hrejected, hchanged⟩ :=
      ih fun look hlook => hdecided look (List.mem_cons_of_mem _ hlook)
    have hkind : ∀ u : Unrolling, (u.marks.filter fun m => m.1.isUnrolling).map Prod.snd =
        [some u.shape.header] ∧ (u.marks.filter fun m => m.1 == .loopRejected) = [] ∧
        (u.marks.filter fun m => m.1.isTransformation) = u.marks := by
      intro u
      cases hfull : u.shape.isFull <;>
        simp [Unrolling.marks, hfull, EventKind.isUnrolling, EventKind.isTransformation,
          List.filter_eq_nil_iff]
    simp only [List.flatMap_cons, List.map_append, List.filter_append, hunrolled, hrejected,
      hchanged]
    rcases Look.map_mark_events (hdecided look (List.mem_cons_self ..)) with
      ⟨u, hu, hheader, hmarks⟩ | ⟨hu, hmarks⟩
    · obtain ⟨h₁, h₂, h₃⟩ := hkind u
      rw [hmarks, h₁, h₂, h₃, hheader]
      simp [unrolledHeaders, rejectedHeaders, hu]
    · rw [hmarks]
      cases hverbose : config.verbose <;>
        simp [unrolledHeaders, rejectedHeaders, hu, EventKind.isUnrolling,
          EventKind.isTransformation]

/-! ## Any number of runs -/

/-- One run of a phase that succeeded. -/
structure Outcome where
  before : Compilation
  /-- The answer. -/
  changed : Bool
  after : Compilation

namespace Outcome

/-- The events the run has recorded. -/
def marks (o : Outcome) : List (EventKind × Option BlockId) :=
  (o.after.log.events.toList.drop o.before.log.size).map Event.mark

/-- Whether the function is not among those to unroll in. -/
def isRefused (o : Outcome) : Bool := !o.before.phase.config.allows o.before.graph.function

end Outcome

/-- The runs of one phase so far, each on a graph and a log of its own, and the phase after them. -/
inductive History (config : UnrollConfig) : List Outcome → Phase → Prop where
  | start : History config [] { config := config }
  | next {outcomes : List Outcome} {c c' : Compilation} {changed : Bool}
      (earlier : History config outcomes c.phase) (run : run c = .ok changed c') :
      History config (outcomes ++ [⟨c, changed, c'⟩]) c'.phase

/-- What all runs together have decided and recorded. -/
structure Judged (config : UnrollConfig) (outcomes : List Outcome) (p : Phase) : Prop where
  config_eq : p.config = config
  disjoint : p.unrolled.Disjoint p.rejected
  nodup_unrolled : p.unrolled.Nodup
  nodup_rejected : p.rejected.Nodup
  budget : p.unrolled.length ≤ config.maxUnrolledLoops
  /-- One event for each header unrolled. -/
  unrolled : (((outcomes.flatMap Outcome.marks).filter fun m => m.1.isUnrolling).map Prod.snd).Perm
    (p.unrolled.map some)
  /-- One event for each header rejected, and one at the entry for each run refused. -/
  rejected : config.verbose = true →
    (((outcomes.flatMap Outcome.marks).filter fun m => m.1 == .loopRejected).map Prod.snd).Perm
      (p.rejected.map some ++ (outcomes.filter Outcome.isRefused).map fun _ => some entry)
  silent : config.verbose = false → ∀ m ∈ outcomes.flatMap Outcome.marks, m.1 ≠ .loopRejected

/-- What each run has done. -/
structure Outcome.Exact (config : UnrollConfig) (o : Outcome) : Prop where
  unrolled_subset : o.before.phase.unrolled ⊆ o.after.phase.unrolled
  rejected_subset : o.before.phase.rejected ⊆ o.after.phase.rejected
  log_prefix : o.before.log.events.toList <+: o.after.log.events.toList
  changed_iff : o.changed = true ↔
    ∃ header ∈ o.after.phase.unrolled, header ∉ o.before.phase.unrolled
  /-- Each loop unrolled is followed by the removal of the blocks that were there before, or were
  added, and are gone: their indices, which are the slots they were in if that holds of all
  blocks. -/
  unrolls : ∃ looks, Runs o.before looks (.ok o.changed o.after) ∧
    (o.marks.filter fun m => m.1.isTransformation) =
      (looks.filterMap (Look.unrolling? config)).flatMap Unrolling.marks ∧
    ∀ look ∈ looks, ∀ u, look.unrolling? config = some u →
      ∃ slots, Removes look.graph u.after slots u.removed ∧
        (look.graph.Numbered → u.removed = slots)

/-- What is left of the events of a run when dumps of the graph are left out. -/
theorem filter_marks_run {q : EventKind → Bool} (hq : q .info = false) {fs : List Event}
    (hes : es.filter (fun e => e.kind != .info) = fs) :
    (es.map Event.mark).filter (fun m => q m.1) = (fs.map Event.mark).filter fun m => q m.1 := by
  subst hes
  rw [List.filter_map, List.filter_map, List.filter_filter]
  refine congrArg _ (List.filter_congr fun e _ => ?_)
  cases hkind : e.kind <;> simp [Event.mark, hkind, hq]

theorem Tallies.marks_eq {changed : Bool} (h : Tallies config looks es c c') :
    Outcome.marks ⟨c, changed, c'⟩ = es.map Event.mark := by
  simp only [Outcome.marks, h.log, EventLog.events_recordAll, EventLog.size]
  rw [← Array.length_toList, List.drop_left]

/-- The headers of looks, those unrolled before the others. -/
theorem headers_perm (config : UnrollConfig) (looks : List Look) :
    (unrolledHeaders config looks ++ rejectedHeaders config looks).Perm
      (looks.map fun look => look.loop.header) := by
  unfold unrolledHeaders rejectedHeaders
  rw [← List.map_append]
  refine List.Perm.map _ ?_
  have hnone : (fun look : Look => (look.unrolling? config).isNone) =
      fun look => !(look.unrolling? config).isSome := by
    funext look
    simp
  rw [hnone]
  exact List.filter_append_perm _ _

theorem Tallies.nodup_headers (h : Tallies config looks es c c') :
    (unrolledHeaders config looks ++ rejectedHeaders config looks).Nodup :=
  (headers_perm config looks).nodup_iff.2 h.nodup

theorem Tallies.fresh_headers (h : Tallies config looks es c c') :
    ∀ header ∈ unrolledHeaders config looks ++ rejectedHeaders config looks,
      header ∉ c.phase.unrolled ∧ header ∉ c.phase.rejected := by
  intro header hmem
  obtain ⟨look, hlook, rfl⟩ := List.mem_map.1 ((headers_perm config looks).mem_iff.1 hmem)
  exact h.fresh look hlook

/-- The removals reported by an unrolling. -/
theorem Look.removes {look : Look} {u : Unrolling} (hu : look.unrolling? config = some u) :
    ∃ slots, Removes look.graph u.after slots u.removed ∧
      (look.graph.Numbered → u.removed = slots) := by
  unfold Look.unrolling? at hu
  split at hu
  · cases hu
  · split at hu
    · rename_i hunroll
      cases hu
      obtain ⟨slots, hremoves⟩ := removes_unrollLoop hunroll
      exact ⟨slots, hremoves, hremoves.eq_slots⟩
    · cases hu

theorem filter_marks_refusal {q : EventKind → Bool} (hq : q .loopRejected = false) :
    ((refusalEvents config c).map Event.mark).filter (fun m => q m.1) = [] := by
  unfold refusalEvents Phase.rejectionEvents
  split
  · rfl
  · split <;> simp [Event.mark, hq]

/-- **One run.** -/
theorem Runs.exact {changed : Bool} (h : Runs c looks (.ok changed c'))
    (hc : c.graph.ForestComputed) :
    Outcome.Exact c.phase.config ⟨c, changed, c'⟩ := by
  obtain ⟨⟨es, htallies, hes⟩, _, hchanged⟩ := h.tallies hc
  refine ⟨?_, ?_, ?_, ?_, looks, h, ?_, fun look _ u hu => Look.removes hu⟩
  · rw [htallies.unrolled]
    exact List.subset_append_right _ _
  · rw [htallies.rejected]
    exact List.subset_append_right _ _
  · simp only [htallies.log, EventLog.events_recordAll]
    exact List.prefix_append _ _
  · simp only [hchanged, htallies.unrolled, List.mem_append, List.mem_reverse]
    constructor
    · intro hne
      obtain ⟨header, hmem⟩ := List.exists_mem_of_ne_nil _ hne
      obtain ⟨look, hlook, rfl⟩ := List.mem_map.1 hmem
      exact ⟨_, .inl hmem, (htallies.fresh look (List.mem_of_mem_filter hlook)).1⟩
    · rintro ⟨header, hmem | hmem, hnot⟩
      · exact List.ne_nil_of_mem hmem
      · exact absurd hmem hnot
  · rw [htallies.marks_eq, filter_marks_run (q := EventKind.isTransformation) rfl hes,
      List.map_append, List.filter_append, (filter_marks_looks htallies.decided).2.2,
      filter_marks_refusal rfl, List.nil_append]

/-- A loop looked at had no verdict before, and gets one. -/
theorem Tallies.disjoint (h : Tallies config looks es c c')
    (hdisjoint : c.phase.unrolled.Disjoint c.phase.rejected) :
    c'.phase.unrolled.Disjoint c'.phase.rejected := by
  have happart := (List.nodup_append.1 h.nodup_headers).2.2
  rw [h.unrolled, h.rejected]
  intro header hu hr
  rcases List.mem_append.1 hu with hu | hu <;> rcases List.mem_append.1 hr with hr | hr
  · exact happart _ (List.mem_reverse.1 hu) _ (List.mem_reverse.1 hr) rfl
  · exact (h.fresh_headers header (List.mem_append_left _ (List.mem_reverse.1 hu))).2 hr
  · exact (h.fresh_headers header (List.mem_append_right _ (List.mem_reverse.1 hr))).1 hu
  · exact hdisjoint hu hr

theorem Tallies.nodup_unrolled (h : Tallies config looks es c c')
    (hnodup : c.phase.unrolled.Nodup) : c'.phase.unrolled.Nodup := by
  rw [h.unrolled]
  refine List.nodup_append.2
    ⟨List.nodup_reverse.2 (List.nodup_append.1 h.nodup_headers).1, hnodup, ?_⟩
  rintro a ha b hb rfl
  exact (h.fresh_headers a (List.mem_append_left _ (List.mem_reverse.1 ha))).1 hb

theorem Tallies.nodup_rejected (h : Tallies config looks es c c')
    (hnodup : c.phase.rejected.Nodup) : c'.phase.rejected.Nodup := by
  rw [h.rejected]
  refine List.nodup_append.2
    ⟨List.nodup_reverse.2 (List.nodup_append.1 h.nodup_headers).2.1, hnodup, ?_⟩
  rintro a ha b hb rfl
  exact (h.fresh_headers a (List.mem_append_right _ (List.mem_reverse.1 ha))).2 hb

section Marks

variable (changed : Bool) (htallies : Tallies config looks es c c')
  (hes : es.filter (fun e => e.kind != .info) =
    refusalEvents config c ++ looks.flatMap (Look.events config))

include htallies hes

/-- The unrollings that one run has recorded. -/
theorem unrolled_marks :
    ((Outcome.marks ⟨c, changed, c'⟩).filter fun m => m.1.isUnrolling).map Prod.snd =
      (unrolledHeaders config looks).map some := by
  rw [htallies.marks_eq, filter_marks_run (q := EventKind.isUnrolling) rfl hes, List.map_append,
    List.filter_append, filter_marks_refusal rfl, List.nil_append,
    (filter_marks_looks htallies.decided).1]

/-- The rejections that one run has recorded. -/
theorem rejected_marks :
    ((Outcome.marks ⟨c, changed, c'⟩).filter fun m => m.1 == .loopRejected).map Prod.snd =
      if config.verbose then
        ([⟨c, changed, c'⟩].filter Outcome.isRefused).map (fun _ => some entry) ++
          (rejectedHeaders config looks).map some
      else [] := by
  rw [htallies.marks_eq, filter_marks_run (q := (· == .loopRejected)) rfl hes, List.map_append,
    List.filter_append, List.map_append, (filter_marks_looks htallies.decided).2.1]
  unfold refusalEvents Phase.rejectionEvents
  have hconfig : Outcome.isRefused ⟨c, changed, c'⟩ = !config.allows c.graph.function := by
    rw [← htallies.config_before]
    rfl
  cases config.verbose <;> cases hallows : config.allows c.graph.function <;>
    simp [Event.mark, hconfig, hallows]

end Marks

/-- **One more run.** -/
theorem Judged.next {outcomes : List Outcome} {changed : Bool}
    (hj : Judged config outcomes c.phase) (h : Runs c looks (.ok changed c'))
    (hc : c.graph.ForestComputed) :
    Judged config (outcomes ++ [⟨c, changed, c'⟩]) c'.phase := by
  obtain ⟨⟨es, htallies, hes⟩, hlength, _⟩ := h.tallies hc
  rw [hj.config_eq] at htallies hlength hes
  have hrejected := rejected_marks changed htallies hes
  refine ⟨htallies.config_after, htallies.disjoint hj.disjoint,
    htallies.nodup_unrolled hj.nodup_unrolled, htallies.nodup_rejected hj.nodup_rejected,
    ?_, ?_, ?_, ?_⟩
  · have hbudget := hj.budget
    rw [htallies.unrolled, List.length_append, List.length_reverse]
    omega
  · rw [List.flatMap_append, List.filter_append, List.map_append, List.flatMap_singleton,
      unrolled_marks changed htallies hes, htallies.unrolled, List.map_append]
    refine (hj.unrolled.append_right _).trans (List.perm_append_comm.trans ?_)
    exact ((List.reverse_perm _).symm.map some).append_right _
  · intro hverbose
    rw [if_pos hverbose] at hrejected
    rw [List.flatMap_append, List.filter_append, List.map_append, List.flatMap_singleton,
      hrejected, htallies.rejected, List.map_append, List.filter_append, List.map_append]
    refine ((hj.rejected hverbose).append_right _).trans (List.perm_iff_count.2 fun a => ?_)
    simp only [List.count_append, List.map_reverse, List.count_reverse]
    omega
  · intro hverbose m hm
    rw [if_neg (by simp [hverbose]), List.map_eq_nil_iff, List.filter_eq_nil_iff] at hrejected
    rw [List.flatMap_append, List.mem_append, List.flatMap_singleton] at hm
    rcases hm with hm | hm
    · exact hj.silent hverbose m hm
    · simpa using hrejected m hm

/-- **Every loop gets one verdict at most, and the budget holds.**  One phase runs over any graphs,
each run with success.  Then no header is both unrolled and rejected, and headers are never taken
back; no more loops are unrolled than the settings allow; there is one event for each header
unrolled, and, if the settings ask for it, one for each header rejected and one at the entry for
each run that was refused; each unrolling is followed by one removal for each block that was there
before, or was added, and is gone; and a run tells of a change exactly when it has unrolled a
loop. -/
theorem history_judged {outcomes : List Outcome} {p : Phase} (h : History config outcomes p)
    (hgraphs : ∀ o ∈ outcomes, o.before.graph.ForestComputed) :
    Judged config outcomes p ∧ ∀ o ∈ outcomes, o.Exact config := by
  induction h with
  | start =>
    refine ⟨⟨rfl, ?_, List.nodup_nil, List.nodup_nil, Nat.zero_le _, .refl _, fun _ => .refl _, ?_⟩,
      ?_⟩ <;> simp
  | @next outcomes c c' changed _ hrun ih =>
    obtain ⟨hjudged, hexact⟩ := ih fun o ho => hgraphs o (List.mem_append_left _ ho)
    have hc := hgraphs ⟨c, changed, c'⟩ (List.mem_append_right _ (List.mem_singleton_self _))
    obtain ⟨looks, hruns⟩ := exists_runs c
    rw [hrun] at hruns
    refine ⟨hjudged.next hruns hc, fun o ho => ?_⟩
    rcases List.mem_append.1 ho with ho | ho
    · exact hexact o ho
    · obtain rfl := List.mem_singleton.1 ho
      exact hjudged.config_eq ▸ hruns.exact hc

/-- The counting loop as a phase that may unroll one loop comes to look at it. -/
def countingReset : Graph :=
  (Builder.countingLoop true).graph.threadLocals.resetReachability.cacheLoops

theorem accepted_countingReset :
    countingReset.Accepted { maxUnrolledLoops := 1 } countingBody countingShape where
  header := rfl
  preHeader := by cbv
  bottom := by cbv
  induction := by decide +kernel
  iterations := by cbv
  body := by decide +kernel
  profitable := by
    show BodyStats.profitable _ _ {} = .ok ()
    decide +kernel

/-- A phase that comes to the counting loop. -/
def toCountingLoop (known : Bool) (p : Phase) (log : EventLog) : Compilation :=
  ⟨p, (Builder.countingLoop known).graph.threadLocals, log⟩

/-- Two runs of a phase that may unroll one loop: the second comes to a loop with the same
header. -/
theorem history_judged_countingLoop :
    let first := toCountingLoop true { config := { maxUnrolledLoops := 1 } } {}
    ∃ c c' d,
      History { maxUnrolledLoops := 1 }
        [⟨first, true, c⟩, ⟨toCountingLoop false c.phase c.log, d, c'⟩] c'.phase ∧
      Judged { maxUnrolledLoops := 1 }
        [⟨first, true, c⟩, ⟨toCountingLoop false c.phase c.log, d, c'⟩] c'.phase ∧
      ∃ header, header ∈ c.phase.unrolled := by
  intro first
  have hloops : first.phase.candidateLoops countingReset.loopForest = .ok [countingBody] := by cbv
  obtain ⟨_, _, c, _, hrun, _⟩ := run_single (c := first) (finished_countingLoop true).ready rfl rfl
    hloops (loopShape_of_accepted accepted_countingReset)
  have hfirst : History { maxUnrolledLoops := 1 } [⟨first, true, c⟩] c.phase := .next .start hrun
  -- neither graph has a kept forest
  have hgraphs : ∀ known p log, (toCountingLoop known p log).graph.ForestComputed := by
    intro known p log f hf
    have hnone : (Builder.countingLoop known).graph.threadLocals.loopCache = none := by
      cases known <;> cbv
    simp [toCountingLoop, hnone] at hf
  have hconfig : c.phase.config = { maxUnrolledLoops := 1 } :=
    (history_judged hfirst (by
      intro o ho
      obtain rfl := List.mem_singleton.1 ho
      exact hgraphs _ _ _)).1.config_eq
  obtain ⟨d, c', hrun', _⟩ | ⟨e, c', _, ⟨_, hlimit⟩, _⟩ :=
    ends_run (c := toCountingLoop false c.phase c.log) (finished_countingLoop false).ready
  case inr =>
    rw [show (toCountingLoop false c.phase c.log).phase = c.phase from rfl, hconfig] at hlimit
    cases hlimit
  have hhistory : History { maxUnrolledLoops := 1 }
      [⟨first, true, c⟩, ⟨toCountingLoop false c.phase c.log, d, c'⟩] c'.phase :=
    History.next (c := toCountingLoop false c.phase c.log) hfirst hrun'
  obtain ⟨hjudged, hexact⟩ := history_judged hhistory (by
    intro o ho
    rcases List.mem_cons.1 ho with rfl | ho
    · exact hgraphs _ _ _
    · obtain rfl := List.mem_singleton.1 ho
      exact hgraphs _ _ _)
  refine ⟨c, c', d, hhistory, hjudged, ?_⟩
  obtain ⟨header, hmem, _⟩ := (hexact _ (List.mem_cons_self ..)).changed_iff.1 rfl
  exact ⟨header, hmem⟩

end Compilation

end Unroller
