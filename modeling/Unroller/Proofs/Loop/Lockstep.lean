import Mathlib.Tactic
import Unroller.Proofs.Loop.Entries

/-!
# Partial unrolling keeps every step

In partial unrolling no block is cut short and every copy of the tail keeps its test.  So the
unrolled graph does not only return the same: it evaluates as many nodes, in every run and under
every budget, whichever copy the test ends the loop in.

* `Lockstep`: related blocks run alike in as many steps; `Lockstep.run_eq`: then runs of the two
  graphs end alike under every budget.
* `lockstep_part`: the unrolled graph keeps step with the graph it was made from, unless there are
  pads between the tail and the header.
* `unrollLoop_steps`: unrolling a loop without a trip count is exact to the step.
-/

namespace Unroller

open Unroller.Graph Machine

namespace Machine

variable {g h : Graph} {R : BlockId → BlockId → Prop} {b c : BlockId} {store : Store}

/-- Related blocks run alike in as many steps, and their slots lead to related blocks. -/
structure Lockstep (g h : Graph) (R : BlockId → BlockId → Prop) : Prop where
  visit : ∀ b c, R b c → ∀ store, visit h c store = visit g b store
  steps : ∀ b c, R b c → stepCount? h c = stepCount? g b
  successor : ∀ b c, R b c → ∀ slot t, g.successor? b slot = some t →
    ∃ t', h.successor? c slot = some t' ∧ R t t'

/-- A run that is stuck has no result. -/
theorem Stuck.toOption_eq {budget : Nat} {s : State} (hs : Stuck g budget s) :
    (exec g budget s).toOption = none := by
  obtain ⟨_, fault, hexec⟩ := hs
  rw [hexec]
  rfl

/-- From the heads of related blocks on, two runs end alike under every budget. -/
theorem Lockstep.exec_eq (hl : Lockstep g h R) (hg : g.WellFormed) (hh : h.WellFormed)
    (budget : Nat) {steps : Nat} {s s' : State} (hr : R b c) (hs : enter g b store steps = .ok s)
    (hs' : enter h c store steps = .ok s') :
    (exec h budget s').toOption = (exec g budget s).toOption := by
  induction budget using Nat.strong_induction_on generalizing b c store steps s s' with
  | _ budget ih =>
    obtain ⟨block, hb⟩ := exists_block_of_enter hs
    obtain ⟨copy, hc⟩ := exists_block_of_enter hs'
    have hlength : copy.nodes.length = block.nodes.length := by
      have hcount := hl.steps b c hr
      simpa [stepCount?, hb, hc] using hcount
    have hpos : 0 < block.nodes.length := List.length_pos_iff.2 (hg.block b block hb).ne_nil
    have hleft := run_visit_steps hg hb hs
    have hright := run_visit_steps hh hc hs'
    rw [hl.visit b c hr store, hlength] at hright
    -- a budget that ends within the visit ends both runs
    by_cases hlt : budget < block.nodes.length
    · cases hv : Machine.visit g b store with
      | none =>
        simp only [hv] at hleft hright
        rw [(hleft budget).toOption_eq, (hright budget).toOption_eq]
      | some exit =>
        simp only [hv] at hleft hright
        cases exit with
        | returned v final =>
          rw [(hleft.stuck budget hlt).toOption_eq, (hright.stuck budget hlt).toOption_eq]
        | leave slot next =>
          obtain ⟨_, _, _, _, hleads⟩ := hleft
          obtain ⟨_, _, _, _, hleads'⟩ := hright
          rw [(hleads.stuck budget hlt).toOption_eq, (hleads'.stuck budget hlt).toOption_eq]
    · obtain ⟨k, rfl⟩ := Nat.exists_eq_add_of_le (Nat.le_of_not_lt hlt)
      cases hv : Machine.visit g b store with
      | none =>
        simp only [hv] at hleft hright
        rw [(hleft _).toOption_eq, (hright _).toOption_eq]
      | some exit =>
        simp only [hv] at hleft hright
        cases exit with
        | returned v final => rw [hleft.exec_eq, hright.exec_eq]
        | leave slot next =>
          obtain ⟨t, s₁, ht, henter, hleads⟩ := hleft
          obtain ⟨t', s₁', ht', henter', hleads'⟩ := hright
          obtain ⟨t'', ht'', hrelated⟩ := hl.successor b c hr slot t ht
          rw [ht'] at ht''
          obtain rfl := Option.some.inj ht''
          rw [hleads.exec_eq, hleads'.exec_eq]
          exact ih k (by omega) hrelated henter henter'

theorem Lockstep.run_eq (hl : Lockstep g h R) (hg : g.WellFormed) (hh : h.WellFormed)
    (hr : R entry entry) (store : Store) (budget : Nat) :
    (run h store budget).toOption = (run g store budget).toOption := by
  obtain ⟨s, hs, _⟩ := enter_entry hg store
  obtain ⟨s', hs', _⟩ := enter_entry hh store
  simpa [run, hs, hs'] using hl.exec_eq hg hh budget hr hs hs'

/-- A graph keeps step with another one if all that is reachable was kept. -/
theorem lockstep_of_sameCode (hg : g.WellFormed)
    (hsame : ∀ b, g.flow.Reaches entry b → SameCode g h b) :
    Lockstep g h fun b c => c = b ∧ g.flow.Reaches entry b where
  visit := by
    rintro b c ⟨rfl, hreach⟩ store
    exact visit_sameCode hg (hsame c hreach) store
  steps := by
    rintro b c ⟨rfl, hreach⟩
    exact stepCount?_sameCode (hsame c hreach)
  successor := by
    rintro b c ⟨rfl, hreach⟩ slot t ht
    refine ⟨t, by rw [(hsame c hreach).successor, ht], rfl, ?_⟩
    exact hreach.step (hg.edge_iff.2 (mem_successors_of_successor? ht))

end Machine

variable {g h : Graph} {loop : NaturalLoop} {shape : LoopShape} {config : UnrollConfig}
  {preHeader first : BlockId} {n : Nat}

/-- The unrolled graph keeps step where the tail leads straight back to the header. -/
theorem lockstep_part (hs : g.Sound)
    (hp : g.LoopParts loop preHeader shape.tail shape.next shape.inLoopSlot)
    (hheader : shape.header = loop.header) (hpart : shape.isFull = false)
    (hback : g.successor? shape.tail shape.inLoopSlot = some shape.header)
    (hu : Unrolled g loop shape n first h) : Lockstep g h (Stands g loop shape h) where
  visit := fun b c hb store => hb.visit_part hpart hu store
  steps := fun b c hb => hb.steps_part hpart hu
  successor := by
    intro b c hb slot t ht
    obtain ⟨c', hc', hstands | ⟨rfl, rfl, hstands⟩⟩ :=
      hb.successor_part hs hp hheader hpart hu ht
    · exact ⟨c', hc', hstands⟩
    · rw [hback, hheader] at ht
      obtain rfl := Option.some.inj ht
      exact ⟨c', hc', hstands⟩

/-- **Partial unrolling is exact to the step.**  Unrolling a loop of a finished graph whose trip
count is not known, and whose tail leads straight back to the header, succeeds; and under every
store and budget the run of the new graph returns exactly when that of the old one does, with the
same value, trace, arrays and number of steps. -/
theorem unrollLoop_steps (hg : Finished g) (hloop : loop ∈ g.loopForest.loops)
    (hshape : g.loopShape config loop = .ok shape) (hnone : shape.iterations = none)
    (hback : g.successor? shape.tail shape.inLoopSlot = some shape.header) :
    ∃ removed h, Graph.unrollLoop config shape g = .ok removed h ∧ ∀ store budget,
      (∀ e, run h store budget = .ok e ↔ run g store budget = .ok e) ∧
      ((∃ fault, run h store budget = .error fault) ↔
        ∃ fault, run g store budget = .error fault) := by
  obtain ⟨hsound, hanalyzed, hform⟩ := hg.sound_analyzed
  have hw := hsound.wellFormed
  have ha := accepted_of_loopShape hshape
  have hparts := loopParts_of_accepted hanalyzed hloop ha
  have hpart : shape.isFull = false := by rw [LoopShape.isFull, hnone, Option.isSome_none]
  obtain ⟨removed, k, h, first, hok, hu, hclean⟩ := unrollLoop_ok hsound
    (fun hload => by simp [hform] at hload)
    (region_of_accepted hsound hanalyzed hloop ha) hparts ha.header config
  refine ⟨removed, h, hok, fun store budget => ?_⟩
  have hkw := hu.sound.wellFormed
  have heq : (run h store budget).toOption = (run g store budget).toOption := by
    rw [(lockstep_of_sameCode hkw hclean.sameCode).run_eq hkw hclean.sound.wellFormed
        ⟨rfl, hkw.reaches_entry⟩ store budget,
      (lockstep_part hsound hparts ha.header hpart hback hu).run_eq hw hkw
        (hu.stands hw.reaches_entry) store budget]
  cases hnew : run h store budget <;> cases hold : run g store budget <;>
    simp_all [Except.toOption]

/-! ## A loop with a bound known at run time only -/

/-- The shape of `countingLoop` with its bound in a local. -/
def openShape : LoopShape where
  header := 1
  preHeader := 0
  tail := 1
  next := 2
  inLoopSlot := 0
  inverse := false
  induction := ⟨0, 5, .arithAdd, 1, .compareLess, .constant 0, .node 7⟩
  iterations := none
  body := { blocks := 1, material := 7, numeric := 2, localAccesses := 3 }

theorem accepted_openLoop :
    (Builder.countingLoop false).graph.threadLocals.Accepted {} countingBody openShape where
  header := rfl
  preHeader := by cbv
  bottom := by cbv
  induction := by decide +kernel
  iterations := by cbv
  body := by decide +kernel
  profitable := by decide +kernel

theorem unrollLoop_steps_openLoop :
    ∃ removed h, Graph.unrollLoop {} openShape (Builder.countingLoop false).graph.threadLocals =
        .ok removed h ∧
      ∀ e, run h { locals := #[.undefined, .int32 5] } 100 = .ok e ↔
        run (Builder.countingLoop false).graph.threadLocals
          { locals := #[.undefined, .int32 5] } 100 = .ok e := by
  have hback : (Builder.countingLoop false).graph.threadLocals.successor? openShape.tail
      openShape.inLoopSlot = some openShape.header := by decide +kernel
  obtain ⟨removed, h, hok, hruns⟩ := unrollLoop_steps (finished_countingLoop false)
    (countingBody_mem false) (loopShape_of_accepted accepted_openLoop) rfl hback
  exact ⟨removed, h, hok, (hruns _ _).1⟩

end Unroller
