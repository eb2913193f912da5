import Mathlib.Tactic
import Unroller.Proofs.Loop.Entries

/-!
# The writers of a loop counter

The search for an induction variable counts the stores to its local.  A node that loads spread
arguments writes locals too, those that its layout names, and is not counted.

* `LoadsInto`, `Writes`: the nodes that write a local.
* `writers_of_loopShape`: in an accepted loop, the update is the only store to the counter, and only
  loads of spread arguments may write it besides.
* `loadingLoop_writers`: an accepted loop in which such a load does.
-/

namespace Unroller

open Unroller.Graph Machine

variable {g : Graph} {loop : NaturalLoop} {shape : LoopShape} {config : UnrollConfig}

namespace Graph

/-- Whether a node loads spread arguments, or their number, into a local. -/
def LoadsInto (g : Graph) (l : Local) (n : NodeId) : Prop :=
  ∃ node record layout, g.node? n = some node ∧ node.kind = .loadVarargs ∧
    node.payload = .loadVarargs record ∧ g.loadLayouts[record]? = some layout ∧
    (l = layout.count ∨ layout.start ≤ l ∧ l < layout.start + layout.limit)

/-- Whether a node writes a local. -/
def Writes (g : Graph) (l : Local) (n : NodeId) : Prop :=
  g.isStoreTo l n = true ∨ g.LoadsInto l n

end Graph

/-- **The stores to the counter.**  The last block of an accepted loop stores the update, and any
other node of the loop that writes the counter loads spread arguments. -/
theorem writers_of_loopShape (hg : Finished g) (hloop : loop ∈ g.loopForest.loops)
    (hshape : g.loopShape config loop = .ok shape) :
    ∃ tail update, g.block? shape.tail = some tail ∧ update ∈ tail.nodes ∧
      g.firstOperand? update = some shape.induction.update ∧
      ∀ b ∈ loop.blocks, ∀ block, g.block? b = some block → ∀ n ∈ block.nodes,
        (g.Writes shape.induction.slot n ↔ n = update ∨ g.LoadsInto shape.induction.slot n) := by
  obtain ⟨_, hanalyzed, _⟩ := hg.sound_analyzed
  have hwell := hanalyzed.wellFormed
  have ha := accepted_of_loopShape hshape
  have hparts := loopParts_of_accepted hanalyzed hloop ha
  have hpattern := inductionPattern_of_ok ha.induction
  obtain ⟨tail, htail⟩ :=
    isLive_iff.1 (hwell.isLive_of_reaches (hparts.natural.reaches hparts.tail_mem))
  obtain ⟨body, last, _, hsplit, _⟩ := hwell.terminal htail
  obtain ⟨update, hmem, hstores⟩ := HasBody.store_mem_tail ⟨hwell, htail, hsplit⟩ hpattern
  obtain ⟨_, _, _, test, _, _, update', _, _, _, _, _, hstores', hoperand, _, hv⟩ := hpattern.found
  obtain rfl : update' = update := by
    rw [hstores'] at hstores
    exact (List.cons.inj hstores).1
  have hlisted : ∀ n, n ∈ loop.blocks.flatMap (fun c => g.storesTo c shape.induction.slot) ↔
      n = update' := fun n => by rw [hstores, List.mem_singleton]
  have hstore : ∀ b ∈ loop.blocks, ∀ block, g.block? b = some block → ∀ n ∈ block.nodes,
      (g.isStoreTo shape.induction.slot n = true ↔ n = update') := by
    intro b hb block hblock n hn
    rw [← hlisted, List.mem_flatMap]
    constructor
    · exact fun hwrite => ⟨b, hb, (mem_storesTo hblock).2 ⟨hn, hwrite⟩⟩
    · rintro ⟨c, _, hc⟩
      rw [Graph.storesTo] at hc
      exact (List.mem_filter.1 hc).2
  refine ⟨tail, update', htail, hmem, by rw [hoperand, hv], fun b hb block hblock n hn => ?_⟩
  rw [Graph.Writes, hstore b hb block hblock n hn]

theorem writers_countingLoop :
    ∃ tail update, (Builder.countingLoop true).graph.threadLocals.block? 1 = some tail ∧
      update ∈ tail.nodes ∧
      (Builder.countingLoop true).graph.threadLocals.firstOperand? update = some 5 ∧
      ∀ n ∈ tail.nodes, (Builder.countingLoop true).graph.threadLocals.Writes 0 n ↔
        n = update ∨ (Builder.countingLoop true).graph.threadLocals.LoadsInto 0 n := by
  obtain ⟨tail, update, htail, hmem, hoperand, hwriters⟩ :=
    writers_of_loopShape (finished_countingLoop true) (countingBody_mem true)
      (loopShape_of_accepted accepted_countingLoop)
  exact ⟨tail, update, htail, hmem, hoperand,
    hwriters 1 (by simp [countingBody]) tail htail⟩

/-! ## A second writer -/

namespace Builder

/-- The counting loop with a load of spread arguments whose number goes to the counter. -/
def loadingLoop : Builder :=
  let b := (countingUpdate.loadVarargs .loadVarargs (.untyped 3) ⟨1, 0, 0, 0, 1⟩).2
  let b := (b.constant (.int32 3)).2
  let b := (b.binary .compareLess (.typed 5 .int32) (.typed 8 .int32)).2
  let b := (b.branch (.untyped 9) 1 2).2.switchTo 2
  let b := (b.getLocal 0).2
  (b.ret (.untyped 11)).2

theorem made_loadingLoop : loadingLoop.Made := by
  have hload := made_countingUpdate.loadVarargs .loadVarargs (.untyped 3) ⟨1, 0, 0, 0, 1⟩
  exact (((((hload.node _ _ _).node _ _ _).branch _ _ _).switchTo _).node _ _ _).node _ _ _

end Builder

theorem finished_loadingLoop : Finished Builder.loadingLoop.graph.threadLocals :=
  .of_uncached Builder.made_loadingLoop (Builder.finish_of_defects rfl (by decide +kernel))
    ⟨rfl, rfl⟩

/-- The shape found for its loop. -/
def loadingShape : LoopShape :=
  { countingShape with body := { blocks := 1, material := 8, numeric := 3, localAccesses := 2 } }

theorem accepted_loadingLoop :
    Builder.loadingLoop.graph.threadLocals.Accepted {} countingBody loadingShape where
  header := rfl
  preHeader := by cbv
  bottom := by cbv
  induction := by decide +kernel
  iterations := by cbv
  body := by decide +kernel
  profitable := by decide +kernel

/-- **The counter can have a second writer**: a load of spread arguments that follows the update. -/
theorem loadingLoop_writers :
    Finished Builder.loadingLoop.graph.threadLocals ∧
      countingBody ∈ Builder.loadingLoop.graph.threadLocals.loopForest.loops ∧
      Builder.loadingLoop.graph.threadLocals.loopShape {} countingBody = .ok loadingShape ∧
      (Builder.loadingLoop.graph.threadLocals.block? 1).map Block.nodes =
        some [3, 4, 5, 6, 7, 8, 9, 10] ∧
      Builder.loadingLoop.graph.threadLocals.Writes loadingShape.induction.slot 6 ∧
      Builder.loadingLoop.graph.threadLocals.Writes loadingShape.induction.slot 7 := by
  refine ⟨finished_loadingLoop, ?_, loopShape_of_accepted accepted_loadingLoop, ?_, ?_, ?_⟩
  · have hfirst : Builder.loadingLoop.graph.threadLocals.loopForest.loops[0]? =
        some countingBody := by cbv
    exact List.mem_of_getElem? hfirst
  · decide +kernel
  · exact .inl (by decide +kernel)
  · have hload : (Builder.loadingLoop.graph.threadLocals.node? 7).map
        (fun node => (node.kind, node.payload)) = some (.loadVarargs, .loadVarargs 0) := by cbv
    obtain ⟨node, hnode, heq⟩ := Option.map_eq_some_iff.1 hload
    obtain ⟨hkind, hpayload⟩ := Prod.mk.inj heq
    exact .inr ⟨node, 0, ⟨1, 0, 0, 0, 1⟩, hnode, hkind, hpayload, by cbv, .inl rfl⟩

end Unroller
