import Mathlib.Tactic
import Unroller.Proofs.Execution.Image
import Unroller.Proofs.Graph.Cut

/-!
# Graphs that run alike

Two graphs return the same from related blocks, when a visit of related blocks ends in the same way
and control comes to related blocks again.  The first graph may pass through pads on the way.

* `PadPath`: a way over blocks that do nothing but jump.
* `Matched`: what is asked of one visit of two related blocks.
* `returns_iff`: related blocks return the same.
* `visit_sameCode`, `visit_retargeted`, `visit_cut`: how blocks run that were kept, were led
  elsewhere or were cut short.
* `returns_iff_of_sameCode`: two graphs return the same if all that is reachable was kept.
-/

namespace Unroller.Machine

open Unroller.Graph (SameCode Cut entry)

variable {g h : Graph} {b c t : BlockId} {store final : Store} {v : Value} {block : Block}

/-! ## Pads -/

/-- A way over blocks that do nothing but jump. -/
inductive PadPath (g : Graph) : BlockId → BlockId → Prop where
  | refl {b : BlockId} : PadPath g b b
  | pad {b t d : BlockId} (visit : ∀ store, visit g b store = some (.leave 0 store))
    (target : g.successor? b 0 = some t) (rest : PadPath g t d) : PadPath g b d

theorem PadPath.trans {d e : BlockId} (h₁ : PadPath g b d) (h₂ : PadPath g d e) :
    PadPath g b e := by
  induction h₁ with
  | refl => exact h₂
  | pad hvisit htarget _ ih => exact .pad hvisit htarget (ih h₂)

/-- A pad of a sound graph. -/
theorem visit_pad (hg : g.Sound) (hb : g.block? b = some block)
    (hpad : block.flags.edgePad = true) (store : Store) :
    visit g b store = some (.leave 0 store) := by
  obtain ⟨n, node, hnodes, hnode, hkind⟩ := hg.pad b block hb hpad
  simp [visit, hb, evalNodes, hnodes, evalBody, hnode, decision, hkind, Decision.exit]

/-- A block that leads on over pads returns what the end of the way returns. -/
theorem PadPath.returns {d : BlockId} (hp : PadPath g b d) (h : Returns g d store v final) :
    Returns g b store v final := by
  induction hp with
  | refl => exact h
  | pad hvisit htarget _ ih => exact .step (hvisit store) htarget (ih h)

/-! ## Related blocks -/

/-- One visit of two blocks ends in the same way, and leads to related blocks. -/
inductive Matched (g h : Graph) (R : BlockId → Store → BlockId → Prop) (b : BlockId)
    (store : Store) (c : BlockId) : Prop where
  | stuck (left : visit g b store = none) (right : visit h c store = none)
  | returned {v : Value} {final : Store} (left : visit g b store = some (.returned v final))
    (right : visit h c store = some (.returned v final))
  | leave {i j : Nat} {next : Store} {t b' c' : BlockId}
    (left : visit g b store = some (.leave i next)) (target : g.successor? b i = some t)
    (path : PadPath g t b') (right : visit h c store = some (.leave j next))
    (target' : h.successor? c j = some c') (related : R b' next c')

/-- A matched visit of a block that runs alike. -/
theorem Matched.of_visit_eq {R : BlockId → Store → BlockId → Prop} (hg : g.WellFormed)
    (hvisit : visit h c store = visit g b store)
    (hstep : ∀ i next t, visit g b store = some (.leave i next) → g.successor? b i = some t →
      ∃ b' c', h.successor? c i = some c' ∧ PadPath g t b' ∧ R b' next c') :
    Matched g h R b store c := by
  rcases hv : visit g b store with _ | ⟨i, next⟩ | ⟨v, final⟩
  · exact .stuck hv (hvisit.trans hv)
  · obtain ⟨t, ht⟩ := successor_of_visit hg hv
    obtain ⟨b', c', hc', hpath, hr⟩ := hstep i next t hv ht
    exact .leave hv ht hpath (hvisit.trans hv) hc' hr
  · exact .returned hv (hvisit.trans hv)

section simulation

variable {R : BlockId → Store → BlockId → Prop}
  (hmatch : ∀ b store c, R b store c → Matched g h R b store c)

include hmatch

theorem returns_of_matched {b' : BlockId} (hret : Returns g b store v final)
    (hpath : PadPath g b b') (hr : R b' store c) : Returns h c store v final := by
  induction hret generalizing b' c with
  | @here b store final v hv =>
    cases hpath with
    | pad hpad _ _ =>
      rw [hpad] at hv
      cases hv
    | refl =>
      cases hmatch b store c hr with
      | stuck left _ =>
        rw [left] at hv
        cases hv
      | returned left right =>
        rw [left] at hv
        cases hv
        exact .here right
      | leave left _ _ _ _ _ =>
        rw [left] at hv
        cases hv
  | @step b t store next final slot v hv ht _ ih =>
    cases hpath with
    | pad hpad htarget hrest =>
      -- the other graph has been past the pad already
      rw [hpad] at hv
      cases hv
      rw [htarget] at ht
      cases ht
      exact ih hrest hr
    | refl =>
      cases hmatch b store c hr with
      | stuck left _ =>
        rw [left] at hv
        cases hv
      | returned left _ =>
        rw [left] at hv
        cases hv
      | leave left target path right target' related =>
        rw [left] at hv
        cases hv
        rw [target] at ht
        cases ht
        exact .step right target' (ih path related)

theorem matched_returns (hret : Returns h c store v final) (hr : R b store c) :
    Returns g b store v final := by
  induction hret generalizing b with
  | @here c store final v hv =>
    cases hmatch b store c hr with
    | stuck _ right =>
      rw [right] at hv
      cases hv
    | returned left right =>
      rw [right] at hv
      cases hv
      exact .here left
    | leave _ _ _ right _ _ =>
      rw [right] at hv
      cases hv
  | @step c t store next final slot v hv ht _ ih =>
    cases hmatch b store c hr with
    | stuck _ right =>
      rw [right] at hv
      cases hv
    | returned _ right =>
      rw [right] at hv
      cases hv
    | leave left target path right target' related =>
      rw [right] at hv
      cases hv
      rw [target'] at ht
      cases ht
      exact .step left target (path.returns (ih related))

/-- **Related blocks return the same.** -/
theorem returns_iff (hr : R b store c) : Returns g b store v final ↔ Returns h c store v final :=
  ⟨fun hret => returns_of_matched hmatch hret .refl hr, fun hret => matched_returns hmatch hret hr⟩

end simulation

/-! ## Blocks that were kept or cut short -/

theorem visit_sameCode (hg : g.WellFormed) (hs : SameCode g h b) (store : Store) :
    visit h b store = visit g b store := by
  obtain ⟨⟨old, new, hold, hnew, hi, _⟩, _⟩ := hs
  exact visit_image hg hold hnew hi store

theorem stepCount?_sameCode (hs : SameCode g h b) : stepCount? h b = stepCount? g b := by
  obtain ⟨⟨old, new, hold, hnew, hi, _⟩, _⟩ := hs
  exact stepCount?_image hold hnew hi

/-- Running a block does not depend on where its slots lead. -/
theorem visit_retargeted (hg : g.WellFormed) (hr : Graph.Retargeted g h) (hb : g.isLive b = true)
    (store : Store) : visit h b store = visit g b store := by
  obtain ⟨block, hblock⟩ := Graph.isLive_iff.1 hb
  exact visit_image hg hblock (by rw [hr.block?_eq, hblock]) (hr.blockImage block) store

theorem stepCount?_retargeted (hr : Graph.Retargeted g h) (b : BlockId) :
    stepCount? h b = stepCount? g b := by
  rw [stepCount?, stepCount?, hr.block?_eq]

theorem runBody_sameCode (hg : g.WellFormed) (hs : SameCode g h b) (store : Store) :
    runBody h b store = runBody g b store := by
  obtain ⟨⟨old, new, hold, hnew, hi, _⟩, _⟩ := hs
  exact runBody_image hg hold hnew hi store

/-- Phantoms do nothing. -/
theorem evalBody_phantoms {kept : List NodeId}
    (hkept : ∀ m ∈ kept, ∃ node, h.node? m = some node ∧ node.kind = .phantom) (values : Values)
    (store : Store) : evalBody h b kept values store = some (values, store) := by
  induction kept with
  | nil => rfl
  | cons m kept ih =>
    obtain ⟨node, hnode, hkind⟩ := hkept m (List.mem_cons_self ..)
    have hquiet : evalNode h b m values store = .ok (.quiet, store) := by
      simp only [evalNode, hnode, hkind, binary?, evalOther]
      rfl
    simp only [evalBody, hquiet]
    exact ih fun m' hm' => hkept m' (List.mem_cons_of_mem _ hm')

/-- **A visit of a block that was cut short** runs its body and goes on. -/
theorem visit_cut {last : Node} {target : BlockId} {kept : List NodeId} {jump : NodeId}
    (hg : g.WellFormed) (hb : g.block? b = some block)
    (hc : Cut g b block last target kept jump h) (store : Store) :
    visit h b store = (runBody g b store).map (.leave 0) := by
  obtain ⟨body, n, _, hsplit, _⟩ := hg.terminal hb
  obtain ⟨node, hnode, hkind, _, _⟩ := hc.jump_node
  have heval := evalBody_image (b := b) (c := b) (hc.grows.blockImage hg hb)
    (body_usable hg hb hsplit) [] (by simp) store
  have hnil : renameValues id [] = [] := rfl
  rw [hnil, List.map_id] at heval
  have hkept : ∀ values store, evalBody h b kept values store = some (values, store) := by
    refine evalBody_phantoms fun m hm => ?_
    obtain ⟨node, hnode, hk, _⟩ := hc.kept_node m hm
    exact ⟨node, hnode, hk⟩
  simp only [visit, hc.block?_self, Option.bind_some, evalNodes, hsplit, List.dropLast_concat]
  rw [← List.append_assoc, List.dropLast_concat, evalBody_append, heval]
  simp only [List.getLast?_append, List.getLast?_singleton, Option.some_or, Option.bind_eq_bind,
    Option.bind_some, hnode, runBody, hb, hsplit, List.dropLast_concat]
  cases evalBody g b body [] store with
  | none => rfl
  | some out => simp [hkept, decision, hkind, Decision.exit]

/-- **Two graphs return the same** if all that is reachable in the first was kept. -/
theorem returns_iff_of_sameCode (hg : g.WellFormed)
    (hsame : ∀ b, g.flow.Reaches entry b → SameCode g h b) :
    Returns g entry store v final ↔ Returns h entry store v final := by
  refine returns_iff (R := fun b _ c => c = b ∧ g.flow.Reaches entry b) ?_ ⟨rfl, hg.reaches_entry⟩
  rintro b store c ⟨rfl, hreach⟩
  refine .of_visit_eq hg (visit_sameCode hg (hsame c hreach) store) ?_
  intro i next t _ ht
  refine ⟨t, t, by rw [(hsame c hreach).successor, ht], .refl, rfl, ?_⟩
  exact hreach.step (hg.edge_iff.2 (Graph.mem_successors_of_successor? ht))

end Unroller.Machine
