import Mathlib.Tactic
import Unroller.Proofs.Digraph.LoopForest

/-!
# Dominance by predecessors

What the vertices that lead to a vertex say about it.

* `Avoids.eq_or_last`: the last edge of a walk that avoids a vertex.
* `dominates_of_preds`: what dominates all vertices that lead to a vertex dominates it.
-/

namespace Unroller.Digraph

variable {g : Digraph} {a b d r : Nat}

/-- The last edge of a walk that avoids a vertex. -/
theorem Avoids.eq_or_last (h : g.Avoids d a b) : a = b ∨ ∃ c, g.Avoids d a c ∧ g.Edge c b := by
  obtain ⟨vs, hw, hd⟩ := h
  induction hw with
  | single _ => exact .inl rfl
  | @cons a m b vs edge walk ih =>
    have ha : a ≠ d := fun heq => hd (heq ▸ List.mem_cons_self ..)
    have hvs : d ∉ vs := fun hmem => hd (List.mem_cons_of_mem _ hmem)
    have hm : m ≠ d := fun heq => hvs (heq ▸ walk.left_mem)
    rcases ih hvs with rfl | ⟨c, hav, hcb⟩
    · exact .inr ⟨a, .refl edge.left_lt ha, edge⟩
    · exact .inr ⟨c, (edge.avoids ha hm).trans hav, hcb⟩

/-- What dominates all vertices that lead to a vertex dominates it. -/
theorem dominates_of_preds (hb : g.Reaches r b) (hne : b ≠ r)
    (h : ∀ c, g.Reaches r c → g.Edge c b → g.Dominates r d c) : g.Dominates r d b := by
  refine dominates_iff.2 ⟨hb, fun hav => ?_⟩
  rcases hav.eq_or_last with heq | ⟨c, hc, hcb⟩
  · exact hne heq.symm
  · exact (dominates_iff.1 (h c hc.reaches hcb)).2 hc

end Unroller.Digraph
