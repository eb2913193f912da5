import Mathlib.Tactic
import Unroller.Phase
import Unroller.Proofs.Cloning.Nodes

/-!
# How a computation ends

A computation that fails midway leaves its state where it got to.  What is said of both ends of a
computation is put together from what is said of its parts.

* `finalState`: where a computation ends, whether or not it succeeds.
* `Ends`: one thing holds if the computation succeeds, another if it fails.
* `Ends.bind`, `Ends.forM`, `Ends.foldlM`, `Ends.mapM`: the parts in sequence.
* `ends_edge`, `ends_operands`: the copying of operands; `ends_editGraph`: one edit of a graph.
-/

namespace Unroller

/-- The state in which a computation ends. -/
def finalState {ε σ α : Type} : EStateM.Result ε σ α → σ
  | .ok _ s => s
  | .error _ s => s

namespace Cloning

variable {ε σ α β : Type} {P : α → σ → Prop} {Q : β → σ → Prop} {E : ε → σ → Prop} {I : σ → Prop}
  {s t : σ}

/-- The computation succeeds with a result and a state as `P` says, or fails with an error and a
state as `E` says. -/
def Ends (P : α → σ → Prop) (E : ε → σ → Prop) (x : EStateM ε σ α) (s : σ) : Prop :=
  (∃ a t, x s = .ok a t ∧ P a t) ∨ ∃ e t, x s = .error e t ∧ E e t

namespace Ends

variable {x : EStateM ε σ α}

theorem of_ok {a : α} (hx : x s = .ok a t) (hP : P a t) : Ends P E x s := .inl ⟨a, t, hx, hP⟩

theorem of_error {e : ε} (hx : x s = .error e t) (hE : E e t) : Ends P E x s :=
  .inr ⟨e, t, hx, hE⟩

theorem congr {y : EStateM ε σ α} (heq : x s = y s) (hy : Ends P E y s) : Ends P E x s := by
  rw [Ends] at hy ⊢
  rwa [heq]

theorem mono {P' : α → σ → Prop} {E' : ε → σ → Prop} (hx : Ends P E x s)
    (hP : ∀ a t, P a t → P' a t) (hE : ∀ e t, E e t → E' e t) : Ends P' E' x s := by
  rcases hx with ⟨a, t, hrun, h⟩ | ⟨e, t, hrun, h⟩
  · exact of_ok hrun (hP a t h)
  · exact of_error hrun (hE e t h)

/-- What holds of the state whichever way the computation ends. -/
theorem final (hx : Ends (fun _ => I) (fun _ => I) x s) : I (finalState (x s)) := by
  rcases hx with ⟨a, t, hrun, hI⟩ | ⟨e, t, hrun, hI⟩
  · rw [hrun]
    exact hI
  · rw [hrun]
    exact hI

/-- What is said of a success may mention the run. -/
theorem and_run (hx : Ends P E x s) : Ends (fun a t => x s = .ok a t ∧ P a t) E x s := by
  rcases hx with ⟨a, t, hrun, hP⟩ | herror
  · exact .inl ⟨a, t, hrun, hrun, hP⟩
  · exact .inr herror

/-- Two things said of the same computation. -/
theorem and {P' : α → σ → Prop} {E' : ε → σ → Prop} (hx : Ends P E x s) (hx' : Ends P' E' x s) :
    Ends (fun a t => P a t ∧ P' a t) (fun e t => E e t ∧ E' e t) x s := by
  rcases hx with ⟨a, t, hrun, h⟩ | ⟨e, t, hrun, h⟩ <;>
    rcases hx' with ⟨a', t', hrun', h'⟩ | ⟨e', t', hrun', h'⟩ <;>
    cases hrun.symm.trans hrun'
  · exact of_ok hrun ⟨h, h'⟩
  · exact of_error hrun ⟨h, h'⟩

/-- One part after another. -/
theorem bind {f : α → EStateM ε σ β} (hx : Ends P E x s) (hf : ∀ a t, P a t → Ends Q E (f a) t) :
    Ends Q E (x >>= f) s := by
  rcases hx with ⟨a, t, hrun, hP⟩ | ⟨e, t, hrun, hE⟩
  · have hnext := hf a t hP
    rw [Ends] at hnext ⊢
    rwa [Cloning.bind_ok hrun]
  · exact of_error (bind_error hrun) hE

/-- After a part that is known to succeed. -/
theorem bind_ok {f : α → EStateM ε σ β} {a : α} (hx : x s = .ok a t) (hf : Ends Q E (f a) t) :
    Ends Q E (x >>= f) s := by
  rw [Ends] at hf ⊢
  rwa [Cloning.bind_ok hx]

theorem get {f : σ → EStateM ε σ α} (hf : Ends P E (f s) s) : Ends P E (get >>= f) s := hf

/-- The same work for each item of a list. -/
theorem forM {items : List α} {f : α → EStateM ε σ PUnit} (hs : I s)
    (hf : ∀ i ∈ items, ∀ t, I t → Ends (fun _ => I) E (f i) t) :
    Ends (fun _ => I) E (items.forM f) s := by
  induction items generalizing s with
  | nil => exact of_ok rfl hs
  | cons i items ih =>
    exact (hf i List.mem_cons_self s hs).bind fun _ t ht =>
      ih ht fun j hj => hf j (List.mem_cons_of_mem _ hj)

/-- Work that is handed from item to item. -/
theorem foldlM {items : List α} {f : β → α → EStateM ε σ β} (hs : I s)
    (hf : ∀ acc i t, I t → Ends (fun _ => I) E (f acc i) t) (acc : β) :
    Ends (fun _ => I) E (items.foldlM f acc) s := by
  induction items generalizing s acc with
  | nil => exact of_ok rfl hs
  | cons i items ih => exact (hf acc i s hs).bind fun acc' t ht => ih ht acc'

/-- Work whose results are collected. -/
theorem mapM {items : List α} {f : α → EStateM ε σ β} (hs : I s)
    (hf : ∀ i ∈ items, ∀ t, I t → Ends (fun _ => I) E (f i) t) :
    Ends (fun _ => I) E (items.mapM f) s := by
  induction items generalizing s with
  | nil => exact of_ok rfl hs
  | cons i items ih =>
    rw [List.mapM_cons]
    refine (hf i List.mem_cons_self s hs).bind fun a t ht => ?_
    refine (ih ht fun j hj => hf j (List.mem_cons_of_mem _ hj)).bind fun as u hu => ?_
    exact of_ok rfl hu

end Ends

/-! ## Operands -/

section Operands

variable {copy : NodeId → Cloning NodeId} {I : Session → Prop} {E : Error → Session → Prop}
  {s : Session}

theorem ends_edge (hs : I s) {e : Edge}
    (hcopy : ∀ n, e.node? = some n → Ends (fun _ => I) E (copy n) s) :
    Ends (fun _ => I) E (edge copy e) s := by
  unfold edge
  split
  · rename_i n hn
    exact (hcopy n hn).bind fun m t ht => .of_ok rfl ht
  · exact .of_ok rfl hs

/-- The operands of a copy stand with the node, or in a range that begins where the variadic
operands ended before. -/
theorem ends_operands (hs : I s) {c : Children}
    (hcopy : ∀ e ∈ s.graph.edgesOf c, ∀ n, e.node? = some n → ∀ t, I t →
      Ends (fun _ => I) E (copy n) t)
    (hargs : ∀ t args, I t → I (onto t (withArgs t.graph args))) :
    Ends (fun c' t => I t ∧
        ∀ first count, c' = .variadic first count → ∃ u, I u ∧ first = u.graph.varArgs.size)
      E (children copy c) s := by
  have hedge : ∀ e ∈ s.graph.edgesOf c, ∀ t, I t → Ends (fun _ => I) E (edge copy e) t :=
    fun e he t ht => ends_edge ht fun n hn => hcopy e he n hn t ht
  cases c with
  | fixed a b c =>
    refine (hedge a (by simp [Graph.edgesOf]) s hs).bind fun _ t ht => ?_
    refine (hedge b (by simp [Graph.edgesOf]) t ht).bind fun _ u hu => ?_
    refine (hedge c (by simp [Graph.edgesOf]) u hu).bind fun _ w hw => .of_ok rfl ⟨hw, ?_⟩
    rintro _ _ ⟨⟩
  | variadic first count =>
    unfold children
    refine .get ((Ends.mapM hs hedge).bind fun copies t ht => .get ?_)
    refine .bind_ok (forM_addVarArg_ok copies t) (.of_ok rfl ⟨hargs t _ ht, ?_⟩)
    rintro _ _ ⟨⟩
    exact ⟨t, ht, rfl⟩

end Operands

end Cloning

/-- An edit is made, or leaves the graph as it is. -/
theorem ends_editGraph {I : Graph → Prop} {g : Graph} {edit : Graph → Except Violation Graph}
    (hg : I g) (hedit : ∀ h, edit g = .ok h → I h) :
    Cloning.Ends (fun _ => I) (fun _ => I) (editGraph edit) g := by
  cases hrun : edit g with
  | ok h =>
    have hok : editGraph edit g = .ok () h := by simp only [editGraph, hrun]
    exact .of_ok hok (hedit h hrun)
  | error e =>
    have herror : editGraph edit g = .error (.violation e) g := by simp only [editGraph, hrun]
    exact .of_error herror hg

end Unroller
