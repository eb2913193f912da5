import Mathlib.Tactic
import Unroller.Graph.Basic
import Unroller.Loop.Rejection

/-!
# Results that may be missing

Many functions give a value or the reason why there is none.  These are the rules by which their
parts succeed or fail.

* `Meets`: a computation that fails, or ends, in given ways.
* `mapM_eq_ok_map`, `map_eq_of_mapM`: a computation on each element of a list.
* `rejecting_eq_ok_iff`, `stopping_eq_ok_iff`: the results of the parts of a check.
* `require_eq_ok_iff`: what it takes for nodes to exist.
-/

namespace Unroller

/-! ## Ways to fail and to end -/

/-- A computation that fails by `F` only, and whose results have the property `E`. -/
def Meets {ε α : Type} (F : ε → Prop) (E : α → Prop) : Except ε α → Prop
  | .error e => F e
  | .ok a => E a

namespace Meets

variable {ε α β : Type} {F F' : ε → Prop} {E E' : α → Prop} {E₁ : β → Prop} {x : Except ε α}
  {f : α → Except ε β} {xs : List α}

theorem imp (h : Meets F E x) (hF : ∀ e, F e → F' e) (hE : ∀ a, E a → E' a) : Meets F' E' x := by
  cases x with
  | error e => exact hF e h
  | ok a => exact hE a h

/-- What follows may rely on what the first part gives. -/
theorem next (hx : Meets F E x) (hf : ∀ a, E a → Meets F E₁ (f a)) : Meets F E₁ (x >>= f) := by
  cases x with
  | error e => exact hx
  | ok a => exact hf a hx

/-- What cannot fail gives a value. -/
theorem exists_ok (hx : Meets (fun _ => False) E x) : ∃ a, x = .ok a := by
  cases x with
  | error e => exact hx.elim
  | ok a => exact ⟨a, rfl⟩

theorem bind (hx : Meets F (fun _ => True) x) (hf : ∀ a, Meets F E₁ (f a)) :
    Meets F E₁ (x >>= f) :=
  hx.next fun a _ => hf a

theorem mapM (hf : ∀ x ∈ xs, Meets F (fun _ => True) (f x)) :
    Meets F (fun _ => True) (xs.mapM f) := by
  induction xs with
  | nil => trivial
  | cons x xs ih =>
    rw [List.mapM_cons]
    refine .bind (hf x (List.mem_cons_self ..)) fun y => ?_
    exact .bind (ih fun z hz => hf z (List.mem_cons_of_mem _ hz)) fun ys => trivial

/-- A fold keeps what each of its steps keeps. -/
theorem foldlM {step : β → α → Except ε β} {b : β}
    (hstep : ∀ b, ∀ x ∈ xs, E₁ b → Meets F E₁ (step b x)) (hb : E₁ b) :
    Meets F E₁ (xs.foldlM step b) := by
  induction xs generalizing b with
  | nil => exact hb
  | cons x xs ih =>
    rw [List.foldlM_cons]
    exact (hstep b x (List.mem_cons_self ..) hb).next fun b' hb' =>
      ih (fun b y hy => hstep b y (List.mem_cons_of_mem _ hy)) hb'

end Meets

theorem bind_eq_ok {ε α β : Type} {x : Except ε α} {f : α → Except ε β} {b : β}
    (h : x >>= f = .ok b) : ∃ a, x = .ok a ∧ f a = .ok b := by
  cases x with
  | error e => cases h
  | ok a => exact ⟨a, rfl, h⟩

section Lists

variable {ε α β : Type} {f : α → Except ε β} {xs : List α}

/-- If the computation succeeds on each element, it does on the list. -/
theorem mapM_eq_ok_map {value : α → β} (h : ∀ x ∈ xs, f x = .ok (value x)) :
    xs.mapM f = .ok (xs.map value) := by
  induction xs with
  | nil => rfl
  | cons x xs ih =>
    rw [List.mapM_cons, h x (List.mem_cons_self ..), ih fun y hy => h y (List.mem_cons_of_mem _ hy)]
    rfl

/-- What can be read off each value can be read off all of them. -/
theorem map_eq_of_mapM {back : β → α} {ys : List β} (h : xs.mapM f = .ok ys)
    (hback : ∀ x y, f x = .ok y → back y = x) : ys.map back = xs := by
  induction xs generalizing ys with
  | nil =>
    obtain rfl := Except.ok.inj h
    rfl
  | cons x xs ih =>
    rw [List.mapM_cons] at h
    obtain ⟨y, hy, h⟩ := bind_eq_ok h
    obtain ⟨rest, hrest, h⟩ := bind_eq_ok h
    obtain rfl := Except.ok.inj h
    rw [List.map_cons, hback x y hy, ih hrest]

theorem length_of_mapM {ys : List β} (h : xs.mapM f = .ok ys) : ys.length = xs.length := by
  induction xs generalizing ys with
  | nil =>
    obtain rfl := Except.ok.inj h
    rfl
  | cons x xs ih =>
    rw [List.mapM_cons] at h
    obtain ⟨y, _, h⟩ := bind_eq_ok h
    obtain ⟨rest, hrest, h⟩ := bind_eq_ok h
    obtain rfl := Except.ok.inj h
    rw [List.length_cons, List.length_cons, ih hrest]

end Lists

/-- Whether a computation gives a value is decided without comparing failures. -/
instance decidableEqOk {ε α : Type} [DecidableEq α] (r : Except ε α) (a : α) :
    Decidable (r = .ok a) :=
  match r with
  | .ok b => decidable_of_iff (b = a) (by simp)
  | .error _ => .isFalse nofun

namespace Refusal

variable {α : Type} {a : α}

@[simp] theorem rejecting_ok : rejecting (.ok a) = .ok a := rfl

@[simp] theorem stopping_ok : stopping (.ok a) = .ok a := rfl

@[simp] theorem rejecting_eq_ok_iff {r : Except Rejection α} : rejecting r = .ok a ↔ r = .ok a := by
  cases r <;> simp [rejecting, Except.mapError]

@[simp] theorem stopping_eq_ok_iff {r : Except Error α} : stopping r = .ok a ↔ r = .ok a := by
  cases r <;> simp [stopping, Except.mapError]

end Refusal

namespace Graph

variable {g : Graph} {n : NodeId} {node : Node} {nodes : List NodeId}

theorem node_eq_ok_iff : g.node n = .ok node ↔ g.node? n = some node := by
  rw [Graph.node]
  split <;> simp_all

theorem require_eq_ok_iff : g.require nodes = .ok () ↔ ∀ n ∈ nodes, (g.node? n).isSome := by
  rw [require]
  split
  next n hn =>
    have hmem := List.mem_of_find?_eq_some hn
    have hnone := List.find?_some hn
    refine ⟨fun h => (nomatch h), fun h => ?_⟩
    have hsome := h n hmem
    simp_all
  next hnone =>
    refine ⟨fun _ n hn => ?_, fun _ => rfl⟩
    have hn := List.find?_eq_none.1 hnone n hn
    simpa [Option.isSome_iff_ne_none] using hn

end Graph

end Unroller
