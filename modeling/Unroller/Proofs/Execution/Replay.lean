import Mathlib.Tactic
import Unroller.Proofs.Execution.Safety

/-!
# The trace of a run accounts for its arrays

A run records every access to an array element, so the arrays it began with can be brought up to
date from the trace alone, and what it read can be checked against them.

* `written`, `replay`: the elements of an array after one write, and after the accesses of a trace.
* `Touches`: what evaluating a node can do to the arrays and the trace (`evalNode_touches`).
* `Accounted`: a trace that accounts for the arrays; `Accounted.touches`, one node keeps it so.
* `trace_accounts`: the trace of a run that returns does.
-/

namespace Unroller

/-- The elements of an array after a write: as many as before, or just enough, those in between
undefined. -/
def written (values : List Value) (i : Nat) (v : Value) : List Value :=
  (List.range (max values.length (i + 1))).map fun j =>
    if j = i then v else values.getD j .undefined

/-- The elements of the array `id` after an access to some array. -/
def Access.applyTo (a : Access) (id : Nat) (values : List Value) : List Value :=
  if a.kind = .store ∧ a.array = id then written values a.index.toInt.toNat a.value else values

/-- The elements of the array `id` after some accesses, in order. -/
def replay (id : Nat) (values : List Value) (accesses : List Access) : List Value :=
  accesses.foldl (fun values a => a.applyTo id values) values

/-- The element at an index, undefined when the index is negative or past the end. -/
def elementAt (values : List Value) (index : Int32) : Value :=
  if index.toInt < 0 then .undefined else values.getD index.toInt.toNat .undefined

theorem replay_snoc (id : Nat) (values : List Value) (accesses : List Access) (a : Access) :
    replay id values (accesses ++ [a]) = a.applyTo id (replay id values accesses) := by
  simp [replay]

theorem toList_writeGrowing (values : Array Value) (i : Nat) (v : Value) :
    (writeGrowing values i v).toList = written values.toList i v := by
  refine List.ext_getElem ?_ fun j hj hj' => ?_
  · simp [writeGrowing, written]
    omega
  · simp only [writeGrowing, written, Array.toList_setIfInBounds, List.getElem_set,
      List.getElem_map, List.getElem_range, Array.toList_append, Array.toList_replicate,
      List.getElem_append, List.getElem_replicate, eq_comm (a := i)]
    by_cases hlt : j < values.size <;> simp [hlt]

/-! ## One node -/

/-- What evaluating a node can do to the arrays and the trace: nothing, a new array, or one access
that is recorded.  Writes have an index that is not negative. -/
inductive Store.Touches (s : Store) : Store → Prop where
  | kept {t : Store} (arrays : t.arrays = s.arrays) (trace : t.trace = s.trace) : Touches s t
  | added (elements : Array Value) : Touches s (s.addArray elements).2
  | loaded (id : Nat) (index : Int32) : Touches s (s.load id index).2
  | stored (id : Nat) (index : Int32) (v : Value) (natural : 0 ≤ index.toInt) :
    Touches s (s.put id index v)

namespace Machine

open Unroller.Graph (entry)

variable {g : Graph} {b : BlockId} {n : NodeId} {node : Node} {values : Values}
  {store : Store} {s s' : State}

/-- Whatever can go wrong with it, a computation does to a store what evaluating a node can do. -/
abbrev TouchesOnly (store : Store) (x : Except RunFault (Effect × Store)) : Prop :=
  Meets (fun _ => True) (fun out => store.Touches out.2) x

theorem Yields.touches {effect : Effect} {store' : Store}
    (h : Yields g b n node values store effect store') : store.Touches store' := by
  cases h with
  | value _ _ | quiet _ | written _ _ _ _ _ | goto _ _ _ _ | done _ _ => exact .kept rfl rfl
  | created elements _ => exact .added elements
  | loaded id index _ => exact .loaded id index
  | stored id index v _ natural => exact .stored id index v natural

/-- **One node** touches arrays and trace in these ways only. -/
theorem evalNode_touches : TouchesOnly store (evalNode g b n values store) := by
  cases hnode : g.node? n with
  | none =>
    simp only [evalNode, hnode]
    trivial
  | some node => exact (evalNode_spec hnode store).imp (fun _ _ => trivial) fun _ h => h.touches

end Machine

/-! ## Traces that account for arrays -/

/-- The trace accounts for the arrays: those that were there initially hold what a replay of the
trace leaves, what was read is what the replay had there, and no write was at a negative index. -/
structure Accounted (initial : Array (Array Value)) (trace : List Access)
    (arrays : Array (Array Value)) : Prop where
  contents : ∀ id values, initial[id]? = some values →
    ∃ now, arrays[id]? = some now ∧ now.toList = replay id values.toList trace
  loads : ∀ before a after, trace = before ++ a :: after → a.kind = .load →
    ∀ values, initial[a.array]? = some values →
      a.value = elementAt (replay a.array values.toList before) a.index
  stores : ∀ a ∈ trace, a.kind = .store → 0 ≤ a.index.toInt

namespace Accounted

variable {initial arrays arrays' : Array (Array Value)} {trace : List Access} {a : Access}
  {s t : Store}

theorem refl (initial : Array (Array Value)) : Accounted initial [] initial :=
  ⟨fun _ values h => ⟨values, h, rfl⟩, by simp, by simp⟩

/-- One more access, with what it did to the arrays. -/
theorem snoc (h : Accounted initial trace arrays)
    (happly : ∀ id now, arrays[id]? = some now →
      ∃ next, arrays'[id]? = some next ∧ next.toList = a.applyTo id now.toList)
    (hload : a.kind = .load → ∀ now, arrays[a.array]? = some now →
      a.value = elementAt now.toList a.index)
    (hstore : a.kind = .store → 0 ≤ a.index.toInt) : Accounted initial (trace ++ [a]) arrays' where
  contents := by
    intro id values hid
    obtain ⟨now, hnow, hlist⟩ := h.contents id values hid
    obtain ⟨next, hnext, happlied⟩ := happly id now hnow
    exact ⟨next, hnext, by rw [happlied, hlist, replay_snoc]⟩
  loads := by
    intro before a' after hsplit hkind values hid
    rcases List.eq_nil_or_concat' after with rfl | ⟨after, last, rfl⟩
    · obtain ⟨rfl, rfl⟩ : trace = before ∧ a = a' := by simpa using List.append_inj' hsplit rfl
      obtain ⟨now, hnow, hlist⟩ := h.contents _ values hid
      rw [hload hkind now hnow, hlist]
    · rw [← List.cons_append, ← List.append_assoc] at hsplit
      exact h.loads before a' after (List.append_inj' hsplit rfl).1 hkind values hid
  stores := by
    intro a' hmem hkind
    rcases List.mem_append.1 hmem with hmem | hmem
    · exact h.stores a' hmem hkind
    · obtain rfl : a' = a := by simpa using hmem
      exact hstore hkind

/-- **One node** keeps the arrays accounted for. -/
theorem touches (h : Accounted initial s.trace.toList s.arrays) (ht : s.Touches t) :
    Accounted initial t.trace.toList t.arrays := by
  cases ht with
  | kept harrays htrace => rwa [harrays, htrace]
  | added elements =>
    refine ⟨fun id values hid => ?_, h.loads, h.stores⟩
    obtain ⟨now, hnow, hlist⟩ := h.contents id values hid
    have hlt : id < s.arrays.size := (Array.getElem?_eq_some_iff.1 hnow).1
    exact ⟨now, by simpa [Store.addArray, Array.getElem?_push_lt, hlt] using hnow, hlist⟩
  | loaded id index =>
    rw [Store.load, Array.toList_push]
    refine h.snoc (fun id' now hnow => ⟨now, hnow, rfl⟩) (fun _ now hnow => ?_) (by simp)
    simp only [Store.element, elementAt, Array.getD_eq_getD_getElem?] at hnow ⊢
    simp [hnow]
  | stored id index v hindex =>
    rw [Store.put, Array.toList_push]
    refine h.snoc (fun id' now hnow => ?_) (by simp) fun _ => hindex
    by_cases hid : id = id'
    · subst hid
      refine ⟨writeGrowing now index.toInt.toNat v, by simp [Array.getElem?_modify, hnow], ?_⟩
      simp only [Access.applyTo, and_self, if_true, toList_writeGrowing]
    · exact ⟨now, by simpa [Array.getElem?_modify, hid] using hnow, by simp [Access.applyTo, hid]⟩

end Accounted

/-! ## Steps and runs -/

namespace Machine

/-- The arrays of a run that goes on, or of one that returned, are accounted for. -/
def Outcome.Accounts (initial : Array (Array Value)) : Outcome → Prop
  | .running s => Accounted initial s.store.trace.toList s.store.arrays
  | .returned e => Accounted initial e.trace.toList e.arrays

theorem store_enter {steps : Nat} (h : enter g b store steps = .ok s) : s.store = store := by
  rw [enter] at h
  split at h
  · cases h
  · split at h
    · cases h
    · cases h
      rfl

theorem store_advance (h : advance g s = .ok s') : s'.store = s.store := by
  rw [advance] at h
  split at h
  · cases h
    rfl
  · split at h
    · exact store_enter h
    · cases h

theorem store_after (s : State) (effect : Effect) (store : Store) :
    (s.after effect store).store = store := by
  cases effect <;> rfl

theorem step_accounts {initial : Array (Array Value)} {out : Outcome}
    (hs : Accounted initial s.store.trace.toList s.store.arrays) (h : step g s = .ok out) :
    out.Accounts initial := by
  have heval : TouchesOnly s.store (evalNode g s.block s.node s.values s.store) := evalNode_touches
  rw [step] at h
  split at h
  · cases h
  · rename_i v store' hdone
    rw [hdone] at heval
    cases h
    exact hs.touches heval
  · rename_i effect store' _ hgoes
    rw [hgoes] at heval
    split at h
    · cases h
    · rename_i s' hadvance
      cases h
      rw [Outcome.Accounts, store_advance hadvance, store_after]
      exact hs.touches heval

/-- **All steps**, by induction on the budget. -/
theorem exec_accounts {initial : Array (Array Value)} {budget : Nat} {e : Execution}
    (hs : Accounted initial s.store.trace.toList s.store.arrays) (h : exec g budget s = .ok e) :
    Accounted initial e.trace.toList e.arrays := by
  induction budget generalizing s with
  | zero => cases h
  | succ budget ih =>
    rw [exec] at h
    cases hstep : step g s with
    | error fault => simp [hstep] at h
    | ok out =>
      have hout := step_accounts hs hstep
      rw [hstep] at h
      cases out with
      | returned e' =>
        cases h
        exact hout
      | running s' => exact ih hout h

/-- **The trace accounts for the arrays.**  A run on any locals and arrays returns.  Then each of
these arrays ends as a replay of the trace leaves it.  Every read of it had the value that a replay
of the trace up to there has at the index, undefined when there is none; and no write was at a
negative index. -/
theorem trace_accounts (g : Graph) (locals : Array Value) (arrays : Array (Array Value))
    (budget : Nat) {e : Execution}
    (h : run g { locals := locals, arrays := arrays } budget = .ok e) :
    ∀ id values, arrays[id]? = some values →
      (∃ final, e.arrays[id]? = some final ∧
        final.toList = replay id values.toList e.trace.toList) ∧
      ∀ before a after, e.trace.toList = before ++ a :: after → a.array = id →
        (a.kind = .load → a.value = elementAt (replay id values.toList before) a.index) ∧
        (a.kind = .store → 0 ≤ a.index.toInt) := by
  rw [run] at h
  split at h
  · cases h
  · rename_i s henter
    have hs : Accounted arrays s.store.trace.toList s.store.arrays := by
      rw [store_enter henter]
      exact .refl arrays
    have he := exec_accounts hs h
    rintro id values hid
    refine ⟨he.contents id values hid, ?_⟩
    rintro before a after hsplit rfl
    exact ⟨fun hkind => he.loads before a after hsplit hkind values hid,
      he.stores a (by simp [hsplit])⟩

/-- A function that writes past the end of the array in local 0, and reads there and before the
start of the array. -/
def growingAccesses : Graph :=
  let b := ((Builder.start 1 "" none).block 1).2.switchTo 0
  let b := (b.getLocal 0).2
  let b := (b.constant (.int32 2)).2
  let b := (b.constant (.int32 (-1))).2
  let b := (b.store (.untyped 0) (.untyped 1) (.untyped 2)).2
  let b := (b.load (.untyped 0) (.untyped 1)).2
  let b := (b.load (.untyped 0) (.untyped 2)).2
  (b.ret (.untyped 4)).2.graph

theorem trace_accounts_growing :
    let trace :=
      #[⟨.store, 0, 2, .int32 (-1)⟩, ⟨.load, 0, 2, .int32 (-1)⟩, ⟨.load, 0, -1, .undefined⟩]
    let arrays := #[#[.int32 7, .undefined, .int32 (-1)]]
    run growingAccesses { locals := #[.array 0], arrays := #[#[.int32 7]] } 100 =
        .ok ⟨.int32 (-1), trace, arrays, 7⟩ ∧
      (∃ final, arrays[0]? = some final ∧ final.toList = replay 0 [.int32 7] trace.toList) ∧
      ∀ before a after, trace.toList = before ++ a :: after → a.array = 0 →
        (a.kind = .load → a.value = elementAt (replay 0 [.int32 7] before) a.index) ∧
        (a.kind = .store → 0 ≤ a.index.toInt) := by
  intro trace arrays
  have hrun : run growingAccesses { locals := #[.array 0], arrays := #[#[.int32 7]] } 100 =
      .ok ⟨.int32 (-1), trace, arrays, 7⟩ := by
    decide +kernel
  exact ⟨hrun, trace_accounts growingAccesses _ _ 100 hrun 0 #[.int32 7] rfl⟩

end Machine

end Unroller
