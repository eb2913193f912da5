import Mathlib.Tactic
import Unroller.Proofs.Loop.Progression
import Unroller.Proofs.Loop.Shape

/-!
# The static trip count is the dynamic one

A loop whose counter starts with a constant and is compared with a constant runs as often as the
simulation of the counter says.

* `TripsLeft v inverse bound r x`: with the counter at `x`, the tail will run `r` more times.
* `CountedLoop`: an accepted loop with constant initial value and bound.
* `CountedLoop.leave_tail`, `leave_member`, `leave_preHeader`, `leave_pad`: what one visit of each
  sort of block does to the counter.
* `CountedLoop.turns`: from the header on, the tail runs as often as there are trips left.
* `CountedLoop.turns_of_entering`: and each time control comes into the loop, all of them are left.
-/

namespace Unroller

open Machine Unroller.Graph

/-! ## Counting -/

/-- With the counter at `x`, the tail of the loop runs `r` more times. -/
inductive TripsLeft (v : InductionVariable) (inverse : Bool) (bound : Int32) :
    Nat → Int32 → Prop where
  | last {x z : Int32} (apply : (v.apply (.ofInt32 x)).value? = some z)
    (test : v.test z bound = inverse) : TripsLeft v inverse bound 1 x
  | more {r : Nat} {x z : Int32} (apply : (v.apply (.ofInt32 x)).value? = some z)
    (test : v.test z bound ≠ inverse) (left : TripsLeft v inverse bound r z) :
    TripsLeft v inverse bound (r + 1) x

theorem TripsLeft.pos {v : InductionVariable} {inverse : Bool} {bound x : Int32} {r : Nat}
    (h : TripsLeft v inverse bound r x) : 0 < r := by
  cases h <;> omega

/-- The iterations of the simulation are the trips that are left. -/
theorem tripsLeft_of_after {v : InductionVariable} {inverse : Bool} {bound x y z : Int32} {n : Nat}
    (hy : Progress.after v.apply (v.leavesAt inverse bound) x n = some y)
    (hz : (v.apply (.ofInt32 y)).value? = some z) (hleaves : v.leavesAt inverse bound z = true) :
    TripsLeft v inverse bound (n + 1) x := by
  induction n generalizing x with
  | zero =>
    obtain rfl := Option.some.inj hy
    exact .last hz (by simpa [InductionVariable.leavesAt] using hleaves)
  | succ n ih =>
    rw [Nat.add_comm, Progress.after_add] at hy
    obtain ⟨w, hw, hy⟩ := Option.bind_eq_some_iff.1 hy
    obtain ⟨_, hx, hvalue, hstays⟩ := Progress.after_succ_eq_some_iff.1 hw
    obtain rfl := Option.some.inj hx
    exact .more hvalue (by simpa [InductionVariable.leavesAt] using hstays) (ih hy)

/-- The trip count of a variable with constant initial value and bound. -/
theorem tripsLeft_of_tripCount {v : InductionVariable} {inverse : Bool} {limit : UInt32} {k : Nat}
    (h : v.tripCount inverse limit = .ok (some k)) :
    ∃ x y, v.initial = .constant x ∧ v.bound = .constant y ∧ TripsLeft v inverse y k x := by
  cases hinitial : v.initial with
  | node => simp [InductionVariable.tripCount, hinitial, ValueSource.constant?] at h
  | constant x =>
    cases hbound : v.bound with
    | node => simp [InductionVariable.tripCount, hinitial, hbound, ValueSource.constant?] at h
    | constant y =>
      obtain ⟨n, _, _, rfl, _, hn, hvalue, hleaves⟩ :=
        InductionVariable.left_of_tripCount hinitial hbound h
      exact ⟨x, y, rfl, rfl, tripsLeft_of_after hn hvalue hleaves⟩

/-! ## One visit -/

/-- An accepted loop whose counter starts at `initial` and is compared with `bound`. -/
structure CountedLoop (g : Graph) (loop : NaturalLoop) (shape : LoopShape)
    (initial bound : Int32) : Prop where
  analyzed : g.Analyzed
  parts : g.LoopParts loop shape.preHeader shape.tail shape.next shape.inLoopSlot
  pattern : g.InductionPattern loop shape.preHeader shape.tail (shape.inLoopSlot == 1)
    shape.induction shape.inverse
  initial_eq : shape.induction.initial = .constant initial
  bound_eq : shape.induction.bound = .constant bound

namespace CountedLoop

variable {g : Graph} {loop : NaturalLoop} {shape : LoopShape} {initial bound : Int32}
  {b : BlockId} {store next : Store} {slot : Nat}

/-- A visit that leaves its block by a slot. -/
theorem exists_evaluated {exit : Exit} (hg : g.WellFormed)
    (h : visit g b store = some exit) :
    ∃ block body last values store' node d, Evaluated g b block body last store values store' ∧
      g.node? last = some node ∧ decision g values last node = some d ∧ exit = d.exit store' := by
  obtain ⟨block, hb, h⟩ := Option.bind_eq_some_iff.1 h
  obtain ⟨body, last, node, hsplit, hlast, _, _⟩ := hg.terminal hb
  simp only [evalNodes, hsplit, List.getLast?_append, List.getLast?_singleton, Option.some_or,
    List.dropLast_concat, Option.bind_eq_bind, Option.bind_some, hlast] at h
  obtain ⟨⟨values, store'⟩, hev, h⟩ := Option.bind_eq_some_iff.1 h
  obtain ⟨d, hd, h⟩ := Option.map_eq_some_iff.1 h
  exact ⟨block, body, last, values, store', node, d, ⟨⟨hg, hb, hsplit⟩, hev⟩, hlast, hd, h.symm⟩

theorem leave_evaluated (hg : g.WellFormed) (h : visit g b store = some (.leave slot next)) :
    ∃ block body last values node, Evaluated g b block body last store values next ∧
      g.node? last = some node ∧ decision g values last node = some (.slot slot) := by
  obtain ⟨block, body, last, values, store', node, d, hev, hlast, hd, heq⟩ :=
    exists_evaluated hg h
  cases d with
  | ret v => cases heq
  | slot i =>
    cases heq
    exact ⟨block, body, last, values, node, hev, hlast, hd⟩

/-- A visit of the pre-header leaves the initial value in the counter. -/
theorem leave_preHeader (hc : CountedLoop g loop shape initial bound)
    (h : visit g shape.preHeader store = some (.leave slot next)) :
    next.getLocal shape.induction.slot = .int32 initial := by
  obtain ⟨_, _, _, _, _, hev, _, _⟩ := leave_evaluated hc.analyzed.wellFormed h
  exact hev.getLocal_preHeader hc.pattern hc.initial_eq

/-- A visit of a pad changes nothing. -/
theorem leave_pad (hg : g.WellFormed) {block : Block} (hb : g.block? b = some block)
    (hpad : block.flags.edgePad = true) (h : visit g b store = some (.leave slot next)) :
    next = store := by
  obtain ⟨block', body, last, values, _, hev, _, _⟩ := leave_evaluated hg h
  have heq := hev.block?
  rw [hb] at heq
  obtain rfl := Option.some.inj heq
  have hlen := (hg.block b block hb).pad hpad
  obtain rfl : body = [] := by
    rw [hev.nodes_eq] at hlen
    simpa using hlen
  have := hev.eval
  simp only [evalBody, Option.some.injEq, Prod.mk.injEq] at this
  exact this.2.symm

/-- A visit of a member other than the tail leaves the counter as it is. -/
theorem leave_member (hc : CountedLoop g loop shape initial bound) (hb : b ∈ loop.blocks)
    (hne : b ≠ shape.tail) (h : visit g b store = some (.leave slot next)) :
    next.getLocal shape.induction.slot = store.getLocal shape.induction.slot := by
  have hg := hc.analyzed.wellFormed
  obtain ⟨block, body, last, values, _, hev, _, _⟩ := leave_evaluated hg h
  obtain ⟨tailBlock, htail⟩ :=
    isLive_iff.1 (hg.isLive_of_reaches (hc.parts.natural.reaches hc.parts.tail_mem))
  obtain ⟨tailBody, tailLast, _, hsplit, _⟩ := hg.terminal htail
  obtain ⟨s, hs, hstores⟩ := HasBody.store_mem_tail ⟨hg, htail, hsplit⟩ hc.pattern
  refine getLocal_evalBody hev.not_terminal ?_ hev.eval
  intro n hn
  by_contra hstore
  have hmem : n ∈ loop.blocks.flatMap fun c => g.storesTo c shape.induction.slot :=
    List.mem_flatMap.2 ⟨b, hb, (mem_storesTo hev.block?).2
      ⟨by simp [hev.nodes_eq, hn], by simpa using hstore⟩⟩
  rw [hstores] at hmem
  obtain rfl : n = s := by simpa using hmem
  exact hne (hg.apart b block shape.tail tailBlock n hev.block? htail (by simp [hev.nodes_eq, hn])
    (by simp [hs]))

/-- A visit of the tail takes one trip off: it stays in the loop when more are left, and leaves it
when this was the last. -/
theorem leave_tail (hc : CountedLoop g loop shape initial bound) {x : Int32} {r : Nat}
    (hx : store.getLocal shape.induction.slot = .int32 x)
    (hr : TripsLeft shape.induction shape.inverse bound r x)
    (h : visit g shape.tail store = some (.leave slot next)) :
    (r = 1 ∧ slot = shape.exitSlot) ∨
      ∃ r' z, r = r' + 1 ∧ slot = shape.inLoopSlot ∧
        next.getLocal shape.induction.slot = .int32 z ∧
        TripsLeft shape.induction shape.inverse bound r' z := by
  obtain ⟨block, body, last, values, node, hev, hlast, hd⟩ :=
    leave_evaluated hc.analyzed.wellFormed h
  have hbranch : node.kind = .branch := by
    obtain ⟨node', hlast', _, _, hterm⟩ := hev.last_terminal
    rw [hlast] at hlast'
    obtain rfl := Option.some.inj hlast'
    have := hc.parts.tail_branch
    simpa [endsInBranch, hterm] using this
  obtain ⟨z, hz, hlocal, hd'⟩ := hev.decision_tail hc.pattern hc.parts.tail_mem hlast hbranch hx
    hc.bound_eq
  rw [hd] at hd'
  have hslot : slot = if shape.induction.test z bound == shape.inverse then shape.exitSlot
      else shape.inLoopSlot := by
    have heq : slot = _ := Decision.slot.inj (Option.some.inj hd')
    rw [heq, LoopShape.exitSlot]
    rcases hc.parts.slot with hs | hs <;> rw [hs] <;>
      cases shape.induction.test z bound <;> cases shape.inverse <;> rfl
  cases hr with
  | last happly htest =>
    rw [hz] at happly
    obtain rfl := Option.some.inj happly
    exact .inl ⟨rfl, by rw [hslot, if_pos (by simpa using htest)]⟩
  | more happly htest hleft =>
    rw [hz] at happly
    obtain rfl := Option.some.inj happly
    exact .inr ⟨_, z, rfl, by rw [hslot, if_neg (by simpa using htest)], hlocal, hleft⟩

/-- No visit of a member returns. -/
theorem not_returned (hc : CountedLoop g loop shape initial bound) (hb : b ∈ loop.blocks)
    {v : Value} : visit g b store ≠ some (.returned v next) := by
  intro h
  have hg := hc.analyzed.wellFormed
  obtain ⟨block, body, last, values, store', node, d, hev, hlast, hd, heq⟩ :=
    exists_evaluated hg h
  obtain ⟨node', hlast', _, hadmits, hterm⟩ := hev.last_terminal
  rw [hlast] at hlast'
  obtain rfl := Option.some.inj hlast'
  cases d with
  | slot i => cases heq
  | ret w =>
    -- a return has no successor, but every member of a loop leads on
    have hkind : node.kind = .ret := by
      rw [decision] at hd
      split at hd
      · cases hd
      · obtain ⟨_, _, h⟩ := Option.map_eq_some_iff.1 hd
        cases h
      · obtain ⟨_, _, hd⟩ := Option.bind_eq_some_iff.1 hd
        split at hd
        · obtain ⟨_, _, h⟩ := Option.map_eq_some_iff.1 hd
          cases h
        · cases hd
      · assumption
      · cases hd
    obtain ⟨t, hedge⟩ := hc.parts.natural.leads b hb
    obtain ⟨i, _, hi⟩ := mem_successors_iff.1 hedge.2.2
    rw [successor?, hterm] at hi
    cases hp : node.payload <;>
      simp [hp, hkind, slotTarget?, admits] at hi hadmits

/-! ## From the header on -/

/-- What a run does from one entry of a loop on: `inside` lists the blocks up to where control
leaves the loop, and `beyond` those from there on. -/
structure Turns (g : Graph) (shape : LoopShape) (k : Nat) (inside beyond : List BlockId)
    (returned : Prop) : Prop where
  count_le : inside.count shape.tail ≤ k
  stays : ∀ before t after, inside = before ++ shape.tail :: t :: after →
    g.successor? shape.tail shape.inLoopSlot = some t
  leaves : beyond ≠ [] → inside.count shape.tail = k ∧ inside.getLast? = some shape.tail ∧
    g.successor? shape.tail shape.exitSlot = some shape.next ∧ beyond.head? = some shape.next
  returns : returned → beyond ≠ []

theorem Turns.stopped {k : Nat} (hk : 0 < k) : Turns g shape k [b] [] False where
  count_le := by
    have := List.count_le_length (a := shape.tail) (l := [b])
    simp only [List.length_singleton] at this
    omega
  stays := by
    intro before t after heq
    have := congrArg List.length heq
    simp at this
    omega
  leaves := fun h => absurd rfl h
  returns := fun h => h.elim

/-- Another block of the loop in front. -/
theorem Turns.cons {k : Nat} {t : BlockId} {inside beyond : List BlockId} {returned : Prop}
    (hstay : b = shape.tail → g.successor? shape.tail shape.inLoopSlot = some t)
    (h : Turns g shape k (t :: inside) beyond returned) :
    Turns g shape (k + if b = shape.tail then 1 else 0) (b :: t :: inside) beyond returned where
  count_le := by
    have := h.count_le
    rw [List.count_cons]
    simp only [beq_iff_eq]
    omega
  stays := by
    intro before t' after heq
    cases before with
    | nil =>
      obtain ⟨hb, ht, _⟩ : b = shape.tail ∧ t = t' ∧ inside = after := by simpa using heq
      exact ht ▸ hstay hb
    | cons x before =>
      exact h.stays before t' after (List.cons.inj heq).2
  leaves := by
    intro hne
    obtain ⟨hcount, hlast, hrest⟩ := h.leaves hne
    refine ⟨?_, by simpa using hlast, hrest⟩
    rw [List.count_cons, hcount]
    simp only [beq_iff_eq]
  returns := h.returns

/-- **The trips of a loop.**  From a member on, with `r` trips left, the tail runs at most `r` times
before control leaves the loop, `r` times if it does, and it does when the run returns. -/
theorem turns (hc : CountedLoop g loop shape initial bound) {rest : List BlockId}
    {v? : Option Value} (hf : Follows g b store rest v?) (hb : b ∈ loop.blocks) {x : Int32}
    {r : Nat} (hx : store.getLocal shape.induction.slot = .int32 x)
    (hr : TripsLeft shape.induction shape.inverse bound r x) :
    Turns g shape r (b :: rest.takeWhile loop.contains) (rest.dropWhile loop.contains)
      (v?.isSome = true) := by
  have hcontains := hc.parts.natural.contains_iff
  induction hf generalizing x r with
  | stop => simpa using Turns.stopped hr.pos
  | returned hv => exact absurd hv (hc.not_returned hb)
  | @step b t store next slot rest v? hv ht _ ih =>
    by_cases htail : b = shape.tail
    · subst htail
      rcases hc.leave_tail hx hr hv with ⟨rfl, rfl⟩ | ⟨r', z, rfl, rfl, hz, hleft⟩
      · -- the last trip: control leaves the loop
        have hexit := hc.parts.exit
        rw [LoopShape.exitSlot] at ht
        rw [hexit] at ht
        obtain rfl := Option.some.inj ht
        have hout : ¬ loop.contains shape.next = true :=
          fun h => hc.parts.next_notMem ((hcontains _).1 h)
        rw [List.takeWhile_cons_of_neg hout, List.dropWhile_cons_of_neg hout]
        refine ⟨by simp, ?_, fun _ => ⟨by simp, rfl, hexit, rfl⟩, fun _ => by simp⟩
        intro before t' after heq
        have := congrArg List.length heq
        simp at this
        omega
      · obtain ⟨stay, hstay, hsucc⟩ := hc.parts.stay
        rw [hsucc] at ht
        obtain rfl := Option.some.inj ht
        have hin := (hcontains _).2 hstay
        rw [List.takeWhile_cons_of_pos hin, List.dropWhile_cons_of_pos hin]
        simpa using Turns.cons (b := shape.tail) (fun _ => hsucc) (ih hstay hz hleft)
    · have hin := hc.parts.closed b hb htail t (mem_successors_of_successor? ht)
      have hx' : next.getLocal shape.induction.slot = .int32 x := by
        rw [hc.leave_member hb htail hv, hx]
      have hin' := (hcontains _).2 hin
      rw [List.takeWhile_cons_of_pos hin', List.dropWhile_cons_of_pos hin']
      simpa [htail] using (ih hin hx' hr).cons fun heq => absurd heq htail

/-! ## Every entry -/

/-- On the pads between the pre-header and the header, the counter holds the initial value. -/
def Primed (g : Graph) (loop : NaturalLoop) (shape : LoopShape) (initial : Int32) (b : BlockId)
    (store : Store) : Prop :=
  b ∈ g.lookedThrough loop.header → store.getLocal shape.induction.slot = .int32 initial

/-- A visit of the pre-header, or of a pad after it, ends with the initial value in the counter. -/
theorem leave_approach (hc : CountedLoop g loop shape initial bound)
    (hprimed : Primed g loop shape initial b store)
    (hb : b = shape.preHeader ∨ b ∈ g.lookedThrough loop.header)
    (h : visit g b store = some (.leave slot next)) :
    next.getLocal shape.induction.slot = .int32 initial := by
  rcases hb with rfl | hb
  · exact hc.leave_preHeader h
  · obtain ⟨_, ⟨block, hblock, hpad, _⟩, _⟩ := hc.parts.approach b hb
    rw [leave_pad hc.analyzed.wellFormed hblock hpad h]
    exact hprimed hb

theorem primed_step (hc : CountedLoop g loop shape initial bound) {t : BlockId}
    (hreach : g.flow.Reaches entry b) (hprimed : Primed g loop shape initial b store)
    (h : visit g b store = some (.leave slot next)) (ht : g.successor? b slot = some t) :
    Primed g loop shape initial t next := by
  intro hmem
  obtain ⟨before, hpad, hbefore⟩ := hc.parts.approach t hmem
  obtain rfl := hc.analyzed.eq_of_isPadAfter hpad hreach (mem_successors_of_successor? ht)
  exact hc.leave_approach hprimed hbefore h

/-- **Every entry of a counted loop.**  Whenever a run comes to the header from outside the loop,
all trips are left. -/
theorem turns_of_entering (hc : CountedLoop g loop shape initial bound) {k : Nat}
    (hk : TripsLeft shape.induction shape.inverse bound k initial) {rest : List BlockId}
    {v? : Option Value} (hf : Follows g b store rest v?) (hreach : g.flow.Reaches entry b)
    (hprimed : Primed g loop shape initial b store) {before after : List BlockId}
    (hsplit : rest = before ++ loop.header :: after)
    (hout : (b :: before).getLast (by simp) ∉ loop.blocks) :
    Turns g shape k (loop.header :: after.takeWhile loop.contains)
      (after.dropWhile loop.contains) (v?.isSome = true) := by
  induction hf generalizing before with
  | stop => simp at hsplit
  | returned _ => simp at hsplit
  | @step b t store next slot rest v? hv ht hf ih =>
    have hsucc := mem_successors_of_successor? ht
    cases before with
    | nil =>
      obtain ⟨rfl, rfl⟩ : t = loop.header ∧ rest = after := by simpa using hsplit
      have hlocal := hc.leave_approach hprimed
        (hc.parts.entering b hreach hsucc (by simpa using hout)) hv
      exact hc.turns hf hc.parts.natural.header_mem hlocal hk
    | cons x before =>
      obtain ⟨rfl, hrest⟩ : t = x ∧ rest = before ++ loop.header :: after := by
        simpa using hsplit
      have hedge : g.flow.Edge b t := hc.analyzed.wellFormed.edge_iff.2 hsucc
      exact ih (hreach.step hedge) (hc.primed_step hreach hprimed hv ht) hrest
        (by simpa using hout)

theorem turns_itinerary (hc : CountedLoop g loop shape initial bound) {k : Nat}
    (hk : TripsLeft shape.induction shape.inverse bound k initial)
    (hentry : entry ∉ g.lookedThrough loop.header) (store : Store) (budget : Nat)
    {before after : List BlockId}
    (hsplit : itinerary g store budget = before ++ loop.header :: after)
    (hout : ∀ p, before.getLast? = some p → p ∉ loop.blocks) :
    Turns g shape k (loop.header :: after.takeWhile loop.contains)
      (after.dropWhile loop.contains) (∃ e, run g store budget = .ok e) := by
  obtain ⟨rest, hrest, hf⟩ := follows_itinerary hc.analyzed.wellFormed store budget
  rw [hrest] at hsplit
  have hstart := hc.analyzed.wellFormed.reaches_entry
  cases before with
  | nil =>
    obtain ⟨heq, _⟩ : entry = loop.header ∧ rest = after := by simpa using hsplit
    exact absurd heq.symm hc.parts.header_ne
  | cons x before =>
    obtain ⟨rfl, hrest'⟩ : entry = x ∧ rest = before ++ loop.header :: after := by
      simpa using hsplit
    have hturns := hc.turns_of_entering hk hf hstart (fun hmem => absurd hmem hentry) hrest'
      (hout _ (List.getLast?_eq_getLast_of_ne_nil _))
    have hok : ((run g store budget).toOption.map Execution.returnValue).isSome = true ↔
        ∃ e, run g store budget = .ok e := by
      cases run g store budget <;> simp [Except.toOption]
    exact ⟨hturns.count_le, hturns.stays, hturns.leaves, fun h => hturns.returns (hok.2 h)⟩

/-- An accepted loop with a trip count is counted, and all its trips are left at the start. -/
theorem of_accepted {config : UnrollConfig} {k : Nat} (hg : g.Analyzed)
    (hloop : loop ∈ g.loopForest.loops) (h : g.Accepted config loop shape)
    (hk : shape.iterations = some k) :
    ∃ initial bound, CountedLoop g loop shape initial bound ∧
      TripsLeft shape.induction shape.inverse bound k initial := by
  have hcount := h.iterations
  rw [hk] at hcount
  obtain ⟨initial, bound, hinitial, hbound, hleft⟩ := tripsLeft_of_tripCount hcount
  exact ⟨initial, bound, ⟨hg, loopParts_of_accepted hg hloop h, inductionPattern_of_ok h.induction,
    hinitial, hbound⟩, hleft⟩

end CountedLoop

end Unroller
