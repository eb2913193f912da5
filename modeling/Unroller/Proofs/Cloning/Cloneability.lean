import Mathlib.Tactic
import Unroller.Cloning
import Unroller.Proofs.Graph.SameCode
import Unroller.Proofs.Results

/-!
# The test for cloneability is exact

`Scan.check` remembers its verdicts from one query to the next and cuts a search short at the first
operand that cannot be copied.  A node is judged while others that use it wait for its verdict.
Where it leads back to one of them it is refused without being recorded, and so is every node
between the two, which are recorded: they lie on that circle, or lead into it, whoever asks.  A
build with assertions does not refuse such a node, it stops there.

* `Graph.Copyable`: what the test decides.
* `Scan.Judges`: a search that comes to an end, without a bound on its depth.
* `Scan.comesOut_checkFrom`: a search that is deep enough ends, is right, and records right
  verdicts, or an assertion has failed on a circle.
* `Scan.queries_exact`: any sequence of queries that starts afresh.
-/

namespace Unroller

open Relation

namespace Graph

/-- Node `a` uses `b` as an operand and is no phi. -/
def Uses (g : Graph) (a b : NodeId) : Prop :=
  ∃ node, g.node? a = some node ∧ node.kind ≠ .phi ∧ b ∈ g.operands node

/-- Following operands from a node, but none of a phi, leads neither to a kind that cannot be copied
nor into a circle. -/
structure Copyable (g : Graph) (n : NodeId) : Prop where
  supported : ∀ m, ReflTransGen g.Uses n m → ∀ node, g.node? m = some node →
    node.kind.cloneStrategy ≠ .unsupported
  acyclic : ∀ m, ReflTransGen g.Uses n m → ¬ TransGen g.Uses m m

/-- Following operands from a node leads only to nodes that are there. -/
def Grounded (g : Graph) (n : NodeId) : Prop :=
  ∀ m, ReflTransGen g.Uses n m → ∃ node, g.node? m = some node

/-- Every operand refers to a position where there is a node. -/
def OperandsExist (g : Graph) : Prop :=
  ∀ node ∈ g.nodes, ∀ m ∈ g.operands node, m < g.nodes.size

variable {g : Graph} {n m : NodeId} {node : Node}

theorem Uses.lt_size (h : g.Uses n m) : n < g.nodes.size := by
  obtain ⟨node, hnode, -⟩ := h
  exact (Array.getElem?_eq_some_iff.1 hnode).1

theorem OperandsExist.grounded (h : g.OperandsExist) (hn : n < g.nodes.size) : g.Grounded n := by
  intro m hm
  apply exists_node?
  induction hm with
  | refl => exact hn
  | tail _ huse _ =>
    obtain ⟨node, hnode, -, hmem⟩ := huse
    exact h node (Array.mem_of_getElem? hnode) _ hmem

theorem Grounded.of_uses (h : g.Grounded n) (huse : g.Uses n m) : g.Grounded m :=
  fun k hk => h k (.head huse hk)

theorem Copyable.of_uses (h : g.Copyable n) (huse : g.Uses n m) : g.Copyable m :=
  ⟨fun k hk => h.supported k (.head huse hk), fun k hk => h.acyclic k (.head huse hk)⟩

/-- Operands lead from the nodes of a block to no others. -/
theorem WellFormed.mem_of_uses (hg : g.WellFormed) {b : BlockId} {block : Block}
    (hb : g.block? b = some block) (hn : n ∈ block.phis ++ block.nodes)
    (huses : ReflTransGen g.Uses n m) : m ∈ block.phis ++ block.nodes := by
  induction huses with
  | refl => exact hn
  | @tail m k _ huse ih =>
    obtain ⟨node, hnode, hphi, hk⟩ := huse
    rcases List.mem_append.1 ih with hm | hm
    · exact absurd (hg.kind_eq_phi hb hm hnode) hphi
    · exact hg.operand_mem hb hm hnode hk

theorem WellFormed.grounded (hg : g.WellFormed) {b : BlockId} {block : Block}
    (hb : g.block? b = some block) (hn : n ∈ block.phis ++ block.nodes) : g.Grounded n :=
  fun m hm => exists_node? (hg.exists_node b block hb m (hg.mem_of_uses hb hn hm))

/-- Phis can be copied whatever their operands. -/
theorem copyable_of_phi (hnode : g.node? n = some node) (hphi : node.kind = .phi) :
    g.Copyable n := by
  have hstays : ∀ m, ReflTransGen g.Uses n m → m = n := by
    intro m hm
    cases hm.cases_head with
    | inl heq => exact heq.symm
    | inr hstep =>
      obtain ⟨c, ⟨node', hnode', hne, -⟩, -⟩ := hstep
      rw [hnode] at hnode'
      obtain rfl := Option.some.inj hnode'
      exact absurd hphi hne
  refine ⟨fun m hm node' hnode' => ?_, fun m hm hcircle => ?_⟩
  · rw [hstays m hm, hnode] at hnode'
    obtain rfl := Option.some.inj hnode'
    simp [hphi, Kind.cloneStrategy]
  · obtain ⟨c, ⟨node', hnode', hne, -⟩, -⟩ := TransGen.head'_iff.1 hcircle
    rw [hstays m hm, hnode] at hnode'
    obtain rfl := Option.some.inj hnode'
    exact hne hphi

/-- Any other node can be copied when its kind and its operands can.  A circle through the node is
one through an operand. -/
theorem copyable_iff (hnode : g.node? n = some node) (hphi : node.kind ≠ .phi) :
    g.Copyable n ↔
      node.kind.cloneStrategy ≠ .unsupported ∧ ∀ m ∈ g.operands node, g.Copyable m := by
  constructor
  · intro h
    exact ⟨h.supported n .refl node hnode, fun m hm => h.of_uses ⟨node, hnode, hphi, hm⟩⟩
  · intro ⟨hkind, hoperands⟩
    have hnext : ∀ m, g.Uses n m → g.Copyable m := by
      rintro m ⟨node', hnode', -, hm⟩
      rw [hnode] at hnode'
      obtain rfl := Option.some.inj hnode'
      exact hoperands m hm
    constructor
    · intro k hk node' hnode'
      cases hk.cases_head with
      | inl heq =>
        subst heq
        rw [hnode] at hnode'
        obtain rfl := Option.some.inj hnode'
        exact hkind
      | inr hstep =>
        obtain ⟨m, huse, hm⟩ := hstep
        exact (hnext m huse).supported k hm node' hnode'
    · intro k hk hcircle
      cases hk.cases_head with
      | inl heq =>
        subst heq
        obtain ⟨m, huse, hback⟩ := TransGen.head'_iff.1 hcircle
        exact (hnext m huse).acyclic m .refl (TransGen.tail' hback huse)
      | inr hstep =>
        obtain ⟨m, huse, hm⟩ := hstep
        exact (hnext m huse).acyclic k hm hcircle

end Graph

namespace Scan

/-! ## Searches that end -/

mutual

/-- The search for the verdict on a node ends with this verdict, in this state. -/
inductive Judges (g : Graph) : Scan → NodeId → Bool → Scan → Prop
  | recorded {s : Scan} {n : NodeId} {verdict : Bool} :
      s.verdicts.lookup n = some verdict → Judges g s n verdict s
  | phi {s : Scan} {n : NodeId} {node : Node} :
      s.verdicts.lookup n = none → g.node? n = some node →
      node.kind.cloneStrategy = .preCloned → Judges g s n true (s.record n true)
  | unsupported {s : Scan} {n : NodeId} {node : Node} :
      s.verdicts.lookup n = none → g.node? n = some node →
      node.kind.cloneStrategy = .unsupported → Judges g s n false (s.record n false)
  | circle {s : Scan} {n : NodeId} {node : Node} :
      s.verdicts.lookup n = none → g.node? n = some node →
      node.kind.cloneStrategy ≠ .preCloned → node.kind.cloneStrategy ≠ .unsupported →
      n ∈ s.visiting → Judges g s n false s
  | operands {s t : Scan} {n : NodeId} {node : Node} {verdict : Bool} :
      s.verdicts.lookup n = none → g.node? n = some node →
      node.kind.cloneStrategy ≠ .preCloned → node.kind.cloneStrategy ≠ .unsupported →
      n ∉ s.visiting →
      JudgesAll g { s with visiting := n :: s.visiting } (g.operands node) verdict t →
      Judges g s n verdict ({ t with visiting := t.visiting.erase n }.record n verdict)

/-- The searches for the verdicts on nodes in order end, the first refusal being the last. -/
inductive JudgesAll (g : Graph) : Scan → List NodeId → Bool → Scan → Prop
  | done {s : Scan} : JudgesAll g s [] true s
  | refused {s t : Scan} {n : NodeId} {ns : List NodeId} :
      Judges g s n false t → JudgesAll g s (n :: ns) false t
  | next {s t u : Scan} {n : NodeId} {ns : List NodeId} {verdict : Bool} :
      Judges g s n true t → JudgesAll g t ns verdict u → JudgesAll g s (n :: ns) verdict u

end

/-! ## Right verdicts -/

variable {g : Graph} {s : Scan} {n : NodeId}

/-- The recorded verdicts are right. -/
def Exact (g : Graph) (s : Scan) : Prop :=
  ∀ n verdict, s.verdicts.lookup n = some verdict → (verdict = true ↔ g.Copyable n)

theorem Exact.record (hs : Exact g s) {verdict : Bool} (hn : verdict = true ↔ g.Copyable n) :
    Exact g (s.record n verdict) := by
  intro m verdict' hm
  rw [Scan.record, List.lookup_cons] at hm
  split at hm
  · rename_i heq
    obtain rfl := Option.some.inj hm
    rwa [beq_iff_eq.1 heq]
  · exact hs m verdict' hm

/-- How things are when a search turns to a node: the nodes that wait for it lead to it. -/
structure Ready (g : Graph) (s : Scan) (n : NodeId) : Prop where
  exact : Exact g s
  grounded : g.Grounded n
  path : ∀ m ∈ s.visiting, TransGen g.Uses m n
  nodup : s.visiting.Nodup

/-- What a search has come to. -/
structure Settles (g : Graph) (s : Scan) (n : NodeId) (result : Bool × Scan) : Prop where
  ends : Judges g s n result.1 result.2
  right : result.1 = true ↔ g.Copyable n
  exact : Exact g result.2
  visiting : result.2.visiting = s.visiting

/-- What a search through several nodes has come to. -/
structure SettlesAll (g : Graph) (s : Scan) (ns : List NodeId) (result : Bool × Scan) : Prop where
  ends : JudgesAll g s ns result.1 result.2
  right : result.1 = true ↔ ∀ n ∈ ns, g.Copyable n
  exact : Exact g result.2
  visiting : result.2.visiting = s.visiting

theorem Ready.of_same_path {t : Scan} (h : Ready g s n) (ht : Exact g t)
    (hvisiting : t.visiting = s.visiting) : Ready g t n :=
  ⟨ht, h.grounded, by rw [hvisiting]; exact h.path, by rw [hvisiting]; exact h.nodup⟩

/-- No more nodes wait than there are. -/
theorem Ready.length_le (h : Ready g s n) : s.visiting.length ≤ g.nodes.size := by
  have hsubset : s.visiting ⊆ List.range g.nodes.size := by
    intro m hm
    obtain ⟨c, huse, -⟩ := TransGen.head'_iff.1 (h.path m hm)
    exact List.mem_range.2 huse.lt_size
  simpa using (h.nodup.subperm hsubset).length_le

/-- Turning to an operand of a node that nothing on the path is. -/
theorem Ready.operand {node : Node} (h : Ready g s n) (hnode : g.node? n = some node)
    (hphi : node.kind ≠ .phi) (hnew : n ∉ s.visiting) {m : NodeId} (hm : m ∈ g.operands node) :
    Ready g { s with visiting := n :: s.visiting } m := by
  have huse : g.Uses n m := ⟨node, hnode, hphi, hm⟩
  refine ⟨h.exact, h.grounded.of_uses huse, ?_, List.nodup_cons.2 ⟨hnew, h.nodup⟩⟩
  intro k hk
  rcases List.mem_cons.1 hk with rfl | hk
  · exact .single huse
  · exact (h.path k hk).tail huse

/-- How a search can come out: it settles the verdict on the node, or an assertion has failed at a
node that the search has led to and that leads to itself. -/
inductive ComesOut (g : Graph) (assertions : Bool) (s : Scan) (n : NodeId) :
    Except Error (Bool × Scan) → Prop
  | settles {result : Bool × Scan} (settles : Settles g s n result) :
      ComesOut g assertions s n (.ok result)
  | asserts (asserting : assertions = true) {m : NodeId} (leads : ReflTransGen g.Uses n m)
      (circle : TransGen g.Uses m m) : ComesOut g assertions s n (.error (.operandCycle m))

/-- How a search through several nodes can come out. -/
inductive AllComeOut (g : Graph) (assertions : Bool) (s : Scan) (ns : List NodeId) :
    Except Error (Bool × Scan) → Prop
  | settles {result : Bool × Scan} (settles : SettlesAll g s ns result) :
      AllComeOut g assertions s ns (.ok result)
  | asserts (asserting : assertions = true) {n m : NodeId} (mem : n ∈ ns)
      (leads : ReflTransGen g.Uses n m) (circle : TransGen g.Uses m m) :
      AllComeOut g assertions s ns (.error (.operandCycle m))

theorem allComeOut_all {assertions : Bool} {test : Scan → NodeId → Except Error (Bool × Scan)}
    {ns path : List NodeId}
    (htest : ∀ s n, s.visiting = path → Ready g s n → ComesOut g assertions s n (test s n))
    (hpath : s.visiting = path) (hexact : Exact g s) (hready : ∀ n ∈ ns, Ready g s n) :
    AllComeOut g assertions s ns (all test s ns) := by
  induction ns generalizing s with
  | nil => exact .settles ⟨.done, by simp, hexact, rfl⟩
  | cons n ns ih =>
    have hfirst := htest s n hpath (hready n List.mem_cons_self)
    rw [all]
    generalize test s n = result at hfirst
    cases hfirst with
    | asserts hasserting hleads hcircle =>
      exact .asserts hasserting List.mem_cons_self hleads hcircle
    | @settles result hfirst =>
      obtain ⟨verdict, t⟩ := result
      cases verdict with
      | false =>
        have hn : ¬ g.Copyable n := fun hn => Bool.false_ne_true (hfirst.right.2 hn)
        refine .settles ⟨.refused hfirst.ends, ?_, hfirst.exact, hfirst.visiting⟩
        simp only [Bool.false_eq_true, false_iff]
        exact fun hall => hn (hall n List.mem_cons_self)
      | true =>
        have hrest := ih (hfirst.visiting.trans hpath) hfirst.exact fun m hm =>
          (hready m (List.mem_cons_of_mem n hm)).of_same_path hfirst.exact hfirst.visiting
        simp only [bind, Except.bind]
        generalize all test t ns = result at hrest
        cases hrest with
        | asserts hasserting hmem hleads hcircle =>
          exact .asserts hasserting (List.mem_cons_of_mem n hmem) hleads hcircle
        | settles hrest =>
          refine .settles ⟨.next hfirst.ends hrest.ends, ?_, hrest.exact,
            hrest.visiting.trans hfirst.visiting⟩
          rw [hrest.right, List.forall_mem_cons]
          exact ⟨fun hall => ⟨hfirst.right.1 rfl, hall⟩, And.right⟩

/-- What is left to do for a node whose verdict depends on its operands. -/
theorem comesOut_operands {assertions : Bool} {node : Node}
    {test : Scan → NodeId → Except Error (Bool × Scan)} (h : Ready g s n)
    (hlookup : s.verdicts.lookup n = none) (hnode : g.node? n = some node)
    (hpre : node.kind.cloneStrategy ≠ .preCloned)
    (hsupported : node.kind.cloneStrategy ≠ .unsupported)
    (htest : ∀ t m, t.visiting = n :: s.visiting → Ready g t m →
      ComesOut g assertions t m (test t m)) :
    ComesOut g assertions s n
      (if s.visiting.contains n then
        if assertions then throw (.operandCycle n) else return (false, s)
      else do
        let (verdict, t) ← all test { s with visiting := n :: s.visiting } (g.operands node)
        return (verdict, { t with visiting := t.visiting.erase n }.record n verdict)) := by
  have hphi : node.kind ≠ .phi := fun hphi => hpre (by simp [hphi, Kind.cloneStrategy])
  by_cases hvisited : n ∈ s.visiting
  · rw [if_pos (List.contains_iff_mem.2 hvisited)]
    cases assertions with
    | true => exact .asserts rfl .refl (h.path n hvisited)
    | false =>
      refine .settles ⟨.circle hlookup hnode hpre hsupported hvisited, ?_, h.exact, rfl⟩
      simp only [Bool.false_eq_true, false_iff]
      exact fun hn => hn.acyclic n .refl (h.path n hvisited)
  · rw [if_neg (by simpa using hvisited)]
    have hall := allComeOut_all (s := { s with visiting := n :: s.visiting }) htest rfl h.exact
      fun m hm => h.operand hnode hphi hvisited hm
    generalize all test _ _ = result at hall
    cases hall with
    | asserts hasserting hmem hleads hcircle =>
      exact .asserts hasserting (.head ⟨node, hnode, hphi, hmem⟩ hleads) hcircle
    | @settles result hall =>
      have hright : result.1 = true ↔ g.Copyable n :=
        hall.right.trans (by rw [Graph.copyable_iff hnode hphi, and_iff_right hsupported])
      refine .settles ⟨.operands hlookup hnode hpre hsupported hvisited hall.ends, hright,
        Exact.record hall.exact hright, ?_⟩
      simp [Scan.record, hall.visiting]

/-- **A search that may go deep enough** ends, its verdict is right, the verdicts it records are
right, and the path is as it was; with assertions it may stop on a circle instead. -/
theorem comesOut_checkFrom {assertions : Bool} {fuel : Nat} (h : Ready g s n)
    (hfuel : g.nodes.size < s.visiting.length + fuel) :
    ComesOut g assertions s n (checkFrom g assertions fuel s n) := by
  induction fuel generalizing s n with
  | zero =>
    have := h.length_le
    omega
  | succ fuel ih =>
    rw [checkFrom]
    cases hlookup : s.verdicts.lookup n with
    | some verdict =>
      exact .settles ⟨.recorded hlookup, h.exact n verdict hlookup, h.exact, rfl⟩
    | none =>
      obtain ⟨node, hnode⟩ := h.grounded n .refl
      have hdeeper : ∀ t m, t.visiting = n :: s.visiting → Ready g t m →
          ComesOut g assertions t m (checkFrom g assertions fuel t m) := by
        intro t m hvisiting ht
        refine ih ht ?_
        rw [hvisiting, List.length_cons]
        omega
      simp only [Graph.node_eq_ok_iff.2 hnode, bind, Except.bind]
      cases hstrategy : node.kind.cloneStrategy with
      | preCloned =>
        have hphi : node.kind = .phi := by
          revert hstrategy
          cases node.kind <;> simp [Kind.cloneStrategy]
        have hn := Graph.copyable_of_phi hnode hphi
        have hright : true = true ↔ g.Copyable n := ⟨fun _ => hn, fun _ => rfl⟩
        exact .settles ⟨.phi hlookup hnode hstrategy, hright, h.exact.record hright, rfl⟩
      | unsupported =>
        have hright : false = true ↔ g.Copyable n :=
          ⟨fun hfalse => absurd hfalse Bool.false_ne_true,
            fun hn => absurd hstrategy (hn.supported n .refl node hnode)⟩
        exact .settles ⟨.unsupported hlookup hnode hstrategy, hright, h.exact.record hright, rfl⟩
      | common =>
        exact comesOut_operands h hlookup hnode (by simp [hstrategy]) (by simp [hstrategy]) hdeeper
      | special shape =>
        exact comesOut_operands h hlookup hnode (by simp [hstrategy]) (by simp [hstrategy]) hdeeper

/-! ## Sequences of queries -/

/-- A query with the states before and after it. -/
structure Query where
  before : Scan
  node : NodeId
  answer : Bool
  after : Scan

/-- Queries one after the other, each with the verdicts of those before it, in a build with or
without assertions. -/
def queries (g : Graph) (assertions : Bool) : Scan → List NodeId → Except Error (List Query)
  | _, [] => .ok []
  | s, n :: ns => do
    let (answer, t) ← check g s n assertions
    let others ← queries g assertions t ns
    return ⟨s, n, answer, t⟩ :: others

/-- A query that came to an end, with the right answer and nothing left on the path. -/
structure Query.Answered (g : Graph) (q : Query) : Prop where
  ends : Judges g q.before q.node q.answer q.after
  right : q.answer = true ↔ g.Copyable q.node
  visiting : q.after.visiting = []

/-- How a sequence of queries can come out: each is answered, or an assertion has failed. -/
inductive QueriesComeOut (g : Graph) (assertions : Bool) (ns : List NodeId) :
    Except Error (List Query) → Prop
  | answered {qs : List Query} (nodes : qs.map Query.node = ns)
  (answered : ∀ q ∈ qs, q.Answered g) :
      QueriesComeOut g assertions ns (.ok qs)
  | asserts (asserting : assertions = true) {n m : NodeId} (mem : n ∈ ns)
      (leads : ReflTransGen g.Uses n m) (circle : TransGen g.Uses m m) :
      QueriesComeOut g assertions ns (.error (.operandCycle m))

theorem comesOut_check (assertions : Bool) (hexact : Exact g s) (hvisiting : s.visiting = [])
    (hn : g.Grounded n) : ComesOut g assertions s n (check g s n assertions) :=
  comesOut_checkFrom ⟨hexact, hn, by simp [hvisiting], by simp [hvisiting]⟩ (by omega)

theorem queriesComeOut {assertions : Bool} {ns : List NodeId} (hexact : Exact g s)
    (hvisiting : s.visiting = []) (hns : ∀ n ∈ ns, g.Grounded n) :
    QueriesComeOut g assertions ns (queries g assertions s ns) := by
  induction ns generalizing s with
  | nil => exact .answered rfl (by simp)
  | cons n ns ih =>
    obtain ⟨hn, hns⟩ := List.forall_mem_cons.1 hns
    have hfirst := comesOut_check assertions hexact hvisiting hn
    rw [queries]
    generalize check g s n assertions = result at hfirst
    cases hfirst with
    | asserts hasserting hleads hcircle =>
      exact .asserts hasserting List.mem_cons_self hleads hcircle
    | @settles result hfirst =>
      have hpath := hfirst.visiting.trans hvisiting
      have hrest := ih hfirst.exact hpath hns
      simp only [bind, Except.bind]
      generalize queries g assertions result.2 ns = others at hrest
      cases hrest with
      | asserts hasserting hmem hleads hcircle =>
        exact .asserts hasserting (List.mem_cons_of_mem n hmem) hleads hcircle
      | answered hnodes hanswered =>
        exact .answered (by rw [List.map_cons, hnodes])
          (List.forall_mem_cons.2 ⟨⟨hfirst.ends, hfirst.right, hpath⟩, hanswered⟩)

theorem exact_empty : Exact g {} := by
  intro n verdict h
  cases h

/-- Without assertions every query is answered. -/
theorem exists_settles_check (hexact : Exact g s) (hvisiting : s.visiting = [])
    (hn : g.Grounded n) : ∃ result, check g s n = .ok result ∧ Settles g s n result := by
  have hcome := comesOut_check false hexact hvisiting hn
  generalize check g s n = result at hcome
  cases hcome with
  | settles hsettles => exact ⟨_, rfl, hsettles⟩
  | asserts hasserting => cases hasserting

/-- The test, asked afresh, lets a node pass. -/
def Passes (g : Graph) (n : NodeId) : Prop := ∃ t, check g {} n = .ok (true, t)

theorem passes_iff (hn : g.Grounded n) : Passes g n ↔ g.Copyable n := by
  obtain ⟨result, hcheck, hsettles⟩ := exists_settles_check exact_empty rfl hn
  rw [← hsettles.right, Passes, hcheck]
  constructor
  · rintro ⟨t, ht⟩
    rw [Except.ok.inj ht]
  · intro hpasses
    exact ⟨result.2, congrArg Except.ok (Prod.ext hpasses rfl)⟩

/-- **The test is exact.**  In a graph whose operands exist, every query of a sequence that starts
without verdicts comes to an end, is answered by whether the node can be copied, and leaves nothing
on the path.  Two sequences give a node the same answer, wherever in them it is asked for.

A build with assertions gives these answers too, unless it stops on a circle of operands that one of
the nodes asked for leads to. -/
theorem queries_exact (hg : g.OperandsExist) {ns : List NodeId} (hns : ∀ n ∈ ns, n < g.nodes.size) :
    (∃ qs, queries g false {} ns = .ok qs ∧ qs.map Query.node = ns ∧ (∀ q ∈ qs, q.Answered g) ∧
      ∀ ms : List NodeId, (∀ m ∈ ms, m < g.nodes.size) →
        ∃ ps, queries g false {} ms = .ok ps ∧
          ∀ q ∈ qs, ∀ p ∈ ps, p.node = q.node → p.answer = q.answer) ∧
    QueriesComeOut g true ns (queries g true {} ns) := by
  have hcome : ∀ assertions, ∀ ms : List NodeId, (∀ m ∈ ms, m < g.nodes.size) →
      QueriesComeOut g assertions ms (queries g assertions {} ms) := fun assertions ms hms =>
    queriesComeOut exact_empty rfl fun m hm => hg.grounded (hms m hm)
  have hanswered : ∀ ms : List NodeId, (∀ m ∈ ms, m < g.nodes.size) →
      ∃ qs, queries g false {} ms = .ok qs ∧ qs.map Query.node = ms ∧ ∀ q ∈ qs, q.Answered g := by
    intro ms hms
    have hms := hcome false ms hms
    generalize queries g false {} ms = result at hms
    cases hms with
    | answered hnodes hall => exact ⟨_, rfl, hnodes, hall⟩
    | asserts hasserting => cases hasserting
  obtain ⟨qs, hqs, hnodes, hall⟩ := hanswered ns hns
  refine ⟨⟨qs, hqs, hnodes, hall, fun ms hms => ?_⟩, hcome true ns hns⟩
  obtain ⟨ps, hps, _, hall'⟩ := hanswered ms hms
  refine ⟨ps, hps, fun q hq p hp hnode => ?_⟩
  have hiff : p.answer = true ↔ q.answer = true := by
    rw [(hall' p hp).right, (hall q hq).right, hnode]
  exact Bool.eq_iff_iff.2 hiff

/-- Two nodes that use each other, a phi of one of them with a user, and a closure with a user. -/
def tangle : Graph :=
  { nodes := #[
      { kind := .phi, children := .one (.untyped 1) },
      { kind := .valueAdd, children := .two (.untyped 2) (.untyped 0) },
      { kind := .arithNegate, children := .one (.untyped 1) },
      { kind := .arithNegate, children := .one (.untyped 0) },
      { kind := .createClosure },
      { kind := .valueAdd, children := .two (.untyped 3) (.untyped 4) },
      { kind := .newArray, children := .variadic 0 2 }]
    varArgs := #[.untyped 3, .untyped 0] }

theorem queries_exact_tangle :
    tangle.OperandsExist ∧
    (∃ qs, queries tangle false {} [2, 3, 1, 5, 6, 3] = .ok qs ∧
      qs.map Query.answer = [false, true, false, false, true, true] ∧
      ∀ q ∈ qs, q.Answered tangle) ∧
    queries tangle true {} [3, 2] = .error (.operandCycle 2) := by
  have hexist : tangle.OperandsExist := by
    unfold Graph.OperandsExist
    decide
  have hns : ∀ n ∈ [2, 3, 1, 5, 6, 3], n < tangle.nodes.size := by decide
  obtain ⟨qs, hqs, _, hanswered, _⟩ := (queries_exact hexist hns).1
  refine ⟨hexist, ⟨qs, hqs, ?_, hanswered⟩, rfl⟩
  have hanswers : (queries tangle false {} [2, 3, 1, 5, 6, 3]).map (fun qs => qs.map Query.answer) =
      .ok [false, true, false, false, true, true] := rfl
  rw [hqs] at hanswers
  exact Except.ok.inj hanswers

end Scan

end Unroller
