import Mathlib.Tactic
import Unroller.Proofs.Digraph.Nesting
import Unroller.Proofs.Results
import Unroller.Phase

/-!
# Candidates come innermost first

The candidates of a phase are sorted by depth, deepest first, and sorting keeps loops of one depth
in the order of their numbers.  As inner loops are deeper, a loop comes before all loops that
contain it.

* `pairwise_mergeSort_key`: sorting by a key keeps the order of what has the same key.
* `candidateLoops_eq`: in a laminar forest all depths are known.
* `LoopForest.ComesBefore`: deeper, or as deep and found earlier; `pairwise_deepestFirst`: the
  candidates are in this order.
* `InnermostFirst`: what is said of a list of candidates.
* `candidates_nested`: the loops of every digraph are nested, and the candidates among them come
  innermost first.
-/

namespace Unroller

/-- **Sorting by a key**, largest first: what has the same key stays in order. -/
theorem pairwise_mergeSort_key {α : Type} (key : α → Nat) {R : α → α → Prop} {as : List α}
    (h : as.Pairwise R) : (as.mergeSort fun a b => decide (key b ≤ key a)).Pairwise fun a b =>
      key b < key a ∨ key a = key b ∧ R a b := by
  have htrans : ∀ a b c : α, decide (key b ≤ key a) = true → decide (key c ≤ key b) = true →
      decide (key c ≤ key a) = true := by
    simp only [decide_eq_true_eq]
    omega
  have htotal : ∀ a b : α, (decide (key b ≤ key a) || decide (key a ≤ key b)) = true := by
    simp only [Bool.or_eq_true, decide_eq_true_eq]
    omega
  have hsorted := List.pairwise_mergeSort htrans htotal as
  have hperm := List.mergeSort_perm as fun a b => decide (key b ≤ key a)
  -- what has one key is in order already, so sorting leaves it as it stands
  have hties : ∀ k, (as.mergeSort fun a b => decide (key b ≤ key a)).filter (fun a => key a == k) =
      as.filter fun a => key a == k := by
    intro k
    have hsub : (as.filter fun a => key a == k).Sublist
        (as.mergeSort fun a b => decide (key b ≤ key a)) := by
      refine List.sublist_mergeSort htrans htotal ?_ List.filter_sublist
      refine List.Pairwise.imp_of_mem (fun ha hb _ => ?_)
        (List.pairwise_of_forall fun _ _ => trivial)
      simp only [List.mem_filter, beq_iff_eq] at ha hb
      simp [ha.2, hb.2]
    have hsub' := hsub.filter fun a => key a == k
    rw [List.filter_filter] at hsub'
    simp only [Bool.and_self] at hsub'
    exact (hsub'.eq_of_length_le (hperm.filter _).length_eq.le).symm
  rw [List.pairwise_iff_forall_sublist] at hsorted h ⊢
  intro a b hab
  have hle : key b ≤ key a := by simpa using hsorted hab
  by_cases heq : key a = key b
  · refine .inr ⟨heq, h ?_⟩
    have hpair := hab.filter fun c => key c == key a
    rw [hties] at hpair
    simp only [List.filter_cons, beq_self_eq_true, heq, if_true, List.filter_nil] at hpair
    exact hpair.trans List.filter_sublist
  · exact .inl (by omega)

namespace LoopForest

variable {f : LoopForest} {l m : NaturalLoop}

/-- The number of loops around the header of a loop. -/
def level (f : LoopForest) (l : NaturalLoop) : Nat := (f.around l.header).length

/-- One loop is deeper than another one, or as deep and found earlier. -/
def ComesBefore (f : LoopForest) (l m : NaturalLoop) : Prop :=
  f.level m < f.level l ∨ f.level l = f.level m ∧ l.index < m.index

theorem ComesBefore.asymm (h : f.ComesBefore l m) : ¬ f.ComesBefore m l := by
  unfold ComesBefore at *
  omega

end LoopForest

namespace Phase

variable {p : Phase} {f : LoopForest} {l m : NaturalLoop}

/-- The phase has not decided about the loop, and does not rule it out for the loops in it. -/
structure Eligible (p : Phase) (f : LoopForest) (l : NaturalLoop) : Prop where
  notUnrolled : l.header ∉ p.unrolled
  notRejected : l.header ∉ p.rejected
  innermost : p.config.innermostOnly = true → ∀ m ∈ f.loops, ¬ m.StrictlyWithin l

theorem isEligible_iff (hf : f.Laminar) (hl : l ∈ f.loops) :
    p.isEligible f l = true ↔ p.Eligible f l := by
  have hinner : (!p.config.innermostOnly || !f.hasInner l) = true ↔
      (p.config.innermostOnly = true → ∀ m ∈ f.loops, ¬ m.StrictlyWithin l) := by
    rw [Bool.or_eq_true, Bool.not_eq_true', Bool.not_eq_true', ← Bool.not_eq_true,
      ← Bool.not_eq_true, hf.hasInner_iff hl, ← imp_iff_not_or]
    simp only [not_exists, not_and]
  rw [isEligible, Bool.and_eq_true, hinner]
  simp only [Bool.and_eq_true, Bool.not_eq_true', List.contains_eq_mem, decide_eq_false_iff_not]
  exact ⟨fun h => ⟨h.1.1, h.1.2, h.2⟩, fun h => ⟨⟨h.notUnrolled, h.notRejected⟩, h.innermost⟩⟩

/-- The candidates are the eligible loops, in some order. -/
theorem perm_candidateLoops {loops : List NaturalLoop} (h : p.candidateLoops f = .ok loops) :
    loops.Perm (f.loops.filter (p.isEligible f)) := by
  rw [candidateLoops] at h
  obtain ⟨deep, hdeep, h⟩ := bind_eq_ok h
  obtain rfl := Except.ok.inj h
  have hfst : deep.map (fun e => e.1) = f.loops.filter (p.isEligible f) := by
    refine map_eq_of_mapM hdeep fun l e he => ?_
    rw [withDepth] at he
    split at he
    · obtain rfl := Except.ok.inj he
      rfl
    · cases he
  rw [← hfst]
  exact (List.mergeSort_perm deep _).map _

theorem mem_of_mem_candidateLoops {loops : List NaturalLoop} (h : p.candidateLoops f = .ok loops)
    (hl : l ∈ loops) : l ∈ f.loops :=
  List.mem_of_mem_filter ((perm_candidateLoops h).mem_iff.1 hl)

/-- The phase has not decided about a candidate. -/
theorem isEligible_of_mem {loops : List NaturalLoop} (h : p.candidateLoops f = .ok loops)
    (hl : l ∈ loops) : l.header ∉ p.unrolled ∧ l.header ∉ p.rejected := by
  have heligible := List.of_mem_filter ((perm_candidateLoops h).mem_iff.1 hl)
  simp only [isEligible, Bool.and_eq_true, Bool.not_eq_true', List.contains_eq_mem,
    decide_eq_false_iff_not] at heligible
  exact heligible.1

/-- No two candidates have the same header. -/
theorem nodup_candidateLoops {loops : List NaturalLoop}
    (hf : (f.loops.map NaturalLoop.header).Nodup) (h : p.candidateLoops f = .ok loops) :
    (loops.map NaturalLoop.header).Nodup :=
  ((perm_candidateLoops h).map NaturalLoop.header).nodup_iff.2
    (hf.sublist (List.filter_sublist.map _))

/-- The eligible loops, deepest first. -/
def deepestFirst (p : Phase) (f : LoopForest) : List NaturalLoop :=
  (((f.loops.filter (p.isEligible f)).map fun l => (l, f.level l)).mergeSort
    fun a b => decide (b.2 ≤ a.2)).map fun e => e.1

/-- In a laminar forest all depths are known. -/
theorem candidateLoops_eq (hf : f.Laminar) : p.candidateLoops f = .ok (p.deepestFirst f) := by
  have hdepths : (f.loops.filter (p.isEligible f)).mapM (withDepth f) =
      .ok ((f.loops.filter (p.isEligible f)).map fun l => (l, f.level l)) := by
    refine mapM_eq_ok_map fun l hl => ?_
    rw [withDepth, hf.depth_eq (List.mem_of_mem_filter hl)]
    rfl
  rw [candidateLoops, hdepths]
  rfl

theorem mem_deepestFirst_iff (hf : f.Laminar) :
    l ∈ p.deepestFirst f ↔ l ∈ f.loops ∧ p.Eligible f l := by
  have hmem : l ∈ p.deepestFirst f ↔ l ∈ f.loops ∧ p.isEligible f l = true := by
    simp only [deepestFirst, List.mem_map, List.mem_mergeSort, List.mem_filter]
    constructor
    · rintro ⟨_, ⟨_, hl, rfl⟩, rfl⟩
      exact hl
    · intro hl
      exact ⟨_, ⟨l, hl, rfl⟩, rfl⟩
  rw [hmem]
  exact and_congr_right fun hl => isEligible_iff hf hl

/-- **The order of the candidates.** -/
theorem pairwise_deepestFirst (hf : f.Laminar) : (p.deepestFirst f).Pairwise f.ComesBefore := by
  have hindex : ((f.loops.filter (p.isEligible f)).map fun l => (l, f.level l)).Pairwise
      fun a b => a.1.index < b.1.index := by
    have hnumbered := hf.numbered
    rw [List.pairwise_map] at hnumbered ⊢
    exact hnumbered.filter _
  rw [deepestFirst, List.pairwise_map]
  refine (pairwise_mergeSort_key Prod.snd hindex).imp_of_mem fun {a b} ha hb h => ?_
  simp only [List.mem_mergeSort, List.mem_map] at ha hb
  obtain ⟨l, _, rfl⟩ := ha
  obtain ⟨m, _, rfl⟩ := hb
  exact h

theorem nodup_candidates (hf : f.Laminar) : ((p.deepestFirst f).map NaturalLoop.header).Nodup :=
  nodup_candidateLoops (hf.nodup.map_on fun _ hl _ hm h => hf.eq_of_header hl hm h)
    (candidateLoops_eq hf)

/-- A loop that is to come before another one does. -/
theorem idxOf_lt_of_comesBefore (hf : f.Laminar) (hl : l ∈ p.deepestFirst f)
    (hm : m ∈ p.deepestFirst f) (h : f.ComesBefore l m) :
    ((p.deepestFirst f).map NaturalLoop.header).idxOf l.header <
      ((p.deepestFirst f).map NaturalLoop.header).idxOf m.header := by
  obtain ⟨i, hi, rfl⟩ := List.getElem_of_mem hl
  obtain ⟨j, hj, rfl⟩ := List.getElem_of_mem hm
  have hidx : ∀ k (hk : k < (p.deepestFirst f).length),
      ((p.deepestFirst f).map NaturalLoop.header).idxOf (p.deepestFirst f)[k].header = k := by
    intro k hk
    have := (nodup_candidates (p := p) hf).idxOf_getElem k (by simpa using hk)
    rwa [List.getElem_map] at this
  rw [hidx i hi, hidx j hj]
  rcases Nat.lt_trichotomy i j with hlt | rfl | hgt
  · exact hlt
  · exact absurd h h.asymm
  · exact absurd (List.pairwise_iff_getElem.1 (pairwise_deepestFirst hf) j i hj hi hgt) h.asymm

/-- Each eligible header is listed once, inner loops before those that contain them, and loops of
one depth in the order in which they were found. -/
structure InnermostFirst (p : Phase) (f : LoopForest) (headers : List BlockId) : Prop where
  nodup : headers.Nodup
  mem_iff : ∀ h, h ∈ headers ↔ ∃ l ∈ f.loops, l.header = h ∧ p.Eligible f l
  inner : ∀ l ∈ f.loops, ∀ m ∈ f.loops, l.header ∈ headers → m.header ∈ headers →
    l.StrictlyWithin m → headers.idxOf l.header < headers.idxOf m.header
  found : ∀ l ∈ f.loops, ∀ m ∈ f.loops, l.header ∈ headers → m.header ∈ headers →
    f.depth l = f.depth m → l.index < m.index → headers.idxOf l.header < headers.idxOf m.header

theorem innermostFirst_deepestFirst (hf : f.Laminar) :
    p.InnermostFirst f ((p.deepestFirst f).map NaturalLoop.header) := by
  -- a loop is listed exactly if its header is
  have hlisted : ∀ l ∈ f.loops, l.header ∈ (p.deepestFirst f).map NaturalLoop.header →
      l ∈ p.deepestFirst f := by
    intro l hl hmem
    obtain ⟨m, hm, heq⟩ := List.mem_map.1 hmem
    exact hf.eq_of_header ((mem_deepestFirst_iff hf).1 hm).1 hl heq ▸ hm
  refine ⟨nodup_candidates hf, fun h => ?_, fun l hl m hm hlmem hmmem hlm => ?_,
    fun l hl m hm hlmem hmmem hdepth hindex => ?_⟩
  · rw [List.mem_map]
    refine exists_congr fun l => ?_
    rw [mem_deepestFirst_iff hf, and_assoc, and_comm (b := l.header = h)]
  · exact idxOf_lt_of_comesBefore hf (hlisted l hl hlmem) (hlisted m hm hmmem)
      (.inl (hf.length_around_lt hl hm hlm))
  · rw [hf.depth_eq hl, hf.depth_eq hm] at hdepth
    exact idxOf_lt_of_comesBefore hf (hlisted l hl hlmem) (hlisted m hm hmmem)
      (.inr ⟨Option.some.inj hdepth, hindex⟩)

/-- **Loops are nested, and candidates come innermost first.**  For every digraph and entry, with
the dominator tree that is computed for it: the loops of the forest are laminar, and its queries
answer by containment what they compute by size.  The candidates of every phase, in any graph that
has this forest, are known, and listed once each, inner loops first. -/
theorem candidates_nested (g : Digraph) (entry : Nat) :
    (g.loopForest (g.dominatorTree entry) entry).Nested ∧
      ∀ (p : Phase) (k : Graph), k.loopForest = g.loopForest (g.dominatorTree entry) entry →
        ∃ headers, p.candidates k = .ok headers ∧
          p.InnermostFirst (g.loopForest (g.dominatorTree entry) entry) headers := by
  have hf := LoopForest.laminar_loopForest g entry
  refine ⟨hf.nested, fun p k hk => ⟨_, ?_, innermostFirst_deepestFirst hf⟩⟩
  rw [candidates, hk, candidateLoops_eq hf]
  rfl

/-- A loop with a smaller one inside, and one beside it. -/
def nest : Digraph := .ofEdges 4 [(0, 1), (1, 2), (2, 2), (2, 1), (1, 3), (3, 3)]

theorem candidates_nested_nest :
    let forest := nest.loopForest (nest.dominatorTree 0) 0
    let p : Phase := { config := {} }
    let k : Graph := { loopCache := some forest }
    forest.loops.map NaturalLoop.header = [1, 3, 2] ∧ p.candidates k = .ok [2, 1, 3] ∧
      forest.Nested ∧ p.InnermostFirst forest [2, 1, 3] := by
  have hheaders : (nest.loopForest (nest.dominatorTree 0) 0).loops.map NaturalLoop.header =
      [1, 3, 2] := by cbv
  have hcandidates : ({ config := {} } : Phase).candidates
      { loopCache := some (nest.loopForest (nest.dominatorTree 0) 0) } = .ok [2, 1, 3] := by cbv
  obtain ⟨hnested, hfirst⟩ := candidates_nested nest 0
  obtain ⟨headers, heq, hinnermost⟩ := hfirst { config := {} }
    { loopCache := some (nest.loopForest (nest.dominatorTree 0) 0) } rfl
  obtain rfl := Except.ok.inj (heq.symm.trans hcandidates)
  exact ⟨hheaders, hcandidates, hnested, hinnermost⟩

end Phase

end Unroller
