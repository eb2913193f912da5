import Mathlib.Tactic
import Unroller.Proofs.Graph.RebuiltLocals

/-!
# What threaded phis refer to

When all blocks have their pictures, every phi is linked to what the predecessors of its block
record for its local at their ends.  A phi has room for three operands, and no more are linked.

* `Linked`, `linked_foldl_linkPhis`: a phi keeps its links while the phis of other blocks get
  theirs.
* `RebuiltLocals.access_of_tail`: what a reachable block records at its end is an access that it
  lists, so that no two blocks record the same node.
* `threadLocals_merges`: a phi has the first three of the recorded values, which are all of them
  exactly when there are no more; `fourStores_unmerged` is a block with four predecessors.
-/

namespace Unroller.Graph

variable {g h : Graph} {b c q : BlockId} {n p : NodeId} {l : Local} {node phi : Node}
  {block : Block} {preds ids : List BlockId} {phis : List NodeId} {bound : Nat}

/-! ## Values at the end of blocks -/

/-- The block `q` records the node `n` for a local at its end. -/
def TailRecords (g : Graph) (q : BlockId) (l : Local) (n : NodeId) : Prop :=
  ∃ block, g.block? q = some block ∧ block.tail.get? l = some n

/-- What some blocks record for a local at their ends, block after block. -/
def tailValues (g : Graph) (preds : List BlockId) (l : Local) : List NodeId :=
  preds.filterMap fun q => (g.block? q).bind fun block => block.tail.get? l

/-- The operands of a phi are all that the blocks `preds` record for a local at their ends. -/
def Merges (g : Graph) (preds : List BlockId) (l : Local) (phi : Node) : Prop :=
  ∀ n, n ∈ g.operands phi ↔ ∃ q ∈ preds, g.TailRecords q l n

theorem incoming_eq_take (g : Graph) (preds : List BlockId) (l : Local) :
    g.incoming preds l = (g.tailValues preds l).take 3 := rfl

theorem tailRecords_iff :
    g.TailRecords q l n ↔ ((g.block? q).bind fun block => block.tail.get? l) = some n :=
  Option.bind_eq_some_iff.symm

theorem mem_tailValues : n ∈ g.tailValues preds l ↔ ∃ q ∈ preds, g.TailRecords q l n := by
  simp only [tailValues, List.mem_filterMap, tailRecords_iff]

/-- A phi has room for what is linked to it. -/
theorem operands_ofList {ns : List NodeId} (hc : node.children = .ofList (ns.map Edge.untyped))
    (hlen : ns.length ≤ 3) : g.operands node = ns := by
  rw [operands, hc]
  rcases ns with _ | ⟨a, _ | ⟨b, _ | ⟨c, _ | ⟨d, rest⟩⟩⟩⟩
  · rfl
  · rfl
  · rfl
  · rfl
  · simp only [List.length_cons] at hlen
    omega

/-! ## Linking -/

/-- The phi `p` refers to what the blocks `preds` record for its local, as far as there is room. -/
def Linked (g : Graph) (preds : List BlockId) (p : NodeId) : Prop :=
  ∃ phi l, g.node? p = some phi ∧ phi.slot? = some l ∧
    phi.children = .ofList ((g.incoming preds l).map Edge.untyped)

theorem Relinked.incoming_eq (hl : Relinked bound g h) (preds : List BlockId) (l : Local) :
    h.incoming preds l = g.incoming preds l := by
  rw [hl.rest]
  rfl

/-- Linking leaves a node its local. -/
theorem Relinked.slot?_eq (hl : Relinked bound g h) (hslot : (g.node? p).bind Node.slot? = some l) :
    (h.node? p).bind Node.slot? = some l := by
  obtain ⟨phi, hphi, hl'⟩ := Option.bind_eq_some_iff.1 hslot
  obtain ⟨_, himage⟩ := hl.node p phi hphi
  rw [himage]
  exact hl'

/-- Links stay while other nodes change their operands. -/
theorem Linked.of_relinked (hp : Linked g preds p) (hl : Relinked bound g h)
    (hnode : h.node? p = g.node? p) : Linked h preds p := by
  obtain ⟨phi, l, hphi, hslot, hchildren⟩ := hp
  exact ⟨phi, l, hnode.trans hphi, hslot, by rw [hl.incoming_eq, hchildren]⟩

theorem linked_linkPhi (hslot : (g.node? p).bind Node.slot? = some l) :
    Linked (linkPhi preds g p) preds p := by
  obtain ⟨phi, hphi, hl⟩ := Option.bind_eq_some_iff.1 hslot
  refine ⟨{ phi with children := .ofList ((g.incoming preds l).map Edge.untyped) }, l, ?_, hl, ?_⟩
  · rw [linkPhi, hslot]
    simp [hphi]
  · rw [(Relinked.linkPhi preds (Nat.zero_le p)).incoming_eq]

theorem node?_linkPhi_of_ne (preds : List BlockId) (hne : p ≠ n) :
    (linkPhi preds g p).node? n = g.node? n := by
  rw [linkPhi]
  split
  · rfl
  · simp [hne]

theorem node?_foldl_linkPhi (preds : List BlockId) (hn : n ∉ phis) :
    (phis.foldl (linkPhi preds) g).node? n = g.node? n := by
  induction phis generalizing g with
  | nil => rfl
  | cons p phis ih =>
    rw [List.mem_cons, not_or] at hn
    rw [List.foldl_cons, ih hn.2, node?_linkPhi_of_ne preds (Ne.symm hn.1)]

/-- **The phis of one block.** -/
theorem linked_foldl_linkPhi (hslot : (g.node? p).bind Node.slot? = some l)
    (hp : p ∈ phis ∨ Linked g preds p) : Linked (phis.foldl (linkPhi preds) g) preds p := by
  induction phis generalizing g with
  | nil => exact hp.resolve_left List.not_mem_nil
  | cons q phis ih =>
    have hlink := Relinked.linkPhi (g := g) preds (Nat.zero_le q)
    refine ih (hlink.slot?_eq hslot) ?_
    by_cases hq : q = p
    · subst hq
      exact .inr (linked_linkPhi hslot)
    · refine hp.imp (fun hmem => (List.mem_cons.1 hmem).resolve_left (Ne.symm hq)) fun hp => ?_
      exact hp.of_relinked hlink (node?_linkPhi_of_ne preds hq)

/-- **The phis of all blocks.** -/
theorem linked_foldl_linkPhis (hslot : (g.node? p).bind Node.slot? = some l)
    (hb : g.block? b = some block) (hp : p ∈ block.phis)
    (honly : ∀ c ∈ ids, ∀ other, g.block? c = some other → p ∈ other.phis → c = b)
    (hdone : b ∈ ids ∨ Linked g block.preds p) : Linked (ids.foldl linkPhis g) block.preds p := by
  induction ids generalizing g with
  | nil => exact hdone.resolve_left List.not_mem_nil
  | cons c ids ih =>
    have hlink : Relinked 0 g (g.linkPhis c) :=
      show Relinked 0 g ([c].foldl linkPhis g) from .foldl_linkPhis fun _ _ _ _ _ _ => Nat.zero_le _
    refine ih (hlink.slot?_eq hslot) ((hlink.block?_eq b).trans hb) ?_ ?_
    · intro d hd other hother
      rw [hlink.block?_eq] at hother
      exact honly d (List.mem_cons_of_mem _ hd) other hother
    · by_cases hc : c = b
      · subst hc
        refine .inr ?_
        rw [linkPhis, hb]
        exact linked_foldl_linkPhi hslot (.inl hp)
      · refine hdone.imp
          (fun hmem => (List.mem_cons.1 hmem).resolve_left (Ne.symm hc)) fun hdone => ?_
        refine hdone.of_relinked hlink ?_
        rw [linkPhis]
        split
        · rfl
        · rename_i other hother
          exact node?_foldl_linkPhi other.preds fun hmem =>
            hc (honly c (List.mem_cons_self ..) other hother hmem)

/-! ## The whole graph -/

namespace RebuiltLocals

variable (hr : RebuiltLocals g h) (hg : g.WellFormed)

include hr hg

/-- A reachable block lists what it did and has its picture. -/
theorem exists_picture (hreached : g.flow.Reaches entry b) (hb : h.block? b = some block) :
    ∃ old, g.block? b = some old ∧ block.nodes = old.nodes ∧
      LocalPicture g h old.nodes block.phis block.head block.tail := by
  obtain ⟨old, hold⟩ := isLive_iff.1 (hg.isLive_of_reaches hreached)
  obtain ⟨preds, phis, head, tail, hnew, hpic⟩ := hr.reached b old hold hreached
  rw [hb] at hnew
  obtain rfl := Option.some.inj hnew
  exact ⟨old, hold, rfl, hpic⟩

/-- What a reachable block records at its end is an access that it lists. -/
theorem access_of_tail (hreached : g.flow.Reaches entry q) (hn : h.TailRecords q l n) :
    ∃ block, g.block? q = some block ∧ n ∈ g.accesses l block.nodes := by
  obtain ⟨block, hb, htail⟩ := hn
  obtain ⟨old, hold, _, hpic⟩ := hr.exists_picture hg hreached hb
  rw [hpic.last] at htail
  exact ⟨old, hold, List.mem_of_getLast? htail⟩

/-- No two blocks record the same node. -/
theorem nodup_tailValues (hreached : ∀ q ∈ preds, g.flow.Reaches entry q) (hnodup : preds.Nodup)
    (l : Local) : (h.tailValues preds l).Nodup := by
  refine List.pairwise_filterMap.2 (hnodup.imp_of_mem fun {q c} hq hc hne n hn m hm heq => hne ?_)
  obtain ⟨block, hb, hmem⟩ := hr.access_of_tail hg (hreached q hq) (tailRecords_iff.2 hn)
  obtain ⟨other, hc', hmem'⟩ := hr.access_of_tail hg (hreached c hc) (tailRecords_iff.2 hm)
  subst heq
  exact hg.apart q block c other n hb hc' (List.mem_append_right _ (mem_accesses.1 hmem).1)
    (List.mem_append_right _ (mem_accesses.1 hmem').1)

end RebuiltLocals

/-- The phis of reachable blocks are linked to the predecessors. -/
theorem WellFormed.linked_threadLocals (hg : g.WellFormed) (hreached : g.flow.Reaches entry b)
    (hb : g.threadLocals.block? b = some block) (hp : p ∈ block.phis) :
    Linked g.threadLocals block.preds p := by
  have hr := rebuilding_foldl_threadBlock hg.resetReachability
  have hmem := hg.mem_reachableIds.2 hreached
  have hb' := hb
  rw [threadLocals] at hb ⊢
  generalize g.resetReachability.reachableIds = ids at *
  generalize ids.foldl threadBlock g.resetReachability = k at *
  have hlink : Relinked 0 k (ids.foldl linkPhis k) :=
    .foldl_linkPhis fun _ _ _ _ _ _ => Nat.zero_le _
  replace hb : k.block? b = some block := (hlink.block?_eq b).symm.trans hb
  obtain ⟨_, _, _, _, _, hnew, hpic⟩ := hr.rebuilt b hmem
  rw [hb] at hnew
  obtain rfl := Option.some.inj hnew
  obtain ⟨_, _, l, _, _, _, _, _, _, hphi, _⟩ := hpic.exists_read hp
  refine linked_foldl_linkPhis (l := l) ?_ hb hp (fun c hc other hother hmem' => ?_) (.inl hmem)
  · rw [hphi]
    rfl
  · exact (hr.apart b hmem c hc _ other p hb hother hp hmem').symm

/-- The predecessors that a reachable block records are reachable. -/
theorem RebuiltLocals.reaches_of_mem_preds (hr : RebuiltLocals g h) (hcode : Rephrased g h)
    (hg : g.WellFormed) (hb : h.block? b = some block) (hq : q ∈ block.preds) :
    g.flow.Reaches entry q := by
  rw [← hcode.flow_eq hg]
  exact ((hr.reachExact.mem_preds_iff b block hb q).1 hq).1

/-- The first few members of a list are all of them when there are no more. -/
theorem forall_mem_take_iff {ns : List NodeId} (hnodup : ns.Nodup) (k : Nat) :
    (∀ n, n ∈ ns.take k ↔ n ∈ ns) ↔ ns.length ≤ k := by
  constructor
  · intro h
    by_contra hlt
    have hk : k < ns.length := Nat.not_le.1 hlt
    have hdrop : ns[k] ∈ ns.drop k := List.mem_drop_iff_getElem.2 ⟨0, by simpa using hk, by simp⟩
    exact List.disjoint_take_drop hnodup (Nat.le_refl k) ((h _).2 (List.getElem_mem hk)) hdrop
  · intro h n
    rw [List.take_of_length_le h]

/-- **A threaded phi has the first three of the values that the predecessors record** for its local.
These are all of them exactly when at most three predecessors record one. -/
theorem threadLocals_merges (hvalid : g.validate = .ok ()) (hreached : g.flow.Reaches entry b)
    (hb : g.threadLocals.block? b = some block) (hp : p ∈ block.phis) :
    ∃ phi l, g.threadLocals.node? p = some phi ∧ phi.kind = .phi ∧ phi.slot? = some l ∧
      g.threadLocals.operands phi = (g.threadLocals.tailValues block.preds l).take 3 ∧
      (g.threadLocals.Merges block.preds l phi ↔
        (g.threadLocals.tailValues block.preds l).length ≤ 3) := by
  have hg := validate_eq_ok_iff.1 hvalid
  have hr := hg.rebuiltLocals
  obtain ⟨phi, l, hphi, hslot, hchildren⟩ := hg.linked_threadLocals hreached hb hp
  have hoperands := operands_ofList (g := g.threadLocals) hchildren (List.length_take_le _ _)
  rw [incoming_eq_take] at hoperands
  refine ⟨phi, l, hphi, ?_, hslot, hoperands, ?_⟩
  · obtain ⟨_, _, _, hpic⟩ := hr.exists_picture hg hreached hb
    obtain ⟨_, _, _, _, _, _, _, _, _, hnode, _⟩ := hpic.exists_read hp
    rw [hphi] at hnode
    rw [Option.some.inj hnode]
    rfl
  · have hpreds := hr.reachExact.nodup_preds b block hb
    have hnodup := hr.nodup_tailValues hg
      (fun q hq => hr.reaches_of_mem_preds hg.rephrased_threadLocals hg hb hq) hpreds l
    rw [← forall_mem_take_iff hnodup, Merges, hoperands]
    simp only [mem_tailValues]

/-- A switch, the four blocks that it leads to, each of which stores into local 0, and the block
behind them, which reads local 0. -/
def fourStores : Graph where
  locals := 1
  blocks := #[some { index := 0, nodes := [0, 1] }, some { index := 1, nodes := [2, 3, 4] },
    some { index := 2, nodes := [5, 6, 7] }, some { index := 3, nodes := [8, 9, 10] },
    some { index := 4, nodes := [11, 12, 13] }, some { index := 5, nodes := [14, 15] }]
  nodes := #[constant 0, { kind := .switch, children := .one (.untyped 0), payload := .switch 0 },
    constant 1, store 2, jump, constant 2, store 5, jump, constant 3, store 8, jump, constant 4,
    store 11, jump, { kind := .getLocal, payload := .slot 0 },
    { kind := .ret, children := .one (.untyped 14) }]
  switches := #[⟨[⟨1, { block := 1 }⟩, ⟨2, { block := 2 }⟩, ⟨3, { block := 3 }⟩], { block := 4 }⟩]
where
  constant (value : Int32) : Node := { kind := .jsConstant, payload := .constant (.int32 value) }
  store (value : NodeId) : Node :=
    { kind := .setLocal, children := .one (.untyped value), payload := .slot 0 }
  jump : Node := { kind := .jump, payload := .jump 5 }

theorem validate_fourStores : fourStores.validate = .ok () := by
  have hdefects : fourStores.defects.isEmpty = true := by decide +kernel
  rw [validate, List.isEmpty_iff.1 hdefects]

theorem reaches_fourStores : fourStores.flow.Reaches entry 5 := by
  have hmem : 5 ∈ fourStores.resetReachability.reachableIds := by decide +kernel
  exact (validate_eq_ok_iff.1 validate_fourStores).mem_reachableIds.1 hmem

/-- The block that reads has one phi and four predecessors. -/
theorem merge_fourStores : ∃ block, fourStores.threadLocals.block? 5 = some block ∧
    block.phis = [16] ∧ block.preds = [1, 2, 3, 4] := by
  have h : (fourStores.threadLocals.block? 5).map (fun block => (block.phis, block.preds)) =
      some ([16], [1, 2, 3, 4]) := by decide +kernel
  obtain ⟨block, hb, heq⟩ := Option.map_eq_some_iff.1 h
  exact ⟨block, hb, congrArg Prod.fst heq, congrArg Prod.snd heq⟩

/-- The phi of local 0 has the stores of three predecessors. -/
theorem threadLocals_merges_fourStores :
    fourStores.validate = .ok () ∧ ∃ phi, fourStores.threadLocals.node? 16 = some phi ∧
      fourStores.threadLocals.operands phi =
        (fourStores.threadLocals.tailValues [1, 2, 3, 4] 0).take 3 := by
  obtain ⟨block, hb, hphis, hpreds⟩ := merge_fourStores
  obtain ⟨phi, l, hphi, _, hslot, hoperands, _⟩ :=
    threadLocals_merges validate_fourStores reaches_fourStores hb (p := 16) (by simp [hphis])
  refine ⟨validate_fourStores, phi, hphi, ?_⟩
  have hl : (fourStores.threadLocals.node? 16).bind Node.slot? = some 0 := by decide +kernel
  rw [hphi, Option.bind_some, hslot] at hl
  rw [hoperands, hpreds, Option.some.inj hl]

/-- **A fourth value is lost**: one predecessor records a store into local 0 that is no operand of
the phi. -/
theorem fourStores_unmerged :
    fourStores.validate = .ok () ∧ fourStores.flow.Reaches entry 5 ∧
      ∃ block phi, fourStores.threadLocals.block? 5 = some block ∧ 16 ∈ block.phis ∧
        fourStores.threadLocals.node? 16 = some phi ∧ phi.slot? = some 0 ∧
        4 ∈ block.preds ∧ fourStores.threadLocals.TailRecords 4 0 12 ∧
        12 ∉ fourStores.threadLocals.operands phi ∧
        ¬ fourStores.threadLocals.Merges block.preds 0 phi := by
  obtain ⟨block, hb, hphis, hpreds⟩ := merge_fourStores
  have hnode : (fourStores.threadLocals.node? 16).map
      (fun phi => (phi.slot?, fourStores.threadLocals.operands phi)) =
        some (some 0, [3, 6, 9]) := by
    decide +kernel
  obtain ⟨phi, hphi, heq⟩ := Option.map_eq_some_iff.1 hnode
  obtain ⟨hslot, hoperands⟩ := Prod.mk.inj heq
  have hlost : 12 ∉ fourStores.threadLocals.operands phi := by
    rw [hoperands]
    decide
  have hpred : 4 ∈ block.preds := by simp [hpreds]
  have htail : fourStores.threadLocals.TailRecords 4 0 12 := tailRecords_iff.2 (by decide +kernel)
  exact ⟨validate_fourStores, reaches_fourStores, block, phi, hb, by simp [hphis], hphi,
    hslot, hpred, htail, hlost, fun hall => hlost ((hall 12).2 ⟨4, hpred, htail⟩)⟩

end Unroller.Graph
