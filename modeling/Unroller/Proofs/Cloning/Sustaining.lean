import Unroller.Proofs.Cloning.Filling
import Unroller.Proofs.Cloning.Outcomes
import Unroller.Proofs.Graph.Sustaining

/-!
# Copying leaves records with their owners

A copy of a node that names a record gets a record of its own.  So copying keeps a graph separate,
and it does so at every moment: a copy that fails midway leaves blocks without an end and edges that
were to be redirected, but no record with two owners.

* `Working`: a session in a separate graph, all of whose copies can be copied again.
* `Behaves`: a part of the work keeps a session working, however it ends.
* `copier_nodeFrom`, `behaves_fill`, `behaves_blockFrom`: nodes, blocks and regions, by induction on
  how deep the work goes.
* `sustains_finalize`: cleaning up after it.
-/

namespace Unroller

/-- Whatever graph the hook is given, it leaves the records of that graph with their owners. -/
def Hook.Sustains (hook : Hook) : Prop :=
  ∀ source copy g, Graph.Sustains g (finalState (hook source copy g))

open Unroller.Graph

namespace Cloning

variable {α β : Type} {s t u : Session} {g h : Graph} {n : NodeId} {node : Node} {b c : BlockId}
  {block : Block} {target : BlockId} {P : α → Session → Prop} {Q : β → Session → Prop}

/-! ## Sessions at work -/

/-- The graph is separate, and the copies of nodes are proper nodes. -/
structure Working (s : Session) : Prop where
  separate : s.graph.Separate
  copies : ∀ n copy, s.nodeCopies.lookup n = some copy → s.graph.Proper copy

/-- A working session that has come from another one. -/
structure Onward (s t : Session) : Prop where
  develops : Develops s.graph t.graph
  working : Working t

theorem Onward.refl (hs : Working s) : Onward s s := ⟨.refl _, hs⟩

theorem Onward.trans (h₁ : Onward s t) (h₂ : Onward t u) : Onward s u :=
  ⟨h₁.develops.trans h₂.develops, h₂.working⟩

/-- An edit of the graph that leaves records with their owners. -/
theorem Working.onto (hs : Working s) (hg : Sustains s.graph g) : Onward s (onto s g) := by
  obtain ⟨hd, hsep⟩ := hg hs.separate
  exact ⟨hd, hsep, fun n copy hcopy => hd.proper (hs.copies n copy hcopy)⟩

/-- However a part of the work ends, the session goes on; if it succeeds, its result is as said. -/
structure Behaves (P : α → Session → Prop) (x : Cloning α) (s : Session) : Prop where
  onward : Onward s (finalState (x s))
  result : ∀ a t, x s = .ok a t → P a t

theorem behaves_iff {x : Cloning α} :
    Behaves P x s ↔ Ends (fun a t => Onward s t ∧ P a t) (fun _ t => Onward s t) x s := by
  constructor
  · intro hx
    cases hrun : x s with
    | ok a t => exact .of_ok hrun ⟨by simpa [hrun, finalState] using hx.onward, hx.result a t hrun⟩
    | error e t => exact .of_error hrun (by simpa [hrun, finalState] using hx.onward)
  · intro hx
    refine ⟨(hx.mono (fun _ _ h => h.1) fun _ _ => id).final (I := Onward s), fun a t hrun => ?_⟩
    rcases hx with ⟨a', t', hrun', h⟩ | ⟨e, t', hrun', _⟩
    · cases hrun.symm.trans hrun'
      exact h.2
    · cases hrun.symm.trans hrun'

namespace Behaves

theorem of_ok {x : Cloning α} {a : α} (hx : x s = .ok a t) (hs : Onward s t) (hP : P a t) :
    Behaves P x s :=
  behaves_iff.2 (.of_ok hx ⟨hs, hP⟩)

theorem of_error {x : Cloning α} {e : Error} (hx : x s = .error e t) (hs : Onward s t) :
    Behaves P x s :=
  behaves_iff.2 (.of_error hx hs)

theorem pure {a : α} (hs : Working s) (hP : P a s) : Behaves P (pure a) s :=
  of_ok rfl (.refl hs) hP

theorem throw {e : Error} (hs : Working s) : Behaves P (throw e) s := of_error rfl (.refl hs)

/-- One part of the work after another. -/
theorem bind {x : Cloning α} {f : α → Cloning β} (hx : Behaves P x s)
    (hf : ∀ a t, Onward s t → P a t → Behaves Q (f a) t) : Behaves Q (x >>= f) s := by
  refine behaves_iff.2 ((behaves_iff.1 hx).bind fun a t ha => ?_)
  obtain ⟨honward, hP⟩ := ha
  exact (behaves_iff.1 (hf a t honward hP)).mono (fun _ _ h => ⟨honward.trans h.1, h.2⟩)
    fun _ _ => honward.trans

theorem get {f : Session → Cloning α} (hf : Behaves P (f s) s) : Behaves P (get >>= f) s :=
  ⟨hf.onward, hf.result⟩

theorem congr {x y : Cloning α} (heq : x s = y s) (hy : Behaves P y s) : Behaves P x s :=
  ⟨heq ▸ hy.onward, fun a t ha => hy.result a t (heq ▸ ha)⟩

theorem discard {x : Cloning α} (hx : Behaves P x s) :
    Behaves (fun _ _ => True) (discard x) s :=
  hx.bind fun _ _ honward _ => .pure honward.working trivial

/-- An edit of the graph. -/
theorem onGraph {change : Graph → α × Graph} (hs : Working s)
    (hg : Sustains s.graph (change s.graph).2)
    (hP : P (change s.graph).1 (onto s (change s.graph).2)) : Behaves P (onGraph change) s :=
  of_ok rfl (hs.onto hg) hP

/-- An edit of the graph that may fail. -/
theorem tryGraph {ε : Type} {wrap : ε → Error} {change : Graph → Except ε (α × Graph)}
    (hs : Working s)
    (hg : ∀ a g, change s.graph = .ok (a, g) → Sustains s.graph g ∧ P a (onto s g)) :
    Behaves P (tryGraph wrap change) s := by
  cases hrun : change s.graph with
  | error e => exact of_error (e := wrap e) (by simp [Cloning.tryGraph, hrun]) (.refl hs)
  | ok e =>
    obtain ⟨hsustains, hP⟩ := hg e.1 e.2 hrun
    exact of_ok (by simp only [Cloning.tryGraph, hrun]; rfl) (hs.onto hsustains) hP

/-- The same work for each item of a list. -/
theorem forM {as : List α} {f : α → Cloning PUnit} (hs : Working s)
    (hf : ∀ a ∈ as, ∀ t, Onward s t → Behaves (fun _ _ => True) (f a) t) :
    Behaves (fun _ _ => True) (as.forM f) s := by
  induction as generalizing s with
  | nil => exact .pure hs trivial
  | cons a as ih =>
    refine (hf a List.mem_cons_self s (.refl hs)).bind fun _ t honward _ => ?_
    exact ih honward.working fun a' ha' u hu =>
      hf a' (List.mem_cons_of_mem _ ha') u (honward.trans hu)

/-- Work that is handed from item to item. -/
theorem foldlM {as : List α} {f : β → α → Cloning β} (hs : Working s)
    (hf : ∀ acc a t, Working t → Behaves (fun _ _ => True) (f acc a) t) (acc : β) :
    Behaves (fun _ _ => True) (as.foldlM f acc) s := by
  induction as generalizing s acc with
  | nil => exact .pure hs trivial
  | cons a as ih =>
    exact (hf acc a s hs).bind fun acc' t honward _ => ih honward.working acc'

end Behaves

/-! ## Nodes -/

/-- An edge to a proper node, or to none. -/
def ProperEdge (g : Graph) (e : Edge) : Prop := ∀ n, e.node? = some n → g.Proper n

theorem ProperEdge.develops {e : Edge} (he : ProperEdge g e) (hd : Develops g h) : ProperEdge h e :=
  fun n hn => hd.proper (he n hn)

/-- Operands that exist and are proper nodes. -/
structure ProperChildren (g : Graph) (c : Children) : Prop where
  inRange : g.InRange c
  edges : ∀ e ∈ g.edgesOf c, ProperEdge g e

theorem ProperChildren.develops {c : Children} (hc : ProperChildren g c) (hd : Develops g h) :
    ProperChildren h c := by
  refine ⟨inRange_of_extends hd.varArgs hc.inRange, fun e he => ?_⟩
  rw [edgesOf_of_extends hd.varArgs hc.inRange] at he
  exact (hc.edges e he).develops hd

theorem properChildren_of_operands (hrange : g.InRange node.children)
    (hoperands : ∀ c ∈ g.operands node, g.Proper c) : ProperChildren g node.children :=
  ⟨hrange, fun e he n hn => hoperands n (List.mem_filterMap.2 ⟨e, he, hn⟩)⟩

/-- A way of copying nodes: proper nodes have proper copies. -/
def Copier (copy : NodeId → Cloning NodeId) : Prop :=
  ∀ n s, Working s → s.graph.Proper n → Behaves (fun m t => t.graph.Proper m) (copy n) s

variable {copy : NodeId → Cloning NodeId}

theorem behaves_edge (hcopy : Copier copy) (hs : Working s) {e : Edge} (he : ProperEdge s.graph e) :
    Behaves (fun e' t => ProperEdge t.graph e') (edge copy e) s := by
  unfold edge
  split
  · rename_i n hn
    refine (hcopy n s hs (he n hn)).bind fun m t honward hm => .pure honward.working ?_
    intro m' hm'
    obtain rfl : m = m' := Option.some.inj hm'
    exact hm
  · refine .pure hs fun n hn => ?_
    cases hn

theorem behaves_mapM_edge (hcopy : Copier copy) (hs : Working s) {es : List Edge}
    (hes : ∀ e ∈ es, ProperEdge s.graph e) :
    Behaves (fun es' t => es'.length = es.length ∧ ∀ e ∈ es', ProperEdge t.graph e)
      (es.mapM (edge copy)) s := by
  induction es generalizing s with
  | nil => exact .pure hs ⟨rfl, by simp⟩
  | cons e es ih =>
    rw [List.mapM_cons]
    refine (behaves_edge hcopy hs (hes e List.mem_cons_self)).bind fun e' t ht he' => ?_
    refine (ih ht.working fun d hd =>
      (hes d (List.mem_cons_of_mem _ hd)).develops ht.develops).bind fun es' u hu hes' => ?_
    refine .pure hu.working ⟨by simp [hes'.1], fun d hd => ?_⟩
    rcases List.mem_cons.1 hd with rfl | hd
    · exact he'.develops hu.develops
    · exact hes'.2 d hd

theorem sustains_withArgs (g : Graph) (args : Array Edge) : Sustains g (withArgs g args) :=
  .of_blocks (.of_grows (grows_withArgs g args)) rfl

/-- **The operands of a copy** are proper nodes, in a range of their own if they are many. -/
theorem behaves_children (hcopy : Copier copy) (hs : Working s) {c : Children}
    (hc : ProperChildren s.graph c) :
    Behaves (fun c' t => ProperChildren t.graph c') (children copy c) s := by
  cases c with
  | fixed e₁ e₂ e₃ =>
    have hedge : ∀ e ∈ [e₁, e₂, e₃], ProperEdge s.graph e := hc.edges
    refine (behaves_edge hcopy hs (hedge e₁ (by simp))).bind fun d₁ t₁ h₁ hd₁ => ?_
    refine (behaves_edge hcopy h₁.working ((hedge e₂ (by simp)).develops h₁.develops)).bind
      fun d₂ t₂ h₂ hd₂ => ?_
    have h₁₂ := h₁.trans h₂
    refine (behaves_edge hcopy h₂.working ((hedge e₃ (by simp)).develops h₁₂.develops)).bind
      fun d₃ t₃ h₃ hd₃ => .pure h₃.working ⟨trivial, ?_⟩
    intro e he
    simp only [edgesOf, List.mem_cons, List.not_mem_nil, or_false] at he
    rcases he with rfl | rfl | rfl
    · exact hd₁.develops (h₂.trans h₃).develops
    · exact hd₂.develops h₃.develops
    · exact hd₃
  | variadic first count =>
    have hle : first + count ≤ s.graph.varArgs.size := hc.inRange
    have hlen : (s.graph.varArgRange first count).length = count := by
      rw [varArgRange, if_pos hle]
      simp
      omega
    unfold children
    apply Behaves.get
    refine (behaves_mapM_edge hcopy hs hc.edges).bind fun copies t ht hcopies => ?_
    apply Behaves.get
    have hadd := ht.working.onto (sustains_withArgs t.graph copies.toArray)
    refine (Behaves.of_ok (P := fun _ u => u = onto t (withArgs t.graph copies.toArray))
      (forM_addVarArg_ok copies t) hadd rfl).bind ?_
    rintro _ u hu rfl
    -- the new range holds the copies and nothing else
    have hcount : copies.length = count := hcopies.1.trans hlen
    refine .pure hu.working ⟨?_, fun e he => ?_⟩
    · simp [InRange, onto, withArgs, hcount]
    · have hrange :
          (withArgs t.graph copies.toArray).edgesOf (.variadic t.graph.varArgs.size count) =
          copies := by
        simp only [edgesOf]
        rw [varArgRange, if_pos (by simp [withArgs, hcount])]
        simp [withArgs, hcount]
      replace he : e ∈ (withArgs t.graph copies.toArray).edgesOf
        (.variadic t.graph.varArgs.size count) := he
      rw [hrange] at he
      exact (hcopies.2 e he).develops hadd.develops

/-- No node that a block runs holds the record that a payload names. -/
def Unheld (g : Graph) (p : Payload) : Prop :=
  ∀ r, p.handle? = some r → ∀ b m, g.Runs b m → ¬ g.Holds m r

/-- A payload for a node of a kind: it goes with the kind, and no node holds its record. -/
structure Vacant (g : Graph) (kind : Kind) (p : Payload) : Prop where
  admits : p.handle?.isSome = true → g.admits kind p = true
  unheld : Unheld g p

theorem vacant_of_bare {kind : Kind} {p : Payload} (hp : p.handle? = none) : Vacant g kind p :=
  ⟨by simp [hp], fun r hr => by simp [hp] at hr⟩

theorem isRecord_iff {p : Payload} : p.isRecord = true ↔ p.handle?.isSome = true := by
  cases p <;> simp [Payload.isRecord, Payload.shape?, Payload.handle?]

theorem sustains_addRecord (g : Graph) (r : Record) : Sustains g (addRecord g r).2 := by
  have hmore := moreRecords_addRecord g r
  exact .of_blocks (.of_grows hmore.toGrows) hmore.blocks_eq

/-- **A new record** is held by no node: it lies beyond all that are held. -/
theorem unheld_addRecord (hg : g.Separate) (r : Record) :
    Unheld (addRecord g r).2 (addRecord g r).1 := by
  intro handle hhandle b m hm hr
  have hmore := moreRecords_addRecord g r
  have hruns : g.Runs b m := by
    rwa [Runs, block?, hmore.blocks_eq, ← block?] at hm
  have hholds : g.Holds m handle := by
    rwa [Holds, node?, hmore.nodes_eq, ← node?] at hr
  have hlt := hg.lt_arenaSize hruns hholds
  cases r <;> simp only [addRecord, Payload.handle?, Option.some.injEq] at hhandle <;>
    subst hhandle <;> exact Nat.lt_irrefl _ hlt

/-- A record is copied, or the payload names none of the sort that is asked for. -/
theorem record_cases (n : NodeId) (shape : RecordShape) (p : Payload) (s : Session) :
    (∃ r, s.graph.record? p = some r ∧
      record n shape p s = .ok (addRecord s.graph r).1 (onto s (addRecord s.graph r).2)) ∨
    ∃ v, record n shape p s = .error (.violation v) s := by
  unfold record
  rw [get_bind]
  split
  case h_1 r =>
    cases hdata : s.graph.branches[r]? with
    | none => exact .inr ⟨_, rfl⟩
    | some data => exact .inl ⟨.branch data, by simp [record?, hdata], rfl⟩
  case h_2 r =>
    cases hdata : s.graph.switches[r]? with
    | none => exact .inr ⟨_, rfl⟩
    | some data => exact .inl ⟨.switch data, by simp [record?, hdata], rfl⟩
  case h_3 r =>
    cases hdata : s.graph.callLayouts[r]? with
    | none => exact .inr ⟨_, rfl⟩
    | some data => exact .inl ⟨.callVarargs data, by simp [record?, hdata], rfl⟩
  case h_4 r =>
    cases hdata : s.graph.loadLayouts[r]? with
    | none => exact .inr ⟨_, rfl⟩
    | some data => exact .inl ⟨.loadVarargs data, by simp [record?, hdata], rfl⟩
  case h_5 => exact .inr ⟨_, rfl⟩

/-- **The payload of a copy** is one that no node holds. -/
theorem behaves_payload (hs : Working s) (hmade : s.graph.WellMade node)
    (hstrategy : node.kind.cloneStrategy ≠ .unsupported) (n : NodeId) :
    Behaves (fun p t => Vacant t.graph node.kind p) (payload n node) s := by
  cases hk : node.kind.cloneStrategy with
  | special shape =>
    unfold payload
    rw [hk]
    simp only
    rcases record_cases n shape node.payload s with ⟨r, hr, hok⟩ | ⟨e, herror⟩
    · have hadmits := hmade.admits (isRecord_iff.1 (isRecord_of_record? hr))
      exact .of_ok hok (hs.onto (sustains_addRecord s.graph r))
        ⟨fun _ => admits_addRecord hadmits hr, unheld_addRecord hs.separate r⟩
    · exact .of_error herror (.refl hs)
  | unsupported => exact absurd hk hstrategy
  | common | preCloned =>
    -- a kind that goes with a record is copied with one
    have hnone : node.payload.handle? = none := by
      by_contra hsome
      have hsome := Option.isSome_iff_ne_none.2 hsome
      obtain ⟨shape, hshape⟩ := Option.isSome_iff_exists.1 (isRecord_iff.2 hsome)
      have hspecial := (strategy_of_admits (hmade.admits hsome) hstrategy shape).2 hshape
      rw [hk] at hspecial
      cases hspecial
    unfold payload
    rw [hk]
    exact .pure hs (vacant_of_bare hnone)

/-- A block is what it was, or has come to list the new node. -/
theorem block_cases_withNode {list : NodeId → Block → Block}
    (hb : (withNode g target list node).block? b = some block) :
    g.block? b = some block ∨
      b = target ∧ ∃ old, g.block? b = some old ∧ block = list g.nodes.size old := by
  rw [block?_withNode] at hb
  split at hb
  · rename_i heq
    obtain ⟨old, hold, hlist⟩ := Option.map_eq_some_iff.1 hb
    exact .inr ⟨heq.symm, old, hold, hlist.symm⟩
  · exact .inl hb

/-- Listing a new node in a block. -/
theorem sustains_withNode (hkind : node.kind ≠ .phi) (hc : ProperChildren g node.children)
    (hp : Vacant g node.kind node.payload) :
    Sustains g (withNode g target listNode node) ∧
      (withNode g target listNode node).Proper g.nodes.size := by
  have hd := Develops.of_grows (grows_withNode g target listNode node)
  have hnode := node?_withNode_self g target listNode node
  have hchildren := hc.develops hd
  have hproper : (withNode g target listNode node).Proper g.nodes.size := by
    refine proper_of_operands hnode ⟨fun hsome => hd.roomier.admits (hp.admits hsome),
      hchildren.inRange⟩ fun c hc => ?_
    obtain ⟨e, he, hc⟩ := List.mem_filterMap.1 hc
    exact hchildren.edges e he c hc
  have hruns : ∀ b m, (withNode g target listNode node).Runs b m →
      g.Runs b m ∨ b = target ∧ m = g.nodes.size := by
    rintro b m ⟨block, hb, hm⟩
    rcases block_cases_withNode hb with hb | ⟨hbt, old, hold, rfl⟩
    · exact .inl ⟨block, hb, hm⟩
    · rcases List.mem_append.1 hm with hm | hm
      · exact .inl ⟨old, hold, hm⟩
      · exact .inr ⟨hbt, List.mem_singleton.1 hm⟩
  have hfresh : Fresh g (withNode g target listNode node) g.nodes.size := by
    refine ⟨le_rfl, by simp [isPhi, hnode, hkind], hproper, fun r hr => ?_⟩
    exact hp.unheld r ((holds_iff hnode).1 hr)
  refine ⟨fun hg => ⟨hd, hg.of_develops hd target ?_ ?_ ?_⟩, hproper⟩
  · rintro b p ⟨block, hb, hphi⟩
    rcases block_cases_withNode hb with hb | ⟨_, old, hold, rfl⟩
    · exact .inl ⟨block, hb, hphi⟩
    · exact .inl ⟨old, hold, hphi⟩
  · intro b m hm
    refine (hruns b m hm).imp_right ?_
    rintro ⟨rfl, rfl⟩
    exact ⟨rfl, hfresh⟩
  · intro m m' r hm hm' hf hf' _ _
    have hsize : ∀ x, (withNode g target listNode node).Runs target x →
        Fresh g (withNode g target listNode node) x → x = g.nodes.size :=
      fun x hx hxf => ((hruns target x hx).resolve_left (hxf.not_runs hg)).2
    rw [hsize m hm hf, hsize m' hm' hf']

theorem appendNode_eq_ok {e : NodeId × Graph} (hok : g.appendNode target node = .ok e) :
    e = (g.nodes.size, withNode g target listNode node) := by
  unfold appendNode at hok
  split at hok
  · cases hok
    rfl
  · cases hok

theorem behaves_appendNode (hs : Working s) (hkind : node.kind ≠ .phi)
    (hc : ProperChildren s.graph node.children) (hp : Vacant s.graph node.kind node.payload) :
    Behaves (fun copy t => t.graph.Proper copy)
      (tryGraph .defect (·.appendNode target node)) s := by
  refine .tryGraph hs fun copy g hok => ?_
  cases appendNode_eq_ok hok
  exact sustains_withNode hkind hc hp

/-- Remembering a copy. -/
theorem Working.remember (hs : Working s) (n : NodeId) {copy : NodeId}
    (hcopy : s.graph.Proper copy) :
    Onward s { s with nodeCopies := (n, copy) :: s.nodeCopies } := by
  refine ⟨.refl _, hs.separate, fun m copy' hm => ?_⟩
  by_cases hne : m = n
  · subst hne
    rw [List.lookup_cons_self] at hm
    obtain rfl := Option.some.inj hm
    exact hcopy
  · rw [lookup_cons_of_ne hne] at hm
    exact hs.copies m copy' hm

/-- **Copying a node**, by induction on how deep its operands are followed. -/
theorem copier_nodeFrom (target : BlockId) (fuel : Nat) : Copier (nodeFrom target fuel) := by
  induction fuel with
  | zero => exact fun n s hs _ => .throw hs
  | succ fuel ih =>
    intro n s hs hn
    obtain ⟨node, hnode, hcase⟩ := hn.unfold
    cases hcopied : s.nodeCopies.lookup n with
    | some copy => exact .of_ok (nodeFrom_of_copied hcopied) (.refl hs) (hs.copies n copy hcopied)
    | none =>
      by_cases hphi : node.kind = .phi
      · refine .of_error (e := .violation (.phiCloned n node.kind)) ?_ (.refl hs)
        rw [nodeFrom, get_bind]
        simp only [Session.nodeCopy?, hcopied]
        rw [get_bind]
        simp only [hnode, hphi, Kind.cloneStrategy]
        rfl
      by_cases hstrategy : node.kind.cloneStrategy = .unsupported
      · refine .of_error (e := .violation (.notCloneable n node.kind)) ?_ (.refl hs)
        rw [nodeFrom, get_bind]
        simp only [Session.nodeCopy?, hcopied]
        rw [get_bind]
        simp only [hnode, hstrategy]
        rfl
      obtain ⟨hmade, hoperands⟩ := hcase.resolve_left hphi
      refine .congr (nodeFrom_eq fuel hcopied hnode hphi hstrategy) ?_
      have hchildren := properChildren_of_operands hmade.inRange hoperands
      refine (behaves_children ih hs hchildren).bind fun c t ht hc => ?_
      have hmade' : t.graph.WellMade node :=
        ⟨fun hsome => ht.develops.roomier.admits (hmade.admits hsome),
          inRange_of_extends ht.develops.varArgs hmade.inRange⟩
      refine (behaves_payload ht.working hmade' hstrategy n).bind fun p u hu hp => ?_
      have happend : Behaves (fun copy v => v.graph.Proper copy) (tryGraph .defect
          (·.appendNode target { node with children := c, payload := p })) u :=
        behaves_appendNode hu.working hphi (hc.develops hu.develops) hp
      refine happend.bind fun copy v hv hcopy => ?_
      exact .of_ok rfl (hv.working.remember n hcopy) hcopy

theorem behaves_node (hs : Working s) (hn : s.graph.Proper n) :
    Behaves (fun copy t => t.graph.Proper copy) (Cloning.node target n) s := by
  unfold Cloning.node
  apply Behaves.get
  exact copier_nodeFrom target _ n s hs hn

/-! ## Blocks -/

/-- Listing a new phi in a block. -/
theorem sustains_withPhi (g : Graph) (target : BlockId) (hkind : node.kind = .phi) :
    Sustains g (withNode g target listPhi node) ∧
      (withNode g target listPhi node).isPhi g.nodes.size = true := by
  have hd := Develops.of_grows (grows_withNode g target listPhi node)
  have hphi : (withNode g target listPhi node).isPhi g.nodes.size = true :=
    isPhi_iff.2 ⟨node, node?_withNode_self g target listPhi node, hkind⟩
  refine ⟨.of_runs hd ?_ ?_, hphi⟩
  · rintro b p ⟨block, hb, hp⟩
    rcases block_cases_withNode hb with hb | ⟨_, old, hold, rfl⟩
    · exact .inl ⟨block, hb, hp⟩
    · rcases List.mem_append.1 hp with hp | hp
      · exact .inl ⟨old, hold, hp⟩
      · obtain rfl := List.mem_singleton.1 hp
        exact .inr hphi
  · rintro b m ⟨block, hb, hm⟩
    rcases block_cases_withNode hb with hb | ⟨_, old, hold, rfl⟩
    · exact ⟨block, hb, hm⟩
    · exact ⟨old, hold, hm⟩

theorem appendPhi_eq_ok {e : NodeId × Graph} (hok : g.appendPhi target node = .ok e) :
    e = (g.nodes.size, withNode g target listPhi node) := by
  unfold appendPhi at hok
  split at hok
  · cases hok
    rfl
  · cases hok

/-- Copying a phi. -/
theorem behaves_phi (hs : Working s) (hn : s.graph.isPhi n = true) :
    Behaves (fun _ _ => True) (phi target n) s := by
  obtain ⟨node, hnode, hkind⟩ := isPhi_iff.1 hn
  unfold phi
  apply Behaves.get
  simp only [hnode]
  have happend : Behaves (fun copy t => t.graph.Proper copy)
      (tryGraph .defect (·.appendPhi target { node with children := .none })) s := by
    refine .tryGraph hs fun copy g hok => ?_
    cases appendPhi_eq_ok hok
    have himage : { node with children := .none : Node }.kind = .phi := hkind
    obtain ⟨hsustains, hphi⟩ := sustains_withPhi s.graph target himage
    exact ⟨hsustains, proper_of_isPhi hphi⟩
  exact happend.bind fun copy t ht hcopy => .of_ok rfl (ht.working.remember n hcopy) trivial

theorem behaves_snapshot (hs : Working s) (source : BlockId) (operands : Snapshot) :
    Behaves (fun _ _ => True) (snapshot source operands) s := by
  unfold snapshot
  refine .foldlM hs (fun acc e t ht => ?_) _
  apply Behaves.get
  split
  · exact .pure ht trivial
  · exact .throw ht

theorem sustains_insertBlock (g : Graph) (executionCount : Float) :
    Sustains g (g.insertBlock executionCount).2 := by
  refine .of_grows (.of_eq rfl rfl rfl rfl rfl rfl rfl) fun b block hb => ?_
  have hpush : (g.insertBlock executionCount).2.block? b =
      if b = g.blocks.size then some (.ofCount g.blocks.size g.locals executionCount)
      else g.block? b :=
    block?_push g _ b
  rw [hpush] at hb
  split at hb
  · obtain rfl := Option.some.inj hb
    exact .inl ⟨rfl, rfl⟩
  · exact .inr ⟨block, hb, List.Subset.refl _, List.Subset.refl _⟩

theorem behaves_freshBlock (hs : Working s) (source : BlockId) (block : Block) :
    Behaves (fun _ _ => True) (freshBlock source block) s := by
  unfold freshBlock
  refine (Behaves.onGraph (P := fun _ _ => True) hs (sustains_insertBlock _ _) trivial).bind
    fun copy t ht _ => ?_
  have hflags (flags : BlockFlags) :
      Graph.Sustains t.graph (t.graph.modifyBlock copy fun b => { b with flags := flags }) :=
    .of_modifyBlock fun block => ⟨List.Subset.refl _, List.Subset.refl _⟩
  refine (Behaves.onGraph (P := fun _ _ => True) ht.working (hflags _) trivial).bind
    fun _ u hu _ => ?_
  exact .of_ok rfl ⟨.refl _, hu.working.separate, hu.working.copies⟩ trivial

/-- **Filling a copy** with phis, nodes and snapshots. -/
theorem behaves_fill (hs : Working s) (hphis : ∀ p ∈ block.phis, s.graph.isPhi p = true)
    (hnodes : ∀ n ∈ block.nodes, s.graph.Proper n) (source copy : BlockId) :
    Behaves (fun _ _ => True) (fill source copy block) s := by
  unfold fill
  refine (Behaves.forM hs fun p hp t ht =>
    behaves_phi ht.working (ht.develops.isPhi (hphis p hp))).bind fun _ t ht _ => ?_
  refine (Behaves.forM ht.working fun n hn u hu => (behaves_node hu.working
    ((ht.trans hu).develops.proper (hnodes n hn))).discard).bind fun _ u hu _ => ?_
  refine (behaves_snapshot hu.working source block.head).bind fun head v hv _ => ?_
  refine (behaves_snapshot hv.working source block.tail).bind fun tail w hw _ => ?_
  have hsnapshots : Graph.Sustains w.graph
      (w.graph.modifyBlock copy fun b => { b with head := head, tail := tail }) :=
    .of_modifyBlock fun block => ⟨List.Subset.refl _, List.Subset.refl _⟩
  exact .onGraph hw.working hsnapshots trivial

variable {hook : Hook}

theorem behaves_offer (hhook : hook.Sustains) (hs : Working s) (source copy : BlockId) :
    Behaves (fun _ _ => True) (offer hook source copy) s := by
  have hsustains := hhook source copy s.graph
  have honward : ∀ k, Graph.Sustains s.graph k →
      Onward s { s with graph := k, offered := s.offered ++ [(source, copy)] } := by
    intro k hk
    obtain ⟨hd, hw⟩ := hs.onto hk
    exact ⟨hd, hw.separate, hw.copies⟩
  cases hrun : hook source copy s.graph with
  | ok handled k =>
    rw [hrun] at hsustains
    exact .of_ok (a := handled) (by simp only [offer, hrun]) (honward k hsustains) trivial
  | error e k =>
    rw [hrun] at hsustains
    exact .of_error (e := e) (by simp only [offer, hrun]) (honward k hsustains)

/-- An edit of successors. -/
theorem behaves_edit (edit : Graph → Except Violation Graph) (hs : Working s)
    (hedit : ∀ h, edit s.graph = .ok h → Graph.Sustains s.graph h) :
    Behaves (fun _ _ => True)
      (tryGraph .violation fun g => (edit g).map fun g => ((), g)) s := by
  refine .tryGraph hs fun _ g hok => ⟨?_, trivial⟩
  cases hrun : edit s.graph with
  | error e => simp [hrun, Except.map] at hok
  | ok k =>
    simp only [hrun, Except.map, Except.ok.injEq, Prod.mk.injEq, true_and] at hok
    subst hok
    exact hedit k hrun

/-- Pointing the successors of a copy at copies. -/
theorem behaves_successors {copyBlock : BlockId → Cloning BlockId}
    (hcopy : ∀ b t, Working t → Behaves (fun _ _ => True) (copyBlock b) t) (hs : Working s)
    (source copy : BlockId) : Behaves (fun _ _ => True) (successors copyBlock source copy) s := by
  unfold successors
  apply Behaves.get
  refine .forM hs fun slot _ t ht => ?_
  apply Behaves.get
  split
  · exact .throw ht.working
  · rename_i successor _
    exact (hcopy successor t ht.working).bind fun copy' u hu _ =>
      behaves_edit (·.setSuccessor copy slot copy') hu.working fun _ => sustains_setSuccessor

/-- **Copying a block and what it leads to**, by induction on how deep the work goes. -/
theorem behaves_blockFrom (hhook : hook.Sustains) (fuel : Nat) (source : BlockId) (hs : Working s) :
    Behaves (fun _ _ => True) (blockFrom hook fuel source) s := by
  induction fuel generalizing s source with
  | zero => exact .throw hs
  | succ fuel ih =>
    unfold blockFrom
    apply Behaves.get
    split
    · exact .pure hs trivial
    apply Behaves.get
    split
    · exact .throw hs
    rename_i block hb
    refine (behaves_freshBlock hs source block).bind fun copy t ht _ => ?_
    have hphis : ∀ p ∈ block.phis, t.graph.isPhi p = true := fun p hp =>
      ht.develops.isPhi (hs.separate.phi source p ⟨block, hb, hp⟩)
    have hnodes : ∀ n ∈ block.nodes, t.graph.Proper n := fun n hn =>
      ht.develops.proper (hs.separate.proper source n ⟨block, hb, hn⟩)
    refine (behaves_fill ht.working hphis hnodes source copy).bind fun _ u hu _ => ?_
    refine (behaves_offer hhook hu.working source copy).bind fun handled v hv _ => ?_
    cases handled with
    | true => exact .pure hv.working trivial
    | false =>
      refine (behaves_successors (fun b t ht => ih b ht) hv.working source copy).bind
        fun _ w hw _ => .pure hw.working trivial

theorem behaves_block (hhook : hook.Sustains) (source : BlockId) (reach : Nat) (hs : Working s) :
    Behaves (fun _ _ => True) (Cloning.block hook source reach) s := by
  unfold Cloning.block
  apply Behaves.get
  exact behaves_blockFrom hhook _ source hs

theorem behaves_clear (hs : Working s) : Behaves (fun _ _ => True) clear s :=
  .of_ok rfl ⟨.refl _, hs.separate, by simp [Session.clear]⟩ trivial

theorem sustains_finalize (s : Session) : Graph.Sustains s.graph s.finalize.2.graph := by
  have hcommit := sustains_commitInsertions s.graph
  have hclean : ∀ (committed : Bool) (k : Graph), Graph.Sustains k
      (if committed then k else k.invalidate.dethread).resetReachability.killUnreachable.2 := by
    intro committed k
    have hdethread : Graph.Sustains k (if committed then k else k.invalidate.dethread) := by
      cases committed
      · exact (sustains_invalidate k).trans (sustains_dethread _)
      · exact .refl k
    exact (hdethread.trans (sustains_resetReachability _)).trans (sustains_killUnreachable _)
  exact hcommit.trans (hclean s.graph.commitInsertions.1 _)

theorem behaves_finalize (hs : Working s) : Behaves (fun _ _ => True) finalize s := by
  cases hphis : s.graph.requirePhis with
  | error e => exact .of_error (e := e) (by rw [finalize, hphis]) (.refl hs)
  | ok _ =>
    have hok : finalize s = .ok s.finalize.1 s.finalize.2 := by rw [finalize, hphis]
    exact .of_ok hok (hs.onto (sustains_finalize s)) trivial

end Cloning

end Unroller
