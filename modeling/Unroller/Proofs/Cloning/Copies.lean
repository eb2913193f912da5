import Mathlib.Tactic
import Unroller.Proofs.Cloning.Filling
import Unroller.Proofs.Graph.Cut

/-!
# Graphs with a copied block

Right after it was filled, the copy of a block leads where its source leads, and it shares its
record of targets with no other block.

* `BlockCopied.image`, `BlockCopied.successor?_eq`: it does what the source does.
* `BlockCopied.sound`: the graph is sound if it was.
* `BlockCopied.owned`: the copy has a record of its own.
* `Enlarged`: a graph with further blocks that are in order; it stays one when another block is
  copied, and when a further block is led elsewhere or cut short.
-/

namespace Unroller.Cloning

open Unroller.Graph

variable {g h : Graph} {b c d : BlockId} {n : NodeId} {node : Node} {block copy : Block}
  {rename : NodeId → NodeId}

namespace Replica

variable (hr : Replica g block h copy rename)

include hr

/-- The terminal of the copy is the copy of the terminal. -/
theorem terminalNode?_replica (hw : g.WellFormed) (hb : g.block? b = some block)
    (hc : h.block? c = some copy) :
    ∃ last node image, g.terminalNode? b = some (last, node) ∧
      h.terminalNode? c = some (rename last, image) ∧ CopyOf g node h image rename := by
  obtain ⟨body, last, node, hsplit, hlast, hok, hterm⟩ := hw.terminal hb
  obtain ⟨image, himage, hcopy⟩ := hr.node last (by simp [hsplit]) node hlast
  refine ⟨last, node, image, hterm, terminalNode?_eq_some_iff.2
    ⟨copy, hc, by simp [hr.nodes, hsplit], himage, ?_⟩, hcopy⟩
  rw [hcopy.kind]
  simpa using hok.terminal

theorem successor?_replica (hw : g.WellFormed) (hb : g.block? b = some block)
    (hc : h.block? c = some copy) (slot : Nat) : h.successor? c slot = g.successor? b slot := by
  obtain ⟨last, node, image, hterm, hterm', hcopy⟩ := hr.terminalNode?_replica hw hb hc
  rw [successor?, successor?, hterm, hterm']
  exact hcopy.slotTarget slot

end Replica

namespace BlockCopied

variable (hc : BlockCopied g block h copy rename)

include hc

theorem block?_copy : h.block? g.blocks.size = some copy := by
  rw [hc.block?, if_pos rfl]

theorem block_cases {other : Block} (hd : h.block? d = some other) :
    (d = g.blocks.size ∧ other = copy) ∨ g.block? d = some other := by
  rw [hc.block?] at hd
  split at hd
  · exact .inl ⟨by assumption, (Option.some.inj hd).symm⟩
  · exact .inr hd

theorem isLive (hd : g.isLive d = true) : h.isLive d = true := by
  obtain ⟨other, hother⟩ := isLive_iff.1 hd
  rw [Graph.isLive, hc.block?]
  split
  · rfl
  · simp [hother]

theorem image : BlockImage g block h copy rename := by
  refine ⟨hc.nodes, hc.injective, ?_⟩
  intro n hn node hnode
  obtain ⟨image, himage, hcopy⟩ := hc.node n hn node hnode
  exact ⟨image, himage, hcopy.nodeImage⟩

theorem terminalNode?_copy (hw : g.WellFormed) (hb : g.block? b = some block) :
    ∃ last node image, g.terminalNode? b = some (last, node) ∧
      h.terminalNode? g.blocks.size = some (rename last, image) ∧
      CopyOf g node h image rename :=
  hc.toReplica.terminalNode?_replica hw hb hc.block?_copy

theorem successor?_eq (hw : g.WellFormed) (hb : g.block? b = some block) (slot : Nat) :
    h.successor? g.blocks.size slot = g.successor? b slot :=
  hc.toReplica.successor?_replica hw hb hc.block?_copy slot

theorem successorCount_eq (hw : g.WellFormed) (hb : g.block? b = some block) :
    h.successorCount g.blocks.size = g.successorCount b := by
  obtain ⟨last, node, image, hterm, hterm', hcopy⟩ := hc.terminalNode?_copy hw hb
  rw [successorCount, successorCount, hterm, hterm']
  exact hcopy.slotCount

/-- The terminal of a block that was there is the same. -/
theorem terminalNode?_old (hw : g.WellFormed) (hd : d ≠ g.blocks.size) :
    h.terminalNode? d = g.terminalNode? d := by
  cases hblock : g.block? d with
  | none => simp [terminalNode?, hc.block?, if_neg hd, hblock]
  | some other =>
    obtain ⟨body, last, node, hsplit, hlast, hok, hterm⟩ := hw.terminal hblock
    rw [hterm]
    exact terminalNode?_eq_some_iff.2 ⟨other, by rw [hc.block?, if_neg hd, hblock],
      by simp [hsplit], hc.grows.node?_of_some hlast, by simpa using hok.terminal⟩

theorem sameCode (hw : g.WellFormed) (hd : g.isLive d = true) : SameCode g h d := by
  obtain ⟨other, hother⟩ := isLive_iff.1 hd
  refine hc.grows.sameCode hw hother ?_
  rw [hc.block?, if_neg (Nat.ne_of_lt (lt_size_of_block? hother)), hother]

end BlockCopied

/-! ## Records of their own -/

theorem BlockCopied.owned (hc : BlockCopied g block h copy rename) (hw : g.WellFormed)
    (hb : g.block? b = some block) {first : BlockId} (ho : Owned first g) : Owned first h := by
  -- an old record is no record of the copy
  have hnew : ∀ d, d ≠ g.blocks.size → ¬ SharesRecord h g.blocks.size d := by
    rintro d hd ⟨e, f, r, he, hf, hshare⟩
    obtain ⟨last, node, image, _, hterm, hcopy⟩ := hc.terminalNode?_copy hw hb
    rw [hterm] at he
    obtain rfl := Option.some.inj he
    rw [hc.terminalNode?_old hw hd] at hf
    obtain ⟨m, node'⟩ := f
    obtain ⟨other, hother, hlast, hnode', _⟩ := terminalNode?_eq_some_iff.1 hf
    obtain ⟨body, last', node'', _, hlast', hok, hterm'⟩ := hw.terminal hother
    rw [hf] at hterm'
    obtain ⟨rfl, rfl⟩ : m = last' ∧ node' = node'' := by simpa using hterm'
    have hrecord := recordIn_of_admits hok.admits
    rcases hshare with ⟨himage, hp⟩ | ⟨himage, hp⟩
    · have hp : node'.payload = .branch r := hp
      rw [hp] at hrecord
      exact Nat.not_lt.2 (hcopy.branch himage) hrecord
    · have hp : node'.payload = .switch r := hp
      rw [hp] at hrecord
      exact Nat.not_lt.2 (hcopy.switchTable himage) hrecord
  intro c d hfirst hne hshare
  by_cases hcnew : c = g.blocks.size
  · exact hnew d (hcnew ▸ hne) (hcnew ▸ hshare)
  · by_cases hdnew : d = g.blocks.size
    · exact hnew c hcnew (hdnew ▸ hshare.symm)
    · obtain ⟨e, f, r, he, hf, h⟩ := hshare
      rw [hc.terminalNode?_old hw hcnew] at he
      rw [hc.terminalNode?_old hw hdnew] at hf
      exact ho c d hfirst hne ⟨e, f, r, he, hf, h⟩

/-! ## Soundness -/

namespace BlockCopied

variable (hc : BlockCopied g block h copy rename)

include hc

theorem block?_of_some {other : Block} (hd : g.block? d = some other) :
    h.block? d = some other := by
  rw [hc.block?, if_neg (Nat.ne_of_lt (lt_size_of_block? hd)), hd]

theorem imageOk (hw : g.WellFormed) (hb : g.block? b = some block) :
    ImageOk g block h g.blocks.size copy rename := by
  refine ⟨hc.phis, ?_, ?_, hc.nodes, hc.pad, ?_⟩
  · intro n hn
    obtain ⟨node, hnode⟩ :=
      exists_node? (hw.exists_node b block hb n (List.mem_append_left _ hn))
    have hkind : node.kind = .phi := by
      have := (hw.block b block hb).phis n hn
      simpa [isPhi, hnode] using this
    refine ⟨_, hc.phi n hn node hnode, hkind, trivial, ?_⟩
    intro c hmem
    exact absurd hmem (by simp [operands, edgesOf, Children.none, Edge.empty])
  · intro n hn node hnode
    obtain ⟨image, himage, hcopy⟩ := hc.node n hn node hnode
    refine ⟨image, himage, hcopy.kind, hcopy.admits, hcopy.inRange, ?_⟩
    intro d hd
    rw [hcopy.all_operands] at hd
    obtain ⟨d', hd', rfl⟩ := List.mem_map.1 hd
    exact ⟨d', hd', rfl⟩
  · intro slot hslot
    rw [hc.successorCount_eq hw hb] at hslot
    obtain ⟨t, ht, hlive⟩ := (hw.block b block hb).successor slot hslot
    exact ⟨t, by rw [hc.successor?_eq hw hb, ht], hc.isLive hlive⟩

theorem wellFormed (hw : g.WellFormed) (hb : g.block? b = some block) : h.WellFormed := by
  have hexists : ∀ n ∈ block.phis ++ block.nodes, rename n < h.nodes.size := by
    intro n hn
    obtain ⟨node, hnode⟩ := exists_node? (hw.exists_node b block hb n hn)
    rcases List.mem_append.1 hn with hn | hn
    · exact lt_size_of_node? (hc.phi n hn node hnode)
    · obtain ⟨image, himage, _⟩ := hc.node n hn node hnode
      exact lt_size_of_node? himage
  have hlisted : copy.phis ++ copy.nodes = (block.phis ++ block.nodes).map rename := by
    rw [hc.phis, hc.nodes, List.map_append]
  -- what the copy lists was not there before
  have hapart : ∀ d other n, g.block? d = some other → n ∈ other.phis ++ other.nodes →
      n ∉ copy.phis ++ copy.nodes := by
    intro d other n hd hn hmem
    rw [hlisted] at hmem
    obtain ⟨m, _, rfl⟩ := List.mem_map.1 hmem
    exact Nat.not_lt.2 (hc.fresh m) (hw.exists_node d other hd _ hn)
  refine
    { entry_live := hc.isLive hw.entry_live
      numbered := ?numbered
      exists_node := ?exists_node
      nodup := ?nodup
      apart := ?apart
      block := ?block }
  case numbered =>
    intro d other hd
    rcases hc.block_cases hd with ⟨rfl, rfl⟩ | hd
    · exact hc.index
    · exact hw.numbered d other hd
  case exists_node =>
    intro d other hd n hn
    rcases hc.block_cases hd with ⟨rfl, rfl⟩ | hd
    · rw [hlisted] at hn
      obtain ⟨m, hm, rfl⟩ := List.mem_map.1 hn
      exact hexists m hm
    · exact lt_of_lt_of_le (hw.exists_node d other hd n hn) hc.grows.nodes.size_le
  case nodup =>
    intro d other hd
    rcases hc.block_cases hd with ⟨rfl, rfl⟩ | hd
    · rw [hlisted]
      exact (hw.nodup b block hb).map_on hc.injective
    · exact hw.nodup d other hd
  case apart =>
    intro d other d' other' n hd hd' hn hn'
    rcases hc.block_cases hd with ⟨rfl, rfl⟩ | hd <;>
      rcases hc.block_cases hd' with ⟨rfl, rfl⟩ | hd'
    · rfl
    · exact absurd hn (hapart d' other' n hd' hn')
    · exact absurd hn' (hapart d other n hd hn)
    · exact hw.apart d other d' other' n hd hd' hn hn'
  case block =>
    intro d other hd
    rcases hc.block_cases hd with ⟨rfl, rfl⟩ | hd
    · exact (hw.block b block hb).of_image
        (fun n hn => exists_node? (hw.exists_node b block hb n (List.mem_append_right _ hn)))
        (hc.imageOk hw hb)
    · refine hc.grows.blockOk hw hd (hc.block?_of_some hd) (fun _ => hc.isLive) ?_
      intro n hn node hnode c hmem
      obtain ⟨d', other', hd', hmem'⟩ := ((hw.block d other hd).phi n hn node hnode).listed c hmem
      exact ⟨d', other', hc.block?_of_some hd', hmem'⟩

/-- The nodes of the copy use no phis of it, reads of locals apart. -/
theorem phi_use_copy (hg : g.Sound) (hb : g.block? b = some block) (hn : n ∈ copy.nodes)
    (hnode : h.node? n = some node) (hget : node.kind ≠ .getLocal) :
    ∀ c ∈ h.operands node, c ∉ copy.phis := by
  intro c hmem hphi
  have hw := hg.wellFormed
  rw [hc.nodes] at hn
  obtain ⟨m, hm, rfl⟩ := List.mem_map.1 hn
  obtain ⟨old, hold⟩ := exists_node? (hw.exists_node b block hb m (List.mem_append_right _ hm))
  obtain ⟨image, himage, hcopy⟩ := hc.node m hm old hold
  rw [hnode] at himage
  obtain rfl := Option.some.inj himage
  rw [hcopy.all_operands] at hmem
  obtain ⟨c', hc', rfl⟩ := List.mem_map.1 hmem
  rw [hc.phis] at hphi
  obtain ⟨p, hp, heq⟩ := List.mem_map.1 hphi
  obtain ⟨before, after, hsplit⟩ := List.append_of_mem hm
  have hvisible := ((hw.block b block hb).node before m after hsplit old hold).visible c' hc'
  have hlisted : c' ∈ block.phis ++ block.nodes := by
    rcases hvisible with hv | hv
    · simp [hsplit, hv]
    · simp [hv]
  obtain rfl := hc.injective p (List.mem_append_left _ hp) c' hlisted heq
  exact hg.phi_use b block hb m hm old hold (fun hk => hget (hcopy.kind.trans hk)) p hc' hp

/-- **A graph with a copied block** is sound if it was. -/
theorem sound (hg : g.Sound) (hb : g.block? b = some block) : h.Sound := by
  have hw := hg.wellFormed
  refine
    { wellFormed := hc.wellFormed hw hb
      pad := ?pad
      phi_use := ?phi_use
      snapshot := ?snapshot
      phi_operand := ?phi_operand }
  case pad =>
    intro d other hd hpad
    rcases hc.block_cases hd with ⟨rfl, rfl⟩ | hd
    · obtain ⟨n, node, heq, hnode, hkind⟩ := hg.pad b block hb (hc.pad ▸ hpad)
      obtain ⟨image, himage, hcopy⟩ := hc.node n (by simp [heq]) node hnode
      exact ⟨rename n, image, by simp [hc.nodes, heq], himage, hcopy.kind.trans hkind⟩
    · obtain ⟨n, node, heq, hnode, hkind⟩ := hg.pad d other hd hpad
      exact ⟨n, node, heq, hc.grows.node?_of_some hnode, hkind⟩
  case phi_use =>
    intro d other hd n hn node hnode hget
    rcases hc.block_cases hd with ⟨rfl, rfl⟩ | hd
    · exact hc.phi_use_copy hg hb hn hnode hget
    · exact hc.grows.phi_use hg hd hn hnode hget
  case snapshot =>
    intro d other hd n hn
    rcases hc.block_cases hd with ⟨rfl, rfl⟩ | hd
    · obtain ⟨m, hm, rfl⟩ := hc.recorded hn
      have hmem := hg.snapshot b block hb m hm
      rw [hc.phis, hc.nodes, ← List.map_dropLast, ← List.map_append]
      exact List.mem_map_of_mem hmem
    · exact hg.snapshot d other hd n hn
  case phi_operand =>
    intro d other hd n hn node hnode c hmem
    rcases hc.block_cases hd with ⟨rfl, rfl⟩ | hd
    · rw [hc.phis] at hn
      obtain ⟨m, hm, rfl⟩ := List.mem_map.1 hn
      obtain ⟨old, holdNode⟩ :=
        exists_node? (hw.exists_node b block hb m (List.mem_append_left _ hm))
      have himage := hc.phi m hm old holdNode
      rw [hnode] at himage
      obtain rfl := Option.some.inj himage
      exact absurd hmem (by simp [operands, edgesOf, Children.none, Edge.empty])
    · rw [hc.grows.node?_of_mem hw hd (List.mem_append_left _ hn)] at hnode
      rw [hc.grows.operands_eq ((hw.block d other hd).phi n hn node hnode).inRange] at hmem
      obtain ⟨d', other', hd', hmem'⟩ := hg.phi_operand d other hd n hn node hnode c hmem
      exact ⟨d', other', hc.block?_of_some hd', hmem'⟩

theorem unlinked (hw : g.WellFormed) (hb : g.block? b = some block) (hu : g.Unlinked) :
    h.Unlinked := by
  intro d other hd n hn node hnode
  rcases hc.block_cases hd with ⟨rfl, rfl⟩ | hd
  · rw [hc.phis] at hn
    obtain ⟨m, hm, rfl⟩ := List.mem_map.1 hn
    obtain ⟨old, hold⟩ := exists_node? (hw.exists_node b block hb m (List.mem_append_left _ hm))
    have himage := hc.phi m hm old hold
    rw [hnode] at himage
    obtain rfl := Option.some.inj himage
    rfl
  · obtain ⟨old, hold⟩ := exists_node? (hw.exists_node d other hd n (List.mem_append_left _ hn))
    rw [hc.grows.node?_of_some hold] at hnode
    obtain rfl := Option.some.inj hnode
    rw [hc.grows.operands_eq ((hw.block d other hd).phi n hn old hold).inRange]
    exact hu d other hd n hn old hold

end BlockCopied

/-! ## Graphs with further blocks -/

/-- A sound graph with the blocks of `g` and further ones, which have records of their own. -/
structure Enlarged (g h : Graph) : Prop where
  sound : h.Sound
  form : h.form = g.form
  unlinked : g.Unlinked → h.Unlinked
  size_le : g.blocks.size ≤ h.blocks.size
  block? : ∀ b < g.blocks.size, h.block? b = g.block? b
  sameCode : ∀ b, g.isLive b = true → SameCode g h b
  owned : Owned g.blocks.size h

namespace Enlarged

variable {k : Graph} {t : BlockId} {slot : Nat}

theorem refl (hg : g.Sound) : Enlarged g g := by
  refine ⟨hg, rfl, id, Nat.le_refl _, fun _ _ => rfl, fun _ => .refl, ?_⟩
  rintro c d hsize _ ⟨e, f, r, he, _⟩
  obtain ⟨block, hb, _⟩ := terminalNode?_eq_some_iff.1 he
  exact Nat.not_lt.2 hsize (lt_size_of_block? hb)

variable (he : Enlarged g h)

include he

theorem copied (hc : BlockCopied h block k copy rename) (hb : h.block? b = some block) :
    Enlarged g k := by
  have hw := he.sound.wellFormed
  refine ⟨hc.sound he.sound hb, hc.grows.form.trans he.form,
    fun hu => hc.unlinked hw hb (he.unlinked hu), ?_, ?_, ?_, hc.owned hw hb he.owned⟩
  · rw [hc.size_blocks]
    exact Nat.le_succ_of_le he.size_le
  · intro d hd
    rw [hc.block?, if_neg (Nat.ne_of_lt (Nat.lt_of_lt_of_le hd he.size_le)), he.block? d hd]
  · intro d hd
    have hsame := he.sameCode d hd
    exact hsame.trans (hc.sameCode hw hsame.isLive)

/-- A further block that is led elsewhere takes no other block with it. -/
theorem sameCode_redirected (hr : Redirected h c slot t k) (hc : g.blocks.size ≤ c)
    (hd : h.isLive d = true) (hne : d ≠ c) : SameCode h k d :=
  hr.toRetargeted.sameCode hd (hr.apart d hne (he.owned c d hc hne))

theorem redirected (hr : Redirected h c slot t k) (hc : g.blocks.size ≤ c)
    (ht : h.isLive t = true) : Enlarged g k := by
  refine ⟨hr.sound he.sound ht, hr.form.trans he.form,
    fun hu => hr.toRetargeted.unlinked (he.unlinked hu), ?_, ?_, ?_, hr.toRetargeted.owned he.owned⟩
  · rw [hr.blocks]
    exact he.size_le
  · intro d hd
    rw [hr.toRetargeted.block?_eq, he.block? d hd]
  · intro d hd
    have hsame := he.sameCode d hd
    obtain ⟨other, hother⟩ := isLive_iff.1 hd
    refine hsame.trans (he.sameCode_redirected hr hc hsame.isLive ?_)
    exact Nat.ne_of_lt (Nat.lt_of_lt_of_le (lt_size_of_block? hother) hc)

theorem cut {last : Node} {kept : List NodeId} {jump : NodeId} (hb : h.block? c = some block)
    (hterm : h.terminalNode? c = some (n, last)) (hkind : last.kind ≠ .jump)
    (hk : Cut h c block last t kept jump k) (hc : g.blocks.size ≤ c) (ht : h.isLive t = true) :
    Enlarged g k := by
  have hw := he.sound.wellFormed
  refine ⟨hk.sound he.sound hb hterm hkind ht, hk.grows.form.trans he.form,
    fun hu => hk.unlinked hw hb (he.unlinked hu), ?_, ?_, ?_, hk.owned hw he.owned⟩
  · rw [hk.size_blocks]
    exact he.size_le
  · intro d hd
    rw [hk.block?_of_ne (Nat.ne_of_lt (Nat.lt_of_lt_of_le hd hc)), he.block? d hd]
  · intro d hd
    have hsame := he.sameCode d hd
    obtain ⟨other, hother⟩ := isLive_iff.1 hd
    refine hsame.trans (hk.sameCode hw hsame.isLive ?_)
    exact Nat.ne_of_lt (Nat.lt_of_lt_of_le (lt_size_of_block? hother) hc)

end Enlarged

end Unroller.Cloning
