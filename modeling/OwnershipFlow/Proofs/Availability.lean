import Mathlib.Data.List.Induction
import OwnershipFlow.Proofs.Effects
import OwnershipFlow.Proofs.Fixpoint
import OwnershipFlow.Proofs.FlowGraph
import OwnershipFlow.Proofs.Reachability

/-!
# Availability along all walks

What the analysis finds at the start of a block is what is held along every walk from the entry
(`mem_heldAtStart?_iff`), where a walk starts with the parameters owned at entry and performs the
commands of the blocks that it leaves (`Program.along`). Three facts lead there.

The passes come to an end. At every stage of a pass, computing the end of a block anew can only
make it smaller (`Falling`), so every change lowers the total size of the sets (`potential`).

Nothing is lost: a variable that is held along every walk through a block is among those found at
its end, however far the passes have got (`Covering`). This rests on the distributivity of
effects.

Nothing is left over: where the passes stand still, what is found at the start of a block is held
along each single walk to it, by induction on the walk from its end.
-/

set_option autoImplicit false
set_option relaxedAutoImplicit false

namespace OwnershipFlow

variable {p : Program} {imp : Implementation} {g : FlowGraph} {next : BlockId → List BlockId}
  {held entrySet : VarSet} {b u x entry : BlockId} {block : Block} {v : VarId}

namespace Program

/-- What is held after the commands of a block. -/
def transferBlock (p : Program) (imp : Implementation) (b : BlockId) (held : VarSet) : VarSet :=
  (imp.block? b).elim held fun block ↦ p.transferAll block.commands held

/-- What is held after the commands of the blocks that a walk leaves. -/
def along (p : Program) (imp : Implementation) (left : List BlockId) (held : VarSet) : VarSet :=
  left.foldl (fun held b ↦ p.transferBlock imp b held) held

theorem along_snoc {left : List BlockId} :
    p.along imp (left ++ [b]) held = p.transferBlock imp b (p.along imp left held) :=
  List.foldl_concat ..

theorem transferBlock_of_block? (h : imp.block? b = some block) :
    p.transferBlock imp b held = p.transferAll block.commands held := by
  rw [transferBlock, h, Option.elim_some]

theorem mem_transferBlock_mono {other : VarSet} (hsub : ∀ v ∈ held, v ∈ other)
    (h : v ∈ p.transferBlock imp b held) : v ∈ p.transferBlock imp b other := by
  cases hblock : imp.block? b with
  | none =>
    rw [transferBlock, hblock] at h ⊢
    exact hsub v h
  | some block =>
    rw [transferBlock_of_block? hblock] at h ⊢
    exact mem_transferAll_mono hsub h

theorem isTracked_of_mem_transferBlock (hheld : ∀ v ∈ held, p.isTracked v) :
    ∀ v ∈ p.transferBlock imp b held, p.isTracked v := by
  cases hblock : imp.block? b with
  | none =>
    rw [transferBlock, hblock]
    exact hheld
  | some block =>
    rw [transferBlock_of_block? hblock]
    exact isTracked_of_mem_transferAll hheld

end Program

namespace Availability

variable {ends : Outs}

/-! ### The start of a block -/

/-- Joining the ends of blocks gives nothing only if there is nothing to join. -/
theorem foldl_join_eq_none_iff {blocks : List BlockId} {held? : Option VarSet} :
    blocks.foldl (fun held? u ↦ ends[u]?.elim held? (join held?)) held? = none ↔
      held? = none ∧ ∀ u ∈ blocks, u ∉ ends := by
  induction blocks generalizing held? with
  | nil => simp
  | cons u rest ih =>
    rw [List.foldl_cons, ih, List.forall_mem_cons, ← and_assoc]
    refine and_congr_left fun _ ↦ ?_
    rw [Std.ExtTreeMap.mem_iff_isSome_getElem?]
    cases hu : ends[u]? with
    | none => simp
    | some out => simp [join]

/-- Joining the ends of blocks gives what all of them hold. -/
theorem mem_foldl_join {blocks : List BlockId} {held? : Option VarSet}
    (h : blocks.foldl (fun held? u ↦ ends[u]?.elim held? (join held?)) held? = some held) :
    v ∈ held ↔ (∀ first, held? = some first → v ∈ first) ∧
      ∀ u ∈ blocks, ∀ out, ends[u]? = some out → v ∈ out := by
  induction blocks generalizing held? with
  | nil =>
    obtain rfl : held? = some held := h
    simp
  | cons u rest ih =>
    rw [List.foldl_cons] at h
    rw [ih h, List.forall_mem_cons, ← and_assoc]
    refine and_congr_left fun _ ↦ ?_
    cases hu : ends[u]? with
    | none => simp
    | some out =>
      cases held? with
      | none => simp [join]
      | some first => simp [join]

/-- The start of a block has been reached if it is the entry or the end of a predecessor has. -/
theorem heldAtStart?_eq_none_iff :
    heldAtStart? g entrySet ends b = none ↔ b ≠ g.entry ∧ ∀ u ∈ g.prior b, u ∉ ends := by
  rw [heldAtStart?, foldl_join_eq_none_iff, ite_eq_right_iff]
  simp

/-- What is held at the start of a block is held at the end of every predecessor that has been
reached, and, at the entry, from outside. -/
theorem mem_heldAtStart? (h : heldAtStart? g entrySet ends b = some held) :
    v ∈ held ↔ (b = g.entry → v ∈ entrySet) ∧
      ∀ u ∈ g.prior b, ∀ out, ends[u]? = some out → v ∈ out := by
  rw [mem_foldl_join h]
  refine and_congr_left fun _ ↦ ?_
  by_cases hb : b = g.entry <;> simp [hb]

/-- Lowering the end of a block lowers what is held at starts. -/
theorem heldAtStart?_insert {new : VarSet}
    (hless : ∀ out, ends[b]? = some out → ∀ v ∈ new, v ∈ out)
    (hx : heldAtStart? g entrySet ends x = some held) :
    ∃ lower, heldAtStart? g entrySet (ends.insert b new) x = some lower ∧
      ∀ v ∈ lower, v ∈ held := by
  have hsome : heldAtStart? g entrySet (ends.insert b new) x ≠ none := by
    rw [Ne, heldAtStart?_eq_none_iff]
    rintro ⟨hentry, hprior⟩
    rw [heldAtStart?_eq_none_iff.mpr
      ⟨hentry, fun u hu hmem ↦ hprior u hu (mem_map_insert.mpr (Or.inr hmem))⟩] at hx
    cases hx
  obtain ⟨lower, hlower⟩ := Option.ne_none_iff_exists'.mp hsome
  refine ⟨lower, hlower, fun v hv ↦ ?_⟩
  rw [mem_heldAtStart? hlower] at hv
  rw [mem_heldAtStart? hx]
  refine ⟨hv.1, fun u hu out hout ↦ ?_⟩
  by_cases hub : b = u
  · subst hub
    exact hless out hout v (hv.2 b hu new (by rw [getElem?_map_insert, if_pos rfl]))
  · exact hv.2 u hu out (by rw [getElem?_map_insert, if_neg hub, hout])

/-! ### The passes end -/

/-- What holds of the ends of blocks when a pass has revised the first blocks of the order. -/
structure Falling (p : Program) (imp : Implementation) (g : FlowGraph) (revised : List BlockId)
    (ends : Outs) : Prop where
  mem_revised : ∀ b ∈ revised, b ∈ ends
  tracked : ∀ (b : BlockId) out, ends[b]? = some out → ∀ v ∈ out, p.isTracked v
  /-- Computing the end of a block anew does not make it larger. -/
  falls : ∀ (b : BlockId) out, ends[b]? = some out →
    ∃ held, heldAtStart? g (p.heldAtEntry imp) ends b = some held ∧
      ∀ v ∈ p.transferBlock imp b held, v ∈ out

/-- The total size of the sets at the ends of blocks, where a block that has not been reached counts
as more than any set. -/
def potential (p : Program) (g : FlowGraph) (ends : Outs) : Nat :=
  (g.rpo.map fun b ↦ ends[b]?.elim (p.vars.length + 1) (·.size)).sum

theorem falling_empty : Falling p imp g [] ∅ where
  mem_revised _ hb := absurd hb List.not_mem_nil
  tracked _ out hout := by simp at hout
  falls _ out hout := by simp at hout

/-- What holds when a pass is over holds when the next one starts. -/
theorem Falling.restart {revised : List BlockId} (h : Falling p imp g revised ends) :
    Falling p imp g [] ends where
  mem_revised _ hb := absurd hb List.not_mem_nil
  tracked := h.tracked
  falls := h.falls

/-- Where only tracked variables are held at the ends of blocks, so it is at starts. -/
theorem tracked_of_heldAtStart?
    (htracked : ∀ (b : BlockId) out, ends[b]? = some out → ∀ v ∈ out, p.isTracked v)
    (hheld : heldAtStart? g (p.heldAtEntry imp) ends b = some held) :
    ∀ v ∈ held, p.isTracked v := by
  intro v hv
  rw [mem_heldAtStart? hheld] at hv
  by_cases hb : b = g.entry
  · exact Program.isTracked_of_mem_heldAtEntry (hv.1 hb)
  · have hreached : ¬ ∀ u ∈ g.prior b, u ∉ ends := by
      intro hnone
      rw [heldAtStart?_eq_none_iff.mpr ⟨hb, hnone⟩] at hheld
      cases hheld
    push Not at hreached
    obtain ⟨u, hu, hmem⟩ := hreached
    obtain ⟨out, hout⟩ :=
      Option.isSome_iff_exists.mp (Std.ExtTreeMap.mem_iff_isSome_getElem?.mp hmem)
    exact htracked u out hout v (hv.2 u hu out hout)

theorem revise_eq (hblock : imp.block? b = some block)
    (hheld : heldAtStart? g (p.heldAtEntry imp) ends b = some held) :
    revise p imp g ends b = ends.insert b (p.transferBlock imp b held) := by
  rw [revise, hblock, hheld, Program.transferBlock_of_block? hblock]

section Pass

variable (hordered : Dominators.Ordered g.rpo g.prior g.entry)
  (hblocks : ∀ b ∈ g.rpo, ∃ block, imp.block? b = some block) {revised rest : List BlockId}
  (hsplit : g.rpo = revised ++ b :: rest)

include hordered hblocks hsplit

/-- The start of the next block has been reached, and its end does not grow. -/
theorem revise_spec (h : Falling p imp g revised ends) :
    ∃ held, heldAtStart? g (p.heldAtEntry imp) ends b = some held ∧
      revise p imp g ends b = ends.insert b (p.transferBlock imp b held) ∧
      ∀ out, ends[b]? = some out → ∀ v ∈ p.transferBlock imp b held, v ∈ out := by
  have hb : b ∈ g.rpo := by simp [hsplit]
  have hsome : heldAtStart? g (p.heldAtEntry imp) ends b ≠ none := by
    rw [Ne, heldAtStart?_eq_none_iff]
    rintro ⟨hentry, hprior⟩
    obtain ⟨u, hu, -, hlt⟩ := hordered.earlier b hb hentry
    exact hprior u hu (h.mem_revised u (mem_of_idxOf_lt hsplit hlt))
  obtain ⟨held, hheld⟩ := Option.ne_none_iff_exists'.mp hsome
  obtain ⟨block, hblock⟩ := hblocks b hb
  refine ⟨held, hheld, revise_eq hblock hheld, fun out hout ↦ ?_⟩
  obtain ⟨held', hheld', hfalls⟩ := h.falls b out hout
  rw [hheld] at hheld'
  exact Option.some.inj hheld' ▸ hfalls

/-- Revising the next block keeps what holds during a pass. -/
theorem Falling.revise (h : Falling p imp g revised ends) :
    Falling p imp g (revised ++ [b]) (revise p imp g ends b) := by
  obtain ⟨held, hheld, hrevise, hless⟩ := revise_spec hordered hblocks hsplit h
  rw [hrevise]
  refine ⟨fun x hx ↦ ?_, fun x out hout ↦ ?_, fun x out hout ↦ ?_⟩
  · rcases List.mem_append.mp hx with hx | hx
    · exact mem_map_insert.mpr (Or.inr (h.mem_revised x hx))
    · exact mem_map_insert.mpr (Or.inl (List.mem_singleton.mp hx))
  · rw [getElem?_map_insert] at hout
    split_ifs at hout with hbx
    · rw [← Option.some.inj hout]
      exact Program.isTracked_of_mem_transferBlock (tracked_of_heldAtStart? h.tracked hheld)
    · exact h.tracked x out hout
  · rw [getElem?_map_insert] at hout
    split_ifs at hout with hbx
    · subst hbx
      obtain ⟨lower, hlower, hsub⟩ := heldAtStart?_insert hless hheld
      rw [← Option.some.inj hout]
      exact ⟨lower, hlower, fun v hv ↦ Program.mem_transferBlock_mono hsub hv⟩
    · obtain ⟨before, hbefore, hfalls⟩ := h.falls x out hout
      obtain ⟨lower, hlower, hsub⟩ := heldAtStart?_insert hless hbefore
      exact ⟨lower, hlower, fun v hv ↦ hfalls v (Program.mem_transferBlock_mono hsub hv)⟩

/-- A change makes a set smaller, or reaches a block. -/
theorem potential_revise_lt (h : Falling p imp g revised ends)
    (hchange : Availability.revise p imp g ends b ≠ ends) :
    potential p g (Availability.revise p imp g ends b) < potential p g ends := by
  have hb : b ∈ g.rpo := by simp [hsplit]
  obtain ⟨held, hheld, hrevise, hless⟩ := revise_spec hordered hblocks hsplit h
  rw [hrevise] at hchange ⊢
  have hnew : (p.transferBlock imp b held).size + 1 ≤
      ends[b]?.elim (p.vars.length + 1) (·.size) := by
    cases hout : ends[b]? with
    | none =>
      exact Nat.succ_le_succ (Program.size_le_of_tracked
        (Program.isTracked_of_mem_transferBlock (tracked_of_heldAtStart? h.tracked hheld)))
    | some out =>
      refine size_lt_of_subset_of_ne (hless out hout) ?_
      rintro rfl
      exact hchange (map_insert_eq_self hout)
  show (g.rpo.map _).sum + 1 ≤ (g.rpo.map _).sum
  refine sum_map_add_le (fun x _ ↦ ?_) hb ?_
  · rw [getElem?_map_insert]
    split_ifs with hbx
    · subst hbx
      exact Nat.le_of_succ_le hnew
    · exact Nat.le_refl _
  · rw [getElem?_map_insert, if_pos rfl]
    exact hnew

end Pass

section Passes

variable (hordered : Dominators.Ordered g.rpo g.prior g.entry)
  (hblocks : ∀ b ∈ g.rpo, ∃ block, imp.block? b = some block)

include hordered hblocks

/-- Where the passes stand still, the end of every reachable block is computed from its start, and
what every revision keeps holds. -/
theorem outs_spec {q : Outs → Prop} (hstart : q ∅)
    (hkeep : ∀ ends b held, heldAtStart? g (p.heldAtEntry imp) ends b = some held → b ∈ g.rpo →
      q ends → q (ends.insert b (p.transferBlock imp b held))) :
    q (outs p imp g) ∧ ∀ b ∈ g.rpo,
      ∃ held, heldAtStart? g (p.heldAtEntry imp) (outs p imp g) b = some held ∧
        (outs p imp g)[b]? = some (p.transferBlock imp b held) := by
  have hrounds : potential p g ∅ ≤ rounds p g := by
    have hsum : potential p g ∅ = g.rpo.length * (p.vars.length + 1) := by
      simp [potential]
    rw [hsum, rounds]
    exact Nat.le_succ _
  obtain ⟨⟨hfalling, hq⟩, hfixed⟩ : (Falling p imp g g.rpo (outs p imp g) ∧ q (outs p imp g)) ∧
      ∀ b ∈ g.rpo, revise p imp g (outs p imp g) b = outs p imp g := untilStable_foldl
    (m := potential p g) (p := fun revised ends ↦ Falling p imp g revised ends ∧ q ends)
    (fun revised b rest ends hsplit h ↦ by
      refine ⟨h.1.revise hordered hblocks hsplit, ?_⟩
      obtain ⟨held, hheld, hrevise, -⟩ := revise_spec hordered hblocks hsplit h.1
      rw [hrevise]
      exact hkeep ends b held hheld (by simp [hsplit]) h.2)
    (fun revised b rest ends hsplit h ↦ potential_revise_lt hordered hblocks hsplit h.1)
    (fun ends h ↦ ⟨h.1.restart, h.2⟩) ⟨falling_empty, hstart⟩ hrounds
  refine ⟨hq, fun b hb ↦ ?_⟩
  obtain ⟨out, hout⟩ := Option.isSome_iff_exists.mp
    (Std.ExtTreeMap.mem_iff_isSome_getElem?.mp (hfalling.mem_revised b hb))
  obtain ⟨held, hheld, -⟩ := hfalling.falls b out hout
  obtain ⟨block, hblock⟩ := hblocks b hb
  refine ⟨held, hheld, ?_⟩
  rw [← hfixed b hb, revise_eq hblock hheld, getElem?_map_insert, if_pos rfl]

end Passes

/-! ### The meet over all walks -/

/-- No end of a block lacks a variable that is held along every walk through the block. -/
def Covering (p : Program) (imp : Implementation) (next : BlockId → List BlockId) (entry : BlockId)
    (ends : Outs) : Prop :=
  ∀ (b : BlockId) out, ends[b]? = some out → ∀ v,
    (∀ left, Walk next entry left b →
      v ∈ p.transferBlock imp b (p.along imp left (p.heldAtEntry imp))) → v ∈ out

section Meet

variable (hg : g.Describes next entry)

include hg

/-- What is held along every walk to a block is found at its start. -/
theorem Covering.mem_heldAtStart? (h : Covering p imp next entry ends)
    (hheld : heldAtStart? g (p.heldAtEntry imp) ends b = some held)
    (hall : ∀ left, Walk next entry left b → v ∈ p.along imp left (p.heldAtEntry imp)) :
    v ∈ held := by
  rw [Availability.mem_heldAtStart? hheld]
  refine ⟨fun hb ↦ ?_, fun u hu out hout ↦ h u out hout v fun left hwalk ↦ ?_⟩
  · subst hb
    exact hall [] (hg.entry_eq ▸ .nil _)
  · rw [← Program.along_snoc]
    exact hall _ (hwalk.snoc ((hg.mem_prior u b).mp hu))

/-- Computing the end of a reachable block anew loses nothing that is held along every walk. -/
theorem Covering.insert (hblocks : ∀ b ∈ g.rpo, ∃ block, imp.block? b = some block)
    (h : Covering p imp next entry ends)
    (hheld : heldAtStart? g (p.heldAtEntry imp) ends b = some held) (hb : b ∈ g.rpo) :
    Covering p imp next entry (ends.insert b (p.transferBlock imp b held)) := by
  intro x out hout v hall
  rw [getElem?_map_insert] at hout
  split_ifs at hout with hbx
  · subst hbx
    obtain ⟨block, hblock⟩ := hblocks b hb
    obtain ⟨first, hfirst⟩ := (hg.mem_rpo b).mp hb
    rw [← Option.some.inj hout, Program.transferBlock_of_block? hblock]
    refine Program.mem_transferAll_of_forall
      (f := fun s ↦ ∃ left, Walk next entry left b ∧ p.along imp left (p.heldAtEntry imp) = s)
      ⟨_, first, hfirst, rfl⟩ ?_ fun hmeet ↦ ?_
    · rintro s ⟨left, hwalk, rfl⟩
      rw [← Program.transferBlock_of_block? hblock]
      exact hall left hwalk
    · exact h.mem_heldAtStart? hg hheld fun left hwalk ↦ hmeet _ ⟨left, hwalk, rfl⟩
  · exact h x out hout v hall

/-- What is found at the start of a block is what is held along every walk to it. -/
theorem exists_heldAtStart? (hblocks : ∀ b ∈ g.rpo, ∃ block, imp.block? b = some block)
    (hb : b ∈ g.rpo) :
    ∃ held, heldAtStart? g (p.heldAtEntry imp) (outs p imp g) b = some held ∧
      ∀ v, v ∈ held ↔
        ∀ left, Walk next entry left b → v ∈ p.along imp left (p.heldAtEntry imp) := by
  obtain ⟨hcovering, hsettled⟩ := outs_spec hg.ordered hblocks (q := Covering p imp next entry)
    (fun _ _ hout ↦ by simp at hout)
    fun ends b held hheld hb h ↦ h.insert hg hblocks hheld hb
  obtain ⟨held, hheld, -⟩ := hsettled b hb
  refine ⟨held, hheld, fun v ↦ ⟨fun hv left hwalk ↦ ?_, hcovering.mem_heldAtStart? hg hheld⟩⟩
  -- The walk is cut at its end: what is found at the start of its last block is held along the
  -- rest.
  induction left using List.reverseRecOn generalizing b held v with
  | nil =>
    cases hwalk
    exact ((mem_heldAtStart? hheld).mp hv).1 hg.entry_eq.symm
  | append_singleton left u ih =>
    obtain ⟨hleft, hedge⟩ := hwalk.of_snoc
    obtain ⟨before, hbefore, hout⟩ := hsettled u ((hg.mem_rpo u).mpr ⟨left, hleft⟩)
    have hend := ((mem_heldAtStart? hheld).mp hv).2 u ((hg.mem_prior u b).mpr hedge) _ hout
    rw [Program.along_snoc]
    exact Program.mem_transferBlock_mono
      (fun v hv ↦ ih ((hg.mem_rpo u).mpr ⟨left, hleft⟩) before hbefore v hv hleft) hend

end Meet

/-! ### The table -/

theorem map_fst_commandEntries {commands : List Command} :
    (commandEntries p held commands).map Prod.fst = commands.map (.command ·.id) := by
  induction commands generalizing held with
  | nil => rfl
  | cons c rest ih => rw [commandEntries, List.map_cons, List.map_cons, ih]

/-- The entry of a command holds what is held after the commands up to it. -/
theorem mem_commandEntries {commands : List Command} {k : Nat} {c : Command}
    (h : commands[k]? = some c) :
    (Node.command c.id, p.transferAll (commands.take (k + 1)) held) ∈
      commandEntries p held commands := by
  induction commands generalizing held k with
  | nil => cases h
  | cons d rest ih =>
    rw [commandEntries]
    cases k with
    | zero =>
      obtain rfl : d = c := Option.some.inj h
      exact List.mem_cons_self
    | succ k => exact List.mem_cons_of_mem _ (ih h)

section Entries

variable (hg : g.Describes next entry) (hblocks : ∀ b ∈ g.rpo, ∃ block, imp.block? b = some block)

include hg hblocks

/-- The entries of a reachable block. -/
theorem exists_blockEntries (hb : b ∈ g.rpo) (hblock : imp.block? b = some block) :
    ∃ held, blockEntries p imp g (outs p imp g) b =
        (.block b, held) :: commandEntries p held block.commands ∧
      ∀ v, v ∈ held ↔
        ∀ left, Walk next entry left b → v ∈ p.along imp left (p.heldAtEntry imp) := by
  obtain ⟨held, hheld, hmeet⟩ := exists_heldAtStart? (p := p) hg hblocks hb
  refine ⟨held, ?_, hmeet⟩
  rw [blockEntries, hblock, hheld]

/-- A reachable block has one entry for each of its points. -/
theorem map_fst_blockEntries (hb : b ∈ g.rpo) (hblock : imp.block? b = some block) :
    (blockEntries p imp g (outs p imp g) b).map Prod.fst = block.nodes := by
  obtain ⟨held, hentries, -⟩ := exists_blockEntries (p := p) hg hblocks hb hblock
  rw [hentries, List.map_cons, map_fst_commandEntries, Block.nodes,
    (Implementation.block?_eq_some hblock).2]

/-- Where block identifiers and command identifiers are distinct, so are the keys of all entries. -/
theorem nodup_keys (hids : imp.blockIds.Nodup) (hcommands : (imp.commands.map Command.id).Nodup) :
    ((g.rpo.flatMap (blockEntries p imp g (outs p imp g))).map Prod.fst).Nodup := by
  have hpoints : ∀ b ∈ g.rpo, ∃ block ∈ imp.blocks, block.id = b ∧
      (blockEntries p imp g (outs p imp g) b).map Prod.fst = block.nodes := by
    intro b hb
    obtain ⟨block, hblock⟩ := hblocks b hb
    obtain ⟨hmem, hid⟩ := Implementation.block?_eq_some hblock
    exact ⟨block, hmem, hid, map_fst_blockEntries hg hblocks hb hblock⟩
  rw [List.map_flatMap, List.nodup_flatMap]
  refine ⟨fun b hb ↦ ?_, hg.nodup_rpo.pairwise_of_forall_ne fun a ha b hb hne n hna hnb ↦ hne ?_⟩
  · obtain ⟨block, hmem, -, hkeys⟩ := hpoints b hb
    rw [hkeys]
    exact Implementation.nodup_nodes_block hids hcommands hmem
  · obtain ⟨first, hfirst, rfl, hkeys⟩ := hpoints a ha
    obtain ⟨second, hsecond, rfl, hkeys'⟩ := hpoints b hb
    beta_reduce at hna hnb
    rw [hkeys] at hna
    rw [hkeys'] at hnb
    rw [Implementation.eq_of_mem_nodes hids hcommands hfirst hsecond hna hnb]

end Entries

end Availability

namespace Program

theorem heldAtEntry_congr {other : Implementation} (h : other.ins = imp.ins) :
    p.heldAtEntry other = p.heldAtEntry imp := by
  rw [heldAtEntry, heldAtEntry, h]

section Table

variable (hids : imp.blockIds.Nodup)

include hids

/-- The table of an implementation with an entry is made over a graph of its reachable blocks. -/
theorem exists_tableOver (p : Program) (hentry : imp.entry? = some entry) :
    ∃ g : FlowGraph, p.availability imp = Availability.tableOver p imp g ∧
      g.Describes imp.targetsOf entry ∧ (∀ b ∈ g.rpo, ∃ block, imp.block? b = some block) := by
  obtain ⟨g, hg⟩ := FlowGraph.exists_of? hentry
  exact ⟨g, by rw [availability, hg, Option.elim_some], FlowGraph.describes_of? hids hg hentry,
    fun _ ↦ FlowGraph.exists_block?_of_mem_rpo hg⟩

/-- There are entries for the points of reachable blocks, and no others. -/
theorem mem_availability_iff {n : Node} : n ∈ p.availability imp ↔
    ∃ block ∈ imp.blocks, imp.Reachable block.id ∧ n ∈ block.nodes := by
  cases hentry : imp.entry? with
  | none =>
    rw [availability, FlowGraph.of?_eq_none hentry, Option.elim_none]
    refine iff_of_false Std.ExtTreeMap.not_mem_empty ?_
    rintro ⟨block, -, hreach, -⟩
    exact Implementation.not_reachable hentry hreach
  | some entry =>
    obtain ⟨g, htable, hg, hblocks⟩ := exists_tableOver hids p hentry
    rw [htable, Availability.tableOver, mem_map_ofList, List.map_flatMap, List.mem_flatMap]
    constructor
    · rintro ⟨b, hb, hn⟩
      obtain ⟨block, hblock⟩ := hblocks b hb
      obtain ⟨hmem, rfl⟩ := Implementation.block?_eq_some hblock
      rw [Availability.map_fst_blockEntries hg hblocks hb hblock] at hn
      exact ⟨block, hmem, ⟨entry, hentry, (hg.mem_rpo _).mp hb⟩, hn⟩
    · rintro ⟨block, hmem, hreach, hn⟩
      have hb := (hg.mem_rpo _).mpr ((Implementation.reachable_iff hentry).mp hreach)
      refine ⟨block.id, hb, ?_⟩
      rw [Availability.map_fst_blockEntries hg hblocks hb (Implementation.block?_of_mem hids hmem)]
      exact hn

/-- There are entries for the points of a block exactly if it is reachable. -/
theorem mem_availability_of_mem_nodes (hcommands : (imp.commands.map Command.id).Nodup) {n : Node}
    (hmem : block ∈ imp.blocks) (hn : n ∈ block.nodes) :
    n ∈ p.availability imp ↔ imp.Reachable block.id := by
  rw [mem_availability_iff hids]
  constructor
  · rintro ⟨other, hother, hreach, hn'⟩
    exact Implementation.eq_of_mem_nodes hids hcommands hother hmem hn' hn ▸ hreach
  · exact fun hreach ↦ ⟨block, hmem, hreach, hn⟩

/-- There is no entry for an implementation as a whole. -/
theorem getElem?_availability_implementation {id : ImplId} :
    (p.availability imp)[Node.implementation id]? = none := by
  refine Std.ExtTreeMap.getElem?_eq_none fun hin ↦ ?_
  obtain ⟨block, -, -, hn⟩ := (mem_availability_iff hids).mp hin
  rcases Implementation.mem_nodes_block_iff.mp hn with heq | ⟨c, -, heq⟩ <;> cases heq

/-- A reachable block starts with what is held along all walks to it, and each of its commands ends
with what the commands up to it make of that. -/
theorem exists_availability (hcommands : (imp.commands.map Command.id).Nodup)
    (hmem : block ∈ imp.blocks) (hreach : imp.Reachable block.id) :
    ∃ held, (p.availability imp)[Node.block block.id]? = some held ∧
      (∀ v, v ∈ held ↔ ∀ entry left, imp.entry? = some entry →
        Walk imp.targetsOf entry left block.id → v ∈ p.along imp left (p.heldAtEntry imp)) ∧
      ∀ k c, block.commands[k]? = some c →
        (p.availability imp)[Node.command c.id]? =
          some (p.transferAll (block.commands.take (k + 1)) held) := by
  obtain ⟨entry, hentry, hleads⟩ := hreach
  obtain ⟨g, htable, hg, hblocks⟩ := exists_tableOver hids p hentry
  have hb := (hg.mem_rpo _).mpr hleads
  obtain ⟨held, hentries, hmeet⟩ := Availability.exists_blockEntries (p := p) hg hblocks hb
    (Implementation.block?_of_mem hids hmem)
  have hkeys := Availability.nodup_keys (p := p) hg hblocks hids hcommands
  have hlookup : ∀ n out, (n, out) ∈ (Node.block block.id, held) ::
      Availability.commandEntries p held block.commands → (p.availability imp)[n]? = some out := by
    intro n out hin
    rw [htable, Availability.tableOver]
    exact getElem?_map_ofList hkeys (List.mem_flatMap.mpr ⟨block.id, hb, hentries ▸ hin⟩)
  refine ⟨held, hlookup _ _ List.mem_cons_self, fun v ↦ (hmeet v).trans ?_, fun k c hc ↦
    hlookup _ _ (List.mem_cons_of_mem _ (Availability.mem_commandEntries hc))⟩
  constructor
  · rintro hall other left hother hwalk
    obtain rfl : entry = other := Option.some.inj (hentry.symm.trans hother)
    exact hall left hwalk
  · exact fun hall left hwalk ↦ hall entry left hentry hwalk

end Table

/-- The analysis is exact: there are entries for the points of reachable blocks only, a reachable
block starts with what is held along every walk to it from the entry, and its commands do one after
the other what they do. -/
theorem availability_eq_meet (p : Program) (imp : Implementation) (hids : imp.blockIds.Nodup)
    (hcommands : (imp.commands.map Command.id).Nodup) :
    (∀ block ∈ imp.blocks, ∀ n ∈ block.nodes, n ∈ p.availability imp ↔ imp.Reachable block.id) ∧
    (∀ n ∈ p.availability imp, ∃ block ∈ imp.blocks, n ∈ block.nodes) ∧
    ∀ block ∈ imp.blocks, imp.Reachable block.id →
      ∃ held, (p.availability imp)[Node.block block.id]? = some held ∧
        (∀ v, v ∈ held ↔ ∀ entry left, imp.entry? = some entry →
          Walk imp.targetsOf entry left block.id → v ∈ p.along imp left (p.heldAtEntry imp)) ∧
        ∀ k c, block.commands[k]? = some c →
          (p.availability imp)[Node.command c.id]? =
            some (p.transferAll (block.commands.take (k + 1)) held) := by
  refine ⟨fun block hmem n hn ↦ mem_availability_of_mem_nodes hids hcommands hmem hn, fun n hn ↦ ?_,
    fun block hmem hreach ↦ exists_availability hids hcommands hmem hreach⟩
  obtain ⟨block, hmem, -, hn⟩ := (mem_availability_iff hids).mp hn
  exact ⟨block, hmem, hn⟩

/-- An implementation that gains a variable in its entry and loses it on the way back there. -/
def relay : Implementation where
  id := ⟨0⟩
  procedure := ⟨0⟩
  name := "relay"
  ins := []
  outs := []
  locals := [⟨0⟩]
  blocks :=
    [⟨⟨0⟩, "gain", [⟨⟨0⟩, .zero, .assign [⟨0⟩] [.lit true]⟩], .goto [⟨1⟩, ⟨0⟩], [], .zero⟩,
      ⟨⟨1⟩, "lose", [⟨⟨1⟩, .zero, .havoc [⟨0⟩]⟩], .goto [⟨0⟩], [], .zero⟩]
  span := .zero

/-- A program with one local variable of linear kind. -/
def token : Program :=
  (empty.addVar ⟨"token", false, .linear, some "Token", none, .zero⟩).2

/-- The second block starts with the variable, which is there along every walk, however often it has
been lost and gained on the way, and ends without it. The first block starts without it, as the walk
that ends at the entry is one of those to it. -/
theorem availability_eq_meet_relay : relay.blockIds.Nodup ∧
    (relay.commands.map Command.id).Nodup ∧
    (token.availability relay)[Node.block ⟨0⟩]?.map (·.toList) = some [] ∧
    ∃ held, (token.availability relay)[Node.block ⟨1⟩]? = some held ∧ held.toList = [⟨0⟩] ∧
      (∀ left, Walk relay.targetsOf ⟨0⟩ left ⟨1⟩ →
        ⟨0⟩ ∈ token.along relay left (token.heldAtEntry relay)) ∧
      (token.availability relay)[Node.command ⟨1⟩]? =
        some (token.transferAll [⟨⟨1⟩, .zero, .havoc [⟨0⟩]⟩] held) ∧
      (token.transferAll [⟨⟨1⟩, .zero, .havoc [⟨0⟩]⟩] held).toList = [] := by
  obtain ⟨held, hheld, hmeet, hrun⟩ := (availability_eq_meet token relay (by decide)
    (by decide)).2.2 _ (List.mem_cons_of_mem _ List.mem_cons_self)
    ⟨⟨0⟩, rfl, [⟨0⟩], .single (by decide)⟩
  have hstart : (token.availability relay)[Node.block ⟨1⟩]?.map (·.toList) = some [⟨0⟩] := by
    decide +kernel
  have hend : (token.availability relay)[Node.command ⟨1⟩]?.map (·.toList) = some [] := by
    decide +kernel
  rw [hheld, Option.map_some, Option.some.injEq] at hstart
  have hmem : ⟨0⟩ ∈ held := Std.ExtTreeSet.mem_toList.mp (hstart ▸ List.mem_singleton_self _)
  have hafter := hrun 0 _ rfl
  rw [hafter, Option.map_some, Option.some.injEq] at hend
  exact ⟨by decide, by decide, by decide +kernel, held, hheld, hstart,
    fun left hwalk ↦ (hmeet ⟨0⟩).mp hmem ⟨0⟩ left rfl hwalk, hafter, hend⟩

end Program

end OwnershipFlow
