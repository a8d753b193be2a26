import OwnershipFlow.FlowGraph.Edges
import OwnershipFlow.Implementation.Pruning
import OwnershipFlow.Proofs.Collections

/-!
# What the loops over blocks collect

The edges of a flow graph are drawn block by block, after all blocks have been entered. At every
moment the edges drawn are those of the blocks that the loop has come past (`Edges.Drawn`), and one
more block adds its own (`Drawn.connect`). In the end the successors of a block are the targets that
exist (`Edges.existing`), and its predecessors are the blocks that name it, once for every time
(`Edges.sources`), so both sides have a closed form (`Edges.of?_eq`).

Recorded predecessors are noted in a loop too, which notes no block twice for a target and also
notes targets that do not exist. Once it is over, the notes for a target are the blocks that name
it, each identifier once (`getD_notedSources`). Handing them out strikes off what has been handed
out, which makes no difference where identifiers are distinct (`recordFrom_eq_map`).
-/

set_option autoImplicit false
set_option relaxedAutoImplicit false

namespace OwnershipFlow

variable {imp : Implementation} {blocks done rest : List Block} {b : Block}
  {entry source x : BlockId} {targets : List BlockId}

/-! ### Edges -/

attribute [ext] Edges

namespace Edges

variable {e : Edges}

/-- The targets of a transfer that exist. -/
def existing (blocks : List Block) (b : Block) : List BlockId :=
  b.successors.filter (blocks.map Block.id).contains

/-- The identifiers of the blocks that name a target, once for every time that they name it. -/
def sources (blocks : List Block) (target : BlockId) : List BlockId :=
  blocks.flatMap fun b ↦ List.replicate (b.successors.count target) b.id

/-- All blocks of an implementation have been entered, and the edges of some of them are drawn.
Where identifiers are repeated, the last of these gives the successors. -/
structure Drawn (entry : BlockId) (blocks done : List Block) (e : Edges) : Prop where
  entry_eq : e.entry = entry
  mem_successors : ∀ x, x ∈ e.successors ↔ x ∈ blocks.map Block.id
  getElem?_successors : ∀ x ∈ done.map Block.id, e.successors[x]? =
    (Std.ExtTreeMap.ofList (done.map fun b ↦ (b.id, existing blocks b)))[x]?
  getElem?_predecessors : ∀ x : BlockId, e.predecessors[x]? =
    if x ∈ blocks.map Block.id then some (sources done x) else none

theorem entry_foldl_enter : (blocks.foldl enter e).entry = e.entry := by
  induction blocks generalizing e with
  | nil => rfl
  | cons b rest ih => rw [List.foldl_cons, ih, enter]

theorem mem_successors_foldl_enter :
    x ∈ (blocks.foldl enter e).successors ↔ x ∈ e.successors ∨ x ∈ blocks.map Block.id := by
  induction blocks generalizing e with
  | nil => exact (or_iff_left List.not_mem_nil).symm
  | cons b rest ih =>
    rw [List.foldl_cons, ih, enter, mem_map_insert, List.map_cons, List.mem_cons,
      or_comm (a := x = b.id), or_assoc]

/-- Entering blocks gives them no predecessors, and takes none from them. -/
theorem getElem?_predecessors_foldl_enter : (blocks.foldl enter e).predecessors[x]? =
    e.predecessors[x]?.or (if x ∈ blocks.map Block.id then some [] else none) := by
  induction blocks generalizing e with
  | nil => exact Option.or_none.symm
  | cons b rest ih =>
    rw [List.foldl_cons, ih, enter, getElem?_map_insertIfNew, Option.or_assoc, List.map_cons]
    by_cases hx : b.id = x
    · rw [if_pos hx, if_pos (List.mem_cons.mpr (.inl hx.symm)), Option.some_or]
    · simp only [if_neg hx, Option.none_or, List.mem_cons, Ne.symm hx, false_or]

/-- At first no edge is drawn. -/
theorem drawn_enter : Drawn entry blocks [] (blocks.foldl enter ⟨entry, ∅, ∅⟩) where
  entry_eq := entry_foldl_enter
  mem_successors x := by
    rw [mem_successors_foldl_enter]
    exact or_iff_right Std.ExtTreeMap.not_mem_empty
  getElem?_successors x hx := absurd hx List.not_mem_nil
  getElem?_predecessors x := by
    rw [getElem?_predecessors_foldl_enter, Std.ExtTreeMap.getElem?_empty, Option.none_or]
    rfl

/-- A block is added to its targets once for every time that it names them. -/
theorem getElem?_foldl_addSource {m : Std.ExtTreeMap BlockId (List BlockId)}
    (htargets : ∀ t ∈ targets, t ∈ m) : (targets.foldl (addSource source) m)[x]? =
      m[x]?.map (· ++ List.replicate (targets.count x) source) := by
  induction targets generalizing m with
  | nil => simp
  | cons t rest ih =>
    rw [List.forall_mem_cons] at htargets
    obtain ⟨held, hheld⟩ :=
      Option.isSome_iff_exists.mp (Std.ExtTreeMap.mem_iff_isSome_getElem?.mp htargets.1)
    have hkeys : ∀ u ∈ rest, u ∈ addSource source m t :=
      fun u hu ↦ mem_map_insert.mpr (.inr (htargets.2 u hu))
    rw [List.foldl_cons, ih hkeys, addSource, getElem?_map_insert, List.count_cons,
      Std.ExtTreeMap.getD_eq_getD_getElem?, hheld, Option.getD_some]
    by_cases ht : t = x
    · subst ht
      rw [if_pos rfl, if_pos (beq_self_eq_true t), hheld, Option.map_some, Option.map_some,
        List.append_assoc, List.replicate_succ]
      rfl
    · rw [if_neg ht, if_neg (mt beq_iff_eq.mp ht), Nat.add_zero]

theorem sources_append :
    sources (done ++ rest) x = sources done x ++ sources rest x :=
  List.flatMap_append

/-- The edges of one more block are drawn. -/
theorem Drawn.connect (h : Drawn entry blocks done e) (hb : b ∈ blocks) :
    Drawn entry blocks (done ++ [b]) (e.connect b) := by
  have hid : b.id ∈ blocks.map Block.id := List.mem_map_of_mem hb
  have htargets : b.successors.filter e.successors.contains = existing blocks b := by
    refine List.filter_congr fun t _ ↦ ?_
    rw [Bool.eq_iff_iff, Std.ExtTreeMap.contains_iff_mem, h.mem_successors, List.contains_iff_mem]
  have hkeys : ∀ t ∈ existing blocks b, t ∈ e.predecessors := by
    intro t ht
    have ht := List.contains_iff_mem.mp (List.mem_filter.mp ht).2
    rw [Std.ExtTreeMap.mem_iff_isSome_getElem?, h.getElem?_predecessors, if_pos ht]
    rfl
  unfold Edges.connect
  rw [htargets]
  constructor
  case entry_eq => exact h.entry_eq
  case mem_successors =>
    intro x
    rw [mem_map_insert, h.mem_successors]
    exact or_iff_right_of_imp fun hx ↦ hx ▸ hid
  case getElem?_successors =>
    intro x hx
    rw [List.map_append, List.mem_append] at hx
    rw [List.map_append, List.map_singleton, map_ofList_append_singleton, getElem?_map_insert,
      getElem?_map_insert]
    by_cases hx' : b.id = x
    · rw [if_pos hx', if_pos hx']
    · rw [if_neg hx', if_neg hx']
      refine h.getElem?_successors x (hx.resolve_right fun hin ↦ hx' ?_)
      exact (List.mem_singleton.mp hin).symm
  case getElem?_predecessors =>
    intro x
    rw [getElem?_foldl_addSource hkeys, h.getElem?_predecessors]
    by_cases hx : x ∈ blocks.map Block.id
    · rw [if_pos hx, if_pos hx, Option.map_some, sources_append, existing,
        List.count_filter (List.contains_iff_mem.mpr hx), sources, sources, List.flatMap_singleton]
    · rw [if_neg hx, if_neg hx, Option.map_none]

/-- The edges of all blocks are drawn, from the first to the last. -/
theorem Drawn.foldl_connect (h : Drawn entry blocks done e) (hrest : ∀ b ∈ rest, b ∈ blocks) :
    Drawn entry blocks (done ++ rest) (rest.foldl Edges.connect e) := by
  induction rest generalizing done e with
  | nil => rwa [List.append_nil]
  | cons b rest ih =>
    rw [List.forall_mem_cons] at hrest
    rw [List.append_cons, List.foldl_cons]
    exact ih (h.connect hrest.1) hrest.2

/-- What the two loops make of the blocks of an implementation. -/
theorem of?_eq : of? imp = imp.entry?.map fun entry ↦
    { entry
      successors := .ofList (imp.blocks.map fun b ↦ (b.id, existing imp.blocks b))
      predecessors := .ofList (imp.blocks.map fun b ↦ (b.id, sources imp.blocks b.id)) } := by
  refine Option.map_congr fun entry _ ↦ ?_
  have hstart : Drawn entry imp.blocks [] (imp.blocks.foldl enter ⟨entry, ∅, ∅⟩) := drawn_enter
  have h := hstart.foldl_connect fun b (hb : b ∈ imp.blocks) ↦ hb
  rw [List.nil_append] at h
  refine Edges.ext h.entry_eq (Std.ExtTreeMap.ext_getElem? fun {x} ↦ ?_)
    (Std.ExtTreeMap.ext_getElem? fun {x} ↦ ?_)
  · by_cases hx : x ∈ imp.blocks.map Block.id
    · exact h.getElem?_successors x hx
    · rw [Std.ExtTreeMap.getElem?_eq_none (mt (h.mem_successors x).mp hx),
        getElem?_map_ofList_eq_none (by rwa [List.map_map])]
  · exact (h.getElem?_predecessors x).trans getElem?_map_ofList_map.symm

end Edges

/-! ### Recorded predecessors -/

namespace Implementation

variable {noted : Std.ExtTreeMap BlockId (List BlockId)}

/-- The blocks of a list that name a target, each identifier once. -/
def predecessorIds (blocks : List Block) (target : BlockId) : List BlockId :=
  ((blocks.filter (·.successors.contains target)).map Block.id).eraseDups

/-- The targets of one block get it as a further predecessor, if they do not have it. -/
theorem getD_foldl_noteSource : (targets.foldl (noteSource source) noted).getD x [] =
    if x ∈ targets ∧ source ∉ noted.getD x [] then noted.getD x [] ++ [source]
    else noted.getD x [] := by
  induction targets generalizing noted with
  | nil => rw [if_neg fun h ↦ List.not_mem_nil h.1, List.foldl_nil]
  | cons t rest ih =>
    have hstep : (noteSource source noted t).getD x [] =
        if t = x ∧ source ∉ noted.getD x [] then noted.getD x [] ++ [source]
        else noted.getD x [] := by
      rw [noteSource, Std.ExtTreeMap.getD_insert]
      simp only [Std.LawfulEqCmp.compare_eq_iff_eq]
      by_cases ht : t = x
      · subst ht
        by_cases hin : source ∈ noted.getD t []
        · rw [if_pos rfl, if_pos (List.contains_iff_mem.mpr hin), if_neg fun h ↦ h.2 hin]
        · rw [if_pos rfl, if_neg (mt List.contains_iff_mem.mp hin), if_pos ⟨rfl, hin⟩]
      · rw [if_neg ht, if_neg fun h ↦ ht h.1]
    rw [List.foldl_cons, ih, hstep]
    by_cases hin : source ∈ noted.getD x []
    · simp [hin]
    · by_cases ht : t = x
      · simp [hin, ht]
      · simp [hin, ht, Ne.symm ht]

/-- What is noted for a target in the end are the blocks that name it, each identifier once. -/
theorem getD_notedSources : (notedSources blocks).getD x [] = predecessorIds blocks x := by
  induction blocks using List.reverseRecOn with
  | nil => exact Std.ExtTreeMap.getD_empty
  | append_singleton rest b ih =>
    unfold notedSources at ih ⊢
    rw [List.foldl_append, List.foldl_cons, List.foldl_nil, getD_foldl_noteSource, ih,
      predecessorIds, predecessorIds, List.filter_append, List.map_append, List.filter_cons,
      List.filter_nil]
    simp only [List.mem_eraseDups, List.contains_iff_mem]
    by_cases hnames : x ∈ b.successors
    · rw [if_pos hnames, List.map_singleton, eraseDups_append_singleton]
      by_cases hin : b.id ∈ (rest.filter (·.successors.contains x)).map Block.id
      · rw [if_pos hin, if_neg fun h ↦ h.2 hin]
      · rw [if_neg hin, if_pos ⟨hnames, hin⟩]
    · rw [if_neg fun h ↦ hnames h.1, if_neg hnames, List.map_nil, List.append_nil]

/-- Where identifiers are distinct, every block is given what has been noted for it. -/
theorem recordFrom_eq_map (hids : (blocks.map Block.id).Nodup) :
    recordFrom noted blocks =
      blocks.map fun b ↦ { b with predecessors := noted.getD b.id [] } := by
  induction blocks generalizing noted with
  | nil => rfl
  | cons b rest ih =>
    rw [List.map_cons, List.nodup_cons] at hids
    rw [recordFrom, List.map_cons, ih hids.2]
    refine congrArg _ (List.map_congr_left fun c hc ↦ ?_)
    have hne : b.id ≠ c.id := fun heq ↦ hids.1 (heq ▸ List.mem_map_of_mem hc)
    rw [Std.ExtTreeMap.getD_erase, if_neg (mt Std.LawfulEqCmp.compare_eq_iff_eq.mp hne)]

end Implementation

end OwnershipFlow
