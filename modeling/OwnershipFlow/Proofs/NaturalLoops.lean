import OwnershipFlow.Proofs.ImmediateDominators
import OwnershipFlow.Proofs.Lockstep
import OwnershipFlow.Proofs.Loops

/-!
# Natural loops

The body of a loop is a search against the edges, from the sources of the back edges of its header,
that does not go on from the header. It finds exactly the blocks of the natural loop: the header,
and the reachable blocks from which a walk that does not meet the header leads to the source of a
back edge (`InLoop`, `mem_naturalLoop_iff`). This holds for reducible and for other graphs. So the
loops of a graph are determined by its walks (`body?_eq_some_iff`), and graphs whose edges agree
where the entry leads have the same loops (`loops_eq_of_agree`).

From any block of a loop but the header, the loop goes back along every edge (`InLoop.of_edge`). So
the header dominates the loop (`InLoop.dominates`), and the loop is entered at the header only. The
loops of two headers that have a block in common are one inside the other (`InLoop.nested`): both
headers dominate that block, so one of them dominates the other, and from the other one a walk to
the common block stays behind it in reverse postorder and hence does not meet the first. The family
of all loops is put together in `bodies_natural_nested`.
-/

set_option autoImplicit false
set_option relaxedAutoImplicit false

namespace OwnershipFlow

variable {next other : BlockId → List BlockId} {a b u v entry header inner : BlockId}

/-! ### The blocks of a loop -/

/-- A block is the header of a loop, or it can be reached and leads to the source of a back edge by
a walk that does not meet the header. -/
def InLoop (next : BlockId → List BlockId) (entry header b : BlockId) : Prop :=
  b = header ∨ Leads next entry b ∧ ∃ source left, header ∈ next source ∧
    Dominates next entry header source ∧ Walk next b left source ∧ header ∉ left ∧ header ≠ source

namespace InLoop

/-- A loop holds all that leads to a block of it other than its header. -/
theorem of_edge (h : InLoop next entry header v) (hne : v ≠ header) (hu : Leads next entry u)
    (edge : v ∈ next u) : InLoop next entry header u := by
  by_cases heq : u = header
  · exact .inl heq
  · obtain ⟨-, source, left, hback, hdom, hwalk, hnot, hsource⟩ := h.resolve_left hne
    refine .inr ⟨hu, source, u :: left, hback, hdom, .cons edge hwalk, fun hin ↦ ?_, hsource⟩
    exact (List.mem_cons.mp hin).elim (fun h ↦ heq h.symm) hnot

/-- What holds of the header and of the sources of its back edges, and is passed on against every
edge that does not lead to the header, holds of all blocks of the loop. -/
theorem induct {p : BlockId → Prop} (h : InLoop next entry header b) (hstart : p header)
    (hsource : ∀ source, Leads next entry source → header ∈ next source →
      Dominates next entry header source → p source)
    (hstep : ∀ u v, Leads next entry u → v ∈ next u → InLoop next entry header v → v ≠ header →
      p v → p u) : p b := by
  rcases h with rfl | ⟨hb, source, left, hback, hdom, hwalk, hnot, hne⟩
  · exact hstart
  · induction hwalk with
    | nil => exact hsource _ hb hback hdom
    | @cons u v _ left edge rest ih =>
      have hleft : header ∉ left := fun hin ↦ hnot (List.mem_cons_of_mem _ hin)
      have hv : v ≠ header := by
        rintro rfl
        cases rest with
        | nil => exact hne rfl
        | cons _ _ => exact hleft List.mem_cons_self
      have hrest := hb.step edge
      exact hstep u v hb edge (.inr ⟨hrest, _, left, hback, hdom, rest, hleft, hne⟩) hv
        (ih hrest hback hdom hleft hne)

/-- The header of a loop dominates its blocks. -/
theorem dominates (h : InLoop next entry header b) : Dominates next entry header b :=
  h.induct (.refl header) (fun _ _ _ hdom ↦ hdom)
    fun _ _ _ edge _ hne hv ↦ hv.of_edge (Ne.symm hne) edge

theorem leads (h : InLoop next entry header b) (hheader : Leads next entry header) :
    Leads next entry b :=
  h.elim (fun heq ↦ heq ▸ hheader) And.left

/-- If the header of a loop dominates the header of another one and the loops have a block in
common, then the other loop lies inside. -/
theorem nested {g : FlowGraph} (hg : g.Describes next entry) (hne : header ≠ inner)
    (hdom : Dominates next entry header inner) (hu : Leads next entry u)
    (hin : InLoop next entry header u) (hin' : InLoop next entry inner u)
    (hb : InLoop next entry inner b) : InLoop next entry header b := by
  have hinner : Leads next entry inner := hin'.dominates.leads hu
  -- The outer header is not in the inner loop, or else the two would dominate each other.
  have hout : ∀ x, InLoop next entry inner x → x ≠ header := by
    rintro x hx rfl
    exact hne (hdom.antisymm hx.dominates hinner)
  obtain ⟨first, hfirst, hbehind⟩ := hg.exists_walk_behind hu hin'.dominates
  have hfirst' : header ∉ first := fun hmem ↦ hne <|
    (List.idxOf_inj ((hg.mem_rpo header).mpr (hdom.leads hinner))).mp
      (Nat.le_antisymm (hg.idxOf_le_of_dominates hinner hdom) (hbehind header hmem))
  obtain ⟨-, source, second, hback, hsource, hsecond, hsecond', hend⟩ :=
    hin.resolve_left (hout u hin')
  have hstart : InLoop next entry header inner :=
    .inr ⟨hinner, source, first ++ second, hback, hsource, hfirst.append hsecond,
      fun hmem ↦ (List.mem_append.mp hmem).elim hfirst' hsecond', hend⟩
  refine hb.induct hstart (fun x hx edge _ ↦ hstart.of_edge (Ne.symm hne) hx edge) ?_
  exact fun x y hx edge hy _ hmem ↦ hmem.of_edge (hout y hy) hx edge

end InLoop

/-- The blocks of a loop depend on the edges only where the entry leads. -/
theorem inLoop_iff_of_agree (hagree : ∀ b, Leads next entry b → ∀ v, v ∈ other b ↔ v ∈ next b) :
    InLoop other entry header b ↔ InLoop next entry header b := by
  refine or_congr_right ?_
  rw [leads_iff_of_agree hagree]
  refine and_congr_right fun hb ↦ exists_congr fun source ↦ exists_congr fun left ↦ ?_
  rw [dominates_iff_of_agree hagree, walk_iff_of_agree hagree hb]
  constructor
  · rintro ⟨hback, hdom, hwalk, hrest⟩
    exact ⟨(hagree source (hb.trans ⟨left, hwalk⟩) header).mp hback, hdom, hwalk, hrest⟩
  · rintro ⟨hback, hdom, hwalk, hrest⟩
    exact ⟨(hagree source (hb.trans ⟨left, hwalk⟩) header).mpr hback, hdom, hwalk, hrest⟩

/-- Where the blocks of a graph are renamed, its loops are renamed with them. -/
theorem EdgeImage.inLoop_iff {r : BlockId → BlockId} {blocks : List BlockId}
    (h : EdgeImage r blocks next other) (hentry : entry ∈ blocks) (hheader : header ∈ blocks)
    (hb : b ∈ blocks) :
    InLoop other (r entry) (r header) (r b) ↔ InLoop next entry header b := by
  refine or_congr ⟨h.inj b hb header hheader, congrArg r⟩
    (and_congr (h.leads_iff hentry hb) ⟨?_, ?_⟩)
  · rintro ⟨source', left', hback, hdom, hwalk', hnot, hne⟩
    obtain ⟨left, source, hwalk, rfl, rfl⟩ := h.exists_walk hb hwalk'
    have hsource := h.mem_of_leads hb ⟨left, hwalk⟩
    exact ⟨source, left, (h.mem_next_iff hsource hheader).mp hback,
      (h.dominates_iff hentry hheader hsource).mp hdom, hwalk,
      mt (h.mem_map_iff (h.mem_of_walk hb hwalk) hheader).mpr hnot, ne_of_apply_ne r hne⟩
  · rintro ⟨source, left, hback, hdom, hwalk, hnot, hne⟩
    have hsource := h.mem_of_leads hb ⟨left, hwalk⟩
    exact ⟨r source, left.map r, (h.mem_next_iff hsource hheader).mpr hback,
      (h.dominates_iff hentry hheader hsource).mpr hdom, h.walk hb hwalk,
      mt (h.mem_map_iff (h.mem_of_walk hb hwalk) hheader).mp hnot,
      mt (h.inj header hheader source hsource) hne⟩

theorem EdgeImage.inLoop_image_iff {r : BlockId → BlockId} {blocks : List BlockId} {b' : BlockId}
    (h : EdgeImage r blocks next other) (hentry : entry ∈ blocks)
    (hheader : Leads next entry header) :
    InLoop other (r entry) (r header) b' ↔ ∃ b, InLoop next entry header b ∧ r b = b' := by
  have hin := h.mem_of_leads hentry hheader
  constructor
  · intro hloop
    obtain ⟨b, hb, rfl⟩ :=
      h.exists_of_leads hentry (hloop.leads ((h.leads_iff hentry hin).mpr hheader))
    exact ⟨b, (h.inLoop_iff hentry hin (h.mem_of_leads hentry hb)).mp hloop, rfl⟩
  · rintro ⟨b, hloop, rfl⟩
    have hb := h.mem_of_leads hentry (hloop.leads hheader)
    exact (h.inLoop_iff hentry hin hb).mpr hloop

/-- Loops are known by the bodies of their headers and by the verdict. -/
theorem LoopForest.eq_of_body? {l l' : LoopForest}
    (hbody : ∀ header, l.body? header = l'.body? header)
    (hreducible : l.reducible = l'.reducible) : l = l' := by
  cases l
  cases l'
  congr
  exact Std.ExtTreeMap.ext_getElem? fun {header} ↦ hbody header

namespace FlowGraph

variable {g g' : FlowGraph} {body : BlockSet}

/-! ### The search for a loop -/

namespace Describes

variable (h : g.Describes next entry)

include h

theorem isReachable_iff : g.isReachable b = true ↔ Leads next entry b := by
  rw [isReachable, Bool.or_eq_true, decide_eq_true_eq, decide_eq_true_eq, h.mem_idom, h.entry_eq]
  constructor
  · rintro (rfl | hb)
    · exact .refl b
    · exact hb.1
  · exact fun hb ↦ or_iff_not_imp_left.mpr fun hne ↦ ⟨hb, hne⟩

theorem mem_entry_cons_keys_iff : b ∈ g.entry :: g.idom.keys ↔ Leads next entry b := by
  rw [← h.isReachable_iff, isReachable, Bool.or_eq_true, decide_eq_true_eq, decide_eq_true_eq,
    List.mem_cons, Std.ExtTreeMap.mem_keys]

theorem mem_reachablePrior_iff : u ∈ g.reachablePrior v ↔ Leads next entry u ∧ v ∈ next u := by
  rw [reachablePrior, List.mem_filter, h.mem_prior, h.isReachable_iff, and_comm]

theorem mem_backSources_iff : u ∈ g.backSources header ↔
    Leads next entry u ∧ header ∈ next u ∧ Dominates next entry header u := by
  rw [← h.mem_backEdges_iff, backSources, List.mem_map]
  constructor
  · rintro ⟨⟨u, v⟩, hedge, rfl⟩
    obtain ⟨hback, hv⟩ := List.mem_filter.mp hedge
    exact of_decide_eq_true hv ▸ hback
  · exact fun hback ↦ ⟨(u, header), List.mem_filter.mpr ⟨hback, decide_eq_true rfl⟩, rfl⟩

/-- The search for a loop finds its blocks. -/
theorem mem_naturalLoop_iff : b ∈ g.naturalLoop header ↔ InLoop next entry header b := by
  have hprior : ∀ x, ∀ y ∈ g.reachablePrior x, y ∈ g.entry :: g.idom.keys := fun x y hy ↦
    h.mem_entry_cons_keys_iff.mpr (h.mem_reachablePrior_iff.mp hy).1
  have hsources : ∀ y ∈ g.backSources header, y ∈ g.entry :: g.idom.keys := fun y hy ↦
    h.mem_entry_cons_keys_iff.mpr (h.mem_backSources_iff.mp hy).1
  rw [naturalLoop, Search.mem_visited_explore_iff hprior hsources]
  constructor
  · refine fun hb ↦ hb.induct (.inl rfl) fun x y hx hy ↦ ?_
    by_cases hheader : y = header
    · exact .inl hheader
    · by_cases hstart : x = header
      · rw [hstart, Function.update_self, h.mem_backSources_iff] at hy
        exact .inr ⟨hy.1, y, [], hy.2.1, hy.2.2, .nil y, List.not_mem_nil, Ne.symm hheader⟩
      · rw [Function.update_of_ne hstart, h.mem_reachablePrior_iff] at hy
        exact hx.of_edge hstart hy.1 hy.2
  · refine fun hb ↦ hb.induct (.refl header) (fun x hx hback hdom ↦ ?_)
      fun x y hx edge _ hne hy ↦ hy.step ?_
    · refine (Leads.refl header).step ?_
      rw [Function.update_self]
      exact h.mem_backSources_iff.mpr ⟨hx, hback, hdom⟩
    · rw [Function.update_of_ne hne]
      exact h.mem_reachablePrior_iff.mpr ⟨hx, edge⟩

end Describes

/-! ### The family of loops -/

theorem eq_naturalLoop_of_body? (hbody : g.loops.body? header = some body) :
    header ∈ g.loops.headers ∧ body = g.naturalLoop header := by
  refine ⟨Std.ExtTreeMap.mem_keys.mpr (Std.ExtTreeMap.mem_iff_isSome_getElem?.mpr ?_), ?_⟩
  · rw [← LoopForest.body?, hbody]
    rfl
  · obtain ⟨edge, -, hedge⟩ := List.mem_map.mp (mem_of_getElem?_map_ofList hbody)
    obtain ⟨rfl, rfl⟩ := Prod.mk.inj hedge
    rfl

theorem body?_of_mem_headers (hheader : header ∈ g.loops.headers) :
    g.loops.body? header = some (g.naturalLoop header) := by
  obtain ⟨body, hbody⟩ := Option.isSome_iff_exists.mp
    (Std.ExtTreeMap.mem_iff_isSome_getElem?.mp (Std.ExtTreeMap.mem_keys.mp hheader))
  exact (eq_naturalLoop_of_body? hbody).2 ▸ hbody

namespace Describes

variable (h : g.Describes next entry)

include h

/-- The headers have bodies, and these hold the blocks of their loops. -/
theorem body?_eq_some_iff : g.loops.body? header = some body ↔
    IsHeader next entry header ∧ ∀ b, b ∈ body ↔ InLoop next entry header b := by
  rw [← h.mem_headers_iff]
  constructor
  · intro hbody
    obtain ⟨hheader, rfl⟩ := eq_naturalLoop_of_body? hbody
    exact ⟨hheader, fun b ↦ h.mem_naturalLoop_iff⟩
  · rintro ⟨hheader, hmem⟩
    rw [body?_of_mem_headers hheader, Option.some.injEq]
    refine Std.ExtTreeSet.ext_mem fun b ↦ ?_
    rw [h.mem_naturalLoop_iff, hmem]

/-- Graphs whose edges agree where the entry leads have the same loops. -/
theorem loops_eq_of_agree (h' : g'.Describes other entry)
    (hagree : ∀ b, Leads next entry b → ∀ v, v ∈ other b ↔ v ∈ next b) : g'.loops = g.loops := by
  refine LoopForest.eq_of_body? (fun header ↦ Option.ext fun body ↦ ?_) ?_
  · rw [h'.body?_eq_some_iff, h.body?_eq_some_iff, isHeader_iff_of_agree hagree]
    simp only [inLoop_iff_of_agree hagree]
  · rw [Bool.eq_iff_iff, h'.reducible_iff, h.reducible_iff, headedLoops_iff_of_agree hagree]

end Describes

/-- Every header has the blocks of its natural loop as its body. The header dominates them and is
the only one of them that is entered from outside. The bodies of different headers are disjoint, or
one lies inside the other. -/
theorem bodies_natural_nested (imp : Implementation) (hids : imp.blockIds.Nodup)
    (hblocks : imp.blocks ≠ []) :
    ∃ g, FlowGraph.of? imp = some g ∧ ∀ header ∈ g.loops.headers, ∃ body,
      g.loops.body? header = some body ∧
      (∀ b, b ∈ body ↔ b = header ∨ imp.Reachable b ∧ ∃ source left,
        header ∈ imp.targetsOf source ∧ imp.Dominates header source ∧
          Walk imp.targetsOf b left source ∧ header ∉ left ∧ header ≠ source) ∧
      (∀ b ∈ body, imp.Dominates header b) ∧
      (∀ u v, imp.Reachable u → u ∉ body → v ∈ imp.targetsOf u → v ∈ body → v = header) ∧
      ∀ header' body', header' ≠ header → g.loops.body? header' = some body' →
        (∀ b ∈ body, b ∉ body') ∨ (∀ b ∈ body, b ∈ body') ∨ ∀ b ∈ body', b ∈ body := by
  obtain ⟨entry, hentry⟩ :=
    Option.ne_none_iff_exists'.mp (mt Implementation.entry?_eq_none_iff.mp hblocks)
  obtain ⟨g, hg⟩ := exists_of? hentry
  have hdescribes := describes_of? hids hg hentry
  simp only [Implementation.reachable_iff hentry, Implementation.dominates_iff hentry]
  refine ⟨g, hg, fun header hheader ↦ ?_⟩
  have hbody := body?_of_mem_headers hheader
  obtain ⟨⟨source, hsource, hback, -⟩, hmem⟩ := hdescribes.body?_eq_some_iff.mp hbody
  refine ⟨_, hbody, hmem, fun b hb ↦ ((hmem b).mp hb).dominates, fun u v hu hout edge hv ↦ ?_,
    fun header' body' hne hbody' ↦ or_iff_not_imp_left.mpr fun hmeet ↦ ?_⟩
  · by_contra hne
    exact hout ((hmem u).mpr (((hmem v).mp hv).of_edge hne hu edge))
  · obtain ⟨-, hmem'⟩ := hdescribes.body?_eq_some_iff.mp hbody'
    simp only [hmem, hmem'] at hmeet ⊢
    push Not at hmeet
    obtain ⟨u, hu, hu'⟩ := hmeet
    have hleads := hu.leads (hsource.step hback)
    rcases hdescribes.dominates_total hleads hu.dominates hu'.dominates with hdom | hdom
    · exact .inr fun b ↦ InLoop.nested hdescribes (Ne.symm hne) hdom hleads hu hu'
    · exact .inl fun b ↦ InLoop.nested hdescribes hne hdom hleads hu' hu

/-- A loop within a loop beside a cycle that is entered at both of its blocks, and a block that
cannot be reached but leads into the inner loop. -/
def intertwined : Implementation where
  id := ⟨0⟩
  procedure := ⟨0⟩
  name := "intertwined"
  ins := []
  outs := []
  locals := []
  blocks :=
    [⟨⟨0⟩, "entry", [], .goto [⟨4⟩, ⟨6⟩, ⟨7⟩], [], .zero⟩,
      ⟨⟨4⟩, "outer", [], .goto [⟨2⟩, ⟨5⟩], [], .zero⟩,
      ⟨⟨2⟩, "inner", [], .goto [⟨2⟩, ⟨3⟩], [], .zero⟩,
      ⟨⟨3⟩, "latch", [], .goto [⟨2⟩, ⟨4⟩], [], .zero⟩,
      ⟨⟨5⟩, "exit", [], .ret, [], .zero⟩,
      ⟨⟨6⟩, "first", [], .goto [⟨7⟩], [], .zero⟩,
      ⟨⟨7⟩, "second", [], .goto [⟨6⟩], [], .zero⟩,
      ⟨⟨8⟩, "dead", [], .goto [⟨3⟩], [], .zero⟩]
  span := .zero

theorem bodies_natural_nested_intertwined :
    intertwined.blockIds.Nodup ∧ intertwined.blocks ≠ [] ∧
      ∃ g, FlowGraph.of? intertwined = some g ∧ g.loops.reducible = false ∧
        ⟨4⟩ ∈ g.loops.headers ∧ ∃ body inner, g.loops.body? ⟨4⟩ = some body ∧
          g.loops.body? ⟨2⟩ = some inner ∧ ⟨3⟩ ∈ body ∧ intertwined.Dominates ⟨4⟩ ⟨3⟩ ∧
          ((∀ b ∈ body, b ∉ inner) ∨ (∀ b ∈ body, b ∈ inner) ∨ ∀ b ∈ inner, b ∈ body) := by
  have hreducible : (FlowGraph.of? intertwined).map (·.loops.reducible) = some false := by
    decide +kernel
  have hheaders : (FlowGraph.of? intertwined).map (·.loops.headers) = some [⟨2⟩, ⟨4⟩] := by
    decide +kernel
  have hreach : intertwined.Reachable ⟨3⟩ := by decide +kernel
  have hdom : intertwined.Dominates ⟨4⟩ ⟨3⟩ := by decide +kernel
  obtain ⟨g, hg, hall⟩ := bodies_natural_nested intertwined (by decide) (List.cons_ne_nil _ _)
  rw [hg, Option.map_some, Option.some.injEq] at hreducible hheaders
  have houter : ⟨4⟩ ∈ g.loops.headers := hheaders ▸ by decide
  have hinner : ⟨2⟩ ∈ g.loops.headers := hheaders ▸ by decide
  obtain ⟨body, hbody, hmem, hdominates, -, hnested⟩ := hall ⟨4⟩ houter
  obtain ⟨inner, hinner, -⟩ := hall ⟨2⟩ hinner
  have hlatch : ⟨3⟩ ∈ body := (hmem ⟨3⟩).mpr
    (.inr ⟨hreach, ⟨3⟩, [], by decide, hdom, .nil _, List.not_mem_nil, by decide⟩)
  exact ⟨by decide, List.cons_ne_nil _ _, g, hg, hreducible, houter, body, inner, hbody, hinner,
    hlatch, hdominates ⟨3⟩ hlatch, hnested ⟨2⟩ inner (by decide) hinner⟩

end FlowGraph

end OwnershipFlow
