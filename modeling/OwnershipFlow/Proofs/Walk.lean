import Mathlib.Data.Nat.Init
import Mathlib.Tactic.ByContra
import OwnershipFlow.Ident

/-!
# Walks and dominance

A walk follows edges from block to block, any number of times round a loop. It is recorded by the
blocks that it leaves, in order, so the walk of no edge leaves none (`Walk.nil`) and the block at
which a walk ends is not in the record. Edges are given by a function from a block to its targets,
which serves flow graphs and implementations alike.

A block leads to another if there is a walk (`Leads`). Seen from an entry, a block dominates another
if every walk from the entry to the other meets it (`Dominates`); every block dominates a block to
which the entry does not lead. The nearest of its strict dominators is its immediate dominator
(`ImmediatelyDominates`), and it has only one. A graph has headed loops if every closed walk that
can be reached from the entry meets a block that dominates all blocks of the walk (`HeadedLoops`).

All of this depends on the edges at blocks to which the entry leads only (`walk_iff_of_agree`).
Where the blocks of a graph are renamed (`EdgeImage`), its walks are renamed with them
(`EdgeImage.walk_iff`), and so are dominators, immediate dominators, headers and headed loops.
-/

set_option autoImplicit false
set_option relaxedAutoImplicit false

namespace OwnershipFlow

variable {next : BlockId → List BlockId} {a b c entry : BlockId}

/-! ### Walks -/

/-- A walk along edges, with the blocks that it leaves in order. -/
inductive Walk (next : BlockId → List BlockId) : BlockId → List BlockId → BlockId → Prop
  | nil (a : BlockId) : Walk next a [] a
  | cons {a b c : BlockId} {left : List BlockId} (edge : b ∈ next a) (rest : Walk next b left c) :
      Walk next a (a :: left) c

namespace Walk

variable {left first second : List BlockId}

theorem single (edge : b ∈ next a) : Walk next a [a] b :=
  .cons edge (.nil b)

theorem append (hfirst : Walk next a first b) (hsecond : Walk next b second c) :
    Walk next a (first ++ second) c := by
  induction hfirst with
  | nil => exact hsecond
  | cons edge _ ih => exact .cons edge (ih hsecond)

theorem snoc (h : Walk next a left b) (edge : c ∈ next b) : Walk next a (left ++ [b]) c :=
  h.append (single edge)

/-- A walk is cut in two before any of the blocks that it leaves. -/
theorem split (h : Walk next a (first ++ b :: second) c) :
    Walk next a first b ∧ Walk next b (b :: second) c := by
  induction first generalizing a with
  | nil =>
    cases h with
    | cons edge rest => exact ⟨.nil _, .cons edge rest⟩
  | cons x first ih =>
    cases h with
    | cons edge rest =>
      obtain ⟨hfirst, hsecond⟩ := ih rest
      exact ⟨.cons edge hfirst, hsecond⟩

/-- The last edge of a walk. -/
theorem of_snoc (h : Walk next a (left ++ [b]) c) : Walk next a left b ∧ c ∈ next b := by
  obtain ⟨hfirst, hlast⟩ := split h
  cases hlast with
  | cons edge rest =>
    cases rest with
    | nil => exact ⟨hfirst, edge⟩

/-- A walk is one in every graph that has the edges out of the blocks left. -/
theorem mono {other : BlockId → List BlockId} (h : Walk next a left b)
    (hedges : ∀ x ∈ left, ∀ v ∈ next x, v ∈ other x) : Walk other a left b := by
  induction h with
  | nil => exact .nil _
  | cons edge _ ih =>
    exact .cons (hedges _ List.mem_cons_self _ edge)
      (ih fun x hx ↦ hedges x (List.mem_cons_of_mem _ hx))

end Walk

/-! ### Reachability -/

/-- Some walk goes from one block to another. -/
def Leads (next : BlockId → List BlockId) (a b : BlockId) : Prop :=
  ∃ left, Walk next a left b

namespace Leads

theorem refl (a : BlockId) : Leads next a a :=
  ⟨[], .nil a⟩

theorem step (h : Leads next a b) (edge : c ∈ next b) : Leads next a c := by
  obtain ⟨left, hwalk⟩ := h
  exact ⟨left ++ [b], hwalk.snoc edge⟩

theorem trans (hab : Leads next a b) (hbc : Leads next b c) : Leads next a c := by
  obtain ⟨first, hfirst⟩ := hab
  obtain ⟨second, hsecond⟩ := hbc
  exact ⟨first ++ second, hfirst.append hsecond⟩

/-- What holds at the start and is passed on along every edge holds wherever the start leads. -/
theorem induct {p : BlockId → Prop} (h : Leads next a b) (hstart : p a)
    (hstep : ∀ u v, p u → v ∈ next u → p v) : p b := by
  obtain ⟨left, hwalk⟩ := h
  induction hwalk with
  | nil => exact hstart
  | cons edge _ ih => exact ih (hstep _ _ hstart edge)

end Leads

/-- A closed walk can start at any of its blocks. -/
theorem Walk.rotate {before after : List BlockId} (h : Walk next a (before ++ b :: after) a) :
    Walk next b (b :: after ++ before) b :=
  h.split.2.append h.split.1

/-- Every block of a closed walk is entered from a block of the walk. -/
theorem Walk.exists_source {left : List BlockId} (h : Walk next a left a) (hb : b ∈ left) :
    ∃ source ∈ left, b ∈ next source := by
  obtain ⟨before, after, rfl⟩ := List.mem_iff_append.mp hb
  rcases List.eq_nil_or_concat (b :: after ++ before) with hnil | ⟨inner, source, hlast⟩
  · cases hnil
  · have hround := h.rotate
    rw [hlast, List.concat_eq_append] at hround
    have hsource : source ∈ b :: after ++ before := by simp [hlast]
    refine ⟨source, ?_, hround.of_snoc.2⟩
    rwa [List.mem_append, or_comm, ← List.mem_append]

/-- Every block that a walk leaves lies on the way from its start. -/
theorem Walk.leads_of_mem {left : List BlockId} (h : Walk next a left c) (hb : b ∈ left) :
    Leads next a b := by
  obtain ⟨first, second, rfl⟩ := List.mem_iff_append.mp hb
  exact ⟨first, (Walk.split h).1⟩

/-! ### Dominance -/

/-- Every walk from the entry to a block meets a given block. -/
def Dominates (next : BlockId → List BlockId) (entry a b : BlockId) : Prop :=
  ∀ left, Walk next entry left b → a ∈ left ∨ a = b

namespace Dominates

theorem refl (a : BlockId) : Dominates next entry a a :=
  fun _ _ ↦ Or.inr rfl

/-- A strict dominator of a block dominates the blocks with an edge to it. -/
theorem of_edge (h : Dominates next entry a c) (hne : a ≠ c) (edge : c ∈ next b) :
    Dominates next entry a b := by
  intro left hwalk
  rcases h _ (hwalk.snoc edge) with ha | ha
  · rcases List.mem_append.mp ha with ha | ha
    · exact Or.inl ha
    · exact Or.inr (List.mem_singleton.mp ha)
  · exact absurd ha hne

/-- Only the entry dominates the entry. -/
theorem eq_entry (h : Dominates next entry a entry) : a = entry := by
  rcases h [] (.nil entry) with ha | ha
  · exact absurd ha List.not_mem_nil
  · exact ha

theorem leads (h : Dominates next entry a b) (hb : Leads next entry b) : Leads next entry a := by
  obtain ⟨left, hwalk⟩ := hb
  rcases h left hwalk with ha | rfl
  · exact hwalk.leads_of_mem ha
  · exact ⟨left, hwalk⟩

/-- Two blocks that dominate each other are one, if the entry leads to them: otherwise every walk to
one of them would contain a shorter one. -/
theorem antisymm (hab : Dominates next entry a b) (hba : Dominates next entry b a)
    (hb : Leads next entry b) : a = b := by
  by_contra hne
  obtain ⟨left, hwalk⟩ := hb
  induction hn : left.length using Nat.strong_induction_on generalizing left with
  | _ n ih =>
    obtain ⟨first, second, rfl⟩ :=
      List.mem_iff_append.mp ((hab left hwalk).resolve_right hne)
    have hfirst := hwalk.split.1
    obtain ⟨before, after, rfl⟩ :=
      List.mem_iff_append.mp ((hba first hfirst).resolve_right (Ne.symm hne))
    refine ih before.length ?_ before hfirst.split.1 rfl
    simp only [List.length_append, List.length_cons] at hn
    omega

end Dominates

/-- A strict dominator of a block that all other strict dominators of the block dominate. -/
structure ImmediatelyDominates (next : BlockId → List BlockId) (entry a b : BlockId) : Prop where
  ne : a ≠ b
  dominates : Dominates next entry a b
  nearest : ∀ c, c ≠ b → Dominates next entry c b → Dominates next entry c a

/-- A block to which the entry leads has at most one immediate dominator. -/
theorem ImmediatelyDominates.unique (ha : ImmediatelyDominates next entry a b)
    (hc : ImmediatelyDominates next entry c b) (hb : Leads next entry b) : a = c :=
  (hc.nearest a ha.ne ha.dominates).antisymm (ha.nearest c hc.ne hc.dominates)
    (hc.dominates.leads hb)

/-- The targets of a block other than a given one. -/
def avoiding (next : BlockId → List BlockId) (a b : BlockId) : List BlockId :=
  (next b).filter (· ≠ a)

/-- A walk that avoids a block is a walk that does not meet it after its start. -/
theorem walk_avoiding_iff {left : List BlockId} (hb : b ≠ a) :
    Walk (avoiding next a) b left c ↔ Walk next b left c ∧ a ∉ left ∧ a ≠ c := by
  constructor
  · intro h
    induction h with
    | nil => exact ⟨.nil _, List.not_mem_nil, hb.symm⟩
    | cons edge _ ih =>
      obtain ⟨hedge, hne⟩ := List.mem_filter.mp edge
      obtain ⟨hwalk, hnot, hend⟩ := ih (of_decide_eq_true hne)
      refine ⟨.cons hedge hwalk, fun hin ↦ ?_, hend⟩
      exact (List.mem_cons.mp hin).elim (fun heq ↦ hb heq.symm) hnot
  · rintro ⟨h, hnot, hend⟩
    induction h with
    | nil => exact .nil _
    | @cons b d c left edge rest ih =>
      have hd : d ≠ a := by
        rintro rfl
        cases rest with
        | nil => exact hend rfl
        | cons _ _ => exact hnot (List.mem_cons_of_mem _ List.mem_cons_self)
      exact .cons (List.mem_filter.mpr ⟨edge, decide_eq_true hd⟩)
        (ih hd (fun hin ↦ hnot (List.mem_cons_of_mem _ hin)) hend)

/-- A block dominates itself, and the entry dominates all blocks; otherwise dominance means that
avoiding the dominator cuts the block off. -/
theorem dominates_iff_avoiding :
    Dominates next entry a b ↔ a = entry ∨ a = b ∨ ¬ Leads (avoiding next a) entry b := by
  constructor
  · intro h
    by_cases ha : a = entry
    · exact Or.inl ha
    · refine Or.inr (or_iff_not_imp_right.mpr fun hleads ↦ ?_)
      obtain ⟨left, hwalk⟩ := not_not.mp hleads
      obtain ⟨hwalk, hnot, hne⟩ := (walk_avoiding_iff fun heq ↦ ha heq.symm).mp hwalk
      exact (h left hwalk).resolve_left hnot
  · intro h left hwalk
    by_cases ha : a = entry
    · subst ha
      cases hwalk with
      | nil => exact Or.inr rfl
      | cons _ _ => exact Or.inl List.mem_cons_self
    · refine not_not.mp fun hmeet ↦ ?_
      rw [not_or] at hmeet
      refine (h.resolve_left ha).elim hmeet.2 fun hleads ↦ hleads ⟨left, ?_⟩
      exact (walk_avoiding_iff fun heq ↦ ha heq.symm).mpr ⟨hwalk, hmeet⟩

/-! ### Loops with a header -/

/-- Every closed walk that the entry leads to meets a block that dominates all of its blocks. -/
def HeadedLoops (next : BlockId → List BlockId) (entry : BlockId) : Prop :=
  ∀ start left, Leads next entry start → Walk next start left start → left ≠ [] →
    ∃ header ∈ left, ∀ b ∈ left, Dominates next entry header b

/-- A block that dominates the source of an edge to it. -/
def IsHeader (next : BlockId → List BlockId) (entry header : BlockId) : Prop :=
  ∃ source, Leads next entry source ∧ header ∈ next source ∧ Dominates next entry header source

theorem IsHeader.leads (h : IsHeader next entry a) : Leads next entry a := by
  obtain ⟨source, hsource, hedge, -⟩ := h
  exact hsource.step hedge

/-! ### Graphs that agree where the entry leads -/

section Agree

variable {other : BlockId → List BlockId}
  (hagree : ∀ b, Leads next entry b → ∀ v, v ∈ other b ↔ v ∈ next b)

include hagree

theorem walk_iff_of_agree {left : List BlockId} (ha : Leads next entry a) :
    Walk other a left b ↔ Walk next a left b := by
  constructor
  · intro h
    induction h with
    | nil => exact .nil _
    | cons edge _ ih =>
      have edge' := (hagree _ ha _).mp edge
      exact .cons edge' (ih (ha.step edge'))
  · exact fun h ↦ h.mono fun x hx v ↦ (hagree x (ha.trans (h.leads_of_mem hx)) v).mpr

theorem leads_iff_of_agree : Leads other entry b ↔ Leads next entry b :=
  exists_congr fun _ ↦ walk_iff_of_agree hagree (.refl entry)

theorem dominates_iff_of_agree : Dominates other entry a b ↔ Dominates next entry a b :=
  forall_congr' fun _ ↦ imp_congr_left (walk_iff_of_agree hagree (.refl entry))

theorem headedLoops_iff_of_agree : HeadedLoops other entry ↔ HeadedLoops next entry := by
  refine forall₂_congr fun start left ↦ ?_
  rw [leads_iff_of_agree hagree]
  refine imp_congr_right fun hstart ↦ ?_
  rw [walk_iff_of_agree hagree hstart]
  simp only [dominates_iff_of_agree hagree]

theorem immediatelyDominates_iff_of_agree :
    ImmediatelyDominates other entry a b ↔ ImmediatelyDominates next entry a b := by
  constructor
  · rintro ⟨hne, hdom, hnearest⟩
    simp only [dominates_iff_of_agree hagree] at hdom hnearest
    exact ⟨hne, hdom, hnearest⟩
  · rintro ⟨hne, hdom, hnearest⟩
    refine ⟨hne, (dominates_iff_of_agree hagree).mpr hdom, fun c hc hcb ↦ ?_⟩
    rw [dominates_iff_of_agree hagree] at hcb ⊢
    exact hnearest c hc hcb

theorem isHeader_iff_of_agree : IsHeader other entry a ↔ IsHeader next entry a := by
  refine exists_congr fun source ↦ ?_
  rw [leads_iff_of_agree hagree, dominates_iff_of_agree hagree]
  refine and_congr_right fun hsource ↦ ?_
  rw [hagree source hsource]

end Agree

/-! ### Renamed graphs -/

/-- Edges are those of another graph between given blocks, with the blocks renamed. Different blocks
have different names, and no edge leaves the given blocks. -/
structure EdgeImage (r : BlockId → BlockId) (blocks : List BlockId)
    (next other : BlockId → List BlockId) : Prop where
  inj : ∀ a ∈ blocks, ∀ b ∈ blocks, r a = r b → a = b
  closed : ∀ b ∈ blocks, ∀ v ∈ next b, v ∈ blocks
  next_eq : ∀ b ∈ blocks, other (r b) = (next b).map r

namespace EdgeImage

variable {other : BlockId → List BlockId} {r : BlockId → BlockId} {blocks left left' : List BlockId}
  {b' : BlockId} (h : EdgeImage r blocks next other)

include h

theorem mem_map_iff {l : List BlockId} (hl : ∀ x ∈ l, x ∈ blocks) (ha : a ∈ blocks) :
    r a ∈ l.map r ↔ a ∈ l := by
  constructor
  · intro hin
    obtain ⟨x, hx, heq⟩ := List.mem_map.mp hin
    exact h.inj x (hl x hx) a ha heq ▸ hx
  · exact List.mem_map_of_mem

theorem mem_next_iff (ha : a ∈ blocks) (hb : b ∈ blocks) : r b ∈ other (r a) ↔ b ∈ next a := by
  rw [h.next_eq a ha, h.mem_map_iff (h.closed a ha) hb]

theorem mem_of_leads (ha : a ∈ blocks) (hleads : Leads next a b) : b ∈ blocks :=
  hleads.induct ha fun u v hu hv ↦ h.closed u hu v hv

theorem mem_of_walk (ha : a ∈ blocks) (hwalk : Walk next a left b) : ∀ x ∈ left, x ∈ blocks :=
  fun _ hx ↦ h.mem_of_leads ha (hwalk.leads_of_mem hx)

/-! #### Walks -/

theorem walk (ha : a ∈ blocks) (hwalk : Walk next a left b) :
    Walk other (r a) (left.map r) (r b) := by
  induction hwalk with
  | nil => exact .nil _
  | cons edge _ ih =>
    refine .cons ?_ (ih (h.closed _ ha _ edge))
    rw [h.next_eq _ ha]
    exact List.mem_map_of_mem edge

/-- Every walk of the renamed graph is a walk with its blocks renamed. -/
theorem exists_walk (ha : a ∈ blocks) (hwalk : Walk other (r a) left' b') :
    ∃ left b, Walk next a left b ∧ left' = left.map r ∧ b' = r b := by
  generalize hstart : r a = a' at hwalk
  induction hwalk generalizing a with
  | nil => exact ⟨[], a, .nil a, rfl, hstart.symm⟩
  | cons edge _ ih =>
    subst hstart
    rw [h.next_eq a ha] at edge
    obtain ⟨c, hc, heq⟩ := List.mem_map.mp edge
    obtain ⟨left, b, hwalk, rfl, hend⟩ := ih (h.closed a ha c hc) heq
    exact ⟨a :: left, b, .cons hc hwalk, rfl, hend⟩

theorem walk_iff (ha : a ∈ blocks) (hb : b ∈ blocks) :
    Walk other (r a) left' (r b) ↔ ∃ left, Walk next a left b ∧ left' = left.map r := by
  constructor
  · intro hwalk
    obtain ⟨left, c, hleft, heq, hend⟩ := h.exists_walk ha hwalk
    obtain rfl := h.inj b hb c (h.mem_of_leads ha ⟨left, hleft⟩) hend
    exact ⟨left, hleft, heq⟩
  · rintro ⟨left, hwalk, rfl⟩
    exact h.walk ha hwalk

theorem leads_iff (ha : a ∈ blocks) (hb : b ∈ blocks) :
    Leads other (r a) (r b) ↔ Leads next a b := by
  constructor
  · rintro ⟨_, hwalk⟩
    obtain ⟨left, hleft, -⟩ := (h.walk_iff ha hb).mp hwalk
    exact ⟨left, hleft⟩
  · rintro ⟨left, hwalk⟩
    exact ⟨left.map r, h.walk ha hwalk⟩

theorem exists_of_leads (ha : a ∈ blocks) (hleads : Leads other (r a) b') :
    ∃ b, Leads next a b ∧ b' = r b := by
  obtain ⟨_, hwalk⟩ := hleads
  obtain ⟨left, b, hleft, -, rfl⟩ := h.exists_walk ha hwalk
  exact ⟨b, ⟨left, hleft⟩, rfl⟩

/-! #### Dominance -/

section Entry

variable (hentry : entry ∈ blocks)

include hentry

theorem dominates_iff (ha : a ∈ blocks) (hb : b ∈ blocks) :
    Dominates other (r entry) (r a) (r b) ↔ Dominates next entry a b := by
  constructor
  · intro hall left hwalk
    rw [← h.mem_map_iff (h.mem_of_walk hentry hwalk) ha]
    exact (hall _ (h.walk hentry hwalk)).imp_right (h.inj a ha b hb)
  · intro hall left' hwalk
    obtain ⟨left, hleft, rfl⟩ := (h.walk_iff hentry hb).mp hwalk
    exact (hall left hleft).imp List.mem_map_of_mem (congrArg r)

theorem immediatelyDominates_iff (ha : a ∈ blocks) (hb : Leads next entry b) :
    ImmediatelyDominates other (r entry) (r a) (r b) ↔ ImmediatelyDominates next entry a b := by
  have hmem := h.mem_of_leads hentry hb
  constructor
  · rintro ⟨hne, hdom, hnearest⟩
    refine ⟨ne_of_apply_ne r hne, (h.dominates_iff hentry ha hmem).mp hdom, fun c hc hcb ↦ ?_⟩
    have hin := h.mem_of_leads hentry (hcb.leads hb)
    rw [← h.dominates_iff hentry hin ha]
    exact hnearest (r c) (mt (h.inj c hin b hmem) hc) ((h.dominates_iff hentry hin hmem).mpr hcb)
  · rintro ⟨hne, hdom, hnearest⟩
    refine ⟨mt (h.inj a ha b hmem) hne, (h.dominates_iff hentry ha hmem).mpr hdom,
      fun c' hc hcb ↦ ?_⟩
    obtain ⟨c, hleads, rfl⟩ :=
      h.exists_of_leads hentry (hcb.leads ((h.leads_iff hentry hmem).mpr hb))
    have hin := h.mem_of_leads hentry hleads
    rw [h.dominates_iff hentry hin ha]
    exact hnearest c (ne_of_apply_ne r hc) ((h.dominates_iff hentry hin hmem).mp hcb)

theorem isHeader_iff (ha : a ∈ blocks) :
    IsHeader other (r entry) (r a) ↔ IsHeader next entry a := by
  constructor
  · rintro ⟨source', hsource', hedge, hdom⟩
    obtain ⟨source, hsource, rfl⟩ := h.exists_of_leads hentry hsource'
    have hin := h.mem_of_leads hentry hsource
    exact ⟨source, hsource, (h.mem_next_iff hin ha).mp hedge,
      (h.dominates_iff hentry ha hin).mp hdom⟩
  · rintro ⟨source, hsource, hedge, hdom⟩
    have hin := h.mem_of_leads hentry hsource
    exact ⟨r source, (h.leads_iff hentry hin).mpr hsource, (h.mem_next_iff hin ha).mpr hedge,
      (h.dominates_iff hentry ha hin).mpr hdom⟩

theorem headedLoops_iff : HeadedLoops other (r entry) ↔ HeadedLoops next entry := by
  constructor
  · intro hall start left hstart hwalk hne
    have hin := h.mem_of_leads hentry hstart
    have hleft := h.mem_of_walk hin hwalk
    obtain ⟨header', hheader', hdom⟩ := hall (r start) (left.map r)
      ((h.leads_iff hentry hin).mpr hstart) (h.walk hin hwalk) (mt List.map_eq_nil_iff.mp hne)
    obtain ⟨header, hheader, rfl⟩ := List.mem_map.mp hheader'
    exact ⟨header, hheader, fun b hb ↦ (h.dominates_iff hentry (hleft _ hheader) (hleft b hb)).mp
      (hdom (r b) (List.mem_map_of_mem hb))⟩
  · intro hall start' left' hstart' hwalk' hne
    obtain ⟨start, hstart, rfl⟩ := h.exists_of_leads hentry hstart'
    have hin := h.mem_of_leads hentry hstart
    obtain ⟨left, hwalk, rfl⟩ := (h.walk_iff hin hin).mp hwalk'
    have hleft := h.mem_of_walk hin hwalk
    obtain ⟨header, hheader, hdom⟩ := hall start left hstart hwalk (mt (congrArg (List.map r)) hne)
    refine ⟨r header, List.mem_map_of_mem hheader, fun b' hb' ↦ ?_⟩
    obtain ⟨b, hb, rfl⟩ := List.mem_map.mp hb'
    exact (h.dominates_iff hentry (hleft _ hheader) (hleft b hb)).mpr (hdom b hb)

end Entry

end EdgeImage

end OwnershipFlow
