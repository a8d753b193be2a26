import OwnershipFlow.Instrumenter.Disjointness
import OwnershipFlow.Proofs.Copying
import OwnershipFlow.Proofs.Preservation

/-!
# Resolving copies and analysing them anew

What is known about the points of copies can be found in two ways: by looking up what a point
stands for in the record of the original program, or by checking the new program, which analyses
every implementation again. The two agree (`resolved_eq_reanalysed`).

A run of copies may copy copies, as long as no counter passes its greatest value (`Copies`). After
each step, every implementation stands for one of the original program (`Tracks`): its points stand
for the points of that one, and the analysis finds the same at both (`StandsFor`). A new copy stands
for what its source stands for, as it renames its source. All blocks and commands of the new program
are distinct, so no implementation's table overwrites entries of another one's, and the records of
both programs hold at these points what the analysis of the implementation finds.

The parameters of an implementation are looked up under the identifier that its record carries, and
not under the one that it stands under. At implementations as a whole the two ways agree if no two
records carry the same identifier (`DistinctRecords`).
-/

set_option autoImplicit false
set_option relaxedAutoImplicit false

namespace OwnershipFlow

variable {p q q' : Program} {o : Origins} {imp d source src : Implementation} {id : ImplId}
  {n : Node} {s : Supply}

/-! ### Points of a program -/

/-- The points of an implementation at which scope can be asked for. -/
def Implementation.points (imp : Implementation) : List Point :=
  .implementation imp :: imp.blocks.flatMap fun b ↦
    .block b.id :: b.commands.map (.command ·.id)

theorem Implementation.map_node_points : imp.points.map Point.node = imp.nodes := by
  unfold points nodes
  rw [List.map_cons, List.map_flatMap]
  refine congrArg _ (List.flatMap_congr fun b _ ↦ ?_)
  rw [List.map_cons, List.map_map]
  rfl

/-- The record of a program, taken over to a program with other implementations. -/
def Checked.reanalysed (c : Checked) (q : Program) : Checked :=
  { c with
    signatures := q.signatures
    registry := { c.registry with available := q.allAvailable } }

/-- An instrumenter that takes all nodes of a program for its own, none of them for derived. -/
def Instrumenter.reanalysed (t : Instrumenter) (q : Program) : Instrumenter :=
  { t with checked := t.checked.reanalysed q, origins := .empty }

namespace Program

/-- No two implementations carry the same identifier. -/
def DistinctRecords (p : Program) : Prop :=
  (p.implementations.values.map Implementation.id).Nodup

instance (p : Program) : Decidable p.DistinctRecords :=
  inferInstanceAs (Decidable (List.Nodup _))

/-! ### Runs of copies -/

/-- The programs that come from a program by copying implementations that are present, originals and
copies alike, with the origins recorded on the way. No counter passes its greatest value. -/
inductive Copies (p : Program) : Program → Origins → Prop
  | start : Copies p p .empty
  | copy {q q' : Program} {o : Origins} {source derived : Implementation}
      {links : List (Node × Node)} (id : ImplId) (before : Copies p q o)
      (hsource : q.implementations[id]? = some source) (hfits : source.FitsIn q.supply)
      (step : q.copyImplementation? id = some (derived, links, q')) : Copies p q' (o.record links)

/-- An implementation stands for one of the original program: its points stand for the points of
that one, and an analysis finds the same at both. -/
structure StandsFor (p : Program) (o : Origins) (d src : Implementation) : Prop where
  nodes : d.nodes.map o.resolve = src.nodes
  ins : d.ins = src.ins
  available : d.nodes.map (fun n ↦ (p.availability d)[n]?) =
    src.nodes.map (fun n ↦ (p.availability src)[n]?)

theorem StandsFor.congr {o' : Origins} (h : p.StandsFor o d src)
    (heq : ∀ n ∈ d.nodes, o'.get? n = o.get? n) : p.StandsFor o' d src := by
  refine ⟨?_, h.ins, h.available⟩
  rw [← h.nodes]
  refine List.map_congr_left fun n hn ↦ ?_
  rw [Origins.resolve, Origins.resolve, heq n hn]

/-- What holds of a program after a run of copies. -/
structure Tracks (p q : Program) (o : Origins) : Prop where
  vars : q.vars = p.vars
  globals : q.globals = p.globals
  procedures : q.procedures = p.procedures
  nodup : q.flowNodes.Nodup
  issued : ∀ (id : ImplId) imp, q.implementations[id]? = some imp → imp.IssuedBy q.supply
  leads : o.LeadsTo q.supply.Issued
  sources : ∀ (id : ImplId) d, q.implementations[id]? = some d →
    ∃ (id' : ImplId) (src : Implementation), p.implementations[id']? = some src ∧
      p.StandsFor o d src

theorem tracks_start (hnodup : p.flowNodes.Nodup)
    (hissued : ∀ (id : ImplId) imp, p.implementations[id]? = some imp → imp.IssuedBy p.supply) :
    p.Tracks p .empty where
  vars := rfl
  globals := rfl
  procedures := rfl
  nodup := hnodup
  issued := hissued
  leads := Origins.leadsTo_empty
  sources := by
    intro id d hd
    refine ⟨id, d, hd, ?_, rfl, rfl⟩
    refine (List.map_congr_left fun n _ ↦ ?_).trans (List.map_id _)
    exact Origins.resolve_of_get?_eq_none (Origins.get?_empty n)

/-- A copy stands for what its source stands for. -/
theorem StandsFor.copy (h : p.StandsFor o source src) (hnodup : source.nodes.Nodup)
    (hissued : source.IssuedBy s) (hfits : source.FitsIn s) (hleads : o.LeadsTo s.Issued) :
    p.StandsFor (o.record (Implementation.copyPairs (source.copy s).1 source)) (source.copy s).1
      src := by
  have hsource := Implementation.nodup_nodes_iff.mp hnodup
  have hderived := Implementation.nodup_nodes_iff.mp
    (Implementation.nodup_nodes_copy hsource.1 hfits)
  have hcopy := Implementation.copy_renames hsource.1 hfits hissued.2
  refine ⟨?_, hcopy.ins.trans h.ins, ?_⟩
  · rw [Implementation.map_resolve_record_copyPairs hsource.1 hfits hcopy.length_nodes hissued.1
      hleads, h.nodes]
  · rw [← h.available]
    exact (hcopy.map_availability_nodes hsource.1 hderived.1 hsource.2 hderived.2).symm

/-- After a copy there is the copy, and what was there before. -/
theorem getElem?_of_copyImplementation? {derived : Implementation} {links : List (Node × Node)}
    (h : q.copyImplementation? id = some (derived, links, q')) :
    ∃ source, q.implementations[id]? = some source ∧ derived = (source.copy q.supply).1 ∧
      links = Implementation.copyPairs derived source ∧
      q' = { q with
        implementations := q.implementations.insert derived.id derived
        supply := (source.copy q.supply).2 } := by
  obtain ⟨source, hsource, heq⟩ := Option.map_eq_some_iff.mp h
  cases heq
  exact ⟨source, hsource, rfl, rfl, rfl⟩

/-- A step of a run keeps all of this. -/
theorem Tracks.copy (h : p.Tracks q o) {derived : Implementation} {links : List (Node × Node)}
    (hsource : q.implementations[id]? = some source) (hfits : source.FitsIn q.supply)
    (hcopy : q.copyImplementation? id = some (derived, links, q')) :
    p.Tracks q' (o.record links) := by
  obtain ⟨present, hpresent, hderived, rfl, rfl⟩ := getElem?_of_copyImplementation? hcopy
  obtain rfl : source = present := Option.some.inj (hsource.symm.trans hpresent)
  have hids := nodup_of_nodup_flowNodes h.nodup hsource
  have hnodup := Implementation.nodup_nodes_iff.mpr hids
  have hissued := h.issued _ _ hsource
  have hnew : ∀ n ∈ derived.nodes, ¬ q.supply.Issued n ∧ (source.copy q.supply).2.Issued n :=
    fun n hn ↦ Implementation.mem_nodes_copy hids.1 hfits (hderived ▸ hn)
  have hkept : ∀ n, q.supply.Issued n →
      (o.record (derived.copyPairs source)).get? n = o.get? n := fun n hn ↦ hderived ▸
    Implementation.get?_record_copyPairs_of_issued hids.1 hfits hissued.1 h.leads hn
  constructor
  case vars => exact h.vars
  case globals => exact h.globals
  case procedures => exact h.procedures
  case nodup =>
    refine nodup_flowNodes_insert h.nodup ?_ (fun k imp himp _ n hn hn' ↦ ?_) rfl
    · exact (List.nodup_cons.mp (hderived ▸ Implementation.nodup_nodes_copy hids.1 hfits)).2
    · exact (hnew n (List.mem_cons_of_mem _ hn)).1
        ((h.issued k imp himp).1 n (List.mem_cons_of_mem _ hn'))
  case issued =>
    intro k imp himp
    rcases eq_or_of_getElem?_map_insert himp with ⟨-, rfl⟩ | ⟨-, himp⟩
    · exact ⟨fun n hn ↦ (hnew n hn).2,
        hderived ▸ Implementation.issued_target_copy hids.1 hfits hissued.2⟩
    · have hbefore := h.issued k imp himp
      exact ⟨fun n hn ↦ Implementation.issued_copy hfits (hbefore.1 n hn),
        fun b hb t ht ↦ Implementation.issued_copy hfits (hbefore.2 b hb t ht)⟩
  case leads =>
    intro n m hget
    exact Implementation.issued_copy hfits (h.leads.record
      (hderived ▸ Implementation.new_old_copyPairs hids.1 hfits hissued.1) n m hget)
  case sources =>
    intro k d hd
    rcases eq_or_of_getElem?_map_insert hd with ⟨-, rfl⟩ | ⟨-, hd⟩
    · obtain ⟨id', src, hsrc, hstands⟩ := h.sources _ _ hsource
      exact ⟨id', src, hsrc, hderived ▸ hstands.copy hnodup hissued hfits h.leads⟩
    · obtain ⟨id', src, hsrc, hstands⟩ := h.sources _ _ hd
      exact ⟨id', src, hsrc, hstands.congr fun n hn ↦ hkept n ((h.issued _ _ hd).1 n hn)⟩

theorem Copies.tracks (hnodup : p.flowNodes.Nodup)
    (hissued : ∀ (id : ImplId) imp, p.implementations[id]? = some imp → imp.IssuedBy p.supply)
    (h : Copies p q o) : p.Tracks q o := by
  induction h with
  | start => exact tracks_start hnodup hissued
  | copy id _ hsource hfits step ih => exact ih.copy hsource hfits step

/-! ### What is available -/

/-- What the original program has on record for what a point stands for is what an analysis of the
whole new program finds at the point. -/
theorem Tracks.getElem?_resolve (h : p.Tracks q o) (hnodup : p.flowNodes.Nodup)
    (hd : q.implementations[id]? = some d) (hn : n ∈ d.nodes) :
    p.allAvailable[o.resolve n]? = q.allAvailable[n]? := by
  obtain ⟨id', src, hsrc, hstands⟩ := h.sources id d hd
  have hall : d.nodes.map (fun n ↦ p.allAvailable[o.resolve n]?) =
      d.nodes.map (fun n ↦ q.allAvailable[n]?) := by
    calc d.nodes.map (fun n ↦ p.allAvailable[o.resolve n]?)
        = (d.nodes.map o.resolve).map (fun m ↦ p.allAvailable[m]?) := by rw [List.map_map]; rfl
      _ = src.nodes.map (fun m ↦ p.allAvailable[m]?) := by rw [hstands.nodes]
      _ = src.nodes.map (fun m ↦ (p.availability src)[m]?) :=
          List.map_congr_left fun m hm ↦ getElem?_allAvailable_of_mem_nodes hnodup hsrc hm
      _ = d.nodes.map (fun n ↦ (q.availability d)[n]?) := by
          rw [← hstands.available, availability_congr h.vars h.procedures]
      _ = d.nodes.map (fun n ↦ q.allAvailable[n]?) :=
          (List.map_congr_left fun n hn ↦ getElem?_allAvailable_of_mem_nodes h.nodup hd hn).symm
  exact List.map_inj_left.mp hall n hn

/-- What is on record for what a point stands for is what is on record for the new program. -/
theorem Tracks.availableAt_eq (h : p.Tracks q o) (hnodup : p.flowNodes.Nodup) {r : Registry}
    (havailable : r.available = p.allAvailable) (hd : q.implementations[id]? = some d)
    (hn : n ∈ d.nodes) : r.availableAt (o.resolve n) =
      Registry.availableAt { r with available := q.allAvailable } n := by
  unfold Registry.availableAt
  rw [Std.ExtTreeMap.getD_eq_getD_getElem?, Std.ExtTreeMap.getD_eq_getD_getElem?, havailable,
    h.getElem?_resolve hnodup hd hn]

/-! ### What an instrumenter answers -/

/-- The parameter lists of an implementation are on record. -/
theorem getElem?_signatures (h : p.DistinctRecords) (himp : p.implementations[id]? = some imp) :
    p.signatures[Node.implementation imp.id]? = some ⟨imp.ins, imp.outs⟩ := by
  refine getElem?_map_ofList_append ?_ (List.mem_map_of_mem (mem_values_iff.mpr ⟨id, himp⟩))
  have hinjective : Function.Injective Node.implementation := fun _ _ heq ↦ by injection heq
  have hkeys := h.map hinjective
  rw [List.map_map] at hkeys ⊢
  exact hkeys

/-- A program with further implementations is accepted if the original one is. -/
theorem Tracks.check_eq (h : p.Tracks q o) {c : Checked} (hcheck : p.check = .ok c) :
    c.signatures = p.signatures ∧ c.registry.available = p.allAvailable ∧
      q.check = .ok (c.reanalysed q) := by
  obtain ⟨hfault, rfl⟩ := eq_of_check hcheck
  refine ⟨rfl, rfl, (check_eq_ok (h.vars ▸ hfault)).trans ?_⟩
  unfold Checked.reanalysed greatestLayer registry domainNumbers domainNames declarations
  rw [h.vars, h.globals]

/-- A copy's parameters are those on record for what it stands for. -/
theorem StandsFor.ins_eq (h : p.DistinctRecords) (hstands : p.StandsFor o d src)
    (hsrc : p.implementations[id]? = some src) :
    ((o.get? (.implementation d.id)).bind (p.signatures[·]?)).elim d.ins Signature.ins = d.ins := by
  have hhead : o.resolve (.implementation d.id) = .implementation src.id :=
    (List.cons.inj hstands.nodes).1
  unfold Origins.resolve at hhead
  cases hget : o.get? (.implementation d.id) with
  | none => rfl
  | some m =>
    rw [hget, Option.getD_some] at hhead
    rw [hhead, Option.bind_some, getElem?_signatures h hsrc, Option.elim_some, hstands.ins]

/-- An instrumenter that resolves copies finds the same scope at the points of all implementations
as one that has the new program on record. -/
theorem Tracks.localScope_eq (h : p.Tracks q o) (hnodup : p.flowNodes.Nodup) {t : Instrumenter}
    (horigins : t.origins = o) (hsignatures : t.checked.signatures = p.signatures)
    (havailable : t.checked.registry.available = p.allAvailable)
    (hd : q.implementations[id]? = some d) {point : Point} (hpoint : point ∈ d.points)
    (hrecords : point = .implementation d → p.DistinctRecords) :
    t.localScope point = (t.reanalysed q).localScope point := by
  have hflow : ∀ n ∈ d.nodes, t.flowScope n = (t.reanalysed q).flowScope n := by
    intro n hn
    unfold Instrumenter.flowScope
    rw [horigins, h.availableAt_eq hnodup havailable hd hn]
    rfl
  have hnode : point.node ∈ d.nodes := by
    rw [← d.map_node_points]
    exact List.mem_map_of_mem hpoint
  rcases List.mem_cons.mp hpoint with rfl | hpoint
  · obtain ⟨id', src, hsrc, hstands⟩ := h.sources id d hd
    have hentry : t.entryScope (.implementation d.id) d.ins = t.ownedAtEntry d.ins := by
      unfold Instrumenter.entryScope Checked.signature?
      rw [horigins, hsignatures, hstands.ins_eq (hrecords rfl) hsrc]
    have hentry' : (t.reanalysed q).entryScope (.implementation d.id) d.ins =
        t.ownedAtEntry d.ins := by
      unfold Instrumenter.entryScope Instrumenter.reanalysed
      rw [Origins.get?_empty, Option.bind_none, Option.elim_none]
      rfl
    exact hentry.trans hentry'.symm
  · obtain ⟨b, -, hin⟩ := List.mem_flatMap.mp hpoint
    rcases List.mem_cons.mp hin with rfl | hin
    · exact hflow _ hnode
    · obtain ⟨c, -, rfl⟩ := List.mem_map.mp hin
      exact hflow _ hnode

/-- Resolving copies agrees with analysing them anew. The blocks and the commands of the program are
distinct, and the identifiers that its implementations use have been handed out. However often
implementations are copied, copies included, while no counter passes its greatest value, the new
program is accepted, the original record has for what a point stands for what the new record has for
the point, and under every encoding and all settings the two write the same predicates and the same
unions at all blocks and commands. They do so for implementations as a whole too, if no two of them
carry the same identifier in the original program. -/
theorem resolved_eq_reanalysed (p q : Program) (o : Origins) (c : Checked)
    (hcheck : p.check = .ok c) (hnodup : p.flowNodes.Nodup)
    (hissued : ∀ imp ∈ p.implementations.values, imp.IssuedBy p.supply) (hcopies : p.Copies q o) :
    ∃ c', q.check = .ok c' ∧ ∀ (id : ImplId) d, q.implementations[id]? = some d →
      (∀ n ∈ d.nodes, c.registry.availableAt (o.resolve n) = c'.registry.availableAt n) ∧
      ∀ (encoding : Encoding) (settings : Settings), ∀ point ∈ d.points,
        (point = .implementation d → p.DistinctRecords) →
        (∀ globals,
          Instrumenter.disjointnessAt ⟨c.withEncoding encoding, o, settings⟩ point globals =
            Instrumenter.disjointnessAt ⟨c'.withEncoding encoding, .empty, settings⟩ point
              globals) ∧
        Instrumenter.permissionUnions ⟨c.withEncoding encoding, o, settings⟩ point =
          Instrumenter.permissionUnions ⟨c'.withEncoding encoding, .empty, settings⟩ point := by
  have htracks := hcopies.tracks hnodup fun id imp himp ↦
    hissued imp (mem_values_iff.mpr ⟨id, himp⟩)
  obtain ⟨hsignatures, havailable, hcheck'⟩ := htracks.check_eq hcheck
  refine ⟨c.reanalysed q, hcheck', fun id d hd ↦ ⟨fun n hn ↦
    htracks.availableAt_eq hnodup havailable hd hn,
    fun encoding settings point hpoint hrecords ↦ ?_⟩⟩
  have hscope := htracks.localScope_eq hnodup (t := ⟨c.withEncoding encoding, o, settings⟩) rfl
    hsignatures havailable hd hpoint hrecords
  constructor
  · intro globals
    unfold Instrumenter.disjointnessAt Instrumenter.scope
    rw [hscope]
    rfl
  · unfold Instrumenter.permissionUnions Instrumenter.scope
    rw [hscope]
    rfl

/-- A program with an implementation that gains and loses its variable in a loop. -/
def relaying : Program :=
  { token with supply := ⟨0, 1, 2, 2⟩ }.putImplementation relay

theorem resolved_eq_reanalysed_relaying : relaying.flowNodes.Nodup ∧
    (∀ imp ∈ relaying.implementations.values, imp.IssuedBy relaying.supply) ∧
    relaying.DistinctRecords ∧
    ∃ (c c' : Checked) (q : Program) (o : Origins) (d : Implementation), relaying.check = .ok c ∧
      relaying.Copies q o ∧ q.check = .ok c' ∧ q.implementations[(⟨2⟩ : ImplId)]? = some d ∧
      o.resolve (.command ⟨4⟩) = .command ⟨0⟩ ∧
      c.registry.availableAt (o.resolve (.command ⟨4⟩)) =
        c'.registry.availableAt (.command ⟨4⟩) ∧
      ∀ globals, Instrumenter.disjointnessAt ⟨c.withEncoding .collector, o, .atLayer 0⟩
          (.implementation d) globals =
        Instrumenter.disjointnessAt ⟨c'.withEncoding .collector, .empty, .atLayer 0⟩
          (.implementation d) globals := by
  -- The implementation is copied, and then the copy is.
  have hcopies := Copies.copy ⟨1⟩ (.copy ⟨0⟩ (.start (p := relaying)) rfl (by decide +kernel) rfl)
    rfl (by decide +kernel) rfl
  obtain ⟨c', hcheck', hall⟩ := resolved_eq_reanalysed relaying _ _ _ rfl (by decide +kernel)
    (by decide +kernel) hcopies
  obtain ⟨havailable, hstated⟩ := hall ⟨2⟩ _ rfl
  have hrecords : relaying.DistinctRecords := by decide +kernel
  exact ⟨by decide +kernel, by decide +kernel, hrecords, _, c', _, _, _, rfl, hcopies, hcheck', rfl,
    by decide +kernel, havailable (.command ⟨4⟩) (by decide +kernel),
    (hstated .collector (.atLayer 0) _ List.mem_cons_self fun _ ↦ hrecords).1⟩

/-- An implementation without blocks that takes two variables. -/
def taking : Implementation where
  id := ⟨0⟩
  procedure := ⟨0⟩
  name := "taking"
  ins := [⟨0⟩, ⟨1⟩]
  outs := []
  locals := []
  blocks := []
  span := .zero

/-- A program in which another record, one without parameters, carries the same identifier. -/
def sharing : Program :=
  let p := guarding taking ⟨0, 2, 0, 0⟩
  { p with implementations := p.implementations.insert ⟨1⟩ { taking with ins := [] } }

/-- Where two records carry the same identifier, the parameters of one of them are on record for
both, also for a copy of the other one. Where the command counter stands at its greatest value, the
first command of a copy gets the greatest number and the second one the number 0, and links lead
from both of them to commands further on. -/
theorem resolved_eq_reanalysed_shared_exhausted :
    (∃ d links q, sharing.check = .ok sharing.pass.checked ∧ sharing.flowNodes.Nodup ∧
      (∀ imp ∈ sharing.implementations.values, imp.IssuedBy sharing.supply) ∧
      taking.FitsIn sharing.supply ∧ sharing.copyImplementation? ⟨0⟩ = some (d, links, q) ∧
      q.check = .ok q.pass.checked ∧
      (Instrumenter.disjointnessAt { sharing.pass with origins := Origins.empty.record links }
        (.implementation d) true).length = 0 ∧
      (q.pass.disjointnessAt (.implementation d) true).length = 1) ∧
    ∃ d links q, breaking.check = .ok breaking.pass.checked ∧ breaking.flowNodes.Nodup ∧
      (∀ imp ∈ breaking.implementations.values, imp.IssuedBy breaking.supply) ∧
      breaking.DistinctRecords ∧ breaking.copyImplementation? ⟨0⟩ = some (d, links, q) ∧
      q.check = .ok q.pass.checked ∧ .command ⟨4294967295⟩ ∈ d.flowNodes ∧
      (breaking.pass.checked.registry.availableAt
        ((Origins.empty.record links).resolve (.command ⟨4294967295⟩))).toList = [⟨0⟩, ⟨1⟩] ∧
      (q.pass.checked.registry.availableAt (.command ⟨4294967295⟩)).toList = [] := by
  refine ⟨⟨_, _, _, rfl, ?_, ?_, ?_, rfl, rfl, ?_, ?_⟩,
    _, _, _, rfl, ?_, ?_, ?_, rfl, rfl, ?_, ?_, ?_⟩
  all_goals decide +kernel

end Program

end OwnershipFlow
