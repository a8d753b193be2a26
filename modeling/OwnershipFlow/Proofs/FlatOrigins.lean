import OwnershipFlow.Proofs.Forest

/-!
# Origins are never chained

Links may be recorded that form no forest: a link of a node to itself, a link that would close a
cycle, a second link of a node that has been linked before. Whatever is recorded, a node that some
node stands for is not derived itself (`Flat`), so looking up a node a second time finds nothing new
(`Flat.resolve_resolve`), and no node stands for itself by a link.

The reason is that a link leads to a node that is not derived, as what it looks up has been looked
up before (`Flat.get?_resolve`), and that the node which becomes derived takes along all nodes that
stood for it (`Flat.insert`). This also says what a link does to the map as a whole: the derived
node and what stood for it now stand for what the source stood for, and all other nodes for what
they stood for before (`resolve_insert`, `ofRequests_flat`).
-/

set_option autoImplicit false
set_option relaxedAutoImplicit false

namespace OwnershipFlow.Origins

variable {o : Origins} {n derived source : Node} {pairs : List (Node × Node)}

/-- No node that another one stands for is derived. -/
def Flat (o : Origins) : Prop :=
  ∀ n m, o.get? n = some m → o.get? m = none

theorem flat_empty : empty.Flat := fun n m h ↦ by
  rw [get?_empty] at h
  cases h

namespace Flat

/-- What a node stands for is not derived. -/
theorem get?_resolve (h : o.Flat) (n : Node) : o.get? (o.resolve n) = none := by
  unfold resolve
  cases hget : o.get? n with
  | none => exact hget
  | some m => exact h n m hget

theorem resolve_resolve (h : o.Flat) (n : Node) : o.resolve (o.resolve n) = o.resolve n :=
  resolve_of_get?_eq_none (h.get?_resolve n)

theorem insert (h : o.Flat) : (o.insert derived source).Flat := by
  by_cases hroot : o.resolve source = derived
  · rw [insert_of_resolve_eq hroot]
    exact h
  · -- Nodes other than the one derived by the link are derived only if they were before.
    have hnone : ∀ m, m ≠ derived → o.get? m = none → (o.insert derived source).get? m = none := by
      intro m hm hget
      rw [get?_insert hroot, if_neg hm, hget, Option.map_none]
    intro n m hget
    rw [get?_insert hroot] at hget
    split_ifs at hget with hn
    · cases hget
      exact hnone _ hroot (h.get?_resolve source)
    · obtain ⟨target, htarget, rfl⟩ := Option.map_eq_some_iff.mp hget
      split_ifs with hmoved
      · exact hnone _ hroot (h.get?_resolve source)
      · exact hnone target hmoved (h n target htarget)

theorem record (h : o.Flat) : (o.record pairs).Flat :=
  List.foldlRecOn pairs _ h fun _ hflat _ _ ↦ hflat.insert

end Flat

/-- Requests of any kind and in any order leave a map without chains. -/
theorem flat_ofRequests (requests : List Request) : (ofRequests requests).Flat := by
  rw [ofRequests_eq_record]
  exact flat_empty.record

/-- After a link, the derived node and what stood for it stand for what the source stood for. -/
theorem resolve_insert (hroot : o.resolve source ≠ derived) (n : Node) :
    (o.insert derived source).resolve n =
      if n = derived ∨ o.resolve n = derived then o.resolve source else o.resolve n := by
  rw [resolve, get?_insert hroot]
  by_cases hn : n = derived
  · rw [if_pos hn, if_pos (.inl hn), Option.getD_some]
  · rw [if_neg hn]
    cases hget : o.get? n with
    | none =>
      rw [resolve_of_get?_eq_none hget, if_neg (not_or.mpr ⟨hn, hn⟩), Option.map_none,
        Option.getD_none]
    | some target =>
      have hresolve : o.resolve n = target := by rw [resolve, hget, Option.getD_some]
      simp only [Option.map_some, Option.getD_some, hresolve, hn, false_or]

/-- Whatever links have been recorded, one by one or copy by copy, no node is both derived and stood
for by another one; a node that a derived node stands for is a different one and not derived, and
looking up what has been looked up changes nothing. A further link changes nothing if its source
stands for the node to be derived already. Otherwise this node, and every node that stood for it,
stands for what the source stood for, and each other node for what it stood for. -/
theorem ofRequests_flat (requests : List Request) :
    (∀ n, ¬ ((∃ m, (ofRequests requests).get? n = some m) ∧
      ∃ m, (ofRequests requests).get? m = some n)) ∧
    (∀ n m, (ofRequests requests).get? n = some m →
      m ≠ n ∧ (ofRequests requests).get? m = none) ∧
    (∀ n, (ofRequests requests).resolve ((ofRequests requests).resolve n) =
      (ofRequests requests).resolve n) ∧
    ∀ derived source,
      ((ofRequests requests).resolve source = derived ∧
        (ofRequests requests).insert derived source = ofRequests requests) ∨
      ((ofRequests requests).resolve source ≠ derived ∧
        (∀ n, n = derived ∨ (ofRequests requests).resolve n = derived →
          ((ofRequests requests).insert derived source).resolve n =
            (ofRequests requests).resolve source) ∧
        ∀ n, n ≠ derived → (ofRequests requests).resolve n ≠ derived →
          ((ofRequests requests).insert derived source).resolve n =
            (ofRequests requests).resolve n) := by
  have hflat := flat_ofRequests requests
  refine ⟨?_, fun n m hget ↦ ⟨?_, hflat n m hget⟩, hflat.resolve_resolve, fun derived source ↦ ?_⟩
  · rintro n ⟨⟨m, hderived⟩, m', hstands⟩
    rw [hflat m' n hstands] at hderived
    cases hderived
  · rintro rfl
    rw [hflat m m hget] at hget
    cases hget
  · by_cases hroot : (ofRequests requests).resolve source = derived
    · exact .inl ⟨hroot, insert_of_resolve_eq hroot⟩
    · refine .inr ⟨hroot, fun n hn ↦ ?_, fun n hne hother ↦ ?_⟩
      · rw [resolve_insert hroot, if_pos hn]
      · rw [resolve_insert hroot, if_neg (not_or.mpr ⟨hne, hother⟩)]

/-- Requests that form no forest: a copy of a copy, a link that would close a cycle with these two,
a link of a node to itself, and a second source for the node that the copies stand for. -/
def tangled : List Request :=
  [.copy [(.command ⟨2⟩, .command ⟨1⟩), (.command ⟨1⟩, .command ⟨0⟩)],
    .link (.command ⟨0⟩) (.command ⟨2⟩), .link (.command ⟨3⟩) (.command ⟨3⟩),
    .link (.command ⟨2⟩) (.command ⟨4⟩)]

theorem ofRequests_flat_tangled :
    (ofRequests tangled).get? (.command ⟨1⟩) = some (.command ⟨0⟩) ∧
    (ofRequests tangled).get? (.command ⟨0⟩) = none ∧
    (ofRequests tangled).resolve (.command ⟨1⟩) = .command ⟨0⟩ ∧
    ((ofRequests tangled).insert (.command ⟨0⟩) (.command ⟨2⟩)).resolve (.command ⟨1⟩) =
      .command ⟨4⟩ := by
  obtain ⟨-, hderived, -, hinsert⟩ := ofRequests_flat tangled
  have hget : (ofRequests tangled).get? (.command ⟨1⟩) = some (.command ⟨0⟩) := by decide +kernel
  have hresolve : (ofRequests tangled).resolve (.command ⟨1⟩) = .command ⟨0⟩ := by decide +kernel
  have hsource : (ofRequests tangled).resolve (.command ⟨2⟩) = .command ⟨4⟩ := by decide +kernel
  refine ⟨hget, (hderived _ _ hget).2, hresolve, ?_⟩
  rcases hinsert (.command ⟨0⟩) (.command ⟨2⟩) with ⟨heq, -⟩ | ⟨-, hmoved, -⟩
  · cases hsource.symm.trans heq
  · exact (hmoved _ (.inr hresolve)).trans hsource

end OwnershipFlow.Origins
