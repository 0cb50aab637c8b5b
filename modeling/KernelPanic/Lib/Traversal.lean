import Mathlib.Data.List.Nodup
import Mathlib.Data.List.Perm.Subperm

/-!
# KernelPanic.Lib.Traversal

Traversal of a graph with a queue.  The nodes found so far form one list: first
those whose successors have been visited, then the others.  A node is appended
when it is found for the first time, and the next node to visit is the first of
the others.

However the graph is shaped, the traversal never finds a node twice, and when
every node found has been visited it has found the reachable nodes and no others
(`Traversed.mem_iff`).

Nothing here names a particular graph.
-/

namespace Traversal

variable {α : Type*} [DecidableEq α]

/-- The nodes some path leads to from a root. -/
inductive Reachable (next : α → List α) (roots : List α) : α → Prop
  | root {a : α} (h : a ∈ roots) : Reachable next roots a
  | next {a b : α} (ha : Reachable next roots a) (h : b ∈ next a) : Reachable next roots b

/-- A node is met: it joins the queue unless it has been found before. -/
def discover (found : List α) (a : α) : List α :=
  if a ∈ found then found else found ++ [a]

/-- Several nodes are met, one after the other. -/
def discoverAll (found as : List α) : List α := as.foldl discover found

variable {next : α → List α} {roots found found' as bs done pending : List α} {a b : α}

/-! ## one node, and several -/

/-- What has been found is not found again. -/
theorem discover_of_mem (h : a ∈ found) : discover found a = found := if_pos h

/-- What is new joins the end. -/
theorem discover_of_not_mem (h : a ∉ found) : discover found a = found ++ [a] := if_neg h

/-- What is found then was, or is the node. -/
@[simp] theorem mem_discover : b ∈ discover found a ↔ b ∈ found ∨ b = a := by
  unfold discover
  split <;> grind

/-- Nothing is found twice. -/
theorem nodup_discover (h : found.Nodup) : (discover found a).Nodup := by
  unfold discover
  split
  · exact h
  · rename_i ha
    rw [List.nodup_append]
    exact ⟨h, List.nodup_singleton a, by grind⟩

/-- Nodes found stay where they are in the queue. -/
theorem discover_eq_append (found : List α) (a : α) : ∃ new, discover found a = found ++ new := by
  unfold discover
  split
  · exact ⟨[], (List.append_nil found).symm⟩
  · exact ⟨[a], rfl⟩

@[simp] theorem discoverAll_nil : discoverAll found [] = found := rfl

@[simp] theorem discoverAll_cons :
    discoverAll found (a :: as) = discoverAll (discover found a) as := rfl

/-- One list after the other. -/
theorem discoverAll_append :
    discoverAll found (as ++ bs) = discoverAll (discoverAll found as) bs :=
  List.foldl_append

/-- What is found then was, or is in the list. -/
@[simp] theorem mem_discoverAll : b ∈ discoverAll found as ↔ b ∈ found ∨ b ∈ as := by
  induction as generalizing found with
  | nil => simp
  | cons a as ih => simp [ih, or_assoc]

/-- Nothing is found twice. -/
theorem nodup_discoverAll (h : found.Nodup) : (discoverAll found as).Nodup := by
  induction as generalizing found with
  | nil => exact h
  | cons a as ih => exact ih (nodup_discover h)

/-- What is new comes behind what was found. -/
theorem discoverAll_eq_append (found as : List α) :
    ∃ new, discoverAll found as = found ++ new := by
  induction as generalizing found with
  | nil => exact ⟨[], (List.append_nil found).symm⟩
  | cons a as ih =>
      obtain ⟨new, hnew⟩ := discover_eq_append found a
      obtain ⟨more, hmore⟩ := ih (discover found a)
      exact ⟨new ++ more, by rw [discoverAll_cons, hmore, hnew, List.append_assoc]⟩

/-! ## the traversal -/

/-- Where a traversal stands: the nodes of `done` have been visited, those of
`pending` have only been found. -/
structure Traversed (next : α → List α) (roots done pending : List α) : Prop where
  nodup : (done ++ pending).Nodup
  sound : ∀ a ∈ done ++ pending, Reachable next roots a
  roots : ∀ a ∈ roots, a ∈ done ++ pending
  closed : ∀ a ∈ done, ∀ b ∈ next a, b ∈ done ++ pending

/-- At the start the roots have been found. -/
theorem Traversed.start : Traversed next roots [] (discoverAll [] roots) where
  nodup := nodup_discoverAll List.nodup_nil
  sound := fun _ ha => .root (by simpa using ha)
  roots := fun _ ha => by simpa using ha
  closed := by simp

/-- The first node of the queue is visited: its successors are met. -/
theorem Traversed.visit (ht : Traversed next roots done (a :: pending)) :
    ∃ new, discoverAll (done ++ a :: pending) (next a) = (done ++ [a]) ++ (pending ++ new) ∧
      Traversed next roots (done ++ [a]) (pending ++ new) := by
  obtain ⟨new, hnew⟩ := discoverAll_eq_append (done ++ a :: pending) (next a)
  have heq : discoverAll (done ++ a :: pending) (next a) =
      (done ++ [a]) ++ (pending ++ new) := by simp [hnew]
  have hmem : ∀ b, b ∈ (done ++ [a]) ++ (pending ++ new) ↔
      b ∈ done ++ a :: pending ∨ b ∈ next a := by
    intro b
    rw [← heq, mem_discoverAll]
  have hreach : Reachable next roots a := ht.sound a (by simp)
  refine ⟨new, heq, ?_, ?_, ?_, ?_⟩
  · rw [← heq]
    exact nodup_discoverAll ht.nodup
  · intro b hb
    rcases (hmem b).mp hb with h | h
    · exact ht.sound b h
    · exact .next hreach h
  · intro b hb
    exact (hmem b).mpr (.inl (ht.roots b hb))
  · intro b hb d hd
    rcases List.mem_append.mp hb with h | h
    · exact (hmem d).mpr (.inl (ht.closed b h d hd))
    · rw [List.mem_singleton] at h
      exact (hmem d).mpr (.inr (h ▸ hd))

omit [DecidableEq α] in
/-- When nothing is pending, the nodes found are the reachable ones. -/
theorem Traversed.mem_iff (ht : Traversed next roots done []) :
    a ∈ done ↔ Reachable next roots a := by
  have hcl := ht.closed
  have hroots := ht.roots
  rw [List.append_nil] at hcl hroots
  constructor
  · intro ha
    exact ht.sound a (by simpa using ha)
  · intro ha
    induction ha with
    | root h => exact hroots _ h
    | next _ h ih => exact hcl _ ih _ h

omit [DecidableEq α] in
/-- A traversal inside a finite list of nodes has visited no more than these. -/
theorem Traversed.length_le (ht : Traversed next roots done pending) {nodes : List α}
    (hsub : done ++ pending ⊆ nodes) : done.length + pending.length ≤ nodes.length := by
  rw [← List.length_append]
  exact (ht.nodup.subperm hsub).length_le

end Traversal
