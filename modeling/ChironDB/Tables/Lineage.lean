/-
# Lineages in a forest of parent pointers

`parents` says for each node whether it is present and, if it is, which node it names as its
parent.  A lineage lists the nodes from one node up to a root.  A node has at most one lineage,
so a lineage never meets a node twice: a walk that reaches a root has met no cycle.
-/

import Mathlib.Data.List.Basic
import Mathlib.Data.List.Nodup
import Mathlib.Order.Nat

namespace ChironDB.Tables

variable {α : Type}

/-- The nodes from `node` up to its root, each one present. -/
inductive Lineage (parents : α → Option (Option α)) : α → List α → Prop
  | root {node : α} : parents node = some none → Lineage parents node [node]
  | step {node parent : α} {path : List α} : parents node = some (some parent) →
      Lineage parents parent path → Lineage parents node (node :: path)

namespace Lineage

variable {parents parents' : α → Option (Option α)} {node other : α} {path path' : List α}

section

variable (h : Lineage parents node path)
include h

theorem unique (h' : Lineage parents node path') :
    path = path' := by
  induction h generalizing path' with
  | root hroot =>
    cases h' with
    | root => rfl
    | step hstep => exact absurd (hroot.symm.trans hstep) (by simp)
  | step hstep _ ih =>
    cases h' with
    | root hroot => exact absurd (hroot.symm.trans hstep) (by simp)
    | step hstep' hpath' =>
      cases hstep.symm.trans hstep'
      rw [ih hpath']

/-- Every node of a lineage has a lineage of its own, the rest of it. -/
theorem of_mem (hmem : other ∈ path) :
    ∃ rest, Lineage parents other rest ∧ rest.length ≤ path.length := by
  induction h with
  | root hroot =>
    cases List.mem_singleton.mp hmem
    exact ⟨_, .root hroot, le_rfl⟩
  | step hstep hpath ih =>
    rcases List.mem_cons.mp hmem with rfl | hmem
    · exact ⟨_, .step hstep hpath, le_rfl⟩
    · obtain ⟨rest, hrest, hle⟩ := ih hmem
      exact ⟨rest, hrest, hle.trans (Nat.le_succ _)⟩

/-- **A lineage is acyclic.** -/
theorem nodup : path.Nodup := by
  induction h with
  | root => exact List.nodup_singleton _
  | step hstep hpath ih =>
    refine List.nodup_cons.mpr ⟨fun hmem => ?_, ih⟩
    -- The node would have a second lineage, no longer than what lies above it.
    obtain ⟨rest, hrest, hle⟩ := hpath.of_mem hmem
    rw [hrest.unique (.step hstep hpath), List.length_cons] at hle
    omega

/-- A forest that keeps the nodes and their parents keeps the lineages. -/
theorem mono (hkeep : ∀ node parent, parents node = some parent → parents' node = some parent)
    : Lineage parents' node path := by
  induction h with
  | root hroot => exact .root (hkeep _ _ hroot)
  | step hstep _ ih => exact .step (hkeep _ _ hstep) ih

end

end Lineage

end ChironDB.Tables
