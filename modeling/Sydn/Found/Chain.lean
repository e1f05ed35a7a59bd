import Mathlib.Data.List.Basic
import Mathlib.Tactic.Common

/-!
# Singly linked lists in a memory

`next p` is the link kept at `p`, which may be null, and is `none` where nothing
is kept. A chain from a link is followed over its nodes to null, so a link has at
most one chain and a chain passes no node twice.
-/

namespace Sydn.Found

variable {P : Type*}

/-- The nodes that the links lead over from a link to null. -/
inductive Chain (next : P → Option (Option P)) : Option P → List P → Prop
  | null : Chain next none []
  | node {p : P} {link : Option P} {nodes : List P} :
      next p = some link → Chain next link nodes → Chain next (some p) (p :: nodes)

namespace Chain
variable {next : P → Option (Option P)} {link : Option P} {p : P} {nodes nodes' : List P}

theorem unique (h : Chain next link nodes) (h' : Chain next link nodes') : nodes = nodes' := by
  induction h generalizing nodes' with
  | null =>
    cases h'
    rfl
  | node hp _ ih =>
    cases h' with
    | node hp' h' =>
      obtain rfl := Option.some.inj (hp.symm.trans hp')
      rw [ih h']

/-- From each of its nodes on, a chain is the rest of the whole. -/
theorem suffix (h : Chain next link nodes) (hp : p ∈ nodes) :
    ∃ rest, Chain next (some p) rest ∧ rest <:+ nodes := by
  induction h with
  | null => cases hp
  | @node q link nodes hq hnodes ih =>
    obtain rfl | hp := List.mem_cons.mp hp
    · exact ⟨p :: nodes, node hq hnodes, List.suffix_refl _⟩
    · obtain ⟨rest, hrest, hsuffix⟩ := ih hp
      exact ⟨rest, hrest, hsuffix.trans (List.suffix_cons q nodes)⟩

/-- From each of its nodes on, a chain is a chain no longer than the whole. -/
theorem from_node (h : Chain next link nodes) (hp : p ∈ nodes) :
    ∃ rest, Chain next (some p) (p :: rest) ∧ rest.length < nodes.length := by
  obtain ⟨rest, hrest, hsuffix⟩ := h.suffix hp
  cases hrest with
  | node hq hrest => exact ⟨_, node hq hrest, hsuffix.length_le⟩

/-- A memory with the same links at the nodes has the same chain. -/
theorem frame {next' : P → Option (Option P)} (h : Chain next link nodes)
    (hsame : ∀ p ∈ nodes, next' p = next p) : Chain next' link nodes := by
  induction h with
  | null => exact null
  | @node q link nodes hq hnodes ih =>
    have hhead := (hsame q List.mem_cons_self).trans hq
    refine node hhead (ih ?_)
    intro p hp
    exact hsame p (List.mem_cons_of_mem q hp)

/-- A node met again would start a chain of two lengths. -/
theorem nodup (h : Chain next link nodes) : nodes.Nodup := by
  induction h with
  | null => exact List.nodup_nil
  | @node p link nodes hp hnodes ih =>
    apply List.nodup_cons.mpr
    refine ⟨?_, ih⟩
    intro hmem
    obtain ⟨rest, hrest, hlen⟩ := hnodes.from_node hmem
    have heq := (node hp hnodes).unique hrest
    rw [(List.cons.inj heq).2] at hlen
    omega

end Chain
end Sydn.Found
