import Specializer.Proofs.FixedPoint.Repetition

/-!
# Passes that announce nothing

The passes over a module end with the first one that announces nothing. Such a pass has left the program alone: it has
decided which variables are read-only, and it may have found out that an import runs no code. `Tree.Annotated` is all
that these two do to a tree. Deciding about the variables writes flags of variables (`annotated_decided`), the walks of
the units narrow imports (`Narrows.annotated`), and a pass is the one after the other (`runPass_annotates`).
-/

namespace Specializer

/-- A variable without what is known about its bindings. -/
def Variable.undecided (v : Variable) : Variable := { v with readOnly := false }

namespace Tree

/-- The second tree is the first one, but for which variables are known to be read-only and which imports are known to
run no code. -/
structure Annotated (t t' : Tree) : Prop where
  root : t'.root = t.root
  /-- The same handles were given out. -/
  size : t'.nodes.size = t.nodes.size
  node : ∀ id, t'.get? id = t.get? id ∨
    ∃ n, t.get? id = some n ∧ n.kind = .importModule ∧ t'.get? id = some { n with override := some .quietImport }
  bindings : t'.bindings.map Variable.undecided = t.bindings.map Variable.undecided

variable {t t' t'' : Tree}

theorem Annotated.trans (h : Annotated t t') (h' : Annotated t' t'') : Annotated t t'' := by
  refine ⟨h'.root.trans h.root, h'.size.trans h.size, fun id => ?_, h'.bindings.trans h.bindings⟩
  rcases h'.node id with hsame' | ⟨n', hn', hkind', hset'⟩
  · rw [hsame']
    exact h.node id
  · right
    rcases h.node id with hsame | ⟨n, hn, hkind, hset⟩
    · exact ⟨n', hsame ▸ hn', hkind', hset'⟩
    · -- an import is narrowed to the same capabilities each time
      obtain rfl : n' = { n with override := some .quietImport } := Option.some.inj (hn'.symm.trans hset)
      exact ⟨n, hn, hkind, hset'⟩

theorem annotated_decided (t : Tree) (decide : VariableId → Variable → Bool) (count : Nat) :
    Annotated t (t.decided decide count) := by
  refine ⟨rfl, rfl, fun id => .inl rfl, Array.ext_getElem? fun i => ?_⟩
  simp only [Array.getElem?_map, getElem?_decided, Option.map_map]
  refine congrArg (Option.map · t.bindings[i]?) (funext fun v => ?_)
  simp only [Function.comp]
  split <;> rfl

theorem Narrows.annotated {inside : NodeId → Prop} (h : Narrows inside t t') : Annotated t t' := by
  refine ⟨(congrArg Tree.root h.plain :), eq_of_plain (·.nodes.size) size_plain h.plain, fun id => ?_, ?_⟩
  · by_cases hid : t.kind id = .ok .importModule ∧ inside id
    · obtain ⟨n, hn, -⟩ := kind_eq_ok_iff.1 hid.1
      rcases h.node hn with hsame | ⟨-, hkind, hset⟩
      · exact .inl (hsame.trans hn.symm)
      · exact .inr ⟨n, hn, hkind, hset⟩
    · exact .inl (h.get?_eq fun hkind hinside => hid ⟨hkind, hinside⟩)
  · exact congrArg (Array.map Variable.undecided) (congrArg Tree.bindings h.plain :)

end Tree

open Specializer.Tree

/-- **A pass that announces no change has not changed the program.** The arena is the same but for what is known about
variables and imports, and nothing else of the run is touched. -/
theorem runPass_annotates {s : Settings} {r r' : Run} (hbuilt : r.tree.Built) (hrun : RunM.runPass s r = .ok () r')
    (hquiet : r'.report.changes = r.report.changes) : Annotated r.tree r'.tree ∧ r' = { r with tree := r'.tree } := by
  obtain ⟨root, count, t, units, hroot, hdecide, hbuilt₁, -, hunits, hwalks⟩ := runPass_eq_ok hbuilt hrun
  have hdecided : Annotated r.tree t := by
    obtain ⟨rebindings, count', -, hdecide', -⟩ := hbuilt.annotateReadOnly_ok hroot
    cases hdecide.symm.trans hdecide'
    exact annotated_decided r.tree _ _
  have htoured : Toured s units { r with tree := t } r' :=
    runUnits_quiet hbuilt₁ hunits hwalks (Nat.le_of_eq (congrArg ChangeLog.size hquiet))
  exact ⟨hdecided.trans htoured.narrows.annotated, htoured.rest⟩

/-- A pass over `Tree.lateImport` announces nothing, and does find out that the import of `math` runs no code. -/
theorem runPass_annotates_lateImport : ∃ r',
    Tree.lateImport.Built ∧ RunM.runPass ⟨{}, .ofTable [(⟨"math"⟩, .builtIn)]⟩ { tree := Tree.lateImport } = .ok () r' ∧
      r'.report.changes = {} ∧ r'.tree.capabilities ⟨2⟩ = .ok .quietImport ∧ Annotated Tree.lateImport r'.tree := by
  have hpass : (match RunM.runPass ⟨{}, .ofTable [(⟨"math"⟩, .builtIn)]⟩ { tree := Tree.lateImport } with
      | .ok _ r' => decide (r'.report.changes = {} ∧ r'.tree.capabilities ⟨2⟩ = .ok .quietImport)
      | .error _ _ => false) = true := by decide +kernel
  generalize hrun : RunM.runPass ⟨{}, .ofTable [(⟨"math"⟩, .builtIn)]⟩ { tree := Tree.lateImport } = outcome at hpass
  cases outcome with
  | error e r' => cases hpass
  | ok u r' =>
    obtain ⟨hquiet, hcapabilities⟩ := of_decide_eq_true hpass
    have hbuilt : Tree.lateImport.Built := ⟨_, rfl⟩
    exact ⟨r', hbuilt, rfl, hquiet, hcapabilities, (runPass_annotates hbuilt hrun hquiet).1⟩

end Specializer
