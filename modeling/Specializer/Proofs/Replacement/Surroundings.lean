import Specializer.Proofs.Replacement.Evaluation

/-!
# What surrounds a replaced node

A node that takes the place of another stands in the same slot of the same parent, at the same position (`InPlaceOf`).
While the arguments of a call are taken out of it and put below new nodes, nothing outside the call is touched
(`Confined`). So whatever takes the place of the call in the end finds its parent as it was (`Confined.replaced`).
-/

namespace Specializer

namespace Tree

variable {t₀ t t' t'' : Tree} {hole id old mid new parent a : NodeId} {args pending : List NodeId} {n : Node}

/-! ## Places -/

/-- A node stands where another one stood before. -/
structure InPlaceOf (t t' : Tree) (old new : NodeId) : Prop where
  parent : t'.parent? new = t.parent? old
  slots : ∀ {p n}, t.IsParent old p → t.get? p = some n →
    ∃ n', t'.get? p = some n' ∧ n'.slots = n.slots.map (Slot.renamed old new)

namespace InPlaceOf

theorem refl (t : Tree) (id : NodeId) : InPlaceOf t t id id := by
  refine ⟨rfl, fun {p n} _ hn => ⟨n, hn, ?_⟩⟩
  exact (List.map_id' n.slots).symm.trans (List.map_congr_left fun slot _ => (slot.renamed_self id).symm)

/-- One replacement after the other. The node in between was not there before. -/
theorem trans (h : InPlaceOf t t' old mid) (h' : InPlaceOf t' t'' mid new) (hc : t.Consistent)
    (hmid : t.get? mid = none) : InPlaceOf t t'' old new := by
  refine ⟨h'.parent.trans h.parent, fun {p n} hp hn => ?_⟩
  obtain ⟨n₁, hn₁, hslots₁⟩ := h.slots hp hn
  obtain ⟨n₂, hn₂, hslots₂⟩ := h'.slots (h.parent.trans hp) hn₁
  refine ⟨n₂, hn₂, ?_⟩
  rw [hslots₂, hslots₁, List.map_map]
  refine List.map_congr_left fun slot hslot => Slot.renamed_renamed fun hmem => ?_
  obtain ⟨m, hm, -⟩ := hc.held hn (List.mem_flatMap.2 ⟨slot, hslot, hmem⟩)
  rw [hmid] at hm
  cases hm

theorem congr (h : InPlaceOf t t' old new) (hnodes : t''.nodes = t'.nodes) : InPlaceOf t t'' old new := by
  have hget (x : NodeId) : t''.get? x = t'.get? x := by rw [get?, get?, hnodes]
  refine ⟨?_, fun hp hn => ?_⟩
  · rw [parent?, hget]
    exact h.parent
  · rw [hget]
    exact h.slots hp hn

end InPlaceOf

/-- A new node has taken the place of another. -/
structure TakesPlace (t t' : Tree) (old new : NodeId) : Prop where
  consistent : t'.Consistent
  stale : t.get? new = none
  inPlaceOf : InPlaceOf t t' old new

theorem TakesPlace.trans (h : TakesPlace t t' old mid) (h' : TakesPlace t' t'' mid new) (hc : t.Consistent) :
    InPlaceOf t t'' old new :=
  h.inPlaceOf.trans h'.inPlaceOf hc h.stale

theorem Consistent.not_below_parent (hc : t.Consistent) (hp : t.IsParent id parent) : ¬ t.Below parent id :=
  fun hb => hc.acyclic id (.head' hp hb)

/-- A node that gave way has left its place to the new one. -/
theorem Replaced.inPlaceOf (h : Replaced t t' old new parent) (hc : t.Consistent) (hnew : ¬ t.Below new old) :
    InPlaceOf t t' old new := by
  refine ⟨(h.placed hnew).trans h.held.symm, fun {p n} hp hn => ?_⟩
  obtain rfl := hp.unique h.held
  have hnode := h.node (hc.not_below_parent hp)
  rw [hn, Option.map_some, if_pos rfl] at hnode
  exact ⟨_, hnode, rfl⟩

/-! ## Moving within a hole -/

/-- Some nodes were taken out of a hole, the pending ones not yet, and all that is not below the hole is as it was. -/
structure Confined (t₀ : Tree) (hole : NodeId) (args pending : List NodeId) (t : Tree) : Prop
    extends Gathered t₀ hole args pending t where
  outside : ∀ {x n}, t₀.get? x = some n → ¬ t₀.Below x hole → t.get? x = some n

theorem Arguments.confined (h : t.Arguments hole args) (hc : t.Consistent) (hpending : pending = args) :
    Confined t hole args pending t :=
  ⟨hpending ▸ h.gathered hc, fun hn _ => hn⟩

theorem Later.trans (h : Later t₀ t t') (h' : Later t₀ t' t'') : Later t₀ t t'' := by
  refine ⟨Nat.le_trans h.size h'.size, fun x hx => ?_, fun {x n} hx hn => ?_⟩
  · rw [h'.live x (Nat.lt_of_lt_of_le hx h.size), h.live x hx]
  · obtain ⟨p, hp⟩ := h.fresh hx hn
    obtain ⟨p', hp'⟩ := h'.fresh hx hp
    exact ⟨p', hp'⟩

theorem Later.refl (t₀ t : Tree) : Later t₀ t t :=
  ⟨Nat.le_refl _, fun _ _ => .rfl, fun {_ n} _ hn => ⟨n.parent, hn⟩⟩

namespace Confined

theorem argument_below (h : Confined t₀ hole args pending t) (ha : a ∈ args) : t₀.Below a hole :=
  (h.arguments.below a ha).to_reflTransGen

theorem detach (h : Confined t₀ hole args (a :: pending) t) (hrun : TreeM.detach a t = .ok id t') :
    id = a ∧ Confined t₀ hole args pending t' ∧ Later t₀ t t' := by
  obtain ⟨hid, hg, hlater, -⟩ := h.toGathered.detach hrun
  refine ⟨hid, ⟨hg, fun {x m} hx hnot => ?_⟩, hlater⟩
  have ha : a ∈ args := h.waiting.subset (by simp)
  obtain ⟨q, hq₀, hqhole⟩ := h.arguments.holder ha
  have hq : t.IsParent a q := (h.place a (by simp)).trans hq₀
  obtain ⟨n, hn, -⟩ := h.consistent.parent_live hq
  obtain ⟨-, hr, -⟩ := h.consistent.detach_eq_ok hn hq hrun
  have hxq : x ≠ q := fun e => hnot (e ▸ hqhole)
  have hxa : a ≠ x := fun e => hnot (e ▸ h.argument_below ha)
  rw [hr.get?, h.outside hx hnot]
  simp [hxq, hxa]

theorem newNode {kind : NodeKind} {source : SourceRef} {payload : Payload} {slots : List Slot}
    (h : Confined t₀ hole args pending t) (hrun : TreeM.newNode kind source payload slots t = .ok id t')
    (hids : ∀ c ∈ slots.flatMap Slot.ids, t₀.nodes.size ≤ c.index ∨ c ∈ args) :
    Confined t₀ hole args pending t' ∧ Later t₀ t t' ∧ t₀.nodes.size ≤ id.index ∧
      t'.get? id = some { kind, source, payload, slots } := by
  obtain ⟨hg, hlater, hfresh, hid⟩ := h.toGathered.newNode hrun hids
  refine ⟨⟨hg, fun {x m} hx hnot => ?_⟩, hlater, hfresh, hid⟩
  obtain ⟨-, rfl, rfl⟩ := newNode_eq_ok hrun
  have hxt := h.outside hx hnot
  rw [get?_addNode_of_ne kind source payload slots t (ne_nextId_of_get? hxt), if_neg fun hmem => ?_, hxt]
  rcases hids x hmem with hnew | hargs
  · exact absurd (lt_size_of_get? hx) (Nat.not_lt.2 hnew)
  · exact hnot (h.argument_below hargs)

theorem finalize (h : Confined t₀ hole args pending t) (ha : a ∈ args) (hrun : TreeM.finalize a t = .ok () t') :
    Confined t₀ hole args pending t' := by
  refine ⟨(h.toGathered.finalize ha hrun).1, fun {x m} hx hnot => ?_⟩
  obtain ⟨⟨⟨na, hna, -⟩, -⟩, -, ids, hmem, rfl⟩ := h.consistent.finalize_eq_ok hrun
  rw [get?_erase, if_neg fun hids => ?_, h.outside hx hnot]
  exact hnot (((h.below_iff ha hna).1 ((hmem x).1 hids)).trans (h.argument_below ha))

/-- Arguments whose evaluation cannot be noticed are torn down. -/
theorem keepObservable : ∀ {ids kept : List NodeId} {t : Tree}, (∀ a ∈ ids, t₀.isObservable a = .ok false) →
    Confined t₀ hole args ids t → t.nodes.size = t₀.nodes.size → TreeM.keepObservable ids t = .ok kept t' →
    kept = [] ∧ Confined t₀ hole args [] t'
  | [], _, t, _, h, _, hrun => by
    cases hrun
    exact ⟨rfl, h⟩
  | a :: rest, kept, t, hsilent, h, hsize, hrun => by
    obtain ⟨b, t₁, hdetach, hrun⟩ := run_bind_eq_ok_iff.1 hrun
    obtain ⟨rfl, -, -, hsize₁, n, hn⟩ := h.toGathered.detach hdetach
    obtain ⟨-, h₁, -⟩ := h.detach hdetach
    have hb : b ∈ args := h.waiting.subset (by simp)
    have hsame := (h₁.intact hb hn).isObservable h.origin (hsize₁.trans hsize)
    have hquery : TreeM.query (·.isObservable b) t₁ = .ok false t₁ := run_query_ok (hsame.trans (hsilent b (by simp)))
    rw [run_bind_of_ok hquery] at hrun
    obtain ⟨⟨⟩, t₂, hfinalize, hrun⟩ := run_bind_eq_ok_iff.1 hrun
    have hsize₂ := (h₁.toGathered.finalize hb hfinalize).2.1
    exact keepObservable (fun a ha => hsilent a (by simp [ha])) (h₁.finalize hb hfinalize)
      (hsize₂.trans (hsize₁.trans hsize)) hrun

/-- **A call whose arguments cannot be noticed leaves nothing but a raise.** -/
theorem raiseAfter {raised : RaisedException} {source : SourceRef} (h : Confined t hole args args t)
    (hsilent : ∀ a ∈ args, t.isObservable a = .ok false)
    (hrun : TreeM.raiseAfter raised args source t = .ok new t') :
    Confined t hole args [] t' ∧ t.nodes.size ≤ new.index ∧
      t'.get? new = some { kind := .raiseException, source, payload := .raise raised, slots := [] } := by
  obtain ⟨kept, t₁, hkeep, hrun⟩ := run_bind_eq_ok_iff.1 hrun
  obtain ⟨rfl, h₁⟩ := keepObservable hsilent h rfl hkeep
  obtain ⟨raise, t₂, hmake, hrun⟩ := run_bind_eq_ok_iff.1 hrun
  cases hrun
  obtain ⟨h₂, -, hfresh, hnode⟩ := h₁.newNode hmake (by simp)
  exact ⟨h₂, hfresh, hnode⟩

/-- **What takes the place of the hole finds its surroundings as they were.** -/
theorem replaced (h : Confined t₀ hole args pending t) (hnew : t₀.nodes.size ≤ new.index)
    (hr : Replaced t t' hole new parent) : Installed t₀ t t' hole new ∧ InPlaceOf t₀ t' hole new := by
  have hi := h.toGathered.installed hnew hr
  refine ⟨hi, hi.place, fun {p n} hp hn => ?_⟩
  have hheld : t.IsParent hole p := (h.place hole (by simp)).trans hp
  obtain rfl := hheld.unique hr.held
  have hnode := hr.node (h.consistent.not_below_parent hheld)
  rw [h.outside hn (h.origin.not_below_parent hp), Option.map_some, if_pos rfl] at hnode
  exact ⟨_, hnode, rfl⟩

end Confined

end Tree

namespace ReplaceM

open Specializer.Tree

variable {α : Type} {s : Settings} {w w' : Workspace} {t₀ : Tree} {hole id id' new : NodeId} {args pending : List NodeId}
  {v : VariableId} {source : SourceRef}

theorem consistent_of_reconsiderVariable (hc : w.tree.Consistent) (h : reconsiderVariable v source s w = .ok () w') :
    w'.tree.Consistent := by
  obtain ⟨hnodes, hroot⟩ := reconsiderVariable_eq_ok h
  have hsize : w'.tree.bindings.size = w.tree.bindings.size := by
    simpa [uncounted] using congrArg Array.size (tame_reconsiderVariable v source h).uncounted
  exact hc.of_get?_eq (fun x => by rw [get?, get?, hnodes]) (fun r hr => hc.root (hroot ▸ hr)) (Nat.le_of_eq hsize.symm)

/-- A new node has taken the place of a hole, with all that was put below it. -/
structure Supplanted (t₀ t t' : Tree) (hole new : NodeId) : Prop extends TakesPlace t₀ t' hole new where
  installed : Installed t₀ t t' hole new

theorem Installs.supplanted (hput : Installs s v source hole new w w') (h : Confined t₀ hole args pending w.tree)
    (hnew : t₀.nodes.size ≤ new.index) : Supplanted t₀ w.tree w'.tree hole new := by
  obtain ⟨w₁, w₂, hreplace, hcount, htree⟩ := hput
  obtain ⟨⟨parent, hr⟩, -⟩ := replaceNode_eq_ok h.consistent hreplace
  obtain ⟨hi, hplace⟩ := h.replaced hnew hr
  obtain ⟨hnodes, -⟩ := reconsiderVariable_eq_ok hcount
  rw [htree] at hnodes
  refine ⟨⟨consistent_of_reconsiderVariable (htree ▸ hr.consistent) hcount, ?_, hplace.congr hnodes⟩, hi.congr hnodes⟩
  rw [get?, Array.getElem?_eq_none hnew]
  rfl

/-- What is done with a call that has a handler and can be read: the handler decides. -/
theorem replaceCall_of_read {handlers : DispatchTable String CallHandler} {name : String} {handler : CallHandler}
    {site : CallSite} (hcalled : w.tree.calledBuiltin? s.options.version id = some (v, name))
    (hlookup : handlers.lookup? name = some handler) (hread : CallSite.read w.tree id v name = .ok (some site))
    (hrun : replaceCall handlers id s w = .ok id' w') :
    (handler site s w = .ok none w' ∧ id' = id) ∨ ∃ w₁, handler site s w = .ok (some id') w₁ ∧
      ∀ {args pending}, Confined w.tree id args pending w₁.tree → w.tree.nodes.size ≤ id'.index →
        Supplanted w.tree w₁.tree w'.tree id id' := by
  rw [replaceCall, reads_bind_of_ok tree_ok, reads_bind_of_ok version_ok] at hrun
  simp only [hcalled, hlookup] at hrun
  rw [reads_bind_of_ok (ask_ok hread)] at hrun
  obtain ⟨new?, w₁, hbuild, hrun⟩ := reads_bind_eq_ok_iff.1 hrun
  cases new? with
  | none =>
    cases hrun
    exact .inl ⟨hbuild, rfl⟩
  | some new =>
    obtain ⟨tags, -, hrun⟩ := ask_bind_eq_ok_iff.1 hrun
    obtain ⟨kind, -, hrun⟩ := ask_bind_eq_ok_iff.1 hrun
    obtain ⟨rfl, hput⟩ := replaceThrough_eq_ok hrun
    exact .inr ⟨w₁, hbuild, hput.supplanted⟩

end ReplaceM

end Specializer
