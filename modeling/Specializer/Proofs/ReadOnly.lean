import Mathlib.Data.List.Basic
import Specializer.Proofs.Tree.Operation
import Specializer.Proofs.Tree.Plain
import Specializer.ReadOnly

/-!
# What deciding about variables does

Deciding which variables are read-only succeeds on every tree with a root that operations have built, and only writes
the flags of the variables (`Built.annotateReadOnly_ok`), as a sequence of single decisions would. A variable is decided
to be read-only exactly if nothing that is reachable may rebind it (`Consistent.isReadOnly_iff`). Of star imports only
those of the module count, so a star import of a class may bind a name of the class that is read-only
(`Consistent.maybeLocal_readOnly`, `starInClass_readOnly`).
-/

namespace Specializer.Tree

variable {t : Tree} {root : NodeId}

/-- The tree after a decision about the first variables. -/
def decided (t : Tree) (decide : VariableId → Variable → Bool) (count : Nat) : Tree :=
  { t with bindings := t.bindings.mapIdx fun i v => if i < count then { v with readOnly := decide ⟨i⟩ v } else v }

theorem decided_zero (t : Tree) (decide : VariableId → Variable → Bool) : t.decided decide 0 = t := by
  have hbindings : (t.bindings.mapIdx fun i v => if i < 0 then { v with readOnly := decide ⟨i⟩ v } else v) = t.bindings := by
    ext1 <;> simp
  rw [decided, hbindings]

/-- One more decision is one more operation. -/
theorem decided_succ (t : Tree) (decide : VariableId → Variable → Bool) {count : Nat} {v : Variable}
    (hv : t.bindings[count]? = some v) : TreeM.setReadOnly ⟨count⟩ (decide ⟨count⟩ v) (t.decided decide count) =
      .ok () (t.decided decide (count + 1)) := by
  have hlt : count < t.bindings.size := (Array.getElem?_eq_some_iff.1 hv).1
  have hcurrent : (t.decided decide count).variableAt ⟨count⟩ = .ok v := by
    refine variableAt_eq_ok_iff.2 ?_
    simp [decided, hv]
  rw [TreeM.setReadOnly, run_get_bind, run_check_ok hcurrent]
  have hbindings : (t.decided decide count).bindings.setIfInBounds count { v with readOnly := decide ⟨count⟩ v } =
      (t.decided decide (count + 1)).bindings := by
    refine Array.ext_getElem? fun i => ?_
    rw [Array.getElem?_setIfInBounds]
    by_cases hi : count = i
    · subst hi
      simp [decided, hlt, ← (Array.getElem?_eq_some_iff.1 hv).2]
    · have hstep : i < count + 1 ↔ i < count := by omega
      simp only [decided, if_neg hi, Array.getElem?_mapIdx, hstep]
  exact congrArg (fun bindings => EStateM.Result.ok () { t with bindings }) hbindings

theorem Built.decided (h : t.Built) (decide : VariableId → Variable → Bool) {count : Nat}
    (hcount : count ≤ t.bindings.size) : (t.decided decide count).Built := by
  induction count with
  | zero => exact (decided_zero t decide).symm ▸ h
  | succ count ih =>
    obtain ⟨v, hv⟩ : ∃ v, t.bindings[count]? = some v := ⟨_, Array.getElem?_eq_getElem hcount⟩
    exact (ih (Nat.le_of_succ_le hcount)).of_run (.setReadOnly ⟨count⟩ (decide ⟨count⟩ v)) (decided_succ t decide hv)

theorem variableList_map (t : Tree) (decide : VariableId → Variable → Bool) :
    (t.variableList.map fun (id, v) => { v with readOnly := decide id v }).toArray =
      (t.decided decide t.bindings.size).bindings := by
  refine Array.ext_getElem? fun i => ?_
  by_cases hi : i < t.bindings.size
  · simp [variableList, Tree.decided, hi]
  · simp [variableList, Tree.decided, hi]

/-- What the reachable nodes do to variables can be found out. -/
theorem Consistent.rebindings_ok (h : t.Consistent) (hroot : t.root = some root) : ∃ r, t.rebindings root = .ok r := by
  obtain ⟨n, hn, -⟩ := h.root hroot
  obtain ⟨ids, hwalk, hmem⟩ := h.walk_ok hn
  rw [rebindings, hwalk, ok_bind]
  refine foldlM_ok (fun r id hid => ?_) _
  obtain ⟨m, hm⟩ := h.live_of_reachable ⟨root, hroot, (hmem id).1 hid⟩
  obtain ⟨scope?, hscope, -⟩ := h.providerOf_ok hm
  simp only [noteRebinding, node_of_get? hm, ok_bind, hscope, except_pure]
  split
  · split <;> exact ⟨_, rfl⟩
  · split <;> exact ⟨_, rfl⟩
  · split <;> exact ⟨_, rfl⟩
  · exact ⟨_, rfl⟩

/-- Deciding about the variables only writes their flags. -/
theorem Consistent.annotateReadOnly_ok (h : t.Consistent) (hroot : t.root = some root) :
    ∃ r count, t.rebindings root = .ok r ∧ TreeM.annotateReadOnly t =
      .ok count (t.decided (t.isReadOnly root r) t.bindings.size) := by
  obtain ⟨r, hr⟩ := h.rebindings_ok hroot
  generalize hcount : (t.variableList.map fun (id, v) =>
    { v with readOnly := t.isReadOnly root r id v }).countP (·.readOnly) = count
  refine ⟨r, count, hr, ?_⟩
  obtain ⟨nodes, bindings, _⟩ := t
  obtain rfl : _ = some root := hroot
  rw [TreeM.annotateReadOnly, run_get_bind]
  dsimp only
  rw [run_check_ok hr, ← hcount]
  exact congrArg (fun bindings => EStateM.Result.ok _ (Tree.mk nodes bindings (some root)))
    (variableList_map ⟨nodes, bindings, some root⟩ _)

/-- **Deciding about the variables is a sequence of operations that only write their flags.** -/
theorem Built.annotateReadOnly_ok (h : t.Built) (hroot : t.root = some root) :
    ∃ r count, t.rebindings root = .ok r ∧ TreeM.annotateReadOnly t =
      .ok count (t.decided (t.isReadOnly root r) t.bindings.size) ∧
      (t.decided (t.isReadOnly root r) t.bindings.size).Built := by
  obtain ⟨r, count, hr, hrun⟩ := h.consistent.annotateReadOnly_ok hroot
  exact ⟨r, count, hr, hrun, h.decided _ (Nat.le_refl _)⟩

/-! ## What is rebound -/

/-- A node assigns or releases a variable. -/
def Rebinds (t : Tree) (id : NodeId) (v : VariableId) : Prop :=
  ∃ n, t.get? id = some n ∧ (n.kind = .statementAssignmentVariable ∨ n.kind = .statementReleaseVariable) ∧
    n.referent? = some v

/-- A node is a star import, and the closest scope around it is `scope`. -/
def StarImports (t : Tree) (id scope : NodeId) : Prop :=
  t.kind id = .ok .statementImportStar ∧ t.providerOf id = .ok (some scope)

/-- A variable is the first one of a scope with a name. -/
def FirstNamed (t : Tree) (scope : NodeId) (name : String) (v : VariableId) : Prop :=
  (∃ b, t.bindings[v.index]? = some b ∧ b.owner = scope ∧ b.name = name) ∧
    ∀ i < v.index, ∀ b, t.bindings[i]? = some b → ¬ (b.owner = scope ∧ b.name = name)

/-- Nothing that is reachable may rebind a variable. For a global that is a star import of the module, an assignment or
a release; what may be local is rebound too by what binds its name in its own scope or rebinds the global. -/
structure NeverRebound (t : Tree) (root : NodeId) (v : VariableId) (b : Variable) : Prop where
  kind : b.kind = .module ∨ b.kind = .maybeLocal
  star : ∀ id, t.Reachable id → ¬ t.StarImports id root
  global : b.kind = .module → ∀ id, t.Reachable id → ¬ t.Rebinds id v
  maybeLocal : b.kind = .maybeLocal → ∀ id u, t.Reachable id → t.Rebinds id u → ¬ t.FirstNamed root b.name u ∧
    ∀ c, t.bindings[u.index]? = some c → ¬ (c.owner = b.owner ∧ c.name = b.name)

theorem getElem?_variableList (t : Tree) (i : Nat) :
    t.variableList[i]? = t.bindings[i]?.map fun b => (⟨i⟩, b) := by
  simp [variableList, Function.comp_def]

theorem findVariable?_eq_some_iff {name : String} {v : VariableId} :
    t.findVariable? root name = some v ↔ t.FirstNamed root name v := by
  rw [findVariable?, Option.map_eq_some_iff]
  constructor
  · rintro ⟨⟨u, b⟩, hfind, rfl⟩
    obtain ⟨hb, i, hi, hget, hbefore⟩ := List.find?_eq_some_iff_getElem.1 hfind
    have hlisted : t.variableList[i]? = some (u, b) := by rw [List.getElem?_eq_getElem hi, hget]
    rw [getElem?_variableList] at hlisted
    obtain ⟨b', hb', heq⟩ := Option.map_eq_some_iff.1 hlisted
    obtain ⟨rfl, rfl⟩ := Prod.mk.inj heq
    refine ⟨⟨b', hb', by simpa using hb⟩, fun j hj c hc hnamed => ?_⟩
    have hlisted : t.variableList[j]? = some (⟨j⟩, c) := by rw [getElem?_variableList, hc, Option.map_some]
    obtain ⟨hj', hget'⟩ := List.getElem?_eq_some_iff.1 hlisted
    have hother := hbefore j hj
    rw [hget'] at hother
    simp [hnamed] at hother
  · rintro ⟨⟨b, hb, hnamed⟩, hbefore⟩
    have hlisted : t.variableList[v.index]? = some (v, b) := by rw [getElem?_variableList, hb, Option.map_some]
    obtain ⟨hi, hget⟩ := List.getElem?_eq_some_iff.1 hlisted
    refine ⟨(v, b), List.find?_eq_some_iff_getElem.2 ⟨by simpa using hnamed, v.index, hi, hget, fun j hj => ?_⟩, rfl⟩
    have hlisted : t.variableList[j]? = some t.variableList[j] := List.getElem?_eq_getElem _
    rw [getElem?_variableList] at hlisted
    obtain ⟨c, hc, heq⟩ := Option.map_eq_some_iff.1 hlisted
    rw [← heq, Bool.not_eq_true']
    exact Bool.eq_false_iff.2 fun hnamed => hbefore j hj c hc (by simpa using hnamed)

/-- What a statement about a variable writes. -/
theorem noteWrite_eq_ok {id : NodeId} {n : Node} {r r' : Rebindings} (hn : t.get? id = some n)
    (hwrite : n.kind = .statementAssignmentVariable ∨ n.kind = .statementReleaseVariable)
    (hrun : (match n.referent? with
      | some variableId => (return { r with written := variableId :: r.written })
      | none => return r) = (.ok r' : Except TreeError Rebindings)) :
    (∀ v, v ∈ r'.written ↔ t.Rebinds id v ∨ v ∈ r.written) ∧
      (r'.moduleStar = true ↔ t.StarImports id root ∨ r.moduleStar = true) := by
  have hstar : ¬ t.StarImports id root := by
    rintro ⟨hstar, -⟩
    rw [kind_eq_ok_iff.2 ⟨n, hn, rfl⟩] at hstar
    rcases hwrite with hwrite | hwrite <;> simp [hwrite] at hstar
  have hrebinds (v : VariableId) : t.Rebinds id v ↔ n.referent? = some v := by simp [Rebinds, hn, hwrite]
  cases hreferent : n.referent? with
  | none =>
    rw [hreferent] at hrun
    cases hrun
    simp [hrebinds, hreferent, hstar]
  | some u =>
    rw [hreferent] at hrun
    cases hrun
    simp [hrebinds, hreferent, hstar, eq_comm (a := u)]

theorem noteRebinding_eq_ok {id : NodeId} {r r' : Rebindings} (h : t.noteRebinding root r id = .ok r') :
    (∀ v, v ∈ r'.written ↔ t.Rebinds id v ∨ v ∈ r.written) ∧
      (r'.moduleStar = true ↔ t.StarImports id root ∨ r.moduleStar = true) := by
  obtain ⟨n, hnode, h⟩ := bind_eq_ok_iff.1 h
  have hn := node_eq_ok_iff.1 hnode
  have hkind : t.kind id = .ok n.kind := kind_eq_ok_iff.2 ⟨n, hn, rfl⟩
  have hnone (hwrite : n.kind ≠ .statementAssignmentVariable) (hrelease : n.kind ≠ .statementReleaseVariable)
      (v : VariableId) : ¬ t.Rebinds id v := by
    simp [Rebinds, hn, hwrite, hrelease]
  split at h
  · next hwrite => exact noteWrite_eq_ok hn (.inl hwrite) h
  · next hwrite => exact noteWrite_eq_ok hn (.inr hwrite) h
  · next hstar =>
    obtain ⟨scope?, hscope, h⟩ := bind_eq_ok_iff.1 h
    have hnone := hnone (by simp [hstar]) (by simp [hstar])
    have hiff : t.StarImports id root ↔ scope? = some root := by simp [StarImports, hkind, hstar, hscope]
    split at h
    · next hroot =>
      cases h
      simp [hnone, hiff, hroot]
    · next hroot =>
      cases h
      simp [hnone, hiff, hroot]
  · next hwrite hrelease hother =>
    cases h
    have hstar : ¬ t.StarImports id root := fun hstar => hother (Except.ok.inj (hkind.symm.trans hstar.1))
    simp [hnone hwrite hrelease, hstar]

theorem foldlM_noteRebinding_eq_ok : ∀ {ids : List NodeId} {r r' : Rebindings},
    ids.foldlM (t.noteRebinding root) r = .ok r' →
    (∀ v, v ∈ r'.written ↔ (∃ id ∈ ids, t.Rebinds id v) ∨ v ∈ r.written) ∧
      (r'.moduleStar = true ↔ (∃ id ∈ ids, t.StarImports id root) ∨ r.moduleStar = true)
  | [], r, r', h => by
    cases h
    simp
  | id :: ids, r, r', h => by
    rw [List.foldlM_cons] at h
    obtain ⟨r₁, hnote, hrest⟩ := bind_eq_ok_iff.1 h
    obtain ⟨hwritten₁, hstar₁⟩ := noteRebinding_eq_ok hnote
    obtain ⟨hwritten, hstar⟩ := foldlM_noteRebinding_eq_ok hrest
    refine ⟨fun v => ?_, ?_⟩
    · rw [hwritten, hwritten₁, ← or_assoc]
      simp [or_comm]
    · rw [hstar, hstar₁, ← or_assoc]
      simp [or_comm]

/-- The collected rebindings are those of the reachable nodes. -/
theorem Consistent.mem_rebindings (h : t.Consistent) (hroot : t.root = some root) {r : Rebindings}
    (hr : t.rebindings root = .ok r) :
    (∀ v, v ∈ r.written ↔ ∃ id, t.Reachable id ∧ t.Rebinds id v) ∧
      (r.moduleStar = true ↔ ∃ id, t.Reachable id ∧ t.StarImports id root) := by
  obtain ⟨ids, hwalk, hfold⟩ := bind_eq_ok_iff.1 hr
  have hmem (id : NodeId) : id ∈ ids ↔ t.Reachable id := by
    rw [h.mem_walk_iff hwalk, Reachable, hroot]
    simp
  obtain ⟨hwritten, hstar⟩ := foldlM_noteRebinding_eq_ok hfold
  simpa [hmem] using And.intro hwritten hstar

/-- **A variable is decided to be read-only exactly if nothing that is reachable may rebind it.** -/
theorem Consistent.isReadOnly_iff (h : t.Consistent) (hroot : t.root = some root) {r : Rebindings}
    (hr : t.rebindings root = .ok r) {v : VariableId} {b : Variable} :
    t.isReadOnly root r v b = true ↔ t.NeverRebound root v b := by
  obtain ⟨hwritten, hstar⟩ := h.mem_rebindings hroot hr
  have hnostar : r.moduleStar = false ↔ ∀ id, t.Reachable id → ¬ t.StarImports id root := by
    rw [← Bool.not_eq_true, hstar]
    simp
  have hunwritten (u : VariableId) : u ∉ r.written ↔ ∀ id, t.Reachable id → ¬ t.Rebinds id u := by
    rw [hwritten]
    simp
  have hglobal : t.globalIsReadOnly root r b.name = true ↔ r.moduleStar = false ∧
      ∀ u ∈ r.written, ¬ t.FirstNamed root b.name u := by
    simp only [globalIsReadOnly, Bool.and_eq_true, Bool.not_eq_true', ← findVariable?_eq_some_iff]
    refine and_congr_right fun _ => ?_
    cases t.findVariable? root b.name with
    | none => simp
    | some u =>
      simp only [List.contains_eq_mem, Bool.not_eq_true', decide_eq_false_iff_not, Option.some.injEq]
      exact ⟨fun hnot v hv heq => hnot (heq ▸ hv), fun hall hu => hall u hu rfl⟩
  have hbinds : t.bindsName r b.owner b.name = false ↔ ∀ u ∈ r.written, ∀ c, t.bindings[u.index]? = some c →
      ¬ (c.owner = b.owner ∧ c.name = b.name) := by
    rw [bindsName, List.any_eq_false]
    refine forall₂_congr fun u _ => ?_
    cases t.bindings[u.index]? with
    | none => simp
    | some c => simp
  unfold isReadOnly
  split
  · next hkind =>
    simp only [Bool.and_eq_true, Bool.not_eq_true', List.contains_eq_mem, decide_eq_false_iff_not, hunwritten, hnostar]
    exact ⟨fun ⟨hnot, hstar⟩ => ⟨.inl hkind, hstar, fun _ => hnot, fun hother => by simp [hkind] at hother⟩,
      fun hnever => ⟨hnever.global hkind, hnever.star⟩⟩
  · next hkind =>
    simp only [Bool.and_eq_true, Bool.not_eq_true', hglobal, hbinds, hnostar]
    constructor
    · rintro ⟨hown, hstar, hfirst⟩
      refine ⟨.inr hkind, hstar, fun hother => by simp [hkind] at hother, fun _ id u hid hu => ?_⟩
      have hu' := (hwritten u).2 ⟨id, hid, hu⟩
      exact ⟨hfirst u hu', hown u hu'⟩
    · intro hnever
      refine ⟨fun u hu => ?_, hnever.star, fun u hu => ?_⟩
      · obtain ⟨id, hid, hu⟩ := (hwritten u).1 hu
        exact (hnever.maybeLocal hkind id u hid hu).2
      · obtain ⟨id, hid, hu⟩ := (hwritten u).1 hu
        exact (hnever.maybeLocal hkind id u hid hu).1
  · next hkind => exact ⟨nofun, fun hnever => by simpa [hkind] using hnever.kind⟩
  · next hkind => exact ⟨nofun, fun hnever => by simpa [hkind] using hnever.kind⟩

/-! ## Deciding again -/

section Again

variable (t) (decide : VariableId → Variable → Bool) (count : Nat)

theorem ancestors_decided (id : NodeId) : (t.decided decide count).ancestors id = t.ancestors id := by
  have key (fuel : Nat) (id : NodeId) : (t.decided decide count).ancestorsUpTo fuel id = t.ancestorsUpTo fuel id := by
    induction fuel generalizing id with
    | zero => rfl
    | succ fuel ih =>
      simp only [ancestorsUpTo, ih]
      rfl
  exact key t.nodes.size id

theorem providerOf_decided (id : NodeId) : (t.decided decide count).providerOf id = t.providerOf id := by
  have key (ids : List NodeId) : (t.decided decide count).firstScope ids = t.firstScope ids := by
    induction ids with
    | nil => rfl
    | cons id ids ih =>
      rw [firstScope, firstScope, ih]
      rfl
  rw [providerOf, providerOf, key, ancestors_decided]
  rfl

theorem walk_decided (id : NodeId) : (t.decided decide count).walk id = t.walk id := by
  have key (fuel : Nat) : (t.decided decide count).walkUpTo fuel = t.walkUpTo fuel := by
    induction fuel with
    | zero => rfl
    | succ fuel ih =>
      funext id
      rw [walkUpTo, walkUpTo, ih]
      rfl
  exact congrFun (key (t.nodes.size + 1)) id

/-- What the nodes do to variables does not depend on what is known about these. -/
theorem rebindings_decided (root : NodeId) : (t.decided decide count).rebindings root = t.rebindings root := by
  have hnote : (t.decided decide count).noteRebinding root = t.noteRebinding root := by
    funext r id
    rw [noteRebinding, noteRebinding, providerOf_decided]
    rfl
  rw [rebindings, rebindings, walk_decided, hnote]

theorem getElem?_decided (i : Nat) : (t.decided decide count).bindings[i]? =
    t.bindings[i]?.map fun v => if i < count then { v with readOnly := decide ⟨i⟩ v } else v := by
  simp [decided]

theorem variableList_decided : (t.decided decide count).variableList =
    t.variableList.map fun e => (e.1, if e.1.index < count then { e.2 with readOnly := decide e.1 e.2 } else e.2) := by
  refine List.ext_getElem? fun i => ?_
  by_cases hi : i < t.bindings.size
  · simp [variableList, decided, hi]
  · simp [variableList, decided, hi]

/-- Whether a variable is rebound does not depend on what is known about it. -/
theorem isReadOnly_decided (root : NodeId) (r : Rebindings) (id : VariableId) (v : Variable) (readOnly : Bool) :
    (t.decided decide count).isReadOnly root r id { v with readOnly } = t.isReadOnly root r id v := by
  have hfind (name : String) : (t.decided decide count).findVariable? root name = t.findVariable? root name := by
    have hpred : ((fun e : VariableId × Variable => e.2.owner == root && e.2.name == name) ∘
        fun e : VariableId × Variable => (e.1, if e.1.index < count then { e.2 with readOnly := decide e.1 e.2 } else e.2)) =
        fun e : VariableId × Variable => e.2.owner == root && e.2.name == name := by
      funext e
      simp only [Function.comp]
      split <;> rfl
    rw [findVariable?, findVariable?, variableList_decided, List.find?_map, hpred, Option.map_map]
    rfl
  have hbinds (owner : NodeId) (name : String) : (t.decided decide count).bindsName r owner name = t.bindsName r owner name := by
    unfold bindsName
    refine congrArg r.written.any (funext fun id => ?_)
    rw [getElem?_decided]
    cases t.bindings[id.index]? with
    | none => rfl
    | some v =>
      simp only [Option.map_some]
      split <;> rfl
  simp only [isReadOnly, globalIsReadOnly, hfind, hbinds]

/-- **Deciding once more changes nothing**, on every tree that differs only in what is known about single nodes. -/
theorem Built.annotateReadOnly_again {t t' : Tree} {decided : Tree} {count : Nat} (h : t.Built) (hroot : t.root = some root)
    (hrun : TreeM.annotateReadOnly t = .ok count decided) (h' : t'.Built) (hplain : t'.plain = decided.plain) :
    ∃ count', TreeM.annotateReadOnly t' = .ok count' t' := by
  obtain ⟨r, count₀, hr, hrun₀, -⟩ := h.annotateReadOnly_ok hroot
  cases hrun.symm.trans hrun₀
  have hroot' : t'.root = some root := (congrArg Tree.root hplain :).trans hroot
  have hbindings : t'.bindings = (t.decided (t.isReadOnly root r) t.bindings.size).bindings :=
    (congrArg Tree.bindings hplain :)
  obtain ⟨r', count', hr', hrun', -⟩ := h'.annotateReadOnly_ok hroot'
  obtain rfl : r' = r := by
    have hsame : t'.rebindings root = t.rebindings root :=
      (eq_of_plain (·.rebindings root) (rebindings_plain · root) hplain).trans (rebindings_decided ..)
    exact Except.ok.inj (hr'.symm.trans (hsame.trans hr))
  have hsame : (t'.decided (t'.isReadOnly root r') t'.bindings.size).bindings = t'.bindings := by
    refine Array.ext_getElem? fun i => ?_
    rw [getElem?_decided]
    cases hv : t'.bindings[i]? with
    | none => rfl
    | some v' =>
      have hv₀ := hv
      rw [hbindings, getElem?_decided] at hv₀
      obtain ⟨v, hv₁, rfl⟩ := Option.map_eq_some_iff.1 hv₀
      have hlt : i < t.bindings.size := (Array.getElem?_eq_some_iff.1 hv₁).1
      have hlt' : i < t'.bindings.size := (Array.getElem?_eq_some_iff.1 hv).1
      have hread : t'.isReadOnly root r' ⟨i⟩ = (t.decided (t.isReadOnly root r') t.bindings.size).isReadOnly root r' ⟨i⟩ :=
        eq_of_plain (·.isReadOnly root r' ⟨i⟩) (fun _ => rfl) hplain
      simp only [Option.map_some, hlt, hlt', if_true, hread, isReadOnly_decided]
  refine ⟨count', hrun'.trans (congrArg (EStateM.Result.ok count') ?_)⟩
  exact congrArg (fun bindings => { t' with bindings }) hsame

end Again

/-! ## Star imports outside the module -/

section Stars

variable (t) (decide : VariableId → Variable → Bool) (count : Nat)

theorem reachable_decided {id : NodeId} : (t.decided decide count).Reachable id ↔ t.Reachable id := Iff.rfl

theorem starImports_decided {id scope : NodeId} :
    (t.decided decide count).StarImports id scope ↔ t.StarImports id scope := by
  rw [StarImports, StarImports, providerOf_decided]
  rfl

end Stars

/-- A flag that was decided is that of a variable which differs in nothing else. -/
theorem Consistent.readOnly_decided_iff (h : t.Consistent) (hroot : t.root = some root) {r : Rebindings}
    (hr : t.rebindings root = .ok r) {v : VariableId} {b : Variable}
    (hb : (t.decided (t.isReadOnly root r) t.bindings.size).bindings[v.index]? = some b) :
    b.readOnly = true ↔ t.NeverRebound root v b := by
  rw [getElem?_decided] at hb
  obtain ⟨b₀, hb₀, rfl⟩ := Option.map_eq_some_iff.1 hb
  have hlt : v.index < t.bindings.size := (Array.getElem?_eq_some_iff.1 hb₀).1
  rw [if_pos hlt]
  exact h.isReadOnly_iff hroot hr (b := { b₀ with readOnly := t.isReadOnly root r v b₀ })

/-- **What may be local and is read-only is not bound by a star import of its own scope**, provided this scope is the
module or star imports stand in the module only. Elsewhere star imports are not looked at: the flag is set exactly if
the module has no star import and nothing reachable assigns or releases the name, in its scope or as a global. -/
theorem Consistent.maybeLocal_readOnly (h : t.Consistent) (hroot : t.root = some root) :
    ∃ count t', TreeM.annotateReadOnly t = .ok count t' ∧
      ∀ v b, t'.bindings[v.index]? = some b → b.kind = .maybeLocal →
        (b.readOnly = true ↔ t.NeverRebound root v b) ∧
          (b.readOnly = true →
            (b.owner = root ∨ ∀ id scope, t'.Reachable id → t'.StarImports id scope → scope = root) →
            ∀ id, t'.Reachable id → ¬ t'.StarImports id b.owner) := by
  obtain ⟨r, count, hr, hrun⟩ := h.annotateReadOnly_ok hroot
  refine ⟨count, _, hrun, fun v b hb _ => ⟨h.readOnly_decided_iff hroot hr hb, fun hread hplace id hid hstar => ?_⟩⟩
  have hnever := (h.readOnly_decided_iff hroot hr hb).1 hread
  have howner : b.owner = root := hplace.elim (·) fun honly => honly id _ hid hstar
  rw [howner, starImports_decided] at hstar
  exact hnever.star id ((reachable_decided ..).1 hid) hstar

/-- A class that imports everything from a module, with a name of a builtin that may be local to it. -/
def starInClass : Tree :=
  .applyAll {} [
    .makeScope .module "m" default,
    .makeScope .classBody "C" default,
    .declareVariable ⟨1⟩ "len" .maybeLocal,
    .newNode .importModule default (.moduleImport ⟨⟨"os"⟩, ["*"], 0⟩) [],
    .newNode .statementImportStar default .none [.filled ⟨2⟩],
    .makeStatements [⟨3⟩] default,
    .setBody ⟨1⟩ ⟨4⟩,
    .makeExpressionStatement ⟨1⟩ default,
    .makeStatements [⟨5⟩] default,
    .setBody ⟨0⟩ ⟨6⟩,
    .setRoot ⟨0⟩]

theorem annotateReadOnly_starInClass : (match TreeM.annotateReadOnly starInClass with
    | .ok _ t' => t'.bindings[0]?
    | .error _ _ => none) = some ⟨"len", ⟨1⟩, .maybeLocal, true, 0⟩ := by decide +kernel

/-- The same with a name of the module that may be local to it. -/
def starBesideName : Tree := starInClass.applyAll [.declareVariable ⟨0⟩ "chr" .maybeLocal]

theorem annotateReadOnly_starBesideName : (match TreeM.annotateReadOnly starBesideName with
    | .ok _ t' => t'.bindings.toList
    | .error _ _ => []) = [⟨"len", ⟨1⟩, .maybeLocal, true, 0⟩, ⟨"chr", ⟨0⟩, .maybeLocal, true, 0⟩] := by decide +kernel

/-- Both names are read-only. The star import of the class is not one of the module, where the second name belongs. -/
theorem maybeLocal_readOnly_starBesideName : starBesideName.Consistent ∧ starBesideName.root = some ⟨0⟩ ∧
    ∃ count t' len chr, TreeM.annotateReadOnly starBesideName = .ok count t' ∧
      t'.bindings[0]? = some len ∧ len.kind = .maybeLocal ∧ starBesideName.NeverRebound ⟨0⟩ ⟨0⟩ len ∧
      t'.bindings[1]? = some chr ∧ chr.kind = .maybeLocal ∧ chr.readOnly = true ∧ chr.owner = ⟨0⟩ ∧
      starBesideName.Reachable ⟨3⟩ ∧ starBesideName.StarImports ⟨3⟩ ⟨1⟩ ∧
      ∀ id, t'.Reachable id → ¬ t'.StarImports id ⟨0⟩ := by
  have hconsistent : starBesideName.Consistent := (show starInClass.Built from ⟨_, rfl⟩).consistent.applyAll _
  have hroot : starBesideName.root = some ⟨0⟩ := by decide +kernel
  obtain ⟨count, t', hrun, hdecided⟩ := hconsistent.maybeLocal_readOnly hroot
  have hdecides := annotateReadOnly_starBesideName
  rw [hrun] at hdecides
  have hbindings : t'.bindings.toList = _ := hdecides
  have hlen : t'.bindings[0]? = some ⟨"len", ⟨1⟩, .maybeLocal, true, 0⟩ := by
    rw [← Array.getElem?_toList, hbindings]
    rfl
  have hchr : t'.bindings[1]? = some ⟨"chr", ⟨0⟩, .maybeLocal, true, 0⟩ := by
    rw [← Array.getElem?_toList, hbindings]
    rfl
  have hreachable : starBesideName.Reachable ⟨3⟩ := hconsistent.isReachable_iff.1 (by decide +kernel)
  have hstar : starBesideName.StarImports ⟨3⟩ ⟨1⟩ := ⟨by decide +kernel, by decide +kernel⟩
  obtain ⟨hnever, -⟩ := hdecided ⟨0⟩ _ hlen rfl
  obtain ⟨-, hnone⟩ := hdecided ⟨1⟩ _ hchr rfl
  exact ⟨hconsistent, hroot, count, t', _, _, hrun, hlen, rfl, hnever.1 rfl, hchr, rfl, rfl, rfl, hreachable, hstar,
    hnone rfl (.inl rfl)⟩

/-- The name is read-only although a star import of its own scope may bind it. -/
theorem starInClass_readOnly : starInClass.Built ∧ ∃ count t' b id,
    TreeM.annotateReadOnly starInClass = .ok count t' ∧ t'.bindings[0]? = some b ∧ b.kind = .maybeLocal ∧
      b.readOnly = true ∧ t'.Reachable id ∧ t'.StarImports id b.owner := by
  have hbuilt : starInClass.Built := ⟨_, rfl⟩
  have hreachable : starInClass.Reachable ⟨3⟩ := hbuilt.consistent.isReachable_iff.1 (by decide +kernel)
  have hstar : starInClass.StarImports ⟨3⟩ ⟨1⟩ := ⟨by decide +kernel, by decide +kernel⟩
  have hroot : starInClass.root = some ⟨0⟩ := by decide +kernel
  obtain ⟨r, count, -, hrun⟩ := hbuilt.consistent.annotateReadOnly_ok hroot
  have hlen := annotateReadOnly_starInClass
  rw [hrun] at hlen
  exact ⟨hbuilt, count, _, _, ⟨3⟩, hrun, hlen, rfl, rfl, (reachable_decided ..).2 hreachable,
    (starImports_decided ..).2 hstar⟩

end Specializer.Tree
