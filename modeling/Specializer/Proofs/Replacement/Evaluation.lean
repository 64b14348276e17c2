import Specializer.Proofs.Replacement.Arguments
import Specializer.Proofs.Replacement.Rewriting

/-!
# Replaced calls still evaluate their arguments

The node that takes the place of a call has all arguments of the call, unchanged, and a walk comes by each of them once,
in the order of their evaluation (`Tree.EvaluatesAll`). If the call is bound to fail, the node raises a `TypeError`
after those arguments whose evaluation can be noticed (`Tree.RaisesInstead`). Every handler prepares one or the other
(`KeepsEvaluation`), and so every look of the two visitors that replace calls ends with one of them
(`enter_keepsEvaluation`).
-/

namespace Specializer

namespace Tree

variable {t₀ t t' : Tree} {hole new : NodeId} {args : List NodeId}

/-! ## What becomes of arguments -/

/-- The node in the place of a call evaluates all its arguments: they are as they were, and a walk comes by each of them
once and in order. -/
structure EvaluatesAll (t t' : Tree) (args : List NodeId) (new : NodeId) : Prop where
  node : ∃ n, t'.get? new = some n ∧ n.kind ≠ .raiseException ∧ n.kind ≠ .sideEffects
  unchanged : ∀ a ∈ args, t.SameBelow t' a
  order : ∃ ids, t'.walk new = .ok ids ∧ ids.filter (· ∈ args) = args ∧ ∀ a ∈ args, ids.count a = 1

/-- A node raises a `TypeError`. -/
def RaisesTypeError (t : Tree) (id : NodeId) : Prop :=
  ∃ n message, t.get? id = some n ∧ n.kind = .raiseException ∧ n.payload = .raise ⟨.typeError, message⟩

/-- A node raises a `TypeError`, after others if there are any. -/
def RaisesAfter (t : Tree) (effects : List NodeId) (id : NodeId) : Prop :=
  effects = [] ∧ t.RaisesTypeError id ∨ effects ≠ [] ∧ ∃ n raise, t.get? id = some n ∧ n.kind = .sideEffects ∧
    n.slots = [.many effects, .filled raise] ∧ t.RaisesTypeError raise

/-- The node in the place of a call raises a `TypeError` after the arguments whose evaluation can be noticed. They are
as they were, and all others are torn down. -/
structure RaisesInstead (t t' : Tree) (args : List NodeId) (new : NodeId) : Prop where
  raises : t'.RaisesAfter (t.observable args) new
  unchanged : ∀ a ∈ t.observable args, t.SameBelow t' a
  gone : ∀ a ∈ args, a ∉ t.observable args → ∀ x, t.Below x a → t'.get? x = none

/-! ## Before the place is taken -/

/-- A new node has everything at hand. -/
structure Assembled (t₀ : Tree) (hole : NodeId) (args : List NodeId) (new : NodeId) (t : Tree) : Prop where
  holding : Holding t₀ hole args [] [new] t
  fresh : t₀.nodes.size ≤ new.index
  node : ∃ n, t.get? new = some n ∧ n.kind ≠ .raiseException ∧ n.kind ≠ .sideEffects

/-- A new node raises a `TypeError`. -/
structure Failing (t₀ : Tree) (hole : NodeId) (args : List NodeId) (new : NodeId) (t : Tree) : Prop where
  gathered : Gathered t₀ hole args [] t
  fresh : t₀.nodes.size ≤ new.index
  raises : t.RaisesAfter (t₀.observable args) new
  gone : ∀ a ∈ args, a ∉ t₀.observable args → ∀ x, t₀.Below x a → t.get? x = none

theorem Assembled.evaluatesAll (h : Assembled t₀ hole args new t) (hi : Installed t₀ t t' hole new) :
    EvaluatesAll t₀ t' args new := by
  have hcarries := h.holding.carries_all
  obtain ⟨n, hn, hkind⟩ := h.node
  obtain ⟨p, hn'⟩ := hi.node .refl hn
  obtain ⟨ids, hwalk, hfilter⟩ := h.holding.carries_installed hi hcarries
  refine ⟨⟨_, hn', hkind⟩, fun a ha => ?_, ids, hwalk, hfilter, fun a ha => ?_⟩
  · exact h.holding.sameBelow_installed hi h.fresh ha (hcarries.below h.holding.consistent ha).2
  · rw [← List.count_filter (p := (· ∈ args)) (by simpa using ha), hfilter]
    exact List.count_eq_one_of_mem h.holding.arguments.nodup ha

theorem RaisesTypeError.installed {id : NodeId} (h : t.RaisesTypeError id) (hi : Installed t₀ t t' hole new)
    (hid : t.Below id new) : t'.RaisesTypeError id := by
  obtain ⟨n, message, hn, hkind, hpayload⟩ := h
  obtain ⟨p, hn'⟩ := hi.node hid hn
  exact ⟨_, message, hn', hkind, hpayload⟩

theorem Failing.raisesInstead (h : Failing t₀ hole args new t) (hi : Installed t₀ t t' hole new) :
    RaisesInstead t₀ t' args new := by
  refine ⟨?_, fun a ha => ?_, fun a ha hnot x hx => hi.stale (h.gone a ha hnot x hx)⟩
  · rcases h.raises with ⟨hnil, hraise⟩ | ⟨hne, n, raise, hn, hkind, hslots, hraise⟩
    · exact .inl ⟨hnil, hraise.installed hi .refl⟩
    · obtain ⟨p, hn'⟩ := hi.node .refl hn
      have hchild : raise ∈ n.children := by simp [Node.children, hslots, Slot.ids, Slot.filled]
      exact .inr ⟨hne, _, raise, hn', hkind, hslots,
        hraise.installed hi (.single ((h.gathered.consistent.isParent_iff hn).2 hchild))⟩
  · rcases h.raises with ⟨hnil, -⟩ | ⟨-, n, raise, hn, -, hslots, -⟩
    · rw [hnil] at ha
      cases ha
    · have hchild : a ∈ n.children := by simp [Node.children, hslots, Slot.ids, ha]
      exact h.gathered.sameBelow_installed hi h.fresh (List.mem_filter.1 ha).1
        (.single ((h.gathered.consistent.isParent_iff hn).2 hchild))

/-- A new node over everything at hand. -/
theorem Holding.assembled {kind : NodeKind} {source : SourceRef} {payload : Payload} {slots : List Slot}
    (h : Holding t₀ hole args [] (slots.flatMap Slot.ids) t)
    (hkind : kind ≠ .raiseException ∧ kind ≠ .sideEffects)
    (hrun : TreeM.newNode kind source payload slots t = .ok new t') : Assembled t₀ hole args new t' := by
  obtain ⟨h', hfresh, hn⟩ := Holding.make [] [] (by simpa using h) hrun
  exact ⟨h', hfresh, _, hn, hkind⟩

/-- A call that is bound to fail becomes a raise after what can be noticed of its arguments. -/
theorem Arguments.raiseAfter {message : String} {source : SourceRef} (h : t.Arguments hole args) (hc : t.Consistent)
    (hrun : TreeM.raiseAfter ⟨.typeError, message⟩ args source t = .ok new t') : Failing t hole args new t' := by
  obtain ⟨kept, t₁, hkeep, hrun⟩ := run_bind_eq_ok_iff.1 hrun
  obtain ⟨hg₁, rfl, hsize, hgone, -⟩ := (h.gathered hc).keepObservable rfl hkeep
  obtain ⟨raise, t₂, hmake, hrun⟩ := run_bind_eq_ok_iff.1 hrun
  obtain ⟨hg₂, hlater₂, hfresh, hraise⟩ := hg₁.newNode hmake (by simp)
  have hgone₂ {a x : NodeId} (ha : a ∈ args) (hnot : a ∉ t.observable args) (hx : t.Below x a) : t₂.get? x = none :=
    hlater₂.stale (hsize ▸ h.below_lt ha hx) (hgone a ha hnot x hx)
  by_cases hnil : t.observable args = []
  · rw [hnil] at hrun
    cases hrun
    exact ⟨hg₂, hfresh, .inl ⟨hnil, _, message, hraise, rfl, rfl⟩, fun a ha hnot x => hgone₂ ha hnot⟩
  · have hempty : (t.observable args).isEmpty = false := by simpa using hnil
    rw [hempty] at hrun
    obtain ⟨hg, hlater, hfresh', hn⟩ := hg₂.newNode hrun fun c hc => by
      rcases (by simpa [Slot.ids, Slot.filled] using hc : c ∈ t.observable args ∨ c = raise) with hc | rfl
      · exact .inr (List.mem_filter.1 hc).1
      · exact .inl hfresh
    obtain ⟨p, hraise'⟩ := hlater.fresh hfresh hraise
    refine ⟨hg, hfresh', .inr ⟨hnil, _, raise, hn, rfl, rfl, _, message, hraise', rfl, rfl⟩, fun a ha hnot x hx => ?_⟩
    exact hlater.stale (Nat.lt_of_lt_of_le (h.below_lt ha hx) hg₂.size) (hgone₂ ha hnot hx)

end Tree

/-! ## Binding -/

section Binding

variable {signature : Signature} {positional : List NodeId} {keywords : List (String × NodeId)}
  {bound : BoundArguments NodeId}

/-- The arguments in order, those of the parameters first. -/
theorem Signature.BindsInOrder.inOrder (h : signature.BindsInOrder positional keywords bound) :
    (List.range signature.params.length).flatMap (fun i => (bound.get? i).toList) ++
      (bound.starList ++ bound.starDict.map (·.2)) = positional ++ keywords.map (·.2) := by
  rw [← h.all, BoundArguments.all, ← h.length, List.filterMap_eq_flatMap_toList]
  congr 1
  conv => rhs; rw [← Plan.map_get?_range bound, List.flatMap_map]
  rfl

theorem BoundArguments.get?_of_given (h : bound.given = 0) (i : Nat) : bound.get? i = none := by
  rw [BoundArguments.get?]
  cases hv : bound.values[i]? with
  | none => rfl
  | some v => simpa using List.countP_eq_zero.1 h v (List.mem_of_getElem? hv)

end Binding

namespace ReplaceM

open Specializer.Tree

variable {s : Settings} {w w' : Workspace} {t₀ : Tree} {hole new : NodeId} {args pending hand : List NodeId}
  {site : CallSite} {bound : BoundArguments NodeId}

/-! ## Parts of handlers -/

theorem detach_eq_ok {id id' : NodeId} (h : Holding t₀ hole args (id :: pending) hand w.tree)
    (hrun : onTree (TreeM.detach id) s w = .ok id' w') : Holding t₀ hole args pending (hand ++ [id']) w'.tree := by
  obtain ⟨t', hdetach, rfl⟩ := onTree_eq_ok_iff.1 hrun
  obtain ⟨rfl, h'⟩ := h.take hdetach
  exact h'

theorem take_eq_ok {a? b? : Option NodeId} (h : Holding t₀ hole args (a?.toList ++ pending) hand w.tree)
    (hrun : onTree (TreeM.take a?) s w = .ok b? w') : Holding t₀ hole args pending (hand ++ b?.toList) w'.tree := by
  obtain ⟨t', htake, rfl⟩ := onTree_eq_ok_iff.1 hrun
  cases a? with
  | none =>
    cases htake
    simpa using h
  | some a =>
    obtain ⟨b, t₁, hdetach, htake⟩ := run_bind_eq_ok_iff.1 htake
    cases htake
    obtain ⟨rfl, h'⟩ := h.take hdetach
    exact h'

theorem takeSlot_eq_ok {i : Nat} {slot : Slot} (h : Holding t₀ hole args ((bound.get? i).toList ++ pending) hand w.tree)
    (hrun : takeSlot bound i s w = .ok slot w') : Holding t₀ hole args pending (hand ++ slot.ids) w'.tree := by
  obtain ⟨a?, w₁, htake, hrun⟩ := reads_bind_eq_ok_iff.1 hrun
  cases hrun
  exact take_eq_ok h htake

/-- If each step takes the next nodes out and has something at hand for them, so do all steps together. -/
theorem mapM_eq_ok {α β : Type} {f : α → ReplaceM β} (taken : α → List NodeId) (given : β → List NodeId)
    (hstep : ∀ {x y w w' pending hand}, Holding t₀ hole args (taken x ++ pending) hand w.tree → f x s w = .ok y w' →
      Holding t₀ hole args pending (hand ++ given y) w'.tree) :
    ∀ {l : List α} {ys : List β} {hand : List NodeId} {w : Workspace},
      Holding t₀ hole args (l.flatMap taken) hand w.tree → l.mapM f s w = .ok ys w' →
      Holding t₀ hole args [] (hand ++ ys.flatMap given) w'.tree
  | [], _, hand, w, h, hrun => by
    cases hrun
    simpa using h
  | x :: l, ys, hand, w, h, hrun => by
    rw [List.mapM_cons] at hrun
    obtain ⟨y, w₁, hy, hrun⟩ := reads_bind_eq_ok_iff.1 hrun
    obtain ⟨rest, w₂, hrest, hrun⟩ := reads_bind_eq_ok_iff.1 hrun
    cases hrun
    have h₁ := hstep h hy
    have h₂ := mapM_eq_ok taken given hstep h₁ hrest
    simpa using h₂

/-- Detaching all pending nodes has them all at hand. -/
theorem detachAll_eq_ok {ids taken : List NodeId} (h : Holding t₀ hole args ids [] w.tree)
    (hrun : (ids.mapM fun id => onTree (TreeM.detach id)) s w = .ok taken w') :
    Holding t₀ hole args [] taken w'.tree := by
  have h' := mapM_eq_ok ([·]) ([·]) detach_eq_ok (by simpa using h) hrun
  simpa using h'

theorem makeOperation_eq_ok {kind : NodeKind} {slots : List Slot}
    (h : Holding t₀ hole args [] (slots.flatMap Slot.ids) w.tree) (hkind : kind ≠ .raiseException ∧ kind ≠ .sideEffects)
    (hrun : makeOperation site kind slots s w = .ok (some new) w') : Assembled t₀ hole args new w'.tree := by
  obtain ⟨new', w₁, honTree, hrun⟩ := reads_bind_eq_ok_iff.1 hrun
  cases hrun
  obtain ⟨t', hmake, rfl⟩ := onTree_eq_ok_iff.1 honTree
  exact h.assembled hkind hmake

theorem makeNullary_eq_ok {kind : NodeKind} (h : Holding t₀ hole args [] [] w.tree)
    (hkind : kind ≠ .raiseException ∧ kind ≠ .sideEffects) (hrun : makeOperation site kind [] s w = .ok (some new) w') :
    Assembled t₀ hole args new w'.tree := by
  refine makeOperation_eq_ok ?_ hkind hrun
  exact h

/-- What a handler leaves for a call: a node with all arguments, or one that raises. -/
def Prepared (t₀ : Tree) (hole : NodeId) (args : List NodeId) (new : NodeId) (t : Tree) : Prop :=
  Assembled t₀ hole args new t ∨ Failing t₀ hole args new t

/-- Arguments that are bound stand in order and go to the builder; a call whose arguments cannot be bound raises. -/
theorem withBound_eq_ok {signature : Signature} {build : BoundArguments NodeId → ReplaceM (Option NodeId)}
    (hlast : signature.CollectsLast) (hc : w.tree.Consistent) (hargs : w.tree.Arguments hole site.arguments)
    (hbuild : ∀ bound, signature.BindsInOrder site.positional site.keywords bound →
      Holding w.tree hole site.arguments
        ((List.range signature.params.length).flatMap (fun i => (bound.get? i).toList) ++
          (bound.starList ++ bound.starDict.map (·.2))) [] w.tree →
      build bound s w = .ok (some new) w' → Assembled w.tree hole site.arguments new w'.tree)
    (hrun : withBound site signature build s w = .ok (some new) w') :
    Prepared w.tree hole site.arguments new w'.tree := by
  obtain ⟨binding, w₁, hbind, hrun⟩ := reads_bind_eq_ok_iff.1 hrun
  unfold bindCall at hbind
  cases hbound : signature.bind site.positional site.keywords with
  | ok bound =>
    simp only [hbound] at hbind
    cases horder : signature.keywordsInOrder site.keywords with
    | false =>
      rw [horder] at hbind
      cases hbind
      cases hrun
    | true =>
      rw [horder] at hbind
      cases hbind
      have hin := Signature.bindsInOrder_of_bind hlast hbound horder
      exact .inl (hbuild bound hin (hargs.holding hc hin.inOrder) hrun)
  | error e =>
    simp only [hbound] at hbind
    obtain ⟨node, w₂, honTree, hbind⟩ := reads_bind_eq_ok_iff.1 hbind
    obtain ⟨t', hraise, rfl⟩ := onTree_eq_ok_iff.1 honTree
    cases hbind
    cases hrun
    exact .inr (hargs.raiseAfter hc hraise)

/-- The same for a builtin that collects nothing. -/
theorem withBound_eq_ok_of_params {signature : Signature} {build : BoundArguments NodeId → ReplaceM (Option NodeId)}
    (hlist : signature.starList = false) (hdict : signature.starDict = false) (hc : w.tree.Consistent)
    (hargs : w.tree.Arguments hole site.arguments)
    (hbuild : ∀ bound, bound.values.length = signature.params.length →
      Holding w.tree hole site.arguments
        ((List.range signature.params.length).flatMap fun i => (bound.get? i).toList) [] w.tree →
      build bound s w = .ok (some new) w' → Assembled w.tree hole site.arguments new w'.tree)
    (hrun : withBound site signature build s w = .ok (some new) w') :
    Prepared w.tree hole site.arguments new w'.tree := by
  refine withBound_eq_ok ⟨fun h => ?_, fun h => ?_⟩ hc hargs (fun bound hin h => hbuild bound hin.length ?_) hrun
  · rw [hdict] at h
    cases h
  · rw [hlist] at h
    cases h
  · simpa [hin.starList hlist, hin.starDict hdict] using h

/-! ## The handlers -/

/-- What a handler builds for a call keeps the evaluation of the arguments. -/
structure KeepsEvaluation (handler : CallHandler) : Prop where
  builds : ∀ ⦃s : Settings⦄ ⦃w w' : Workspace⦄ ⦃site : CallSite⦄ ⦃hole new : NodeId⦄, w.tree.Consistent →
    w.tree.Arguments hole site.arguments → handler site s w = .ok (some new) w' →
    Prepared w.tree hole site.arguments new w'.tree

theorem keepsEvaluation_specialize {signature : Signature} {kind : NodeKind} (hlist : signature.starList = false)
    (hdict : signature.starDict = false) (hkind : kind ≠ .raiseException ∧ kind ≠ .sideEffects) :
    KeepsEvaluation (specialize signature kind) := by
  refine ⟨fun s w w' site hole new hc hargs hrun =>
    withBound_eq_ok_of_params hlist hdict hc hargs (fun bound hlength h hbuild => ?_) hrun⟩
  obtain ⟨slots, w₁, htake, hbuild⟩ := reads_bind_eq_ok_iff.1 hbuild
  rw [hlength] at htake
  exact makeOperation_eq_ok (mapM_eq_ok _ _ takeSlot_eq_ok h htake) hkind hbuild

/-- Without arguments there is nothing to keep. -/
theorem localsOrGlobals_eq_ok (h : Holding t₀ hole args [] [] w.tree)
    (hrun : localsOrGlobals site s w = .ok (some new) w') : Assembled t₀ hole args new w'.tree := by
  obtain ⟨provider?, -, hrun⟩ := ask_bind_eq_ok_iff.1 hrun
  have hkind (inModule : Bool) : (if inModule then NodeKind.builtinGlobals else .builtinLocals) ≠ .raiseException ∧
      (if inModule then NodeKind.builtinGlobals else .builtinLocals) ≠ .sideEffects := by
    cases inModule <;> decide
  cases provider? with
  | none => exact makeNullary_eq_ok (s := s) h (hkind true) hrun
  | some provider =>
    obtain ⟨kind, -, hrun⟩ := ask_bind_eq_ok_iff.1 hrun
    exact makeNullary_eq_ok h (hkind _) hrun

theorem keepsEvaluation_specializeLocals : KeepsEvaluation specializeLocals := by
  refine ⟨fun s w w' site hole new hc hargs hrun =>
    withBound_eq_ok_of_params rfl rfl hc hargs (fun bound _ h hbuild => ?_) hrun⟩
  exact localsOrGlobals_eq_ok h hbuild

theorem keepsEvaluation_specializeDir : KeepsEvaluation specializeDir := by
  refine ⟨fun s w w' site hole new hc hargs hrun =>
    withBound_eq_ok_of_params rfl rfl hc hargs (fun bound _ h hbuild => ?_) hrun⟩
  have h : Holding w.tree hole site.arguments ((bound.get? 0).toList ++ []) [] w.tree := h
  split at hbuild
  · next hnone =>
    rw [BoundArguments.get?_of_given hnone] at h
    exact makeNullary_eq_ok h (by decide) hbuild
  · cases hbuild

theorem keepsEvaluation_specializeVars : KeepsEvaluation specializeVars := by
  refine ⟨fun s w w' site hole new hc hargs hrun =>
    withBound_eq_ok_of_params rfl rfl hc hargs (fun bound _ h hbuild => ?_) hrun⟩
  have h : Holding w.tree hole site.arguments ((bound.get? 0).toList ++ []) [] w.tree := h
  split at hbuild
  · next hnone =>
    rw [BoundArguments.get?_of_given hnone] at h
    exact localsOrGlobals_eq_ok h hbuild
  · obtain ⟨slot, w₁, htake, hbuild⟩ := reads_bind_eq_ok_iff.1 hbuild
    have h₁ := takeSlot_eq_ok h htake
    exact makeOperation_eq_ok (by simpa using h₁) (by decide) hbuild

theorem keepsEvaluation_specializeRepr : KeepsEvaluation specializeRepr := by
  refine ⟨fun s w w' site hole new hc hargs hrun =>
    withBound_eq_ok_of_params rfl rfl hc hargs (fun bound _ h hbuild => ?_) hrun⟩
  have h : Holding w.tree hole site.arguments ((bound.get? 0).toList ++ []) [] w.tree := h
  obtain ⟨slot, w₁, htake, hbuild⟩ := reads_bind_eq_ok_iff.1 hbuild
  have h₁ := takeSlot_eq_ok h htake
  obtain ⟨new', w₂, honTree, hbuild⟩ := reads_bind_eq_ok_iff.1 hbuild
  cases hbuild
  obtain ⟨t', hmake, rfl⟩ := onTree_eq_ok_iff.1 honTree
  exact Holding.assembled (by simpa using h₁) (by decide) hmake

theorem keepsEvaluation_specializeOneOrTwo {signature : Signature} {one two : NodeKind}
    (hparams : signature.params.length = 2) (hlist : signature.starList = false) (hdict : signature.starDict = false)
    (hone : one ≠ .raiseException ∧ one ≠ .sideEffects) (htwo : two ≠ .raiseException ∧ two ≠ .sideEffects) :
    KeepsEvaluation (specializeOneOrTwo signature one two) := by
  refine ⟨fun s w w' site hole new hc hargs hrun =>
    withBound_eq_ok_of_params hlist hdict hc hargs (fun bound _ h hbuild => ?_) hrun⟩
  rw [hparams] at h
  have h : Holding w.tree hole site.arguments ((bound.get? 0).toList ++ ((bound.get? 1).toList ++ [])) [] w.tree := h
  obtain ⟨first, w₁, htake, hbuild⟩ := reads_bind_eq_ok_iff.1 hbuild
  have h₁ := takeSlot_eq_ok h htake
  obtain ⟨second?, w₂, htake, hbuild⟩ := reads_bind_eq_ok_iff.1 hbuild
  have h₂ := take_eq_ok h₁ htake
  cases second? with
  | none => exact makeOperation_eq_ok (by simpa using h₂) hone hbuild
  | some second => exact makeOperation_eq_ok (by simpa [Slot.ids, Slot.filled] using h₂) htwo hbuild

theorem keepsEvaluation_specializeType : KeepsEvaluation specializeType := by
  refine ⟨fun s w w' site hole new hc hargs hrun => ?_⟩
  unfold specializeType at hrun
  by_cases hkeywords : (!site.keywords.isEmpty) = true
  · rw [if_pos hkeywords] at hrun
    cases hrun
  rw [if_neg hkeywords] at hrun
  have hpositional : site.positional = site.arguments := by
    have hnil : site.keywords = [] := by simpa using hkeywords
    simp [CallSite.arguments, hnil]
  have build {kind : NodeKind} (hkind : kind ≠ .raiseException ∧ kind ≠ .sideEffects)
      (hrun : (do
        let taken ← site.positional.mapM fun id => onTree (TreeM.detach id)
        makeOperation site kind (taken.map .filled) : ReplaceM (Option NodeId)) s w = .ok (some new) w') :
      Prepared w.tree hole site.arguments new w'.tree := by
    obtain ⟨taken, w₁, hdetach, hrun⟩ := reads_bind_eq_ok_iff.1 hrun
    have h₁ := detachAll_eq_ok (hargs.holding hc hpositional) hdetach
    refine .inl (makeOperation_eq_ok ?_ hkind hrun)
    rw [List.flatMap_map]
    simpa [Slot.ids, Slot.filled] using h₁
  rcases hlength : site.positional.length with _ | _ | _ | _ | k <;> simp only [hlength] at hrun
  · cases hrun
  · exact build (by decide) hrun
  · cases hrun
  · exact build (by decide) hrun
  · cases hrun

theorem keepsEvaluation_specializeExec : KeepsEvaluation specializeExec := by
  refine ⟨fun s w w' site hole new hc hargs hrun => ?_⟩
  rw [specializeExec, reads_bind_of_ok version_ok] at hrun
  split at hrun
  · exact (keepsEvaluation_specialize rfl rfl (by decide)).builds hc hargs hrun
  · cases hrun

theorem keepsEvaluation_specializeLong : KeepsEvaluation specializeLong := by
  refine ⟨fun s w w' site hole new hc hargs hrun => ?_⟩
  rw [specializeLong, reads_bind_of_ok version_ok] at hrun
  split at hrun
  · cases hrun
  · exact (keepsEvaluation_specialize rfl rfl (by decide)).builds hc hargs hrun

/-- The text of a file is read where its name was. -/
theorem openAndRead_eq_ok {text : NodeId} (h : Holding t₀ hole args ((bound.get? 0).toList ++ pending) [] w.tree)
    (hrun : openAndRead site bound s w = .ok text w') : Holding t₀ hole args pending [text] w'.tree := by
  obtain ⟨filename, w₁, htake, hrun⟩ := reads_bind_eq_ok_iff.1 hrun
  have h₁ := takeSlot_eq_ok h htake
  obtain ⟨mode, w₂, hmode, hrun⟩ := reads_bind_eq_ok_iff.1 hrun
  obtain ⟨t₂, hmakeMode, rfl⟩ := onTree_eq_ok_iff.1 hmode
  obtain ⟨h₂, -, -⟩ := Holding.make filename.ids [] (by simpa using h₁) hmakeMode
  obtain ⟨opened, w₃, hopened, hrun⟩ := reads_bind_eq_ok_iff.1 hrun
  obtain ⟨t₃, hmakeOpened, rfl⟩ := onTree_eq_ok_iff.1 hopened
  obtain ⟨h₃, -, -⟩ := Holding.make [] [] (by simpa [Slot.ids, Slot.filled] using h₂) hmakeOpened
  obtain ⟨read, w₄, hread, hrun⟩ := reads_bind_eq_ok_iff.1 hrun
  obtain ⟨t₄, hmakeRead, rfl⟩ := onTree_eq_ok_iff.1 hread
  obtain ⟨h₄, -, -⟩ := Holding.make [] [] (by simpa [Slot.ids, Slot.filled] using h₃) hmakeRead
  obtain ⟨t₅, hmakeCall, rfl⟩ := onTree_eq_ok_iff.1 hrun
  obtain ⟨h₅, -, -⟩ := Holding.make [] [] (by simpa [Slot.ids, Slot.filled] using h₄) hmakeCall
  exact h₅

theorem execfileSlots_eq_ok {slots : List Slot} (h : Holding t₀ hole args
      ((List.range Signature.execfile.params.length).flatMap fun i => (bound.get? i).toList) [] w.tree)
    (hrun : execfileSlots site bound s w = .ok slots w') :
    Holding t₀ hole args [] (slots.flatMap Slot.ids) w'.tree := by
  have h : Holding t₀ hole args
      ((bound.get? 0).toList ++ ((bound.get? 1).toList ++ ((bound.get? 2).toList ++ []))) [] w.tree := h
  obtain ⟨text, w₁, hopen, hrun⟩ := reads_bind_eq_ok_iff.1 hrun
  obtain ⟨globals, w₂, hglobals, hrun⟩ := reads_bind_eq_ok_iff.1 hrun
  obtain ⟨locals, w₃, hlocals, hrun⟩ := reads_bind_eq_ok_iff.1 hrun
  cases hrun
  have h₁ := takeSlot_eq_ok (takeSlot_eq_ok (openAndRead_eq_ok h hopen) hglobals) hlocals
  simpa [Slot.ids, Slot.filled] using h₁

theorem keepsEvaluation_specializeExecfile : KeepsEvaluation specializeExecfile := by
  refine ⟨fun s w w' site hole new hc hargs hrun => ?_⟩
  rw [specializeExecfile, reads_bind_of_ok version_ok] at hrun
  split at hrun
  · cases hrun
  · refine withBound_eq_ok_of_params rfl rfl hc hargs (fun bound _ h hbuild => ?_) hrun
    obtain ⟨slots, w₁, hslots, hbuild⟩ := reads_bind_eq_ok_iff.1 hbuild
    exact makeOperation_eq_ok (execfileSlots_eq_ok h hslots) (by decide) hbuild

/-- An entry carries the value of its keyword. -/
theorem makeEntry_eq_ok {keyword : String × NodeId} {entry : NodeId}
    (h : Holding t₀ hole args (keyword.2 :: pending) hand w.tree) (hrun : makeEntry keyword s w = .ok entry w') :
    Holding t₀ hole args pending (hand ++ [entry]) w'.tree := by
  obtain ⟨source, -, hrun⟩ := ask_bind_eq_ok_iff.1 hrun
  obtain ⟨value, w₁, hdetach, hrun⟩ := reads_bind_eq_ok_iff.1 hrun
  have h₁ := detach_eq_ok h hdetach
  obtain ⟨key, w₂, hkey, hrun⟩ := reads_bind_eq_ok_iff.1 hrun
  obtain ⟨t₂, hmakeKey, rfl⟩ := onTree_eq_ok_iff.1 hkey
  -- the key comes before the value that was taken first
  obtain ⟨h₂, -, -⟩ := Holding.make hand [value] (by simpa using h₁) hmakeKey
  obtain ⟨t₃, hmakeEntry, rfl⟩ := onTree_eq_ok_iff.1 hrun
  obtain ⟨h₃, -, -⟩ := Holding.make hand [] (by simpa [Slot.ids, Slot.filled] using h₂) hmakeEntry
  exact h₃

theorem keepsEvaluation_specializeDict : KeepsEvaluation specializeDict := by
  refine ⟨fun s w w' site hole new hc hargs hrun =>
    withBound_eq_ok ⟨by simp [Signature.dict], by simp [Signature.dict]⟩ hc hargs (fun bound hin h hbuild => ?_) hrun⟩
  rw [hin.starList rfl] at h
  have h : Holding w.tree hole site.arguments ((bound.get? 0).toList ++ [] ++ bound.starDict.map (·.2)) [] w.tree := h
  rw [List.append_nil, List.map_eq_flatMap] at h
  obtain ⟨slot, w₁, htake, hbuild⟩ := reads_bind_eq_ok_iff.1 hbuild
  obtain ⟨entries, w₂, hentries, hbuild⟩ := reads_bind_eq_ok_iff.1 hbuild
  have h₁ := mapM_eq_ok (fun keyword => [keyword.2]) ([·]) makeEntry_eq_ok (takeSlot_eq_ok h htake) hentries
  exact makeOperation_eq_ok (by simpa [Slot.ids] using h₁) (by decide) hbuild

theorem keepsEvaluation_specializeException : KeepsEvaluation specializeException := by
  refine ⟨fun s w w' site hole new hc hargs hrun => ?_⟩
  rw [specializeException, reads_bind_of_ok version_ok] at hrun
  cases hkind : ExceptionKind.ofName? s.options.version site.name with
  | none =>
    simp only [hkind] at hrun
    cases hrun
  | some kind =>
    simp only [hkind] at hrun
    refine withBound_eq_ok ⟨by simp [Signature.ofException], by simp [Signature.ofException]⟩ hc hargs
      (fun bound hin h hbuild => ?_) hrun
    rw [hin.starDict rfl] at h
    have h : Holding w.tree hole site.arguments (bound.starList ++ []) [] w.tree := h
    rw [List.append_nil] at h
    obtain ⟨taken, w₁, hdetach, hbuild⟩ := reads_bind_eq_ok_iff.1 hbuild
    have h₁ := detachAll_eq_ok h hdetach
    obtain ⟨new', w₂, honTree, hbuild⟩ := reads_bind_eq_ok_iff.1 hbuild
    cases hbuild
    obtain ⟨t', hmake, rfl⟩ := onTree_eq_ok_iff.1 honTree
    exact Holding.assembled (by simpa [Slot.ids] using h₁) (by decide) hmake

/-- The handlers of builtins that look at the calling frame keep the evaluation of arguments. -/
theorem keepsEvaluation_critical {name : String} {handler : CallHandler}
    (h : CallHandler.critical.lookup? name = some handler) : KeepsEvaluation handler := by
  refine DispatchTable.of_lookup? (p := fun e : String × CallHandler => KeepsEvaluation e.2)
    (DispatchTable.forall_ofList ?_) (fun _ hf => nomatch (DispatchTable.fallback_ofList _).symm.trans hf) h
  simp only [List.forall_mem_cons]
  exact ⟨keepsEvaluation_specialize rfl rfl (by decide), keepsEvaluation_specializeLocals,
    keepsEvaluation_specialize rfl rfl (by decide), keepsEvaluation_specializeExec, keepsEvaluation_specializeExecfile,
    by simp⟩

/-- So do all other handlers. -/
theorem keepsEvaluation_optional {name : String} {handler : CallHandler}
    (h : CallHandler.optional.lookup? name = some handler) : KeepsEvaluation handler := by
  have hfallback : ∀ handler, CallHandler.optional.fallback = some handler → KeepsEvaluation handler := by
    rintro _ ⟨⟩
    exact keepsEvaluation_specializeException
  refine DispatchTable.of_lookup? (t := CallHandler.optional) (p := fun e : String × CallHandler => KeepsEvaluation e.2)
    (DispatchTable.forall_ofList ?_) hfallback h
  simp only [List.forall_mem_cons]
  refine ⟨keepsEvaluation_specializeDir, keepsEvaluation_specializeVars, ?_, ?_, ?_, ?_, ?_, ?_,
    keepsEvaluation_specializeType, keepsEvaluation_specializeOneOrTwo rfl rfl rfl (by decide) (by decide),
    keepsEvaluation_specializeOneOrTwo rfl rfl rfl (by decide) (by decide), ?_, ?_, ?_, keepsEvaluation_specializeDict,
    ?_, ?_, ?_, ?_, keepsEvaluation_specializeLong, keepsEvaluation_specializeRepr, ?_, by simp⟩
  all_goals exact keepsEvaluation_specialize rfl rfl (by decide)

/-! ## Looks -/

theorem Supplants.installed (h : Supplants s hole new w w') (hg : Gathered t₀ hole args pending w.tree)
    (hfresh : t₀.nodes.size ≤ new.index) : Installed t₀ w.tree w'.tree hole new := by
  obtain ⟨w₁, hreplace, hnodes, -⟩ := h
  obtain ⟨⟨parent, hr⟩, -⟩ := replaceNode_eq_ok hg.consistent hreplace
  exact (hg.installed hfresh hr).congr hnodes

theorem calledBuiltin?_live {t : Tree} {version : Version} {id : NodeId} {found : VariableId × String}
    (h : t.calledBuiltin? version id = some found) : ∃ n, t.get? id = some n ∧ n.kind = .functionCall := by
  unfold calledBuiltin? at h
  obtain ⟨n, hn, h⟩ := Option.bind_eq_some_iff.1 h
  obtain ⟨⟨⟩, hkind, -⟩ := Option.bind_eq_some_iff.1 h
  exact ⟨n, hn, by simpa using hkind⟩

section Looks

variable {id id' : NodeId}

/-- What a look has made of a call: the new node is in the place of the call, or of the statement that the call makes
up, and deals with the arguments of the call. -/
structure Rewrites (t t' : Tree) (call id id' : NodeId) : Prop where
  kind : t.kind call = .ok .functionCall
  place : t'.parent? id' = t.parent? id
  evaluation : t.EvaluatesAll t' (t.arguments call) id' ∨ call = id ∧ t.RaisesInstead t' (t.arguments call) id'

/-- What the new node is tells which of the two it does. -/
theorem Rewrites.evaluatesAll {t t' : Tree} {call : NodeId} {kind : NodeKind} (h : Rewrites t t' call id id')
    (hkind : t'.kind id' = .ok kind) (hother : kind ≠ .raiseException ∧ kind ≠ .sideEffects) :
    t.EvaluatesAll t' (t.arguments call) id' := by
  obtain ⟨n, hn, rfl⟩ := kind_eq_ok_iff.1 hkind
  rcases h.evaluation with heval | ⟨-, hraises⟩
  · exact heval
  rcases hraises.raises with ⟨-, m, -, hm, hraise, -⟩ | ⟨-, m, -, hm, heffects, -⟩
  · obtain rfl := Option.some.inj (hn.symm.trans hm)
    exact absurd hraise hother.1
  · obtain rfl := Option.some.inj (hn.symm.trans hm)
    exact absurd heffects hother.2

theorem Rewrites.raisesInstead {t t' : Tree} {call : NodeId} {kind : NodeKind} (h : Rewrites t t' call id id')
    (hkind : t'.kind id' = .ok kind) (hraise : kind = .raiseException ∨ kind = .sideEffects) :
    t.RaisesInstead t' (t.arguments call) id' := by
  obtain ⟨n, hn, rfl⟩ := kind_eq_ok_iff.1 hkind
  rcases h.evaluation with heval | ⟨-, hraises⟩
  · obtain ⟨m, hm, hnotRaise, hnotEffects⟩ := heval.node
    obtain rfl := Option.some.inj (hn.symm.trans hm)
    exact (hraise.elim hnotRaise hnotEffects).elim
  · exact hraises

/-- The operands of an execution of a file hold the arguments of the call, which are in the order of the parameters. -/
theorem holding_execfileSlots {slots : List Slot} (hc : w.tree.Consistent) (hargs : w.tree.Arguments hole site.arguments)
    (hbind : Signature.execfile.bind site.positional site.keywords = .ok bound)
    (horder : Signature.execfile.keywordsInOrder site.keywords = true)
    (hslots : execfileSlots site bound s w = .ok slots w') :
    Holding w.tree hole site.arguments [] (slots.flatMap Slot.ids) w'.tree := by
  have hinOrder := Signature.bindsInOrder_of_bind (s := .execfile) ⟨nofun, nofun⟩ hbind horder
  have hpending := hinOrder.inOrder
  rw [hinOrder.starList rfl, hinOrder.starDict rfl, List.map_nil, List.append_nil, List.append_nil] at hpending
  exact execfileSlots_eq_ok (hargs.holding hc hpending) hslots

/-- A look that replaces a call keeps the evaluation of its arguments, if all handlers do. -/
theorem replaceCall_rewrites {handlers : DispatchTable String CallHandler}
    (hhandlers : ∀ {name handler}, handlers.lookup? name = some handler → KeepsEvaluation handler)
    (hc : w.tree.Consistent) (hrun : replaceCall handlers id s w = .ok id' w') (hne : id' ≠ id) :
    Rewrites w.tree w'.tree id id id' := by
  obtain ⟨v, name, handler, site, w₁, hcalled, hlookup, hread, hbuild, hput⟩ :=
    (replaceCall_eq_ok hrun).resolve_left hne
  obtain ⟨n, hn, hkind⟩ := calledBuiltin?_live hcalled
  obtain ⟨heq, hargs⟩ := hc.read_eq_ok hn hkind hread
  have hcall : w.tree.kind id = .ok .functionCall := kind_eq_ok_iff.2 ⟨n, hn, hkind⟩
  rcases (hhandlers hlookup).builds hc hargs hbuild with h | h
  · have hi := hput.supplants.installed h.holding.toGathered h.fresh
    exact ⟨hcall, hi.place, .inl (heq ▸ h.evaluatesAll hi)⟩
  · have hi := hput.supplants.installed h.gathered h.fresh
    exact ⟨hcall, hi.place, .inr ⟨rfl, heq ▸ h.raisesInstead hi⟩⟩

/-- So does one that replaces an execution of a file as a statement. -/
theorem replaceExecStatement_rewrites (hc : w.tree.Consistent)
    (hrun : replaceExecStatement id s w = .ok (some id') w') :
    ∃ call, w.tree.kind id = .ok .statementExpressionOnly ∧ w.tree.child id "expression" = .ok (some call) ∧
      Rewrites w.tree w'.tree call id id' := by
  obtain ⟨hnone, -⟩ | ⟨new, call, v, name, site, bound, slots, w₁, t₁, hsome, hstatement, hexpression, hcalled, hread,
    hbind, horder, hslots, hmake, hput⟩ := replaceExecStatement_eq_ok hrun
  · cases hnone
  cases hsome
  obtain ⟨n, hn, hkind⟩ := calledBuiltin?_live hcalled
  obtain ⟨heq, hargs⟩ := hc.read_eq_ok hn hkind hread
  obtain ⟨m, -, hm, -, hin⟩ := inSlot_of_child hexpression
  have hparent : w.tree.IsParent call id := hc.isParent_of_inSlot hm (show call ∈ m.inSlot "expression" by simp [hin])
  have hassembled := (holding_execfileSlots hc (hargs.above hm hparent) hbind horder hslots).assembled (by decide) hmake
  have hi := hput.supplants.installed hassembled.holding.toGathered hassembled.fresh
  refine ⟨call, hstatement, hexpression, kind_eq_ok_iff.2 ⟨n, hn, hkind⟩, hi.place, .inl ?_⟩
  exact heq ▸ hassembled.evaluatesAll hi

end Looks

/-- **A replaced call still evaluates its arguments.** Whatever a look at a node puts in its place, if the visitor is
one that replaces calls, the node was a call or a statement that a call makes up. All arguments of the call are below the
new node, unchanged, and a walk comes by each of them once and in the order of their evaluation; or the new node raises
a `TypeError` after exactly those that may have side effects or may raise, and all others are torn down. -/
theorem enter_keepsEvaluation {visitor : Visitor} {id id' : NodeId}
    (hvisitor : visitor = .criticalBuiltins ∨ visitor = .optionalBuiltins) (hc : w.tree.Consistent)
    (hrun : visitor.enter id s w = .ok id' w') (hne : id' ≠ id) :
    ∃ call, (call = id ∨
        w.tree.kind id = .ok .statementExpressionOnly ∧ w.tree.child id "expression" = .ok (some call)) ∧
      Rewrites w.tree w'.tree call id id' := by
  rcases hvisitor with rfl | rfl
  · obtain ⟨statement?, w₁, hstatement, hrun⟩ := reads_bind_eq_ok_iff.1 hrun
    cases statement? with
    | none =>
      obtain ⟨-, rfl⟩ | ⟨_, -, -, -, -, -, -, -, -, hsome, -⟩ := replaceExecStatement_eq_ok hstatement
      · exact ⟨id, .inl rfl, replaceCall_rewrites keepsEvaluation_critical hc hrun hne⟩
      · cases hsome
    | some statement =>
      cases hrun
      obtain ⟨call, hkind, hexpression, hrewrites⟩ := replaceExecStatement_rewrites hc hstatement
      exact ⟨call, .inr ⟨hkind, hexpression⟩, hrewrites⟩
  · exact ⟨id, .inl rfl, replaceCall_rewrites keepsEvaluation_optional hc hrun hne⟩

end ReplaceM

/-! ## Two calls -/

/-- The module `int(f(), base=g())` and `chr(f(), "a")`, where nothing rebinds `int` or `chr`. -/
def Tree.twoCalls : Tree :=
  .applyAll {} [
    .makeScope .module "m" default,
    .declareVariable ⟨0⟩ "int" .module,
    .declareVariable ⟨0⟩ "chr" .module,
    .declareVariable ⟨0⟩ "f" .module,
    .declareVariable ⟨0⟩ "g" .module,
    .setReadOnly ⟨0⟩ true,
    .setReadOnly ⟨1⟩ true,
    .makeVariableRef ⟨0⟩ default,
    .makeVariableRef ⟨2⟩ default,
    .makeCall ⟨2⟩ [] [] default,
    .makeConstant (.str "base") default,
    .makeVariableRef ⟨3⟩ default,
    .makeCall ⟨5⟩ [] [] default,
    .makeKeyValue ⟨4⟩ ⟨6⟩ default,
    .makeCall ⟨1⟩ [⟨3⟩] [⟨7⟩] default,
    .makeExpressionStatement ⟨8⟩ default,
    .makeVariableRef ⟨1⟩ default,
    .makeVariableRef ⟨2⟩ default,
    .makeCall ⟨11⟩ [] [] default,
    .makeConstant (.str "a") default,
    .makeCall ⟨10⟩ [⟨12⟩, ⟨13⟩] [] default,
    .makeExpressionStatement ⟨14⟩ default,
    .makeStatements [⟨9⟩, ⟨15⟩] default,
    .setBody ⟨0⟩ ⟨16⟩,
    .setRoot ⟨0⟩]

/-- The first call keeps both arguments in order. The second one has an argument too many: it calls `f`, and raises. -/
theorem enter_keepsEvaluation_twoCalls :
    (∃ new w', Visitor.optionalBuiltins.enter ⟨8⟩ ⟨{}, .ofTable []⟩ Tree.twoCalls.atModule = .ok new w' ∧
      Tree.twoCalls.EvaluatesAll w'.tree [⟨3⟩, ⟨6⟩] new) ∧
    ∃ new w', Visitor.optionalBuiltins.enter ⟨14⟩ ⟨{}, .ofTable []⟩ Tree.twoCalls.atModule = .ok new w' ∧
      Tree.twoCalls.observable [⟨12⟩, ⟨13⟩] = [⟨12⟩] ∧ Tree.twoCalls.RaisesInstead w'.tree [⟨12⟩, ⟨13⟩] new := by
  have look {t : Tree} (id : NodeId) (kind : NodeKind) (hc : t.Consistent) (hcall : t.kind id = .ok .functionCall)
      (hrun : (match Visitor.optionalBuiltins.enter id ⟨{}, .ofTable []⟩ t.atModule with
        | .ok new w' => decide (new ≠ id ∧ w'.tree.kind new = .ok kind)
        | .error _ _ => false) = true) :
      ∃ new w', Visitor.optionalBuiltins.enter id ⟨{}, .ofTable []⟩ t.atModule = .ok new w' ∧
        w'.tree.kind new = .ok kind ∧ ReplaceM.Rewrites t w'.tree id id new := by
    generalize henter : Visitor.optionalBuiltins.enter id ⟨{}, .ofTable []⟩ t.atModule = outcome at hrun
    cases outcome with
    | error e w' => cases hrun
    | ok new w' =>
      obtain ⟨hne, hkind⟩ := of_decide_eq_true hrun
      obtain ⟨call, rfl | ⟨hstatement, -⟩, hrewrites⟩ := ReplaceM.enter_keepsEvaluation (.inr rfl) hc henter hne
      · exact ⟨new, w', rfl, hkind, hrewrites⟩
      · cases hcall.symm.trans hstatement
  have hbuilt : Tree.twoCalls.Built := ⟨_, rfl⟩
  constructor
  · obtain ⟨new, w', hrun, hkind, hrewrites⟩ := look ⟨8⟩ .builtinInt hbuilt.consistent
      (by decide +kernel) (by decide +kernel)
    have hargs : Tree.twoCalls.arguments ⟨8⟩ = [⟨3⟩, ⟨6⟩] := by decide +kernel
    exact ⟨new, w', hrun, hargs ▸ hrewrites.evaluatesAll hkind (by decide)⟩
  · obtain ⟨new, w', hrun, hkind, hrewrites⟩ := look ⟨14⟩ .sideEffects hbuilt.consistent
      (by decide +kernel) (by decide +kernel)
    have hargs : Tree.twoCalls.arguments ⟨14⟩ = [⟨12⟩, ⟨13⟩] := by decide +kernel
    exact ⟨new, w', hrun, by decide +kernel, hargs ▸ hrewrites.raisesInstead hkind (by decide)⟩

end Specializer
