import Specializer.Proofs.Replacement.Folding

/-!
# Calls over constants

A call of a builtin whose arguments are all constants (`Tree.IsConstantCall`) is bound like the constants themselves,
because binding does not look at arguments. So there are three things that can become of it. If the arguments cannot be
bound, nothing but a raise is left, since no constant has to be kept for its evaluation. If the keywords cannot be moved
into the parameters, the call stays. Otherwise the constants move into the slots of the operation of the builtin, each
into that of its parameter (`replaceCall_constants`).
-/

namespace Specializer

namespace Tree

variable {t₀ t t' : Tree} {call hole new a x : NodeId} {args : List NodeId} {n : Node} {name : String}
  {positional : List Constant} {keywords : List (String × Constant)}

/-! ## The call -/

/-- A name that is read through a variable of the module, or one that may stand for such a variable, and that is known
never to be rebound. -/
def ReadsGlobal (t : Tree) (x : NodeId) (name : String) : Prop :=
  ∃ n v b, t.get? x = some n ∧ n.kind = .variableRef ∧ n.payload = .var v ∧ t.bindings[v.index]? = some b ∧
    (b.kind = .module ∨ b.kind = .maybeLocal) ∧ b.readOnly = true ∧ b.name = name

/-- A call through such a name, with constants as arguments and without star arguments. -/
def IsConstantCall (t : Tree) (call : NodeId) (name : String) (positional : List Constant)
    (keywords : List (String × Constant)) : Prop :=
  ∃ n called args pairs, t.get? call = some n ∧ n.kind = .functionCall ∧
    n.slots = [.filled called, .many args, .many pairs, .one none, .one none] ∧ t.ReadsGlobal called name ∧
    List.Forall₂ t.IsConstant args positional ∧ List.Forall₂ t.IsEntry pairs keywords

/-- The value of a constant. -/
def valueOf (t : Tree) (x : NodeId) : Constant := (t.constant? x).getD .none

theorem IsConstant.valueOf {value : Constant} (h : t.IsConstant x value) : t.valueOf x = value := by
  rw [Tree.valueOf, h.constant?]
  rfl

theorem ReadsGlobal.readOnlyVariable? (h : t.ReadsGlobal x name) :
    ∃ v b, t.readOnlyVariable? x = some (v, b) ∧ b.name = name := by
  obtain ⟨n, v, b, hn, hkind, hpayload, hb, hglobal, hreadOnly, hname⟩ := h
  have hmay : b.kind.mayBeGlobal = true := by
    rcases hglobal with hk | hk <;> rw [hk] <;> rfl
  exact ⟨v, b, by simp [Tree.readOnlyVariable?, hn, hkind, Node.referent?, hpayload, hb, hmay, hreadOnly], hname⟩

/-- Keywords that were read, with the constants that are their values. -/
theorem readKeywords_of_entries {pairs : List NodeId} (h : List.Forall₂ t.IsEntry pairs keywords) :
    ∃ read, CallSite.readKeywords t pairs = .ok (some read) ∧ read.map (Prod.map id t.valueOf) = keywords ∧
      ∀ a ∈ read.map (·.2), t.IsConstant a (t.valueOf a) := by
  induction h with
  | nil => exact ⟨[], rfl, rfl, by simp⟩
  | @cons pair entry pairs keywords hentry _ ih =>
    obtain ⟨key, value, hkey, hvalue, hk, hv⟩ := hentry.children
    obtain ⟨read, hread, hmap, hconstants⟩ := ih
    refine ⟨(entry.1, value) :: read, ?_, ?_, ?_⟩
    · rw [CallSite.readKeywords, hkey, ok_bind, hvalue, ok_bind]
      simp only [Option.bind_some, hk]
      rw [hread]
      rfl
    · rw [List.map_cons, hmap, Prod.map_apply, hv.valueOf]
      rfl
    · rw [List.map_cons, List.forall_mem_cons]
      exact ⟨hv.valueOf.symm ▸ hv, hconstants⟩

theorem values_of_constants (h : List.Forall₂ t.IsConstant args positional) :
    args.map t.valueOf = positional ∧ ∀ a ∈ args, t.IsConstant a (t.valueOf a) := by
  induction h with
  | nil => exact ⟨rfl, by simp⟩
  | cons head _ ih =>
    rw [List.map_cons, head.valueOf, ih.1, List.forall_mem_cons]
    exact ⟨rfl, head.valueOf.symm ▸ head, ih.2⟩

/-- **A call over constants is read as such.** -/
theorem IsConstantCall.read {version : Version} (h : t.IsConstantCall call name positional keywords)
    (hbuiltin : BuiltinName.isBuiltin version name = true) :
    ∃ v site, t.calledBuiltin? version call = some (v, name) ∧ CallSite.read t call v name = .ok (some site) ∧
      site.positional.map t.valueOf = positional ∧ site.keywords.map (Prod.map id t.valueOf) = keywords ∧
      ∀ a ∈ site.arguments, t.IsConstant a (t.valueOf a) := by
  obtain ⟨n, called, args, pairs, hn, hkind, hslots, hcalled, hargs, hpairs⟩ := h
  obtain ⟨v, b, hread, rfl⟩ := hcalled.readOnlyVariable?
  obtain ⟨hvalues, hconstants⟩ := values_of_constants hargs
  obtain ⟨read, hkeywords, hmap, hkeywordConstants⟩ := readKeywords_of_entries hpairs
  have hslot {slot : String} {i : Nat} {content : Slot} (hi : NodeKind.functionCall.slotIndex? slot = some i)
      (hcontent : n.slots[i]? = some content) : t.slot call slot = .ok content :=
    slot_of_get? hn (by rw [hkind, hi, Option.bind_some, hcontent])
  have hname : t.child call "called" = .ok (some called) :=
    child_of_slot (hslot (i := 0) (by decide) (by rw [hslots]; rfl))
  have hlist : t.child call "list_star_arg" = .ok none := child_of_slot (hslot (i := 3) (by decide) (by rw [hslots]; rfl))
  have hdict : t.child call "dict_star_arg" = .ok none := child_of_slot (hslot (i := 4) (by decide) (by rw [hslots]; rfl))
  have hpairsIn : t.childrenIn call "pairs" = .ok (Slot.many pairs).ids :=
    childrenIn_of_slot (hslot (i := 2) (by decide) (by rw [hslots]; rfl))
  have hargsIn : t.childrenIn call "positional_args" = .ok (Slot.many args).ids :=
    childrenIn_of_slot (hslot (i := 1) (by decide) (by rw [hslots]; rfl))
  refine ⟨v, ⟨call, v, b.name, args, read, n.source⟩, ?_, ?_, hvalues, hmap, ?_⟩
  · simp [calledBuiltin?, hn, hkind, hname, Except.toOption, hread, hbuiltin]
  · rw [CallSite.read, hlist, ok_bind, if_neg (by simp), hdict, ok_bind, if_neg (by simp), hpairsIn, ok_bind, Slot.ids,
      hkeywords, ok_bind]
    dsimp only
    rw [hargsIn, ok_bind, ReplaceM.source_ok hn]
    rfl
  · exact List.forall_mem_append.2 ⟨hconstants, hkeywordConstants⟩

/-- A constant is not noticed. -/
theorem Consistent.isObservable_constant {value : Constant} (hc : t.Consistent) (h : t.IsConstant x value) :
    t.isObservable x = .ok false := by
  have hsilent := hc.silent_constant h.constant? fun m hm => by
    obtain ⟨n, hn, -, -, hoverride⟩ := h
    cases hn.symm.trans hm
    exact Node.restrained_of_override hoverride
  rw [isObservable, hsilent.sideEffects, ok_bind]
  exact hsilent.mayRaise

/-! ## The operation in preparation -/

/-- An entry that was made for a keyword. -/
def IsNewEntry (t₀ t : Tree) (keyword : String × NodeId) (entry : NodeId) : Prop :=
  ∃ n key m, t₀.nodes.size ≤ entry.index ∧ t.get? entry = some n ∧ n.kind = .keyValuePair ∧
    n.slots = [.filled key, .filled keyword.2] ∧ t₀.nodes.size ≤ key.index ∧ t.get? key = some m ∧
    m.payload = .constant (.str keyword.1)

/-- Arguments that were moved into the slots of an operation. -/
inductive Moved (t₀ t : Tree) : NodeKind → List Slot → BoundArguments NodeId → Prop where
  | params {kind : NodeKind} {values : List (Option NodeId)} (hkind : kind ≠ .builtinDict) :
    Moved t₀ t kind (values.map .one) { values }
  | dict {value : Option NodeId} {entries : List NodeId} {starDict : List (String × NodeId)}
    (hentries : List.Forall₂ (IsNewEntry t₀ t) starDict entries) :
    Moved t₀ t .builtinDict [.one value, .many entries] { values := [value], starDict }

/-- A new operation with all arguments in its slots. -/
structure Prepares (t₀ : Tree) (hole : NodeId) (args : List NodeId) (kind : NodeKind) (bound : BoundArguments NodeId)
    (new : NodeId) (t : Tree) : Prop where
  confined : Confined t₀ hole args [] t
  fresh : t₀.nodes.size ≤ new.index
  known : ∀ a ∈ bound.all, a ∈ args
  node : ∃ n, t.get? new = some n ∧ n.kind = kind ∧ Moved t₀ t n.kind n.slots bound

theorem IsNewEntry.later {keyword : String × NodeId} {entry : NodeId} (h : IsNewEntry t₀ t keyword entry)
    (hlater : Later t₀ t t') : IsNewEntry t₀ t' keyword entry := by
  obtain ⟨n, key, m, hentry, hn, hkind, hslots, hkey, hm, hpayload⟩ := h
  obtain ⟨p, hn'⟩ := hlater.fresh hentry hn
  obtain ⟨q, hm'⟩ := hlater.fresh hkey hm
  exact ⟨_, key, _, hentry, hn', hkind, hslots, hkey, hm', hpayload⟩

theorem SameBelow.isConstant {value : Constant} (h : SameBelow t t' x) (hx : t.IsConstant x value) :
    t'.IsConstant x value := by
  obtain ⟨n, p, hn, hn'⟩ := h.node
  obtain ⟨m, hm, hshows⟩ := hx
  cases hn.symm.trans hm
  exact ⟨_, hn', hshows⟩

theorem IsNewEntry.isEntry {keyword : String × NodeId} {entry : NodeId} {value : Constant}
    (h : IsNewEntry t₀ t keyword entry) (hi : Installed t₀ t t' hole new) (hc : t.Consistent) (hentry : t.Below entry new)
    (hvalue : t.Below keyword.2 new → t'.IsConstant keyword.2 value) : t'.IsEntry entry (keyword.1, value) := by
  obtain ⟨n, key, m, -, hn, hkind, hslots, -, hm, hpayload⟩ := h
  have hchild {c : NodeId} (hmem : c ∈ n.children) : t.Below c new := .head ((hc.isParent_iff hn).2 hmem) hentry
  obtain ⟨p, hn'⟩ := hi.node hentry hn
  obtain ⟨q, hm'⟩ := hi.node (hchild (c := key) (by simp [Node.children, hslots, Slot.ids, Slot.filled])) hm
  refine ⟨_, key, keyword.2, hn', hkind, hslots, ?_, hvalue (hchild ?_)⟩
  · simp [constant?, hm', Node.constant?, hpayload]
  · simp [Node.children, hslots, Slot.ids, Slot.filled]

/-- **In its place, the operation has the constants of the call.** -/
theorem Prepares.isOperation {kind : NodeKind} {bound : BoundArguments NodeId}
    (h : Prepares t₀ hole args kind bound new t) (hi : Installed t₀ t t' hole new) (hkey : kind.builtinKey? = some name)
    (hconstants : ∀ a ∈ args, t₀.IsConstant a (t₀.valueOf a)) :
    t'.IsOperation new name (bound.map t₀.valueOf) := by
  obtain ⟨n, hn, rfl, hmoved⟩ := h.node
  obtain ⟨p, hn'⟩ := hi.node .refl hn
  refine ⟨_, hn', hkey, ?_⟩
  have hc := h.confined.consistent
  have hbelow {c : NodeId} (hmem : c ∈ n.slots.flatMap Slot.ids) : t.Below c new :=
    .single ((hc.isParent_iff hn).2 hmem)
  have hargument {a : NodeId} (ha : a ∈ bound.all) (hb : t.Below a new) : t'.IsConstant a (t₀.valueOf a) :=
    (h.confined.toGathered.sameBelow_installed hi h.fresh (h.known a ha) hb).isConstant (hconstants a (h.known a ha))
  have hvalue {v : Option NodeId} (hv : v ∈ bound.values) (hb : ∀ a ∈ v, t.Below a new) :
      t'.Holds (.one v) (v.map t₀.valueOf) := by
    cases v with
    | none => exact .empty
    | some a =>
      have ha : a ∈ bound.all := List.mem_append_left _ (List.mem_filterMap.2 ⟨some a, hv, rfl⟩)
      exact .filled (hargument ha (hb a rfl))
  dsimp only
  generalize n.kind = kind at hmoved ⊢
  generalize hslots : n.slots = slots at hmoved hbelow ⊢
  cases hmoved with
  | params hkind =>
    refine .params hkind ?_
    rw [List.forall₂_map_left_iff, List.forall₂_map_right_iff, List.forall₂_same]
    refine fun v hv => hvalue hv fun a ha => hbelow (List.mem_flatMap.2 ⟨.one v, List.mem_map_of_mem hv, ?_⟩)
    simpa [Slot.ids] using ha
  | @dict value entries starDict hentries =>
    refine .dict (hvalue (by simp) fun a ha => hbelow ?_) ?_
    · simp [Slot.ids, Option.mem_def.1 ha]
    · obtain ⟨hlength, hentry⟩ := List.forall₂_iff_get.1 hentries
      rw [List.forall₂_map_right_iff, List.forall₂_iff_get]
      refine ⟨hlength.symm, fun i hi₁ hi₂ => ?_⟩
      have hkeyword : (starDict.get ⟨i, hi₂⟩) ∈ starDict := List.get_mem ..
      exact (hentry i hi₂ hi₁).isEntry hi hc (hbelow (by simp [Slot.ids]))
        (hargument (by simpa [BoundArguments.all] using .inr ⟨_, hkeyword⟩))

end Tree

namespace ReplaceM

open Specializer.Tree

variable {s : Settings} {w w' : Workspace} {t₀ : Tree} {hole call id' new : NodeId} {args pending : List NodeId}
  {site : CallSite} {S : Signature} {bound : BoundArguments NodeId} {name : String}

/-! ## Moving the arguments -/

theorem takeSlot_confined {i : Nat} {slot : Slot}
    (h : Confined t₀ hole args ((bound.get? i).toList ++ pending) w.tree) (hrun : takeSlot bound i s w = .ok slot w') :
    Confined t₀ hole args pending w'.tree ∧ Later t₀ w.tree w'.tree ∧ slot = .one (bound.get? i) := by
  obtain ⟨taken, w₁, honTree, hrun⟩ := reads_bind_eq_ok_iff.1 hrun
  cases hrun
  obtain ⟨t', htake, rfl⟩ := onTree_eq_ok_iff.1 honTree
  cases ha : bound.get? i with
  | none =>
    rw [ha] at h htake
    cases htake
    exact ⟨h, .refl .., rfl⟩
  | some a =>
    rw [ha] at h htake
    obtain ⟨b, t₁, hdetach, htake⟩ := run_bind_eq_ok_iff.1 htake
    cases htake
    obtain ⟨rfl, h', hlater⟩ := h.detach hdetach
    exact ⟨h', hlater, rfl⟩

theorem makeEntry_confined {keyword : String × NodeId} {entry : NodeId}
    (h : Confined t₀ hole args ([keyword.2] ++ pending) w.tree) (hrun : makeEntry keyword s w = .ok entry w') :
    Confined t₀ hole args pending w'.tree ∧ Later t₀ w.tree w'.tree ∧ IsNewEntry t₀ w'.tree keyword entry := by
  have hargs : keyword.2 ∈ args := h.waiting.subset (by simp)
  obtain ⟨source, -, hrun⟩ := ask_bind_eq_ok_iff.1 hrun
  obtain ⟨value, w₁, honTree, hrun⟩ := reads_bind_eq_ok_iff.1 hrun
  obtain ⟨t₁, hdetach, rfl⟩ := onTree_eq_ok_iff.1 honTree
  obtain ⟨rfl, h₁, hlater₁⟩ := h.detach hdetach
  obtain ⟨key, w₂, hkey, hrun⟩ := reads_bind_eq_ok_iff.1 hrun
  obtain ⟨t₂, hmakeKey, rfl⟩ := onTree_eq_ok_iff.1 hkey
  obtain ⟨h₂, hlater₂, hfreshKey, hkeyNode⟩ := h₁.newNode hmakeKey (by simp)
  obtain ⟨t₃, hmakeEntry, rfl⟩ := onTree_eq_ok_iff.1 hrun
  obtain ⟨h₃, hlater₃, hfresh, hnode⟩ := h₂.newNode hmakeEntry fun c hc => by
    rcases (by simpa [Slot.ids, Slot.filled] using hc : c = key ∨ c = keyword.2) with rfl | rfl
    · exact .inl hfreshKey
    · exact .inr hargs
  obtain ⟨p, hkeyNode'⟩ := hlater₃.fresh hfreshKey hkeyNode
  exact ⟨h₃, hlater₁.trans (hlater₂.trans hlater₃), _, key, _, hfresh, hnode, rfl, rfl, hfreshKey, hkeyNode', rfl⟩

/-- Steps one after the other, each of which takes the next nodes out and makes something that is kept. -/
theorem mapM_confined {α β : Type} {f : α → ReplaceM β} (taken : α → List NodeId) (made : Tree → α → β → Prop)
    (hstep : ∀ {x y w w' pending}, Confined t₀ hole args (taken x ++ pending) w.tree → f x s w = .ok y w' →
      Confined t₀ hole args pending w'.tree ∧ Later t₀ w.tree w'.tree ∧ made w'.tree x y)
    (hkept : ∀ {t t' x y}, Later t₀ t t' → made t x y → made t' x y) :
    ∀ {l : List α} {ys : List β} {w : Workspace}, Confined t₀ hole args (l.flatMap taken) w.tree →
      l.mapM f s w = .ok ys w' →
      Confined t₀ hole args [] w'.tree ∧ Later t₀ w.tree w'.tree ∧ List.Forall₂ (made w'.tree) l ys
  | [], _, w, h, hrun => by
    cases hrun
    exact ⟨h, .refl .., .nil⟩
  | x :: l, ys, w, h, hrun => by
    rw [List.mapM_cons] at hrun
    obtain ⟨y, w₁, hy, hrun⟩ := reads_bind_eq_ok_iff.1 hrun
    obtain ⟨rest, w₂, hrest, hrun⟩ := reads_bind_eq_ok_iff.1 hrun
    cases hrun
    obtain ⟨h₁, hlater₁, hmade⟩ := hstep h hy
    obtain ⟨h₂, hlater₂, hall⟩ := mapM_confined taken made hstep hkept h₁ hrest
    exact ⟨h₂, hlater₁.trans hlater₂, .cons (hkept hlater₂ hmade) hall⟩

/-! ## The three outcomes -/

/-- A builder that moves all arguments of a call into the operation of a builtin. -/
structure Builds (S : Signature) (kind : NodeKind) (build : CallSite → BoundArguments NodeId → ReplaceM (Option NodeId)) :
    Prop where
  collectsLast : S.CollectsLast
  of_ok : ∀ ⦃s : Settings⦄ ⦃w w' : Workspace⦄ ⦃site : CallSite⦄ ⦃hole : NodeId⦄ ⦃bound : BoundArguments NodeId⦄
    ⦃new? : Option NodeId⦄, S.BindsInOrder site.positional site.keywords bound → w.tree.Consistent →
    w.tree.Arguments hole site.arguments → build site bound s w = .ok new? w' →
    ∃ new, new? = some new ∧ Prepares w.tree hole site.arguments kind bound new w'.tree

/-- How most builtins are specialized: every argument goes into the slot of its parameter. -/
def moveIntoSlots (kind : NodeKind) (site : CallSite) (bound : BoundArguments NodeId) : ReplaceM (Option NodeId) := do
  let slots ← (List.range bound.values.length).mapM (takeSlot bound)
  makeOperation site kind slots

/-- How a dictionary is specialized: keywords become entries. -/
def moveIntoEntries (site : CallSite) (bound : BoundArguments NodeId) : ReplaceM (Option NodeId) := do
  let positional ← takeSlot bound 0
  let entries ← bound.starDict.mapM makeEntry
  makeOperation site .builtinDict [positional, .many entries]

theorem makeOperation_eq_new {kind : NodeKind} {slots : List Slot} {new? : Option NodeId}
    (hrun : makeOperation site kind slots s w = .ok new? w') :
    ∃ new, new? = some new ∧ TreeM.newNode kind site.source .none slots w.tree = .ok new w'.tree := by
  obtain ⟨new, w₁, honTree, hrun⟩ := reads_bind_eq_ok_iff.1 hrun
  cases hrun
  exact ⟨new, rfl, onTree_eq_ok honTree⟩

theorem takeSlots_confined {indices : List Nat} {slots : List Slot}
    (h : Confined t₀ hole args (indices.flatMap fun i => (bound.get? i).toList) w.tree)
    (hrun : indices.mapM (takeSlot bound) s w = .ok slots w') :
    Confined t₀ hole args [] w'.tree ∧ slots = indices.map fun i => Slot.one (bound.get? i) := by
  obtain ⟨h', -, htaken⟩ := mapM_confined _ (fun _ i slot => slot = Slot.one (bound.get? i)) takeSlot_confined
    (fun _ hmade => hmade) h hrun
  have hslots : List.Forall₂ (· = ·) slots (indices.map fun i => Slot.one (bound.get? i)) :=
    List.forall₂_map_right_iff.2 htaken.flip
  rw [List.forall₂_eq_eq_eq] at hslots
  exact ⟨h', hslots⟩

theorem builds_moveIntoSlots {kind : NodeKind} (hlist : S.starList = false) (hdict : S.starDict = false)
    (hkind : kind ≠ .builtinDict) : Builds S kind (moveIntoSlots kind) := by
  refine ⟨⟨by simp [hdict], by simp [hlist]⟩, fun s w w' site hole bound new? hin hc hargs hrun => ?_⟩
  have hall : bound.all = site.arguments := hin.all
  have hpending : (List.range bound.values.length).flatMap (fun i => (bound.get? i).toList) = site.arguments := by
    rw [CallSite.arguments, ← hin.inOrder, hin.starList hlist, hin.starDict hdict, hin.length]
    simp
  obtain ⟨slots, w₁, htake, hrun⟩ := reads_bind_eq_ok_iff.1 hrun
  obtain ⟨new, rfl, hmake⟩ := makeOperation_eq_new hrun
  obtain ⟨h₁, rfl⟩ := takeSlots_confined (hargs.confined hc hpending) htake
  have hslots : ((List.range bound.values.length).map fun i => Slot.one (bound.get? i)) = bound.values.map .one := by
    conv => rhs; rw [← Plan.map_get?_range bound, List.map_map]
    rfl
  rw [hslots] at hmake
  obtain ⟨h₂, -, hfresh, hnode⟩ := h₁.newNode hmake fun c hmem => by
    rw [Plan.flatMap_ones] at hmem
    exact .inr (hall ▸ List.mem_append_left _ hmem)
  refine ⟨new, rfl, h₂, hfresh, fun a ha => hall ▸ ha, _, hnode, rfl, ?_⟩
  obtain ⟨values, starList, starDict⟩ := bound
  obtain rfl : starList = [] := hin.starList hlist
  obtain rfl : starDict = [] := hin.starDict hdict
  exact .params hkind

theorem builds_moveIntoEntries : Builds .dict .builtinDict moveIntoEntries := by
  refine ⟨⟨by decide, by decide⟩, fun s w w' site hole bound new? hin hc hargs hrun => ?_⟩
  have hall : bound.all = site.arguments := hin.all
  have hpending : (bound.get? 0).toList ++ bound.starDict.flatMap (fun keyword => [keyword.2]) = site.arguments := by
    rw [CallSite.arguments, ← hin.inOrder, hin.starList rfl, List.map_eq_flatMap]
    simp [Signature.dict]
  obtain ⟨slot, w₁, htake, hrun⟩ := reads_bind_eq_ok_iff.1 hrun
  obtain ⟨entries, w₂, hentries, hrun⟩ := reads_bind_eq_ok_iff.1 hrun
  obtain ⟨new, rfl, hmake⟩ := makeOperation_eq_new hrun
  obtain ⟨h₁, -, rfl⟩ := takeSlot_confined (hargs.confined hc hpending) htake
  obtain ⟨h₂, -, hmade⟩ :=
    mapM_confined _ (IsNewEntry w.tree) makeEntry_confined (fun hlater h => h.later hlater) h₁ hentries
  obtain ⟨values, starList, starDict⟩ := bound
  obtain rfl : starList = [] := hin.starList rfl
  obtain ⟨value, rfl⟩ : ∃ value, values = [value] := List.length_eq_one_iff.1 hin.length
  obtain ⟨h₃, hlater, hfresh, hnode⟩ := h₂.newNode hmake fun c hmem => by
    rcases (by simpa [Slot.ids, BoundArguments.get?] using hmem : value = some c ∨ c ∈ entries) with rfl | hentry
    · exact .inr (hall ▸ by simp [BoundArguments.all])
    · obtain ⟨i, rfl⟩ := List.mem_iff_get.1 hentry
      obtain ⟨hlength, hnew⟩ := List.forall₂_iff_get.1 hmade
      obtain ⟨-, -, -, hnew, -⟩ := hnew i (by rw [hlength]; exact i.2) i.2
      exact .inl hnew
  refine ⟨new, rfl, h₃, hfresh, fun a ha => hall ▸ ha, _, hnode, rfl, ?_⟩
  exact .dict (hmade.imp fun _ _ h => h.later hlater)

/-- What binding the arguments of a call comes to. -/
theorem withBound_confined {kind : NodeKind} {build : CallSite → BoundArguments NodeId → ReplaceM (Option NodeId)}
    {new? : Option NodeId} (hbuilds : Builds S kind build) (hc : w.tree.Consistent)
    (hargs : w.tree.Arguments hole site.arguments)
    (hconstants : ∀ a ∈ site.arguments, w.tree.IsConstant a (w.tree.valueOf a))
    (hrun : withBound site S (build site) s w = .ok new? w') :
    match S.bind site.positional site.keywords with
    | .error e => ∃ new n, new? = some new ∧ Confined w.tree hole site.arguments [] w'.tree ∧
        w.tree.nodes.size ≤ new.index ∧ w'.tree.get? new = some n ∧ n.kind = .raiseException ∧
        n.payload = .raise ⟨.typeError, S.errorMessage e⟩ ∧ n.override = none
    | .ok bound => if S.keywordsInOrder site.keywords then
        ∃ new, new? = some new ∧ Prepares w.tree hole site.arguments kind bound new w'.tree
      else new? = none ∧ w' = w := by
  obtain ⟨binding, w₁, hbind, hrun⟩ := reads_bind_eq_ok_iff.1 hrun
  unfold bindCall at hbind
  cases hbound : S.bind site.positional site.keywords with
  | ok bound =>
    simp only [hbound] at hbind
    cases horder : S.keywordsInOrder site.keywords with
    | false =>
      rw [horder] at hbind
      cases hbind
      cases hrun
      exact ⟨rfl, rfl⟩
    | true =>
      rw [horder] at hbind
      cases hbind
      have hin := Signature.bindsInOrder_of_bind hbuilds.collectsLast hbound horder
      exact hbuilds.of_ok hin hc hargs hrun
  | error e =>
    simp only [hbound] at hbind
    obtain ⟨node, w₂, honTree, hbind⟩ := reads_bind_eq_ok_iff.1 hbind
    obtain ⟨t', hraise, rfl⟩ := onTree_eq_ok_iff.1 honTree
    cases hbind
    cases hrun
    obtain ⟨h, hfresh, hnode⟩ := (hargs.confined hc rfl).raiseAfter
      (fun a ha => hc.isObservable_constant (hconstants a ha)) hraise
    exact ⟨node, _, rfl, h, hfresh, hnode, rfl, rfl, rfl⟩

/-! ## Handlers -/

/-- **The handler of a builtin that can be evaluated moves the arguments into the operation with the same key.** -/
theorem builds_of_key {version : Version} {builtin : PureBuiltin} (hS : Signature.ofKey? name = some S)
    (hevaluator : S.evaluator = some builtin) (hbuiltin : BuiltinName.isBuiltin version name = true) :
    ∃ kind handler build, kind.builtinKey? = some name ∧ CallHandler.optional.lookup? name = some handler ∧
      (∀ {site s w}, s.options.version = version → handler site s w = withBound site S (build site) s w) ∧
      Builds S kind build := by
  have hlong {site : CallSite} {s : Settings} {w : Workspace} (hversion : s.options.version = .python2) :
      specializeLong site s w = withBound site .long (moveIntoSlots .builtinLong site) s w := by
    rw [specializeLong, reads_bind_of_ok version_ok, hversion]
    rfl
  unfold Signature.ofKey? at hS
  split at hS <;> cases hS <;> cases hevaluator
  any_goals exact ⟨_, _, _, by rfl, rfl, fun _ => rfl, builds_moveIntoSlots rfl rfl (by decide)⟩
  · exact ⟨.builtinDict, _, _, rfl, rfl, fun _ => rfl, builds_moveIntoEntries⟩
  · cases version with
    | python2 => exact ⟨.builtinLong, _, _, rfl, rfl, hlong, builds_moveIntoSlots rfl rfl (by decide)⟩
    | python3 => exact absurd hbuiltin (by decide)

/-- An operation is no raise, so that it evaluates the arguments of the call. -/
theorem Rewrites.of_operation {t' : Tree} {bound : BoundArguments Constant} (h : Rewrites t t' call call id')
    (hop : t'.IsOperation id' name bound) : t.EvaluatesAll t' (t.arguments call) id' := by
  obtain ⟨m, hm, hmkey, -⟩ := hop
  refine h.evaluatesAll (kind_ok hm) ⟨?_, ?_⟩
  · intro hraise
    rw [hraise] at hmkey
    cases hmkey
  · intro heffects
    rw [heffects] at hmkey
    cases hmkey

/-- **A call over constants** raises if its arguments cannot be bound, stays if its keywords cannot be moved, and becomes
the operation over the same constants otherwise. -/
theorem replaceCall_constants {positional : List Constant} {keywords : List (String × Constant)} {builtin : PureBuiltin}
    (hc : w.tree.Consistent) (hcall : w.tree.IsConstantCall call name positional keywords)
    (hS : Signature.ofKey? name = some S) (hevaluator : S.evaluator = some builtin)
    (hbuiltin : BuiltinName.isBuiltin s.options.version name = true)
    (hrun : replaceCall CallHandler.optional call s w = .ok id' w') :
    match S.bind positional keywords with
    | .error e => TakesPlace w.tree w'.tree call id' ∧ w'.tree.IsRaise id' ⟨.typeError, S.errorMessage e⟩
    | .ok bound => if S.keywordsInOrder keywords then TakesPlace w.tree w'.tree call id' ∧
        w'.tree.IsOperation id' name bound ∧ w.tree.EvaluatesAll w'.tree (w.tree.arguments call) id'
      else id' = call ∧ w' = w := by
  obtain ⟨kind, handler, build, hkey, hlookup, hhandler, hbuilds⟩ := builds_of_key hS hevaluator hbuiltin
  obtain ⟨v, site, hcalled, hread, rfl, rfl, hconstants⟩ := hcall.read hbuiltin
  obtain ⟨n, hn, hkind⟩ := calledBuiltin?_live hcalled
  obtain ⟨-, hargs⟩ := hc.read_eq_ok hn hkind hread
  rw [Signature.bind_map, Signature.keywordsInOrder_map]
  rcases replaceCall_of_read hcalled hlookup hread hrun with ⟨hnone, rfl⟩ | ⟨w₁, hsome, hput⟩
  · rw [hhandler rfl] at hnone
    have hbound := withBound_confined hbuilds hc hargs hconstants hnone
    cases hbind : S.bind site.positional site.keywords with
    | error e =>
      simp only [hbind] at hbound
      obtain ⟨_, _, hnew, -⟩ := hbound
      cases hnew
    | ok bound =>
      simp only [hbind] at hbound
      cases horder : S.keywordsInOrder site.keywords with
      | true =>
        simp only [horder, if_true] at hbound
        obtain ⟨_, hnew, -⟩ := hbound
        cases hnew
      | false =>
        simp only [horder, Bool.false_eq_true, if_false] at hbound
        exact ⟨rfl, hbound.2⟩
  · rw [hhandler rfl] at hsome
    have hbound := withBound_confined hbuilds hc hargs hconstants hsome
    cases hbind : S.bind site.positional site.keywords with
    | error e =>
      simp only [hbind] at hbound
      obtain ⟨_, m, ⟨⟩, hconfined, hfresh, hm, hraise⟩ := hbound
      have hplaced := hput hconfined hfresh
      obtain ⟨p, hm'⟩ := hplaced.installed.node .refl hm
      exact ⟨hplaced.toTakesPlace, _, hm', hraise⟩
    | ok bound =>
      simp only [hbind] at hbound
      cases horder : S.keywordsInOrder site.keywords with
      | false =>
        simp only [horder, Bool.false_eq_true, if_false] at hbound
        cases hbound.1
      | true =>
        simp only [horder, if_true] at hbound
        obtain ⟨_, ⟨⟩, hprepares⟩ := hbound
        have hplaced := hput hprepares.confined hprepares.fresh
        have hop : w'.tree.IsOperation id' name _ := hprepares.isOperation hplaced.installed hkey hconstants
        have hne : id' ≠ call := fun e => nomatch (e ▸ hplaced.stale).symm.trans hn
        exact ⟨hplaced.toTakesPlace, hop, (replaceCall_rewrites keepsEvaluation_optional hc hrun hne).of_operation hop⟩

end ReplaceM

end Specializer
