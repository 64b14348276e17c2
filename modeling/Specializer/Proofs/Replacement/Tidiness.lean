import Specializer.Proofs.Replacement.Evaluation
import Specializer.Proofs.Tree.Strays

/-!
# Replacements leave nothing behind

A handler takes arguments out of a call and makes nodes from them. When it is done, the replacement is all it has at hand,
or nothing if it keeps the call (`LeavesNothing`); what it has left in the call is torn down together with it. The same
holds for computations of single nodes: what is at hand afterwards is what they offer (`Computed.offered`). So looks at a
node and computations of a node end with empty hands, and touch nothing but the nodes that hang below the root
(`enter_tidies`, `compute_tidies`).

`Gives t x Q` and `Leads t x Q` say that what a computation gives from the tree `t`, if it gives anything, satisfies `Q`.
-/

namespace Specializer

open Specializer.Tree

theorem Tree.Consistent.isParent_of_slot {t : Tree} (h : t.Consistent) {id c : NodeId} {name : String} {content : Slot}
    (hslot : t.slot id name = .ok content) (hc : c ∈ content.ids) : t.IsParent c id := by
  obtain ⟨n, index, hn, -, hget⟩ := slot_eq_ok hslot
  exact (h.isParent_iff hn).2 (List.mem_flatMap.2 ⟨content, List.mem_of_getElem? hget, hc⟩)

theorem Tree.Consistent.isParent_of_childrenIn {t : Tree} (h : t.Consistent) {id c : NodeId} {name : String}
    {ids : List NodeId} (hids : t.childrenIn id name = .ok ids) (hc : c ∈ ids) : t.IsParent c id := by
  obtain ⟨content, hslot, hret⟩ := bind_eq_ok_iff.1 hids
  cases hret
  exact h.isParent_of_slot hslot hc

theorem Tree.Consistent.isParent_of_child {t : Tree} (h : t.Consistent) {id c : NodeId} {name : String}
    (hchild : t.child id name = .ok (some c)) : t.IsParent c id :=
  h.isParent_of_slot (slot_of_child hchild) (by simp [Slot.ids])

/-! ## Computations on trees -/

/-- What the computation gives, if anything, satisfies `Q`. -/
def Gives {ε α : Type} (t : Tree) (x : EStateM ε Tree α) (Q : α → Tree → Prop) : Prop := ∀ ⦃a t'⦄, x t = .ok a t' → Q a t'

theorem Gives.bind {ε α β : Type} {t : Tree} {x : EStateM ε Tree α} {f : α → EStateM ε Tree β} {R : α → Tree → Prop}
    {Q : β → Tree → Prop} (hx : Gives t x R) (hf : ∀ a t', R a t' → Gives t' (f a) Q) : Gives t (x >>= f) Q := by
  intro b t'' hrun
  obtain ⟨a, t', hfirst, hrest⟩ := run_bind_eq_ok_iff.1 hrun
  exact hf a t' (hx hfirst) hrest

theorem gives_ret {ε α : Type} {t : Tree} {a : α} {Q : α → Tree → Prop} (h : Q a t) :
    Gives t (pure a : EStateM ε Tree α) Q := by
  rintro _ _ ⟨⟩
  exact h

theorem gives_get {ε α : Type} {t : Tree} {f : Tree → EStateM ε Tree α} {Q : α → Tree → Prop} (h : Gives t (f t) Q) :
    Gives t (get >>= f) Q := h

theorem gives_check {α β : Type} {t : Tree} {x : Except TreeError β} {f : β → TreeM α} {Q : α → Tree → Prop}
    (h : ∀ b, x = .ok b → Gives t (f b) Q) : Gives t (TreeM.ofExcept x >>= f) Q := by
  intro a t' hrun
  obtain ⟨b, hb, hrest⟩ := run_check_eq_ok_iff.1 hrun
  exact h b hb hrest

theorem gives_query {α β : Type} {t : Tree} {question : Tree → Except TreeError β} {f : β → TreeM α}
    {Q : α → Tree → Prop} (h : ∀ b, question t = .ok b → Gives t (f b) Q) : Gives t (TreeM.query question >>= f) Q :=
  gives_check h

/-- A selection by tests that change nothing. -/
theorem gives_filterM {ε α : Type} {t : Tree} {test : α → EStateM ε Tree Bool} (l : List α)
    (htest : ∀ a ∈ l, Gives t (test a) fun _ t' => t' = t) :
    Gives t (l.filterM test) fun kept t' => t' = t ∧ ∀ a ∈ kept, a ∈ l ∧ test a t = .ok true t := by
  have key : ∀ (xs acc : List α), (∀ a ∈ xs, a ∈ l) → (∀ a ∈ acc, a ∈ l ∧ test a t = .ok true t) →
      Gives t (xs.filterAuxM test acc) fun kept t' => t' = t ∧ ∀ a ∈ kept, a ∈ l ∧ test a t = .ok true t := by
    intro xs
    induction xs with
    | nil => exact fun acc _ hacc => gives_ret ⟨rfl, hacc⟩
    | cons x xs ih =>
      intro acc hxs hacc kept t' hrun
      obtain ⟨b, t₁, hx, hrest⟩ := run_bind_eq_ok_iff.1 hrun
      obtain rfl := htest x (hxs x (by simp)) hx
      refine ih _ (fun a ha => hxs a (by simp [ha])) ?_ hrest
      cases b
      · exact hacc
      · simpa using ⟨⟨hxs x (by simp), hx⟩, fun a ha => hacc a ha⟩
  exact (key l [] (fun _ h => h) nofun).bind fun kept t' hkept => gives_ret (by simpa using hkept)

namespace Tree.Tidy

variable {t₀ t : Tree} {hand : List NodeId}

theorem gives_detach {a : NodeId} (h : Tidy t₀ hand t) (ha : Movable t₀ a) :
    Gives t (TreeM.detach a) fun id => Tidy t₀ (hand ++ [id]) := by
  intro id t' hrun
  obtain ⟨rfl, h'⟩ := h.detach ha hrun
  exact h'

theorem gives_newNode {kind : NodeKind} {source : SourceRef} {payload : Payload} {slots : List Slot} (h : Tidy t₀ hand t)
    (rest : List NodeId) (hhand : ∀ x, x ∈ hand ↔ x ∈ slots.flatMap Slot.ids ∨ x ∈ rest) :
    Gives t (TreeM.newNode kind source payload slots) fun id => Tidy t₀ (rest ++ [id]) :=
  fun _ _ hrun => h.newNode rest hhand hrun

theorem gives_take {a? : Option NodeId} (h : Tidy t₀ hand t) (ha : ∀ a, a? = some a → Movable t₀ a) :
    Gives t (TreeM.take a?) fun b? => Tidy t₀ (hand ++ b?.toList) := by
  cases a? with
  | none => exact gives_ret (by simpa using h)
  | some a => exact (h.gives_detach (ha a rfl)).bind fun id t' h' => gives_ret h'

theorem gives_keepObservable : ∀ {ids hand : List NodeId} {t : Tree}, Tidy t₀ hand t → (∀ a ∈ ids, Movable t₀ a) →
    Gives t (TreeM.keepObservable ids) fun kept => Tidy t₀ (hand ++ kept)
  | [], hand, t, h, _ => gives_ret (by simpa using h)
  | id :: rest, hand, t, h, hids => by
    have hrest : ∀ a ∈ rest, Movable t₀ a := fun a ha => hids a (by simp [ha])
    have hfirst : Gives t (TreeM.detach id) fun _ => Tidy t₀ (hand ++ [id]) := fun a t' hrun =>
      (h.detach (hids id (by simp)) hrun).2
    refine hfirst.bind fun _ t₁ h₁ => gives_query fun observable _ => ?_
    split
    · refine (gives_keepObservable h₁ hrest).bind fun kept t₂ h₂ => gives_ret ?_
      simpa using h₂
    · refine Gives.bind (fun _ t₂ hrun => h₁.finalize hand (by simp [or_comm]) hrun) fun _ t₂ h₂ => ?_
      exact gives_keepObservable h₂ hrest

theorem gives_raiseAfter {raised : RaisedException} {arguments : List NodeId} {source : SourceRef} (h : Tidy t₀ [] t)
    (harguments : ∀ a ∈ arguments, Movable t₀ a) :
    Gives t (TreeM.raiseAfter raised arguments source) fun id => Tidy t₀ [id] := by
  refine (h.gives_keepObservable harguments).bind fun kept t₁ h₁ => ?_
  refine (h₁.gives_newNode kept (by simp)).bind fun raise t₂ h₂ => ?_
  split
  · next hempty =>
    rw [List.isEmpty_iff.1 hempty] at h₂
    exact gives_ret h₂
  · exact h₂.gives_newNode [] (by simp [Slot.ids, Slot.filled])

theorem gives_discardAll : ∀ {ids : List NodeId} {t : Tree}, Tidy t₀ hand t → (∀ a ∈ ids, Movable t₀ a) →
    Gives t (TreeM.discardAll ids) fun _ => Tidy t₀ hand
  | [], t, h, _ => gives_ret h
  | id :: rest, t, h, hids => by
    refine Gives.bind (fun a t' hrun => (h.detach (hids id (by simp)) hrun).2) fun _ t₁ h₁ => ?_
    refine Gives.bind (fun _ t₂ hrun => h₁.finalize hand (by simp [or_comm]) hrun) fun _ t₂ h₂ => ?_
    exact gives_discardAll h₂ fun a ha => hids a (by simp [ha])

end Tree.Tidy

/-! ## Replacements -/

namespace ReplaceM

variable {α β : Type}

/-- What the computation gives, if anything, satisfies `Q`. -/
def Leads (t : Tree) (x : ReplaceM α) (Q : α → Tree → Prop) : Prop :=
  ∀ ⦃s w a w'⦄, w.tree = t → x s w = .ok a w' → Q a w'.tree

section Leads

variable {t : Tree} {x : ReplaceM α} {f : α → ReplaceM β} {R : α → Tree → Prop} {Q : β → Tree → Prop}

theorem leads_ret {b : β} (h : Q b t) : Leads t (pure b) Q := by
  rintro s w _ _ rfl ⟨⟩
  exact h

theorem Leads.bind (hx : Leads t x R) (hf : ∀ a t', R a t' → Leads t' (f a) Q) : Leads t (x >>= f) Q := by
  intro s w b w'' ht hrun
  obtain ⟨a, w', hfirst, hrest⟩ := reads_bind_eq_ok_iff.1 hrun
  exact hf a w'.tree (hx ht hfirst) rfl hrest

theorem Leads.mono {R : β → Tree → Prop} {x : ReplaceM β} (hx : Leads t x R) (himp : ∀ b t', R b t' → Q b t') :
    Leads t x Q :=
  fun _ _ _ _ ht hrun => himp _ _ (hx ht hrun)

/-- What only looks at the tree does not matter. -/
theorem leads_look (hx : Looks x) (hf : ∀ a, Leads t (f a) Q) : Leads t (x >>= f) Q := by
  intro s w b w'' ht hrun
  obtain ⟨a, w', hfirst, hrest⟩ := reads_bind_eq_ok_iff.1 hrun
  exact hf a ((hx hfirst).trans ht) hrest

theorem leads_ask {question : Tree → Except TreeError α} (hf : ∀ a, question t = .ok a → Leads t (f a) Q) :
    Leads t (ask question >>= f) Q := by
  rintro s w b w'' rfl hrun
  obtain ⟨a, ha, hrest⟩ := ask_bind_eq_ok_iff.1 hrun
  exact hf a ha rfl hrest

theorem leads_tree {f : Tree → ReplaceM β} (hf : Leads t (f t) Q) : Leads t (tree >>= f) Q := by
  rintro s w b w'' rfl hrun
  exact hf rfl hrun

theorem Leads.onTree {action : TreeM β} (h : Gives t action Q) : Leads t (onTree action) Q := by
  rintro s w b w' rfl hrun
  exact h (onTree_eq_ok hrun)

theorem looks_settings : Looks (read : ReplaceM Settings) := by
  rintro s w a w' ⟨⟩
  rfl

theorem looks_abort : Looks abort := by
  rintro s w a w' ⟨⟩
  rfl

theorem looks_signal (tags : ChangeTags) (source : SourceRef) (message : String) :
    Looks (signal tags source message) := by
  rintro s w a w' ⟨⟩
  rfl

end Leads

/-! ## Parts of handlers -/

section Parts

variable {t₀ t : Tree} {hand : List NodeId} {site : CallSite} {args : BoundArguments NodeId}

theorem leads_detach {a : NodeId} (h : Tidy t₀ hand t) (ha : Movable t₀ a) :
    Leads t (onTree (TreeM.detach a)) fun id => Tidy t₀ (hand ++ [id]) :=
  .onTree (h.gives_detach ha)

theorem leads_newNode {kind : NodeKind} {source : SourceRef} {payload : Payload} {slots : List Slot}
    (rest : List NodeId) (h : Tidy t₀ hand t) (hhand : ∀ x, x ∈ hand ↔ x ∈ slots.flatMap Slot.ids ∨ x ∈ rest) :
    Leads t (onTree (TreeM.newNode kind source payload slots)) fun id => Tidy t₀ (rest ++ [id]) :=
  .onTree (h.gives_newNode rest hhand)

/-- What is taken out one after the other is at hand in the end. -/
theorem leads_mapM {f : α → ReplaceM β} (given : β → List NodeId) : ∀ {l : List α} {hand : List NodeId} {t : Tree},
    (∀ a ∈ l, ∀ hand t, Tidy t₀ hand t → Leads t (f a) fun b => Tidy t₀ (hand ++ given b)) → Tidy t₀ hand t →
    Leads t (l.mapM f) fun bs => Tidy t₀ (hand ++ bs.flatMap given)
  | [], hand, t, _, h => leads_ret (by simpa using h)
  | a :: l, hand, t, hf, h => by
    rw [List.mapM_cons]
    refine (hf a (by simp) hand t h).bind fun b t₁ h₁ => ?_
    refine (leads_mapM given (fun a' ha' => hf a' (by simp [ha'])) h₁).bind fun bs t₂ h₂ => leads_ret ?_
    simpa using h₂

theorem leads_makeOperation {kind : NodeKind} {slots : List Slot} (h : Tidy t₀ hand t)
    (hhand : ∀ x, x ∈ hand ↔ x ∈ slots.flatMap Slot.ids) :
    Leads t (makeOperation site kind slots) fun new? => Tidy t₀ new?.toList :=
  (leads_newNode [] h (by simpa using hhand)).bind fun _ _ h' => leads_ret h'

/-- All arguments that were bound can be taken out of the call. -/
structure AllMovable (t₀ : Tree) (args : BoundArguments NodeId) : Prop where
  values : ∀ {i a}, args.get? i = some a → Movable t₀ a
  starList : ∀ a ∈ args.starList, Movable t₀ a
  starDict : ∀ keyword ∈ args.starDict, Movable t₀ keyword.2

theorem allMovable_of_bind {signature : Signature} (hsite : ∀ a ∈ site.arguments, Movable t₀ a)
    (hbind : signature.bind site.positional site.keywords = .ok args) : AllMovable t₀ args := by
  have hmem {a : NodeId} (ha : a ∈ args.all) : Movable t₀ a :=
    hsite a ((Signature.binds_of_bind hbind).perm.mem_iff.1 ha)
  refine ⟨fun {i a} hi => hmem ?_, fun a ha => hmem ?_, fun keyword hkeyword => hmem ?_⟩
  · have hvalue : some a ∈ args.values := by
      rw [BoundArguments.get?, Option.join_eq_some_iff] at hi
      exact List.mem_of_getElem? hi
    exact List.mem_append.2 (.inl (List.mem_filterMap.2 ⟨some a, hvalue, rfl⟩))
  · simp [BoundArguments.all, ha]
  · refine List.mem_append.2 (.inr (List.mem_append.2 (.inr ?_)))
    exact List.mem_map_of_mem hkeyword

theorem leads_takeSlot (h : Tidy t₀ hand t) (hargs : AllMovable t₀ args) (i : Nat) :
    Leads t (takeSlot args i) fun slot => Tidy t₀ (hand ++ slot.ids) := by
  refine (Leads.onTree (h.gives_take fun a ha => hargs.values ha)).bind fun a? t' h' => leads_ret ?_
  cases a? <;> exact h'

theorem leads_withBound {signature : Signature} {build : BoundArguments NodeId → ReplaceM (Option NodeId)}
    (h : Tidy t₀ [] t) (hsite : ∀ a ∈ site.arguments, Movable t₀ a)
    (hbuild : ∀ args, AllMovable t₀ args → Leads t (build args) fun new? => Tidy t₀ new?.toList) :
    Leads t (withBound site signature build) fun new? => Tidy t₀ new?.toList := by
  unfold withBound bindCall
  cases hbind : signature.bind site.positional site.keywords with
  | ok args =>
    dsimp only
    split
    · exact Leads.bind (R := fun binding t' => binding = .bound args ∧ t' = t) (leads_ret ⟨rfl, rfl⟩) fun _ _ hr => by
        obtain ⟨rfl, rfl⟩ := hr
        exact hbuild args (allMovable_of_bind hsite hbind)
    · exact Leads.bind (R := fun binding t' => binding = .kept ∧ t' = t) (leads_ret ⟨rfl, rfl⟩) fun _ _ hr => by
        obtain ⟨rfl, rfl⟩ := hr
        exact leads_ret h
  | error error =>
    refine Leads.bind (R := fun binding t' => ∃ node, binding = .raised node ∧ Tidy t₀ [node] t') ?_ fun _ _ hr => ?_
    · exact (Leads.onTree (h.gives_raiseAfter hsite)).bind fun node t' h' => leads_ret ⟨node, rfl, h'⟩
    · obtain ⟨node, rfl, h'⟩ := hr
      exact leads_ret h'

end Parts

/-! ## The handlers -/

/-- When the handler is done, nothing but the replacement is at hand. -/
def LeavesNothing (handler : CallHandler) : Prop :=
  ∀ ⦃t₀ t : Tree⦄ ⦃site : CallSite⦄, Tidy t₀ [] t → (∀ a ∈ site.arguments, Movable t₀ a) →
    Leads t (handler site) fun new? => Tidy t₀ new?.toList

section Handlers

variable {t₀ t : Tree} {site : CallSite}

theorem leavesNothing_specialize (signature : Signature) (kind : NodeKind) :
    LeavesNothing (specialize signature kind) := by
  intro t₀ t site h hsite
  refine leads_withBound h hsite fun args hargs => ?_
  refine (leads_mapM Slot.ids (fun i _ hand t' h' => leads_takeSlot h' hargs i) h).bind fun slots t₁ h₁ => ?_
  exact leads_makeOperation h₁ (by simp)

theorem leads_localsOrGlobals (h : Tidy t₀ [] t) : Leads t (localsOrGlobals site) fun new? => Tidy t₀ new?.toList := by
  refine leads_ask fun provider? _ => ?_
  cases provider? with
  | none => exact leads_look (looks_pure true) fun _ => leads_makeOperation h (by simp)
  | some provider =>
    exact leads_ask fun kind _ => leads_look (looks_pure _) fun _ => leads_makeOperation h (by simp)

theorem leavesNothing_specializeLocals : LeavesNothing specializeLocals := fun _ _ _ h hsite =>
  leads_withBound h hsite fun _ _ => leads_localsOrGlobals h

theorem leavesNothing_specializeExec : LeavesNothing specializeExec := by
  intro t₀ t site h hsite
  refine leads_look looks_version fun version => ?_
  split
  · exact leavesNothing_specialize _ _ h hsite
  · exact leads_ret h

theorem leads_openAndRead {args : BoundArguments NodeId} (h : Tidy t₀ [] t) (hargs : AllMovable t₀ args) :
    Leads t (openAndRead site args) fun id => Tidy t₀ [id] := by
  refine (leads_takeSlot h hargs 0).bind fun filename t₁ h₁ => ?_
  refine (leads_newNode filename.ids h₁ (by simp)).bind fun mode t₂ h₂ => ?_
  refine (leads_newNode [] h₂ (by simp [Slot.ids, Slot.filled])).bind fun opened t₃ h₃ => ?_
  refine (leads_newNode [] h₃ (by simp [Slot.ids, Slot.filled])).bind fun read t₄ h₄ => ?_
  exact leads_newNode [] h₄ (by simp [Slot.ids, Slot.filled])

theorem leads_execfileSlots {args : BoundArguments NodeId} (h : Tidy t₀ [] t) (hargs : AllMovable t₀ args) :
    Leads t (execfileSlots site args) fun slots => Tidy t₀ (slots.flatMap Slot.ids) := by
  refine (leads_openAndRead h hargs).bind fun sourceCode t₁ h₁ => ?_
  refine (leads_takeSlot h₁ hargs 1).bind fun globals t₂ h₂ => ?_
  refine (leads_takeSlot h₂ hargs 2).bind fun locals t₃ h₃ => leads_ret ?_
  simpa [Slot.ids, Slot.filled] using h₃

theorem leavesNothing_specializeExecfile : LeavesNothing specializeExecfile := by
  intro t₀ t site h hsite
  refine leads_look looks_version fun version => ?_
  split
  · exact leads_ret h
  · refine leads_withBound h hsite fun args hargs => ?_
    exact (leads_execfileSlots h hargs).bind fun slots t₁ h₁ => leads_makeOperation h₁ (by simp)

theorem leavesNothing_specializeDir : LeavesNothing specializeDir := by
  intro t₀ t site h hsite
  refine leads_withBound h hsite fun args hargs => ?_
  split
  · exact leads_makeOperation h (by simp)
  · exact leads_ret h

theorem leavesNothing_specializeVars : LeavesNothing specializeVars := by
  intro t₀ t site h hsite
  refine leads_withBound h hsite fun args hargs => ?_
  split
  · exact leads_localsOrGlobals h
  · exact (leads_takeSlot h hargs 0).bind fun slot t₁ h₁ => leads_makeOperation h₁ (by simp)

theorem leavesNothing_specializeType : LeavesNothing specializeType := by
  intro t₀ t site h hsite
  unfold specializeType
  split
  · exact leads_ret h
  · dsimp only
    split
    · exact leads_ret h
    · have hpositional : ∀ a ∈ site.positional, Movable t₀ a := fun a ha => hsite a (by simp [CallSite.arguments, ha])
      refine (leads_mapM (fun id => [id]) (fun a ha hand t' h' => leads_detach h' (hpositional a ha)) h).bind
        fun taken t₁ h₁ => ?_
      refine leads_makeOperation h₁ fun x => ?_
      simp [List.flatMap_map, Slot.ids, Slot.filled]

theorem leavesNothing_specializeOneOrTwo (signature : Signature) (one two : NodeKind) :
    LeavesNothing (specializeOneOrTwo signature one two) := by
  intro t₀ t site h hsite
  refine leads_withBound h hsite fun args hargs => ?_
  refine (leads_takeSlot h hargs 0).bind fun first t₁ h₁ => ?_
  refine (Leads.onTree (h₁.gives_take fun a ha => hargs.values ha)).bind fun second? t₂ h₂ => ?_
  cases second? with
  | none => exact leads_makeOperation h₂ (by simp)
  | some second => exact leads_makeOperation h₂ (by simp [Slot.ids, Slot.filled])

theorem leads_makeEntry {keyword : String × NodeId} {hand : List NodeId} (h : Tidy t₀ hand t)
    (hkeyword : Movable t₀ keyword.2) : Leads t (makeEntry keyword) fun entry => Tidy t₀ (hand ++ [entry]) := by
  refine leads_ask fun source _ => ?_
  refine (leads_detach h hkeyword).bind fun value t₁ h₁ => ?_
  refine (leads_newNode (hand ++ [value]) h₁ (by simp)).bind fun key t₂ h₂ => ?_
  refine leads_newNode hand h₂ fun x => ?_
  simp only [List.mem_append, List.mem_singleton, Slot.ids, Slot.filled, List.flatMap_cons, List.flatMap_nil,
    List.append_nil, Option.toList_some]
  grind

theorem leavesNothing_specializeDict : LeavesNothing specializeDict := by
  intro t₀ t site h hsite
  refine leads_withBound h hsite fun args hargs => ?_
  refine (leads_takeSlot h hargs 0).bind fun positional t₁ h₁ => ?_
  refine (leads_mapM (fun id => [id]) (fun keyword hkeyword hand t' h' =>
    leads_makeEntry h' (hargs.starDict keyword hkeyword)) h₁).bind fun entries t₂ h₂ => ?_
  exact leads_makeOperation h₂ (by simp [Slot.ids])

theorem leavesNothing_specializeLong : LeavesNothing specializeLong := by
  intro t₀ t site h hsite
  refine leads_look looks_version fun version => ?_
  split
  · exact leads_ret h
  · exact leavesNothing_specialize _ _ h hsite

theorem leavesNothing_specializeRepr : LeavesNothing specializeRepr := by
  intro t₀ t site h hsite
  refine leads_withBound h hsite fun args hargs => ?_
  refine (leads_takeSlot h hargs 0).bind fun slot t₁ h₁ => ?_
  exact (leads_newNode [] h₁ (by simp)).bind fun id t₂ h₂ => leads_ret h₂

theorem leavesNothing_specializeException : LeavesNothing specializeException := by
  intro t₀ t site h hsite
  refine leads_look looks_version fun version => ?_
  split
  · exact leads_ret h
  · refine leads_withBound h hsite fun args hargs => ?_
    refine (leads_mapM (fun id => [id]) (fun a ha hand t' h' => leads_detach h' (hargs.starList a ha)) h).bind
      fun taken t₁ h₁ => ?_
    exact (leads_newNode [] h₁ (by simp [Slot.ids])).bind fun id t₂ h₂ => leads_ret h₂

theorem leavesNothing_critical {name : String} {handler : CallHandler}
    (h : CallHandler.critical.lookup? name = some handler) : LeavesNothing handler := by
  refine DispatchTable.of_lookup? (p := fun e : String × CallHandler => LeavesNothing e.2)
    (DispatchTable.forall_ofList ?_) (fun _ hf => nomatch (DispatchTable.fallback_ofList _).symm.trans hf) h
  simp only [List.forall_mem_cons]
  exact ⟨leavesNothing_specialize _ _, leavesNothing_specializeLocals, leavesNothing_specialize _ _,
    leavesNothing_specializeExec, leavesNothing_specializeExecfile, by simp⟩

theorem leavesNothing_optional {name : String} {handler : CallHandler}
    (h : CallHandler.optional.lookup? name = some handler) : LeavesNothing handler := by
  have hfallback : ∀ handler, CallHandler.optional.fallback = some handler → LeavesNothing handler := by
    rintro _ ⟨⟩
    exact leavesNothing_specializeException
  refine DispatchTable.of_lookup? (t := CallHandler.optional) (p := fun e : String × CallHandler => LeavesNothing e.2)
    (DispatchTable.forall_ofList ?_) hfallback h
  simp only [List.forall_mem_cons]
  refine ⟨leavesNothing_specializeDir, leavesNothing_specializeVars, ?_, ?_, ?_, ?_, ?_, ?_,
    leavesNothing_specializeType, leavesNothing_specializeOneOrTwo _ _ _, leavesNothing_specializeOneOrTwo _ _ _,
    ?_, ?_, ?_, leavesNothing_specializeDict, ?_, ?_, ?_, ?_, leavesNothing_specializeLong,
    leavesNothing_specializeRepr, ?_, by simp⟩
  all_goals exact leavesNothing_specialize _ _

end Handlers

/-! ## Looks -/

/-- Nothing is at hand, and the node is no stray. -/
structure Tidied (t₀ : Tree) (id : NodeId) (t : Tree) : Prop where
  tidy : Tidy t₀ [] t
  own : ¬ t₀.Stray id

section Looks

variable {t₀ t : Tree} {id old new : NodeId}

theorem leads_replaceNode (h : Tidy t₀ [new] t) (hold : ¬ t₀.Stray old) :
    Leads t (replaceNode old new) fun _ => Tidy t₀ [] :=
  (Leads.onTree fun _ _ hrun => h.replaceWith hold [] (by simp) hrun).bind fun _ _ h₁ =>
    .onTree fun _ _ hrun => h₁.finalize [] (by simp) hrun

theorem leads_reconsiderVariable (h : Tidy t₀ [] t) (v : VariableId) (source : SourceRef) :
    Leads t (reconsiderVariable v source) fun _ => Tidy t₀ [] := by
  rintro s w ⟨⟩ w' rfl hrun
  obtain ⟨hnodes, hroot⟩ := reconsiderVariable_eq_ok hrun
  have hsize : w'.tree.bindings.size = w.tree.bindings.size := by
    simpa [uncounted] using congrArg Array.size (tame_reconsiderVariable v source hrun).uncounted
  exact h.of_get?_eq (fun x => by rw [get?, hnodes]; rfl) hroot (Nat.le_of_eq hsize.symm)

theorem Installs.tidied {v : VariableId} {source : SourceRef} (hput : Installs s v source old new w w')
    (h : Tidy t₀ [new] w.tree) (hold : ¬ t₀.Stray old) : Tidied t₀ new w'.tree := by
  obtain ⟨w₁, w₂, hreplace, hcount, htree⟩ := hput
  have h₁ : Tidy t₀ [] w₁.tree := leads_replaceNode h hold rfl hreplace
  exact ⟨leads_reconsiderVariable h₁ v source htree hcount, h.own new (by simp)⟩

theorem leads_replaceThrough {v : VariableId} {source : SourceRef} {tags : ChangeTags} {message : String} {result : α}
    (h : Tidy t₀ [new] t) (hold : ¬ t₀.Stray old) :
    Leads t (do
      replaceNode old new
      signal tags source message
      reconsiderVariable v source
      return result) fun a t' => a = result ∧ Tidied t₀ new t' := by
  rintro s w a w' rfl hrun
  obtain ⟨rfl, hput⟩ := replaceThrough_eq_ok hrun
  exact ⟨rfl, hput.tidied h hold⟩

/-- The arguments of a call that is no stray can be taken out of it. -/
theorem movable_of_read {version : Version} {v : VariableId} {name : String} {call : NodeId} {site : CallSite}
    {found : VariableId × String} (h : Tidy t₀ [] t) (hcall : ¬ t₀.Stray call)
    (hcalled : t.calledBuiltin? version call = some found) (hread : CallSite.read t call v name = .ok (some site)) :
    ∀ a ∈ site.arguments, Movable t₀ a := by
  obtain ⟨n, hn, hkind⟩ := calledBuiltin?_live hcalled
  obtain ⟨-, harguments⟩ := h.consistent.read_eq_ok hn hkind hread
  intro a ha
  obtain ⟨q, hq, hbelow⟩ := harguments.holder ha
  exact h.movable hq (by rwa [h.stray_iff_of_below hbelow])

theorem leads_replaceCall {handlers : DispatchTable String CallHandler}
    (hhandlers : ∀ {name handler}, handlers.lookup? name = some handler → LeavesNothing handler) (h : Tidied t₀ id t) :
    Leads t (replaceCall handlers id) (Tidied t₀) := by
  refine leads_tree (leads_look looks_version fun version => ?_)
  split
  · next v name hcalled =>
    split
    · next handler hhandler =>
      refine leads_ask fun site? hread => ?_
      cases site? with
      | none => exact leads_ret h
      | some site =>
        have hsite := movable_of_read h.tidy h.own hcalled hread
        refine (hhandlers hhandler h.tidy hsite).bind fun new? t₁ h₁ => ?_
        cases new? with
        | none => exact leads_ret ⟨h₁, h.own⟩
        | some new =>
          refine leads_ask fun tags _ => leads_ask fun kind _ => ?_
          exact (leads_replaceThrough h₁ h.own).mono fun a t' ⟨ha, h'⟩ => ha ▸ h'
    · exact leads_ret h
  · exact leads_ret h

theorem leads_replaceExecStatement (h : Tidied t₀ id t) : Leads t (replaceExecStatement id) fun new? t' =>
    Tidied t₀ (new?.getD id) t' := by
  rintro s w new? w' rfl hrun
  obtain ⟨rfl, rfl⟩ | ⟨new, call, v, name, site, args, slots, w₁, t₁, rfl, -, hcall, hcalled, hread, hbind, -, hslots,
    hmake, hput⟩ := replaceExecStatement_eq_ok hrun
  · exact h
  -- the arguments are those of a call below the statement
  have hcallOwn : ¬ t₀.Stray call := (h.tidy.movable (h.tidy.consistent.isParent_of_child hcall) h.own).not_stray
  have hargs := allMovable_of_bind (movable_of_read h.tidy hcallOwn hcalled hread) hbind
  have h₁ : Tidy t₀ (slots.flatMap Slot.ids) w₁.tree := leads_execfileSlots h.tidy hargs rfl hslots
  exact hput.tidied (h₁.newNode [] (by simp) hmake) h.own

theorem leads_replaceCriticalBuiltin (h : Tidied t₀ id t) : Leads t (replaceCriticalBuiltin id) (Tidied t₀) := by
  refine (leads_replaceExecStatement h).bind fun new? t₁ h₁ => ?_
  cases new? with
  | some statement => exact leads_ret h₁
  | none => exact leads_replaceCall leavesNothing_critical h₁

theorem leads_makeNamed {name : String} {source : SourceRef} (h : Tidy t₀ [] t) :
    Leads t (makeNamed name source) fun made? => Tidy t₀ (made?.toList.map (·.1)) := by
  unfold makeNamed
  split
  · exact (leads_newNode [] h (by simp)).bind fun id t₁ h₁ => leads_ret h₁
  · refine leads_look looks_version fun version => ?_
    split
    · exact (leads_newNode [] h (by simp)).bind fun id t₁ h₁ => leads_ret h₁
    · exact leads_ret h

theorem leads_replaceName (h : Tidied t₀ id t) : Leads t (replaceName id) (Tidied t₀) := by
  refine leads_tree ?_
  split
  case h_2 => exact leads_ret h
  next v b hread =>
  refine leads_ask fun source _ => ?_
  refine (leads_makeNamed h.tidy).bind fun made? t₁ h₁ => ?_
  cases made? with
  | none => exact leads_ret ⟨h₁, h.own⟩
  | some made => exact (leads_replaceThrough h₁ h.own).mono fun a t' ⟨ha, h'⟩ => ha ▸ h'

end Looks

end ReplaceM

/-! ## Computations -/

/-- What a computation offers in the place of a node, if it is another one. -/
def Computed.offered (c : Computed) (id : NodeId) : List NodeId := if c.isChanged ∧ c.node ≠ id then [c.node] else []

namespace Computed

variable {id new : NodeId} {tags : ChangeTags} {message : String}

@[simp] theorem offered_unchanged : (unchanged id).offered id = [] := by simp [offered, unchanged, isChanged]

@[simp] theorem offered_changed_self : (changed id tags message).offered id = [] := by simp [offered, changed]

theorem offered_changed (h : new ≠ id) : (changed new tags message).offered id = [new] := by
  simp [offered, changed, isChanged, h]

end Computed

theorem Gives.onTree {α : Type} {t : Tree} {action : TreeM α} {Q : α → Tree → Prop} (h : Gives t action Q) :
    Gives t (CompileM.onTree action) Q := by
  intro a t' hrun
  unfold CompileM.onTree at hrun
  cases haction : action t with
  | ok b t₁ =>
    rw [haction] at hrun
    cases hrun
    exact h haction
  | error e t₁ =>
    rw [haction] at hrun
    cases hrun

theorem gives_locate {t : Tree} (locator : Locator) (module : ModuleName) :
    Gives t (HardImport.locate locator module) fun _ t' => t' = t := by
  unfold HardImport.locate
  dsimp only
  split
  · exact gives_ret rfl
  · rintro a t' ⟨⟩

/-- What is at hand is what a computation offers in the place of a node. -/
def Tree.Tidy.Offer (t₀ : Tree) (id : NodeId) (c : Computed) (t : Tree) : Prop := Tidy t₀ (c.offered id) t

namespace ReplaceM

section Computations

variable {t₀ t : Tree} {id : NodeId} {n : Node}

theorem Leads.onCompile {α : Type} {action : CompileM α} {Q : α → Tree → Prop} (h : Gives t action Q) :
    Leads t (onCompile action) Q := by
  rintro s w b w' rfl hrun
  unfold ReplaceM.onCompile at hrun
  cases haction : action w.tree with
  | ok a t₁ =>
    rw [haction] at hrun
    cases hrun
    exact h haction
  | error e t₁ =>
    rw [haction] at hrun
    cases hrun

theorem leads_unchanged (h : Tidy t₀ [] t) : Leads t (pure (Computed.unchanged id)) (Tidy.Offer t₀ id) :=
  leads_ret (by rwa [Tidy.Offer, Computed.offered_unchanged])

/-- A new leaf is not the node it is made for. -/
theorem gives_leaf {kind : NodeKind} {source : SourceRef} {payload : Payload} (h : Tidy t₀ [] t)
    (hn : t.get? id = some n) :
    Gives t (TreeM.newNode kind source payload []) fun new t' => Tidy t₀ [new] t' ∧ new ≠ id := by
  intro new t' hrun
  refine ⟨h.newNode [] (by simp) hrun, ?_⟩
  obtain ⟨-, rfl, -⟩ := newNode_eq_ok hrun
  exact (ne_nextId_of_get? hn).symm

theorem leads_offer {new : NodeId} {tags : ChangeTags} {message : String} (h : Tidy t₀ [new] t ∧ new ≠ id) :
    Leads t (pure (Computed.changed new tags message)) (Tidy.Offer t₀ id) :=
  leads_ret (by rw [Tidy.Offer, Computed.offered_changed h.2]; exact h.1)

theorem leads_leaf {kind : NodeKind} {source source' : SourceRef} {payload : Payload} {tags : ChangeTags}
    {message : String} (h : Tidy t₀ [] t) (hsource : t.source id = .ok source') :
    Leads t (onTree (TreeM.newNode kind source payload []) >>= fun new => pure (Computed.changed new tags message))
      (Tidy.Offer t₀ id) := by
  obtain ⟨n, hn, -⟩ := bind_eq_ok_iff.1 hsource
  exact (Leads.onTree (gives_leaf h (node_eq_ok_iff.1 hn))).bind fun _ _ => leads_offer

theorem leads_foldBuiltin (h : Tidy t₀ [] t) (signature : Signature) :
    Leads t (foldBuiltin id signature) (Tidy.Offer t₀ id) := by
  unfold foldBuiltin
  split
  · exact leads_unchanged h
  refine leads_ask fun arguments? _ => ?_
  split
  · exact leads_unchanged h
  refine leads_ask fun source hsource => leads_look looks_version fun version => ?_
  split
  · exact leads_leaf h hsource
  · exact leads_look (looks_recordExit ..) fun _ => leads_leaf h hsource
  · exact leads_unchanged h

theorem leads_foldType (h : Tidy t₀ [] t) : Leads t (foldType id) (Tidy.Offer t₀ id) := by
  refine leads_ask fun operand? _ => leads_tree ?_
  split
  case h_2 => exact leads_unchanged h
  split
  · exact leads_unchanged h
  refine leads_look looks_version fun version => leads_look looks_version fun version' => ?_
  split
  · exact leads_unchanged h
  exact leads_ask fun source hsource => leads_leaf h hsource

theorem leads_foldImport (h : Tidy t₀ [] t) : Leads t (foldImport id) (Tidy.Offer t₀ id) := by
  refine leads_look (looks_hasSideEffects ..) fun globals => ?_
  split
  · exact leads_unchanged h
  refine leads_look (looks_hasSideEffects ..) fun locals => ?_
  split
  · exact leads_unchanged h
  refine leads_look (looks_importOperand ..) fun name => ?_
  split
  case h_2 => exact leads_unchanged h
  refine leads_look (looks_importOperand ..) fun fromlist => ?_
  split
  case h_2 => exact leads_unchanged h
  refine leads_look looks_version fun version => leads_look (looks_importOperand ..) fun level => ?_
  split
  case h_2 => exact leads_unchanged h
  exact leads_ask fun source hsource => leads_leaf h hsource

/-- What is taken out of a slot is another node. -/
theorem gives_detachSlot {slot : String} (h : Tidy t₀ [] t) (hid : ¬ t₀.Stray id) :
    Gives t (TreeM.detachSlot id slot) fun c? t' => Tidy t₀ c?.toList t' ∧ ∀ c, c? = some c → c ≠ id := by
  refine gives_query fun c? hchild => ?_
  cases c? with
  | none => exact gives_ret ⟨h, nofun⟩
  | some c =>
    have hparent := h.consistent.isParent_of_child hchild
    refine Gives.bind (fun a t' hrun => h.detach (h.movable hparent hid) hrun) fun a t₁ h₁ => gives_ret ?_
    obtain ⟨rfl, h₁⟩ := h₁
    refine ⟨h₁, ?_⟩
    rintro _ ⟨⟩
    exact h.consistent.ne_of_isParent hparent

theorem gives_computeSideEffects (h : Tidied t₀ id t) :
    Gives t (TreeM.computeSideEffects id) (Tidy.Offer t₀ id) := by
  refine gives_get (gives_check fun effects heffects => ?_)
  have hmovable : ∀ a ∈ effects, Movable t₀ a := fun a ha =>
    h.tidy.movable (h.tidy.consistent.isParent_of_childrenIn heffects ha) h.own
  refine (gives_filterM effects fun effect _ => gives_check fun b _ => gives_ret rfl).bind ?_
  rintro dropped t₁ ⟨rfl, hdropped⟩
  dsimp only
  split
  · exact gives_ret (by rw [Tidy.Offer, Computed.offered_unchanged]; exact h.tidy)
  refine (h.tidy.gives_discardAll fun a ha => hmovable a (hdropped a ha).1).bind fun _ t₂ h₂ => gives_query fun left _ => ?_
  split
  · refine Gives.bind (gives_detachSlot h₂ h.own) fun expression? t₃ h₃ => ?_
    cases expression? with
    | none => exact gives_ret (by rw [Tidy.Offer, Computed.offered_changed_self]; exact h₃.1)
    | some expression =>
      exact gives_ret (by rw [Tidy.Offer, Computed.offered_changed (h₃.2 expression rfl)]; exact h₃.1)
  · exact gives_ret (by rw [Tidy.Offer, Computed.offered_changed_self]; exact h₂)

theorem leads_computeImportModule {spec : ImportSpec} {source : SourceRef} (h : Tidied t₀ id t)
    (hn : t.get? id = some n) : Leads t (computeImportModule id spec source) (Tidy.Offer t₀ id) := by
  refine leads_look looks_settings fun settings => leads_tree ?_
  dsimp only
  split
  · exact leads_look (looks_recordExit ..) fun _ => leads_unchanged h.tidy
  split
  · have hmodule {locator : Locator} {module : ModuleName} :
        Gives t (HardImport.makeModule locator module source) fun new t' => Tidy t₀ [new] t' ∧ new ≠ id :=
      (gives_locate _ _).bind fun _ _ ht => ht ▸ (gives_leaf h.tidy hn).onTree
    exact (Leads.onCompile hmodule).bind fun _ _ => leads_offer
  split
  · refine leads_ask fun capabilities _ => ?_
    split
    · exact leads_unchanged h.tidy
    · refine Leads.bind (.onTree fun _ _ hrun => h.tidy.setCapabilities h.own hrun) fun _ t₁ h₁ => leads_unchanged h₁
  · exact leads_look (looks_recordExit ..) fun _ => leads_unchanged h.tidy

theorem leads_computeImportName {name : String} {source : SourceRef} (h : Tidied t₀ id t)
    (hn : t.get? id = some n) : Leads t (computeImportName id name source) (Tidy.Offer t₀ id) := by
  have hname {locator : Locator} {version : Version} {module : ModuleName} :
      Gives t (HardImport.makeName locator version module name source) fun new t' => Tidy t₀ [new] t' ∧ new ≠ id :=
    (gives_locate _ _).bind fun _ _ ht => ht ▸ (gives_leaf h.tidy hn).onTree
  refine leads_ask fun module? _ => ?_
  split
  on_goal 2 => refine leads_ask fun payload _ => ?_
  all_goals
    refine leads_look (looks_pure _) fun payload? => ?_
    dsimp only
    split
    · exact leads_look (looks_recordExit ..) fun _ => leads_unchanged h.tidy
    · refine leads_look looks_settings fun settings => leads_look looks_version fun version => ?_
      refine (Leads.onCompile hname).bind fun new t₁ h₁ => leads_ask fun kind _ => ?_
      split
      · exact leads_look (looks_recordExit ..) fun _ => leads_offer h₁
      · exact leads_offer h₁

theorem leads_computeNode (h : Tidied t₀ id t) : Leads t (computeNode id) (Tidy.Offer t₀ id) := by
  have hunchanged : Leads t (pure (Computed.unchanged id)) (Tidy.Offer t₀ id) := leads_unchanged h.tidy
  refine leads_ask fun n hnode => ?_
  have hn := node_eq_ok_iff.1 hnode
  split
  · split
    · exact leads_look (looks_recordExit ..) fun _ => leads_look looks_abort fun _ => hunchanged
    · exact leads_look looks_abort fun _ => hunchanged
  · exact .onTree (gives_computeSideEffects h)
  · exact leads_look (looks_recordExit ..) fun _ => hunchanged
  · refine (leads_foldBuiltin h.tidy Signature.range).bind fun c t₁ h₁ => ?_
    split
    · exact leads_ret h₁
    · exact leads_look (looks_recordExit ..) fun _ => leads_ret h₁
  · split
    · exact leads_computeImportModule h hn
    · exact hunchanged
  · split
    · exact leads_computeImportName h hn
    · exact hunchanged
  · exact leads_look (looks_recordExit ..) fun _ => hunchanged
  · split
    · exact leads_look (looks_recordExit ..) fun _ => hunchanged
    · exact hunchanged

/-- Putting what was offered in its place empties the hands. -/
theorem leads_applyComputed {c : Computed} (h : Tidy.Offer t₀ id c t) (hid : ¬ t₀.Stray id) :
    Leads t (applyComputed id c) (Tidied t₀) := by
  unfold applyComputed
  rw [Tidy.Offer, Computed.offered] at h
  split
  · next hchange =>
    rw [if_neg (by simp [Computed.isChanged, hchange])] at h
    exact leads_ret ⟨h, hid⟩
  · next tags description hchange =>
    refine leads_ask fun source _ => ?_
    split
    · next hsame =>
      rw [if_neg (by simp [hsame])] at h
      exact leads_look (looks_signal ..) fun _ => leads_ret ⟨h, hsame ▸ hid⟩
    · next hother =>
      rw [if_pos ⟨by simp [Computed.isChanged, hchange], hother⟩] at h
      refine (leads_replaceNode h hid).bind fun _ t₁ h₁ => leads_look (looks_signal ..) fun _ => ?_
      exact leads_ret ⟨h₁, h.own c.node (by simp)⟩

/-- **Computing a node and putting the outcome in its place leaves nothing behind.** -/
theorem compute_tidies (h : Tidied t₀ id t) : Leads t (computeNode id >>= applyComputed id) (Tidied t₀) :=
  (leads_computeNode h).bind fun _ _ h₁ => leads_applyComputed h₁ h.own

theorem leads_of_foldHandler {key : String} {handler : FoldHandler} (hlookup : foldHandlers.lookup? key = some handler)
    (h : Tidied t₀ id t) : Leads t (handler id) (Tidy.Offer t₀ id) := by
  refine DispatchTable.of_lookup? (t := foldHandlers)
    (p := fun e : String × FoldHandler => Leads t (e.2 id) (Tidy.Offer t₀ id)) (DispatchTable.forall_ofList ?_)
    (fun _ hf => nomatch (DispatchTable.fallback_ofList _).symm.trans hf) hlookup
  rw [List.forall_mem_append, List.forall_mem_map]
  refine ⟨?_, fun key _ => ?_⟩
  · simp only [List.forall_mem_cons]
    exact ⟨leads_foldType h.tidy, leads_computeNode h, leads_foldImport h.tidy, by simp⟩
  · dsimp only
    unfold foldByKey
    split
    · exact leads_foldBuiltin h.tidy _
    · exact leads_unchanged h.tidy

theorem leads_foldOperation (h : Tidied t₀ id t) : Leads t (foldOperation id) (Tidied t₀) := by
  refine leads_ask fun kind _ => ?_
  split
  case h_2 => exact leads_ret h
  split
  case h_2 => exact leads_ret h
  next handler hhandler =>
  exact (leads_of_foldHandler hhandler h).bind fun c t₁ h₁ => leads_applyComputed h₁ h.own

/-- **A look at a node leaves nothing behind.** -/
theorem enter_tidies (visitor : Visitor) (h : Tidied t₀ id t) : Leads t (visitor.enter id) (Tidied t₀) := by
  cases visitor with
  | criticalBuiltins => exact leads_replaceCriticalBuiltin h
  | optionalBuiltins => exact leads_replaceCall leavesNothing_optional h
  | exceptionNames => exact leads_replaceName h
  | constantFolding => exact leads_foldOperation h

end Computations

end ReplaceM

end Specializer
