import Specializer.Proofs.FixedPoint.Gating
import Specializer.Proofs.FixedPoint.Journal
import Specializer.Proofs.Replacement.Exits
import Specializer.Proofs.Tree.References

/-!
# Steps and counts

A look that replaces counts the references of the variable it goes through again; no other step counts anything. A step
that tears a reference down without counting again has thrown away an operand in which the reference stands. Such an
operand is a namespace of an import, or its evaluation cannot be noticed (`Discardable`). `Accounts` says this of a step,
and it holds for every look and every computation (`enter_accounts`, `compute_accounts`).
-/

namespace Specializer

open Specializer.Tree

namespace Tree

variable {t t₁ t' : Tree} {id c x new call parent : NodeId} {u v : VariableId} {n : Node} {torn : NodeId → Prop}

/-! ## Counting again -/

/-- The references of a variable were counted again, and nothing else has changed. -/
structure Recounted (t t' : Tree) (v : VariableId) : Prop extends SameNodes t t' where
  count : t'.usage? v = some (t'.references v)
  others : ∀ u, u ≠ v → t'.usage? u = t.usage? u

theorem Consistent.reconsiderVariable_eq_ok (h : t.Consistent) {count : Nat}
    (hrun : TreeM.reconsiderVariable v t = .ok count t') : Recounted t t' v := by
  rw [TreeM.reconsiderVariable, run_get_bind] at hrun
  obtain ⟨b, hb, hrun⟩ := run_check_eq_ok_iff.1 hrun
  obtain ⟨count', hcount, hset⟩ := run_check_eq_ok_iff.1 hrun
  cases hset
  have hsame : SameNodes t { t with bindings := t.bindings.setIfInBounds v.index { b with usageCount := count } } :=
    ⟨rfl, rfl, by simp⟩
  have hdeclared : v.index < t.bindings.size := by
    by_contra hnot
    rw [variableAt, Array.getElem?_eq_none (Nat.not_lt.1 hnot)] at hb
    cases hb
  obtain rfl : t.references v = count := Except.ok.inj ((h.referenceCount_eq v).symm.trans hcount)
  refine ⟨hsame, ?_, fun u hu => ?_⟩
  · rw [hsame.references h]
    simp [usage?, hdeclared]
  · have hne : v.index ≠ u.index := fun e => hu (by cases u; cases v; simp_all)
    simp [usage?, Array.getElem?_setIfInBounds_ne hne]

/-! ## Accounts -/

/-- An operand below a node that may be thrown away with it: a namespace of an import, or one whose evaluation cannot be
noticed. -/
structure Discardable (t : Tree) (id operand : NodeId) : Prop where
  below : t.StrictlyBelow operand id
  reason : t.IsNamespace id operand ∨ t.isObservable operand = .ok false

/-- A node stands in an operand that may be thrown away. -/
def InDiscardable (t : Tree) (id x : NodeId) : Prop := ∃ operand, t.Discardable id operand ∧ t.Below x operand

/-- What a step at a node does to variables and their references: at most one variable is counted again, and what is torn
down is a reference to it or stands in an operand that may be thrown away. -/
structure Accounts (t t' : Tree) (id : NodeId) (recounted : Option VariableId) : Prop where
  usage : ∀ {u}, recounted ≠ some u → t'.usage? u = t.usage? u
  count : ∀ {v}, recounted = some v → t'.usage? v = some (t'.references v)
  losses : ∀ {x u}, t.Mentions x u → t'.get? x = none → recounted = some u ∨ t.InDiscardable id x

theorem usage?_of_bindings (h : t'.bindings = t.bindings) (u : VariableId) : t'.usage? u = t.usage? u := by
  rw [usage?, h, usage?]

theorem Mentions.live (h : t.Mentions x u) : ∃ n, t.get? x = some n := h.imp fun _ => And.left

theorem Accounts.refl (t : Tree) (id : NodeId) : Accounts t t id none := by
  refine ⟨fun _ => rfl, nofun, fun hx hgone => ?_⟩
  obtain ⟨n, hn⟩ := hx.live
  cases hn.symm.trans hgone

/-- What is gone after a node was built and has taken a place was torn down on the way, or hung below the old node. -/
theorem Reshaped.lost_of_replaced (h : Reshaped torn t t₁) (hr : Replaced t₁ t' id new parent)
    (hid : id.index < t.nodes.size) (hx : t.get? x = some n) (hgone : t'.get? x = none) :
    (∃ a, torn a ∧ (a.index < t.nodes.size → t.Below x a)) ∨ t.Below x id := by
  cases hx₁ : t₁.get? x with
  | none => exact .inl (h.lost hx hx₁)
  | some n₁ =>
    refine .inr (h.below hid ?_)
    by_contra hnot
    rw [hr.node hnot, hx₁] at hgone
    cases hgone

/-! ## Nodes that read nothing -/

/-- A node below another one is the node itself or hangs below one of its children. -/
theorem Consistent.below_cases (hc : t.Consistent) (hn : t.get? id = some n) (hx : t.Below x id) :
    x = id ∨ ∃ c ∈ n.children, t.Below x c := by
  rcases Relation.ReflTransGen.cases_tail hx with rfl | ⟨c, hxc, hp⟩
  · exact .inl rfl
  · exact .inr ⟨c, (hc.isParent_iff hn).1 hp, hxc⟩

theorem Mentions.kind_eq (h : t.Mentions x u) (hn : t.get? x = some n) : n.kind = .variableRef ∧ n.referent? = some u := by
  obtain ⟨m, hm, hreads⟩ := h
  obtain rfl := Option.some.inj (hn.symm.trans hm)
  exact kind_of_isReferenceTo hreads

/-- What reads a variable below another node hangs below one of its children. -/
theorem Consistent.mentions_below (hc : t.Consistent) (hn : t.get? id = some n) (hkind : n.kind ≠ .variableRef)
    (hx : t.Below x id) (hreads : t.Mentions x u) : ∃ c ∈ n.children, t.Below x c := by
  refine (hc.below_cases hn hx).resolve_left ?_
  rintro rfl
  exact hkind (hreads.kind_eq hn).1

/-- Nothing below a node reads a variable. -/
def Unread (t : Tree) (id : NodeId) : Prop := ∀ ⦃x u⦄, t.Below x id → ¬ t.Mentions x u

theorem Consistent.unread_of_children (hc : t.Consistent) (hn : t.get? id = some n) (hkind : n.kind ≠ .variableRef)
    (hchildren : ∀ c ∈ n.children, t.Unread c) : t.Unread id := by
  intro x u hx hreads
  obtain ⟨c, hmem, hxc⟩ := hc.mentions_below hn hkind hx hreads
  exact hchildren c hmem hxc hreads

theorem Consistent.unread_constant (hc : t.Consistent) {value : Constant} (hv : t.constant? id = some value) :
    t.Unread id := by
  obtain ⟨n, hn, hkind, hchildren⟩ := hc.constantRef hv
  exact hc.unread_of_children hn (by rw [hkind]; decide) (by simp [hchildren])

/-- An operand that is known ahead reads nothing. -/
theorem KnownOperand.unread (h : t.KnownOperand c) (hc : t.Consistent) : t.Unread c := by
  rcases h with ⟨value, hv⟩ | ⟨key, value, k, v, hkey, hvalue, hk, hv⟩
  · exact hc.unread_constant hv
  · obtain ⟨n, hn, hkind, hchildren⟩ := hc.entry_children hkey hvalue
    refine hc.unread_of_children hn (by rw [hkind]; decide) ?_
    rw [hchildren, List.forall_mem_cons, List.forall_mem_singleton]
    exact ⟨hc.unread_constant hk, hc.unread_constant hv⟩

/-! ## Calls -/

theorem Consistent.children_of_slots (hc : t.Consistent) (hn : t.get? id = some n) (hslots : n.kind.slots = []) :
    n.children = [] := by
  have hnone : n.slots = [] := by simpa [hslots] using (hc.conforms hn).forms
  simp [Node.children, hnone]

/-- A name has nothing below it, and reads its variable alone. -/
theorem Consistent.mentions_below_name (hc : t.Consistent) {b : Variable} (hname : t.readOnlyVariable? id = some (v, b))
    (hx : t.Below x id) (hreads : t.Mentions x u) : u = v := by
  obtain ⟨n, hn, hkind, hpayload, -⟩ := Plan.readOnlyVariable?_eq_some hname
  have hchildren := hc.children_of_slots hn (by rw [hkind]; rfl)
  rcases hc.below_cases hn hx with rfl | ⟨c, hmem, -⟩
  · have hreferent := (hreads.kind_eq hn).2
    rw [Node.referent?, hpayload] at hreferent
    exact (Option.some.inj hreferent).symm
  · rw [hchildren] at hmem
    cases hmem

/-- Every pair of keywords that were read has a constant for its key, and an argument for its value. -/
theorem readKeywords_pair : ∀ {pairs : List NodeId} {keywords : List (String × NodeId)} {pair : NodeId},
    CallSite.readKeywords t pairs = .ok (some keywords) → pair ∈ pairs → ∃ key value k,
      t.child pair "key" = .ok (some key) ∧ t.child pair "value" = .ok (some value) ∧ t.constant? key = some k ∧
        value ∈ keywords.map (·.2)
  | [], _, _, _, hmem => nomatch hmem
  | pair :: rest, keywords, pair', h, hmem => by
    obtain ⟨key?, hkey, h⟩ := bind_eq_ok_iff.1 h
    obtain ⟨value?, hvalue, h⟩ := bind_eq_ok_iff.1 h
    split at h
    · next keyword value hname =>
      obtain ⟨keywords'?, hrest, h⟩ := bind_eq_ok_iff.1 h
      obtain ⟨keywords', rfl, rfl⟩ := Option.map_eq_some_iff.1 (Except.ok.inj h)
      obtain ⟨key, rfl, hk⟩ := Option.bind_eq_some_iff.1 hname
      rcases List.mem_cons.1 hmem with rfl | hmem
      · exact ⟨key, value, .str keyword, hkey, hvalue, hk, by simp⟩
      · obtain ⟨key', value', k, hkey', hvalue', hk', hin⟩ := readKeywords_pair hrest hmem
        exact ⟨key', value', k, hkey', hvalue', hk', by simp [hin]⟩
    · cases h

/-- Where the arguments of a call that was read stand. -/
structure ReadFrom (t : Tree) (call : NodeId) (site : CallSite) : Prop where
  listStar : t.child call "list_star_arg" = .ok none
  dictStar : t.child call "dict_star_arg" = .ok none
  positional : t.childrenIn call "positional_args" = .ok site.positional
  keywords : ∃ pairs, t.childrenIn call "pairs" = .ok pairs ∧
    CallSite.readKeywords t pairs = .ok (some site.keywords)

theorem readFrom_of_read {name : String} {site : CallSite} (h : CallSite.read t call v name = .ok (some site)) :
    t.ReadFrom call site := by
  obtain ⟨star?, hstar, h⟩ := bind_eq_ok_iff.1 h
  split at h
  · cases h
  next hstar? =>
  obtain ⟨dict?, hdict, h⟩ := bind_eq_ok_iff.1 h
  split at h
  · cases h
  next hdict? =>
  obtain ⟨pairs, hpairs, h⟩ := bind_eq_ok_iff.1 h
  obtain ⟨keywords?, hkeywords, h⟩ := bind_eq_ok_iff.1 h
  cases keywords? with
  | none => cases h
  | some keywords =>
    obtain ⟨positional, hpositional, h⟩ := bind_eq_ok_iff.1 h
    obtain ⟨source, -, h⟩ := bind_eq_ok_iff.1 h
    cases h
    obtain rfl : star? = none := by simpa using hstar?
    obtain rfl : dict? = none := by simpa using hdict?
    exact ⟨hstar, hdict, hpositional, pairs, hpairs, hkeywords⟩

/-- **What a call reads**, apart from its arguments, is the variable it goes through. -/
theorem Consistent.mentions_below_call (hc : t.Consistent) {version : Version} {name : String} {site : CallSite}
    (hcalled : t.calledBuiltin? version call = some (v, name)) (hread : CallSite.read t call v name = .ok (some site))
    (hx : t.Below x call) (hreads : t.Mentions x u) : u = v ∨ ∃ a ∈ site.arguments, t.Below x a := by
  obtain ⟨n, called, b, hn, hkind, hchild, hname⟩ := Plan.calledBuiltin?_eq_some hcalled
  obtain ⟨hlist, hdict, hpositional, pairs, hpairs, hkeywords⟩ := readFrom_of_read hread
  obtain ⟨c, hmem, hxc⟩ := hc.mentions_below hn (by rw [hkind]; decide) hx hreads
  obtain ⟨spec, hspec, one, many⟩ := hc.exists_place hn hmem
  rw [hkind] at hspec
  simp only [NodeKind.slots, List.mem_cons, List.not_mem_nil, or_false] at hspec
  -- the callee, the positional arguments, the keywords and the two starred arguments
  rcases hspec with rfl | rfl | rfl | rfl | rfl
  · cases one hchild
    exact .inl (hc.mentions_below_name hname hxc hreads)
  · exact .inr ⟨c, List.mem_append_left _ (many hpositional), hxc⟩
  · obtain ⟨key, value, k, hkey, hvalue, hk, hargument⟩ := readKeywords_pair hkeywords (many hpairs)
    obtain ⟨m, hm, hmkind, hchildren⟩ := hc.entry_children hkey hvalue
    obtain ⟨d, hd, hxd⟩ := hc.mentions_below hm (by rw [hmkind]; decide) hxc hreads
    rw [hchildren] at hd
    rcases List.mem_pair.1 hd with rfl | rfl
    · exact absurd hreads (hc.unread_constant hk hxd)
    · exact .inr ⟨d, List.mem_append_right _ hargument, hxd⟩
  · cases one hlist
  · cases one hdict

end Tree

/-! ## Looks -/

/-- The variable that a step counts again: the one that a look goes through, if it replaces. -/
def Step.recounted? (step : Step) : Option VariableId :=
  match step.visitor? with
  | none => none
  | some visitor =>
    if step.result = step.node then none else Look.through? ⟨visitor, step.node, step.before, step.result⟩

namespace ReplaceM

variable {α : Type} {s : Settings} {w w' : Workspace} {t t₁ t' : Tree} {id id' x a new parent : NodeId} {u v : VariableId}
  {n : Node} {args : List NodeId} {site : CallSite} {torn : NodeId → Prop}

theorem leads_replaced (hc : t.Consistent) :
    Leads t (replaceNode id new) fun _ t' => ∃ parent, Replaced t t' id new parent := by
  rintro s w _ w' rfl hrun
  exact (replaceNode_eq_ok hc hrun).1

theorem leads_recounted (hc : t.Consistent) (v : VariableId) (source : SourceRef) :
    Leads t (reconsiderVariable v source) fun _ t' => Recounted t t' v := by
  refine Leads.bind (.onTree fun _ _ hrun => hc.reconsiderVariable_eq_ok hrun) fun _ t' h => ?_
  refine leads_ask fun b _ => leads_ask fun kind _ => ?_
  split
  · intro s w _ w' ht hrun
    rw [looks_signal _ _ _ hrun, ht]
    exact h
  · exact leads_ret h

theorem Installs.recounted {s : Settings} {w w' : Workspace} {source : SourceRef} (hput : Installs s v source id new w w')
    (hc : w.tree.Consistent) : ∃ t₁ parent, Replaced w.tree t₁ id new parent ∧ Recounted t₁ w'.tree v := by
  obtain ⟨w₁, w₂, hreplace, hcount, htree⟩ := hput
  obtain ⟨⟨parent, hr⟩, -⟩ := replaceNode_eq_ok hc hreplace
  exact ⟨w₁.tree, parent, hr, leads_recounted hr.consistent v source htree hcount⟩

/-- A finished look: a new node has taken the place, and a variable was counted again. -/
theorem leads_replaceAndRecount {tags : ChangeTags} {source : SourceRef} {message : String} {result : α}
    (hc : t.Consistent) : Leads t (do
      replaceNode id new
      signal tags source message
      reconsiderVariable v source
      return result) fun a t' => a = result ∧ ∃ t₁ parent, Replaced t t₁ id new parent ∧ Recounted t₁ t' v := by
  rintro s w a w' rfl hrun
  obtain ⟨rfl, hput⟩ := replaceThrough_eq_ok hrun
  exact ⟨rfl, hput.recounted hc⟩

/-- What a look may do at a node: nothing, or replace it and count the variable again that it goes through. -/
def LooksThrough (t : Tree) (id : NodeId) (through? : Option VariableId) (id' : NodeId) (t' : Tree) : Prop :=
  id' = id ∧ t' = t ∨ id' ≠ id ∧ ∃ v, through? = some v ∧ Accounts t t' id (some v)

theorem leads_idle {through? : Option VariableId} : Leads t (pure id) (LooksThrough t id through?) :=
  leads_ret (.inl ⟨rfl, rfl⟩)

/-- The accounts of a look that replaces: whatever is lost below the node is known. -/
theorem accounts_of_replaced {t₂ : Tree} (h : Reshaped torn t t₁) (hid : id.index < t.nodes.size)
    (hr : Replaced t₁ t₂ id new parent) (hcount : Recounted t₂ t' v)
    (htorn : ∀ {a}, torn a → a.index < t.nodes.size ∧ t.Below a id)
    (hlosses : ∀ {x u}, t.Mentions x u → t.Below x id → t₂.get? x = none → u = v ∨ t.InDiscardable id x) :
    Accounts t t' id (some v) := by
  refine ⟨fun {u} hu => ?_, ?_, fun {x u} hreads hgone => ?_⟩
  · rw [hcount.others u (fun e => hu (e ▸ rfl)), usage?_of_bindings hr.bindings, usage?_of_bindings h.bindings]
  · rintro _ ⟨⟩
    exact hcount.count
  · rw [get?, hcount.nodes] at hgone
    obtain ⟨n, hn⟩ := hreads.live
    have hbelow : t.Below x id := by
      rcases h.lost_of_replaced hr hid hn hgone with ⟨a, ha, hxa⟩ | hx
      · obtain ⟨hlt, haid⟩ := htorn ha
        exact (hxa hlt).trans haid
      · exact hx
    exact (hlosses hreads hbelow hgone).imp_left fun e => congrArg some e.symm

/-! ## Calls and names -/

/-- What is built without a change being announced is nothing. -/
theorem Preparing.tree_eq {x : ReplaceM α} {p : α → Prop} {b : α} (hx : Preparing torn x) (hcautious : Cautious p x)
    (hc : w.tree.Consistent) (hrun : x s w = .ok b w') (hb : p b) : w'.tree = w.tree := by
  have hchanges := (hx hc hrun).changes
  obtain ⟨-, htree, -, -⟩ := (hcautious.rests hrun hb (by rw [hchanges]) w.tree rfl).eq_of_ok hrun
  exact htree

/-- What a handler has done for a call. -/
structure Handled (t : Tree) (site : CallSite) (new? : Option NodeId) (t₁ : Tree) : Prop where
  reshaped : Reshaped (· ∈ site.arguments) t t₁
  idle : new? = none → t₁ = t
  prepared : ∀ {new hole}, new? = some new → t.Arguments hole site.arguments →
    Prepared t hole site.arguments new t₁

theorem leads_handled {handler : CallHandler} (hprepares : Preparing (· ∈ site.arguments) (handler site))
    (hcautious : Cautious (· = none) (handler site)) (hkeeps : KeepsEvaluation handler) (hc : t.Consistent) :
    Leads t (handler site) (Handled t site) := by
  rintro s w new? w' rfl hrun
  refine ⟨(hprepares hc hrun).reshaped, fun hnone => hprepares.tree_eq hcautious hc hrun hnone, ?_⟩
  rintro new hole rfl hargs
  exact hkeeps.builds hc hargs hrun

/-- An argument that is gone could be thrown away. -/
theorem Prepared.inDiscardable (h : Prepared t id args new t₁) (hr : Replaced t₁ t' id new parent) (hc : t.Consistent)
    (hargs : t.Arguments id args) (ha : a ∈ args) (hxa : t.Below x a) (hx : t.get? x = some n)
    (hgone : t'.get? x = none) : t.InDiscardable id x := by
  have kept (hsame : t.SameBelow t' a) : t.InDiscardable id x := by
    obtain ⟨p, hx'⟩ := hsame.get? hxa hx
    cases hx'.symm.trans hgone
  -- the new node evaluates all arguments, or raises after those that can be noticed
  rcases h with h | h
  · exact kept ((h.evaluatesAll (h.holding.toGathered.installed h.fresh hr)).unchanged a ha)
  · have hraises := h.raisesInstead (h.gathered.installed h.fresh hr)
    by_cases hobservable : a ∈ t.observable args
    · exact kept (hraises.unchanged a hobservable)
    · refine ⟨a, ⟨hargs.below a ha, .inr ?_⟩, hxa⟩
      obtain ⟨q, hq, -⟩ := hargs.holder ha
      obtain ⟨m, hm, -⟩ := parent?_eq_some_iff.1 hq
      obtain ⟨noticed, hnoticed⟩ := hc.isObservable_ok hm
      cases noticed with
      | false => exact hnoticed
      | true => exact absurd (List.mem_filter.2 ⟨ha, by simpa using (hc.isObservable_iff hm).1 hnoticed⟩) hobservable

theorem leads_replaceCall_accounts {handlers : DispatchTable String CallHandler}
    (hhandlers : ∀ {name handler}, handlers.lookup? name = some handler → ∀ site, Leads t (handler site) (Handled t site))
    (hc : t.Consistent) : Leads t (replaceCall handlers id) (LooksThrough t id (t.calledThrough? id)) := by
  refine leads_tree (leads_look looks_version fun version => ?_)
  split
  case h_2 => exact leads_idle
  next v name hcalled =>
  split
  case h_2 => exact leads_idle
  next handler hhandler =>
  refine leads_ask fun site? hread => ?_
  cases site? with
  | none => exact leads_idle
  | some site =>
  refine (hhandlers hhandler site).bind fun new? t₁ h₁ => ?_
  cases new? with
  | none => exact leads_ret (.inl ⟨rfl, h₁.idle rfl⟩)
  | some new =>
  refine leads_ask fun tags _ => leads_ask fun kind _ => ?_
  refine (leads_replaceAndRecount h₁.reshaped.consistent).mono ?_
  rintro _ t' ⟨rfl, t₂, parent, hr, hcount⟩
  obtain ⟨n, hn, hkind⟩ := calledBuiltin?_live hcalled
  obtain ⟨-, hargs⟩ := hc.read_eq_ok hn hkind hread
  refine .inr ⟨hr.ne, v, (calledThrough?_of_builtin hcalled).1, ?_⟩
  refine accounts_of_replaced h₁.reshaped (lt_size_of_get? hn) hr hcount (fun {a} ha => ?_) fun {x u} hreads hx hgone => ?_
  · exact ⟨hargs.index_lt ha, (hargs.below a ha).to_reflTransGen⟩
  · obtain ⟨m, hm⟩ := hreads.live
    rcases hc.mentions_below_call hcalled hread hx hreads with rfl | ⟨a, ha, hxa⟩
    · exact .inl rfl
    · exact .inr ((h₁.prepared rfl hargs).inDiscardable hr hc hargs ha hxa hm hgone)

/-- What a call reads that makes up a statement is what the statement reads. -/
theorem below_statement {call : NodeId} (hc : t.Consistent) (hn : t.get? id = some n)
    (hkind : n.kind = .statementExpressionOnly) (hcall : t.child id "expression" = .ok (some call)) (hx : t.Below x id)
    (hreads : t.Mentions x u) : t.Below x call := by
  obtain ⟨c, hmem, hxc⟩ := hc.mentions_below hn (by rw [hkind]; decide) hx hreads
  obtain ⟨spec, hspec, one, -⟩ := hc.exists_place hn hmem
  rw [hkind] at hspec
  obtain rfl := List.mem_singleton.1 hspec
  cases one hcall
  exact hxc

theorem leads_replaceExecStatement_accounts (hc : t.Consistent) : Leads t (replaceExecStatement id) fun new? t' =>
    new? = none ∧ t' = t ∨ ∃ new, new? = some new ∧
      LooksThrough t id ((t.calledThrough? id).or (t.statedThrough? id)) new t' := by
  rintro s w new? w' rfl hrun
  obtain ⟨rfl, rfl⟩ | ⟨new, call, v, name, site, bound, slots, w₁, t₂, rfl, hkind, hcall, hcalled, hread, hbind, horder,
    hslots, hmake, hput⟩ := replaceExecStatement_eq_ok hrun
  · exact .inl ⟨rfl, rfl⟩
  have hthrough := through_of_stated hkind hcall (calledThrough?_of_builtin hcalled).1
  obtain ⟨n, hn, hkind⟩ := kind_eq_ok_iff.1 hkind
  obtain ⟨m, hm, hmkind⟩ := calledBuiltin?_live hcalled
  obtain ⟨-, hargs⟩ := hc.read_eq_ok hm hmkind hread
  have hargs := hargs.above hn (hc.isParent_of_child hcall)
  -- the new statement holds the arguments, and nothing has been torn down
  have hassembled := (holding_execfileSlots hc hargs hbind horder hslots).assembled (by decide) hmake
  have hprepared : Reshaped (fun _ => False) w.tree w₁.tree := (preparing_execfileSlots site bound hc hslots).reshaped
  have hreshaped := hprepared.trans (.newNode hprepared.consistent (by decide) hmake)
  obtain ⟨t₃, parent, hr, hcount⟩ := hput.recounted hreshaped.consistent
  refine .inr ⟨new, rfl, .inr ⟨hr.ne, v, hthrough, ?_⟩⟩
  refine accounts_of_replaced hreshaped (lt_size_of_get? hn) hr hcount False.elim fun {x u} hreads hx hgone => ?_
  obtain ⟨k, hk⟩ := hreads.live
  rcases hc.mentions_below_call hcalled hread (below_statement hc hn hkind hcall hx hreads) hreads with rfl | ⟨a, ha, hxa⟩
  · exact .inl rfl
  · exact .inr (Prepared.inDiscardable (.inl hassembled) hr hc hargs ha hxa hk hgone)

theorem leads_replaceCriticalBuiltin_accounts (hc : t.Consistent) : Leads t (replaceCriticalBuiltin id)
    (LooksThrough t id ((t.calledThrough? id).or (t.statedThrough? id))) := by
  refine (leads_replaceExecStatement_accounts hc).bind fun new? t₁ h₁ => ?_
  rcases h₁ with ⟨rfl, rfl⟩ | ⟨new, rfl, h₁⟩
  · have hcall : Leads t₁ (replaceCall CallHandler.critical id) (LooksThrough t₁ id (t₁.calledThrough? id)) :=
      leads_replaceCall_accounts (fun h site => leads_handled (preparing_critical site h) (cautious_critical site h)
        (keepsEvaluation_critical h) hc) hc
    refine hcall.mono fun id' t' => ?_
    rintro (hidle | ⟨hne, v, hthrough, h⟩)
    · exact .inl hidle
    · exact .inr ⟨hne, v, by rw [hthrough]; rfl, h⟩
  · exact leads_ret h₁

theorem leads_replaceOptionalBuiltin_accounts (hc : t.Consistent) :
    Leads t (replaceOptionalBuiltin id) (LooksThrough t id (t.calledThrough? id)) :=
  leads_replaceCall_accounts (fun h site => leads_handled (preparing_optional site h) (cautious_optional site h)
    (keepsEvaluation_optional h) hc) hc

theorem leads_replaceName_accounts (hc : t.Consistent) :
    Leads t (replaceName id) (LooksThrough t id (t.readThrough? id)) := by
  refine leads_tree ?_
  split
  case h_2 => exact leads_idle
  next v b hname =>
  refine leads_ask fun source _ => ?_
  have hmake : Leads t (makeNamed b.name source) fun made? t₁ => Reshaped (fun _ => False) t t₁ ∧ (made? = none → t₁ = t) := by
    rintro s w made? w' rfl hrun
    have hprepares : Preparing (fun _ => False) (makeNamed b.name source) := preparing_makeNamed b.name source
    exact ⟨(hprepares hc hrun).reshaped, fun hnone => hprepares.tree_eq (cautious_makeNamed ..) hc hrun hnone⟩
  refine hmake.bind fun made? t₁ ⟨hreshaped, hidle⟩ => ?_
  cases made? with
  | none => exact leads_ret (.inl ⟨rfl, hidle rfl⟩)
  | some made =>
  refine (leads_replaceAndRecount hreshaped.consistent).mono ?_
  rintro _ t' ⟨rfl, t₂, parent, hr, hcount⟩
  obtain ⟨n, hn, -⟩ := Plan.readOnlyVariable?_eq_some hname
  refine .inr ⟨hr.ne, v, (readThrough?_of_readOnly hname).1, ?_⟩
  exact accounts_of_replaced hreshaped (lt_size_of_get? hn) hr hcount False.elim fun hreads hx _ =>
    .inl (hc.mentions_below_name hname hx hreads)

/-! ## Computations -/

/-- What a computation offers for a node costs no references but those in operands that may be thrown away, neither so
far nor when it takes the place of the node. -/
structure FrugalOffer (t : Tree) (id : NodeId) (c : Computed) (t₁ : Tree) : Prop where
  consistent : t₁.Consistent
  bindings : t₁.bindings = t.bindings
  lost : ∀ {x u}, t.Mentions x u → t₁.get? x = none → t.InDiscardable id x
  rest : c.isChanged = true → c.node ≠ id → ∀ {x u}, t.Mentions x u → t₁.Below x id → t.InDiscardable id x

namespace FrugalOffer

variable {c : Computed}

theorem of_reshaped (h : Reshaped (t.Discardable id) t t₁)
    (hrest : c.isChanged = true → c.node ≠ id → ∀ {x u}, t.Mentions x u → t₁.Below x id → t.InDiscardable id x) :
    FrugalOffer t id c t₁ := by
  refine ⟨h.consistent, h.bindings, fun hreads hgone => ?_, hrest⟩
  obtain ⟨n, hn⟩ := hreads.live
  obtain ⟨a, ha, hxa⟩ := h.lost hn hgone
  obtain ⟨p, hp, -⟩ := Relation.TransGen.head'_iff.1 ha.below
  obtain ⟨m, hm, -⟩ := parent?_eq_some_iff.1 hp
  exact ⟨a, ha, hxa (lt_size_of_get? hm)⟩

/-- Nothing is torn down, and the node gives way only if it reads nothing. -/
theorem of_unread (h : Reshaped (fun _ => False) t t₁) (hid : id.index < t.nodes.size)
    (hunread : c.isChanged = true → t.Unread id) : FrugalOffer t id c t₁ :=
  of_reshaped (h.mono nofun) fun hchanged _ _ _ hreads hx => absurd hreads (hunread hchanged (h.below hid hx))

theorem itself (hc : t.Consistent) (hchange : c.change = none) : FrugalOffer t id c t :=
  of_reshaped (.refl hc) fun hchanged => by simp [Computed.isChanged, hchange] at hchanged

end FrugalOffer

/-- What folding offers for an operation. -/
theorem Folds.frugal {handler : FoldHandler} (h : Folds n.kind handler) (hc : t.Consistent) (hn : t.get? id = some n)
    (hkind : n.kind ≠ .variableRef) : Leads t (handler id) (FrugalOffer t id) := by
  rintro s w c w' rfl hrun
  rcases h.of_ok hc hn rfl hrun with ⟨hchange, htree⟩ | ⟨hleaf, hoperands⟩
  · rw [htree]
    exact .itself hc hchange
  refine ⟨hleaf.consistent hc, ?_, fun hreads hgone => ?_, fun _ _ x u hreads hx => ?_⟩
  · obtain ⟨kind, source, payload, -, -, htree⟩ := hleaf
    rw [htree, bindings_addNode]
  · obtain ⟨m, hm⟩ := hreads.live
    cases (hleaf.get? hm).symm.trans hgone
  · obtain ⟨operand, hmem, hxo⟩ := hc.mentions_below hn hkind (hleaf.below_iff.1 hx) hreads
    rcases hoperands operand hmem with hknown | ⟨hspace, -⟩
    · exact absurd hreads (hknown.unread hc hxo)
    · exact ⟨operand, ⟨.single ((hc.isParent_iff hn).2 hmem), .inl hspace⟩, hxo⟩

/-- Putting what was offered in its place counts nothing. -/
theorem leads_applyComputed_accounts {c : Computed} (h : FrugalOffer t id c t₁) :
    Leads t₁ (applyComputed id c) fun _ t' => Accounts t t' id none := by
  have hkept : Accounts t t₁ id none :=
    ⟨fun _ => usage?_of_bindings h.bindings _, nofun, fun hreads hgone => .inr (h.lost hreads hgone)⟩
  unfold applyComputed
  split
  · exact leads_ret hkept
  next tags description hchange =>
  refine leads_ask fun source _ => ?_
  split
  · exact leads_look (looks_signal ..) fun _ => leads_ret hkept
  next hother =>
  refine (leads_replaced h.consistent).bind fun _ t₂ ⟨parent, hr⟩ => leads_look (looks_signal ..) fun _ => leads_ret ?_
  refine ⟨fun {u} hu => ?_, nofun, fun {x u} hreads hgone => .inr ?_⟩
  · rw [usage?_of_bindings hr.bindings]
    exact hkept.usage hu
  · cases hx₁ : t₁.get? x with
    | none => exact h.lost hreads hx₁
    | some n₁ =>
      refine h.rest (by simp [Computed.isChanged, hchange]) hother hreads ?_
      by_contra hnot
      rw [hr.node hnot, hx₁] at hgone
      cases hgone

theorem leads_foldOperation_accounts (hc : t.Consistent) :
    Leads t (foldOperation id) fun _ t' => Accounts t t' id none := by
  refine leads_ask fun kind hkind => ?_
  split
  case h_2 => exact leads_ret (.refl t id)
  next key hkey =>
  split
  case h_2 => exact leads_ret (.refl t id)
  next handler hhandler =>
  obtain ⟨n, hn, rfl⟩ := kind_eq_ok_iff.1 hkind
  have hnot : n.kind ≠ .variableRef := fun e => by
    rw [e] at hkey
    cases hkey
  exact ((folds_of_lookup? hkey hhandler).frugal hc hn hnot).bind fun _ _ h => leads_applyComputed_accounts h

/-- Without side effects and without its expression, nothing is left below the node. -/
theorem eq_of_below_emptied {t₂ t₃ : Tree} {expression : NodeId} (h₂ : t₂.Consistent) (hn : t₂.get? id = some n)
    (hkind : n.kind = .sideEffects) (hnone : t₂.childrenIn id "side_effects" = .ok [])
    (hexpression : t₂.child id "expression" = .ok (some expression)) (h₃ : Reshaped torn t₂ t₃)
    (hloose : t₃.parent? expression = none) (hx : t₃.Below x id) : x = id := by
  rcases Relation.ReflTransGen.cases_tail hx with rfl | ⟨c, -, hp⟩
  · rfl
  have hp₂ := h₃.link (lt_size_of_get? hn) hp
  obtain ⟨spec, hspec, one, many⟩ := h₂.exists_place hn ((h₂.isParent_iff hn).1 hp₂)
  rw [hkind] at hspec
  rcases List.mem_pair.1 hspec with rfl | rfl
  · cases many hnone
  · cases one hexpression
    rw [IsParent, hloose] at hp
    cases hp

theorem gives_computeSideEffects_frugal (hc : t.Consistent) (hn : t.get? id = some n) (hkind : n.kind = .sideEffects) :
    Gives t (TreeM.computeSideEffects id) (FrugalOffer t id) := by
  refine gives_get (gives_check fun effects heffects => ?_)
  refine (gives_filterM effects fun effect _ => gives_check fun b _ => gives_ret rfl).bind ?_
  rintro dropped t₁ ⟨rfl, hdropped⟩
  dsimp only
  split
  · exact gives_ret (.itself hc rfl)
  have hdiscardable : ∀ a ∈ dropped, t₁.Discardable id a := by
    intro a ha
    obtain ⟨hmem, htest⟩ := hdropped a ha
    refine ⟨.single (hc.isParent_of_childrenIn heffects hmem), .inr ?_⟩
    obtain ⟨noticed, hnoticed, htest⟩ := run_check_eq_ok_iff.1 htest
    cases noticed with
    | false => exact hnoticed
    | true => cases htest
  have hdiscard : Gives t₁ (TreeM.discardAll dropped) fun _ => Reshaped (t₁.Discardable id) t₁ :=
    fun _ _ hrun => Shapes.discardAll hdiscardable hc hrun
  refine hdiscard.bind fun _ t₂ h₂ => gives_query fun left hleft => ?_
  split
  · next hempty =>
    refine (gives_detachSlot_loose (t₁.Discardable id) h₂.consistent).bind fun expression? t₃ ⟨h₃, hexpression⟩ => ?_
    cases expression? with
    | none => exact gives_ret (.of_reshaped (h₂.trans h₃) fun _ hne => absurd rfl hne)
    | some expression =>
      obtain ⟨hchild, hloose⟩ := hexpression expression rfl
      refine gives_ret (.of_reshaped (h₂.trans h₃) fun _ _ x u hreads hx => ?_)
      -- the node alone is torn down, since its expression takes its place
      obtain ⟨n₂, i, hn₂, -⟩ := child_eq_ok hchild
      obtain ⟨m, hm, hkeeps⟩ := h₂.old (lt_size_of_get? hn) hn₂
      obtain rfl := Option.some.inj (hn.symm.trans hm)
      obtain rfl := eq_of_below_emptied h₂.consistent hn₂ (hkeeps.kind.trans hkind) (List.isEmpty_iff.1 hempty ▸ hleft)
        hchild h₃ hloose hx
      have hreads := (hreads.kind_eq hn).1
      rw [hkind] at hreads
      cases hreads
  · exact gives_ret (.of_reshaped h₂ fun _ hne => absurd rfl hne)

/-- An import of a name gives way only if its module is a hard import, which has nothing below it. -/
theorem leads_computeImportName_unread {name : String} {source : SourceRef} (hc : t.Consistent) (hn : t.get? id = some n)
    (hkind : n.kind = .importName) :
    Leads t (computeImportName id name source) fun c _ => c.isChanged = true → t.Unread id := by
  have hstays {kind : ExceptionKind} {source : SourceRef} {t' : Tree} :
      Leads t' (recordExit kind source >>= fun _ => pure (Computed.unchanged id)) fun c _ =>
        c.isChanged = true → t.Unread id :=
    leads_look (looks_recordExit ..) fun _ => leads_ret nofun
  refine leads_ask fun module? hmodule => ?_
  split
  · refine Leads.bind (R := fun payload? _ => payload? = none) (leads_ret rfl) fun payload? t' hp => ?_
    subst hp
    exact hstays
  next module =>
  refine leads_ask fun payload hpayload => ?_
  refine Leads.bind (R := fun payload? _ => payload? = some payload) (leads_ret rfl) fun payload? t' hp => ?_
  subst hp
  dsimp only
  split
  · exact hstays
  next hard hhard =>
  obtain ⟨m, hm, hret⟩ := bind_eq_ok_iff.1 hpayload
  cases hret
  have hform : m.kind.payloadForm = .hardImport := by
    rw [← (hc.conforms (node_eq_ok_iff.1 hm)).payload]
    simp only [Option.bind_some, hardModule?] at hhard
    split at hhard
    · next hp => rw [hp]; rfl
    · cases hhard
  have hall : ∀ kind ∈ NodeKind.all, kind.payloadForm = .hardImport → kind ≠ .variableRef ∧ kind.slots = [] := by decide
  obtain ⟨hmkind, hslots⟩ := hall m.kind m.kind.mem_all hform
  have hleaf : t.Unread module :=
    hc.unread_of_children (node_eq_ok_iff.1 hm) hmkind (by simp [hc.children_of_slots (node_eq_ok_iff.1 hm) hslots])
  have hunread : t.Unread id := by
    refine hc.unread_of_children hn (by rw [hkind]; decide) fun c hmem => ?_
    obtain ⟨spec, hspec, one, -⟩ := hc.exists_place hn hmem
    rw [hkind] at hspec
    obtain rfl := List.mem_singleton.1 hspec
    cases one hmodule
    exact hleaf
  exact fun _ _ _ _ _ _ _ => hunread

theorem leads_computeNode_frugal (hc : t.Consistent) : Leads t (computeNode id) (FrugalOffer t id) := by
  have hunchanged : Leads t (pure (Computed.unchanged id)) (FrugalOffer t id) := leads_ret (.itself hc rfl)
  refine leads_ask fun n hnode => ?_
  have hn := node_eq_ok_iff.1 hnode
  have hlt := lt_size_of_get? hn
  split
  · split
    · exact leads_look (looks_recordExit ..) fun _ => leads_look looks_abort fun _ => hunchanged
    · exact leads_look looks_abort fun _ => hunchanged
  · next hkind => exact .onTree (gives_computeSideEffects_frugal hc hn hkind)
  · exact leads_look (looks_recordExit ..) fun _ => hunchanged
  · next hkind =>
    refine ((folds_foldBuiltin n.kind Signature.range).frugal hc hn (by rw [hkind]; decide)).bind fun c t₁ h₁ => ?_
    split
    · exact leads_ret h₁
    · exact leads_look (looks_recordExit ..) fun _ => leads_ret h₁
  · next hkind =>
    split
    · rintro s w c w' rfl hrun
      have hunread : w.tree.Unread id :=
        hc.unread_of_children hn (by rw [hkind]; decide) (by simp [hc.children_of_slots hn (by rw [hkind]; rfl)])
      exact .of_unread (preparing_computeImportModule id _ _ hc hrun).reshaped hlt fun _ => hunread
    · exact hunchanged
  · next hkind =>
    split
    · rintro s w c w' rfl hrun
      exact .of_unread (preparing_computeImportName id _ _ hc hrun).reshaped hlt
        (leads_computeImportName_unread hc hn hkind rfl hrun)
    · exact hunchanged
  · exact leads_look (looks_recordExit ..) fun _ => hunchanged
  · split
    · exact leads_look (looks_recordExit ..) fun _ => hunchanged
    · exact hunchanged

/-! ## Steps -/

/-- **The accounts of a computation.** -/
theorem compute_accounts (hc : t.Consistent) :
    Leads t (computeNode id >>= applyComputed id) fun _ t' => Accounts t t' id none :=
  (leads_computeNode_frugal hc).bind fun _ _ h => leads_applyComputed_accounts h

theorem LooksThrough.accounts {through? : Option VariableId} (h : LooksThrough t id through? id' t') :
    Accounts t t' id (if id' = id then none else through?) := by
  rcases h with ⟨rfl, rfl⟩ | ⟨hne, v, hthrough, h⟩
  · rw [if_pos rfl]
    exact .refl t' id'
  · rw [if_neg hne, hthrough]
    exact h

/-- **The accounts of a look.** -/
theorem enter_accounts (visitor : Visitor) (hc : t.Consistent) : Leads t (visitor.enter id) fun id' t' =>
    Accounts t t' id (Step.recounted? ⟨some visitor, id, t, id', t'⟩) := by
  cases visitor with
  | criticalBuiltins => exact (leads_replaceCriticalBuiltin_accounts hc).mono fun _ _ h => h.accounts
  | optionalBuiltins => exact (leads_replaceOptionalBuiltin_accounts hc).mono fun _ _ h => h.accounts
  | exceptionNames => exact (leads_replaceName_accounts hc).mono fun _ _ h => h.accounts
  | constantFolding =>
    refine (leads_foldOperation_accounts hc).mono fun id' t' h => ?_
    have hnone : Step.recounted? ⟨some .constantFolding, id, t, id', t'⟩ = none := by simp [Step.recounted?, Look.through?]
    rw [hnone]
    exact h

end ReplaceM

end Specializer
