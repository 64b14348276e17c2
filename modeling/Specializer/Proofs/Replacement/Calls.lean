import Specializer.Proofs.Replacement.Builtins
import Specializer.Replacement.Names

/-!
# Replacing calls and names

A call of a builtin, an execution of a file as a statement, and a reference to a known name are replaced through the
variable they read. Whatever the table of handlers is, as long as every handler does its part (`Plan.Handles`), a look at
any node in the tree settles it.
-/

namespace Specializer

namespace Plan

open Specializer.Tree ReplaceM

/-- A handler does its part: it keeps the call, or builds a node for its place out of what the call leaves. -/
structure Handles (located : ModuleName → Prop) (s : Settings) (handler : CallHandler) : Prop where
  ensures : ∀ {P₀ t₀ P parent weight site} {w : Workspace},
    Ready located P₀ t₀ P w.tree site.call parent site.arguments [] weight →
    Ensures located s (handler site) w
      (Handled located P₀ t₀ site.call parent (weight + 5 + 2 * site.keywords.length) w)

/-! ## Handlers by name -/

section Tables

variable {located : ModuleName → Prop} {s : Settings} {name : String} {handler : CallHandler}

theorem handles_specialize {signature : Signature} {kind : NodeKind} (h : Suits signature kind) :
    Handles located s (specialize signature kind) :=
  ⟨specialize_ensures h⟩

theorem handles_critical (h : CallHandler.critical.lookup? name = some handler) : Handles located s handler := by
  refine DispatchTable.of_lookup? (p := fun e => Handles located s e.2) (DispatchTable.forall_ofList ?_)
    (fun _ hf => nomatch (DispatchTable.fallback_ofList _).symm.trans hf) h
  simp only [List.forall_mem_cons]
  refine ⟨?_, ?_, ?_, ?_, ?_, by simp⟩
  · exact handles_specialize (by constructor <;> decide)
  · exact ⟨fun hready => specializeLocals_ensures hready rfl⟩
  · exact handles_specialize (by constructor <;> decide)
  · exact ⟨specializeExec_ensures⟩
  · exact ⟨specializeExecfile_ensures⟩

theorem handles_optional (h : CallHandler.optional.lookup? name = some handler) : Handles located s handler := by
  have hfallback : ∀ handler, CallHandler.optional.fallback = some handler → Handles located s handler := by
    rintro _ ⟨⟩
    exact ⟨specializeException_ensures⟩
  refine DispatchTable.of_lookup? (t := CallHandler.optional) (p := fun e => Handles located s e.2)
    (DispatchTable.forall_ofList ?_) hfallback h
  simp only [List.forall_mem_cons]
  refine ⟨⟨specializeDir_ensures⟩, ⟨fun hready => specializeVars_ensures hready rfl⟩, ?_, ?_, ?_, ?_, ?_, ?_,
    ⟨specializeType_ensures⟩, ?_, ?_, ?_, ?_, ?_, ⟨specializeDict_ensures⟩, ?_, ?_, ?_, ?_, ⟨specializeLong_ensures⟩,
    ⟨specializeRepr_ensures⟩, ?_, by simp⟩
  case refine_7 | refine_8 =>
    refine ⟨fun hready => specializeOneOrTwo_ensures hready rfl (fun _ => rfl) (fun _ _ => rfl) ?_⟩
    rintro kind (rfl | rfl) <;> decide
  all_goals exact handles_specialize (by constructor <;> decide)

end Tables

/-! ## Reading through variables -/

section Reading

variable {located : ModuleName → Prop} {P : Plan} {t : Tree} {id : NodeId} {v : VariableId}

theorem readOnlyVariable?_eq_some {b : Variable} (h : t.readOnlyVariable? id = some (v, b)) :
    ∃ n, t.get? id = some n ∧ n.kind = .variableRef ∧ n.payload = .var v ∧ t.bindings[v.index]? = some b := by
  unfold readOnlyVariable? at h
  obtain ⟨n, hn, h⟩ := Option.bind_eq_some_iff.1 h
  obtain ⟨⟨⟩, hkind, h⟩ := Option.bind_eq_some_iff.1 h
  obtain ⟨v', hv', h⟩ := Option.bind_eq_some_iff.1 h
  obtain ⟨b', hb', h⟩ := Option.bind_eq_some_iff.1 h
  obtain ⟨-, -, h⟩ := Option.bind_eq_some_iff.1 h
  cases h
  refine ⟨n, hn, by simpa using hkind, ?_, hb'⟩
  unfold Node.referent? at hv'
  split at hv'
  · next hpayload => rw [hpayload, Option.some.inj hv']
  · cases hv'

theorem calledBuiltin?_eq_some {version : Version} {name : String} (h : t.calledBuiltin? version id = some (v, name)) :
    ∃ n called b, t.get? id = some n ∧ n.kind = .functionCall ∧ t.child id "called" = .ok (some called) ∧
      t.readOnlyVariable? called = some (v, b) := by
  unfold calledBuiltin? at h
  obtain ⟨n, hn, h⟩ := Option.bind_eq_some_iff.1 h
  obtain ⟨⟨⟩, hkind, h⟩ := Option.bind_eq_some_iff.1 h
  obtain ⟨called, hcalled, h⟩ := Option.bind_eq_some_iff.1 h
  obtain ⟨⟨v', b⟩, hread, h⟩ := Option.bind_eq_some_iff.1 h
  obtain ⟨-, -, h⟩ := Option.bind_eq_some_iff.1 h
  cases h
  refine ⟨n, called, b, hn, by simpa using hkind, ?_, hread⟩
  cases hchild : t.child id "called" with
  | error e => simp [hchild, Except.toOption] at hcalled
  | ok called? => simpa [hchild, Except.toOption] using hcalled

/-- A builtin is called through a variable of a scope around the call. -/
theorem Fits.calledBuiltin?_eq_some {version : Version} {name : String} (h : P.Fits located t none)
    (hx : t.Reachable id) (hcall : t.calledBuiltin? version id = some (v, name)) :
    ∃ n b, t.get? id = some n ∧ n.kind = .functionCall ∧ ¬ t.IsMethodCall n ∧ t.bindings[v.index]? = some b ∧
      P.scopes id b.owner := by
  have hc := h.built.consistent
  obtain ⟨n, called, b, hn, hkind, hcalled, hread⟩ := Plan.calledBuiltin?_eq_some hcall
  obtain ⟨m, hm, hmkind, hpayload, hb⟩ := readOnlyVariable?_eq_some hread
  obtain ⟨c?, hchild, hslot⟩ := hc.child_ok hn "called" (by rw [hkind]; decide)
  obtain rfl : c? = some called := Except.ok.inj (hchild.symm.trans hcalled)
  have hin := h.inside_of_reachable hx nofun
  have hmem : called ∈ n.children := Node.mem_children_of_inSlot (show called ∈ n.inSlot "called" by simp [hslot])
  have hu := h.child hn hin.1 hmem
  have hcin : P.Inside called := h.inside_child hn hin hmem
  obtain ⟨b', hb', howner⟩ := (h.good hm hcin).owner hmkind v hpayload
  obtain rfl : b' = b := Option.some.inj (hb'.symm.trans hb)
  refine ⟨n, b', hn, hkind, ?_, hb, ?_⟩
  · rintro ⟨a, ha, m', hm', hattr⟩
    obtain rfl : a = called := by simpa [hslot] using ha
    obtain rfl : m' = m := Option.some.inj (hm'.symm.trans hm)
    rw [hmkind] at hattr
    cases hattr
  · exact hu.scopes_of_not_scope (by rw [hkind]; rfl) howner

end Reading

/-! ## Calls -/

theorem Settled.refl {located : ModuleName → Prop} {P : Plan} {w : Workspace} {id parent : NodeId}
    (h : P.Fits located w.tree none) (hplaced : Placed w.tree id parent) : Settled located P w id parent id w :=
  ⟨P, .refl _ h, hplaced, Nat.le_refl _⟩

theorem Opening.ready {located : ModuleName → Prop} {P : Plan} {t : Tree} {hole parent : NodeId} {site : CallSite}
    {ids : List NodeId} (ho : Opening P t hole site ids) (h : P.Fits located t none) (hplaced : Placed t hole parent)
    (hkind : ∀ n, t.get? hole = some n → n.kind ≠ .keyValuePair ∧ n.kind ≠ .attributeLookup) :
    ∃ weight, Ready located P t (P.giveUp ids) t hole parent site.arguments [] weight ∧
      weight + 7 + 2 * site.keywords.length ≤ t.weight P.credit := by
  have hcredit := ho.credit
  have hlive : ∀ c ∈ ids, ∃ n, t.get? c = some n := by
    intro c hc
    rcases ho.closed c hc with rfl | ⟨q, -, hq⟩
    · exact hplaced.live
    · exact (parent?_eq_some_iff.1 hq).imp fun _ => And.left
  have hclear := weight_clear P.credit ho.nodup hlive
  refine ⟨t.weight P.credit - (7 + 2 * site.keywords.length), ?_, by omega⟩
  exact Ready.ofFits h hplaced.held hplaced.reach hkind ho.nodup ho.mem ho.closed ho.arguments ho.movable (by omega)

theorem classifyReplacement_ok {t : Tree} {id : NodeId} {n : Node} (h : t.Consistent) (hn : t.get? id = some n) :
    ∃ tags, t.classifyReplacement id = .ok tags := by
  rw [classifyReplacement, node_of_get? hn, ok_bind]
  split
  · exact ⟨_, rfl⟩
  · exact ⟨_, rfl⟩
  · next hkind =>
    obtain ⟨c?, hchild, hslot⟩ := h.child_ok hn "expression" (by rw [hkind]; decide)
    rw [hchild, ok_bind]
    cases c? with
    | none => exact ⟨_, rfl⟩
    | some c =>
      obtain ⟨m, hm, -⟩ := h.held hn (Node.mem_children_of_inSlot (show c ∈ n.inSlot "expression" by simp [hslot]))
      simp only [kind_ok hm, ok_bind]
      split <;> exact ⟨_, rfl⟩
  · split <;> exact ⟨_, rfl⟩
  · exact ⟨_, rfl⟩
  · exact ⟨_, rfl⟩

section Calls

variable {located : ModuleName → Prop} {s : Settings} {P : Plan} {w : Workspace} {id parent : NodeId}

/-- **A look at a call settles it**, whatever the handlers are. -/
theorem replaceCall_ensures {handlers : DispatchTable String CallHandler} (h : P.Fits located w.tree none)
    (hplaced : Placed w.tree id parent)
    (hhandlers : ∀ {name handler}, handlers.lookup? name = some handler → Handles located s handler) :
    Ensures located s (replaceCall handlers id) w (Settled located P w id parent) := by
  have hx := hplaced.reachable
  refine .bind_ok tree_ok (.bind_ok version_ok ?_)
  cases hcalled : w.tree.calledBuiltin? s.options.version id with
  | none => exact .ret (.refl h hplaced)
  | some found =>
    obtain ⟨v, name⟩ := found
    obtain ⟨n, b, hn, hkind, hplain, hb, howner⟩ := h.calledBuiltin?_eq_some hx hcalled
    have hin := h.inside_of_reachable hx nofun
    dsimp only
    cases hhandler : handlers.lookup? name with
    | none => exact .ret (.refl h hplaced)
    | some handler =>
      obtain ⟨site?, hread, hmeans⟩ := h.read_ok hn hin hkind v name
      refine .bind_ok (ask_ok hread) ?_
      cases site? with
      | none => exact .ret (.refl h hplaced)
      | some site =>
        have hreads := hmeans site rfl
        obtain ⟨ids, hopening⟩ := h.opening hn hin hkind hplain hreads
        obtain ⟨weight, hready, hweight⟩ := hopening.ready h hplaced fun m hm => by
          rw [Option.some.inj (hm.symm.trans hn), hkind]
          decide
        obtain rfl : site.call = id := hreads.call
        refine ((hhandlers hhandler).ensures hready).bind fun new? w' hhandled => ?_
        cases new? with
        | none =>
          obtain rfl : w' = w := hhandled
          exact .ret (.refl h hplaced)
        | some new =>
          obtain ⟨hchanges, P', pending, free, weight', hready', hnew, hbudget⟩ := hhandled
          obtain ⟨⟨m, hm, -⟩, -⟩ := (hready'.free new hnew).loose
          obtain ⟨tags, htags⟩ := classifyReplacement_ok hready'.fits.built.consistent hm
          refine .bind_ok (ask_ok htags) (.bind_ok (ask_ok (kind_ok hm)) ?_)
          exact hready'.replaceThrough _ _ _ _ hnew hb howner hchanges (by omega) fun _ hsettled => .ret hsettled

/-! ## Statements -/

/-- The statement a call makes up can be given up with it. -/
theorem Opening.statement {t : Tree} {call : NodeId} {site : CallSite} {ids : List NodeId} {n : Node}
    (ho : Opening P t call site ids) (h : P.Fits located t none) (hn : t.get? id = some n) (hin : P.Inside id)
    (hmem : call ∈ n.children) (hscope : n.kind.isScope = false) : Opening P t id site (id :: ids) := by
  have hu := h.child hn hin.1 hmem
  have hlevel := hu.level
  have hparent : t.IsParent call id := (h.built.consistent.isParent_iff hn).2 hmem
  refine ⟨List.nodup_cons.2 ⟨fun hid => ?_, ho.nodup⟩, by simp, fun c hc => ?_, fun c hc => ?_, ho.arguments,
    fun a ha => ?_, ?_⟩
  · have := ho.level id hid
    omega
  · rcases List.mem_cons.1 hc with rfl | hc
    · exact Or.inl rfl
    · rcases ho.closed c hc with rfl | ⟨q, hq, hcq⟩
      · exact Or.inr ⟨id, by simp, hparent⟩
      · exact Or.inr ⟨q, List.mem_cons_of_mem id hq, hcq⟩
  · rcases List.mem_cons.1 hc with rfl | hc
    · exact Nat.le_refl _
    · have := ho.level c hc
      omega
  · obtain ⟨hnot, hain, hal, hascopes, q, hq, haq⟩ := ho.movable a ha
    refine ⟨?_, hain, by omega, fun scope hs => ?_, q, List.mem_cons_of_mem id hq, haq⟩
    · rw [List.mem_cons, not_or]
      refine ⟨?_, hnot⟩
      rintro rfl
      omega
    · exact hu.scopes_of_not_scope hscope (hascopes scope hs)
  · have := ho.credit
    rw [List.map_cons, List.sum_cons]
    omega

theorem isInClass_ok (h : P.Fits located w.tree none) (hplaced : Placed w.tree id parent) :
    ∃ b, isInClass id s w = .ok b w := by
  obtain ⟨n, hn⟩ := hplaced.live
  obtain ⟨scope?, hscope, hlive⟩ := h.built.consistent.providerOf_ok hn
  rw [isInClass, reads_bind_of_ok (ask_ok hscope)]
  cases scope? with
  | none => exact ⟨_, rfl⟩
  | some provider =>
    obtain ⟨np, hnp⟩ := hlive provider rfl
    exact ⟨_, reads_bind_of_ok (ask_ok (kind_ok hnp))⟩

/-- A look at a statement keeps everything as it was, or settles it. -/
theorem replaceExecStatement_ensures (h : P.Fits located w.tree none) (hplaced : Placed w.tree id parent) :
    Ensures located s (replaceExecStatement id) w fun new? w' =>
      (new? = none ∧ w' = w) ∨ ∃ new, new? = some new ∧ Settled located P w id parent new w' := by
  have hx := hplaced.reachable
  have hin := h.inside_of_reachable hx (by simp)
  obtain ⟨n, hn⟩ := hplaced.live
  refine .bind_ok (ask_ok (kind_ok hn)) ?_
  split
  · exact .ret (Or.inl ⟨rfl, rfl⟩)
  next hkind =>
  have hkind : n.kind = .statementExpressionOnly := by simpa using hkind
  obtain ⟨c?, hchild, hslot⟩ := h.built.consistent.child_ok hn "expression" (by rw [hkind]; decide)
  refine .bind_ok (ask_ok hchild) ?_
  cases c? with
  | none => exact .ret (Or.inl ⟨rfl, rfl⟩)
  | some call =>
  have hmem : call ∈ n.children := Node.mem_children_of_inSlot (show call ∈ n.inSlot "expression" by simp [hslot])
  have hcall : Placed w.tree call id := ⟨(h.built.consistent.isParent_iff hn).2 hmem, hx⟩
  refine .bind_ok tree_ok (.bind_ok version_ok ?_)
  cases hcalled : w.tree.calledBuiltin? s.options.version call with
  | none => exact .ret (Or.inl ⟨rfl, rfl⟩)
  | some found =>
  obtain ⟨v, name⟩ := found
  obtain ⟨nc, b, hnc, hckind, hplain, hb, howner⟩ := h.calledBuiltin?_eq_some hcall.reachable hcalled
  have hcin := h.inside_of_reachable hcall.reachable (by simp)
  refine .bind_ok version_ok ?_
  split
  · exact .ret (Or.inl ⟨rfl, rfl⟩)
  obtain ⟨inClass, hclass⟩ := isInClass_ok (s := s) h hplaced
  refine .bind_ok hclass ?_
  split
  · exact .ret (Or.inl ⟨rfl, rfl⟩)
  obtain ⟨site?, hread, hmeans⟩ := h.read_ok hnc hcin hckind v name
  refine .bind_ok (ask_ok hread) ?_
  cases site? with
  | none => exact .ret (Or.inl ⟨rfl, rfl⟩)
  | some site =>
  dsimp only
  cases hbind : Signature.execfile.bind site.positional site.keywords with
  | error e => exact .ret (Or.inl ⟨rfl, rfl⟩)
  | ok args =>
  dsimp only
  split
  · exact .ret (Or.inl ⟨rfl, rfl⟩)
  have hscope : n.kind.isScope = false := by rw [hkind]; rfl
  obtain ⟨ids, hopening⟩ := h.opening hnc hcin hckind hplain (hmeans site rfl)
  obtain ⟨weight, hready, hweight⟩ := (hopening.statement h hn hin hmem hscope).ready h hplaced fun m hm => by
    rw [Option.some.inj (hm.symm.trans hn), hkind]
    decide
  obtain ⟨slots, t₁, t₂, P', pending, free, hslots, hmake, hready', hnew⟩ :=
    hready.execStatement (s := s) (Signature.binds_of_bind hbind)
  refine .bind_ok hslots (.bind_ok (onTree_ok hmake) ?_)
  exact hready'.replaceThrough (w := { w with tree := t₂ }) _ _ _ _ hnew hb
    ((h.child hn hin.1 hmem).scopes_of_not_scope hscope howner) rfl (by omega) fun _ hsettled => .ret (.inr ⟨_, rfl, hsettled⟩)

theorem replaceCriticalBuiltin_ensures (h : P.Fits located w.tree none) (hplaced : Placed w.tree id parent) :
    Ensures located s (replaceCriticalBuiltin id) w (Settled located P w id parent) := by
  refine (replaceExecStatement_ensures h hplaced).bind ?_
  rintro _ w' (⟨rfl, rfl⟩ | ⟨new, rfl, hsettled⟩)
  · exact replaceCall_ensures h hplaced handles_critical
  · exact .ret hsettled

theorem replaceOptionalBuiltin_ensures (h : P.Fits located w.tree none) (hplaced : Placed w.tree id parent) :
    Ensures located s (replaceOptionalBuiltin id) w (Settled located P w id parent) :=
  replaceCall_ensures h hplaced handles_optional

/-! ## Names -/

/-- A node alone can be given up, and what is on its account can be used. -/
theorem Ready.ofNode {t : Tree} {n : Node} (h : P.Fits located t none) (hplaced : Placed t id parent)
    (hn : t.get? id = some n) (hkind : n.kind ≠ .keyValuePair ∧ n.kind ≠ .attributeLookup) :
    ∃ weight, Ready located P t (P.giveUp [id]) t id parent [] [] weight ∧
      weight + n.kind.changes ≤ t.weight P.credit := by
  have hfunded := (h.good hn (h.inside_of_reachable hplaced.reachable nofun)).funded
  have hclear := weight_clear P.credit (List.nodup_singleton id) (by simpa using ⟨n, hn⟩)
  simp only [List.map_cons, List.map_nil, List.sum_cons, List.sum_nil] at hclear
  refine ⟨t.weight P.credit - n.kind.changes, ?_, by omega⟩
  refine Ready.ofFits h hplaced.held hplaced.reach (fun m hm => ?_) (by simp) (by simp) (by simp) (by simp) (by simp)
    (by simp; omega)
  obtain rfl : m = n := Option.some.inj (hm.symm.trans hn)
  exact hkind

/-- What a name stands for is a single node. -/
theorem Ready.makeNamed {P₀ : Plan} {t₀ : Tree} {pending free : List NodeId} {weight : Nat}
    (h : Ready located P₀ t₀ P w.tree id parent pending free weight) (name : String) (source : SourceRef) :
    Ensures located s (makeNamed name source) w fun named? w' => (named? = none ∧ w' = w) ∨
      ∃ new tags message P' free', named? = some (new, tags, message) ∧ w'.changes = w.changes ∧
        Ready located P₀ t₀ P' w'.tree id parent pending free' (weight + 1) ∧ new ∈ free' := by
  unfold ReplaceM.makeNamed
  split
  · next value _ =>
    obtain ⟨t', hmake, hready, -, -⟩ := h.makeLeaf .constantRef (.constant value) 1 source rfl rfl nofun nofun (by decide)
    have hrun : TreeM.makeConstant value source w.tree = .ok w.tree.nextId t' := hmake
    exact .bind_ok (onTree_ok hrun) (.ret (Or.inr ⟨_, _, _, _, _, rfl, rfl, hready, by simp⟩))
  · refine .bind_ok version_ok ?_
    split
    · next kind _ =>
      obtain ⟨t', hmake, hready, -, -⟩ := h.makeLeaf .builtinExceptionRef (.exception kind) 1 source rfl rfl nofun nofun
        (by decide)
      have hrun : TreeM.makeExceptionRef kind source w.tree = .ok w.tree.nextId t' := hmake
      exact .bind_ok (onTree_ok hrun) (.ret (Or.inr ⟨_, _, _, _, _, rfl, rfl, hready, by simp⟩))
    · exact .ret (Or.inl ⟨rfl, rfl⟩)

theorem replaceName_ensures (h : P.Fits located w.tree none) (hplaced : Placed w.tree id parent) :
    Ensures located s (replaceName id) w (Settled located P w id parent) := by
  refine .bind_ok tree_ok ?_
  cases hread : w.tree.readOnlyVariable? id with
  | none => exact .ret (.refl h hplaced)
  | some found =>
    obtain ⟨v, b⟩ := found
    obtain ⟨n, hn, hkind, hpayload, hb⟩ := readOnlyVariable?_eq_some hread
    obtain ⟨b', hb', howner⟩ := (h.good hn (h.inside_of_reachable hplaced.reachable nofun)).owner hkind v hpayload
    obtain rfl : b' = b := Option.some.inj (hb'.symm.trans hb)
    obtain ⟨weight, hready, hweight⟩ := Ready.ofNode h hplaced hn (by rw [hkind]; decide)
    rw [hkind, show NodeKind.variableRef.changes = 3 from rfl] at hweight
    refine .bind_ok (ask_ok (source_ok hn)) ((hready.makeNamed b'.name n.source).bind ?_)
    rintro _ w' (⟨rfl, rfl⟩ | ⟨new, tags, message, P', free', rfl, hchanges, hready', hnew⟩)
    · exact .ret (.refl h hplaced)
    · exact hready'.replaceThrough _ _ _ _ hnew hb howner hchanges (by omega) fun _ hsettled => .ret hsettled

end Calls

end Plan

end Specializer
