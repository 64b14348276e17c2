import Specializer.Proofs.Replacement.CallSite
import Specializer.Proofs.Signature
import Specializer.Replacement.Builtins

/-!
# Handlers of builtin calls

Every handler either keeps the call and changes nothing, or leaves behind a free node for its place that costs at most
what the call had on its account (`Plan.Handled`). The handlers share their parts: arguments are taken out by parameter,
an operation is made over them, and a call that is bound to fail becomes a raise after its arguments.
-/

namespace Specializer.Plan

open Specializer.Tree ReplaceM

variable {located : ModuleName → Prop} {s : Settings} {P₀ P : Plan} {t₀ t : Tree} {hole parent : NodeId}
  {pending free : List NodeId} {weight : Nat}

/-! ## Making nodes -/

/-- A node that reads no variable can be made over free nodes of lower levels. -/
theorem Ready.makeOver (h : Ready located P₀ t₀ P t hole parent pending free weight) (kind : NodeKind)
    (payload : Payload) (slots : List Slot) {level : Nat} (credit : Nat) (source : SourceRef)
    (hcomplete : checkSlots kind slots = .ok ()) (hform : payload.form = kind.payloadForm)
    (hvar : ∀ v, payload ≠ .var v) (hids : ∀ c ∈ slots.flatMap Slot.ids, c ∈ free ∧ P.level c < level)
    (hnodup : (slots.flatMap Slot.ids).Nodup)
    (hpairs : ∀ source, ∀ c ∈ Node.inSlot { kind, source, payload, slots } "pairs", ∀ m, t.get? c = some m →
      m.kind = .keyValuePair)
    (hlocated : ∀ spec, payload = .hardImport spec → located spec.module) (hcredit : kind.changes ≤ credit)
    (hcall : kind = .functionCall → ∀ source, t.IsMethodCall { kind, source, payload, slots })
    (hlevel : level ≤ P.level hole) :
    ∃ t', TreeM.newNode kind source payload slots t = .ok t.nextId t' ∧
      Ready located P₀ t₀ (P.add t.nextId hole level credit) t' hole parent pending
        (t.nextId :: free.filter (· ∉ slots.flatMap Slot.ids)) (weight + credit) ∧
      SameKinds t t' ∧ t'.get? t.nextId = some { kind, source, payload, slots } := by
  refine h.make ⟨⟨hcomplete, hform, fun v hv => absurd hv (hvar v), fun c hc => ?_, hnodup⟩, fun c hc => ?_, hpairs, ?_,
    hlocated, hcredit, hcall⟩ hlevel source
  · exact (h.free c (hids c hc).1).loose
  · have hf := h.free c (hids c hc).1
    exact ⟨hf.inside, (hids c hc).2, hf.scopes⟩
  · rintro rfl
    cases payload with
    | var v => exact hvar v rfl
    | _ => cases hform

/-- A node without children can be made. -/
theorem Ready.makeLeaf (h : Ready located P₀ t₀ P t hole parent pending free weight) (kind : NodeKind)
    (payload : Payload) (credit : Nat) (source : SourceRef) (hslots : kind.slots = [])
    (hform : payload.form = kind.payloadForm) (hvar : ∀ v, payload ≠ .var v)
    (hlocated : ∀ spec, payload = .hardImport spec → located spec.module) (hcredit : kind.changes ≤ credit) :
    ∃ t', TreeM.newNode kind source payload [] t = .ok t.nextId t' ∧
      Ready located P₀ t₀ (P.add t.nextId hole 0 credit) t' hole parent pending (t.nextId :: free) (weight + credit) ∧
      SameKinds t t' ∧ t'.get? t.nextId = some { kind, source, payload, slots := [] } := by
  have hcomplete : checkSlots kind [] = .ok () := by simp [checkSlots, checkForms, hslots]
  have hindex (name : String) : kind.slotIndex? name = none := by simp [NodeKind.slotIndex?, hslots]
  have hcall : kind ≠ .functionCall := by
    rintro rfl
    cases hslots
  have := h.makeOver kind payload [] credit source hcomplete hform hvar (by simp) (by simp)
    (fun source c hc => by simp [Node.inSlot, hindex] at hc) hlocated hcredit (fun hk => absurd hk hcall)
    (show 0 ≤ P.level hole from Nat.zero_le _)
  simpa using this

/-- An operation over taken arguments, in the place of the hole. -/
theorem Ready.makeTop (h : Ready located P₀ t₀ P t hole parent pending free weight) (kind : NodeKind)
    (payload : Payload) (slots : List Slot) (source : SourceRef) (hcomplete : checkSlots kind slots = .ok ())
    (hform : payload.form = kind.payloadForm) (hvar : ∀ v, payload ≠ .var v)
    (hids : ∀ c ∈ slots.flatMap Slot.ids, c ∈ free ∧ P.level c < P.level hole)
    (hnodup : (slots.flatMap Slot.ids).Nodup)
    (hpairs : ∀ source, ∀ c ∈ Node.inSlot { kind, source, payload, slots } "pairs", ∀ m, t.get? c = some m →
      m.kind = .keyValuePair)
    (hlocated : ∀ spec, payload = .hardImport spec → located spec.module) (hcall : kind ≠ .functionCall) :
    ∃ t' P' free', TreeM.newNode kind source payload slots t = .ok t.nextId t' ∧
      Ready located P₀ t₀ P' t' hole parent pending free' (weight + kind.changes) ∧ t.nextId ∈ free' := by
  obtain ⟨t', hrun, hready, -, -⟩ := h.makeOver kind payload slots kind.changes source hcomplete hform hvar hids hnodup
    hpairs hlocated (Nat.le_refl _) (fun hk => absurd hk hcall) (Nat.le_refl _)
  exact ⟨t', _, _, hrun, hready, by simp⟩

/-! ## Taking arguments -/

/-- Arguments that were taken out of the call: they are free, and four levels below the hole. -/
structure Taken (P : Plan) (hole : NodeId) (free taken : List NodeId) : Prop where
  mem : ∀ a ∈ taken, a ∈ free
  level : ∀ a ∈ taken, P.level a + 4 ≤ P.level hole

/-- Taking one argument. -/
theorem Ready.take (h : Ready located P₀ t₀ P t hole parent pending free weight) (a? : Option NodeId)
    (ha : ∀ a, a? = some a → a ∈ pending) :
    ∃ t' pending' free', TreeM.take a? t = .ok a? t' ∧ Ready located P₀ t₀ P t' hole parent pending' free' weight ∧
      SameKinds t t' ∧ (∀ x ∈ pending, a? ≠ some x → x ∈ pending') ∧ (∀ x ∈ free, x ∈ free') ∧
      Taken P hole free' a?.toList := by
  cases a? with
  | none =>
    refine ⟨t, pending, free, rfl, h, fun x n hn => ⟨n, hn, rfl⟩, fun x hx _ => hx, fun x hx => hx, ?_⟩
    exact ⟨by simp, by simp⟩
  | some a =>
    obtain ⟨t', hrun, hready, hkinds⟩ := h.detach (ha a rfl)
    refine ⟨t', _, _, ?_, hready, hkinds, fun x hx hne => ?_, fun x hx => by simp [hx], ?_⟩
    · rw [TreeM.take, run_bind_of_ok hrun]
      rfl
    · exact (List.mem_erase_of_ne fun e => hne (by rw [e])).2 hx
    · exact ⟨by simp, by simpa using (h.movable a (ha a rfl)).level⟩

/-- Taking arguments one after the other. -/
theorem Ready.detachAll : ∀ {l pending free : List NodeId} {w : Workspace},
    Ready located P₀ t₀ P w.tree hole parent pending free weight → l.Nodup → (∀ a ∈ l, a ∈ pending) →
    ∃ t' pending' free', (l.mapM fun id => onTree (TreeM.detach id)) s w = .ok l { w with tree := t' } ∧
      Ready located P₀ t₀ P t' hole parent pending' free' weight ∧ SameKinds w.tree t' ∧
      (∀ x ∈ free, x ∈ free') ∧ Taken P hole free' l
  | [], pending, free, w, h, _, _ =>
    ⟨w.tree, pending, free, rfl, h, fun x n hn => ⟨n, hn, rfl⟩, fun x hx => hx, by simp, by simp⟩
  | a :: l, pending, free, w, h, hnodup, hmem => by
    obtain ⟨hnot, hnodup⟩ := List.nodup_cons.1 hnodup
    obtain ⟨t₁, hrun, hready, hkinds⟩ := h.detach (hmem a (by simp))
    obtain ⟨t₂, pending₂, free₂, hrest, hready₂, hkinds₂, hfree, htaken⟩ :=
      Ready.detachAll (w := { w with tree := t₁ }) hready hnodup fun x hx => by
        have hne : x ≠ a := fun e => hnot (e ▸ hx)
        exact (List.mem_erase_of_ne hne).2 (hmem x (List.mem_cons_of_mem a hx))
    refine ⟨t₂, pending₂, free₂, ?_, hready₂, hkinds.trans hkinds₂, fun x hx => hfree x (by simp [hx]), ?_, ?_⟩
    · rw [List.mapM_cons, reads_bind_of_ok (onTree_ok hrun), reads_bind_of_ok hrest]
      rfl
    · intro x hx
      rcases List.mem_cons.1 hx with rfl | hx
      · exact hfree x (by simp)
      · exact htaken.mem x hx
    · intro x hx
      rcases List.mem_cons.1 hx with rfl | hx
      · exact (h.movable x (hmem x (by simp))).level
      · exact htaken.level x hx

/-- Taking arguments out and tearing down those that cannot be noticed. -/
theorem Ready.keepObservable : ∀ {l pending free : List NodeId} {t : Tree},
    Ready located P₀ t₀ P t hole parent pending free weight → l.Nodup → (∀ a ∈ l, a ∈ pending) →
    ∃ kept t' pending' free', TreeM.keepObservable l t = .ok kept t' ∧
      Ready located P₀ t₀ P t' hole parent pending' free' weight ∧ kept.Nodup ∧ (∀ x ∈ kept, x ∈ l) ∧
      (∀ x ∈ free, x ∈ free') ∧ Taken P hole free' kept
  | [], pending, free, t, h, _, _ =>
    ⟨[], t, pending, free, rfl, h, List.nodup_nil, by simp, fun x hx => hx, by simp, by simp⟩
  | a :: l, pending, free, t, h, hnodup, hmem => by
    obtain ⟨hnot, hnodup⟩ := List.nodup_cons.1 hnodup
    have hlevel := (h.movable a (hmem a (by simp))).level
    obtain ⟨t₁, hrun, hready, -⟩ := h.detach (hmem a (by simp))
    have hrest : ∀ x ∈ l, x ∈ pending.erase a := fun x hx =>
      (List.mem_erase_of_ne fun e : x = a => hnot (e ▸ hx)).2 (hmem x (List.mem_cons_of_mem a hx))
    obtain ⟨⟨n, hn, -⟩, -⟩ := (hready.free a (by simp)).loose
    obtain ⟨observable, hobs⟩ := hready.fits.built.consistent.isObservable_ok hn
    have hquery : TreeM.query (·.isObservable a) t₁ = .ok observable t₁ := run_query_ok hobs
    cases observable with
    | true =>
      obtain ⟨kept, t₂, pending₂, free₂, hkeep, hready₂, hkept, hsub, hfree, htaken⟩ :=
        Ready.keepObservable hready hnodup hrest
      refine ⟨a :: kept, t₂, pending₂, free₂, ?_, hready₂, ?_, ?_, fun x hx => hfree x (by simp [hx]), ?_, ?_⟩
      · rw [TreeM.keepObservable, run_bind_of_ok hrun, run_bind_of_ok hquery, if_pos rfl, run_bind_of_ok hkeep]
        rfl
      · exact List.nodup_cons.2 ⟨fun hx => hnot (hsub a hx), hkept⟩
      · intro x hx
        rcases List.mem_cons.1 hx with rfl | hx
        · simp
        · exact List.mem_cons_of_mem a (hsub x hx)
      · intro x hx
        rcases List.mem_cons.1 hx with rfl | hx
        · exact hfree x (by simp)
        · exact htaken.mem x hx
      · intro x hx
        rcases List.mem_cons.1 hx with rfl | hx
        · exact hlevel
        · exact htaken.level x hx
    | false =>
      obtain ⟨t₂, hdown, hready₂⟩ := hready.tearDown (a := a) (by simp) (by omega)
      rw [List.erase_cons_head] at hready₂
      obtain ⟨kept, t₃, pending₃, free₃, hkeep, hready₃, hkept, hsub, hfree, htaken⟩ :=
        Ready.keepObservable hready₂ hnodup hrest
      refine ⟨kept, t₃, pending₃, free₃, ?_, hready₃, hkept, fun x hx => List.mem_cons_of_mem a (hsub x hx), hfree,
        htaken⟩
      rw [TreeM.keepObservable, run_bind_of_ok hrun, run_bind_of_ok hquery, if_neg (by simp), run_bind_of_ok hdown]
      exact hkeep

/-- A raise after the arguments of a call, for its place. -/
theorem Ready.raiseAfter (h : Ready located P₀ t₀ P t hole parent pending free weight) {l : List NodeId}
    (raised : RaisedException) (source : SourceRef) (hnodup : l.Nodup) (hmem : ∀ a ∈ l, a ∈ pending) :
    ∃ new t' P' pending' free', TreeM.raiseAfter raised l source t = .ok new t' ∧
      Ready located P₀ t₀ P' t' hole parent pending' free' (weight + 2) ∧ new ∈ free' := by
  obtain ⟨kept, t₁, pending₁, free₁, hkeep, hready₁, hkept, -, -, htaken⟩ := h.keepObservable hnodup hmem
  obtain ⟨t₂, hraise, hready₂, -, -⟩ := hready₁.makeLeaf .raiseException (.raise raised) 1 source rfl rfl
    (by simp) (by simp) (by decide)
  by_cases hempty : kept.isEmpty = true
  · refine ⟨t₁.nextId, t₂, _, pending₁, _, ?_, { hready₂ with weight := Nat.le_succ_of_le hready₂.weight }, by simp⟩
    rw [TreeM.raiseAfter, run_bind_of_ok hkeep, run_bind_of_ok (show TreeM.makeRaise raised source t₁ = _ from hraise),
      if_pos hempty]
    rfl
  · obtain ⟨k, hk⟩ : ∃ k, k ∈ kept := List.exists_mem_of_ne_nil _ (by simpa using hempty)
    -- the raise was made after the arguments were taken, so it is none of them
    have hne {x : NodeId} (hx : x ∈ kept) : x ≠ t₁.nextId := (hready₁.free x (htaken.mem x hx)).loose.ne_nextId
    have hhole : hole ≠ t₁.nextId := hready₁.place.ne_nextId
    have hids : ([.many kept, .filled t₁.nextId] : List Slot).flatMap Slot.ids = kept ++ [t₁.nextId] := by
      simp [Slot.ids, Slot.filled]
    obtain ⟨t₃, P₃, free₃, hmake, hready₃, hnew⟩ := hready₂.makeTop .sideEffects .none
      [.many kept, .filled t₁.nextId] source rfl rfl (by simp) (fun c hc => by
        rw [hids, List.mem_append, List.mem_singleton] at hc
        rw [add_level_of_ne hhole]
        have hk4 := htaken.level k hk
        rcases hc with hc | rfl
        · rw [add_level_of_ne (hne hc)]
          have := htaken.level c hc
          exact ⟨by simp [htaken.mem c hc], by omega⟩
        · rw [add_level_self]
          exact ⟨by simp, by omega⟩) (by
        rw [hids, List.nodup_append]
        refine ⟨hkept, by simp, ?_⟩
        rintro a ha b hb rfl
        exact hne ha (by simpa using hb)) (fun _ c hc => by cases hc) (by simp) (by simp)
    refine ⟨t₂.nextId, t₃, P₃, pending₁, free₃, ?_, hready₃, hnew⟩
    rw [TreeM.raiseAfter, run_bind_of_ok hkeep, run_bind_of_ok (show TreeM.makeRaise raised source t₁ = _ from hraise),
      if_neg hempty]
    exact hmake

/-! ## Parts of handlers -/

/-- What a handler has done: nothing, or it left a free node for the place of the hole. -/
def Handled (located : ModuleName → Prop) (P₀ : Plan) (t₀ : Tree) (hole parent : NodeId) (budget : Nat) (w : Workspace) :
    Option NodeId → Workspace → Prop
  | none, w' => w' = w
  | some new, w' => w'.changes = w.changes ∧ ∃ P pending free weight,
    Ready located P₀ t₀ P w'.tree hole parent pending free weight ∧ new ∈ free ∧ weight ≤ budget

section Parts

variable {w w₀ : Workspace} {site : CallSite} {budget : Nat} {args : BoundArguments NodeId}

theorem Ready.takeSlot (h : Ready located P₀ t₀ P w.tree hole parent pending free weight)
    (args : BoundArguments NodeId) (i : Nat) (ha : ∀ a, args.get? i = some a → a ∈ pending) :
    ∃ t' pending' free', ReplaceM.takeSlot args i s w = .ok (.one (args.get? i)) { w with tree := t' } ∧
      Ready located P₀ t₀ P t' hole parent pending' free' weight ∧ SameKinds w.tree t' ∧
      (∀ x ∈ pending, args.get? i ≠ some x → x ∈ pending') ∧ (∀ x ∈ free, x ∈ free') ∧
      Taken P hole free' (args.get? i).toList := by
  obtain ⟨t', pending', free', hrun, hready, hkinds, hpending, hfree, htaken⟩ := h.take (args.get? i) ha
  refine ⟨t', pending', free', ?_, hready, hkinds, hpending, hfree, htaken⟩
  rw [ReplaceM.takeSlot, reads_bind_of_ok (onTree_ok hrun)]
  rfl

/-- Taking the arguments of some parameters. -/
theorem Ready.takeSlots : ∀ {l : List Nat} {pending free : List NodeId} {w : Workspace},
    Ready located P₀ t₀ P w.tree hole parent pending free weight → (l.filterMap args.get?).Nodup →
    (∀ a ∈ l.filterMap args.get?, a ∈ pending) →
    ∃ t' pending' free', (l.mapM (ReplaceM.takeSlot args)) s w =
        .ok (l.map fun i => .one (args.get? i)) { w with tree := t' } ∧
      Ready located P₀ t₀ P t' hole parent pending' free' weight ∧ (∀ x ∈ free, x ∈ free') ∧
      Taken P hole free' (l.filterMap args.get?)
  | [], pending, free, w, h, _, _ => ⟨w.tree, pending, free, rfl, h, fun x hx => hx, by simp, by simp⟩
  | i :: l, pending, free, w, h, hnodup, hmem => by
    have hcons : (i :: l).filterMap args.get? = (args.get? i).toList ++ l.filterMap args.get? := by
      cases hi : args.get? i <;> simp [hi]
    rw [hcons, List.nodup_append] at hnodup
    rw [hcons] at hmem
    obtain ⟨t₁, pending₁, free₁, hrun, hready, -, hpending, hfree, htaken⟩ := h.takeSlot (s := s) args i
      fun a ha => hmem a (by simp [ha])
    obtain ⟨t₂, pending₂, free₂, hrest, hready₂, hfree₂, htaken₂⟩ :=
      Ready.takeSlots (l := l) (w := { w with tree := t₁ }) hready hnodup.2.1 fun a ha => by
        refine hpending a (hmem a (by simp [ha])) fun hi => ?_
        exact hnodup.2.2 a (by simp [hi]) a ha rfl
    refine ⟨t₂, pending₂, free₂, ?_, hready₂, fun x hx => hfree₂ x (hfree x hx), ?_, ?_⟩
    · rw [List.mapM_cons, reads_bind_of_ok hrun, reads_bind_of_ok hrest]
      rfl
    · intro x hx
      rcases List.mem_append.1 (hcons ▸ hx) with hx | hx
      · exact hfree₂ x (htaken.mem x hx)
      · exact htaken₂.mem x hx
    · intro x hx
      rcases List.mem_append.1 (hcons ▸ hx) with hx | hx
      · exact htaken.level x hx
      · exact htaken₂.level x hx

/-- An operation over taken arguments is a replacement. -/
theorem Ready.makeOperation (h : Ready located P₀ t₀ P w.tree hole parent pending free weight) (kind : NodeKind)
    (slots : List Slot) (hw : w.changes = w₀.changes) (hcomplete : checkSlots kind slots = .ok ())
    (hform : kind.payloadForm = .none) (htaken : ∀ c ∈ slots.flatMap Slot.ids, c ∈ free ∧ P.level c < P.level hole)
    (hnodup : (slots.flatMap Slot.ids).Nodup)
    (hpairs : ∀ source, ∀ c ∈ Node.inSlot { kind, source, payload := .none, slots } "pairs",
      ∀ m, w.tree.get? c = some m → m.kind = .keyValuePair)
    (hcall : kind ≠ .functionCall) (hbudget : weight + kind.changes ≤ budget) :
    Ensures located s (ReplaceM.makeOperation site kind slots) w (Handled located P₀ t₀ hole parent budget w₀) := by
  obtain ⟨t', P', free', hmake, hready, hnew⟩ := h.makeTop kind .none slots site.source hcomplete (by rw [hform]; rfl)
    nofun htaken hnodup hpairs nofun hcall
  exact .bind_ok (onTree_ok hmake) (.ret ⟨hw, P', pending, free', _, hready, hnew, hbudget⟩)

/-- Handlers that bind the arguments first. -/
theorem Ready.withBound (h : Ready located P₀ t₀ P w.tree hole parent site.arguments [] weight)
    {signature : Signature} {build : BoundArguments NodeId → ReplaceM (Option NodeId)} (hbudget : weight + 2 ≤ budget)
    (hbuild : ∀ args, signature.Binds site.positional site.keywords args →
      Ensures located s (build args) w (Handled located P₀ t₀ hole parent budget w)) :
    Ensures located s (ReplaceM.withBound site signature build) w (Handled located P₀ t₀ hole parent budget w) := by
  unfold ReplaceM.withBound ReplaceM.bindCall
  cases hbind : signature.bind site.positional site.keywords with
  | ok args =>
    by_cases horder : signature.keywordsInOrder site.keywords = true
    · have hrun : (return if signature.keywordsInOrder site.keywords then .bound args else .kept :
          ReplaceM CallBinding) s w = .ok (.bound args) w := by rw [if_pos horder]; rfl
      exact .bind_ok hrun (hbuild args (Signature.binds_of_bind hbind))
    · have hrun : (return if signature.keywordsInOrder site.keywords then .bound args else .kept :
          ReplaceM CallBinding) s w = .ok .kept w := by rw [if_neg horder]; rfl
      exact .bind_ok hrun (.ret rfl)
  | error e =>
    obtain ⟨new, t', P', pending', free', hraise, hready, hnew⟩ := h.raiseAfter
      ⟨.typeError, signature.errorMessage e⟩ site.source (by simpa using h.nodup) fun a ha => ha
    have hrun : (return .raised (← onTree (TreeM.raiseAfter ⟨.typeError, signature.errorMessage e⟩ site.arguments
        site.source)) : ReplaceM CallBinding) s w = .ok (.raised new) { w with tree := t' } := by
      rw [reads_bind_of_ok (onTree_ok hraise)]
      rfl
    exact .bind_ok hrun (.ret ⟨rfl, P', pending', free', _, hready, hnew, hbudget⟩)

end Parts

/-! ## The handlers -/

/-- A kind takes the arguments of a signature, one slot for each parameter. -/
structure Suits (signature : Signature) (kind : NodeKind) : Prop where
  length : kind.slots.length = signature.params.length
  arity : ∀ spec ∈ kind.slots.zipIdx, spec.1.arity = .optional ∨ (spec.1.arity = .required ∧ spec.2 < signature.minArgs)
  form : kind.payloadForm = .none
  pairs : kind.slotIndex? "pairs" = none
  call : kind ≠ .functionCall
  changes : kind.changes ≤ 3

theorem checkForms_ones {kind : NodeKind} : ∀ {specs : List SlotSpec} {values : List (Option NodeId)},
    specs.length = values.length → (∀ (i : Nat) (spec : SlotSpec) (v : Option NodeId), specs[i]? = some spec → values[i]? = some v →
      (Slot.one v).fits spec.arity = true) → checkForms kind specs (values.map .one) = .ok ()
  | [], [], _, _ => rfl
  | spec :: specs, v :: values, hlen, h => by
    rw [List.map_cons, checkForms, if_pos (h 0 spec v rfl rfl)]
    exact checkForms_ones (by simpa using hlen) fun i spec' v' hs hv => h (i + 1) spec' v' (by simpa using hs)
      (by simpa using hv)

theorem Suits.complete {signature : Signature} {kind : NodeKind} {positional : List NodeId}
    {keywords : List (String × NodeId)} {args : BoundArguments NodeId} (h : Suits signature kind)
    (hargs : signature.Binds positional keywords args) : checkSlots kind (args.values.map .one) = .ok () := by
  have hlen : kind.slots.length = args.values.length := by rw [h.length, hargs.length]
  rw [checkSlots, if_pos (by simpa using hlen)]
  refine checkForms_ones hlen fun i spec v hspec hv => ?_
  have hmem : (spec, i) ∈ kind.slots.zipIdx := List.mem_zipIdx_iff_getElem?.2 hspec
  rcases h.arity _ hmem with hopt | ⟨hreq, hi⟩
  · rw [show spec.arity = .optional from hopt]
    cases v <;> rfl
  · rw [show spec.arity = .required from hreq]
    cases v with
    | none => exact absurd rfl (hargs.required i hi none hv)
    | some a => rfl

section Handlers

variable {w : Workspace} {site : CallSite}

theorem map_get?_range (args : BoundArguments NodeId) :
    (List.range args.values.length).map args.get? = args.values := by
  refine List.ext_getElem (by simp) fun i h₁ h₂ => ?_
  simp [BoundArguments.get?, h₂]

theorem flatMap_ones : ∀ values : List (Option NodeId), (values.map Slot.one).flatMap Slot.ids = values.filterMap id
  | [] => rfl
  | v :: values => by
    rw [List.map_cons, List.flatMap_cons, flatMap_ones values]
    cases v <;> rfl

/-- The arguments of the parameters are arguments of the call, all different. -/
theorem Ready.values_pending {signature : Signature} {args : BoundArguments NodeId}
    (h : Ready located P₀ t₀ P w.tree hole parent site.arguments [] weight)
    (hargs : signature.Binds site.positional site.keywords args) : args.all.Nodup ∧ ∀ a ∈ args.all, a ∈ site.arguments :=
  ⟨hargs.perm.nodup_iff.2 (show site.arguments.Nodup by simpa using h.nodup), fun _ ha => hargs.perm.mem_iff.1 ha⟩

theorem inSlot_pairs_of_none {kind : NodeKind} {source : SourceRef} {payload : Payload} {slots : List Slot} {c : NodeId}
    (hkind : kind.slotIndex? "pairs" = none) : c ∉ Node.inSlot { kind, source, payload, slots } "pairs" := by
  simp [Node.inSlot, hkind]

/-- Handlers that move every argument into the slot of its parameter. -/
theorem specialize_ensures {signature : Signature} {kind : NodeKind} (hsuits : Suits signature kind)
    (h : Ready located P₀ t₀ P w.tree hole parent site.arguments [] weight) :
    Ensures located s (specialize signature kind site) w
      (Handled located P₀ t₀ hole parent (weight + 5 + 2 * site.keywords.length) w) := by
  refine h.withBound (by omega) fun args hargs => ?_
  obtain ⟨hnodup, hmem⟩ := h.values_pending hargs
  have hvalues : (List.range args.values.length).filterMap args.get? = args.values.filterMap id := by
    rw [← map_get?_range args, List.filterMap_map, map_get?_range args]
    rfl
  have hnodup' : (args.values.filterMap id).Nodup := (List.nodup_append.1 hnodup).1
  obtain ⟨t', pending', free', hrun, hready, -, htaken⟩ := h.takeSlots (s := s) (l := List.range args.values.length)
    (by rw [hvalues]; exact hnodup') fun a ha => hmem a (List.mem_append_left _ (hvalues ▸ ha))
  have hslots : ((List.range args.values.length).map fun i => Slot.one (args.get? i)) = args.values.map .one := by
    conv => rhs; rw [← map_get?_range args, List.map_map]
    rfl
  rw [hvalues] at htaken
  refine .bind_ok hrun ?_
  rw [hslots]
  refine hready.makeOperation (w := { w with tree := t' }) kind _ rfl (hsuits.complete hargs) hsuits.form (fun c hc => ?_)
    (by rw [flatMap_ones]; exact hnodup') (fun _ c hc => absurd hc (inSlot_pairs_of_none hsuits.pairs)) hsuits.call
    (by have := hsuits.changes; omega)
  rw [flatMap_ones] at hc
  have := htaken.level c hc
  exact ⟨htaken.mem c hc, by omega⟩

/-- An operation without operands. -/
theorem Ready.makeNullary (h : Ready located P₀ t₀ P w.tree hole parent pending free weight) (kind : NodeKind)
    (hslots : kind.slots = []) (hform : kind.payloadForm = .none) (hchanges : kind.changes ≤ 3) {k : Nat} :
    Ensures located s (ReplaceM.makeOperation site kind []) w (Handled located P₀ t₀ hole parent (weight + 5 + 2 * k) w) := by
  refine h.makeOperation kind [] rfl ?_ hform (by simp) (by simp) (fun _ c hc => ?_) ?_ (by omega)
  · simp [checkSlots, checkForms, hslots]
  · simp [Node.inSlot, NodeKind.slotIndex?, hslots] at hc
  · rintro rfl
    cases hslots

theorem localsOrGlobals_ensures (h : Ready located P₀ t₀ P w.tree hole parent pending free weight)
    (hcall : site.call = hole) {k : Nat} :
    Ensures located s (localsOrGlobals site) w (Handled located P₀ t₀ hole parent (weight + 5 + 2 * k) w) := by
  obtain ⟨nh, hnh, -⟩ := parent?_eq_some_iff.1 h.place
  have hc := h.fits.built.consistent
  obtain ⟨scope?, hscope, hlive⟩ := hc.providerOf_ok (hcall ▸ hnh : w.tree.get? site.call = some nh)
  refine .bind_ok (ask_ok hscope) ?_
  have hnullary (inModule : Bool) : Ensures located s
      (ReplaceM.makeOperation site (if inModule then .builtinGlobals else .builtinLocals) []) w
      (Handled located P₀ t₀ hole parent (weight + 5 + 2 * k) w) := by
    cases inModule
    · exact h.makeNullary .builtinLocals rfl rfl (by decide)
    · exact h.makeNullary .builtinGlobals rfl rfl (by decide)
  cases scope? with
  | none => exact hnullary true
  | some provider =>
    obtain ⟨np, hnp⟩ := hlive provider rfl
    exact .bind_ok (ask_ok (kind_ok hnp)) (hnullary _)

theorem specializeLocals_ensures (h : Ready located P₀ t₀ P w.tree hole parent site.arguments [] weight)
    (hcall : site.call = hole) :
    Ensures located s (specializeLocals site) w
      (Handled located P₀ t₀ hole parent (weight + 5 + 2 * site.keywords.length) w) :=
  h.withBound (by omega) fun _ _ => localsOrGlobals_ensures h hcall

theorem specializeExec_ensures (h : Ready located P₀ t₀ P w.tree hole parent site.arguments [] weight) :
    Ensures located s (specializeExec site) w
      (Handled located P₀ t₀ hole parent (weight + 5 + 2 * site.keywords.length) w) := by
  refine .bind_ok version_ok ?_
  split
  · exact specialize_ensures ⟨by decide, by decide, rfl, by decide, by decide, by decide⟩ h
  · exact .ret rfl

theorem specializeLong_ensures (h : Ready located P₀ t₀ P w.tree hole parent site.arguments [] weight) :
    Ensures located s (specializeLong site) w
      (Handled located P₀ t₀ hole parent (weight + 5 + 2 * site.keywords.length) w) := by
  refine .bind_ok version_ok ?_
  split
  · exact .ret rfl
  · exact specialize_ensures ⟨by decide, by decide, rfl, by decide, by decide, by decide⟩ h

theorem specializeDir_ensures (h : Ready located P₀ t₀ P w.tree hole parent site.arguments [] weight) :
    Ensures located s (specializeDir site) w
      (Handled located P₀ t₀ hole parent (weight + 5 + 2 * site.keywords.length) w) := by
  refine h.withBound (by omega) fun args _ => ?_
  split
  · exact h.makeNullary .builtinDir0 rfl rfl (by decide)
  · exact .ret rfl

/-- The argument of a parameter is pending. -/
theorem Ready.get?_pending {signature : Signature} {args : BoundArguments NodeId}
    (h : Ready located P₀ t₀ P w.tree hole parent site.arguments [] weight)
    (hargs : signature.Binds site.positional site.keywords args) (i : Nat) :
    ∀ a, args.get? i = some a → a ∈ site.arguments := by
  intro a ha
  refine (h.values_pending hargs).2 a (List.mem_append_left _ ?_)
  rw [BoundArguments.get?, Option.join_eq_some_iff] at ha
  exact List.mem_filterMap.2 ⟨some a, List.mem_of_getElem? ha, rfl⟩

theorem specializeVars_ensures (h : Ready located P₀ t₀ P w.tree hole parent site.arguments [] weight)
    (hcall : site.call = hole) :
    Ensures located s (specializeVars site) w
      (Handled located P₀ t₀ hole parent (weight + 5 + 2 * site.keywords.length) w) := by
  refine h.withBound (by omega) fun args hargs => ?_
  split
  · exact localsOrGlobals_ensures h hcall
  · next hgiven =>
    -- the only parameter has an argument, since some parameter has one
    obtain ⟨a, ha⟩ : ∃ a, args.get? 0 = some a := by
      have hlen : args.values.length = 1 := hargs.length
      obtain ⟨v, hv⟩ := List.length_eq_one_iff.1 hlen
      cases v with
      | none => exact absurd (by simp [BoundArguments.given, hv]) hgiven
      | some a => exact ⟨a, by simp [BoundArguments.get?, hv]⟩
    obtain ⟨t', pending', free', hrun, hready, -, -, -, htaken⟩ := h.takeSlot (s := s) args 0 (h.get?_pending hargs 0)
    refine .bind_ok hrun ?_
    rw [ha] at htaken ⊢
    refine hready.makeOperation (w := { w with tree := t' }) .builtinVars _ rfl rfl rfl (fun c hc => ?_) (by simp [Slot.ids])
      (fun _ c hc => absurd hc (inSlot_pairs_of_none (by decide))) (by decide) ?_
    · obtain rfl : c = a := by simpa [Slot.ids] using hc
      have := htaken.level c (by simp)
      exact ⟨htaken.mem c (by simp), by omega⟩
    · rw [show NodeKind.builtinVars.changes = 1 from rfl]
      omega

theorem specializeRepr_ensures (h : Ready located P₀ t₀ P w.tree hole parent site.arguments [] weight) :
    Ensures located s (specializeRepr site) w
      (Handled located P₀ t₀ hole parent (weight + 5 + 2 * site.keywords.length) w) := by
  refine h.withBound (by omega) fun args hargs => ?_
  obtain ⟨a, ha⟩ := hargs.get?_required (i := 0) (by decide)
  obtain ⟨t', pending', free', hrun, hready, -, -, -, htaken⟩ := h.takeSlot (s := s) args 0 (h.get?_pending hargs 0)
  refine .bind_ok hrun ?_
  rw [ha] at htaken ⊢
  obtain ⟨t₂, P₂, free₂, hmake, hready₂, hnew⟩ := hready.makeTop .operationUnary (.unary .repr) [.one (some a)] site.source
    rfl rfl nofun (fun c hc => by
      obtain rfl : c = a := by simpa [Slot.ids] using hc
      have := htaken.level c (by simp)
      exact ⟨htaken.mem c (by simp), by omega⟩)
    (by simp [Slot.ids]) (fun _ c hc => absurd hc (inSlot_pairs_of_none (by decide))) nofun (by decide)
  refine .bind_ok (onTree_ok (w := { w with tree := t' }) hmake) (.ret ⟨rfl, P₂, pending', free₂, _, hready₂, hnew, ?_⟩)
  rw [show NodeKind.operationUnary.changes = 1 from rfl]
  omega

theorem specializeException_ensures (h : Ready located P₀ t₀ P w.tree hole parent site.arguments [] weight) :
    Ensures located s (specializeException site) w
      (Handled located P₀ t₀ hole parent (weight + 5 + 2 * site.keywords.length) w) := by
  refine .bind_ok version_ok ?_
  split
  · exact .ret rfl
  next kind _ =>
  refine h.withBound (by omega) fun args hargs => ?_
  obtain ⟨hnodup, hmem⟩ := h.values_pending hargs
  have hstar : args.starList.Nodup := (List.nodup_append.1 (List.nodup_append.1 hnodup).2.1).1
  obtain ⟨t', pending', free', hrun, hready, -, -, htaken⟩ := h.detachAll (s := s) hstar fun a ha =>
    hmem a (List.mem_append_right _ (List.mem_append_left _ ha))
  obtain ⟨t₂, P₂, free₂, hmake, hready₂, hnew⟩ := hready.makeTop .builtinMakeException (.exception kind)
    [.many args.starList] site.source rfl rfl nofun (fun c hc => by
      replace hc : c ∈ args.starList := by simpa [Slot.ids] using hc
      have := htaken.level c hc
      exact ⟨htaken.mem c hc, by omega⟩)
    (by simpa [Slot.ids] using hstar) (fun _ c hc => absurd hc (inSlot_pairs_of_none (by decide))) nofun (by decide)
  refine .bind_ok hrun (.bind_ok (onTree_ok (w := { w with tree := t' }) hmake)
    (.ret ⟨rfl, P₂, pending', free₂, _, hready₂, hnew, ?_⟩))
  rw [show NodeKind.builtinMakeException.changes = 1 from rfl]
  omega

theorem specializeOneOrTwo_ensures {signature : Signature} {one two : NodeKind}
    (h : Ready located P₀ t₀ P w.tree hole parent site.arguments [] weight) (hmin : signature.minArgs = 1)
    (hone : ∀ a, checkSlots one [.filled a] = .ok ()) (htwo : ∀ a b, checkSlots two [.filled a, .filled b] = .ok ())
    (hkind : ∀ kind, kind = one ∨ kind = two → kind.payloadForm = .none ∧ kind.slotIndex? "pairs" = none ∧
      kind ≠ .functionCall ∧ kind.changes ≤ 3) :
    Ensures located s (specializeOneOrTwo signature one two site) w
      (Handled located P₀ t₀ hole parent (weight + 5 + 2 * site.keywords.length) w) := by
  refine h.withBound (by omega) fun args hargs => ?_
  have hnodup : site.arguments.Nodup := by simpa using h.nodup
  obtain ⟨a, ha⟩ := hargs.get?_required (i := 0) (by omega)
  obtain ⟨t₁, pending₁, free₁, hrun₁, hready₁, -, hpending, -, htaken₁⟩ :=
    h.takeSlot (s := s) args 0 (h.get?_pending hargs 0)
  obtain ⟨t₂, pending₂, free₂, hrun₂, hready₂, -, -, hfree₂, htaken₂⟩ := hready₁.take (args.get? 1) fun b hb =>
    hpending b (h.get?_pending hargs 1 b hb) (hargs.get?_ne hnodup (by decide) hb)
  refine .bind_ok hrun₁ (.bind_ok (onTree_ok (w := { w with tree := t₁ }) hrun₂) ?_)
  rw [ha] at htaken₁ ⊢
  have hlow {c : NodeId} (hc : c ∈ (some a).toList ∨ c ∈ (args.get? 1).toList) :
      c ∈ free₂ ∧ P.level c < P.level hole := by
    rcases hc with hc | hc
    · have := htaken₁.level c hc
      exact ⟨hfree₂ c (htaken₁.mem c hc), by omega⟩
    · have := htaken₂.level c hc
      exact ⟨htaken₂.mem c hc, by omega⟩
  cases hb : args.get? 1 with
  | none =>
    obtain ⟨hform, hpairs, hcall, hchanges⟩ := hkind one (Or.inl rfl)
    refine hready₂.makeOperation (w := { w with tree := t₂ }) one _ rfl (hone a) hform (fun c hc => ?_) (by simp [Slot.ids])
      (fun _ c hc => absurd hc (inSlot_pairs_of_none hpairs)) hcall (by omega)
    exact hlow (Or.inl (by simpa [Slot.ids] using hc))
  | some b =>
    obtain ⟨hform, hpairs, hcall, hchanges⟩ := hkind two (Or.inr rfl)
    have hab : a ≠ b := by
      rintro rfl
      exact hargs.get?_ne hnodup (by decide) ha hb
    refine hready₂.makeOperation (w := { w with tree := t₂ }) two _ rfl (htwo a b) hform (fun c hc => ?_)
      (by simpa [Slot.ids, Slot.filled] using hab) (fun _ c hc => absurd hc (inSlot_pairs_of_none hpairs)) hcall (by omega)
    rw [hb] at hlow
    exact hlow (by simpa [Slot.ids, Slot.filled] using hc)

theorem specializeType_ensures (h : Ready located P₀ t₀ P w.tree hole parent site.arguments [] weight) :
    Ensures located s (specializeType site) w
      (Handled located P₀ t₀ hole parent (weight + 5 + 2 * site.keywords.length) w) := by
  have hnodup : site.positional.Nodup := (List.nodup_append.1 (show site.arguments.Nodup by simpa using h.nodup)).1
  have hbuild (kind : NodeKind) (hcomplete : checkSlots kind (site.positional.map .filled) = .ok ())
      (hform : kind.payloadForm = .none) (hpairs : kind.slotIndex? "pairs" = none) (hcall : kind ≠ .functionCall)
      (hchanges : kind.changes ≤ 3) : Ensures located s (do
        let taken ← site.positional.mapM fun id => onTree (TreeM.detach id)
        makeOperation site kind (taken.map .filled)) w
          (Handled located P₀ t₀ hole parent (weight + 5 + 2 * site.keywords.length) w) := by
    obtain ⟨t', pending', free', hrun, hready, -, -, htaken⟩ := h.detachAll (s := s) hnodup fun a ha =>
      List.mem_append_left _ ha
    have hids : (site.positional.map Slot.filled).flatMap Slot.ids = site.positional := by
      rw [List.flatMap_map]
      exact List.flatMap_singleton' _
    refine .bind_ok hrun (hready.makeOperation (w := { w with tree := t' }) kind _ rfl hcomplete hform (fun c hc => ?_)
      (hids.symm ▸ hnodup) (fun _ c hc => absurd hc (inSlot_pairs_of_none hpairs)) hcall (by omega))
    rw [hids] at hc
    have := htaken.level c hc
    exact ⟨htaken.mem c hc, by omega⟩
  unfold specializeType
  split
  · exact .ret rfl
  split
  · next hlen =>
    obtain ⟨a, ha⟩ := List.length_eq_one_iff.1 hlen
    exact hbuild .builtinType1 (by rw [ha]; rfl) rfl (by decide) (by decide) (by decide)
  · next hlen =>
    obtain ⟨a, b, c, habc⟩ := List.length_eq_three.1 hlen
    exact hbuild .builtinType3 (by rw [habc]; rfl) rfl (by decide) (by decide) (by decide)
  · exact .ret rfl

section Execfile

variable {args : BoundArguments NodeId} {a opened : NodeId}

/-- `open(filename, "rU")` can be made over the name of a file. -/
theorem Ready.makeOpened (h : Ready located P₀ t₀ P t hole parent pending free weight) (ha : a ∈ free)
    (hlow : P.level a + 4 ≤ P.level hole) (source : SourceRef) :
    ∃ mode opened t₁ t₂ P' free', TreeM.makeConstant (.str "rU") source t = .ok mode t₁ ∧
      TreeM.makeBuiltin .builtinOpen [.one (some a), .filled mode, .one none] source t₁ = .ok opened t₂ ∧
      Ready located P₀ t₀ P' t₂ hole parent pending free' (weight + 2) ∧ opened ∈ free' ∧
      P'.level opened + 3 ≤ P'.level hole := by
  obtain ⟨t₁, hrun₁, hready₁, -, -⟩ := h.makeLeaf .constantRef (.constant (.str "rU")) 1 source rfl rfl (by simp)
    (by simp) (by decide)
  have hlevel : (P.add t.nextId hole 0 1).level hole = P.level hole := hready₁.level.trans h.level.symm
  have hane : a ≠ t.nextId := (h.free a ha).loose.ne_nextId
  obtain ⟨t₂, hrun₂, hready₂, -, -⟩ := hready₁.makeOver .builtinOpen .none
    [.one (some a), .filled t.nextId, .one none] 1 source rfl rfl (by simp)
    (show ∀ c ∈ _, c ∈ _ ∧ _ < P.level hole - 3 from fun c hc => by
      rcases (by simpa [Slot.ids, Slot.filled] using hc : c = a ∨ c = t.nextId) with rfl | rfl
      · rw [add_level_of_ne hane]
        exact ⟨by simp [ha], by omega⟩
      · rw [add_level_self]
        exact ⟨by simp, by omega⟩)
    (by simpa [Slot.ids, Slot.filled] using hane) (fun _ c hc => absurd hc (inSlot_pairs_of_none (by decide))) (by simp)
    (by decide) (by simp) (by omega)
  refine ⟨_, _, t₁, t₂, _, _, hrun₁, hrun₂, hready₂, by simp, ?_⟩
  rw [add_level_self, hready₂.level, ← h.level]
  omega

/-- `opened.read()` can be made over an opened file. -/
theorem Ready.makeRead (h : Ready located P₀ t₀ P t hole parent pending free weight) (hopened : opened ∈ free)
    (hlow : P.level opened + 3 ≤ P.level hole) (source : SourceRef) :
    ∃ read text t₁ t₂ P' free', TreeM.makeAttributeLookup opened "read" source t = .ok read t₁ ∧
      TreeM.makeCall read [] [] source t₁ = .ok text t₂ ∧
      Ready located P₀ t₀ P' t₂ hole parent pending free' (weight + 2) ∧ text ∈ free' ∧
      P'.level text < P'.level hole := by
  obtain ⟨t₁, hrun₁, hready₁, -, hget₁⟩ := h.makeOver .attributeLookup (.name "read") [.filled opened]
    1 source rfl rfl (by simp)
    (show ∀ c ∈ _, c ∈ _ ∧ _ < P.level hole - 2 from fun c hc => by
      obtain rfl : c = opened := by simpa [Slot.ids, Slot.filled] using hc
      exact ⟨hopened, by omega⟩)
    (by simp [Slot.ids, Slot.filled]) (fun _ c hc => absurd hc (inSlot_pairs_of_none (by decide))) (by simp)
    (by decide) (by simp) (by omega)
  have hlevel : (P.add t.nextId hole (P.level hole - 2) 1).level hole = P.level hole :=
    hready₁.level.trans h.level.symm
  have hcalled : t.nextId ∈ ({
      kind := .functionCall, slots := [.filled t.nextId, .many [], .many [], .one none, .one none],
      source, payload := .none } : Node).inSlot "called" := by
    simp [Node.inSlot, show NodeKind.functionCall.slotIndex? "called" = some 0 by decide, Slot.ids, Slot.filled]
  obtain ⟨t₂, hrun₂, hready₂, -, -⟩ := hready₁.makeOver .functionCall .none
    [.filled t.nextId, .many [], .many [], .one none, .one none] 1 source rfl rfl (by simp)
    (show ∀ c ∈ _, c ∈ _ ∧ _ < P.level hole - 1 from fun c hc => by
      obtain rfl : c = t.nextId := by simpa [Slot.ids, Slot.filled] using hc
      rw [add_level_self]
      exact ⟨by simp, by omega⟩)
    (by simp [Slot.ids, Slot.filled]) (fun _ c hc => by cases hc) (by simp) (by decide)
    (fun _ _ => ⟨t.nextId, hcalled, _, hget₁, rfl⟩) (by omega)
  refine ⟨_, _, t₁, t₂, _, _, hrun₁, hrun₂, hready₂, by simp, ?_⟩
  rw [add_level_self, hready₂.level, ← h.level]
  omega

/-- The text of a file can be read in the place of its name; the other arguments stay pending. -/
theorem Ready.openAndRead (h : Ready located P₀ t₀ P w.tree hole parent site.arguments [] weight)
    (ha : args.get? 0 = some a) (hmem : a ∈ site.arguments) :
    ∃ text t' P' pending' free', ReplaceM.openAndRead site args s w = .ok text { w with tree := t' } ∧
      Ready located P₀ t₀ P' t' hole parent pending' free' (weight + 4) ∧ text ∈ free' ∧
      P'.level text < P'.level hole ∧ ∀ x ∈ site.arguments, x ≠ a → x ∈ pending' := by
  obtain ⟨t₁, pending₁, free₁, htake, hready₁, -, hpending, -, htaken⟩ := h.takeSlot (s := s) args 0 fun b hb => by
    rwa [← Option.some.inj (ha.symm.trans hb)]
  rw [ha] at htake hpending htaken
  obtain ⟨mode, opened, t₂, t₃, P₂, free₂, hmode, hopen, hready₂, hopened, hlow⟩ :=
    hready₁.makeOpened (htaken.mem a (by simp)) (htaken.level a (by simp)) site.source
  obtain ⟨read, text, t₄, t₅, P₃, free₃, hlookup, hcall, hready₃, htext, hlevel⟩ :=
    hready₂.makeRead hopened hlow site.source
  refine ⟨text, t₅, P₃, pending₁, free₃, ?_, hready₃, htext, hlevel, fun x hx hne => hpending x hx ?_⟩
  · rw [ReplaceM.openAndRead, reads_bind_of_ok htake]
    rw [reads_bind_of_ok (onTree_ok (w := { w with tree := t₁ }) hmode)]
    rw [reads_bind_of_ok (onTree_ok (w := { w with tree := t₂ }) hopen)]
    rw [reads_bind_of_ok (onTree_ok (w := { w with tree := t₃ }) hlookup)]
    exact onTree_ok (w := { w with tree := t₄ }) hcall
  · exact fun e => hne (Option.some.inj e).symm

/-- The text of a file and the namespaces of its execution. -/
theorem Ready.execfileSlots (h : Ready located P₀ t₀ P w.tree hole parent site.arguments [] weight)
    (hargs : Signature.execfile.Binds site.positional site.keywords args) :
    ∃ slots t' P' pending' free', ReplaceM.execfileSlots site args s w = .ok slots { w with tree := t' } ∧
      Ready located P₀ t₀ P' t' hole parent pending' free' (weight + 4) ∧
      (∀ c ∈ slots.flatMap Slot.ids, c ∈ free' ∧ P'.level c < P'.level hole) ∧ (slots.flatMap Slot.ids).Nodup ∧
      checkSlots .statementExec slots = .ok () ∧ checkSlots .builtinExecfile slots = .ok () := by
  have hnodup : site.arguments.Nodup := by simpa using h.nodup
  obtain ⟨a, ha⟩ := hargs.get?_required (i := 0) (by decide)
  obtain ⟨text, t₁, P₁, pending₁, free₁, hread, hready₁, htext, hlevel, hpending⟩ :=
    h.openAndRead (s := s) ha (h.get?_pending hargs 0 a ha)
  -- the namespaces are still pending
  have hlater {i : Nat} (hi : i ≠ 0) {b : NodeId} (hb : args.get? i = some b) : b ∈ pending₁ := by
    refine hpending b (h.get?_pending hargs i b hb) ?_
    rintro rfl
    exact hargs.get?_ne hnodup hi hb ha
  obtain ⟨t₂, pending₂, free₂, hglobals, hready₂, -, hpending₂, hfree₂, htaken₂⟩ := hready₁.takeSlot (s := s)
    (w := { w with tree := t₁ }) args 1 fun b hb => hlater (by decide) hb
  obtain ⟨t₃, pending₃, free₃, hlocals, hready₃, -, -, hfree₃, htaken₃⟩ := hready₂.takeSlot (s := s)
    (w := { w with tree := t₂ }) args 2 fun b hb =>
      hpending₂ b (hlater (by decide) hb) (hargs.get?_ne hnodup (by decide) hb)
  have hflat : ([.filled text, .one (args.get? 1), .one (args.get? 2)] : List Slot).flatMap Slot.ids =
      text :: ((args.get? 1).toList ++ (args.get? 2).toList) := by
    simp [Slot.ids, Slot.filled]
  refine ⟨[.filled text, .one (args.get? 1), .one (args.get? 2)], t₃, _, pending₃, free₃, ?_, hready₃, ?_, ?_, ?_, ?_⟩
  · rw [ReplaceM.execfileSlots, reads_bind_of_ok hread, reads_bind_of_ok hglobals, reads_bind_of_ok hlocals]
    rfl
  · intro c hc
    rw [hflat, List.mem_cons, List.mem_append] at hc
    rcases hc with rfl | hc | hc
    · exact ⟨hfree₃ _ (hfree₂ _ htext), hlevel⟩
    · have := htaken₂.level c hc
      exact ⟨hfree₃ c (htaken₂.mem c hc), by omega⟩
    · have := htaken₃.level c hc
      exact ⟨htaken₃.mem c hc, by omega⟩
  · have hfresh {i : Nat} (hi : i ≠ 0) : text ∉ (args.get? i).toList := by
      intro hmem
      have hb : args.get? i = some text := by simpa using hmem
      exact (List.nodup_append.1 hready₁.nodup).2.2 _ (hlater hi hb) _ htext rfl
    rw [hflat, List.nodup_cons, List.mem_append, List.nodup_append]
    refine ⟨fun hmem => hmem.elim (hfresh (by decide)) (hfresh (by decide)), ?_, ?_, ?_⟩
    · cases args.get? 1 <;> simp
    · cases args.get? 2 <;> simp
    · rintro x hx y hy rfl
      exact hargs.get?_ne hnodup (by decide) (by simpa using hx : args.get? 1 = some x)
        (by simpa using hy : args.get? 2 = some x)
  · cases args.get? 1 <;> cases args.get? 2 <;> rfl
  · cases args.get? 1 <;> cases args.get? 2 <;> rfl

/-- An execution of a file as a statement. -/
theorem Ready.execStatement (h : Ready located P₀ t₀ P w.tree hole parent site.arguments [] weight)
    (hargs : Signature.execfile.Binds site.positional site.keywords args) :
    ∃ slots t₁ t₂ P' pending' free', ReplaceM.execfileSlots site args s w = .ok slots { w with tree := t₁ } ∧
      TreeM.newNode .statementExec site.source .none slots t₁ = .ok t₁.nextId t₂ ∧
      Ready located P₀ t₀ P' t₂ hole parent pending' free' (weight + 5) ∧ t₁.nextId ∈ free' := by
  obtain ⟨slots, t₁, P₁, pending₁, free₁, hslots, hready₁, hids, hnodup, hcomplete, -⟩ := h.execfileSlots (s := s) hargs
  obtain ⟨t₂, P₂, free₂, hmake, hready₂, hnew⟩ := hready₁.makeTop .statementExec .none slots site.source hcomplete rfl
    nofun hids hnodup (fun _ c hc => absurd hc (inSlot_pairs_of_none (by decide))) nofun (by decide)
  exact ⟨slots, t₁, t₂, P₂, pending₁, free₂, hslots, hmake, hready₂, hnew⟩

end Execfile

theorem specializeExecfile_ensures (h : Ready located P₀ t₀ P w.tree hole parent site.arguments [] weight) :
    Ensures located s (specializeExecfile site) w
      (Handled located P₀ t₀ hole parent (weight + 5 + 2 * site.keywords.length) w) := by
  refine .bind_ok version_ok ?_
  split
  · exact .ret rfl
  refine h.withBound (by omega) fun args hargs => ?_
  obtain ⟨slots, t', P', pending', free', hrun, hready, hids, hnodup, -, hcomplete⟩ := h.execfileSlots (s := s) hargs
  refine .bind_ok hrun (hready.makeOperation (w := { w with tree := t' }) .builtinExecfile _ rfl hcomplete rfl hids hnodup
    (fun _ c hc => absurd hc (inSlot_pairs_of_none (by decide))) (by decide) ?_)
  rw [show NodeKind.builtinExecfile.changes = 1 from rfl]
  omega

/-- Entries of a dictionary: different pairs of keys and values, ready to stand below the hole. -/
structure Entries (P : Plan) (t : Tree) (hole : NodeId) (free entries : List NodeId) : Prop where
  nodup : entries.Nodup
  mem : ∀ e ∈ entries, e ∈ free ∧ P.level e < P.level hole
  kind : ∀ e ∈ entries, ∃ n, t.get? e = some n ∧ n.kind = .keyValuePair

/-- One keyword argument becomes an entry. What was free before stays free. -/
theorem Ready.makeEntry (h : Ready located P₀ t₀ P w.tree hole parent pending free weight) (keyword : String × NodeId)
    (hmem : keyword.2 ∈ pending) :
    ∃ e t' P' free', ReplaceM.makeEntry keyword s w = .ok e { w with tree := t' } ∧
      Ready located P₀ t₀ P' t' hole parent (pending.erase keyword.2) free' (weight + 2) ∧ SameKinds w.tree t' ∧
      e ∉ free ∧ e ∈ free' ∧ P'.level e < P'.level hole ∧ (∃ n, t'.get? e = some n ∧ n.kind = .keyValuePair) ∧
      ∀ x ∈ free, x ∈ free' ∧ P'.level x = P.level x := by
  obtain ⟨name, value⟩ := keyword
  have hlow := (h.movable value hmem).level
  have hlevel := h.level
  obtain ⟨q, hq, -⟩ := (h.movable value hmem).parent
  obtain ⟨nv, hnv, -⟩ := parent?_eq_some_iff.1 hq
  obtain ⟨t₁, hrun₁, hready₁, hkinds₁⟩ := h.detach hmem
  obtain ⟨t₂, hrun₂, hready₂, hkinds₂, -⟩ := hready₁.makeLeaf .constantRef (.constant (.str name)) 1 nv.source rfl rfl
    nofun nofun (by decide)
  have hne₁ {x : NodeId} (hx : x ∈ value :: free) : x ≠ t₁.nextId := (hready₁.free x hx).loose.ne_nextId
  have hne₂ {x : NodeId} (hx : x ∈ t₁.nextId :: value :: free) : x ≠ t₂.nextId :=
    (hready₂.free x hx).loose.ne_nextId
  obtain ⟨t₃, hrun₃, hready₃, hkinds₃, hget₃⟩ := hready₂.makeOver .keyValuePair .none
    [.filled t₁.nextId, .filled value] 1 nv.source rfl rfl nofun
    (show ∀ c ∈ _, c ∈ _ ∧ _ < P₀.level hole - 1 from fun c hc => by
      rcases (by simpa [Slot.ids, Slot.filled] using hc : c = t₁.nextId ∨ c = value) with rfl | rfl
      · rw [add_level_self]
        exact ⟨by simp, by omega⟩
      · rw [add_level_of_ne (hne₁ (by simp))]
        exact ⟨by simp, by omega⟩)
    (by simpa [Slot.ids, Slot.filled] using (hne₁ (x := value) (by simp)).symm)
    (fun _ c hc => absurd hc (inSlot_pairs_of_none (by decide))) nofun (by decide) nofun
    (by rw [hready₂.level]; omega)
  refine ⟨t₂.nextId, t₃, _, _, ?_, hready₃, hkinds₁.trans (hkinds₂.trans hkinds₃), fun hf => hne₂ (by simp [hf]) rfl,
    by simp, ?_, ⟨_, hget₃, rfl⟩, fun x hx => ⟨?_, ?_⟩⟩
  · have hkey : TreeM.makeConstant (.str name) nv.source t₁ = .ok t₁.nextId t₂ := hrun₂
    have hpair : TreeM.makeKeyValue t₁.nextId value nv.source t₂ = .ok t₂.nextId t₃ := hrun₃
    rw [ReplaceM.makeEntry, reads_bind_of_ok (ask_ok (source_ok hnv)), reads_bind_of_ok (onTree_ok hrun₁)]
    rw [reads_bind_of_ok (onTree_ok (w := { w with tree := t₁ }) hkey)]
    exact onTree_ok (w := { w with tree := t₂ }) hpair
  · rw [hready₃.level, add_level_self]
    omega
  · have hvalue : x ≠ value := fun e => (List.nodup_append.1 h.nodup).2.2 value hmem x hx e.symm
    have hkey := hne₁ (List.mem_cons_of_mem value hx)
    simp [Slot.ids, Slot.filled, hx, hkey, hvalue]
  · rw [add_level_of_ne (hne₂ (by simp [hx])), add_level_of_ne (hne₁ (by simp [hx]))]

/-- Keyword arguments become entries, one after the other. -/
theorem Ready.makeEntries : ∀ {l : List (String × NodeId)} {P : Plan} {pending free : List NodeId} {weight : Nat}
    {w : Workspace}, Ready located P₀ t₀ P w.tree hole parent pending free weight → (l.map (·.2)).Nodup →
    (∀ k ∈ l, k.2 ∈ pending) →
    ∃ entries t' P' pending' free', l.mapM ReplaceM.makeEntry s w = .ok entries { w with tree := t' } ∧
      Ready located P₀ t₀ P' t' hole parent pending' free' (weight + 2 * l.length) ∧ Entries P' t' hole free' entries ∧
      (∀ e ∈ entries, e ∉ free) ∧ SameKinds w.tree t' ∧ ∀ x ∈ free, x ∈ free' ∧ P'.level x = P.level x
  | [], P, pending, free, weight, w, h, _, _ =>
    ⟨[], w.tree, P, pending, free, rfl, h, ⟨List.nodup_nil, by simp, by simp⟩, by simp, fun x n hn => ⟨n, hn, rfl⟩,
      fun x hx => ⟨hx, rfl⟩⟩
  | k :: l, P, pending, free, weight, w, h, hnodup, hmem => by
    obtain ⟨hnot, hnodup⟩ := List.nodup_cons.1 hnodup
    obtain ⟨e, t₁, P₁, free₁, hrun₁, hready₁, hkinds₁, hfresh, he, hlevel, ⟨n, hn, hk⟩, hold₁⟩ :=
      h.makeEntry (s := s) k (hmem k (by simp))
    obtain ⟨entries, t₂, P₂, pending₂, free₂, hrun₂, hready₂, hentries, hnew, hkinds₂, hold₂⟩ :=
      Ready.makeEntries (l := l) (w := { w with tree := t₁ }) hready₁ hnodup fun k' hk' => by
        have hne : k'.2 ≠ k.2 := fun e => hnot (List.mem_map.2 ⟨k', hk', e⟩)
        exact (List.mem_erase_of_ne hne).2 (hmem k' (List.mem_cons_of_mem k hk'))
    refine ⟨e :: entries, t₂, P₂, pending₂, free₂, ?_, ?_, ⟨?_, ?_, ?_⟩, ?_, hkinds₁.trans hkinds₂, fun x hx => ?_⟩
    · rw [List.mapM_cons, reads_bind_of_ok hrun₁, reads_bind_of_ok hrun₂]
      rfl
    · rw [show weight + 2 * (k :: l).length = weight + 2 + 2 * l.length by simp; omega]
      exact hready₂
    · exact List.nodup_cons.2 ⟨fun hmem => hnew e hmem he, hentries.nodup⟩
    · intro x hx
      rcases List.mem_cons.1 hx with rfl | hx
      · rw [(hold₂ x he).2, hready₂.level, ← hready₁.level]
        exact ⟨(hold₂ x he).1, hlevel⟩
      · exact hentries.mem x hx
    · intro x hx
      rcases List.mem_cons.1 hx with rfl | hx
      · obtain ⟨n', hn', hk'⟩ := hkinds₂ x n hn
        exact ⟨n', hn', hk'.trans hk⟩
      · exact hentries.kind x hx
    · intro x hx
      rcases List.mem_cons.1 hx with rfl | hx
      · exact hfresh
      · exact fun hf => hnew x hx (hold₁ x hf).1
    · obtain ⟨hx₁, hlevel₁⟩ := hold₁ x hx
      obtain ⟨hx₂, hlevel₂⟩ := hold₂ x hx₁
      exact ⟨hx₂, hlevel₂.trans hlevel₁⟩

theorem specializeDict_ensures (h : Ready located P₀ t₀ P w.tree hole parent site.arguments [] weight) :
    Ensures located s (specializeDict site) w
      (Handled located P₀ t₀ hole parent (weight + 5 + 2 * site.keywords.length) w) := by
  refine h.withBound (by omega) fun args hargs => ?_
  obtain ⟨hnodup, hmem⟩ := h.values_pending hargs
  obtain ⟨-, hstar, hdisjoint⟩ := List.nodup_append.1 hnodup
  obtain ⟨-, hdict, -⟩ := List.nodup_append.1 hstar
  have hvalue {i : Nat} {a : NodeId} (ha : args.get? i = some a) : a ∈ args.values.filterMap id := by
    rw [List.mem_filterMap]
    refine ⟨some a, ?_, rfl⟩
    unfold BoundArguments.get? at ha
    exact List.mem_of_getElem? (Option.join_eq_some_iff.1 ha)
  obtain ⟨t₁, pending₁, free₁, hrun₁, hready₁, hkinds₁, hpending₁, -, htaken⟩ := h.takeSlot (s := s) args 0
    (h.get?_pending hargs 0)
  obtain ⟨entries, t₂, P₂, pending₂, free₂, hrun₂, hready₂, hentries, hnew, hkinds₂, hold⟩ :=
    hready₁.makeEntries (s := s) (w := { w with tree := t₁ }) (l := args.starDict) hdict fun k hk => by
      have hk' : k.2 ∈ args.starList ++ args.starDict.map (·.2) :=
        List.mem_append_right _ (List.mem_map.2 ⟨k, hk, rfl⟩)
      refine hpending₁ k.2 (hmem _ (List.mem_append_right _ hk')) fun ha => ?_
      exact hdisjoint _ (hvalue ha) _ hk' rfl
  have hids : ([.one (args.get? 0), .many entries] : List Slot).flatMap Slot.ids =
      (args.get? 0).toList ++ entries := by
    simp [Slot.ids]
  refine .bind_ok hrun₁ (.bind_ok hrun₂ (hready₂.makeOperation (w := { w with tree := t₂ }) .builtinDict
    [.one (args.get? 0), .many entries] rfl ?_ rfl (fun c hc => ?_) ?_ (fun source c hc m hm => ?_) (by decide) ?_))
  · cases args.get? 0 <;> rfl
  · rw [hids] at hc
    rcases List.mem_append.1 hc with hc | hc
    · have := htaken.level c hc
      obtain ⟨hc₂, hlevel⟩ := hold c (htaken.mem c hc)
      rw [hlevel, hready₂.level, ← hready₁.level]
      exact ⟨hc₂, by omega⟩
    · exact hentries.mem c hc
  · rw [hids, List.nodup_append]
    refine ⟨by cases args.get? 0 <;> simp, hentries.nodup, ?_⟩
    rintro a ha e he rfl
    exact hnew a he (htaken.mem a ha)
  · have hc' : c ∈ entries := by
      simpa [Node.inSlot, show NodeKind.builtinDict.slotIndex? "pairs" = some 1 by decide, Slot.ids] using hc
    obtain ⟨n, hn, hk⟩ := hentries.kind c hc'
    obtain rfl : n = m := Option.some.inj (hn.symm.trans hm)
    exact hk
  · have : args.starDict.length ≤ site.keywords.length := hargs.starDict
    rw [show NodeKind.builtinDict.changes = 2 from rfl]
    omega

end Handlers

end Specializer.Plan
