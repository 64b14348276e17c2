import Specializer.Proofs.FixedPoint.Passes

/-!
# What the optimizer guarantees

On a tree whose calls and references are what they should be, two things hold whatever the options are:

* the optimizer never runs into a refused operation: it ends with a tree of the same sort, or the passes it is allowed do
  not suffice (`optimizeModule_outcome`);
* however many passes are run, the changes they announce are bounded by the size of the tree they started from
  (`passes_bounded`).
-/

namespace Specializer

/-! ## Trees to start from -/

namespace Tree

/-- A valid tree, built by operations, in which keyword arguments and entries are pairs and every reference is inside the
scope that owns its variable. -/
structure Proper (t : Tree) : Prop where
  built : t.Built
  valid : t.validate = .ok ()
  pairs : ∀ id pairs, t.isReachable id = true → t.childrenIn id "pairs" = .ok pairs →
    ∀ pair ∈ pairs, t.kind pair = .ok .keyValuePair
  owner : ∀ id v, t.isReachable id = true → t.kind id = .ok .variableRef → t.variableOf? id = some v →
    ∃ b kind, t.variableAt v = .ok b ∧ t.isAncestor b.owner id = true ∧ t.kind b.owner = .ok kind ∧ kind.isScope = true

/-- A proper tree of a whole module. -/
structure WellFormed (t : Tree) : Prop extends t.Proper where
  module : ∃ root, t.root = some root ∧ t.kind root = .ok .module

/-- Nothing in the tree is a hard import yet. -/
def HasNoHardImport (t : Tree) : Prop := ∀ id spec, t.isReachable id = true → t.payload id ≠ .ok (.hardImport spec)

variable {t : Tree} {located : ModuleName → Prop} {credit : NodeId → Nat}

theorem Consistent.childrenIn_eq_ok (h : t.Consistent) {id : NodeId} {n : Node} (hn : t.get? id = some n) {name : String}
    {ids : List NodeId} (hids : t.childrenIn id name = .ok ids) : ids = n.inSlot name := by
  cases hi : n.kind.slotIndex? name with
  | none =>
    have hslot : t.slot id name = .error (.unknownSlot n.kind name) := by
      rw [Tree.slot, node_of_get? hn, ok_bind, hi]
      rfl
    rw [childrenIn, hslot] at hids
    cases hids
  | some i => exact Except.ok.inj (hids.symm.trans (h.childrenIn_ok hn name hi))

/-- On a proper tree every node may have seven changes on its account: enough for any node to pay for what it can lead
to. -/
theorem Proper.orderly (h : t.Proper)
    (hlocated : ∀ id spec, t.isReachable id = true → t.payload id = .ok (.hardImport spec) → located spec.module) :
    t.Orderly located fun _ => 7 := by
  have hc := h.built.consistent
  obtain ⟨root, hroot, hcomplete⟩ := hc.validate_eq_ok_iff.1 h.valid
  have below {x : NodeId} (hx : t.Reachable x) : t.Below x root := by
    obtain ⟨r, hr, hb⟩ := hx
    exact Option.some.inj (hr.symm.trans hroot) ▸ hb
  refine ⟨h.built, ⟨root, hroot⟩, fun {x n} hn hx => hcomplete x (below hx) n hn, fun {x n} hn hx c hc' m hm => ?_,
    fun {x n} hn hx hkind v hv => ?_, fun {x n} hn hx spec hspec => ?_, fun {x n} _ _ => ?_,
    fun _ _ _ => Or.inr (Nat.le_refl _)⟩
  · cases hi : n.kind.slotIndex? "pairs" with
    | none => simp [Node.inSlot, hi] at hc'
    | some i =>
      have hk := h.pairs x _ (hc.isReachable_iff.2 hx) (hc.childrenIn_ok hn "pairs" hi) c hc'
      obtain ⟨m', hm', hk⟩ := kind_eq_ok_iff.1 hk
      exact Option.some.inj (hm'.symm.trans hm) ▸ hk
  · have hvar : t.variableOf? x = some v := by simp [variableOf?, hn, Node.referent?, hv]
    obtain ⟨b, kind, hb, habove, howner, hscope⟩ :=
      h.owner x v (hc.isReachable_iff.2 hx) (kind_eq_ok_iff.2 ⟨n, hn, hkind⟩) hvar
    obtain ⟨m, hm, rfl⟩ := kind_eq_ok_iff.1 howner
    exact ⟨b, variableAt_eq_ok_iff.1 hb, hc.isAncestor_iff.1 habove, m, hm, hscope⟩
  · refine hlocated x spec (hc.isReachable_iff.2 hx) ?_
    rw [Tree.payload, node_of_get? hn, ← hspec]
    rfl
  · cases n.kind <;> decide

/-- What is in order is proper. -/
theorem Orderly.proper (h : t.Orderly located credit) : t.Proper := by
  have hc := h.built.consistent
  obtain ⟨root, hroot⟩ := h.root
  refine ⟨h.built, hc.validate_eq_ok_iff.2 ⟨root, hroot, fun x hx n hn => h.complete hn ⟨root, hroot, hx⟩⟩, ?_, ?_⟩
  · intro id pairs hid hpairs pair hpair
    have hid := hc.isReachable_iff.1 hid
    obtain ⟨n, hn⟩ := hc.live_of_reachable hid
    rw [hc.childrenIn_eq_ok hn hpairs] at hpair
    obtain ⟨m, hm, -⟩ := hc.held hn (Node.mem_children_of_inSlot hpair)
    exact kind_eq_ok_iff.2 ⟨m, hm, h.pairs hn hid pair hpair m hm⟩
  · intro id v hid hkind hv
    obtain ⟨n, hn, hkind⟩ := kind_eq_ok_iff.1 hkind
    have hpayload : n.payload = .var v := by
      simp only [variableOf?, hn, Option.bind_some, Node.referent?] at hv
      split at hv
      · next hp => rw [hp, Option.some.inj hv]
      · cases hv
    obtain ⟨b, hb, habove, m, hm, hscope⟩ := h.owner hn (hc.isReachable_iff.1 hid) hkind v hpayload
    exact ⟨b, m.kind, variableAt_eq_ok_iff.2 hb, hc.isAncestor_iff.2 habove, kind_eq_ok_iff.2 ⟨m, hm, rfl⟩, hscope⟩

end Tree

section Sample

/-- The module `dict(a="b")`. -/
def Tree.keywordCall : Tree :=
  .applyAll {} [
    .newNode .module default (.scope "m") [.one none],
    .declareVariable ⟨0⟩ "dict" .module,
    .newNode .variableRef default (.var ⟨0⟩) [],
    .newNode .constantRef default (.constant (.str "a")) [],
    .newNode .constantRef default (.constant (.str "b")) [],
    .newNode .keyValuePair default .none [.filled ⟨2⟩, .filled ⟨3⟩],
    .newNode .functionCall default .none [.filled ⟨1⟩, .many [], .many [⟨4⟩], .one none, .one none],
    .newNode .statementExpressionOnly default .none [.filled ⟨5⟩],
    .newNode .statementsSequence default .none [.many [⟨6⟩]],
    .setBody ⟨0⟩ ⟨7⟩,
    .setRoot ⟨0⟩]

/-- What holds of all handles up to the size of the arena holds of all reachable nodes. -/
theorem Tree.Consistent.forall_reachable {t : Tree} {p : NodeId → Prop} (h : t.Consistent)
    (hall : ∀ i < t.nodes.size, p ⟨i⟩) (id : NodeId) (hid : t.isReachable id = true) : p id := by
  obtain ⟨n, hn⟩ := h.live_of_reachable (h.isReachable_iff.1 hid)
  exact hall id.index (lt_size_of_get? hn)

theorem Tree.keywordCall_wellFormed : keywordCall.WellFormed := by
  have hbuilt : keywordCall.Built := ⟨_, rfl⟩
  have hc := hbuilt.consistent
  refine ⟨⟨hbuilt, by decide +kernel, fun id pairs hid hpairs => ?_, fun id v hid hkind hv => ?_⟩, ⟨0⟩, ?_⟩
  · have hall := hc.forall_reachable (p := fun id => ((keywordCall.childrenIn id "pairs").toOption.getD []).all
      fun pair => keywordCall.kind pair = .ok .keyValuePair) (by decide +kernel) id hid
    simpa [hpairs, Except.toOption] using hall
  · have hall := hc.forall_reachable (p := fun id => keywordCall.kind id = .ok .variableRef → id = ⟨1⟩) (by decide +kernel)
      id hid hkind
    subst hall
    obtain rfl : v = ⟨0⟩ := Option.some.inj (hv.symm.trans (by decide +kernel))
    exact ⟨{ name := "dict", owner := ⟨0⟩, kind := .module }, .module, by decide +kernel⟩
  · decide +kernel

theorem Tree.keywordCall_hasNoHardImport : keywordCall.HasNoHardImport := by
  have hbuilt : keywordCall.Built := ⟨_, rfl⟩
  intro id spec hid
  have hall := hbuilt.consistent.forall_reachable (p := fun id =>
    ((keywordCall.payload id).toOption.any fun payload => payload.form = .hardImport) = false) (by decide +kernel) id hid
  intro hpayload
  rw [hpayload] at hall
  cases hall

end Sample

/-! ## Locators -/

/-- The locators a compilation comes with. -/
inductive Locator.Supplied : Locator → Prop where
  | standard (fs : FileSystem) (version : Version) (searchPaths : List String) :
    Supplied (.standard fs version searchPaths)
  | ofTable (modules : List (ModuleName × ModuleFinding)) : Supplied (.ofTable modules)

theorem Locator.Supplied.exists_probe {locator : Locator} (h : locator.Supplied) :
    ∃ probe, locator = .ofProbe probe := by
  cases h with
  | standard fs version searchPaths => exact ⟨_, rfl⟩
  | ofTable modules => exact ⟨_, rfl⟩

theorem ModuleFinding.isFound_of_ne {finding : ModuleFinding} (h : finding ≠ .notFound) : finding.isFound = true := by
  cases finding with
  | notFound => exact absurd rfl h
  | _ => rfl

/-- A module that is found under its own name is there for an absolute import too. -/
theorem Locator.ofProbe_absolute (probe : ModuleName → ModuleFinding) {module : ModuleName} {package? : Option ModuleName}
    {level : Int64} {finding : ModuleFinding} (hname : module.isEmpty = false)
    (h : (ofProbe probe).locate module package? level = (module, finding)) (hfound : finding ≠ .notFound) :
    ((ofProbe probe).locate module none 0).2.isFound = true := by
  have hprobe : finding = probe module := by
    simp only [ofProbe, resolve] at h
    split at h
    · split at h
      · exact (Prod.mk.inj h).2.symm
      · split at h
        · obtain ⟨hrelative, hf⟩ := Prod.mk.inj h
          rw [← hf, hrelative]
        · exact (Prod.mk.inj h).2.symm
    · split at h
      · split at h
        · exact absurd (Prod.mk.inj h).2.symm hfound
        · obtain ⟨hfull, hf⟩ := Prod.mk.inj h
          rw [← hf, hfull]
      · exact absurd (Prod.mk.inj h).2.symm hfound
  have habsolute : (ofProbe probe).locate module none 0 = (module, probe module) := by
    have hself : ModuleName.relativeTo? none (Int64.toUInt64 0) module.text = some module := rfl
    simp only [ofProbe, resolve, hself, hname]
    rfl
  rw [habsolute, ← hprobe]
  exact ModuleFinding.isFound_of_ne hfound

theorem knows_of_supplied (options : Options) {locator : Locator} (h : locator.Supplied) :
    Plan.Knows (fun module => (locator.locate module none 0).2.isFound = true) ⟨options, locator⟩ := by
  obtain ⟨probe, rfl⟩ := h.exists_probe
  intro module package? level finding hhard hlocate hfound
  refine Locator.ofProbe_absolute probe ?_ hlocate hfound
  have hnames : ∀ name ∈ HardImport.modules, name.isEmpty = false := by decide
  exact hnames module.text (by simpa [HardImport.isHardModule] using hhard)

/-! ## The outcome of a run -/

/-- The error of a run that is not stable after the allowed passes. -/
def passLimitError (options : Options) : CompileError :=
  .internal s!"optimization did not reach a fixed point after {options.maxPasses} passes"

section Outcome

variable {located : ModuleName → Prop} {s : Settings} {kind : NodeKind} {budget : Nat}

/-- A run after one more pass. -/
def Run.counted (r : Run) : Run := { r with report := { r.report with passes := r.report.passes + 1 } }

theorem runPasses_of_ok {r r' : Run} (h : RunM.runPass s r = .ok () r') (left : Nat) :
    RunM.runPasses (left + 1) s r = if r'.report.changes.size = r.report.changes.size
      then .ok () { r'.counted with state := .stable } else RunM.runPasses left s r'.counted := by
  rw [RunM.runPasses, reads_bind_of_ok (show (get : RunM Run) s r = .ok r r from rfl), reads_bind_of_ok h]
  show (ite (r'.report.changes.size = r.report.changes.size) _ _ : RunM Unit) s r'.counted = _
  split <;> rfl

theorem runPasses_of_error {r r' : Run} {e : CompileError} (h : RunM.runPass s r = .error e r') (left : Nat) :
    RunM.runPasses (left + 1) s r = .error e r' := by
  rw [RunM.runPasses, reads_bind_of_ok (show (get : RunM Run) s r = .ok r r from rfl), reads_bind_of_error h]

/-- Passes end with a tree in order or run out, unless a module is misplaced. -/
theorem Running.runPasses_outcome (hknows : Plan.Knows located s) : ∀ {left : Nat} {r : Run},
    Running located kind budget r →
    (∃ r', RunM.runPasses left s r = .ok () r' ∧ Running located kind budget r') ∨
      (∃ r', RunM.runPasses left s r = .error (passLimitError s.options) r') ∨ s.Misplaced located
  | 0, r, _ => Or.inr (Or.inl ⟨r, rfl⟩)
  | left + 1, r, h => by
    have hpass := h.runPass_ensures hknows
    unfold Ensures at hpass
    cases hrun : RunM.runPass s r with
    | error e r₁ =>
      rw [hrun] at hpass
      exact Or.inr (Or.inr hpass)
    | ok _ r₁ =>
      rw [hrun] at hpass
      rw [runPasses_of_ok hrun]
      split
      · exact Or.inl ⟨_, rfl, hpass.1.root, hpass.1.paid⟩
      · exact runPasses_outcome hknows ⟨hpass.1.root, hpass.1.paid⟩

/-- **The optimizer never breaks the rules of the tree.** It ends with a tree that is well formed again, but for the hard
imports it made, or the passes it is allowed do not suffice; nothing else can happen. -/
theorem optimizeModule_outcome (options : Options) {locator : Locator} (hlocator : locator.Supplied) {t : Tree}
    (h : t.WellFormed) (hsoft : t.HasNoHardImport) :
    (∃ report run, optimizeModule ⟨options, locator⟩ t = .ok report run ∧ run.tree.validate = .ok () ∧
        run.tree.WellFormed) ∨
      ∃ run, optimizeModule ⟨options, locator⟩ t = .error (passLimitError options) run := by
  have hknows := knows_of_supplied options hlocator
  have horderly : t.Orderly (fun module => (locator.locate module none 0).2.isFound = true) fun _ => 7 :=
    h.toProper.orderly fun id spec hid hspec => absurd hspec (hsoft id spec hid)
  obtain ⟨root, hroot, hkind⟩ := h.module
  obtain ⟨n, hn, hkind⟩ := Tree.kind_eq_ok_iff.1 hkind
  have hstart : Running _ .module _ { tree := t } := ⟨⟨root, n, hroot, hn, hkind⟩, _, horderly, Nat.le_refl _⟩
  have hread : (read : RunM Settings) ⟨options, locator⟩ { tree := t } = .ok ⟨options, locator⟩ { tree := t } := rfl
  unfold optimizeModule RunM.optimize
  rw [reads_bind_of_ok hread]
  rcases hstart.runPasses_outcome hknows with ⟨r, hrun, hend⟩ | ⟨r, hrun⟩ | ⟨module, hfound, hnot⟩
  · obtain ⟨root', n', hroot', hn', hkind'⟩ := hend.root
    obtain ⟨credit, horderly', -⟩ := hend.paid
    have hproper := horderly'.proper
    rw [reads_bind_of_ok hrun, reads_bind_of_ok (Running.query_ok hproper.valid)]
    exact Or.inl ⟨_, r, rfl, hproper.valid, hproper, root', hroot', Tree.kind_eq_ok_iff.2 ⟨n', hn', hkind'⟩⟩
  · rw [reads_bind_of_error hrun]
    exact Or.inr ⟨r, rfl⟩
  · exact absurd hfound hnot

theorem optimizeModule_outcome_keywordCall :
    (∃ report run, optimizeModule ⟨{}, .ofTable []⟩ Tree.keywordCall = .ok report run ∧
        run.tree.validate = .ok () ∧ run.tree.WellFormed) ∨
      ∃ run, optimizeModule ⟨{}, .ofTable []⟩ Tree.keywordCall = .error (passLimitError {}) run :=
  optimizeModule_outcome {} (.ofTable []) Tree.keywordCall_wellFormed Tree.keywordCall_hasNoHardImport

end Outcome

/-! ## How many changes there can be -/

/-- Passes one after the other, each with the number of changes it announced. -/
inductive Passes (s : Settings) : Run → List Nat → Run → Prop where
  | nil (r : Run) : Passes s r [] r
  | cons {r r' r'' : Run} {signals : List Nat} (pass : RunM.runPass s r = .ok () r') (rest : Passes s r' signals r'') :
    Passes s r ((r'.report.changes.size - r.report.changes.size) :: signals) r''

theorem Running.passes {located : ModuleName → Prop} {s : Settings} {kind : NodeKind} {budget : Nat} {r r' : Run}
    {signals : List Nat} (hknows : Plan.Knows located s) (h : Running located kind budget r)
    (hpasses : Passes s r signals r') :
    Running located kind budget r' ∧ r'.report.changes.size = r.report.changes.size + signals.sum := by
  induction hpasses with
  | nil r => exact ⟨h, rfl⟩
  | cons pass rest ih =>
    have hstep := h.runPass_ensures hknows
    unfold Ensures at hstep
    rw [pass] at hstep
    obtain ⟨hend, hsum⟩ := ih hstep.1
    have hgrows := hstep.2
    refine ⟨hend, ?_⟩
    rw [hsum, List.sum_cons]
    omega

theorem countP_le_sum : ∀ signals : List Nat, signals.countP (0 < ·) ≤ signals.sum
  | [] => Nat.le_refl _
  | n :: signals => by
    have := countP_le_sum signals
    rw [List.countP_cons, List.sum_cons]
    split
    · next hn =>
      have : 0 < n := by simpa using hn
      omega
    · omega

/-- **The optimizer converges.** However many passes are run on a proper tree, with any options and any locator, they
announce no more changes than seven for each node that was live in the beginning; so no more passes than that announce
anything at all. -/
theorem passes_bounded (s : Settings) {t : Tree} {signals : List Nat} {r : Run} (h : t.Proper)
    (hpasses : Passes s { tree := t } signals r) :
    r.report.changes.size = signals.sum ∧ signals.sum ≤ 7 * t.liveCount ∧
      signals.countP (0 < ·) ≤ 7 * t.liveCount := by
  have horderly : t.Orderly (fun _ => True) fun _ => 7 := h.orderly fun _ _ _ _ => trivial
  obtain ⟨root, hroot⟩ := horderly.root
  obtain ⟨n, hn, -⟩ := h.built.consistent.root hroot
  have hstart : Running (fun _ => True) n.kind (7 * t.liveCount) { tree := t } := by
    refine ⟨⟨root, n, hroot, hn, rfl⟩, _, horderly, ?_⟩
    rw [Tree.weight_const, Tree.card_handles]
    simp [ChangeLog.size]
  obtain ⟨hend, hsum⟩ := hstart.passes (fun _ _ _ _ _ _ _ => trivial) hpasses
  obtain ⟨credit, -, hpaid⟩ := hend.paid
  have hcount := countP_le_sum signals
  simp only [ChangeLog.size, List.length_nil, Nat.zero_add] at hsum hpaid
  refine ⟨hsum, ?_, ?_⟩ <;> omega

theorem passes_bounded_keywordCall : ∃ signals r,
    Passes ⟨{}, .ofTable []⟩ { tree := Tree.keywordCall } signals r ∧ 0 < signals.sum ∧
      signals.sum ≤ 7 * Tree.keywordCall.liveCount ∧ signals.countP (0 < ·) ≤ 7 * Tree.keywordCall.liveCount := by
  have hpass : (match RunM.runPass ⟨{}, .ofTable []⟩ { tree := Tree.keywordCall } with
      | .ok _ r => decide (0 < r.report.changes.size)
      | .error _ _ => false) = true := by decide +kernel
  generalize hrun : RunM.runPass ⟨{}, .ofTable []⟩ { tree := Tree.keywordCall } = outcome at hpass
  cases outcome with
  | error e r => cases hpass
  | ok _ r =>
    have hpasses := Passes.cons hrun (.nil r)
    have hbounded := passes_bounded ⟨{}, .ofTable []⟩ Tree.keywordCall_wellFormed.toProper hpasses
    refine ⟨_, r, hpasses, ?_, hbounded.2⟩
    rw [← hbounded.1]
    simpa using hpass

end Specializer
