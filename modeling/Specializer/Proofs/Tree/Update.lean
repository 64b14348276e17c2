import Specializer.Proofs.Tree.Walk

/-!
# What the operations on trees do

For each operation that changes a tree, when it succeeds and what it leaves behind. Taking a child out of its parent and
putting another in its place are seen through their effect on all slots at once: every occurrence of the child is
dropped (`Slot.without`) or renamed (`Slot.renamed`), since a consistent tree has only one.
-/

namespace Specializer

theorem map_ite_of_not_mem {l : List NodeId} {a b : NodeId} (h : a ∉ l) :
    l.map (fun c => if c = a then b else c) = l := by
  conv => rhs; rw [← List.map_id l]
  exact List.map_congr_left fun c hc => if_neg fun e : c = a => h (e ▸ hc)

theorem count_map_ite {l : List NodeId} {a b c : NodeId} (hne : b ≠ a) (h : b ∉ l) :
    (l.map fun x => if x = a then b else x).count c = if c = b then l.count a else if c = a then 0 else l.count c := by
  induction l with
  | nil => simp
  | cons x l ih =>
    obtain ⟨hx, hl⟩ : b ≠ x ∧ b ∉ l := by simpa using h
    simp only [List.map_cons, List.count_cons, ih hl, beq_iff_eq]
    grind

theorem replace_eq_map {l : List NodeId} {a b : NodeId} (h : l.count a = 1) :
    l.replace a b = l.map fun c => if c = a then b else c := by
  induction l with
  | nil => rfl
  | cons c l ih =>
    by_cases hc : c = a
    · subst hc
      have hnot : c ∉ l := by simpa [List.count_eq_zero] using h
      simp [map_ite_of_not_mem hnot]
    · rw [List.count_cons_of_ne (by simpa using hc)] at h
      have hac : (a == c) = false := by simpa using Ne.symm hc
      simp [List.replace_cons, hac, ih h, hc]

namespace Slot

/-- The slot with another node in the place of `old`. -/
def renamed (old new : NodeId) : Slot → Slot
  | .one child => .one (child.map fun c => if c = old then new else c)
  | .many children => .many (children.map fun c => if c = old then new else c)

/-- The slot without a node. -/
def without (id : NodeId) : Slot → Slot
  | .one child => .one (child.filter (· ≠ id))
  | .many children => .many (children.filter (· ≠ id))

variable {old new id : NodeId} {s : Slot}

@[simp] theorem ids_renamed : (s.renamed old new).ids = s.ids.map fun c => if c = old then new else c := by
  rcases s with (_ | _) | _ <;> rfl

@[simp] theorem ids_without : (s.without id).ids = s.ids.filter (· ≠ id) := by
  rcases s with (_ | c) | cs
  · rfl
  · by_cases h : c = id <;> simp [without, ids, Option.filter, h]
  · rfl

@[simp] theorem isSequence_renamed : (s.renamed old new).isSequence = s.isSequence := by cases s <;> rfl

@[simp] theorem isSequence_without : (s.without id).isSequence = s.isSequence := by cases s <;> rfl

theorem renamed_self (s : Slot) (id : NodeId) : s.renamed id id = s := by
  have hsame : (fun c => if c = id then id else c) = fun c => c := by
    funext c
    split
    · next h => exact h.symm
    · rfl
  rcases s with c | cs <;> simp [renamed, hsame]

theorem renamed_of_not_mem (h : old ∉ s.ids) : s.renamed old new = s := by
  rcases s with (_ | c) | cs
  · rfl
  · have hne : c ≠ old := by simpa [ids, eq_comm] using h
    simp [renamed, hne]
  · exact congrArg many (map_ite_of_not_mem h)

theorem renamed_renamed {mid : NodeId} (h : mid ∉ s.ids) : (s.renamed old mid).renamed mid new = s.renamed old new := by
  have hname {c : NodeId} (hc : c ∈ s.ids) :
      (if (if c = old then mid else c) = mid then new else if c = old then mid else c) = if c = old then new else c := by
    have hne : c ≠ mid := fun e => h (e ▸ hc)
    by_cases hold : c = old
    · simp [hold]
    · simp [hold, hne]
  rcases s with (_ | c) | cs
  · rfl
  · exact congrArg (fun c => one (some c)) (hname (c := c) (by simp [ids]))
  · exact congrArg many ((List.map_map ..).trans (List.map_congr_left fun c hc => hname (c := c) hc))

theorem without_of_not_mem (h : id ∉ s.ids) : s.without id = s := by
  rcases s with (_ | c) | cs
  · rfl
  · have hne : c ≠ id := by simpa [ids, eq_comm] using h
    simp [without, Option.filter, hne]
  · have hfilter : cs.filter (· ≠ id) = cs := List.filter_eq_self.2 fun c hc => by
      simpa using fun e : c = id => h (e ▸ hc)
    rw [without, hfilter]

theorem replace?_eq (h : s.ids.count old ≤ 1) :
    s.replace? old new = if old ∈ s.ids then some (s.renamed old new) else none := by
  rcases s with (_ | c) | cs
  · rfl
  · by_cases hc : c = old
    · simp [replace?, renamed, ids, hc]
    · simp [replace?, ids, hc, Ne.symm hc]
  · by_cases hmem : old ∈ cs
    · have hcount : cs.count old = 1 := Nat.le_antisymm h (List.count_pos_iff.2 hmem)
      simp [replace?, renamed, ids, hmem, replace_eq_map hcount]
    · simp [replace?, ids, hmem]

theorem remove?_eq : s.remove? id = if id ∈ s.ids then some (s.without id) else none := by
  rcases s with (_ | c) | cs
  · rfl
  · by_cases hc : c = id
    · simp [remove?, without, ids, hc, Option.filter]
    · simp [remove?, ids, hc, Ne.symm hc]
  · by_cases hmem : id ∈ cs <;> simp [remove?, without, ids, hmem]

end Slot

namespace Tree

/-- An edit that finds its node in exactly one place changes nothing else. -/
theorem editFirst_eq {edit : Slot → Option Slot} {edited : Slot → Slot} {id : NodeId} {slots : List Slot}
    (hedit : ∀ s ∈ slots, edit s = if id ∈ s.ids then some (edited s) else none)
    (hsame : ∀ s, id ∉ s.ids → edited s = s) (hcount : (slots.flatMap Slot.ids).count id = 1) :
    editFirst edit slots = some (slots.map edited) := by
  induction slots with
  | nil => simp at hcount
  | cons s rest ih =>
    rw [List.flatMap_cons, List.count_append] at hcount
    rw [editFirst, hedit s (by simp)]
    by_cases hmem : id ∈ s.ids
    · have hrest : id ∉ rest.flatMap Slot.ids := by
        have := List.count_pos_iff.2 hmem
        exact List.count_eq_zero.1 (by omega)
      have hmap : rest.map edited = rest := by
        conv => rhs; rw [← List.map_id rest]
        exact List.map_congr_left fun s' hs' => hsame s' fun h => hrest (List.mem_flatMap.2 ⟨s', hs', h⟩)
      simp [hmem, hmap]
    · rw [List.count_eq_zero.2 hmem, Nat.zero_add] at hcount
      simp [hmem, hsame s hmem, ih (fun s' hs' => hedit s' (List.mem_cons_of_mem s hs')) hcount]

theorem editFirst_replace {old new : NodeId} {slots : List Slot} (hcount : (slots.flatMap Slot.ids).count old = 1) :
    editFirst (Slot.replace? old new) slots = some (slots.map (Slot.renamed old new)) := by
  refine editFirst_eq (fun s hs => Slot.replace?_eq ?_) (fun _ => Slot.renamed_of_not_mem) hcount
  obtain ⟨before, after, rfl⟩ := List.append_of_mem hs
  simp only [List.flatMap_append, List.flatMap_cons, List.count_append] at hcount
  omega

theorem editFirst_remove {id : NodeId} {slots : List Slot} (hcount : (slots.flatMap Slot.ids).count id = 1) :
    editFirst (Slot.remove? id) slots = some (slots.map (Slot.without id)) :=
  editFirst_eq (fun _ _ => Slot.remove?_eq) (fun _ => Slot.without_of_not_mem) hcount

theorem flatMap_renamed {old new : NodeId} (slots : List Slot) :
    (slots.map (Slot.renamed old new)).flatMap Slot.ids =
      (slots.flatMap Slot.ids).map fun c => if c = old then new else c := by
  rw [List.flatMap_map, List.map_flatMap]
  simp

theorem flatMap_without {id : NodeId} (slots : List Slot) :
    (slots.map (Slot.without id)).flatMap Slot.ids = (slots.flatMap Slot.ids).filter (· ≠ id) := by
  rw [List.flatMap_map, List.filter_flatMap]
  simp

theorem Slot.fits_renamed {s : Slot} {a : Arity} {old new : NodeId} (h : s.fits a = true) :
    (s.renamed old new).fits a = true := by
  rcases s with (_ | c) | cs <;> cases a <;> first | rfl | simp [Slot.fits] at h

theorem checkForms_map {kind : NodeKind} {f : Slot → Slot} (hf : ∀ s a, s.fits a = true → (f s).fits a = true) :
    ∀ {specs : List SlotSpec} {slots : List Slot}, checkForms kind specs slots = .ok () →
      checkForms kind specs (slots.map f) = .ok ()
  | [], _, _ => by simp [checkForms]
  | _ :: _, [], _ => rfl
  | spec :: specs, s :: slots, h => by
    rw [checkForms] at h
    split at h
    · next hfits =>
      rw [List.map_cons, checkForms, if_pos (hf s _ hfits)]
      exact checkForms_map hf h
    · cases h

/-- An edit that keeps every slot filled that was filled keeps slots in order. -/
theorem checkSlots_map {kind : NodeKind} {slots : List Slot} {f : Slot → Slot}
    (hf : ∀ s a, s.fits a = true → (f s).fits a = true) (h : checkSlots kind slots = .ok ()) :
    checkSlots kind (slots.map f) = .ok () := by
  unfold checkSlots at h ⊢
  split at h
  · next hlen =>
    rw [if_pos (by simpa using hlen)]
    exact checkForms_map hf h
  · cases h

/-! ## Exchanges -/

section Exchanges

variable {t : Tree} {id old new parent : NodeId} {n : Node}

/-- Putting a loose node in the place of a child is in order, unless the child hangs below it. -/
theorem Consistent.exchange_renamed (h : t.Consistent) (hp : t.get? parent = some n) (hold : t.IsParent old parent)
    (hnew : t.Loose new) (hnot : ¬ t.StrictlyBelow old new) :
    Exchange t parent n (n.slots.map (Slot.renamed old new)) (some new) (some old) := by
  have hmem : old ∈ n.children := (h.isParent_iff hp).1 hold
  have hfresh : new ∉ n.children := fun hchild => hnew.not_isParent ((h.isParent_iff hp).2 hchild)
  refine ⟨hp, by simp, ?_, ?_, ?_⟩
  · rintro c ⟨⟩
    exact ⟨hnew, fun hb => hnot (.head' hold hb)⟩
  · rintro c ⟨⟩
    exact hold
  · intro c
    have hne : new ≠ old := fun e => hfresh (e ▸ hmem)
    rw [flatMap_renamed]
    change (n.children.map fun x => if x = old then new else x).count c = _
    rw [count_map_ite hne hfresh, h.count_children hp hmem]
    simp only [Option.some.injEq, eq_comm]

/-- Taking a child out is in order. -/
theorem exchange_without (hp : t.get? parent = some n) (hid : t.IsParent id parent) :
    Exchange t parent n (n.slots.map (Slot.without id)) none (some id) := by
  refine ⟨hp, by simp, nofun, ?_, ?_⟩
  · rintro c ⟨⟩
    exact hid
  · intro c
    rw [flatMap_without]
    change (n.children.filter _).count c = _
    by_cases hc : c = id
    · subst hc
      rw [if_neg (by simp), if_pos rfl, List.count_eq_zero]
      simp
    · rw [List.count_filter (by simpa using hc)]
      simp [Ne.symm hc]

theorem relinked_renamed (hne : new ≠ old) (slots : List Slot) :
    Relinked t (((t.setSlots parent slots).setParent new (some parent)).setParent old none) parent slots
      (some new) (some old) where
  root := by simp
  bindings := by simp
  size := by simp
  get? x := by
    simp only [get?_setParent, get?_setSlots]
    cases t.get? x with
    | none => simp
    | some m => by_cases ho : x = old <;> by_cases hn : x = new <;> by_cases hp : x = parent <;> simp_all [eq_comm]

theorem relinked_without (slots : List Slot) :
    Relinked t ((t.setSlots parent slots).setParent id none) parent slots none (some id) where
  root := by simp
  bindings := by simp
  size := by simp
  get? x := by
    simp only [get?_setParent, get?_setSlots]
    cases t.get? x with
    | none => simp
    | some m => by_cases hi : x = id <;> by_cases hp : x = parent <;> simp_all [eq_comm]

theorem relinked_added (slots : List Slot) :
    Relinked t ((t.setSlots parent slots).setParent id (some parent)) parent slots (some id) none where
  root := by simp
  bindings := by simp
  size := by simp
  get? x := by
    simp only [get?_setParent, get?_setSlots]
    cases t.get? x with
    | none => simp
    | some m => by_cases hi : x = id <;> by_cases hp : x = parent <;> simp_all [eq_comm]

/-- Only the parent holds the old node, so every node is as with the old one renamed in its slots. -/
theorem Relinked.renamed {t' : Tree} {x : NodeId} {m' : Node}
    (hr : Relinked t t' parent (n.slots.map (Slot.renamed old new)) (some new) (some old)) (h : t.Consistent)
    (hp : t.get? parent = some n) (hold : t.IsParent old parent) (hm' : t'.get? x = some m') :
    ∃ m, t.get? x = some m ∧ m'.kind = m.kind ∧ m'.payload = m.payload ∧
      m'.slots = m.slots.map (Slot.renamed old new) := by
  obtain ⟨m, hm, rfl⟩ := hr.get?_eq_some hm'
  refine ⟨m, hm, rfl, rfl, ?_⟩
  by_cases hx : x = parent
  · subst hx
    obtain rfl := Option.some.inj (hp.symm.trans hm)
    exact if_pos rfl
  · have hfresh {s : Slot} (hs : s ∈ m.slots) : old ∉ s.ids := fun hmem => hx <| by
      have hold' : t.IsParent old x := (h.isParent_iff hm).2 (List.mem_flatMap.2 ⟨s, hs, hmem⟩)
      exact Option.some.inj (hold'.symm.trans hold)
    have hsame : m.slots.map (Slot.renamed old new) = m.slots := by
      conv => rhs; rw [← List.map_id m.slots]
      exact List.map_congr_left fun s hs => Slot.renamed_of_not_mem (hfresh hs)
    rw [hsame]
    exact if_neg hx

/-- Loose nodes stay loose while others are taken out. -/
theorem Relinked.loose {t' : Tree} {x : NodeId} {slots : List Slot} (hr : Relinked t t' parent slots none (some id))
    (hx : t.Loose x) : t'.Loose x := by
  obtain ⟨⟨n, hn, hp⟩, hroot⟩ := hx
  refine ⟨⟨_, by rw [hr.get?, hn]; rfl, ?_⟩, hr.root ▸ hroot⟩
  simp [hp]

theorem Relinked.parent?_of_ne {t' : Tree} {x : NodeId} {slots : List Slot}
    (hr : Relinked t t' parent slots none (some id)) (hx : x ≠ id) : t'.parent? x = t.parent? x := by
  simp only [parent?, hr.get?]
  cases t.get? x with
  | none => rfl
  | some n => simp [Ne.symm hx]

end Exchanges

/-! ## Operations -/

section Operations

variable {t : Tree} {id old new parent : NodeId} {n : Node}

theorem run_get_bind {α : Type} (f : Tree → TreeM α) : (get >>= f) t = f t t := rfl

theorem run_check_ok {ε α : Type} {x : Except TreeError ε} {a : ε} (h : x = .ok a) (f : ε → TreeM α) :
    (TreeM.ofExcept x >>= f) t = f a t := by
  rw [h]
  rfl

theorem run_check_error {ε α : Type} {x : Except TreeError ε} {e : TreeError} (h : x = .error e) (f : ε → TreeM α) :
    (TreeM.ofExcept x >>= f) t = .error e t := by
  rw [h]
  rfl

theorem run_query_ok {α : Type} {question : Tree → Except TreeError α} {a : α} (h : question t = .ok a) :
    TreeM.query question t = .ok a t := by
  rw [TreeM.query, run_get_bind, h]
  rfl

theorem run_query_error {α : Type} {question : Tree → Except TreeError α} {e : TreeError} (h : question t = .error e) :
    TreeM.query question t = .error e t := by
  rw [TreeM.query, run_get_bind, h]
  rfl

/-- Taking out what is in a slot takes out that node. -/
theorem detachSlot_of_child {id child : NodeId} {slot : String} (h : t.child id slot = .ok (some child)) :
    TreeM.detachSlot id slot t = (some <$> TreeM.detach child) t := by
  rw [TreeM.detachSlot, run_bind_of_ok (run_query_ok h)]
  exact congrFun (map_eq_pure_bind some (TreeM.detach child)).symm t

theorem newNode_ok {kind : NodeKind} {payload : Payload} {slots : List Slot} (hm : t.Makes kind payload slots)
    (source : SourceRef) :
    TreeM.newNode kind source payload slots t = .ok t.nextId (t.addNode kind source payload slots) := by
  rw [TreeM.newNode, run_get_bind, run_check_ok (checkNewNode_eq_ok_iff.2 hm)]
  rfl

/-- A child gives way to a loose node it does not hang below. -/
theorem Consistent.replaceWith_ok (h : t.Consistent) (hp : t.get? parent = some n) (hold : t.IsParent old parent)
    (hnew : t.Loose new) (hnot : ¬ t.StrictlyBelow old new) : ∃ t', TreeM.replaceWith old new t = .ok () t' ∧
      Relinked t t' parent (n.slots.map (Slot.renamed old new)) (some new) (some old) := by
  obtain ⟨m, hm, hmp⟩ := parent?_eq_some_iff.1 hold
  have hne : new ≠ old := fun e => hnew.not_isParent (e ▸ hold)
  have hedit : t.editedSlots parent old (Slot.replace? old new) = .ok (n.slots.map (Slot.renamed old new)) := by
    have hmem : old ∈ n.children := (h.isParent_iff hp).1 hold
    rw [editedSlots, node_of_get? hp, ok_bind, editFirst_replace (h.count_children hp hmem)]
    rfl
  refine ⟨_, ?_, relinked_renamed hne _⟩
  rw [TreeM.replaceWith, run_get_bind, run_check_ok (node_of_get? hm)]
  simp only [hmp]
  rw [run_check_ok (ensureDetached_eq_ok_iff.2 hnew), if_neg (by rwa [h.isAncestor_iff])]
  change (TreeM.ofExcept _ >>= _) t = _
  rw [run_check_ok hedit]
  rfl

/-- A child can be taken out. -/
theorem Consistent.detach_ok (h : t.Consistent) (hp : t.get? parent = some n) (hid : t.IsParent id parent) :
    ∃ t', TreeM.detach id t = .ok id t' ∧
      Relinked t t' parent (n.slots.map (Slot.without id)) none (some id) := by
  obtain ⟨m, hm, hmp⟩ := parent?_eq_some_iff.1 hid
  have hedit : t.editedSlots parent id (Slot.remove? id) = .ok (n.slots.map (Slot.without id)) := by
    have hmem : id ∈ n.children := (h.isParent_iff hp).1 hid
    rw [editedSlots, node_of_get? hp, ok_bind, editFirst_remove (h.count_children hp hmem)]
    rfl
  refine ⟨_, ?_, relinked_without _⟩
  rw [TreeM.detach, run_get_bind, run_check_ok (node_of_get? hm)]
  simp only [hmp]
  rw [run_check_ok hedit]
  rfl

theorem detach_loose (h : t.Loose id) : TreeM.detach id t = .ok id t := by
  obtain ⟨⟨n, hn, hp⟩, hroot⟩ := h
  rw [TreeM.detach, run_get_bind, run_check_ok (node_of_get? hn)]
  simp only [hp, if_neg hroot]
  rfl

/-- Tearing a loose node down removes exactly what hangs below it. -/
theorem Consistent.finalize_ok (h : t.Consistent) (hid : t.Loose id) :
    ∃ ids, (∀ x, x ∈ ids ↔ t.Below x id) ∧ TreeM.finalize id t = .ok () (t.erase ids) := by
  obtain ⟨⟨n, hn, hp⟩, hroot⟩ := hid
  obtain ⟨ids, hids, hmem⟩ := h.walk_ok hn
  refine ⟨ids, hmem, ?_⟩
  have hattached : ¬ t.isAttached id = true := by simp [isAttached, parent?_of_get? hn, hp, hroot]
  rw [TreeM.finalize, run_get_bind, if_neg hattached]
  change (TreeM.ofExcept _ >>= _) t = _
  rw [run_check_ok hids]
  rfl

end Operations

end Tree

end Specializer
