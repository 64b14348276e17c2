import Specializer.FixedPoint

/-!
# Runs of computations, step by step

A computation in sequence runs its first part and then, if that gave a value, the rest. These lemmas take a run apart
at its first step, in each of the monads of the library.
-/

namespace Specializer

/-! ## Checks -/

section Checks

variable {ε α β : Type}

@[simp] theorem ok_bind (a : α) (f : α → Except ε β) : (Except.ok a >>= f) = f a := rfl

@[simp] theorem error_bind (e : ε) (f : α → Except ε β) : ((Except.error e : Except ε α) >>= f) = .error e := rfl

@[simp] theorem except_pure (a : α) : (pure a : Except ε α) = .ok a := rfl

@[simp] theorem except_throw (e : ε) : (throw e : Except ε α) = .error e := rfl

theorem bind_eq_ok_iff {x : Except ε α} {f : α → Except ε β} {b : β} :
    (x >>= f) = .ok b ↔ ∃ a, x = .ok a ∧ f a = .ok b := by
  cases x <;> simp

/-- Checks of all members of a list succeed together, and their outcomes correspond. -/
theorem mapM_ok {P : α → β → Prop} {f : α → Except ε β} : ∀ {l : List α}, (∀ x ∈ l, ∃ y, f x = .ok y ∧ P x y) →
    ∃ ys, l.mapM f = .ok ys ∧ (∀ y ∈ ys, ∃ x ∈ l, P x y) ∧ ∀ x ∈ l, ∃ y ∈ ys, P x y
  | [], _ => ⟨[], rfl, by simp, by simp⟩
  | x :: xs, h => by
    obtain ⟨y, hy, hxy⟩ := h x (by simp)
    obtain ⟨ys, hys, hback, hforth⟩ := mapM_ok fun x' hx' => h x' (List.mem_cons_of_mem x hx')
    refine ⟨y :: ys, by simp [List.mapM_cons, hy, hys], ?_, ?_⟩
    · rintro y' (_ | ⟨_, hy'⟩)
      · exact ⟨x, by simp, hxy⟩
      · obtain ⟨x', hx', hP⟩ := hback y' hy'
        exact ⟨x', by simp [hx'], hP⟩
    · rintro x' (_ | ⟨_, hx'⟩)
      · exact ⟨y, by simp, hxy⟩
      · obtain ⟨y', hy', hP⟩ := hforth x' hx'
        exact ⟨y', by simp [hy'], hP⟩

theorem anyM_ok {f : α → Except ε Bool} : ∀ {l : List α}, (∀ x ∈ l, ∃ b, f x = .ok b) → ∃ b, l.anyM f = .ok b
  | [], _ => ⟨false, rfl⟩
  | x :: xs, h => by
    obtain ⟨b, hb⟩ := h x (by simp)
    rw [List.anyM, hb]
    cases b with
    | true => exact ⟨true, rfl⟩
    | false => exact anyM_ok fun x' hx' => h x' (by simp [hx'])

theorem anyM_eq_false_iff {f : α → Except ε Bool} {l : List α} : l.anyM f = .ok false ↔ ∀ x ∈ l, f x = .ok false := by
  induction l with
  | nil => simp
  | cons x xs ih =>
    rw [List.anyM_cons, bind_eq_ok_iff]
    constructor
    · rintro ⟨b, hb, hrest⟩
      cases b with
      | true => cases hrest
      | false => simpa [hb] using ih.1 hrest
    · intro h
      exact ⟨false, h x (by simp), ih.2 fun y hy => h y (by simp [hy])⟩

theorem anyM_congr {f g : α → Except ε Bool} {l : List α} (h : ∀ x ∈ l, f x = g x) : l.anyM f = l.anyM g := by
  induction l with
  | nil => rfl
  | cons x xs ih => rw [List.anyM_cons, List.anyM_cons, h x (by simp), ih fun y hy => h y (by simp [hy])]

theorem mapM_congr {f g : α → Except ε β} {l : List α} (h : ∀ x ∈ l, f x = g x) : l.mapM f = l.mapM g := by
  induction l with
  | nil => rfl
  | cons x xs ih => rw [List.mapM_cons, List.mapM_cons, h x (by simp), ih fun y hy => h y (by simp [hy])]

theorem foldlM_ok {f : β → α → Except ε β} : ∀ {l : List α}, (∀ b, ∀ x ∈ l, ∃ b', f b x = .ok b') →
    ∀ b, ∃ b', l.foldlM f b = .ok b'
  | [], _, b => ⟨b, rfl⟩
  | x :: xs, h, b => by
    obtain ⟨b', hb'⟩ := h b x (by simp)
    rw [List.foldlM_cons, hb']
    exact foldlM_ok (fun c x' hx' => h c x' (by simp [hx'])) b'

theorem filterM_eq_ok {f : α → Except ε Bool} {g : α → Bool} {l : List α} (h : ∀ x ∈ l, f x = .ok (g x)) :
    l.filterM f = .ok (l.filter g) := by
  have key : ∀ (xs acc : List α), (∀ x ∈ xs, f x = .ok (g x)) →
      xs.filterAuxM f acc = .ok ((xs.filter g).reverse ++ acc) := by
    intro xs
    induction xs with
    | nil => exact fun acc _ => rfl
    | cons x xs ih =>
      intro acc h
      rw [List.filterAuxM, h x (by simp), ok_bind, ih _ fun x' hx' => h x' (by simp [hx'])]
      cases hx : g x <;> simp [hx]
  rw [List.filterM, key l [] h]
  simp

end Checks

/-! ## Computations with a state -/

section Stateful

variable {ε σ α β : Type} {x : EStateM ε σ α} {f : α → EStateM ε σ β} {a : α} {b : β} {e : ε} {s s' s'' : σ}

/-- Whether a run succeeds, with a result and a state that pass a test. -/
def succeedsWith (test : α → σ → Bool) : EStateM.Result ε σ α → Bool
  | .ok a s => test a s
  | .error _ _ => false

theorem succeedsWith_iff {test : α → σ → Bool} {r : EStateM.Result ε σ α} :
    succeedsWith test r = true ↔ ∃ a s, r = .ok a s ∧ test a s = true := by
  constructor
  · intro h
    cases r with
    | ok a s => exact ⟨a, s, rfl, h⟩
    | error e s => cases h
  · rintro ⟨a, s, rfl, h⟩
    exact h

theorem run_bind_of_ok (h : x s = .ok a s') : (x >>= f) s = f a s' := by
  show EStateM.bind x f s = f a s'
  rw [EStateM.bind, h]

theorem run_bind_of_error (h : x s = .error e s') : (x >>= f) s = .error e s' := by
  show EStateM.bind x f s = .error e s'
  rw [EStateM.bind, h]

theorem run_map_of_ok {g : α → β} (h : x s = .ok a s') : (g <$> x) s = .ok (g a) s' := by
  show EStateM.map g x s = _
  rw [EStateM.map, h]

theorem run_map_of_error {g : α → β} (h : x s = .error e s') : (g <$> x) s = .error e s' := by
  show EStateM.map g x s = _
  rw [EStateM.map, h]

theorem run_bind_eq_ok_iff : (x >>= f) s = .ok b s'' ↔ ∃ a s', x s = .ok a s' ∧ f a s' = .ok b s'' := by
  cases h : x s with
  | ok a s' =>
    rw [run_bind_of_ok h]
    exact ⟨fun hf => ⟨a, s', rfl, hf⟩, fun ⟨_, _, h', hf⟩ => by cases h'; exact hf⟩
  | error e s' =>
    rw [run_bind_of_error h]
    exact ⟨nofun, fun ⟨_, _, h', _⟩ => nomatch h'⟩

theorem run_bind_eq_error_iff :
    (x >>= f) s = .error e s'' ↔ x s = .error e s'' ∨ ∃ a s', x s = .ok a s' ∧ f a s' = .error e s'' := by
  cases h : x s with
  | ok a s' =>
    rw [run_bind_of_ok h]
    exact ⟨fun hf => .inr ⟨a, s', rfl, hf⟩, fun | .inr ⟨_, _, h', hf⟩ => by cases h'; exact hf⟩
  | error e' s' =>
    rw [run_bind_of_error h]
    constructor
    · intro h'
      cases h'
      exact .inl rfl
    · rintro (h' | ⟨_, _, h', -⟩)
      · cases h'
        rfl
      · cases h'

/-- A test that changes nothing selects members as a plain test does. -/
theorem run_filterM_of_ok {f : α → EStateM ε σ Bool} {g : α → Bool} {l : List α} (h : ∀ x ∈ l, f x s = .ok (g x) s) :
    l.filterM f s = .ok (l.filter g) s := by
  have key : ∀ (xs acc : List α), (∀ x ∈ xs, f x s = .ok (g x) s) →
      xs.filterAuxM f acc s = .ok ((xs.filter g).reverse ++ acc) s := by
    intro xs
    induction xs with
    | nil => exact fun acc _ => rfl
    | cons x xs ih =>
      intro acc h
      rw [List.filterAuxM, run_bind_of_ok (h x (by simp)), ih _ fun x' hx' => h x' (by simp [hx'])]
      cases hx : g x <;> simp [hx]
  rw [List.filterM, run_bind_of_ok (key l [] h)]
  simp [pure, EStateM.pure]

end Stateful

/-! ## Computations with settings and a state -/

section Reading

variable {ε ρ σ α β : Type} {x : ReaderT ρ (EStateM ε σ) α} {f : α → ReaderT ρ (EStateM ε σ) β} {a : α} {b : β}
  {e : ε} {r : ρ} {s s' s'' : σ}

theorem reads_bind_of_ok (h : x r s = .ok a s') : (x >>= f) r s = f a r s' :=
  run_bind_of_ok (x := x r) (f := fun a => f a r) h

theorem reads_bind_of_error (h : x r s = .error e s') : (x >>= f) r s = .error e s' :=
  run_bind_of_error (x := x r) (f := fun a => f a r) h

/-- With the same settings, computations in sequence that do the same do the same together. -/
theorem reads_bind_congr {y : ReaderT ρ (EStateM ε σ) α} {g : α → ReaderT ρ (EStateM ε σ) β} (hx : x r = y r)
    (hf : ∀ a, f a r = g a r) : (x >>= f) r = (y >>= g) r := by
  show (x r >>= fun a => f a r) = (y r >>= fun a => g a r)
  simp only [hx, hf]

theorem reads_bind_eq_ok_iff : (x >>= f) r s = .ok b s'' ↔ ∃ a s', x r s = .ok a s' ∧ f a r s' = .ok b s'' :=
  run_bind_eq_ok_iff (x := x r) (f := fun a => f a r)

theorem reads_bind_eq_error_iff :
    (x >>= f) r s = .error e s'' ↔ x r s = .error e s'' ∨ ∃ a s', x r s = .ok a s' ∧ f a r s' = .error e s'' :=
  run_bind_eq_error_iff (x := x r) (f := fun a => f a r)

end Reading

end Specializer
