import Mathlib.Logic.Function.Basic

-- Rules for computations that either succeed or fail with an error, and for loops.

namespace Except

variable {ε : Type u} {α β : Type v}

theorem bind_eq_ok {x : Except ε α} {f : α → Except ε β} :
    x >>= f = .ok b ↔ ∃ a, x = .ok a ∧ f a = .ok b := by
  cases x
  case error e => simp [Bind.bind, Except.bind]
  case ok a    => simp [Bind.bind, Except.bind]

theorem bind_eq_error {x : Except ε α} {f : α → Except ε β} :
    x >>= f = .error e ↔ x = .error e ∨ ∃ a, x = .ok a ∧ f a = .error e := by
  cases x
  case error e' => simp [Bind.bind, Except.bind]
  case ok a     => simp [Bind.bind, Except.bind]

theorem bind_ok {x : Except ε α} {f : α → Except ε β} (hx : x = .ok a) (hf : ∃ b, f a = .ok b) :
    ∃ b, x >>= f = .ok b :=
  hf.imp fun _ hb => bind_eq_ok.mpr ⟨a, hx, hb⟩

theorem exists_ok {x : Except ε α} (h : x.toBool = true) : ∃ a, x = .ok a := by
  cases x
  case error e => cases h
  case ok a    => exact ⟨a, rfl⟩

theorem map_eq_ok {x : Except ε α} {f : α → β} : x.map f = .ok b ↔ ∃ a, x = .ok a ∧ f a = b := by
  cases x
  case error e => simp [Except.map]
  case ok a    => simp [Except.map]

theorem pure_eq_ok : (pure a : Except ε α) = .ok b ↔ a = b := by
  simp [pure, Except.pure]

theorem ok_of_toOption {x : Except ε α} (h : x.toOption = some a) : x = .ok a := by
  cases x
  case error e => cases h
  case ok a    => exact congrArg _ (Option.some.inj h)

end Except

namespace List

variable {ε : Type u} {σ : Type v} {α : Type w} {f : σ → α → Except ε σ} {P : σ → Prop}

theorem foldlM_cons_eq_ok :
    (a :: as).foldlM f s = .ok s' ↔ ∃ s₁, f s a = .ok s₁ ∧ as.foldlM f s₁ = .ok s' := by
  rw [foldlM_cons, Except.bind_eq_ok]

theorem foldlM_nil_eq_ok : [].foldlM f s = .ok s' ↔ s = s' := by
  rw [foldlM_nil, Except.pure_eq_ok]

-- What every step that succeeds preserves, a whole loop that succeeds preserves.
theorem foldlM_preserves {as : List α} (h : as.foldlM f s = .ok s')
    (step : ∀ {s s'}, ∀ a ∈ as, P s → f s a = .ok s' → P s') (init : P s) : P s' := by
  induction as generalizing s
  case nil => exact foldlM_nil_eq_ok.mp h ▸ init
  case cons a as ih =>
    have ⟨s₁, h₁, h⟩ := foldlM_cons_eq_ok.mp h
    exact ih h (fun b hb => step b (mem_cons_of_mem _ hb)) (step a mem_cons_self init h₁)

theorem foldl_preserves {f : σ → α → σ} {as : List α}
    (step : ∀ {s}, ∀ a ∈ as, P s → P (f s a)) (init : P s) : P (as.foldl f s) := by
  induction as generalizing s
  case nil => exact init
  case cons a as ih =>
    exact ih (fun b hb => step b (mem_cons_of_mem _ hb)) (step a mem_cons_self init)

section Update

variable {κ : Type x} {β : Type y} [DecidableEq κ] {f : σ → α → σ} (view : σ → κ → β) (key : α → κ) (put : α → β → β) {k : κ}

-- A loop each of whose steps changes what is seen at one key.
theorem foldl_update {as : List α}
    (view_step : ∀ s, ∀ a ∈ as, view (f s a) = Function.update (view s) (key a) (put a (view s (key a)))) :
    view (as.foldl f s) k = (as.filter (key · = k)).foldl (fun b a => put a b) (view s k) := by
  induction as generalizing s
  case nil => rfl
  case cons a as ih =>
    rw [foldl_cons, ih fun s b hb => view_step s b (mem_cons_of_mem _ hb), view_step s a mem_cons_self]
    by_cases eq : key a = k
    case pos => simp [eq]
    case neg => simp [eq, Ne.symm eq]

theorem foldl_update_preserves {Q : β → Prop} {as : List α}
    (view_step : ∀ s, ∀ a ∈ as, view (f s a) = Function.update (view s) (key a) (put a (view s (key a))))
    (keeps : ∀ a ∈ as, key a = k → ∀ b, Q b → Q (put a b)) (init : Q (view s k)) : Q (view (as.foldl f s) k) := by
  rw [foldl_update view key put view_step]
  refine foldl_preserves (fun {b} a ha ih => ?_) init
  have ⟨ha, eq⟩ := mem_filter.mp ha
  exact keeps a ha (of_decide_eq_true eq) b ih

theorem foldl_update_of_not_mem {as : List α}
    (view_step : ∀ s, ∀ a ∈ as, view (f s a) = Function.update (view s) (key a) (put a (view s (key a))))
    (h : k ∉ as.map key) : view (as.foldl f s) k = view s k :=
  foldl_update_preserves view key put (Q := (· = view s k)) view_step (fun _ ha eq => absurd (eq ▸ mem_map_of_mem ha) h) rfl

theorem foldl_update_of_mem {as : List α}
    (view_step : ∀ s, ∀ a ∈ as, view (f s a) = Function.update (view s) (key a) (put a (view s (key a))))
    (nodup : (as.map key).Nodup) (ha : a ∈ as) : view (as.foldl f s) (key a) = put a (view s (key a)) := by
  induction as generalizing s
  case nil => cases ha
  case cons a' as ih =>
    have ⟨new, nodup⟩ := nodup_cons.mp nodup
    have later s b (hb : b ∈ as) := view_step s b (mem_cons_of_mem _ hb)
    rcases mem_cons.mp ha with rfl | ha
    case inl =>
      rw [foldl_cons, foldl_update_of_not_mem view key put later new, view_step s a mem_cons_self, Function.update_self]
    case inr =>
      have ne : key a ≠ key a' := fun eq => new (eq ▸ mem_map_of_mem ha)
      rw [foldl_cons, ih later nodup ha, view_step s a' mem_cons_self, Function.update_of_ne ne]

-- A loop that writes over what it has: the last to write counts.
theorem foldl_overwrite {c : α → Bool} {v : α → β} {as : List α} {b : β} :
    as.foldl (fun b a => if c a then v a else b) b = ((as.filter c).getLast?.map v).getD b := by
  induction as generalizing b
  case nil => rfl
  case cons a as ih =>
    rw [foldl_cons, ih]
    cases hc : c a
    case false => simp [hc]
    case true  => cases h : (as.filter c).getLast? <;> simp [hc, getLast?_cons, h]

end Update

end List
