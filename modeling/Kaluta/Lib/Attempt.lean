import Mathlib.Order.Basic
import Mathlib.Data.List.Forall2
import Mathlib.Algebra.GroupWithZero.Nat

-- Rules for computations that change a state and then succeed or fail; what they changed stays either way.
namespace Kaluta

abbrev Attempt (σ ε α : Type) := ExceptT ε (StateM σ) α

namespace Attempt

variable {σ ε α β : Type}

def exec (x : Attempt σ ε α) (s : σ) : Except ε α × σ :=
  (x.run.run s).run

-- A step given as a function.
def ofFn (f : σ → Except ε α × σ) : Attempt σ ε α :=
  ExceptT.mk f

@[simp]
theorem exec_ofFn (f : σ → Except ε α × σ) : (ofFn f).exec s = f s :=
  rfl

@[simp]
theorem exec_pure (a : α) : (pure a : Attempt σ ε α).exec s = (.ok a, s) :=
  rfl

@[simp]
theorem exec_throw (e : ε) : (throw e : Attempt σ ε α).exec s = (.error e, s) :=
  rfl

@[simp]
theorem exec_get : (get : Attempt σ ε σ).exec s = (.ok s, s) :=
  rfl

@[simp]
theorem exec_modify (f : σ → σ) : (modify f : Attempt σ ε Unit).exec s = (.ok (), f s) :=
  rfl

theorem exec_bind (x : Attempt σ ε α) (f : α → Attempt σ ε β) :
    (x >>= f).exec s =
      match x.exec s with
      | (.ok a, s₁)    => (f a).exec s₁
      | (.error e, s₁) => (.error e, s₁) := by
  simp only [exec, ExceptT.run_bind, StateT.run_bind, Id.run_bind]
  rcases (x.run.run s).run with ⟨e | a, s₁⟩
  case error => rfl
  case ok    => rfl

theorem bind_eq_ok {x : Attempt σ ε α} {f : α → Attempt σ ε β} :
    (x >>= f).exec s = (.ok b, s') ↔ ∃ a s₁, x.exec s = (.ok a, s₁) ∧ (f a).exec s₁ = (.ok b, s') := by
  rw [exec_bind]
  rcases x.exec s with ⟨e | a, s₁⟩
  case error => simp
  case ok    => simp

theorem pure_eq_ok : (pure a : Attempt σ ε α).exec s = (.ok b, s') ↔ a = b ∧ s = s' := by
  simp

-- Whether it succeeds or fails, a computation takes each state to one that `R` relates it to.
def Follows (R : σ → σ → Prop) (x : Attempt σ ε α) : Prop :=
  ∀ s, R s (x.exec s).2

namespace Follows

variable {R : σ → σ → Prop} {x : Attempt σ ε α} {f : α → Attempt σ ε β}

theorem of_ok (h : Follows R x) (ok : x.exec s = (r, s')) : R s s' := by
  have hs := h s
  rwa [ok] at hs

protected theorem ite {c : Prop} [Decidable c] {y : Attempt σ ε α} (hx : Follows R x) (hy : Follows R y) :
    Follows R (if c then x else y) := by
  split
  case isTrue  => exact hx
  case isFalse => exact hy

protected theorem modify {g : σ → σ} (h : ∀ s, R s (g s)) : Follows R (modify g : Attempt σ ε Unit) :=
  h

variable [IsPreorder σ R]

protected theorem pure (a : α) : Follows R (pure a : Attempt σ ε α) :=
  fun s => refl s

protected theorem throw (e : ε) : Follows R (throw e : Attempt σ ε α) :=
  fun s => refl s

protected theorem get : Follows R (get : Attempt σ ε σ) :=
  fun s => refl s

protected theorem bind (hx : Follows R x) (hf : ∀ a, Follows R (f a)) : Follows R (x >>= f) := by
  intro s
  have first := hx s
  rw [exec_bind]
  rcases h : x.exec s with ⟨e | a, s₁⟩
  all_goals rw [h] at first
  case error => exact first
  case ok    => exact IsTrans.trans _ _ _ first (hf a s₁)

protected theorem mapM {f : α → Attempt σ ε β} (hf : ∀ a, Follows R (f a)) (l : List α) : Follows R (l.mapM f) := by
  induction l
  case nil => exact .pure []
  case cons a l ih =>
    rw [List.mapM_cons]
    exact (hf a).bind fun _ => ih.bind fun _ => .pure _

end Follows

-- Every element's turn in a loop that succeeds lies between the loop's start and its end.
theorem mapM_eq_ok {R : σ → σ → Prop} [IsPreorder σ R] {f : α → Attempt σ ε β} {l : List α}
    (follows : ∀ a, Follows R (f a)) (h : (l.mapM f).exec s = (.ok bs, s')) :
    List.Forall₂ (fun a b => ∃ s₁ s₂, R s s₁ ∧ (f a).exec s₁ = (.ok b, s₂) ∧ R s₂ s') l bs := by
  induction l generalizing s bs
  case nil =>
    rw [List.mapM_nil, pure_eq_ok] at h
    exact h.left ▸ .nil
  case cons a l ih =>
    rw [List.mapM_cons, bind_eq_ok] at h
    have ⟨b, s₁, head, h⟩ := h
    rw [bind_eq_ok] at h
    have ⟨bs', s₂, tail, h⟩ := h
    obtain ⟨rfl, rfl⟩ := pure_eq_ok.mp h
    have first := (follows a).of_ok head
    refine .cons ⟨s, s₁, refl s, head, (Follows.mapM follows l).of_ok tail⟩ ((ih tail).imp ?_)
    intro a b ⟨t₁, t₂, before, turn, after⟩
    exact ⟨t₁, t₂, IsTrans.trans _ _ _ first before, turn, after⟩

end Attempt

end Kaluta

-- What the results of a loop come from.
namespace List.Forall₂

variable {α : Type u} {β : Type v} {R : α → β → Prop}

theorem exists_left (h : Forall₂ R as bs) (hb : b ∈ bs) : ∃ a ∈ as, R a b := by
  induction h
  case nil => cases hb
  case cons a b' as bs head _ ih =>
    rcases mem_cons.mp hb with rfl | hb
    · exact ⟨a, mem_cons_self, head⟩
    · exact (ih hb).imp fun _ ⟨mem, r⟩ => ⟨mem_cons_of_mem _ mem, r⟩

theorem exists_right (h : Forall₂ R as bs) (ha : a ∈ as) : ∃ b ∈ bs, R a b :=
  h.flip.exists_left ha

theorem countP_flatten_le {bss : List (List β)} {weight : α → Nat} {p : β → Bool}
    (h : Forall₂ (fun a bs => bs.countP p ≤ weight a) as bss) : bss.flatten.countP p ≤ (as.map weight).sum := by
  induction h
  case nil => exact Nat.le_refl 0
  case cons head _ ih =>
    rw [flatten_cons, countP_append, map_cons, sum_cons]
    exact Nat.add_le_add head ih

end List.Forall₂
