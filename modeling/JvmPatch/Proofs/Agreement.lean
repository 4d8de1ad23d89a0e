import JvmPatch.Proofs.Scope.Extension
import JvmPatch.Proofs.Steps

/-! Two runs side by side. From related states both succeed with related results or both fail with
one error, and the states that they leave are related. -/

set_option autoImplicit false

namespace JvmPatch

variable {ε σ τ α β γ δ : Type}

/-- Two ends of runs: related results in related states, or one error in related states. -/
inductive EndAlike (R : σ → τ → Prop) (Q : α → β → Prop) :
    EStateM.Result ε σ α → EStateM.Result ε τ β → Prop where
  | ok {x : α} {y : β} {s : σ} {t : τ} : Q x y → R s t → EndAlike R Q (.ok x s) (.ok y t)
  | error {e : ε} {s : σ} {t : τ} : R s t → EndAlike R Q (.error e s) (.error e t)

theorem EndAlike.cases {R : σ → τ → Prop} {Q : α → β → Prop} {r : EStateM.Result ε σ α}
    {q : EStateM.Result ε τ β} (alike : EndAlike R Q r q) :
    (∃ x y s t, r = .ok x s ∧ q = .ok y t ∧ Q x y ∧ R s t) ∨ ∃ e s t, r = .error e s ∧
      q = .error e t ∧ R s t := by
  cases alike with
  | ok results states => exact .inl ⟨_, _, _, _, rfl, rfl, results, states⟩
  | error states => exact .inr ⟨_, _, _, rfl, rfl, states⟩

/-- Where the first programs end well, the ends are those of the programs that come next. -/
protected theorem EndAlike.bind {R : σ → τ → Prop} {Q : α → β → Prop} {P : γ → δ → Prop}
    {m : EStateM ε σ α} {n : EStateM ε τ β} {f : α → EStateM ε σ γ} {g : β → EStateM ε τ δ}
    {s : σ} {t : τ} (first : EndAlike R Q (m.run s) (n.run t))
    (rest : ∀ x y s' t', m.run s = .ok x s' → Q x y → R s' t' →
      EndAlike R P ((f x).run s') ((g y).run t')) :
    EndAlike R P ((m >>= f).run s) ((n >>= g).run t) := by
  rw [EStateM.run_bind, EStateM.run_bind]
  rcases first.cases with
    ⟨x, y, s', t', ran, ran', results, states⟩ | ⟨e, s', t', ran, ran', states⟩
  · rw [ran, ran']
    exact rest x y s' t' ran results states
  · rw [ran, ran']
    exact .error states

/-- What the programs do may depend on the states in which they begin. -/
protected theorem EndAlike.get {R : σ → τ → Prop} {Q : α → β → Prop} {f : σ → EStateM ε σ α}
    {g : τ → EStateM ε τ β} {s : σ} {t : τ} (rest : EndAlike R Q ((f s).run s) ((g t).run t)) :
    EndAlike R Q ((get >>= f).run s) ((get >>= g).run t) := rest

/-- A loop has come to an element, with what it has computed so far. -/
def ComesTo (f : β → α → EStateM ε σ β) (xs : List α) (b : β) (s : σ) (x : α) (c : β)
    (t : σ) : Prop :=
  ∃ before after, xs = before ++ x :: after ∧ (before.foldlM f b).run s = .ok c t

theorem ComesTo.cons {f : β → α → EStateM ε σ β} {xs : List α} {b c d : β} {s t u : σ} {x y : α}
    (comes : ComesTo f xs c t y d u) (first : (f b x).run s = .ok c t) :
    ComesTo f (x :: xs) b s y d u := by
  obtain ⟨before, after, rfl, ran⟩ := comes
  refine ⟨x :: before, after, rfl, ?_⟩
  rw [List.foldlM_cons, EStateM.run_bind, first]
  exact ran

/-- Two loops end alike if they do so from all elements that the first one comes to. -/
protected theorem EndAlike.foldlM {R : σ → τ → Prop} {Q : α → β → Prop} {S : γ → δ → Prop}
    {f : α → γ → EStateM ε σ α} {g : β → δ → EStateM ε τ β} {xs : List γ} {ys : List δ}
    (elements : List.Forall₂ S xs ys) {a : α} {b : β} {s : σ} {t : τ}
    (each : ∀ x y a' b' s' t', ComesTo f xs a s x a' s' → S x y → Q a' b' → R s' t' →
      EndAlike R Q ((f a' x).run s') ((g b' y).run t'))
    (start : Q a b) (states : R s t) :
    EndAlike R Q ((xs.foldlM f a).run s) ((ys.foldlM g b).run t) := by
  induction elements generalizing a b s t with
  | nil => exact .ok start states
  | cons one _ ih =>
    rw [List.foldlM_cons, List.foldlM_cons]
    refine (each _ _ a b s t ⟨[], _, rfl, rfl⟩ one start states).bind
      fun c d s' t' ran next left => ?_
    exact ih (fun x y a' b' u v comes => each x y a' b' u v (comes.cons ran)) next left

/-- A loop that collects results has come to an element. -/
def MapComesTo (f : α → EStateM ε σ β) (xs : List α) (s : σ) (x : α) (t : σ) : Prop :=
  ∃ before after ys, xs = before ++ x :: after ∧ (before.mapM f).run s = .ok ys t

theorem MapComesTo.mem {f : α → EStateM ε σ β} {xs : List α} {s t : σ} {x : α}
    (comes : MapComesTo f xs s x t) :
    x ∈ xs := by
  obtain ⟨before, after, ys, rfl, -⟩ := comes
  exact List.mem_append_right before List.mem_cons_self

theorem MapComesTo.cons {f : α → EStateM ε σ β} {xs : List α} {s t u : σ} {x x' : α} {y : β}
    (comes : MapComesTo f xs t x' u) (first : (f x).run s = .ok y t) :
    MapComesTo f (x :: xs) s x' u := by
  obtain ⟨before, after, ys, rfl, ran⟩ := comes
  refine ⟨x :: before, after, y :: ys, rfl, ?_⟩
  rw [List.mapM_cons, run_bind_of_ok first, run_bind_of_ok ran]
  rfl

/-- Two loops over the same elements under other names collect the same results under other
names. -/
protected theorem EndAlike.mapM {R : σ → τ → Prop} {f : γ → EStateM ε σ α}
    {g : δ → EStateM ε τ β} {κ : γ → δ} {ν : α → β} {xs : List γ} {s : σ} {t : τ}
    (each : ∀ x s' t', MapComesTo f xs s x s' → R s' t' →
      EndAlike R (fun y z => z = ν y) ((f x).run s') ((g (κ x)).run t'))
    (states : R s t) :
    EndAlike R (fun ys zs => zs = ys.map ν) ((xs.mapM f).run s) (((xs.map κ).mapM g).run t) := by
  induction xs generalizing s t with
  | nil => exact .ok rfl states
  | cons x xs ih =>
    rw [List.map_cons, List.mapM_cons, List.mapM_cons]
    refine (each x s t ⟨[], xs, [], rfl, rfl⟩ states).bind fun y z s' t' ran isFirst left => ?_
    refine (ih (fun x' u v comes => each x' u v (comes.cons ran)) left).bind
      fun ys zs u v _ isRest left => ?_
    subst isFirst isRest
    exact .ok rfl left

theorem EndAlike.mono {R R' : σ → τ → Prop} {Q Q' : α → β → Prop} {r : EStateM.Result ε σ α}
    {q : EStateM.Result ε τ β} (alike : EndAlike R Q r q) (states : ∀ s t, R s t → R' s t)
    (results : ∀ x y, Q x y → Q' x y) : EndAlike R' Q' r q := by
  cases alike with
  | ok result state => exact .ok (results _ _ result) (states _ _ state)
  | error state => exact .error (states _ _ state)

/-- Two results that are related, or one error. -/
inductive SameEnd (Q : α → β → Prop) : Except ε α → Except ε β → Prop where
  | ok {x : α} {y : β} : Q x y → SameEnd Q (.ok x) (.ok y)
  | error (e : ε) : SameEnd Q (.error e) (.error e)

theorem SameEnd.mapError {ε' : Type} {Q : α → β → Prop} {x : Except ε α} {y : Except ε β}
    (same : SameEnd Q x y) (f : ε → ε') : SameEnd Q (x.mapError f) (y.mapError f) := by
  cases same with
  | ok related => exact .ok related
  | error e => exact .error (f e)

theorem SameEnd.mono {Q Q' : α → β → Prop} {x : Except ε α} {y : Except ε β} (same : SameEnd Q x y)
    (more : ∀ a b, Q a b → Q' a b) : SameEnd Q' x y := by
  cases same with
  | ok related => exact .ok (more _ _ related)
  | error e => exact .error e

/-- From related states the programs end alike. -/
def Agree (R : σ → τ → Prop) (Q : α → β → Prop) (m : EStateM ε σ α) (n : EStateM ε τ β) : Prop :=
  ∀ s t, R s t → EndAlike R Q (m.run s) (n.run t)

namespace Agree

variable {R : σ → τ → Prop} {Q : α → β → Prop} {P : γ → δ → Prop}

theorem mono {Q' : α → β → Prop} {m : EStateM ε σ α} {n : EStateM ε τ β} (agree : Agree R Q m n)
    (more : ∀ x y, Q x y → Q' x y) : Agree R Q' m n :=
  fun s t related => (agree s t related).mono (fun _ _ states => states) more

protected theorem pure {x : α} {y : β} (related : Q x y) :
    Agree R Q (pure x : EStateM ε σ α) (pure y : EStateM ε τ β) :=
  fun _ _ states => .ok related states

protected theorem throw (R : σ → τ → Prop) (Q : α → β → Prop) (e : ε) :
    Agree R Q (throw e : EStateM ε σ α) (throw e : EStateM ε τ β) := fun _ _ states => .error states

protected theorem modify {f : σ → σ} {g : τ → τ} (keeps : ∀ s t, R s t → R (f s) (g t)) :
    Agree R (fun _ _ => True) (modify f : EStateM ε σ PUnit) (modify g : EStateM ε τ PUnit) :=
  fun s t states => .ok trivial (keeps s t states)

protected theorem bind {m : EStateM ε σ α} {n : EStateM ε τ β} {f : α → EStateM ε σ γ}
    {g : β → EStateM ε τ δ} (first : Agree R Q m n) (rest : ∀ x y, Q x y → Agree R P (f x) (g y)) :
    Agree R P (m >>= f) (n >>= g) :=
  fun s t related => (first s t related).bind fun x y s' t' _ results states =>
    rest x y results s' t' states

/-- What the programs do may depend on the states in which they begin. -/
protected theorem get {f : σ → EStateM ε σ α} {g : τ → EStateM ε τ β}
    (rest : ∀ s t, R s t → EndAlike R Q ((f s).run s) ((g t).run t)) :
    Agree R Q (get >>= f) (get >>= g) := rest

/-- A state that the first program has read says nothing of the states that come later. -/
protected theorem read {f : σ → EStateM ε σ α} {g : τ → EStateM ε τ β}
    (rest : ∀ s t, R s t → Agree R Q (f s) (g t)) : Agree R Q (get >>= f) (get >>= g) :=
  fun s t related => rest s t related s t related

protected theorem forM {S : γ → δ → Prop} {f : γ → EStateM ε σ PUnit}
    {g : δ → EStateM ε τ PUnit} {xs : List γ} {ys : List δ} (elements : List.Forall₂ S xs ys)
    (each : ∀ x y, S x y → Agree R (fun _ _ => True) (f x) (g y)) :
    Agree R (fun _ _ => True) (xs.forM f) (ys.forM g) := by
  induction elements with
  | nil => exact .pure trivial
  | cons one _ ih => exact (each _ _ one).bind fun _ _ _ => ih

protected theorem foldlM {S : γ → δ → Prop} {f : α → γ → EStateM ε σ α}
    {g : β → δ → EStateM ε τ β} {xs : List γ} {ys : List δ} (elements : List.Forall₂ S xs ys)
    (each : ∀ a b x y, Q a b → S x y → Agree R Q (f a x) (g b y)) {a : α} {b : β} (start : Q a b) :
    Agree R Q (xs.foldlM f a) (ys.foldlM g b) := by
  induction elements generalizing a b with
  | nil => exact .pure start
  | cons one _ ih =>
    rw [List.foldlM_cons, List.foldlM_cons]
    exact (each a b _ _ start one).bind fun _ _ next => ih next

/-- Programs with one result go on alike if they do so from each result. -/
protected theorem bindSame {m : EStateM ε σ α} {n : EStateM ε τ α} {f : α → EStateM ε σ γ}
    {g : α → EStateM ε τ δ} (first : Agree R (fun x y => y = x) m n)
    (rest : ∀ x, Agree R P (f x) (g x)) : Agree R P (m >>= f) (n >>= g) := by
  refine first.bind fun x y same => ?_
  subst same
  exact rest y

protected theorem mapMSame {f : γ → EStateM ε σ α} {g : γ → EStateM ε τ α} {xs : List γ}
    (each : ∀ x ∈ xs, Agree R (fun y z => z = y) (f x) (g x)) :
    Agree R (fun ys zs => zs = ys) (xs.mapM f) (xs.mapM g) := by
  induction xs with
  | nil => exact .pure rfl
  | cons x xs ih =>
    rw [List.mapM_cons, List.mapM_cons]
    refine (each x List.mem_cons_self).bindSame fun y => ?_
    exact (ih fun x' member => each x' (.tail _ member)).bindSame fun ys => .pure rfl

protected theorem forMSame {f : γ → EStateM ε σ PUnit} {g : γ → EStateM ε τ PUnit} {xs : List γ}
    (each : ∀ x ∈ xs, Agree R (fun y z => z = y) (f x) (g x)) :
    Agree R (fun y z => z = y) (xs.forM f) (xs.forM g) := by
  induction xs with
  | nil => exact .pure rfl
  | cons x xs ih =>
    exact (each x List.mem_cons_self).bindSame fun _ => ih fun x' member => each x' (.tail _ member)

/-- What the first program preserves holds along both. -/
theorem and_preserves {I : σ → Prop} {m : EStateM ε σ α} {n : EStateM ε τ β} (agree : Agree R Q m n)
    (preserves : Preserves I m) : Agree (fun s t => R s t ∧ I s) Q m n := by
  rintro s t ⟨related, holds⟩
  have kept := preserves_iff.1 preserves s holds
  rw [leftBy] at kept
  rcases (agree s t related).cases with
    ⟨x, y, s', t', ran, ran', results, states⟩ | ⟨e, s', t', ran, ran', states⟩
  · rw [ran] at kept
    rw [ran, ran']
    exact .ok results ⟨states, kept⟩
  · rw [ran] at kept
    rw [ran, ran']
    exact .error ⟨states, kept⟩

end Agree

theorem forall₂_map {f : α → β} (xs : List α) :
    List.Forall₂ (fun x y => y = f x) xs (xs.map f) := by
  induction xs with
  | nil => exact .nil
  | cons x xs ih => exact .cons rfl ih

theorem forall₂_map_of_mem {f : α → β} (xs : List α) :
    List.Forall₂ (fun x y => x ∈ xs ∧ y = f x) xs (xs.map f) := by
  rw [List.forall₂_map_right_iff, List.forall₂_same]
  exact fun x member => ⟨member, rfl⟩

theorem forall₂_eq (xs : List α) : List.Forall₂ (fun x y => y = x) xs xs := by
  rw [List.forall₂_same]
  exact fun _ _ => rfl

end JvmPatch
