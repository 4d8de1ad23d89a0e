import JvmPatch.Resolve.Check
import Mathlib.Data.List.Forall2

/-! Runs of programs with a state that can fail, taken apart into the runs of their steps. A
property that is closed under steps one after the other is shown for loops once, whatever it
says. -/

set_option autoImplicit false

namespace JvmPatch

variable {ε σ α β : Type}

/-- A property of programs that steps one after the other have if each of them has it. -/
structure Sequential (m : Type → Type) [Monad m] (P : ∀ {α : Type}, m α → Prop) : Prop where
  pure : ∀ {α : Type} (x : α), P (Pure.pure x)
  bind : ∀ {α β : Type} {first : m α} {next : α → m β}, P first → (∀ x, P (next x)) →
    P (first >>= next)

namespace Sequential

variable {m : Type → Type} [Monad m] {P : ∀ {α : Type}, m α → Prop} (sequential : Sequential m P)

include sequential

theorem mapM [LawfulMonad m] {f : α → m β} {xs : List α}
    (each : ∀ x ∈ xs, P (f x)) : P (xs.mapM f) := by
  induction xs with
  | nil => exact sequential.pure _
  | cons x xs ih =>
    rw [List.mapM_cons]
    exact sequential.bind (each x List.mem_cons_self) fun _ =>
      sequential.bind (ih fun y member => each y (.tail _ member)) fun _ => sequential.pure _

theorem forM {f : α → m PUnit} {xs : List α} (each : ∀ x ∈ xs, P (f x)) : P (xs.forM f) := by
  induction xs with
  | nil => exact sequential.pure _
  | cons x xs ih =>
    exact sequential.bind (each x List.mem_cons_self) fun _ => ih fun y member =>
      each y (.tail _ member)

theorem foldlM {f : β → α → m β} {xs : List α} (each : ∀ b, ∀ x ∈ xs, P (f b x)) (b : β) :
    P (xs.foldlM f b) := by
  induction xs generalizing b with
  | nil => exact sequential.pure b
  | cons x xs ih =>
    rw [List.foldlM_cons]
    exact sequential.bind (each b x List.mem_cons_self)
      (ih fun c y member => each c y (.tail _ member))

theorem filterM {f : α → m Bool} {xs : List α} (each : ∀ x ∈ xs, P (f x)) : P (xs.filterM f) := by
  have collects : ∀ found, P (List.filterAuxM f xs found) := by
    induction xs with
    | nil => exact fun found => sequential.pure found
    | cons x xs ih =>
      exact fun found => sequential.bind (each x List.mem_cons_self) fun _ =>
        ih (fun y member => each y (.tail _ member)) _
  exact sequential.bind (collects []) fun found => sequential.pure found.reverse

end Sequential

instance decidableEqResult {ε σ α : Type} [DecidableEq ε] [DecidableEq σ] [DecidableEq α] :
    DecidableEq (EStateM.Result ε σ α)
  | .ok x s, .ok y t => decidable_of_iff (x = y ∧ s = t) (by simp)
  | .error d s, .error e t => decidable_of_iff (d = e ∧ s = t) (by simp)
  | .ok _ _, .error _ _ => .isFalse (by simp)
  | .error _ _, .ok _ _ => .isFalse (by simp)

@[simp] theorem run_throw (e : ε) (s : σ) :
    (throw e : EStateM ε σ α).run s = .error e s := rfl

@[simp] theorem run_set (s s' : σ) : (EStateM.set s' : EStateM ε σ PUnit).run s = .ok ⟨⟩ s' := rfl

theorem run_bind_ok {x : EStateM ε σ α} {f : α → EStateM ε σ β} {s s'' : σ} {b : β}
    (h : (x >>= f).run s = .ok b s'') :
    ∃ a s', x.run s = .ok a s' ∧ (f a).run s' = .ok b s'' := by
  rw [EStateM.run_bind] at h
  cases hx : x.run s with
  | ok a s' => exact ⟨a, s', rfl, by simpa [hx] using h⟩
  | error e s' => simp [hx] at h

theorem run_bind_of_ok {m : EStateM ε σ α} {f : α → EStateM ε σ β} {s t : σ} {x : α}
    (ran : m.run s = .ok x t) :
    (m >>= f).run s = (f x).run t := by
  rw [EStateM.run_bind, ran]

theorem run_bind_error {x : EStateM ε σ α} {f : α → EStateM ε σ β} {s s'' : σ} {e : ε}
    (h : (x >>= f).run s = .error e s'') :
    x.run s = .error e s'' ∨ ∃ a s', x.run s = .ok a s' ∧ (f a).run s' = .error e s'' := by
  rw [EStateM.run_bind] at h
  cases hx : x.run s with
  | ok a s' => exact .inr ⟨a, s', rfl, by simpa [hx] using h⟩
  | error e' s' => exact .inl (by simpa [hx] using h)

@[simp] theorem ok_bind (x : α) (f : α → Except ε β) : (Except.ok x >>= f) = f x := rfl

@[simp] theorem ok_map (x : α) (f : α → β) : (Except.ok x : Except ε α).map f = .ok (f x) := rfl

@[simp] theorem mapError_ok {ε' : Type} (f : ε → ε') (x : α) :
    (Except.ok x : Except ε α).mapError f = .ok x := rfl

theorem mapError_eq_ok {ε' : Type} {x : Except ε α} {f : ε → ε'} {a : α}
    (succeeded : x.mapError f = .ok a) :
    x = .ok a := by
  cases x with
  | ok b => exact congrArg _ (Except.ok.inj succeeded)
  | error e => cases succeeded

theorem exists_ok_of_map {x : Except ε α} {f : α → β} {b : β} (h : x.toOption.map f = some b) :
    ∃ a, x = .ok a ∧ f a = b := by
  cases x with
  | ok a => exact ⟨a, rfl, Option.some.inj h⟩
  | error e => cases h

theorem bind_eq_ok {x : Except ε α} {f : α → Except ε β} {b : β} (h : (x >>= f) = .ok b) :
    ∃ a, x = .ok a ∧ f a = .ok b := by
  cases x with
  | ok a => exact ⟨a, rfl, h⟩
  | error e => cases h

theorem exists_mem_of_mem_right {R : α → β → Prop} {xs : List α} {ys : List β}
    (related : List.Forall₂ R xs ys) {y : β} (member : y ∈ ys) : ∃ x ∈ xs, R x y := by
  induction related with
  | nil => exact nomatch member
  | cons one _ ih =>
    rcases List.mem_cons.1 member with rfl | member
    · exact ⟨_, List.mem_cons_self, one⟩
    · obtain ⟨x, inside, one⟩ := ih member
      exact ⟨x, .tail _ inside, one⟩

theorem forall₂_of_mapM_ok {f : α → Except ε β} {xs : List α} {ys : List β}
    (h : xs.mapM f = .ok ys) : List.Forall₂ (fun x y => f x = .ok y) xs ys := by
  induction xs generalizing ys with
  | nil =>
    cases h
    exact .nil
  | cons x xs ih =>
    rw [List.mapM_cons] at h
    obtain ⟨y, first, h⟩ := bind_eq_ok h
    obtain ⟨rest, others, h⟩ := bind_eq_ok h
    cases h
    exact .cons first (ih others)

theorem mapM_eq_ok_of_forall₂ {f : α → Except ε β} {xs : List α} {ys : List β}
    (h : List.Forall₂ (fun x y => f x = .ok y) xs ys) : xs.mapM f = .ok ys := by
  induction h with
  | nil => rfl
  | cons first _ ih =>
    rw [List.mapM_cons, first, ok_bind, ih]
    rfl

/-- A result is of one kind, and an error of another. -/
def Ends (Q : α → Prop) (F : ε → Prop) : Except ε α → Prop
  | .ok x => Q x
  | .error e => F e

namespace Ends

variable {Q : α → Prop} {R : β → Prop} {F : ε → Prop}

theorem mono {Q' : α → Prop} {F' : ε → Prop} {x : Except ε α} (ends : Ends Q F x)
    (more : ∀ a, Q a → Q' a) (moreErrors : ∀ e, F e → F' e) : Ends Q' F' x := by
  cases x with
  | ok a => exact more a ends
  | error e => exact moreErrors e ends

theorem bind {x : Except ε α} {f : α → Except ε β} (first : Ends Q F x)
    (rest : ∀ a, Q a → Ends R F (f a)) : Ends R F (x >>= f) := by
  cases x with
  | ok a => exact rest a first
  | error e => exact first

theorem map {x : Except ε α} {f : α → β} (first : Ends (fun a => R (f a)) F x) :
    Ends R F (x.map f) := by
  cases x with
  | ok a => exact first
  | error e => exact first

theorem mapError {ε' : Type} {G : ε' → Prop} {x : Except ε α} {f : ε → ε'}
    (first : Ends Q (fun e => G (f e)) x) : Ends Q G (x.mapError f) := by
  cases x with
  | ok a => exact first
  | error e => exact first

theorem mapM {f : α → Except ε β} {P : α → β → Prop} {xs : List α}
    (each : ∀ x ∈ xs, Ends (P x) F (f x)) : Ends (List.Forall₂ P xs) F (xs.mapM f) := by
  induction xs with
  | nil => exact .nil
  | cons x xs ih =>
    rw [List.mapM_cons]
    refine (each x List.mem_cons_self).bind fun y first => ?_
    exact (ih fun x' member => each x' (.tail _ member)).bind fun ys rest =>
      List.Forall₂.cons first rest

/-- Nothing is said of the result. -/
theorem any (x : Except ε α) (noErrors : ∀ e, F e) : Ends (fun _ => True) F x := by
  cases x with
  | ok a => trivial
  | error e => exact noErrors e

end Ends

/-- What a program leaves, whether it succeeds or fails. -/
def leftBy (m : EStateM ε σ α) (s : σ) : σ :=
  match m.run s with
  | .ok _ t | .error _ t => t

theorem leftBy_ok {m : EStateM ε σ α} {s t : σ} {x : α} (ran : m.run s = .ok x t) :
    leftBy m s = t := by
  rw [leftBy, ran]

theorem leftBy_error {m : EStateM ε σ α} {s t : σ} {e : ε} (failed : m.run s = .error e t) :
    leftBy m s = t := by
  rw [leftBy, failed]

theorem leftBy_bind_pure (m : EStateM ε σ α) (x : β) (s : σ) :
    leftBy (m >>= fun _ => pure x) s = leftBy m s := by
  rw [leftBy, EStateM.run_bind, leftBy]
  cases m.run s <;> rfl

/-- A step keeps what holds of the state, also if it fails. -/
def Preserves (P : σ → Prop) (m : EStateM ε σ α) : Prop :=
  ∀ s, P s → match m.run s with | .ok _ t | .error _ t => P t

theorem preserves_iff {P : σ → Prop} {m : EStateM ε σ α} :
    Preserves P m ↔ ∀ s, P s → P (leftBy m s) := by
  refine forall_congr' fun s => imp_congr_right fun _ => ?_
  rw [leftBy]
  cases m.run s <;> exact Iff.rfl

namespace Preserves

variable {P : σ → Prop}

theorem ok {m : EStateM ε σ α} (preserves : Preserves P m) {s t : σ} {x : α} (holds : P s)
    (h : m.run s = .ok x t) : P t := by
  have := preserves s holds
  rwa [h] at this

theorem error {m : EStateM ε σ α} (preserves : Preserves P m) {s t : σ} {e : ε} (holds : P s)
    (h : m.run s = .error e t) : P t := by
  have := preserves s holds
  rwa [h] at this

protected theorem pure (P : σ → Prop) (x : α) : Preserves P (pure x : EStateM ε σ α) :=
  fun _ holds => holds

protected theorem throw (P : σ → Prop) (e : ε) : Preserves P (throw e : EStateM ε σ α) :=
  fun _ holds => holds

protected theorem modify {f : σ → σ} (keeps : ∀ s, P s → P (f s)) :
    Preserves P (modify f : EStateM ε σ PUnit) := fun s holds => keeps s holds

protected theorem bind {m : EStateM ε σ α} {next : α → EStateM ε σ β} (first : Preserves P m)
    (rest : ∀ x, Preserves P (next x)) : Preserves P (m >>= next) := by
  intro s holds
  rw [EStateM.run_bind]
  cases h : m.run s with
  | error e t => exact first.error holds h
  | ok x t => exact rest x t (first.ok holds h)

/-- What a step does may depend on the state in which it is taken. -/
protected theorem get {next : σ → EStateM ε σ β}
    (rest : ∀ s, P s → match (next s).run s with | .ok _ t | .error _ t => P t) :
    Preserves P (get >>= next) := rest

/-- What a step leaves may depend on the state in which it is taken. -/
theorem ofGet {next : σ → EStateM ε σ β} (rest : ∀ s, P s → P (leftBy (next s) s)) :
    Preserves P (get >>= next) := preserves_iff.2 rest

theorem sequential (P : σ → Prop) : Sequential (EStateM ε σ) (Preserves P) :=
  ⟨.pure P, .bind⟩

protected theorem mapM {f : α → EStateM ε σ β} {xs : List α} (each : ∀ x ∈ xs, Preserves P (f x)) :
    Preserves P (xs.mapM f) := (sequential P).mapM each

protected theorem forM {f : α → EStateM ε σ PUnit} {xs : List α}
    (each : ∀ x ∈ xs, Preserves P (f x)) :
    Preserves P (xs.forM f) := (sequential P).forM each

protected theorem foldlM {f : β → α → EStateM ε σ β} {xs : List α}
    (each : ∀ b, ∀ x ∈ xs, Preserves P (f b x)) (b : β) : Preserves P (xs.foldlM f b) :=
  (sequential P).foldlM each b

end Preserves

/-- A step keeps what holds of the state, also if it fails, and fails only for certain reasons. -/
def FailsOnly (P : σ → Prop) (F : ε → Prop) (m : EStateM ε σ α) : Prop :=
  ∀ s, P s → match m.run s with
    | .ok _ t => P t
    | .error e t => P t ∧ F e

namespace FailsOnly

variable {P : σ → Prop} {F G : ε → Prop}

theorem ok {m : EStateM ε σ α} (fails : FailsOnly P F m) {s t : σ} {x : α} (holds : P s)
    (h : m.run s = .ok x t) : P t := by
  have := fails s holds
  rwa [h] at this

theorem error {m : EStateM ε σ α} (fails : FailsOnly P F m) {s t : σ} {e : ε} (holds : P s)
    (h : m.run s = .error e t) : P t ∧ F e := by
  have := fails s holds
  rwa [h] at this

theorem preserves {m : EStateM ε σ α} (fails : FailsOnly P F m) : Preserves P m := by
  intro s holds
  cases h : m.run s with
  | ok x t => exact fails.ok holds h
  | error e t => exact (fails.error holds h).1

theorem mono {m : EStateM ε σ α} (fails : FailsOnly P F m) (more : ∀ e, F e → G e) :
    FailsOnly P G m := by
  intro s holds
  cases h : m.run s with
  | ok x t => exact fails.ok holds h
  | error e t => exact (fails.error holds h).imp_right (more e)

protected theorem pure (x : α) : FailsOnly P F (pure x : EStateM ε σ α) := fun _ holds => holds

protected theorem throw {e : ε} (reason : F e) : FailsOnly P F (throw e : EStateM ε σ α) :=
  fun _ holds => ⟨holds, reason⟩

protected theorem modify {f : σ → σ} (keeps : ∀ s, P s → P (f s)) :
    FailsOnly P F (modify f : EStateM ε σ PUnit) := fun s holds => keeps s holds

protected theorem bind {m : EStateM ε σ α} {next : α → EStateM ε σ β} (first : FailsOnly P F m)
    (rest : ∀ x, FailsOnly P F (next x)) : FailsOnly P F (m >>= next) := by
  intro s holds
  rw [EStateM.run_bind]
  cases h : m.run s with
  | error e t => exact first.error holds h
  | ok x t => exact rest x t (first.ok holds h)

protected theorem set {s : σ} (holds : P s) : FailsOnly P F (set s : EStateM ε σ PUnit) :=
  fun _ _ => holds

/-- What a step does may depend on the state in which it is taken. -/
protected theorem get {next : σ → EStateM ε σ β} (rest : ∀ s, P s → FailsOnly P F (next s)) :
    FailsOnly P F (get >>= next) := fun s holds => rest s holds s holds

theorem sequential (P : σ → Prop) (F : ε → Prop) :
    Sequential (EStateM ε σ) (FailsOnly P F) :=
  ⟨.pure, .bind⟩

protected theorem mapM {f : α → EStateM ε σ β} {xs : List α}
    (each : ∀ x ∈ xs, FailsOnly P F (f x)) :
    FailsOnly P F (xs.mapM f) := (sequential P F).mapM each

protected theorem forM {f : α → EStateM ε σ PUnit} {xs : List α}
    (each : ∀ x ∈ xs, FailsOnly P F (f x)) :
    FailsOnly P F (xs.forM f) := (sequential P F).forM each

protected theorem foldlM {f : β → α → EStateM ε σ β} {xs : List α}
    (each : ∀ b, ∀ x ∈ xs, FailsOnly P F (f b x)) (b : β) : FailsOnly P F (xs.foldlM f b) :=
  (sequential P F).foldlM each b

theorem ite {c : Prop} [Decidable c] {m n : EStateM ε σ α} (first : FailsOnly P F m)
    (second : FailsOnly P F n) :
    FailsOnly P F (if c then m else n) := by
  split
  · exact first
  · exact second

/-- A step that has no reason to fail succeeds. -/
theorem succeeds {m : EStateM ε σ α} (fails : FailsOnly P F m) {s : σ} (holds : P s)
    (never : ∀ e, ¬F e) :
    ∃ x t, m.run s = .ok x t ∧ P t := by
  cases h : m.run s with
  | ok x t => exact ⟨x, t, rfl, fails.ok holds h⟩
  | error e t => exact absurd (fails.error holds h).2 (never e)

end FailsOnly

/-- Whatever holds before a step, something holds after it, and something else holds where it
fails. -/
def Leads (P : σ → Prop) (Q : α → σ → Prop) (F : σ → Prop) (m : EStateM ε σ α) : Prop :=
  ∀ s, P s → match m.run s with
    | .ok x t => Q x t
    | .error _ t => F t

namespace Leads

variable {P P' : σ → Prop} {Q Q' : α → σ → Prop} {F : σ → Prop}

theorem of_preserves {m : EStateM ε σ α} (preserves : Preserves P m) (fails : ∀ s, P s → F s) :
    Leads P (fun _ => P) F m := by
  intro s holds
  have kept := preserves s holds
  cases ran : m.run s with
  | ok x t =>
    rw [ran] at kept
    exact kept
  | error e t =>
    rw [ran] at kept
    exact fails t kept

theorem mono {m : EStateM ε σ α} (leads : Leads P Q F m) (before : ∀ s, P' s → P s)
    (after : ∀ x s, Q x s → Q' x s) : Leads P' Q' F m := by
  intro s holds
  have led := leads s (before s holds)
  cases ran : m.run s with
  | ok x t =>
    rw [ran] at led
    exact after x t led
  | error e t =>
    rw [ran] at led
    exact led

protected theorem bind {R : β → σ → Prop} {m : EStateM ε σ α} {next : α → EStateM ε σ β}
    (first : Leads P Q F m) (rest : ∀ x, Leads (Q x) R F (next x)) : Leads P R F (m >>= next) := by
  intro s holds
  have led := first s holds
  rw [EStateM.run_bind]
  cases ran : m.run s with
  | ok x t =>
    rw [ran] at led
    exact rest x t led
  | error e t =>
    rw [ran] at led
    exact led

protected theorem pure (Q : α → σ → Prop) (x : α) : Leads (Q x) Q F (pure x : EStateM ε σ α) :=
  fun _ holds => holds

/-- What holds in a loop may depend on the elements that are still to come. -/
protected theorem mapM {f : α → EStateM ε σ β} {P : List α → σ → Prop} {xs : List α}
    (each : ∀ x ∈ xs, ∀ rest, Leads (P (x :: rest)) (fun _ => P rest) F (f x)) :
    Leads (P xs) (fun _ => P []) F (xs.mapM f) := by
  induction xs with
  | nil => exact .pure (fun _ => P []) _
  | cons x xs ih =>
    rw [List.mapM_cons]
    refine (each x List.mem_cons_self xs).bind fun y =>
      (ih fun y member => each y (.tail _ member)).bind fun ys => .pure (fun _ => P []) _

theorem leftBy {m : EStateM ε σ α} (leads : Leads P (fun _ => F) F m) {s : σ} (holds : P s) :
    F (leftBy m s) := by
  have led := leads s holds
  rw [JvmPatch.leftBy]
  cases ran : m.run s with
  | ok x t | error e t =>
    rw [ran] at led
    exact led

end Leads

/-- A step that succeeds takes a state to a related one. -/
def Moves (R : σ → σ → Prop) (m : EStateM ε σ α) : Prop := ∀ s x t, m.run s = .ok x t → R s t

namespace Moves

variable {R : σ → σ → Prop} {m : EStateM ε σ α}

protected theorem throw (R : σ → σ → Prop) (e : ε) : Moves R (throw e : EStateM ε σ α) :=
  fun _ _ _ h => nomatch h

variable [IsPreorder σ R]

protected theorem pure (R : σ → σ → Prop) [IsPreorder σ R] (x : α) :
    Moves R (pure x : EStateM ε σ α) := by
  intro s y t h
  cases h
  exact refl_of R s

protected theorem bind {next : α → EStateM ε σ β} (first : Moves R m)
    (rest : ∀ x, Moves R (next x)) :
    Moves R (m >>= next) := by
  intro s y t h
  obtain ⟨x, u, one, h⟩ := run_bind_ok h
  exact trans_of R (first s x u one) (rest x u y t h)

theorem sequential (R : σ → σ → Prop) [IsPreorder σ R] :
    Sequential (EStateM ε σ) (Moves R) :=
  ⟨.pure R, .bind⟩

protected theorem forM {f : α → EStateM ε σ PUnit} {xs : List α} (each : ∀ x ∈ xs, Moves R (f x)) :
    Moves R (xs.forM f) := (sequential R).forM each

protected theorem mapM {f : α → EStateM ε σ β} {xs : List α} (each : ∀ x ∈ xs, Moves R (f x)) :
    Moves R (xs.mapM f) := (sequential R).mapM each

/-- Every step of a loop is taken on the way from its beginning to its end. -/
theorem mapM_between {f : α → EStateM ε σ β} {xs : List α} {ys : List β} {s t : σ}
    (each : ∀ x ∈ xs, Moves R (f x)) (h : (xs.mapM f).run s = .ok ys t) :
    List.Forall₂ (fun x y => ∃ u v, R s u ∧ (f x).run u = .ok y v ∧ R v t) xs ys := by
  induction xs generalizing s ys with
  | nil =>
    cases h
    exact .nil
  | cons x xs ih =>
    rw [List.mapM_cons] at h
    obtain ⟨y, u, one, h⟩ := run_bind_ok h
    obtain ⟨rest, v, more, done⟩ := run_bind_ok h
    cases done
    have others := fun z inside => each z (List.mem_cons_of_mem x inside)
    refine .cons ⟨s, u, refl_of R s, one, Moves.mapM others _ _ _ more⟩ ((ih others more).imp ?_)
    rintro z w ⟨u', v', reached, step, rest⟩
    exact ⟨u', v', trans_of R (each x List.mem_cons_self _ _ _ one) reached, step, rest⟩

end Moves

instance isPreorder_imp (P : σ → Prop) : IsPreorder σ fun s t => P s → P t where
  refl _ := id
  trans _ _ _ first second := second ∘ first

/-- A step that succeeds keeps what holds of the state. -/
abbrev KeepsIfOk (P : σ → Prop) (m : EStateM ε σ α) : Prop := Moves (fun s t => P s → P t) m

/-- A loop succeeds if every step of it succeeds where something holds that the steps keep. -/
theorem forM_succeeds {P : σ → Prop} {f : α → EStateM ε σ PUnit} {xs : List α}
    (each : ∀ x ∈ xs, ∀ s, P s → ∃ t, (f x).run s = .ok ⟨⟩ t ∧ P t) :
    ∀ s, P s → ∃ t, (xs.forM f).run s = .ok ⟨⟩ t ∧ P t := by
  induction xs with
  | nil => exact fun s holds => ⟨s, rfl, holds⟩
  | cons x xs ih =>
    intro s holds
    obtain ⟨t, first, middle⟩ := each x List.mem_cons_self s holds
    obtain ⟨u, rest, after⟩ := ih (fun y member => each y (.tail _ member)) t middle
    exact ⟨u, (run_bind_of_ok first).trans rest, after⟩

/-- Every step of a loop that succeeds has succeeded in some state. -/
theorem run_foldlM_ok_of_mem {f : β → α → EStateM ε σ β} {xs : List α} {b b' : β} {s s' : σ}
    (h : (xs.foldlM f b).run s = .ok b' s') {x : α} (member : x ∈ xs) :
    ∃ c t c' t', (f c x).run t = .ok c' t' := by
  induction xs generalizing b s with
  | nil => simp at member
  | cons y ys ih =>
    rw [List.foldlM_cons] at h
    obtain ⟨c, t, first, rest⟩ := run_bind_ok h
    rcases List.mem_cons.1 member with rfl | member
    · exact ⟨b, s, c, t, first⟩
    · exact ih rest member

end JvmPatch
