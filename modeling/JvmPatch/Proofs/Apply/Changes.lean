import JvmPatch.Apply.Basic
import JvmPatch.Proofs.ClassSet.Evolution
import JvmPatch.Proofs.Scope.Binding
import JvmPatch.Proofs.Steps

/-! What carrying out the blocks of a script up to their method bodies does to the classes and to
the scope, and how it can fail. -/

set_option autoImplicit false

namespace JvmPatch

/-- Whether the applier did not find what the checks found. -/
def ApplyError.isInconsistent : ApplyError → Bool
  | .inconsistent .. => true
  | _ => false

/-- Whether something was not found in a body again, or cannot be added to it. -/
def ApplyError.isOfBody : ApplyError → Bool
  | .inconsistent .. | .line _ (.instantiate _) => true
  | _ => false

theorem ApplyError.isInconsistent_of_isOfBody {e : ApplyError} (other : e.isOfBody = false) :
    e.isInconsistent = false := by
  cases e with
  | inconsistent => cases other
  | _ => rfl

/-- The classes have changed as permitted, names have been bound, and what was found in bodies
stays. -/
structure Changed (may : ClassSet.Permit) (s t : ApplyState) : Prop where
  classes : ClassSet.Evolves may s.classes t.classes
  gains : s.scope.Gains .everything t.scope
  bodies : t.scope.bodies = s.scope.bodies

namespace Changed

variable {may : ClassSet.Permit} {s t u : ApplyState}

theorem refl (may : ClassSet.Permit) (s : ApplyState) : Changed may s s :=
  ⟨.refl may s.classes, .refl, rfl⟩

theorem trans (first : Changed may s t) (second : Changed may t u) : Changed may s u :=
  ⟨first.classes.trans second.classes, first.gains.trans second.gains,
    second.bodies.trans first.bodies⟩

/-- Names stand for what they stood for. -/
theorem extends_ (changed : Changed may s t) : t.scope.Extends s.scope := changed.gains.extends_

/-- Only the classes change. -/
theorem ofClasses {set : ClassSet} (evolves : ClassSet.Evolves may s.classes set) :
    Changed may s { s with classes := set } :=
  ⟨evolves, .refl, rfl⟩

end Changed

/-- A step changes things as permitted, also if it fails, and does not fail because of a body. -/
def ChangesAt {α : Type} (may : ClassSet.Permit) (s : ApplyState) (m : ApplyM α) : Prop :=
  match m.run s with
  | .ok _ t => Changed may s t
  | .error e t => Changed may s t ∧ e.isOfBody = false

/-- A step changes things as permitted in every state. -/
def Changes {α : Type} (may : ClassSet.Permit) (m : ApplyM α) : Prop := ∀ s, ChangesAt may s m

namespace ChangesAt

variable {α β : Type} {may : ClassSet.Permit} {s : ApplyState}

theorem ok {m : ApplyM α} (changes : ChangesAt may s m) {t : ApplyState} {x : α}
    (h : m.run s = .ok x t) : Changed may s t := by
  rwa [ChangesAt, h] at changes

theorem isOfBody {m : ApplyM α} (changes : ChangesAt may s m) {t : ApplyState} {e : ApplyError}
    (h : m.run s = .error e t) : e.isOfBody = false := by
  rw [ChangesAt, h] at changes
  exact changes.2

theorem error {m : ApplyM α} (changes : ChangesAt may s m) {t : ApplyState} {e : ApplyError}
    (h : m.run s = .error e t) : e.isInconsistent = false :=
  ApplyError.isInconsistent_of_isOfBody (changes.isOfBody h)

protected theorem pure (may : ClassSet.Permit) (s : ApplyState) (x : α) :
    ChangesAt may s (pure x : ApplyM α) := .refl may s

protected theorem throw (may : ClassSet.Permit) (s : ApplyState) {e : ApplyError}
    (other : e.isOfBody = false) : ChangesAt may s (throw e : ApplyM α) :=
  ⟨.refl may s, other⟩

protected theorem bind {m : ApplyM α} {next : α → ApplyM β} (first : ChangesAt may s m)
    (rest : ∀ x t, m.run s = .ok x t → ChangesAt may t (next x)) :
    ChangesAt may s (m >>= next) := by
  rw [ChangesAt, EStateM.run_bind]
  rw [ChangesAt] at first
  cases h : m.run s with
  | error e t => simpa only [h] using first
  | ok x t =>
    simp only [h] at first ⊢
    have second := rest x t h
    rw [ChangesAt] at second
    cases h' : (next x).run t with
    | error e u =>
      rw [h'] at second
      exact ⟨first.trans second.1, second.2⟩
    | ok y u =>
      rw [h'] at second
      exact first.trans second

/-- A step that begins with reading the state. -/
protected theorem get {next : ApplyState → ApplyM β} (rest : ChangesAt may s (next s)) :
    ChangesAt may s (get >>= next) := rest

protected theorem set {t : ApplyState} (changed : Changed may s t) :
    ChangesAt may s (set t : ApplyM PUnit) := changed

end ChangesAt

namespace Changes

open ApplyM

variable {α β : Type} {may : ClassSet.Permit}

protected theorem pure (may : ClassSet.Permit) (x : α) : Changes may (pure x : ApplyM α) :=
  fun s => .pure may s x

protected theorem throw (may : ClassSet.Permit) {e : ApplyError}
    (other : e.isOfBody = false) : Changes may (throw e : ApplyM α) :=
  fun s => .throw may s other

protected theorem modify {f : ApplyState → ApplyState} (changed : ∀ s, Changed may s (f s)) :
    Changes may (modify f : ApplyM Unit) := fun s => changed s

protected theorem bind {m : ApplyM α} {next : α → ApplyM β} (first : Changes may m)
    (rest : ∀ x, Changes may (next x)) : Changes may (m >>= next) :=
  fun s => (first s).bind fun x t _ => rest x t

theorem sequential (may : ClassSet.Permit) : Sequential ApplyM (Changes may) := ⟨.pure may, .bind⟩

protected theorem forM {f : α → ApplyM PUnit} {xs : List α} (each : ∀ x ∈ xs, Changes may (f x)) :
    Changes may (xs.forM f) := (sequential may).forM each

protected theorem mapM {f : α → ApplyM β} {xs : List α} (each : ∀ x ∈ xs, Changes may (f x)) :
    Changes may (xs.mapM f) := (sequential may).mapM each

protected theorem modifyClasses {f : ClassSet → ClassSet}
    (evolves : ∀ set, ClassSet.Evolves may set (f set)) : Changes may (modifyClasses f) :=
  .modify fun s => .ofClasses (evolves s.classes)

protected theorem touch (may : ClassSet.Permit) (id : ClassId) : Changes may (touch id) := by
  refine .modifyClasses fun set => .modifyClass_of_sameLists may set id ?_ ?_
  · exact fun c => ⟨rfl, rfl, rfl⟩
  · exact fun c m member => .inl member

protected theorem count (may : ClassSet.Permit) (f : ApplySummary → ApplySummary) :
    Changes may (count f) :=
  .modify fun s => ⟨.refl may s.classes, .refl, rfl⟩

protected theorem bindIfFree {f : ApplyState → Option Scope}
    (binds : ∀ s scope, f s = some scope →
      Scope.Binds .everything s.scope scope ∧ scope.bodies = s.scope.bodies) :
    Changes may (bindIfFree f) := by
  refine .modify fun s => ⟨.refl may s.classes, ?_, ?_⟩
  · cases h : f s with
    | none => exact .refl
    | some scope => exact .single (binds s scope h).1
  · cases h : f s with
    | none => rfl
    | some scope => exact (binds s scope h).2

protected theorem mapped (may : ClassSet.Permit) (line : Nat)
    (f : ApplyState → Except UnboundName α) :
    Changes may (mapped line f) := by
  refine fun s => .get ?_
  split
  · exact .pure may s _
  · exact .throw may s rfl

protected theorem assigned (may : ClassSet.Permit) (element : String) (x : Option α) :
    Changes may (assigned element x) := by
  cases x with
  | none => exact .throw may rfl
  | some x => exact .pure may x

protected theorem addClass (may : ClassSet.Permit) (block : ClassBlock) :
    Changes may (addClass block) := by
  refine fun s => .get ?_
  dsimp only
  split
  · exact .throw may s rfl
  refine (ChangesAt.set (.ofClasses (.addClass may s.classes rfl rfl rfl))).bind
    fun _ t reached => ?_
  cases reached
  have counted : Changes may (do
      count fun n => { n with addedClasses := n.addedClasses + 1 }
      pure s.classes.nextClass) := (Changes.count may _).bind fun _ => .pure may _
  split
  · split
    · rename_i scope bound
      obtain ⟨-, -, bodies, -⟩ := Scope.bindClass?_eq_some bound
      exact ChangesAt.bind (m := modify _) ⟨.refl may _, .single (.cls bound), bodies⟩
        fun _ t _ => counted t
    · exact .throw may _ rfl
  · exact counted _

protected theorem addClasses (may : ClassSet.Permit) (blocks : List (ClassBlock × ClassChoice)) :
    Changes may (addClasses blocks) := by
  induction blocks with
  | nil => exact .pure may _
  | cons e rest ih =>
    obtain ⟨block, choice⟩ := e
    have onward : ∀ choice, Changes may (do
        let rest ← addClasses rest
        pure ((block, choice) :: rest)) := fun _ => ih.bind fun _ => .pure may _
    unfold addClasses
    dsimp only
    split
    · exact (Changes.addClass may block).bind fun _ => (Changes.pure may _).bind onward
    · exact (Changes.pure may _).bind onward

protected theorem applySuper {id : ClassId} (permitted : may.cls id) (line : Nat)
    (l : SupertypeLine) :
    Changes may (applySuper line id l) := by
  have become : ∀ name, Changes may (modifyClasses fun set =>
      set.modifyClass id fun c => { c with superName := some name, modified := true }) := by
    refine fun name => .modifyClasses fun set => .modifyHeader permitted set ?_ ?_
    · exact fun _ => rfl
    · exact fun _ => ⟨rfl, rfl, rfl⟩
  unfold applySuper
  dsimp only
  split
  · exact .pure may _
  · exact (Changes.mapped may _ _).bind fun _ => become _
  · split
    · exact become _
    · refine (Changes.mapped may _ _).bind fun name s => .get ?_
      split
      · exact become _ s
      · exact .pure may s _

protected theorem applyInterface {id : ClassId} (permitted : may.cls id) (line : Nat)
    (l : SupertypeLine) :
    Changes may (applyInterface line id l) := by
  have become : ∀ f : List String → List String, Changes may (modifyClasses fun set =>
      set.modifyClass id fun c => { c with interfaces := f c.interfaces, modified := true }) := by
    refine fun f => .modifyClasses fun set => .modifyHeader permitted set ?_ ?_
    · exact fun _ => rfl
    · exact fun _ => ⟨rfl, rfl, rfl⟩
  unfold applyInterface
  dsimp only
  split
  · exact .pure may _
  · exact (Changes.mapped may _ _).bind fun name =>
      become fun names => if names.contains name then names else names ++ [name]
  · exact (Changes.mapped may _ _).bind fun name => become fun names => names.filter (· != name)

protected theorem addField {id : ClassId} (permitted : may.cls id) (l : FieldLine) :
    Changes may (addField id l) := by
  refine fun s => .get ?_
  dsimp only
  refine Changes.bind (Changes.mapped may _ _) (fun type => ?_) s
  refine Changes.bind (.modifyClasses fun set => .addField permitted set _ _) fun _ => ?_
  have rest : Changes may (do
      touch id
      pure s.classes.nextField) := (Changes.touch may id).bind fun _ => .pure may _
  split
  · exact (Changes.bindIfFree fun s scope bound =>
      ⟨.field trivial bound, (Scope.frame_bindField? bound).2⟩).bind fun _ => rest
  · exact rest

protected theorem addMethod {id : ClassId} (permitted : may.cls id) (block : MethodBlock) :
    Changes may (addMethod id block) := by
  refine (Changes.mapped may _ _).bind fun type s => .get ?_
  dsimp only
  refine Changes.bind (.modifyClasses fun set => .addMethod permitted set _ _) (fun _ => ?_) s
  have rest : Changes may (do
      touch id
      pure s.classes.nextMethod) := (Changes.touch may id).bind fun _ => .pure may _
  split
  · exact (Changes.bindIfFree fun s scope bound =>
      ⟨.method trivial bound, (Scope.frame_bindMethod? bound).2⟩).bind
      fun _ => rest
  · exact rest

protected theorem removeClass {id : ClassId} (permitted : may.cls id) :
    Changes may (removeClass id) := by
  refine Changes.bind (.modifyClasses fun set => .modifyHeader permitted set ?_ ?_) fun _ =>
    Changes.count may _
  · exact fun _ => rfl
  · exact fun _ => ⟨rfl, rfl, rfl⟩

end Changes

end JvmPatch
