import JvmPatch.Resolve.Check

/-! Searching for an assignment. Every class block that is not added gets a class that can be
matched, and every field and method of it that is not added gets a member of that class; strong
names admit the things of that name only. The assignments are tried in order, the one that changes
the last member coming next, and the first that is accepted wins. -/

set_option autoImplicit false

namespace JvmPatch

/-- How many assignments are tried at a time. -/
structure ResolveOptions where
  parallel : Bool := true
  batchSize : UInt64 := 64
  deriving DecidableEq, Repr

/-- The bytes that one assignment takes in the list of a batch. -/
def batchItemBytes : Nat := 24

/-- The largest number of bytes in a list. -/
def maxListBytes : Nat := 0x7fffffffffffffff

namespace ResolveOptions

/-- The number of assignments that are tried together. -/
def batch (o : ResolveOptions) : Nat := if o.parallel then max 1 o.batchSize.toNat else 1

/-- Whether a list can have room for all assignments of a batch. The room is made before anything is
tried. That there is memory for a list that is not too large is taken for granted. -/
def Fits (o : ResolveOptions) : Prop := o.batch * batchItemBytes ≤ maxListBytes

instance (o : ResolveOptions) : Decidable o.Fits :=
  inferInstanceAs (Decidable (o.batch * batchItemBytes ≤ maxListBytes))

end ResolveOptions

/-- An accepted assignment with its bindings. -/
structure Resolution where
  scope : Scope
  assignment : Assignment
  deriving DecidableEq, Repr

/-- No assignment is accepted. What is reported is the first of the rejections that passed the most
checks. -/
structure NoMatch where
  element : String
  reason : Reason
  deriving DecidableEq, Repr

def NoMatch.message (e : NoMatch) : String :=
  "could not find a match for patch: " ++ e.element ++ ": " ++ e.reason.message

/-- Why a search gives no assignment. -/
inductive ResolveError
  | noMatch (cause : NoMatch)
  /-- A list with room for a batch would be too large. The program stops where it makes the list. -/
  | capacityOverflow
  deriving DecidableEq, Repr

def ResolveError.message : ResolveError → String
  | .noMatch cause => cause.message
  | .capacityOverflow => "capacity overflow"

/-- The things that a name admits. -/
def Ident.narrow {α : Type} (ident : Ident) (name : α → String) (candidates : List α) : List α :=
  if ident.isStrong then candidates.filter fun x => name x == ident.name else candidates

/-- The things that are tried one after the other: the candidates, or nothing if there are none. -/
def options {α : Type} : List α → List (Option α)
  | [] => [none]
  | xs => xs.map some

namespace ClassSet

def classOptions (set : ClassSet) (block : ClassBlock) : List (Option ClassId) :=
  if block.mode = .add then [none]
  else options (block.ident.narrow (fun id => (set.classAt id).name) set.candidates)

/-- What is tried for a field line, given the class of its block. -/
def fieldOptions (set : ClassSet) (cls : Option ClassId) (line : FieldLine) :
    List (Option FieldId) :=
  match line.mode, cls with
  | .add, _ | _, none => [none]
  | _, some id =>
    options (line.ident.narrow (fun f => (set.fieldAt f).name) (set.fieldCandidates id))

def methodOptions (set : ClassSet) (cls : Option ClassId) (block : MethodBlock) :
    List (Option MethodId) :=
  match block.mode, cls with
  | .add, _ | _, none => [none]
  | _, some id =>
    options (block.ident.narrow (fun m => (set.methodAt m).name) (set.methodCandidates id))

end ClassSet

/-- Visits the lists that take one element of each of the given lists, the last place changing
first, until `done` holds. -/
def forProduct {α σ : Type} (done : σ → Bool) (visit : List α → σ → σ) :
    List (List α) → List α → σ → σ
  | [], chosen, s => visit chosen s
  | xs :: rest, chosen, s =>
    xs.foldl (fun s x => if done s then s else forProduct done visit rest (chosen ++ [x]) s) s

namespace ClassSet

/-- Visits what is tried for a class block and its members. -/
def forChoices {σ : Type} (set : ClassSet) (done : σ → Bool) (block : ClassBlock)
    (visit : ClassChoice → σ → σ) (s : σ) : σ :=
  (set.classOptions block).foldl
    (fun s cls =>
      if done s then s
      else
        forProduct done
          (fun fields =>
            forProduct done (fun methods => visit ⟨cls, fields, methods⟩)
              (block.methods.map (set.methodOptions cls)) [])
          (block.fields.map (set.fieldOptions cls)) [] s)
    s

/-- Visits the assignments that are tried for class blocks. -/
def forAssignments {σ : Type} (set : ClassSet) (done : σ → Bool) (visit : Assignment → σ → σ) :
    List ClassBlock → Assignment → σ → σ
  | [], chosen, s => visit chosen s
  | block :: blocks, chosen, s =>
    set.forChoices done block
      (fun choice => forAssignments set done visit blocks (chosen ++ [choice])) s

end ClassSet

/-- The number of things that are assigned for a class block. -/
def ClassBlock.tickCount (block : ClassBlock) : Nat :=
  if block.mode = .add then 0
  else
    1 + (block.fields.filter fun f => f.mode != .add).length +
      (block.methods.filter fun m => m.mode != .add).length

/-- The number of things that are assigned for a script. -/
def Script.tickCount (script : Script) : Nat :=
  script.classes.foldl (fun n block => n + block.tickCount) 0

namespace ClassSet

/-- Binds the name of a line or block to what is assigned to it, unless it is added. -/
def claim {α : Type} (mode : Mode) (element : String) (kind : ElementKind) (ident : Ident)
    (bind : α → Scope → Option Scope) (assigned : Option α) (progress : Nat) : VerifyM Nat :=
  if mode = .add then pure progress
  else
    match assigned with
    | none => throw ⟨progress, element, .noCandidateLeft kind⟩
    | some x => do
      if ident.isBindable then
        match bind x (← get) with
        | some scope => set scope
        | none => throw ⟨progress, element, .claimed kind⟩
      pure (progress + 1)

/-- Binds the names of a class block and its members to what is assigned to them. -/
def claimClass (set : ClassSet) (block : ClassBlock) (choice : ClassChoice) (progress : Nat) :
    VerifyM Nat :=
  if block.mode = .add then pure progress
  else do
    let progress ← claim block.mode block.describe .cls block.ident
      (fun id scope => scope.bindClass? block.ident.text id) choice.cls progress
    let owner := choice.cls.getD default
    let progress ← (block.fields.zip choice.fields).foldlM
      (fun n e =>
        claim e.1.mode (e.1.describe block) .field e.1.ident
          (fun id scope => scope.bindField? set owner (.of e.1.ident e.1.desc) id) e.2 n)
      progress
    (block.methods.zip choice.methods).foldlM
      (fun n e =>
        claim e.1.mode (e.1.describe block) .method e.1.ident
          (fun id scope => scope.bindMethod? set owner (.of e.1.ident e.1.desc) id) e.2 n)
      progress

/-- Binds the names of a script to what is assigned to them. -/
def claimAll (set : ClassSet) (script : Script) (assignment : Assignment) : VerifyM Nat :=
  (script.classes.zip assignment).foldlM (fun n e => set.claimClass e.1 e.2 n) 0

/-- Tries an assignment: the names of its blocks and lines are bound first, then it is checked. -/
def attempt (set : ClassSet) (script : Script) (initial : Scope)
    (verifier : Assignment → VerifyM Unit) (assignment : Assignment) :
    Except Rejection Resolution :=
  match (set.claimAll script assignment).run initial with
  | .error rejection _ => .error rejection
  | .ok claimed scope =>
    match (verifier assignment).run scope with
    | .ok _ scope => .ok ⟨scope, assignment⟩
    | .error rejection _ => .error { rejection with progress := rejection.progress + claimed }

end ClassSet

/-- The state of a search: what was accepted, or the assignments that wait to be tried and the best
rejection so far. -/
inductive SearchState
  | accepted (resolution : Resolution)
  | searching (waiting : List Assignment) (best : Option Rejection)
  deriving DecidableEq, Repr

namespace SearchState

def isAccepted : SearchState → Bool
  | .accepted _ => true
  | .searching .. => false

/-- The better of two rejections. The earlier one wins a draw. -/
def better (best : Option Rejection) (r : Rejection) : Option Rejection :=
  match best with
  | none => some r
  | some b => if b.progress < r.progress then some r else some b

/-- Takes in the results of assignments that were tried together, in order. -/
def takeIn : List (Except Rejection Resolution) → Option Rejection → SearchState
  | [], best => .searching [] best
  | .ok resolution :: _, _ => .accepted resolution
  | .error rejection :: outcomes, best => takeIn outcomes (better best rejection)

def flush (attempt : Assignment → Except Rejection Resolution) : SearchState → SearchState
  | .accepted resolution => .accepted resolution
  | .searching waiting best => takeIn (waiting.map attempt) best

/-- Lets an assignment wait until there are enough to be tried together. -/
def offer (attempt : Assignment → Except Rejection Resolution) (batch : Nat)
    (assignment : Assignment) : SearchState → SearchState
  | .accepted resolution => .accepted resolution
  | .searching waiting best =>
    let waiting := waiting ++ [assignment]
    if waiting.length < batch then .searching waiting best
    else flush attempt (.searching waiting best)

end SearchState

namespace ClassSet

/-- Finds the first assignment that is accepted, with batches of a given size. -/
def search (set : ClassSet) (script : Script) (initial : Scope)
    (verifier : Assignment → VerifyM Unit) (batch : Nat) : Except NoMatch Resolution :=
  let attempt := set.attempt script initial verifier
  let searched := set.forAssignments SearchState.isAccepted
    (SearchState.offer attempt batch) script.classes [] (.searching [] none)
  match SearchState.flush attempt searched with
  | .accepted resolution => .ok resolution
  | .searching _ (some best) => .error ⟨best.element, best.reason⟩
  | .searching _ none => .error ⟨"patch", .noCandidates⟩

/-- Finds the first assignment that is accepted. -/
def resolve (set : ClassSet) (script : Script) (initial : Scope)
    (verifier : Assignment → VerifyM Unit) (o : ResolveOptions) : Except ResolveError Resolution :=
  if o.Fits then (set.search script initial verifier o.batch).mapError .noMatch
  else .error .capacityOverflow

end ClassSet

end JvmPatch
