import JvmPatch.Apply.Error

/-! Changing a method body as a block says. Instructions are added right after the last one that a
line of the block was found at, in the order of the block; before the first such line they are added
at the start of the body. -/

set_option autoImplicit false

namespace JvmPatch

/-- The changes to a body so far. Places are those of the body before the changes. -/
structure BodyEdit where
  names : Labelling
  /-- The place after the last line that was found. -/
  cursor : Nat := 0
  /-- The place at which instructions are added. -/
  anchor : Nat := 0
  inserted : List (Nat × Insn) := []
  removed : List Nat := []
  addedRegions : List Region := []
  removedRegions : List Nat := []
  deriving DecidableEq, Repr

/-- Why the lines of a block cannot be carried out in a body. -/
inductive EditFault
  | instantiate (line : Nat) (cause : InstantiateError)
  | inconsistent (line : Nat) (cause : Inconsistency)
  deriving DecidableEq, Repr

/-- Steps that change a body. -/
abbrev EditM := EStateM EditFault BodyEdit

namespace EditM

def build {α : Type} (line : Nat) (m : InstantiateM α) : EditM α := do
  let edit ← get
  match m.run edit.names with
  | .ok x names =>
    set { edit with names := names }
    pure x
  | .error cause names =>
    set { edit with names := names }
    throw (.instantiate line cause)

end EditM

def nothingSought (lines : List InsnLine) : Bool :=
  lines.all fun l => l.mode == .add || l.pattern.isTryCatch

namespace BodyContext

def addLine (cx : BodyContext) (l : InsnLine) : EditM Unit := do
  if l.pattern.isTryCatch then
    let region ← EditM.build l.line (cx.instantiateRegion l.pattern)
    modify fun e => { e with addedRegions := e.addedRegions ++ [region] }
  else
    let insn ← EditM.build l.line (cx.instantiate l.pattern)
    modify fun e => { e with inserted := e.inserted ++ [(e.anchor, insn)] }

/-- Carries out a line for an exception region that was found. -/
def regionLine (places : MethodMatch) (index : Nat) (l : InsnLine) : EditM Unit :=
  match places.regions.get? index with
  | none => throw (.inconsistent l.line .regionNotMatched)
  | some region =>
    if l.mode = .remove then
      modify fun e => { e with removedRegions := e.removedRegions ++ [region] }
    else pure ()

def stillMatches (cx : BodyContext) (insns : List Insn) (l : InsnLine) (place : Nat)
    (scope : Scope) : Bool :=
  match insns[place]? with
  | none => false
  | some insn => ((cx.matchInsn l.pattern insn).run scope).1

/-- Carries out a line for an instruction that was found. -/
def foundLine (cx : BodyContext) (insns : List Insn) (places : MethodMatch) (index : Nat)
    (l : InsnLine) : EditM Unit := do
  match places.positions.get? index with
  | none => throw (.inconsistent l.line .notMatched)
  | some place =>
    let edit ← get
    if place < edit.cursor then
      throw (.inconsistent l.line (.precedesCursor place edit.cursor))
    else if cx.stillMatches insns l place edit.names.scope then
      let removed := if l.mode = .remove then edit.removed ++ [place] else edit.removed
      set { edit with cursor := place + 1, anchor := place + 1, removed := removed }
    else throw (.inconsistent l.line (.noLongerMatches l.shown))

/-- Carries out the lines of a block from the one with number `index` on. -/
def editLines (cx : BodyContext) (insns : List Insn) (places : MethodMatch) :
    Nat → List InsnLine → EditM Unit
  | _, [] => pure ()
  | index, l :: ls => do
    if l.mode = .add then cx.addLine l
    else if l.pattern.isTryCatch then regionLine places index l
    else if l.pattern = .any then
      if nothingSought ls then modify fun e => { e with anchor := insns.length }
    else cx.foundLine insns places index l
    editLines cx insns places (index + 1) ls

end BodyContext

namespace BodyEdit

def insertedAt (e : BodyEdit) (place : Nat) : List Insn :=
  (e.inserted.filter fun i => i.1 == place).map Prod.snd

/-- The instructions from a place on with the changes. -/
def weave (e : BodyEdit) : Nat → List Insn → List Insn
  | place, [] => e.insertedAt place
  | place, insn :: insns =>
    e.insertedAt place ++
      ((if e.removed.contains place then [] else [insn]) ++ weave e (place + 1) insns)

def regions (e : BodyEdit) (before : List Region) : List Region :=
  (((before ++ e.addedRegions).zipIdx).filter fun r => !e.removedRegions.contains r.2).map Prod.fst

def apply (e : BodyEdit) (code : Code) : Code :=
  { code with
    insns := e.weave 0 code.insns
    regions := e.regions code.regions
    nextLabel := e.names.nextLabel }

end BodyEdit

namespace Code

/-- The first label that is placed again. -/
def placedAgain? : List Label → List Label → Option Label
  | _, [] => none
  | seen, l :: ls => if seen.contains l then some l else placedAgain? (l :: seen) ls

/-- Every label is placed at most once, and those that something refers to are placed. -/
def checkLabels (code : Code) : Except LabelFault Unit :=
  match placedAgain? [] code.placedLabels with
  | some l => .error (.placedTwice l)
  | none =>
    match code.usedLabels.find? fun l => !code.placedLabels.contains l with
    | some l => .error (.neverPlaced l)
    | none => .ok ()

end Code

end JvmPatch
