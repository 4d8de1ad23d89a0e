import JvmPatch.Apply.Basic
import JvmPatch.ClassSet.Inheritance
import JvmPatch.Run.Classpath
import JvmPatch.Run.Options
import JvmPatch.Run.Output
import JvmPatch.Script.Parser

/-! A run: inputs and scripts are read, the scripts are applied one after the other, and only then
anything is written or printed. -/

set_option autoImplicit false

namespace JvmPatch

namespace RunM

variable {m : Type → Type} [Monad m] [FileAccess m]

/-- Refuses paths that name nothing. -/
def requirePresent (f : Path → RunError) (paths : List Path) : RunM m Unit :=
  paths.forM fun p => do
    if !(← isPresent p) then throw (f p)

def readScript (p : Path) : RunM m (String × Script) := do
  let text ← file (.readPatch p) (FileAccess.readText p)
  match Script.parse text with
  | .ok script => pure (p.text, script)
  | .error e => throw (.script p e)

def addInput (set : ClassSet) (c : InputClass) : RunM m ClassSet :=
  match set.insert? c.file (some c.bytes) false with
  | some set => pure set
  | none => throw (.load c.source (.duplicate c.file.header.name))

/-- Reads the inputs and the classpath, to which what the inputs refer to belongs as far as it is
there. The result is the classes and the resources of the inputs. -/
def load (o : Options) : RunM m (ClassSet × Archive) := do
  let inputs ← readInputs o.inputs
  let references ← inputs.references.filterM isPresent
  let classpath ← readClasspath (o.classpath ++ references)
  let set ← inputs.classes.foldlM addInput { classpath := classpath }
  pure (set, inputs.resources)

/-- Makes the classes ready for a script. -/
def prepare (set : ClassSet) : RunM m ClassSet :=
  match ClassSet.prepare.run set with
  | .ok _ set => pure set
  | .error e _ => throw (.prepare e)

/-- Applies a script to classes that are ready for it. -/
def applyScript (o : ResolveOptions) (set : ClassSet) (name : String) (script : Script) :
    RunM m (ClassSet × PatchBindings) :=
  match set.resolve script {} (set.verify script) o with
  | .error (.noMatch e) => throw (.resolve name e)
  | .error .capacityOverflow => throw .capacityOverflow
  | .ok resolution =>
    match set.apply script resolution with
    | .error e => throw (.apply name e)
    | .ok done => pure (done.classes, .ofScope name done.classes done.scope)

/-- Applies scripts one after the other to classes that are ready for the first one. -/
def applyScripts (o : ResolveOptions) :
    ClassSet → List (String × Script) → RunM m (ClassSet × List PatchBindings)
  | set, [] => pure (set, [])
  | set, [(name, script)] => do
    let (set, bindings) ← applyScript o set name script
    pure (set, [bindings])
  | set, (name, script) :: scripts => do
    let (set, bindings) ← applyScript o set name script
    let (set, rest) ← applyScripts o (← prepare set) scripts
    pure (set, bindings :: rest)

end RunM

open RunM in
/-- Carries out what the options ask for. -/
def Options.run {m : Type → Type} [Monad m] [FileAccess m] (o : Options) : RunM m Unit := do
  requirePresent .missingInput o.inputs
  requirePresent .missingClasspathEntry o.classpath
  let scripts ← o.patches.mapM readScript
  let (set, resources) ← load o
  let (set, bindings) ← applyScripts o.search (← prepare set) scripts
  match o.output with
  | none => pure ()
  | some output => writeOutput set output resources
  printListings set o.listed
  match o.report with
  | none => pure ()
  | some p => writeReport p ⟨bindings⟩

end JvmPatch
