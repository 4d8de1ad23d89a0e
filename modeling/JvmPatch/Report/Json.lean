import JvmPatch.Scope.Basic

/-! The report of a run: the bindings of all scripts as JSON, indented by two spaces a level. -/

set_option autoImplicit false

namespace JvmPatch

/-! ### What the weak names of a script turned out to stand for -/

/-- The class behind a weak name. -/
structure ClassBinding where
  weak : String
  name : String
  deriving DecidableEq, Repr

/-- The member behind a weak name, and the descriptor with which the script refers to it. -/
structure MemberBinding where
  weak : String
  pattern : String
  owner : String
  name : String
  desc : String
  deriving DecidableEq, Repr

structure PatchBindings where
  patch : String
  classes : List ClassBinding
  methods : List MemberBinding
  fields : List MemberBinding
  deriving DecidableEq, Repr

namespace MemberBinding

/-- Bindings are shown by weak name, then by pattern, then by owner. -/
def isBefore (a b : MemberBinding) : Bool :=
  (((compare a.weak b.weak).then (compare a.pattern b.pattern)).then (compare a.owner b.owner)).isLE

end MemberBinding

/-- The bindings of a scope, for a script of a given name. -/
def PatchBindings.ofScope (patch : String) (set : ClassSet) (scope : Scope) : PatchBindings :=
  let methods := (scope.methods.entries.filter fun e => isWeakName e.2.name).map fun e =>
    let m := set.methodAt e.1
    MemberBinding.mk e.2.name e.2.desc (set.classAt m.declaredBy).name m.name m.desc
  let fields := (scope.fields.entries.filter fun e => isWeakName e.2.name).map fun e =>
    let f := set.fieldAt e.1
    MemberBinding.mk e.2.name e.2.desc (set.classAt f.declaredBy).name f.name f.desc
  { patch := patch
    classes := scope.classes.entries.map fun e => ⟨e.1, (set.classAt e.2).name⟩
    methods := methods.mergeSort MemberBinding.isBefore
    fields := fields.mergeSort MemberBinding.isBefore }

/-! ### The report as text -/

/-- The bindings of the scripts of a run, in the order in which they were applied. -/
structure BindingReport where
  patches : List PatchBindings := []
  deriving DecidableEq, Repr

inductive ReportValue
  | text (s : String)
  | list (items : List ReportValue)
  | record (fields : List (String × ReportValue))

namespace ReportValue

def hexDigit (n : Nat) : Char := (Nat.toDigits 16 n).getLast?.getD '0'

def quotedChar (c : Char) : List Char :=
  if c = '"' then ['\\', '"']
  else if c = '\\' then ['\\', '\\']
  else if c = '\x08' then ['\\', 'b']
  else if c = '\x0c' then ['\\', 'f']
  else if c = '\n' then ['\\', 'n']
  else if c = '\r' then ['\\', 'r']
  else if c = '\t' then ['\\', 't']
  else if c.toNat < 0x20 then
    ['\\', 'u', '0', '0', hexDigit (c.toNat / 16), hexDigit (c.toNat % 16)]
  else [c]

def quoted (s : String) : String :=
  "\"" ++ String.ofList (s.toList.flatMap quotedChar) ++ "\""

def newLine (depth : Nat) : String := "\n" ++ String.ofList (List.replicate (2 * depth) ' ')

/-- Items between brackets, each on lines of its own. -/
def enclosed (opening closing : String) (depth : Nat) : List String → String
  | [] => opening ++ closing
  | items =>
    opening ++ ",".intercalate (items.map (newLine (depth + 1) ++ ·)) ++ newLine depth ++ closing

mutual

def render (depth : Nat) : ReportValue → String
  | .text s => quoted s
  | .list items => enclosed "[" "]" depth (renderItems (depth + 1) items)
  | .record fields => enclosed "\x7b" "\x7d" depth (renderFields (depth + 1) fields)

def renderItems (depth : Nat) : List ReportValue → List String
  | [] => []
  | v :: vs => render depth v :: renderItems depth vs

def renderFields (depth : Nat) : List (String × ReportValue) → List String
  | [] => []
  | (key, v) :: fields => (quoted key ++ ": " ++ render depth v) :: renderFields depth fields

end

end ReportValue

def ClassBinding.reported (b : ClassBinding) : ReportValue :=
  .record [("weak", .text b.weak), ("name", .text b.name)]

def MemberBinding.reported (b : MemberBinding) : ReportValue :=
  .record [("weak", .text b.weak), ("pattern", .text b.pattern), ("owner", .text b.owner),
    ("name", .text b.name), ("descriptor", .text b.desc)]

def PatchBindings.reported (b : PatchBindings) : ReportValue :=
  .record [("patch", .text b.patch), ("classes", .list (b.classes.map ClassBinding.reported)),
    ("methods", .list (b.methods.map MemberBinding.reported)),
    ("fields", .list (b.fields.map MemberBinding.reported))]

def BindingReport.text (r : BindingReport) : String :=
  (ReportValue.record [("patches", .list (r.patches.map PatchBindings.reported))]).render 0 ++ "\n"

end JvmPatch
