import JvmPatch.ClassSet.Basic
import JvmPatch.Listing.Line

/-! The listing of a class: a script that describes the class and changes nothing. -/

set_option autoImplicit false

namespace JvmPatch

/-- A line at a depth of nesting. -/
def indented (depth : Nat) (line : String) : String :=
  String.ofList (List.replicate (4 * depth) ' ') ++ line ++ "\n"

def flagWords (access : Access) (flags : List (Access × String)) : List String :=
  (flags.filter fun f => access.hasAny f.1).map Prod.snd

def FieldDecl.listedValue : Constant → String
  | .int value => intText value
  | .long value => longText value
  | .float bits => floatText bits
  | .double bits => doubleText bits
  | .string value => ListedInsn.quoted value
  | .classRef name => name

def FieldDecl.listed (f : FieldDecl) : String :=
  let flags := flagWords f.access [(Access.isStatic, "static"), (Access.isPrivate, "private")]
  " ".intercalate
    ([".field", f.name, f.desc] ++ flags ++ (f.value.map FieldDecl.listedValue).toList)

def ListedInsn.text (i : ListedInsn) : String :=
  if i.isComment then indented 2 ("// " ++ i.line)
  else
    indented 2 ("." ++ i.line) ++ String.join (i.lines.map (indented 3)) ++
      String.join (i.closing.toList.map fun name => indented 2 (".end-" ++ name))

/-- The lines for a method body. -/
def Code.listed (code : Code) : String :=
  let names := LabelNames.ofCode code
  String.join (code.regions.map fun r => indented 2 ("." ++ r.listed names)) ++
    String.join ((code.insns.filterMap (ListedInsn.ofInsn names)).map ListedInsn.text)

/-- The lines for a method. A method without a body has none. -/
def MethodDecl.listed (m : MethodDecl) : String :=
  match m.code with
  | none => ""
  | some code =>
    let flags := flagWords m.access
      [(Access.isStatic, "static"), (Access.isPrivate, "private"),
        (Access.isProtected, "protected")]
    indented 1 (" ".intercalate ([".method", m.name, m.desc] ++ flags)) ++ code.listed ++
      indented 1 ".end-method"

/-- The lines for the supertypes of a class. The root of the hierarchy goes without saying. -/
def ClassHeader.listedSupertypes (c : ClassHeader) : String :=
  String.join ((c.superName.toList.filter (· != objectClass)).map fun name =>
      indented 1 (".super " ++ name)) ++
    String.join (c.interfaces.map fun name => indented 1 (".interface " ++ name))

/-- The listing of a class, with the members that are not hidden. -/
def ClassSet.listing (set : ClassSet) (id : ClassId) : String :=
  let c := set.classAt id
  let fields := set.fieldCandidates id
  let methods := c.methods.filter fun m => !(set.methodAt m).hidden
  indented 0 (".class " ++ c.name) ++ c.listedSupertypes ++
    String.join (fields.map fun f => indented 1 (set.fieldAt f).listed) ++
    String.join (methods.map fun m => (set.methodAt m).listed) ++ indented 0 ".end-class"

end JvmPatch
