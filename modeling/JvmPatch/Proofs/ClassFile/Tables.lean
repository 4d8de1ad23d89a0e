import JvmPatch.ClassFile.Writer
import JvmPatch.Proofs.Bytecode.Bodies
import JvmPatch.Proofs.Insn.Rendering

/-! The tables of a class file around its constant pool: attributes, fields and methods are read as
they were written. -/

set_option autoImplicit false

namespace JvmPatch

open ClassLayout (Reads Reader Attribute)

namespace ClassLayout

/-- Reads one attribute of a table, with tables that are nested at most `depth` deep in it. -/
def attributeEntry (p : Pool) (depth : Nat) : Reader Attribute := do
  let name ← u16
  let length ← u32
  match p[name.toNat]? with
  | some (some (.utf8 text)) =>
    content text length.toNat (attributes p depth) (skipElementValue (depth + 1))
  | _ => failure

theorem attributes_succ (p : Pool) (depth : Nat) :
    attributes p (depth + 1) = counted (attributeEntry p depth) := rfl

theorem Reads.entry {p : Pool} {name : UInt16} {text : String} {bytes : List UInt8}
    {a : Attribute} {depth : Nat} (named : p.At name (.utf8 text))
    (read : ∀ length value, Reads (content text length (attributes p depth) value) bytes a) :
    Reads (attributeEntry p depth) (ClassWriter.attr name bytes) a := by
  rw [ClassWriter.attr, List.append_assoc]
  refine (Reads.u16 name).bind ((Reads.u32_toBigEndian _).bind ?_)
  rw [named.entry]
  exact read _ _

theorem Reads.attributes {p : Pool} {depth : Nat} {encoded : List (List UInt8)}
    {as : List Attribute} (each : List.Forall₂ (Reads (attributeEntry p depth)) encoded as)
    (fits : as.length ≤ 65535) :
    Reads (attributes p (depth + 1)) (toBigEndian 2 as.length ++ encoded.flatten) as := by
  rw [attributes_succ]
  exact Reads.counted each fits

theorem Reads.attributes_nil (p : Pool) (depth : Nat) :
    Reads (ClassLayout.attributes p (depth + 1)) (bytes16 0) [] := by
  have each : List.Forall₂ (Reads (attributeEntry p depth)) [] [] := .nil
  have none := Reads.attributes each (Nat.zero_le _)
  rwa [List.flatten_nil, List.append_nil] at none

theorem Reads.attributes_singleton {p : Pool} {depth : Nat} {bytes : List UInt8} {a : Attribute}
    (read : Reads (attributeEntry p depth) bytes a) :
    Reads (ClassLayout.attributes p (depth + 1)) (bytes16 1 ++ bytes) [a] := by
  have one := Reads.attributes (.cons read .nil) (by simp)
  rwa [List.flatten_singleton] at one

end ClassLayout

namespace ClassWriter

theorem count_gives (n : Nat) :
    Gives (count n) fun _ bytes => n ≤ 65535 ∧ bytes = toBigEndian 2 n := by
  unfold count
  split
  · rename_i fits
    exact .pure fun _ => ⟨fits, rfl⟩
  · exact .throw _

theorem reads_handler (h : Bytecode.Handler) : Reads ClassLayout.handler (handler h) h := by
  rw [handler, List.append_assoc, List.append_assoc]
  exact (Reads.u16 _).bind ((Reads.u16 _).bind ((Reads.u16 _).bind ((Reads.u16 _).map _)))

theorem reads_lineEntry (e : Bytecode.LineEntry) : Reads ClassLayout.lineEntry (lineEntry e) e :=
  (Reads.u16 _).bind ((Reads.u16 _).map _)

def linesOf (attributes : List Attribute) : List Bytecode.LineEntry :=
  attributes.flatMap fun a =>
    match a with
    | .lineNumbers entries => entries
    | _ => []

theorem bodyAttributes_gives (raw : Bytecode.RawCode) :
    Gives (bodyAttributes raw) fun p bytes => ∀ depth, ∃ attributes,
      Reads (ClassLayout.attributes p (depth + 1)) bytes attributes ∧
        linesOf attributes = raw.lines := by
  unfold bodyAttributes
  split
  · rename_i empty
    refine .pure fun p depth => ⟨[], .attributes_nil p depth, ?_⟩
    exact (List.isEmpty_iff.1 empty).symm
  · refine (PoolBuilder.addText_gives _).bind fun kind => (count_gives _).bind fun entries => ?_
    refine .pure fun p counted named depth => ?_
    obtain ⟨fits, rfl⟩ := counted
    refine ⟨[.lineNumbers raw.lines], .attributes_singleton (.entry named fun _ _ => ?_), ?_⟩
    · exact (Reads.counted_flatMap reads_lineEntry fits).map Attribute.lineNumbers
    · simp [linesOf]

/-- An encoded body has as many local variables as the parameters of its method and its instructions
use, up to what 16 bits can count. -/
def CountsLocals (desc : String) (isStatic : Bool) (code : Code) (raw : Bytecode.RawCode) : Prop :=
  ∃ type, MethodDesc.require desc = .ok type ∧
    raw.maxLocals = Bytecode.countLocals code (type.parameterSlots isStatic)

/-- The body of a method is read as it was encoded. -/
theorem body_gives (code : Code) (desc : String) (isStatic : Bool) :
    Gives (body code desc isStatic) fun p bytes => ∃ raw : Bytecode.RawCode,
      (∀ depth, Reads (ClassLayout.attributeEntry p (depth + 1)) bytes (.code raw)) ∧
        CountsLocals desc isStatic code raw ∧
          (code.WellFormed →
            ∃ read rename, Bytecode.decode p raw = .ok read ∧ code.Renders read rename) := by
  refine (Gives.orFail _).bind fun type => ?_
  refine (Bytecode.encode_gives code _).bind fun raw => ?_
  refine (count_gives _).bind fun handlers => (bodyAttributes_gives raw).bind fun attributes => ?_
  refine (PoolBuilder.addText_gives _).bind fun kind => ?_
  refine .pure fun p named nested counted encoded required => ?_
  obtain ⟨small, few, locals, renders⟩ := encoded
  obtain ⟨-, rfl⟩ := counted
  refine ⟨raw, fun depth => .entry named fun _ _ => ?_, ⟨type, mapError_eq_ok required, locals⟩,
    renders⟩
  obtain ⟨inner, readInner, lines⟩ := nested depth
  have size : (UInt32.ofNat raw.bytes.length).toNat = raw.bytes.length := by
    rw [UInt32.toNat_ofNat', Nat.mod_eq_of_lt (by omega)]
  simp only [List.append_assoc]
  refine (Reads.u16 _).bind ((Reads.u16 _).bind ((Reads.u32_toBigEndian _).bind ?_))
  refine (Reads.bytes_of_length size.symm).bind ?_
  rw [← List.append_assoc]
  refine (Reads.counted_flatMap reads_handler few).bind ?_
  have last := readInner.map fun attributes => Attribute.code
    ⟨raw.maxStack, raw.maxLocals, raw.bytes, raw.handlers, linesOf attributes⟩
  rwa [lines] at last

end ClassWriter

/-! Members. -/

theorem ClassLayout.Reads.member (flags access : Access) {p : Pool} {depth : Nat} {bytes : Bytes}
    {as : List Attribute} (name desc : UInt16)
    (read : Reads (ClassLayout.attributes p depth) bytes as) :
    Reads (ClassLayout.member flags p depth)
      (bytes16 access ++ bytes16 name ++ bytes16 desc ++ bytes) ⟨access &&& flags, name,
        desc, as⟩ := by
  rw [List.append_assoc, List.append_assoc]
  exact (Reads.u16 access).bind ((Reads.u16 name).bind ((Reads.u16 desc).bind (read.map _)))

@[simp] theorem lastResult_nil {α β : Type} (f : α → Except ReadError (Option β)) :
    lastResult f [] = .ok none := rfl

theorem lastResult_singleton {α β : Type} {f : α → Except ReadError (Option β)} {x : α} {y : β}
    (found : f x = .ok (some y)) : lastResult f [x] = .ok (some y) := by
  simp only [lastResult, List.foldlM_cons, List.foldlM_nil, found, ok_bind]
  rfl

namespace ClassWriter

theorem field_gives (f : FieldDecl) :
    Gives (field f) fun p bytes => ∀ depth, ∃ raw,
      Reads (ClassLayout.member Access.fieldFlags p (depth + 1)) bytes raw ∧
        (f.WellFormed → FieldDecl.ofRaw p raw = .ok f) := by
  refine (PoolBuilder.addText_gives f.name).bind fun name => ?_
  refine (PoolBuilder.addText_gives f.desc).bind fun desc => ?_
  cases held : f.value with
  | none =>
    refine .pure fun p described named depth => ?_
    refine ⟨_, .member _ f.access name desc (.attributes_nil p depth), fun formed => ?_⟩
    simp only [FieldDecl.ofRaw, Pool.utf8_of_at named, Pool.utf8_of_at described,
      Pool.within_ok, ok_bind, lastResult_nil, ← held, formed.access]
    rfl
  | some value =>
    refine (PoolBuilder.addText_gives _).bind fun kind => ?_
    refine (PoolBuilder.addConstant_gives value).bind fun index => ?_
    refine .pure fun p holds kindAt described named depth => ?_
    rw [List.append_assoc]
    refine ⟨_, .member _ f.access name desc (.attributes_singleton (.entry kindAt
      fun _ _ => (Reads.u16 index).map Attribute.constantValue)), fun formed => ?_⟩
    have constant : p.constant index = .ok value :=
      holds.2 fun name same => formed.value name (held.trans (congrArg some same))
    simp only [FieldDecl.ofRaw, Pool.utf8_of_at named, Pool.utf8_of_at described,
      Pool.within_ok, ok_bind]
    rw [lastResult_singleton (y := value) (by simp only [constant, Pool.within_ok, ok_bind]; rfl),
      ok_bind, ← held, formed.access]
    rfl

def bodyIn? : Attribute → Option Bytecode.RawCode
  | .code raw => some raw
  | _ => none

/-- What an attribute of a method says: declared exceptions, or a body. -/
def methodPart (p : Pool) (name desc : String) :
    Attribute → Except ReadError (List String × Option Code)
  | .exceptions classes => do
    pure (← classes.mapM fun c => within .exception (p.className c), none)
  | .code raw => do
    pure ([], some (← within (.body name desc) (Bytecode.decode p raw)))
  | _ => pure ([], none)

theorem ofRaw_method (p : Pool) (m : ClassLayout.RawMember) :
    MethodDecl.ofRaw p m = (do
      let name ← within .methodName (p.utf8 m.name)
      let desc ← within .methodDesc (p.utf8 m.desc)
      let parts ← m.attributes.mapM (methodPart p name desc)
      pure ⟨name, desc, m.access, parts.flatMap Prod.fst,
        (parts.filterMap Prod.snd).getLast?⟩) := by
  rfl

theorem mapM_className {p : Pool} {names : List String} {classes : List UInt16}
    (found : List.Forall₂ (fun name index => p.ClassAt index name) names classes)
    (context : ReadContext) :
    classes.mapM (fun c => within context (p.className c)) = .ok names := by
  refine mapM_eq_ok_of_forall₂ (found.flip.imp fun index name at_ => ?_)
  rw [Pool.className_of_at at_, Pool.within_ok]

/-- The attribute for the body is read, and its body says the same. -/
theorem bodyAttribute_gives (m : MethodDecl) :
    Gives (bodyAttribute m) fun p encoded => ∃ as, as.length ≤ 1 ∧
      (∀ depth, List.Forall₂ (Reads (ClassLayout.attributeEntry p (depth + 1))) encoded as) ∧
        List.Forall₂ (CountsLocals m.desc m.isStatic) m.code.toList (as.filterMap bodyIn?) ∧
          (m.WellFormed → ∃ read,
            as.mapM (methodPart p m.name m.desc) =
              .ok (read.toList.map fun code => ([], some code)) ∧
              Option.Rel (fun code read => ∃ rename, code.Renders read rename) m.code read) := by
  unfold bodyAttribute
  cases held : m.code with
  | none => exact .pure fun p => ⟨[], by simp, fun _ => .nil, .nil, fun _ => ⟨none, rfl, .none⟩⟩
  | some code =>
    refine (body_gives code _ _).bind fun bytes => .pure fun p written => ?_
    obtain ⟨raw, reads, locals, decodes⟩ := written
    refine ⟨[.code raw], by simp, fun depth => .cons (reads depth) .nil, .cons locals .nil,
      fun formed => ?_⟩
    obtain ⟨read, rename, decoded, renders⟩ := decodes (formed.code code held)
    refine ⟨some read, ?_, .some ⟨rename, renders⟩⟩
    simp only [List.mapM_cons, List.mapM_nil, methodPart, decoded, Pool.within_ok, ok_bind]
    rfl

/-- The attribute for the exceptions is read, and gives them in their order. -/
theorem exceptionsAttribute_gives (m : MethodDecl) :
    Gives (exceptionsAttribute m) fun p encoded => ∃ as parts, as.length ≤ 1 ∧
      (∀ depth, List.Forall₂ (Reads (ClassLayout.attributeEntry p depth)) encoded as) ∧
        as.filterMap bodyIn? = [] ∧ as.mapM (methodPart p m.name m.desc) = .ok parts ∧
          parts.flatMap Prod.fst = m.exceptions ∧ parts.filterMap Prod.snd = [] := by
  unfold exceptionsAttribute
  split
  · rename_i empty
    refine .pure fun p => ⟨[], [], by simp, fun _ => .nil, rfl, rfl, ?_, rfl⟩
    exact (List.isEmpty_iff.1 empty).symm
  · refine (PoolBuilder.addText_gives _).bind fun kind => (count_gives _).bind fun number => ?_
    refine (Gives.mapM fun name _ => PoolBuilder.addClass_gives name).bind fun classes => ?_
    refine .pure fun p found counted named => ?_
    obtain ⟨fits, rfl⟩ := counted
    rw [found.length_eq] at fits ⊢
    refine ⟨[.exceptions classes], [(m.exceptions, none)], by simp,
      fun depth => .cons (.entry named fun _ _ => ?_) .nil, rfl, ?_, by simp, rfl⟩
    · exact (Reads.counted_flatMap Reads.u16 fits).map Attribute.exceptions
    · simp only [List.mapM_cons, List.mapM_nil, methodPart, mapM_className found, ok_bind]
      rfl

/-- What is read of a method: the body that was written for it, if any, and the method itself. -/
structure WrittenAs (p : Pool) (m : MethodDecl) (raw : ClassLayout.RawMember) : Prop where
  locals : List.Forall₂ (CountsLocals m.desc m.isStatic) m.code.toList
    (raw.attributes.filterMap bodyIn?)
  reads : m.WellFormed → ∃ read, MethodDecl.ofRaw p raw = .ok read ∧ m.Renders read

theorem method_gives (m : MethodDecl) :
    Gives (method m) fun p bytes => ∀ depth, ∃ raw,
      Reads (ClassLayout.member Access.methodFlags p (depth + 2)) bytes raw ∧
        WrittenAs p m raw := by
  refine (PoolBuilder.addText_gives m.name).bind fun name => ?_
  refine (PoolBuilder.addText_gives m.desc).bind fun desc => ?_
  refine (bodyAttribute_gives m).bind fun code => ?_
  refine (exceptionsAttribute_gives m).bind fun exceptions => ?_
  refine .pure fun p thrown body described named depth => ?_
  obtain ⟨bodyAttrs, oneBody, readsBody, locals, decodes⟩ := body
  obtain ⟨thrownAttrs, parts, oneTable, readsThrown, without, resolved, listed, noBody⟩ := thrown
  have each : List.Forall₂ (Reads (ClassLayout.attributeEntry p (depth + 1)))
      (code ++ exceptions) (bodyAttrs ++ thrownAttrs) :=
    List.rel_append (readsBody depth) (readsThrown (depth + 1))
  have few : (bodyAttrs ++ thrownAttrs).length ≤ 65535 := by
    rw [List.length_append]
    omega
  rw [List.append_assoc, each.length_eq]
  refine ⟨_, .member _ m.access name desc (.attributes each few), ?_, fun formed => ?_⟩
  · rw [List.filterMap_append, without, List.append_nil]
    exact locals
  obtain ⟨read, decoded, renders⟩ := decodes formed
  refine ⟨⟨m.name, m.desc, m.access, m.exceptions, read⟩, ?_, ⟨rfl, rfl, rfl, rfl, renders⟩⟩
  have bodies : (read.toList.map fun code => (([] : List String), some code)).filterMap Prod.snd =
      read.toList := by
    cases read <;> rfl
  have noneThrown : (read.toList.map fun code => (([] : List String), some code)).flatMap
      Prod.fst = [] := by
    cases read <;> rfl
  rw [ofRaw_method]
  simp only [Pool.utf8_of_at named, Pool.utf8_of_at described, Pool.within_ok, ok_bind,
    List.mapM_append, decoded, resolved, formed.access]
  rw [pure_bind]
  simp only [List.flatMap_append, List.filterMap_append, bodies, noneThrown, listed, noBody,
    List.nil_append, List.append_nil]
  cases read <;> rfl

end ClassWriter

end JvmPatch
