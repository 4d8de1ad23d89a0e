import JvmPatch.Proofs.ClassFile.Tables

/-! Class files are read as they were written. Whenever a class whose bodies are well-formed can be
encoded, its bytes can be read, and what is read says the same. -/

set_option autoImplicit false

namespace JvmPatch

open ClassLayout (Reads Reader Attribute RawClass)

namespace ClassWriter

def sourcePart (p : Pool) : Attribute → Except ReadError (Option String)
  | .sourceFile index => do pure (some (← within .sourceFile (p.utf8 index)))
  | _ => pure none

/-- The superclass that a number names. Zero names none. -/
def superPart (p : Pool) (index : UInt16) : Except ReadError (Option String) :=
  if index = 0 then pure none else do pure (some (← within .superName (p.className index)))

theorem classOrZero_gives (name : Option String) :
    Gives (classOrZero name) fun p bytes => ∃ index,
      bytes = bytes16 index ∧ superPart p index = .ok name := by
  cases name with
  | none => exact .pure fun p => ⟨0, rfl, rfl⟩
  | some name =>
    refine (PoolBuilder.addClass_gives name).bind fun index => .pure fun p found => ?_
    refine ⟨index, rfl, ?_⟩
    rw [superPart, if_neg found.ne_zero, Pool.className_of_at found]
    rfl

theorem sourceFile_gives (source : Option String) :
    Gives (sourceFile source) fun p bytes => ∀ depth, ∃ as,
      Reads (ClassLayout.attributes p (depth + 1)) bytes as ∧
        lastResult (sourcePart p) as = .ok source := by
  cases source with
  | none => exact .pure fun p depth => ⟨[], .attributes_nil p depth, rfl⟩
  | some source =>
    refine (PoolBuilder.addText_gives _).bind fun kind => ?_
    refine (PoolBuilder.addText_gives source).bind fun text => .pure fun p found named depth => ?_
    refine ⟨[.sourceFile text], .attributes_singleton (.entry named
      fun _ _ => (Reads.u16 text).map Attribute.sourceFile), lastResult_singleton ?_⟩
    simp only [sourcePart, Pool.utf8_of_at found, Pool.within_ok, ok_bind]
    rfl

/-- A relation that goes through a third thing for every pair goes through a list of such things. -/
theorem exists_forall₂ {α β γ : Type} {P : β → γ → Prop} {Q : α → γ → Prop} {xs : List α}
    {ys : List β} (related : List.Forall₂ (fun x y => ∃ z, P y z ∧ Q x z) xs ys) :
    ∃ zs, List.Forall₂ P ys zs ∧ List.Forall₂ Q xs zs := by
  induction related with
  | nil => exact ⟨[], .nil, .nil⟩
  | cons one _ ih =>
    obtain ⟨z, left, right⟩ := one
    obtain ⟨zs, lefts, rights⟩ := ih
    exact ⟨z :: zs, .cons left lefts, .cons right rights⟩

theorem fields_give (fields : List FieldDecl) :
    Gives (fields.mapM field) fun p encoded => ∀ depth, ∃ raws,
      List.Forall₂ (Reads (ClassLayout.member Access.fieldFlags p (depth + 1))) encoded raws ∧
        raws.length = fields.length ∧
          ((∀ f ∈ fields, f.WellFormed) → raws.mapM (FieldDecl.ofRaw p) = .ok fields) := by
  refine (Gives.mapM fun f _ => field_gives f).mono fun p encoded each depth => ?_
  obtain ⟨raws, reads, found⟩ := exists_forall₂ (each.imp fun f bytes h => h depth)
  refine ⟨raws, reads, found.length_eq.symm, fun formed => mapM_eq_ok_of_forall₂ ?_⟩
  have all := ((List.forall₂_and_left ..).2 ⟨formed, found⟩).imp fun f raw ⟨formed, h⟩ => h formed
  exact all.flip

theorem methods_give (methods : List MethodDecl) :
    Gives (methods.mapM namedMethod) fun p encoded => ∀ depth, ∃ raws,
      List.Forall₂ (Reads (ClassLayout.member Access.methodFlags p (depth + 2))) encoded raws ∧
        List.Forall₂ (WrittenAs p) methods raws := by
  refine (Gives.mapM fun m _ => (method_gives m).rethrow _).mono fun p encoded each depth => ?_
  exact exists_forall₂ (each.imp fun m bytes h => h depth)

/-- Methods that have been written are read as they were. -/
theorem read_methods {p : Pool} {methods : List MethodDecl} {raws : List ClassLayout.RawMember}
    (written : List.Forall₂ (WrittenAs p) methods raws) (formed : ∀ m ∈ methods, m.WellFormed) :
    ∃ read, raws.mapM (MethodDecl.ofRaw p) = .ok read ∧
      List.Forall₂ MethodDecl.Renders methods read := by
  have each := (List.forall₂_and_left ..).2 ⟨formed, written⟩
  obtain ⟨read, resolved, renders⟩ :=
    exists_forall₂ (each.imp fun m raw ⟨formed, as⟩ => as.reads formed)
  exact ⟨read, mapM_eq_ok_of_forall₂ resolved, renders⟩

end ClassWriter

namespace ClassLayout

/-- Reads what follows the constant pool of a class file. -/
def afterPool (depth : Nat) (minor major : UInt16) (p : Pool) : Reader RawClass := do
  let access ← u16
  let thisClass ← u16
  let superClass ← u16
  let interfaces ← counted u16
  let fields ← counted (member Access.fieldFlags p depth)
  let methods ← counted (member Access.methodFlags p depth)
  let attrs ← attributes p depth
  pure ⟨minor, major, p, access &&& Access.classFlags, thisClass, superClass, interfaces, fields,
    methods, attrs⟩

theorem rawClass_eq (depth : Nat) :
    rawClass depth = (do
      if (← u32) ≠ 0xcafebabe then failure
      let minor ← u16
      let major ← u16
      let p ← pool
      afterPool depth minor major p) := rfl

theorem Reads.split? {s : List UInt8} {n : Nat} {raw : RawClass}
    (read : Reads (rawClass (n + 1)) s raw) (size : s.length = n) :
    ClassLayout.split? s = some raw := by
  have whole := read []
  rw [List.append_nil] at whole
  rw [ClassLayout.split?, size, whole]

end ClassLayout

namespace ClassWriter

theorem mapM_interfaceName {p : Pool} {names : List String} {indices : List UInt16}
    (found : List.Forall₂ (fun name index => p.ClassAt index name) names indices) :
    indices.mapM (fun i => within .interfaceName (p.className i)) = .ok names :=
  mapM_className found .interfaceName

theorem ofRaw_header (c : RawClass) :
    ClassHeader.ofRaw c = (do
      let name ← within .className (c.pool.className c.thisClass)
      let superName ← superPart c.pool c.superClass
      let interfaces ← c.interfaces.mapM fun i => within .interfaceName (c.pool.className i)
      let source ← lastResult (sourcePart c.pool) c.attributes
      pure ⟨name, superName, interfaces, c.access, c.major, c.minor, source⟩) := by
  unfold ClassHeader.ofRaw superPart
  split
  · rfl
  · simp only [bind_assoc, pure_bind]
    rfl

/-- What follows the pool is read as it was encoded. -/
theorem afterPool_gives (file : ClassFile) :
    Gives (afterPool file) fun p bytes => ∀ depth minor major, ∃ raw,
      Reads (ClassLayout.afterPool (depth + 2) minor major p) bytes raw ∧ raw.pool = p ∧
        List.Forall₂ (WrittenAs p) file.methods raw.methods ∧
          (file.WellFormed →
            ClassHeader.ofRaw raw = .ok { file.header with minor := minor, major := major } ∧
              raw.fields.mapM (FieldDecl.ofRaw p) = .ok file.fields) := by
  refine (PoolBuilder.addClass_gives _).bind fun name => ?_
  refine (classOrZero_gives _).bind fun superName => ?_
  refine (count_gives _).bind fun interfaceCount => ?_
  refine (Gives.mapM fun name _ => PoolBuilder.addClass_gives name).bind fun interfaces => ?_
  refine (count_gives _).bind fun fieldCount => (fields_give file.fields).bind fun fields => ?_
  refine (count_gives _).bind fun methodCount => (methods_give file.methods).bind fun methods => ?_
  refine (sourceFile_gives _).bind fun attributes => ?_
  refine .pure fun p source methodsRead methodCounted fieldsRead fieldCounted interfacesFound
    interfaceCounted superFound named depth minor major => ?_
  obtain ⟨superIndex, rfl, superName⟩ := superFound
  obtain ⟨fewInterfaces, rfl⟩ := interfaceCounted
  obtain ⟨fewFields, rfl⟩ := fieldCounted
  obtain ⟨fewMethods, rfl⟩ := methodCounted
  obtain ⟨rawFields, readFields, fieldNumber, fieldsFound⟩ := fieldsRead (depth + 1)
  obtain ⟨rawMethods, readMethods, written⟩ := methodsRead depth
  obtain ⟨as, readAttributes, sourceFound⟩ := source (depth + 1)
  refine ⟨⟨minor, major, p, file.header.access &&& Access.classFlags, name, superIndex, interfaces,
    rawFields, rawMethods, as⟩, ?_, rfl, written, fun formed => ⟨?_, fieldsFound formed.fields⟩⟩
  · have interfacesRead := Reads.counted_flatMap Reads.u16
      (interfacesFound.length_eq ▸ fewInterfaces)
    have fieldsCounted := Reads.counted readFields (fieldNumber ▸ fewFields)
    have methodsCounted := Reads.counted readMethods (written.length_eq ▸ fewMethods)
    rw [← interfacesFound.length_eq] at interfacesRead
    rw [fieldNumber] at fieldsCounted
    rw [← written.length_eq] at methodsCounted
    have grouped : bytes16 file.header.access ++ bytes16 name ++ bytes16 superIndex ++
        toBigEndian 2 file.header.interfaces.length ++ interfaces.flatMap bytes16 ++
        toBigEndian 2 file.fields.length ++ fields.flatten ++
        toBigEndian 2 file.methods.length ++ methods.flatten ++ attributes =
        bytes16 file.header.access ++ (bytes16 name ++ (bytes16 superIndex ++
          ((toBigEndian 2 file.header.interfaces.length ++ interfaces.flatMap bytes16) ++
            ((toBigEndian 2 file.fields.length ++ fields.flatten) ++
              ((toBigEndian 2 file.methods.length ++ methods.flatten) ++ attributes))))) := by
      simp only [List.append_assoc]
    rw [grouped]
    refine (Reads.u16 _).bind ((Reads.u16 _).bind ((Reads.u16 _).bind ?_))
    exact interfacesRead.bind (fieldsCounted.bind (methodsCounted.bind (readAttributes.map _)))
  · rw [ofRaw_header]
    simp only [Pool.className_of_at named, Pool.within_ok, ok_bind, superName,
      mapM_interfaceName interfacesFound, sourceFound, formed.access]
    rfl

end ClassWriter

/-- A class that can be encoded is split again: its methods stand in their order, and a class that
is well-formed is read as it was written. -/
theorem ClassFile.split_encode {file : ClassFile} {bytes : Bytes}
    (encoded : file.encode = .ok bytes) :
    ∃ raw, ClassLayout.split? bytes = some raw ∧
      List.Forall₂ (ClassWriter.WrittenAs raw.pool) file.methods raw.methods ∧
        (file.WellFormed → ∃ read, ClassFile.read bytes = .ok read ∧ file.Renders read) := by
  unfold ClassFile.encode at encoded
  cases written : (ClassWriter.afterPool file).run {} with
  | error e pool => simp [written] at encoded
  | ok content builder =>
    simp only [written] at encoded
    obtain ⟨pool, poolEncoded, last⟩ := bind_eq_ok encoded
    cases last
    have valid := (ClassWriter.afterPool_gives file _ _ _ written).1.valid PoolBuilder.valid_empty
    obtain ⟨p, readPool, holds⟩ := Reads.pool valid poolEncoded
    generalize size : (toBigEndian 4 0xcafebabe ++ bytes16 (ClassWriter.version file.header).2 ++
      bytes16 (ClassWriter.version file.header).1 ++ pool ++ content).length = n
    obtain ⟨depth, rfl⟩ : ∃ depth, n = depth + 1 := ⟨n - 1, by simp at size; omega⟩
    obtain ⟨raw, reads, pooled, methods, rest⟩ :=
      (ClassWriter.afterPool_gives file _ _ _ written).2 p holds depth
        (ClassWriter.version file.header).2 (ClassWriter.version file.header).1
    have readClass : Reads (ClassLayout.rawClass (depth + 2)) (toBigEndian 4 0xcafebabe ++
        bytes16 (ClassWriter.version file.header).2 ++
        bytes16 (ClassWriter.version file.header).1 ++ pool ++ content) raw := by
      simp only [List.append_assoc]
      rw [ClassLayout.rawClass_eq]
      refine (Reads.u32_toBigEndian _).bind ?_
      rw [if_neg (by decide)]
      exact (Reads.u16 _).bind ((Reads.u16 _).bind (readPool.bind reads))
    have split := readClass.split? size
    refine ⟨raw, split, pooled ▸ methods, fun formed => ?_⟩
    obtain ⟨header, fields⟩ := rest formed
    obtain ⟨read, resolved, renders⟩ := ClassWriter.read_methods methods formed.methods
    refine ⟨⟨file.header.written, file.fields, read⟩, ?_, ⟨rfl, rfl, renders⟩⟩
    simp only [ClassFile.read, split, header, pooled, fields, resolved, ok_bind]
    unfold ClassHeader.written ClassWriter.version newestMajor
    split <;> rfl

/-- A class that can be encoded is read again, and what is read says the same as what was written:
the version is at most 50.0, and the labels of bodies may be other ones. -/
theorem ClassFile.read_encode {file : ClassFile} (formed : file.WellFormed) {bytes : Bytes}
    (encoded : file.encode = .ok bytes) :
    ∃ read, ClassFile.read bytes = .ok read ∧ file.Renders read := by
  obtain ⟨raw, -, -, reads⟩ := ClassFile.split_encode encoded
  exact reads formed

/-- A class of version 61 with a field and a method that runs around in a loop. -/
def ClassFile.looping : ClassFile where
  header := ⟨"a/A", some "java/lang/Object", ["a/I"], 33, 61, 0, some "A.java"⟩
  fields := [⟨"x", "I", 1, some (.int 7)⟩]
  methods := [⟨"m", "()V", 1, ["a/E"],
    some ⟨0, 0, [.label ⟨0⟩, .line 5, .simple Opcode.nop, .jump Opcode.goto ⟨0⟩], [], 1⟩⟩]

theorem ClassFile.read_encode_looping : ∃ bytes read, looping.WellFormed ∧
    looping.encode = .ok bytes ∧ ClassFile.read bytes = .ok read ∧ looping.Renders read := by
  have formed : looping.WellFormed := by
    refine ⟨rfl, ?_, ?_⟩
    · intro f member
      cases List.mem_singleton.1 member
      exact ⟨rfl, by simp⟩
    · intro m member
      cases List.mem_singleton.1 member
      refine ⟨rfl, ?_⟩
      intro code held
      cases held
      exact ⟨by simp [Insn.WellFormed]; decide, by decide⟩
  have succeeds : looping.encode.toOption.isSome = true := by decide +kernel
  cases encoded : looping.encode with
  | error e => simp [encoded, Except.toOption] at succeeds
  | ok bytes =>
    obtain ⟨read, found, renders⟩ := ClassFile.read_encode formed encoded
    exact ⟨bytes, read, formed, rfl, found, renders⟩

end JvmPatch
