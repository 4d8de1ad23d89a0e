import JvmPatch.Proofs.Renumbering.Editing

/-! The order in which classes come in. Two classes that come in one after the other get other
numbers if they come in the other way round, and so do their members; apart from that the class sets
are the same. -/

set_option autoImplicit false

namespace JvmPatch

/-- The entry of a class whose members have given numbers. -/
def ClassFile.entryOf (file : ClassFile) (source : Option Bytes) (hidden : Bool)
    (fields : List FieldId) (methods : List MethodId) : ClassEntry :=
  { file.header with
    fields := fields
    methods := methods
    view := methods
    hidden := hidden
    modified := false
    source := source }

/-- The entry of a class whose fields and methods are numbered from given numbers on. -/
def ClassFile.entry (file : ClassFile) (source : Option Bytes) (hidden : Bool)
    (field method : Nat) : ClassEntry :=
  file.entryOf source hidden ((List.range' field file.fields.length).map FieldId.mk)
    ((List.range' method file.methods.length).map MethodId.mk)

def FieldDecl.entryIn (id : ClassId) (hidden : Bool) (f : FieldDecl) : FieldEntry :=
  { f with declaredBy := id, owners := [id], hidden := hidden }

def MethodDecl.entryIn (id : ClassId) (hidden : Bool) (m : MethodDecl) : MethodEntry :=
  { m with declaredBy := id, owners := [id], hidden := hidden }

namespace ClassSet

def extend (set : ClassSet) (file : ClassFile) (source : Option Bytes) (hidden : Bool) : ClassSet :=
  { set with
    classes := set.classes.push (file.entry source hidden set.fields.size set.methods.size)
    fields := set.fields ++ (file.fields.map (FieldDecl.entryIn set.nextClass hidden)).toArray
    methods := set.methods ++ (file.methods.map (MethodDecl.entryIn set.nextClass hidden)).toArray }

theorem modify_push_size {α : Type} (xs : Array α) (x : α) (f : α → α) :
    (xs.push x).modify xs.size f = xs.push (f x) := by
  refine Array.ext (by simp) fun i _ inside => ?_
  rw [Array.getElem_modify, Array.getElem_push, Array.getElem_push]
  by_cases last : i < xs.size
  · simp [last, Nat.ne_of_gt last]
  · have is : xs.size = i := by
      rw [Array.size_push] at inside
      omega
    simp [is]

theorem addFields_eq {classes : Array ClassEntry} {id : ClassId} (last : id.index = classes.size)
    (hidden : Bool) (fs : List FieldDecl) :
    ∀ (set : ClassSet) (c : ClassEntry), set.classes = classes.push c →
      fs.foldl (fun set f => set.addField id f hidden) set =
        { set with
          classes := classes.push
            { c with fields := c.fields ++ (List.range' set.fields.size fs.length).map FieldId.mk }
          fields := set.fields ++ (fs.map (FieldDecl.entryIn id hidden)).toArray } := by
  induction fs with
  | nil =>
    intro set c isLast
    simp [← isLast]
  | cons f fs ih =>
    intro set c isLast
    have added : set.addField id f hidden =
        { set with
          classes := classes.push { c with fields := c.fields ++ [set.nextField] }
          fields := set.fields.push (f.entryIn id hidden) } := by
      simp only [addField, modifyClass, isLast, last, modify_push_size, FieldDecl.entryIn]
    rw [List.foldl_cons, added, ih _ { c with fields := c.fields ++ [set.nextField] } rfl]
    simp [List.range'_succ, nextField]

theorem addMethods_eq {classes : Array ClassEntry} {id : ClassId} (last : id.index = classes.size)
    (hidden : Bool) (ms : List MethodDecl) :
    ∀ (set : ClassSet) (c : ClassEntry), set.classes = classes.push c →
      ms.foldl (fun set m => set.addMethod id m hidden) set =
        { set with
          classes := classes.push
            { c with
              methods := c.methods ++ (List.range' set.methods.size ms.length).map MethodId.mk
              view := c.view ++ (List.range' set.methods.size ms.length).map MethodId.mk }
          methods := set.methods ++ (ms.map (MethodDecl.entryIn id hidden)).toArray } := by
  induction ms with
  | nil =>
    intro set c isLast
    simp [← isLast]
  | cons m ms ih =>
    intro set c isLast
    have added : set.addMethod id m hidden =
        { set with
          classes := classes.push
            { c with methods := c.methods ++ [set.nextMethod], view := c.view ++ [set.nextMethod] }
          methods := set.methods.push (m.entryIn id hidden) } := by
      simp only [addMethod, modifyClass, isLast, last, modify_push_size, MethodDecl.entryIn]
    rw [List.foldl_cons, added,
      ih _ { c with
          methods := c.methods ++ [set.nextMethod], view := c.view ++ [set.nextMethod] } rfl]
    simp [List.range'_succ, nextMethod]

theorem insert?_eq {set : ClassSet} {file : ClassFile} (new : set.find? file.header.name = none)
    (source : Option Bytes) (hidden : Bool) :
    set.insert? file source hidden = some (set.extend file source hidden) := by
  rw [insert?, new, Option.isSome_none, if_neg Bool.false_ne_true]
  have last : set.nextClass.index = set.classes.size := rfl
  refine congrArg some ?_
  rw [addFields_eq last hidden file.fields _ _ rfl, addMethods_eq last hidden file.methods _ _ rfl]
  simp [extend, ClassFile.entry, ClassFile.entryOf, ClassSet.addClass]

section Reading

variable (set : ClassSet) (file : ClassFile) (source : Option Bytes) (hidden : Bool)

theorem classAt_extend (id : ClassId) : (set.extend file source hidden).classAt id =
    if id = set.nextClass then file.entry source hidden set.fields.size set.methods.size
      else set.classAt id := by
  obtain ⟨index⟩ := id
  simp only [classAt, extend, nextClass, Array.getElem?_push, ClassId.mk.injEq]
  split <;> rfl

theorem methodAt_extend (m : MethodId) : (set.extend file source hidden).methodAt m =
    if m.index < set.methods.size then set.methodAt m
    else ((file.methods[m.index - set.methods.size]?).map
      (MethodDecl.entryIn set.nextClass hidden)).getD default := by
  simp only [methodAt, extend, Array.getElem?_append, List.getElem?_toArray, List.getElem?_map]
  split <;> rfl

theorem fieldAt_extend (f : FieldId) : (set.extend file source hidden).fieldAt f =
    if f.index < set.fields.size then set.fieldAt f
    else ((file.fields[f.index - set.fields.size]?).map
      (FieldDecl.entryIn set.nextClass hidden)).getD default := by
  simp only [fieldAt, extend, Array.getElem?_append, List.getElem?_toArray, List.getElem?_map]
  split <;> rfl

end Reading

end ClassSet

/-- The exchange of two neighbouring blocks of numbers. The first has some length and starts at some
number; the second has another length. -/
def swapBlocks (start first second : Nat) : Equiv.Perm Nat where
  toFun i :=
    if i < start then i
    else if i < start + first then i + second
    else if i < start + first + second then i - first
    else i
  invFun i :=
    if i < start then i
    else if i < start + second then i + first
    else if i < start + second + first then i - second
    else i
  left_inv i := by dsimp only; split_ifs <;> omega
  right_inv i := by dsimp only; split_ifs <;> omega

def classNumber : Nat ≃ ClassId := ⟨ClassId.mk, ClassId.index, fun _ => rfl, fun _ => rfl⟩

def methodNumber : Nat ≃ MethodId := ⟨MethodId.mk, MethodId.index, fun _ => rfl, fun _ => rfl⟩

def fieldNumber : Nat ≃ FieldId := ⟨FieldId.mk, FieldId.index, fun _ => rfl, fun _ => rfl⟩

/-- The other numbers that two classes and their members get if the classes come in the other way
round. -/
def Renumbering.exchange (set : ClassSet) (first second : ClassFile) : Renumbering where
  cls := classNumber.permCongr (swapBlocks set.classes.size 1 1)
  method := methodNumber.permCongr
    (swapBlocks set.methods.size first.methods.length second.methods.length)
  field := fieldNumber.permCongr
    (swapBlocks set.fields.size first.fields.length second.fields.length)

namespace ClassSet

/-- The names of classes, and the numbers that they and their members refer to, are as they are when
classes have just come in. -/
structure Fresh (set : ClassSet) : Prop where
  formed : set.WellFormed
  apart : set.NamesApart
  method : ∀ m, set.HasMethod m → set.HasClass (set.methodAt m).declaredBy ∧
    (set.methodAt m).owners = [(set.methodAt m).declaredBy]
  field : ∀ f, set.HasField f → set.HasClass (set.fieldAt f).declaredBy ∧
    (set.fieldAt f).owners = [(set.fieldAt f).declaredBy]

theorem fresh_empty (classpath : Classpath) : Fresh { classpath := classpath } where
  formed := wellFormed_empty classpath
  apart _ _ known := (nomatch known)
  method _ known := (nomatch known)
  field _ known := (nomatch known)

section Exchange

variable {set : ClassSet} {file : ClassFile} {source : Option Bytes} {hidden : Bool}

theorem hasClass_extend (id : ClassId) :
    (set.extend file source hidden).HasClass id ↔ id.index < set.classes.size + 1 := by
  simp [HasClass, extend]

theorem hasMethod_extend (m : MethodId) :
    (set.extend file source hidden).HasMethod m ↔
      m.index < set.methods.size + file.methods.length := by
  simp [HasMethod, extend]

theorem hasField_extend (f : FieldId) :
    (set.extend file source hidden).HasField f ↔
      f.index < set.fields.size + file.fields.length := by
  simp [HasField, extend]

theorem find?_extend_of_ne {name : String} (different : file.header.name ≠ name) :
    (set.extend file source hidden).find? name = set.find? name := by
  simp only [find?, extend, Array.findIdx?_push, ClassFile.entry, ClassFile.entryOf]
  rw [if_neg (by simpa using different), Option.or_none]

theorem Fresh.extend (fresh : set.Fresh) (new : set.find? file.header.name = none)
    (source : Option Bytes) (hidden : Bool) : (set.extend file source hidden).Fresh where
  formed := (evolves_insert? (insert?_eq new source hidden)).wellFormed fresh.formed
  apart id id' known known' alike := by
    have named (x : ClassId) (old : set.HasClass x) : (set.classAt x).name ≠ file.header.name := by
      intro isName
      rw [(find?_eq_some_iff fresh.apart).2 ⟨old, isName⟩] at new
      cases new
    have isOld (x : ClassId) (known : (set.extend file source hidden).HasClass x)
      (other : x ≠ set.nextClass) :
        set.HasClass x := by
      rw [hasClass_extend] at known
      refine Nat.lt_of_le_of_ne (Nat.le_of_lt_succ known) fun last => other ?_
      cases x
      simp_all [nextClass]
    rw [classAt_extend, classAt_extend] at alike
    by_cases isNew : id = set.nextClass
    · by_cases isNew' : id' = set.nextClass
      · rw [isNew, isNew']
      · rw [if_pos isNew, if_neg isNew'] at alike
        exact absurd alike.symm (named id' (isOld id' known' isNew'))
    · by_cases isNew' : id' = set.nextClass
      · rw [if_neg isNew, if_pos isNew'] at alike
        exact absurd alike (named id (isOld id known isNew))
      · rw [if_neg isNew, if_neg isNew'] at alike
        exact fresh.apart id id' (isOld id known isNew) (isOld id' known' isNew') alike
  method m known := by
    rw [methodAt_extend]
    rw [hasMethod_extend] at known
    split
    · rename_i old
      obtain ⟨has, owners⟩ := fresh.method m old
      exact ⟨(hasClass_extend _).2 (Nat.lt_succ_of_lt has), owners⟩
    · rename_i new
      have inside : m.index - set.methods.size < file.methods.length := by omega
      simp [List.getElem?_eq_getElem inside, MethodDecl.entryIn, hasClass_extend, nextClass]
  field f known := by
    rw [fieldAt_extend]
    rw [hasField_extend] at known
    split
    · rename_i old
      obtain ⟨has, owners⟩ := fresh.field f old
      exact ⟨(hasClass_extend _).2 (Nat.lt_succ_of_lt has), owners⟩
    · rename_i new
      have inside : f.index - set.fields.size < file.fields.length := by omega
      simp [List.getElem?_eq_getElem inside, FieldDecl.entryIn, hasClass_extend, nextClass]

variable {first second : ClassFile} {firstSource secondSource : Option Bytes}

theorem map_swapBlocks_first {α : Type} (number : Nat ≃ α) (start a b : Nat) :
    ((List.range' start a).map number).map (number.permCongr (swapBlocks start a b)) =
      (List.range' (start + b) a).map number := by
  refine List.ext_getElem (by simp) fun i _ inside => ?_
  have short : i < a := by simpa using inside
  simp only [List.getElem_map, List.getElem_range', Equiv.permCongr_apply,
    Equiv.symm_apply_apply, swapBlocks, Equiv.coe_fn_mk, Nat.one_mul]
  rw [if_neg (by omega), if_pos (by omega), Nat.add_right_comm]

theorem map_swapBlocks_second {α : Type} (number : Nat ≃ α) (start a b : Nat) :
    ((List.range' (start + a) b).map number).map (number.permCongr (swapBlocks start a b)) =
      (List.range' start b).map number := by
  refine List.ext_getElem (by simp) fun i _ inside => ?_
  have short : i < b := by simpa using inside
  simp only [List.getElem_map, List.getElem_range', Equiv.permCongr_apply,
    Equiv.symm_apply_apply, swapBlocks, Equiv.coe_fn_mk, Nat.one_mul]
  rw [if_neg (by omega), if_neg (by omega), if_pos (by omega),
    show start + a + i - a = start + i by omega]

theorem map_swapBlocks_of_lt {α : Type} (number : Nat ≃ α) {start : Nat} (a b : Nat) {xs : List α}
    (old : ∀ x ∈ xs, number.symm x < start) :
    xs.map (number.permCongr (swapBlocks start a b)) = xs := by
  refine (List.map_congr_left fun x member => ?_).trans (List.map_id xs)
  rw [Equiv.permCongr_apply, swapBlocks]
  simp [old x member]

theorem renumber_first :
    (first.entry source hidden set.fields.size set.methods.size).renumber
      (.exchange set first second) =
    first.entry source hidden (set.fields.size + second.fields.length)
      (set.methods.size + second.methods.length) := by
  have fields := map_swapBlocks_first fieldNumber set.fields.size first.fields.length
    second.fields.length
  have methods := map_swapBlocks_first methodNumber set.methods.size first.methods.length
    second.methods.length
  exact congrArg₂ (first.entryOf source hidden) fields methods

theorem renumber_second :
    (second.entry source hidden (set.fields.size + first.fields.length)
      (set.methods.size + first.methods.length)).renumber
        (.exchange set first second) =
          second.entry source hidden set.fields.size set.methods.size := by
  have fields := map_swapBlocks_second fieldNumber set.fields.size first.fields.length
    second.fields.length
  have methods := map_swapBlocks_second methodNumber set.methods.size first.methods.length
    second.methods.length
  exact congrArg₂ (second.entryOf source hidden) fields methods

/-- A class that has been there before lists its members under their old numbers. -/
theorem renumber_old (formed : set.WellFormed) (id : ClassId) :
    (set.classAt id).renumber (.exchange set first second) = set.classAt id := by
  have fields := map_swapBlocks_of_lt fieldNumber first.fields.length second.fields.length
    fun f listed => (formed.fields id f listed).1
  have methods := map_swapBlocks_of_lt methodNumber first.methods.length second.methods.length
    fun m listed => (formed.methods id m listed).1
  have view := map_swapBlocks_of_lt methodNumber first.methods.length second.methods.length
    fun m shown => formed.views id m shown
  rw [ClassEntry.renumber, Renumbering.exchange]
  dsimp only
  rw [fields, methods, view]

/-- A method that comes in with a class has the other number of the class in the other set. -/
theorem MethodDecl.alike_entryIn (ρ : Renumbering) (id : ClassId) (hidden : Bool) (m : MethodDecl) :
    (m.entryIn id hidden).Alike ρ (m.entryIn (ρ.cls id) hidden) :=
  ⟨rfl, rfl, fun o => by simp [MethodDecl.entryIn]⟩

theorem MethodEntry.alike_default (ρ : Renumbering) : (default : MethodEntry).Alike ρ default :=
  ⟨rfl, rfl, fun o => by simp [show (default : MethodEntry).owners = [] from rfl]⟩

/-- A field that comes in with a class has the other number of the class in the other set. -/
theorem FieldDecl.alike_entryIn (ρ : Renumbering) (id : ClassId) (hidden : Bool) (f : FieldDecl) :
    (f.entryIn id hidden).Alike ρ (f.entryIn (ρ.cls id) hidden) :=
  ⟨rfl, rfl, fun o => by simp [FieldDecl.entryIn]⟩

theorem FieldEntry.alike_default (ρ : Renumbering) : (default : FieldEntry).Alike ρ default :=
  ⟨rfl, rfl, fun o => by simp [show (default : FieldEntry).owners = [] from rfl]⟩

/-- The places of the classes and members that come in the other way round. -/
theorem exchange_cases (start a b i : Nat) :
    i < start ∧ swapBlocks start a b i = i ∨
      (start ≤ i ∧ i < start + a) ∧ swapBlocks start a b i = i + b ∨
      (start + a ≤ i ∧ i < start + a + b) ∧ swapBlocks start a b i = i - a ∨
      start + a + b ≤ i ∧ swapBlocks start a b i = i := by
  simp only [swapBlocks, Equiv.coe_fn_mk]
  split_ifs <;> omega

theorem swapBlocks_of_le {start a b i : Nat} (behind : start + a + b ≤ i) :
    swapBlocks start a b i = i := by
  rcases exchange_cases start a b i with ⟨_, h⟩ | ⟨_, h⟩ | ⟨_, h⟩ | ⟨_, h⟩ <;> omega

section Pieces

variable {β : Type} {start : Nat} {old : Nat → β} {front back front' back' : List β} {d : β}
  {R : β → β → Prop}

/-- What stands at a place if one list comes after what is old, and another list after the first
one. -/
def pieced (start : Nat) (old : Nat → β) (front back : List β) (d : β) (i : Nat) : β :=
  if i < start then old i
  else if i < start + front.length then front[i - start]?.getD d
  else back[i - (start + front.length)]?.getD d

theorem getD_forall₂ {xs ys : List β} (alike : List.Forall₂ R xs ys) {i : Nat}
    (inside : i < xs.length ∨ R d d) :
    R (xs[i]?.getD d) (ys[i]?.getD d) := by
  by_cases known : i < xs.length
  · rw [List.getElem?_eq_getElem known, List.getElem?_eq_getElem (alike.length_eq ▸ known)]
    exact alike.get known (alike.length_eq ▸ known)
  · rw [List.getElem?_eq_none (Nat.not_lt.1 known),
      List.getElem?_eq_none (alike.length_eq ▸ Nat.not_lt.1 known)]
    exact inside.resolve_left known

/-- Lists that come in the other way round put alike things at the exchanged places. -/
theorem pieced_swapBlocks (fronts : List.Forall₂ R front front') (backs : List.Forall₂ R back back')
    (same : ∀ i < start, R (old i) (old i)) {i : Nat}
    (inside : i < start + front.length + back.length ∨ R d d) :
    R (pieced start old front back d i)
      (pieced start old back' front' d (swapBlocks start front.length back.length i)) := by
  have frontCount := fronts.length_eq
  have backCount := backs.length_eq
  unfold pieced
  rcases exchange_cases start front.length back.length i with
    ⟨isOld, h⟩ | ⟨isFront, h⟩ | ⟨isBack, h⟩ | ⟨unknown, h⟩
  · rw [h, if_pos isOld, if_pos isOld]
    exact same i isOld
  · rw [h, if_neg (by omega), if_pos isFront.2, if_neg (by omega), if_neg (by omega),
      show i + back.length - (start + back'.length) = i - start by omega]
    exact getD_forall₂ fronts (.inl (by omega))
  · rw [h, if_neg (by omega), if_neg (by omega), if_neg (by omega), if_pos (by omega),
      show i - front.length - start = i - (start + front.length) by omega]
    exact getD_forall₂ backs (.inl (by omega))
  · rw [h, if_neg (by omega), if_neg (by omega), if_neg (by omega), if_neg (by omega),
      List.getElem?_eq_none (by omega), List.getElem?_eq_none (by omega)]
    exact inside.resolve_left (by omega)

end Pieces

theorem exchange_nextClass (first second : ClassFile) :
    (Renumbering.exchange set first second).cls set.nextClass = ⟨set.classes.size + 1⟩ :=
  congrArg ClassId.mk
    (by simp [swapBlocks] : swapBlocks _ 1 1 set.classes.size = set.classes.size + 1)

theorem exchange_afterNext (first second : ClassFile) :
    (Renumbering.exchange set first second).cls ⟨set.classes.size + 1⟩ = set.nextClass :=
  congrArg ClassId.mk
    (by simp [swapBlocks] : swapBlocks _ 1 1 (set.classes.size + 1) = set.classes.size)

theorem exchange_of_old (first second : ClassFile) {id : ClassId} (old : set.HasClass id) :
    (Renumbering.exchange set first second).cls id = id := by
  refine congrArg ClassId.mk (?_ : swapBlocks _ _ _ id.index = id.index)
  simp only [swapBlocks, Equiv.coe_fn_mk]
  exact if_pos old

/-- A method of a class that has been there before. -/
theorem Fresh.alike_method (fresh : set.Fresh) (first second : ClassFile) {m : MethodId}
    (old : set.HasMethod m) :
    (set.methodAt m).Alike (.exchange set first second) (set.methodAt m) ∧
      (set.methodAt m).declaredBy =
        (Renumbering.exchange set first second).cls (set.methodAt m).declaredBy := by
  obtain ⟨has, owners⟩ := fresh.method m old
  have stays := exchange_of_old first second has
  refine ⟨⟨rfl, rfl, fun o => ?_⟩, stays.symm⟩
  rw [owners, List.mem_singleton, List.mem_singleton]
  refine ⟨fun is => ?_, fun is => is ▸ stays⟩
  exact (Renumbering.exchange set first second).cls.injective (is.trans stays.symm)

/-- A field of a class that has been there before. -/
theorem Fresh.alike_field (fresh : set.Fresh) (first second : ClassFile) {f : FieldId}
    (old : set.HasField f) :
    (set.fieldAt f).Alike (.exchange set first second) (set.fieldAt f) ∧
      (set.fieldAt f).declaredBy =
        (Renumbering.exchange set first second).cls (set.fieldAt f).declaredBy := by
  obtain ⟨has, owners⟩ := fresh.field f old
  have stays := exchange_of_old first second has
  refine ⟨⟨rfl, rfl, fun o => ?_⟩, stays.symm⟩
  rw [owners, List.mem_singleton, List.mem_singleton]
  refine ⟨fun is => ?_, fun is => is ▸ stays⟩
  exact (Renumbering.exchange set first second).cls.injective (is.trans stays.symm)

variable (set first second firstSource secondSource hidden)

/-- Both classes, the first one first. -/
def extendBoth : ClassSet := (set.extend first firstSource hidden).extend second secondSource hidden

theorem methodAt_extendBoth (m : MethodId) :
    (set.extendBoth hidden first second firstSource secondSource).methodAt m =
    pieced set.methods.size (fun i => set.methodAt ⟨i⟩)
      (first.methods.map (MethodDecl.entryIn set.nextClass hidden))
      (second.methods.map (MethodDecl.entryIn ⟨set.classes.size + 1⟩ hidden)) default m.index := by
  rw [extendBoth, methodAt_extend, methodAt_extend]
  have size : (set.extend first firstSource hidden).methods.size = set.methods.size +
      first.methods.length := by
    simp [ClassSet.extend]
  have next : (set.extend first firstSource hidden).nextClass = ⟨set.classes.size + 1⟩ := by
    simp [ClassSet.extend, nextClass]
  rw [size, next, pieced, List.length_map, List.getElem?_map, List.getElem?_map]
  split_ifs <;> first | rfl | omega

theorem fieldAt_extendBoth (f : FieldId) :
    (set.extendBoth hidden first second firstSource secondSource).fieldAt f =
    pieced set.fields.size (fun i => set.fieldAt ⟨i⟩)
      (first.fields.map (FieldDecl.entryIn set.nextClass hidden))
      (second.fields.map (FieldDecl.entryIn ⟨set.classes.size + 1⟩ hidden)) default f.index := by
  rw [extendBoth, fieldAt_extend, fieldAt_extend]
  have size : (set.extend first firstSource hidden).fields.size = set.fields.size +
      first.fields.length := by
    simp [ClassSet.extend]
  have next : (set.extend first firstSource hidden).nextClass = ⟨set.classes.size + 1⟩ := by
    simp [ClassSet.extend, nextClass]
  rw [size, next, pieced, List.length_map, List.getElem?_map, List.getElem?_map]
  split_ifs <;> first | rfl | omega

theorem classAt_extendBoth (id : ClassId) :
    (set.extendBoth hidden first second firstSource secondSource).classAt id =
    if id = ⟨set.classes.size + 1⟩ then
      second.entry secondSource hidden (set.fields.size + first.fields.length)
        (set.methods.size + first.methods.length)
    else if id = set.nextClass then first.entry firstSource hidden set.fields.size set.methods.size
    else set.classAt id := by
  rw [extendBoth, classAt_extend, classAt_extend]
  have next : (set.extend first firstSource hidden).nextClass = ⟨set.classes.size + 1⟩ := by
    simp [ClassSet.extend, nextClass]
  rw [next]
  simp [ClassSet.extend]

variable {set first second firstSource secondSource hidden}

theorem hasMethod_extendBoth {m : MethodId} :
    (set.extendBoth hidden first second firstSource secondSource).HasMethod m ↔
    m.index < set.methods.size + first.methods.length + second.methods.length := by
  rw [extendBoth, hasMethod_extend]
  simp [ClassSet.extend]

theorem hasField_extendBoth {f : FieldId} :
    (set.extendBoth hidden first second firstSource secondSource).HasField f ↔
    f.index < set.fields.size + first.fields.length + second.fields.length := by
  rw [extendBoth, hasField_extend]
  simp [ClassSet.extend]

/-- What relates old methods, and methods that come in with the two numbers of a class, relates all
methods. -/
theorem methodAt_exchange {R : MethodEntry → MethodEntry → Prop}
    (old : ∀ m, set.HasMethod m → R (set.methodAt m) (set.methodAt m))
    (comesIn : ∀ id (x : MethodDecl),
      R (x.entryIn id hidden) (x.entryIn ((Renumbering.exchange set first second).cls id) hidden))
    {m : MethodId}
    (inside : (set.extendBoth hidden first second firstSource secondSource).HasMethod m ∨
      R default default) :
    R ((set.extendBoth hidden first second firstSource secondSource).methodAt m)
      ((set.extendBoth hidden second first secondSource firstSource).methodAt
        ((Renumbering.exchange set first second).method m)) := by
  have fronts : List.Forall₂ R (first.methods.map (MethodDecl.entryIn set.nextClass hidden))
      (first.methods.map (MethodDecl.entryIn ⟨set.classes.size + 1⟩ hidden)) := by
    rw [List.forall₂_map_left_iff, List.forall₂_map_right_iff, List.forall₂_same,
      ← exchange_nextClass first second]
    exact fun x _ => comesIn set.nextClass x
  have backs : List.Forall₂ R
    (second.methods.map (MethodDecl.entryIn ⟨set.classes.size + 1⟩ hidden))
      (second.methods.map (MethodDecl.entryIn set.nextClass hidden)) := by
    rw [List.forall₂_map_left_iff, List.forall₂_map_right_iff, List.forall₂_same,
      ← exchange_afterNext first second]
    exact fun x _ => comesIn ⟨set.classes.size + 1⟩ x
  have place : ((Renumbering.exchange set first second).method m).index =
      swapBlocks set.methods.size first.methods.length second.methods.length m.index := rfl
  rw [hasMethod_extendBoth] at inside
  rw [methodAt_extendBoth, methodAt_extendBoth, place]
  have pieces := pieced_swapBlocks fronts backs (fun i known => old ⟨i⟩ known) (d := default)
    (i := m.index)
  simp only [List.length_map] at pieces
  exact pieces inside

/-- What relates old fields, and fields that come in with the two numbers of a class, relates all
fields. -/
theorem fieldAt_exchange {R : FieldEntry → FieldEntry → Prop}
    (old : ∀ f, set.HasField f → R (set.fieldAt f) (set.fieldAt f))
    (comesIn : ∀ id (x : FieldDecl),
      R (x.entryIn id hidden) (x.entryIn ((Renumbering.exchange set first second).cls id) hidden))
    {f : FieldId}
    (inside : (set.extendBoth hidden first second firstSource secondSource).HasField f ∨
      R default default) :
    R ((set.extendBoth hidden first second firstSource secondSource).fieldAt f)
      ((set.extendBoth hidden second first secondSource firstSource).fieldAt
        ((Renumbering.exchange set first second).field f)) := by
  have fronts : List.Forall₂ R (first.fields.map (FieldDecl.entryIn set.nextClass hidden))
      (first.fields.map (FieldDecl.entryIn ⟨set.classes.size + 1⟩ hidden)) := by
    rw [List.forall₂_map_left_iff, List.forall₂_map_right_iff, List.forall₂_same,
      ← exchange_nextClass first second]
    exact fun x _ => comesIn set.nextClass x
  have backs : List.Forall₂ R (second.fields.map (FieldDecl.entryIn ⟨set.classes.size + 1⟩ hidden))
      (second.fields.map (FieldDecl.entryIn set.nextClass hidden)) := by
    rw [List.forall₂_map_left_iff, List.forall₂_map_right_iff, List.forall₂_same,
      ← exchange_afterNext first second]
    exact fun x _ => comesIn ⟨set.classes.size + 1⟩ x
  have place : ((Renumbering.exchange set first second).field f).index =
      swapBlocks set.fields.size first.fields.length second.fields.length f.index := rfl
  rw [hasField_extendBoth] at inside
  rw [fieldAt_extendBoth, fieldAt_extendBoth, place]
  have pieces := pieced_swapBlocks fronts backs (fun i known => old ⟨i⟩ known) (d := default)
    (i := f.index)
  simp only [List.length_map] at pieces
  exact pieces inside

/-- Two classes that come in the other way round are exchanged, and so are their members. -/
theorem renumbered_exchange (fresh : set.Fresh) (firstNew : set.find? first.header.name = none)
    (secondNew : set.find? second.header.name = none)
    (different : first.header.name ≠ second.header.name) :
    Renumbered (.exchange set first second)
      (set.extendBoth hidden first second firstSource secondSource)
      (set.extendBoth hidden second first secondSource firstSource) := by
  have both : (set.extendBoth hidden first second firstSource secondSource).Fresh :=
    (fresh.extend firstNew _ _).extend ((find?_extend_of_ne different).trans secondNew) _ _
  let ρ := Renumbering.exchange set first second
  constructor
  case classpath => rfl
  case classCount => simp [extendBoth, ClassSet.extend]
  case methodCount => simp [extendBoth, ClassSet.extend, Nat.add_comm]
  case fieldCount => simp [extendBoth, ClassSet.extend, Nat.add_comm]
  case unusedClass =>
    intro id unknown
    rw [extendBoth, hasClass_extend] at unknown
    simp only [ClassSet.extend, Array.size_push, Nat.not_lt] at unknown
    exact congrArg ClassId.mk (swapBlocks_of_le unknown)
  case unusedMethod =>
    intro m unknown
    rw [hasMethod_extendBoth, Nat.not_lt] at unknown
    exact congrArg MethodId.mk (swapBlocks_of_le unknown)
  case unusedField =>
    intro f unknown
    rw [hasField_extendBoth, Nat.not_lt] at unknown
    exact congrArg FieldId.mk (swapBlocks_of_le unknown)
  case classAt =>
    intro id
    have isNot : set.nextClass ≠ ⟨set.classes.size + 1⟩ := by simp [nextClass]
    by_cases isFirst : id = set.nextClass
    · rw [isFirst, exchange_nextClass, classAt_extendBoth, classAt_extendBoth, if_pos rfl,
        if_neg isNot, if_pos rfl, renumber_first]
    by_cases isSecond : id = ⟨set.classes.size + 1⟩
    · rw [isSecond, exchange_afterNext, classAt_extendBoth, classAt_extendBoth, if_pos rfl,
        if_neg isNot, if_pos rfl, renumber_second]
    have stays : ρ.cls id = id := by
      refine congrArg ClassId.mk (?_ : swapBlocks _ _ _ id.index = id.index)
      have notFirst : id.index ≠ set.classes.size := fun is => isFirst (congrArg ClassId.mk is)
      have notSecond : id.index ≠ set.classes.size + 1 :=
        fun is => isSecond (congrArg ClassId.mk is)
      rcases exchange_cases set.classes.size 1 1 id.index with
        ⟨_, h⟩ | ⟨_, h⟩ | ⟨_, h⟩ | ⟨_, h⟩ <;> omega
    rw [stays, classAt_extendBoth, classAt_extendBoth, if_neg isSecond, if_neg isFirst,
      if_neg isSecond, if_neg isFirst, renumber_old fresh.formed]
  case methodAt =>
    exact fun m => methodAt_exchange (fun m old => (fresh.alike_method first second old).1)
      (fun id => MethodDecl.alike_entryIn ρ id hidden) (.inr (MethodEntry.alike_default ρ))
  case fieldAt =>
    exact fun f => fieldAt_exchange (fun f old => (fresh.alike_field first second old).1)
      (fun id => FieldDecl.alike_entryIn ρ id hidden) (.inr (FieldEntry.alike_default ρ))
  case methodDeclaredBy =>
    exact fun m known => methodAt_exchange (R := fun m n => n.declaredBy = ρ.cls m.declaredBy)
      (fun m old => (fresh.alike_method first second old).2) (fun _ _ => rfl) (.inl known)
  case fieldDeclaredBy =>
    exact fun f known => fieldAt_exchange (R := fun f g => g.declaredBy = ρ.cls f.declaredBy)
      (fun f old => (fresh.alike_field first second old).2) (fun _ _ => rfl) (.inl known)
  case apart => exact both.apart
  case formed => exact both.formed

end Exchange

/-- Takes classes in one after the other, together with the bytes that they were read from. -/
def insertAll? (set : ClassSet) (files : List (ClassFile × Option Bytes)) : Option ClassSet :=
  files.foldlM (fun set f => set.insert? f.1 f.2 false) set

/-- The classes have different names, and none of these is taken. -/
structure New (set : ClassSet) (files : List (ClassFile × Option Bytes)) : Prop where
  distinct : (files.map fun f => f.1.header.name).Nodup
  free : ∀ f ∈ files, set.find? f.1.header.name = none

theorem New.perm {set : ClassSet} {files files' : List (ClassFile × Option Bytes)}
    (new : set.New files) (perm : files.Perm files') : set.New files' :=
  ⟨(perm.map _).nodup_iff.1 new.distinct, fun f member => new.free f (perm.mem_iff.2 member)⟩

/-- Once the first class has come in, the others are still new. -/
theorem New.tail {set : ClassSet} {file : ClassFile × Option Bytes}
    {files : List (ClassFile × Option Bytes)} (new : set.New (file :: files)) :
    (set.extend file.1 file.2 false).New files := by
  obtain ⟨fresh, distinct⟩ := List.nodup_cons.1 new.distinct
  refine ⟨distinct, fun f member => ?_⟩
  have different : file.1.header.name ≠ f.1.header.name :=
    fun is => fresh (List.mem_map.2 ⟨f, member, is.symm⟩)
  exact (find?_extend_of_ne different).trans (new.free f (.tail _ member))

theorem insertAll?_cons {set : ClassSet} {file : ClassFile × Option Bytes}
    {files : List (ClassFile × Option Bytes)} (new : set.New (file :: files)) :
    set.insertAll? (file :: files) = (set.extend file.1 file.2 false).insertAll? files := by
  rw [insertAll?, List.foldlM_cons, insert?_eq (new.free file List.mem_cons_self)]
  rfl

theorem New.exists_insertAll? {set : ClassSet} {files : List (ClassFile × Option Bytes)}
    (new : set.New files) :
    ∃ u, set.insertAll? files = some u := by
  induction files generalizing set with
  | nil => exact ⟨set, rfl⟩
  | cons file files ih =>
    rw [insertAll?_cons new]
    exact ih new.tail

/-- Whatever comes in afterwards comes in alike. -/
theorem Renumbered.insertAll? {ρ : Renumbering} {set other : ClassSet}
    (same : Renumbered ρ set other) (files : List (ClassFile × Option Bytes)) :
    Option.Rel (Renumbered ρ) (set.insertAll? files) (other.insertAll? files) := by
  induction files generalizing set other with
  | nil => exact .some same
  | cons file files ih =>
    rw [ClassSet.insertAll?, ClassSet.insertAll?, List.foldlM_cons, List.foldlM_cons]
    have one := same.insert? file.1 file.2 false
    revert one
    cases set.insert? file.1 file.2 false <;> cases other.insert? file.1 file.2 false <;>
      intro one <;> cases one
    · exact .none
    · exact ih ‹_›

/-- Classes that come in in another order get other numbers, and that is all. -/
theorem insertAll?_perm {files files' : List (ClassFile × Option Bytes)} (perm : files.Perm files')
    {set : ClassSet} (fresh : set.Fresh) (new : set.New files) :
    ∃ u v ρ, set.insertAll? files = some u ∧ set.insertAll? files' = some v ∧ Renumbered ρ u v := by
  induction perm generalizing set with
  | nil => exact ⟨set, set, _, rfl, rfl, .refl fresh.apart fresh.formed⟩
  | cons file _ ih =>
    rw [insertAll?_cons new, insertAll?_cons (new.perm (.cons file ‹_›))]
    exact ih (fresh.extend (new.free file List.mem_cons_self) _ _) new.tail
  | swap first second files =>
    have swapped := new.perm (.swap first second files)
    have free := new.free second List.mem_cons_self
    have free' := new.free first (.tail _ List.mem_cons_self)
    have different : second.1.header.name ≠ first.1.header.name := fun is =>
      (List.nodup_cons.1 new.distinct).1 (List.mem_map.2 ⟨first, List.mem_cons_self, is.symm⟩)
    have exchanged : Renumbered (.exchange set second.1 first.1)
        (set.extendBoth false second.1 first.1 second.2 first.2)
        (set.extendBoth false first.1 second.1 first.2 second.2) :=
      renumbered_exchange fresh free free' different
    rw [insertAll?_cons new, insertAll?_cons new.tail, insertAll?_cons swapped,
      insertAll?_cons swapped.tail]
    obtain ⟨u, inserted⟩ := new.tail.tail.exists_insertAll?
    obtain ⟨v, inserted'⟩ := swapped.tail.tail.exists_insertAll?
    have rest := exchanged.insertAll? files
    rw [extendBoth, extendBoth, inserted, inserted'] at rest
    cases rest with
    | some same => exact ⟨u, v, _, inserted, inserted', same⟩
  | trans one two ih ih' =>
    obtain ⟨u, v, ρ, inserted, middle, same⟩ := ih fresh new
    obtain ⟨v', w, σ, middle', inserted', same'⟩ := ih' fresh (new.perm one)
    obtain rfl := Option.some.inj (middle.symm.trans middle')
    exact ⟨u, w, _, inserted, inserted', same.trans same'⟩

end ClassSet

end JvmPatch
