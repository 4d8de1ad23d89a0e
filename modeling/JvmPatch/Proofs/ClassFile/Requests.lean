import JvmPatch.Proofs.ClassFile.Pool
import Mathlib.Data.List.Nodup

/-! What a pool gives to those who ask it for numbers. Requests that fail are answered too; whatever
they have added by then stays. The pool that is read in the end has under each number that has been
given out what was asked for, and equal requests are those with equal numbers. -/

set_option autoImplicit false

namespace JvmPatch

/-! ### Requests -/

/-- What a pool can be asked for. -/
inductive PoolRequest
  | text (value : String)
  | classRef (name : String)
  | nameAndType (name desc : String)
  | field (owner name desc : String)
  | method (owner name desc : String) (isInterface : Bool)
  | constant (value : Constant)
  deriving DecidableEq, Repr

namespace PoolRequest

/-- Adds what is asked for and gives its number. -/
def add : PoolRequest → EncodeM UInt16
  | text value => PoolBuilder.addText value
  | classRef name => PoolBuilder.addClass name
  | nameAndType name desc => PoolBuilder.addNameAndType name desc
  | field owner name desc => PoolBuilder.addField owner name desc
  | method owner name desc isInterface => PoolBuilder.addMethod owner name desc isInterface
  | constant value => PoolBuilder.addConstant value

/-- The request for the same entry that all such requests have in common: a class as a constant is
the class. -/
def entry : PoolRequest → PoolRequest
  | constant (.classRef name) => classRef name
  | request => request

def texts : PoolRequest → List String
  | text value => [value]
  | classRef name => [name]
  | nameAndType name desc => [name, desc]
  | field owner name desc => [owner, name, desc]
  | method owner name desc _ => [owner, name, desc]
  | constant (.string value) => [value]
  | constant (.classRef name) => [name]
  | constant _ => []

/-- The reader finds under a number what was asked for. A class as a constant is only pushed, never
held by a field. -/
def ReadFrom (p : Pool) (index : UInt16) : PoolRequest → Prop
  | text value => p.utf8 index = .ok value
  | classRef name => p.className index = .ok name
  | nameAndType name desc => p.nameAndType index = .ok (name, desc)
  | field owner name desc => p.member index = .ok ⟨owner, name, desc, false⟩
  | method owner name desc isInterface => p.member index = .ok ⟨owner, name, desc, isInterface⟩
  | constant value =>
    p.pushed index = .ok (.push value) ∧
      ((∀ name, value ≠ .classRef name) → p.constant index = .ok value)

theorem add_readFrom (request : PoolRequest) : Gives request.add fun p index =>
    request.ReadFrom p index := by
  cases request with
  | text value =>
    exact (PoolBuilder.addText_gives value).mono fun p index at_ => Pool.utf8_of_at at_
  | classRef name =>
    exact (PoolBuilder.addClass_gives name).mono fun p index at_ => Pool.className_of_at at_
  | nameAndType name desc =>
    exact (PoolBuilder.addNameAndType_gives name desc).mono fun p index at_ =>
      Pool.nameAndType_of_at at_
  | field owner name desc => exact PoolBuilder.addField_gives owner name desc
  | method owner name desc isInterface =>
    exact PoolBuilder.addMethod_gives owner name desc isInterface
  | constant value => exact PoolBuilder.addConstant_gives value

end PoolRequest

/-! ### What an entry was asked for by -/

namespace PoolEntry

def references : PoolEntry → List UInt16
  | utf8 _ | int _ | float _ | long _ | double _ => []
  | classRef name => [name]
  | string text => [text]
  | fieldRef owner pair | methodRef owner pair | interfaceMethodRef owner pair => [owner, pair]
  | nameAndType name desc => [name, desc]
  | methodHandle _ target => [target]
  | methodType desc => [desc]
  | dynamic _ pair | invokeDynamic _ pair => [pair]
  | module name => [name]
  | package name => [name]

end PoolEntry

namespace Pool

variable {p : Pool}

def at? (p : Pool) (index : UInt16) : Option PoolEntry := p[index.toNat]?.join

def text? (p : Pool) (index : UInt16) : Option String :=
  match p.at? index with
  | some (.utf8 text) => some text
  | _ => none

def class? (p : Pool) (index : UInt16) : Option String :=
  match p.at? index with
  | some (.classRef name) => p.text? name
  | _ => none

/-- The name and the descriptor with a number. -/
def pair? (p : Pool) (index : UInt16) : Option (String × String) :=
  match p.at? index with
  | some (.nameAndType name desc) => do pure (← p.text? name, ← p.text? desc)
  | _ => none

/-- The request that an entry answers, with everything that the entry refers to. -/
def request? (p : Pool) : PoolEntry → Option PoolRequest
  | .utf8 text => some (.text text)
  | .int value => some (.constant (.int value))
  | .float bits => some (.constant (.float bits))
  | .long value => some (.constant (.long value))
  | .double bits => some (.constant (.double bits))
  | .classRef name => (p.text? name).map .classRef
  | .string text => (p.text? text).map fun value => .constant (.string value)
  | .nameAndType name desc => do pure (.nameAndType (← p.text? name) (← p.text? desc))
  | .fieldRef owner pair => do
    let (name, desc) ← p.pair? pair
    pure (.field (← p.class? owner) name desc)
  | .methodRef owner pair => do
    let (name, desc) ← p.pair? pair
    pure (.method (← p.class? owner) name desc false)
  | .interfaceMethodRef owner pair => do
    let (name, desc) ← p.pair? pair
    pure (.method (← p.class? owner) name desc true)
  | _ => none

/-- The request that the entry with a number answers. -/
def describe? (p : Pool) (index : UInt16) : Option PoolRequest := (p.at? index).bind p.request?

variable {index : UInt16} {owner name desc text : String}

theorem at?_of_at {entry : PoolEntry} (at_ : p.At index entry) : p.at? index = some entry := by
  rw [at?, at_.entry, Option.join_some]

theorem text?_of_at (at_ : p.At index (.utf8 text)) : p.text? index = some text := by
  rw [text?, at?_of_at at_]

theorem class?_of_at (at_ : p.ClassAt index name) : p.class? index = some name := by
  obtain ⟨_, reference, named⟩ := at_.reference
  rw [class?, at?_of_at reference]
  exact text?_of_at named

theorem pair?_of_at (at_ : p.PairAt index name desc) : p.pair? index = some (name, desc) := by
  obtain ⟨_, _, pair, named, described⟩ := at_.reference
  rw [pair?, at?_of_at pair]
  simp only [text?_of_at named, text?_of_at described]
  rfl

theorem describe?_of_field (at_ : p.MemberAt index .fieldRef owner name desc) :
    p.describe? index = some (.field owner name desc) := by
  obtain ⟨_, _, ref, owned, pair⟩ := at_.reference
  rw [describe?, at?_of_at ref, Option.bind_some, request?]
  simp only [class?_of_at owned, pair?_of_at pair]
  rfl

theorem describe?_of_method {isInterface : Bool}
    (at_ : p.MemberAt index (if isInterface then .interfaceMethodRef
      else .methodRef) owner name desc) :
    p.describe? index = some (.method owner name desc isInterface) := by
  obtain ⟨_, _, ref, owned, pair⟩ := at_.reference
  cases isInterface <;>
    · simp only [if_true, if_false, Bool.false_eq_true] at ref
      rw [describe?, at?_of_at ref, Option.bind_some, request?]
      simp only [class?_of_at owned, pair?_of_at pair]
      rfl

end Pool

/-- Under the number that answers a request is what was asked for, down to the texts and values. -/
theorem PoolRequest.add_describe? (request : PoolRequest) :
    Gives request.add fun p index => p.describe? index = some request.entry := by
  cases request with
  | text value =>
    refine (PoolBuilder.addText_gives value).mono fun p index at_ => ?_
    rw [Pool.describe?, Pool.at?_of_at at_, Option.bind_some, Pool.request?]
    rfl
  | classRef name =>
    refine (PoolBuilder.addClass_gives name).mono fun p index at_ => ?_
    obtain ⟨_, reference, named⟩ := at_.reference
    rw [Pool.describe?, Pool.at?_of_at reference, Option.bind_some, Pool.request?,
      Pool.text?_of_at named]
    rfl
  | nameAndType name desc =>
    refine (PoolBuilder.addNameAndType_gives name desc).mono fun p index at_ => ?_
    obtain ⟨_, _, pair, named, described⟩ := at_.reference
    rw [Pool.describe?, Pool.at?_of_at pair, Option.bind_some, Pool.request?]
    simp only [Pool.text?_of_at named, Pool.text?_of_at described]
    rfl
  | field owner name desc =>
    exact (PoolBuilder.addField_at owner name desc).mono fun p index at_ =>
      Pool.describe?_of_field at_
  | method owner name desc isInterface =>
    exact (PoolBuilder.addMethod_at owner name desc isInterface).mono fun p index at_ =>
      Pool.describe?_of_method at_
  | constant value =>
    cases value with
    | int v | long v | float v | double v =>
      refine (PoolBuilder.add_gives _).mono fun p index at_ => ?_
      rw [Pool.describe?, Pool.at?_of_at at_, Option.bind_some, Pool.request?]
      rfl
    | string v =>
      refine (PoolBuilder.addText_gives v).bind fun text =>
        (PoolBuilder.add_gives _).mono fun p index at_ named => ?_
      rw [Pool.describe?, Pool.at?_of_at at_, Option.bind_some, Pool.request?,
        Pool.text?_of_at named]
      rfl
    | classRef name =>
      refine (PoolBuilder.addClass_gives name).mono fun p index at_ => ?_
      obtain ⟨_, reference, named⟩ := at_.reference
      rw [Pool.describe?, Pool.at?_of_at reference, Option.bind_some, Pool.request?,
        Pool.text?_of_at named]
      rfl

/-! ### Entries that are there once, and that lead back -/

namespace Pool

variable {p : Pool}

def Distinct (p : Pool) : Prop := ∀ entry i j, p.at? i = some entry → p.at? j = some entry → i = j

/-- Entries refer to entries with lower numbers. -/
def Backwards (p : Pool) : Prop :=
  ∀ i entry, p.at? i = some entry → ∀ r ∈ entry.references, r.toNat < i.toNat ∧
    ∃ other, p.at? r = some other

variable {i j : UInt16}

theorem at?_of_text? {text : String} (found : p.text? i = some text) :
    p.at? i = some (.utf8 text) := by
  unfold text? at found
  split at found
  · rename_i here
    rw [here, Option.some.inj found]
  · cases found

theorem at?_of_class? {name : String} (found : p.class? i = some name) :
    ∃ text, p.at? i = some (.classRef text) ∧ p.text? text = some name := by
  unfold class? at found
  split at found
  · rename_i here
    exact ⟨_, here, found⟩
  · cases found

theorem at?_of_pair? {name desc : String} (found : p.pair? i = some (name, desc)) :
    ∃ first second, p.at? i = some (.nameAndType first second) ∧ p.text? first = some name ∧
      p.text? second = some desc := by
  unfold pair? at found
  split at found
  · rename_i here
    obtain ⟨first, named, found⟩ := Option.bind_eq_some_iff.1 found
    obtain ⟨second, described, found⟩ := Option.bind_eq_some_iff.1 found
    cases found
    exact ⟨_, _, here, named, described⟩
  · cases found

/-- The entry that answers a request, with everything that it refers to. -/
def Answers (p : Pool) (entry : PoolEntry) : PoolRequest → Prop
  | .text value => entry = .utf8 value
  | .classRef name => ∃ i, entry = .classRef i ∧ p.text? i = some name
  | .nameAndType name desc =>
    ∃ i j, entry = .nameAndType i j ∧ p.text? i = some name ∧ p.text? j = some desc
  | .field owner name desc =>
    ∃ i j, entry = .fieldRef i j ∧ p.class? i = some owner ∧ p.pair? j = some (name, desc)
  | .method owner name desc isInterface =>
    ∃ i j, entry = (if isInterface then .interfaceMethodRef i j else .methodRef i j) ∧
      p.class? i = some owner ∧ p.pair? j = some (name, desc)
  | .constant (.int value) => entry = .int value
  | .constant (.long value) => entry = .long value
  | .constant (.float bits) => entry = .float bits
  | .constant (.double bits) => entry = .double bits
  | .constant (.string value) => ∃ i, entry = .string i ∧ p.text? i = some value
  | .constant (.classRef _) => False

theorem answers_of_request? {entry : PoolEntry} {request : PoolRequest}
    (answered : p.request? entry = some request) :
    p.Answers entry request := by
  cases entry with
  | utf8 _ | int _ | float _ | long _ | double _ =>
    cases answered
    rfl
  | classRef name | string text =>
    obtain ⟨text, named, rfl⟩ := Option.map_eq_some_iff.1 answered
    exact ⟨_, rfl, named⟩
  | nameAndType name desc =>
    obtain ⟨first, named, answered⟩ := Option.bind_eq_some_iff.1 answered
    obtain ⟨second, described, answered⟩ := Option.bind_eq_some_iff.1 answered
    cases answered
    exact ⟨_, _, rfl, named, described⟩
  | fieldRef owner pair | methodRef owner pair | interfaceMethodRef owner pair =>
    obtain ⟨⟨name, desc⟩, paired, answered⟩ := Option.bind_eq_some_iff.1 answered
    obtain ⟨named, owned, answered⟩ := Option.bind_eq_some_iff.1 answered
    cases answered
    exact ⟨_, _, rfl, owned, paired⟩
  | _ => cases answered

namespace Distinct

variable (distinct : p.Distinct)
include distinct

theorem text? {text : String} (first : p.text? i = some text)
    (second : p.text? j = some text) : i = j :=
  distinct _ i j (at?_of_text? first) (at?_of_text? second)

theorem class? {name : String} (first : p.class? i = some name)
    (second : p.class? j = some name) : i = j := by
  obtain ⟨text, here, named⟩ := at?_of_class? first
  obtain ⟨text', there, named'⟩ := at?_of_class? second
  obtain rfl := distinct.text? named named'
  exact distinct _ i j here there

theorem pair? {name desc : String} (first : p.pair? i = some (name, desc))
    (second : p.pair? j = some (name, desc)) :
    i = j := by
  obtain ⟨text, other, here, named, described⟩ := at?_of_pair? first
  obtain ⟨text', other', there, named', described'⟩ := at?_of_pair? second
  obtain rfl := distinct.text? named named'
  obtain rfl := distinct.text? described described'
  exact distinct _ i j here there

/-- An entry is known by the request that it answers. -/
theorem request? {first second : PoolEntry} {request : PoolRequest}
    (here : p.request? first = some request) (there : p.request? second = some request) :
    first = second := by
  have one := answers_of_request? here
  have two := answers_of_request? there
  cases request with
  | text value => exact one.trans two.symm
  | classRef name =>
    obtain ⟨i, rfl, named⟩ := one
    obtain ⟨j, rfl, named'⟩ := two
    rw [distinct.text? named named']
  | nameAndType name desc =>
    obtain ⟨i, j, rfl, named, described⟩ := one
    obtain ⟨i', j', rfl, named', described'⟩ := two
    rw [distinct.text? named named', distinct.text? described described']
  | field owner name desc =>
    obtain ⟨i, j, rfl, owned, pair⟩ := one
    obtain ⟨i', j', rfl, owned', pair'⟩ := two
    rw [distinct.class? owned owned', distinct.pair? pair pair']
  | method owner name desc isInterface =>
    obtain ⟨i, j, rfl, owned, pair⟩ := one
    obtain ⟨i', j', rfl, owned', pair'⟩ := two
    rw [distinct.class? owned owned', distinct.pair? pair pair']
  | constant value =>
    cases value with
    | int v | long v | float v | double v => exact one.trans two.symm
    | string v =>
      obtain ⟨i, rfl, named⟩ := one
      obtain ⟨j, rfl, named'⟩ := two
      rw [distinct.text? named named']
    | classRef name => exact one.elim

theorem describe? {request : PoolRequest} (first : p.describe? i = some request)
    (second : p.describe? j = some request) : i = j := by
  obtain ⟨entry, here, described⟩ := Option.bind_eq_some_iff.1 first
  obtain ⟨entry', there, described'⟩ := Option.bind_eq_some_iff.1 second
  obtain rfl := distinct.request? described described'
  exact distinct entry i j here there

end Distinct

end Pool

/-! ### Pools that are being built -/

namespace PoolBuilder

def Uses (b : PoolBuilder) (index : UInt16) : Prop := ∃ entry, (entry, index) ∈ b.slots.toList

/-- A pool as it is at all times: numbered, without repetitions, and with references that lead
back. -/
structure Sound (b : PoolBuilder) : Prop where
  valid : b.Valid
  distinct : (b.slots.toList.map Prod.fst).Nodup
  backwards : ∀ s ∈ b.slots.toList, ∀ r ∈ s.1.references, r.toNat < s.2.toNat ∧ b.Uses r

theorem sound_empty : Sound {} := ⟨valid_empty, by simp, by simp⟩

/-- A sound pool in which certain numbers are in use. -/
def Has (used : List UInt16) (b : PoolBuilder) : Prop := b.Sound ∧ ∀ r ∈ used, b.Uses r

variable {b b' : PoolBuilder}

theorem Uses.mono {index : UInt16} (uses : b.Uses index)
    (more : b.slots.toList ⊆ b'.slots.toList) : b'.Uses index := by
  obtain ⟨entry, member⟩ := uses
  exact ⟨entry, more member⟩

theorem not_mem_of_find? {entry : PoolEntry} (missing : b.find? entry = none) :
    entry ∉ b.slots.toList.map Prod.fst := by
  intro member
  obtain ⟨s, there, rfl⟩ := List.mem_map.1 member
  have none := Array.find?_eq_none.1 (Option.map_eq_none_iff.1 missing) s
    (Array.mem_toList_iff.1 there)
  simp at none

/-- The ends of adding an entry: it is there already, it comes last, or there is no room for it. -/
theorem run_add (entry : PoolEntry) (b : PoolBuilder) :
    (∃ index, (add entry).run b = .ok index b ∧ (entry, index) ∈ b.slots.toList) ∨
      ((add entry).run b = .ok (UInt16.ofNat b.next) ⟨b.slots.push (entry, UInt16.ofNat b.next),
        b.next + entry.width⟩ ∧
        entry ∉ b.slots.toList.map Prod.fst ∧ b.next + entry.width < 65535) ∨
      (add entry).run b = .error .poolOverflow b := by
  simp only [add, EStateM.run_bind, EStateM.run_get]
  cases found : b.find? entry with
  | some index => exact .inl ⟨index, rfl, mem_of_find? found⟩
  | none =>
    simp only
    by_cases fits : b.next + entry.width < 65535
    · rw [if_pos fits]
      exact .inr (.inl ⟨rfl, not_mem_of_find? found, fits⟩)
    · rw [if_neg fits]
      exact .inr (.inr rfl)

/-- A new entry may refer to all numbers that are in use. -/
theorem Sound.push (sound : b.Sound) {entry : PoolEntry} (new : entry ∉ b.slots.toList.map Prod.fst)
    (fits : b.next + entry.width < 65535) (known : ∀ r ∈ entry.references, b.Uses r) :
    Sound ⟨b.slots.push (entry, UInt16.ofNat b.next), b.next + entry.width⟩ := by
  have number : (UInt16.ofNat b.next).toNat = b.next := by
    have := sound.valid.next_lt
    rw [UInt16.toNat_ofNat', Nat.mod_eq_of_lt (by omega)]
  have more : b.slots.toList ⊆ (b.slots.push (entry, UInt16.ofNat b.next)).toList :=
    fun s member => by
    rw [Array.toList_push]
    exact List.mem_append_left _ member
  refine ⟨⟨?_, fits⟩, ?_, fun s member r reference => ?_⟩
  · rw [Array.toList_push]
    exact sound.valid.numbered.concat number
  · rw [Array.toList_push, List.map_append, List.map_singleton, ← List.concat_eq_append]
    exact sound.distinct.concat new
  · rw [Array.toList_push] at member
    rcases List.mem_append.1 member with old | last
    · obtain ⟨earlier, uses⟩ := sound.backwards s old r reference
      exact ⟨earlier, uses.mono more⟩
    · obtain rfl := List.mem_singleton.1 last
      have uses := known r reference
      obtain ⟨other, there⟩ := uses
      exact ⟨number.symm ▸ (sound.valid.numbered.le_of_mem there).2, Uses.mono ⟨other, there⟩ more⟩

theorem add_leads {entry : PoolEntry} {used : List UInt16} (known : entry.references ⊆ used) :
    Leads (Has used) (fun index => Has (index :: used)) Sound (add entry) := by
  intro b ⟨sound, uses⟩
  rcases run_add entry b with ⟨index, ran, there⟩ | ⟨ran, new, fits⟩ | ran
  · rw [ran]
    exact ⟨sound, List.forall_mem_cons.2 ⟨⟨entry, there⟩, uses⟩⟩
  · rw [ran]
    refine ⟨sound.push new fits fun r reference => uses r (known reference),
      List.forall_mem_cons.2 ⟨?_, ?_⟩⟩
    · exact ⟨entry, by simp⟩
    · intro r member
      refine (uses r member).mono fun s old => ?_
      rw [Array.toList_push]
      exact List.mem_append_left _ old
  · rw [ran]
    exact sound

theorem has_of_subset {used less : List UInt16} (fewer : less ⊆ used)
    (has : Has used b) : Has less b :=
  ⟨has.1, fun r member => has.2 r (fewer member)⟩

theorem addText_leads (text : String) (used : List UInt16) :
    Leads (Has used) (fun index => Has (index :: used)) Sound (addText text) :=
  add_leads (List.nil_subset _)

theorem addClass_leads (name : String) (used : List UInt16) :
    Leads (Has used) (fun index => Has (index :: used)) Sound (addClass name) :=
  (addText_leads name used).bind fun text =>
    (add_leads (List.cons_subset_cons text (List.nil_subset used))).mono (fun _ has => has)
      fun index _ => has_of_subset (List.cons_subset_cons index (List.subset_cons_self text used))

/-- What is put together from two other entries. -/
theorem bind_add_leads {first second : EncodeM UInt16} (kind : UInt16 → UInt16 → PoolEntry)
    (one : ∀ used, Leads (Has used) (fun index => Has (index :: used)) Sound first)
    (two : ∀ used, Leads (Has used) (fun index => Has (index :: used)) Sound second)
    (references : ∀ i j, (kind i j).references = [i, j]) (used : List UInt16) :
    Leads (Has used) (fun index => Has (index :: used)) Sound
      (first >>= fun i => second >>= fun j => add (kind i j)) := by
  refine (one used).bind fun i => (two (i :: used)).bind fun j => ?_
  have known : (kind i j).references ⊆ j :: i :: used := by
    rw [references]
    intro r member
    simp only [List.mem_cons, List.not_mem_nil, or_false] at member ⊢
    exact member.elim (.inr ∘ .inl) .inl
  have fewer : used ⊆ j :: i :: used := fun r member => .tail _ (.tail _ member)
  exact (add_leads known).mono (fun _ has => has) fun index _ =>
    has_of_subset (List.cons_subset_cons index fewer)

theorem addNameAndType_leads (name desc : String) (used : List UInt16) :
    Leads (Has used) (fun index => Has (index :: used)) Sound (addNameAndType name desc) :=
  bind_add_leads .nameAndType (addText_leads name) (addText_leads desc) (fun _ _ => rfl) used

end PoolBuilder

namespace PoolRequest

open PoolBuilder

/-- A request keeps a pool sound, also if it fails, and what it gives is in use. -/
theorem add_leads (request : PoolRequest) (used : List UInt16) :
    Leads (Has used) (fun index => Has (index :: used)) Sound request.add := by
  cases request with
  | text value => exact addText_leads value used
  | classRef name => exact addClass_leads name used
  | nameAndType name desc => exact addNameAndType_leads name desc used
  | field owner name desc =>
    exact bind_add_leads .fieldRef (addClass_leads owner) (addNameAndType_leads name desc)
      (fun _ _ => rfl) used
  | method owner name desc isInterface =>
    refine bind_add_leads (fun i j => if isInterface then .interfaceMethodRef i j
      else .methodRef i j)
      (addClass_leads owner) (addNameAndType_leads name desc) (fun _ _ => ?_) used
    cases isInterface <;> rfl
  | constant value =>
    cases value with
    | int v | long v | float v | double v => exact PoolBuilder.add_leads (List.nil_subset _)
    | string v =>
      exact (addText_leads v used).bind fun text =>
        (PoolBuilder.add_leads (List.cons_subset_cons text (List.nil_subset used))).mono
          (fun _ has => has)
          fun index _ => has_of_subset
            (List.cons_subset_cons index (List.subset_cons_self text used))
    | classRef name => exact addClass_leads name used

/-- What every entry keeps that is added for a request, the request keeps. -/
theorem add_failsOnly (request : PoolRequest) {P : PoolBuilder → Prop} {F : EncodeError → Prop}
    (each : ∀ entry, (∀ value, entry = .utf8 value → value ∈ request.texts) →
      FailsOnly P F (PoolBuilder.add entry)) :
    FailsOnly P F request.add := by
  have text (value : String) (member : value ∈ request.texts) : FailsOnly P F (addText value) :=
    each _ fun other same => PoolEntry.utf8.inj same ▸ member
  have other {entry : PoolEntry} (noText : ∀ value, entry ≠ .utf8 value) :
      FailsOnly P F (PoolBuilder.add entry) :=
    each entry fun value same => absurd same (noText value)
  have classRef (name : String) (member : name ∈ request.texts) : FailsOnly P F (addClass name) :=
    (text name member).bind fun _ => other (by simp)
  have nameAndType (name desc : String) (first : name ∈ request.texts)
    (second : desc ∈ request.texts) :
      FailsOnly P F (addNameAndType name desc) :=
    (text name first).bind fun _ => (text desc second).bind fun _ => other (by simp)
  cases request with
  | text value => exact text value (by simp [texts])
  | classRef name => exact classRef name (by simp [texts])
  | nameAndType name desc => exact nameAndType name desc (by simp [texts]) (by simp [texts])
  | field owner name desc =>
    exact (classRef owner (by simp [texts])).bind fun _ =>
      (nameAndType name desc (by simp [texts]) (by simp [texts])).bind fun _ => other (by simp)
  | method owner name desc isInterface =>
    refine (classRef owner (by simp [texts])).bind fun _ =>
      (nameAndType name desc (by simp [texts]) (by simp [texts])).bind fun _ => other ?_
    cases isInterface <;> simp
  | constant value =>
    cases value with
    | int v | long v | float v | double v => exact other (by simp)
    | string v => exact (text v (by simp [texts])).bind fun _ => other (by simp)
    | classRef name => exact classRef name (by simp [texts])

end PoolRequest

namespace PoolBuilder

theorem add_failsOnly {P : PoolBuilder → Prop} {entry : PoolEntry}
    (push : ∀ b index next, P b → P ⟨b.slots.push (entry, index), next⟩) :
    FailsOnly P (· = .poolOverflow) (add entry) := by
  intro b holds
  rcases run_add entry b with ⟨index, ran, -⟩ | ⟨ran, -, -⟩ | ran <;> rw [ran]
  · exact holds
  · exact push _ _ _ holds
  · exact ⟨holds, rfl⟩

def Texts (texts : List String) (b : PoolBuilder) : Prop :=
  ∀ s ∈ b.slots.toList, ∀ text, s.1 = .utf8 text → text ∈ texts

end PoolBuilder

namespace PoolRequest

/-- Whatever a request does, what has been added before stays. -/
theorem add_keeps (request : PoolRequest) (slots : List (PoolEntry × UInt16)) :
    FailsOnly (fun b => slots ⊆ b.slots.toList) (· = .poolOverflow) request.add := by
  refine request.add_failsOnly fun entry _ =>
    PoolBuilder.add_failsOnly fun b index _ kept s member => ?_
  rw [Array.toList_push]
  exact List.mem_append_left _ (kept member)

theorem add_texts (request : PoolRequest) {texts : List String} (known : request.texts ⊆ texts) :
    Preserves (PoolBuilder.Texts texts) request.add := by
  refine (request.add_failsOnly fun entry new => PoolBuilder.add_failsOnly
    fun b index _ kept s member => ?_).preserves
  rw [Array.toList_push] at member
  rcases List.mem_append.1 member with old | last
  · exact kept s old
  · obtain rfl := List.mem_singleton.1 last
    exact fun text same => known (new text same)

theorem add_sound (request : PoolRequest) : Preserves PoolBuilder.Sound request.add :=
  preserves_iff.2 fun _ sound =>
    ((request.add_leads []).mono (fun _ sound => ⟨sound, by simp⟩)
      fun _ _ has => has.1).leftBy sound

end PoolRequest

namespace PoolBuilder

/-- A pool cannot be written only because of a text that is too long. -/
theorem encode_ends (b : PoolBuilder) :
    Ends (fun _ => True)
      (fun e => e = .textTooLong ∧ ∃ s ∈ b.slots.toList, ∃ text, s.1 = .utf8 text ∧
        65535 < (Text.encodeModifiedUtf8 text.toList).length) b.encode := by
  refine Ends.bind (Ends.mapM (P := fun _ _ => True) fun s member => ?_) fun _ _ => trivial
  cases found : s.1 with
  | utf8 text =>
    unfold PoolEntry.encode
    by_cases fits : (Text.encodeModifiedUtf8 text.toList).length ≤ 65535
    · simp only [if_pos fits]
      trivial
    · simp only [if_neg fits]
      exact ⟨rfl, s, member, text, found, Nat.lt_of_not_le fits⟩
  | _ => trivial

/-! ### Pools that are asked several times -/

/-- Answers requests one after the other, also after one that fails. -/
def serve : List PoolRequest → PoolBuilder →
    List (PoolRequest × Except EncodeError UInt16) × PoolBuilder
  | [], b => ([], b)
  | request :: rest, b =>
    match request.add.run b with
    | .ok index b => ((request, .ok index) :: (serve rest b).1, (serve rest b).2)
    | .error e b => ((request, .error e) :: (serve rest b).1, (serve rest b).2)

variable {requests : List PoolRequest}

/-- What each request keeps, all of them keep. -/
theorem serve_keeps {P : PoolBuilder → Prop} (each : ∀ request ∈ requests, Preserves P request.add)
    {b : PoolBuilder} (holds : P b) : P (serve requests b).2 := by
  induction requests generalizing b with
  | nil => exact holds
  | cons request rest ih =>
    have first := each request List.mem_cons_self b holds
    rw [serve]
    cases ran : request.add.run b with
    | ok index b' | error e b' =>
      rw [ran] at first
      exact ih (fun r member => each r (.tail _ member)) first

theorem map_fst_serve (requests : List PoolRequest) (b : PoolBuilder) :
    (serve requests b).1.map Prod.fst = requests := by
  induction requests generalizing b with
  | nil => rfl
  | cons request rest ih =>
    rw [serve]
    cases request.add.run b with
    | ok index b' | error e b' => exact congrArg (request :: ·) (ih b')

/-- Each answer was given by the pool as it was at some time, and what was there then is there in
the end. -/
theorem exists_run_of_mem_serve {b : PoolBuilder} {request : PoolRequest}
    {answer : Except EncodeError UInt16} (member : (request, answer) ∈ (serve requests b).1) :
    ∃ s, match request.add.run s with
      | .ok index t => answer = .ok index ∧ t.slots.toList ⊆ (serve requests b).2.slots.toList
      | .error e _ => answer = .error e := by
  induction requests generalizing b with
  | nil => cases member
  | cons first rest ih =>
    rw [serve] at member ⊢
    cases ran : first.add.run b with
    | ok index t =>
      simp only [ran] at member ⊢
      rcases List.mem_cons.1 member with same | later
      · cases same
        refine ⟨b, ?_⟩
        simp only [ran, true_and]
        exact serve_keeps (fun r _ => (r.add_keeps t.slots.toList).preserves) (List.Subset.refl _)
      · exact ih later
    | error e t =>
      simp only [ran] at member ⊢
      rcases List.mem_cons.1 member with same | later
      · cases same
        refine ⟨b, ?_⟩
        simp only [ran]
      · exact ih later

theorem sound_serve (requests : List PoolRequest) : (serve requests {}).2.Sound :=
  serve_keeps (fun request _ => request.add_sound) sound_empty

theorem texts_serve (requests : List PoolRequest) :
    (serve requests {}).2.Texts (requests.flatMap PoolRequest.texts) :=
  serve_keeps (fun request member => request.add_texts fun _ inside => List.mem_flatMap.2 ⟨request,
    member, inside⟩)
    (by simp [Texts])

theorem serve_error {b : PoolBuilder} {request : PoolRequest} {e : EncodeError}
    (member : (request, .error e) ∈ (serve requests b).1) : e = .poolOverflow := by
  obtain ⟨s, answered⟩ := exists_run_of_mem_serve member
  cases ran : request.add.run s with
  | ok index t =>
    rw [ran] at answered
    cases answered.1
  | error e' t =>
    rw [ran] at answered
    cases answered
    exact ((request.add_keeps []).error (List.nil_subset _) ran).2

/-- What a request gives is right for the pool that is there in the end. -/
theorem serve_gives {request : PoolRequest} {index : UInt16} {Q : Pool → UInt16 → Prop}
    (gives : Gives request.add Q) (member : (request, .ok index) ∈ (serve requests {}).1) :
    Q (serve requests {}).2.readBack index := by
  obtain ⟨s, answered⟩ := exists_run_of_mem_serve member
  have valid := (sound_serve requests).valid
  cases ran : request.add.run s with
  | error e t =>
    rw [ran] at answered
    cases answered
  | ok given t =>
    simp only [ran] at answered
    obtain ⟨same, kept⟩ := answered
    cases same
    exact (gives s index t ran).2 _ (valid.holds.of_grows ⟨fun _ => valid, kept⟩)

variable {b : PoolBuilder}

theorem Valid.at?_readBack (valid : b.Valid) {index : UInt16} {entry : PoolEntry} :
    b.readBack.at? index = some entry ↔ (entry, index) ∈ b.slots.toList := by
  rw [Pool.at?, Option.join_eq_some_iff, valid.getElem?_readBack]
  constructor
  · rintro ⟨s, member, rfl, same⟩
    rwa [← UInt16.toNat_inj.1 same]
  · exact fun member => ⟨_, member, rfl, rfl⟩

theorem Sound.distinct_readBack (sound : b.Sound) : b.readBack.Distinct := by
  intro entry i j first second
  have one := sound.valid.at?_readBack.1 first
  have two := sound.valid.at?_readBack.1 second
  exact congrArg Prod.snd (List.inj_on_of_nodup_map sound.distinct one two rfl)

theorem Sound.backwards_readBack (sound : b.Sound) : b.readBack.Backwards := by
  intro index entry found r reference
  obtain ⟨earlier, other, there⟩ := sound.backwards _ (sound.valid.at?_readBack.1 found) r reference
  exact ⟨earlier, other, sound.valid.at?_readBack.2 there⟩

theorem Valid.encode_take (valid : b.Valid) {content : Bytes} (encoded : b.encode = .ok content) :
    content.take 2 = toBigEndian 2 b.readBack.size := by
  obtain ⟨entries, -, last⟩ := bind_eq_ok encoded
  cases last
  rw [valid.size_readBack, List.take_left' (length_toBigEndian 2 b.next)]

/-- A pool that is asked for entries in any order, with requests that fail in between. Only a pool
that is full refuses a request, and only a text of more than 65535 bytes keeps the pool from being
written. The pool is read back with its entries one after the other, 64-bit constants in two places,
and with references that lead back; each number that was given out leads to what was asked for, and
two numbers are the same exactly if the same was asked for. -/
theorem serve_readBack (requests : List PoolRequest) :
    let answers := (serve requests {}).1
    let b := (serve requests {}).2
    answers.map Prod.fst = requests ∧
      (∀ request e, (request, .error e) ∈ answers → e = .poolOverflow) ∧
      (∀ e, b.encode = .error e → e = .textTooLong ∧ ∃ request ∈ requests, ∃ text ∈ request.texts,
        65535 < (Text.encodeModifiedUtf8 text.toList).length) ∧
      ∀ content, b.encode = .ok content → ∃ (pool : Pool) (entries : List PoolEntry),
        ClassLayout.Reads ClassLayout.pool content pool ∧
          pool.toList = none :: entries.flatMap PoolEntry.places ∧
          content.take 2 = toBigEndian 2 pool.size ∧ pool.size < 65535 ∧ pool.Distinct ∧
            pool.Backwards ∧
          ∀ request i, (request, .ok i) ∈ answers →
            pool.describe? i = some request.entry ∧ request.ReadFrom pool i ∧
              ∀ other j, (other, .ok j) ∈ answers → (i = j ↔ request.entry = other.entry) := by
  have sound := sound_serve requests
  refine ⟨map_fst_serve requests {}, fun request e member => serve_error member, fun e failed => ?_,
    fun content encoded => ?_⟩
  · have ends := encode_ends (serve requests {}).2
    rw [failed] at ends
    obtain ⟨rfl, s, member, text, found, long⟩ := ends
    obtain ⟨request, asked, inside⟩ := List.mem_flatMap.1 (texts_serve requests s member text found)
    exact ⟨rfl, request, asked, text, inside, long⟩
  · have described {request : PoolRequest} {i : UInt16}
        (member : (request, .ok i) ∈ (serve requests {}).1) :=
      serve_gives request.add_describe? member
    refine ⟨(serve requests {}).2.readBack, (serve requests {}).2.slots.toList.map Prod.fst,
      .readBack sound.valid encoded, ?_, sound.valid.encode_take encoded, ?_,
      sound.distinct_readBack,
      sound.backwards_readBack, fun request i member =>
        ⟨described member, serve_gives request.add_readFrom member,
          fun other j member' => ⟨?_, fun same => ?_⟩⟩⟩
    · simp only [readBack, List.flatMap_map]
    · rw [sound.valid.size_readBack]
      exact sound.valid.next_lt
    · rintro rfl
      exact Option.some.inj ((described member).symm.trans (described member'))
    · exact sound.distinct_readBack.describe? (described member) (same ▸ described member')

/-- A long constant takes two places, and a text that is there keeps its number. -/
example : ((serve [.constant (.long 5), .constant (.string "a"), .text "a",
      .constant (.long 5)] {}).1.map fun answer =>
    answer.2.toOption) = [some 1, some 4, some 3, some 1] := by
  decide

end PoolBuilder

end JvmPatch
