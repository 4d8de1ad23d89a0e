import JvmPatch.ClassFile.Attribute
import JvmPatch.ClassFile.PoolBuilder
import JvmPatch.ClassFile.Reader
import JvmPatch.Proofs.BigEndian
import JvmPatch.Proofs.Steps
import JvmPatch.Proofs.Text.ModifiedUtf8
import Mathlib.Data.List.Forall2

/-! Constant pools are read as they were built, and the numbers that the writer gets lead the reader
to what the writer asked for. -/

set_option autoImplicit false

/-! ### Readers that find what they are meant to find -/

namespace JvmPatch.ClassLayout

/-- The reader takes exactly the bytes `s` and gives `x`, whatever follows. -/
def Reads {α : Type} (r : Reader α) (s : List UInt8) (x : α) : Prop :=
  ∀ rest, r (s ++ rest) = some (x, rest)

namespace Reads

variable {α β : Type} {r : Reader α} {s : List UInt8} {x : α}

protected theorem pure (x : α) : Reads (pure x) [] x := fun _ => rfl

protected theorem bind {next : α → Reader β} {s' : List UInt8} {y : β} (first : Reads r s x)
    (then_ : Reads (next x) s' y) : Reads (r >>= next) (s ++ s') y := by
  intro rest
  have := then_ rest
  rw [List.append_assoc]
  show (r (s ++ (s' ++ rest)) >>= fun p => next p.1 p.2) = _
  rw [first]
  exact this

/-- The last step of a reader that gives what it has read in another form. -/
protected theorem map (f : α → β) (first : Reads r s x) :
    Reads (r >>= fun x => pure (f x)) s (f x) := by
  rw [← List.append_nil s]
  exact first.bind (.pure (f x))

theorem bytes (s : List UInt8) : Reads (bytes s.length) s s := by
  intro rest
  simp [ClassLayout.bytes]

theorem bytes_of_length {count : Nat} (same : s.length = count) :
    Reads (ClassLayout.bytes count) s s := same ▸ Reads.bytes s

theorem nat {count : Nat} (same : s.length = count) : Reads (nat count) s (bigEndian s) :=
  (bytes_of_length same).map bigEndian

theorem u8 (b : UInt8) : Reads u8 [b] b := by
  have := (nat (s := [b]) rfl).map UInt8.ofNat
  rwa [ofNat_bigEndian_singleton] at this

theorem u16 (n : UInt16) : Reads u16 (bytes16 n) n := by
  have := (nat (length_bytes16 n)).map UInt16.ofNat
  rwa [ofNat_bigEndian_bytes16] at this

theorem u32 (n : UInt32) : Reads u32 (bytes32 n) n := by
  have := (nat (length_bytes32 n)).map UInt32.ofNat
  rwa [ofNat_bigEndian_bytes32] at this

theorem u64 (n : UInt64) : Reads u64 (bytes64 n) n := by
  have := (nat (length_bytes64 n)).map UInt64.ofNat
  rwa [ofNat_bigEndian_bytes64] at this

/-- A count is read as it was written, cut off to 16 bits. -/
theorem u16_toBigEndian (n : Nat) : Reads ClassLayout.u16 (toBigEndian 2 n) (UInt16.ofNat n) := by
  have cut : UInt16.ofNat (n % Nat.pow 256 2) = UInt16.ofNat n := UInt16.ofNat_mod_size
  have := (nat (length_toBigEndian 2 n)).map UInt16.ofNat
  rwa [bigEndian_toBigEndian, cut] at this

theorem u32_toBigEndian (n : Nat) : Reads ClassLayout.u32 (toBigEndian 4 n) (UInt32.ofNat n) := by
  have cut : UInt32.ofNat (n % Nat.pow 256 4) = UInt32.ofNat n := UInt32.ofNat_mod_size
  have := (nat (length_toBigEndian 4 n)).map UInt32.ofNat
  rwa [bigEndian_toBigEndian, cut] at this

theorem replicate {encoded : List (List UInt8)} {xs : List α}
    (each : List.Forall₂ (Reads r) encoded xs) :
    Reads (replicate xs.length r) encoded.flatten xs := by
  induction each with
  | nil => exact .pure []
  | cons first _ ih => exact first.bind (ih.map (_ :: ·))

theorem counted {encoded : List (List UInt8)} {xs : List α}
    (each : List.Forall₂ (Reads r) encoded xs) (fits : xs.length ≤ 65535) :
    Reads (counted r) (toBigEndian 2 xs.length ++ encoded.flatten) xs := by
  have count : (UInt16.ofNat xs.length).toNat = xs.length := by
    rw [UInt16.toNat_ofNat', Nat.mod_eq_of_lt (by omega)]
  refine (u16_toBigEndian xs.length).bind ?_
  rw [count]
  exact replicate each

/-- Things that are all written in one way. -/
theorem counted_flatMap {encode : α → List UInt8} (each : ∀ x, Reads r (encode x) x) {xs : List α}
    (fits : xs.length ≤ 65535) :
    Reads (ClassLayout.counted r) (toBigEndian 2 xs.length ++ xs.flatMap encode) xs := by
  have all : List.Forall₂ (Reads r) (xs.map encode) xs := by
    induction xs with
    | nil => exact .nil
    | cons x xs ih => exact .cons (each x) (ih (Nat.le_of_succ_le fits))
  exact counted all fits

end Reads

end JvmPatch.ClassLayout

/-! ### Pools -/

namespace JvmPatch

/-! The numbers of a pool that is being built. -/

namespace PoolBuilder

/-- The entries are numbered one after the other, from the first number up to the next free one. -/
inductive Numbered : Nat → List (PoolEntry × UInt16) → Nat → Prop
  | nil (n : Nat) : Numbered n [] n
  | cons {n next : Nat} {entry : PoolEntry} {index : UInt16} {slots : List (PoolEntry × UInt16)}
      (number : index.toNat = n) (rest : Numbered (n + entry.width) slots next) :
      Numbered n ((entry, index) :: slots) next

theorem Numbered.concat {n next : Nat} {slots : List (PoolEntry × UInt16)} {entry : PoolEntry}
    {index : UInt16} (numbered : Numbered n slots next) (number : index.toNat = next) :
    Numbered n (slots ++ [(entry, index)]) (next + entry.width) := by
  induction numbered with
  | nil n => exact .cons number (.nil _)
  | cons first _ ih => exact .cons first (ih number)

theorem Numbered.le {n next : Nat} {slots : List (PoolEntry × UInt16)}
    (numbered : Numbered n slots next) : n ≤ next := by
  induction numbered with
  | nil => exact Nat.le_refl _
  | cons _ _ ih => exact Nat.le_trans (Nat.le_add_right _ _) ih

/-- The numbers of a pool start at one, and the last one stays free. -/
structure Valid (b : PoolBuilder) : Prop where
  numbered : Numbered 1 b.slots.toList b.next
  next_lt : b.next < 65535

theorem valid_empty : Valid {} := ⟨.nil 1, by decide⟩

/-- A pool after something has been added to it. -/
structure Grows (b b' : PoolBuilder) : Prop where
  valid : b.Valid → b'.Valid
  slots : b.slots.toList ⊆ b'.slots.toList

theorem Grows.refl (b : PoolBuilder) : b.Grows b := ⟨id, fun _ h => h⟩

theorem Grows.trans {b b' b'' : PoolBuilder} (first : b.Grows b') (second : b'.Grows b'') :
    b.Grows b'' := ⟨second.valid ∘ first.valid, fun _ h => second.slots (first.slots h)⟩

theorem mem_of_find? {b : PoolBuilder} {entry : PoolEntry} {index : UInt16}
    (found : b.find? entry = some index) : (entry, index) ∈ b.slots.toList := by
  obtain ⟨s, first, rfl⟩ := Option.map_eq_some_iff.1 found
  have same : s.1 = entry := by simpa using Array.find?_some first
  rw [← same]
  exact Array.mem_toList_iff.2 (Array.mem_of_find?_eq_some first)

/-- An entry that has been added is there under the number that was given out. -/
theorem add_spec {b b' : PoolBuilder} {entry : PoolEntry} {index : UInt16}
    (added : (add entry).run b = .ok index b') :
    b.Grows b' ∧ (entry, index) ∈ b'.slots.toList := by
  simp only [add, EStateM.run_bind, EStateM.run_get] at added
  cases found : b.find? entry with
  | some known =>
    simp only [found] at added
    cases added
    exact ⟨.refl b, mem_of_find? found⟩
  | none =>
    simp only [found] at added
    split at added
    · rename_i fits
      cases added
      have number (valid : b.Valid) : (UInt16.ofNat b.next).toNat = b.next := by
        have := valid.next_lt
        rw [UInt16.toNat_ofNat', Nat.mod_eq_of_lt (by omega)]
      refine ⟨⟨fun valid => ⟨?_, fits⟩, ?_⟩, by simp⟩
      · rw [Array.toList_push]
        exact valid.numbered.concat (number valid)
      · intro s member
        simp [Array.mem_toList_iff.1 member]
    · cases added

end PoolBuilder

/-- A pool that has been read has every entry that was added under its number, and none under
zero. -/
structure Pool.Holds (p : Pool) (b : PoolBuilder) : Prop where
  zero : p[0]? = some none
  entry : ∀ s ∈ b.slots.toList, p[s.2.toNat]? = some (some s.1)

theorem Pool.Holds.of_grows {p : Pool} {b b' : PoolBuilder} (holds : p.Holds b')
    (grows : b.Grows b') : p.Holds b := ⟨holds.zero, fun s h => holds.entry s (grows.slots h)⟩

/-- A step of the writer that succeeds only adds to the pool, and what it gives is right for every
pool that holds what has been added by then. -/
def Gives {α : Type} (m : EncodeM α) (Q : Pool → α → Prop) : Prop :=
  ∀ b x b', m.run b = .ok x b' → b.Grows b' ∧ ∀ p : Pool, p.Holds b' → Q p x

namespace Gives

variable {α β : Type} {m : EncodeM α} {Q R : Pool → α → Prop}

protected theorem pure {x : α} (right : ∀ p, Q p x) : Gives (pure x) Q := by
  intro b y b' run
  cases run
  exact ⟨.refl b, fun p _ => right p⟩

protected theorem throw (e : EncodeError) : Gives (throw e) Q := by
  intro b x b' run
  cases run

theorem mono (gives : Gives m Q) (weaker : ∀ p x, Q p x → R p x) : Gives m R := by
  intro b x b' run
  obtain ⟨grows, right⟩ := gives b x b' run
  exact ⟨grows, fun p holds => weaker p x (right p holds)⟩

protected theorem bind {next : α → EncodeM β} {S : Pool → β → Prop} (first : Gives m Q)
    (rest : ∀ x, Gives (next x) fun p y => Q p x → S p y) : Gives (m >>= next) S := by
  intro b y b'' run
  obtain ⟨x, b', run₁, run₂⟩ := run_bind_ok run
  obtain ⟨grows₁, right₁⟩ := first b x b' run₁
  obtain ⟨grows₂, right₂⟩ := rest x b' y b'' run₂
  exact ⟨grows₁.trans grows₂, fun p holds => right₂ p holds (right₁ p (holds.of_grows grows₂))⟩

theorem rethrow (gives : Gives m Q) (f : EncodeError → EncodeError) :
    Gives (tryCatch m fun e => throw (f e)) Q := by
  intro b x b' run
  change EStateM.tryCatch m (fun e => throw (f e)) b = _ at run
  unfold EStateM.tryCatch at run
  cases step : m b with
  | ok y t =>
    simp only [step] at run
    cases run
    exact gives b x b' step
  | error e t =>
    simp only [step] at run
    cases run

protected theorem mapM {f : β → EncodeM α} {R : Pool → β → α → Prop} {xs : List β}
    (each : ∀ x ∈ xs, Gives (f x) fun p y => R p x y) :
    Gives (xs.mapM f) fun p ys => List.Forall₂ (R p) xs ys := by
  induction xs with
  | nil => exact .pure fun p => .nil
  | cons x xs ih =>
    rw [List.mapM_cons]
    refine (each x List.mem_cons_self).bind fun y => ?_
    refine (ih fun x h => each x (.tail _ h)).bind fun ys => ?_
    exact .pure fun p rest first => .cons first rest

end Gives

/-! What the numbers lead to. -/

namespace Pool

/-- An entry of a pool that has been read. No entry has the number zero. -/
structure At (p : Pool) (index : UInt16) (entry : PoolEntry) : Prop where
  ne_zero : index ≠ 0
  entry : p[index.toNat]? = some (some entry)

/-- A class of a pool that has been read. -/
structure ClassAt (p : Pool) (index : UInt16) (name : String) : Prop where
  reference : ∃ text, p.At index (.classRef text) ∧ p.At text (.utf8 name)

/-- A name with a descriptor, in a pool that has been read. -/
structure PairAt (p : Pool) (index : UInt16) (name desc : String) : Prop where
  reference : ∃ first second,
    p.At index (.nameAndType first second) ∧ p.At first (.utf8 name) ∧ p.At second (.utf8 desc)

/-- A member of one kind, in a pool that has been read. -/
structure MemberAt (p : Pool) (index : UInt16) (kind : UInt16 → UInt16 → PoolEntry)
    (owner name desc : String) :
    Prop where
  reference : ∃ first second, p.At index (kind first second) ∧ p.ClassAt first owner ∧
    p.PairAt second name desc

variable {p : Pool} {index : UInt16}

theorem entry_of_at {entry : PoolEntry} (at_ : p.At index entry) (role : PoolRole) :
    p.entry role index = .ok (some entry) := by
  simp only [Pool.entry, at_.entry]

theorem utf8_of_at {text : String} (at_ : p.At index (.utf8 text)) : p.utf8 index = .ok text := by
  simp only [utf8, entry_of_at at_]
  rfl

theorem ClassAt.ne_zero {name : String} (at_ : p.ClassAt index name) : index ≠ 0 := by
  obtain ⟨_, reference, _⟩ := at_.reference
  exact reference.ne_zero

theorem className_of_at {name : String} (at_ : p.ClassAt index name) :
    p.className index = .ok name := by
  obtain ⟨text, reference, named⟩ := at_.reference
  simp only [className, entry_of_at reference]
  exact utf8_of_at named

@[simp] theorem within_ok {α : Type} (context : ReadContext) (x : α) :
    within context (.ok x) = .ok x := rfl

theorem nameAndType_of_at {name desc : String} (at_ : p.PairAt index name desc) :
    p.nameAndType index = .ok (name, desc) := by
  obtain ⟨first, second, pair, named, described⟩ := at_.reference
  simp only [nameAndType, entry_of_at pair, utf8_of_at named, utf8_of_at described, ok_bind,
    within_ok]
  rfl

end Pool

namespace PoolBuilder

open Pool

theorem add_gives (entry : PoolEntry) : Gives (add entry) fun p index => p.At index entry := by
  intro b index b' run
  obtain ⟨grows, added⟩ := add_spec run
  refine ⟨grows, fun p holds => ?_⟩
  have found := holds.entry _ added
  refine ⟨?_, found⟩
  rintro rfl
  have := holds.zero.symm.trans found
  cases this

theorem addText_gives (text : String) :
    Gives (addText text) fun p index => p.At index (.utf8 text) := add_gives _

theorem addClass_gives (name : String) :
    Gives (addClass name) fun p index => p.ClassAt index name := by
  refine (addText_gives name).bind fun text => ?_
  exact (add_gives _).mono fun p index reference named => ⟨text, reference, named⟩

theorem addNameAndType_gives (name desc : String) :
    Gives (addNameAndType name desc) fun p index => p.PairAt index name desc := by
  refine (addText_gives name).bind fun nameIndex => ?_
  refine (addText_gives desc).bind fun descIndex => ?_
  exact (add_gives _).mono fun p index pair described named =>
    ⟨nameIndex, descIndex, pair, named, described⟩

theorem addField_at (owner name desc : String) :
    Gives (addField owner name desc) fun p index => p.MemberAt index .fieldRef owner name desc := by
  refine (addClass_gives owner).bind fun ownerIndex => ?_
  refine (addNameAndType_gives name desc).bind fun pairIndex => ?_
  exact (add_gives _).mono fun p index ref pair owned => ⟨ownerIndex, pairIndex, ref, owned, pair⟩

theorem addMethod_at (owner name desc : String) (isInterface : Bool) :
    Gives (addMethod owner name desc isInterface) fun p index =>
      p.MemberAt index (if isInterface then .interfaceMethodRef
        else .methodRef) owner name desc := by
  refine (addClass_gives owner).bind fun ownerIndex => ?_
  refine (addNameAndType_gives name desc).bind fun pairIndex => ?_
  refine (add_gives _).mono fun p index ref pair owned => ⟨ownerIndex, pairIndex, ?_, owned, pair⟩
  cases isInterface <;> exact ref

theorem addField_gives (owner name desc : String) :
    Gives (addField owner name desc) fun p index =>
      p.member index = .ok ⟨owner, name, desc, false⟩ := by
  refine (addField_at owner name desc).mono fun p index at_ => ?_
  obtain ⟨ownerIndex, pairIndex, ref, owned, pair⟩ := at_.reference
  simp only [member, entry_of_at ref, ok_bind, pure_bind, className_of_at owned, within_ok,
    nameAndType_of_at pair]
  rfl

theorem addMethod_gives (owner name desc : String) (isInterface : Bool) :
    Gives (addMethod owner name desc isInterface) fun p index =>
      p.member index = .ok ⟨owner, name, desc, isInterface⟩ := by
  refine (addMethod_at owner name desc isInterface).mono fun p index at_ => ?_
  obtain ⟨ownerIndex, pairIndex, ref, owned, pair⟩ := at_.reference
  cases isInterface <;>
    · simp only [if_true, if_false, Bool.false_eq_true] at ref
      simp only [member, entry_of_at ref, ok_bind, pure_bind, className_of_at owned, within_ok,
        nameAndType_of_at pair]
      rfl

/-- A constant is pushed again as it was, and a field that is not a class holds it again. -/
theorem addConstant_gives (value : Constant) :
    Gives (addConstant value) fun p index => p.pushed index = .ok (.push value) ∧
      ((∀ name, value ≠ .classRef name) → p.constant index = .ok value) := by
  cases value with
  | int v | long v | float v | double v =>
    refine (add_gives _).mono fun p index found => ?_
    constructor
    · simp only [pushed, constant, entry_of_at found]
      rfl
    · intro _
      simp only [constant, entry_of_at found]
      rfl
  | string v =>
    refine (addText_gives v).bind fun text => (add_gives _).mono fun p index found named => ?_
    constructor
    · simp only [pushed, constant, entry_of_at found, ok_bind, utf8_of_at named]
      rfl
    · intro _
      simp only [constant, entry_of_at found, ok_bind, utf8_of_at named]
      rfl
  | classRef name =>
    refine (addClass_gives name).mono fun p index found => ?_
    obtain ⟨text, reference, named⟩ := found.reference
    constructor
    · simp only [pushed, entry_of_at reference, ok_bind, utf8_of_at named]
      rfl
    · intro noClass
      exact absurd rfl (noClass name)

end PoolBuilder

/-! Reading a pool. -/

namespace ClassLayout

theorem Reads.poolEntry {entry : PoolEntry} {content : Bytes}
    (encoded : entry.encode = .ok content) : Reads poolEntry content entry := by
  cases entry with
  | utf8 text =>
    simp only [PoolEntry.encode] at encoded
    split at encoded
    · rename_i fits
      cases encoded
      have count : (UInt16.ofNat (Text.encodeModifiedUtf8 text.toList).length).toNat =
          (Text.encodeModifiedUtf8 text.toList).length := by
        rw [UInt16.toNat_ofNat', Nat.mod_eq_of_lt (by omega)]
      have read := (Reads.bytes_of_length count.symm).map fun text =>
        PoolEntry.utf8 (String.ofList (Text.decodeModifiedUtf8 text))
      rw [Text.decode_encodeModifiedUtf8, String.ofList_toList] at read
      exact (Reads.u8 1).bind ((Reads.u16_toBigEndian _).bind read)
    · cases encoded
  | int v => cases encoded; exact (Reads.u8 _).bind ((Reads.u32 v.toUInt32).map _)
  | float v => cases encoded; exact (Reads.u8 _).bind ((Reads.u32 v).map _)
  | long v => cases encoded; exact (Reads.u8 _).bind ((Reads.u64 v.toUInt64).map _)
  | double v => cases encoded; exact (Reads.u8 _).bind ((Reads.u64 v).map _)
  | classRef n | string n | methodType n | module n | package n =>
    cases encoded
    exact (Reads.u8 _).bind ((Reads.u16 n).map _)
  | fieldRef a b | methodRef a b | interfaceMethodRef a b | nameAndType a b | dynamic a b
  | invokeDynamic a b =>
    cases encoded
    exact (Reads.u8 _).bind ((Reads.u16 a).bind ((Reads.u16 b).map _))
  | methodHandle kind n =>
    cases encoded
    exact (Reads.u8 _).bind ((Reads.u8 kind).bind ((Reads.u16 n).map _))

end ClassLayout

namespace PoolEntry

theorem width_eq (entry : PoolEntry) : entry.width = 1 ∨ entry.width = 2 := by
  cases entry <;> simp [width]

/-- What an entry fills in a pool that is read: a place of its own, and an empty one after a 64-bit
constant. -/
def places (entry : PoolEntry) : List (Option PoolEntry) :=
  some entry :: List.replicate (entry.width - 1) none

theorem length_places (entry : PoolEntry) : entry.places.length = entry.width := by
  rcases entry.width_eq with width | width <;> simp [places, width]

end PoolEntry

namespace PoolBuilder

/-- The pool as which a pool that has been built is read. -/
def readBack (b : PoolBuilder) : Pool :=
  (none :: b.slots.toList.flatMap fun s => s.1.places).toArray

variable {n next : Nat} {slots : List (PoolEntry × UInt16)}

theorem Numbered.length_places (numbered : Numbered n slots next) :
    n + (slots.flatMap fun s => s.1.places).length = next := by
  induction numbered with
  | nil n => simp
  | cons number rest ih =>
    rw [List.flatMap_cons, List.length_append, PoolEntry.length_places, ← ih]
    exact (Nat.add_assoc ..).symm

theorem Numbered.le_of_mem (numbered : Numbered n slots next) {s : PoolEntry × UInt16}
    (member : s ∈ slots) :
    n ≤ s.2.toNat ∧ s.2.toNat < next := by
  induction numbered with
  | nil => cases member
  | @cons n next entry index slots number rest ih =>
    have least := rest.le
    have width : 1 ≤ entry.width := by rcases entry.width_eq with h | h <;> omega
    rcases List.mem_cons.1 member with rfl | later
    · exact ⟨Nat.le_of_eq number.symm, by rw [number]; omega⟩
    · have := ih later
      omega

/-- Each entry is in the place of its number, and nowhere else. -/
theorem Numbered.getElem?_places (numbered : Numbered n slots next) (k : Nat) (entry : PoolEntry) :
    (slots.flatMap fun s => s.1.places)[k]? = some (some entry) ↔ ∃ s ∈ slots, s.1 = entry ∧
      s.2.toNat = n + k := by
  induction numbered generalizing k with
  | nil => simp
  | @cons n next first index slots number rest ih =>
    rw [List.flatMap_cons]
    have width : 1 ≤ first.width := by rcases first.width_eq with h | h <;> omega
    by_cases inside : k < first.width
    · have later : ∀ s ∈ slots, s.2.toNat ≠ n + k := fun s member => by
        have := (rest.le_of_mem member).1
        omega
      rw [List.getElem?_append_left (by rwa [PoolEntry.length_places]), PoolEntry.places]
      cases k with
      | zero =>
        simp only [List.getElem?_cons_zero, Option.some.injEq, Nat.add_zero]
        constructor
        · rintro rfl
          exact ⟨_, .head _, rfl, number⟩
        · rintro ⟨s, member, rfl, same⟩
          rcases List.mem_cons.1 member with rfl | member
          · rfl
          · exact absurd same (later s member)
      | succ k =>
        rw [List.getElem?_cons_succ, List.getElem?_replicate]
        constructor
        · intro found
          split at found <;> cases found
        · rintro ⟨s, member, -, same⟩
          rcases List.mem_cons.1 member with rfl | member
          · exact absurd (number.symm.trans same) (by omega)
          · exact absurd same (later s member)
    · rw [List.getElem?_append_right (by rw [PoolEntry.length_places]; exact Nat.not_lt.1 inside),
        PoolEntry.length_places, ih]
      have shifted : n + first.width + (k - first.width) = n + k := by omega
      rw [shifted]
      constructor
      · rintro ⟨s, member, found⟩
        exact ⟨s, .tail _ member, found⟩
      · rintro ⟨s, member, found, same⟩
        rcases List.mem_cons.1 member with rfl | member
        · exact absurd (number.symm.trans same) (by omega)
        · exact ⟨s, member, found, same⟩

variable {b : PoolBuilder}

theorem Valid.size_readBack (valid : b.Valid) : b.readBack.size = b.next := by
  have := valid.numbered.length_places
  simp only [readBack, List.size_toArray, List.length_cons]
  omega

/-- The pool has what has been added, each entry under its number, and nothing else. -/
theorem Valid.getElem?_readBack (valid : b.Valid) (i : Nat) (entry : PoolEntry) :
    b.readBack[i]? = some (some entry) ↔ ∃ s ∈ b.slots.toList, s.1 = entry ∧ s.2.toNat = i := by
  rw [readBack, List.getElem?_toArray]
  cases i with
  | zero =>
    rw [List.getElem?_cons_zero]
    constructor
    · intro found
      cases found
    · rintro ⟨s, member, -, zero⟩
      have := (valid.numbered.le_of_mem member).1
      omega
  | succ i =>
    rw [List.getElem?_cons_succ, valid.numbered.getElem?_places, Nat.add_comm]

theorem Valid.holds (valid : b.Valid) : b.readBack.Holds b :=
  ⟨by simp [readBack], fun s member => (valid.getElem?_readBack _ _).2 ⟨s, member, rfl, rfl⟩⟩

end PoolBuilder

namespace ClassLayout

theorem Reads.poolEntries_cons {entry : PoolEntry} {content s : Bytes} {left : Nat} {pool p : Pool}
    (first : Reads ClassLayout.poolEntry content entry)
    (rest : Reads (poolEntries left (pool ++ entry.places.toArray)) s p) :
    Reads (poolEntries (left + entry.width) pool) (content ++ s) p := by
  unfold PoolEntry.places at rest
  rcases entry.width_eq with width | width
  · have one : pool ++ (some entry :: List.replicate (entry.width - 1) none).toArray =
        pool.push (some entry) := by
      simp [width]
    rw [one] at rest
    rw [width]
    cases left with
    | zero => exact first.bind rest
    | succ left =>
      refine first.bind ?_
      simp only [width, show ¬(1 = 2) by decide, if_false]
      exact rest
  · have two : pool ++ (some entry :: List.replicate (entry.width - 1) none).toArray =
        (pool.push (some entry)).push none := by
      exact Array.toList_inj.1 (by simp [width])
    rw [two] at rest
    rw [width]
    refine first.bind ?_
    simp only [width, if_true]
    exact rest

theorem Reads.poolEntries {n next : Nat} {slots : List (PoolEntry × UInt16)}
    (numbered : PoolBuilder.Numbered n slots next) {encoded : List Bytes}
    (contents : List.Forall₂ (fun s content => s.1.encode = .ok content) slots encoded)
    (pool : Pool) :
    Reads (poolEntries (next - n) pool) encoded.flatten
      (pool ++ (slots.flatMap fun s => s.1.places).toArray) := by
  induction numbered generalizing encoded pool with
  | nil n =>
    cases contents
    rw [Nat.sub_self]
    exact .pure _
  | @cons n next entry index slots number rest ih =>
    obtain ⟨content, others, first, later, rfl⟩ := List.forall₂_cons_left_iff.1 contents
    have bound := rest.le
    have read := Reads.poolEntries_cons (.poolEntry first) (ih later (pool ++ entry.places.toArray))
    rw [show next - (n + entry.width) + entry.width = next - n by omega] at read
    have whole : pool ++ (((entry, index) :: slots).flatMap fun s => s.1.places).toArray =
        pool ++ entry.places.toArray ++ (slots.flatMap fun s => s.1.places).toArray := by
      simp [List.flatMap_cons]
    rwa [whole]

/-- A pool that has been built is read back. -/
theorem Reads.readBack {b : PoolBuilder} (valid : b.Valid) {content : Bytes}
    (encoded : b.encode = .ok content) :
    Reads ClassLayout.pool content b.readBack := by
  obtain ⟨entries, all, last⟩ := bind_eq_ok encoded
  cases last
  have contents : List.Forall₂ (fun s content => s.1.encode = .ok content) b.slots.toList entries :=
    forall₂_of_mapM_ok all
  have read := Reads.poolEntries valid.numbered contents #[none]
  have least := valid.numbered.le
  have most := valid.next_lt
  refine (Reads.u16_toBigEndian b.next).bind ?_
  obtain ⟨left, next⟩ : ∃ left, b.next = left + 1 := ⟨b.next - 1, by omega⟩
  have count : (UInt16.ofNat b.next).toNat = left + 1 := by
    rw [UInt16.toNat_ofNat', Nat.mod_eq_of_lt (by omega), next]
  simp only [count]
  have whole : b.readBack = #[none] ++ (b.slots.toList.flatMap fun s => s.1.places).toArray := by
    simp [PoolBuilder.readBack]
  rwa [show b.next - 1 = left by omega, ← whole] at read

/-- A pool that has been built is read back with every entry under its number. -/
theorem Reads.pool {b : PoolBuilder} (valid : b.Valid) {content : Bytes}
    (encoded : b.encode = .ok content) : ∃ p, Reads ClassLayout.pool content p ∧ p.Holds b :=
  ⟨b.readBack, .readBack valid encoded, valid.holds⟩

end ClassLayout

end JvmPatch
