import JvmPatch.Pattern.Mnemonic
import JvmPatch.Proofs.Insn.Rendering
import JvmPatch.Proofs.Text.Words

/-! The mnemonics as words of scripts: each is read as the kind that it is written for, and the
instructions of a body have one. -/

set_option autoImplicit false

namespace JvmPatch.PatternKind

/-- A number for a mnemonic, by its bytes. -/
def mnemonicNumber (name : String) : Nat :=
  name.toByteArray.data.toList.foldl (fun n b => n * 256 + b.toNat) 0

theorem mnemonics_distinct : mnemonics.Pairwise fun m n => m.1 ≠ n.1 := by
  have numbers : (mnemonics.map fun m => mnemonicNumber m.1).Pairwise (· ≠ ·) := by decide +kernel
  exact (List.pairwise_map.1 numbers).imp fun different same =>
    different (congrArg mnemonicNumber same)

theorem lookup_of_mem {m : String × PatternKind} (member : m ∈ mnemonics) :
    mnemonics.lookup m.1 = some m.2 := by
  obtain ⟨before, after, split⟩ := List.append_of_mem member
  refine List.lookup_eq_some_iff.2 ⟨before, after, split, fun n earlier => ?_⟩
  have distinct := mnemonics_distinct
  rw [split, List.pairwise_append] at distinct
  exact bne_iff_ne.2 (distinct.2.2 n earlier m (.head _)).symm

/-- A word that is written in the way in which mnemonics are looked up. -/
structure IsMnemonic (name : String) : Prop where
  word : Text.IsWord name.toList
  small : name.toList.map Text.lowerAscii = name.toList
  normal : normalize name.toList = name.toList
  notEnd : name ≠ "end-method"

instance (name : String) : Decidable (IsMnemonic name) :=
  decidable_of_iff (Text.IsWord name.toList ∧ name.toList.map Text.lowerAscii = name.toList ∧
      normalize name.toList = name.toList ∧ name ≠ "end-method")
    ⟨fun all => ⟨all.1, all.2.1, all.2.2.1, all.2.2.2⟩,
      fun m => ⟨m.word, m.small, m.normal, m.notEnd⟩⟩

/-! ### Mnemonics by their bytes -/

/-- The bytes of mnemonics: small letters, digits and the hyphen. -/
def isMnemonicByte (b : UInt8) : Bool := (97 ≤ b && b ≤ 122) || (48 ≤ b && b ≤ 57) || b == 45

theorem utf8EncodeChar_of_small {c : Char} (small : ∀ b ∈ String.utf8EncodeChar c, b.toNat < 128) :
    String.utf8EncodeChar c = [c.val.toUInt8] ∧ c.val.toNat ≤ 127 := by
  have code : c.val.toNat ≤ 127 := by
    by_contra long
    -- the last byte of a longer encoding is too large
    have last : UInt8.ofNat (c.val.toNat % 64 + 128) ∈ String.utf8EncodeChar c := by
      simp only [String.utf8EncodeChar, if_neg long]
      split
      · exact .tail _ (.head _)
      · split
        · exact .tail _ (.tail _ (.head _))
        · exact .tail _ (.tail _ (.tail _ (.head _)))
    have high := small _ last
    rw [UInt8.toNat_ofNat'] at high
    omega
  exact ⟨String.utf8EncodeChar_eq_singleton
    (Char.utf8Size_eq_one_iff.2 (UInt32.le_iff_toNat_le.2 code)), code⟩

/-- A text of such bytes has a character of the same code for each. -/
theorem isMnemonicByte_of_mem {name : String}
    (bytes : name.toByteArray.data.toList.all isMnemonicByte = true) {c : Char}
    (member : c ∈ name.toList) : isMnemonicByte c.val.toUInt8 = true ∧ c.val.toNat ≤ 127 := by
  have each : ∀ b ∈ String.utf8EncodeChar c, isMnemonicByte b = true := by
    rw [← String.utf8Encode_toList, List.utf8Encode, List.data_toByteArray,
      List.all_eq_true] at bytes
    exact fun b inside => bytes b (List.mem_flatMap.2 ⟨c, member, inside⟩)
  have small : ∀ b ∈ String.utf8EncodeChar c, b.toNat < 128 := by
    intro b inside
    have isByte := each b inside
    simp only [isMnemonicByte, Bool.or_eq_true, Bool.and_eq_true, decide_eq_true_eq,
      UInt8.le_iff_toNat_le, beq_iff_eq, ← UInt8.toNat_inj, UInt8.reduceToNat] at isByte
    omega
  obtain ⟨single, code⟩ := utf8EncodeChar_of_small small
  exact ⟨each _ (by simp [single]), code⟩

/-- A mnemonic told by its bytes: those of a literal are evaluated far faster than its
characters. -/
theorem isMnemonic_of_bytes {name : String}
    (bytes : name.toByteArray.data.toList.all isMnemonicByte = true) (nonempty : name ≠ "")
    (notEnd : name ≠ "end-method") : IsMnemonic name := by
  have codes : ∀ c ∈ name.toList,
      (97 ≤ c.toNat ∧ c.toNat ≤ 122) ∨ (48 ≤ c.toNat ∧ c.toNat ≤ 57) ∨ c.toNat = 45 := by
    intro c member
    have ⟨isByte, small⟩ := isMnemonicByte_of_mem bytes member
    have code : c.val.toUInt8.toNat = c.toNat := by
      rw [UInt32.toNat_toUInt8]
      exact Nat.mod_eq_of_lt (Nat.lt_of_le_of_lt small (by decide))
    simp only [isMnemonicByte, Bool.or_eq_true, Bool.and_eq_true, decide_eq_true_eq,
      UInt8.le_iff_toNat_le, beq_iff_eq, ← UInt8.toNat_inj, UInt8.reduceToNat, code] at isByte
    omega
  have notCapital : ∀ c ∈ name.toList, ¬('A' ≤ c ∧ c ≤ 'Z') := by
    rintro c member ⟨above, below⟩
    have code := codes c member
    have : 65 ≤ c.toNat := above
    have : c.toNat ≤ 90 := below
    omega
  have notUnderscore : ∀ c ∈ name.toList, c ≠ '_' := by
    rintro c member rfl
    exact absurd (codes '_' member) (by decide)
  exact {
    word := ⟨fun empty => nonempty (String.toList_eq_nil_iff.1 empty), fun c member => by
      have code := codes c member
      simp only [Text.isBlank, Bool.or_eq_false_iff, Bool.and_eq_false_iff, decide_eq_false_iff_not,
        beq_eq_false_iff_ne]
      omega⟩
    small := (List.map_congr_left fun c member => if_neg (notCapital c member)).trans
      (List.map_id _)
    normal := (List.map_congr_left fun c member =>
      (if_neg (notUnderscore c member)).trans (if_neg (notCapital c member))).trans (List.map_id _)
    notEnd := notEnd }

theorem isMnemonic_of_mem : ∀ m ∈ mnemonics, IsMnemonic m.1 := by
  have all : ∀ m ∈ mnemonics, m.1.toByteArray.data.toList.all isMnemonicByte = true ∧ m.1 ≠ "" ∧
      m.1 ≠ "end-method" := by
    decide +kernel
  exact fun m member => isMnemonic_of_bytes (all m member).1 (all m member).2.1 (all m member).2.2

/-! ### Reading -/

/-- A mnemonic is read as the kind that it is written for. -/
theorem ofName?_of_name? {k : PatternKind} {name : String} (named : k.name? = some name) :
    IsMnemonic name ∧ ofName? name.toList = some k := by
  obtain ⟨m, found, rfl⟩ := Option.map_eq_some_iff.1 named
  have member := List.mem_of_find?_eq_some found
  have same : (m.2 == k) = true :=
    List.find?_some (p := fun m : String × PatternKind => m.2 == k) found
  obtain rfl := beq_iff_eq.1 same
  refine ⟨isMnemonic_of_mem m member, ?_⟩
  rw [ofName?, (isMnemonic_of_mem m member).normal, String.ofList_toList, lookup_of_mem member]

/-- Every kind of pattern that takes a code has a mnemonic for it, if instructions with the code
have the form that the kind is for. -/
structure NamesCode (op : Opcode) : Prop where
  plain : op.isPlain = true → op.isReturn = false → (single op).name?.isSome = true
  localAccess : op.isLocalAccess = true → (var op).name?.isSome = true
  shortJump : op.isShortJump = true → (jump op).name?.isSome = true
  fieldAccess : op.isFieldAccess = true → (field op).name?.isSome = true
  call : op.isCall = true → (invoke op).name?.isSome = true
  classOp : op.isClassOp = true → op ≠ Opcode.anewarray → (type op).name?.isSome = true

instance (op : Opcode) : Decidable (NamesCode op) :=
  decidable_of_iff
    ((op.isPlain = true → op.isReturn = false → (single op).name?.isSome = true) ∧
      (op.isLocalAccess = true → (var op).name?.isSome = true) ∧
      (op.isShortJump = true → (jump op).name?.isSome = true) ∧
      (op.isFieldAccess = true → (field op).name?.isSome = true) ∧
      (op.isCall = true → (invoke op).name?.isSome = true) ∧
      (op.isClassOp = true → op ≠ Opcode.anewarray → (type op).name?.isSome = true))
    ⟨fun ⟨plain, localAccess, shortJump, fieldAccess, call, classOp⟩ =>
        ⟨plain, localAccess, shortJump, fieldAccess, call, classOp⟩,
      fun names => ⟨names.plain, names.localAccess, names.shortJump, names.fieldAccess, names.call,
        names.classOp⟩⟩

theorem namesCode (op : Opcode) : NamesCode op := by
  have all : ∀ n < 256, NamesCode (UInt8.ofNat n) := by decide +kernel
  simpa using all op.toNat op.toNat_lt

end JvmPatch.PatternKind
