import JvmPatch.Descriptor.Parser

/-! A descriptor that has been read is the text that it was read from. -/

set_option autoImplicit false

namespace JvmPatch

theorem splitSemicolon?_eq_some {s name rest : List Char}
    (split : splitSemicolon? s = some (name, rest)) :
    s = name ++ ';' :: rest := by
  induction s generalizing name with
  | nil => cases split
  | cons c s ih =>
    rw [splitSemicolon?] at split
    split at split
    · rename_i isSemicolon
      cases split
      rw [isSemicolon, List.nil_append]
    · obtain ⟨⟨name', rest'⟩, found, same⟩ := Option.map_eq_some_iff.1 split
      cases same
      rw [ih found, List.cons_append]

namespace BaseType

theorem chars_ofLetter? {c : Char} {b : BaseType}
    (isLetter : ofLetter? c = some b) : b.chars = [c] := by
  unfold ofLetter? at isLetter
  repeat' split at isLetter
  all_goals cases isLetter
  all_goals
    rename_i same
    subst same
    rfl

theorem chars_of_readStart {dims : Nat} {s rest : List Char} {b : BaseType}
    (read : readStart dims s = .ok (b, rest)) : s = b.chars ++ rest := by
  cases s with
  | nil => cases read
  | cons c s =>
    rw [readStart] at read
    split at read
    · rename_i isClass
      split at read
      · rename_i name rest' split
        cases read
        rw [isClass, splitSemicolon?_eq_some split, chars, String.toList_ofList]
        simp
      · cases read
    split at read
    · cases read
    split at read
    · rename_i letter
      cases read
      rw [chars_ofLetter? letter, List.singleton_append]
    · cases read

/-- No base type looks like an array. -/
theorem head?_chars_ne (b : BaseType) : b.chars.head? ≠ some '[' := by
  cases b <;> simp [chars]

end BaseType

namespace TypeDesc

theorem chars_of_readStartFrom {dims : Nat} {s rest : List Char} {t : TypeDesc} (few : dims ≤ 255)
    (read : readStartFrom dims s = .ok (t, rest)) :
    List.replicate dims '[' ++ s = t.chars ++ rest := by
  induction s generalizing dims with
  | nil => cases read
  | cons c s ih =>
    unfold readStartFrom at read
    split at read
    · rename_i rest' same
      obtain ⟨rfl, rfl⟩ := List.cons.inj same
      split at read
      · rw [← ih (by omega) read, List.replicate_succ', List.append_assoc]
        rfl
      · cases read
    · split at read
      · rename_i b rest' started
        cases read
        have count : (UInt8.ofNat dims).toNat = dims :=
          UInt8.toNat_ofNat_of_lt' (by change dims < 256; omega)
        rw [chars, count, List.append_assoc, ← BaseType.chars_of_readStart started]
      · cases read

theorem chars_of_readStart {s rest : List Char} {t : TypeDesc}
    (read : readStart s = .ok (t, rest)) :
    s = t.chars ++ rest :=
  chars_of_readStartFrom (Nat.zero_le _) read

theorem chars_of_parseChars {s : List Char} {t : TypeDesc}
    (parsed : parseChars s = .ok t) : t.chars = s := by
  unfold parseChars at parsed
  split at parsed
  · cases parsed
  · rename_i started
    split at parsed
    · rename_i isEnd
      cases parsed
      rw [chars_of_readStart started, List.isEmpty_iff.1 isEnd, List.append_nil]
    · cases parsed

theorem text_of_parse {s : String} {t : TypeDesc} (parsed : parse s = .ok t) : t.text = s := by
  rw [text, chars_of_parseChars parsed, String.ofList_toList]

theorem isArray_iff {t : TypeDesc} : t.isArray = true ↔ t.chars.head? = some '[' := by
  have zero : t.dims.toNat = 0 ↔ t.dims = 0 :=
    ⟨fun none => UInt8.toNat_inj.1 none, fun none => by rw [none]; rfl⟩
  rw [isArray, bne_iff_ne, ne_eq, ← zero, chars]
  cases t.dims.toNat with
  | zero => simpa using t.base.head?_chars_ne
  | succ n => simp [List.replicate_succ]

theorem classOperand_of_parseOperand {s : String} {t : TypeDesc} (parsed : parseOperand s = .ok t) :
    t.classOperand = s := by
  unfold parseOperand at parsed
  split at parsed
  · rename_i rest same
    have isArray : t.isArray = true := by
      rw [isArray_iff, chars_of_parseChars parsed, same]
      rfl
    rw [classOperand, if_pos isArray, text_of_parse parsed]
  · have read := chars_of_parseChars parsed
    have noArray : t.isArray = false := by
      rw [← Bool.not_eq_true, isArray_iff, read]
      simp
    obtain ⟨dims, base⟩ := t
    obtain rfl : dims = 0 := by simpa [isArray] using noArray
    change base.chars = _ at read
    cases base with
    | object name =>
      have same : name.toList = s.toList := List.append_cancel_right (List.cons.inj read).2
      exact String.toList_inj.1 same
    | _ =>
      have noRest := (List.cons.inj read).2
      simp at noRest

end TypeDesc

namespace MethodDesc

theorem chars_of_readParams {n : Nat} {s rest : List Char} {ts : List TypeDesc}
    (read : readParams n s = .ok (ts, rest)) : s = ts.flatMap TypeDesc.chars ++ ')' :: rest := by
  induction n generalizing s ts with
  | zero => cases read
  | succ n ih =>
    cases s with
    | nil => cases read
    | cons c s =>
      rw [readParams] at read
      split at read
      · rename_i isEnd
        cases read
        rw [isEnd]
        rfl
      split at read
      · cases read
      · rename_i t middle started
        split at read
        · cases read
        · rename_i ts' rest' further
          cases read
          rw [TypeDesc.chars_of_readStart started, ih further, List.flatMap_cons, List.append_assoc]

theorem chars_of_readStart {s rest : List Char} {m : MethodDesc}
    (read : readStart s = .ok (m, rest)) :
    s = m.chars ++ rest := by
  unfold readStart at read
  split at read
  · split at read
    · cases read
    · rename_i params middle paramsRead
      split at read
      · cases read
      · rename_i result rest' resultRead
        cases read
        have resultChars : middle = result.chars ++ rest := by
          unfold readResult at resultRead
          split at resultRead
          · cases resultRead
          · exact TypeDesc.chars_of_readStart resultRead
        rw [chars_of_readParams paramsRead, resultChars, chars]
        simp
  · cases read

theorem text_of_parse {s : String} {m : MethodDesc} (parsed : parse s = .ok m) : m.text = s := by
  unfold parse parseChars at parsed
  split at parsed
  · cases parsed
  · rename_i started
    split at parsed
    · cases parsed
    split at parsed
    · rename_i isEnd
      cases parsed
      have read := chars_of_readStart started
      rw [List.isEmpty_iff.1 isEnd, List.append_nil] at read
      rw [text, ← read, String.ofList_toList]
    · cases parsed

end MethodDesc

/-! ### Printed descriptors are read

The name of a class runs up to the first semicolon, so a printed descriptor is read if no name in it
holds one. -/

theorem splitSemicolon?_append {name : List Char} (plain : ';' ∉ name) (rest : List Char) :
    splitSemicolon? (name ++ ';' :: rest) = some (name, rest) := by
  induction name with
  | nil => rfl
  | cons c name ih =>
    have other : c ≠ ';' := fun same => plain (same ▸ .head _)
    rw [List.cons_append, splitSemicolon?, if_neg other, ih fun member => plain (.tail _ member)]
    rfl

theorem not_mem_of_splitSemicolon? {s name rest : List Char}
    (split : splitSemicolon? s = some (name, rest)) :
    ';' ∉ name := by
  induction s generalizing name with
  | nil => cases split
  | cons c s ih =>
    rw [splitSemicolon?] at split
    split at split
    · cases split
      exact List.not_mem_nil
    · rename_i other
      obtain ⟨⟨name', rest'⟩, found, same⟩ := Option.map_eq_some_iff.1 split
      cases same
      rintro (_ | ⟨_, member⟩)
      · exact other rfl
      · exact ih found member

namespace BaseType

/-- The name of the class holds no semicolon. -/
def NoSemicolon : BaseType → Prop
  | .object name => ';' ∉ name.toList
  | _ => True

variable {b : BaseType}

theorem noSemicolon_of_readStart {dims : Nat} {s rest : List Char}
    (read : readStart dims s = .ok (b, rest)) :
    b.NoSemicolon := by
  cases s with
  | nil => cases read
  | cons c s =>
    rw [readStart] at read
    split at read
    · split at read
      · rename_i split
        cases read
        rw [NoSemicolon, String.toList_ofList]
        exact not_mem_of_splitSemicolon? split
      · cases read
    split at read
    · cases read
    split at read
    · rename_i letter
      have chars := chars_ofLetter? ((Prod.mk.inj (Except.ok.inj read)).1 ▸ letter)
      cases b with
      | object name => simp [BaseType.chars] at chars
      | _ => trivial
    · cases read

theorem readStart_append (named : b.NoSemicolon) (dims : Nat) (rest : List Char) :
    readStart dims (b.chars ++ rest) = .ok (b, rest) := by
  cases b with
  | object name =>
    have split := splitSemicolon?_append named rest
    have text : (object name).chars ++ rest = 'L' :: (name.toList ++ ';' :: rest) := by simp [chars]
    rw [text, readStart, if_pos rfl, split]
    simp only [String.ofList_toList]
  | _ => rfl

theorem exists_cons_chars (b : BaseType) : ∃ c s, b.chars = c :: s ∧ c ≠ '[' ∧ c ≠ ')' := by
  cases b with
  | object name => exact ⟨'L', _, rfl, by decide, by decide⟩
  | _ => exact ⟨_, _, rfl, by decide, by decide⟩

end BaseType

namespace TypeDesc

/-- The name of the class in the type holds no semicolon. -/
def NoSemicolon (t : TypeDesc) : Prop := t.base.NoSemicolon

variable {t : TypeDesc}

theorem noSemicolon_of_readStartFrom {dims : Nat} {s rest : List Char}
    (read : readStartFrom dims s = .ok (t, rest)) :
    t.NoSemicolon := by
  induction s generalizing dims with
  | nil => cases read
  | cons c s ih =>
    unfold readStartFrom at read
    split at read
    · rename_i same
      obtain ⟨rfl, rfl⟩ := List.cons.inj same
      split at read
      · exact ih read
      · cases read
    · split at read
      · rename_i started
        cases read
        exact BaseType.noSemicolon_of_readStart started
      · cases read

theorem readStartFrom_append {b : BaseType} (named : b.NoSemicolon) (rest : List Char)
    {dims more : Nat} (few : dims + more ≤ 255) :
    readStartFrom dims (List.replicate more '[' ++ (b.chars ++ rest)) =
      .ok (⟨UInt8.ofNat (dims + more), b⟩, rest) := by
  induction more generalizing dims with
  | zero =>
    have started := BaseType.readStart_append named dims rest
    obtain ⟨c, s, chars, noDimension, -⟩ := b.exists_cons_chars
    rw [chars] at started ⊢
    rw [List.replicate_zero, List.nil_append, List.cons_append, readStartFrom]
    · rw [← List.cons_append, started]
      rfl
    · rintro s' same
      exact noDimension (List.cons.inj same).1
  | succ more ih =>
    rw [List.replicate_succ, List.cons_append, readStartFrom, if_pos (by omega), ih (by omega),
      Nat.add_right_comm, Nat.add_assoc]

/-- A printed type is read, whatever follows it. -/
theorem readStart_append (named : t.NoSemicolon) (rest : List Char) :
    readStart (t.chars ++ rest) = .ok (t, rest) := by
  have few : 0 + t.dims.toNat ≤ 255 := by
    have := t.dims.toNat_lt
    omega
  rw [readStart, chars, List.append_assoc, readStartFrom_append named rest few, Nat.zero_add,
    UInt8.ofNat_toNat]

theorem exists_cons_chars (t : TypeDesc) : ∃ c s, t.chars = c :: s ∧ c ≠ ')' := by
  rw [chars]
  cases t.dims.toNat with
  | zero =>
    obtain ⟨c, s, same, -, other⟩ := t.base.exists_cons_chars
    exact ⟨c, s, same, other⟩
  | succ n => exact ⟨'[', _, rfl, by decide⟩

/-- Exactly the printed types are read. -/
theorem parseChars_eq_ok_iff {s : List Char} : parseChars s = .ok t ↔
    t.NoSemicolon ∧ t.chars = s := by
  constructor
  · intro parsed
    refine ⟨?_, chars_of_parseChars parsed⟩
    unfold parseChars at parsed
    split at parsed
    · cases parsed
    · rename_i started
      split at parsed
      · cases parsed
        exact noSemicolon_of_readStartFrom started
      · cases parsed
  · rintro ⟨named, rfl⟩
    have started := readStart_append named []
    rw [List.append_nil] at started
    simp [parseChars, started]

end TypeDesc

namespace MethodDesc

/-- The names of the classes in the type hold no semicolons. -/
structure NoSemicolon (m : MethodDesc) : Prop where
  params : ∀ t ∈ m.params, t.NoSemicolon
  result : m.result.NoSemicolon

variable {m : MethodDesc}

theorem noSemicolon_of_readParams {n : Nat} {s rest : List Char} {ts : List TypeDesc}
    (read : readParams n s = .ok (ts, rest)) : ∀ t ∈ ts, t.NoSemicolon := by
  induction n generalizing s ts with
  | zero => cases read
  | succ n ih =>
    cases s with
    | nil => cases read
    | cons c s =>
      rw [readParams] at read
      split at read
      · cases read
        exact List.forall_mem_nil _
      split at read
      · cases read
      · rename_i started
        split at read
        · cases read
        · rename_i further
          cases read
          exact List.forall_mem_cons.2 ⟨TypeDesc.noSemicolon_of_readStartFrom started, ih further⟩

theorem noSemicolon_of_readStart {s rest : List Char}
    (read : readStart s = .ok (m, rest)) : m.NoSemicolon := by
  unfold readStart at read
  split at read
  · split at read
    · cases read
    · rename_i paramsRead
      split at read
      · cases read
      · rename_i resultRead
        cases read
        refine ⟨noSemicolon_of_readParams paramsRead, ?_⟩
        unfold readResult at resultRead
        split at resultRead
        · cases resultRead
        · exact TypeDesc.noSemicolon_of_readStartFrom resultRead
  · cases read

theorem readParams_append {ts : List TypeDesc} (named : ∀ t ∈ ts, t.NoSemicolon)
    (rest : List Char) {n : Nat} (enough : ts.length < n) :
    readParams n (ts.flatMap TypeDesc.chars ++ ')' :: rest) = .ok (ts, rest) := by
  induction ts generalizing n with
  | nil =>
    obtain ⟨n, rfl⟩ := Nat.exists_eq_add_one_of_ne_zero (Nat.ne_of_gt enough)
    rw [List.flatMap_nil, List.nil_append, readParams, if_pos rfl]
  | cons t ts ih =>
    obtain ⟨n, rfl⟩ :=
      Nat.exists_eq_add_one_of_ne_zero (Nat.ne_of_gt (Nat.lt_of_le_of_lt (Nat.zero_le _) enough))
    have started := TypeDesc.readStart_append (named t (.head _))
      (ts.flatMap TypeDesc.chars ++ ')' :: rest)
    have further := ih (fun u member => named u (.tail _ member)) (Nat.lt_of_succ_lt_succ enough)
    obtain ⟨c, s, chars, notClosing⟩ := t.exists_cons_chars
    rw [chars, List.cons_append] at started
    rw [List.flatMap_cons, chars, List.append_assoc, List.cons_append, readParams,
      if_neg notClosing, started]
    simp only [further]

theorem length_le_flatMap_chars (ts : List TypeDesc) :
    ts.length ≤ (ts.flatMap TypeDesc.chars).length := by
  induction ts with
  | nil => exact Nat.le_refl _
  | cons t ts ih =>
    obtain ⟨c, s, chars, -⟩ := t.exists_cons_chars
    rw [List.flatMap_cons, List.length_append, chars, List.length_cons, List.length_cons]
    omega

/-- A printed method type is read, whatever follows it. -/
theorem readStart_append (named : m.NoSemicolon) (rest : List Char) :
    readStart (m.chars ++ rest) = .ok (m, rest) := by
  have text : m.chars ++ rest =
      '(' :: (m.params.flatMap TypeDesc.chars ++ ')' :: (m.result.chars ++ rest)) := by simp [chars]
  have count := length_le_flatMap_chars m.params
  have result := TypeDesc.readStart_append named.result rest
  obtain ⟨c, s, resultChars, notClosing⟩ := m.result.exists_cons_chars
  have resultRead : readResult (m.result.chars ++ rest) = .ok (m.result, rest) := by
    rw [resultChars] at result ⊢
    rw [List.cons_append, readResult]
    · rwa [← List.cons_append]
    · rintro s' same
      exact notClosing (List.cons.inj same).1
  rw [text, readStart,
    readParams_append named.params _ (by rw [List.length_append, List.length_cons]; omega)]
  simp only [resultRead]

/-- Exactly the printed method types without a void parameter are read. -/
theorem parseChars_eq_ok_iff {s : List Char} :
    parseChars s = .ok m ↔ m.NoSemicolon ∧ TypeDesc.void ∉ m.params ∧ m.chars = s := by
  constructor
  · intro parsed
    unfold parseChars at parsed
    split at parsed
    · cases parsed
    rename_i started
    split at parsed
    · cases parsed
    rename_i noVoid
    split at parsed
    · rename_i isEnd
      cases parsed
      have chars := chars_of_readStart started
      rw [List.isEmpty_iff.1 isEnd, List.append_nil] at chars
      exact ⟨noSemicolon_of_readStart started, by simpa using noVoid, chars.symm⟩
    · cases parsed
  · rintro ⟨named, noVoid, rfl⟩
    have started := readStart_append named []
    rw [List.append_nil] at started
    simp [parseChars, started, noVoid]

end MethodDesc

/-- What is left of a text after some start of it is empty if the start is as long as the text. -/
theorem eq_nil_iff_utf8ByteSize_eq (start rest : List Char) :
    rest = [] ↔ (String.ofList start).utf8ByteSize =
      (String.ofList (start ++ rest)).utf8ByteSize := by
  rw [String.ofList_append, String.utf8ByteSize_append, Nat.left_eq_add,
    String.utf8ByteSize_eq_zero_iff, String.ofList_eq_empty_iff]

/-- A text is read as a type if and only if it is the printed form of the type, and as a method type
if and only if it is the printed form of the method type and no parameter is void. A reader takes up
a start of the text, and nothing is left over if and only if the printed form of what has been read
is as long as the text. -/
theorem parse_eq_ok_iff_text :
    (∀ (s : String) (t : TypeDesc), TypeDesc.parse s = .ok t ↔ t.NoSemicolon ∧ t.text = s) ∧
      (∀ (s : String) (m : MethodDesc),
        MethodDesc.parse s = .ok m ↔ m.NoSemicolon ∧ TypeDesc.void ∉ m.params ∧ m.text = s) ∧
      (∀ (s rest : List Char) (t : TypeDesc), TypeDesc.readStart s = .ok (t, rest) →
        (rest = [] ↔ t.text.utf8ByteSize = (String.ofList s).utf8ByteSize)) ∧
      ∀ (s rest : List Char) (m : MethodDesc), MethodDesc.readStart s = .ok (m, rest) →
        (rest = [] ↔ m.text.utf8ByteSize = (String.ofList s).utf8ByteSize) := by
  have same (s : String) (chars : List Char) : String.ofList chars = s ↔ chars = s.toList := by
    rw [← String.toList_inj, String.toList_ofList]
  refine ⟨fun s t => ?_, fun s m => ?_, fun s rest t read => ?_, fun s rest m read => ?_⟩
  · rw [TypeDesc.parse, TypeDesc.parseChars_eq_ok_iff, TypeDesc.text, same]
  · rw [MethodDesc.parse, MethodDesc.parseChars_eq_ok_iff, MethodDesc.text, same]
  · rw [TypeDesc.chars_of_readStart read, TypeDesc.text]
    exact eq_nil_iff_utf8ByteSize_eq _ _
  · rw [MethodDesc.chars_of_readStart read, MethodDesc.text]
    exact eq_nil_iff_utf8ByteSize_eq _ _

/-- A name outside ASCII takes more bytes than characters, and counts the same on both sides. -/
theorem parse_eq_ok_iff_text_outsideAscii :
    TypeDesc.readStart "[La/é;I".toList = .ok (⟨1, .object "a/é"⟩, ['I']) ∧
      (⟨1, .object "a/é"⟩ : TypeDesc).text.utf8ByteSize ≠
        (String.ofList "[La/é;I".toList).utf8ByteSize ∧
      TypeDesc.parse "[La/é;" = .ok ⟨1, .object "a/é"⟩ := by
  have read : TypeDesc.readStart "[La/é;I".toList = .ok (⟨1, .object "a/é"⟩, ['I']) := by rfl
  have named : (⟨1, .object "a/é"⟩ : TypeDesc).NoSemicolon := by
    change ';' ∉ "a/é".toList
    decide
  obtain ⟨types, -, prefixes, -⟩ := parse_eq_ok_iff_text
  exact ⟨read, fun same => absurd ((prefixes _ _ _ read).2 same) (List.cons_ne_nil _ _),
    (types _ _).2 ⟨named, rfl⟩⟩

end JvmPatch
