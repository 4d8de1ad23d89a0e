import JvmPatch.Listing.Class
import JvmPatch.Pattern.Basic
import JvmPatch.Proofs.Scope.Under
import Mathlib.Data.Finset.Card
import Mathlib.Data.Nat.Digits.Defs

/-! The names of labels in a listing, and scopes in which the names of labels have these meanings.
Exactly the labels are named that a body refers to, by their numbers in the order of first use, and
the names are numerals to the base 26. What a listing would show for a label without a name is never
shown. -/

set_option autoImplicit false

namespace JvmPatch

/-! ### Names of labels -/

theorem toNat_letterDigit {n : Nat} (small : n < 26) : (letterDigit n).toNat = 65 + n := by
  have valid : (65 + n).isValidChar := .inl (by omega)
  change (Char.ofNat (65 + n)).toNat = 65 + n
  rw [Char.ofNat, dif_pos valid]
  rfl

def lettersValue (s : List Char) : Nat := s.foldl (fun n c => n * 26 + (c.toNat - 65)) 0

theorem lettersValue_letters (n : Nat) : lettersValue (letters n) = n := by
  induction n using letters.induct with
  | case1 n small =>
    rw [letters, if_pos small]
    simp [lettersValue, toNat_letterDigit small]
  | case2 n large ih =>
    have digit := toNat_letterDigit (Nat.mod_lt n (by decide : 0 < 26))
    rw [lettersValue] at ih
    rw [letters, if_neg large, lettersValue, List.foldl_append, ih]
    simp only [List.foldl_cons, List.foldl_nil, digit]
    omega

theorem mem_letters {n : Nat} {c : Char} (member : c ∈ letters n) :
    ∃ d < 26, c = letterDigit d := by
  induction n using letters.induct with
  | case1 n small =>
    rw [letters, if_pos small] at member
    exact ⟨n, small, List.mem_singleton.1 member⟩
  | case2 n large ih =>
    rw [letters, if_neg large] at member
    rcases List.mem_append.1 member with front | last
    · exact ih front
    · exact ⟨n % 26, Nat.mod_lt n (by decide), List.mem_singleton.1 last⟩

namespace LabelNames

theorem nameAt_injective {i j : Nat} (same : nameAt i = nameAt j) : i = j := by
  have texts := congrArg String.toList same
  rw [nameAt, nameAt, String.toList_append, String.toList_append, List.append_cancel_left_eq,
    String.toList_ofList, String.toList_ofList] at texts
  rw [← lettersValue_letters i, texts, lettersValue_letters]

/-- Labels of different places have different names. -/
theorem name?_injective {names : LabelNames} {l m : Label} {name : String}
    (left : names.name? l = some name) (right : names.name? m = some name) : l = m := by
  obtain ⟨i, atI, rfl⟩ := Option.map_eq_some_iff.1 left
  obtain ⟨j, atJ, same⟩ := Option.map_eq_some_iff.1 right
  obtain rfl := nameAt_injective same
  obtain ⟨boundI, isL, -⟩ := List.findIdx?_eq_some_iff_getElem.1 atI
  obtain ⟨boundJ, isM, -⟩ := List.findIdx?_eq_some_iff_getElem.1 atJ
  exact (beq_iff_eq.1 isL).symm.trans (beq_iff_eq.1 isM)

theorem exists_name? {names : LabelNames} {l : Label} (listed : l ∈ names.labels) :
    ∃ name, names.name? l = some name := by
  cases found : names.labels.idxOf? l with
  | none => exact absurd listed (List.idxOf?_eq_none_iff.1 found)
  | some i => exact ⟨nameAt i, by rw [name?, found]; rfl⟩

theorem mem_of_name? {names : LabelNames} {l : Label} {name : String}
    (named : names.name? l = some name) : l ∈ names.labels := by
  obtain ⟨i, found, -⟩ := Option.map_eq_some_iff.1 named
  by_contra unlisted
  rw [List.idxOf?_eq_none_iff.2 unlisted] at found
  cases found

/-- A body has names for the labels that it uses. -/
theorem mem_ofCode (code : Code) (l : Label) : l ∈ (ofCode code).labels ↔ l ∈ code.usedLabels := by
  simp only [ofCode, List.mem_eraseDups, List.mem_append, List.mem_flatMap, Code.usedLabels]
  constructor
  · rintro (region | ⟨insn, member, mentioned⟩)
    · exact .inr region
    · unfold LabelNames.mentioned at mentioned
      split at mentioned
      · split at mentioned
        · rename_i used
          rw [List.mem_singleton.1 mentioned]
          have uses := List.contains_iff_mem.1 used
          rwa [List.mem_append, List.mem_flatMap, List.mem_flatMap] at uses
        · cases mentioned
      · exact .inl ⟨insn, member, mentioned⟩
  · rintro (⟨insn, member, target⟩ | region)
    · refine .inr ⟨insn, member, ?_⟩
      cases insn <;> first | exact target | cases target
    · exact .inl region

end LabelNames

/-! ### Numerals -/

/-- The digits to the base 26. -/
def capitals : List Char := "ABCDEFGHIJKLMNOPQRSTUVWXYZ".toList

/-- The numeral to the base 26, with a single digit for zero. -/
def capitalNumeral (n : Nat) : List Char :=
  let digits := if n = 0 then [0] else (Nat.digits 26 n).reverse
  digits.map fun d => capitals.getD d ' '

theorem letterDigit_eq_capital : ∀ n < 26, letterDigit n = capitals.getD n ' ' := by decide

theorem letters_eq_capitalNumeral (n : Nat) : letters n = capitalNumeral n := by
  induction n using letters.induct with
  | case1 n small =>
    rw [letters, if_pos small, letterDigit_eq_capital n small, capitalNumeral]
    by_cases zero : n = 0
    · simp [zero]
    · simp [zero, Nat.digits_of_lt 26 n zero small]
  | case2 n large ih =>
    have positive : 0 < n := by omega
    have front : n / 26 ≠ 0 := by omega
    have digits : Nat.digits 26 n = n % 26 :: Nat.digits 26 (n / 26) :=
      Nat.digits_def' (by decide) positive
    rw [letters, if_neg large, letterDigit_eq_capital _ (Nat.mod_lt n (by decide)), ih]
    simp [capitalNumeral, front, positive.ne', digits]

/-! ### Counting first occurrences -/

section Occurrences

variable {α : Type} [DecidableEq α]

theorem nodup_eraseDups (xs : List α) : xs.eraseDups.Nodup := by
  cases xs with
  | nil => exact List.nodup_nil
  | cons x xs =>
    rw [List.eraseDups_cons, List.nodup_cons]
    exact ⟨by simp, nodup_eraseDups _⟩
termination_by xs.length
decreasing_by exact Nat.lt_succ_of_le (List.length_filter_le _ _)

theorem length_eraseDups (xs : List α) : xs.eraseDups.length = xs.toFinset.card := by
  have same : xs.eraseDups.toFinset = xs.toFinset := by
    ext x
    simp
  rw [← List.toFinset_card_of_nodup (nodup_eraseDups xs), same]

/-- The place of an element in a list without its repetitions is the number of elements that come up
before it. -/
theorem idxOf?_eraseDups {x : α} {xs : List α} (member : x ∈ xs) :
    xs.eraseDups.idxOf? x = some (xs.takeWhile (· != x)).toFinset.card := by
  obtain ⟨front, rest, rfl, earlier⟩ := List.eq_append_cons_of_mem member
  have different : ∀ y ∈ front, (y != x) = true := by
    intro y inside
    rw [bne_iff_ne]
    rintro rfl
    exact earlier inside
  have before : (front ++ x :: rest).takeWhile (· != x) = front := by
    rw [List.takeWhile_append_of_pos different, List.takeWhile_cons_of_neg (by simp),
      List.append_nil]
  have kept : ((x :: rest).removeAll front).eraseDups.idxOf? x = some 0 := by
    rw [List.cons_removeAll, if_pos (by simpa using earlier), List.eraseDups_cons, List.idxOf?_cons,
      if_pos (by simp)]
  have absent : front.eraseDups.idxOf? x = none := List.idxOf?_eq_none_iff.2 fun inside =>
    earlier (List.mem_eraseDups.1 inside)
  rw [List.idxOf?] at kept absent
  rw [List.eraseDups_append, before, List.idxOf?, List.findIdx?_append, absent, kept,
    length_eraseDups, Option.none_or, Option.map_some, Nat.zero_add]

end Occurrences

/-! ### Labels of a body -/

namespace Insn

/-- An instruction refers to a label: it can branch there. -/
inductive RefersTo : Insn → Label → Prop
  | jump (op : Opcode) (l : Label) : RefersTo (.jump op l) l
  | tableDefault (low high : Int32) (l : Label) (targets : List Label) :
      RefersTo (.tableSwitch low high l targets) l
  | tableTarget (low high : Int32) (default : Label) {targets : List Label} {l : Label} :
      l ∈ targets → RefersTo (.tableSwitch low high default targets) l
  | lookupDefault (l : Label) (pairs : List (Int32 × Label)) : RefersTo (.lookupSwitch l pairs) l
  | lookupTarget (default : Label) {pairs : List (Int32 × Label)} {key : Int32} {l : Label} :
      (key, l) ∈ pairs → RefersTo (.lookupSwitch default pairs) l

theorem mem_branchTargets {insn : Insn} {l : Label} : l ∈ insn.branchTargets ↔ insn.RefersTo l := by
  constructor
  · intro member
    cases insn with
    | jump op target =>
      obtain rfl := List.mem_singleton.1 member
      exact .jump op l
    | tableSwitch low high default targets =>
      rcases List.mem_cons.1 member with rfl | target
      · exact .tableDefault low high l targets
      · exact .tableTarget low high default target
    | lookupSwitch default pairs =>
      rcases List.mem_cons.1 member with rfl | target
      · exact .lookupDefault l pairs
      · obtain ⟨⟨key, other⟩, listed, rfl⟩ := List.mem_map.1 target
        exact .lookupTarget default listed
    | _ => cases member
  · intro refers
    cases refers with
    | jump => exact List.mem_singleton_self l
    | tableDefault => exact .head _
    | tableTarget _ _ _ listed => exact .tail _ listed
    | lookupDefault => exact .head _
    | lookupTarget _ listed => exact .tail _ (List.mem_map.2 ⟨_, listed, rfl⟩)

theorem mentioned_eq_filter {used : List Label} {insn : Insn}
    (uses : ∀ l ∈ insn.branchTargets, l ∈ used) :
    LabelNames.mentioned used insn =
      (insn.placed?.toList ++ insn.branchTargets).filter (used.contains ·) := by
  cases insn with
  | label l => exact (Bool.cond_eq_ite _ _ _).symm.trans (List.filter_singleton ..).symm
  | _ => exact (List.filter_eq_self.2 fun l member => List.contains_iff_mem.2 (uses l member)).symm

end Insn

namespace Code

/-- A body refers to a label, in an exception region or by a branch. -/
def RefersTo (code : Code) (l : Label) : Prop :=
  (∃ r ∈ code.regions, l = r.start ∨ l = r.stop ∨ l = r.handler) ∨
    ∃ insn ∈ code.insns, insn.RefersTo l

theorem mem_usedLabels {code : Code} {l : Label} : l ∈ code.usedLabels ↔ code.RefersTo l := by
  simp only [usedLabels, List.mem_append, List.mem_flatMap, Insn.mem_branchTargets, RefersTo,
    Region.labels, List.mem_cons, List.not_mem_nil, or_false]
  exact or_comm

instance (code : Code) : DecidablePred code.RefersTo := fun _ => decidable_of_iff _ mem_usedLabels

/-- The labels of a body in the order in which a listing can show them: first those of the regions,
then those that instructions place or branch to. -/
def labelOrder (code : Code) : List Label :=
  code.regions.flatMap Region.labels ++ code.insns.flatMap fun insn =>
    insn.placed?.toList ++ insn.branchTargets

/-- The number of a label is how many of the labels that the body refers to come up before it. -/
def labelNumber (code : Code) (l : Label) : Nat :=
  ((code.labelOrder.takeWhile (· != l)).toFinset.filter code.RefersTo).card

/-- Labels that nothing refers to do not count. -/
theorem card_takeWhile_filter {code : Code} {l : Label} (refers : code.RefersTo l) :
    ((code.labelOrder.filter (code.usedLabels.contains ·)).takeWhile (· != l)).toFinset.card =
      code.labelNumber l := by
  have stops : (fun m => !code.usedLabels.contains m || m != l) = fun m => m != l := by
    funext m
    by_cases same : m = l
    · rw [same, List.contains_iff_mem.2 (mem_usedLabels.2 refers)]
      rfl
    · rw [bne_iff_ne.2 same, Bool.or_true]
  rw [List.takeWhile_filter, stops, List.toFinset_filter, labelNumber]
  refine congrArg Finset.card (Finset.filter_congr fun m _ => ?_)
  rw [List.contains_iff_mem, mem_usedLabels]

end Code

namespace LabelNames

variable (code : Code)

theorem labels_ofCode :
    (ofCode code).labels = (code.labelOrder.filter (code.usedLabels.contains ·)).eraseDups := by
  have regions : (code.regions.flatMap Region.labels).filter (code.usedLabels.contains ·) =
      code.regions.flatMap Region.labels := by
    refine List.filter_eq_self.2 fun l member => List.contains_iff_mem.2 ?_
    exact List.mem_append_right _ member
  have insns : (code.insns.flatMap fun insn => insn.placed?.toList ++ insn.branchTargets).filter
      (code.usedLabels.contains ·) = code.insns.flatMap (mentioned code.usedLabels) := by
    rw [List.filter_flatMap]
    refine congrArg List.flatten (List.map_congr_left fun insn member => ?_)
    refine (Insn.mentioned_eq_filter fun l target => ?_).symm
    exact List.mem_append_left _ (List.mem_flatMap_of_mem member target)
  rw [ofCode, Code.labelOrder, List.filter_append, regions, insns]

/-- The name of a label that a body refers to is the numeral of its number. -/
theorem name?_ofCode_of_refersTo {l : Label} (refers : code.RefersTo l) :
    (ofCode code).name? l =
      some ("label-" ++ String.ofList (capitalNumeral (code.labelNumber l))) := by
  have shown : l ∈ code.labelOrder.filter (code.usedLabels.contains ·) := by
    have member := (mem_ofCode code l).2 (Code.mem_usedLabels.2 refers)
    rwa [labels_ofCode, List.mem_eraseDups] at member
  rw [name?, labels_ofCode, idxOf?_eraseDups shown, Code.card_takeWhile_filter refers,
    Option.map_some, nameAt, letters_eq_capitalNumeral]

theorem isSome_name?_ofCode (l : Label) : ((ofCode code).name? l).isSome = true ↔
    code.RefersTo l := by
  rw [← Code.mem_usedLabels, ← mem_ofCode, Option.isSome_iff_exists]
  exact ⟨fun ⟨_, named⟩ => mem_of_name? named, exists_name?⟩

end LabelNames

/-! ### The text for labels without a name -/

/-- What a listing shows for an instruction, with a text for each label that is an operand. -/
def ListedInsn.ofInsnWith (operand : Label → String) (names : LabelNames) : Insn → Option ListedInsn
  | .jump op target => ofKind (.jump op) [operand target]
  | .tableSwitch low high default targets =>
    some
      { line := " ".intercalate ["switch-table", intText low, intText high, operand default]
        lines := targets.map operand
        closing := some "switch-table" }
  | .lookupSwitch default pairs =>
    some
      { line := "switch-lookup " ++ operand default
        lines := pairs.map fun p => intText p.1 ++ ":" ++ operand p.2
        closing := some "switch-lookup" }
  | insn => ofInsn names insn

/-- The line for an exception region, with a text for each label. -/
def Region.listedWith (operand : Label → String) (r : Region) : String :=
  " ".intercalate ["try-catch", operand r.start, operand r.stop, operand r.handler,
    r.catchType.getD "null"]

/-- The lines for a method body, with a text for each label that is an operand. -/
def Code.listedWith (operand : Label → String) (code : Code) : String :=
  String.join (code.regions.map fun r => indented 2 ("." ++ r.listedWith operand)) ++
    String.join ((code.insns.filterMap (ListedInsn.ofInsnWith operand (.ofCode code))).map
      ListedInsn.text)

theorem ListedInsn.ofInsnWith_eq {operand : Label → String} {names : LabelNames} {insn : Insn}
    (same : ∀ l, insn.RefersTo l → operand l = names.operand l) :
    ofInsnWith operand names insn = ofInsn names insn := by
  cases insn with
  | jump op target => rw [ofInsnWith, ofInsn, same target (.jump op target)]
  | tableSwitch low high default targets =>
    have texts : targets.map operand = targets.map names.operand :=
      List.map_congr_left fun l member => same l (.tableTarget low high default member)
    rw [ofInsnWith, ofInsn, same default (.tableDefault low high default targets), texts]
  | lookupSwitch default pairs =>
    have texts : (pairs.map fun p => intText p.1 ++ ":" ++ operand p.2) =
        pairs.map fun p => intText p.1 ++ ":" ++ names.operand p.2 :=
      List.map_congr_left fun p member => by rw [same p.2 (.lookupTarget default member)]
    rw [ofInsnWith, ofInsn, same default (.lookupDefault default pairs), texts]
  | _ => rfl

/-- The listing of a body depends only on the texts of the labels that the body refers to. -/
theorem Code.listedWith_eq {code : Code} {operand : Label → String}
    (same : ∀ l, code.RefersTo l → operand l = (LabelNames.ofCode code).operand l) :
    code.listedWith operand = code.listed := by
  have regions : (code.regions.map fun r => indented 2 ("." ++ r.listedWith operand)) =
      code.regions.map fun r => indented 2 ("." ++ r.listed (.ofCode code)) := by
    refine List.map_congr_left fun r member => ?_
    have labels (l : Label) (own : l = r.start ∨ l = r.stop ∨ l = r.handler) :=
      same l (.inl ⟨r, member, own⟩)
    rw [Region.listedWith, Region.listed, labels r.start (.inl rfl),
      labels r.stop (.inr (.inl rfl)), labels r.handler (.inr (.inr rfl))]
  have insns : code.insns.filterMap (ListedInsn.ofInsnWith operand (.ofCode code)) =
      code.insns.filterMap (ListedInsn.ofInsn (.ofCode code)) :=
    List.filterMap_congr fun insn member => ListedInsn.ofInsnWith_eq fun l target =>
      same l (.inr ⟨insn, member, target⟩)
  rw [listedWith, listed, regions, insns]

/-! ### The names in a listing -/

/-- The names of the labels in the listing of a body. Exactly the labels that the body refers to are
named, different labels by different names, and each by the numeral of its number in the order of
first use. So it makes no difference what would stand for a label without a name. -/
theorem LabelNames.ofCode_names (code : Code) :
    let names := LabelNames.ofCode code
    (∀ l, (names.name? l).isSome = true ↔ code.RefersTo l) ∧
      (∀ l m name, names.name? l = some name → names.name? m = some name → l = m) ∧
      (∀ l, code.RefersTo l →
        names.name? l = some ("label-" ++ String.ofList (capitalNumeral (code.labelNumber l)))) ∧
      (∀ l, code.RefersTo l →
        names.operand l = "~label-" ++ String.ofList (capitalNumeral (code.labelNumber l))) ∧
      ∀ unnamed : Label → String,
        code.listedWith (fun l => "~" ++ (names.name? l).getD (unnamed l)) = code.listed := by
  intro names
  have named {l : Label} (refers : code.RefersTo l) := name?_ofCode_of_refersTo code refers
  refine ⟨isSome_name?_ofCode code, fun l m name => name?_injective, fun l refers => named refers,
    fun l refers => ?_, fun unnamed => Code.listedWith_eq fun l refers => ?_⟩
  · rw [operand, named refers, Option.getD_some, ← String.append_assoc]
    rfl
  · rw [operand, named refers, Option.getD_some, Option.getD_some]

/-- A body with a region, a label that nothing refers to, and a switch with more targets than there
are letters. -/
def manyLabels : Code :=
  { insns := [.label ⟨9⟩, .label ⟨7⟩, .simple Opcode.nop, .label ⟨4⟩,
      .tableSwitch 0 27 ⟨7⟩ ((List.range 28).map fun i => ⟨i + 20⟩)]
    regions := [⟨⟨7⟩, ⟨4⟩, ⟨7⟩, none⟩] }

theorem LabelNames.ofCode_names_manyLabels :
    manyLabels.RefersTo ⟨44⟩ ∧ ¬manyLabels.RefersTo ⟨9⟩ ∧
      (LabelNames.ofCode manyLabels).name? ⟨44⟩ = some "label-BA" ∧
      (LabelNames.ofCode manyLabels).name? ⟨9⟩ = none := by
  have refers : manyLabels.RefersTo ⟨44⟩ := by decide
  have unused : ¬manyLabels.RefersTo ⟨9⟩ := by decide
  obtain ⟨some_iff, -, named, -, -⟩ := LabelNames.ofCode_names manyLabels
  have number : manyLabels.labelNumber ⟨44⟩ = 26 := by decide +kernel
  have numeral : capitalNumeral 26 = ['B', 'A'] := by decide +kernel
  refine ⟨refers, unused, ?_,
    Option.not_isSome_iff_eq_none.1 fun present => unused ((some_iff _).1 present)⟩
  rw [named _ refers, number, numeral]
  rfl

/-! ### Scopes -/

namespace Scope

variable {names : LabelNames} {body : MethodId} {scope later latest : Scope}

/-- The names of labels in a body have the meanings that they have in a listing. -/
def FollowsNames (names : LabelNames) (body : MethodId) (scope : Scope) : Prop :=
  ∀ e ∈ scope.labels.entries, e.1.body = body → names.name? e.2 = some e.1.name

def HasLabel (body : MethodId) (l : Label) (scope : Scope) : Prop :=
  ∃ e ∈ scope.labels.entries, e.1.body = body ∧ e.2 = l

/-- Nothing but labels of a body has been bound. -/
structure BindsLabels (body : MethodId) (scope later : Scope) : Prop where
  same : later = { scope with labels := later.labels }
  keeps : ∀ l, scope.HasLabel body l → later.HasLabel body l
  others : ∀ e ∈ later.labels.entries, e.1.body ≠ body → e ∈ scope.labels.entries

theorem BindsLabels.refl (body : MethodId) (scope : Scope) : BindsLabels body scope scope :=
  ⟨rfl, fun _ h => h, fun _ h _ => h⟩

theorem BindsLabels.trans (first : BindsLabels body scope later)
    (second : BindsLabels body later latest) :
    BindsLabels body scope latest where
  same := by
    rw [second.same, first.same]
  keeps l has := second.keeps l (first.keeps l has)
  others e member different := first.others e (second.others e member different) different

/-- A label can be bound to the name that it has in a listing. -/
theorem bindLabel?_of_name? {name : String} {l : Label} (named : names.name? l = some name)
    (follows : scope.FollowsNames names body) :
    ∃ later, scope.bindLabel? body name l = some later ∧ later.FollowsNames names body ∧
      BindsLabels body scope later ∧ later.HasLabel body l := by
  unfold bindLabel?
  cases bound : scope.label? body name with
  | some m =>
    have isEntry := Table.mem_entries_of_get? bound
    obtain rfl : m = l := LabelNames.name?_injective (follows _ isEntry rfl) named
    exact ⟨scope, if_pos rfl, follows, .refl body scope, _, isEntry, rfl, rfl⟩
  | none =>
    have unbound := Table.ne_of_get?_eq_none bound
    have free : (scope.labels.entries.any fun e => e.1.body == body && e.2 == l) = false := by
      rw [List.any_eq_false]
      rintro ⟨⟨b, n⟩, m⟩ member taken
      obtain ⟨rfl, rfl⟩ : b = body ∧ m = l := by simpa using taken
      obtain rfl := Option.some.inj ((follows _ member rfl).symm.trans named)
      exact unbound _ member rfl
    refine ⟨_, if_neg (by rw [free]; exact Bool.false_ne_true), fun e member inBody => ?_,
      ⟨rfl, ?_, fun e member different => ?_⟩, (⟨body, name⟩, l),
      Table.mem_insertEntry_self _ _ _, rfl, rfl⟩
    · rcases Table.mem_insertEntry member with rfl | earlier
      · exact named
      · exact follows e earlier inBody
    · rintro m ⟨e, member, inBody, isLabel⟩
      exact ⟨e, Table.mem_insertEntry_of_mem l member (unbound e member), inBody, isLabel⟩
    · rcases Table.mem_insertEntry member with rfl | earlier
      · exact absurd rfl different
      · exact earlier

/-- A label that has a name already is bound to no other. -/
theorem bindLabel?_of_hasLabel {name : String} {l : Label} (follows : scope.FollowsNames names body)
    (has : scope.HasLabel body l) (bound : scope.bindLabel? body name l = some later) :
    later = scope ∧ names.name? l = some name := by
  obtain ⟨e, member, inBody, isLabel⟩ := has
  unfold bindLabel? at bound
  cases already : scope.label? body name with
  | some m =>
    simp only [already] at bound
    split at bound
    · rename_i same
      subst same
      exact ⟨(Option.some.inj bound).symm, follows _ (Table.mem_entries_of_get? already) rfl⟩
    · cases bound
  | none =>
    have taken : (scope.labels.entries.any fun e => e.1.body == body && e.2 == l) = true :=
      List.any_eq_true.2 ⟨e, member, by simp [inBody, isLabel]⟩
    simp [already, taken] at bound

end Scope

end JvmPatch
