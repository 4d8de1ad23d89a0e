import Mathlib.Data.List.Chain
import JvmPatch.Proofs.Resolve.Completeness

/-! The order in which assignments are tried, as the readings of an odometer. It has one wheel for
every class block and line that is not added, in their order, and the wheel on the right turns
fastest. How many digits the wheel of a member has depends on the class that the wheels to its left
select. The outcome of a search is determined by the order of the readings alone. -/

set_option autoImplicit false

namespace JvmPatch

/-- A wheel of the odometer. A class wheel selects the owner of the wheels up to the next one. -/
inductive Wheel
  | cls (block : ClassBlock)
  | field (line : FieldLine)
  | method (block : MethodBlock)

def ClassBlock.wheels (block : ClassBlock) : List Wheel :=
  if block.mode = .add then []
  else
    .cls block ::
      ((block.fields.filter fun f => f.mode != .add).map .field ++
        (block.methods.filter fun m => m.mode != .add).map .method)

def Script.wheels (script : Script) : List Wheel := script.classes.flatMap ClassBlock.wheels

namespace ClassSet

/-- The classes that a wheel selects from. -/
def blockCandidates (set : ClassSet) (block : ClassBlock) : List ClassId :=
  block.ident.narrow (fun id => (set.classAt id).name) set.candidates

/-- The fields that a wheel selects from, given the class to its left. -/
def lineCandidates (set : ClassSet) (owner : Option ClassId) (line : FieldLine) : List FieldId :=
  line.ident.narrow (fun f => (set.fieldAt f).name) ((owner.map set.fieldCandidates).getD [])

/-- The methods that a wheel selects from, given the class to its left. -/
def bodyCandidates (set : ClassSet) (owner : Option ClassId) (block : MethodBlock) :
    List MethodId :=
  block.ident.narrow (fun m => (set.methodAt m).name) ((owner.map set.methodCandidates).getD [])

/-- The number of digits of a wheel. A wheel with nothing to select from stands still at zero. -/
def radix (set : ClassSet) (owner : Option ClassId) : Wheel → Nat
  | .cls block => max 1 (set.blockCandidates block).length
  | .field line => max 1 (set.lineCandidates owner line).length
  | .method block => max 1 (set.bodyCandidates owner block).length

/-- The owner of the wheels after a wheel that shows a digit. -/
def ownerAfter (set : ClassSet) (owner : Option ClassId) (digit : Nat) : Wheel → Option ClassId
  | .cls block => (set.blockCandidates block)[digit]?
  | .field _ | .method _ => owner

/-- Turns the rightmost wheel that has a digit left, and sets the wheels to its right to zero. There
is no next reading if no wheel has a digit left. -/
def advance (set : ClassSet) : Option ClassId → List Wheel → List Nat → Option (List Nat)
  | owner, wheel :: wheels, digit :: digits =>
    match advance set (set.ownerAfter owner digit wheel) wheels digits with
    | some digits => some (digit :: digits)
    | none =>
      if digit + 1 < set.radix owner wheel then some ((digit + 1) :: digits.map fun _ => 0)
      else none
  | _, _, _ => none

/-- The readings of an odometer one after the other: the first one is all zeros, each further one
is the next reading after the one before, and the last one has no next reading. -/
structure Turns (set : ClassSet) (owner : Option ClassId) (wheels : List Wheel)
    (shown : List (List Nat)) : Prop where
  first : shown.head? = some (wheels.map fun _ => 0)
  next : shown.IsChain fun a b => set.advance owner wheels a = some b
  last : ∀ digits ∈ shown.getLast?, set.advance owner wheels digits = none

end ClassSet

/-- Selects something for every line that is not added, by one digit each. -/
def pick {α β : Type} (mode : β → Mode) (candidates : β → List α) :
    List β → List Nat → List (Option α)
  | [], _ => []
  | line :: lines, digits =>
    if mode line = .add then none :: pick mode candidates lines digits
    else (candidates line)[digits.headD 0]? :: pick mode candidates lines digits.tail

namespace ClassSet

/-- What the digits for a class block select. -/
def choiceAt (set : ClassSet) (block : ClassBlock) (digits : List Nat) : ClassChoice :=
  if block.mode = .add then
    ⟨none, block.fields.map fun _ => none, block.methods.map fun _ => none⟩
  else
    let cls := (set.blockCandidates block)[digits.headD 0]?
    let fieldWheels := (block.fields.filter fun f => f.mode != .add).length
    ⟨cls,
      pick FieldLine.mode (set.lineCandidates cls) block.fields (digits.tail.take fieldWheels),
      pick MethodBlock.mode (set.bodyCandidates cls) block.methods (digits.tail.drop fieldWheels)⟩

/-- What a reading selects for class blocks. -/
def assignmentAt (set : ClassSet) : List ClassBlock → List Nat → Assignment
  | [], _ => []
  | block :: blocks, digits =>
    set.choiceAt block (digits.take block.wheels.length) ::
      assignmentAt set blocks (digits.drop block.wheels.length)

/-- All readings of an odometer, in the order of their digits. -/
def readings (set : ClassSet) : Option ClassId → List Wheel → List (List Nat)
  | _, [] => [[]]
  | owner, wheel :: wheels =>
    (List.range (set.radix owner wheel)).flatMap fun digit =>
      (readings set (set.ownerAfter owner digit wheel) wheels).map (digit :: ·)

theorem length_of_mem_readings (set : ClassSet) {owner : Option ClassId} {wheels : List Wheel}
    {digits : List Nat} (shown : digits ∈ set.readings owner wheels) :
    digits.length = wheels.length := by
  induction wheels generalizing owner digits with
  | nil => simpa [readings] using shown
  | cons wheel wheels ih =>
    simp only [readings, List.mem_flatMap, List.mem_map] at shown
    obtain ⟨digit, -, rest, shown, rfl⟩ := shown
    simp [ih shown]

/-! The odometer shows its readings in the order of their digits. -/

/-- The owner of the wheels after all wheels of a reading. -/
def ownerBeyond (set : ClassSet) : Option ClassId → List Wheel → List Nat → Option ClassId
  | owner, wheel :: wheels, digit :: digits =>
    ownerBeyond set (set.ownerAfter owner digit wheel) wheels digits
  | owner, _, _ => owner

theorem readings_append (set : ClassSet) (owner : Option ClassId) (left right : List Wheel) :
    set.readings owner (left ++ right) = (set.readings owner left).flatMap fun digits =>
      (set.readings (set.ownerBeyond owner left digits) right).map (digits ++ ·) := by
  induction left generalizing owner with
  | nil => simp [readings, ownerBeyond]
  | cons wheel left ih =>
    simp only [List.cons_append, readings, ih, List.map_flatMap, List.flatMap_assoc,
      List.flatMap_map, List.map_map]
    rfl

/-- The wheels of a script do not depend on a class to their left. -/
theorem readings_wheels (set : ClassSet) (owner : Option ClassId) (blocks : List ClassBlock) :
    set.readings owner (blocks.flatMap ClassBlock.wheels) =
      set.readings none (blocks.flatMap ClassBlock.wheels) := by
  induction blocks with
  | nil => rfl
  | cons block blocks ih =>
    rw [List.flatMap_cons, ClassBlock.wheels]
    split
    · exact ih
    · rfl

/-- Some wheels of members, which leave the owner as it is. -/
theorem ownerBeyond_members {β : Type} (set : ClassSet) {wheel : β → Wheel}
    (still : ∀ owner digit line, set.ownerAfter owner digit (wheel line) = owner)
    (owner : Option ClassId) (lines : List β) (digits : List Nat) :
    set.ownerBeyond owner (lines.map wheel) digits = owner := by
  induction lines generalizing digits with
  | nil => rfl
  | cons line lines ih =>
    cases digits with
    | nil => rfl
    | cons digit digits =>
      rw [List.map_cons, ownerBeyond, still]
      exact ih digits

theorem map_range_getElem? {α : Type} (xs : List α) :
    (List.range (max 1 xs.length)).map (xs[·]?) = options xs := by
  cases xs with
  | nil => rfl
  | cons x xs =>
    have count : max 1 (x :: xs).length = (x :: xs).length :=
      Nat.max_eq_right (by simp)
    rw [count]
    refine List.ext_getElem (by simp [options]) fun i inside _ => ?_
    have inside : i < (x :: xs).length := by simpa using inside
    simp only [List.getElem_map, List.getElem_range, List.getElem?_eq_getElem inside]
    exact (List.getElem_map some).symm

/-- The readings of the wheels of members pick every list of members once, in order. -/
theorem map_pick_readings {α β : Type} (set : ClassSet) (wheel : β → Wheel) (mode : β → Mode)
    (candidates : β → List α) {owner : Option ClassId}
    (still : ∀ owner digit line, set.ownerAfter owner digit (wheel line) = owner)
    (radix : ∀ line, set.radix owner (wheel line) = max 1 (candidates line).length)
    (lines : List β) :
    (set.readings owner ((lines.filter fun line => mode line != .add).map wheel)).map
        (pick mode candidates lines) =
      selections (lines.map fun line =>
        if mode line = .add then [none] else options (candidates line)) := by
  induction lines with
  | nil => rfl
  | cons line lines ih =>
    by_cases added : mode line = .add
    · simp only [List.filter_cons, added, bne_self_eq_false, Bool.false_eq_true, if_false,
        List.map_cons, if_true, selections, List.flatMap_singleton, ← ih, List.map_map]
      refine List.map_congr_left fun digits _ => ?_
      simp only [pick, added, if_true, Function.comp_apply]
    · have kept : (mode line != .add) = true := by simpa using added
      simp only [List.filter_cons, kept, if_true, List.map_cons, readings, still,
        radix, if_neg added, selections]
      rw [← map_range_getElem? (candidates line), ← ih]
      simp only [List.map_flatMap, List.flatMap_map, List.map_map]
      refine congrArg (List.flatMap · _) (funext fun digit => List.map_congr_left
        fun digits _ => ?_)
      simp only [pick, if_neg added, Function.comp_apply, List.headD_cons, List.tail_cons]

theorem fieldOptions_eq (set : ClassSet) (cls : Option ClassId) (line : FieldLine) :
    set.fieldOptions cls line =
      if line.mode = .add then [none] else options (set.lineCandidates cls line) := by
  unfold fieldOptions lineCandidates
  cases mode : line.mode <;> cases cls <;> simp [Ident.narrow, options]

theorem methodOptions_eq (set : ClassSet) (cls : Option ClassId) (block : MethodBlock) :
    set.methodOptions cls block =
      if block.mode = .add then [none] else options (set.bodyCandidates cls block) := by
  unfold methodOptions bodyCandidates
  cases mode : block.mode <;> cases cls <;> simp [Ident.narrow, options]

theorem selections_singletons {α β : Type} (xs : List β) (x : α) :
    selections (xs.map fun _ => [x]) = [xs.map fun _ => x] := by
  induction xs with
  | nil => rfl
  | cons _ xs ih =>
    rw [List.map_cons, selections, ih]
    rfl

/-- The readings of a block's wheels select what is tried for the block. -/
theorem map_choiceAt_readings (set : ClassSet) (block : ClassBlock) :
    (set.readings none block.wheels).map (set.choiceAt block) = set.choices block := by
  by_cases added : block.mode = .add
  · have noField : set.fieldOptions none = fun _ => [none] := by
      funext line
      cases mode : line.mode <;> simp only [fieldOptions, mode]
    have noMethod : set.methodOptions none = fun _ => [none] := by
      funext line
      cases mode : line.mode <;> simp only [methodOptions, mode]
    simp only [ClassBlock.wheels, added, if_true, readings, List.map_singleton, choiceAt, choices,
      choicesFrom, classOptions, List.flatMap_singleton, noField, noMethod, selections_singletons]
  · have classes : set.classOptions block =
        (List.range (max 1 (set.blockCandidates block).length)).map
          ((set.blockCandidates block)[·]?) := by
      rw [map_range_getElem?, classOptions, if_neg added, blockCandidates]
    simp only [ClassBlock.wheels, if_neg added, readings, choices, choicesFrom, classes,
      List.flatMap_map, List.map_flatMap, List.map_map]
    refine congrArg (List.flatMap · _) (funext fun digit => ?_)
    simp only [ownerAfter]
    generalize cls : (set.blockCandidates block)[digit]? = owner
    have fields := set.map_pick_readings .field FieldLine.mode
      (set.lineCandidates owner) (fun _ _ _ => rfl) (fun _ => rfl) block.fields
    have methods := set.map_pick_readings .method MethodBlock.mode
      (set.bodyCandidates owner) (fun _ _ _ => rfl) (fun _ => rfl) block.methods
    simp only [← fieldOptions_eq] at fields
    simp only [← methodOptions_eq] at methods
    have still (lines : List FieldLine) (digits : List Nat) :
        set.ownerBeyond owner (lines.map .field) digits = owner :=
      set.ownerBeyond_members (fun _ _ _ => rfl) owner lines digits
    rw [readings_append, ← fields, ← methods]
    simp only [still, List.map_flatMap, List.flatMap_map, List.map_map]
    refine List.flatMap_congr fun chosen shown => List.map_congr_left fun more _ => ?_
    have width := set.length_of_mem_readings shown
    rw [List.length_map] at width
    simp only [Function.comp_apply, choiceAt, if_neg added, List.headD_cons, List.tail_cons, cls,
      List.take_left' width, List.drop_left' width]

/-- The readings of the odometer of a script select the assignments that are tried, in the order in
which they are tried. -/
theorem map_assignmentAt_readings (set : ClassSet) (blocks : List ClassBlock) :
    (set.readings none (blocks.flatMap ClassBlock.wheels)).map (set.assignmentAt blocks) =
      selections (blocks.map set.choices) := by
  induction blocks with
  | nil => rfl
  | cons block blocks ih =>
    rw [List.flatMap_cons, readings_append, List.map_cons, selections,
      ← map_choiceAt_readings, ← ih]
    simp only [List.map_flatMap, List.flatMap_map, List.map_map, readings_wheels set]
    refine List.flatMap_congr fun digits shown => List.map_congr_left fun more _ => ?_
    have width := set.length_of_mem_readings shown
    simp only [Function.comp_apply, assignmentAt, List.take_left' width, List.drop_left' width]

end ClassSet

/-! What a search ends with. -/

namespace SearchState

end SearchState

namespace ClassSet

/-- Tries the assignment that a reading selects. -/
def trial (set : ClassSet) (script : Script) (initial : Scope)
    (verifier : Assignment → VerifyM Unit) (digits : List Nat) : Except Rejection Resolution :=
  set.attempt script initial verifier (set.assignmentAt script.classes digits)

/-- The trials are taken in as if there were no batches. -/
theorem search_eq_takeIn (set : ClassSet) (script : Script) (initial : Scope)
    (verifier : Assignment → VerifyM Unit) (batch : Nat) :
    set.search script initial verifier batch =
      match SearchState.takeIn
        ((set.readings none script.wheels).map (set.trial script initial verifier)) none with
      | .accepted resolution => .ok resolution
      | .searching _ (some best) => .error ⟨best.element, best.reason⟩
      | .searching _ none => .error ⟨"patch", .noCandidates⟩ := by
  have searched := SearchState.flush_foldl_offer (set.attempt script initial verifier) batch
    (selections (script.classes.map set.choices)) [] none
  rw [← map_assignmentAt_readings, List.nil_append, List.map_map] at searched
  simp only [search, set.forAssignments_eq_foldl (SearchState.isAccepted_offer _ _),
    List.nil_append, ← map_assignmentAt_readings]
  rw [searched]
  rfl

end ClassSet

end JvmPatch
