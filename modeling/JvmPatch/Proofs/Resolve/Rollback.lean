import JvmPatch.Proofs.Resolve.Placing
import Mathlib.Data.List.Perm.Subperm
import Mathlib.Data.List.ProdSigma

/-! The search for the lines of a block as a loop that remembers one place to go back to. Going back
moves both the line and the place back, but never before what has been gone back to earlier. -/

set_option autoImplicit false

namespace JvmPatch

/-- Where a line has matched after a line for any instructions, and what had been found before. -/
structure Checkpoint where
  next : Nat
  place : Nat
  found : Found

/-- A state of the search: the number of the next line, the place from which it is looked for,
whether any instructions may come first, and where to go back to. -/
structure Search where
  next : Nat
  place : Nat
  afterAny : Bool
  found : Found
  checkpoint : Option Checkpoint

/-- Checkpoints are ordered by their lines and, for one line, by their places. -/
def Checkpoint.Before (c c' : Checkpoint) : Prop :=
  c.next < c'.next ∨ c.next = c'.next ∧ c.place < c'.place

/-- The search goes on after the instruction that had matched. -/
def Checkpoint.resume (c : Checkpoint) : Search := ⟨c.next, c.place + 1, true, c.found, none⟩

/-- What comes of one turn of the search. -/
inductive Turn
  | finds (found : Found)
  | goesOn (later : Search)
  | givesUp (fault : WalkFault)

namespace Search

def start (scope : Scope) : Search := ⟨0, 0, false, ⟨scope, .empty⟩, none⟩

variable (cx : BodyContext) (ls : List SoughtLine) (code : List Insn)

/-- One turn of the search. -/
def turn (s : Search) : Turn :=
  match ls[s.next]? with
  | none =>
    if s.afterAny || (code.drop s.place).all Insn.isPseudo then .finds s.found
    else .givesUp .leftOver
  | some l =>
    if l.line.pattern = .any then .goesOn { s with next := s.next + 1, afterAny := true }
    else
      match code[s.place]? with
      | none => .givesUp (.outOfInsns l.line.line)
      | some insn =>
        if l.passesOver insn then .goesOn { s with place := s.place + 1 }
        else
          match l.matchAt cx s.place insn s.found with
          | some found => .goesOn {
              next := s.next + 1, place := s.place + 1, afterAny := false, found,
              checkpoint := if s.afterAny then some ⟨s.next, s.place, s.found⟩ else s.checkpoint }
          | none =>
            if s.afterAny then .goesOn { s with place := s.place + 1 }
            else .givesUp (.mismatch l.line.line l.line.shown insn)

/-- What the search has come to, if it is over. -/
def result (s : Search) : Option (Except WalkFault Found) :=
  match s.turn cx ls code, s.checkpoint with
  | .finds found, _ => some (.ok found)
  | .givesUp fault, none => some (.error fault)
  | .givesUp _, some _ | .goesOn _, _ => none

variable {cx ls code} in
theorem result_of_finds {s : Search} {found : Found} (finds : s.turn cx ls code = .finds found) :
    s.result cx ls code = some (.ok found) := by rw [result, finds]

variable {cx ls code} in
theorem result_of_givesUp {s : Search} {fault : WalkFault}
    (gaveUp : s.turn cx ls code = .givesUp fault) (bare : s.checkpoint = none) :
    s.result cx ls code = some (.error fault) := by rw [result, gaveUp, bare]

/-- A number of turns of the search, with what it goes back to on the way. -/
inductive Turns : Nat → Search → List Checkpoint → Search → Prop where
  | none {s} : Turns 0 s [] s
  | goesOn {n s later rolls final} : s.turn cx ls code = .goesOn later →
      Turns n later rolls final → Turns (n + 1) s rolls final
  | rollsBack {n s fault c rolls final} : s.turn cx ls code = .givesUp fault →
      s.checkpoint = some c → Turns n c.resume rolls final → Turns (n + 1) s (c :: rolls) final

variable {cx : BodyContext} {ls : List SoughtLine} {code : List Insn}

/-! ### What a turn does -/

/-- How a turn goes on: with the next line, with the next place, or with both after a match. -/
inductive Advances (ls : List SoughtLine) (code : List Insn) (s : Search) : Search → Prop where
  | any : s.next < ls.length →
      Advances ls code s { s with next := s.next + 1, afterAny := true }
  | passes : s.next < ls.length → s.place < code.length →
      Advances ls code s { s with place := s.place + 1 }
  | matched {found : Found} : s.next < ls.length → s.place < code.length →
      Advances ls code s {
        next := s.next + 1, place := s.place + 1, afterAny := false, found,
        checkpoint := if s.afterAny then some ⟨s.next, s.place, s.found⟩ else s.checkpoint }

theorem advances_of_turn {s later : Search} (goesOn : s.turn cx ls code = .goesOn later) :
    Advances ls code s later := by
  rw [turn] at goesOn
  split at goesOn
  · split at goesOn <;> cases goesOn
  rename_i l isLine
  have inside : s.next < ls.length := (List.getElem?_eq_some_iff.1 isLine).1
  split at goesOn
  · obtain rfl := Turn.goesOn.inj goesOn
    exact .any inside
  split at goesOn
  · cases goesOn
  rename_i insn isInsn
  have there : s.place < code.length := (List.getElem?_eq_some_iff.1 isInsn).1
  split at goesOn
  · obtain rfl := Turn.goesOn.inj goesOn
    exact .passes inside there
  split at goesOn
  · obtain rfl := Turn.goesOn.inj goesOn
    exact .matched inside there
  split at goesOn
  · obtain rfl := Turn.goesOn.inj goesOn
    exact .passes inside there
  · cases goesOn

/-- The search is at a line and a place that there are, and so is what it goes back to. -/
structure Within (ls : List SoughtLine) (code : List Insn) (s : Search) : Prop where
  next : s.next ≤ ls.length
  place : s.place ≤ code.length
  checkpoint : ∀ c, s.checkpoint = some c → c.next < ls.length ∧ c.place < code.length

/-- Neither the search nor what it goes back to is before some line or some place. -/
structure Since (line start : Nat) (s : Search) : Prop where
  next : line ≤ s.next
  place : start ≤ s.place
  checkpoint : ∀ c, s.checkpoint = some c → line ≤ c.next ∧ start ≤ c.place

namespace Advances

variable {s later : Search}

theorem grows (advances : Advances ls code s later) :
    s.next ≤ later.next ∧ s.place ≤ later.place ∧
      s.next + s.place + 1 ≤ later.next + later.place := by
  cases advances <;> dsimp only <;> omega

/-- What is gone back to is as before, or it is where the search has been. -/
theorem checkpoint_eq (advances : Advances ls code s later) {c : Checkpoint}
    (isCheckpoint : later.checkpoint = some c) :
    s.checkpoint = some c ∨ c = ⟨s.next, s.place, s.found⟩ ∧ s.next < ls.length ∧
      s.place < code.length := by
  cases advances with
  | any | passes => exact .inl isCheckpoint
  | matched inside there =>
    dsimp only at isCheckpoint
    split at isCheckpoint
    · exact .inr ⟨(Option.some.inj isCheckpoint).symm, inside, there⟩
    · exact .inl isCheckpoint

theorem within_ (advances : Advances ls code s later) (within_ : s.Within ls code) :
    later.Within ls code := by
  have remembered : ∀ c, later.checkpoint = some c → c.next < ls.length ∧
      c.place < code.length := by
    intro c isCheckpoint
    rcases advances.checkpoint_eq isCheckpoint with before | ⟨rfl, inside⟩
    · exact within_.checkpoint c before
    · exact inside
  cases advances with
  | any inside => exact ⟨inside, within_.place, remembered⟩
  | passes inside there => exact ⟨within_.next, there, remembered⟩
  | matched inside there => exact ⟨inside, there, remembered⟩

theorem since {line start : Nat} (advances : Advances ls code s later)
    (since : s.Since line start) : later.Since line start := by
  obtain ⟨nextGrows, placeGrows, -⟩ := advances.grows
  refine ⟨since.next.trans nextGrows, since.place.trans placeGrows, fun c isCheckpoint => ?_⟩
  rcases advances.checkpoint_eq isCheckpoint with before | ⟨rfl, -⟩
  · exact since.checkpoint c before
  · exact ⟨since.next, since.place⟩

end Advances

theorem within_start (scope : Scope) : (start scope).Within ls code :=
  ⟨Nat.zero_le _, Nat.zero_le _, nofun⟩

theorem since_zero (s : Search) : s.Since 0 0 :=
  ⟨Nat.zero_le _, Nat.zero_le _, fun _ _ => ⟨Nat.zero_le _, Nat.zero_le _⟩⟩

theorem Within.resume {s : Search} {c : Checkpoint} (within_ : s.Within ls code)
    (isCheckpoint : s.checkpoint = some c) : c.resume.Within ls code := by
  obtain ⟨inside, there⟩ := within_.checkpoint c isCheckpoint
  exact ⟨inside.le, there, nofun⟩

theorem since_resume (c : Checkpoint) : c.resume.Since c.next (c.place + 1) :=
  ⟨Nat.le_refl _, Nat.le_refl _, nofun⟩

/-! ### What a run does -/

namespace Turns

variable {n : Nat} {s final : Search} {rolls : List Checkpoint}

/-- Between two times of going back the line and the place only grow. -/
theorem grows (turns : Turns cx ls code n s rolls final) (forward : rolls = []) :
    s.next ≤ final.next ∧ s.place ≤ final.place := by
  induction turns with
  | none => exact ⟨Nat.le_refl _, Nat.le_refl _⟩
  | goesOn goesOn _ ih =>
    obtain ⟨nextGrows, placeGrows, -⟩ := (advances_of_turn goesOn).grows
    obtain ⟨next, place⟩ := ih forward
    exact ⟨nextGrows.trans next, placeGrows.trans place⟩
  | rollsBack => cases forward

theorem within_ (turns : Turns cx ls code n s rolls final) (within_ : s.Within ls code) :
    final.Within ls code ∧ ∀ c ∈ rolls, c.next < ls.length ∧ c.place < code.length := by
  induction turns with
  | none => exact ⟨within_, fun _ member => nomatch member⟩
  | goesOn goesOn _ ih => exact ih ((advances_of_turn goesOn).within_ within_)
  | rollsBack _ isCheckpoint _ ih =>
    obtain ⟨isWithin, others⟩ := ih (within_.resume isCheckpoint)
    refine ⟨isWithin, fun c' member => ?_⟩
    rcases List.mem_cons.1 member with rfl | member
    · exact within_.checkpoint _ isCheckpoint
    · exact others c' member

/-- What is gone back to comes no earlier in lines and later in places each time. -/
theorem ascends {line start : Nat} (turns : Turns cx ls code n s rolls final)
    (since : s.Since line start) :
    (∀ c ∈ rolls, line ≤ c.next ∧ start ≤ c.place) ∧
      rolls.Pairwise fun c c' => c.next ≤ c'.next ∧ c.place < c'.place := by
  induction turns generalizing line start with
  | none => exact ⟨nofun, .nil⟩
  | goesOn goesOn _ ih => exact ih ((advances_of_turn goesOn).since since)
  | @rollsBack _ s _ c _ _ _ isCheckpoint _ ih =>
    obtain ⟨later, ascending⟩ := ih (since_resume c)
    obtain ⟨next, place⟩ := since.checkpoint c isCheckpoint
    refine ⟨fun c' member => ?_, .cons later ascending⟩
    rcases List.mem_cons.1 member with rfl | member
    · exact ⟨next, place⟩
    · obtain ⟨next', place'⟩ := later c' member
      exact ⟨next.trans next', by omega⟩

/-- The number of turns. Between two times of going back there is one for each line and place. -/
theorem count_le (turns : Turns cx ls code n s rolls final) (within_ : s.Within ls code) :
    n + (s.next + s.place) ≤
      rolls.length * (ls.length + code.length + 1) + (final.next + final.place) := by
  induction turns with
  | none => simp
  | goesOn goesOn _ ih =>
    have advances := advances_of_turn goesOn
    have rest := ih (advances.within_ within_)
    have grows := advances.grows.2.2
    omega
  | @rollsBack n s _ c rolls _ _ isCheckpoint _ ih =>
    have rest := ih (within_.resume isCheckpoint)
    have next := within_.next
    have place := within_.place
    rw [List.length_cons, Nat.add_one_mul]
    have resumed : c.resume.next + c.resume.place = c.next + c.place + 1 := rfl
    omega

theorem before (turns : Turns cx ls code n s rolls final) : rolls.Pairwise Checkpoint.Before := by
  refine (turns.ascends (since_zero s)).2.imp fun {c c'} later => ?_
  rcases Nat.eq_or_lt_of_le later.1 with same | less
  · exact .inr ⟨same, later.2⟩
  · exact .inl less

/-- There are no more times of going back than there are lines and places together. -/
theorem rolls_le (turns : Turns cx ls code n s rolls final) (within_ : s.Within ls code) :
    rolls.length ≤ ls.length * code.length := by
  have apart : (rolls.map fun c => (c.next, c.place)).Nodup := by
    refine List.pairwise_map.2 (turns.before.imp fun {c c'} before same => ?_)
    obtain ⟨next, place⟩ := Prod.mk.inj same
    rcases before with less | ⟨-, less⟩ <;> omega
  have inside : (rolls.map fun c => (c.next, c.place)) ⊆
      List.range ls.length ×ˢ List.range code.length := by
    intro key member
    obtain ⟨c, isRoll, rfl⟩ := List.mem_map.1 member
    obtain ⟨next, place⟩ := (turns.within_ within_).2 c isRoll
    exact List.mem_product.2 ⟨List.mem_range.2 next, List.mem_range.2 place⟩
  have counted := (List.subperm_of_subset apart inside).length_le
  rwa [List.length_map, List.length_product, List.length_range, List.length_range] at counted

theorem append {m : Nat} {middle : Search} {rolls' : List Checkpoint}
    (turns : Turns cx ls code n s rolls middle) (more : Turns cx ls code m middle rolls' final) :
    Turns cx ls code (n + m) s (rolls ++ rolls') final := by
  induction turns with
  | none => rwa [Nat.zero_add]
  | goesOn goesOn _ ih =>
    rw [Nat.add_right_comm]
    exact .goesOn goesOn (ih more)
  | rollsBack gaveUp isCheckpoint _ ih =>
    rw [Nat.add_right_comm]
    exact .rollsBack gaveUp isCheckpoint (ih more)

end Turns

/-! ### What the search comes to -/

/-- From a state on, following the lines results in this. Where it gets stuck, the search can go
back to where it could before. -/
def Yields (cx : BodyContext) (ls : List SoughtLine) (code : List Insn)
    (checkpoint : Option Checkpoint) (s : Search) (outcome : WalkOutcome) : Prop :=
  ∃ n rolls final, Turns cx ls code n s rolls final ∧
    match outcome with
    | .matched found => final.turn cx ls code = .finds found
    | .stuck fault => final.turn cx ls code = .givesUp fault ∧ final.checkpoint = checkpoint
    | .failed fault => final.turn cx ls code = .givesUp fault ∧ final.checkpoint = .none

namespace Yields

variable {checkpoint : Option Checkpoint} {s later : Search} {outcome : WalkOutcome}

theorem goesOn (goesOn : s.turn cx ls code = .goesOn later)
    (yields : later.Yields cx ls code checkpoint outcome) :
    s.Yields cx ls code checkpoint outcome := by
  obtain ⟨n, rolls, final, turns, ends⟩ := yields
  exact ⟨n + 1, rolls, final, .goesOn goesOn turns, ends⟩

theorem rollsBack {c : Checkpoint} {fault : WalkFault}
    (stuck : s.Yields cx ls code (some c) (.stuck fault))
    (yields : c.resume.Yields cx ls code checkpoint outcome) :
    s.Yields cx ls code checkpoint outcome := by
  obtain ⟨n, rolls, middle, first, gaveUp, isCheckpoint⟩ := stuck
  obtain ⟨m, rolls', final, second, ends⟩ := yields
  exact ⟨_, _, final, first.append (.rollsBack gaveUp isCheckpoint second), ends⟩

/-- Where the search does not get stuck, it does not matter what could be gone back to. -/
theorem of_not_stuck {checkpoint' : Option Checkpoint}
    (settled : ∀ fault, outcome ≠ .stuck fault)
    (yields : s.Yields cx ls code checkpoint outcome) :
    s.Yields cx ls code checkpoint' outcome := by
  cases outcome with
  | matched | failed => exact yields
  | stuck fault => exact absurd rfl (settled fault)

section Line

variable {l : SoughtLine} {next : Nat} {rest : SoughtLine.Rest}
  (isLine : ls[next]? = some l) (notAny : l.line.pattern ≠ .any)
  (follows : ∀ place insns found checkpoint, code.drop place = insns →
    Yields cx ls code checkpoint ⟨next + 1, place, false, found,
      checkpoint⟩ (rest place insns found))

include isLine notAny

theorem turn_nil (cx : BodyContext) {s : Search} (isNext : s.next = next)
    (ended : code.drop s.place = []) :
    s.turn cx ls code = .givesUp (.outOfInsns l.line.line) := by
  subst isNext
  have none_ : code[s.place]? = none := List.getElem?_eq_none (List.drop_eq_nil_iff.1 ended)
  simp only [turn, isLine, if_neg notAny, none_]

theorem turn_cons (cx : BodyContext) {s : Search} {insn : Insn} {insns : List Insn}
    (isNext : s.next = next) (remaining : code.drop s.place = insn :: insns) :
    s.turn cx ls code =
      if l.passesOver insn then .goesOn { s with place := s.place + 1 }
      else
        match l.matchAt cx s.place insn s.found with
        | some found => .goesOn ⟨s.next + 1, s.place + 1, false, found,
            if s.afterAny then some ⟨s.next, s.place, s.found⟩ else s.checkpoint⟩
        | none =>
          if s.afterAny then .goesOn { s with place := s.place + 1 }
          else .givesUp (.mismatch l.line.line l.line.shown insn) := by
  subst isNext
  have here : code[s.place]? = some insn := by rw [← List.head?_drop, remaining]; rfl
  simp only [turn, isLine, if_neg notAny, here]

include follows

theorem step (place : Nat) (insns : List Insn) (found : Found) (checkpoint : Option Checkpoint)
    (remaining : code.drop place = insns) :
    Yields cx ls code checkpoint ⟨next, place, false, found, checkpoint⟩
      (l.step cx rest place insns found) := by
  induction insns generalizing place with
  | nil =>
    exact ⟨0, [], _, .none, turn_nil isLine notAny cx rfl remaining, rfl⟩
  | cons insn insns ih =>
    have after : code.drop (place + 1) = insns := by rw [← List.tail_drop, remaining]; rfl
    have turned := turn_cons isLine notAny cx
      (s := ⟨next, place, false, found, checkpoint⟩) rfl remaining
    rw [SoughtLine.step]
    split
    · rename_i passes
      rw [if_pos passes] at turned
      exact .goesOn turned (ih (place + 1) after)
    · rename_i stops
      rw [if_neg stops] at turned
      cases matched : l.matchAt cx place insn found with
      | none =>
        rw [matched] at turned
        exact ⟨0, [], _, .none, turned, rfl⟩
      | some later =>
        rw [matched] at turned
        exact .goesOn turned (follows (place + 1) insns later checkpoint after)

/-- Once a line has matched after a line for any instructions, nothing before is gone back to. -/
theorem seek (again : Bool) (place : Nat) (insns : List Insn) (found : Found)
    (held : Option Checkpoint) (isHeld : held = if again then none else checkpoint)
    (remaining : code.drop place = insns) :
    Yields cx ls code checkpoint ⟨next, place, true, found, held⟩
      (l.seek cx rest again place insns found) := by
  induction insns generalizing place again held with
  | nil =>
    have turned := turn_nil isLine notAny cx
      (s := ⟨next, place, true, found, held⟩) rfl remaining
    rw [SoughtLine.seek]
    cases again with
    | true => exact ⟨0, [], _, .none, turned, isHeld⟩
    | false => exact ⟨0, [], _, .none, turned, isHeld⟩
  | cons insn insns ih =>
    have after : code.drop (place + 1) = insns := by rw [← List.tail_drop, remaining]; rfl
    have turned := turn_cons isLine notAny cx
      (s := ⟨next, place, true, found, held⟩) rfl remaining
    rw [SoughtLine.seek]
    split
    · rename_i passes
      rw [if_pos passes] at turned
      exact .goesOn turned (ih again (place + 1) held isHeld after)
    · rename_i stops
      rw [if_neg stops] at turned
      cases matched : l.matchAt cx place insn found with
      | none =>
        rw [matched] at turned
        exact .goesOn turned (ih again (place + 1) held isHeld after)
      | some later =>
        rw [matched] at turned
        have onward := follows (place + 1) insns later (some ⟨next, place, found⟩) after
        dsimp only
        cases outcome : rest (place + 1) insns later with
        | stuck fault =>
          rw [outcome] at onward
          exact (onward.goesOn turned).rollsBack (ih true (place + 1) none rfl after)
        | matched final =>
          rw [outcome] at onward
          exact .goesOn turned (onward.of_not_stuck fun _ stuck => by cases stuck)
        | failed fault =>
          rw [outcome] at onward
          exact .goesOn turned (onward.of_not_stuck fun _ stuck => by cases stuck)

end Line

/-- The search comes to what following the lines results in. -/
theorem followLines (front back : List SoughtLine) (whole : ls = front ++ back) (afterAny : Bool)
    (place : Nat) (insns : List Insn) (found : Found) (checkpoint : Option Checkpoint)
    (remaining : code.drop place = insns) :
    Yields cx ls code checkpoint ⟨front.length, place, afterAny, found, checkpoint⟩
      (followLines cx afterAny back place insns found) := by
  induction back generalizing front afterAny place insns found checkpoint with
  | nil =>
    have ended : ls[front.length]? = none := by simp [whole]
    rw [JvmPatch.followLines, ← remaining]
    split
    · rename_i settled
      exact ⟨0, [], _, .none, by simp only [turn, ended, settled, if_true]⟩
    · rename_i leftOver
      exact ⟨0, [], _, .none, by simp only [turn, ended, leftOver]; rfl, rfl⟩
  | cons l back ih =>
    have isLine : ls[front.length]? = some l := by simp [whole]
    have onward : ∀ afterAny place insns found checkpoint, code.drop place = insns →
        Yields cx ls code checkpoint ⟨front.length + 1, place, afterAny, found, checkpoint⟩
          (JvmPatch.followLines cx afterAny back place insns found) := by
      intro afterAny place insns found checkpoint remaining
      have further := ih (front ++ [l])
        (by simp [whole]) afterAny place insns found checkpoint remaining
      rwa [List.length_append] at further
    rw [JvmPatch.followLines]
    split
    · rename_i isAny
      refine .goesOn ?_ (onward true place insns found checkpoint remaining)
      simp only [turn, isLine, if_pos isAny]
    · rename_i notAny
      split
      · rename_i free
        subst free
        exact seek isLine notAny (onward false) false place insns found checkpoint rfl remaining
      · rename_i anchored
        rw [eq_false_of_ne_true anchored]
        exact step isLine notAny (onward false) place insns found checkpoint remaining

end Yields

end Search

/-- Once the lines for regions have been found, the search for the others is over after some turns,
with what `walk` results in. -/
theorem exists_turns_of_walk {cx : BodyContext} {lines : List InsnLine} {code : Code}
    {scope next : Scope} {regions : Table Nat Nat}
    (begun : findRegions cx code.regions (SoughtLine.forRegions lines) scope .empty =
      .ok (next, regions)) :
    ∃ n rolls final r,
      Search.Turns cx (SoughtLine.forInsns lines) code.insns n (.start next) rolls final ∧
        final.result cx (SoughtLine.forInsns lines) code.insns = some r ∧
        walk cx lines code scope =
          r.map fun found => (found.scope, ⟨found.positions, regions⟩) := by
  have yields : (Search.start next).Yields cx (SoughtLine.forInsns lines) code.insns none
      (followLines cx false (SoughtLine.forInsns lines) 0 code.insns ⟨next, .empty⟩) :=
    .followLines [] (SoughtLine.forInsns lines) rfl false 0 code.insns ⟨next, .empty⟩ none rfl
  obtain ⟨n, rolls, final, turns, ends⟩ := yields
  have walked := walk_of_findRegions begun
  cases outcome : followLines cx false (SoughtLine.forInsns lines) 0 code.insns ⟨next, .empty⟩ with
  | matched found =>
    rw [outcome] at ends walked
    exact ⟨n, rolls, final, .ok found, turns, Search.result_of_finds ends, walked⟩
  | stuck fault | failed fault =>
    rw [outcome] at ends walked
    exact ⟨n, rolls, final, .error fault, turns, Search.result_of_givesUp ends.1 ends.2, walked⟩

/-- The search for the lines of a block comes to an end, and to what `walk` results in. What it goes
back to comes later each time, so that it does so no more often than there are lines and places
together; until it goes back, the line and the place only grow. -/
theorem walk_terminates {cx : BodyContext} {lines : List InsnLine} {code : Code}
    {scope next : Scope} {regions : Table Nat Nat}
    (begun : findRegions cx code.regions (SoughtLine.forRegions lines) scope .empty =
      .ok (next, regions)) :
    (∃ n rolls final r,
      Search.Turns cx (SoughtLine.forInsns lines) code.insns n (.start next) rolls final ∧
        final.result cx (SoughtLine.forInsns lines) code.insns = some r ∧
        walk cx lines code scope =
          r.map fun found => (found.scope, ⟨found.positions, regions⟩)) ∧
      ∀ n rolls s, Search.Turns cx (SoughtLine.forInsns lines) code.insns n (.start next) rolls s →
        rolls.Pairwise Checkpoint.Before ∧
        rolls.length ≤ (SoughtLine.forInsns lines).length * code.insns.length ∧
        n ≤ (rolls.length + 1) * ((SoughtLine.forInsns lines).length + code.insns.length + 1) ∧
        ∀ m later, Search.Turns cx (SoughtLine.forInsns lines) code.insns m s [] later →
          s.next ≤ later.next ∧ s.place ≤ later.place := by
  refine ⟨exists_turns_of_walk begun, fun n rolls s turns => ?_⟩
  have started : (Search.start next).Within (SoughtLine.forInsns lines) code.insns :=
    Search.within_start next
  refine ⟨turns.before, turns.rolls_le started, ?_, fun m later onward => onward.grows rfl⟩
  have counted := turns.count_le started
  have ended := (turns.within_ started).1
  have nextEnds := ended.next
  have placeEnds := ended.place
  rw [Nat.add_one_mul]
  omega

/-- The place of the first push is given up for the one of the second. -/
theorem walk_terminates_findsLastPush :
    ∃ n rolls final found,
      Search.Turns inVoid (SoughtLine.forInsns findsLastPush) dropsTwo.insns n (.start {}) rolls
          final ∧
        final.result inVoid (SoughtLine.forInsns findsLastPush) dropsTwo.insns = some (.ok found) ∧
        found.positions.get? 1 = some 4 := by
  have begun : findRegions inVoid dropsTwo.regions (SoughtLine.forRegions findsLastPush) {} .empty =
      .ok ({}, .empty) := rfl
  obtain ⟨n, rolls, final, r, turns, result, walked⟩ := (walk_terminates begun).1
  rw [walk_findsLastPush] at walked
  cases r with
  | error fault => cases walked
  | ok found =>
    have same : Table.insert (.insert (.insert .empty 1 4) 2 5) 3 6 = found.positions :=
      congrArg (fun p : Scope × MethodMatch => p.2.positions) (Except.ok.inj walked)
    exact ⟨n, rolls, final, found, turns, result, by rw [← same]; decide⟩

end JvmPatch
