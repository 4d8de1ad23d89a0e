import JvmPatch.Proofs.Resolve.Finding
import JvmPatch.Proofs.Resolve.Placing

/-! The search for the lines of a block is complete where going back to the latest line for any
instructions is enough: where no line can bind a name, and where all lines for any instructions
stand together. -/

set_option autoImplicit false

namespace JvmPatch

open ScopeM

/-- The lines of a block can be aligned with instructions: they match some of them in order, each
with the bindings of those before it, and leave out only what may be left out. -/
def Alignable (cx : BodyContext) (lines : List InsnLine) (code : List Insn)
    (scope : Scope) : Prop :=
  ∃ final, FollowsClosely cx code false 0 (SoughtLine.forInsns lines) ⟨scope, .empty⟩ final

/-- No line names anything that could be bound. -/
def NothingToBind (ls : List SoughtLine) : Prop :=
  ∀ l ∈ ls, l.line.pattern.BindsOnlyClasses ∧ l.line.pattern.weakNames = []

/-- No line is for any number of instructions. -/
def Gapless (ls : List SoughtLine) : Prop := ∀ l ∈ ls, l.line.pattern ≠ .any

/-- The lines for any number of instructions stand together. -/
def OneGap (ls : List SoughtLine) : Prop :=
  ∃ before gap after, ls = before ++ gap ++ after ∧ Gapless before ∧
    (∀ l ∈ gap, l.line.pattern = .any) ∧ Gapless after

/-- The lines for instructions end with one for any number of them. -/
def EndsInAny (ls : List SoughtLine) : Prop := ∃ l, ls.getLast? = some l ∧ l.line.pattern = .any

/-- What holds from one place on holds from an earlier one on, if it is kept by each instruction in
between. -/
private theorem drop_induction {motive : Nat → List Insn → Prop} (passes : Insn → Prop)
    {code : List Insn} {place p : Nat} (earlier : place ≤ p) (inside : p < code.length)
    (between : ∀ q passed, place ≤ q → q < p → code[q]? = some passed → passes passed)
    (pass : ∀ q passed insns, passes passed → motive (q + 1) insns → motive q (passed :: insns))
    (base : motive p (code.drop p)) : motive place (code.drop place) := by
  obtain ⟨n, rfl⟩ := Nat.exists_eq_add_of_le earlier
  induction n generalizing place with
  | zero => exact base
  | succ n ih =>
    have here : place < code.length := by omega
    rw [List.drop_eq_getElem_cons here]
    refine pass place _ _ ?_ ?_
    · exact between place _ (Nat.le_refl _) (by omega) (List.getElem?_eq_getElem here)
    · have shift : place + (n + 1) = place + 1 + n := by omega
      rw [shift] at inside between base
      exact ih (by omega) inside (fun q passed since => between q passed (by omega)) base

private theorem drop_eq_cons_of_getElem? {code : List Insn} {p : Nat} {insn : Insn}
    (here : code[p]? = some insn) : code.drop p = insn :: code.drop (p + 1) := by
  obtain ⟨inside, rfl⟩ := List.getElem?_eq_some_iff.1 here
  exact List.drop_eq_getElem_cons inside

/-! ### Lines that bind nothing -/

theorem SoughtLine.steady_of_nothingToBind (cx : BodyContext) {l : SoughtLine}
    (only : l.line.pattern.BindsOnlyClasses) (nameless : l.line.pattern.weakNames = [])
    (scope : Scope) : l.Steady cx {} scope := by
  intro insn
  have injective : ({} : Scope).Injective cx.classes := ⟨nofun, nofun⟩
  have decides := (cx.matchInsn_decidesUnder injective only insn).decides
  rw [nameless] at decides
  exact decides (fun _ member => nomatch member) scope fun _ member => nomatch member

/-- Lines that are found closely and bind nothing are aligned with the instructions, each on its
own. -/
theorem FollowsClosely.aligns {cx : BodyContext} {full : Scope} {code : List Insn} {afterAny : Bool}
    {place : Nat} {ls : List SoughtLine} {found final : Found}
    (closely : FollowsClosely cx code afterAny place ls found final)
    (steady : ∀ l ∈ ls, l.line.pattern ≠ .any → l.Steady cx full found.scope) :
    ∃ rest, rest <:+ code.drop place ∧ Aligns (SoughtLine.Fits cx full) ls rest ∧
      (afterAny = false → rest = code.drop place) := by
  induction closely with
  | @done afterAny place _ settled =>
    cases afterAny with
    | true => exact ⟨[], List.nil_suffix, .done rfl, nofun⟩
    | false => exact ⟨_, List.suffix_refl _, .done (settled rfl), fun _ => rfl⟩
  | any isAny _ ih =>
    obtain ⟨rest, suffix, aligns, -⟩ := ih fun l member => steady l (.tail _ member)
    exact ⟨_, List.suffix_refl _, .any isAny suffix aligns, fun _ => rfl⟩
  | @insn afterAny place l ls found next final p insn notAny further here between matched _ ih =>
    obtain ⟨fits, same⟩ := (steady l List.mem_cons_self notAny).fits_of_matchAt rfl matched
    obtain ⟨rest, -, aligns, exact_⟩ := ih fun l member => same ▸ steady l (.tail _ member)
    rw [exact_ rfl] at aligns
    have first : Aligns (SoughtLine.Fits cx full) (l :: ls) (code.drop p) := by
      rw [drop_eq_cons_of_getElem? here]
      exact .insn notAny fits aligns
    cases afterAny with
    | true =>
      refine ⟨_, ?_, first, nofun⟩
      rw [← Nat.add_sub_cancel' further, ← List.drop_drop]
      exact List.drop_suffix _ _
    | false =>
      refine ⟨_, List.suffix_refl _, ?_, fun _ => rfl⟩
      exact drop_induction
        (motive := fun _ insns => Aligns (SoughtLine.Fits cx full) (l :: ls) insns)
        (fun passed => l.passesOver passed = true) further
          (List.getElem?_eq_some_iff.1 here).1 (between rfl)
        (fun _ _ _ passes later => .passed notAny passes later) first

/-! ### Lines without a gap -/

namespace SoughtLine

variable {cx : BodyContext} {l : SoughtLine} {code : List Insn} {place p : Nat} {insn : Insn}
  {found next final : Found} {rest : Rest}

/-- What has matched is not passed over. -/
theorem stops_of_matchAt (matched : l.matchAt cx place insn found = some next) :
    l.passesOver insn = false := by
  have fits : l.Fits cx found.scope insn := congrArg Prod.fst (matchAt_eq_some matched).1
  exact fits.stops

/-- A line that matches after what it passes over goes on there. -/
theorem step_eq (further : place ≤ p) (here : code[p]? = some insn)
    (between : ∀ q passed, place ≤ q → q < p → code[q]? = some passed → l.passesOver passed = true)
    (matched : l.matchAt cx p insn found = some next) :
    l.step cx rest place (code.drop place) found = rest (p + 1) (code.drop (p + 1)) next := by
  refine drop_induction (motive := fun q insns => l.step cx rest q insns found =
    rest (p + 1) (code.drop (p + 1)) next) (fun passed => l.passesOver passed = true) further
    (List.getElem?_eq_some_iff.1 here).1 between ?_ ?_
  · intro q passed insns passes later
    rw [step, if_pos passes]
    exact later
  · rw [drop_eq_cons_of_getElem? here, step, if_neg (by simp [stops_of_matchAt matched]), matched]

/-- If the lines after this one can be found from some match on, then they are found from there or
from an earlier one, as long as none of those ends the search. -/
theorem seek_finds_of_matchAt (further : place ≤ p) (here : code[p]? = some insn)
    (matched : l.matchAt cx p insn found = some next)
    (finds : rest (p + 1) (code.drop (p + 1)) next = .matched final)
    (goesOn : ∀ place insns found fault, rest place insns found ≠ .failed fault) (again : Bool) :
    ∃ final, l.seek cx rest again place (code.drop place) found = .matched final := by
  refine drop_induction (motive := fun q insns => ∀ again, ∃ final,
    l.seek cx rest again q insns found = .matched final) (fun _ => True) further
    (List.getElem?_eq_some_iff.1 here).1 (fun _ _ _ _ _ => trivial) ?_ ?_ again
  · intro q passed insns _ later again
    rw [seek]
    split
    · exact later again
    split
    · exact later again
    · rename_i next' _
      cases outcome : rest (q + 1) insns next' with
      | matched final => exact ⟨final, rfl⟩
      | stuck fault => exact later true
      | failed fault => exact absurd outcome (goesOn _ _ _ _)
  · intro again
    rw [drop_eq_cons_of_getElem? here, seek, if_neg (by simp [stops_of_matchAt matched]), matched]
    simp only [finds]
    exact ⟨final, rfl⟩

theorem step_goesOn_of_rest (goesOn : ∀ place insns found fault,
      rest place insns found ≠ .failed fault)
    (place : Nat) (insns : List Insn) (found : Found) (fault : WalkFault) :
    l.step cx rest place insns found ≠ .failed fault := by
  induction insns generalizing place with
  | nil => rintro ⟨⟩
  | cons insn insns ih =>
    rw [step]
    split
    · exact ih (place + 1)
    · split
      · exact goesOn _ _ _ _
      · rintro ⟨⟩

end SoughtLine

/-- Without a line for any instructions, the search does not end early. -/
theorem followLines_goesOn {cx : BodyContext} {ls : List SoughtLine} (gapless : Gapless ls)
    (place : Nat) (insns : List Insn) (found : Found) (fault : WalkFault) :
    followLines cx false ls place insns found ≠ .failed fault := by
  induction ls generalizing place insns found fault with
  | nil =>
    rw [followLines]
    split <;> rintro ⟨⟩
  | cons l ls ih =>
    rw [followLines, if_neg (gapless l List.mem_cons_self)]
    exact SoughtLine.step_goesOn_of_rest
      (ih fun l member => gapless l (.tail _ member)) place insns found fault

/-- Up to the first line for any instructions, there is only one way to find the lines. -/
theorem FollowsClosely.followLines_append {cx : BodyContext} {code : List Insn} {place : Nat}
    {front back : List SoughtLine} {found final : Found} (gapless : Gapless front)
    (closely : FollowsClosely cx code false place (front ++ back) found final) :
    ∃ p next, FollowsClosely cx code false p back next final ∧
      followLines cx false (front ++ back) place (code.drop place) found =
        followLines cx false back p (code.drop p) next := by
  induction front generalizing place found with
  | nil => exact ⟨place, found, closely, rfl⟩
  | cons l front ih =>
    have notAny := gapless l List.mem_cons_self
    cases closely with
    | any isAny => exact absurd isAny notAny
    | @insn _ _ _ _ _ next _ p insn _ further here between matched rest =>
      obtain ⟨p', next', closely, same⟩ := ih (fun l member => gapless l (.tail _ member)) rest
      refine ⟨p', next', closely, ?_⟩
      rw [List.cons_append, followLines, if_neg notAny, ← same]
      exact SoughtLine.step_eq further here (between rfl) matched

/-- Without a line for any instructions, lines are found as they are aligned. -/
theorem FollowsClosely.followLines_eq {cx : BodyContext} {code : List Insn} {place : Nat}
    {ls : List SoughtLine} {found final : Found} (gapless : Gapless ls)
    (closely : FollowsClosely cx code false place ls found final) :
    followLines cx false ls place (code.drop place) found = .matched final := by
  have whole : FollowsClosely cx code false place (ls ++ []) found final := by rwa [List.append_nil]
  obtain ⟨p, next, rest, same⟩ := whole.followLines_append gapless
  rw [List.append_nil] at same
  rw [same]
  cases rest with
  | done settled => simp [followLines, settled rfl]

/-- After the lines for any instructions, lines are found if they can be aligned. -/
theorem FollowsClosely.followLines_finds {cx : BodyContext} {code : List Insn} {afterAny : Bool}
    {place : Nat} {gap ls : List SoughtLine} {found final : Found}
    (isGap : ∀ l ∈ gap, l.line.pattern = .any) (gapless : Gapless ls)
    (closely : FollowsClosely cx code afterAny place (gap ++ ls) found final) :
    ∃ final, followLines cx afterAny (gap ++ ls) place (code.drop place) found =
      .matched final := by
  induction gap generalizing afterAny with
  | cons l gap ih =>
    have isAny := isGap l List.mem_cons_self
    cases closely with
    | any _ rest =>
      rw [List.cons_append, followLines, if_pos isAny]
      exact ih (fun l member => isGap l (.tail _ member)) rest
    | insn notAny => exact absurd isAny notAny
  | nil =>
    rw [List.nil_append] at closely ⊢
    cases afterAny with
    | false => exact ⟨final, closely.followLines_eq gapless⟩
    | true =>
      cases closely with
      | done => exact ⟨found, by simp [followLines]⟩
      | any isAny => exact absurd isAny (gapless _ List.mem_cons_self)
      | insn notAny further here _ matched rest =>
        have others : Gapless _ := fun l member => gapless l (.tail _ member)
        rw [followLines, if_neg notAny, if_pos rfl]
        exact SoughtLine.seek_finds_of_matchAt further here matched (rest.followLines_eq others)
          (followLines_goesOn others) false

/-! ### Success -/

/-- Lines that can be aligned with the instructions are found. -/
theorem FollowsClosely.isFound {cx : BodyContext} {code : List Insn} {ls : List SoughtLine}
    {found final : Found} (tame : NothingToBind ls ∨ OneGap ls)
    (closely : FollowsClosely cx code false 0 ls found final) :
    ∃ final, followLines cx false ls 0 code found = .matched final := by
  rcases tame with nothing | ⟨front, gap, back, rfl, frontGapless, isGap, backGapless⟩
  · have steady : ∀ l ∈ ls, l.line.pattern ≠ .any → l.Steady cx {} found.scope := fun l member _ =>
      SoughtLine.steady_of_nothingToBind cx (nothing l member).1 (nothing l member).2 _
    obtain ⟨rest, -, aligns, whole⟩ := closely.aligns steady
    rw [whole rfl] at aligns
    exact (followLines_of_aligns steady).1 _ aligns 0 found rfl
  · rw [List.append_assoc] at closely ⊢
    obtain ⟨p, next, rest, same⟩ := closely.followLines_append frontGapless
    rw [List.drop_zero] at same
    rw [same]
    exact rest.followLines_finds isGap backGapless

/-- Lines that end with one for any number of instructions leave the rest of a body open. -/
theorem FollowsClosely.append {cx : BodyContext} {code : List Insn} {afterAny : Bool} {place : Nat}
    {ls : List SoughtLine} {found final : Found} (more : List Insn)
    (closely : FollowsClosely cx code afterAny place ls found final)
    (isOpen : ls = [] → afterAny = true)
    (ends : ∀ l, ls.getLast? = some l → l.line.pattern = .any) :
    FollowsClosely cx (code ++ more) afterAny place ls found final := by
  have ends_tail : ∀ {l : SoughtLine} {ls : List SoughtLine},
      (∀ l', (l :: ls).getLast? = some l' → l'.line.pattern = .any) →
      ∀ l', ls.getLast? = some l' → l'.line.pattern = .any := by
    intro l ls ends l' isLast
    refine ends l' ?_
    rw [List.getLast?_cons, isLast]
    rfl
  induction closely with
  | done _ => exact .done fun anchored => absurd (isOpen rfl) (by simp [anchored])
  | any isAny _ ih => exact .any isAny (ih (fun _ => rfl) (ends_tail ends))
  | @insn _ _ l ls _ _ _ p insn notAny further here between matched _ ih =>
    have inside : p < code.length := (List.getElem?_eq_some_iff.1 here).1
    refine .insn notAny further ?_ (fun anchored q passed since before isPassed => ?_) matched
      (ih (fun last => ?_) (ends_tail ends))
    · rwa [List.getElem?_append_left inside]
    · rw [List.getElem?_append_left (by omega)] at isPassed
      exact between anchored q passed since before isPassed
    · exact absurd (ends l (by rw [last]; rfl)) notAny

/-- Without lines for regions, finding the lines of a block is following those for instructions. -/
theorem walk_of_no_regions {cx : BodyContext} {lines : List InsnLine}
    (noRegions : ∀ l ∈ lines, l.mode ≠ .add → l.pattern.isTryCatch = false) (code : Code)
    (scope : Scope) :
    (∃ r, walk cx lines code scope = .ok r) ↔ ∃ final,
      followLines cx false (SoughtLine.forInsns lines) 0 code.insns ⟨scope, .empty⟩ =
        .matched final := by
  have none_ : SoughtLine.forRegions lines = [] := by
    refine List.filter_eq_nil_iff.2 fun l member => ?_
    simp [noRegions l.line (SoughtLine.line_mem_of_ofBlock member)
      (SoughtLine.mode_of_ofBlock member)]
  have begun : findRegions cx code.regions (SoughtLine.forRegions lines) scope .empty =
      .ok (scope, .empty) := by rw [none_]; rfl
  have run := walk_of_findRegions begun
  rw [run]
  cases followLines cx false (SoughtLine.forInsns lines) 0 code.insns ⟨scope, .empty⟩ with
  | matched found => exact ⟨fun _ => ⟨found, rfl⟩, fun _ => ⟨_, rfl⟩⟩
  | stuck | failed => exact ⟨nofun, nofun⟩

/-- Where no line can bind a name or all lines for any instructions stand together, the lines of a
block are found exactly if they can be aligned with the body. If the last of them is for any
instructions, it is enough that they can be aligned with the beginning of the body. -/
theorem walk_finds_iff {cx : BodyContext} {lines : List InsnLine}
    (noRegions : ∀ l ∈ lines, l.mode ≠ .add → l.pattern.isTryCatch = false)
    (tame : NothingToBind (SoughtLine.forInsns lines) ∨ OneGap (SoughtLine.forInsns lines))
    (code : Code) (scope : Scope) :
    ((∃ r, walk cx lines code scope = .ok r) ↔ Alignable cx lines code.insns scope) ∧
      (EndsInAny (SoughtLine.forInsns lines) → ∀ front back, code.insns = front ++ back →
        Alignable cx lines front scope → ∃ r, walk cx lines code scope = .ok r) := by
  have aligned : (∃ r, walk cx lines code scope = .ok r) ↔ Alignable cx lines code.insns scope := by
    rw [walk_of_no_regions noRegions]
    constructor
    · rintro ⟨final, matched⟩
      exact ⟨final, followLines_closely matched⟩
    · rintro ⟨final, closely⟩
      exact closely.isFound tame
  refine ⟨aligned, fun ⟨last, isLast, isAny⟩ front back whole ⟨final, closely⟩ => ?_⟩
  rw [aligned, whole]
  refine ⟨final, ?_⟩
  refine closely.append back (fun empty => ?_) fun l isLast' => ?_
  · rw [empty] at isLast
    cases isLast
  · obtain rfl := Option.some.inj (isLast.symm.trans isLast')
    exact isAny

/-- The only line for any instructions comes first, and the place of the second push is right. -/
theorem walk_finds_iff_findsLastPush : Alignable inVoid findsLastPush dropsTwo.insns {} := by
  have oneGap : OneGap (SoughtLine.forInsns findsLastPush) := by
    refine ⟨[], (SoughtLine.forInsns findsLastPush).take 1,
      (SoughtLine.forInsns findsLastPush).drop 1, ?_, ?_, ?_, ?_⟩
    · rfl
    · exact fun _ member => nomatch member
    · decide
    · unfold Gapless
      decide
  exact (walk_finds_iff (by decide) (.inr oneGap) dropsTwo {}).1.1 ⟨_, walk_findsLastPush⟩

end JvmPatch
