import JvmPatch.Proofs.Pattern.Under
import JvmPatch.Proofs.Resolve.Alignment

/-! The lines of a method block are found where they can be found at all, as long as the names that
they could bind in more than one way have been settled before. -/

set_option autoImplicit false

namespace JvmPatch

open ScopeM

/-- The lines match instructions one after the other, with nothing in between but what lines pass
over, unless a line for any number of instructions is there. -/
inductive Aligns (fits : SoughtLine → Insn → Prop) : List SoughtLine → List Insn → Prop where
  | done {insns} : insns.all Insn.isPseudo = true → Aligns fits [] insns
  | any {l ls insns rest} : l.line.pattern = .any → rest <:+ insns → Aligns fits ls rest →
      Aligns fits (l :: ls) insns
  | passed {l ls insn insns} : l.line.pattern ≠ .any → l.passesOver insn = true →
      Aligns fits (l :: ls) insns → Aligns fits (l :: ls) (insn :: insns)
  | insn {l ls insn insns} : l.line.pattern ≠ .any → fits l insn → Aligns fits ls insns →
      Aligns fits (l :: ls) (insn :: insns)

/-- The line matches the instruction under the binding. -/
def SoughtLine.Fits (cx : BodyContext) (full : Scope) (l : SoughtLine) (insn : Insn) : Prop :=
  ((cx.matchInsn l.line.pattern insn).run full).1 = true

namespace SoughtLine

variable {cx : BodyContext} {full : Scope} {l : SoughtLine} {insn : Insn}

/-- What matches is not passed over. -/
theorem Fits.stops (fits : l.Fits cx full insn) : l.passesOver insn = false := by
  cases insn with
  | line number =>
    have never : cx.matchInsn l.line.pattern (.line number) = pure false := by
      cases l.line.pattern <;> rfl
    rw [Fits, never] at fits
    cases fits
  | label label =>
    rw [passesOver]
    cases isLabel : l.line.pattern with
    | label p => rfl
    | _ =>
      rw [Fits, isLabel] at fits
      cases fits
  | _ => rfl

/-- With its names bound as in the full binding, a line matches what it matches there. -/
def Steady (cx : BodyContext) (full scope : Scope) (l : SoughtLine) : Prop :=
  ∀ insn, (cx.matchInsn l.line.pattern insn).run scope =
    (((cx.matchInsn l.line.pattern insn).run full).1, scope)

theorem Steady.matchAt_of_fits {scope : Scope} (steady : l.Steady cx full scope)
    (fits : l.Fits cx full insn) (place : Nat) {found : Found} (here : found.scope = scope) :
    ∃ next, l.matchAt cx place insn found = some next ∧ next.scope = scope := by
  refine ⟨⟨scope, found.positions.insert l.index place⟩, ?_, rfl⟩
  have run := steady insn
  rw [fits] at run
  rw [matchAt_eq, here, run, if_pos rfl]

theorem Steady.fits_of_matchAt {scope : Scope} (steady : l.Steady cx full scope) {place : Nat}
    {found next : Found} (here : found.scope = scope)
    (matched : l.matchAt cx place insn found = some next) :
    l.Fits cx full insn ∧ next.scope = scope := by
  have run := (matchAt_eq_some matched).1
  rw [here, steady insn] at run
  obtain ⟨fits, same⟩ := Prod.mk.inj run
  exact ⟨fits, same.symm⟩

end SoughtLine

namespace Aligns

variable {fits : SoughtLine → Insn → Prop} {l : SoughtLine} {ls : List SoughtLine}
  {insn : Insn} {insns : List Insn}

theorem not_nil (notAny : l.line.pattern ≠ .any) (aligns : Aligns fits (l :: ls) []) : False := by
  cases aligns with
  | any isAny => exact notAny isAny

theorem of_any (isAny : l.line.pattern = .any) (aligns : Aligns fits (l :: ls) insns) :
    ∃ rest, rest <:+ insns ∧ Aligns fits ls rest := by
  cases aligns with
  | any _ skipped rest => exact ⟨_, skipped, rest⟩
  | passed notAny => exact absurd isAny notAny
  | insn notAny => exact absurd isAny notAny

/-- A line that passes over an instruction goes on after it. -/
theorem of_passesOver (stops : ∀ insn, fits l insn → l.passesOver insn = false)
    (passes : l.passesOver insn = true) (notAny : l.line.pattern ≠ .any)
    (aligns : Aligns fits (l :: ls) (insn :: insns)) : Aligns fits (l :: ls) insns := by
  cases aligns with
  | any isAny => exact absurd isAny notAny
  | passed _ _ rest => exact rest
  | insn _ matched _ =>
    rw [stops insn matched] at passes
    cases passes

theorem of_stops (stopped : l.passesOver insn = false) (notAny : l.line.pattern ≠ .any)
    (aligns : Aligns fits (l :: ls) (insn :: insns)) : fits l insn ∧ Aligns fits ls insns := by
  cases aligns with
  | any isAny => exact absurd isAny notAny
  | passed _ passes _ =>
    rw [stopped] at passes
    cases passes
  | insn _ matched rest => exact ⟨matched, rest⟩

/-- The first line matches somewhere, and the others follow. -/
theorem exists_first (notAny : l.line.pattern ≠ .any) {all : List Insn}
    (aligns : Aligns fits (l :: ls) all) :
    ∃ insn rest, insn :: rest <:+ all ∧ fits l insn ∧ Aligns fits ls rest := by
  induction all with
  | nil => exact (aligns.not_nil notAny).elim
  | cons insn insns ih =>
    cases aligns with
    | any isAny => exact absurd isAny notAny
    | passed _ _ later =>
      obtain ⟨insn', rest, suffix, first⟩ := ih later
      exact ⟨insn', rest, suffix.trans (List.suffix_cons insn insns), first⟩
    | insn _ matched rest => exact ⟨insn, insns, List.suffix_refl _, matched, rest⟩

end Aligns

namespace SoughtLine

/-- From these instructions on, lines are found. -/
def Rest.Finds (rest : Rest) (scope : Scope) (insns : List Insn) : Prop :=
  ∀ place (found : Found), found.scope = scope →
    ∃ final, rest place insns found = .matched final

/-- From these instructions on, lines may not be found, but they may be found from later ones on. -/
def Rest.GoesOn (rest : Rest) (scope : Scope) (insns : List Insn) : Prop :=
  ∀ place (found : Found) fault, found.scope = scope → rest place insns found ≠ .failed fault

variable {cx : BodyContext} {full scope : Scope} {l : SoughtLine} {ls : List SoughtLine}
  {next : Rest}

theorem step_finds (steady : l.Steady cx full scope) (notAny : l.line.pattern ≠ .any)
    (finds : ∀ insns, Aligns (Fits cx full) ls insns → next.Finds scope insns)
    {insns : List Insn} (aligns : Aligns (Fits cx full) (l :: ls) insns) :
    Rest.Finds (l.step cx next) scope insns := by
  intro place found here
  induction insns generalizing place with
  | nil => exact (aligns.not_nil notAny).elim
  | cons insn insns ih =>
    rw [step]
    split
    · exact ih (aligns.of_passesOver (fun _ => Fits.stops) ‹_› notAny) (place + 1)
    · rename_i stopped
      obtain ⟨fits, rest⟩ := aligns.of_stops (by simpa using stopped) notAny
      obtain ⟨later, matched, same⟩ := steady.matchAt_of_fits fits place here
      rw [matched]
      exact finds insns rest (place + 1) later same

theorem step_goesOn (steady : l.Steady cx full scope)
    (goesOn : ∀ insns rest, rest <:+ insns → Aligns (Fits cx full) ls rest →
      next.GoesOn scope insns)
    {insns rest : List Insn} {first : Insn} (suffix : first :: rest <:+ insns)
    (fits : l.Fits cx full first) (aligns : Aligns (Fits cx full) ls rest) :
    Rest.GoesOn (l.step cx next) scope insns := by
  intro place found fault here
  induction insns generalizing place with
  | nil =>
    rw [step]
    exact WalkOutcome.noConfusion
  | cons insn insns ih =>
    rw [step]
    rcases List.suffix_cons_iff.1 suffix with same | later
    · obtain ⟨rfl, rfl⟩ := List.cons.inj same
      obtain ⟨found', matched, same⟩ := steady.matchAt_of_fits fits place here
      rw [fits.stops, matched]
      exact goesOn rest rest (List.suffix_refl _) aligns (place + 1) found' fault same
    · split
      · exact ih later (place + 1)
      · split
        · rename_i matched
          have after : rest <:+ insns := (List.suffix_cons first rest).trans later
          exact goesOn insns rest after aligns (place + 1) _ fault
            (steady.fits_of_matchAt here matched).2
        · exact WalkOutcome.noConfusion

/-- The first place from which the next lines are found is taken; no earlier one ends the search,
since the lines from there on could be found later. -/
theorem seek_finds (steady : l.Steady cx full scope)
    (finds : ∀ insns, Aligns (Fits cx full) ls insns → next.Finds scope insns)
    (goesOn : ∀ insns rest, rest <:+ insns → Aligns (Fits cx full) ls rest →
      next.GoesOn scope insns)
    {insns rest : List Insn} {first : Insn} (suffix : first :: rest <:+ insns)
    (fits : l.Fits cx full first) (aligns : Aligns (Fits cx full) ls rest) (again : Bool) :
    Rest.Finds (l.seek cx next again) scope insns := by
  intro place found here
  induction insns generalizing place again with
  | nil => simp at suffix
  | cons insn insns ih =>
    rw [seek]
    rcases List.suffix_cons_iff.1 suffix with same | later
    · obtain ⟨rfl, rfl⟩ := List.cons.inj same
      obtain ⟨found', matched, same⟩ := steady.matchAt_of_fits fits place here
      obtain ⟨final, outcome⟩ := finds rest aligns (place + 1) found' same
      rw [fits.stops, matched]
      exact ⟨final, by simp only [outcome, Bool.false_eq_true, if_false]⟩
    · split
      · exact ih later again (place + 1)
      · split
        · exact ih later again (place + 1)
        · rename_i found' matched
          have after : rest <:+ insns := (List.suffix_cons first rest).trans later
          have same := (steady.fits_of_matchAt here matched).2
          cases outcome : next (place + 1) insns found' with
          | matched final => exact ⟨final, rfl⟩
          | stuck fault => exact ih later true (place + 1)
          | failed fault => exact absurd outcome (goesOn insns rest after aligns _ _ fault same)

end SoughtLine

open SoughtLine in
/-- Lines whose names are settled are found if they can be aligned: after a line for any
instructions also from any earlier place on, and otherwise the search at least goes on from
there. -/
theorem followLines_of_aligns {cx : BodyContext} {full scope : Scope} {ls : List SoughtLine}
    (steady : ∀ l ∈ ls, l.line.pattern ≠ .any → l.Steady cx full scope) :
    (∀ insns, Aligns (Fits cx full) ls insns → Rest.Finds (followLines cx false ls) scope insns) ∧
    ∀ insns rest, rest <:+ insns → Aligns (Fits cx full) ls rest →
      Rest.Finds (followLines cx true ls) scope insns ∧
        Rest.GoesOn (followLines cx false ls) scope insns := by
  induction ls with
  | nil =>
    refine ⟨fun insns aligns place found _ => ?_, fun insns rest _ _ => ⟨fun place found _ => ?_,
      fun place found fault _ => ?_⟩⟩
    · cases aligns with
      | done pseudo => exact ⟨found, by simp [followLines, pseudo]⟩
    · exact ⟨found, by simp [followLines]⟩
    · rw [followLines]
      split
      · exact WalkOutcome.noConfusion
      · exact WalkOutcome.noConfusion
  | cons l ls ih =>
    obtain ⟨finds, later⟩ := ih fun l member => steady l (.tail _ member)
    have goesOn : ∀ insns rest, rest <:+ insns → Aligns (Fits cx full) ls rest →
        Rest.GoesOn (followLines cx false ls) scope insns :=
      fun insns rest suffix aligns => (later insns rest suffix aligns).2
    by_cases isAny : l.line.pattern = .any
    · have after : ∀ insns rest, rest <:+ insns → Aligns (Fits cx full) (l :: ls) rest →
          Rest.Finds (followLines cx true ls) scope insns := by
        intro insns rest suffix aligns
        obtain ⟨rest', skipped, aligned⟩ := aligns.of_any isAny
        exact (later insns rest' (skipped.trans suffix) aligned).1
      have same : ∀ afterAny, followLines cx afterAny (l :: ls) = followLines cx true ls := by
        intro afterAny
        funext place insns found
        rw [followLines, if_pos isAny]
      rw [same, same]
      refine ⟨fun insns aligns => after insns insns (List.suffix_refl _) aligns,
        fun insns rest suffix aligns => ⟨after insns rest suffix aligns, ?_⟩⟩
      intro place found fault here failed
      obtain ⟨final, matched⟩ := after insns rest suffix aligns place found here
      rw [matched] at failed
      cases failed
    · have here := steady l List.mem_cons_self isAny
      have stepping : followLines cx false (l :: ls) = l.step cx (followLines cx false ls) := by
        funext place insns found
        rw [followLines, if_neg isAny]
        rfl
      have seeking : followLines cx true (l :: ls) =
          l.seek cx (followLines cx false ls) false := by
        funext place insns found
        rw [followLines, if_neg isAny]
        rfl
      rw [stepping, seeking]
      refine ⟨fun insns aligns => step_finds here isAny finds aligns,
        fun insns rest suffix aligns => ?_⟩
      obtain ⟨first, rest', inside, fits, aligned⟩ := aligns.exists_first isAny
      exact ⟨seek_finds here finds goesOn (inside.trans suffix) fits aligned false,
        step_goesOn here goesOn (inside.trans suffix) fits aligned⟩

/-- Lines whose names are settled bind nothing. -/
theorem Follows.scope_eq {cx : BodyContext} {full : Scope} {code : List Insn} {place : Nat}
    {ls : List SoughtLine} {found final : Found} (follows : Follows cx code place ls found final)
    (steady : ∀ l ∈ ls, l.line.pattern ≠ .any → l.Steady cx full found.scope) :
    final.scope = found.scope := by
  induction follows with
  | done => rfl
  | any _ _ ih => exact ih fun l member => steady l (.tail _ member)
  | insn notAny _ _ matched _ ih =>
    obtain ⟨-, same⟩ := (steady _ List.mem_cons_self notAny).fits_of_matchAt rfl matched
    rw [ih fun l member => same ▸ steady l (.tail _ member), same]

/-- The looks at the lines for instructions. After a line for any instructions they can be found at
different places. -/
def insnLooks : Bool → List SoughtLine → List Look
  | _, [] => []
  | afterAny, l :: ls =>
    if l.line.pattern = .any then insnLooks true ls
    else ⟨l.line.pattern.weakNames, afterAny = true⟩ :: insnLooks afterAny ls

/-- After a line for any instructions, all names have been looked at before. -/
theorem names_of_settled {ls : List SoughtLine} {before : List String}
    (settled : Look.Settled before (insnLooks true ls)) :
    (∀ l ∈ ls, l.line.pattern ≠ .any → ∀ name ∈ l.line.pattern.weakNames, name ∈ before) ∧
      ∀ name ∈ Look.allNames (insnLooks true ls), name ∈ before := by
  induction ls generalizing before with
  | nil => exact ⟨fun _ member => (nomatch member), fun _ member => (nomatch member)⟩
  | cons l ls ih =>
    rw [insnLooks] at settled ⊢
    by_cases isAny : l.line.pattern = .any
    · rw [if_pos isAny] at settled ⊢
      obtain ⟨lines, all⟩ := ih settled
      refine ⟨fun l' member notAny => ?_, all⟩
      rcases List.mem_cons.1 member with rfl | member
      · exact absurd isAny notAny
      · exact lines l' member notAny
    · rw [if_neg isAny] at settled ⊢
      obtain ⟨first, rest⟩ := settled
      have earlier := first rfl
      obtain ⟨lines, all⟩ := ih rest
      have back : ∀ name ∈ before ++ l.line.pattern.weakNames, name ∈ before := by
        intro name member
        rcases List.mem_append.1 member with h | h
        · exact h
        · exact earlier name h
      refine ⟨fun l' member notAny name inside => ?_, fun name member => ?_⟩
      · rcases List.mem_cons.1 member with rfl | member
        · exact earlier name inside
        · exact back name (lines l' member notAny name inside)
      · rw [Look.allNames, List.flatMap_cons] at member
        rcases List.mem_append.1 member with h | h
        · exact earlier name h
        · exact back name (all name h)

namespace SoughtLine

variable {cx : BodyContext} {full : Scope} {l : SoughtLine} {ls : List SoughtLine}

theorem steady_of_settles (injective : full.Injective cx.classes)
    (only : l.line.pattern.BindsOnlyClasses) (total : full.Settles l.line.pattern.weakNames)
    {scope : Scope} (under : scope.Under full) (settles : scope.Settles l.line.pattern.weakNames) :
    l.Steady cx full scope := fun insn =>
  (cx.matchInsn_decidesUnder injective only insn).decides total scope (settles.same under)

/-- Unless it comes after a line for any instructions, a line can only be at one place. -/
theorem step_of_aligns (notAny : l.line.pattern ≠ .any) {code : List Insn} {place : Nat}
    (aligns : Aligns (Fits cx full) (l :: ls) (code.drop place)) :
    ∃ p insn, l.Fits cx full insn ∧ Aligns (Fits cx full) ls (code.drop (p + 1)) ∧
      ∀ (rest : Rest) (found next : Found), l.matchAt cx p insn found = some next →
        l.step cx rest place (code.drop place) found = rest (p + 1) (code.drop (p + 1)) next := by
  generalize remaining : code.drop place = insns at aligns ⊢
  induction insns generalizing place with
  | nil => exact (aligns.not_nil notAny).elim
  | cons insn insns ih =>
    have after : code.drop (place + 1) = insns := by
      rw [← List.tail_drop, remaining]
      rfl
    by_cases passes : l.passesOver insn = true
    · obtain ⟨p, insn', fits, rest, next⟩ :=
        ih after (aligns.of_passesOver (fun _ => Fits.stops) passes notAny)
      refine ⟨p, insn', fits, rest, fun rest found next' matched => ?_⟩
      rw [step, if_pos passes]
      exact next rest found next' matched
    · obtain ⟨fits, rest⟩ := aligns.of_stops (by simpa using passes) notAny
      refine ⟨place, insn, fits, by rwa [after], fun rest found next matched => ?_⟩
      rw [step, if_neg passes, matched, after]

end SoughtLine

open SoughtLine in
/-- Lines that can be aligned with the instructions are found, if the names of those that could be
found at different places have been looked at before. -/
theorem followLines_finds {cx : BodyContext} {full : Scope} (injective : full.Injective cx.classes)
    {ls : List SoughtLine} (only : ∀ l ∈ ls, l.line.pattern.BindsOnlyClasses)
    {code : List Insn} (place : Nat) (aligns : Aligns (Fits cx full) ls (code.drop place))
    (total : full.Settles (Look.allNames (insnLooks false ls))) {before : List String}
    (settled : Look.Settled before (insnLooks false ls)) (found : Found)
    (under : found.scope.Under full) (known : found.scope.Settles before) :
    ∃ final, followLines cx false ls place (code.drop place) found = .matched final ∧
      Scope.Reaches full found.scope final.scope ∧
        final.scope.Settles (Look.allNames (insnLooks false ls)) := by
  induction ls generalizing place before found with
  | nil =>
    cases aligns with
    | done pseudo =>
      exact ⟨found, by simp [followLines, pseudo], .refl under, fun _ member => nomatch member⟩
  | cons l ls ih =>
    rw [followLines]
    rw [insnLooks] at settled total ⊢
    by_cases isAny : l.line.pattern = .any
    · rw [if_pos isAny] at settled total ⊢
      rw [if_pos isAny]
      obtain ⟨lines, all⟩ := names_of_settled settled
      have steady : ∀ l ∈ ls, l.line.pattern ≠ .any → l.Steady cx full found.scope := by
        intro l member notAny
        have settles : found.scope.Settles l.line.pattern.weakNames :=
          known.mono (lines l member notAny)
        refine steady_of_settles injective (only l (.tail _ member)) ?_ under settles
        intro name inside
        rw [← settles.same under name inside]
        exact settles name inside
      obtain ⟨rest, skipped, aligned⟩ := aligns.of_any isAny
      obtain ⟨final, matched⟩ :=
        ((followLines_of_aligns steady).2 _ _ skipped aligned).1 place found rfl
      have same := (followLines_matched matched).scope_eq steady
      refine ⟨final, matched, ?_, ?_⟩
      · rw [same]
        exact .refl under
      · rw [same]
        exact known.mono all
    · rw [if_neg isAny] at settled total ⊢
      rw [if_neg isAny]
      simp only [Bool.false_eq_true, if_false]
      rw [Look.allNames, List.flatMap_cons] at total ⊢
      obtain ⟨p, insn, fits, aligned, stepped⟩ := step_of_aligns isAny aligns
      obtain ⟨scope, matched, toScope, scopeKnows⟩ :=
        (cx.matchInsn_decidesUnder injective (only l List.mem_cons_self) insn).settles fits
          (total.mono fun _ member => List.mem_append_left _ member) found.scope under
      have here : l.matchAt cx p insn found = some ⟨scope, found.positions.insert l.index p⟩ := by
        rw [matchAt_eq, matched, if_pos rfl]
      rw [stepped _ _ _ here]
      obtain ⟨final, outcome, toFinal, finalKnows⟩ :=
        ih (fun l member => only l (.tail _ member)) (p + 1) aligned
          (total.mono fun _ member => List.mem_append_right _ member) settled.2
          ⟨scope, found.positions.insert l.index p⟩ toScope.under
          ((toScope.settles known).append scopeKnows)
      exact ⟨final, outcome, toScope.trans toFinal, (toFinal.settles scopeKnows).append finalKnows⟩

/-- The region matches the pattern under the binding. -/
def BodyContext.RegionFits (cx : BodyContext) (full : Scope) (pattern : Pattern)
    (region : Region) : Prop :=
  match pattern with
  | .tryCatch start stop handler catchType =>
    ((cx.matchRegion start stop handler catchType region).run full).1 = true
  | _ => False

def catchTypes (regions : List Region) : List String := regions.filterMap Region.catchType

def regionLooks (set : ClassSet) (regions : List Region) (ls : List SoughtLine) : List Look :=
  ls.map fun l => ⟨l.line.pattern.weakNames, set.Ambiguous (catchTypes regions)⟩

namespace BodyContext

variable {cx : BodyContext} {full : Scope}

/-- With free labels only the catch type of a region counts. -/
theorem run_matchRegion {start stop handler : LabelRef} {catchType : Option TypeDesc}
    (only : (Pattern.tryCatch start stop handler catchType).BindsOnlyClasses) (region : Region)
    (scope : Scope) :
    ((cx.matchRegion start stop handler catchType region).run scope).1 =
      ((cx.matchCatchType catchType region.catchType).run scope).1 := by
  obtain ⟨rfl, rfl, rfl⟩ := only
  rw [matchRegion, both, run_bind]
  cases ((cx.matchCatchType catchType region.catchType).run scope).1 <;> rfl

/-- If a region fits and no region with another catch type could be taken, then only those are
accepted that fit. -/
theorem fits_of_matchRegion (injective : full.Injective cx.classes)
    {start stop handler : LabelRef} {catchType : Option TypeDesc}
    (only : (Pattern.tryCatch start stop handler catchType).BindsOnlyClasses)
    (total : full.Settles (Pattern.tryCatch start stop handler catchType).weakNames)
    {scope : Scope} (under : scope.Under full) {regions : List Region}
    (clear : cx.classes.Ambiguous (catchTypes regions) →
      scope.Settles (Pattern.tryCatch start stop handler catchType).weakNames)
    {fitting : Region} (member : fitting ∈ regions)
    (fits : ((cx.matchRegion start stop handler catchType fitting).run full).1 = true)
    {region : Region} (inside : region ∈ regions)
    (accepted : ((cx.matchRegion start stop handler catchType region).run scope).1 = true) :
    ((cx.matchRegion start stop handler catchType region).run full).1 = true := by
  rw [run_matchRegion only] at fits accepted ⊢
  cases catchType with
  | none =>
    cases caught : region.catchType with
    | none => rfl
    | some name =>
      rw [caught] at accepted
      cases accepted
  | some pattern =>
    cases caught : region.catchType with
    | none =>
      rw [caught] at accepted
      cases accepted
    | some name =>
      cases caught' : fitting.catchType with
      | none =>
        rw [caught'] at fits
        cases fits
      | some name' =>
        rw [caught] at accepted
        rw [caught'] at fits
        exact ClassSet.fits_of_typesAgree injective total under clear
          (List.mem_filterMap.2 ⟨fitting, member, caught'⟩) fits
          (List.mem_filterMap.2 ⟨region, inside, caught⟩) accepted

theorem firstRegion_append {test : Region → ScopeM Bool} {before after : List Region}
    {region : Region} {scope later : Scope}
    (others : ∀ r ∈ before, ((test r).run scope).1 = false)
    (success : (test region).run scope = (true, later)) (place : Nat) :
    (firstRegion test place (before ++ region :: after)).run scope =
      (some (place + before.length), later) := by
  induction before generalizing place with
  | nil =>
    rw [List.nil_append, run_firstRegion_cons, success, if_pos rfl, List.length_nil, Nat.add_zero]
  | cons other before ih =>
    have fails := others other List.mem_cons_self
    rw [List.cons_append, run_firstRegion_cons, if_neg (Bool.not_eq_true _ ▸ fails),
      ih (fun r member => others r (.tail _ member)) (place + 1), List.length_cons,
      show place + 1 + before.length = place + (before.length + 1) by omega]

/-- A region is found if some region fits and no region with another catch type could be taken. -/
theorem findRegion_of_under (injective : full.Injective cx.classes) {pattern : Pattern}
    (only : pattern.BindsOnlyClasses) (total : full.Settles pattern.weakNames) {scope : Scope}
    (under : scope.Under full) {regions : List Region}
    (clear : cx.classes.Ambiguous (catchTypes regions) → scope.Settles pattern.weakNames)
    {fitting : Region} (member : fitting ∈ regions) (fits : cx.RegionFits full pattern fitting) :
    ∃ place later, (cx.findRegion pattern regions).run scope = (some place, later) ∧
      Scope.Reaches full scope later ∧ later.Settles pattern.weakNames := by
  cases pattern with
  | tryCatch start stop handler catchType =>
    obtain ⟨before, region, after, later, rfl, others, success, result⟩ :=
      DecidesUnder.exists_first
        (fun region _ => cx.matchRegion_decidesUnder injective only region) total under member fits
        fun region inside =>
          fits_of_matchRegion injective only total under clear member fits inside
    exact ⟨_, later, firstRegion_append others success 0, result⟩
  | _ => exact fits.elim

end BodyContext

/-- Regions are found for lines that fit some, if the names of those that could be found for
different catch types have been looked at before. -/
theorem findRegions_finds {cx : BodyContext} {full : Scope} (injective : full.Injective cx.classes)
    {regions : List Region} {ls : List SoughtLine}
    (only : ∀ l ∈ ls, l.line.pattern.BindsOnlyClasses)
    (fits : ∀ l ∈ ls, ∃ region ∈ regions, cx.RegionFits full l.line.pattern region)
    (total : full.Settles (Look.allNames (regionLooks cx.classes regions ls)))
    {before : List String} (settled : Look.Settled before (regionLooks cx.classes regions ls))
    {scope : Scope} (under : scope.Under full) (known : scope.Settles before)
    (found : Table Nat Nat) :
    ∃ later places, findRegions cx regions ls scope found = .ok (later, places) ∧
      Scope.Reaches full scope later ∧
        later.Settles (Look.allNames (regionLooks cx.classes regions ls)) := by
  induction ls generalizing before scope found with
  | nil => exact ⟨scope, found, rfl, .refl under, fun _ member => nomatch member⟩
  | cons l ls ih =>
    rw [regionLooks, List.map_cons, Look.allNames, List.flatMap_cons] at total ⊢
    rw [regionLooks, List.map_cons] at settled
    obtain ⟨here, rest⟩ := settled
    obtain ⟨fitting, member, fit⟩ := fits l List.mem_cons_self
    obtain ⟨place, middle, one, toMiddle, settles⟩ :=
      BodyContext.findRegion_of_under injective (only l List.mem_cons_self)
        (total.mono fun _ member => List.mem_append_left _ member) under
        (fun ambiguous => known.mono (here ambiguous)) member fit
    obtain ⟨later, places, two, toLater, settles'⟩ :=
      ih (fun l member => only l (.tail _ member)) (fun l member => fits l (.tail _ member))
        (total.mono fun _ member => List.mem_append_right _ member) rest toMiddle.under
        ((toMiddle.settles known).append settles) (found.insert l.index place)
    refine ⟨later, places, ?_, toMiddle.trans toLater, (toLater.settles settles).append settles'⟩
    rw [findRegions, one]
    exact two

/-- The lines of a block can be found in a body under the binding: a region for each line that is
for one, and the other lines in order among the instructions. -/
structure BodyHolds (cx : BodyContext) (full : Scope) (lines : List InsnLine) (code : Code) :
    Prop where
  regions : ∀ l ∈ SoughtLine.ofBlock lines, l.line.pattern.isTryCatch = true →
    ∃ region ∈ code.regions, cx.RegionFits full l.line.pattern region
  insns : Aligns (SoughtLine.Fits cx full)
    ((SoughtLine.ofBlock lines).filter fun l => !l.line.pattern.isTryCatch) code.insns

def bodyLooks (set : ClassSet) (lines : List InsnLine) (code : Code) : List Look :=
  regionLooks set code.regions
      ((SoughtLine.ofBlock lines).filter fun l => l.line.pattern.isTryCatch) ++
    insnLooks false ((SoughtLine.ofBlock lines).filter fun l => !l.line.pattern.isTryCatch)

/-- Lines that can be found in a body are found, if the names of those that could be found in
different ways have been looked at before. -/
theorem walk_finds {cx : BodyContext} {full : Scope} (injective : full.Injective cx.classes)
    {lines : List InsnLine} (only : ∀ l ∈ lines, l.pattern.BindsOnlyClasses) {code : Code}
    (holds : BodyHolds cx full lines code)
    (total : full.Settles (Look.allNames (bodyLooks cx.classes lines code)))
    {before : List String} (settled : Look.Settled before (bodyLooks cx.classes lines code))
    {scope : Scope} (under : scope.Under full) (known : scope.Settles before) :
    ∃ later places, walk cx lines code scope = .ok (later, places) ∧
      Scope.Reaches full scope later ∧
        later.Settles (Look.allNames (bodyLooks cx.classes lines code)) := by
  rw [bodyLooks, Look.allNames_append] at total ⊢
  rw [bodyLooks, Look.settled_append] at settled
  have onlySought : ∀ p : SoughtLine → Bool, ∀ l ∈ (SoughtLine.ofBlock lines).filter p,
      l.line.pattern.BindsOnlyClasses := fun p l member =>
    only l.line (SoughtLine.line_mem_of_ofBlock (List.mem_filter.1 member).1)
  obtain ⟨middle, regions, one, toMiddle, settles⟩ :=
    findRegions_finds injective (onlySought _)
      (fun l member => holds.regions l (List.mem_filter.1 member).1 (List.mem_filter.1 member).2)
      (total.mono fun _ member => List.mem_append_left _ member) settled.1 under known .empty
  obtain ⟨final, two, toFinal, settles'⟩ :=
    followLines_finds injective (onlySought _) 0 holds.insns
      (total.mono fun _ member => List.mem_append_right _ member) settled.2
      ⟨middle, .empty⟩ toMiddle.under ((toMiddle.settles known).append settles)
  refine ⟨final.scope, ⟨final.positions, regions⟩, ?_, toMiddle.trans toFinal,
    (toFinal.settles settles).append settles'⟩
  have two' : followLines cx false
      ((SoughtLine.ofBlock lines).filter fun l => !l.line.pattern.isTryCatch) 0 code.insns
      ⟨middle, .empty⟩ = .matched final := two
  rw [walk]
  simp only [List.partition_eq_filter_filter, one, ok_bind]
  simp only [Function.comp_def, two']

end JvmPatch
