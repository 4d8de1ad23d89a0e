import JvmPatch.Proofs.Pattern.Recurrence
import JvmPatch.Resolve.Walk

/-! Where the lines of a method block are when they have been found: each at a place of its own, in
the order of the block, where the instruction matched with bindings that have been kept. -/

set_option autoImplicit false

namespace JvmPatch

open ScopeM

namespace BodyContext

theorem matchRegion_widening (cx : BodyContext) (start stop handler : LabelRef)
    (catchType : Option TypeDesc) (region : Region) :
    Widening cx.classes (cx.matchRegion start stop handler catchType region) := by
  have catches : Widening cx.classes (cx.matchCatchType catchType region.catchType) := by
    unfold matchCatchType
    split
    · exact .pure _ _
    · exact cx.classes.typesAgree_widening _ _
    · exact .pure _ _
  exact catches.both ((cx.matchLabel_widening _ _ _).both
    ((cx.matchLabel_widening _ _ _).both (cx.matchLabel_widening _ _ _)))

theorem run_firstRegion_cons (test : Region → ScopeM Bool) (place : Nat) (region : Region)
    (regions : List Region) (scope : Scope) :
    (firstRegion test place (region :: regions)).run scope =
      if ((test region).run scope).1 = true then (some place, ((test region).run scope).2)
      else (firstRegion test (place + 1) regions).run scope := by
  change firstRegion test place (region :: regions) scope = _
  rw [firstRegion]
  beta_reduce
  split
  · rename_i later tested
    rw [show (test region).run scope = (true, later) from tested, if_pos rfl]
  · rename_i later tested
    rw [show (test region).run scope = (false, later) from tested, if_neg Bool.false_ne_true]
    rfl

theorem firstRegion_widening {set : ClassSet} {test : Region → ScopeM Bool}
    (widens : ∀ region, Widening set (test region)) (place : Nat) (regions : List Region) :
    Widening set (firstRegion test place regions) := by
  induction regions generalizing place with
  | nil => exact .pure _ _
  | cons region regions ih =>
    intro scope
    rw [run_firstRegion_cons]
    split
    · exact widens region scope
    · exact ih (place + 1) scope

theorem findRegion_widening (cx : BodyContext) (pattern : Pattern) (regions : List Region) :
    Widening cx.classes (cx.findRegion pattern regions) := by
  unfold findRegion
  split
  · exact firstRegion_widening (fun region => cx.matchRegion_widening _ _ _ _ region) _ _
  · exact .pure _ _

end BodyContext

theorem findRegions_ok {cx : BodyContext} {regions : List Region} {ls : List SoughtLine}
    {scope final : Scope} {found places : Table Nat Nat}
    (h : findRegions cx regions ls scope found = .ok (final, places)) :
    Scope.Widens cx.classes scope final ∧
      (∀ index, (found.get? index).isSome = true → (places.get? index).isSome = true) ∧
      ∀ l ∈ ls, (places.get? l.index).isSome = true := by
  induction ls generalizing scope found with
  | nil =>
    obtain ⟨rfl, rfl⟩ := Prod.mk.inj (Except.ok.inj h)
    exact ⟨.refl _ _, fun _ h => h, fun _ h => nomatch h⟩
  | cons l ls ih =>
    rw [findRegions] at h
    have one := cx.findRegion_widening l.line.pattern regions scope
    cases first : (cx.findRegion l.line.pattern regions).run scope with
    | mk region next =>
      rw [first] at h one
      cases region with
      | none => cases h
      | some region =>
        obtain ⟨widens, kept, rest⟩ := ih h
        refine ⟨one.trans widens, fun index present => kept index ?_, fun l' member => ?_⟩
        · rw [Table.get?_insert]
          split
          · rfl
          · exact present
        · rcases List.mem_cons.1 member with rfl | member
          · exact kept _ (by simp)
          · exact rest l' member

theorem SoughtLine.line_mem_of_ofBlock {lines : List InsnLine} {l : SoughtLine}
    (member : l ∈ ofBlock lines) : l.line ∈ lines := by
  simp only [ofBlock, List.mem_map, List.mem_filter] at member
  obtain ⟨⟨line, index⟩, ⟨inside, -⟩, rfl⟩ := member
  exact List.fst_mem_of_mem_zipIdx inside

theorem SoughtLine.mode_of_ofBlock {lines : List InsnLine} {l : SoughtLine}
    (member : l ∈ ofBlock lines) : l.line.mode ≠ .add := by
  simp only [ofBlock, List.mem_map, List.mem_filter] at member
  obtain ⟨e, ⟨-, sought⟩, rfl⟩ := member
  simpa using sought

/-- The lines are found one after the other from a place on. -/
inductive Follows (cx : BodyContext) (code : List Insn) :
    Nat → List SoughtLine → Found → Found → Prop where
  | done {place found} : Follows cx code place [] found found
  | any {place l ls found final} : l.line.pattern = .any →
      Follows cx code place ls found final → Follows cx code place (l :: ls) found final
  | insn {place l ls found next final p insn} : l.line.pattern ≠ .any → place ≤ p →
      code[p]? = some insn → l.matchAt cx p insn found = some next →
      Follows cx code (p + 1) ls next final → Follows cx code place (l :: ls) found final

/-- The lines are found one after the other from a place on. Unless any instructions may come first,
a line only passes over what is in between, and only labels and line markers are left at the end. -/
inductive FollowsClosely (cx : BodyContext) (code : List Insn) :
    Bool → Nat → List SoughtLine → Found → Found → Prop where
  | done {afterAny place found} :
      (afterAny = false → (code.drop place).all Insn.isPseudo = true) →
      FollowsClosely cx code afterAny place [] found found
  | any {afterAny place l ls found final} : l.line.pattern = .any →
      FollowsClosely cx code true place ls found final →
      FollowsClosely cx code afterAny place (l :: ls) found final
  | insn {afterAny place l ls found next final p insn} : l.line.pattern ≠ .any → place ≤ p →
      code[p]? = some insn →
      (afterAny = false → ∀ q passed, place ≤ q → q < p → code[q]? = some passed →
        l.passesOver passed = true) →
      l.matchAt cx p insn found = some next →
      FollowsClosely cx code false (p + 1) ls next final →
      FollowsClosely cx code afterAny place (l :: ls) found final

theorem FollowsClosely.follows {cx : BodyContext} {code : List Insn} {afterAny : Bool} {place : Nat}
    {ls : List SoughtLine} {found final : Found}
    (closely : FollowsClosely cx code afterAny place ls found final) :
    Follows cx code place ls found final := by
  induction closely with
  | done _ => exact .done
  | any isAny _ ih => exact .any isAny ih
  | insn notAny later here _ matched _ ih => exact .insn notAny later here matched ih

private theorem drop_eq_cons {code insns : List Insn} {place : Nat} {insn : Insn}
    (h : code.drop place = insn :: insns) :
    code[place]? = some insn ∧ code.drop (place + 1) = insns := by
  constructor
  · rw [← List.head?_drop, h]
    rfl
  · rw [← List.tail_drop, h]
    rfl

namespace SoughtLine

theorem step_matched {cx : BodyContext} {l : SoughtLine} {rest : Rest} {code : List Insn}
    {place : Nat} {found final : Found}
    (h : l.step cx rest place (code.drop place) found = .matched final) :
    ∃ p insn next, place ≤ p ∧ code[p]? = some insn ∧
      (∀ q passed, place ≤ q → q < p → code[q]? = some passed → l.passesOver passed = true) ∧
      l.matchAt cx p insn found = some next ∧
      rest (p + 1) (code.drop (p + 1)) next = .matched final := by
  generalize remaining : code.drop place = insns at h
  induction insns generalizing place with
  | nil => simp [step] at h
  | cons insn insns ih =>
    obtain ⟨here, after⟩ := drop_eq_cons remaining
    rw [step] at h
    split at h
    · rename_i passes
      obtain ⟨p, insn', next, later, isInsn, between, rest⟩ := ih after h
      refine ⟨p, insn', next, by omega, isInsn, fun q passed from_ before isPassed => ?_, rest⟩
      rcases Nat.eq_or_lt_of_le from_ with rfl | further
      · obtain rfl := Option.some.inj (here.symm.trans isPassed)
        exact passes
      · exact between q passed further before isPassed
    · cases matched : l.matchAt cx place insn found with
      | none => simp [matched] at h
      | some next =>
        rw [matched] at h
        exact ⟨place, insn, next, Nat.le_refl _, here, fun q _ from_ before => by omega, matched,
          by rwa [after]⟩

theorem seek_matched {cx : BodyContext} {l : SoughtLine} {rest : Rest} {code : List Insn}
    {again : Bool} {place : Nat} {found final : Found}
    (h : l.seek cx rest again place (code.drop place) found = .matched final) :
    ∃ p insn next, place ≤ p ∧ code[p]? = some insn ∧ l.matchAt cx p insn found = some next ∧
      rest (p + 1) (code.drop (p + 1)) next = .matched final := by
  generalize remaining : code.drop place = insns at h
  induction insns generalizing place again with
  | nil =>
    rw [seek] at h
    split at h <;> cases h
  | cons insn insns ih =>
    obtain ⟨here, after⟩ := drop_eq_cons remaining
    have further : ∀ {again}, l.seek cx rest again (place + 1) insns found = .matched final →
        ∃ p insn next, place ≤ p ∧ code[p]? = some insn ∧
          l.matchAt cx p insn found = some next ∧
          rest (p + 1) (code.drop (p + 1)) next = .matched final := by
      intro again h
      obtain ⟨p, insn', next, later, rest⟩ := ih after h
      exact ⟨p, insn', next, by omega, rest⟩
    rw [seek] at h
    split at h
    · exact further h
    · cases matched : l.matchAt cx place insn found with
      | none =>
        rw [matched] at h
        exact further h
      | some next =>
        simp only [matched] at h
        cases outcome : rest (place + 1) insns next with
        | stuck fault =>
          rw [outcome] at h
          exact further h
        | failed fault =>
          rw [outcome] at h
          cases h
        | matched last =>
          rw [outcome] at h
          exact ⟨place, insn, next, Nat.le_refl _, here, matched, by rw [after, outcome]; exact h⟩

end SoughtLine

/-- Lines that are found are found closely one after the other. -/
theorem followLines_closely {cx : BodyContext} {code : List Insn} {ls : List SoughtLine}
    {afterAny : Bool} {place : Nat} {found final : Found}
    (h : followLines cx afterAny ls place (code.drop place) found = .matched final) :
    FollowsClosely cx code afterAny place ls found final := by
  induction ls generalizing afterAny place found with
  | nil =>
    rw [followLines] at h
    split at h
    · rename_i settled
      obtain rfl := WalkOutcome.matched.inj h
      exact .done fun anchored => by simpa [anchored] using settled
    · cases h
  | cons l ls ih =>
    rw [followLines] at h
    split at h
    · exact .any ‹_› (ih h)
    · split at h
      · rename_i free
        obtain ⟨p, insn, next, later, here, matched, rest⟩ := SoughtLine.seek_matched h
        exact .insn ‹_› later here (fun anchored => by simp [anchored] at free) matched (ih rest)
      · obtain ⟨p, insn, next, later, here, between, matched, rest⟩ := SoughtLine.step_matched h
        exact .insn ‹_› later here (fun _ => between) matched (ih rest)

theorem followLines_matched {cx : BodyContext} {code : List Insn} {ls : List SoughtLine}
    {afterAny : Bool} {place : Nat} {found final : Found}
    (h : followLines cx afterAny ls place (code.drop place) found = .matched final) :
    Follows cx code place ls found final := (followLines_closely h).follows

theorem SoughtLine.matchAt_eq (cx : BodyContext) (l : SoughtLine) (place : Nat) (insn : Insn)
    (found : Found) :
    l.matchAt cx place insn found =
      if ((cx.matchInsn l.line.pattern insn).run found.scope).1 = true then
        some ⟨((cx.matchInsn l.line.pattern insn).run found.scope).2,
          found.positions.insert l.index place⟩
      else none := by
  unfold matchAt
  split
  · rename_i later tested
    rw [show (cx.matchInsn l.line.pattern insn).run found.scope = (true, later) from tested,
      if_pos rfl]
  · rename_i later tested
    rw [show (cx.matchInsn l.line.pattern insn).run found.scope = (false, later) from tested,
      if_neg Bool.false_ne_true]

theorem SoughtLine.matchAt_eq_some {cx : BodyContext} {l : SoughtLine} {place : Nat} {insn : Insn}
    {found next : Found} (h : l.matchAt cx place insn found = some next) :
    (cx.matchInsn l.line.pattern insn).run found.scope = (true, next.scope) ∧
      next.positions = found.positions.insert l.index place := by
  rw [matchAt_eq] at h
  split at h
  · rename_i accepted
    obtain rfl := Option.some.inj h
    exact ⟨Prod.ext accepted rfl, rfl⟩
  · cases h

namespace Follows

variable {cx : BodyContext} {code : List Insn} {place : Nat} {ls : List SoughtLine}
  {found final : Found}

theorem widens (follows : Follows cx code place ls found final) :
    Scope.Widens cx.classes found.scope final.scope := by
  induction follows with
  | done => exact .refl _ _
  | any _ _ ih => exact ih
  | @insn _ l _ found next _ p insn _ _ _ matched _ ih =>
    have one := cx.matchInsn_widening l.line.pattern insn found.scope
    rw [(SoughtLine.matchAt_eq_some matched).1] at one
    exact one.trans ih

theorem positions_of_other (follows : Follows cx code place ls found final) {index : Nat}
    (other : ∀ l ∈ ls, l.index ≠ index) :
    final.positions.get? index = found.positions.get? index := by
  induction follows with
  | done => rfl
  | any _ _ ih => exact ih fun l h => other l (.tail _ h)
  | insn _ _ _ matched _ ih =>
    rw [ih fun l h => other l (.tail _ h), (SoughtLine.matchAt_eq_some matched).2,
      Table.get?_insert_of_ne _ _ (other _ List.mem_cons_self).symm]

end Follows

/-- The lines of a block from the one with number `index` on have the given places in a body:
regions have been found for the lines that are for regions, and the other lines that have to be
found are at ascending places from `cursor` on, where the instructions fit. -/
def Placed (fits : InsnLine → Insn → Prop) (code : List Insn) (places : MethodMatch) :
    Nat → Nat → List InsnLine → Prop
  | _, _, [] => True
  | cursor, index, l :: ls =>
    if l.mode = .add then Placed fits code places cursor (index + 1) ls
    else if l.pattern.isTryCatch then
      (places.regions.get? index).isSome = true ∧ Placed fits code places cursor (index + 1) ls
    else if l.pattern = .any then Placed fits code places cursor (index + 1) ls
    else
      ∃ place insn, places.positions.get? index = some place ∧ cursor ≤ place ∧
        code[place]? = some insn ∧ fits l insn ∧ Placed fits code places (place + 1) (index + 1) ls

/-- What fits at the recorded places may be weakened line by line. -/
theorem Placed.imp_of_recorded {fits fits' : InsnLine → Insn → Prop} {code : List Insn}
    {places : MethodMatch} {cursor index : Nat} {lines : List InsnLine}
    (weaker : ∀ n l place insn, lines[n]? = some l → l.mode ≠ .add →
      places.positions.get? (index + n) = some place → code[place]? = some insn →
      fits l insn → fits' l insn)
    (placed : Placed fits code places cursor index lines) :
    Placed fits' code places cursor index lines := by
  induction lines generalizing cursor index with
  | nil => trivial
  | cons l ls ih =>
    have further : ∀ n l' place insn, ls[n]? = some l' → l'.mode ≠ .add →
        places.positions.get? (index + 1 + n) = some place → code[place]? = some insn →
        fits l' insn → fits' l' insn := by
      intro n l' place insn isLine sought recorded
      exact weaker (n + 1) l' place insn isLine sought (by rwa [show index + (n + 1) =
        index + 1 + n by omega])
    rw [Placed] at placed ⊢
    split at placed
    · rw [if_pos ‹_›]
      exact ih further placed
    · rw [if_neg ‹_›]
      split at placed
      · rw [if_pos ‹_›]
        exact ⟨placed.1, ih further placed.2⟩
      · rw [if_neg ‹_›]
        split at placed
        · rw [if_pos ‹_›]
          exact ih further placed
        · rw [if_neg ‹_›]
          obtain ⟨place, insn, recorded, later, here, fit, rest⟩ := placed
          exact ⟨place, insn, recorded, later, here,
            weaker 0 l place insn rfl ‹_› recorded here fit, ih further rest⟩

theorem Placed.imp {fits fits' : InsnLine → Insn → Prop} {code : List Insn} {places : MethodMatch}
    {cursor index : Nat} {lines : List InsnLine}
    (weaker : ∀ l insn, fits l insn → fits' l insn)
    (placed : Placed fits code places cursor index lines) :
    Placed fits' code places cursor index lines :=
  placed.imp_of_recorded fun _ l _ insn _ _ _ _ => weaker l insn

/-- What fits at the recorded place of a line that is neither for a region nor for any
instructions. -/
theorem Placed.fits_of_recorded {fits : InsnLine → Insn → Prop} {code : List Insn}
    {places : MethodMatch} {cursor index n place : Nat} {lines : List InsnLine} {l : InsnLine}
    {insn : Insn} (placed : Placed fits code places cursor index lines)
    (isLine : lines[n]? = some l) (sought : l.mode ≠ .add)
    (noRegion : ¬l.pattern.isTryCatch = true) (notAny : l.pattern ≠ .any)
    (recorded : places.positions.get? (index + n) = some place)
    (here : code[place]? = some insn) : fits l insn := by
  induction lines generalizing cursor index n with
  | nil => simp at isLine
  | cons l' ls ih =>
    rw [Placed] at placed
    cases n with
    | zero =>
      obtain rfl := Option.some.inj isLine
      rw [if_neg sought, if_neg noRegion, if_neg notAny] at placed
      obtain ⟨p, insn', recorded', -, here', fit, -⟩ := placed
      obtain rfl := Option.some.inj (recorded.symm.trans recorded')
      obtain rfl := Option.some.inj (here.symm.trans here')
      exact fit
    | succ n =>
      have further : places.positions.get? (index + 1 + n) = some place := by
        rwa [show index + 1 + n = index + (n + 1) by omega]
      split at placed
      · exact ih placed isLine further
      · split at placed
        · exact ih placed.2 isLine further
        · split at placed
          · exact ih placed isLine further
          · obtain ⟨_, _, -, -, -, -, rest⟩ := placed
            exact ih rest isLine further

/-- The lines that have to be found, with numbers from `index` on. -/
def SoughtLine.fromIndex (index : Nat) (lines : List InsnLine) : List SoughtLine :=
  ((lines.zipIdx index).filter fun e => e.1.mode != .add).map fun e => ⟨e.2, e.1⟩

theorem SoughtLine.fromIndex_cons (index : Nat) (l : InsnLine) (ls : List InsnLine) :
    fromIndex index (l :: ls) =
      if l.mode = .add then fromIndex (index + 1) ls
      else ⟨index, l⟩ :: fromIndex (index + 1) ls := by
  by_cases added : l.mode = .add <;> simp [fromIndex, List.zipIdx_cons, added]

theorem SoughtLine.le_index_of_mem {index : Nat} {lines : List InsnLine} {l : SoughtLine}
    (member : l ∈ fromIndex index lines) : index ≤ l.index := by
  simp only [fromIndex, List.mem_map, List.mem_filter] at member
  obtain ⟨⟨line, i⟩, ⟨inside, -⟩, rfl⟩ := member
  exact (List.mem_zipIdx inside).1

/-- The instruction matched the line, with bindings that a scope has kept. -/
def HasMatched (cx : BodyContext) (final : Scope) (l : InsnLine) (insn : Insn) : Prop :=
  ∃ scope found, (cx.matchInsn l.pattern insn).run scope = (true, found) ∧ final.Extends found

theorem placed_of_follows {cx : BodyContext} {code : List Insn} {regions : Table Nat Nat}
    {lines : List InsnLine} {cursor index : Nat} {found final : Found}
    (follows : Follows cx code cursor
      ((SoughtLine.fromIndex index lines).filter fun l => !l.line.pattern.isTryCatch) found final)
    (regionsFound : ∀ l ∈ (SoughtLine.fromIndex index lines).filter fun l =>
      l.line.pattern.isTryCatch, (regions.get? l.index).isSome = true) :
    Placed (HasMatched cx final.scope) code ⟨final.positions, regions⟩ cursor index lines := by
  induction lines generalizing cursor index found with
  | nil => trivial
  | cons l ls ih =>
    rw [SoughtLine.fromIndex_cons] at follows regionsFound
    rw [Placed]
    split
    · rw [if_pos ‹_›] at follows regionsFound
      exact ih follows regionsFound
    · rw [if_neg ‹_›] at follows regionsFound
      cases isRegion : l.pattern.isTryCatch with
      | true =>
        simp only [List.filter_cons, isRegion, if_true, Bool.not_true, Bool.false_eq_true,
          if_false] at follows regionsFound ⊢
        exact ⟨regionsFound _ List.mem_cons_self,
          ih follows fun l' h => regionsFound l' (.tail _ h)⟩
      | false =>
        simp only [List.filter_cons, isRegion, if_true, Bool.not_false, Bool.false_eq_true,
          if_false] at follows regionsFound ⊢
        cases follows with
        | any isAny rest =>
          rw [if_pos isAny]
          exact ih rest regionsFound
        | @insn _ _ _ _ next _ p insn notAny later here matched rest =>
          rw [if_neg notAny]
          obtain ⟨success, positions⟩ := SoughtLine.matchAt_eq_some matched
          refine ⟨p, insn, ?_, later, here, ⟨_, _, success, rest.widens.extends_⟩,
            ih rest regionsFound⟩
          have unused : ∀ l' ∈ (SoughtLine.fromIndex (index + 1) ls).filter
              fun l => !l.line.pattern.isTryCatch, l'.index ≠ index := by
            intro l' member
            have := SoughtLine.le_index_of_mem (List.mem_filter.1 member).1
            omega
          rw [rest.positions_of_other unused, positions, Table.get?_insert_self]

/-- What has been found of a block in a body. -/
theorem walk_ok {cx : BodyContext} {lines : List InsnLine} {code : Code} {scope final : Scope}
    {places : MethodMatch} (h : walk cx lines code scope = .ok (final, places)) :
    Scope.Widens cx.classes scope final ∧
      Placed (HasMatched cx final) code.insns places 0 0 lines := by
  rw [walk] at h
  simp only [List.partition_eq_filter_filter] at h
  cases first : findRegions cx code.regions
      ((SoughtLine.ofBlock lines).filter fun l => l.line.pattern.isTryCatch) scope .empty with
  | error fault => simp [first, bind, Except.bind] at h
  | ok r =>
    obtain ⟨next, regions⟩ := r
    obtain ⟨widens, -, regionsFound⟩ := findRegions_ok first
    simp only [first, bind, Except.bind] at h
    split at h
    · rename_i found outcome
      obtain ⟨rfl, rfl⟩ := Prod.mk.inj (Except.ok.inj h)
      have follows : Follows cx code.insns 0
          ((SoughtLine.fromIndex 0 lines).filter fun l => !l.line.pattern.isTryCatch)
          ⟨next, .empty⟩ found := followLines_matched outcome
      exact ⟨widens.trans follows.widens, placed_of_follows follows regionsFound⟩
    · cases h
    · cases h

end JvmPatch
