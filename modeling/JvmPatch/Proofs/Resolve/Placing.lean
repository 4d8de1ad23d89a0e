import JvmPatch.Proofs.Resolve.Binding

/-! What a body is like where the lines of a block have been found in it: which lines have a place,
what stands between the places, and with which bindings the instructions there match. -/

set_option autoImplicit false

namespace JvmPatch

open ScopeM

namespace InsnLine

/-- The line is not looked for among the instructions: it is added, or it is for a region. -/
def isSilent (l : InsnLine) : Bool := l.mode == .add || l.pattern.isTryCatch

/-- The line is looked for at one instruction. -/
def isLocated (l : InsnLine) : Bool := !l.isSilent && l.pattern != .any

/-- What the line leaves out when it is looked for from some place on. -/
inductive Skips (l : InsnLine) : Insn → Prop where
  | line (number : UInt16) : Skips l (.line number)
  | label (label : Label) : l.pattern.isLabel = false → Skips l (.label label)

theorem skips_of_passesOver {l : SoughtLine} {insn : Insn} (passes : l.passesOver insn = true) :
    l.line.Skips insn := by
  cases insn with
  | line number => exact .line number
  | label label => exact .label label (by simpa [SoughtLine.passesOver] using passes)
  | _ => cases passes

end InsnLine

/-- A test has succeeded between two scopes, and nothing has been rebound from the first of them to
the last. -/
def ScopeM.SucceedsWithin (test : ScopeM Bool) (scope final : Scope) : Prop :=
  ∃ before after, test.run before = (true, after) ∧
    scope.KeptBy before ∧ before.KeptBy after ∧ after.KeptBy final

/-- A region satisfies a pattern for regions, with bindings between two scopes. -/
inductive BodyContext.SatisfiesWithin (cx : BodyContext) (scope final : Scope) :
    Pattern → Region → Prop where
  | intro {start stop handler catchType region} :
      (cx.matchRegion start stop handler catchType region).SucceedsWithin scope final →
      SatisfiesWithin cx scope final (.tryCatch start stop handler catchType) region

theorem ScopeM.SucceedsWithin.mono {test : ScopeM Bool} {scope later earlier final : Scope}
    (since : scope.KeptBy later) (onward : earlier.KeptBy final)
    (succeeds : test.SucceedsWithin later earlier) : test.SucceedsWithin scope final := by
  obtain ⟨before, after, accepted, kept, across, remains⟩ := succeeds
  exact ⟨before, after, accepted, since.trans kept, across, remains.trans onward⟩

theorem BodyContext.SatisfiesWithin.mono {cx : BodyContext} {scope later earlier final : Scope}
    {pattern : Pattern} {region : Region} (since : scope.KeptBy later)
    (onward : earlier.KeptBy final) (satisfies : cx.SatisfiesWithin later earlier pattern region) :
    cx.SatisfiesWithin scope final pattern region := by
  cases satisfies with
  | intro succeeds => exact .intro (succeeds.mono since onward)

/-! ### Numbers of lines -/

namespace SoughtLine

theorem mem_ofBlock {lines : List InsnLine} {l : SoughtLine} :
    l ∈ ofBlock lines ↔ lines[l.index]? = some l.line ∧ l.line.mode ≠ .add := by
  constructor
  · intro member
    refine ⟨?_, mode_of_ofBlock member⟩
    simp only [ofBlock, List.mem_map, List.mem_filter] at member
    obtain ⟨⟨line, index⟩, ⟨inside, -⟩, rfl⟩ := member
    exact List.mem_zipIdx_iff_getElem?.1 inside
  · rintro ⟨isLine, sought⟩
    refine List.mem_map.2 ⟨(l.line, l.index), List.mem_filter.2 ⟨?_, by simpa using sought⟩, rfl⟩
    exact List.mem_zipIdx_iff_getElem?.2 isLine

theorem pairwise_fromIndex (index : Nat) (lines : List InsnLine) :
    (fromIndex index lines).Pairwise fun l l' => l.index < l'.index := by
  induction lines generalizing index with
  | nil => exact .nil
  | cons l ls ih =>
    rw [fromIndex_cons]
    split
    · exact ih (index + 1)
    · exact .cons (fun l' member => le_index_of_mem member) (ih (index + 1))

theorem mem_forRegions {lines : List InsnLine} {l : SoughtLine} :
    l ∈ forRegions lines ↔
      lines[l.index]? = some l.line ∧ l.line.mode ≠ .add ∧ l.line.pattern.isTryCatch = true := by
  rw [forRegions, List.mem_filter, mem_ofBlock, and_assoc]

theorem pairwise_forRegions (lines : List InsnLine) :
    (forRegions lines).Pairwise fun l l' => l.index < l'.index :=
  (pairwise_fromIndex 0 lines).filter _

/-- The lines for instructions, with numbers from `index` on. -/
def insnsFrom (index : Nat) (lines : List InsnLine) : List SoughtLine :=
  (fromIndex index lines).filter fun l => !l.line.pattern.isTryCatch

theorem insnsFrom_cons (index : Nat) (l : InsnLine) (ls : List InsnLine) :
    insnsFrom index (l :: ls) =
      if l.isSilent then insnsFrom (index + 1) ls else ⟨index, l⟩ :: insnsFrom (index + 1) ls := by
  rw [insnsFrom, fromIndex_cons]
  by_cases added : l.mode = .add
  · simp [InsnLine.isSilent, added, insnsFrom]
  · cases region : l.pattern.isTryCatch <;> simp [InsnLine.isSilent, added, insnsFrom, region]

theorem le_index_of_mem_insnsFrom {index : Nat} {lines : List InsnLine} {l : SoughtLine}
    (member : l ∈ insnsFrom index lines) : index ≤ l.index :=
  le_index_of_mem (List.mem_filter.1 member).1

theorem index_lt_of_mem_insnsFrom {lines : List InsnLine} {l : SoughtLine}
    (member : l ∈ insnsFrom 0 lines) : l.index < lines.length :=
  (List.getElem?_eq_some_iff.1 (mem_ofBlock.1 (List.mem_filter.1 member).1).1).1

end SoughtLine

/-! ### Lines for regions -/

theorem BodyContext.region_of_findRegion {cx : BodyContext} {pattern : Pattern}
    {regions : List Region} {scope later : Scope} {r : Nat}
    (found : (cx.findRegion pattern regions).run scope = (some r, later)) :
    ∃ start stop handler catchType region, pattern = .tryCatch start stop handler catchType ∧
      regions[r]? = some region ∧
      (cx.matchRegion start stop handler catchType region).run scope = (true, later) := by
  have first : ∀ (test : Region → ScopeM Bool) (place : Nat) (regions : List Region),
      (firstRegion test place regions).run scope = (some r, later) →
      place ≤ r ∧ ∃ region, regions[r - place]? = some region ∧
        (test region).run scope = (true, later) := by
    intro test place regions
    induction regions generalizing place with
    | nil => intro h; cases h
    | cons region regions ih =>
      intro h
      rw [run_firstRegion_cons] at h
      split at h
      · rename_i accepted
        obtain ⟨index, same⟩ := Prod.mk.inj h
        obtain rfl := Option.some.inj index
        exact ⟨Nat.le_refl _, region, by simp, Prod.ext accepted same⟩
      · obtain ⟨further, region', here, accepted⟩ := ih (place + 1) h
        refine ⟨by omega, region', ?_, accepted⟩
        rw [show r - place = (r - (place + 1)) + 1 by omega]
        exact here
  cases pattern with
  | tryCatch start stop handler catchType =>
    obtain ⟨-, region, here, accepted⟩ := first _ _ _ found
    exact ⟨start, stop, handler, catchType, region, rfl, here, accepted⟩
  | _ => cases found

theorem BodyContext.findRegion_keptBy (cx : BodyContext) (pattern : Pattern) (regions : List Region)
    (scope : Scope) : scope.KeptBy ((cx.findRegion pattern regions).run scope).2 := by
  have gains : Gains .everything (cx.findRegion pattern regions) :=
    cx.findRegion_gains pattern fun _ _ _ _ => trivial
  exact (gains scope).keptBy

theorem findRegions_keptBy {cx : BodyContext} {regions : List Region} {ls : List SoughtLine}
    {scope final : Scope} {found places : Table Nat Nat}
    (h : findRegions cx regions ls scope found = .ok (final, places)) : scope.KeptBy final := by
  have gains : scope.Gains .everything final := findRegions_gains (fun _ _ _ _ => trivial) h
  exact gains.keptBy

/-- Once the lines for regions have been found, the others are followed. -/
theorem walk_of_findRegions {cx : BodyContext} {lines : List InsnLine} {code : Code}
    {scope next : Scope} {regions : Table Nat Nat}
    (begun : findRegions cx code.regions (SoughtLine.forRegions lines) scope .empty =
      .ok (next, regions)) :
    walk cx lines code scope =
      match followLines cx false (SoughtLine.forInsns lines) 0 code.insns ⟨next, .empty⟩ with
      | .matched found => .ok (found.scope, ⟨found.positions, regions⟩)
      | .stuck fault | .failed fault => .error fault := by
  have first : findRegions cx code.regions
      ((SoughtLine.ofBlock lines).filter fun l => l.line.pattern.isTryCatch) scope .empty =
        .ok (next, regions) := begun
  rw [walk]
  simp only [List.partition_eq_filter_filter, first]
  rfl

/-- Each line for a region has got a region that satisfies it, and no other line has got one. -/
theorem findRegions_places {cx : BodyContext} {regions : List Region} {ls : List SoughtLine}
    {scope final : Scope} {found places : Table Nat Nat}
    (apart : ls.Pairwise fun l l' => l.index < l'.index)
    (h : findRegions cx regions ls scope found = .ok (final, places)) :
    (∀ index, (∀ l ∈ ls, l.index ≠ index) → places.get? index = found.get? index) ∧
      ∀ l ∈ ls, ∃ r region, places.get? l.index = some r ∧ regions[r]? = some region ∧
        cx.SatisfiesWithin scope final l.line.pattern region := by
  induction ls generalizing scope found with
  | nil =>
    obtain ⟨-, rfl⟩ := Prod.mk.inj (Except.ok.inj h)
    exact ⟨fun _ _ => rfl, fun _ member => nomatch member⟩
  | cons l ls ih =>
    obtain ⟨later, apart⟩ := List.pairwise_cons.1 apart
    rw [findRegions] at h
    have kept := cx.findRegion_keptBy l.line.pattern regions scope
    cases first : (cx.findRegion l.line.pattern regions).run scope with
    | mk r next =>
      rw [first] at h kept
      cases r with
      | none => cases h
      | some r =>
        obtain ⟨others, rest⟩ := ih apart h
        refine ⟨fun index other => ?_, fun l' member => ?_⟩
        · rw [others index fun l' member => other l' (.tail _ member),
            Table.get?_insert_of_ne _ _ (other l List.mem_cons_self).symm]
        · rcases List.mem_cons.1 member with rfl | member
          · obtain ⟨start, stop, handler, catchType, region, isPattern, here, accepted⟩ :=
              BodyContext.region_of_findRegion first
            refine ⟨r, region, ?_, here, ?_⟩
            · rw [others _ fun l' member => (later l' member).ne', Table.get?_insert_self]
            · rw [isPattern]
              exact .intro ⟨scope, next, accepted, .refl _, kept, findRegions_keptBy h⟩
          · obtain ⟨r', region, recorded, here, satisfies⟩ := rest l' member
            exact ⟨r', region, recorded, here, satisfies.mono kept (.refl _)⟩

/-! ### Lines for instructions -/

theorem SoughtLine.keptBy_of_matchAt {cx : BodyContext} {l : SoughtLine} {place : Nat} {insn : Insn}
    {found next : Found} (matched : l.matchAt cx place insn found = some next) :
    found.scope.KeptBy next.scope := by
  have allows : cx.Allows .everything l.line.pattern insn :=
    ⟨fun _ _ => trivial, fun _ _ _ _ => trivial, fun _ _ _ _ => trivial⟩
  exact (WalkPoint.gains_of_matchAt allows matched).keptBy

theorem Follows.keptBy {cx : BodyContext} {code : List Insn} {place : Nat} {ls : List SoughtLine}
    {found final : Found} (follows : Follows cx code place ls found final) :
    found.scope.KeptBy final.scope := by
  induction follows with
  | done => exact .refl _
  | any _ _ ih => exact ih
  | insn _ _ _ matched _ ih => exact (SoughtLine.keptBy_of_matchAt matched).trans ih

/-- The lines of a block from the one with number `index` on are found closely one after the other
from a place on, at the recorded places. -/
inductive LinesFollow (cx : BodyContext) (code : List Insn) (scope final : Scope)
    (positions : Table Nat Nat) : Bool → Nat → Nat → List InsnLine → Prop where
  | done {afterAny place index} :
      (afterAny = false → ∀ q insn, place ≤ q → code[q]? = some insn → insn.isPseudo = true) →
      LinesFollow cx code scope final positions afterAny place index []
  | silent {afterAny place index l ls} : l.isSilent = true → positions.get? index = none →
      LinesFollow cx code scope final positions afterAny place (index + 1) ls →
      LinesFollow cx code scope final positions afterAny place index (l :: ls)
  | any {afterAny place index l ls} : l.isSilent = false → l.pattern = .any →
      positions.get? index = none →
      LinesFollow cx code scope final positions true place (index + 1) ls →
      LinesFollow cx code scope final positions afterAny place index (l :: ls)
  | insn {afterAny place index l ls p insn} : l.isLocated = true → positions.get? index = some p →
      place ≤ p → code[p]? = some insn →
      (afterAny = false →
        ∀ q passed, place ≤ q → q < p → code[q]? = some passed → l.Skips passed) →
      (cx.matchInsn l.pattern insn).SucceedsWithin scope final →
      LinesFollow cx code scope final positions false (p + 1) (index + 1) ls →
      LinesFollow cx code scope final positions afterAny place index (l :: ls)

theorem FollowsClosely.linesFollow {cx : BodyContext} {code : List Insn} {scope : Scope}
    {lines : List InsnLine} {afterAny : Bool} {place index : Nat} {found final : Found}
    (closely : FollowsClosely cx code afterAny place (SoughtLine.insnsFrom index lines) found final)
    (kept : scope.KeptBy found.scope)
    (fresh : ∀ i, index ≤ i → found.positions.get? i = none) :
    LinesFollow cx code scope final.scope final.positions afterAny place index lines := by
  have unused : ∀ {index : Nat} {lines : List InsnLine} {place : Nat} {found : Found},
      Follows cx code place (SoughtLine.insnsFrom (index + 1) lines) found final →
      final.positions.get? index = found.positions.get? index := fun follows =>
    follows.positions_of_other fun l member =>
      Nat.ne_of_gt (SoughtLine.le_index_of_mem_insnsFrom member)
  induction lines generalizing afterAny place index found with
  | nil =>
    cases closely with
    | done settled =>
      refine .done fun anchored q insn from_ here => ?_
      refine List.all_eq_true.1 (settled anchored) insn (List.mem_iff_getElem?.2 ⟨q - place, ?_⟩)
      rwa [List.getElem?_drop, Nat.add_sub_cancel' from_]
  | cons l ls ih =>
    have later : ∀ i, index + 1 ≤ i → found.positions.get? i = none := fun i h => fresh i (by omega)
    rw [SoughtLine.insnsFrom_cons] at closely
    cases silent : l.isSilent with
    | true =>
      rw [silent, if_pos rfl] at closely
      have recorded := (unused closely.follows).trans (fresh index (Nat.le_refl _))
      exact .silent silent recorded (ih closely kept later)
    | false =>
      rw [silent, if_neg Bool.false_ne_true] at closely
      cases closely with
      | any isAny rest =>
        have recorded := (unused rest.follows).trans (fresh index (Nat.le_refl _))
        exact .any silent isAny recorded (ih rest kept later)
      | @insn _ _ _ _ _ next _ p insn notAny further here between matched rest =>
        obtain ⟨success, positions⟩ := SoughtLine.matchAt_eq_some matched
        have across := SoughtLine.keptBy_of_matchAt matched
        have located : l.isLocated = true := by simpa [InsnLine.isLocated, silent] using notAny
        have recorded : final.positions.get? index = some p := by
          rw [unused rest.follows, positions, Table.get?_insert_self]
        refine .insn located recorded further here
          (fun anchored q passed from_ before isPassed => ?_)
          ⟨_, _, success, kept, across, rest.follows.keptBy⟩
          (ih rest (kept.trans across) fun i after => ?_)
        · exact InsnLine.skips_of_passesOver (l := ⟨index, l⟩)
            (between anchored q passed from_ before isPassed)
        · rw [positions, Table.get?_insert_of_ne _ _ (Nat.ne_of_gt after)]
          exact later i after

/-- Lines from one number to before another one are not looked for among the instructions. -/
def SilentBetween (lines : List InsnLine) (first last : Nat) : Prop :=
  ∀ k l, first ≤ k → k < last → lines[k]? = some l → l.isSilent = true

namespace LinesFollow

variable {cx : BodyContext} {code : List Insn} {scope final : Scope} {positions : Table Nat Nat}
  {afterAny : Bool} {place index : Nat} {lines : List InsnLine}

theorem recorded_iff (follow : LinesFollow cx code scope final positions afterAny place index lines)
    {n : Nat} {l : InsnLine} (isLine : lines[n]? = some l) :
    (positions.get? (index + n)).isSome = true ↔ l.isLocated = true := by
  induction follow generalizing n with
  | done => simp at isLine
  | @silent _ _ index l' ls silent recorded _ ih =>
    cases n with
    | zero =>
      obtain rfl := Option.some.inj isLine
      simp [recorded, InsnLine.isLocated, silent]
    | succ n => rw [show index + (n + 1) = index + 1 + n by omega, ih isLine]
  | @any _ _ index l' ls silent isAny recorded _ ih =>
    cases n with
    | zero =>
      obtain rfl := Option.some.inj isLine
      simp [recorded, InsnLine.isLocated, isAny]
    | succ n => rw [show index + (n + 1) = index + 1 + n by omega, ih isLine]
  | @insn _ _ index l' ls p insn located recorded _ _ _ _ _ ih =>
    cases n with
    | zero =>
      obtain rfl := Option.some.inj isLine
      simp [recorded, located]
    | succ n => rw [show index + (n + 1) = index + 1 + n by omega, ih isLine]

/-- What is recorded of the line at the head, and of a later one. -/
theorem matched (follow : LinesFollow cx code scope final positions afterAny place index lines)
    {n p : Nat} {l : InsnLine} (isLine : lines[n]? = some l)
    (recorded : positions.get? (index + n) = some p) :
    place ≤ p ∧ ∃ insn, code[p]? = some insn ∧
      (cx.matchInsn l.pattern insn).SucceedsWithin scope final := by
  induction follow generalizing n with
  | done => simp at isLine
  | @silent _ _ index l' ls silent none_ _ ih =>
    cases n with
    | zero => simp [none_] at recorded
    | succ n => exact ih isLine (by rwa [show index + 1 + n = index + (n + 1) by omega])
  | @any _ _ index l' ls silent isAny none_ _ ih =>
    cases n with
    | zero => simp [none_] at recorded
    | succ n => exact ih isLine (by rwa [show index + 1 + n = index + (n + 1) by omega])
  | @insn _ _ index l' ls p' insn located here further isInsn _ succeeds _ ih =>
    cases n with
    | zero =>
      obtain rfl := Option.some.inj isLine
      obtain rfl := Option.some.inj (here.symm.trans recorded)
      exact ⟨further, insn, isInsn, succeeds⟩
    | succ n =>
      obtain ⟨after, rest⟩ := ih isLine (by rwa [show index + 1 + n = index + (n + 1) by omega])
      exact ⟨by omega, rest⟩

/-- After a line that has a place, the other lines follow from the next place on. -/
theorem after (follow : LinesFollow cx code scope final positions afterAny place index lines)
    {n p : Nat} (inside : n < lines.length) (recorded : positions.get? (index + n) = some p) :
    LinesFollow cx code scope final positions false (p + 1) (index + n + 1)
      (lines.drop (n + 1)) := by
  induction follow generalizing n with
  | done => simp at inside
  | @silent _ _ index l ls _ none_ _ ih | @any _ _ index l ls _ _ none_ _ ih =>
    cases n with
    | zero => simp [none_] at recorded
    | succ n =>
      have shift : index + (n + 1) = index + 1 + n := by omega
      rw [shift] at recorded ⊢
      exact ih (Nat.lt_of_succ_lt_succ inside) recorded
  | @insn _ _ index l ls p' insn _ here _ _ _ _ rest ih =>
    cases n with
    | zero =>
      obtain rfl := Option.some.inj (here.symm.trans recorded)
      exact rest
    | succ n =>
      have shift : index + (n + 1) = index + 1 + n := by omega
      rw [shift] at recorded ⊢
      exact ih (Nat.lt_of_succ_lt_succ inside) recorded

/-- What stands before the first line that has a place. -/
theorem skips (follow : LinesFollow cx code scope final positions afterAny place index lines)
    (anchored : afterAny = false) {n p : Nat} {l : InsnLine} (isLine : lines[n]? = some l)
    (recorded : positions.get? (index + n) = some p)
    (silent : ∀ k l', k < n → lines[k]? = some l' → l'.isSilent = true) {q : Nat} {passed : Insn}
    (since : place ≤ q) (before : q < p) (here : code[q]? = some passed) : l.Skips passed := by
  induction follow generalizing n with
  | done => simp at isLine
  | @silent _ _ index l' ls _ none_ _ ih =>
    cases n with
    | zero => simp [none_] at recorded
    | succ n =>
      exact ih anchored isLine (by rwa [show index + 1 + n = index + (n + 1) by omega])
        (fun k l'' earlier isLine => silent (k + 1) l'' (by omega) isLine) since
  | @any _ _ index l' ls sought _ none_ _ ih =>
    cases n with
    | zero => simp [none_] at recorded
    | succ n =>
      have contra := silent 0 l' (Nat.zero_lt_succ n) rfl
      simp [sought] at contra
  | @insn _ _ index l' ls p' insn located isPlace _ _ between _ _ ih =>
    cases n with
    | zero =>
      obtain rfl := Option.some.inj isLine
      obtain rfl := Option.some.inj (isPlace.symm.trans recorded)
      exact between anchored q passed since before here
    | succ n =>
      have contra := silent 0 l' (Nat.zero_lt_succ n) rfl
      simp [InsnLine.isLocated, contra] at located

/-- What stands after the last line that has a place. -/
theorem isPseudo (follow : LinesFollow cx code scope final positions afterAny place index lines)
    (anchored : afterAny = false) (silent : ∀ l ∈ lines, l.isSilent = true) {q : Nat} {insn : Insn}
    (since : place ≤ q) (here : code[q]? = some insn) : insn.isPseudo = true := by
  induction follow with
  | done settled => exact settled anchored q insn since here
  | silent _ _ _ ih => exact ih anchored (fun l member => silent l (.tail _ member)) since
  | any sought => simp [sought] at silent
  | @insn _ _ _ l _ _ _ located =>
    have contra := silent l List.mem_cons_self
    simp [InsnLine.isLocated, contra] at located

section Tail

variable (follow : LinesFollow cx code scope final positions afterAny place 0 lines)
  {m n p q : Nat} {l : InsnLine} (first : positions.get? m = some p) (inside : m < lines.length)

include follow first inside

/-- What is known of the lines after one that has a place. -/
theorem tail :
    LinesFollow cx code scope final positions false (p + 1) (m + 1) (lines.drop (m + 1)) := by
  have rest := follow.after inside (by rwa [Nat.zero_add])
  rwa [Nat.zero_add] at rest

theorem ascends (before : m < n) (isLine : lines[n]? = some l)
    (second : positions.get? n = some q) : p < q := by
  obtain ⟨k, rfl⟩ := Nat.exists_eq_add_of_lt before
  refine ((follow.tail first inside).matched (n := k) (l := l) ?_ ?_).1
  · rwa [List.getElem?_drop, Nat.add_right_comm]
  · rwa [Nat.add_right_comm]

theorem skips_between (before : m < n) (isLine : lines[n]? = some l)
    (second : positions.get? n = some q) (silent : SilentBetween lines (m + 1) n) {r : Nat}
    {passed : Insn} (since : p < r) (till : r < q) (here : code[r]? = some passed) :
    l.Skips passed := by
  obtain ⟨k, rfl⟩ := Nat.exists_eq_add_of_lt before
  refine (follow.tail first inside).skips rfl (n := k) ?_ ?_
    (fun j l' earlier isLine => ?_) since till here
  · rwa [List.getElem?_drop, Nat.add_right_comm]
  · rwa [Nat.add_right_comm]
  · rw [List.getElem?_drop] at isLine
    exact silent _ l' (by omega) (by omega) isLine

theorem isPseudo_after (silent : SilentBetween lines (m + 1) lines.length) {insn : Insn}
    (since : p < q) (here : code[q]? = some insn) : insn.isPseudo = true := by
  refine (follow.tail first inside).isPseudo rfl (fun l member => ?_) since here
  obtain ⟨k, isLine⟩ := List.mem_iff_getElem?.1 member
  rw [List.getElem?_drop] at isLine
  exact silent _ l (by omega) (List.getElem?_eq_some_iff.1 isLine).1 isLine

end Tail

end LinesFollow

/-- The lines of a block are in a body, with the places that have been recorded of them. -/
structure LinesPlaced (cx : BodyContext) (lines : List InsnLine) (code : Code) (scope final : Scope)
    (places : MethodMatch) : Prop where
  /-- Exactly the lines that are looked for at one instruction have a place. -/
  located : ∀ i, (places.positions.get? i).isSome = true ↔
    ∃ l, lines[i]? = some l ∧ l.isLocated = true
  ascending : ∀ i j p q, i < j → places.positions.get? i = some p →
    places.positions.get? j = some q → p < q
  matched : ∀ i l p, lines[i]? = some l → places.positions.get? i = some p →
    ∃ insn, code.insns[p]? = some insn ∧ (cx.matchInsn l.pattern insn).SucceedsWithin scope final
  /-- What a line skips if no line for any instructions is before it. -/
  first : ∀ j l q, lines[j]? = some l → places.positions.get? j = some q →
    SilentBetween lines 0 j → ∀ p passed, p < q → code.insns[p]? = some passed → l.Skips passed
  /-- What a line skips if no line for any instructions is between it and the one before. -/
  between : ∀ i j l p q, i < j → places.positions.get? i = some p → lines[j]? = some l →
    places.positions.get? j = some q → SilentBetween lines (i + 1) j →
    ∀ r passed, p < r → r < q → code.insns[r]? = some passed → l.Skips passed
  /-- What is left if no line for any instructions is at the end. -/
  last : ∀ i p, places.positions.get? i = some p → SilentBetween lines (i + 1) lines.length →
    ∀ q insn, p < q → code.insns[q]? = some insn → insn.isPseudo = true
  /-- What there is at all if no line is looked for. -/
  bare : SilentBetween lines 0 lines.length → ∀ insn ∈ code.insns, insn.isPseudo = true
  /-- Exactly the lines for regions have a region. -/
  regions : ∀ i, (places.regions.get? i).isSome = true ↔
    ∃ l, lines[i]? = some l ∧ l.mode ≠ .add ∧ l.pattern.isTryCatch = true
  satisfied : ∀ i l r, lines[i]? = some l → places.regions.get? i = some r →
    ∃ region, code.regions[r]? = some region ∧ cx.SatisfiesWithin scope final l.pattern region
  kept : scope.KeptBy final

/-- Where the lines of a block are found, each of them is at a place that fits, only what lines skip
stands in between, and no binding has been given up. -/
theorem walk_placed {cx : BodyContext} {lines : List InsnLine} {code : Code} {scope final : Scope}
    {places : MethodMatch} (h : walk cx lines code scope = .ok (final, places)) :
    LinesPlaced cx lines code scope final places := by
  rw [walk] at h
  simp only [List.partition_eq_filter_filter] at h
  obtain ⟨⟨next, regions⟩, first, h⟩ := bind_eq_ok h
  dsimp only at h
  split at h
  case h_2 | h_3 => cases h
  rename_i found outcome
  obtain ⟨rfl, rfl⟩ := Prod.mk.inj (Except.ok.inj h)
  have toNext : scope.KeptBy next := findRegions_keptBy first
  have closely : FollowsClosely cx code.insns false 0 (SoughtLine.insnsFrom 0 lines) ⟨next, .empty⟩
      found := followLines_closely outcome
  have toFinal : next.KeptBy found.scope := closely.follows.keptBy
  have follow := closely.linesFollow toNext fun _ _ => rfl
  have inside : ∀ {i p}, found.positions.get? i = some p → i < lines.length := by
    intro i p recorded
    by_contra outside
    have others : ∀ l ∈ SoughtLine.insnsFrom 0 lines, l.index ≠ i := fun l member same =>
      outside (same ▸ SoughtLine.index_lt_of_mem_insnsFrom member)
    have unused := closely.follows.positions_of_other others
    cases recorded.symm.trans unused
  obtain ⟨others, satisfied⟩ := findRegions_places (SoughtLine.pairwise_forRegions lines) first
  have sought : ∀ {i r}, regions.get? i = some r →
      ∃ l, lines[i]? = some l ∧ l.mode ≠ .add ∧ l.pattern.isTryCatch = true := by
    intro i r recorded
    by_contra unsought
    have unused := others i fun l member same =>
      unsought ⟨l.line, same ▸ SoughtLine.mem_forRegions.1 member⟩
    cases recorded.symm.trans unused
  constructor
  case located =>
    intro i
    constructor
    · intro recorded
      obtain ⟨p, isPlace⟩ := Option.isSome_iff_exists.1 recorded
      have isLine := List.getElem?_eq_getElem (inside isPlace)
      exact ⟨_, isLine, (follow.recorded_iff isLine).1 (by rwa [Nat.zero_add])⟩
    · rintro ⟨l, isLine, located⟩
      simpa using (follow.recorded_iff isLine).2 located
  case ascending =>
    intro i j p q before isFirst isSecond
    have isLine := List.getElem?_eq_getElem (inside isSecond)
    exact follow.ascends isFirst (inside isFirst) before isLine isSecond
  case matched =>
    intro i l p isLine isPlace
    obtain ⟨-, insn, here, succeeds⟩ := follow.matched isLine (by rwa [Nat.zero_add])
    exact ⟨insn, here, succeeds⟩
  case first =>
    intro j l q isLine isPlace silent p passed before here
    exact follow.skips rfl isLine (by rwa [Nat.zero_add]) (fun k l' => silent k l' (Nat.zero_le k))
      (Nat.zero_le p) before here
  case between =>
    intro i j l p q before isFirst isLine isSecond silent r passed since till here
    exact follow.skips_between isFirst
      (inside isFirst) before isLine isSecond silent since till here
  case last =>
    intro i p isPlace silent q insn since here
    exact follow.isPseudo_after isPlace (inside isPlace) silent since here
  case bare =>
    intro silent insn member
    obtain ⟨q, here⟩ := List.mem_iff_getElem?.1 member
    refine follow.isPseudo rfl (fun l isLine => ?_) (Nat.zero_le q) here
    obtain ⟨k, isLine⟩ := List.mem_iff_getElem?.1 isLine
    exact silent k l (Nat.zero_le k) (List.getElem?_eq_some_iff.1 isLine).1 isLine
  case regions =>
    intro i
    constructor
    · intro recorded
      obtain ⟨r, recorded⟩ := Option.isSome_iff_exists.1 recorded
      exact sought recorded
    · rintro ⟨l, isLine⟩
      obtain ⟨r, -, recorded, -⟩ := satisfied ⟨i, l⟩ (SoughtLine.mem_forRegions.2 isLine)
      simp [recorded]
  case satisfied =>
    intro i l r isLine recorded
    obtain ⟨l', isLine', isRegion⟩ := sought recorded
    obtain rfl := Option.some.inj (isLine.symm.trans isLine')
    obtain ⟨r', region, recorded', here, satisfies⟩ :=
      satisfied ⟨i, l⟩ (SoughtLine.mem_forRegions.2 ⟨isLine, isRegion⟩)
    obtain rfl := Option.some.inj (recorded.symm.trans recorded')
    exact ⟨region, here, satisfies.mono (.refl _) toFinal⟩
  case kept => exact toNext.trans toFinal

/-- A body that pushes two numbers and drops each of them. -/
def dropsTwo : Code where
  insns := [.line 3, .push (.int 1), .simple Opcode.pop, .label ⟨0⟩, .push (.int 2),
    .simple Opcode.pop, .simple Opcode.voidReturn]

/-- Looks in a method without parameters and result. -/
def inVoid : BodyContext := ⟨{}, ⟨0⟩, ⟨[], .void⟩⟩

def findsLastPush : List InsnLine :=
  [⟨.keep, .any, .any, 3, ".any"⟩, ⟨.keep, .pushInt, .pushInt .any, 4, ".push-int *"⟩,
    ⟨.remove, .single Opcode.pop, .single Opcode.pop, 5, "-pop"⟩, ⟨.keep, .ret, .ret, 6, ".return"⟩]

/-- The first number has matched before, and its place has been given up. -/
theorem walk_findsLastPush : walk inVoid findsLastPush dropsTwo {} =
    .ok ({}, ⟨.insert (.insert (.insert .empty 1 4) 2 5) 3 6, .empty⟩) := by decide

theorem walk_placed_findsLastPush :
    ∃ places, walk inVoid findsLastPush dropsTwo {} = .ok ({}, places) ∧
      places.positions.get? 1 = some 4 ∧ LinesPlaced inVoid findsLastPush dropsTwo {} {} places :=
  ⟨_, walk_findsLastPush, by decide, walk_placed walk_findsLastPush⟩

end JvmPatch
