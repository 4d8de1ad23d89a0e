import JvmPatch.Proofs.Listing.Depiction

/-! The lines of a listing are found in the body that is listed. -/

set_option autoImplicit false

namespace JvmPatch

open ScopeM

/-- A pattern that says all about an exception region. -/
inductive Pattern.DepictsRegion (names : LabelNames) : Pattern → Region → Prop
  | any {p q h r} : names.Refers p r.start → names.Refers q r.stop → names.Refers h r.handler →
      r.catchType = none → DepictsRegion names (.tryCatch p q h none) r
  | typed {p q h r name} : names.Refers p r.start → names.Refers q r.stop →
      names.Refers h r.handler → r.catchType = some name → isWeakName name = false →
      DepictsRegion names (.tryCatch p q h (some (.object name))) r

theorem Pattern.isTryCatch_of_depictsRegion {names : LabelNames} {p : Pattern} {r : Region}
    (depicts : p.DepictsRegion names r) : p.isTryCatch = true := by
  cases depicts <;> rfl

theorem Pattern.isTryCatch_of_depicts {names : LabelNames} {type : MethodDesc}
    {p : Pattern} {insn : Insn} (depicts : p.Depicts names type insn) : p.isTryCatch = false := by
  cases depicts <;> rfl

/-- What a listing shows of a body: not the line markers, and the labels that have a name. -/
def LabelNames.shows (names : LabelNames) : Insn → Bool
  | .line _ => false
  | .label l => (names.name? l).isSome
  | _ => true

def Insn.isLabel : Insn → Bool
  | .label _ => true
  | _ => false

/-- A label that is not shown does not stand right before one that is. -/
def LabelNames.Apart (names : LabelNames) : List Insn → Prop
  | [] => True
  | insn :: rest =>
    (insn.isLabel = true → names.shows insn = false →
      ∀ next ∈ rest.find? names.shows, next.isLabel = false) ∧ names.Apart rest

namespace BodyContext

variable {cx : BodyContext} {names : LabelNames}

/-! ### Regions -/

theorem matchCatchType_run {t : Option TypeDesc} {catchType : Option String}
    (fits : t = none ∧ catchType = none ∨
      ∃ name, t = some (.object name) ∧ catchType = some name ∧
        isWeakName name = false) (scope : Scope) :
    (cx.matchCatchType t catchType).run scope = (true, scope) := by
  rcases fits with ⟨rfl, rfl⟩ | ⟨name, rfl, rfl, strong⟩
  · rfl
  · refine cx.classes.run_typesAgree_self (fun n member => ?_) scope
    rwa [List.mem_singleton.1 member]

theorem matchRegion_recognizes {p q h : LabelRef} {t : Option TypeDesc} {r : Region}
    (depicts : Pattern.DepictsRegion names (.tryCatch p q h t) r) :
    Recognizes names cx.body r.labels (cx.matchRegion p q h t r) := by
  have labels (start : names.Refers p r.start) (stop : names.Refers q r.stop)
      (handler : names.Refers h r.handler) (catches : ∀ scope,
        (cx.matchCatchType t r.catchType).run scope = (true, scope)) :
      Recognizes names cx.body r.labels (cx.matchRegion p q h t r) :=
    (Recognizes.idle catches).both ((matchLabel_recognizes start).both
      ((matchLabel_recognizes stop).both (matchLabel_recognizes handler)))
  cases depicts with
  | any start stop handler catches =>
    exact labels start stop handler (matchCatchType_run (.inl ⟨rfl, catches⟩))
  | typed start stop handler catches strong =>
    exact labels start stop handler (matchCatchType_run (.inr ⟨_, rfl, catches, strong⟩))

/-- A label pattern fits no other label that has a name already. -/
theorem matchLabel_of_hasLabel {p : LabelRef} {l m : Label} {scope later : Scope}
    (refers : names.Refers p l) (follows : scope.FollowsNames names cx.body)
    (has : scope.HasLabel cx.body m) (ran : (cx.matchLabel p m).run scope = (true, later)) :
    later = scope ∧ m = l := by
  obtain ⟨name, named, rfl⟩ := refers
  rw [matchLabel, run_update] at ran
  obtain ⟨isSome, isLater⟩ := Prod.mk.inj ran
  obtain ⟨next, bound⟩ := Option.isSome_iff_exists.1 isSome
  rw [bound] at isLater
  obtain ⟨rfl, named'⟩ := Scope.bindLabel?_of_hasLabel follows has bound
  exact ⟨isLater.symm, LabelNames.name?_injective named' named⟩

/-- A line for a region fits no region with other labels, once these have names. -/
theorem matchRegion_of_hasLabels {p q h : LabelRef} {t : Option TypeDesc} {r other : Region}
    {scope later : Scope} (depicts : Pattern.DepictsRegion names (.tryCatch p q h t) r)
    (follows : scope.FollowsNames names cx.body)
    (has : ∀ l ∈ other.labels, scope.HasLabel cx.body l)
    (ran : (cx.matchRegion p q h t other).run scope = (true, later)) :
    later = scope ∧ other.labels = r.labels := by
  obtain ⟨start, stop, handler, strong⟩ : names.Refers p r.start ∧ names.Refers q r.stop ∧
      names.Refers h r.handler ∧ ∀ type ∈ t, type.IsStrong := by
    cases depicts with
    | any start stop handler => exact ⟨start, stop, handler, fun _ none => by cases none⟩
    | typed start stop handler _ strong =>
      refine ⟨start, stop, handler, fun type isType n member => ?_⟩
      obtain rfl := Option.some.inj isType
      rwa [List.mem_singleton.1 member]
  obtain ⟨s₁, ran₁, ran⟩ := run_both_eq_true ran
  obtain ⟨s₂, ran₂, ran⟩ := run_both_eq_true ran
  obtain ⟨s₃, ran₃, ran₄⟩ := run_both_eq_true ran
  have caught : s₁ = scope := by
    unfold matchCatchType at ran₁
    split at ran₁
    · exact (Prod.mk.inj ran₁).2.symm
    · rename_i type name _
      have kept := cx.classes.typesAgree_keeps (strong type rfl) (.object name) scope
      rwa [ran₁] at kept
    · cases (Prod.mk.inj ran₁).1
  subst caught
  obtain ⟨rfl, sameStart⟩ :=
    matchLabel_of_hasLabel start follows (has _ (by simp [Region.labels])) ran₂
  obtain ⟨rfl, sameStop⟩ :=
    matchLabel_of_hasLabel stop follows (has _ (by simp [Region.labels])) ran₃
  obtain ⟨rfl, sameHandler⟩ :=
    matchLabel_of_hasLabel handler follows (has _ (by simp [Region.labels])) ran₄
  exact ⟨rfl, by simp [Region.labels, sameStart, sameStop, sameHandler]⟩

/-- The line for a region finds the region, or an earlier one with the same labels. -/
theorem findRegion_shown {pattern : Pattern} {earlier : List Region}
    (later : List Region) {r : Region} {scope : Scope} (depicts : pattern.DepictsRegion names r)
    (follows : scope.FollowsNames names cx.body)
    (has : ∀ e ∈ earlier, ∀ l ∈ e.labels, scope.HasLabel cx.body l) :
    ∃ place next, (cx.findRegion pattern (earlier ++ r :: later)).run scope = (some place, next) ∧
      next.FollowsNames names cx.body ∧ scope.BindsLabels cx.body next ∧
        ∀ l ∈ r.labels, next.HasLabel cx.body l := by
  obtain ⟨p, q, h, t, rfl⟩ : ∃ p q h t, pattern = .tryCatch p q h t := by
    cases depicts with
    | any => exact ⟨_, _, _, _, rfl⟩
    | typed => exact ⟨_, _, _, _, rfl⟩
  rw [findRegion]
  generalize 0 = place
  induction earlier generalizing place with
  | nil =>
    obtain ⟨next, ran, follows, binds, bound⟩ := matchRegion_recognizes depicts scope follows
    refine ⟨place, next, ?_, follows, binds, bound⟩
    rw [List.nil_append, run_firstRegion_cons, ran, if_pos rfl]
  | cons e earlier ih =>
    rw [List.cons_append, run_firstRegion_cons]
    cases ran : (cx.matchRegion p q h t e).run scope with
    | mk accepted next =>
      cases accepted with
      | true =>
        obtain ⟨rfl, same⟩ := matchRegion_of_hasLabels depicts follows (has e (.head _)) ran
        refine ⟨place, next, by rw [if_pos rfl], follows, .refl _ _, fun l member => ?_⟩
        exact has e (.head _) l (same ▸ member)
      | false =>
        rw [if_neg Bool.false_ne_true]
        exact ih (fun f member => has f (.tail _ member)) (place + 1)

/-- The lines for regions find regions. -/
theorem findRegions_shown (earlier : List Region) {rest : List Region} {ls : List SoughtLine}
    {scope : Scope} (lines : List.Forall₂ (fun r l => l.line.pattern.DepictsRegion names r) rest ls)
    (follows : scope.FollowsNames names cx.body)
    (has : ∀ e ∈ earlier, ∀ l ∈ e.labels, scope.HasLabel cx.body l) (found : Table Nat Nat) :
    ∃ final places, findRegions cx (earlier ++ rest) ls scope found = .ok (final, places) ∧
      final.FollowsNames names cx.body ∧ scope.BindsLabels cx.body final := by
  induction lines generalizing earlier scope found with
  | nil => exact ⟨scope, found, rfl, follows, .refl _ _⟩
  | @cons r l rest ls depicts _ ih =>
    obtain ⟨place, next, ran, follows, binds, bound⟩ := findRegion_shown rest depicts follows has
    have all : ∀ e ∈ earlier ++ [r], ∀ l ∈ e.labels, next.HasLabel cx.body l := by
      intro e member l inside
      rcases List.mem_append.1 member with before | last
      · exact binds.keeps l (has e before l inside)
      · exact bound l (List.mem_singleton.1 last ▸ inside)
    obtain ⟨final, places, found', follows, binds'⟩ := ih _ follows all (found.insert l.index place)
    refine ⟨final, places, ?_, follows, binds.trans binds'⟩
    rw [findRegions, ran]
    rwa [List.append_assoc] at found'

/-! ### Instructions -/

theorem depicts_ne_any {p : Pattern} {insn : Insn}
    (depicts : p.Depicts names cx.type insn) : p ≠ .any := by
  cases depicts <;> exact Pattern.noConfusion

theorem isLabel_of_depicts {p : Pattern} {insn : Insn} (depicts : p.Depicts names cx.type insn) :
    p.isLabel = insn.isLabel := by
  cases depicts <;> rfl

/-- A line passes over an instruction that is not shown. -/
theorem passesOver_of_not_shown {insn : Insn} {l : SoughtLine} (hidden : names.shows insn = false)
    (labels : insn.isLabel = true → l.line.pattern.isLabel = false) : l.passesOver insn = true := by
  cases insn with
  | line => rfl
  | label => simp [SoughtLine.passesOver, labels rfl]
  | _ => cases hidden

theorem isPseudo_of_not_shown {insn : Insn} (hidden : names.shows insn = false) :
    insn.isPseudo = true := by
  cases insn with
  | line | label => rfl
  | _ => cases hidden

/-- A line is followed past an instruction that is not shown. -/
theorem followLines_of_not_shown {insn : Insn} {insns : List Insn}
    {ls : List SoughtLine} {place : Nat} {found : Found} (hidden : names.shows insn = false)
    (next : ∀ l ∈ ls.head?, l.line.pattern ≠ .any ∧
      (insn.isLabel = true → l.line.pattern.isLabel = false)) :
    followLines cx false ls place (insn :: insns) found =
      followLines cx false ls (place + 1) insns found := by
  cases ls with
  | nil => rw [followLines, followLines, List.all_cons, isPseudo_of_not_shown hidden, Bool.true_and]
  | cons l ls =>
    obtain ⟨notAny, labels⟩ := next l rfl
    rw [followLines, followLines, if_neg notAny, if_neg notAny, if_neg Bool.false_ne_true,
      if_neg Bool.false_ne_true, SoughtLine.step, if_pos (passesOver_of_not_shown hidden labels)]

/-- The lines for the instructions that are shown are found one after the other. -/
theorem followLines_shown (found : Found) {insns : List Insn} {ls : List SoughtLine}
    (lines : List.Forall₂ (fun insn l => l.line.pattern.Depicts names cx.type insn)
      (insns.filter names.shows) ls)
    (apart : names.Apart insns) (follows : found.scope.FollowsNames names cx.body) (place : Nat) :
    ∃ final, followLines cx false ls place insns found = .matched final ∧
      final.scope.FollowsNames names cx.body ∧ found.scope.BindsLabels cx.body final.scope := by
  induction insns generalizing ls found place with
  | nil =>
    cases lines
    exact ⟨found, rfl, follows, .refl _ _⟩
  | cons insn insns ih =>
    obtain ⟨notBare, apart⟩ := apart
    cases shown : names.shows insn with
    | true =>
      rw [List.filter_cons_of_pos shown] at lines
      cases lines with
      | @cons _ l _ ls depicts lines =>
        obtain ⟨next, ran, nextFollows, binds, -⟩ :=
          matchInsn_recognizes depicts found.scope follows
        have stops : l.passesOver insn = false := by
          cases insn with
          | line => cases shown
          | label => simp [SoughtLine.passesOver, isLabel_of_depicts depicts, Insn.isLabel]
          | _ => rfl
        have fits : l.matchAt cx place insn found =
            some ⟨next, found.positions.insert l.index place⟩ := by
          have matched : cx.matchInsn l.line.pattern insn found.scope = (true, next) := ran
          rw [SoughtLine.matchAt, matched]
        obtain ⟨final, followed, finalFollows, binds'⟩ :=
          ih ⟨next, found.positions.insert l.index place⟩ lines apart nextFollows (place + 1)
        refine ⟨final, ?_, finalFollows, binds.trans binds'⟩
        rw [followLines, if_neg (depicts_ne_any depicts), if_neg Bool.false_ne_true,
          SoughtLine.step, if_neg (by rw [stops]; exact Bool.false_ne_true), fits]
        exact followed
    | false =>
      rw [List.filter_cons_of_neg (by rw [shown]; exact Bool.false_ne_true)] at lines
      obtain ⟨final, followed, finalFollows, binds⟩ := ih found lines apart follows (place + 1)
      refine ⟨final, ?_, finalFollows, binds⟩
      rw [followLines_of_not_shown shown fun l isHead => ?_]
      · exact followed
      · obtain ⟨later, rfl⟩ := List.head?_eq_some_iff.1 isHead
        rcases List.forall₂_cons_right_iff.1 lines with ⟨next, rest, depicts, -, shows⟩
        refine ⟨depicts_ne_any depicts, fun isLabel => ?_⟩
        rw [isLabel_of_depicts depicts]
        refine notBare isLabel shown next ?_
        rw [← List.head?_filter, shows]
        rfl

end BodyContext

/-! ### The lines of a block -/

theorem SoughtLine.map_line_ofBlock {lines : List InsnLine} (kept : ∀ l ∈ lines, l.mode = .keep) :
    (SoughtLine.ofBlock lines).map SoughtLine.line = lines := by
  have all : lines.zipIdx.filter (fun e => e.1.mode != .add) = lines.zipIdx := by
    refine List.filter_eq_self.2 fun e member => ?_
    have isLine : e.1 ∈ lines := (List.mem_zipIdx' member).2 ▸ List.getElem_mem _
    rw [kept e.1 isLine]
    rfl
  rw [ofBlock, all, List.map_map]
  exact List.zipIdx_map_fst 0 lines

/-- The lines of a block show the regions and the instructions of a body. -/
structure Code.ShownBy (code : Code) (names : LabelNames) (type : MethodDesc)
    (lines : List InsnLine) :
    Prop where
  kept : ∀ l ∈ lines, l.mode = .keep
  regions : List.Forall₂ (fun r l => l.pattern.DepictsRegion names r) code.regions
    (lines.filter fun l => l.pattern.isTryCatch)
  insns : List.Forall₂ (fun insn l => l.pattern.Depicts names type insn)
    (code.insns.filter names.shows) (lines.filter fun l => !l.pattern.isTryCatch)

/-- Lines that show a body are found in it, and the names of labels get their meanings. -/
theorem walk_shown {cx : BodyContext} {names : LabelNames} {lines : List InsnLine} {code : Code}
    {scope : Scope} (shown : code.ShownBy names cx.type lines) (apart : names.Apart code.insns)
    (follows : scope.FollowsNames names cx.body) :
    ∃ final places, walk cx lines code scope = .ok (final, places) ∧
      final.FollowsNames names cx.body ∧ scope.BindsLabels cx.body final := by
  have sameLines := SoughtLine.map_line_ofBlock shown.kept
  have split (p : InsnLine → Bool) : ((SoughtLine.ofBlock lines).filter fun l => p l.line).map
      SoughtLine.line = lines.filter p := by
    rw [← sameLines, List.filter_map, sameLines]
    rfl
  have regions := shown.regions
  have insns := shown.insns
  rw [← split, List.forall₂_map_right_iff] at regions insns
  obtain ⟨middle, found, ranRegions, follows, binds⟩ :=
    BodyContext.findRegions_shown [] regions follows (fun _ member => by cases member) .empty
  obtain ⟨final, followed, follows, binds'⟩ :=
    BodyContext.followLines_shown ⟨middle, .empty⟩ insns apart follows 0
  rw [List.nil_append] at ranRegions
  refine ⟨final.scope, ⟨final.positions, found⟩, ?_, follows, binds.trans binds'⟩
  rw [walk]
  simp only [List.partition_eq_filter_filter, ranRegions, ok_bind]
  simp only [Function.comp_def, followed]

end JvmPatch
