import JvmPatch.Proofs.Apply.Bodies

/-! When the applier finds every line where the checks found it. The checks look at the classes as
they are before the script, one block after the other; the applier looks at them when everything is
declared and some bodies are already changed. Where the matches of one block are not those that are
kept for its body, or where the declarations have changed what a weak name of a member can mean, the
two disagree. -/

set_option autoImplicit false

namespace JvmPatch

open ApplyM

/-- Nothing comes between the edited blocks and the matches that the checks have kept for their
bodies. -/
structure Undisturbed (set declared : ClassSet) (ts : List MethodTarget) : Prop where
  /-- The matches of a block are not replaced by those of a later block. -/
  alone : ts.Pairwise fun t u => t.edited = true → t.isSought = true → u.isSought = true →
    t.body? set ≠ u.body? set
  /-- The declarations do not put another body behind a method. -/
  unmoved : ∀ t ∈ ts, t.edited = true → t.isSought = true →
    ∀ body, t.body? declared = some body → t.body? set = some body
  /-- The body of a block is not changed by an earlier block. -/
  unshifted : ts.Pairwise fun t u => t.edited = true → u.edited = true →
    t.block.changesBody = true → u.isSought = true →
    ∀ body, t.body? declared = some body → u.body? declared ≠ some body

/-- After the declarations, the weak names of members in the lines of the edited blocks still fit
the members that the instructions mean at which the lines were found. -/
def Settled (set : ClassSet) (found : Scope) (declared : ApplyState) (ts : List MethodTarget) :
    Prop :=
  ∀ t ∈ ts, t.edited = true → ∀ body code places, t.body? declared.classes = some body →
    (set.methodAt body).code = some code → found.methodMatch? body = some places →
    ∀ (n : Nat) (l : InsnLine) (place : Nat) (insn : Insn), t.block.insns[n]? = some l →
      l.mode ≠ .add → places.positions.get? n = some place → code.insns[place]? = some insn →
      declared.classes.MemberFits declared.scope l.pattern insn

namespace ClassSet

theorem memberFits_of_isTryCatch {set : ClassSet} {scope : Scope} {pattern : Pattern} {insn : Insn}
    (isRegion : pattern.isTryCatch = true) : set.MemberFits scope pattern insn := by
  cases pattern <;> trivial

end ClassSet

/-- The targets whose lines were found, in a state that the declarations have led to. -/
structure Declared (set : ClassSet) (found : Scope) (declared : ApplyState) : Prop where
  knows : found.Knows set
  changed : Changed .declarations ⟨set, found, {}⟩ declared

namespace Declared

variable {set : ClassSet} {found : Scope} {declared : ApplyState} {t : MethodTarget}

theorem code_eq (reached : Declared set found declared) {body : MethodId}
    (known : set.HasMethod body) :
    (declared.classes.methodAt body).code = (set.methodAt body).code :=
  reached.changed.classes.code body known id

/-- A line that has matched still matches in the body phase if its weak name of a member fits. -/
theorem stillMatches (reached : Declared set found declared) {body : MethodId} {type : MethodDesc}
    {l : InsnLine} {insn : Insn} (matched : HasMatched ⟨set, body, type⟩ found l insn)
    (fits : declared.classes.MemberFits declared.scope l.pattern insn) :
    StillMatches declared body type l insn := by
  obtain ⟨start, bound, success, kept⟩ := matched
  intro later scope shape grows
  have continues : BodyContext.Continues ⟨set, body, type⟩ ⟨later, body, type⟩ :=
    ⟨fun id known => (ClassSet.keepsNames_of_shape shape id
      (reached.changed.classes.hasClass id known)).trans
      (reached.changed.classes.names id known), rfl, rfl⟩
  have knows : bound.Knows set := fun key id h => reached.knows key id (kept.classes key id h)
  have extended : scope.Extends bound :=
    (grows.extends_.trans reached.changed.extends_).trans kept
  exact BodyContext.matchInsn_repeats continues l.pattern insn start bound success knows
    scope extended
    (ClassSet.memberFits_of_shape shape grows.fields grows.methods fits)

theorem ready (reached : Declared set found declared) {body : MethodId} {code : Code}
    {type : MethodDesc} {places : MethodMatch}
    (inBody : set.FoundIn found t body code type places)
    (recorded : found.bodies.get? body = some places)
    (unmoved : ∀ b, t.body? declared.classes = some b → t.body? set = some b)
    (fits : ∀ (n : Nat) (l : InsnLine) (place : Nat) (insn : Insn), t.block.insns[n]? = some l →
      l.mode ≠ .add → places.positions.get? n = some place → code.insns[place]? = some insn →
      t.body? declared.classes = some body →
      declared.classes.MemberFits declared.scope l.pattern insn) :
    PlacedIn StillMatches declared t := by
  intro body' code' type' isBody isCode isType
  obtain rfl := Option.some.inj (inBody.hasBody.symm.trans (unmoved body' isBody))
  have known := ClassSet.hasMethod_of_code inBody.hasCode
  rw [reached.code_eq known, inBody.hasCode] at isCode
  rw [(reached.changed.classes.signature body known).2.1, inBody.hasType] at isType
  obtain rfl := Option.some.inj isCode
  obtain rfl := Except.ok.inj isType
  rw [Scope.methodMatch?, reached.changed.bodies, recorded, Option.getD_some]
  refine inBody.placed.imp_of_recorded fun n l place insn isLine sought at_ here matched => ?_
  rw [Nat.zero_add] at at_
  exact reached.stillMatches matched (fits n l place insn isLine sought at_ here isBody)

/-- Where a block has found its lines, their weak names of members fit. -/
theorem fits_of_placed (reached : Declared set found declared) {body : MethodId} {code : Code}
    {places : MethodMatch} (placed : PlacedIn MatchesOnce declared t) {type : MethodDesc}
    (isBody : t.body? declared.classes = some body) (isCode : (set.methodAt body).code = some code)
    (isType : MethodDesc.parse (set.methodAt body).desc = .ok type)
    (recorded : found.bodies.get? body = some places) {n place : Nat} {l : InsnLine} {insn : Insn}
    (isLine : t.block.insns[n]? = some l) (sought : l.mode ≠ .add)
    (at_ : places.positions.get? n = some place) (here : code.insns[place]? = some insn) :
    declared.classes.MemberFits declared.scope l.pattern insn := by
  by_cases isRegion : l.pattern.isTryCatch = true
  · exact ClassSet.memberFits_of_isTryCatch isRegion
  by_cases isAny : l.pattern = .any
  · rw [isAny]
    trivial
  have known := ClassSet.hasMethod_of_code isCode
  have found := placed body code type isBody (by rw [reached.code_eq known, isCode])
    (by rw [(reached.changed.classes.signature body known).2.1, isType])
  rw [Scope.methodMatch?, reached.changed.bodies, recorded, Option.getD_some] at found
  obtain ⟨later, scope, shape, grows, matched⟩ :=
    found.fits_of_recorded isLine sought isRegion isAny
    (by rwa [Nat.zero_add]) here
  exact ClassSet.memberFits_of_shape shape.symm grows.fields.symm grows.methods.symm
    (BodyContext.memberFits_of_matchInsn _ _ _ _ matched)

/-- Steps that remain to be done for undisturbed targets do not get in the way of each other. -/
theorem apart {ts : List MethodTarget} {pending : List PendingBody}
    (undisturbed : Undisturbed set declared.classes ts)
    (inBodies : ∀ t ∈ ts, t.edited = true → t.isSought = true → ∃ body code type places,
      set.FoundIn found t body code type places ∧ found.bodies.get? body = some places)
    (targets : pending.filterMap PendingBody.target? = ts.filter MethodTarget.edited)
    (fresh : FreshBodies set pending) : Apart declared.classes pending := by
  have unshifted : (pending.filterMap PendingBody.target?).Pairwise fun t u =>
      t.block.changesBody = true → u.isSought = true →
        ∀ body, t.body? declared.classes = some body → u.body? declared.classes ≠ some body := by
    rw [targets]
    refine (List.pairwise_filter.2 (undisturbed.unshifted.imp ?_))
    exact fun h edited edited' => h edited edited'
  have member : ∀ p ∈ pending, ∀ t, p.target? = some t → t ∈ ts ∧ t.edited = true := by
    intro p inside t isTarget
    have : t ∈ pending.filterMap PendingBody.target? := List.mem_filterMap.2 ⟨p, inside, isTarget⟩
    rw [targets] at this
    exact List.mem_filter.1 this
  refine ((List.pairwise_filterMap.1 unshifted).imp_of_mem ?_)
  intro p q inside inside' between u isTarget sought body isBody writes
  obtain ⟨inTargets, edited⟩ := member q inside' u isTarget
  cases p with
  | added id block =>
    obtain rfl : body = id := writes
    obtain ⟨body', code, type, places, inBody, -⟩ := inBodies u inTargets edited sought
    have same := undisturbed.unmoved u inTargets edited sought body isBody
    obtain rfl := Option.some.inj (inBody.hasBody.symm.trans same)
    exact fresh body' block inside (ClassSet.hasMethod_of_code inBody.hasCode)
  | matched cls handle block =>
    exact between ⟨cls, handle, block, .keep⟩ rfl u isTarget writes.1 sought body writes.2 isBody

end Declared

namespace ClassSet

/-- What an accepted resolution has found. -/
theorem found_of_resolve {set : ClassSet} {script : Script} {o : ResolveOptions} {r : Resolution}
    (accepted : set.resolve script {} (set.verify script) o = .ok r)
    (alone : (script.targets r.assignment).Pairwise fun t u => t.edited = true →
      t.isSought = true → u.isSought = true → t.body? set ≠ u.body? set) :
    r.scope.Knows set ∧ ∀ t ∈ script.targets r.assignment, t.edited = true → t.isSought = true →
      ∃ body code type places, set.FoundIn r.scope t body code type places ∧
        r.scope.bodies.get? body = some places := by
  have first := firstAccepted_of_resolve accepted
  obtain ⟨knows, bound, verified⟩ := verified_of_accepts first.full first.accepted
  exact ⟨knows, verified.found alone⟩

theorem isSought_of_line {t : MethodTarget} {n : Nat} {l : InsnLine}
    (isLine : t.block.insns[n]? = some l) (sought : l.mode ≠ .add) : t.isSought = true :=
  List.any_eq_true.2 ⟨l, List.mem_of_getElem? isLine, by simpa using sought⟩

/-- Unless an earlier block or the declarations come in between, the applier never disagrees with
the checks if the weak names of members still fit after the declarations; and if the script can be
applied, they do. -/
theorem apply_consistent {set : ClassSet} {script : Script} {o : ResolveOptions} {r : Resolution}
    (accepted : set.resolve script {} (set.verify script) o = .ok r)
    (undisturbed : ∀ applied declared,
      (declare script r.assignment).run ⟨set, r.scope, {}⟩ = .ok applied declared →
      Undisturbed set declared.classes (script.targets r.assignment)) :
    ((∀ applied declared,
        (declare script r.assignment).run ⟨set, r.scope, {}⟩ = .ok applied declared →
        Settled set r.scope declared (script.targets r.assignment)) →
      ∀ e, set.apply script r = .error e → e.isInconsistent = false) ∧
    ∀ result, set.apply script r = .ok result → ∀ applied declared,
      (declare script r.assignment).run ⟨set, r.scope, {}⟩ = .ok applied declared →
      Settled set r.scope declared (script.targets r.assignment) := by
  have full := (firstAccepted_of_resolve accepted).full
  have reach : ∀ applied declared,
      (declare script r.assignment).run ⟨set, r.scope, {}⟩ = .ok applied declared →
      Declared set r.scope declared ∧
        (∀ t ∈ script.targets r.assignment, t.edited = true → t.isSought = true →
          ∃ body code type places, set.FoundIn r.scope t body code type places ∧
            r.scope.bodies.get? body = some places) ∧
        Apart declared.classes (applied.flatMap Prod.snd) := by
    intro applied declared ran
    have undisturbed := undisturbed applied declared ran
    obtain ⟨knows, inBodies⟩ := found_of_resolve accepted undisturbed.alone
    obtain ⟨targets, fresh⟩ := declare_pending full ran
    have changed := (Changes.declare script r.assignment _).ok ran
    exact ⟨⟨knows, changed⟩, inBodies, Declared.apart undisturbed inBodies targets fresh⟩
  have isTarget : ∀ applied declared,
      (declare script r.assignment).run ⟨set, r.scope, {}⟩ = .ok applied declared →
      ∀ t, (∃ p ∈ applied.flatMap Prod.snd, p.target? = some t) ↔
        t ∈ script.targets r.assignment ∧ t.edited = true := by
    intro applied declared ran t
    rw [← List.mem_filterMap, (declare_pending full ran).1, List.mem_filter]
  constructor
  · intro settled e failed
    rcases apply_error failed with ⟨s, ran⟩ | ⟨applied, declared, s, ran, bodies⟩
    · exact (Changes.declare script r.assignment _).error ran
    · obtain ⟨reached, inBodies, apart⟩ := reach applied declared ran
      refine applyBodies_error apart (fun p member t isPending => ?_) bodies
      obtain ⟨inTargets, edited⟩ := (isTarget applied declared ran t).1 ⟨p, member, isPending⟩
      cases sought : t.isSought with
      | false =>
        exact fun _ _ _ _ _ _ => placed_of_onlyAdds (onlyAdds_of_not_sought sought)
      | true =>
        obtain ⟨body, code, type, places, inBody, recorded⟩ := inBodies t inTargets edited sought
        refine reached.ready inBody recorded
          ((undisturbed applied declared ran).unmoved t inTargets edited sought) ?_
        intro n l place insn isLine kept at_ here isBody
        exact settled applied declared ran t inTargets edited body code places isBody inBody.hasCode
          recorded n l place insn isLine kept at_ here
  · intro result succeeded applied declared ran
    obtain ⟨applied', declared', final, ran', bodies, -⟩ := apply_ok succeeded
    obtain ⟨rfl, rfl⟩ := EStateM.Result.ok.inj (ran.symm.trans ran')
    obtain ⟨reached, inBodies, apart⟩ := reach applied declared ran
    intro t inTargets edited body code places isBody isCode recorded n l place insn isLine kept at_
      here
    have sought := isSought_of_line isLine kept
    obtain ⟨p, member, isPending⟩ := (isTarget applied declared ran t).2 ⟨inTargets, edited⟩
    have placed := applyBodies_ok apart bodies p member t isPending
    obtain ⟨body', _, type, _, inBody, -⟩ := inBodies t inTargets edited sought
    have same := (undisturbed applied declared ran).unmoved t inTargets edited sought body isBody
    obtain rfl := Option.some.inj (inBody.hasBody.symm.trans same)
    exact reached.fits_of_placed placed isBody isCode inBody.hasType recorded isLine kept at_ here

/-- The class `a/A`, whose method `m` does nothing. -/
def idleClass : ClassSet :=
  let header : ClassHeader := ⟨"a/A", some objectClass, [], 33, 50, 0, none⟩
  let code : Code := { insns := [.simple 0, .simple Opcode.voidReturn] }
  (insert? {} ⟨header, [], [⟨"m", "()V", 1, [], some code⟩]⟩ none false).getD {}

/-- A class block for `a/A` with blocks for its method that have the given lines. -/
def blocksForIdle (blocks : List (List InsnLine)) : Script :=
  ⟨[⟨.keep, .ordinary, ⟨"a/A", false⟩, 1, [], [], [], blocks.map fun lines =>
    ⟨.keep, ⟨"m", false⟩, "()V", ⟨[], .void⟩, false, false, false, lines, 2⟩⟩]⟩

/-- One block that removes an instruction and finds the next one. -/
def removesNop : Script :=
  blocksForIdle [[⟨.remove, .single 0, .single 0, 3, "-nop"⟩, ⟨.keep, .ret, .ret, 4, ".return"⟩]]

/-- Where the lines of the block are. -/
def removesNopFound : Resolution :=
  ⟨{ bodies := .insert .empty ⟨0⟩ ⟨.insert (.insert .empty 0 0) 1 1, .empty⟩ },
    [⟨some ⟨0⟩, [], [some ⟨0⟩]⟩]⟩

/-- Declaring leaves the body of the method where it is. -/
theorem declare_removesNop :
    (match (declare removesNop removesNopFound.assignment).run
        ⟨idleClass, removesNopFound.scope, {}⟩ with
      | .ok _ declared => (removesNop.targets removesNopFound.assignment).all fun t =>
        t.body? declared.classes == t.body? idleClass
      | .error _ _ => true) = true := by decide +kernel

theorem apply_consistent_removesNop :
    idleClass.resolve removesNop {} (idleClass.verify removesNop) {} = .ok removesNopFound ∧
      ∀ e, idleClass.apply removesNop removesNopFound = .error e → e.isInconsistent = false := by
  have accepted : idleClass.resolve removesNop {} (idleClass.verify removesNop) {} =
    .ok removesNopFound := by decide +kernel
  have reached := declare_removesNop
  refine ⟨accepted, (apply_consistent accepted fun applied declared ran => ?_).1 ?_⟩
  · rw [ran] at reached
    refine ⟨List.pairwise_singleton _ _, fun t member _ _ body isBody => ?_,
      List.pairwise_singleton _ _⟩
    rw [← isBody, eq_of_beq (List.all_eq_true.1 reached t member)]
  · intro applied declared ran t member _ body code places _ _ _ n l place insn isLine _ _ _
    obtain rfl := List.mem_singleton.1 member
    rcases List.mem_pair.1 (List.mem_of_getElem? isLine) with same | same
    · rw [same]
      trivial
    · rw [same]
      trivial

/-- Two blocks for one method. -/
def findsTwice : Script :=
  blocksForIdle [[⟨.keep, .single 0, .single 0, 3, ".nop"⟩, ⟨.keep, .ret, .ret, 4, ".return"⟩],
    [⟨.keep, .any, .any, 7, ".any"⟩, ⟨.keep, .ret, .ret, 8, ".return"⟩]]

/-- Two blocks for one method are accepted, but the matches of the second one replace those of the
first. -/
theorem apply_inconsistent_findsTwice :
    ∃ r, idleClass.resolve findsTwice {} (idleClass.verify findsTwice) {} = .ok r ∧
      idleClass.apply findsTwice r = .error (.inconsistent "a/A" "m" 3 .notMatched) :=
  ⟨⟨{ bodies := .insert .empty ⟨0⟩ ⟨.insert .empty 1 1, .empty⟩ },
    [⟨some ⟨0⟩, [], [some ⟨0⟩, some ⟨0⟩]⟩]⟩, by decide +kernel, by decide +kernel⟩

end ClassSet

end JvmPatch
