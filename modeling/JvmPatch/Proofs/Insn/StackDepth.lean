import JvmPatch.Insn.StackDepth
import JvmPatch.Proofs.Steps

/-! The depth of the operand stack is found exactly where it is defined. Which instructions control
reaches, and with how many slots on the stack, is said without an order of search; the search comes
to an end, and it succeeds if every instruction is reached with one depth and nothing goes wrong
there. -/

set_option autoImplicit false

namespace JvmPatch

/-- The depth after an instruction. -/
def StackEffect.over (effect : StackEffect) (depth : Nat) : Nat :=
  depth - effect.pop.toNat + effect.push.toNat

/-- Calls of subroutines come back with the depth before the call. -/
def Insn.isSubroutineCall : Insn → Bool
  | .jump op _ => op == Opcode.jsr
  | _ => false

namespace Code

/-- The marker of a label stands at a place. -/
def PlacesAt (code : Code) (l : Label) (place : Nat) : Prop := code.insns[place]? = some (.label l)

/-- Where control goes from an instruction, and with which depth, if the depth is `depth` before the
instruction and `after` after it. -/
inductive Continues (code : Code) (index depth after : Nat) (insn : Insn) : Nat → Nat → Prop
  | target {l : Label} {place : Nat} : l ∈ insn.branchTargets → code.PlacesAt l place →
      Continues code index depth after insn place after
  | next : insn.flow.fallsThrough = true → insn.isSubroutineCall = false →
      Continues code index depth after insn (index + 1) after
  | back : insn.isSubroutineCall = true → Continues code index depth after insn (index + 1) depth

/-- Control reaches an instruction with so many slots on the stack. -/
inductive Reaches (code : Code) : Nat → Nat → Prop
  | start : 0 < code.insns.length → Reaches code 0 0
  /-- A handler starts with what has been thrown. -/
  | handler {r : Region} {place : Nat} : r ∈ code.regions → code.PlacesAt r.handler place →
      Reaches code place 1
  | step {index depth place next : Nat} {insn : Insn} {effect : StackEffect} :
      Reaches code index depth → code.insns[index]? = some insn → insn.stackEffect = .ok effect →
      effect.pop.toNat ≤ depth →
      code.Continues index depth (effect.over depth) insn place next → place < code.insns.length →
      Reaches code place next

/-- A depth before or after an instruction that control reaches. -/
inductive Occurs (code : Code) : Nat → Prop
  | before {index depth : Nat} : code.Reaches index depth → Occurs code depth
  | after {index depth : Nat} {insn : Insn} {effect : StackEffect} : code.Reaches index depth →
      code.insns[index]? = some insn → insn.stackEffect = .ok effect →
      Occurs code (effect.over depth)

/-- An instruction can be carried out with so many slots on the stack. -/
structure Bears (code : Code) (depth : Nat) (insn : Insn) (effect : StackEffect) : Prop where
  gives : insn.stackEffect = .ok effect
  enough : effect.pop.toNat ≤ depth
  fits : effect.over depth ≤ 65535
  targets : ∀ l ∈ insn.branchTargets, ∃ place, code.PlacesAt l place

/-- Every instruction that control reaches is reached with one depth and can be carried out with
it. -/
structure HasDepths (code : Code) : Prop where
  handlers : ∀ r ∈ code.regions, ∃ place, code.PlacesAt r.handler place
  bears : ∀ {index depth : Nat} {insn : Insn}, code.Reaches index depth →
    code.insns[index]? = some insn → ∃ effect, code.Bears depth insn effect
  same : ∀ {index depth depth' : Nat}, code.Reaches index depth → code.Reaches index depth' →
    depth = depth'

/-- A number is the greatest depth. A body without instructions has the depth 0. -/
structure Deepest (code : Code) (depth : Nat) : Prop where
  bound : ∀ {n : Nat}, code.Occurs n → n ≤ depth
  occurs : code.Occurs depth ∨ code.insns = [] ∧ depth = 0

variable {code : Code}

theorem PlacesAt.lt {l : Label} {place : Nat} (places : code.PlacesAt l place) :
    place < code.insns.length := (List.getElem?_eq_some_iff.1 places).1

/-- A label that is placed once has one place. -/
theorem PlacesAt.unique (once : code.placedLabels.Nodup) {l : Label} {i j : Nat}
    (first : code.PlacesAt l i) (second : code.PlacesAt l j) : i = j := by
  have apart := List.pairwise_iff_getElem.1 (List.pairwise_filterMap.1 once)
  have clash : ∀ {i j : Nat}, code.PlacesAt l i → code.PlacesAt l j → ¬ i < j := by
    intro i j one two before
    obtain ⟨hi, isFirst⟩ := List.getElem?_eq_some_iff.1 one
    obtain ⟨hj, isSecond⟩ := List.getElem?_eq_some_iff.1 two
    exact apart i j hi hj before l (by rw [isFirst]; rfl) l (by rw [isSecond]; rfl) rfl
  exact Nat.le_antisymm (Nat.le_of_not_lt (clash second first))
    (Nat.le_of_not_lt (clash first second))

end Code

namespace StackDepth

variable {code : Code}

theorem mem_labelPlaces {l : Label} {place : Nat} :
    (l, place) ∈ code.labelPlaces ↔ code.PlacesAt l place := by
  rw [Code.labelPlaces, List.mem_reverse, List.mem_filterMap]
  constructor
  · rintro ⟨⟨insn, i⟩, inside, places⟩
    obtain ⟨found, isLabel, same⟩ := Option.map_eq_some_iff.1 places
    obtain ⟨rfl, rfl⟩ := Prod.mk.inj same
    cases insn with
    | label l' =>
      obtain rfl := Option.some.inj isLabel
      exact List.mk_mem_zipIdx_iff_getElem?.1 inside
    | _ => cases isLabel
  · intro places
    exact ⟨(.label l, place), List.mk_mem_zipIdx_iff_getElem?.2 places, rfl⟩

theorem placesAt_of_placeOf {l : Label} {place : Nat} (found : placeOf code l = .ok place) :
    code.PlacesAt l place := by
  unfold placeOf at found
  split at found
  · rename_i listed
    obtain rfl := Except.ok.inj found
    obtain ⟨front, back, split, -⟩ := List.lookup_eq_some_iff.1 listed
    exact mem_labelPlaces.1 (split ▸ List.mem_append_right _ (.head _))
  · cases found

theorem placeOf_eq_ok (once : code.placedLabels.Nodup) {l : Label} {place : Nat} :
    placeOf code l = .ok place ↔ code.PlacesAt l place := by
  refine ⟨placesAt_of_placeOf, fun places => ?_⟩
  cases found : placeOf code l with
  | ok other => rw [(placesAt_of_placeOf found).unique once places]
  | error e =>
    unfold placeOf at found
    split at found
    · cases found
    · rename_i missing
      simpa using List.lookup_eq_none_iff.1 missing _ (mem_labelPlaces.2 places)

theorem depthAfter_eq_ok {index : Nat} {depth after : UInt16} {effect : StackEffect} :
    depthAfter index depth effect = .ok after ↔
      effect.pop.toNat ≤ depth.toNat ∧ after.toNat = effect.over depth.toNat := by
  unfold depthAfter StackEffect.over
  simp only [UInt16.lt_iff_toNat_lt]
  split
  · constructor
    · intro h
      cases h
    · intro h
      omega
  · rename_i enough
    have sub : (depth - effect.pop).toNat = depth.toNat - effect.pop.toNat :=
      UInt16.toNat_sub_of_le _ _ (UInt16.le_iff_toNat_le.2 (Nat.le_of_not_lt enough))
    rw [sub]
    split
    · rename_i fits
      constructor
      · intro h
        obtain rfl := Except.ok.inj h
        exact ⟨Nat.le_of_not_lt enough,
          UInt16.toNat_ofNat_of_lt' (by simpa using Nat.lt_succ_of_le fits)⟩
      · rintro ⟨-, same⟩
        rw [← same, UInt16.ofNat_toNat]
    · rename_i overflows
      constructor
      · intro h
        cases h
      · rintro ⟨-, same⟩
        have := after.toNat_lt
        omega

/-- Where control goes apart from the targets of branches. -/
def onward (index : Nat) (depth after : UInt16) (insn : Insn) : List Arrival :=
  if insn.isSubroutineCall then [⟨index + 1, depth⟩]
  else if insn.flow.fallsThrough then [⟨index + 1, after⟩]
  else []

theorem arrivalsFrom_eq (index : Nat) (depth after : UInt16) (insn : Insn) :
    arrivalsFrom code index depth after insn = (do
      let targets ← insn.branchTargets.mapM fun l => (placeOf code l).map fun i =>
        Arrival.mk i after
      pure (targets ++ onward index depth after insn)) := by
  unfold arrivalsFrom onward Insn.isSubroutineCall
  refine congrArg (_ >>= ·) (funext fun targets => ?_)
  cases insn with
  | jump op l =>
    simp only [beq_iff_eq]
    split_ifs <;> simp
  | _ =>
    simp only [Bool.false_eq_true, if_false]
    split_ifs <;> simp

/-- An arrival at an instruction with a depth is in a list. -/
def Waits (as : List Arrival) (index depth : Nat) : Prop :=
  ∃ a ∈ as, a.index = index ∧ a.depth.toNat = depth

theorem waits_append {as bs : List Arrival} {index depth : Nat} :
    Waits (as ++ bs) index depth ↔ Waits as index depth ∨ Waits bs index depth := by
  simp only [Waits, List.mem_append, or_and_right, exists_or]

theorem waits_cons {a : Arrival} {as : List Arrival} {index depth : Nat} :
    Waits (a :: as) index depth ↔ (a.index = index ∧ a.depth.toNat = depth) ∨
      Waits as index depth := by
  simp only [Waits, List.mem_cons, or_and_right, exists_or, exists_eq_left]

theorem waits_onward {index place next : Nat} {depth after : UInt16} {insn : Insn} :
    Waits (onward index depth after insn) place next ↔ place = index + 1 ∧
      ((insn.isSubroutineCall = true ∧ next = depth.toNat) ∨
        (insn.isSubroutineCall = false ∧ insn.flow.fallsThrough = true ∧ next = after.toNat)) := by
  unfold onward
  cases call : insn.isSubroutineCall with
  | true => simp [Waits, @eq_comm Nat (index + 1), @eq_comm Nat depth.toNat]
  | false =>
    cases falls : insn.flow.fallsThrough with
    | true => simp [Waits, @eq_comm Nat (index + 1), @eq_comm Nat after.toNat]
    | false => simp [Waits]

/-- What follows an instruction are the places where control goes from it. -/
theorem waits_of_arrivalsFrom (once : code.placedLabels.Nodup) {index : Nat} {depth after : UInt16}
    {insn : Insn} {as : List Arrival} (found : arrivalsFrom code index depth after insn = .ok as)
    {place next : Nat} :
    Waits as place next ↔ code.Continues index depth.toNat after.toNat insn place next := by
  rw [arrivalsFrom_eq] at found
  obtain ⟨targets, isTargets, found⟩ := bind_eq_ok found
  obtain rfl := Except.ok.inj found
  have each := forall₂_of_mapM_ok isTargets
  rw [waits_append, waits_onward]
  constructor
  · rintro (⟨a, member, rfl, rfl⟩ | ⟨rfl, ⟨call, rfl⟩ | ⟨noCall, falls, rfl⟩⟩)
    · obtain ⟨l, target, isPlace⟩ := exists_mem_of_mem_right each member
      cases placed : placeOf code l with
      | error e =>
        rw [placed] at isPlace
        cases isPlace
      | ok i =>
        rw [placed] at isPlace
        obtain rfl := Except.ok.inj isPlace
        exact .target target (placesAt_of_placeOf placed)
    · exact .back call
    · exact .next falls noCall
  · rintro (⟨target, placed⟩ | ⟨falls, noCall⟩ | call)
    · refine .inl ?_
      obtain ⟨a, member, isPlace⟩ := exists_mem_of_mem_right each.flip target
      rw [(placeOf_eq_ok once).2 placed] at isPlace
      obtain rfl := Except.ok.inj isPlace
      exact ⟨_, member, rfl, rfl⟩
    · exact .inr ⟨rfl, .inr ⟨noCall, falls, rfl⟩⟩
    · exact .inr ⟨rfl, .inl ⟨call, rfl⟩⟩

theorem targets_of_arrivalsFrom {index : Nat} {depth after : UInt16} {insn : Insn}
    {as : List Arrival} (found : arrivalsFrom code index depth after insn = .ok as) :
    ∀ l ∈ insn.branchTargets, ∃ place, code.PlacesAt l place := by
  rw [arrivalsFrom_eq] at found
  obtain ⟨targets, isTargets, -⟩ := bind_eq_ok found
  intro l member
  obtain ⟨a, -, isPlace⟩ := exists_mem_of_mem_right (forall₂_of_mapM_ok isTargets).flip member
  cases placed : placeOf code l with
  | error e =>
    rw [placed] at isPlace
    cases isPlace
  | ok place => exact ⟨place, placesAt_of_placeOf placed⟩

theorem exists_mapM_placeOf {α β : Type} (once : code.placedLabels.Nodup) {xs : List α}
    {label : α → Label} (placed : ∀ x ∈ xs, ∃ place, code.PlacesAt (label x) place) (f : Nat → β) :
    ∃ ys, (xs.mapM fun x => (placeOf code (label x)).map f) = .ok ys := by
  induction xs with
  | nil => exact ⟨[], rfl⟩
  | cons x xs ih =>
    obtain ⟨place, places⟩ := placed x List.mem_cons_self
    obtain ⟨ys, others⟩ := ih fun y member => placed y (.tail _ member)
    refine ⟨f place :: ys, ?_⟩
    rw [List.mapM_cons, (placeOf_eq_ok once).2 places, ok_map, ok_bind, others]
    rfl

theorem exists_arrivalsFrom (once : code.placedLabels.Nodup) {insn : Insn}
    (placed : ∀ l ∈ insn.branchTargets, ∃ place, code.PlacesAt l place) (index : Nat)
    (depth after : UInt16) :
    ∃ next, arrivalsFrom code index depth after insn = .ok next := by
  obtain ⟨targets, isTargets⟩ := exists_mapM_placeOf once placed fun i => Arrival.mk i after
  refine ⟨targets ++ onward index depth after insn, ?_⟩
  rw [arrivalsFrom_eq]
  rw [isTargets]
  rfl

/-- An instruction has been reached with a depth. -/
def Progress.Has (p : Progress) (index depth : Nat) : Prop :=
  ∃ w : UInt16, p.depths[index]? = some (some w) ∧ w.toNat = depth

theorem Progress.Has.unique {p : Progress} {index depth depth' : Nat} (first : p.Has index depth)
    (second : p.Has index depth') : depth = depth' := by
  obtain ⟨w, found, rfl⟩ := first
  obtain ⟨w', found', rfl⟩ := second
  rw [found] at found'
  obtain rfl := Option.some.inj (Option.some.inj found')
  rfl

theorem toNat_max (a b : UInt16) : (max a b).toNat = max a.toNat b.toNat := by
  rw [show max a b = if a ≤ b then b else a from rfl]
  split
  · rename_i le
    exact (Nat.max_eq_right (UInt16.le_iff_toNat_le.1 le)).symm
  · rename_i gt
    exact (Nat.max_eq_left (Nat.le_of_not_le fun le => gt (UInt16.le_iff_toNat_le.2 le))).symm

/-- The search once it has taken in that an instruction is reached for the first time. -/
def Progress.afterFirst (p : Progress) (a : Arrival) (after : UInt16) : Progress :=
  ⟨p.depths.setIfInBounds a.index (some a.depth), max (max p.deepest a.depth) after⟩

/-- The ways in which an arrival is taken in: there is no instruction, it has been reached with the
same depth before, or it is reached for the first time. -/
inductive Takes (code : Code) (p : Progress) (a : Arrival) : Progress → List Arrival → Prop
  | beyond : code.insns[a.index]? = none → Takes code p a p []
  | again : p.depths[a.index]? = some (some a.depth) → Takes code p a p []
  | first {insn : Insn} {effect : StackEffect} {after : UInt16} {next : List Arrival} :
      code.insns[a.index]? = some insn → (p.depths[a.index]?).getD none = none →
      insn.stackEffect = .ok effect → depthAfter a.index a.depth effect = .ok after →
      arrivalsFrom code a.index a.depth after insn = .ok next →
      Takes code p a (p.afterFirst a after) next

theorem takes_of_arrive {p q : Progress} {a : Arrival} {next : List Arrival}
    (arrived : arrive code p a = .ok (q, next)) : Takes code p a q next := by
  unfold arrive at arrived
  split at arrived
  · cases arrived
    exact .beyond ‹_›
  · rename_i insn isInsn
    split at arrived
    · rename_i seen isSeen
      split at arrived
      · rename_i same
        cases arrived
        refine .again ?_
        rw [← same]
        cases found : p.depths[a.index]? with
        | none => rw [found] at isSeen; cases isSeen
        | some d => rw [found, Option.getD_some] at isSeen; rw [isSeen]
      · cases arrived
    · obtain ⟨effect, isEffect, arrived⟩ := bind_eq_ok arrived
      obtain ⟨after, isAfter, arrived⟩ := bind_eq_ok arrived
      obtain ⟨following, isNext, arrived⟩ := bind_eq_ok arrived
      cases arrived
      exact .first isInsn ‹_› isEffect isAfter isNext

/-- The instructions that have not been reached. -/
def Progress.unseen (p : Progress) : Nat := p.depths.countP fun d => d.isNone

/-- The search goes on only from an instruction that is reached for the first time. -/
theorem Takes.unseen_lt {p q : Progress} {a : Arrival} {next : List Arrival}
    (size : p.depths.size = code.insns.length) (takes : Takes code p a q next) :
    q.unseen ≤ p.unseen ∧ (next ≠ [] → q.unseen < p.unseen) := by
  cases takes with
  | beyond | again => exact ⟨Nat.le_refl _, fun some => absurd rfl some⟩
  | @first insn effect after next isInsn new =>
    have inside : a.index < p.depths.size := by
      rw [size]
      exact (List.getElem?_eq_some_iff.1 isInsn).1
    have free : p.depths[a.index] = none := by
      rwa [Array.getElem?_eq_getElem inside, Option.getD_some] at new
    have one : 0 < p.unseen := Array.countP_pos_iff.2 ⟨_, Array.getElem_mem inside, by simp [free]⟩
    have fewer : (p.afterFirst a after).unseen = p.unseen - 1 := by
      unfold Progress.afterFirst Progress.unseen
      rw [Array.setIfInBounds_def, dif_pos inside, Array.countP_set, free]
      simp
    exact ⟨by omega, fun _ => by omega⟩

theorem has_afterFirst {p : Progress} {a : Arrival} {after : UInt16}
    (inside : a.index < p.depths.size) {index depth : Nat} :
    (p.afterFirst a after).Has index depth ↔
      (index = a.index ∧ depth = a.depth.toNat) ∨ (index ≠ a.index ∧ p.Has index depth) := by
  unfold Progress.Has Progress.afterFirst
  rw [Array.getElem?_setIfInBounds]
  by_cases same : a.index = index
  · subst same
    simp [inside, eq_comm]
  · simp [same, Ne.symm same]

section Taking

variable {p q : Progress} {a : Arrival} {as next : List Arrival}

theorem Takes.has (takes : Takes code p a q next) {index depth : Nat}
    (size : p.depths.size = code.insns.length) (has : p.Has index depth) : q.Has index depth := by
  cases takes with
  | beyond | again => exact has
  | first isInsn new =>
    have inside := size ▸ (List.getElem?_eq_some_iff.1 isInsn).1
    refine (has_afterFirst inside).2 (.inr ⟨?_, has⟩)
    rintro rfl
    obtain ⟨w, found, -⟩ := has
    rw [found] at new
    cases new

/-- An arrival at an instruction that has been taken in is not lost. -/
theorem Takes.hasTaken (takes : Takes code p a q next) (size : p.depths.size = code.insns.length)
    (inside : a.index < code.insns.length) : q.Has a.index a.depth.toNat := by
  cases takes with
  | beyond missing =>
    rw [List.getElem?_eq_getElem inside] at missing
    cases missing
  | again found => exact ⟨a.depth, found, rfl⟩
  | first => exact (has_afterFirst (size ▸ inside)).2 (.inl ⟨rfl, rfl⟩)

theorem Takes.deepest_le (takes : Takes code p a q next) : p.deepest.toNat ≤ q.deepest.toNat := by
  cases takes with
  | beyond | again => exact Nat.le_refl _
  | @first insn effect after =>
    unfold Progress.afterFirst
    simp only [toNat_max]
    omega

end Taking

/-- An instruction has been reached with a depth, or an arrival there waits. -/
def Seen (p : Progress) (as : List Arrival) (index depth : Nat) : Prop :=
  p.Has index depth ∨ Waits as index depth

theorem Takes.seen {p q : Progress} {a : Arrival} {as next : List Arrival}
    (takes : Takes code p a q next) (size : p.depths.size = code.insns.length) {index depth : Nat}
    (inside : index < code.insns.length) (seen : Seen p (a :: as) index depth) :
    Seen q (next ++ as) index depth := by
  rcases seen with has | waits
  · exact .inl (takes.has size has)
  · rcases waits_cons.1 waits with ⟨rfl, rfl⟩ | waits
    · exact .inl (takes.hasTaken size inside)
    · exact .inr (waits_append.2 (.inr waits))

/-- What the search knows of an instruction that it has reached. -/
structure Done (code : Code) (p : Progress) (as : List Arrival) (index depth : Nat) (insn : Insn)
    (effect : StackEffect) : Prop where
  bears : code.Bears depth insn effect
  before : depth ≤ p.deepest.toNat
  after : effect.over depth ≤ p.deepest.toNat
  onward : ∀ {place next : Nat}, code.Continues index depth (effect.over depth) insn place next →
    place < code.insns.length → Seen p as place next

/-- The search has found nothing but what control reaches, and what control reaches next it has
found or will take in. -/
structure Tracks (code : Code) (p : Progress) (as : List Arrival) : Prop where
  size : p.depths.size = code.insns.length
  has : ∀ {index depth : Nat}, p.Has index depth → code.Reaches index depth
  waits : ∀ {index depth : Nat}, Waits as index depth → index < code.insns.length →
    code.Reaches index depth
  start : 0 < code.insns.length → Seen p as 0 0
  handlers : ∀ r ∈ code.regions, ∃ place, code.PlacesAt r.handler place ∧ Seen p as place 1
  isDone : ∀ {index depth : Nat} {insn : Insn}, p.Has index depth → code.insns[index]? = some insn →
    ∃ effect, Done code p as index depth insn effect
  deepest : code.Occurs p.deepest.toNat ∨ p.deepest = 0

theorem occurs_max {a b : UInt16} (first : code.Occurs a.toNat ∨ a = 0)
    (second : code.Occurs b.toNat) :
    code.Occurs (max a b).toNat ∨ max a b = 0 := by
  rw [show max a b = if a ≤ b then b else a from rfl]
  split
  · exact .inl second
  · exact first

namespace Tracks

variable {p q : Progress} {a : Arrival} {as next : List Arrival}

theorem congr (tracks : Tracks code p as) {bs : List Arrival}
    (same : ∀ {index depth : Nat}, Waits as index depth ↔ Waits bs index depth) :
    Tracks code p bs := by
  have seen : ∀ {index depth : Nat}, Seen p as index depth → Seen p bs index depth :=
    fun found => found.imp_right same.1
  refine ⟨tracks.size, tracks.has, fun waits => tracks.waits (same.2 waits),
    fun some => seen (tracks.start some), fun r member => ?_, fun has isInsn => ?_, tracks.deepest⟩
  · obtain ⟨place, places, found⟩ := tracks.handlers r member
    exact ⟨place, places, seen found⟩
  · obtain ⟨effect, done⟩ := tracks.isDone has isInsn
    exact ⟨effect, done.bears, done.before, done.after,
      fun goes inside => seen (done.onward goes inside)⟩

/-- What is known of an instruction stays known. -/
theorem done_of_takes (tracks : Tracks code p (a :: as)) (takes : Takes code p a q next)
    {index depth : Nat} {insn : Insn} (has : p.Has index depth)
    (isInsn : code.insns[index]? = some insn) :
    ∃ effect, Done code q (next ++ as) index depth insn effect := by
  obtain ⟨effect, done⟩ := tracks.isDone has isInsn
  exact ⟨effect, done.bears, Nat.le_trans done.before takes.deepest_le,
    Nat.le_trans done.after takes.deepest_le, fun goes inside =>
      takes.seen tracks.size inside (done.onward goes inside)⟩

/-- What control reaches from the instruction of an arrival that is taken in. -/
theorem take (once : code.placedLabels.Nodup) (tracks : Tracks code p (a :: as))
    (takes : Takes code p a q next) : Tracks code q (next ++ as) := by
  have start : 0 < code.insns.length → Seen q (next ++ as) 0 0 :=
    fun some => takes.seen tracks.size some (tracks.start some)
  have handlers : ∀ r ∈ code.regions, ∃ place, code.PlacesAt r.handler place ∧
      Seen q (next ++ as) place 1 := by
    intro r member
    obtain ⟨place, places, found⟩ := tracks.handlers r member
    exact ⟨place, places, takes.seen tracks.size places.lt found⟩
  have done {index depth : Nat} {insn : Insn} (has : p.Has index depth)
      (isInsn : code.insns[index]? = some insn) :=
    tracks.done_of_takes takes has isInsn
  cases takes with
  | beyond | again =>
    exact ⟨tracks.size, tracks.has, fun waits => tracks.waits (waits_cons.2 (.inr waits)), start,
      handlers, done, tracks.deepest⟩
  | @first insn effect after next isInsn new isEffect isAfter isNext =>
    have inside := (List.getElem?_eq_some_iff.1 isInsn).1
    obtain ⟨enough, isOver⟩ := depthAfter_eq_ok.1 isAfter
    have reached : code.Reaches a.index a.depth.toNat :=
      tracks.waits (waits_cons.2 (.inl ⟨rfl, rfl⟩)) inside
    have goes : ∀ {place depth : Nat}, Waits next place depth ↔
        code.Continues a.index a.depth.toNat (effect.over a.depth.toNat) insn place depth := by
      intro place depth
      rw [← isOver]
      exact waits_of_arrivalsFrom once isNext
    refine ⟨by rw [← tracks.size]; exact Array.size_setIfInBounds, fun has => ?_,
      fun waits some => ?_, start, handlers, fun has isInsn' => ?_, ?_⟩
    · rcases (has_afterFirst (tracks.size ▸ inside)).1 has with ⟨rfl, rfl⟩ | ⟨-, has⟩
      · exact reached
      · exact tracks.has has
    · rcases waits_append.1 waits with waits | waits
      · exact .step reached isInsn isEffect enough (goes.1 waits) some
      · exact tracks.waits (waits_cons.2 (.inr waits)) some
    · rcases (has_afterFirst (tracks.size ▸ inside)).1 has with ⟨rfl, rfl⟩ | ⟨-, has⟩
      · obtain rfl := Option.some.inj (isInsn.symm.trans isInsn')
        have deepest : (p.afterFirst a after).deepest.toNat =
            max (max p.deepest.toNat a.depth.toNat) (effect.over a.depth.toNat) := by
          rw [Progress.afterFirst, toNat_max, toNat_max, isOver]
        have fits := after.toNat_lt
        exact ⟨effect, ⟨isEffect, enough, by omega, targets_of_arrivalsFrom isNext⟩, by
          omega, by omega,
          fun onward _ => .inr (waits_append.2 (.inl (goes.2 onward)))⟩
      · exact done has isInsn'
    · refine occurs_max (occurs_max tracks.deepest (.before reached)) ?_
      rw [isOver]
      exact .after reached isInsn isEffect

end Tracks

/-- Once nothing waits, everything that control reaches has been found. -/
theorem Tracks.has_of_reaches (once : code.placedLabels.Nodup) {p : Progress}
    (tracks : Tracks code p []) {index depth : Nat} (reached : code.Reaches index depth) :
    p.Has index depth := by
  have seen : ∀ {index depth : Nat}, Seen p [] index depth → p.Has index depth := by
    rintro index depth (has | ⟨a, member, -⟩)
    · exact has
    · cases member
  induction reached with
  | start some => exact seen (tracks.start some)
  | handler member places =>
    obtain ⟨place, places', found⟩ := tracks.handlers _ member
    rw [places.unique once places']
    exact seen found
  | step _ isInsn isEffect _ goes inside ih =>
    obtain ⟨effect, done⟩ := tracks.isDone ih isInsn
    obtain rfl := Except.ok.inj (isEffect.symm.trans done.bears.gives)
    exact seen (done.onward goes inside)

/-- Once nothing waits, the depths are those of the body. -/
theorem Tracks.hasDepths (once : code.placedLabels.Nodup) {p : Progress}
    (tracks : Tracks code p []) :
    code.HasDepths where
  handlers r member := by
    obtain ⟨place, places, -⟩ := tracks.handlers r member
    exact ⟨place, places⟩
  bears reached isInsn := by
    obtain ⟨effect, done⟩ := tracks.isDone (tracks.has_of_reaches once reached) isInsn
    exact ⟨effect, done.bears⟩
  same first second := (tracks.has_of_reaches once first).unique (tracks.has_of_reaches once second)

theorem Code.Reaches.lt {index depth : Nat} (reached : code.Reaches index depth) :
    index < code.insns.length := by
  cases reached with
  | start some => exact some
  | handler _ places => exact places.lt
  | step _ _ _ _ _ inside => exact inside

theorem Tracks.isDeepest (once : code.placedLabels.Nodup) {p : Progress}
    (tracks : Tracks code p []) :
    code.Deepest p.deepest.toNat where
  bound occurs := by
    cases occurs with
    | before reached =>
      have has := tracks.has_of_reaches once reached
      obtain ⟨effect, done⟩ :=
        tracks.isDone has (List.getElem?_eq_getElem (Code.Reaches.lt reached))
      exact done.before
    | after reached isInsn isEffect =>
      obtain ⟨effect, done⟩ := tracks.isDone (tracks.has_of_reaches once reached) isInsn
      obtain rfl := Except.ok.inj (isEffect.symm.trans done.bears.gives)
      exact done.after
  occurs := by
    rcases tracks.deepest with occurs | zero
    · exact .inl occurs
    · rw [zero]
      by_cases empty : code.insns = []
      · exact .inr ⟨empty, rfl⟩
      · exact .inl (.before (.start (List.length_pos_iff.2 empty)))

/-- The search before anything has been taken in. -/
theorem tracks_start {handlers : List Arrival}
    (isHandlers : (code.regions.mapM fun r => (placeOf code r.handler).map
      fun i => Arrival.mk i 1) = .ok handlers) :
    Tracks code { depths := Array.replicate code.insns.length none } (⟨0, 0⟩ :: handlers) := by
  have each := forall₂_of_mapM_ok isHandlers
  have none_ : ∀ {index depth : Nat},
      ¬ Progress.Has { depths := Array.replicate code.insns.length none } index depth := by
    rintro index depth ⟨w, found, -⟩
    rw [Array.getElem?_replicate] at found
    split at found <;> cases found
  have isPlace : ∀ {r : Region} {a : Arrival},
      (placeOf code r.handler).map (fun i => Arrival.mk i 1) = .ok a →
      ∃ place, code.PlacesAt r.handler place ∧ a = ⟨place, 1⟩ := by
    intro r a found
    cases placed : placeOf code r.handler with
    | error e =>
      rw [placed] at found
      cases found
    | ok place =>
      rw [placed] at found
      exact ⟨place, placesAt_of_placeOf placed, (Except.ok.inj found).symm⟩
  refine ⟨Array.size_replicate, fun has => (none_ has).elim, fun waits inside => ?_,
    fun _ => .inr (waits_cons.2 (.inl ⟨rfl, rfl⟩)), fun r member => ?_, fun has =>
      (none_ has).elim, .inr rfl⟩
  · rcases waits_cons.1 waits with ⟨rfl, rfl⟩ | ⟨a, member, rfl, rfl⟩
    · exact .start inside
    · obtain ⟨r, isRegion, found⟩ := exists_mem_of_mem_right each member
      obtain ⟨place, places, rfl⟩ := isPlace found
      exact .handler isRegion places
  · obtain ⟨a, inside, found⟩ := exists_mem_of_mem_right each.flip member
    obtain ⟨place, places, rfl⟩ := isPlace found
    exact ⟨place, places, .inr (waits_cons.2 (.inr ⟨_, inside, rfl, rfl⟩))⟩

/-- Where the depths are defined, every arrival can be taken in. -/
theorem Tracks.exists_arrive (once : code.placedLabels.Nodup) (depths : code.HasDepths)
    {p : Progress} {a : Arrival} {as : List Arrival} (tracks : Tracks code p (a :: as)) :
    ∃ q next, arrive code p a = .ok (q, next) := by
  unfold arrive
  cases isInsn : code.insns[a.index]? with
  | none => exact ⟨p, [], rfl⟩
  | some insn =>
    have inside := (List.getElem?_eq_some_iff.1 isInsn).1
    have reached := tracks.waits (waits_cons.2 (.inl ⟨rfl, rfl⟩)) inside
    dsimp only
    split
    · rename_i seen isSeen
      have has : p.Has a.index seen.toNat := by
        refine ⟨seen, ?_, rfl⟩
        rw [Array.getElem?_eq_getElem (tracks.size ▸ inside)] at isSeen ⊢
        exact congrArg some isSeen
      have same : seen = a.depth := UInt16.toNat_inj.1 (depths.same (tracks.has has) reached)
      rw [if_pos same]
      exact ⟨p, [], rfl⟩
    · obtain ⟨effect, bears⟩ := depths.bears reached isInsn
      have isAfter : depthAfter a.index a.depth effect =
          .ok (UInt16.ofNat (effect.over a.depth.toNat)) :=
        depthAfter_eq_ok.2 ⟨bears.enough, UInt16.toNat_ofNat_of_lt' (Nat.lt_succ_of_le bears.fits)⟩
      obtain ⟨next, isNext⟩ := exists_arrivalsFrom once bears.targets a.index a.depth
        (UInt16.ofNat (effect.over a.depth.toNat))
      rw [bears.gives, ok_bind, isAfter, ok_bind, isNext]
      exact ⟨_, _, rfl⟩

/-- What an arrival brings can wait behind what waits already. -/
theorem Tracks.arrive (once : code.placedLabels.Nodup) {p q : Progress} {a : Arrival}
    {as more next : List Arrival} (tracks : Tracks code p (a :: as ++ more))
    (arrived : arrive code p a = .ok (q, next)) : Tracks code q (as ++ (next ++ more)) :=
  (tracks.take once (takes_of_arrive arrived)).congr fun {_ _} => by
    change Waits (next ++ (as ++ more)) _ _ ↔ _
    simp only [waits_append, or_left_comm]

/-- A round keeps track of what waits, and finds something new if anything waits after it. -/
theorem arriveAll_tracks (once : code.placedLabels.Nodup) {p q : Progress} {as next : List Arrival}
    (round : arriveAll code p as = .ok (q, next)) {more : List Arrival}
    (tracks : Tracks code p (as ++ more)) :
    Tracks code q (next ++ more) ∧ q.unseen ≤ p.unseen ∧ (next ≠ [] → q.unseen < p.unseen) := by
  induction as generalizing p q next more with
  | nil =>
    cases round
    exact ⟨tracks, Nat.le_refl _, fun some => absurd rfl some⟩
  | cons a as ih =>
    obtain ⟨⟨middle, one⟩, first, round⟩ := bind_eq_ok round
    obtain ⟨⟨last, rest⟩, others, round⟩ := bind_eq_ok round
    cases round
    obtain ⟨le, lt⟩ := (takes_of_arrive first).unseen_lt tracks.size
    obtain ⟨tracks, le', lt'⟩ := ih others (tracks.arrive once first)
    refine ⟨tracks.congr fun {_ _} => ?_, Nat.le_trans le' le, fun some => ?_⟩
    · simp only [waits_append, or_left_comm, or_assoc]
    · by_cases empty : one = []
      · exact Nat.lt_of_lt_of_le (lt' fun none_ => some (by rw [empty, none_]; rfl)) le
      · exact Nat.lt_of_le_of_lt le' (lt empty)

theorem exists_arriveAll (once : code.placedLabels.Nodup) (depths : code.HasDepths) {p : Progress}
    {as more : List Arrival} (tracks : Tracks code p (as ++ more)) :
    ∃ q next, arriveAll code p as = .ok (q, next) := by
  induction as generalizing p more with
  | nil => exact ⟨p, [], rfl⟩
  | cons a as ih =>
    obtain ⟨middle, one, first⟩ := tracks.exists_arrive once depths
    obtain ⟨q, rest, others⟩ := ih (tracks.arrive once first)
    refine ⟨q, one ++ rest, ?_⟩
    rw [arriveAll, first, ok_bind]
    dsimp only
    rw [others]
    rfl

theorem follow_nil (fuel : Nat) (p : Progress) : follow code fuel p [] = .ok p := by
  induction fuel with
  | zero => rfl
  | succ fuel ih => exact ih

/-- With more rounds than there are instructions to be found the search comes to its end. -/
theorem follow_tracks (once : code.placedLabels.Nodup) {fuel : Nat} {p q : Progress}
    {as : List Arrival} (enough : p.unseen < fuel) (tracks : Tracks code p as)
    (ran : follow code fuel p as = .ok q) :
    Tracks code q [] := by
  induction fuel generalizing p as with
  | zero => exact absurd enough (Nat.not_lt_zero _)
  | succ fuel ih =>
    obtain ⟨⟨middle, next⟩, round, ran⟩ := bind_eq_ok ran
    dsimp only at ran
    obtain ⟨tracks, -, fewer⟩ :=
      arriveAll_tracks once round (by rwa [List.append_nil] : Tracks code p (as ++ []))
    rw [List.append_nil] at tracks
    by_cases last : next = []
    · subst last
      rw [follow_nil] at ran
      obtain rfl := Except.ok.inj ran
      exact tracks
    · have := fewer last
      exact ih (by omega) tracks ran

theorem exists_follow (once : code.placedLabels.Nodup) (depths : code.HasDepths) (fuel : Nat)
    {p : Progress} {as : List Arrival} (tracks : Tracks code p as) :
    ∃ q, follow code fuel p as = .ok q := by
  induction fuel generalizing p as with
  | zero => exact ⟨p, rfl⟩
  | succ fuel ih =>
    have here : Tracks code p (as ++ []) := by rwa [List.append_nil]
    obtain ⟨middle, next, round⟩ := exists_arriveAll once depths here
    obtain ⟨tracks, -⟩ := arriveAll_tracks once round here
    rw [List.append_nil] at tracks
    obtain ⟨q, ran⟩ := ih tracks
    refine ⟨q, ?_⟩
    rw [follow, round, ok_bind]
    exact ran

end StackDepth

open StackDepth in
/-- The depth is found exactly if every instruction that control reaches has one depth and can be
carried out with it, and then it is the greatest one. -/
theorem Code.stackDepth_eq_ok_iff (code : Code) (once : code.placedLabels.Nodup) :
    ((∃ d, code.stackDepth = .ok d) ↔ code.HasDepths) ∧
      ∀ d, code.stackDepth = .ok d → code.Deepest d.toNat := by
  have unseen : Progress.unseen { depths := Array.replicate code.insns.length none } <
      code.insns.length + 1 := by
    simp [Progress.unseen, Array.countP_replicate]
  have ended : ∀ d, code.stackDepth = .ok d → ∃ p, Tracks code p [] ∧ p.deepest = d := by
    intro d found
    obtain ⟨handlers, isHandlers, found⟩ := bind_eq_ok found
    obtain ⟨p, ran, found⟩ := bind_eq_ok found
    exact ⟨p, follow_tracks once unseen (tracks_start isHandlers) ran, Except.ok.inj found⟩
  refine ⟨⟨fun ⟨d, found⟩ => ?_, fun depths => ?_⟩, fun d found => ?_⟩
  · obtain ⟨p, tracks, -⟩ := ended d found
    exact tracks.hasDepths once
  · obtain ⟨handlers, isHandlers⟩ :=
      exists_mapM_placeOf once depths.handlers fun i => Arrival.mk i 1
    obtain ⟨p, ran⟩ := exists_follow once depths (code.insns.length + 1) (tracks_start isHandlers)
    refine ⟨p.deepest, ?_⟩
    rw [Code.stackDepth, isHandlers, ok_bind]
    dsimp only
    rw [ran]
    rfl
  · obtain ⟨p, tracks, rfl⟩ := ended d found
    exact tracks.isDeepest once

/-- A loop that calls a subroutine, and a handler for all of it. -/
def subroutineLoop : Code :=
  { insns := [.label ⟨0⟩, .push (.long 1), .push (.long 2), .simple Opcode.lcmp,
      .jump Opcode.ifeq ⟨1⟩, .jump Opcode.jsr ⟨2⟩, .jump Opcode.goto ⟨0⟩,
      .label ⟨1⟩, .simple Opcode.voidReturn,
      .label ⟨2⟩, .var Opcode.astore 1, .var Opcode.ret 1,
      .label ⟨3⟩, .simple Opcode.athrow]
    regions := [⟨⟨0⟩, ⟨3⟩, ⟨3⟩, none⟩]
    nextLabel := 4 }

theorem Code.stackDepth_eq_ok_iff_subroutineLoop : subroutineLoop.placedLabels.Nodup ∧
    subroutineLoop.stackDepth = .ok 4 ∧ subroutineLoop.HasDepths ∧ subroutineLoop.Deepest 4 := by
  have once : subroutineLoop.placedLabels.Nodup := by decide
  have found : subroutineLoop.stackDepth = .ok 4 := by decide +kernel
  have exact_ := Code.stackDepth_eq_ok_iff subroutineLoop once
  exact ⟨once, found, exact_.1.1 ⟨4, found⟩, exact_.2 4 found⟩

end JvmPatch
